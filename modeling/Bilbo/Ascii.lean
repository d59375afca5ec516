import Bilbo.Base.Utf8

/-!
# The bytes the scanners compare with
-/

namespace Bilbo
namespace Ascii

abbrev tab : UInt8 := 0x09
abbrev newline : UInt8 := 0x0A
abbrev return' : UInt8 := 0x0D
abbrev space : UInt8 := 0x20
abbrev quote : UInt8 := 0x22
abbrev plus : UInt8 := 0x2B
abbrev comma : UInt8 := 0x2C
abbrev minus : UInt8 := 0x2D
abbrev dot : UInt8 := 0x2E
abbrev slash : UInt8 := 0x2F
abbrev zero : UInt8 := 0x30
abbrev nine : UInt8 := 0x39
abbrev colon : UInt8 := 0x3A
abbrev lbracket : UInt8 := 0x5B
abbrev backslash : UInt8 := 0x5C
abbrev rbracket : UInt8 := 0x5D
abbrev lbrace : UInt8 := 0x7B
abbrev rbrace : UInt8 := 0x7D

/-- `u8::is_ascii_digit` -/
def isDigit (b : UInt8) : Bool := zero ≤ b && b ≤ nine

/-- `u8::is_ascii_whitespace`: space, tab, newline, form feed, carriage return -/
def isWhitespace (b : UInt8) : Bool :=
  b == space || b == tab || b == newline || b == 0x0C || b == return'

end Ascii
end Bilbo
