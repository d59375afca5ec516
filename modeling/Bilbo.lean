import Bilbo.Emit
import Bilbo.Dispatch
import Bilbo.Interp
import Bilbo.Resolve
import Bilbo.Progress
import Bilbo.Threads
import Bilbo.Frames
import Bilbo.Vectors
import Bilbo.Layouts
import Bilbo.Extent
import Bilbo.OptionShape
import Bilbo.DefIndex
import Bilbo.Trampolines
import Bilbo.Scopes
import Bilbo.Keys
import Bilbo.Spans
import Bilbo.Stored
import Bilbo.Scanning
import Bilbo.Chars
import Bilbo.Skipping
import Bilbo.Integers
import Bilbo.OptionBytes
import Bilbo.Repeated
import Bilbo.Agreement
import Bilbo.Recursion
import Bilbo.Absent
import Bilbo.Stubs
import Bilbo.Blocks
import Bilbo.Rendering
import Bilbo.Stuck
import Bilbo.Conversions
import Bilbo.Entries
import Bilbo.Aliased
import Bilbo.Locations
import Bilbo.Poisoning
import Bilbo.Complete
import Bilbo.Words
import Bilbo.Reordering
import Bilbo.Base.Search
import Bilbo.Collecting
import Bilbo.Compiling
import Bilbo.Memcpy
import Bilbo.Offsets
import Bilbo.Jitdump
import Bilbo.Completing
