import Bilbo.Extent
import Bilbo.Redirects

/-!
# References to stubs

`classify` and `walk_seq` redirect a stub to its definition, so whatever is only classified may
be referred to through either. The code around them reads some things from the entry that a
reference leads to before any redirect: the size and alignment of what a `Box`, `Vec` or
`BTreeMap` holds, the payload struct of a variant, the width of a discriminant. Where those say the
same, replacing references to a definition by references to its stub changes nothing.
-/

namespace Bilbo

open Base Calls Comp

/-! ## Alike stores are classified alike -/

/-- The entries that `classify` enters for a site, whatever becomes of their types. -/
inductive Entered (st : Store) (s : Site) : Site → Prop
  | entry {key : Site} : Resolves st s key → Entered st s key
  | asked {key s' key' : Site} : Entered st s key → Asks (entryBody st key) s' →
      Resolves st s' key' → Entered st s key'

section Alike

variable {st st' : Store} {K : Site → Site → Prop} {s s' key : Site}

theorem Entered.wraps {inner : Site} (hr : resolveSite st s = ret (.wraps inner))
    (h : Entered st inner key) : Entered st s key := by
  induction h with
  | entry hkey => exact .entry (.wraps hr hkey)
  | asked _ hask hkey ih => exact .asked ih hask hkey

/-- What the head of `classify` finds from related sites. -/
inductive FoundRel (K : Site → Site → Prop) : Found → Found → Prop
  | wraps {inner inner' : Site} : K inner inner' → FoundRel K (.wraps inner) (.wraps inner')
  | entry (key : Site) (t : DwTag) (name : String) :
      FoundRel K (.entry key t name) (.entry key t name)

theorem Store.Alike.resolveSite (ha : st.Alike st' K) (hs : K s s') :
    Twins (FoundRel K) (resolveSite st s) (resolveSite st' s') := by
  refine (ha.strip s s' hs).bind fun p p' hp => ?_
  rw [ha.defSite p p' hp]
  refine (gives_defSiteM st p).silent.twins.bind ?_
  rintro q _ rfl
  rw [ha.tag_eq, ha.dieNameM_eq]
  refine (silent_tag (L := True) st q).twins.bind ?_
  rintro t _ rfl
  refine (gives_dieNameM st q).silent.twins.bind ?_
  rintro name _ rfl
  dsimp only
  split
  · refine (ha.templateParamM q).bind fun o o' ho => ?_
    cases ho with
    | none => exact .stop _
    | some hk => exact .ret (.wraps hk)
  · exact .ret (.entry q t _)

end Alike

/-! ## Types that look alike -/

section Unfolded

variable {st st' : Store} {K : Site → Site → Prop} {R R' : Site → Ty → Prop} {key : Site} {b b' : Ty}

variable {own own' : RecCell → Option Site} {full full' : RecCell → Option Ty} {h h' : Heap}
  {kept kept' : List (Site × Ty)} {s s' : Site} {ty ty' : Ty}

end Unfolded

/-! ## A stub for its definition -/

end Bilbo
