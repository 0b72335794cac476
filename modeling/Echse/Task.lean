/-
Tasks with all their settings: `struct echs_task_s` of `task.h`.
-/
import Echse.Parser

namespace Echse

/-- `vtod_typ` with the member of the union that goes with it.  A duration counts
milliseconds. -/
inductive VtodTyp where
  | unk
  | timeout (d : Int)
  | due (i : Instant)
  | compl (i : Instant)
deriving DecidableEq, Repr

/-- The slots of `struct echs_task_s` that the parser only hands on.  A mail flag is kept
along with whether it is set. -/
structure TaskSlots where
  cmd : Option String
  desc : Option String
  org : Option String
  att : List String
  in_ : Option String
  out : Option String
  err : Option String
  mailout : Bool
  moutset : Bool
  mailerr : Bool
  merrset : Bool
  mailrun : Bool
  mrunset : Bool
  vtodTyp : VtodTyp
deriving DecidableEq

/-- After a `memset` to 0. -/
def TaskSlots.zero : TaskSlots :=
  ⟨none, none, none, [], none, none, none, false, false, false, false, false, false, .unk⟩

/-- `struct echs_task_s` but for the stream. -/
abbrev FullTask := ProtoTask TaskSlots

end Echse
