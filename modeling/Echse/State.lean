/-
State names and sets of states: `state.c` and `state.h`.

A name has one slot of the table, the one its hash says.  The names are pasted into a string
obarray one after another, and `sto` has the offset of each state and of the one to come.
-/
import Echse.Obarray

namespace Echse

/-- A slot of the beef table; it is free if its `hx` is 0. -/
structure StateSlot where
  st : Nat
  hx : UInt32
deriving DecidableEq, Repr

/-- What `state.c` keeps.  The alloc size `stz` is the length of `sts`. -/
structure States where
  sstk : Nat → StateSlot
  nstk : Nat
  sts : List Char
  sto : Nat → Nat
  sti : Nat

namespace States

/-- At the start, and after `clear_states`. -/
def init : States where
  sstk := fun _ => ⟨0, 0⟩
  nstk := 0
  sts := []
  sto := fun _ => 0
  sti := 0

end States

/-- `make_state`; there are as many offsets as a state set has bits. -/
def makeState (st : States) (str : List Char) : Nat × States :=
  if 64 ≤ st.sti then (0, st)
  else
    let at_ := st.sto st.sti
    (st.sti + 1, { st with
      sts := pasteObs st.sts at_ str
      sto := if st.sti + 1 < 64 then
        Function.update st.sto (st.sti + 1) (at_ + zonePad str.length) else st.sto
      sti := st.sti + 1 })

/-- `add_state`. -/
def addState (hash : List Char → UInt32) (st : States) (str : List Char) : Nat × States :=
  -- don't bother
  if str.length = 0 ∨ 256 ≤ str.length then (0, st)
  else
    let hx := hash str
    let off := hx.toNat % 128
    -- found him (or super-collision)
    if (st.sstk off).hx = hx then ((st.sstk off).st, st)
    else if (st.sstk off).hx = 0 then
      let (s, st) := makeState st str
      (s, { st with sstk := Function.update st.sstk off ⟨s, hx⟩, nstk := st.nstk + 1 })
    else (0, st)

/-- `get_state`. -/
def getState (hash : List Char → UInt32) (st : States) (str : List Char) : Nat :=
  if str.length = 0 ∨ 256 ≤ str.length then 0
  else
    let off := (hash str).toNat % 128
    if (st.sstk off).hx = hash str then (st.sstk off).st else 0

/-- `state_name`. -/
def stateName (st : States) (s : Nat) : Option (List Char) :=
  if s = 0 ∨ 64 ≤ s then none else some (cStr (st.sts.drop (st.sto (s - 1))))

/-! ### Sets of states -/

/-- `stset_add_state`; a shift by the width of the set or more is undefined. -/
def stsetAddState (set : BitVec 64) (s : Nat) : Option (BitVec 64) :=
  if s < 64 then some (set ||| 1#64 <<< s) else none

/-- `stset_has_state_p`. -/
def stsetHasStateP (set : BitVec 64) (s : Nat) : Option Bool :=
  if s < 64 then some ((set >>> s).getLsbD 0) else none

end Echse
