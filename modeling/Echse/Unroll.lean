/-
What `echse.c` reads of files: the table of tasks, and the array of their streams.

A task is known by a number, in the order of allocation, and a stream by its address; `strm`
has the stream of every task.  The size of the table is doubled until the new task finds a
place, and a task that is replaced leaves a hole in the array of streams, which is condensed in
the end.  `calloc n` and `realloc n` say that there is memory for `n` elements.
-/
import Echse.TaskPool

namespace Echse

/-- `task_ht` with its `ztask_ht` elements, `strms` up to `nstrms` and its size `zstrms`, and the
tasks that have been freed. -/
structure Unroll where
  taskHt : List TMap
  strms : List (Option Nat)
  zstrms : Nat
  freed : List Nat

namespace Unroll

/-- At the start. -/
def init : Unroll := ⟨[], [], 0, []⟩

/-! ### Streams -/

/-- `add_strm`. -/
def addStrm (realloc : Nat → Bool) (st : Unroll) (s : Option Nat) : Unroll :=
  if st.zstrms ≤ st.strms.length then
    let nuz := if st.zstrms * 2 = 0 then 64 else st.zstrms * 2
    if realloc nuz then { st with strms := st.strms ++ [s], zstrms := nuz } else st
  else { st with strms := st.strms ++ [s] }

/-- `rem_strm`. -/
def remStrm (strms : List (Option Nat)) (s : Option Nat) : List (Option Nat) :=
  match strms.idxOf? s with
  -- found him
  | some i => if i + 1 = strms.length then strms.dropLast else strms.set i none
  | none => strms

/-- One step of the second loop of `condense_strms`: the array, and `j`. -/
def condStep (st : List (Option Nat) × Nat) (i : Nat) : List (Option Nat) × Nat :=
  let s := st.1.getD i none
  (st.1.set st.2 s, if s ≠ none then st.2 + 1 else st.2)

/-- `condense_strms`. -/
def condenseStrms (strms : List (Option Nat)) : List (Option Nat) :=
  let i := strms.idxOf none
  let st := (List.range' (i + 1) (strms.length - (i + 1))).foldl condStep (strms, i)
  st.1.take st.2

/-! ### Tasks -/

section

variable (strm : Nat → Option Nat)

/-- Free an old task and its stream. -/
def freeOld (st : Unroll) (t : Nat) : Unroll :=
  { st with strms := remStrm st.strms (strm t), freed := st.freed ++ [t] }

/-- `put_task_slot`, with the retries that are left; the slot does not change from one to the
next. -/
def putTaskSlot (st : Unroll) (oid : Nat) : Nat → Unroll × Option Nat
  | 0 => (st, none)
  | i + 1 =>
      let slot := htSlot st.taskHt.length oid
      let m := htAt st.taskHt slot
      if m.oid = 0 then (st, some slot)
      -- collision, retry
      else if m.oid ≠ oid then putTaskSlot st oid i
      else ((m.t.map (freeOld strm st)).getD st, some slot)

/-- The loop of `resz_task_ht` over the old table; nothing where a task finds no place, as then
all is tried again, with no other outcome. -/
def moveTasks : Unroll → List TMap → Option Unroll
  | st, [] => some st
  | st, m :: olt =>
      if m.oid = 0 then moveTasks st olt
      else match putTaskSlot strm st m.oid 16 with
        | (st, some j) => moveTasks { st with taskHt := st.taskHt.set j m } olt
        | (_, none) => none

variable (calloc : Nat → Bool)

/-- `calloc` of that many elements of `task_ht`, of 16 bytes each. -/
def callocHt (n : Nat) : Bool := calloc n && n * 16 < 2 ^ 64

/-- `resz_task_ht`; nothing where there is no memory. -/
def reszTaskHt (st : Unroll) : Option Unroll :=
  let nuz := st.taskHt.length * 2
  if callocHt calloc nuz then
    moveTasks strm { st with taskHt := List.replicate nuz .empty } st.taskHt
  else none

/-- `put_task` from `again` on: the slot, in a table that has one.  The table cannot be resized
more often than its size has bits. -/
def putTaskAgain : Nat → Unroll → Nat → Option (Unroll × Nat)
  | 0, _, _ => none
  | fuel + 1, st, oid =>
      match putTaskSlot strm st oid 16 with
      | (st, some slot) => some (st, slot)
      -- resize
      | (st, none) => (reszTaskHt strm calloc st).bind fun st => putTaskAgain fuel st oid

/-- Instantiate the table. -/
def iniTaskHt (st : Unroll) : Option Unroll :=
  if st.taskHt.length = 0 then
    if callocHt calloc 4 then some { st with taskHt := List.replicate 4 .empty } else none
  else some st

variable (realloc : Nat → Bool)

/-- `put_task`. -/
def putTask (st : Unroll) (oid t : Nat) : Option Unroll :=
  (iniTaskHt calloc st).bind fun st =>
    (putTaskAgain strm calloc 64 st oid).map fun r =>
      addStrm realloc { r.1 with taskHt := r.1.taskHt.set r.2 ⟨oid, some t⟩ } (strm t)

/-- What `_inject_fd` does with a task, which comes with its `oid`; nothing where `put_task`
fails. -/
def inject (st : Unroll) (ins : Nat × Nat) : Option Unroll :=
  if ins.1 = 0 then some { st with freed := st.freed ++ [ins.2] }
  else putTask strm calloc realloc st ins.1 ins.2

/-- The tasks of all files. -/
def injectAll (ins : List (Nat × Nat)) : Option Unroll :=
  ins.foldlM (inject strm calloc realloc) .init

end

/-- `get_task_slot`; all its retries are for the same slot. -/
def getTaskSlot (st : Unroll) (oid : Nat) : Option Nat :=
  let slot := htSlot st.taskHt.length oid
  if (htAt st.taskHt slot).oid = oid then some slot else none

/-- `get_task`. -/
def getTask (st : Unroll) (oid : Nat) : Option Nat :=
  if st.taskHt.length = 0 then none
  else match getTaskSlot st oid with
    | none => none
    | some slot =>
        if st.taskHt.length ≤ slot then none
        -- not found
        else if (htAt st.taskHt slot).oid = 0 then none
        else (htAt st.taskHt slot).t

/-- `free_task_ht`: the table is given up, with the tasks that it has. -/
def freeTaskHt (st : Unroll) : Unroll :=
  { st with
    taskHt := []
    freed := st.freed ++ (st.taskHt.filter fun m => m.oid ≠ 0).filterMap TMap.t }

end Unroll

end Echse
