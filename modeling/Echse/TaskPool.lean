/-
The task pool of `echsd.c`: the slots, the list of those that are free, and the table
that maps object ids to slots.

A slot is known by its number, in the order of allocation, and its memory keeps what
was last written to it; freeing a task leaves `NULL` in its place.  `mem n` says that
an allocation of `n` objects succeeds.
-/
import Echse.Event
import Echse.Owner
import Mathlib.Tactic

namespace Echse

instance neZero_maxSimul : NeZero (64 : Nat) := ⟨by decide⟩

/-- The part of `struct echs_task_s` that `echsd` schedules and runs a task by. -/
structure EchsTask where
  oid : Nat
  /-- Stream of instants when to run this task, or `NULL`. -/
  strm : Option (List EchsEvent)
  owner : NumMapStr
  /-- `run_as.wd` and `run_as.sh`. -/
  wd : Option String
  sh : Option String
  /-- A field of 6 bits. -/
  maxSimul : Fin 64
deriving DecidableEq, Repr

theorem maxSimul_fits {i : Nat} (h : i < 63) : i + 1 < 64 := Nat.succ_lt_succ h

/-- How the parser stores `X-ECHS-MAX-SIMUL`, if it is given: one more than its value,
if that fits. -/
def snarfMaxSimul : Option Nat → Fin 64
  | none => 0
  | some i => if h : i < 63 then ⟨i + 1, maxSimul_fits h⟩ else 0

/-- `ve->t.max_simul--` in `make_task` of `evical.c`: an unset limit comes out as 63. -/
def bakeMaxSimul (n : Fin 64) : Fin 64 := n - 1

/-- `echs_task_owner`. -/
def echsTaskOwner (t : EchsTask) : Nat :=
  match nummapstrNum t.owner with
  | some n => uidT n
  | none => notAUid

def echsTaskOwnedByP (t : EchsTask) (uid : Nat) : Bool := echsTaskOwner t == uid

/-- The callback of a slot's watcher. -/
inductive Callback where
  | taskCb
  | unsched
deriving DecidableEq, Repr

/-- `ev_periodic`: whether it is started, whether its callback is due to be invoked,
when it expires next, the callback, and whether `reschedule_cb` is set (to `resched`,
the only one there is). -/
structure EvPeriodic where
  active : Bool
  pending : Bool
  at_ : ℚ
  cb : Callback
  reschedule : Bool

/-- `struct _task_s`. -/
structure Task where
  w : EvPeriodic
  next : Option Nat
  /-- Currently scheduled run-time. -/
  cur : Instant
  dur : Int
  /-- This is the task as understood by libechse. -/
  t : Option EchsTask
  /-- Number of runs. -/
  nrun : Nat
  /-- Number of concurrent runs. -/
  nsim : Nat
  dfltCred : NCred

/-- `t->t->max_simul`. -/
def Task.maxSimul (t : Task) : Nat := ((t.t.map fun (x : EchsTask) => x.maxSimul).getD 0).val

/-- A slot after `memset(res, 0, sizeof(*res))`. -/
def Task.zero : Task where
  w := ⟨false, false, 0, .taskCb, false⟩
  next := none
  cur := echsNulInstant
  dur := 0
  t := none
  nrun := 0
  nsim := 0
  dfltCred := ⟨0, 0, none, none⟩

/-- `struct tmap_s`; an empty slot of the table has an `oid` of 0. -/
structure TMap where
  oid : Nat
  t : Option Nat
deriving DecidableEq, Repr

def TMap.empty : TMap := ⟨0, none⟩

/-- The pool and the table; `task_ht` has `ztask_ht` elements. -/
structure TaskPool where
  taskHt : List TMap
  slots : Nat → Task
  /-- Slots allocated so far, over all pools. -/
  nslots : Nat
  freeTasks : Option Nat
  nfreeTasks : Nat
  zfreeTasks : Nat

/-- After `ini_task_ht`. -/
def TaskPool.ini : TaskPool := ⟨List.replicate 16 .empty, fun _ => .zero, 0, none, 0, 0⟩

namespace TaskPool

/-- Write to a slot. -/
def set (p : TaskPool) (i : Nat) (t : Task) : TaskPool :=
  { p with slots := Function.update p.slots i t }

end TaskPool

/-! ### The table -/

/-- `__builtin_ctzll`. -/
def ctzll (n : Nat) : Nat := ((List.range 64).find? n.testBit).getD 64

/-- Where an object id goes in a table of `z` elements. -/
def htSlot (z oid : Nat) : Nat := oid &&& (z - 1)

def htAt (ht : List TMap) (i : Nat) : TMap := ht.getD i .empty

/-- Copy the elements over to a new table of `z` elements. -/
def htResize (ht : List TMap) (z : Nat) : List TMap :=
  ht.foldl (fun nut m => if m.oid ≠ 0 then nut.set (htSlot z m.oid) m else nut)
    (List.replicate z .empty)

/-- `put_task_slot`: the table, which may have been resized, and the slot in it. -/
def putTaskSlot (mem : Nat → Bool) (ht : List TMap) (oid : Nat) : Option (List TMap × Nat) :=
  let slot := htSlot ht.length oid
  let toid := (htAt ht slot).oid
  if toid = 0 then some (ht, slot)
  -- huh? that's very inconsistent
  else if toid = oid then some (ht, slot)
  else
    let nuz := 2 ^ (ctzll (toid ^^^ oid) + 1)
    if mem nuz then some (htResize ht nuz, htSlot nuz oid) else none

/-- The assertions of `put_task_slot`, and that the shift by which the new size is
calculated is one of less than 64 bits. -/
def putTaskSlotAsserts (ht : List TMap) (oid : Nat) : Bool :=
  let slot := htSlot ht.length oid
  let toid := (htAt ht slot).oid
  if toid = 0 then true
  else if toid = oid then true
  else
    let sh := ctzll (toid ^^^ oid) + 1
    let nuz := 2 ^ sh
    sh < 64 && ht.length < nuz && (htAt (htResize ht nuz) (htSlot nuz oid)).oid == 0

/-- `get_task_slot`; all retries look at the same slot. -/
def getTaskSlot (ht : List TMap) (oid : Nat) : Option Nat :=
  let slot := htSlot ht.length oid
  if slot < ht.length ∧ (htAt ht slot).oid = oid then some slot else none

/-- `get_task`. -/
def getTask (p : TaskPool) (oid : Nat) : Option Nat :=
  match getTaskSlot p.taskHt oid with
  | none => none
  | some slot => if (htAt p.taskHt slot).oid = 0 then none else (htAt p.taskHt slot).t

/-! ### The pool -/

/-- `make_task_pool`: slots from `nslots` on, chained up. -/
def makeTaskPool (p : TaskPool) (n : Nat) : TaskPool :=
  { p with
    slots := fun i =>
      if p.nslots ≤ i ∧ i < p.nslots + n then
        { Task.zero with next := if i + 1 < p.nslots + n then some (i + 1) else none }
      else p.slots i
    nslots := p.nslots + n
    freeTasks := some p.nslots
    nfreeTasks := n
    zfreeTasks := if p.zfreeTasks ≠ 0 then n * 2 else 256 }

/-- Put some more task objects into the pool if there are none left. -/
def refillPool (mem : Nat → Bool) (p : TaskPool) : Option TaskPool :=
  if p.nfreeTasks = 0 then
    let adz := if p.zfreeTasks ≠ 0 then p.zfreeTasks else 256
    if mem adz then some (makeTaskPool p adz) else none
  else some p

/-- `make_task`: a slot for a task with this id, or `NULL`. -/
def makeTask (mem : Nat → Bool) (p : TaskPool) (oid : Nat) : Option Nat × TaskPool :=
  match putTaskSlot mem p.taskHt oid with
  | none => (none, p)
  | some (ht, slot) =>
      match refillPool mem { p with taskHt := ht } with
      | none => (none, { p with taskHt := ht, freeTasks := none })
      | some p =>
          match p.freeTasks with
          | none => (none, p)
          | some res =>
              -- pop off the free list
              (some res,
                { p with
                  freeTasks := (p.slots res).next
                  nfreeTasks := p.nfreeTasks - 1
                  taskHt := p.taskHt.set slot ⟨oid, some res⟩
                  slots := Function.update p.slots res .zero })

/-- `free_task`: hand a slot over to the free list. -/
def freeTask (p : TaskPool) (i : Nat) : TaskPool :=
  let ht :=
    match (p.slots i).t with
    | none => p.taskHt
    | some t =>
        match getTaskSlot p.taskHt t.oid with
        -- that's no good :O
        | none => p.taskHt
        | some k => p.taskHt.set k .empty
  { p with
    taskHt := ht
    slots := Function.update p.slots i { p.slots i with t := none, next := p.freeTasks }
    freeTasks := some i
    nfreeTasks := p.nfreeTasks + 1 }

end Echse
