/-
The pool of children: `make_chld_pool`, `make_chld` and `free_chld` of `echsd.c`.

A child is known by its number, in the order of allocation.  The free list goes through `data`,
which is for others to use as long as a child is not free.
-/
import Mathlib.Logic.Function.Basic

namespace Echse

/-- What `data` points at: nothing, a child or something else. -/
inductive ChldData where
  | null
  | chld (i : Nat)
  | other (p : Nat)
deriving DecidableEq, Repr

/-- `free_chlds`, `nfree_chlds` and `zfree_chlds`, with the `data` of all children so far, and
`cpools`, the first child and the size of each pool. -/
structure ChldPool where
  data : Nat → ChldData
  nchlds : Nat
  freeChlds : ChldData
  nfreeChlds : Nat
  zfreeChlds : Nat
  cpools : List (Nat × Nat)
  zcpools : Nat

/-- Whether there is memory for that many children, and for that many pools. -/
structure ChldMem where
  malloc : Nat → Bool
  realloc : Nat → Bool

namespace ChldPool

/-- At the start. -/
def ini : ChldPool := ⟨fun _ => .null, 0, .null, 0, 0, [], 0⟩

/-- How many children the next pool has. -/
def adz (p : ChldPool) : Nat := if p.zfreeChlds ≠ 0 then p.zfreeChlds else 256

/-- How many pools there is room for after a `realloc`. -/
def nuz (p : ChldPool) : Nat := if p.zcpools * 2 ≠ 0 then p.zcpools * 2 else 16

/-- Room for one more pool in `cpools`. -/
def growCpools (mem : ChldMem) (p : ChldPool) : Option ChldPool :=
  if p.zcpools ≤ p.cpools.length then
    if mem.realloc p.nuz then some { p with zcpools := p.nuz } else none
  else some p

/-- `make_chld_pool`: children from `nchlds` on, chained up. -/
def makeChldPool (mem : ChldMem) (p : ChldPool) (n : Nat) : Option (Nat × ChldPool) :=
  if mem.malloc n then
    (p.growCpools mem).map fun p =>
      (p.nchlds, { p with
        data := fun i =>
          if p.nchlds ≤ i ∧ i < p.nchlds + n then
            if i + 1 < p.nchlds + n then .chld (i + 1) else .null
          else p.data i
        nchlds := p.nchlds + n
        cpools := p.cpools ++ [(p.nchlds, n)] })
  else none

/-- Pop off the free list; nothing where `free_chlds` is no child. -/
def pop (p : ChldPool) : Option (Nat × ChldPool) :=
  match p.freeChlds with
  | .chld i =>
      some (i, { p with freeChlds := p.data i, nfreeChlds := p.nfreeChlds - 1 })
  | _ => none

/-- `make_chld`: a child, or `NULL`. -/
def makeChld (mem : ChldMem) (p : ChldPool) : Option (Option Nat × ChldPool) :=
  if p.nfreeChlds = 0 then
    match p.makeChldPool mem p.adz with
    | none => some (none, { p with freeChlds := .null })
    | some (first, q) =>
        let q := { q with
          freeChlds := .chld first
          nfreeChlds := p.adz
          zfreeChlds := if p.zfreeChlds ≠ 0 then p.adz * 2 else 256 }
        q.pop.map fun r => (some r.1, r.2)
  else p.pop.map fun r => (some r.1, r.2)

/-- `free_chld`: hand a child over to the free list. -/
def freeChld (p : ChldPool) (i : Nat) : ChldPool :=
  { p with
    data := Function.update p.data i p.freeChlds
    freeChlds := .chld i
    nfreeChlds := p.nfreeChlds + 1 }

end ChldPool

/-! ### Histories of calls -/

/-- The pool, the children that have been made and not been freed, and what has been written
to the `data` of each. -/
structure ChldUse where
  pool : ChldPool
  used : List Nat
  own : Nat → ChldData

def ChldUse.ini : ChldUse := ⟨.ini, [], fun _ => .null⟩

inductive ChldCall where
  | make (mem : ChldMem)
  /-- `c->data = v`. -/
  | write (i : Nat) (v : ChldData)
  | free (i : Nat)

/-- One call, or a write to a child in use; only such a child is freed. -/
def chldStep (s : ChldUse) : ChldCall → Option ChldUse
  | .make mem => (s.pool.makeChld mem).map fun r =>
      match r.1 with
      | some i => ⟨r.2, i :: s.used, Function.update s.own i (r.2.data i)⟩
      | none => ⟨r.2, s.used, s.own⟩
  | .write i v =>
      if i ∈ s.used then
        some ⟨{ s.pool with data := Function.update s.pool.data i v }, s.used,
          Function.update s.own i v⟩
      else none
  | .free i => if i ∈ s.used then some ⟨s.pool.freeChld i, s.used.erase i, s.own⟩ else none

end Echse
