/-
The table of tasks as a map.

Who has made tasks and not freed them knows what the table should have: for every id the
slot it was given and the task it has put there.  The table is that map, over any sequence
of `make_task` and `free_task`.
-/
import Echse.Proofs.Pool
import Echse.Lib.Runs

namespace Echse

open Runs

/-! ### Sequences of operations -/

/-- The pool, and for each id the slot and the task made last, if they were not freed. -/
structure TaskBook where
  pool : TaskPool
  made : Nat → Option (Nat × EchsTask)

def TaskBook.ini : TaskBook := ⟨.ini, fun _ => none⟩

inductive TaskOp where
  /-- Make a slot for a task and put the task there. -/
  | make (x : EchsTask)
  | free (oid : Nat)

/-- One operation.  Tasks are made of ids that are not there, and freed of those that are.
An id is what `intern` or `obint` give, a hash of 32 bits; it is enough here that the top
bit of its word is clear. -/
def taskStep (b : TaskBook) : TaskOp → Option TaskBook
  | .make x =>
      if x.oid ≠ 0 ∧ x.oid < 2 ^ 63 ∧ b.made x.oid = none then
        match makeTask (fun _ => true) b.pool x.oid with
        | (none, p) => some { b with pool := p }
        | (some res, p) =>
            some ⟨p.set res { p.slots res with t := some x },
              Function.update b.made x.oid (some (res, x))⟩
      else none
  | .free oid =>
      match b.made oid with
      | none => none
      | some (res, _) => some ⟨freeTask b.pool res, Function.update b.made oid none⟩

theorem TaskPool.set_self (p : TaskPool) (i : Nat) (t : Task) : (p.set i t).slots i = t :=
  Function.update_self ..

theorem TaskPool.set_of_ne (p : TaskPool) {i j : Nat} (t : Task) (h : j ≠ i) :
    (p.set i t).slots j = p.slots j :=
  Function.update_of_ne h ..

/-! ### The invariant -/

/-- A slot is found by the id of its task. -/
theorem PoolOk.getTask_eq_some {p : TaskPool} {fl : List Nat} (h : PoolOk p fl) {oid i : Nat} :
    getTask p oid = some i ↔
      oid ≠ 0 ∧ InTable p i ∧ ∃ x, (p.slots i).t = some x ∧ x.oid = oid := by
  constructor
  · intro hg
    obtain ⟨hin, -, hx⟩ := h.getTask_some hg
    exact ⟨((getTask_iff h.table).mp hg).1, hin, hx⟩
  · rintro ⟨h0, ⟨k, hk⟩, x, hx, rfl⟩
    obtain ⟨-, x', hx', hxo⟩ := h.task k i hk
    rw [hx] at hx'
    obtain rfl := Option.some.inj hx'
    have hhome := h.table.home k (by rw [← hxo]; exact h0)
    rw [getTask_iff h.table]
    refine ⟨h0, ?_⟩
    rw [hxo, hhome, ← hk]

/-- The table has what was made and not freed, and nothing else. -/
structure Kept (b : TaskBook) : Prop where
  pool : ∃ fl, PoolOk b.pool fl
  inTable : ∀ i, InTable b.pool i ↔ ∃ oid x, b.made oid = some (i, x)
  task : ∀ oid i x, b.made oid = some (i, x) →
    (b.pool.slots i).t = some x ∧ x.oid = oid ∧ oid ≠ 0 ∧ oid < 2 ^ 63

theorem kept_ini : Kept .ini := by
  refine ⟨⟨[], poolOk_ini⟩, fun i => ⟨?_, ?_⟩, fun oid i x h => nomatch h⟩
  · rintro ⟨k, hk⟩
    have hnone : htAt TaskPool.ini.taskHt k = .empty := htAt_replicate 16 k
    rw [show TaskBook.ini.pool = TaskPool.ini from rfl, hnone] at hk
    exact absurd hk (by simp [TMap.empty])
  · rintro ⟨oid, x, h⟩
    exact nomatch h

namespace Kept

variable {b : TaskBook} (h : Kept b)
include h

theorem getTask_eq (oid : Nat) : getTask b.pool oid = (b.made oid).map Prod.fst := by
  obtain ⟨fl, hp⟩ := h.pool
  cases hm : b.made oid with
  | some r =>
      obtain ⟨i, x⟩ := r
      obtain ⟨hx, hxo, h0, -⟩ := h.task oid i x hm
      exact hp.getTask_eq_some.mpr ⟨h0, (h.inTable i).mpr ⟨oid, x, hm⟩, x, hx, hxo⟩
  | none =>
      rw [Option.map_none, Option.eq_none_iff_forall_ne_some]
      intro i hg
      obtain ⟨h0, hin, x, hx, hxo⟩ := hp.getTask_eq_some.mp hg
      obtain ⟨oid', x', hm'⟩ := (h.inTable i).mp hin
      obtain ⟨hx', hxo', -⟩ := h.task oid' i x' hm'
      rw [hx] at hx'
      obtain rfl := Option.some.inj hx'
      rw [← hxo', hxo, hm] at hm'
      exact nomatch hm'

/-- The ids in the table have a clear top bit. -/
theorem oid_lt (k : Nat) : (htAt b.pool.taskHt k).oid < 2 ^ 63 := by
  obtain ⟨fl, hp⟩ := h.pool
  by_cases h0 : (htAt b.pool.taskHt k).oid = 0
  · rw [h0]
    decide
  · obtain ⟨i, hi⟩ := Option.ne_none_iff_exists'.mp (fun hc => h0 ((hp.table.task k).mpr hc))
    obtain ⟨-, x, hx, hxo⟩ := hp.task k i hi
    obtain ⟨oid, x', hm⟩ := (h.inTable i).mp ⟨k, hi⟩
    obtain ⟨hx', hxo', -, hlt⟩ := h.task oid i x' hm
    rw [hx] at hx'
    obtain rfl := Option.some.inj hx'
    omega

end Kept

theorem putTaskSlot_isSome (ht : List TMap) (oid : Nat) :
    ∃ ht' slot, putTaskSlot (fun _ => true) ht oid = some (ht', slot) := by
  unfold putTaskSlot
  dsimp only
  split
  · exact ⟨_, _, rfl⟩
  split
  · exact ⟨_, _, rfl⟩
  · exact ⟨_, _, rfl⟩

/-- With memory for it there is a slot for a task. -/
theorem PoolOk.makeTask_isSome {p : TaskPool} {fl : List Nat} (h : PoolOk p fl) {oid : Nat}
    (h0 : oid ≠ 0) (hlt : oid < 2 ^ 64) (hg : getTask p oid = none) :
    (makeTask (fun _ => true) p oid).1 ≠ none := by
  obtain ⟨ht, slot, hq⟩ := putTaskSlot_isSome p.taskHt oid
  obtain ⟨hok, -, -, hents⟩ := putTaskSlot_spec h.table hlt (h.getTask_none h0 hg) hq
  obtain ⟨h1, -⟩ := h.retable hok hents
  obtain ⟨p2, hr⟩ : ∃ p2, refillPool (fun _ => true) { p with taskHt := ht } = some p2 := by
    unfold refillPool
    split
    · exact ⟨_, rfl⟩
    · exact ⟨_, rfl⟩
  obtain ⟨res, rest, -, hf, -⟩ := h1.refilled hr
  unfold makeTask
  rw [hq]
  dsimp only
  rw [hr]
  dsimp only
  rw [hf]
  exact Option.some_ne_none res

/-! ### One operation -/

theorem Kept.make {b : TaskBook} (h : Kept b) {x : EchsTask} (h0 : x.oid ≠ 0)
    (hlt : x.oid < 2 ^ 63) (hnew : b.made x.oid = none) {res : Nat} {p : TaskPool}
    (hm : makeTask (fun _ => true) b.pool x.oid = (some res, p)) :
    Kept ⟨p.set res { p.slots res with t := some x },
      Function.update b.made x.oid (some (res, x))⟩ := by
  obtain ⟨fl, hp⟩ := h.pool
  have hg : getTask b.pool x.oid = none := by rw [h.getTask_eq, hnew, Option.map_none]
  rcases hp.made h0 (by omega) hg hm with ⟨hc, -⟩ | ⟨res', hres, hmade⟩
  · exact nomatch hc
  obtain rfl := Option.some.inj hres
  -- the slots that were in the table are others, and as they were
  have hother : ∀ oid i y, b.made oid = some (i, y) → i ≠ res ∧ oid ≠ x.oid := by
    intro oid i y hi
    refine ⟨?_, ?_⟩
    · rintro rfl
      exact hmade.new ((h.inTable i).mpr ⟨oid, y, hi⟩)
    · rintro rfl
      rw [hnew] at hi
      exact nomatch hi
  refine ⟨hmade.pool _ ⟨x, rfl, rfl⟩, fun i => ?_, fun oid i y hi => ?_⟩
  · refine (hmade.inTable i).trans ?_
    rw [h.inTable]
    constructor
    · rintro (⟨oid, y, hi⟩ | rfl)
      · exact ⟨oid, y, (Function.update_of_ne (hother oid i y hi).2 ..).trans hi⟩
      · exact ⟨x.oid, x, Function.update_self ..⟩
    · rintro ⟨oid, y, hi⟩
      dsimp only at hi
      by_cases hoid : oid = x.oid
      · rw [hoid, Function.update_self] at hi
        exact Or.inr (Prod.mk.inj (Option.some.inj hi)).1.symm
      · rw [Function.update_of_ne hoid] at hi
        exact Or.inl ⟨oid, y, hi⟩
  · dsimp only at hi ⊢
    by_cases hoid : oid = x.oid
    · rw [hoid, Function.update_self] at hi
      obtain ⟨rfl, rfl⟩ := Prod.mk.inj (Option.some.inj hi)
      refine ⟨?_, hoid.symm, hoid ▸ h0, hoid ▸ hlt⟩
      rw [TaskPool.set_self]
    · rw [Function.update_of_ne hoid] at hi
      obtain ⟨hy, hyo, hrest⟩ := h.task oid i y hi
      refine ⟨?_, hyo, hrest⟩
      have hir := (hother oid i y hi).1
      rw [TaskPool.set_of_ne _ _ hir]
      rcases hmade.slots i hir with hs | ⟨hs, -⟩
      · rw [hs, hy]
      · exact absurd ((h.inTable i).mpr ⟨oid, y, hi⟩) hs

theorem Kept.free {b : TaskBook} (h : Kept b) {oid i : Nat} {x : EchsTask}
    (hi : b.made oid = some (i, x)) :
    Kept ⟨freeTask b.pool i, Function.update b.made oid none⟩ := by
  obtain ⟨fl, hp⟩ := h.pool
  obtain ⟨hx, hxo, -⟩ := h.task oid i x hi
  obtain ⟨hp', hin⟩ := hp.freed ((h.inTable i).mpr ⟨oid, x, hi⟩)
  -- no other id has the slot
  have hother : ∀ oid' j y, b.made oid' = some (j, y) → (j ≠ i ↔ oid' ≠ oid) := by
    intro oid' j y hj
    refine not_congr ⟨?_, ?_⟩
    · rintro rfl
      obtain ⟨hy, hyo, -⟩ := h.task oid' j y hj
      rw [hx] at hy
      obtain rfl := Option.some.inj hy
      exact hyo.symm.trans hxo
    · rintro rfl
      rw [hi] at hj
      exact (Prod.mk.inj (Option.some.inj hj)).1.symm
  refine ⟨⟨_, hp'⟩, fun j => ?_, fun oid' j y hj => ?_⟩
  · rw [hin, h.inTable]
    constructor
    · rintro ⟨⟨oid', y, hj⟩, hji⟩
      exact ⟨oid', y, (Function.update_of_ne ((hother oid' j y hj).mp hji) ..).trans hj⟩
    · rintro ⟨oid', y, hj⟩
      dsimp only at hj
      have hne : oid' ≠ oid := by
        rintro rfl
        rw [Function.update_self] at hj
        exact nomatch hj
      rw [Function.update_of_ne hne] at hj
      exact ⟨⟨oid', y, hj⟩, (hother oid' j y hj).mpr hne⟩
  · dsimp only at hj ⊢
    have hne : oid' ≠ oid := by
      rintro rfl
      rw [Function.update_self] at hj
      exact nomatch hj
    rw [Function.update_of_ne hne] at hj
    obtain ⟨hy, hrest⟩ := h.task oid' j y hj
    refine ⟨?_, hrest⟩
    rw [freeTask_slot_ne b.pool ((hother oid' j y hj).mpr hne), hy]

theorem kept_step {b b' : TaskBook} {op : TaskOp} (h : Kept b) (hs : taskStep b op = some b') :
    Kept b' := by
  cases op with
  | make x =>
      unfold taskStep at hs
      dsimp only at hs
      split at hs
      · next hok =>
          obtain ⟨h0, hlt, hnew⟩ := hok
          obtain ⟨fl, hp⟩ := h.pool
          have hsome := hp.makeTask_isSome h0 (show x.oid < 2 ^ 64 by omega)
            (by rw [h.getTask_eq, hnew, Option.map_none])
          generalize hm : makeTask (fun _ => true) b.pool x.oid = r at hs hsome
          obtain ⟨r, p⟩ := r
          cases r with
          | none => exact absurd rfl hsome
          | some res =>
              obtain rfl := Option.some.inj hs
              exact h.make h0 hlt hnew hm
      · exact nomatch hs
  | free oid =>
      unfold taskStep at hs
      dsimp only at hs
      cases hi : b.made oid with
      | none =>
          rw [hi] at hs
          exact nomatch hs
      | some r =>
          obtain ⟨i, x⟩ := r
          rw [hi] at hs
          obtain rfl := Option.some.inj hs
          exact h.free hi

/-- Every task has one entry, and every entry is that of a task. -/
theorem Kept.entry {b : TaskBook} (h : Kept b) {oid : Nat} (h0 : oid ≠ 0) (i : Nat) :
    (∃! k, htAt b.pool.taskHt k = ⟨oid, some i⟩) ↔ ∃ x, b.made oid = some (i, x) := by
  obtain ⟨fl, hp⟩ := h.pool
  have hmade : (∃ x, b.made oid = some (i, x)) ↔ getTask b.pool oid = some i := by
    rw [h.getTask_eq, Option.map_eq_some_iff]
    constructor
    · rintro ⟨x, hx⟩
      exact ⟨(i, x), hx, rfl⟩
    · rintro ⟨⟨j, x⟩, hx, rfl⟩
      exact ⟨x, hx⟩
  have hhome : ∀ k, htAt b.pool.taskHt k = ⟨oid, some i⟩ → htSlot b.pool.taskHt.length oid = k := by
    intro k hk
    have hk' := hp.table.home k (by rw [hk]; exact h0)
    rwa [hk] at hk'
  rw [hmade, getTask_iff hp.table]
  constructor
  · rintro ⟨k, hk, -⟩
    refine ⟨h0, ?_⟩
    rw [hhome k hk]
    exact hk
  · rintro ⟨-, hk⟩
    exact ⟨_, hk, fun k' hk' => (hhome k' hk').symm⟩

/-- An entry stands in one place. -/
theorem TableOk.existsUnique_iff {ht : List TMap} (h : TableOk ht) {m : TMap} (h0 : m.oid ≠ 0) :
    (∃! k, htAt ht k = m) ↔ ∃ k, htAt ht k = m := by
  refine ⟨fun ⟨k, hk, _⟩ => ⟨k, hk⟩, fun ⟨k, hk⟩ => ⟨k, hk, fun k' hk' => ?_⟩⟩
  rw [← h.home k (by rw [hk]; exact h0), ← h.home k' (by rw [hk']; exact h0), hk, hk']

/-- A task of this id, which never runs. -/
def idleTask (oid : Nat) : EchsTask := ⟨oid, none, .str "alice", none, none, 63⟩

/-- Three tasks that collide in the table there is at first, and the second one freed. -/
def collisions : List TaskOp :=
  [.make (idleTask 1), .make (idleTask 17), .make (idleTask 33), .free 17]

end Echse
