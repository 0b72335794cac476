/-
The pool of task slots.

A slot that has been allocated is in the table of tasks or on the list of those that are
free, and never in both; an entry of the table leads to a slot with the task of that id.
`make_task` moves a slot from the list to the table and `free_task` moves it back.
-/
import Echse.Proofs.TaskTable
import Echse.Lib.Chain

namespace Echse

open Linked

/-- An entry of the table leads to slot `i`. -/
def InTable (p : TaskPool) (i : Nat) : Prop := ∃ k, (htAt p.taskHt k).t = some i

/-- The free list, from the slot that `free_tasks` is on. -/
def FreeList (p : TaskPool) (fl : List Nat) : Prop :=
  Chain (fun i => (p.slots i).next) p.freeTasks fl

/-- What holds of the pool between the operations on it, where `fl` is its free list. -/
structure PoolOk (p : TaskPool) (fl : List Nat) : Prop where
  table : TableOk p.taskHt
  task : ∀ k i, (htAt p.taskHt k).t = some i →
    i < p.nslots ∧ ∃ x, (p.slots i).t = some x ∧ x.oid = (htAt p.taskHt k).oid
  chain : FreeList p fl
  count : p.nfreeTasks = fl.length
  free : ∀ i ∈ fl, i < p.nslots ∧ ¬ InTable p i
  all : ∀ i < p.nslots, i ∈ fl ∨ InTable p i

theorem poolOk_ini : PoolOk .ini [] := by
  have hnone : ∀ k, (htAt TaskPool.ini.taskHt k).t = none := by
    intro k
    show (htAt (List.replicate 16 .empty) k).t = none
    rw [htAt_replicate]
    rfl
  refine ⟨tableOk_ini, fun k i hi => ?_, .nil, rfl, ?_, ?_⟩
  · rw [hnone k] at hi
    cases hi
  · intro i hi
    cases hi
  · intro i hi
    exact absurd hi (Nat.not_lt_zero i)

namespace PoolOk

variable {p : TaskPool} {fl : List Nat} (h : PoolOk p fl)
include h

/-- A slot in the table has one entry only. -/
theorem unique {i k k' : Nat} (hk : (htAt p.taskHt k).t = some i)
    (hk' : (htAt p.taskHt k').t = some i) : k = k' := by
  have hne : ∀ j, (htAt p.taskHt j).t = some i → (htAt p.taskHt j).oid ≠ 0 := by
    intro j hj h0
    rw [(h.table.task j).mp h0] at hj
    cases hj
  obtain ⟨-, x, hx, hxo⟩ := h.task k i hk
  obtain ⟨-, x', hx', hxo'⟩ := h.task k' i hk'
  rw [hx] at hx'
  obtain rfl := Option.some.inj hx'
  rw [← h.table.home k (hne k hk), ← h.table.home k' (hne k' hk'), ← hxo, ← hxo']

/-- What `get_task` finds is the slot of that task. -/
theorem getTask_some {oid i : Nat} (hg : getTask p oid = some i) :
    InTable p i ∧ i < p.nslots ∧ ∃ x, (p.slots i).t = some x ∧ x.oid = oid := by
  obtain ⟨-, hm⟩ := (getTask_iff h.table).mp hg
  have ht : (htAt p.taskHt (htSlot p.taskHt.length oid)).t = some i := by rw [hm]
  obtain ⟨hlt, x, hx, hxo⟩ := h.task _ i ht
  rw [hm] at hxo
  exact ⟨⟨_, ht⟩, hlt, x, hx, hxo⟩

/-- If it finds none there is no entry for the id. -/
theorem getTask_none {oid : Nat} (h0 : oid ≠ 0) (hg : getTask p oid = none) :
    (htAt p.taskHt (htSlot p.taskHt.length oid)).oid ≠ oid := by
  intro hoid
  have hsome : (htAt p.taskHt (htSlot p.taskHt.length oid)).t ≠ none := by
    intro hn
    exact h0 (hoid.symm.trans ((h.table.task _).mpr hn))
  obtain ⟨i, hi⟩ := Option.ne_none_iff_exists'.mp hsome
  have hm : htAt p.taskHt (htSlot p.taskHt.length oid) = ⟨oid, some i⟩ := by
    generalize htAt p.taskHt (htSlot p.taskHt.length oid) = m at hoid hi
    obtain ⟨o, t⟩ := m
    obtain rfl : o = oid := hoid
    obtain rfl : t = some i := hi
    rfl
  rw [(getTask_iff h.table).mpr ⟨h0, hm⟩] at hg
  cases hg

/-- Writing to a slot what has the same id and the same place on the list. -/
theorem set {i : Nat} {s : Task} (hnext : s.next = (p.slots i).next)
    (ht : ∀ x, (p.slots i).t = some x → ∃ y, s.t = some y ∧ y.oid = x.oid) :
    PoolOk (p.set i s) fl := by
  refine ⟨h.table, fun k j hj => ?_, ?_, h.count, h.free, h.all⟩
  · obtain ⟨hlt, x, hx, hxo⟩ := h.task k j hj
    refine ⟨hlt, ?_⟩
    show ∃ x, (Function.update p.slots i s j).t = some x ∧ _
    by_cases hji : j = i
    · subst hji
      rw [Function.update_self]
      obtain ⟨y, hy, hyo⟩ := ht x hx
      exact ⟨y, hy, hyo.trans hxo⟩
    · rw [Function.update_of_ne hji]
      exact ⟨x, hx, hxo⟩
  · refine Chain.congr h.chain fun j _ => ?_
    show (Function.update p.slots i s j).next = _
    by_cases hji : j = i
    · subst hji
      rw [Function.update_self]
      exact hnext
    · rw [Function.update_of_ne hji]

end PoolOk

/-! ### Freeing -/

theorem freeTask_slot (p : TaskPool) (i : Nat) :
    (freeTask p i).slots i = { p.slots i with t := none, next := p.freeTasks } :=
  Function.update_self ..

theorem freeTask_slot_ne (p : TaskPool) {i j : Nat} (h : j ≠ i) :
    (freeTask p i).slots j = p.slots j :=
  Function.update_of_ne h ..

/-- **`free_task` moves a slot from the table to the free list.** -/
theorem PoolOk.freed {p : TaskPool} {fl : List Nat} (h : PoolOk p fl) {i : Nat}
    (hi : InTable p i) :
    PoolOk (freeTask p i) (i :: fl) ∧ ∀ j, InTable (freeTask p i) j ↔ InTable p j ∧ j ≠ i := by
  obtain ⟨k, hk⟩ := hi
  obtain ⟨hlt, x, hx, hxo⟩ := h.task k i hk
  have hk0 : (htAt p.taskHt k).oid ≠ 0 := by
    intro h0
    rw [(h.table.task k).mp h0] at hk
    cases hk
  have hkl : k < p.taskHt.length := by
    by_contra hc
    rw [htAt_of_ge (by omega)] at hk
    cases hk
  -- the entry is found by the id of the task
  have hget : getTaskSlot p.taskHt x.oid = some k := by
    have hs : htSlot p.taskHt.length x.oid = k := by
      rw [hxo]
      exact h.table.home k hk0
    unfold getTaskSlot
    dsimp only
    rw [hs, if_pos ⟨hkl, hxo.symm⟩]
  have hht : (freeTask p i).taskHt = p.taskHt.set k .empty := by
    unfold Echse.freeTask
    dsimp only
    rw [hx]
    dsimp only
    rw [hget]
  have hin : ∀ j, InTable (freeTask p i) j ↔ InTable p j ∧ j ≠ i := by
    intro j
    unfold InTable
    rw [hht]
    constructor
    · rintro ⟨k', hk'⟩
      rw [htAt_set p.taskHt hkl] at hk'
      by_cases hkk : k' = k
      · rw [if_pos hkk] at hk'
        cases hk'
      · rw [if_neg hkk] at hk'
        refine ⟨⟨k', hk'⟩, ?_⟩
        rintro rfl
        exact hkk (h.unique hk' hk)
    · rintro ⟨⟨k', hk'⟩, hji⟩
      refine ⟨k', ?_⟩
      rw [htAt_set p.taskHt hkl, if_neg, hk']
      rintro rfl
      rw [hk] at hk'
      exact hji (Option.some.inj hk').symm
  have hfl : i ∉ fl := fun hc => (h.free i hc).2 ⟨k, hk⟩
  refine ⟨⟨?_, ?_, ?_, ?_, ?_, ?_⟩, hin⟩
  · rw [hht]
    exact h.table.erase k
  · intro k' j hj
    have hji : j ≠ i := ((hin j).mp ⟨k', hj⟩).2
    rw [hht, htAt_set p.taskHt hkl] at hj ⊢
    by_cases hkk : k' = k
    · rw [if_pos hkk] at hj
      cases hj
    · rw [if_neg hkk] at hj ⊢
      rw [freeTask_slot_ne p hji]
      exact h.task k' j hj
  · have hpush := Chain.push h.chain hfl
    refine Chain.congr hpush fun j _ => ?_
    by_cases hji : j = i
    · subst hji
      rw [freeTask_slot, Function.update_self]
    · rw [freeTask_slot_ne p hji, Function.update_of_ne hji]
  · show p.nfreeTasks + 1 = (i :: fl).length
    rw [h.count, List.length_cons]
  · intro j hj
    rw [hin]
    rcases List.mem_cons.mp hj with rfl | hj
    · exact ⟨hlt, fun hc => hc.2 rfl⟩
    · exact ⟨(h.free j hj).1, fun hc => (h.free j hj).2 hc.1⟩
  · intro j hj
    rw [hin]
    by_cases hji : j = i
    · exact Or.inl (hji ▸ List.mem_cons_self ..)
    · rcases h.all j hj with hj' | hj'
      · exact Or.inl (List.mem_cons_of_mem _ hj')
      · exact Or.inr ⟨hj', hji⟩

/-! ### Making -/

theorem makeTaskPool_slot (p : TaskPool) (n i : Nat) :
    (makeTaskPool p n).slots i =
      if p.nslots ≤ i ∧ i < p.nslots + n then
        { Task.zero with next := if i + 1 < p.nslots + n then some (i + 1) else none }
      else p.slots i := rfl

/-- More slots, when there are none left. -/
theorem PoolOk.grow {p : TaskPool} (h : PoolOk p []) {n : Nat} (hn : 0 < n) :
    PoolOk (makeTaskPool p n) (List.range' p.nslots n) := by
  refine ⟨h.table, fun k i hi => ?_, ?_, ?_, ?_, ?_⟩
  · obtain ⟨hlt, x, hx, hxo⟩ := h.task k i hi
    refine ⟨Nat.lt_add_right n hlt, x, ?_, hxo⟩
    rw [makeTaskPool_slot, if_neg (by omega)]
    exact hx
  · have hch := chain_range (fun i => ((makeTaskPool p n).slots i).next) n p.nslots
      fun i hi hin => by rw [makeTaskPool_slot, if_pos ⟨hi, hin⟩]
    rw [if_pos hn] at hch
    exact hch
  · show n = _
    rw [List.length_range']
  · intro i hi
    obtain ⟨hle, hlt⟩ := List.mem_range'_1.mp hi
    refine ⟨hlt, ?_⟩
    rintro ⟨k, hk⟩
    have := (h.task k i hk).1
    omega
  · intro i hi
    by_cases hc : i < p.nslots
    · rcases h.all i hc with hm | hm
      · cases hm
      · exact Or.inr hm
    · exact Or.inl (List.mem_range'_1.mpr ⟨by omega, hi⟩)

/-- Another table with the same entries. -/
theorem PoolOk.retable {p : TaskPool} {fl : List Nat} (h : PoolOk p fl) {ht : List TMap}
    (hok : TableOk ht)
    (hm : ∀ m : TMap, m.oid ≠ 0 → ((∃ j, htAt ht j = m) ↔ ∃ i, htAt p.taskHt i = m)) :
    PoolOk { p with taskHt := ht } fl ∧ ∀ i, InTable { p with taskHt := ht } i ↔ InTable p i := by
  -- entries that lead to a slot are those of an id
  have hmem : ∀ ht' : List TMap, TableOk ht' → ∀ i j, (htAt ht' j).t = some i →
      (htAt ht' j).oid ≠ 0 := by
    intro ht' hok' i j hj h0
    rw [(hok'.task j).mp h0] at hj
    cases hj
  have hin : ∀ i, InTable { p with taskHt := ht } i ↔ InTable p i := by
    intro i
    constructor
    · rintro ⟨k, hk⟩
      obtain ⟨j, hj⟩ := (hm _ (hmem ht hok i k hk)).mp ⟨k, rfl⟩
      exact ⟨j, (congrArg TMap.t hj).trans hk⟩
    · rintro ⟨k, hk⟩
      obtain ⟨j, hj⟩ := (hm _ (hmem _ h.table i k hk)).mpr ⟨k, rfl⟩
      exact ⟨j, (congrArg TMap.t hj).trans hk⟩
  refine ⟨⟨hok, fun k i hi => ?_, h.chain, h.count, fun i hi => ?_, fun i hi => ?_⟩, hin⟩
  · obtain ⟨j, hj⟩ := (hm _ (hmem ht hok i k hi)).mp ⟨k, rfl⟩
    have hj' : (htAt p.taskHt j).t = some i := by
      rw [hj]
      exact hi
    obtain ⟨hlt, x, hx, hxo⟩ := h.task j i hj'
    rw [hj] at hxo
    exact ⟨hlt, x, hx, hxo⟩
  · rw [hin]
    exact h.free i hi
  · rw [hin]
    exact h.all i hi

/-- There is a free slot once there is memory for one. -/
theorem PoolOk.refilled {mem : Nat → Bool} {p p' : TaskPool} {fl : List Nat} (h : PoolOk p fl)
    (hr : refillPool mem p = some p') :
    ∃ i r, PoolOk p' (i :: r) ∧ p'.freeTasks = some i ∧ p'.taskHt = p.taskHt ∧
      ∀ j, p'.slots j = p.slots j ∨ (¬ InTable p j ∧ (p'.slots j).w = Task.zero.w) := by
  have hfree : ∀ {q : TaskPool} {l : List Nat}, PoolOk q l → l ≠ [] →
      ∃ i r, PoolOk q (i :: r) ∧ q.freeTasks = some i := by
    intro q l hq hl
    cases hf : q.freeTasks with
    | none =>
        have hch := hq.chain
        unfold FreeList at hch
        rw [hf] at hch
        exact absurd hch.none hl
    | some i =>
        have hch := hq.chain
        unfold FreeList at hch
        rw [hf] at hch
        obtain ⟨r, rfl, -⟩ := hch.head
        exact ⟨i, r, hq, rfl⟩
  unfold refillPool at hr
  split at hr
  · rename_i hz
    have hnil : fl = [] := by
      rw [h.count] at hz
      exact List.length_eq_zero_iff.mp hz
    subst hnil
    dsimp only at hr
    have hpos : 0 < (if p.zfreeTasks ≠ 0 then p.zfreeTasks else 256) := by
      split <;> omega
    generalize (if p.zfreeTasks ≠ 0 then p.zfreeTasks else 256) = n at hpos hr
    split at hr
    · obtain rfl := Option.some.inj hr
      have hne : List.range' p.nslots n ≠ [] := by
        intro hc
        have := congrArg List.length hc
        rw [List.length_range', List.length_nil] at this
        omega
      obtain ⟨i, r, hok, hf⟩ := hfree (h.grow hpos) hne
      refine ⟨i, r, hok, hf, rfl, fun j => ?_⟩
      rw [makeTaskPool_slot]
      split
      · rename_i hj
        refine Or.inr ⟨?_, rfl⟩
        rintro ⟨k, hk⟩
        have := (h.task k j hk).1
        omega
      · exact Or.inl rfl
    · cases hr
  · rename_i hz
    obtain rfl := Option.some.inj hr
    have hne : fl ≠ [] := by
      rintro rfl
      exact hz h.count
    obtain ⟨i, r, hok, hf⟩ := hfree h hne
    exact ⟨i, r, hok, hf, rfl, fun j => Or.inl rfl⟩

/-- Where an entry is put, others lead where they did. -/
theorem inTable_put (i res : Nat) {p : TaskPool} {oid : Nat}
    (hempty : htAt p.taskHt (htSlot p.taskHt.length oid) = .empty)
    (hlt : htSlot p.taskHt.length oid < p.taskHt.length) :
    (∃ k, (htAt (p.taskHt.set (htSlot p.taskHt.length oid) ⟨oid, some res⟩) k).t = some i) ↔
      InTable p i ∨ i = res := by
  constructor
  · rintro ⟨k, hk⟩
    rw [htAt_set p.taskHt hlt] at hk
    by_cases hks : k = htSlot p.taskHt.length oid
    · rw [if_pos hks] at hk
      exact Or.inr (Option.some.inj hk).symm
    · rw [if_neg hks] at hk
      exact Or.inl ⟨k, hk⟩
  · rintro (⟨k, hk⟩ | rfl)
    · refine ⟨k, ?_⟩
      rw [htAt_set p.taskHt hlt, if_neg, hk]
      rintro rfl
      rw [hempty] at hk
      cases hk
    · exact ⟨_, by rw [htAt_set p.taskHt hlt, if_pos rfl]⟩

/-- Put a task into the first free slot, and its entry into the table. -/
theorem PoolOk.put {p : TaskPool} {res : Nat} {rest : List Nat} (h : PoolOk p (res :: rest))
    {oid : Nat} (h0 : oid ≠ 0) (hlt : oid < 2 ^ 64)
    (hempty : htAt p.taskHt (htSlot p.taskHt.length oid) = .empty) {s : Task}
    (hs : ∃ x, s.t = some x ∧ x.oid = oid) :
    PoolOk { p with
      freeTasks := (p.slots res).next
      nfreeTasks := p.nfreeTasks - 1
      taskHt := p.taskHt.set (htSlot p.taskHt.length oid) ⟨oid, some res⟩
      slots := Function.update p.slots res s } rest := by
  have hslot := h.table.slot_lt oid
  obtain ⟨hres, hnew⟩ := h.free res (List.mem_cons_self ..)
  have hnd := List.nodup_cons.mp (Chain.nodup h.chain)
  refine ⟨h.table.insert res h0 hlt, fun k i hk => ?_, ?_, ?_, fun i hi => ?_, fun i hi => ?_⟩
  · dsimp only at hk ⊢
    rw [htAt_set p.taskHt hslot] at hk ⊢
    by_cases hks : k = htSlot p.taskHt.length oid
    · rw [if_pos hks] at hk ⊢
      obtain rfl := Option.some.inj hk
      rw [Function.update_self]
      exact ⟨hres, hs⟩
    · rw [if_neg hks] at hk ⊢
      have hir : i ≠ res := by
        rintro rfl
        exact hnew ⟨k, hk⟩
      rw [Function.update_of_ne hir]
      exact h.task k i hk
  · have hch := h.chain
    unfold FreeList at hch
    cases hf : p.freeTasks with
    | none =>
        rw [hf] at hch
        cases hch
    | some i =>
        rw [hf] at hch
        obtain ⟨r, heq, hr⟩ := hch.head
        obtain ⟨rfl, rfl⟩ := List.cons.inj heq
        refine hr.congr fun j hj => ?_
        dsimp only
        rw [Function.update_of_ne]
        rintro rfl
        exact hnd.1 hj
  · show p.nfreeTasks - 1 = rest.length
    rw [h.count]
    rfl
  · refine ⟨(h.free i (List.mem_cons_of_mem _ hi)).1, fun hc => ?_⟩
    rcases (inTable_put i _ hempty hslot).mp hc with hc | rfl
    · exact (h.free i (List.mem_cons_of_mem _ hi)).2 hc
    · exact hnd.1 hi
  · rcases h.all i hi with hm | hm
    · rcases List.mem_cons.mp hm with rfl | hm
      · exact Or.inr ((inTable_put i _ hempty hslot).mpr (Or.inr rfl))
      · exact Or.inl hm
    · exact Or.inr ((inTable_put i _ hempty hslot).mpr (Or.inl hm))

/-- What `make_task` leaves behind where it finds no slot. -/
structure Unmade (p p' : TaskPool) : Prop where
  pool : ∃ fl, PoolOk p' fl
  inTable : ∀ i, InTable p' i ↔ InTable p i
  slots : p'.slots = p.slots

/-- What it leaves behind where it finds the slot `res`, once a task is put there. -/
structure Made (p p' : TaskPool) (oid res : Nat) : Prop where
  pool : ∀ s : Task, (∃ x, s.t = some x ∧ x.oid = oid) → ∃ fl, PoolOk (p'.set res s) fl
  new : ¬ InTable p res
  inTable : ∀ i, InTable p' i ↔ InTable p i ∨ i = res
  zero : p'.slots res = .zero
  slots : ∀ j, j ≠ res →
    p'.slots j = p.slots j ∨ (¬ InTable p j ∧ (p'.slots j).w = Task.zero.w)

/-- **`make_task` moves a slot from the free list to the table.** -/
theorem PoolOk.made {mem : Nat → Bool} {p p' : TaskPool} {fl : List Nat} (h : PoolOk p fl)
    {oid : Nat} (h0 : oid ≠ 0) (hlt : oid < 2 ^ 64) (hg : getTask p oid = none)
    {r : Option Nat} (hm : makeTask mem p oid = (r, p')) :
    (r = none ∧ Unmade p p') ∨ ∃ res, r = some res ∧ Made p p' oid res := by
  unfold makeTask at hm
  cases hp : putTaskSlot mem p.taskHt oid with
  | none =>
      rw [hp] at hm
      obtain ⟨rfl, rfl⟩ := Prod.mk.inj hm
      exact Or.inl ⟨rfl, ⟨fl, h⟩, fun _ => Iff.rfl, rfl⟩
  | some q =>
      obtain ⟨ht, slot⟩ := q
      rw [hp] at hm
      dsimp only at hm
      obtain ⟨hok, rfl, hempty, hents⟩ :=
        putTaskSlot_spec h.table hlt (h.getTask_none h0 hg) hp
      obtain ⟨h1, hin1⟩ := h.retable hok hents
      cases hr : refillPool mem { p with taskHt := ht } with
      | none =>
          rw [hr] at hm
          obtain ⟨rfl, rfl⟩ := Prod.mk.inj hm
          have hz : p.nfreeTasks = 0 := by
            unfold refillPool at hr
            split at hr
            · assumption
            · cases hr
          have hnil : fl = [] := List.length_eq_zero_iff.mp (h.count.symm.trans hz)
          subst hnil
          exact Or.inl ⟨rfl, ⟨[], ⟨h1.table, h1.task, .nil, h1.count, h1.free, h1.all⟩⟩,
            hin1, rfl⟩
      | some p2 =>
          rw [hr] at hm
          dsimp only at hm
          obtain ⟨res, rest, h2, hf, hht, hslots⟩ := h1.refilled hr
          rw [hf] at hm
          dsimp only at hm
          obtain ⟨rfl, rfl⟩ := Prod.mk.inj hm
          have hht' : p2.taskHt = ht := hht
          have hslot := hok.slot_lt oid
          have hin2 : ∀ i, InTable p2 i ↔ InTable p i := by
            intro i
            rw [← hin1]
            unfold InTable
            rw [hht]
          have hnew : ¬ InTable p res := fun hc =>
            (h2.free res (List.mem_cons_self ..)).2 ((hin2 res).mpr hc)
          have hempty' : htAt p2.taskHt (htSlot p2.taskHt.length oid) = .empty := by
            rw [hht']
            exact hempty
          refine Or.inr ⟨res, rfl, fun s hs => ⟨rest, ?_⟩, hnew, fun i => ?_, ?_, ?_⟩
          · have hput := h2.put h0 hlt hempty' hs
            rw [hht'] at hput
            show PoolOk { p2 with
              freeTasks := (p2.slots res).next
              nfreeTasks := p2.nfreeTasks - 1
              taskHt := p2.taskHt.set (htSlot ht.length oid) ⟨oid, some res⟩
              slots := Function.update (Function.update p2.slots res .zero) res s } rest
            rw [Function.update_idem, hht']
            exact hput
          · have hput := inTable_put i res hempty'
              (by rw [hht']; exact hok.slot_lt oid)
            rw [hht', hin2] at hput
            unfold InTable
            dsimp only
            rw [hht']
            exact hput
          · exact Function.update_self ..
          · intro j hj
            have hupd : Function.update p2.slots res .zero j = p2.slots j :=
              Function.update_of_ne hj ..
            show Function.update p2.slots res .zero j = _ ∨
              _ ∧ (Function.update p2.slots res .zero j).w = _
            rw [hupd]
            rcases hslots j with hj' | hj'
            · exact Or.inl hj'
            · exact Or.inr ⟨fun hc => hj'.1 ((hin1 j).mpr hc), hj'.2⟩

end Echse
