/-
Children are handed out once.

The children that are in use and those on the free list are all that have been allocated, and no
child is there twice.  What is written to a child in use is written to no link of the list, so
whatever it is, the list stays in order.
-/
import Mathlib.Tactic
import Echse.Chlds
import Echse.Lib.Chain
import Echse.Lib.Runs

namespace Echse

open Linked Runs

/-- The child that is pointed at. -/
def ChldData.link : ChldData → Option Nat
  | .chld i => some i
  | _ => none

namespace ChldPool

variable {p : ChldPool} {used fl : List Nat}

/-- What holds of the pool between the calls, where `fl` is its free list. -/
structure Shared (p : ChldPool) (used fl : List Nat) : Prop where
  chain : Chain (fun i => (p.data i).link) p.freeChlds.link fl
  count : p.nfreeChlds = fl.length
  nodup : (used ++ fl).Nodup
  all : ∀ i, i ∈ used ++ fl ↔ i < p.nchlds
  room : p.cpools.length ≤ p.zcpools
  pools : p.cpools.flatMap (fun c => List.range' c.1 c.2) = List.range p.nchlds

theorem shared_ini : Shared .ini [] [] where
  chain := .nil
  count := rfl
  nodup := List.nodup_nil
  all := by simp [ini]
  room := Nat.le_refl _
  pools := rfl

/-- A child in use is on no list. -/
theorem Shared.notMem_free (h : Shared p used fl) {i : Nat} (hi : i ∈ used) : i ∉ fl :=
  fun hc => (List.nodup_append.mp h.nodup).2.2 i hi i hc rfl

theorem Shared.notMem_used {i : Nat} (h : Shared p (i :: used) fl) : i ∉ used := by
  have hcons := h.nodup
  rw [List.cons_append, List.nodup_cons] at hcons
  exact fun hc => hcons.1 (List.mem_append_left _ hc)

theorem adz_pos (p : ChldPool) : 0 < p.adz := by
  rw [adz]
  split
  · omega
  · decide

/-- There is memory for another pool. -/
def HasMem (mem : ChldMem) (p : ChldPool) : Prop :=
  mem.malloc p.adz = true ∧ (p.cpools.length < p.zcpools ∨ mem.realloc p.nuz = true)

/-- After that there is room in `cpools`, whether it was there before or not. -/
theorem growCpools_spec (mem : ChldMem) (p : ChldPool) (hroom : p.cpools.length ≤ p.zcpools) :
    (∃ z, p.growCpools mem = some { p with zcpools := z } ∧ p.cpools.length < z ∧
      (p.cpools.length < p.zcpools ∨ mem.realloc p.nuz = true)) ∨
    (p.growCpools mem = none ∧ ¬ (p.cpools.length < p.zcpools ∨ mem.realloc p.nuz = true)) := by
  rw [growCpools]
  by_cases hfull : p.zcpools ≤ p.cpools.length
  · rw [if_pos hfull]
    cases hre : mem.realloc p.nuz with
    | true =>
        refine Or.inl ⟨p.nuz, rfl, ?_, Or.inr rfl⟩
        rw [nuz]
        split <;> omega
    | false => exact Or.inr ⟨rfl, by simp; omega⟩
  · rw [if_neg hfull]
    exact Or.inl ⟨p.zcpools, rfl, by omega, Or.inl (by omega)⟩

/-- The pool with `adz` more children, and those on the free list. -/
def filled (p : ChldPool) (zcpools zfreeChlds : Nat) : ChldPool where
  data i :=
    if p.nchlds ≤ i ∧ i < p.nchlds + p.adz then
      if i + 1 < p.nchlds + p.adz then .chld (i + 1) else .null
    else p.data i
  nchlds := p.nchlds + p.adz
  freeChlds := .chld p.nchlds
  nfreeChlds := p.adz
  zfreeChlds := zfreeChlds
  cpools := p.cpools ++ [(p.nchlds, p.adz)]
  zcpools := zcpools

theorem Shared.fill (h : Shared p used []) {z : Nat} (hz : p.cpools.length < z) (z' : Nat) :
    Shared (p.filled z z') used (List.range' p.nchlds p.adz) where
  chain := by
    have hlink : ∀ i, p.nchlds ≤ i → i < p.nchlds + p.adz → ((p.filled z z').data i).link =
        if i + 1 < p.nchlds + p.adz then some (i + 1) else none := by
      intro i hle hlt
      simp only [filled]
      rw [if_pos ⟨hle, hlt⟩]
      split <;> rfl
    have hchain := chain_range (fun i => ((p.filled z z').data i).link) p.adz p.nchlds hlink
    rw [if_pos p.adz_pos] at hchain
    exact hchain
  count := by simp [filled]
  nodup := by
    have hused : used.Nodup := by simpa using h.nodup
    refine hused.append List.nodup_range' ?_
    intro i hi hnew
    have hold := (h.all i).mp (by simpa using hi)
    have hle := (List.mem_range'_1.mp hnew).1
    omega
  all := by
    intro i
    have hold := h.all i
    rw [List.append_nil] at hold
    rw [List.mem_append, hold, List.mem_range'_1]
    simp only [filled]
    omega
  room := by
    simp only [filled, List.length_append, List.length_singleton]
    exact hz
  pools := by
    simp only [filled]
    rw [List.flatMap_append, h.pools, List.range_eq_range', List.range_eq_range']
    simpa using List.range'_append_1 (s := 0) (m := p.nchlds) (n := p.adz)

/-- The first child on the free list is the one that is handed out. -/
theorem Shared.pop {i : Nat} (h : Shared p used (i :: fl)) :
    ∃ p', p.pop = some (i, p') ∧ Shared p' (i :: used) fl ∧ p'.data = p.data := by
  have hchain := h.chain
  cases hfree : p.freeChlds with
  | null =>
      rw [hfree] at hchain
      cases hchain
  | other q =>
      rw [hfree] at hchain
      cases hchain
  | chld j =>
      rw [hfree] at hchain
      cases hchain with
      | cons hrest =>
          let p' : ChldPool := { p with freeChlds := p.data i, nfreeChlds := p.nfreeChlds - 1 }
          have hpop : p.pop = some (i, p') := by rw [ChldPool.pop, hfree]
          refine ⟨p', hpop, ⟨hrest, ?_, ?_, ?_, h.room, h.pools⟩, rfl⟩
          · have hcount := h.count
            rw [List.length_cons] at hcount
            simp only [p']
            omega
          · have hperm : (i :: used ++ fl).Perm (used ++ i :: fl) := List.perm_middle.symm
            exact hperm.nodup_iff.mpr h.nodup
          · intro j
            have hmem : j ∈ i :: used ++ fl ↔ j ∈ used ++ i :: fl := List.perm_middle.symm.mem_iff
            rw [hmem, h.all j]

theorem Shared.free (h : Shared p used fl) {i : Nat} (hi : i ∈ used) :
    Shared (p.freeChld i) (used.erase i) (i :: fl) := by
  have hperm : (used.erase i ++ i :: fl).Perm (used ++ fl) :=
    List.perm_middle.trans ((List.perm_cons_erase hi).symm.append_right fl)
  refine ⟨?_, ?_, hperm.nodup_iff.mpr h.nodup, ?_, h.room, h.pools⟩
  · have hpush := h.chain.push (h.notMem_free hi)
    have hlinks : (fun j => ((p.freeChld i).data j).link) =
        Function.update (fun j => (p.data j).link) i p.freeChlds.link := by
      funext j
      by_cases hj : j = i
      · subst hj
        simp [freeChld]
      · simp [freeChld, hj]
    rw [hlinks]
    exact hpush
  · rw [List.length_cons, ← h.count]
    rfl
  · intro j
    rw [hperm.mem_iff, h.all j]
    rfl

/-- What is written to a child in use is written to no link. -/
theorem Shared.write (h : Shared p used fl) {i : Nat} (hi : i ∈ used) (v : ChldData) :
    Shared { p with data := Function.update p.data i v } used fl := by
  refine ⟨h.chain.congr ?_, h.count, h.nodup, h.all, h.room, h.pools⟩
  intro j hj
  have hji : j ≠ i := fun hc => h.notMem_free hi (hc ▸ hj)
  simp [hji]

/-- **What `make_chld` does.** -/
theorem Shared.make (h : Shared p used fl) (mem : ChldMem) :
    (∃ i p' fl', p.makeChld mem = some (some i, p') ∧ Shared p' (i :: used) fl' ∧ i ∉ used ∧
      (∀ j ∈ used, p'.data j = p.data j) ∧ ¬ (p.nfreeChlds = 0 ∧ ¬ p.HasMem mem)) ∨
    ∃ p', p.makeChld mem = some (none, p') ∧ Shared p' used fl ∧ p'.data = p.data ∧
      p.nfreeChlds = 0 ∧ ¬ p.HasMem mem := by
  by_cases h0 : p.nfreeChlds = 0
  · obtain rfl : fl = [] := List.eq_nil_of_length_eq_zero (h.count ▸ h0)
    have hnone : Shared { p with freeChlds := .null } used [] :=
      ⟨.nil, h.count, h.nodup, h.all, h.room, h.pools⟩
    cases hmem : mem.malloc p.adz with
    | true =>
        rcases growCpools_spec mem p h.room with ⟨z, hgrow, hz, hcan⟩ | ⟨hgrow, hcan⟩
        · obtain ⟨n, hn⟩ := Nat.exists_eq_succ_of_ne_zero (Nat.ne_of_gt p.adz_pos)
          have hfill := h.fill hz (if p.zfreeChlds ≠ 0 then p.adz * 2 else 256)
          have hlist : List.range' p.nchlds p.adz = p.nchlds :: List.range' (p.nchlds + 1) n := by
            rw [hn, Nat.succ_eq_add_one, List.range'_succ]
          rw [hlist] at hfill
          obtain ⟨p', hpop, hshared, hdata⟩ := hfill.pop
          refine Or.inl ⟨_, p', _, ?_, hshared, hshared.notMem_used, ?_,
            fun hc => hc.2 ⟨hmem, hcan⟩⟩
          · rw [makeChld, if_pos h0, makeChldPool, if_pos hmem, hgrow]
            exact congrArg (Option.map fun r => (some r.1, r.2)) hpop
          · intro j hj
            have hlt := (h.all j).mp (List.mem_append_left _ hj)
            rw [hdata]
            simp only [filled]
            rw [if_neg (by omega)]
        · refine Or.inr ⟨_, ?_, hnone, rfl, h0, fun hc => hcan hc.2⟩
          rw [makeChld, if_pos h0, makeChldPool, if_pos hmem, hgrow]
          rfl
    | false =>
        refine Or.inr ⟨_, ?_, hnone, rfl, h0, fun hc => by simp [HasMem, hmem] at hc⟩
        rw [makeChld, if_pos h0, makeChldPool, hmem, if_neg Bool.false_ne_true]
  · obtain ⟨i, fl', rfl⟩ :=
      List.exists_cons_of_ne_nil fun hc : fl = [] => h0 (by simp [h.count, hc])
    obtain ⟨p', hpop, hshared, hdata⟩ := h.pop
    refine Or.inl ⟨i, p', fl', ?_, hshared, hshared.notMem_used, fun j _ => by rw [hdata],
      fun hc => h0 hc.1⟩
    rw [makeChld, if_neg h0, hpop]
    rfl

end ChldPool

namespace ChldUse

variable {s t : ChldUse}

/-- The invariant: the pool is in order, and nothing but what the users have written is in the
`data` of the children in use. -/
def Ok (s : ChldUse) : Prop :=
  (∃ fl, s.pool.Shared s.used fl) ∧ ∀ i ∈ s.used, s.pool.data i = s.own i

theorem ok_ini : Ok .ini := ⟨⟨[], ChldPool.shared_ini⟩, by simp [ini]⟩

theorem Ok.step (h : s.Ok) {c : ChldCall} (hst : chldStep s c = some t) : t.Ok := by
  obtain ⟨⟨fl, hs⟩, hown⟩ := h
  cases c with
  | make mem =>
      rcases hs.make mem with ⟨i, p', fl', hmake, hs', hi, hdata, -⟩ | ⟨p', hmake, hs', hdata, -, -⟩
      · rw [chldStep, hmake] at hst
        obtain rfl := Option.some.inj hst
        refine ⟨⟨fl', hs'⟩, ?_⟩
        intro j hj
        rcases List.mem_cons.mp hj with rfl | hj
        · simp
        · have hji : j ≠ i := fun hc => hi (hc ▸ hj)
          dsimp only
          rw [Function.update_of_ne hji, hdata j hj, hown j hj]
      · rw [chldStep, hmake] at hst
        obtain rfl := Option.some.inj hst
        exact ⟨⟨fl, hs'⟩, fun j hj => by rw [← hown j hj, ← hdata]⟩
  | write i v =>
      rw [chldStep] at hst
      split at hst
      · rename_i hi
        obtain rfl := Option.some.inj hst
        refine ⟨⟨fl, hs.write hi v⟩, ?_⟩
        intro j hj
        by_cases hji : j = i
        · subst hji
          simp
        · dsimp only
          rw [Function.update_of_ne hji, Function.update_of_ne hji, hown j hj]
      · cases hst
  | free i =>
      rw [chldStep] at hst
      split at hst
      · rename_i hi
        obtain rfl := Option.some.inj hst
        refine ⟨⟨i :: fl, hs.free hi⟩, ?_⟩
        intro j hj
        have hji : j ≠ i := by
          intro hc
          have hused : s.used.Nodup := (List.nodup_append.mp hs.nodup).1
          exact (hused.mem_erase_iff.mp hj).1 hc
        simp only [ChldPool.freeChld]
        rw [Function.update_of_ne hji, hown j (List.mem_of_mem_erase hj)]
      · cases hst

/-- **Whatever is done with the children**, no child is in use twice, each has the `data` that was
written to it last, the others are free, and each is in one pool of `cpools`.  A call of
`make_chld` then follows no pointer but to a child: it gives one that is not in use, or `NULL` if
none is free and there is no memory. -/
theorem chldRun_sound {calls : List ChldCall} (hrun : Runs.run chldStep .ini calls = some s) :
    s.used.Nodup ∧ (∀ i ∈ s.used, i < s.pool.nchlds ∧ s.pool.data i = s.own i) ∧
      s.pool.nchlds = s.used.length + s.pool.nfreeChlds ∧
      s.pool.cpools.length ≤ s.pool.zcpools ∧
      s.pool.cpools.flatMap (fun c => List.range' c.1 c.2) = List.range s.pool.nchlds ∧
      ∀ mem, ∃ r p, s.pool.makeChld mem = some (r, p) ∧
        (r = none ↔ s.pool.nfreeChlds = 0 ∧ ¬ s.pool.HasMem mem) ∧
        ∀ i, r = some i → i ∉ s.used ∧ i < p.nchlds := by
  obtain ⟨⟨fl, hs⟩, hown⟩ := run_inv (fun _ _ _ h hst => Ok.step h hst) calls ok_ini hrun
  have hcount : s.pool.nchlds = s.used.length + s.pool.nfreeChlds := by
    have hperm : (s.used ++ fl).Perm (List.range s.pool.nchlds) := by
      refine (List.perm_ext_iff_of_nodup hs.nodup List.nodup_range).mpr ?_
      intro i
      rw [hs.all i, List.mem_range]
    have hlen := hperm.length_eq
    rw [List.length_append, List.length_range] at hlen
    rw [hs.count, hlen]
  refine ⟨(List.nodup_append.mp hs.nodup).1, ?_, hcount, hs.room, hs.pools, ?_⟩
  · intro i hi
    exact ⟨(hs.all i).mp (List.mem_append_left _ hi), hown i hi⟩
  · intro mem
    rcases hs.make mem with ⟨i, p', fl', hmake, hs', hi, -, hsome⟩ | ⟨p', hmake, -, -, hnone⟩
    · refine ⟨some i, p', hmake, iff_of_false (Option.some_ne_none i) hsome, ?_⟩
      intro j hj
      obtain rfl := Option.some.inj hj
      exact ⟨hi, (hs'.all i).mp (by simp)⟩
    · exact ⟨none, p', hmake, iff_of_true rfl hnone, fun i hi => by cases hi⟩

/-- Two children are made, the first is written to and the second goes back. -/
theorem chldRun_two :
    ∃ s, Runs.run chldStep .ini
        [.make ⟨fun _ => true, fun _ => true⟩, .make ⟨fun _ => false, fun _ => false⟩,
          .write 0 (.chld 7), .free 1] = some s ∧
      s.used = [0] ∧ s.pool.data 0 = .chld 7 ∧ s.pool.nchlds = 256 ∧
      s.pool.nchlds = s.used.length + s.pool.nfreeChlds :=
  ⟨_, rfl, rfl, rfl, rfl, (@chldRun_sound _
    [.make ⟨fun _ => true, fun _ => true⟩, .make ⟨fun _ => false, fun _ => false⟩,
      .write 0 (.chld 7), .free 1] rfl).2.2.1⟩

end ChldUse

end Echse
