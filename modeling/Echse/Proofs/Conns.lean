/-
When the connection pool is sound.

The two halves of the free map are searched by `ffs`, and the index found in the
upper half is not moved up by 32.  As long as a bit of the lower half is set the
upper half is never looked at, so the pool is sound exactly as long as no
connection is asked for while 32 are in use.
-/
import Echse.Conns
import Mathlib.Tactic

namespace Echse

open Runs

/-! ### Searching the free map -/

theorem ffs_eq_zero {n : Nat} : ffs n = 0 ↔ ∀ i < 32, n.testBit i = false := by
  unfold ffs
  cases h : (List.range 32).find? n.testBit with
  | none =>
      simp only [true_iff]
      intro i hi
      have := List.find?_eq_none.mp h i (List.mem_range.mpr hi)
      simpa using this
  | some j =>
      have hj : j < 32 := List.mem_range.mp (List.mem_of_find?_eq_some h)
      have hb : n.testBit j = true := List.find?_some h
      simp only [Nat.add_eq_zero_iff, one_ne_zero, and_false, false_iff, not_forall]
      exact ⟨j, hj, by simp [hb]⟩

theorem ffs_succ {n i : Nat} (h : ffs n = i + 1) : i < 32 ∧ n.testBit i = true := by
  unfold ffs at h
  cases hf : (List.range 32).find? n.testBit with
  | none => simp [hf] at h
  | some j =>
      obtain rfl : j = i := by simpa [hf] using h
      exact ⟨List.mem_range.mp (List.mem_of_find?_eq_some hf), List.find?_some hf⟩

/-- `ffs` of a word whose lowest bit is set. -/
theorem ffs_of_bit_zero {n : Nat} (h : n.testBit 0 = true) : ffs n = 1 := by
  unfold ffs
  have : (List.range 32).find? n.testBit = some 0 := by
    rw [show List.range 32 = 0 :: (List.range 31).map (· + 1) from by decide]
    simp [h]
  rw [this]

theorem lowHalf_testBit (x : BitVec 64) {i : Nat} (h : i < 32) :
    (x &&& 0xffffffff#64).toNat.testBit i = x.getLsbD i := by
  have hm : (0xffffffff#64).getLsbD i = true := by
    have : (0xffffffff : Nat) = 2 ^ 32 - 1 := by norm_num
    rw [BitVec.getLsbD_ofNat, this, Nat.testBit_two_pow_sub_one]
    simp only [Bool.and_eq_true, decide_eq_true_eq]
    omega
  rw [BitVec.testBit_toNat, BitVec.getLsbD_and, hm, Bool.and_true]

theorem highHalf_testBit (x : BitVec 64) {i : Nat} (h : i < 32) :
    (x >>> 32 &&& 0xffffffff#64).toNat.testBit i = x.getLsbD (32 + i) := by
  rw [lowHalf_testBit _ h, BitVec.getLsbD_ushiftRight]

/-- A set bit in the lower half is found there. -/
theorem ffsFree_low {p : Conns} (h : ∃ i < 32, p.freeConns.getLsbD i = true) :
    ∃ i < 32, p.ffsFree = i + 1 ∧ p.freeConns.getLsbD i = true := by
  obtain ⟨i, hi, hb⟩ := h
  have hne : ffs (p.freeConns &&& 0xffffffff#64).toNat ≠ 0 := by
    intro h0
    have := ffs_eq_zero.mp h0 i hi
    rw [lowHalf_testBit _ hi, hb] at this
    cases this
  obtain ⟨j, hj⟩ := Nat.exists_eq_succ_of_ne_zero hne
  obtain ⟨hlt, hbit⟩ := ffs_succ hj
  refine ⟨j, hlt, ?_, by rw [← lowHalf_testBit _ hlt]; exact hbit⟩
  unfold Conns.ffsFree
  simp only [if_pos hne]
  exact hj

/-- With the lower half exhausted and slot 32 free, slot 0 is what is found. -/
theorem ffsFree_high {p : Conns} (hlow : ∀ i < 32, p.freeConns.getLsbD i = false)
    (hhigh : p.freeConns.getLsbD 32 = true) : p.ffsFree = 1 := by
  have h0 : ffs (p.freeConns &&& 0xffffffff#64).toNat = 0 := by
    rw [ffs_eq_zero]
    intro i hi
    rw [lowHalf_testBit _ hi, hlow i hi]
  unfold Conns.ffsFree
  simp only [h0, ne_eq, not_true_eq_false, if_false]
  apply ffs_of_bit_zero
  rw [highHalf_testBit _ (by decide)]
  exact hhigh

theorem getLsbD_toggle (x : BitVec 64) {i j : Nat} (hi : i < 64) (hj : j < 64) :
    (x ^^^ 1#64 <<< i).getLsbD j = if i = j then !x.getLsbD j else x.getLsbD j := by
  rw [BitVec.getLsbD_xor, BitVec.getLsbD_shiftLeft, BitVec.getLsbD_one]
  by_cases h : i = j
  · subst h
    simp [hi]
  · rw [if_neg h]
    by_cases hji : j < i
    · simp [hji]
    · have hne : j - i ≠ 0 := by omega
      simp [hne]

/-! ### The pool with its lower half only -/

/-- What holds while fewer than 33 connections have been in use at a time. -/
structure PoolInv (s : PoolState) : Prop where
  /-- The free map is the complement of the slots in use. -/
  complement : s.Complement
  /-- No slot has been handed out twice. -/
  nodup : s.used.Nodup
  /-- The upper half has never been touched. -/
  low : ∀ i ∈ s.used, i < 32

theorem poolInv_ini : PoolInv PoolState.ini := by
  refine ⟨?_, List.nodup_nil, by simp [PoolState.ini]⟩
  intro i hi
  show (BitVec.allOnes 64).getLsbD i = true ↔ i ∉ ([] : List Nat)
  have h64 : i < 64 := hi
  rw [BitVec.getLsbD_allOnes]
  simp [h64]

namespace PoolInv

variable {s : PoolState}

theorem exists_free (h : s.used.length < 32) : ∃ i < 32, i ∉ s.used := by
  by_contra hc
  push Not at hc
  have hsub : Finset.range 32 ⊆ s.used.toFinset := by
    intro i hi
    exact List.mem_toFinset.mpr (hc i (Finset.mem_range.mp hi))
  have h1 := Finset.card_le_card hsub
  have h2 := List.toFinset_card_le s.used
  rw [Finset.card_range] at h1
  omega

theorem all_used (inv : PoolInv s) (h : 32 ≤ s.used.length) : ∀ i < 32, i ∈ s.used := by
  have hsub : s.used.toFinset ⊆ Finset.range 32 := by
    intro i hi
    exact Finset.mem_range.mpr (inv.low i (List.mem_toFinset.mp hi))
  have hcard : (Finset.range 32).card ≤ s.used.toFinset.card := by
    rw [Finset.card_range, List.toFinset_card_of_nodup inv.nodup]
    exact h
  have heq := Finset.eq_of_subset_of_card_le hsub hcard
  intro i hi
  have : i ∈ s.used.toFinset := by
    rw [heq]
    exact Finset.mem_range.mpr hi
  exact List.mem_toFinset.mp this

/-- With fewer than 32 in use a free slot of the lower half is handed out. -/
theorem make_free (inv : PoolInv s) (h : s.used.length < 32) :
    ∃ i < 32, i ∉ s.used ∧ makeConn s.pool =
      (some i, ⟨s.pool.freeConns ^^^ 1#64 <<< i,
        Function.update s.pool.conns i ⟨some i, iobufSize, 0⟩⟩) := by
  obtain ⟨i, hi, hfree⟩ := exists_free h
  have hbit : s.pool.freeConns.getLsbD i = true :=
    (inv.complement i (Nat.lt_trans hi (by decide))).mpr hfree
  obtain ⟨j, hj, hf, hb⟩ := ffsFree_low ⟨i, hi, hbit⟩
  refine ⟨j, hj, (inv.complement j (Nat.lt_trans hj (by decide))).mp hb, ?_⟩
  unfold makeConn
  rw [hf]

/-- With 32 in use slot 0, one of them, is handed out again. -/
theorem make_again (inv : PoolInv s) (h : 32 ≤ s.used.length) :
    (makeConn s.pool).1 = some 0 ∧ 0 ∈ s.used := by
  have hall := inv.all_used h
  have hlow : ∀ i < 32, s.pool.freeConns.getLsbD i = false := by
    intro i hi
    have := (inv.complement i (Nat.lt_trans hi (by decide))).not.mpr (by simpa using hall i hi)
    simpa using this
  have hhigh : s.pool.freeConns.getLsbD 32 = true := by
    apply (inv.complement 32 (by decide)).mpr
    intro hc
    have := inv.low 32 hc
    omega
  refine ⟨?_, hall 0 (by decide)⟩
  unfold makeConn
  rw [ffsFree_high hlow hhigh]

/-- Handing out a free slot of the lower half keeps the invariant. -/
theorem take (inv : PoolInv s) {i : Nat} {conns : Nat → Conn} (hi : i < 32) (hfree : i ∉ s.used) :
    PoolInv ⟨⟨s.pool.freeConns ^^^ 1#64 <<< i, conns⟩, i :: s.used⟩ := by
  refine ⟨?_, List.nodup_cons.mpr ⟨hfree, inv.nodup⟩, ?_⟩
  · intro j hj
    show (s.pool.freeConns ^^^ 1#64 <<< i).getLsbD j = true ↔ j ∉ i :: s.used
    rw [getLsbD_toggle _ (Nat.lt_trans hi (by decide)) hj]
    by_cases hij : i = j
    · subst hij
      have hb := (inv.complement i hj).mpr hfree
      simp [hb]
    · rw [if_neg hij, inv.complement j hj]
      simp [Ne.symm hij]
  · intro j hj
    rcases List.mem_cons.mp hj with rfl | hj
    · exact hi
    · exact inv.low j hj

/-- So does taking one back that is in use. -/
theorem give (inv : PoolInv s) {i : Nat} (hi : i ∈ s.used) :
    PoolInv ⟨freeConn s.pool i, s.used.erase i⟩ := by
  have h32 := inv.low i hi
  have h64 : i < maxConns := Nat.lt_trans h32 (by decide)
  refine ⟨?_, inv.nodup.erase i, fun j hj => inv.low j (List.mem_of_mem_erase hj)⟩
  intro j hj
  show (freeConn s.pool i).freeConns.getLsbD j = true ↔ j ∉ s.used.erase i
  unfold freeConn
  rw [if_neg (Nat.not_le.mpr h64), inv.nodup.mem_erase_iff]
  show (s.pool.freeConns ^^^ 1#64 <<< i).getLsbD j = true ↔ _
  rw [getLsbD_toggle _ h64 hj]
  by_cases hij : i = j
  · subst hij
    have hb : s.pool.freeConns.getLsbD i = false := by
      have := (inv.complement i hj).not.mpr (by simpa using hi)
      simpa using this
    simp [hb]
  · rw [if_neg hij, inv.complement j hj]
    simp [Ne.symm hij]

end PoolInv

/-! ### One call and whole histories -/

/-- The calls the pool is up to: no connection is asked for while 32 are in use. -/
def LowerHalf (s : PoolState) (c : PoolCall) : Prop :=
  c = .make → s.used.length < 32

theorem poolInv_step {s t : PoolState} {c : PoolCall} (inv : PoolInv s) (hc : LowerHalf s c)
    (hs : poolStep s c = some t) : PoolInv t := by
  cases c with
  | make =>
      obtain ⟨i, hi, hfree, hm⟩ := inv.make_free (hc rfl)
      obtain rfl : _ = t := by simpa [poolStep, hm] using hs
      exact inv.take hi hfree
  | free i =>
      simp only [poolStep, Option.ite_none_right_eq_some, Option.some.injEq] at hs
      obtain ⟨hi, rfl⟩ := hs
      exact inv.give hi

/-- Under the invariant a call is sound exactly when it is not one for a 33rd
connection. -/
theorem poolSound_iff {s t : PoolState} {c : PoolCall} (inv : PoolInv s)
    (hs : poolStep s c = some t) : PoolSound s c t ↔ LowerHalf s c := by
  constructor
  · rintro ⟨-, h⟩ rfl
    by_contra hlen
    obtain ⟨hm, hu⟩ := inv.make_again (Nat.not_lt.mp hlen)
    exact ((h rfl).1 0 hm).2 hu
  · intro hc
    refine ⟨(poolInv_step inv hc hs).complement, ?_⟩
    rintro rfl
    obtain ⟨i, hi, hfree, hm⟩ := inv.make_free (hc rfl)
    rw [hm]
    refine ⟨?_, ?_⟩
    · intro j hj
      obtain rfl : i = j := by simpa using hj
      exact ⟨Nat.lt_trans hi (by decide), hfree⟩
    · simp only [reduceCtorEq, false_iff, not_forall]
      exact ⟨i, Nat.lt_trans hi (by decide), hfree⟩

/-- **The pool is sound over a history of calls exactly when no connection is
asked for while 32 are in use.** -/
theorem conns_sound_iff (cs : List PoolCall) :
    Along poolStep PoolSound PoolState.ini cs ↔ Before poolStep LowerHalf PoolState.ini cs :=
  along_iff PoolInv (fun s c t (inv : PoolInv s) hc hs => poolInv_step (c := c) (t := t) inv hc hs)
    (fun _ c t inv hs => poolSound_iff (c := c) (t := t) inv hs) cs PoolState.ini poolInv_ini

/-- The 33rd connection is one that is in use. -/
theorem conns_shared : ¬ Along poolStep PoolSound PoolState.ini (List.replicate 33 .make) := by
  intro h
  have hrun : ∃ s, run poolStep PoolState.ini (List.replicate 32 .make) = some s ∧
      (makeConn s.pool).1 = some 0 ∧ 0 ∈ s.used := by
    refine ⟨_, rfl, ?_, ?_⟩ <;> decide +kernel
  obtain ⟨s, hs, hm, hu⟩ := hrun
  have hsound := along_at (List.replicate 32 PoolCall.make) [] PoolCall.make h hs rfl
  exact ((hsound.2 rfl).1 0 hm).2 hu

end Echse
