/-
The search with a sum for a filter finds what the search at every place finds.

The sum of a window is kept up as the window moves.  Where it is that of the needle and all
bytes but the last agree, so does the last, as it is what the others leave of the sum.
-/
import Echse.Http
import Echse.Lib.Search
import Echse.Memmem

namespace Echse.Memmem

open Search

section

variable {α : Type} [DecidableEq α] (asUint : α → BitVec 32)

/-- The sum of some bytes. -/
def sum (l : List α) : BitVec 32 := l.foldr (fun b s => asUint b ^^^ s) 0

theorem sum_cons (c : α) (l : List α) : sum asUint (c :: l) = asUint c ^^^ sum asUint l := rfl

theorem sum_append (l m : List α) : sum asUint (l ++ m) = sum asUint l ^^^ sum asUint m := by
  induction l with
  | nil => exact (BitVec.zero_xor).symm
  | cons c l ih => rw [List.cons_append, sum_cons, sum_cons, ih, BitVec.xor_assoc]

theorem sum_singleton (c : α) : sum asUint [c] = asUint c := BitVec.xor_zero

/-- The sum of the window moves on with it. -/
theorem sum_move (c h : α) (w : List α) :
    sum asUint (c :: w) ^^^ asUint c ^^^ asUint h = sum asUint (w ++ [h]) := by
  have hc : asUint c ^^^ sum asUint w ^^^ asUint c = sum asUint w := by
    rw [BitVec.xor_comm, ← BitVec.xor_assoc, BitVec.xor_self, BitVec.zero_xor]
  rw [sum_cons, hc, sum_append, sum_singleton]

/-! ### The first window -/

theorem sums_eq (np : List α) {hp : List α} (h : np.length ≤ hp.length) (hsum nsum : BitVec 32)
    (eqp : Bool) : sums asUint hp np hsum nsum eqp =
      (hp.drop np.length, [], hsum ^^^ sum asUint (hp.take np.length), nsum ^^^ sum asUint np,
        eqp && decide (hp.take np.length = np)) := by
  induction np generalizing hp hsum nsum eqp with
  | nil => cases hp <;> simp [sums, sum]
  | cons n np ih =>
      cases hp with
      | nil => exact absurd h (Nat.not_succ_le_zero _)
      | cons x hp =>
          rw [sums, ih (Nat.le_of_succ_le_succ h)]
          simp only [List.length_cons, List.drop_succ_cons, List.take_succ_cons, sum_cons,
            BitVec.xor_assoc, List.cons.injEq, Bool.and_assoc, Bool.decide_and]
          rfl

theorem sums_short {np hp : List α} (h : hp.length < np.length) (hsum nsum : BitVec 32) (eqp : Bool) :
    (sums asUint hp np hsum nsum eqp).2.1 ≠ [] := by
  induction np generalizing hp hsum nsum eqp with
  | nil => exact absurd h (Nat.not_lt_zero _)
  | cons n np ih =>
      cases hp with
      | nil => simp [sums]
      | cons x hp =>
          rw [sums]
          exact ih (Nat.lt_of_succ_lt_succ h) _ _ _

/-- What `memchr` passes over, and what it finds. -/
theorem memchr_split (n : α) (hay : List α) : ∃ pre, n ∉ pre ∧ pre.length = (hay.takeWhile (· ≠ n)).length ∧
    (hay = pre ∨ ∃ hp, hay = pre ++ n :: hp) := by
  induction hay with
  | nil => exact ⟨[], List.not_mem_nil, rfl, Or.inl rfl⟩
  | cons c hay ih =>
      by_cases hc : c = n
      · subst hc
        refine ⟨[], List.not_mem_nil, ?_, Or.inr ⟨hay, rfl⟩⟩
        rw [List.takeWhile_cons_of_neg (by simp)]
      · obtain ⟨pre, hnot, hlen, hsplit⟩ := ih
        refine ⟨c :: pre, List.not_mem_cons_of_ne_of_not_mem (Ne.symm hc) hnot, ?_, ?_⟩
        · rw [List.takeWhile_cons_of_pos (by simpa using hc), List.length_cons, List.length_cons, hlen]
        · rcases hsplit with rfl | ⟨hp, rfl⟩
          · exact Or.inl rfl
          · exact Or.inr ⟨hp, rfl⟩

/-! ### The windows after it -/

variable {asUint} (hinj : Function.Injective asUint)
include hinj

/-- Equal sums, and equal bytes but for the last. -/
theorem window_eq_iff {w ndl : List α} {h : α} (hlen : w.length + 1 = ndl.length) :
    sum asUint (w ++ [h]) = sum asUint ndl ∧ w = ndl.take (ndl.length - 1) ↔ w ++ [h] = ndl := by
  constructor
  · rintro ⟨hsum, hw⟩
    have hne : ndl ≠ [] := by
      rintro rfl
      exact absurd hlen (Nat.succ_ne_zero _)
    have hlast : ndl = w ++ [ndl.getLast hne] := by
      rw [hw, ← List.dropLast_eq_take, List.dropLast_append_getLast]
    rw [hlast, sum_append, sum_append, sum_singleton, sum_singleton] at hsum
    have hxor : asUint h = asUint (ndl.getLast hne) := by
      have h2 := congrArg (sum asUint w ^^^ ·) hsum
      simpa only [← BitVec.xor_assoc, BitVec.xor_self, BitVec.zero_xor] using h2
    rw [hinj hxor]
    exact hlast.symm
  · rintro rfl
    refine ⟨rfl, ?_⟩
    rw [List.length_append, List.length_singleton, Nat.add_sub_cancel, List.take_left]

theorem scan_eq {ndl : List α} (hne : ndl ≠ []) (hp : List α) {w : List α} (hw : w.length = ndl.length)
    (i : Nat) : scan asUint ndl (sum asUint ndl) hp (w ++ hp) (sum asUint w) i =
      (search ndl (w ++ hp).tail).map (· + (i + 1)) := by
  have hpos := List.length_pos_iff.mpr hne
  induction hp generalizing w i with
  | nil =>
      rw [List.append_nil, search_of_short (by rw [List.length_tail]; omega)]
      cases w <;> rfl
  | cons h hp ih =>
      cases w with
      | nil =>
          rw [List.length_nil] at hw
          omega
      | cons c w =>
          rw [List.length_cons] at hw
          have hmove : w ++ h :: hp = (w ++ [h]) ++ hp := by rw [List.append_assoc]; rfl
          have htake : (w ++ h :: hp).take (ndl.length - 1) = w := by
            rw [show ndl.length - 1 = w.length by omega, List.take_left]
          have hnew : (w ++ [h]).length = ndl.length := by
            rw [List.length_append, List.length_singleton]
            exact hw
          rw [List.cons_append, scan]
          simp only [sum_move, htake, window_eq_iff hinj hw]
          rw [List.tail_cons]
          by_cases heq : w ++ [h] = ndl
          · rw [if_pos heq, hmove, heq, search_of_front (List.prefix_append ndl hp)]
            rw [Option.map_some, Nat.zero_add]
          · have hpre : ¬ ndl <+: w ++ h :: hp := by
              intro hpre
              rw [hmove] at hpre
              have hboth := List.prefix_of_prefix_length_le hpre (List.prefix_append (w ++ [h]) hp) hnew.ge
              exact heq (hboth.eq_of_length hnew.symm).symm
            have hcons : w ++ h :: hp ≠ [] := by simp
            have hnext := ih hnew (i + 1)
            rw [← hmove] at hnext
            rw [if_neg heq, hnext, search_tail hcons hpre, Option.map_map]
            refine congrArg (Option.map · _) (funext fun k => ?_)
            show k + (i + 1 + 1) = k + 1 + (i + 1)
            omega

/-- Whatever the bytes are, as long as no two of them count the same. -/
theorem xmemmem_eq_search (hay ndl : List α) : xmemmem asUint hay ndl = search ndl hay := by
  cases ndl with
  | nil => exact (search_of_front List.nil_prefix).symm
  | cons n np =>
      obtain ⟨pre, hnot, hlen, hsplit⟩ := memchr_split n hay
      rw [xmemmem]
      dsimp only
      rw [← hlen]
      rcases hsplit with hsplit | ⟨hp, hsplit⟩
      · have hnone : search (n :: np) hay = none := by
          have hend : search (n :: np) [] = none := search_of_short (Nat.succ_pos np.length)
          have hskip := @search_skip α _ n np pre [] hnot
          rw [List.append_nil, hend] at hskip
          rw [hsplit]
          exact hskip
        rw [hnone, hsplit, List.drop_length]
      · have hskip := @search_skip α _ n np pre (n :: hp) hnot
        rw [← hsplit] at hskip
        have hdrop : hay.drop pre.length = n :: hp := by
          rw [hsplit, List.drop_left]
        rw [hskip, hdrop]
        dsimp only
        by_cases hshort : hp.length < np.length
        · have hend : search (n :: np) (n :: hp) = none := search_of_short (Nat.succ_lt_succ hshort)
          rw [if_pos (sums_short asUint hshort _ _ _), hend]
          rfl
        · have hroom : np.length ≤ hp.length := Nat.le_of_not_lt hshort
          rw [sums_eq asUint np hroom]
          simp only [ne_eq, not_true_eq_false, if_false, Bool.true_and, decide_eq_true_eq]
          have hwin : n :: hp = (n :: hp.take np.length) ++ hp.drop np.length := by
            rw [List.cons_append, List.take_append_drop]
          have hwlen : (n :: hp.take np.length).length = (n :: np).length := by
            rw [List.length_cons, List.length_cons, List.length_take_of_le hroom]
          by_cases heq : hp.take np.length = np
          · have hpre : n :: np <+: n :: hp := by
              rw [hwin, heq]
              exact List.prefix_append _ _
            rw [if_pos heq, search_of_front hpre, Option.map_some, Nat.zero_add]
          · have hpre : ¬ n :: np <+: n :: hp := by
              intro hpre
              rw [hwin] at hpre
              have hboth := List.prefix_of_prefix_length_le hpre (List.prefix_append _ _) hwlen.ge
              exact heq (List.cons_eq_cons.mp (hboth.eq_of_length hwlen.symm)).2.symm
            have hscan := scan_eq hinj (List.cons_ne_nil n np) (hp.drop np.length) hwlen pre.length
            rw [← hwin, sum_cons, sum_cons] at hscan
            rw [if_neg heq, hscan, search_tail (List.cons_ne_nil n hp) hpre, Option.map_map]
            refine congrArg (Option.map · _) (funext fun k => ?_)
            show k + (pre.length + 1) = k + 1 + pre.length
            omega

end

/-- A `char` can be told from what it is promoted to. -/
theorem charAsUint_injective : Function.Injective charAsUint := by
  intro a b h
  have hback (c : BitVec 8) : (c.signExtend 32).setWidth 8 = c := by
    ext i hi
    simp [BitVec.getLsbD_signExtend, hi]
    omega
  have hcut := congrArg (BitVec.setWidth 8) h
  rw [charAsUint, charAsUint, hback, hback] at hcut
  exact hcut

/-- **`xmemmem` returns the first occurrence of the needle, and nothing if there is none**. -/
theorem xmemmem_first (hay ndl : List (BitVec 8)) :
    xmemmem charAsUint hay ndl = search ndl hay ∧
      (∀ i, xmemmem charAsUint hay ndl = some i ↔
        i ≤ hay.length ∧ ndl <+: hay.drop i ∧ ∀ j < i, ¬ ndl <+: hay.drop j) ∧
      (xmemmem charAsUint hay ndl = none ↔ ∀ i ≤ hay.length, ¬ ndl <+: hay.drop i) := by
  rw [xmemmem_eq_search charAsUint_injective]
  exact ⟨rfl, fun i => search_eq_some_iff, search_eq_none_iff⟩

/-- The text that a request's search returns is what is there from the first occurrence on. -/
theorem xmemmem_drop (ndl hay : List Char) :
    Echse.xmemmem ndl hay = (search ndl hay).map fun i => hay.drop i := by
  induction hay with
  | nil => cases ndl <;> rfl
  | cons c hay ih =>
      rw [Echse.xmemmem]
      by_cases hp : ndl <+: c :: hay
      · rw [if_pos (List.isPrefixOf_iff_prefix.mpr hp), search_of_front hp]
        rfl
      · rw [if_neg fun h => hp (List.isPrefixOf_iff_prefix.mp h), search_cons hp, ih, Option.map_map]
        rfl

end Echse.Memmem
