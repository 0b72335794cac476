/-
Counting through a list from either end.

`pick xs c` is what `c` stands for in a list: 1 is the first and -1 is the last.  The members
of a residue class below a bound are an arithmetic progression, so there the `c`-th one has a
closed form.
-/
import Mathlib.Data.List.Basic
import Mathlib.Tactic.Ring

namespace Picks

variable {α : Type}

/-- The `c`-th of a list, counted from its end if `c` is negative. -/
def pick (xs : List α) (c : Int) : Option α :=
  if 0 < c then xs[(c - 1).toNat]? else if c < 0 then xs.reverse[(-c - 1).toNat]? else none

theorem pick_zero (xs : List α) : pick xs 0 = none := rfl

theorem pick_pos (xs : List α) {c : Int} (h : 0 < c) : pick xs c = xs[(c - 1).toNat]? := if_pos h

theorem pick_neg (xs : List α) {c : Int} (h : c < 0) :
    pick xs c = if -c ≤ xs.length then xs[(xs.length + c).toNat]? else none := by
  unfold pick
  rw [if_neg (by omega), if_pos h]
  split
  · rw [List.getElem?_reverse (by omega)]
    congr 1
    omega
  · rw [List.getElem?_eq_none (by simp; omega)]

theorem pick_mem {xs : List α} {c : Int} {x : α} (h : pick xs c = some x) : x ∈ xs := by
  unfold pick at h
  split at h
  · exact List.mem_of_getElem? h
  · split at h
    · exact List.mem_reverse.mp (List.mem_of_getElem? h)
    · cases h

theorem pick_map {β : Type} (f : α → β) (xs : List α) (c : Int) :
    pick (xs.map f) c = (pick xs c).map f := by
  unfold pick
  split
  · exact List.getElem?_map
  · split
    · rw [← List.map_reverse]
      exact List.getElem?_map
    · rfl

/-- The `c`-th of the numbers from 1 to `n`. -/
theorem pick_range' (n : Nat) (c : Int) :
    pick (List.range' 1 n) c =
      if 0 < c ∧ c ≤ n then some c.toNat
      else if c < 0 ∧ -c ≤ n then some (n + 1 + c).toNat else none := by
  have hget : ∀ i, (List.range' 1 n)[i]? = if i < n then some (1 + i) else none := by
    intro i
    split
    · rename_i h
      rw [List.getElem?_range' h, Nat.one_mul]
    · rename_i h
      rw [List.getElem?_eq_none (by simp; omega)]
  by_cases hpos : 0 < c
  · rw [pick_pos _ hpos, hget]
    by_cases hle : c ≤ n
    · rw [if_pos (by omega), if_pos ⟨hpos, hle⟩]
      congr 1
      omega
    · rw [if_neg (by omega), if_neg (by omega), if_neg (by omega)]
  · by_cases hneg : c < 0
    · rw [pick_neg _ hneg, List.length_range', if_neg (by omega : ¬ (0 < c ∧ c ≤ n)), hget]
      by_cases hle : -c ≤ n
      · rw [if_pos hle, if_pos (by omega), if_pos ⟨hneg, hle⟩]
        congr 1
        omega
      · rw [if_neg hle, if_neg (by omega)]
    · have hzero : c = 0 := by omega
      subst hzero
      rw [pick_zero, if_neg (by omega), if_neg (by omega)]

/-- A member goes by its rank. -/
theorem pick_eq (xs : List α) (c : Int) :
    pick xs c = (pick (List.range' 1 xs.length) c).bind fun k => xs[k - 1]? := by
  rw [pick_range']
  by_cases hpos : 0 < c
  · rw [pick_pos xs hpos]
    by_cases hle : c ≤ xs.length
    · rw [if_pos ⟨hpos, hle⟩, Option.bind_some]
      congr 1
      omega
    · rw [if_neg (by omega), if_neg (by omega), List.getElem?_eq_none (by omega)]
      rfl
  · rw [if_neg (by omega : ¬ (0 < c ∧ c ≤ xs.length))]
    by_cases hneg : c < 0
    · rw [pick_neg xs hneg]
      by_cases hle : -c ≤ xs.length
      · rw [if_pos hle, if_pos ⟨hneg, hle⟩, Option.bind_some]
        congr 1
        omega
      · rw [if_neg hle, if_neg (by omega)]
        rfl
    · have hzero : c = 0 := by omega
      subst hzero
      rw [if_neg (by omega)]
      rfl

/-! ### Residue classes -/

/-- The numbers below `n` that are `a` modulo `k`. -/
def every (k a n : Nat) : List Nat := (List.range n).filter (· % k = a)

/-- How many there are. -/
def everyCount (k a n : Nat) : Nat := (n + (k - 1 - a)) / k

theorem everyCount_succ {k a : Nat} (h : a < k) (n : Nat) :
    everyCount k a (n + 1) = everyCount k a n + if n % k = a then 1 else 0 := by
  unfold everyCount
  rw [show n + 1 + (k - 1 - a) = n + (k - 1 - a) + 1 by omega, Nat.succ_div]
  congr 1
  refine if_congr ?_ rfl rfl
  rw [show n + (k - 1 - a) + 1 = n + (k - a) by omega, Nat.dvd_iff_mod_eq_zero]
  have hk : 0 < k := by omega
  have hsplit := Nat.div_add_mod n k
  have hlt := Nat.mod_lt n hk
  generalize n / k = q at hsplit
  generalize n % k = r at hsplit hlt
  rw [← hsplit, Nat.add_assoc, Nat.mul_add_mod]
  by_cases hle : r < a
  · rw [Nat.mod_eq_of_lt (by omega)]
    omega
  · rw [show r + (k - a) = r - a + k by omega, Nat.add_mod_right, Nat.mod_eq_of_lt (by omega)]
    omega

/-- **A residue class is a progression.** -/
theorem every_eq {k a : Nat} (h : a < k) (n : Nat) :
    every k a n = (List.range (everyCount k a n)).map fun i => a + k * i := by
  have hval : ∀ n, n % k = a → n = a + k * everyCount k a n := by
    intro n hn
    have hsplit := Nat.div_add_mod n k
    rw [hn] at hsplit
    unfold everyCount
    rw [show n + (k - 1 - a) = k * (n / k) + (k - 1) by omega, Nat.mul_add_div (by omega),
      Nat.div_eq_of_lt (by omega : k - 1 < k), Nat.add_zero]
    omega
  induction n with
  | zero =>
      have hzero : everyCount k a 0 = 0 := Nat.div_eq_of_lt (by omega)
      rw [hzero]
      rfl
  | succ n ih =>
      unfold every at ih ⊢
      rw [List.range_succ, List.filter_append, ih, everyCount_succ h]
      by_cases hn : n % k = a
      · rw [if_pos hn, List.range_succ, List.map_append, List.map_singleton, ← hval n hn]
        simp [hn]
      · rw [if_neg hn]
        simp [hn]

theorem every_length {k a : Nat} (h : a < k) (n : Nat) : (every k a n).length = everyCount k a n := by
  rw [every_eq h, List.length_map, List.length_range]

/-- The `c`-th of a residue class. -/
theorem pick_every {k a : Nat} (h : a < k) (n : Nat) (c : Int) :
    pick (every k a n) c =
      if 0 < c ∧ c ≤ everyCount k a n then some (a + k * (c - 1).toNat)
      else if c < 0 ∧ -c ≤ everyCount k a n then some (a + k * (everyCount k a n + c).toNat)
      else none := by
  have hget : ∀ i, (every k a n)[i]? = if i < everyCount k a n then some (a + k * i) else none := by
    intro i
    rw [every_eq h, List.getElem?_map]
    split
    · rename_i hi
      rw [List.getElem?_range hi]
      rfl
    · rw [List.getElem?_eq_none (by simp; omega)]
      rfl
  by_cases hpos : 0 < c
  · rw [pick_pos _ hpos, hget]
    by_cases hle : c ≤ everyCount k a n
    · rw [if_pos (by omega), if_pos ⟨hpos, hle⟩]
    · rw [if_neg (by omega), if_neg (by omega), if_neg (by omega)]
  · by_cases hneg : c < 0
    · rw [pick_neg _ hneg, every_length h, hget, if_neg (by omega : ¬ (0 < c ∧ c ≤ everyCount k a n))]
      by_cases hle : -c ≤ everyCount k a n
      · rw [if_pos hle, if_pos (by omega), if_pos ⟨hneg, hle⟩]
      · rw [if_neg hle, if_neg (by omega)]
    · have hzero : c = 0 := by omega
      subst hzero
      rw [pick_zero, if_neg (by omega), if_neg (by omega)]

end Picks
