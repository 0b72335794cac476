/-
Blocks of memory.

A block has its cells, each with what has been written to it, if anything has been.  There is no
writing outside of it.  Where writing is from the front on, a block is filled with what has
been written so far, and grows with that kept.
-/
import Mathlib.Data.List.Basic
import Mathlib.Data.Nat.Size
import Mathlib.Tactic

namespace Blocks

variable {α : Type*}

/-- `malloc`. -/
def alloc (n : Nat) : List (Option α) := List.replicate n none

/-- `realloc`. -/
def resize (b : List (Option α)) (n : Nat) : List (Option α) :=
  b.take n ++ List.replicate (n - b.length) none

/-- A write to one cell. -/
def put (b : List (Option α)) (k : Nat) (x : α) : Option (List (Option α)) :=
  if k < b.length then some (b.set k (some x)) else none

/-- `memcpy`. -/
def paste (b : List (Option α)) (k : Nat) (xs : List α) : Option (List (Option α)) :=
  if k + xs.length ≤ b.length then some (b.take k ++ xs.map some ++ b.drop (k + xs.length))
  else none

/-- A block of `n` cells with `xs` at its front. -/
def filled (xs : List α) (n : Nat) : List (Option α) :=
  xs.map some ++ List.replicate (n - xs.length) none

section

variable {xs ys : List α} {n k : Nat}

theorem alloc_eq (n : Nat) : alloc n = filled ([] : List α) n := rfl

theorem length_filled (h : xs.length ≤ n) : (filled xs n).length = n := by
  rw [filled, List.length_append, List.length_map, List.length_replicate]
  omega

theorem resize_filled (h : xs.length ≤ n) (hk : xs.length ≤ k) :
    resize (filled xs n) k = filled xs k := by
  rw [resize, length_filled h, filled, List.take_append, List.length_map,
    List.take_of_length_le (by rw [List.length_map]; exact hk), List.take_replicate,
    List.append_assoc, List.replicate_append_replicate, filled]
  congr 2
  omega

theorem paste_filled (h : xs.length + ys.length ≤ n) :
    paste (filled xs n) xs.length ys = some (filled (xs ++ ys) n) := by
  have hfront : (filled xs n).take xs.length = xs.map some :=
    List.take_left' (List.length_map ..)
  have hrest : (filled xs n).drop (xs.length + ys.length) =
      List.replicate (n - (xs.length + ys.length)) none := by
    rw [filled, List.drop_append, List.length_map, List.drop_eq_nil_of_le
      (by rw [List.length_map]; omega), List.drop_replicate, List.nil_append]
    congr 1
    omega
  rw [paste, length_filled (by omega), if_pos h, hfront, hrest, filled, List.map_append,
    List.length_append]

theorem put_filled (h : xs.length < n) (x : α) :
    put (filled xs n) xs.length x = some (filled (xs ++ [x]) n) := by
  have hone : n - xs.length = n - (xs ++ [x]).length + 1 := by
    rw [List.length_append, List.length_singleton]
    omega
  rw [put, length_filled h.le, if_pos h, filled, List.set_append_right _ _ (by rw [List.length_map]),
    List.length_map, Nat.sub_self, hone, List.replicate_succ, List.set_cons_zero, filled,
    List.map_append, List.append_assoc]
  rfl

/-- What is at the end of the front is written over. -/
theorem put_filled_last {y : α} (h : xs.length < n) (x : α) :
    put (filled (xs ++ [y]) n) xs.length x = some (filled (xs ++ [x]) n) := by
  have hlen : (xs ++ [y]).length ≤ n := by
    rw [List.length_append, List.length_singleton]
    exact h
  rw [put, length_filled hlen, if_pos h, filled, filled, List.map_append, List.map_append,
    List.append_assoc, List.append_assoc, List.set_append_right _ _ (by rw [List.length_map]),
    List.length_map, Nat.sub_self, List.length_append, List.length_append]
  rfl

theorem put_outside {b : List (Option α)} (h : b.length ≤ k) (x : α) : put b k x = none :=
  if_neg (Nat.not_lt.mpr h)

theorem paste_outside {b : List (Option α)} (h : b.length < k + xs.length) : paste b k xs = none :=
  if_neg (Nat.not_le.mpr h)

theorem getElem?_filled (hk : k < xs.length) (n : Nat) : (filled xs n)[k]? = some (some xs[k]) := by
  rw [filled, List.getElem?_append_left (by rw [List.length_map]; exact hk), List.getElem?_map,
    List.getElem?_eq_getElem hk]
  rfl

/-- What is read from a block is what is there in the front. -/
theorem take_drop_filled {a len : Nat} (h : a + len ≤ xs.length) (n : Nat) :
    ((filled xs n).drop a).take len = ((xs.drop a).take len).map some := by
  rw [filled, List.drop_append_of_le_length (by rw [List.length_map]; omega),
    List.take_append_of_le_length (by rw [List.length_drop, List.length_map]; omega),
    List.map_take, List.map_drop]

end

/-! ### Sizes that are powers of 2

The highest bit is copied to all of the lower ones, twice as many at each step.
-/

/-- Each bit is set that has one of `x` less than `w` above it. -/
def Smeared (w x y : Nat) : Prop :=
  ∀ i, y.testBit i = true ↔ ∃ j, i ≤ j ∧ j < i + w ∧ x.testBit j = true

theorem smeared_one (x : Nat) : Smeared 1 x x := by
  intro i
  constructor
  · exact fun h => ⟨i, le_rfl, Nat.lt_succ_self i, h⟩
  · rintro ⟨j, hle, hlt, h⟩
    obtain rfl : j = i := by omega
    exact h

theorem Smeared.step {w x y : Nat} (h : Smeared w x y) : Smeared (w + w) x (y ||| y >>> w) := by
  intro i
  rw [Nat.testBit_or, Nat.testBit_shiftRight, Bool.or_eq_true, h, h]
  constructor
  · rintro (⟨j, hle, hlt, hj⟩ | ⟨j, hle, hlt, hj⟩)
    · exact ⟨j, hle, by omega, hj⟩
    · exact ⟨j, by omega, by omega, hj⟩
  · rintro ⟨j, hle, hlt, hj⟩
    rcases Nat.lt_or_ge j (i + w) with hlow | hhigh
    · exact Or.inl ⟨j, hle, hlow, hj⟩
    · exact Or.inr ⟨j, by omega, by omega, hj⟩

theorem Smeared.eq {w x y : Nat} (h : Smeared w x y) (hx : x < 2 ^ w) : y = 2 ^ x.size - 1 := by
  refine Nat.eq_of_testBit_eq fun i => ?_
  rw [Nat.testBit_two_pow_sub_one, Bool.eq_iff_iff, decide_eq_true_iff, h, Nat.lt_size]
  constructor
  · rintro ⟨j, hle, -, hj⟩
    exact (Nat.pow_le_pow_right (by decide) hle).trans (Nat.ge_two_pow_of_testBit hj)
  · intro hge
    obtain ⟨j, hle, hj⟩ := Nat.exists_ge_and_testBit_of_ge_two_pow hge
    have hlt : j < w := (Nat.pow_lt_pow_iff_right (by decide)).mp
      ((Nat.ge_two_pow_of_testBit hj).trans_lt hx)
    exact ⟨j, hle, by omega, hj⟩

end Blocks
