/-
Cursors over lists.

A cursor is moved on over the elements that come before what is looked for, and then looks at the
one it is at.  In a list in ascending order that is the element looked for, if it is there; and a
list that is cut off, or followed by others, does not make a difference up to where it is cut.
-/
import Mathlib.Data.List.Basic
import Mathlib.Data.List.TakeWhile

namespace Cursors

variable {α : Type} (before : α → Bool)

/-- Where the cursor comes to. -/
def place (xs : List α) : Nat := (xs.takeWhile before).length

variable {before} {xs ys : List α}

theorem place_le (xs : List α) : place before xs ≤ xs.length := (List.takeWhile_sublist _).length_le

theorem place_lt_iff : place before xs < xs.length ↔ ∃ x ∈ xs, before x = false := by
  unfold place
  constructor
  · intro h
    by_contra hno
    simp only [not_exists, not_and, Bool.not_eq_false] at hno
    rw [List.takeWhile_eq_self_iff.mpr hno] at h
    exact lt_irrefl _ h
  · rintro ⟨x, hx, hb⟩
    refine lt_of_le_of_ne (place_le xs) fun heq => ?_
    have hall := List.takeWhile_eq_self_iff.mp ((List.takeWhile_prefix before).eq_of_length heq)
    rw [hall x hx] at hb
    cases hb

theorem getElem?_place (xs : List α) : xs[place before xs]? = (xs.dropWhile before).head? := by
  unfold place
  induction xs with
  | nil => rfl
  | cons x xs ih =>
      cases hb : before x with
      | true =>
          rw [List.takeWhile_cons_of_pos hb, List.dropWhile_cons_of_pos hb, List.length_cons,
            List.getElem?_cons_succ, ih]
      | false =>
          have hneg : ¬ before x = true := by simp [hb]
          rw [List.takeWhile_cons_of_neg hneg, List.dropWhile_cons_of_neg hneg]
          rfl

/-- No more is passed than there is before. -/
theorem place_le_countP (xs : List α) : place before xs ≤ xs.countP before := by
  have hall : (xs.takeWhile before).filter before = xs.takeWhile before :=
    List.filter_eq_self.mpr fun _ hx => List.mem_takeWhile_imp hx
  unfold place
  rw [← hall, List.countP_eq_length_filter]
  exact ((List.takeWhile_sublist _).filter _).length_le

/-- Going on from somewhere on the way is like going all the way. -/
theorem place_drop {i : Nat} (hi : i ≤ xs.length) (h : ∀ x ∈ xs.take i, before x = true) :
    i + place before (xs.drop i) = place before xs := by
  have hlen : (xs.take i).length = i := List.length_take_of_le hi
  have hsplit : place before xs = ((xs.take i ++ xs.drop i).takeWhile before).length := by
    rw [List.take_append_drop]
    rfl
  rw [hsplit, List.takeWhile_append_of_pos h, List.length_append, hlen]
  rfl

/-- What has been passed is before. -/
theorem before_of_mem_take {x : α} (h : x ∈ xs.take (place before xs)) : before x = true := by
  have heq : xs.take (place before xs) = xs.takeWhile before :=
    List.prefix_iff_eq_take.mp (List.takeWhile_prefix before) |>.symm
  rw [heq] at h
  exact List.mem_takeWhile_imp h

theorem place_append (h : ∃ x ∈ xs, before x = false) (ys : List α) :
    place before (xs ++ ys) = place before xs := by
  unfold place
  rw [List.takeWhile_append, if_neg]
  exact ne_of_lt (place_lt_iff.mpr h)

theorem place_append_le (xs ys : List α) : place before xs ≤ place before (xs ++ ys) := by
  unfold place
  rw [List.takeWhile_append]
  split
  · rw [List.length_append]
    have : place before xs ≤ xs.length := place_le xs
    unfold place at this
    omega
  · rfl

theorem place_mono (h : xs <+: ys) : place before xs ≤ place before ys := by
  obtain ⟨zs, rfl⟩ := h
  exact place_append_le xs zs

/-- The element at the cursor is that of the whole list. -/
theorem getElem?_of_front (h : xs <+: ys) {e : α} (he : xs[place before xs]? = some e) :
    ys[place before ys]? = some e := by
  obtain ⟨zs, rfl⟩ := h
  obtain ⟨hlt, hget⟩ := List.getElem?_eq_some_iff.mp he
  rw [place_append (place_lt_iff.mp hlt), List.getElem?_append_left hlt]
  exact he

/-- **The element looked for is at the cursor.** -/
theorem getElem?_place_of_mem {key : α → Nat} (hsorted : xs.Pairwise (key · < key ·)) {x : α}
    (hbefore : ∀ y, before y = true ↔ key y < key x) (hx : x ∈ xs) :
    xs[place before xs]? = some x := by
  induction xs with
  | nil => cases hx
  | cons y xs ih =>
      have hx0 : before x = false := by
        rw [Bool.eq_false_iff, Ne, hbefore]
        exact lt_irrefl _
      rw [List.pairwise_cons] at hsorted
      rw [getElem?_place]
      rcases List.mem_cons.mp hx with rfl | hx
      · rw [List.dropWhile_cons_of_neg (by rw [hx0]; decide)]
        rfl
      · have hy := (hbefore y).mpr (hsorted.1 x hx)
        rw [List.dropWhile_cons_of_pos hy, ← getElem?_place]
        exact ih hsorted.2 hx

/-- Up to a bound that goes by the order, an ascending list has all of its elements. -/
theorem mem_takeWhile {keep : α → Bool} {key : α → Nat} (hsorted : xs.Pairwise (key · < key ·))
    (hkeep : ∀ x y, key x < key y → keep y = true → keep x = true) {x : α} :
    x ∈ xs.takeWhile keep ↔ x ∈ xs ∧ keep x = true := by
  refine ⟨fun h => ⟨(List.takeWhile_prefix keep).subset h, List.mem_takeWhile_imp h⟩, ?_⟩
  rintro ⟨hx, hk⟩
  induction xs with
  | nil => cases hx
  | cons y xs ih =>
      rw [List.pairwise_cons] at hsorted
      rcases List.mem_cons.mp hx with rfl | hx
      · rw [List.takeWhile_cons_of_pos hk]
        exact List.mem_cons_self
      · rw [List.takeWhile_cons_of_pos (hkeep y x (hsorted.1 x hx) hk)]
        exact List.mem_cons_of_mem _ (ih hsorted.2 hx)

end Cursors
