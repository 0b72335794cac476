/-
Filtering by exceptions, both sorted by where they begin.

A span runs from its beginning up to its end, which is not part of it; one that ends
where it begins, or before, is the single point it begins at.  Spans meet if they have
a point in common.

`sweep` keeps one exception in hand: it drops exceptions as long as they end before
the item begins, and the item is then let through unless it properly overlaps the one
in hand.  Dropping is safe as the items are sorted.  What the sweep misses is a point
that only touches, and an exception that lies behind one which ends where the item
begins; `sweep_eq_filter_iff` says that it misses nothing else.
-/
import Mathlib.Order.Interval.Set.Basic
import Mathlib.Data.List.Basic

namespace Spans

variable {τ α β : Type*} [LinearOrder τ]

structure Span (τ : Type*) where
  beg : τ
  fin : τ

/-- The points of a span. -/
def Span.points (s : Span τ) : Set τ := if s.fin ≤ s.beg then {s.beg} else Set.Ico s.beg s.fin

/-- Two spans have a point in common. -/
def Meet (a b : Span τ) : Prop := (a.points ∩ b.points).Nonempty

/-- Each begins before the other ends. -/
def Overlap (a b : Span τ) : Prop := a.beg < b.fin ∧ b.beg < a.fin

instance (a b : Span τ) : Decidable (Overlap a b) := inferInstanceAs (Decidable (_ ∧ _))

theorem mem_points {s : Span τ} {t : τ} :
    t ∈ s.points ↔ s.beg ≤ t ∧ (t < s.fin ∨ t = s.beg) := by
  unfold Span.points
  split
  · rename_i h
    constructor
    · rintro rfl
      exact ⟨le_rfl, Or.inr rfl⟩
    · rintro ⟨hb, hf | he⟩
      · exact absurd (lt_of_lt_of_le hf h) (not_lt.mpr hb)
      · exact he
  · rename_i h
    rw [Set.mem_Ico]
    constructor
    · rintro ⟨hb, hf⟩
      exact ⟨hb, Or.inl hf⟩
    · rintro ⟨hb, hf | rfl⟩
      · exact ⟨hb, hf⟩
      · exact ⟨hb, not_le.mp h⟩

theorem beg_mem_points (s : Span τ) : s.beg ∈ s.points := mem_points.mpr ⟨le_rfl, Or.inr rfl⟩

/-- Equal spans meet. -/
theorem meet_self (s : Span τ) : Meet s s := ⟨s.beg, beg_mem_points s, beg_mem_points s⟩

/-- Spans meet exactly if the later of the beginnings is a point of both. -/
theorem meet_iff {a b : Span τ} :
    Meet a b ↔ (a.beg ≤ b.beg ∧ b.beg ∈ a.points) ∨ (b.beg ≤ a.beg ∧ a.beg ∈ b.points) := by
  constructor
  · rintro ⟨t, ha, hb⟩
    obtain ⟨ha1, ha2⟩ := mem_points.mp ha
    obtain ⟨hb1, hb2⟩ := mem_points.mp hb
    rcases le_total a.beg b.beg with h | h
    · refine Or.inl ⟨h, mem_points.mpr ⟨h, ?_⟩⟩
      rcases ha2 with hf | rfl
      · exact Or.inl (lt_of_le_of_lt hb1 hf)
      · exact Or.inr (le_antisymm hb1 h)
    · refine Or.inr ⟨h, mem_points.mpr ⟨h, ?_⟩⟩
      rcases hb2 with hf | rfl
      · exact Or.inl (lt_of_le_of_lt ha1 hf)
      · exact Or.inr (le_antisymm ha1 h)
  · rintro (⟨-, h⟩ | ⟨-, h⟩)
    · exact ⟨b.beg, h, beg_mem_points b⟩
    · exact ⟨a.beg, beg_mem_points a, h⟩

instance (s : Span τ) (t : τ) : Decidable (t ∈ s.points) := decidable_of_iff _ mem_points.symm

instance (a b : Span τ) : Decidable (Meet a b) := decidable_of_iff _ meet_iff.symm

/-- Spans that overlap meet. -/
theorem Overlap.meet {a b : Span τ} (h : Overlap a b) : Meet a b := by
  rw [meet_iff]
  rcases le_total a.beg b.beg with hab | hab
  · exact Or.inl ⟨hab, mem_points.mpr ⟨hab, Or.inl h.2⟩⟩
  · exact Or.inr ⟨hab, mem_points.mpr ⟨hab, Or.inl h.1⟩⟩

/-! ### The sweep -/

variable (sa : α → Span τ) (sb : β → Span τ)

/-- The exceptions from the first one on that does not end before `a` begins. -/
def pending (a : α) (xs : List β) : List β :=
  xs.dropWhile fun x => decide ((sb x).fin < (sa a).beg)

/-- The exception in hand when `a` is looked at overlaps it. -/
def Caught (xs : List β) (a : α) : Prop :=
  ∃ x ∈ (pending sa sb a xs).head?, Overlap (sa a) (sb x)

instance (xs : List β) (a : α) : Decidable (Caught sa sb xs a) :=
  inferInstanceAs (Decidable (∃ x ∈ (pending sa sb a xs).head?, Overlap (sa a) (sb x)))

/-- Let through what is not caught, keeping the exceptions that are left. -/
def sweep : List α → List β → List α
  | [], _ => []
  | a :: as, xs =>
      if Caught sa sb xs a then sweep as (pending sa sb a xs)
      else a :: sweep as (pending sa sb a xs)

variable {sa sb}

/-! One step of the sweep, by what the exception in hand does. -/

theorem sweep_none (a : α) (as : List α) : sweep sa sb (a :: as) [] = a :: sweep sa sb as [] := by
  simp [sweep, Caught, pending]

theorem sweep_drop {a : α} {x : β} (h : (sb x).fin < (sa a).beg) (as : List α) (xs : List β) :
    sweep sa sb (a :: as) (x :: xs) = sweep sa sb (a :: as) xs := by
  have hp : pending sa sb a (x :: xs) = pending sa sb a xs := by
    unfold pending
    rw [List.dropWhile_cons_of_pos (by simpa using h)]
  have hc : Caught sa sb (x :: xs) a ↔ Caught sa sb xs a := by
    unfold Caught
    rw [hp]
  rw [sweep, sweep, hp]
  exact if_congr hc rfl rfl

theorem pending_of_not_lt {a : α} {x : β} (h : ¬ (sb x).fin < (sa a).beg) (xs : List β) :
    pending sa sb a (x :: xs) = x :: xs := by
  unfold pending
  rw [List.dropWhile_cons_of_neg (by simpa using h)]

theorem sweep_catch {a : α} {x : β} (h : Overlap (sa a) (sb x)) (as : List α) (xs : List β) :
    sweep sa sb (a :: as) (x :: xs) = sweep sa sb as (x :: xs) := by
  have hp := pending_of_not_lt (not_lt.mpr h.1.le) xs
  have hc : Caught sa sb (x :: xs) a := ⟨x, by rw [hp]; rfl, h⟩
  rw [sweep, if_pos hc, hp]

theorem sweep_pass {a : α} {x : β} (h : ¬ Overlap (sa a) (sb x)) (hend : ¬ (sb x).fin < (sa a).beg)
    (as : List α) (xs : List β) :
    sweep sa sb (a :: as) (x :: xs) = a :: sweep sa sb as (x :: xs) := by
  have hp := pending_of_not_lt hend xs
  have hc : ¬ Caught sa sb (x :: xs) a := by
    rintro ⟨y, hy, ho⟩
    rw [hp] at hy
    obtain rfl : x = y := by simpa using hy
    exact h ho
  rw [sweep, if_neg hc, hp]

/-! Where the items are sorted. -/

/-- What is dropped for an earlier item would be dropped for a later one. -/
theorem pending_pending {a b : α} (h : (sa a).beg ≤ (sa b).beg) (xs : List β) :
    pending sa sb b (pending sa sb a xs) = pending sa sb b xs := by
  induction xs with
  | nil => rfl
  | cons x xs ih =>
      by_cases hx : (sb x).fin < (sa a).beg
      · have hb : (sb x).fin < (sa b).beg := lt_of_lt_of_le hx h
        simp only [pending, List.dropWhile_cons, hx, hb, decide_true, if_true] at ih ⊢
        exact ih
      · simp only [pending, List.dropWhile_cons, hx, decide_false, Bool.false_eq_true, if_false]

theorem caught_pending {a b : α} (h : (sa a).beg ≤ (sa b).beg) (xs : List β) :
    Caught sa sb (pending sa sb a xs) b ↔ Caught sa sb xs b := by
  unfold Caught
  rw [pending_pending h]

/-- **The sweep lets through what is not caught by the first exception that does not
end before it.** -/
theorem sweep_eq_filter : ∀ (as : List α) (xs : List β),
    as.Pairwise (fun a b => (sa a).beg ≤ (sa b).beg) →
      sweep sa sb as xs = as.filter fun a => ¬ Caught sa sb xs a := by
  intro as
  induction as with
  | nil => intro xs _; rfl
  | cons a as ih =>
      intro xs h
      obtain ⟨ha, has⟩ := List.pairwise_cons.mp h
      have hrest : sweep sa sb as (pending sa sb a xs) = as.filter fun b => ¬ Caught sa sb xs b := by
        rw [ih _ has]
        refine List.filter_congr fun b hb => ?_
        rw [decide_eq_decide, caught_pending (ha b hb)]
      unfold sweep
      rw [hrest]
      by_cases hc : Caught sa sb xs a
      · simp [hc]
      · simp [hc]

/-- An item meets one of the exceptions. -/
def Excluded (sa : α → Span τ) (sb : β → Span τ) (xs : List β) (a : α) : Prop :=
  ∃ x ∈ xs, Meet (sa a) (sb x)

instance (xs : List β) (a : α) : Decidable (Excluded sa sb xs a) :=
  inferInstanceAs (Decidable (∃ x ∈ xs, Meet (sa a) (sb x)))

theorem Caught.excluded {xs : List β} {a : α} (h : Caught sa sb xs a) : Excluded sa sb xs a := by
  obtain ⟨x, hx, ho⟩ := h
  have hm : x ∈ pending sa sb a xs := List.mem_of_mem_head? hx
  exact ⟨x, (List.dropWhile_sublist _).subset hm, ho.meet⟩

/-- An item is properly excluded: it overlaps an exception, and none that comes before
that one ends where the item begins. -/
def Covered (sa : α → Span τ) (sb : β → Span τ) (xs : List β) (a : α) : Prop :=
  ∃ ys x zs, xs = ys ++ x :: zs ∧ Overlap (sa a) (sb x) ∧ ∀ y ∈ ys, (sb y).fin ≠ (sa a).beg

/-- With the exceptions sorted, that is when the one in hand catches the item. -/
theorem caught_iff_covered {a : α} : ∀ {xs : List β},
    xs.Pairwise (fun x y => (sb x).beg ≤ (sb y).beg) → (Caught sa sb xs a ↔ Covered sa sb xs a) := by
  intro xs
  induction xs with
  | nil =>
      intro _
      simp [Caught, Covered, pending]
  | cons x xs ih =>
      intro h
      obtain ⟨hx, hxs⟩ := List.pairwise_cons.mp h
      by_cases hend : (sb x).fin < (sa a).beg
      · -- the first one is dropped
        have hcaught : Caught sa sb (x :: xs) a ↔ Caught sa sb xs a := by
          unfold Caught pending
          rw [List.dropWhile_cons_of_pos (by simpa using hend)]
        rw [hcaught, ih hxs]
        constructor
        · rintro ⟨ys, y, zs, rfl, ho, hne⟩
          refine ⟨x :: ys, y, zs, rfl, ho, ?_⟩
          intro w hw
          rcases List.mem_cons.mp hw with rfl | hw
          · exact ne_of_lt hend
          · exact hne w hw
        · rintro ⟨ys, y, zs, heq, ho, hne⟩
          cases ys with
          | nil =>
              obtain ⟨rfl, rfl⟩ : x = y ∧ xs = zs := by simpa using heq
              exact absurd ho.1 (not_lt.mpr hend.le)
          | cons w ys =>
              obtain ⟨rfl, rfl⟩ : x = w ∧ xs = ys ++ y :: zs := by simpa using heq
              exact ⟨ys, y, zs, rfl, ho, fun v hv => hne v (List.mem_cons_of_mem _ hv)⟩
      · -- the first one is in hand
        have hcaught : Caught sa sb (x :: xs) a ↔ Overlap (sa a) (sb x) := by
          unfold Caught pending
          rw [List.dropWhile_cons_of_neg (by simpa using hend)]
          simp
        rw [hcaught]
        constructor
        · intro ho
          exact ⟨[], x, xs, rfl, ho, by simp⟩
        · rintro ⟨ys, y, zs, heq, ho, hne⟩
          cases ys with
          | nil =>
              obtain ⟨rfl, -⟩ : x = y ∧ xs = zs := by simpa using heq
              exact ho
          | cons w ys =>
              obtain ⟨rfl, rfl⟩ : x = w ∧ xs = ys ++ y :: zs := by simpa using heq
              have hlt : (sa a).beg < (sb x).fin :=
                lt_of_le_of_ne (not_lt.mp hend) (Ne.symm (hne x (List.mem_cons_self ..)))
              exact ⟨hlt, lt_of_le_of_lt (hx y (by simp)) ho.2⟩

/-- **The sweep lets through exactly what meets no exception if and only if whatever
meets one is properly excluded.** -/
theorem sweep_eq_filter_iff {as : List α} {xs : List β}
    (has : as.Pairwise (fun a b => (sa a).beg ≤ (sa b).beg))
    (hxs : xs.Pairwise (fun x y => (sb x).beg ≤ (sb y).beg)) :
    (sweep sa sb as xs = as.filter fun a => ¬ Excluded sa sb xs a) ↔
      ∀ a ∈ as, Excluded sa sb xs a → Covered sa sb xs a := by
  rw [sweep_eq_filter as xs has]
  constructor
  · intro h a ha hex
    rw [← caught_iff_covered hxs]
    by_contra hc
    have hmem : a ∈ as.filter fun a => ¬ Caught sa sb xs a :=
      List.mem_filter.mpr ⟨ha, by simpa using hc⟩
    rw [h] at hmem
    have := (List.mem_filter.mp hmem).2
    exact absurd hex (by simpa using this)
  · intro h
    refine List.filter_congr fun a ha => ?_
    rw [decide_eq_decide]
    have hiff : Caught sa sb xs a ↔ Excluded sa sb xs a := by
      refine ⟨Caught.excluded, fun hex => ?_⟩
      rw [caught_iff_covered hxs]
      exact h a ha hex
    rw [hiff]

end Spans
