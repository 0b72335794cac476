/-
Several sources in one sequence.

Every element is tagged with the source it comes from.  A sequence is read by picking
some of the sources.  Two sequences are interleavings of the same sources if every single
one reads the same in both.
-/
import Mathlib.Data.List.Basic

namespace Streams

variable {ι α : Type*}

/-- A block of one source. -/
def tag (i : ι) (b : List α) : List (ι × α) := b.map fun a => (i, a)

/-- What comes from the sources that satisfy `p`. -/
def pick (p : ι → Bool) (m : List (ι × α)) : List α := (m.filter fun e => p e.1).map Prod.snd

@[simp]
theorem pick_nil (p : ι → Bool) : pick p ([] : List (ι × α)) = [] := rfl

@[simp]
theorem pick_append (p : ι → Bool) (m n : List (ι × α)) :
    pick p (m ++ n) = pick p m ++ pick p n := by
  simp [pick]

@[simp]
theorem pick_tag (p : ι → Bool) (i : ι) (b : List α) :
    pick p (tag i b) = if p i then b else [] := by
  by_cases h : p i <;> simp [pick, tag, List.filter_map, Function.comp_def, h]

@[simp]
theorem tag_nil (i : ι) : tag i ([] : List α) = [] := rfl

theorem tag_append (i : ι) (b c : List α) : tag i (b ++ c) = tag i b ++ tag i c := by
  simp [tag]

/-- Sources that are picked alike read alike. -/
theorem pick_congr {p q : ι → Bool} {m : List (ι × α)} (h : ∀ e ∈ m, p e.1 = q e.1) :
    pick p m = pick q m := by
  rw [pick, pick, List.filter_congr h]

theorem pick_all {p : ι → Bool} {m : List (ι × α)} (h : ∀ i, p i = true) :
    pick p m = m.map Prod.snd := by
  simp [pick, h]

variable [DecidableEq ι]

/-- Every source reads the same in both. -/
def Interleaved (m n : List (ι × α)) : Prop := ∀ i, pick (· == i) m = pick (· == i) n

theorem Interleaved.refl (m : List (ι × α)) : Interleaved m m := fun _ => rfl

end Streams
