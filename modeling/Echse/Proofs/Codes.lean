/-
The codes a helper assigns, one after the other.

Every helper is a fold of assignments over a list of codes that does not depend on the set.
Whether it adds what it should can then be read off the list: the codes have to be
those of dates, a wrong one stays in the set for good.
-/
import Echse.Proofs.Cands
import Echse.Proofs.Members

namespace Echse

/-- `f` assigns the codes `xs`. -/
def Assigns (f : Bitints → Bitints) (xs : List Int) : Prop := ∀ c, f c = xs.foldl assBi383 c

section Assigns

variable {α : Type} {f g : Bitints → Bitints} {xs ys : List Int}

theorem assigns_nothing : Assigns (fun c => c) [] := fun _ => rfl

theorem assigns_code (x : Int) : Assigns (fun c => assBi383 c x) [x] := fun _ => rfl

theorem Assigns.comp (hf : Assigns f xs) (hg : Assigns g ys) :
    Assigns (fun c => g (f c)) (xs ++ ys) := by
  intro c
  change g (f c) = _
  rw [hg, hf, List.foldl_append]

theorem Assigns.ite {C : Prop} [Decidable C] (hf : C → Assigns f xs) (hg : ¬ C → Assigns g ys) :
    Assigns (fun c => if C then f c else g c) (if C then xs else ys) := by
  intro c
  split
  · exact hf ‹C› c
  · exact hg ‹¬ C› c

/-- A loop assigns what its turns assign. -/
theorem assigns_foldl {as : List α} {f : Bitints → α → Bitints} {xs : α → List Int}
    (h : ∀ a ∈ as, Assigns (fun c => f c a) (xs a)) :
    Assigns (fun c => as.foldl f c) (as.flatMap xs) := by
  induction as with
  | nil => exact assigns_nothing
  | cons a as ih =>
      exact (h a List.mem_cons_self).comp (ih fun b hb => h b (List.mem_cons_of_mem _ hb))

end Assigns

/-! ### Wrong codes stay -/

/-- A value is stored, whether or not it is ever read. -/
def Stored (bi : Bitints) (x : Int) : Prop :=
  match bi with
  | .native xs => x ∈ xs
  | .bits b => b.testBit (bintsPos 12 x) = true

theorem Stored.ass {bi : Bitints} {x : Int} (h : Stored bi x) (z : Int) : Stored (assBi383 bi z) x := by
  have hkeep : ∀ {b : Nat}, b.testBit (bintsPos 12 x) = true →
      (assBs 12 b z).testBit (bintsPos 12 x) = true := fun hb => (testBit_assBs_iff 12).mpr (Or.inl hb)
  have hall : ∀ (ys : List Int) {b : Nat}, b.testBit (bintsPos 12 x) = true ∨ x ∈ ys →
      (ys.foldl (assBs 12) b).testBit (bintsPos 12 x) = true := by
    intro ys
    induction ys with
    | nil => exact fun hb => hb.resolve_right List.not_mem_nil
    | cons y ys ih =>
        rintro b (hb | hx)
        · exact ih (Or.inl ((testBit_assBs_iff 12).mpr (Or.inl hb)))
        · rcases List.mem_cons.mp hx with rfl | hx
          · exact ih (Or.inl ((testBit_assBs_iff 12).mpr (Or.inr rfl)))
          · exact ih (Or.inr hx)
  unfold assBi383 assBints
  cases bi with
  | native ys =>
      dsimp only
      split
      · exact (mem_assInt z ys x).mpr (Or.inr h)
      · exact hkeep (hall ys (Or.inr h))
  | bits b => exact hkeep h

theorem stored_ass (bi : Bitints) (x : Int) : Stored (assBi383 bi x) x := by
  unfold assBi383 assBints
  cases bi with
  | native ys =>
      dsimp only
      split
      · exact (mem_assInt x ys x).mpr (Or.inl rfl)
      · exact (testBit_assBs_iff 12).mpr (Or.inr rfl)
  | bits b => exact (testBit_assBs_iff 12).mpr (Or.inr rfl)

theorem stored_foldl {xs : List Int} {x : Int} : ∀ {bi : Bitints}, x ∈ xs ∨ Stored bi x →
    Stored (xs.foldl assBi383 bi) x := by
  induction xs with
  | nil => exact fun h => h.resolve_left List.not_mem_nil
  | cons y ys ih =>
      rintro bi (hx | hx)
      · rcases List.mem_cons.mp hx with rfl | hx
        · exact ih (Or.inr (stored_ass bi x))
        · exact ih (Or.inl hx)
      · exact ih (Or.inr (hx.ass y))

/-- A set that stores something is not read as empty. -/
theorem Stored.ne_nil {bi : Bitints} {x : Int} (h : Stored bi x) (hx : -384 < x ∧ x ≤ 383) :
    bi383List bi ≠ [] := by
  have hnext : (bi383Next bi 0).2 ≠ 0 := by
    cases bi with
    | native xs =>
        obtain ⟨z, zs, rfl⟩ := List.exists_cons_of_ne_nil (List.ne_nil_of_mem h)
        exact one_ne_zero
    | bits b =>
        rcases bintsNext_bits (b := b) (by decide : 0 < 12) 0 (Or.inl (by decide)) with
          ⟨j, k, -, hjk, -, -, -, hn, -⟩ | ⟨hno, -⟩
        · unfold bi383Next
          rw [hn]
          dsimp only
          omega
        · -- the value is at a position, unless 383 is before it
          exfalso
          unfold Stored bintsPos at h
          dsimp only at h
          by_cases hpos : 0 < x
          · rw [if_pos hpos] at h
            exact hno x.toNat (Nat.zero_le _) (by omega) (Or.inr (Or.inl ⟨by omega, by omega, h⟩))
          · rw [if_neg hpos] at h
            by_cases h0 : x = 0
            · subst h0
              exact hno 0 le_rfl (by decide) (Or.inl ⟨rfl, h⟩)
            · cases hlast : b.testBit (32 * 12 - 1) with
              | true =>
                  exact hno 383 (Nat.zero_le _) (by decide)
                    (Or.inr (Or.inl ⟨by decide, by decide, hlast⟩))
              | false =>
                  exact hno _ (Nat.zero_le _) (by omega) (Or.inr (Or.inr ⟨by omega, h, hlast⟩))
  unfold bi383List drain
  rw [if_neg hnext]
  exact List.cons_ne_nil _ _

/-- A set of codes stores nothing else. -/
theorem CodeSet.stored {c : Bitints} (h : CodeSet c) {x : Int} (hx : Stored c x) : 1 ≤ x ∧ x ≤ 383 := by
  cases c with
  | native xs => exact h.2.2 x hx
  | bits b =>
      have hle := h _ hx
      unfold bintsPos at hle
      split at hle <;> omega

theorem bi383List_nil : bi383List .nil = [] := rfl

/-- **What a fold of assignments adds** are the codes assigned, and these have to be codes. -/
theorem Assigns.adds_iff {f : Bitints → Bitints} {xs : List Int} (h : Assigns f xs) {P : Int → Prop} :
    Adds f P ↔ (∀ x ∈ xs, 1 ≤ x ∧ x ≤ 383) ∧ ∀ x, P x ↔ x ∈ xs := by
  have hadds : (∀ x ∈ xs, 1 ≤ x ∧ x ≤ 383) → Adds f fun x => x ∈ xs := by
    intro hrange
    rw [funext h]
    refine (adds_foldl fun x hx => adds_code (hrange x hx).1 (hrange x hx).2 fun y => Iff.rfl).congr
      fun x => ?_
    simp
  constructor
  · intro ha
    have hrange : ∀ x ∈ xs, 1 ≤ x ∧ x ≤ 383 := by
      intro x hx
      have hset := ha.codes .nil codeSet_nil
      rw [h] at hset
      exact hset.stored (stored_foldl (Or.inl hx))
    exact ⟨hrange, ha.unique.mp (hadds hrange)⟩
  · rintro ⟨hrange, hP⟩
    exact (hadds hrange).congr fun x => (hP x).symm

end Echse
