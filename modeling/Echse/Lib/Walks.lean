/-
Walking one step at a time and counting.

A walk takes single steps and counts those that come to where `P` holds; it ends with the
last one it counts.  So the number of steps and the place it ends are a function of the start and of
the count.
-/
import Mathlib.Order.Basic

namespace Walks

variable {α : Type} {step : α → α} {P : α → Prop}

/-- A walk from `a` that counts `k` in `n` steps and ends in `b`. -/
inductive Walk (step : α → α) (P : α → Prop) : α → Nat → Nat → α → Prop
  | here (a : α) : Walk step P a 0 0 a
  | pass {a b : α} {k n : Nat} (h : ¬ P (step a)) (hw : Walk step P (step a) (k + 1) n b) :
      Walk step P a (k + 1) (n + 1) b
  | count {a b : α} {k n : Nat} (h : P (step a)) (hw : Walk step P (step a) k n b) :
      Walk step P a (k + 1) (n + 1) b

/-- **Walks are functional.** -/
theorem Walk.unique {a b c : α} {k n m : Nat} (h : Walk step P a k n b) (h' : Walk step P a k m c) :
    n = m ∧ b = c := by
  induction h generalizing m c with
  | here a =>
      cases h'
      exact ⟨rfl, rfl⟩
  | pass hno hw ih =>
      cases h' with
      | pass _ hw' =>
          obtain ⟨rfl, rfl⟩ := ih hw'
          exact ⟨rfl, rfl⟩
      | count hyes _ => exact absurd hyes hno
  | count hyes hw ih =>
      cases h' with
      | pass hno _ => exact absurd hyes hno
      | count _ hw' =>
          obtain ⟨rfl, rfl⟩ := ih hw'
          exact ⟨rfl, rfl⟩

theorem Walk.append {a b c : α} {k n k' n' : Nat} (h : Walk step P a k n b)
    (h' : Walk step P b k' n' c) : Walk step P a (k + k') (n + n') c := by
  induction h with
  | here a => rwa [Nat.zero_add, Nat.zero_add]
  | pass hno hw ih =>
      rw [Nat.add_right_comm, Nat.add_right_comm _ 1]
      exact Walk.pass hno (Nat.add_right_comm _ 1 _ ▸ ih h')
  | count hyes hw ih =>
      rw [Nat.add_right_comm, Nat.add_right_comm _ 1]
      exact Walk.count hyes (ih h')

/-- Where a walk goes through `places`, the steps add up. -/
theorem Walk.through {place : Nat → α} {steps : Nat → Nat}
    (h : ∀ i, Walk step P (place i) 1 (steps (i + 1) - steps i) (place (i + 1)))
    (hmono : ∀ i, steps i ≤ steps (i + 1)) (i k : Nat) :
    Walk step P (place i) k (steps (i + k) - steps i) (place (i + k)) ∧ steps i ≤ steps (i + k) := by
  induction k with
  | zero =>
      rw [Nat.add_zero, Nat.sub_self]
      exact ⟨Walk.here _, Nat.le_refl _⟩
  | succ k ih =>
      have hlast := hmono (i + k)
      have happ := ih.1.append (h (i + k))
      rw [show steps (i + k) - steps i + (steps (i + k + 1) - steps (i + k)) =
        steps (i + k + 1) - steps i by omega] at happ
      exact ⟨happ, Nat.le_trans ih.2 hlast⟩

end Walks
