/-
What a rule that has been read can be.

A rule is read part by part, so what holds of the empty rule and is kept by every part
holds of what `snarf_rrule` returns.
-/
import Echse.Snarf

namespace Echse

/-- What `goto bogus` returns. -/
def bogusRule : Rrulsp := { freq := .none, count := 0, inter := 0, until_ := echsNulInstant }

section Induction

variable {P : Rrulsp → Prop}
  (hpart : ∀ k kv rr rr', P rr → snarfPart k kv rr = some rr' → P rr')

include hpart

theorem snarfParts_induct (fuel : Nat) :
    ∀ (sp : List Char) (rr rr' : Rrulsp), P rr → snarfParts fuel sp rr = some rr' → P rr' := by
  induction fuel with
  | zero => intro sp rr rr' h hr; cases hr; exact h
  | succ fuel ih =>
      intro sp rr rr' h hr
      unfold snarfParts at hr
      split at hr
      · cases hr; exact h
      · dsimp only at hr
        split at hr
        · exact ih _ _ _ h hr
        · split at hr
          · exact ih _ _ _ h hr
          · split at hr
            · exact ih _ _ _ h hr
            · split at hr
              · cases hr
              · rename_i hk
                exact ih _ _ _ (hpart _ _ _ _ h hk) hr

/-- **What every part keeps holds of every rule that is read.** -/
theorem snarfRrule_induct (hnil : P {}) (hbogus : P bogusRule) (s : List Char) :
    P (snarfRrule s) := by
  unfold snarfRrule
  split
  · rename_i rr h
    exact snarfParts_induct hpart _ _ _ _ hnil h
  · exact hbogus

end Induction

/-! ### Machine integers -/

/-- A value of the C type `int`. -/
def IsInt (z : Int) : Prop := -2147483648 ≤ z ∧ z < 2147483648

theorem isInt_intOfWord (n : Nat) : IsInt (intOfWord 32 n) := by
  unfold IsInt intOfWord
  split <;> omega

theorem isInt_zero : IsInt 0 := by constructor <;> decide

theorem isInt_snarfShiftItems (fuel : Nat) : ∀ (spec : List Char) (d b : Int) (sem : Nat),
    IsInt (snarfShiftItems fuel spec d b sem) := by
  induction fuel with
  | zero => intros; exact isInt_zero
  | succ fuel ih =>
      intro spec d b sem
      have hend : ∀ (d b : Int) (sem : Nat) (s : List Char),
          IsInt (if atEnd s then shiftCode d b sem else 0) := by
        intro d b sem s
        split
        · exact isInt_intOfWord _
        · exact isInt_zero
      unfold snarfShiftItems
      split
      dsimp only
      split
      · split
        · exact ih ..
        · exact hend ..
      · split
        · exact ih ..
        · exact hend ..
      · exact ih ..
      · exact hend ..

/-- The integer fields of a rule hold what their C types do. -/
structure Rrulsp.Typed (rr : Rrulsp) : Prop where
  inter : rr.inter < 4294967296
  shift : IsInt rr.shift
  count : IsInt rr.count

theorem snarfPart_typed {k : RrulKey} {kv : List Char} {rr rr' : Rrulsp} (h : rr.Typed)
    (hr : snarfPart k kv rr = some rr') : rr'.Typed := by
  cases k with
  | count =>
      simp only [snarfPart] at hr
      split at hr
      · cases hr
      · cases hr
        exact ⟨h.inter, h.shift, isInt_intOfWord _⟩
  | inter =>
      simp only [snarfPart] at hr
      split at hr
      · cases hr
      · cases hr
        refine ⟨?_, h.shift, h.count⟩
        change wordOfInt 32 _ < _
        unfold wordOfInt
        omega
  | shift =>
      simp only [snarfPart] at hr
      cases hr
      exact ⟨h.inter, isInt_snarfShiftItems .., h.count⟩
  | _ =>
      simp only [snarfPart] at hr
      cases hr
      exact ⟨h.inter, h.shift, h.count⟩

theorem snarfRrule_typed (s : List Char) : (snarfRrule s).Typed := by
  refine snarfRrule_induct (P := Rrulsp.Typed) (fun _ _ _ _ h hr => snarfPart_typed h hr) ?_ ?_ s
  · exact ⟨by decide, isInt_zero, by constructor <;> decide⟩
  · exact ⟨by decide, isInt_zero, isInt_zero⟩

end Echse
