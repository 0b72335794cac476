/-
Runs of a machine that takes actions.

`step s a` is the state after the action `a`, or `none` where the action cannot
occur.  A run is given by its actions.  What is asked of it is asked of every step
it takes: `Along G s as` says that each of them satisfies `G`, up to the first
action that cannot occur.

The rules here are the only inductions over runs a program's proofs need.  An
invariant is carried along a run whose steps meet a condition; and where every
step out of an invariant state satisfies `G` exactly when it meets the condition,
a run does so exactly when it does.
-/
import Mathlib.Data.List.Basic

namespace Runs

variable {S A : Type*} (step : S → A → Option S)

/-- The state after the actions, if they can all occur. -/
def run : S → List A → Option S
  | s, [] => some s
  | s, a :: as => (step s a).bind (fun t => run t as)

/-- Every step the actions take satisfies `G`. -/
def Along (G : S → A → S → Prop) : S → List A → Prop
  | _, [] => True
  | s, a :: as => ∀ t, step s a = some t → G s a t ∧ Along G t as

/-- Every step the actions take starts in a state that satisfies `C`. -/
def Before (C : S → A → Prop) : S → List A → Prop :=
  Along step (fun s a _ => C s a)

variable {step}

theorem run_cons {s t u : S} {a : A} {as : List A} (ht : step s a = some t)
    (hu : run step t as = some u) : run step s (a :: as) = some u := by
  simp [run, ht, hu]

theorem along_mono {G H : S → A → S → Prop} (h : ∀ s a t, G s a t → H s a t) :
    ∀ (as : List A) (s : S), Along step G s as → Along step H s as := by
  intro as
  induction as with
  | nil => intro s _; trivial
  | cons a as ih =>
      intro s hs t ht
      obtain ⟨hg, hr⟩ := hs t ht
      exact ⟨h s a t hg, ih t hr⟩

/-- The step after the first `as` actions is one of the steps. -/
theorem along_at {G : S → A → S → Prop} :
    ∀ (as bs : List A) (a : A) {s t u : S}, Along step G s (as ++ a :: bs) →
      run step s as = some t → step t a = some u → G t a u := by
  intro as
  induction as with
  | nil =>
      intro bs a s t u h hr hs
      obtain rfl : s = t := by simpa [run] using hr
      exact (h u hs).1
  | cons b as ih =>
      intro bs a s t u h hr hs
      obtain ⟨w, hw, hr'⟩ : ∃ w, step s b = some w ∧ run step w as = some t := by
        simpa [run, Option.bind_eq_some_iff] using hr
      exact ih bs a (h w hw).2 hr' hs

theorem before_of_forall {C : S → A → Prop} (h : ∀ s a, C s a) :
    ∀ (as : List A) (s : S), Before step C s as := by
  intro as
  induction as with
  | nil => intro s; trivial
  | cons a as ih => exact fun s t _ => ⟨h s a, ih t⟩

/-- The condition can be checked along the run. -/
instance decidableBefore {C : S → A → Prop} [∀ s a, Decidable (C s a)] :
    ∀ (as : List A) (s : S), Decidable (Before step C s as)
  | [], _ => .isTrue trivial
  | a :: as, s =>
      match h : step s a with
      | none => .isTrue fun t ht => by rw [h] at ht; cases ht
      | some t =>
          have : Decidable (Before step C t as) := decidableBefore as t
          decidable_of_iff (C s a ∧ Before step C t as)
            ⟨fun hc u hu => by rw [h] at hu; cases hu; exact hc, fun hb => hb t h⟩

/-! ### Invariants -/

/-- A step that meets the condition keeps the invariant and satisfies `G`, so a
run whose steps meet the condition satisfies `G` throughout. -/
theorem along_of_inv (Inv : S → Prop) {C : S → A → Prop} {G : S → A → S → Prop}
    (hstep : ∀ s a t, Inv s → C s a → step s a = some t → Inv t ∧ G s a t) :
    ∀ (as : List A) (s : S), Inv s → Before step C s as → Along step G s as := by
  intro as
  induction as with
  | nil => intro s _ _; trivial
  | cons a as ih =>
      intro s hi hc t ht
      obtain ⟨hca, hcr⟩ := hc t ht
      obtain ⟨hit, hg⟩ := hstep s a t hi hca ht
      exact ⟨hg, ih t hit hcr⟩

/-- The invariant holds at the end of a run whose steps meet the condition. -/
theorem inv_run {Inv : S → Prop} {C : S → A → Prop}
    (hstep : ∀ s a t, Inv s → C s a → step s a = some t → Inv t) :
    ∀ (as : List A) (s : S) {t : S}, Inv s → Before step C s as →
      run step s as = some t → Inv t := by
  intro as
  induction as with
  | nil =>
      intro s t hi _ hr
      obtain rfl : s = t := by simpa [run] using hr
      exact hi
  | cons a as ih =>
      intro s t hi hc hr
      obtain ⟨w, hw, hr'⟩ : ∃ w, step s a = some w ∧ run step w as = some t := by
        simpa [run, Option.bind_eq_some_iff] using hr
      obtain ⟨hca, hcr⟩ := hc w hw
      exact ih w (hstep s a w hi hca hw) hcr hr'

/-- What every step keeps holds at the end of a run. -/
theorem run_inv {Inv : S → Prop} (hstep : ∀ s a t, Inv s → step s a = some t → Inv t) :
    ∀ (as : List A) {s t : S}, Inv s → run step s as = some t → Inv t := by
  intro as
  induction as with
  | nil =>
      intro s t hi hr
      obtain rfl : s = t := by simpa [run] using hr
      exact hi
  | cons a as ih =>
      intro s t hi hr
      obtain ⟨w, hw, hr'⟩ : ∃ w, step s a = some w ∧ run step w as = some t := by
        simpa [run, Option.bind_eq_some_iff] using hr
      exact ih (hstep s a w hi hw) hr'

/-- An invariant of the actions so far and the state holds at the end of a run whose steps
meet the condition. -/
theorem history_run {I : List A → S → Prop} {C : S → A → Prop}
    (hstep : ∀ h s a t, I h s → C s a → step s a = some t → I (h ++ [a]) t) :
    ∀ (as h : List A) (s : S) {t : S}, I h s → Before step C s as →
      run step s as = some t → I (h ++ as) t := by
  intro as
  induction as with
  | nil =>
      intro h s t hi _ hr
      obtain rfl : s = t := by simpa [run] using hr
      simpa using hi
  | cons a as ih =>
      intro h s t hi hc hr
      obtain ⟨w, hw, hr'⟩ : ∃ w, step s a = some w ∧ run step w as = some t := by
        simpa [run, Option.bind_eq_some_iff] using hr
      obtain ⟨hca, hcr⟩ := hc w hw
      simpa using ih (h ++ [a]) w (hstep h s a w hi hca hw) hcr hr'

/-- The first step that fails the condition is the first that fails `G`. -/
theorem along_iff (Inv : S → Prop) {C : S → A → Prop} {G : S → A → S → Prop}
    (hinv : ∀ s a t, Inv s → C s a → step s a = some t → Inv t)
    (hgood : ∀ s a t, Inv s → step s a = some t → (G s a t ↔ C s a)) :
    ∀ (as : List A) (s : S), Inv s → (Along step G s as ↔ Before step C s as) := by
  intro as
  induction as with
  | nil => intro s _; exact Iff.rfl
  | cons a as ih =>
      intro s hi
      refine forall_congr' fun t => imp_congr_right fun ht => ?_
      constructor
      · rintro ⟨hg, hr⟩
        have hc : C s a := (hgood s a t hi ht).mp hg
        exact ⟨hc, (ih t (hinv s a t hi hc ht)).mp hr⟩
      · rintro ⟨hc, hr⟩
        exact ⟨(hgood s a t hi ht).mpr hc, (ih t (hinv s a t hi hc ht)).mpr hr⟩

end Runs
