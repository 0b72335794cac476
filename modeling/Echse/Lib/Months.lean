/-
Calendars as rows of months.

A calendar is given by the lengths of its months, counted through from some first
month.  A day is known by its month and its day of the month, or by its number, and
adding days is adding to the number.
-/
import Mathlib.Tactic

namespace Months

variable (len : Nat → Nat)

/-- The days before month `k`. -/
def before : Nat → Nat
  | 0 => 0
  | k + 1 => before k + len k

/-- The number of a day. -/
def dayNo (k d : Nat) : Nat := before len k + d

/-- Month `k` has a day `d`. -/
def Valid (k d : Nat) : Prop := 1 ≤ d ∧ d ≤ len k

variable {len}

@[simp] theorem before_zero : before len 0 = 0 := rfl

theorem before_succ (k : Nat) : before len (k + 1) = before len k + len k := rfl

theorem before_le (len : Nat → Nat) {j k : Nat} (h : j ≤ k) : before len j ≤ before len k := by
  induction k, h using Nat.le_induction with
  | base => exact le_rfl
  | succ k _ ih => rw [before_succ]; omega

/-- The days of a month come before those of any later one. -/
theorem dayNo_lt_of_lt {j k d e : Nat} (h : j < k) (hd : d ≤ len j) (he : 1 ≤ e) :
    dayNo len j d < dayNo len k e := by
  have hle := before_le len (Nat.succ_le_of_lt h)
  have hs : before len j.succ = before len j + len j := rfl
  unfold dayNo
  omega

/-- Days are in the order of their numbers. -/
theorem dayNo_lt_iff {j k d e : Nat} (hd : Valid len j d) (he : Valid len k e) :
    dayNo len j d < dayNo len k e ↔ j < k ∨ (j = k ∧ d < e) := by
  rcases Nat.lt_trichotomy j k with h | rfl | h
  · simp [h, dayNo_lt_of_lt h hd.2 he.1]
  · simp [dayNo]
  · have := dayNo_lt_of_lt h he.2 hd.1
    constructor
    · omega
    · rintro (h' | ⟨rfl, -⟩) <;> omega

/-- A day has one date. -/
theorem dayNo_inj {j k d e : Nat} (hd : Valid len j d) (he : Valid len k e)
    (h : dayNo len j d = dayNo len k e) : j = k ∧ d = e := by
  have h1 := (dayNo_lt_iff hd he).not.mp (by omega)
  have h2 := (dayNo_lt_iff he hd).not.mp (by omega)
  omega

/-- Before a month's end there is no day of a later month. -/
theorem month_le_of_dayNo_le {j k d : Nat} (hd : 1 ≤ d)
    (h : dayNo len j d ≤ before len k + len k) : j ≤ k := by
  by_contra hlt
  have hle := before_le len (show k + 1 ≤ j by omega)
  rw [before_succ] at hle
  unfold dayNo at h
  omega

/-! ### Going on by days -/

/-- The day after a date, which is a month and a day of it. -/
def dayAfter (len : Nat → Nat) (t : Nat × Nat) : Nat × Nat :=
  if t.2 < len t.1 then (t.1, t.2 + 1) else (t.1 + 1, 1)

/-- The date some days after a date. -/
def later (len : Nat → Nat) (t : Nat × Nat) : Nat → Nat × Nat
  | 0 => t
  | n + 1 => dayAfter len (later len t n)

/-- Days are gone through one by one as long as there are months for them. -/
theorem later_spec {t : Nat × Nat} (ht : Valid len t.1 t.2) (n : Nat)
    (hpos : ∀ j ≥ t.1, before len j < dayNo len t.1 t.2 + n → 0 < len j) :
    Valid len (later len t n).1 (later len t n).2 ∧ t.1 ≤ (later len t n).1 ∧
      dayNo len (later len t n).1 (later len t n).2 = dayNo len t.1 t.2 + n := by
  induction n with
  | zero => exact ⟨ht, le_rfl, rfl⟩
  | succ n ih =>
      obtain ⟨hval, hle, hno⟩ := ih fun j hj hlt => hpos j hj (by omega)
      unfold later dayAfter
      set u := later len t n
      obtain ⟨h1, hd⟩ := hval
      split
      · rename_i hlt
        refine ⟨⟨by dsimp only; omega, hlt⟩, hle, ?_⟩
        unfold dayNo at hno ⊢
        dsimp only
        omega
      · have hend : before len (u.1 + 1) = dayNo len t.1 t.2 + n := by
          rw [before_succ, ← hno]
          unfold dayNo
          omega
        refine ⟨⟨le_rfl, hpos (u.1 + 1) (by omega) (by omega)⟩, by dsimp only; omega, ?_⟩
        unfold dayNo at hend ⊢
        dsimp only
        omega

/-- **The date with a day's number is the one that many days on.** -/
theorem later_eq {t : Nat × Nat} (ht : Valid len t.1 t.2) {j d n : Nat} (hd : Valid len j d)
    (hno : dayNo len j d = dayNo len t.1 t.2 + n)
    (hpos : ∀ j ≥ t.1, before len j < dayNo len t.1 t.2 + n → 0 < len j) :
    later len t n = (j, d) := by
  obtain ⟨hval, -, hno'⟩ := later_spec ht n hpos
  obtain ⟨h1, h2⟩ := dayNo_inj hval hd (hno'.trans hno.symm)
  exact Prod.ext h1 h2

end Months
