/-
Carrying days, turn by turn.

The scales have months of 28 to 31 days, or of none where a month table ends.  So days that
are carried come to rest after two turns at most, unless they come to a month of no days.
-/
import Echse.Proofs.Cands

namespace Echse

/-! ### Carrying -/

section Carry

variable {ndim : Nat → Nat → Nat} {newYear : Pos → Pos}

/-- The month after a month, as the loops count. -/
def monthAfter (y m : Nat) : Nat × Nat := if 12 < m + 1 then (u32 (y + 1), 1) else (y, m + 1)

/-- One turn of carrying days. -/
def Pos.turn (ndim : Nat → Nat → Nat) (newYear : Pos → Pos) (p : Pos) : Pos :=
  let d := (p.d - 1) % p.maxd + 1
  let q := if 12 < p.m + 1 then newYear { p with y := u32 (p.y + 1), m := 1, d := d }
    else { p with m := p.m + 1, d := d }
  { q with maxd := ndim q.y q.m }

theorem carryDays_of_le (fuel : Nat) {p : Pos} (h : p.d ≤ p.maxd) :
    carryDays ndim newYear fuel p = some p := by
  cases fuel with
  | zero => rfl
  | succ fuel => rw [carryDays, if_pos h]

theorem carryDays_turn (ndim : Nat → Nat → Nat) (newYear : Pos → Pos) (fuel : Nat) {p : Pos}
    (h : p.maxd < p.d) (h0 : p.maxd ≠ 0) :
    carryDays ndim newYear (fuel + 1) p = carryDays ndim newYear fuel (p.turn ndim newYear) := by
  rw [carryDays, if_neg (Nat.not_le.mpr h), if_neg h0]
  rfl

/-- What a year brings besides does not touch the date. -/
def KeepsDate (newYear : Pos → Pos) : Prop :=
  ∀ p, newYear p = { p with yd := (newYear p).yd, maxy := (newYear p).maxy }

theorem keepsDate_id : KeepsDate id := fun _ => rfl

theorem keepsDate_hly : KeepsDate hlyNewYear := fun _ => rfl

theorem turn_spec (ndim : Nat → Nat → Nat) (hnew : KeepsDate newYear) (p : Pos) :
    ((p.turn ndim newYear).y, (p.turn ndim newYear).m) = monthAfter p.y p.m ∧
      (p.turn ndim newYear).d = (p.d - 1) % p.maxd + 1 ∧
      (p.turn ndim newYear).maxd = ndim (monthAfter p.y p.m).1 (monthAfter p.y p.m).2 := by
  unfold Pos.turn monthAfter
  by_cases h12 : 12 < p.m + 1
  · simp only [h12, if_true]
    rw [hnew]
    simp
  · simp [h12]

/-- The month lengths of the scales. -/
def RegularLen (ndim : Nat → Nat → Nat) : Prop :=
  ∀ y m, 1 ≤ m → m ≤ 12 → ndim y m = 0 ∨ (28 ≤ ndim y m ∧ ndim y m ≤ 31)

theorem regularLen_scale (s : Scale) : RegularLen (echsScaleNdim s) :=
  fun y _ h1 h12 => echsScaleNdim_range s y h1 h12

/-- A day `d` counted from the start of a month, of `maxd` days, comes to months that have
a length.  After two turns no more than three days are left. -/
def Carries (ndim : Nat → Nat → Nat) (y m maxd d : Nat) : Prop :=
  d ≤ maxd ∨ (maxd ≠ 0 ∧
    let next := monthAfter y m
    let last := monthAfter next.1 next.2
    ndim next.1 next.2 ≠ 0 ∧
      ((d - 1) % maxd + 1 ≤ ndim next.1 next.2 ∨ ndim last.1 last.2 ≠ 0))

theorem monthAfter_range {y m : Nat} (h1 : 1 ≤ m) (h12 : m ≤ 12) :
    1 ≤ (monthAfter y m).2 ∧ (monthAfter y m).2 ≤ 12 := by
  unfold monthAfter
  split <;> (dsimp only; omega)

/-- **Days can be carried exactly if they do not come to a month without length.** -/
theorem carry_ne_none_iff (hlen : RegularLen ndim) (hnew : KeepsDate newYear) {p : Pos}
    (hm : 1 ≤ p.m ∧ p.m ≤ 12) (hmaxd : p.maxd = ndim p.y p.m) :
    carry ndim newYear p ≠ none ↔ Carries ndim p.y p.m p.maxd p.d := by
  unfold carry Carries
  by_cases hle : p.d ≤ p.maxd
  · simp [carryDays_of_le _ hle, hle]
  have hlt := Nat.not_le.mp hle
  by_cases h0 : p.maxd = 0
  · obtain ⟨n, hn⟩ : ∃ n, p.d = n + 1 := ⟨p.d - 1, by omega⟩
    rw [hn, carryDays, if_neg (by omega), if_pos h0]
    simp [h0]
  -- the first turn
  obtain ⟨hmonth, hday, hlen'⟩ := turn_spec ndim hnew p
  have hm' := monthAfter_range (y := p.y) hm.1 hm.2
  have hrange : 28 ≤ p.maxd ∧ p.maxd ≤ 31 := by
    rcases hlen p.y p.m hm.1 hm.2 with h | h <;> omega
  obtain ⟨n, hn⟩ : ∃ n, p.d = n + 2 := ⟨p.d - 2, by omega⟩
  have hturn := carryDays_turn ndim newYear (n + 1) hlt h0
  have hmod := Nat.mod_lt (p.d - 1) (Nat.pos_of_ne_zero h0)
  conv => lhs; rw [show p.d = n + 1 + 1 by omega, hturn]
  simp only [hle, false_or, ne_eq, h0, not_false_eq_true, true_and]
  rw [← hday, ← hlen']
  set q := p.turn ndim newYear
  rw [← hmonth] at hm' ⊢
  dsimp only at hm' ⊢
  by_cases hq0 : q.maxd = 0
  · rw [carryDays, if_neg (by omega), if_pos hq0]
    simp [hq0]
  by_cases hqle : q.d ≤ q.maxd
  · simp [carryDays_of_le _ hqle, hqle, hq0]
  -- the second turn
  obtain ⟨hmonth', hday', hlen''⟩ := turn_spec ndim hnew q
  have hqrange : 28 ≤ q.maxd ∧ q.maxd ≤ 31 := by
    rcases hlen _ _ hm'.1 hm'.2 with h | h
    · exact absurd (hlen'.trans (by rw [← hmonth]; exact h)) hq0
    · rw [hlen', ← hmonth]
      exact h
  rw [carryDays_turn ndim newYear _ (Nat.not_le.mp hqle) hq0, ← hlen'']
  simp only [hqle, false_or, hq0, not_false_eq_true, true_and]
  have hrmod : (q.d - 1) % q.maxd = q.d - 1 - q.maxd := by
    rw [Nat.mod_eq_sub_mod (by omega), Nat.mod_eq_of_lt (by omega)]
  have hm'' := monthAfter_range (y := q.y) hm'.1 hm'.2
  by_cases hr0 : (q.turn ndim newYear).maxd = 0
  · rw [hr0]
    obtain ⟨k, hk⟩ : ∃ k, n = k + 1 := ⟨n - 1, by omega⟩
    rw [hk, carryDays, if_neg (by omega), if_pos hr0]
    simp
  · have hrle : (q.turn ndim newYear).d ≤ (q.turn ndim newYear).maxd := by
      rcases hlen _ _ hm''.1 hm''.2 with h | h
      · exact absurd (hlen''.trans h) hr0
      · rw [hlen'', hday', hrmod]
        omega
    simp [carryDays_of_le _ hrle, hr0]

/-- A position in a month.  A step that wraps can lead to day 0. -/
structure Pos.InMonth (ndim : Nat → Nat → Nat) (p : Pos) : Prop where
  month : 1 ≤ p.m ∧ p.m ≤ 12
  maxd : p.maxd = ndim p.y p.m
  day : p.d ≤ 31

/-- Where days are carried to. -/
theorem carryDays_inMonth (hlen : RegularLen ndim) (hnew : KeepsDate newYear) (fuel : Nat) :
    ∀ {p q : Pos}, 1 ≤ p.m ∧ p.m ≤ 12 → p.maxd = ndim p.y p.m → p.d ≤ fuel →
      carryDays ndim newYear fuel p = some q → q.InMonth ndim ∧ q.d ≤ q.maxd := by
  have hrest : ∀ p : Pos, 1 ≤ p.m ∧ p.m ≤ 12 → p.maxd = ndim p.y p.m → p.d ≤ p.maxd →
      p.InMonth ndim := by
    intro p hm hmaxd hle
    have hrange := hlen p.y p.m hm.1 hm.2
    exact ⟨hm, hmaxd, by omega⟩
  induction fuel with
  | zero =>
      intro p q hm hmaxd hf h
      cases h
      exact ⟨hrest p hm hmaxd (by omega), by omega⟩
  | succ fuel ih =>
      intro p q hm hmaxd hf h
      by_cases hle : p.d ≤ p.maxd
      · rw [carryDays_of_le _ hle, Option.some.injEq] at h
        subst h
        exact ⟨hrest p hm hmaxd hle, hle⟩
      · by_cases h0 : p.maxd = 0
        · rw [carryDays, if_neg hle, if_pos h0] at h
          cases h
        · rw [carryDays_turn ndim newYear _ (Nat.not_le.mp hle) h0] at h
          obtain ⟨hmonth, hday, hmaxd'⟩ := turn_spec ndim hnew p
          have hm' := monthAfter_range (y := p.y) hm.1 hm.2
          have hmod := Nat.mod_lt (p.d - 1) (Nat.pos_of_ne_zero h0)
          rw [← hmonth] at hmaxd' hm'
          exact ih hm' hmaxd' (by omega) h

theorem carry_inMonth (hlen : RegularLen ndim) (hnew : KeepsDate newYear) {p q : Pos}
    (hm : 1 ≤ p.m ∧ p.m ≤ 12) (hmaxd : p.maxd = ndim p.y p.m)
    (h : carry ndim newYear p = some q) : q.InMonth ndim ∧ q.d ≤ q.maxd :=
  carryDays_inMonth hlen hnew p.d hm hmaxd le_rfl h

/-- Up to 28 days are left after a turn, and so there is but one. -/
theorem carry_near (hlen : RegularLen ndim) (hnew : KeepsDate newYear) {p : Pos}
    (hm : 1 ≤ p.m ∧ p.m ≤ 12) (hmaxd : p.maxd = ndim p.y p.m) (h56 : p.d ≤ 56) :
    carry ndim newYear p = if p.d ≤ p.maxd then some p
      else if p.maxd = 0 ∨ (p.turn ndim newYear).maxd = 0 then none
      else some (p.turn ndim newYear) := by
  unfold carry
  by_cases hle : p.d ≤ p.maxd
  · rw [carryDays_of_le _ hle, if_pos hle]
  have hlt := Nat.not_le.mp hle
  rw [if_neg hle]
  by_cases h0 : p.maxd = 0
  · obtain ⟨n, hn⟩ : ∃ n, p.d = n + 1 := ⟨p.d - 1, by omega⟩
    rw [if_pos (Or.inl h0), hn, carryDays, if_neg (by omega), if_pos h0]
  have hrange : 28 ≤ p.maxd ∧ p.maxd ≤ 31 := by
    rcases hlen p.y p.m hm.1 hm.2 with h | h <;> omega
  obtain ⟨n, hn⟩ : ∃ n, p.d = n + 1 + 1 := ⟨p.d - 2, by omega⟩
  obtain ⟨hmonth, hday, hlen'⟩ := turn_spec ndim hnew p
  have hm' := monthAfter_range (y := p.y) hm.1 hm.2
  have hmod : (p.d - 1) % p.maxd = p.d - 1 - p.maxd := by
    rw [Nat.mod_eq_sub_mod (by omega), Nat.mod_eq_of_lt (by omega)]
  have hturn := carryDays_turn ndim newYear (n + 1) hlt h0
  conv => lhs; rw [hn, hturn]
  by_cases hq0 : (p.turn ndim newYear).maxd = 0
  · rw [if_pos (Or.inr hq0), carryDays, if_neg (by omega), if_pos hq0]
  · rw [if_neg (by simp [h0, hq0])]
    refine carryDays_of_le _ ?_
    rcases hlen _ _ hm'.1 hm'.2 with h | h
    · exact absurd (hlen'.trans h) hq0
    · omega

/-- The turn of a day that is not past twice its month's length. -/
theorem turn_near {p : Pos} (hlt : p.maxd < p.d) (hnear : p.d ≤ 2 * p.maxd) :
    p.turn ndim id =
      { p with
        y := (monthAfter p.y p.m).1
        m := (monthAfter p.y p.m).2
        d := p.d - p.maxd
        maxd := ndim (monthAfter p.y p.m).1 (monthAfter p.y p.m).2 } := by
  have hmod : (p.d - 1) % p.maxd + 1 = p.d - p.maxd := by
    rw [Nat.mod_eq_sub_mod (by omega), Nat.mod_eq_of_lt (by omega)]
    omega
  unfold Pos.turn monthAfter
  dsimp only
  rw [hmod]
  split <;> rfl

/-- Days added in two goes are as good as added at once. -/
theorem carry_add (hlen : RegularLen ndim) {p q : Pos} (hp : p.InMonth ndim) {a b : Nat}
    (hab : a + b ≤ 25) (h : carry ndim id { p with d := p.d + a } = some q) :
    carry ndim id { q with d := q.d + b } = carry ndim id { p with d := p.d + (a + b) } := by
  have hd := hp.day
  have hrange := hlen p.y p.m hp.month.1 hp.month.2
  rw [← hp.maxd] at hrange
  rw [carry_near (p := { p with d := p.d + a }) hlen keepsDate_id hp.month hp.maxd
    (by dsimp only; omega)] at h
  dsimp only at h
  by_cases hle : p.d + a ≤ p.maxd
  · rw [if_pos hle] at h
    cases h
    dsimp only
    rw [Nat.add_assoc]
  · rw [if_neg hle] at h
    split at h
    · cases h
    · rename_i hno
      simp only [not_or] at hno
      rw [turn_near (by dsimp only; omega) (by dsimp only; omega)] at h hno
      cases h
      have hm' := monthAfter_range (y := p.y) hp.month.1 hp.month.2
      have hlong := (hlen (monthAfter p.y p.m).1 _ hm'.1 hm'.2).resolve_left hno.2
      rw [carry_near (p := { p with d := p.d + (a + b) }) hlen keepsDate_id hp.month hp.maxd
        (by dsimp only; omega), if_neg (show ¬ p.d + (a + b) ≤ p.maxd by omega),
        turn_near (by dsimp only; omega) (by dsimp only; omega),
        if_neg (fun hor => hor.elim hno.1 hno.2)]
      unfold carry
      rw [carryDays_of_le _ (by dsimp only; omega)]
      dsimp only
      rw [show p.d + a - p.maxd + b = p.d + (a + b) - p.maxd by omega]

end Carry

end Echse
