/-
The months a monthly rule with BYMONTH comes to.

`rrul_fill_mly` steps by INTERVAL until it lands on a listed month.  Before it starts it looks
for a listed month to land on, and gives up without one.  That check asks INTERVAL to divide a
difference, where the greatest common divisor with 12 is what matters, and for a single month it
takes the one before.
-/
import Echse.Proofs.Halt
import Echse.Proofs.Ranges

namespace Echse

open FillLoop (Loop)

/-- The month `n` steps of INTERVAL after that of a position. -/
def stepMonths (inter n : Nat) (p : Pos) : Pos :=
  { p with y := u32 (p.y + (p.m - 1 + n * inter) / 12), m := (p.m - 1 + n * inter) % 12 + 1 }

/-- BYMONTH lists the month `n` steps away. -/
def ListedAfter (rr : Rrulsp) (p : Pos) (n : Nat) : Prop :=
  bui31HasBit rr.mon (stepMonths rr.inter n p).m = true

instance (rr : Rrulsp) (p : Pos) (n : Nat) : Decidable (ListedAfter rr p n) :=
  inferInstanceAs (Decidable (_ = _))

/-- From `p` on a loop steps month by month to the first listed one that is at least `n0` steps
away. -/
def LandsFirst (L : Loop Pos Instant Slot) (rr : Rrulsp) (p : Pos) (n0 : Nat) : Prop :=
  ∃ n ≥ n0, (∀ i ≤ n, L.orbit p i = some (stepMonths rr.inter i p)) ∧ ListedAfter rr p n ∧
    ∀ i, n0 ≤ i → i < n → ¬ ListedAfter rr p i

/-- **What the search for listed months should do**: land on the first one at or after the start,
and then on the next one each time, and give up if no listed month is ever reached. -/
structure StepsRight (tgt : Instant) (nti : Nat) (rr : Rrulsp) : Prop where
  start : ∀ p0, (rrulFillMly tgt nti rr).start = .ok p0 →
    LandsFirst (rrulFillMly tgt nti rr).loop rr p0 0
  steps : ∀ p0, (rrulFillMly tgt nti rr).start = .ok p0 → ∀ i p,
    (rrulFillMly tgt nti rr).loop.orbit p0 i = some p → bui31HasBit rr.mon p.m = true →
      LandsFirst (rrulFillMly tgt nti rr).loop rr p 1
  givesUp : (rrulFillMly tgt nti rr).start = .error .done ↔
    ∀ n, ¬ ListedAfter rr (mlyStart (protoOf tgt rr) rr.shift) n

/-- A listed month is some steps away from month `m`. -/
def Reaches (rr : Rrulsp) (m : Nat) : Prop :=
  ∃ b, bui31HasBit rr.mon b = true ∧ ((Nat.gcd rr.inter 12 : Nat) : Int) ∣ (b : Int) - m

/-- What is checked in place of it.  A single month is held next to its iterator, so there the
month before is taken. -/
def Checks (rr : Rrulsp) (m : Nat) : Prop :=
  ∃ b, bui31HasBit rr.mon b = true ∧ rr.inter ∣ m + 12 + rr.mon % 2 - b

/-- No month on the way overflows when INTERVAL is added. -/
def StepsFit (rr : Rrulsp) (m : Nat) : Prop :=
  ∀ n, (m - 1 + n * rr.inter) % 12 + 1 + rr.inter < 2147483648

/-- A set of months. -/
abbrev MonthSet (mon : Nat) : Prop := UintSet 32 (fun x => 1 ≤ x ∧ x ≤ 12) mon

section Check

variable {mon m inter : Nat}

theorem monCongruent_bits (hset : MonthSet mon) (heven : mon % 2 = 0) (fuel : Nat) :
    ∀ bm, 32 ≤ fuel + bm → (monCongruent mon m inter fuel bm = true ↔
      ∃ b ≥ bm, bui31HasBit mon b = true ∧ inter ∣ m + 12 - b) := by
  have hbit : ∀ b, bui31HasBit mon b = (mon >>> 1).testBit b := by
    intro b
    unfold bui31HasBit buiHasBit
    rw [if_neg (by omega), Nat.testBit_shiftRight, Nat.add_comm]
  have hno : ∀ b, 32 ≤ b → bui31HasBit mon b = false := by
    intro b hb
    refine Bool.eq_false_iff.mpr fun h => ?_
    have := (hset.mem b h).2
    omega
  induction fuel with
  | zero =>
      intro bm hbm
      unfold monCongruent
      simp only [Bool.false_eq_true, false_iff]
      rintro ⟨b, hb, hmem, -⟩
      rw [hno b (by omega)] at hmem
      cases hmem
  | succ fuel ih =>
      intro bm hbm
      unfold monCongruent
      dsimp only
      rcases buiNext_bits hset.lt heven bm with ⟨j, k, hj, hjk, hj32, hbitj, honly, hnext, -⟩ | ⟨hnone, hnext⟩
      · have hk : k = j + 1 := by
          unfold buiNext at hnext
          rw [if_neg (by omega)] at hnext
          split at hnext
          · cases hnext
            rfl
          · cases hnext
            omega
        have hmemj : bui31HasBit mon j = true := by rw [hbit, hbitj]
        have hj1 := (hset.mem j hmemj).1
        rw [show bui31Next mon bm = (j, k) from hnext, if_neg (by dsimp only; omega)]
        dsimp only
        rw [hk, Nat.add_sub_cancel]
        split
        · rename_i hdiv
          exact iff_of_true rfl ⟨j, hj, hmemj, Nat.dvd_of_mod_eq_zero hdiv⟩
        · rename_i hdiv
          rw [ih (j + 1) (by omega)]
          constructor
          · rintro ⟨b, hb, h⟩
            exact ⟨b, by omega, h⟩
          · rintro ⟨b, hb, hmem, hd⟩
            refine ⟨b, ?_, hmem, hd⟩
            by_contra hlt
            have := honly b hb (by omega) (by rw [← hbit, hmem])
            rw [this] at hd
            exact hdiv (Nat.mod_eq_zero_of_dvd hd)
      · have hnext' : bui31Next mon bm = (0, 0) := by
          unfold bui31Next buiNext at *
          rw [if_neg (by omega)] at hnext ⊢
          split at hnext
          · cases hnext
          · rename_i h
            rw [if_neg h]
        rw [hnext']
        simp only [if_true, bne_self_eq_false, Bool.false_eq_true, false_iff]
        rintro ⟨b, hb, hmem, -⟩
        have hb32 : b < 32 := by
          have := (hset.mem b hmem).2
          omega
        exact hnone b hb hb32 (by rw [← hbit, hmem])

/-- **The check before the search.** -/
theorem monCongruent_iff {rr : Rrulsp} (hset : MonthSet rr.mon) (m : Nat) :
    monCongruent rr.mon m rr.inter 33 0 = true ↔ Checks rr m := by
  unfold Checks
  rcases Nat.mod_two_eq_zero_or_one rr.mon with heven | hodd
  · rw [monCongruent_bits hset heven 33 0 (by omega), heven]
    simp
  · -- a single month
    have hone : ∀ b, bui31HasBit rr.mon b = true ↔ b = rr.mon >>> 1 := by
      intro b
      unfold bui31HasBit buiHasBit
      rw [if_pos hodd, beq_iff_eq]
      exact eq_comm
    have hrange := hset.single hodd
    have hnext : bui31Next rr.mon 0 = (rr.mon >>> 1, rr.mon >>> 1) := by
      unfold bui31Next buiNext
      rw [if_pos hodd, if_neg (by decide)]
    have hend : monCongruent rr.mon m rr.inter 32 (rr.mon >>> 1) = false := by
      have hterm : bui31Next rr.mon (rr.mon >>> 1) = (0, 0) := by
        unfold bui31Next buiNext
        rw [if_pos hodd, if_pos (by omega)]
      unfold monCongruent
      rw [hterm]
      rfl
    unfold monCongruent
    dsimp only
    rw [hnext]
    dsimp only
    rw [if_neg (by omega), hend]
    simp only [hone, exists_eq_left, hodd]
    rw [show m + 12 + 1 - rr.mon >>> 1 = m + 12 - (rr.mon >>> 1 - 1) by omega]
    rw [Nat.dvd_iff_mod_eq_zero]
    split <;> simp_all

end Check

/-! ### Reaching a month -/

theorem exists_steps (a : Nat) : ∀ c < 12, Nat.gcd a 12 ∣ c → ∃ n < 12, n * a % 12 = c := by
  have h : ∀ a < 12, ∀ c < 12, Nat.gcd a 12 ∣ c → ∃ n < 12, n * a % 12 = c := by decide
  intro c hc hd
  have hgcd : Nat.gcd (a % 12) 12 = Nat.gcd a 12 := (Nat.mod_modEq a 12).gcd_eq
  obtain ⟨n, hn, heq⟩ := h (a % 12) (Nat.mod_lt _ (by decide)) c hc (hgcd ▸ hd)
  exact ⟨n, hn, by rw [← heq, Nat.mul_mod_mod]⟩

variable {rr : Rrulsp}

/-- **Which months are reached**: those that INTERVAL leads to up to a multiple of 12. -/
theorem reaches_iff (hset : MonthSet rr.mon) {p : Pos} (hp : 1 ≤ p.m ∧ p.m ≤ 12) :
    Reaches rr p.m ↔ ∃ n, ListedAfter rr p n := by
  constructor
  · rintro ⟨b, hb, hd⟩
    have hb12 := hset.mem b hb
    have hd' : Nat.gcd rr.inter 12 ∣ (b + 12 - p.m) % 12 := by
      have h12 := Nat.gcd_dvd_right rr.inter 12
      have : Nat.gcd rr.inter 12 ∣ b + 12 - p.m := by
        zify [show p.m ≤ b + 12 by omega]
        rw [show (b : Int) + 12 - p.m = (b - p.m) + 12 by ring]
        exact dvd_add hd (by exact_mod_cast h12)
      exact (Nat.dvd_mod_iff h12).mpr this
    obtain ⟨n, -, hn⟩ := exists_steps rr.inter _ (Nat.mod_lt _ (by decide)) hd'
    refine ⟨n, ?_⟩
    unfold ListedAfter stepMonths
    dsimp only
    rwa [show (p.m - 1 + n * rr.inter) % 12 + 1 = b by omega]
  · rintro ⟨n, hn⟩
    refine ⟨_, hn, ?_⟩
    unfold stepMonths
    dsimp only
    have hg : ((Nat.gcd rr.inter 12 : Nat) : Int) ∣ rr.inter := by
      exact_mod_cast Nat.gcd_dvd_left rr.inter 12
    have h12 : ((Nat.gcd rr.inter 12 : Nat) : Int) ∣ 12 := by
      exact_mod_cast Nat.gcd_dvd_right rr.inter 12
    have hval : (((p.m - 1 + n * rr.inter) % 12 + 1 : Nat) : Int) - p.m =
        n * rr.inter - 12 * ((p.m - 1 + n * rr.inter) / 12 : Nat) := by
      have := Nat.div_add_mod (p.m - 1 + n * rr.inter) 12
      zify [hp.1] at this ⊢
      linarith
    rw [hval]
    exact dvd_sub (dvd_mul_of_dvd_right hg _) (dvd_mul_of_dvd_left h12 _)

/-- Twelve steps lead to the same month. -/
theorem listedAfter_add (p : Pos) (n k : Nat) : ListedAfter rr p (n + 12 * k) ↔ ListedAfter rr p n := by
  unfold ListedAfter stepMonths
  dsimp only
  rw [show p.m - 1 + (n + 12 * k) * rr.inter = p.m - 1 + n * rr.inter + 12 * (k * rr.inter) by ring,
    Nat.add_mul_mod_self_left]

/-! ### Steps -/

theorem stepMonths_zero {p : Pos} (hp : 1 ≤ p.m ∧ p.m ≤ 12) (hy : p.y < 4294967296) (inter : Nat) :
    stepMonths inter 0 p = p := by
  unfold stepMonths u32
  rw [Nat.zero_mul, Nat.add_zero, Nat.div_eq_of_lt (by omega), Nat.add_zero, Nat.mod_eq_of_lt hy,
    Nat.mod_eq_of_lt (show p.m - 1 < 12 by omega), Nat.sub_add_cancel hp.1]

theorem stepMonths_add (inter i n : Nat) (p : Pos) :
    stepMonths inter n (stepMonths inter i p) = stepMonths inter (i + n) p := by
  unfold stepMonths u32
  dsimp only
  rw [show p.m - 1 + (i + n) * inter = p.m - 1 + i * inter + n * inter by ring]
  generalize p.m - 1 + i * inter = a
  generalize n * inter = b
  rw [show (p.y + a / 12) % 4294967296 + (a % 12 + 1 - 1 + b) / 12 =
      (p.y + a / 12) % 4294967296 + (a % 12 + b) / 12 by rw [Nat.add_sub_cancel],
    Nat.add_sub_cancel, show (a % 12 + b) % 12 = (a + b) % 12 by omega,
    show ((p.y + a / 12) % 4294967296 + (a % 12 + b) / 12) % 4294967296 =
      (p.y + (a + b) / 12) % 4294967296 by omega]

/-- A step that does not overflow is right. -/
theorem mly_next_of_lt {proto : Instant} {nti : Nat} {p : Pos} (hp : 1 ≤ p.m ∧ p.m ≤ 12)
    (hy : p.y < 4294967296) (hlt : p.m + rr.inter < 2147483648) :
    (mlyLoop proto nti rr).next p = some (stepMonths rr.inter 1 p) := by
  change (if bui31HasBits rr.mon && 2147483648 ≤ (mlyStep rr.inter p).m then none
    else some (mlyStep rr.inter p)) = _
  have hstep : mlyStep rr.inter p = stepMonths rr.inter 1 p := by
    unfold mlyStep stepMonths
    rw [u32_of_lt (by omega), Nat.one_mul]
    dsimp only
    split
    · rw [show p.m + rr.inter - 1 = p.m - 1 + rr.inter by omega]
    · unfold u32
      rw [show (p.m - 1 + rr.inter) / 12 = 0 by omega, Nat.add_zero, Nat.mod_eq_of_lt hy,
        show (p.m - 1 + rr.inter) % 12 + 1 = p.m + rr.inter by omega]
  have hm : (stepMonths rr.inter 1 p).m ≤ 12 := by
    unfold stepMonths
    dsimp only
    omega
  rw [hstep, if_neg]
  simp only [Bool.and_eq_true, decide_eq_true_eq]
  omega

/-- **One step is right** exactly if it does not overflow. -/
theorem mly_next_iff {proto : Instant} {nti : Nat} (hmon : bui31HasBits rr.mon = true) {p : Pos}
    (hp : 1 ≤ p.m ∧ p.m ≤ 12) (hy : p.y < 4294967296) (hinter : rr.inter < 4294967296) :
    (mlyLoop proto nti rr).next p = some (stepMonths rr.inter 1 p) ↔
      p.m + rr.inter < 2147483648 := by
  refine ⟨fun h => ?_, mly_next_of_lt hp hy⟩
  obtain ⟨hlt, hq⟩ := mly_next_m hmon h
  have hm : (stepMonths rr.inter 1 p).m = (p.m - 1 + 1 * rr.inter) % 12 + 1 := rfl
  rw [hm, Nat.one_mul] at hq
  clear h hm
  by_cases hwrap : p.m + rr.inter < 4294967296
  · rwa [u32_of_lt hwrap] at hlt
  · -- a sum that wraps is off by 4 months
    have hu : u32 (p.m + rr.inter) = p.m + rr.inter - 4294967296 := by
      unfold u32
      omega
    rw [hu, if_neg (by omega)] at hq
    omega

theorem orbit_months {proto : Instant} {nti : Nat} (hmon : bui31HasBits rr.mon = true) {p : Pos}
    (hp : 1 ≤ p.m ∧ p.m ≤ 12) (hy : p.y < 4294967296) (hinter : rr.inter < 4294967296) (n : Nat) :
    (∀ i ≤ n, (mlyLoop proto nti rr).orbit p i = some (stepMonths rr.inter i p)) ↔
      ∀ i < n, (p.m - 1 + i * rr.inter) % 12 + 1 + rr.inter < 2147483648 := by
  have hat : ∀ i, 1 ≤ (stepMonths rr.inter i p).m ∧ (stepMonths rr.inter i p).m ≤ 12 ∧
      (stepMonths rr.inter i p).y < 4294967296 := by
    intro i
    unfold stepMonths u32
    dsimp only
    omega
  have hstep : ∀ i, (mlyLoop proto nti rr).next (stepMonths rr.inter i p) =
      some (stepMonths rr.inter (i + 1) p) ↔
        (p.m - 1 + i * rr.inter) % 12 + 1 + rr.inter < 2147483648 := by
    intro i
    obtain ⟨h1, h12, hy'⟩ := hat i
    rw [← stepMonths_add, mly_next_iff hmon ⟨h1, h12⟩ hy' hinter]
    rfl
  induction n with
  | zero =>
      refine iff_of_true (fun i hi => ?_) fun i hi => absurd hi (by omega)
      rw [show i = 0 by omega, stepMonths_zero hp hy]
      rfl
  | succ n ih =>
      constructor
      · intro h i hi
        have hnext := h (i + 1) (by omega)
        rw [Loop.orbit_succ, h i (by omega)] at hnext
        exact (hstep i).mp hnext
      · intro h i hi
        rcases Nat.lt_or_ge i (n + 1) with hlt | hge
        · exact ih.mpr (fun i hi => h i (by omega)) i (by omega)
        · rw [show i = n + 1 by omega, Loop.orbit_succ, ih.mpr (fun i hi => h i (by omega)) n le_rfl]
          exact (hstep n).mpr (h n (by omega))

theorem listedAfter_stepMonths (p : Pos) (i n : Nat) :
    ListedAfter rr (stepMonths rr.inter i p) n ↔ ListedAfter rr p (i + n) := by
  unfold ListedAfter
  rw [stepMonths_add]

/-- Where nothing overflows, the search lands on the first listed month if there is one. -/
theorem landsFirst_of_fit {proto : Instant} {nti : Nat} (hmon : bui31HasBits rr.mon = true) {p : Pos}
    (hp : 1 ≤ p.m ∧ p.m ≤ 12) (hy : p.y < 4294967296) (hinter : rr.inter < 4294967296)
    (hfit : StepsFit rr p.m) {n0 : Nat} (h : ∃ n, n0 ≤ n ∧ ListedAfter rr p n) :
    LandsFirst (mlyLoop proto nti rr) rr p n0 := by
  obtain ⟨hle, hlisted⟩ := Nat.find_spec h
  refine ⟨Nat.find h, hle, ?_, hlisted, fun i hi hlt hl => Nat.find_min h hlt ⟨hi, hl⟩⟩
  exact (orbit_months hmon hp hy hinter _).mpr fun i _ => hfit i

/-- From one listed month to the next, the search goes on without end. -/
theorem lands_forever {L : Loop Pos Instant Slot} {p0 : Pos} (h0 : LandsFirst L rr p0 0)
    (h : ∀ i p, L.orbit p0 i = some p → bui31HasBit rr.mon p.m = true → LandsFirst L rr p 1) (k : Nat) :
    ∃ n ≥ k, (∀ i ≤ n, L.orbit p0 i = some (stepMonths rr.inter i p0)) ∧ ListedAfter rr p0 n := by
  induction k with
  | zero =>
      obtain ⟨n, -, horbit, hlisted, -⟩ := h0
      exact ⟨n, Nat.zero_le n, horbit, hlisted⟩
  | succ k ih =>
      obtain ⟨n, hn, horbit, hlisted⟩ := ih
      obtain ⟨j, hj, horbit', hlisted', -⟩ := h n _ (horbit n le_rfl) hlisted
      refine ⟨n + j, by omega, fun i hi => ?_, (listedAfter_stepMonths p0 n j).mp hlisted'⟩
      rcases Nat.le_total i n with hle | hge
      · exact horbit i hle
      · obtain ⟨d, rfl⟩ := Nat.exists_eq_add_of_le hge
        rw [Loop.orbit_add, horbit n le_rfl, Option.bind_some, horbit' d (by omega), stepMonths_add]

theorem mlyStart_y_lt (proto : Instant) (sh : Int) : (mlyStart proto sh).y < 4294967296 := by
  have hy := proto.fits.1
  have hu := u32OfInt_lt ((proto.y : Int) - 1)
  unfold mlyStart
  dsimp only
  split_ifs <;> omega

section Start

variable {tgt : Instant} {nti : Nat}

theorem rrulFillMly_start_eq (hset : MonthSet rr.mon) (hmon : bui31HasBits rr.mon = true)
    (hinter : 1 ≤ rr.inter) (hgone : countGone rr nti = false)
    (hproto : 1 ≤ (protoOf tgt rr).m ∧ (protoOf tgt rr).m ≤ 12) :
    ((rrulFillMly tgt nti rr).start = .ok (mlyStart (protoOf tgt rr) rr.shift) ↔
        Checks rr (mlyStart (protoOf tgt rr) rr.shift).m) ∧
      ((rrulFillMly tgt nti rr).start = .error .done ↔
        ¬ Checks rr (mlyStart (protoOf tgt rr) rr.shift).m) := by
  have hstart : (rrulFillMly tgt nti rr).start =
      if monCongruent rr.mon (mlyStart (protoOf tgt rr) rr.shift).m rr.inter 33 0 = true then
        .ok (mlyStart (protoOf tgt rr) rr.shift)
      else .error .done := by
    unfold rrulFillMly
    dsimp only
    rw [hgone, hmon, if_neg (by decide), if_neg (by omega), if_pos rfl, if_neg (by omega)]
  rw [hstart, ← monCongruent_iff hset]
  by_cases hcon : monCongruent rr.mon (mlyStart (protoOf tgt rr) rr.shift).m rr.inter 33 0 = true
  · simp [hcon]
  · simp [hcon]

/-- **When the search for listed months is right**: its check is to hold exactly if a listed
month is some steps away, and no month on the way may overflow. -/
theorem mly_steps_iff (htyped : rr.Typed) (hset : MonthSet rr.mon) (hmon : bui31HasBits rr.mon = true)
    (hinter : 1 ≤ rr.inter) (hgone : countGone rr nti = false)
    (hproto : 1 ≤ (protoOf tgt rr).m ∧ (protoOf tgt rr).m ≤ 12)
    (hm : (mlyStart (protoOf tgt rr) rr.shift).m ≤ 12) :
    StepsRight tgt nti rr ↔
      (Checks rr (mlyStart (protoOf tgt rr) rr.shift).m ↔
          Reaches rr (mlyStart (protoOf tgt rr) rr.shift).m) ∧
        (Reaches rr (mlyStart (protoOf tgt rr) rr.shift).m →
          StepsFit rr (mlyStart (protoOf tgt rr) rr.shift).m) := by
  obtain ⟨hok, hdone⟩ := rrulFillMly_start_eq hset hmon hinter hgone hproto
  have hstart : ∀ p0, (rrulFillMly tgt nti rr).start = .ok p0 →
      p0 = mlyStart (protoOf tgt rr) rr.shift := fun p0 h => rrulFillMly_start h
  have hp : 1 ≤ (mlyStart (protoOf tgt rr) rr.shift).m ∧
      (mlyStart (protoOf tgt rr) rr.shift).m ≤ 12 := ⟨(mlyStart_m_range _ htyped.shift).1, hm⟩
  have hy := mlyStart_y_lt (protoOf tgt rr) rr.shift
  generalize hp0 : mlyStart (protoOf tgt rr) rr.shift = p0 at *
  have hreach := reaches_iff hset hp
  constructor
  · rintro ⟨hfirst, hnext, hgives⟩
    have hcheck : Checks rr p0.m ↔ Reaches rr p0.m := by
      rw [hreach, ← not_iff_not, ← hdone, hgives, hp0, not_exists]
    refine ⟨hcheck, fun hr i => ?_⟩
    have hs := hok.mpr (hcheck.mpr hr)
    obtain ⟨n, hn, horbit, -⟩ := lands_forever (hfirst p0 hs) (hnext p0 hs) (i + 1)
    exact (orbit_months hmon hp hy htyped.inter n).mp horbit i (by omega)
  · rintro ⟨hcheck, hfit⟩
    have hr : ∀ p, (rrulFillMly tgt nti rr).start = .ok p → p = p0 ∧ Reaches rr p0.m := by
      intro p hs
      have := hstart p hs
      subst this
      exact ⟨rfl, hcheck.mp (hok.mp hs)⟩
    refine ⟨fun p hs => ?_, fun p hs i q hq hl => ?_, ?_⟩
    · obtain ⟨rfl, hr⟩ := hr p hs
      obtain ⟨n, hn⟩ := hreach.mp hr
      exact landsFirst_of_fit hmon hp hy htyped.inter (hfit hr) ⟨n, Nat.zero_le n, hn⟩
    · obtain ⟨rfl, hr⟩ := hr p hs
      have hq' : q = stepMonths rr.inter i p := by
        refine Option.some.inj (hq.symm.trans ?_)
        exact (orbit_months hmon hp hy htyped.inter i).mpr (fun j _ => hfit hr j) i le_rfl
      subst hq'
      refine landsFirst_of_fit hmon (by unfold stepMonths; dsimp only; omega)
        (by unfold stepMonths u32; dsimp only; omega) htyped.inter (fun n => ?_) ⟨12, by omega, ?_⟩
      · have := hfit hr (i + n)
        have hm : (stepMonths rr.inter i p).m - 1 = (p.m - 1 + i * rr.inter) % 12 := rfl
        rw [Nat.add_mul, ← Nat.add_assoc] at this
        rwa [hm, Nat.mod_add_mod]
      · have hself : ListedAfter rr (stepMonths rr.inter i p) 0 := by
          rw [listedAfter_stepMonths]
          exact hl
        exact (listedAfter_add _ 0 1).mpr hself
    · rw [hdone, hcheck, hreach, not_exists, hp0]

end Start

theorem snarfRrule_quarters :
    snarfRrule "FREQ=MONTHLY;INTERVAL=3;BYMONTH=2,5".toList =
      { freq := .monthly, inter := 3, mon := 72 } := by decide

/-- Quarterly from February on. -/
theorem mly_steps_quarters :
    StepsRight (.pack 2000 2 1 0 0 0 echsAllSec) 64 { freq := .monthly, inter := 3, mon := 72 } := by
  refine (mly_steps_iff ?_ ?_ (by decide) (by decide) (by decide) (by decide) (by decide)).mpr
    ⟨iff_of_true ⟨5, by decide, by decide⟩ ⟨2, by decide, by decide⟩, fun _ n => ?_⟩
  · exact snarfRrule_quarters ▸ snarfRrule_typed _
  · have := (snarfRrule_ranged "FREQ=MONTHLY;INTERVAL=3;BYMONTH=2,5".toList).mon
    rwa [snarfRrule_quarters] at this
  · dsimp only
    omega

/-- From January, steps of a year never come to February, though the check lets them. -/
theorem mly_search_never_lands :
    ¬ ∀ (s : List Char) (tgt : Instant) (nti : Nat), bui31HasBits (snarfRrule s).mon = true →
      1 ≤ (snarfRrule s).inter → countGone (snarfRrule s) nti = false →
      1 ≤ (protoOf tgt (snarfRrule s)).m ∧ (protoOf tgt (snarfRrule s)).m ≤ 12 →
      (mlyStart (protoOf tgt (snarfRrule s)) (snarfRrule s).shift).m ≤ 12 →
      StepsRight tgt nti (snarfRrule s) := by
  intro h
  have hrule : snarfRrule "FREQ=MONTHLY;INTERVAL=12;BYMONTH=2".toList =
      { freq := .monthly, inter := 12, mon := 5 } := by decide
  have hright := h "FREQ=MONTHLY;INTERVAL=12;BYMONTH=2".toList (.pack 2000 1 1 0 0 0 echsAllSec) 64
  rw [hrule] at hright
  obtain ⟨hfirst, -⟩ := hright (by decide) (by decide) (by decide) (by decide) (by decide)
  obtain ⟨n, -, -, hlisted, -⟩ := hfirst { y := 2000, m := 1 } (by decide)
  have hm : (stepMonths 12 n { y := 2000, m := 1 }).m = 1 := by
    unfold stepMonths
    dsimp only
    omega
  unfold ListedAfter at hlisted
  rw [hm] at hlisted
  revert hlisted
  decide

end Echse
