/-
The days a loop comes to.

A loop of weeks or days steps by a fixed number of days, so the day of each pass is known
beforehand: it is that many days after the start, on the calendar of the rule's scale.  This
takes month lengths that are the calendar's (`LengthsTo`), and no step past a whole month.
-/
import Echse.Proofs.Steps
import Echse.Proofs.Turns
import Echse.Proofs.Order
import Echse.Lib.FillExact

namespace Echse

open Months (before later)
open FillLoop (Loop)

/-! ### Month lengths -/

/-- The month lengths that `ndim` gives are those of the calendar `len`, from month `k0` on
up to the day number `last`.  In the last month `ndim` may differ if `part` says that its
length does not matter. -/
structure LengthsTo (ndim : Nat → Nat → Nat) (len : Nat → Nat) (part : Prop) (k0 last : Nat) :
    Prop where
  pos : ∀ j ≥ k0, before len j < last → 0 < len j
  same : ∀ j ≥ k0, before len j < last →
    lenOf ndim j = len j ∨ (part ∧ last ≤ before len j + len j)
  years : last ≤ before len (12 * 65536)

variable {ndim : Nat → Nat → Nat} {len : Nat → Nat} {part : Prop} {k0 last : Nat}

theorem LengthsTo.mono (h : LengthsTo ndim len part k0 last) {n : Nat} (hn : n ≤ last) :
    LengthsTo ndim len part k0 n := by
  refine ⟨fun j hj hlt => h.pos j hj (by omega), fun j hj hlt => ?_, hn.trans h.years⟩
  rcases h.same j hj (by omega) with heq | ⟨hp, hle⟩
  · exact Or.inl heq
  · exact Or.inr ⟨hp, by omega⟩

theorem lenOf_range (hreg : RegularLen ndim) {j : Nat} (hpos : 0 < lenOf ndim j) :
    28 ≤ lenOf ndim j ∧ lenOf ndim j ≤ 31 := by
  unfold lenOf at hpos ⊢
  have h := hreg (j / 12) (j % 12 + 1) (by omega) (by omega)
  omega

/-- Four weeks can be carried from any day. -/
theorem LengthsTo.daysFit (h : LengthsTo ndim len part k0 last) (hreg : RegularLen ndim)
    (hle : ∀ j, len j ≤ lenOf ndim j) {p : Pos} (hon : p.On ndim len) (hk0 : k0 ≤ p.month) {k : Nat}
    (hk : k ≤ 28) (hlast : p.dayNo len + k ≤ last) : DaysFit ndim len p k := by
  have hday := hon.day
  have hno : p.dayNo len = before len p.month + p.d := rfl
  refine ⟨fun j hj hlt => ?_, fun j hj hne => ?_, ?_, ?_⟩
  · have hpos := h.pos j (by omega) (by omega)
    have hlong := lenOf_range hreg (Nat.lt_of_lt_of_le hpos (hle j))
    rcases Nat.eq_or_lt_of_le hj with rfl | hj
    · have := hle p.month
      have := hday.2
      omega
    · have hnext := Months.before_le len (Nat.succ_le_of_lt hj)
      have hs : before len p.month.succ = before len p.month + len p.month := rfl
      have := hday.2
      omega
  · by_cases hlt : before len j < last
    · rcases h.same j (by omega) hlt with heq | ⟨-, hle⟩
      · exact absurd heq hne
      · omega
    · omega
  · have := Months.before_le len (show 12 * 65536 ≤ 12 * 1073741823 by omega)
    have := h.years
    omega
  · have hpos := hday.1.trans hday.2
    have := lenOf_range hreg (Nat.lt_of_lt_of_le hpos (hle p.month))
    have := hle p.month
    have := hday.2
    omega

/-- The rule of four gives the Gregorian months of 1901 to January 2100. -/
theorem lengthsTo_gregorian (part : Prop) (hk0 : 12 * 1901 ≤ k0)
    (hlast : last ≤ before Gregorian.len (12 * 2100 + 1)) :
    LengthsTo ndimGreg Gregorian.len part k0 last := by
  have hj : ∀ j, before Gregorian.len j < last → j ≤ 12 * 2100 := by
    intro j hlt
    by_contra hgt
    have := Months.before_le Gregorian.len (show 12 * 2100 + 1 ≤ j by omega)
    omega
  refine ⟨fun j _ _ => ?_, fun j hj0 hlt => Or.inl ?_, ?_⟩
  · have h : 28 ≤ Gregorian.len j := (Gregorian.monthDays_range (j / 12) (j % 12 + 1)).1
    omega
  · have := hj j hlt
    refine ndimGreg_eq (by omega) (by omega) fun h2 => ?_
    unfold CommonRule Gregorian.Leap
    omega
  · have := Months.before_le Gregorian.len (show 12 * 2100 + 1 ≤ 12 * 65536 by omega)
    omega

/-! ### Days -/

/-- The date of an instant, its month counted through. -/
def Instant.monthDay (i : Instant) : Nat × Nat := (Gregorian.monthNo i.y i.m, i.d)

/-- The number of an instant's day. -/
def Instant.dayNoIn (i : Instant) (len : Nat → Nat) : Nat := Months.dayNo len i.monthDay.1 i.monthDay.2

/-- The same for a start from 1901 on. -/
theorem lengthsTo_start {s : Scale} (hs : s = .gregorian) (part : Prop) {i : Instant}
    (hy : 1901 ≤ i.y) {n : Nat}
    (hlast : Gregorian.dayNo i.y i.m i.d + n ≤ Gregorian.dayNo 2100 1 31) :
    LengthsTo (echsScaleNdim s) (scaleLen s) part i.monthDay.1 (i.dayNoIn (scaleLen s) + n) := by
  subst hs
  refine lengthsTo_gregorian part ?_ ?_
  · unfold Instant.monthDay Gregorian.monthNo
    dsimp only
    omega
  · have hjan := Gregorian.before_year_add 2100 (i := 1) (by decide)
    have hday31 := Gregorian.dayNo_eq 2100 (m := 1) (by decide) (by decide) 31
    rw [show Gregorian.yearDaysBefore (Gregorian.leapDay 2100) 1 = 31 by decide] at hjan
    rw [show Gregorian.yearDaysBefore (Gregorian.leapDay 2100) (1 - 1) = 0 by decide] at hday31
    have hday : i.dayNoIn Gregorian.len = Gregorian.dayNo i.y i.m i.d := rfl
    change i.dayNoIn Gregorian.len + n ≤ _
    omega

/-- The weekday some days after a date.  On the Gregorian calendar it is the true one, on the
others it goes on from the one that `echs_scale_wday` gives the date. -/
def weekdayAfter (s : Scale) (i : Instant) (n : Nat) : Nat :=
  if s = .gregorian then Gregorian.weekday (Gregorian.dayNo i.y i.m i.d + n)
  else wdayFrom (echsScaleWday s i.y i.m i.d) n

theorem weekdayAfter_eq {s : Scale} {i : Instant} (hy : 1 ≤ i.y) (hm : 1 ≤ i.m ∧ i.m ≤ 12) (n : Nat) :
    wdayFrom (echsScaleWday s i.y i.m i.d) n = weekdayAfter s i n := by
  unfold weekdayAfter
  split
  · rename_i h
    have hfits := i.fits
    have hw : echsScaleWday s i.y i.m i.d = Gregorian.weekday (Gregorian.dayNo i.y i.m i.d) := by
      rw [h]
      exact wdayGreg_eq hy (by omega) hm.1 hm.2 (by omega)
    rw [hw, Gregorian.weekday_add]
    rfl
  · rfl

/-- The date of a position. -/
theorem later_of_on {p0 p : Pos} {n : Nat} (h0 : p0.On ndim len) (hon : p.On ndim len)
    (hno : p.dayNo len = p0.dayNo len + n) (hcal : LengthsTo ndim len part p0.month last)
    (hlast : p.dayNo len ≤ last) : later len (p0.month, p0.d) n = (p.month, p.d) := by
  have hno' : Months.dayNo len p0.month p0.d + n = p.dayNo len := hno.symm
  refine Months.later_eq h0.day hon.day hno fun j hj hlt => hcal.pos j hj ?_
  rw [hno'] at hlt
  omega

/-- Later days are not in earlier months. -/
theorem month_le_of_dayNo {p0 p : Pos} (h0 : p0.On ndim len) (hon : p.On ndim len)
    (h : p0.dayNo len ≤ p.dayNo len) : p0.month ≤ p.month := by
  by_contra hlt
  have hlt' := Months.dayNo_lt_of_lt (Nat.not_le.mp hlt) hon.day.2 h0.day.1
  exact absurd h (Nat.not_le.mpr hlt')

theorem month_div_mod {p : Pos} (hm : 1 ≤ p.m ∧ p.m ≤ 12) :
    p.month / 12 = p.y ∧ p.month % 12 + 1 = p.m := by
  unfold Pos.month Gregorian.monthNo
  omega

/-- **The day of each pass**, for a loop that comes to the days `f i` after the start.  `W i` is
what else it carries along. -/
theorem orbit_steps {α β : Type} {L : Loop Pos α β} {W : Nat → Pos → Prop} {p0 : Pos} {f : Nat → Nat}
    (hf0 : f 0 = 0) (hf : ∀ i, f i ≤ f (i + 1) ∧ f (i + 1) ≤ f i + 28) (hreg : RegularLen ndim)
    (hle : ∀ j, len j ≤ lenOf ndim j)
    (hstep : ∀ i p, p.On ndim len → p.dayNo len = p0.dayNo len + f i →
      p0.dayNo len + f (i + 1) ≤ last → W i p → DaysFit ndim len p (f (i + 1) - f i) →
        ∃ q, L.next p = some q ∧ Moved ndim len p q (f (i + 1) - f i) ∧ W (i + 1) q)
    (h0 : p0.On ndim len) (hW : W 0 p0) (hcal : LengthsTo ndim len part p0.month last) (i : Nat)
    (hlast : p0.dayNo len + f i ≤ last) :
    ∃ p, L.orbit p0 i = some p ∧ p.On ndim len ∧ p.dayNo len = p0.dayNo len + f i ∧ W i p := by
  induction i with
  | zero => exact ⟨p0, rfl, h0, by omega, hW⟩
  | succ i ih =>
      obtain ⟨hmono, h28⟩ := hf i
      obtain ⟨p, hp, hon, hno, hWp⟩ := ih (by omega)
      have hfit := hcal.daysFit hreg hle hon (month_le_of_dayNo h0 hon (by omega))
        (show f (i + 1) - f i ≤ 28 by omega) (by omega)
      obtain ⟨q, hq, hmv, hWq⟩ := hstep i p hon hno hlast hWp hfit
      refine ⟨q, ?_, hmv.on, ?_, hWq⟩
      · rw [Loop.orbit_succ, hp]
        exact hq
      · rw [hmv.dayNo]
        omega

/-- The same for a loop that steps by `c` days, `W n` being what it carries along `n` days after
the start. -/
theorem orbit_days {α β : Type} {L : Loop Pos α β} {W : Nat → Pos → Prop} {p0 : Pos} {c : Nat}
    (hc : c ≤ 28) (hreg : RegularLen ndim) (hle : ∀ j, len j ≤ lenOf ndim j)
    (hstep : ∀ n p, p.On ndim len → W n p → DaysFit ndim len p c →
      ∃ q, L.next p = some q ∧ Moved ndim len p q c ∧ W (n + c) q)
    (h0 : p0.On ndim len) (hW : W 0 p0) (hcal : LengthsTo ndim len part p0.month last) (i : Nat)
    (hlast : p0.dayNo len + i * c ≤ last) :
    ∃ p, L.orbit p0 i = some p ∧ p.On ndim len ∧ p.dayNo len = p0.dayNo len + i * c ∧ W (i * c) p := by
  have hsucc : ∀ i, (i + 1) * c = i * c + c := fun i => Nat.succ_mul i c
  refine orbit_steps (f := fun i => i * c) (W := fun i => W (i * c)) (Nat.zero_mul c)
    (fun i => ?_) hreg hle (fun i p hon _ _ hWp hfit => ?_) h0 (by rwa [Nat.zero_mul]) hcal i hlast
  · rw [hsucc]
    omega
  · rw [hsucc, Nat.add_sub_cancel_left] at hfit ⊢
    exact hstep (i * c) p hon hWp hfit

/-! ### Times -/

/-- The instants that are not before the start. -/
def notBefore (proto : Instant) (xs : List Instant) : List Instant :=
  xs.filter fun x => !echsInstantLtP x proto

/-- Past UNTIL. -/
def Rrulsp.late (rr : Rrulsp) (x : Instant) : Bool := echsInstantLtP rr.until_ x

/-- The date `n` days after the start. -/
def dateOn (len : Nat → Nat) (proto : Instant) (n : Nat) : Date :=
  let t := later len proto.monthDay n
  ⟨t.1 / 12, t.1 % 12 + 1, t.2⟩

/-- The times of a rule on the day `n` days after the start. -/
def timesOn (len : Nat → Nat) (rr : Rrulsp) (proto : Instant) (n : Nat) : List Instant :=
  (makeEnum proto rr).on proto.ms (dateOn len proto n)

/-- The times of a day as far as they are not before the start. -/
def dayTimes (len : Nat → Nat) (rr : Rrulsp) (proto : Instant) (n : Nat) : List Instant :=
  notBefore proto (timesOn len rr proto n)

/-- A position is the start of a rule. -/
structure Pos.IsStart (p : Pos) (proto : Instant) : Prop where
  y : p.y = proto.y
  m : p.m = proto.m
  d : p.d = proto.d

theorem Pos.IsStart.monthDay {p : Pos} {proto : Instant} (h : p.IsStart proto) :
    (p.month, p.d) = proto.monthDay := by
  unfold Pos.month Instant.monthDay
  rw [h.y, h.m, h.d]

theorem Pos.IsStart.dayNo {p : Pos} {proto : Instant} (h : p.IsStart proto) (len : Nat → Nat) :
    p.dayNo len = proto.dayNoIn len := by
  unfold Pos.dayNo Instant.dayNoIn
  rw [← h.monthDay]

theorem Pos.IsStart.month {p : Pos} {proto : Instant} (h : p.IsStart proto) :
    p.month = proto.monthDay.1 := by
  rw [← h.monthDay]

/-- The date of a position is that of its day. -/
theorem dateOn_eq {p0 p : Pos} {proto : Instant} {n : Nat} (hs : p0.IsStart proto)
    (h0 : p0.On ndim len) (hon : p.On ndim len) (hno : p.dayNo len = p0.dayNo len + n)
    (hcal : LengthsTo ndim len part p0.month last) (hlast : p.dayNo len ≤ last) :
    later len proto.monthDay n = (p.month, p.d) ∧ dateOn len proto n = p.date := by
  have hdate := later_of_on h0 hon hno hcal hlast
  rw [hs.monthDay] at hdate
  refine ⟨hdate, ?_⟩
  unfold dateOn
  dsimp only
  rw [hdate]
  dsimp only
  rw [(month_div_mod hon.month).1, (month_div_mod hon.month).2]
  rfl

/-- **The dates of a run are in order**, and fit an instant. -/
theorem dateOn_lt {proto : Instant} (hday : Months.Valid len proto.monthDay.1 proto.monthDay.2)
    (hreg : RegularLen ndim) (hle : ∀ j, len j ≤ lenOf ndim j)
    (hcal : LengthsTo ndim len part proto.monthDay.1 last) {n : Nat}
    (hlast : proto.dayNoIn len + n ≤ last) :
    (dateOn len proto n).Fits ∧ (1 ≤ (dateOn len proto n).m ∧ (dateOn len proto n).m ≤ 12) ∧
      ∀ k < n, (dateOn len proto k).key < (dateOn len proto n).key := by
  have hspec : ∀ k ≤ n, (later len proto.monthDay k).1 < 12 * 65536 ∧
      (later len proto.monthDay k).2 ≤ 31 ∧
      Months.Valid len (later len proto.monthDay k).1 (later len proto.monthDay k).2 ∧
      Months.dayNo len (later len proto.monthDay k).1 (later len proto.monthDay k).2
        = proto.dayNoIn len + k := by
    intro k hk
    have hk' : Months.dayNo len proto.monthDay.1 proto.monthDay.2 + k ≤ last :=
      le_trans (Nat.add_le_add_left hk _) hlast
    obtain ⟨hval, -, hno⟩ := Months.later_spec hday k fun j hj hlt => hcal.pos j hj (by omega)
    refine ⟨?_, ?_, hval, hno⟩
    · have hend : before len (12 * 65536 - 1) + len (12 * 65536 - 1) = before len (12 * 65536) :=
        (Months.before_succ (12 * 65536 - 1)).symm
      have := Months.month_le_of_dayNo_le (k := 12 * 65536 - 1) hval.1 (by
        rw [hno, hend]
        exact hk'.trans hcal.years)
      omega
    · have := hle (later len proto.monthDay k).1
      have hpos := hval.1.trans hval.2
      have := (lenOf_range hreg (Nat.lt_of_lt_of_le hpos (hle _))).2
      have := hval.2
      omega
  obtain ⟨h1, h2, hval, hno⟩ := hspec n le_rfl
  have hfits : ∀ k ≤ n, (dateOn len proto k).Fits := by
    intro k hk
    obtain ⟨h1, h2, -, -⟩ := hspec k hk
    exact ⟨by unfold dateOn; dsimp only; omega, by unfold dateOn; dsimp only; omega,
      by unfold dateOn; dsimp only; omega⟩
  refine ⟨hfits n le_rfl, by unfold dateOn; dsimp only; omega, fun k hk => ?_⟩
  rw [Date.key_lt_iff (hfits k (by omega)) (hfits n le_rfl)]
  obtain ⟨-, -, hval', hno'⟩ := hspec k (by omega)
  have hlt := (Months.dayNo_lt_iff hval' hval).mp (by omega)
  unfold dateOn
  dsimp only
  omega

/-- So the instants of a later day are later. -/
theorem key_lt_of_day {a b : Date} {e : Enum} {ms : Nat} (ha : a.Fits) (hb : b.Fits)
    (hab : a.key < b.key) {x z : Instant} (hx : x ∈ e.on ms a) (hz : z ∈ e.on ms b) :
    x.key < z.key := by
  have hx' := (key_bounds x).2
  have hz' := (key_bounds z).1
  rw [Enum.date_times ha hx] at hx'
  rw [Enum.date_times hb hz] at hz'
  omega

/-- What is after something late is late. -/
theorem Rrulsp.late_of_lt {rr : Rrulsp} {x z : Instant} (h : x.key < z.key) (hx : rr.late x = true) :
    rr.late z = true := by
  unfold Rrulsp.late at hx ⊢
  rw [ltP_iff] at hx ⊢
  omega

/-! ### Where nothing is emitted -/

theorem Expander.events_of_error {X : Expander} {w : FillLoop.Stop} (h : X.start = .error w) (n : Nat) :
    X.events n = [] := by
  have hinit : X.init = ⟨{}, 0, [], some w⟩ := by
    unfold init
    rw [h]
  unfold events after
  rw [hinit, Loop.passes_of_stop _ (by simp)]
  rfl

theorem clampCount_of_gone {rr : Rrulsp} {nti : Nat} (h : countGone rr nti = true) :
    clampCount rr nti = 0 := by
  unfold countGone at h
  simp only [Bool.and_eq_true, decide_eq_true_eq, beq_iff_eq] at h
  unfold clampCount
  rw [if_pos h.1, h.2]

theorem badDate_eq_false {i : Instant} (hm : 1 ≤ i.m ∧ i.m ≤ 12) (hd : 1 ≤ i.d ∧ i.d ≤ 31) :
    badDate i = false := by
  unfold badDate
  simp only [Bool.or_eq_false_iff, beq_eq_false_iff_ne, decide_eq_false_iff_not]
  omega

theorem Tick.ValidStart.badDate {t : Tick} {tgt : Instant} {rr : Rrulsp} (h : t.ValidStart tgt rr) :
    badDate (t.proto tgt rr) = false := by
  have hd := h.day
  have hle := scaleLen_le (t.scale rr) (Gregorian.monthNo (t.proto tgt rr).y (t.proto tgt rr).m)
  have hlong := lenOf_range (regularLen_scale (t.scale rr))
    (Nat.lt_of_lt_of_le (hd.1.trans hd.2) hle)
  have hd2 : (t.proto tgt rr).d ≤ scaleLen (t.scale rr) _ := hd.2
  exact badDate_eq_false h.month ⟨hd.1, by omega⟩

end Echse
