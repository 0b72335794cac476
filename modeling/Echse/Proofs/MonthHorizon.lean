/-
How far ahead an open-ended monthly rule is followed.

The 63 months that `rrul_fill_mly` goes through without an event before it gives up are a small
part of the calendar's cycle.  They are enough for rules that no weekday restricts, for their
lengths come again after 48 months, and for those that take a weekday of every month.  Beyond
these it depends on the months that INTERVAL and BYMONTH lead to: whether among the 62 before a
month there are some that begin and end like it.
-/
import Echse.Lib.LikeMonths
import Echse.Proofs.Horizon
import Echse.Proofs.MonthFill
import Echse.Proofs.MonthSteps

namespace Echse

open FillLoop (Loop)
open Gregorian
open Months (before)
open Picks (pick)

variable {tgt : Instant} {nti : Nat} {rr : Rrulsp}

/-- The month of the start, counted through. -/
def startMonth (tgt : Instant) (rr : Rrulsp) : Nat := monthNo (protoOf tgt rr).y (protoOf tgt rr).m

/-- BYMONTH lets a month pass. -/
def monthListed (rr : Rrulsp) (k : Nat) : Bool :=
  !bui31HasBits rr.mon || bui31HasBit rr.mon (k % 12 + 1)

/-- The generators of a monthly rule yield a date in a month. -/
def MonthYields (tgt : Instant) (nti : Nat) (rr : Rrulsp) (k : Nat) : Prop :=
  bi383List (mlyFill rr (mlyParts (protoOf tgt rr) nti rr) (k / 12) (k % 12 + 1)) ≠ []

instance (tgt : Instant) (nti : Nat) (rr : Rrulsp) (k : Nat) :
    Decidable (MonthYields tgt nti rr k) := inferInstanceAs (Decidable (_ ≠ _))

/-- **What the horizon should promise of a monthly rule**: where fewer events are returned than there
is room for, no later month that INTERVAL and BYMONTH lead to has a date up to 2099. -/
def MonthsKept (tgt : Instant) (nti : Nat) (rr : Rrulsp) : Prop :=
  ∀ n, ((rrulFillMly tgt nti rr).after n).stop = some .done →
    ((rrulFillMly tgt nti rr).events n).length < nti →
    ∀ k, startMonth tgt rr < k → k / 12 ≤ 2099 → k ≡ startMonth tgt rr [MOD rr.inter] →
      monthListed rr k = true → (∀ x ∈ (rrulFillMly tgt nti rr).events n, monthNo x.y x.m < k) →
        ¬ MonthYields tgt nti rr k

/-- How many of the months that the steps `i` up to `j` lead to are listed. -/
def monthsTried (rr : Rrulsp) (k0 i j : Nat) : Nat :=
  Nat.count (fun s => monthListed rr (k0 + s * rr.inter) = true) j -
    Nat.count (fun s => monthListed rr (k0 + s * rr.inter) = true) i

variable (rr) in
theorem monthsTried_le (k0 : Nat) {a b : Nat} (hab : a ≤ b) : monthsTried rr k0 a b ≤ b - a := by
  unfold monthsTried
  induction b, hab using Nat.le_induction with
  | base => omega
  | succ b hab ih =>
      have := Nat.count_monotone (fun s => monthListed rr (k0 + s * rr.inter) = true) hab
      rw [Nat.count_succ]
      split <;> omega

/-- Every month has months that begin and end like it among the 62 before it. -/
def Precedented (rr : Rrulsp) (k0 : Nat) : Prop :=
  ∀ i, monthListed rr (k0 + i * rr.inter) = true → (k0 + i * rr.inter) / 12 ≤ 2099 →
    62 < monthsTried rr k0 0 i →
    (∃ j < i, monthsTried rr k0 j i ≤ 62 ∧ monthListed rr (k0 + j * rr.inter) = true ∧
        BeginsLike (k0 + i * rr.inter) (k0 + j * rr.inter)) ∧
      ∃ j < i, monthsTried rr k0 j i ≤ 62 ∧ monthListed rr (k0 + j * rr.inter) = true ∧
        EndsLike (k0 + i * rr.inter) (k0 + j * rr.inter)

/-- The monthly rules that the horizon is wide enough for.  They are not turned away before the
search for listed months, and ask for no month day that February does not have from its end. -/
structure MonthSure (tgt : Instant) (rr : Rrulsp) : Prop where
  dom : ∀ t ∈ bi31List rr.dom, -28 ≤ t
  search : bui31HasBits rr.mon = true → monCongruent rr.mon (protoOf tgt rr).m rr.inter 33 0 = true
  days : bi447List rr.dow = [] ∨ (plainDays rr.dow ≠ [] ∧ bi31List rr.dom = []) ∨
    Precedented rr (startMonth tgt rr)

/-! ### Days taken -/

theorem mlyParts_days (h : ∀ t ∈ bi31List rr.dom, -28 ≤ t) (proto : Instant) (nti : Nat) :
    ∀ t ∈ (mlyParts proto nti rr).d, -28 ≤ t := by
  intro t ht
  unfold mlyParts at ht
  dsimp only at ht
  split at ht
  · rw [List.mem_singleton.mp ht]
    omega
  · exact h t (List.mem_of_mem_take ht)

/-- Where an entry of BYDAY is given, the day of the start is not put in for BYMONTHDAY. -/
theorem mlyParts_byday {t : Int} (h : t ∈ bi447List rr.dow) (proto : Instant) (nti : Nat) :
    (mlyParts proto nti rr).d = (bi31List rr.dom).take nti := by
  have hbits : bi447HasBits rr.dow = true := by
    cases hdow : rr.dow with
    | bits b => rfl
    | native xs =>
        rw [hdow] at h
        cases xs with
        | nil => cases h
        | cons x xs => rfl
  unfold mlyParts mlyYmdp
  simp [hbits]

theorem len_month (k : Nat) : monthDays (k / 12) (k % 12 + 1) = len k := rfl

theorem dayNo_month (k d : Nat) : dayNo (k / 12) (k % 12 + 1) d = before len k + d := by
  unfold dayNo Months.dayNo monthNo
  rw [show 12 * (k / 12) + (k % 12 + 1 - 1) = k by omega]

theorem EntryTakes.range {y m d : Nat} {t : Int} (h : EntryTakes y m t d) :
    1 ≤ d ∧ d ≤ monthDays y m := by
  unfold EntryTakes at h
  split at h
  · exact (mem_monthWeekdays.mp h).1
  · exact (mem_monthWeekdays.mp (Picks.pick_mem h)).1

theorem MonthDayTaken.range {ds : List Int} {y m d : Nat} (h : MonthDayTaken rr ds y m d) :
    1 ≤ d ∧ d ≤ monthDays y m := by
  unfold MonthDayTaken at h
  split at h
  · obtain ⟨t, -, htakes⟩ := h
    exact htakes.range
  · obtain ⟨⟨t, -, hd⟩, -⟩ := h
    have := List.mem_range'_1.mp (Picks.pick_mem hd)
    omega

/-- **What a month has, one that begins like it or one that ends like it has too.** -/
theorem taken_like (hr : rr.Ranged) {ds : List Int} {k i j d : Nat}
    (hi : BeginsLike k i) (hj : EndsLike k j) (h : MonthDayTaken rr ds (k / 12) (k % 12 + 1) d) :
    (∃ e, MonthDayTaken rr ds (i / 12) (i % 12 + 1) e) ∨
      ∃ e, MonthDayTaken rr ds (j / 12) (j % 12 + 1) e := by
  unfold MonthDayTaken EntryTakes DomListed at *
  simp only [len_month, dayNo_month, monthWeekdays_eq] at *
  by_cases hnil : ds = []
  · simp only [if_pos hnil] at h ⊢
    obtain ⟨t, ht, htakes⟩ := h
    obtain ⟨-, -, hw⟩ := unpackCd_range (isCd_of_ranged hr t ht)
    rcases Int.lt_trichotomy (unpackCd t).cnt 0 with hneg | hzero | hpos
    · rw [if_neg (by omega)] at htakes
      obtain ⟨e, he⟩ := hj.pick_weekday hw hneg htakes
      exact Or.inr ⟨e, t, ht, by rwa [if_neg (by omega)]⟩
    · rw [if_pos hzero] at htakes
      refine Or.inl ⟨d, t, ht, ?_⟩
      rw [if_pos hzero]
      unfold weekdaysAfter at htakes ⊢
      rw [List.mem_filter, List.mem_range'_1, decide_eq_true_eq] at htakes ⊢
      have hlen := hi.1
      exact ⟨by omega, by rw [hi.weekday_eq]; exact htakes.2⟩
    · rw [if_neg (by omega)] at htakes
      exact Or.inl ⟨d, t, ht, by rw [if_neg (by omega)]; exact hi.pick_weekday hw hpos htakes⟩
  · simp only [if_neg hnil] at h ⊢
    obtain ⟨⟨t, ht, hd⟩, hplain⟩ := h
    rcases Int.lt_trichotomy t 0 with hneg | hzero | hpos
    · obtain ⟨e, he, hw⟩ := hj.pick_day hneg hd
      exact Or.inr ⟨e, ⟨t, ht, he⟩, by rwa [hw]⟩
    · rw [hzero] at hd
      cases hd
    · exact Or.inl ⟨d, ⟨t, ht, hi.pick_day hpos hd⟩, by rwa [hi.weekday_eq]⟩

section Yields

variable (hr : rr.Ranged) (hscale : rr.scale = .gregorian) (hdom : ∀ t ∈ bi31List rr.dom, -28 ≤ t)
include hr hscale hdom

/-- The candidates of a month are the days taken of it. -/
theorem mem_month {k : Nat} (hk : 1901 ≤ k / 12 ∧ k / 12 ≤ 2099) (x : Int) :
    x ∈ bi383List (mlyFill rr (mlyParts (protoOf tgt rr) nti rr) (k / 12) (k % 12 + 1)) ↔
      ∃ d : Nat, MonthDayTaken rr (mlyParts (protoOf tgt rr) nti rr).d (k / 12) (k % 12 + 1) d ∧
        x = codeOf (k % 12 + 1) d :=
  mem_mlyFill (rightMonth_of_range hk (by omega)) hr hscale (fun t ht => by
    have := mlyParts_days hdom _ _ t ht
    have := monthDays_range (k / 12) (k % 12 + 1)
    omega) rfl x

theorem monthYields_iff {k : Nat} (hk : 1901 ≤ k / 12 ∧ k / 12 ≤ 2099) :
    MonthYields tgt nti rr k ↔
      ∃ d, MonthDayTaken rr (mlyParts (protoOf tgt rr) nti rr).d (k / 12) (k % 12 + 1) d := by
  unfold MonthYields
  constructor
  · intro h
    obtain ⟨x, hx⟩ := List.exists_mem_of_ne_nil _ h
    obtain ⟨d, hd, -⟩ := (mem_month hr hscale hdom hk x).mp hx
    exact ⟨d, hd⟩
  · rintro ⟨d, hd⟩
    exact List.ne_nil_of_mem ((mem_month hr hscale hdom hk _).mpr ⟨d, hd, rfl⟩)

/-- Months of one length have the same days where BYDAY lists nothing. -/
theorem yields_same_len (hnil : bi447List rr.dow = []) {k j : Nat} (hk : 1901 ≤ k / 12 ∧ k / 12 ≤ 2099)
    (hj : 1901 ≤ j / 12 ∧ j / 12 ≤ 2099) (hlen : len k = len j) (h : MonthYields tgt nti rr k) :
    MonthYields tgt nti rr j := by
  rw [monthYields_iff hr hscale hdom hk] at h
  rw [monthYields_iff hr hscale hdom hj]
  have hplain : plainDays rr.dow = [] := by
    unfold plainDays
    rw [hnil]
    rfl
  obtain ⟨d, hd⟩ := h
  refine ⟨d, ?_⟩
  unfold MonthDayTaken at hd ⊢
  rw [len_month] at hd ⊢
  split at hd
  · obtain ⟨t, ht, -⟩ := hd
    rw [hnil] at ht
    cases ht
  · rename_i hne
    rw [if_neg hne, ← hlen]
    exact ⟨hd.1, fun h => absurd hplain h⟩

/-- A plain weekday comes in every month. -/
theorem yields_plain (hplain : plainDays rr.dow ≠ []) (hnil : bi31List rr.dom = []) {k : Nat}
    (hk : 1901 ≤ k / 12 ∧ k / 12 ≤ 2099) : MonthYields tgt nti rr k := by
  rw [monthYields_iff hr hscale hdom hk]
  obtain ⟨t, ht⟩ := List.exists_mem_of_ne_nil _ hplain
  obtain ⟨hmem, hrange⟩ := mem_plainDays.mp ht
  have hcd := isCd_of_ranged hr t hmem
  have h0 := hcd.plain_iff.mpr hrange
  have hdow := hcd.dow_eq h0
  have hlen := monthDays_range (k / 12) (k % 12 + 1)
  rw [len_month] at hlen
  -- the first of them
  refine ⟨((unpackCd t).dow + 7 - weekday (before len k + 1)) % 7 + 1, ?_⟩
  unfold MonthDayTaken EntryTakes
  rw [mlyParts_byday hmem, hnil, List.take_nil, if_pos rfl]
  refine ⟨t, hmem, ?_⟩
  rw [if_pos h0, mem_monthWeekdays, dayNo_month, len_month]
  refine ⟨by omega, ?_⟩
  unfold weekday
  omega

/-- **A month with days that comes late enough has another with days before it that is near.** -/
theorem near_month (hy0 : 1901 ≤ (protoOf tgt rr).y)
    (hdays : bi447List rr.dow = [] ∨ (plainDays rr.dow ≠ [] ∧ bi31List rr.dom = []) ∨
      Precedented rr (startMonth tgt rr))
    {i : Nat} (hle : (startMonth tgt rr + i * rr.inter) / 12 ≤ 2099)
    (hlisted : monthListed rr (startMonth tgt rr + i * rr.inter) = true)
    (hyields : MonthYields tgt nti rr (startMonth tgt rr + i * rr.inter))
    (hmany : 62 < monthsTried rr (startMonth tgt rr) 0 i) :
    ∃ j < i, monthsTried rr (startMonth tgt rr) j i ≤ 62 ∧
      monthListed rr (startMonth tgt rr + j * rr.inter) = true ∧
      MonthYields tgt nti rr (startMonth tgt rr + j * rr.inter) := by
  have hstart : 1901 ≤ startMonth tgt rr / 12 := by
    unfold startMonth monthNo
    omega
  have hin : ∀ j ≤ i, 1901 ≤ (startMonth tgt rr + j * rr.inter) / 12 ∧
      (startMonth tgt rr + j * rr.inter) / 12 ≤ 2099 := by
    intro j hj
    have := Nat.mul_le_mul_right rr.inter hj
    omega
  generalize startMonth tgt rr = k0 at *
  rcases hdays with hnil | ⟨hplain, hnil⟩ | hprec
  · -- 48 steps before
    have h0 := monthsTried_le rr k0 (Nat.zero_le i)
    have hsplit : i * rr.inter = (i - 48) * rr.inter + 48 * rr.inter := by
      rw [← Nat.add_mul]
      congr 1
      omega
    refine ⟨i - 48, by omega, ?_, ?_, ?_⟩
    · have := monthsTried_le rr k0 (Nat.sub_le i 48)
      omega
    · unfold monthListed at hlisted ⊢
      rwa [show (k0 + (i - 48) * rr.inter) % 12 = (k0 + i * rr.inter) % 12 by omega]
    · exact yields_same_len hr hscale hdom hnil (hin i le_rfl) (hin _ (by omega))
        (len_cycle (hin i le_rfl) (hin _ (by omega)) (by omega)) hyields
  · -- the last one before
    have hlast : ∀ b, 0 < monthsTried rr k0 0 b → ∃ j < b, monthsTried rr k0 j b ≤ 1 ∧
        monthListed rr (k0 + j * rr.inter) = true := by
      intro b
      unfold monthsTried
      induction b with
      | zero => intro h; simp at h
      | succ b ih =>
          intro hb
          rw [Nat.count_succ] at hb ⊢
          by_cases hl : monthListed rr (k0 + b * rr.inter) = true
          · exact ⟨b, Nat.lt_succ_self b, by rw [if_pos hl]; omega, hl⟩
          · rw [if_neg hl, Nat.add_zero] at hb ⊢
            obtain ⟨j, hj, hone, hlj⟩ := ih hb
            exact ⟨j, by omega, hone, hlj⟩
    obtain ⟨j, hj, hone, hlj⟩ := hlast i (by omega)
    exact ⟨j, hj, by omega, hlj, yields_plain hr hscale hdom hplain hnil (hin j hj.le)⟩
  · obtain ⟨⟨a, ha, hnear, hla, hbegin⟩, b, hb, hnear', hlb, hend⟩ := hprec i hlisted hle hmany
    obtain ⟨d, hd⟩ := (monthYields_iff hr hscale hdom (hin i le_rfl)).mp hyields
    rcases taken_like hr hbegin hend hd with h | h
    · exact ⟨a, ha, hnear, hla, (monthYields_iff hr hscale hdom (hin a ha.le)).mpr h⟩
    · exact ⟨b, hb, hnear', hlb, (monthYields_iff hr hscale hdom (hin b hb.le)).mpr h⟩

end Yields

/-! ### The run -/

variable (nti) in
/-- The months a loop comes to. -/
theorem mly_orbit (proto : Instant) {p : Pos} (hp : 1 ≤ p.m ∧ p.m ≤ 12) (hy : p.y < 4294967296)
    (hinter : rr.inter < 2147483000) (i : Nat) :
    (mlyLoop proto nti rr).orbit p i = some (stepMonths rr.inter i p) := by
  induction i with
  | zero =>
      rw [stepMonths_zero hp hy]
      rfl
  | succ i ih =>
      rw [Loop.orbit_succ, ih, ← stepMonths_add]
      refine mly_next_of_lt ?_ ?_ ?_
      · unfold stepMonths
        dsimp only
        omega
      · unfold stepMonths
        exact u32_lt _
      · unfold stepMonths
        dsimp only
        omega

variable (rr) in
/-- Such a month by its number. -/
theorem stepMonths_eq (p : Pos) (i : Nat)
    (hle : (monthNo p.y p.m + i * rr.inter) / 12 < 4294967296) :
    (stepMonths rr.inter i p).y = (monthNo p.y p.m + i * rr.inter) / 12 ∧
      (stepMonths rr.inter i p).m = (monthNo p.y p.m + i * rr.inter) % 12 + 1 := by
  unfold monthNo at hle ⊢
  have hdiv : (12 * p.y + (p.m - 1) + i * rr.inter) / 12 = p.y + (p.m - 1 + i * rr.inter) / 12 := by
    omega
  unfold stepMonths
  dsimp only
  rw [← hdiv, u32_of_lt hle]
  refine ⟨rfl, ?_⟩
  omega

theorem mlyStart_open (proto : Instant) (h : 1 ≤ proto.m) :
    mlyStart proto 0 = { y := proto.y, m := proto.m } := by
  have hd : echsShiftDvalue 0 + Int.tdiv (echsShiftBvalue 0 * 7) 5 = 0 := by decide
  have ht : Int.tdiv ((0 : Int) - 1) 30 = 0 := by decide
  unfold mlyStart
  rw [hd]
  dsimp only
  rw [ht, if_neg (by decide : ¬ (0 : Int) < 0), Int.sub_zero, Int.sub_zero, if_neg (by omega),
    if_pos (by omega), if_pos (by omega), Int.toNat_natCast]

theorem mlyCands_open (ho : rr.Open) (p : Parts) (y m : Nat) :
    mlyCands rr p y m = .single (mlyFill rr p y m) := by
  unfold mlyCands clrPoss shift
  rw [ho.pos, ho.shift]
  rfl

variable (tgt nti) in
/-- What the loop yields in a month. -/
theorem mlyLoop_yield (ho : rr.Open) {p : Pos} (hm : 1 ≤ p.m ∧ p.m ≤ 12) (hy : p.y ≤ 2099) :
    ((mlyLoop (protoOf tgt rr) nti rr).gather ((mlyLoop (protoOf tgt rr) nti rr).groups p)).2 = .cont ∧
      ∀ x, x ∈ (mlyLoop (protoOf tgt rr) nti rr).yield p ↔
        ∃ yd ∈ bi383List (mlyFill rr (mlyParts (protoOf tgt rr) nti rr) p.y p.m),
          x ∈ (makeEnum (protoOf tgt rr) rr).on (protoOf tgt rr).ms
            ⟨p.y, u32OfInt yd / 32 + 1, u32OfInt yd % 32⟩ ∧
          echsInstantLtP x (protoOf tgt rr) = false := by
  refine yield_single ?_ ?_ hy
  · change judgeUntil rr.until_ _ = _
    rw [ho.until_]
  · change (if _ then [none] else candGroups _ _ _ (mlyCands _ _ _ _)) = _
    rw [mlyCands_open ho, if_neg (by omega)]

variable (tgt nti) in
theorem worked_eq (hm0 : 1 ≤ (protoOf tgt rr).m ∧ (protoOf tgt rr).m ≤ 12)
    (hinter : rr.inter < 2147483000) (i j : Nat) :
    (mlyLoop (protoOf tgt rr) nti rr).worked { y := (protoOf tgt rr).y, m := (protoOf tgt rr).m } i j =
      monthsTried rr (startMonth tgt rr) i j := by
  have hyfits := (protoOf tgt rr).fits.1
  have hworks : ∀ s, (mlyLoop (protoOf tgt rr) nti rr).worksAt
      { y := (protoOf tgt rr).y, m := (protoOf tgt rr).m } s =
        monthListed rr (startMonth tgt rr + s * rr.inter) := by
    intro s
    have hm : (stepMonths rr.inter s { y := (protoOf tgt rr).y, m := (protoOf tgt rr).m }).m =
        (startMonth tgt rr + s * rr.inter) % 12 + 1 := by
      unfold stepMonths startMonth monthNo
      dsimp only
      omega
    unfold Loop.worksAt
    rw [mly_orbit nti (protoOf tgt rr) (p := { y := (protoOf tgt rr).y, m := (protoOf tgt rr).m }) hm0
      (by dsimp only; omega) hinter s]
    change (!(bui31HasBits rr.mon && !bui31HasBit rr.mon _)) = _
    rw [hm]
    unfold monthListed
    rw [Bool.not_and, Bool.not_not]
  unfold Loop.worked monthsTried
  simp only [hworks]

/-- A code is of its month. -/
theorem code_month {m d : Nat} (hm : 1 ≤ m ∧ m ≤ 12) (hd : 1 ≤ d ∧ d ≤ 31) :
    u32OfInt (codeOf m d) / 32 + 1 = m := by
  have hcode : codeOf m d = ((32 * (m - 1) + d : Nat) : Int) := by
    unfold codeOf
    omega
  rw [hcode, u32OfInt_ofNat (by omega)]
  omega

section Run

variable (ho : rr.Open) (hr : rr.Ranged) (hdom : ∀ t ∈ bi31List rr.dom, -28 ≤ t)
include ho hr hdom

/-- The dates of a candidate in a month. -/
theorem month_date {k : Nat} (hk : 1901 ≤ k / 12 ∧ k / 12 ≤ 2099) {yd : Int} {x : Instant}
    (hyd : yd ∈ bi383List (mlyFill rr (mlyParts (protoOf tgt rr) nti rr) (k / 12) (k % 12 + 1)))
    (hon : x ∈ (makeEnum (protoOf tgt rr) rr).on (protoOf tgt rr).ms
      ⟨k / 12, u32OfInt yd / 32 + 1, u32OfInt yd % 32⟩) : x.y = k / 12 ∧ x.m = k % 12 + 1 := by
  obtain ⟨d, hd, rfl⟩ := (mem_month hr ho.scale hdom hk yd).mp hyd
  have hrange := hd.range
  have h31 := (monthDays_range (k / 12) (k % 12 + 1)).2
  have hdate := on_date hon
  rw [code_month (by omega) (by omega)] at hdate
  dsimp only at hdate
  omega

variable (hy0 : 1901 ≤ (protoOf tgt rr).y)
include hy0

/-- What the loop stores of a month is dated there. -/
theorem month_stored {i : Nat} (hle : (startMonth tgt rr + i * rr.inter) / 12 ≤ 2099) {x : Instant}
    (hx : x ∈ (mlyLoop (protoOf tgt rr) nti rr).yield
      (stepMonths rr.inter i { y := (protoOf tgt rr).y, m := (protoOf tgt rr).m })) :
    x.y ≤ 2099 ∧ monthNo x.y x.m = startMonth tgt rr + i * rr.inter := by
  have hstep := stepMonths_eq rr { y := (protoOf tgt rr).y, m := (protoOf tgt rr).m } i
    (by unfold startMonth at hle; dsimp only; omega)
  change _ = (startMonth tgt rr + _) / 12 ∧ _ = (startMonth tgt rr + _) % 12 + 1 at hstep
  have hin : 1901 ≤ (startMonth tgt rr + i * rr.inter) / 12 := by
    unfold startMonth monthNo
    omega
  generalize stepMonths rr.inter i { y := (protoOf tgt rr).y, m := (protoOf tgt rr).m } = p at *
  obtain ⟨yd, hyd, hon, -⟩ := ((mlyLoop_yield _ _ ho (by omega) (by omega)).2 x).mp hx
  rw [hstep.1, hstep.2] at hyd
  rw [hstep.1] at hon
  obtain ⟨hxy, hxm⟩ := month_date ho hr hdom ⟨hin, hle⟩ hyd hon
  refine ⟨by omega, ?_⟩
  unfold monthNo
  omega

variable (hm0 : 1 ≤ (protoOf tgt rr).m ∧ (protoOf tgt rr).m ≤ 12) (hinter : rr.inter < 2147483000)
include hm0 hinter

variable (tgt nti) in
theorem fruitful_month {i : Nat} (hle : (startMonth tgt rr + i * rr.inter) / 12 ≤ 2099) :
    ((mlyLoop (protoOf tgt rr) nti rr).Fruitful
        { y := (protoOf tgt rr).y, m := (protoOf tgt rr).m } i →
      monthListed rr (startMonth tgt rr + i * rr.inter) = true ∧
        MonthYields tgt nti rr (startMonth tgt rr + i * rr.inter)) ∧
      (0 < i * rr.inter → monthListed rr (startMonth tgt rr + i * rr.inter) = true →
        MonthYields tgt nti rr (startMonth tgt rr + i * rr.inter) →
        (mlyLoop (protoOf tgt rr) nti rr).Fruitful
          { y := (protoOf tgt rr).y, m := (protoOf tgt rr).m } i) := by
  have hyfits := (protoOf tgt rr).fits.1
  have horbit := mly_orbit nti (protoOf tgt rr)
    (p := { y := (protoOf tgt rr).y, m := (protoOf tgt rr).m }) hm0 (by dsimp only; omega) hinter i
  have hstep := stepMonths_eq rr { y := (protoOf tgt rr).y, m := (protoOf tgt rr).m } i
    (by unfold startMonth at hle; dsimp only; omega)
  change _ = (startMonth tgt rr + _) / 12 ∧ _ = (startMonth tgt rr + _) % 12 + 1 at hstep
  have hhop : (mlyLoop (protoOf tgt rr) nti rr).hop
      (stepMonths rr.inter i { y := (protoOf tgt rr).y, m := (protoOf tgt rr).m }) =
        !monthListed rr (startMonth tgt rr + i * rr.inter) := by
    change (bui31HasBits rr.mon && !bui31HasBit rr.mon _) = _
    rw [hstep.2]
    unfold monthListed
    rw [Bool.not_or, Bool.not_not]
  have hyield := (mlyLoop_yield tgt nti ho
    (p := stepMonths rr.inter i { y := (protoOf tgt rr).y, m := (protoOf tgt rr).m })
    (by omega) (by omega)).2
  rw [hstep.1, hstep.2] at hyield
  constructor
  · rintro ⟨q, hq, hnohop, hne⟩
    rw [horbit] at hq
    cases hq
    rw [hhop, Bool.not_eq_false'] at hnohop
    obtain ⟨x, hx⟩ := List.exists_mem_of_ne_nil _ hne
    obtain ⟨yd, hyd, -⟩ := (hyield x).mp hx
    exact ⟨hnohop, List.ne_nil_of_mem hyd⟩
  · intro hpos hlisted hyields
    refine ⟨_, horbit, by rw [hhop, hlisted]; rfl, ?_⟩
    obtain ⟨yd, hyd⟩ := List.exists_mem_of_ne_nil _ hyields
    obtain ⟨x, hx⟩ := List.exists_mem_of_ne_nil _ (makeEnum_times (protoOf tgt rr) rr
      ((startMonth tgt rr + i * rr.inter) / 12) (u32OfInt yd / 32 + 1) (u32OfInt yd % 32)
      (protoOf tgt rr).ms)
    have hin : 1901 ≤ (startMonth tgt rr + i * rr.inter) / 12 := by
      unfold startMonth monthNo
      omega
    obtain ⟨hxy, hxm⟩ := month_date ho hr hdom ⟨hin, hle⟩ hyd hx
    have hstart : startMonth tgt rr = 12 * (protoOf tgt rr).y + ((protoOf tgt rr).m - 1) := rfl
    refine List.ne_nil_of_mem ((hyield x).mpr ⟨yd, hyd, hx, not_early ?_⟩)
    generalize i * rr.inter = k at *
    omega

end Run

/-- **An open-ended monthly rule ends where it has no dates left**, as far as the calendar goes, if the
horizon is wide enough for it. -/
theorem months_kept (ho : rr.Open) (hr : rr.Ranged) (hnti : nti < 4294967296)
    (hy0 : 1901 ≤ (protoOf tgt rr).y) (hm0 : 1 ≤ (protoOf tgt rr).m ∧ (protoOf tgt rr).m ≤ 12)
    (hsure : MonthSure tgt rr) : MonthsKept tgt nti rr := by
  obtain ⟨hdom, hsearch, hdays⟩ := hsure
  intro n hdone hlen k hlt hle hmod hlisted hlater hyields
  obtain ⟨hroom, hgone⟩ := clampCount_open nti ho.count hnti
  -- the month is `j` steps away
  obtain ⟨j, hj⟩ := (Nat.modEq_iff_dvd' hlt.le).mp hmod.symm
  have hkj : k = startMonth tgt rr + j * rr.inter := by
    rw [Nat.mul_comm] at hj
    omega
  have hj0 : 0 < j * rr.inter := by omega
  have hinter0 : 0 < rr.inter := Nat.pos_of_mul_pos_left hj0
  have hinter : rr.inter < 2147483000 := by
    have := Nat.le_mul_of_pos_left rr.inter (Nat.pos_of_mul_pos_right hj0)
    omega
  have hin : ∀ i ≤ j, (startMonth tgt rr + i * rr.inter) / 12 ≤ 2099 := by
    intro i hi
    have := Nat.mul_le_mul_right rr.inter hi
    omega
  have hfruit := fun i (hi : i ≤ j) =>
    fruitful_month tgt nti ho hr hdom hy0 hm0 hinter (hin i hi)
  have hworked := worked_eq tgt nti hm0 hinter
  have horbit := mly_orbit nti (protoOf tgt rr)
    (p := { y := (protoOf tgt rr).y, m := (protoOf tgt rr).m }) hm0
    (by have := (protoOf tgt rr).fits.1; dsimp only; omega) hinter
  -- the run is an unlimited one
  have hafter : (rrulFillMly tgt nti rr).after n =
      (mlyLoop (protoOf tgt rr) nti rr).passes (some nti) n
        ((mlyLoop (protoOf tgt rr) nti rr).start { y := (protoOf tgt rr).y, m := (protoOf tgt rr).m }) := by
    have hstart : (rrulFillMly tgt nti rr).start =
        .ok { y := (protoOf tgt rr).y, m := (protoOf tgt rr).m } := by
      unfold rrulFillMly
      dsimp only
      rw [hgone, ho.shift, mlyStart_open _ hm0.1, if_neg (by decide), if_neg (by omega)]
      cases hmon : bui31HasBits rr.mon with
      | false => rfl
      | true => rw [if_pos rfl, if_neg (by omega), if_pos (hsearch hmon)]
    unfold Expander.after Expander.init
    rw [hstart]
    unfold rrulFillMly
    dsimp only
    rw [hroom]
  unfold Expander.events at hlen hlater
  rw [hafter] at hdone hlen hlater
  rw [List.length_map] at hlen
  rw [(Loop.bounded_or_full nti _ n).resolve_right (by omega)] at hdone hlater
  have hfj := (hfruit j le_rfl).2 hj0 (hkj ▸ hlisted) (hkj ▸ hyields)
  obtain ⟨n', hjn, htry, hn'⟩ := Loop.not_left_before (r := 64) rfl hdone (j := j)
    (fun i hi q hq => by
      rw [horbit i] at hq
      cases hq
      have hstep := stepMonths_eq rr { y := (protoOf tgt rr).y, m := (protoOf tgt rr).m } i
        (by have := hin i hi; unfold startMonth at this; dsimp only; omega)
      have hyear := hin i hi
      unfold startMonth at hyear
      dsimp only at hstep
      rw [(mlyLoop_yield _ _ ho (by omega) (by omega)).1]
      decide)
    (fun i hi hf hmany => by
      obtain ⟨hli, hyi⟩ := (hfruit i hi).1 hf
      rw [hworked] at hmany
      obtain ⟨a, ha, hnear, hla, hya⟩ :=
        near_month hr ho.scale hdom hy0 hdays (hin i hi) hli hyi (by omega)
      refine ⟨a, ha, by rw [hworked]; omega, (hfruit a (by omega)).2 ?_ hla hya⟩
      rcases Nat.eq_zero_or_pos a with rfl | hpos
      · omega
      · exact Nat.mul_pos hpos hinter0)
    hfj
  -- so the month has been seen, and what it has was stored
  obtain ⟨q, hq, hhop, hne⟩ := hfj
  obtain ⟨x, hx⟩ := List.exists_mem_of_ne_nil _ hne
  have hstored := htry.stored j hjn q hq hhop x hx
  have hmem := (Loop.prefix_passes none _ hn'.le).subset hstored
  have hxk := hlater _ (List.mem_map_of_mem hmem)
  rw [horbit j] at hq
  cases hq
  obtain ⟨hxy, hxm⟩ := month_stored ho hr hdom hy0 (hin j le_rfl) hx
  have hev : monthNo ((mlyLoop (protoOf tgt rr) nti rr).entry (stepMonths rr.inter j
      { y := (protoOf tgt rr).y, m := (protoOf tgt rr).m }) x).ev.y
      ((mlyLoop (protoOf tgt rr) nti rr).entry (stepMonths rr.inter j
        { y := (protoOf tgt rr).y, m := (protoOf tgt rr).m }) x).ev.m = monthNo x.y x.m := by
    change monthNo (echsInstantAttachScale x rr.scale).y (echsInstantAttachScale x rr.scale).m = _
    have hfits := x.fits
    rw [ho.scale]
    unfold echsInstantAttachScale Instant.pack Scale.num
    dsimp only
    congr 1 <;> omega
  omega

/-- A rule for all months has them. -/
theorem precedented_monthly (hmon : bui31HasBits rr.mon = false) (hinter : rr.inter = 1) {k0 : Nat}
    (hk0 : 1901 ≤ k0 / 12) : Precedented rr k0 := by
  have hlisted : ∀ k, monthListed rr k = true := by
    intro k
    unfold monthListed
    rw [hmon]
    rfl
  have htried : ∀ i j, monthsTried rr k0 i j = j - i := by
    intro i j
    unfold monthsTried
    simp only [hlisted, Nat.count_true]
  intro i _ hle hmany
  rw [htried] at hmany
  rw [hinter, Nat.mul_one] at hle ⊢
  obtain ⟨⟨s, hs1, hs62, hbegin⟩, t, ht1, ht62, hend⟩ := like_before (k := k0 + i) (by omega)
  refine ⟨⟨i - s, by omega, ?_, hlisted _, ?_⟩, i - t, by omega, ?_, hlisted _, ?_⟩
  · rw [htried]
    omega
  · rwa [Nat.mul_one, show k0 + (i - s) = k0 + i - s by omega]
  · rw [htried]
    omega
  · rwa [Nat.mul_one, show k0 + (i - t) = k0 + i - t by omega]

/-- **How far ahead open-ended rules are followed.**  A yearly rule that Easter does not thin out, and a
monthly one that the horizon is wide enough for, return fewer events than there is room for only
where no later period that INTERVAL leads to has a date, up to 2099. -/
theorem horizon_kept (ho : rr.Open) (hr : rr.Ranged) (hnti : nti < 4294967296)
    (hy0 : 1901 ≤ (protoOf tgt rr).y) :
    (EasterFree rr → YearsKept tgt nti rr) ∧
      (1 ≤ (protoOf tgt rr).m ∧ (protoOf tgt rr).m ≤ 12 → MonthSure tgt rr → MonthsKept tgt nti rr) :=
  ⟨years_kept ho hr hnti hy0, fun hm0 hsure => months_kept ho hr hnti hy0 hm0 hsure⟩

theorem snarfRrule_fifthFriday :
    snarfRrule "FREQ=MONTHLY;BYDAY=5FR".toList = { freq := .monthly, dow := .native [45] } := by decide +kernel

theorem snarfRrule_easter : snarfRrule "FREQ=YEARLY;BYEASTER=0;BYMONTH=3;BYMONTHDAY=23".toList =
    { freq := .yearly, easter := .native [0], mon := 7, dom := ⟨1, 23⟩ } := by decide +kernel

/-- Every fifth Friday. -/
theorem horizon_kept_fifthFriday :
    (EasterFree { freq := .monthly, dow := .native [45] } →
        YearsKept (.pack 2024 1 1 0 0 0 echsAllSec) 64 { freq := .monthly, dow := .native [45] }) ∧
      (1 ≤ (protoOf (.pack 2024 1 1 0 0 0 echsAllSec) { freq := .monthly, dow := .native [45] }).m ∧
          (protoOf (.pack 2024 1 1 0 0 0 echsAllSec) { freq := .monthly, dow := .native [45] }).m ≤ 12 →
        MonthSure (.pack 2024 1 1 0 0 0 echsAllSec) { freq := .monthly, dow := .native [45] } →
        MonthsKept (.pack 2024 1 1 0 0 0 echsAllSec) 64 { freq := .monthly, dow := .native [45] }) :=
  horizon_kept ⟨rfl, rfl, rfl, rfl, rfl⟩ (snarfRrule_fifthFriday ▸ snarfRrule_ranged _) (by decide)
    (by decide)

/-- An Easter on the 23rd of March comes in 1913 and then in 2008. -/
theorem horizon_misses_easter :
    ¬ ∀ (s : List Char) (tgt : Instant) (nti : Nat), (snarfRrule s).Open → nti < 4294967296 →
      1901 ≤ (protoOf tgt (snarfRrule s)).y → YearsKept tgt nti (snarfRrule s) := by
  intro h
  have hkept := h "FREQ=YEARLY;BYEASTER=0;BYMONTH=3;BYMONTHDAY=23".toList
    (.pack 1914 1 1 0 0 0 echsAllSec) 64
  rw [snarfRrule_easter] at hkept
  refine hkept ⟨rfl, rfl, rfl, rfl, rfl⟩ (by decide) (by decide) 64 ?_ ?_ 2008 (by decide) (by decide)
    (by decide) ?_ ?_
  · decide +kernel
  · decide +kernel
  · decide +kernel
  · decide +kernel

end Echse
