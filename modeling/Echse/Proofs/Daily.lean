/-
What a daily rule emits.

The loop of `rrul_fill_dly` comes to every INTERVAL-th day and lets a day pass if the rule's
parts list it.  So it emits the times of those days, from the start on and up to UNTIL.
-/
import Echse.Proofs.Grid
import Echse.Proofs.Masks

namespace Echse

open Months (before later)
open FillLoop (Loop Fills)

/-- What a daily rule means for the day `n` days after the start: its times, if the rule lists
the day. -/
def dlyItems (len : Nat → Nat) (rr : Rrulsp) (proto : Instant) (n : Nat) : List Instant :=
  if DayListed rr (weekdayAfter rr.scale proto n) (dateOn len proto n).m (dateOn len proto n).d
      (len (later len proto.monthDay n).1) then
    dayTimes len rr proto n
  else []

/-- The times that `rrul_fill_dly` looks at on that day. -/
def dlyGroups (len : Nat → Nat) (rr : Rrulsp) (proto : Instant) (n : Nat) : List (List Instant) :=
  if DayListed rr (weekdayAfter rr.scale proto n) (dateOn len proto n).m (dateOn len proto n).d
      (len (later len proto.monthDay n).1) then
    [timesOn len rr proto n]
  else []

/-- **What a daily rule means**: the times of every INTERVAL-th day that is listed, for the
first `n` of these days. -/
def dlyListing (rr : Rrulsp) (proto : Instant) (n : Nat) : List Instant :=
  (Loop.listing (fun i => dlyItems (scaleLen rr.scale) rr proto (i * rr.inter)) rr.late n).map
    fun x => echsInstantAttachScale x rr.scale

/-- BYMONTHDAY counts no days from the end of a month. -/
def DaysFromStart (rr : Rrulsp) : Prop := ∀ t ∈ monthDaysOf rr.dom, 0 < t

theorem domListed_congr {dom : Bitint} (h : ∀ t ∈ monthDaysOf dom, 0 < t) {d a b : Nat} (ha : d ≤ a)
    (hb : d ≤ b) : domListed dom d a ↔ domListed dom d b := by
  have hno : ∀ {c : Nat}, d ≤ c → (d : Int) - c - 1 ∉ monthDaysOf dom := by
    intro c hc hmem
    have := h _ hmem
    omega
  unfold domListed
  simp only [hno ha, hno hb]

section Daily

variable {rr : Rrulsp} {tgt : Instant} {nti : Nat}

theorem judgeProto_eq (rr : Rrulsp) (proto x : Instant) :
    judgeProto rr.until_ proto x =
      if echsInstantLtP x proto then .drop else if rr.late x then .fin else .emit := rfl

/-- What `rrul_fill_dly` leaves in the buffer. -/
def dlySlot (rr : Rrulsp) (x : Instant) : Slot :=
  ⟨echsInstantAttachScale x rr.scale, some (echsInstantAttachScale x rr.scale)⟩

variable {len : Nat → Nat} {last : Nat}

/-- The masks let a position pass exactly if the parts of the rule list its day. -/
theorem dayPasses_at (rr : Rrulsp) {proto : Instant} {p0 p : Pos} {n : Nat} (hs : p0.IsStart proto) (hy : 1 ≤ proto.y)
    (h0 : p0.On (echsScaleNdim rr.scale) len) (hon : p.On (echsScaleNdim rr.scale) len)
    (hle : ∀ j, len j ≤ lenOf (echsScaleNdim rr.scale) j) (hno : p.dayNo len = p0.dayNo len + n)
    (hw : p.w = wdayFrom (echsScaleWday rr.scale proto.y proto.m proto.d) n)
    (hcal : LengthsTo (echsScaleNdim rr.scale) len (DaysFromStart rr) p0.month last)
    (hlast : p.dayNo len ≤ last) :
    dayPasses (wdMaskAll rr.dow) (mMaskOf rr.mon) (dMasksOf rr.dom) p = true ↔
      DayListed rr (weekdayAfter rr.scale proto n) (dateOn len proto n).m (dateOn len proto n).d
        (len (later len proto.monthDay n).1) := by
  have hm := hon.month
  have hday := hon.day
  obtain ⟨hlater, hdate⟩ := dateOn_eq hs h0 hon hno hcal hlast
  have hw' : p.w = weekdayAfter rr.scale proto n := by
    rw [hw]
    exact weekdayAfter_eq hy (hs.m ▸ h0.month) n
  have hmaxd : p.maxd = lenOf (echsScaleNdim rr.scale) p.month := by
    rw [hon.maxd]
    exact (lenOf_monthNo _ hm.1 hm.2).symm
  have hle' := hle p.month
  have hd2 : p.d ≤ len p.month := hday.2
  have h31 := (lenOf_range (regularLen_scale rr.scale)
    (Nat.lt_of_lt_of_le (hday.1.trans hday.2) hle')).2
  have hlisted : DayListed rr p.w p.m p.d p.maxd ↔
      DayListed rr (weekdayAfter rr.scale proto n) p.m p.d (len p.month) := by
    rw [hw', hmaxd]
    have hbefore : before len p.month < last := by
      have hno' : p.dayNo len = before len p.month + p.d := rfl
      have := hday.1
      omega
    rcases hcal.same p.month (month_le_of_dayNo h0 hon (by omega)) hbefore with heq | ⟨hpart, -⟩
    · rw [heq]
    · have hdom := domListed_congr hpart (hd2.trans hle') hd2
      exact ⟨fun ⟨h1, h2, h3⟩ => ⟨h1, h2, hdom.mp h3⟩, fun ⟨h1, h2, h3⟩ => ⟨h1, h2, hdom.mpr h3⟩⟩
  rw [dayPasses_iff rr (hw ▸ wdayFrom_range _ _) hm ⟨hday.1, by omega⟩ (by omega), hlisted, hdate, hlater]
  rfl

/-- A position stores the items of its day. -/
theorem dly_stores {proto : Instant} {p0 p : Pos} {n : Nat} (hs : p0.IsStart proto) (hy : 1 ≤ proto.y)
    (h0 : p0.On (echsScaleNdim rr.scale) len) (hon : p.On (echsScaleNdim rr.scale) len)
    (hle : ∀ j, len j ≤ lenOf (echsScaleNdim rr.scale) j) (hno : p.dayNo len = p0.dayNo len + n)
    (hw : p.w = wdayFrom (echsScaleWday rr.scale proto.y proto.m proto.d) n)
    (hcal : LengthsTo (echsScaleNdim rr.scale) len (DaysFromStart rr) p0.month last)
    (hlast : p.dayNo len ≤ last) :
    (dlyLoop proto rr).groups p = (dlyGroups len rr proto n).map some ∧
      (dlyLoop proto rr).StoresUpTo rr.late p (dlyItems len rr proto n) ∧
      (dlyLoop proto rr).EndsLate rr.late p (dlyItems len rr proto n) := by
  have hdate := (dateOn_eq hs h0 hon hno hcal hlast).2
  have hpass := dayPasses_at rr hs hy h0 hon hle hno hw hcal hlast
  have hgroups : (dlyLoop proto rr).groups p = (dlyGroups len rr proto n).map some := by
    unfold dlyGroups
    change (if _ then _ else _) = _
    rw [if_congr hpass rfl rfl]
    unfold timesOn
    rw [hdate]
    split <;> rfl
  have hitems : dlyItems len rr proto n = notBefore proto (dlyGroups len rr proto n).flatten := by
    unfold dlyItems dlyGroups dayTimes
    split
    · rw [List.flatten_singleton]
    · rfl
  rw [hitems]
  exact ⟨hgroups, Loop.stores_sifted (judgeProto_eq rr proto) hgroups⟩

/-- Where `rrul_fill_dly` starts. -/
def dlyStart (rr : Rrulsp) (proto : Instant) : Pos where
  y := proto.y
  m := proto.m
  d := proto.d
  w := echsScaleWday rr.scale proto.y proto.m proto.d
  maxd := echsScaleNdim rr.scale proto.y proto.m

/-- The positions of `rrul_fill_dly` from there on. -/
theorem dlyLoop_at (rr : Rrulsp) (proto : Instant) (hy : 1 ≤ proto.y) (hm : 1 ≤ proto.m ∧ proto.m ≤ 12)
    (hday : Months.Valid len proto.monthDay.1 proto.monthDay.2)
    (hle : ∀ j, len j ≤ lenOf (echsScaleNdim rr.scale) j) (hinter : rr.inter ≤ 28) {n : Nat}
    (hcal : LengthsTo (echsScaleNdim rr.scale) len (DaysFromStart rr) proto.monthDay.1
      (proto.dayNoIn len + (n - 1) * rr.inter)) :
    ∀ i < n, ∃ p, (dlyLoop proto rr).orbit (dlyStart rr proto) i = some p ∧
      (dlyLoop proto rr).groups p = (dlyGroups len rr proto (i * rr.inter)).map some ∧
      (dlyLoop proto rr).StoresUpTo rr.late p (dlyItems len rr proto (i * rr.inter)) ∧
      (dlyLoop proto rr).EndsLate rr.late p (dlyItems len rr proto (i * rr.inter)) := by
  intro i hi
  have hs : (dlyStart rr proto).IsStart proto := ⟨rfl, rfl, rfl⟩
  have h0 : (dlyStart rr proto).On (echsScaleNdim rr.scale) len := ⟨hm, rfl, hday⟩
  rw [← hs.month, ← hs.dayNo len] at hcal
  have hlast : (dlyStart rr proto).dayNo len + i * rr.inter ≤
      (dlyStart rr proto).dayNo len + (n - 1) * rr.inter :=
    Nat.add_le_add_left (Nat.mul_le_mul_right _ (by omega)) _
  obtain ⟨p, hp, hon, hno, hwp⟩ := orbit_days (L := dlyLoop proto rr)
    (W := fun k p => p.w = wdayFrom (echsScaleWday rr.scale proto.y proto.m proto.d) k) hinter
    (regularLen_scale rr.scale) hle
    (fun k p hon hwp hfit => by
      obtain ⟨q, hq, hmv, hwq, -⟩ := dlyStep_spec hle hon (hwp ▸ wdayFrom_range _ _) hfit
      exact ⟨q, hq, hmv, by rw [hwq, hwp, wdayFrom_add]⟩)
    h0 (wdayFrom_zero (echsScaleWday_range _ _ _ _)).symm hcal i hlast
  exact ⟨p, hp, dly_stores hs hy h0 hon hle hno hwp hcal (by omega)⟩

theorem dlyLoop_plain (proto : Instant) (rr : Rrulsp) : (dlyLoop proto rr).Plain :=
  ⟨fun _ => rfl, rfl⟩

/-- **What a daily rule emits** is what it means, as long as the month lengths are the
calendar's up to the last day looked at. -/
theorem rrulFillDly_exact (hinter : 1 ≤ rr.inter ∧ rr.inter ≤ 28)
    (hplain : rr.inter = 1 → plainDays rr.dow = []) (hvalid : Tick.day.ValidStart tgt rr) (nti n : Nat)
    (hcal : LengthsTo (echsScaleNdim rr.scale) (scaleLen rr.scale) (DaysFromStart rr)
      (protoOf tgt rr).monthDay.1
      ((protoOf tgt rr).dayNoIn (scaleLen rr.scale) + (n - 1) * rr.inter)) :
    Fills (clampCount rr nti) ((rrulFillDly tgt nti rr).events n)
      (dlyListing rr (protoOf tgt rr) n) := by
  have hown : (maskPlain (wdMaskOf rr.dow) && rr.inter == 1) = false := by
    by_cases h1 : rr.inter = 1
    · have hno : maskPlain (wdMaskOf rr.dow) = false :=
        Bool.eq_false_iff.mpr fun hp => (maskPlain_wdMaskOf rr.dow).mp hp (hplain h1)
      rw [hno, Bool.false_and]
    · rw [Bool.and_eq_false_imp]
      intro _
      simpa using h1
  rw [Tick.rrulFillDly_eq tgt nti hown]
  have hbad : badDate (protoOf tgt rr) = false := hvalid.badDate
  by_cases hgone : countGone rr nti = true
  · rw [Expander.events_of_error (w := .done) (by simp [hgone]), clampCount_of_gone hgone]
    exact ⟨List.nil_prefix, Or.inr (Nat.zero_le _)⟩
  · have hat := dlyLoop_at rr (protoOf tgt rr) hvalid.year hvalid.month hvalid.day
      (scaleLen_le rr.scale) hinter.2 hcal
    have hfills := (Loop.passes_listing (dlyLoop_plain (protoOf tgt rr) rr) (e := dlySlot rr)
      (fun _ _ => rfl) (clampCount rr nti) n fun i hi => by
        obtain ⟨p, hp, -, hst, hend⟩ := hat i hi
        exact ⟨p, hp, hst, Or.inl hend⟩).map Slot.ev
    rw [List.map_map] at hfills
    rw [hbad, Bool.or_false]
    unfold Expander.events Expander.after Expander.init
    rw [if_neg hgone]
    exact hfills

end Daily

theorem snarfRrule_weeks :
    snarfRrule "FREQ=DAILY;INTERVAL=28".toList = { freq := .daily, inter := 28 } := by decide

/-- Every fourth week from New Year's Eve on. -/
theorem rrulFillDly_exact_weeks :
    Fills 64
      ((rrulFillDly (.pack 1999 12 31 0 0 0 echsAllSec) 64 { freq := .daily, inter := 28 }).events 4)
      (dlyListing { freq := .daily, inter := 28 }
        (protoOf (.pack 1999 12 31 0 0 0 echsAllSec) { freq := .daily, inter := 28 }) 4) := by
  refine rrulFillDly_exact (by decide) (by decide)
    ⟨by decide, by decide, ⟨by decide, by decide⟩, by decide⟩ 64 4 ?_
  generalize hrr : ({ freq := .daily, inter := 28 } : Rrulsp) = rr
  have hproto : protoOf (.pack 1999 12 31 0 0 0 echsAllSec) rr = .pack 1999 12 31 0 0 0 echsAllSec := by
    rw [← hrr]
    decide
  have hinter : (4 - 1) * rr.inter = 84 := by
    rw [← hrr]
    rfl
  rw [hproto, hinter]
  refine lengthsTo_start (by rw [← hrr]) _ (by decide) ?_
  rw [Gregorian.dayNo_closed _ (by decide) (by decide),
    Gregorian.dayNo_closed 2100 (by decide) (by decide)]
  decide

set_option maxRecDepth 2000 in
/-- In 2100 there is no 29th of February. -/
theorem dly_leaps_2100 :
    ¬ ∀ (s : List Char) (tgt : Instant) (nti n : Nat),
      2 ≤ (snarfRrule s).inter → (snarfRrule s).inter ≤ 28 →
      Tick.day.ValidStart tgt (snarfRrule s) → 1901 ≤ tgt.y → tgt.y ≤ 2099 →
      Fills (clampCount (snarfRrule s) nti) ((rrulFillDly tgt nti (snarfRrule s)).events n)
        (dlyListing (snarfRrule s) (protoOf tgt (snarfRrule s)) n) := by
  intro h
  have hfills := h "FREQ=DAILY;INTERVAL=28".toList (.pack 2099 12 31 0 0 0 echsAllSec) 64 4
  rw [snarfRrule_weeks] at hfills
  have hcode : (rrulFillDly (.pack 2099 12 31 0 0 0 echsAllSec) 64
      { freq := .daily, inter := 28 }).events 4
      = [.pack 2099 12 31 0 0 0 echsAllSec, .pack 2100 1 28 0 0 0 echsAllSec,
        .pack 2100 2 25 0 0 0 echsAllSec, .pack 2100 3 24 0 0 0 echsAllSec] := by decide
  have hmeant : dlyListing { freq := .daily, inter := 28 }
      (protoOf (.pack 2099 12 31 0 0 0 echsAllSec) { freq := .daily, inter := 28 }) 4
      = [.pack 2099 12 31 0 0 0 echsAllSec, .pack 2100 1 28 0 0 0 echsAllSec,
        .pack 2100 2 25 0 0 0 echsAllSec, .pack 2100 3 25 0 0 0 echsAllSec] := by decide
  have hno := hfills (by decide) (by decide)
    ⟨by decide, by decide, ⟨by decide, by decide⟩, by decide⟩ (by decide) (by decide)
  rw [hcode, hmeant] at hno
  revert hno
  unfold Fills
  decide

end Echse
