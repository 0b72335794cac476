/-
What a weekly rule emits.

Each pass of `rrul_fill_wly` goes through the selected days of seven, from the start's weekday
on.  It leaves these days at the first one in a month that BYMONTH does not list.
-/
import Echse.Proofs.Daily
import Echse.Proofs.Weeks

namespace Echse

open Months (before later)
open FillLoop (Loop Fills)

/-- BYMONTH lists a month, or none. -/
def MonthListed (mon m : Nat) : Prop := bui31List mon = [] ∨ m ∈ bui31List mon

instance (mon m : Nat) : Decidable (MonthListed mon m) := inferInstanceAs (Decidable (_ ∨ _))

/-- The weekday of the start. -/
def protoWday (rr : Rrulsp) (proto : Instant) : Nat :=
  echsScaleWday rr.scale proto.y proto.m proto.d

/-- The times of the selected days of the week that begins `n` days after the start. -/
def weekTimes (len : Nat → Nat) (rr : Rrulsp) (proto : Instant) (n : Nat) : List Instant :=
  (weekDays rr.dow (protoWday rr proto)).flatMap fun o => dayTimes len rr proto (n + o)

/-- What `rrul_fill_wly` makes of them: all up to the first in an unlisted month. -/
def wlyItems (len : Nat → Nat) (rr : Rrulsp) (proto : Instant) (n : Nat) : List Instant :=
  (weekTimes len rr proto n).takeWhile fun x => maskHas (mMaskOf rr.mon) x.m

/-- What `rrul_fill_wly` leaves in the buffer. -/
def wlySlot (rr : Rrulsp) (x : Instant) : Slot := ⟨echsInstantAttachScale x rr.scale, none⟩

section Weekly

variable {rr : Rrulsp} {proto : Instant} {nti : Nat} {len : Nat → Nat} {part : Prop} {last : Nat}

theorem wlyJudge_eq (rr : Rrulsp) (proto x : Instant) :
    wlyJudge rr proto x =
      if echsInstantLtP x proto then .drop else if rr.late x then .fin
      else if !maskHas (mMaskOf rr.mon) x.m then .skip else .emit := rfl

theorem notBefore_flatMap {ι : Type} (proto : Instant) (f : ι → List Instant) (os : List ι) :
    notBefore proto (os.flatMap f) = os.flatMap fun o => notBefore proto (f o) := by
  unfold notBefore
  rw [List.filter_flatMap]

theorem weekDays_lt {dow : Bitints} {w o : Nat} (h : o ∈ weekDays dow w) : o < 7 := maskDays_lt h

/-- A position stores the items of its week.  If it ends without a late item among them, then a
day of the week is late. -/
theorem wly_stores {p0 p : Pos} {n : Nat} (hs : p0.IsStart proto)
    (h0 : p0.On (echsScaleNdim rr.scale) len) (hon : p.On (echsScaleNdim rr.scale) len)
    (hle : ∀ j, len j ≤ lenOf (echsScaleNdim rr.scale) j) (hno : p.dayNo len = p0.dayNo len + n)
    (hcal : LengthsTo (echsScaleNdim rr.scale) len part p0.month last)
    (hlast : p.dayNo len + 6 ≤ last) :
    (wlyLoop proto rr).groups p =
        ((weekDays rr.dow (protoWday rr proto)).map fun o => timesOn len rr proto (n + o)).map some ∧
      (wlyLoop proto rr).StoresUpTo rr.late p (wlyItems len rr proto n) ∧
      ((wlyLoop proto rr).EndsLate rr.late p (wlyItems len rr proto n) ∨
        ∃ o < 7, ∃ x ∈ timesOn len rr proto (n + o), rr.late x = true) := by
  have hreg := regularLen_scale rr.scale
  have hmonth := month_le_of_dayNo h0 hon (by omega)
  have hd2 : p.d ≤ len p.month := hon.day.2
  have h31 := (lenOf_range hreg
    (Nat.lt_of_lt_of_le (hon.day.1.trans hon.day.2) (hle p.month))).2
  have hin : p.InMonth (echsScaleNdim rr.scale) :=
    ⟨hon.month, hon.maxd, by have := hle p.month; omega⟩
  -- the days of the week
  have hday : ∀ o ∈ weekDays rr.dow (protoWday rr proto), ∃ q,
      p.day (echsScaleNdim rr.scale) o = some q ∧ q.date = dateOn len proto (n + o) := by
    intro o ho
    have ho7 := weekDays_lt ho
    obtain ⟨q, hq, -, hon', hno', -⟩ := carry_spec id hle hon
      (hcal.daysFit hreg hle hon hmonth (k := o) (by omega) (by omega))
      (r := { p with d := p.d + o }) rfl (Or.inl rfl)
    exact ⟨q, hq, (dateOn_eq (n := n + o) hs h0 hon' (by omega) hcal (by omega)).2.symm⟩
  have hgroups : (wlyLoop proto rr).groups p =
      ((weekDays rr.dow (protoWday rr proto)).map fun o => timesOn len rr proto (n + o)).map some := by
    change wlyDates _ _ _ 16 (wlyIncs rr.dow (protoWday rr proto)) p = _
    rw [wlyDates_eq hreg _ _ _ _ hin fun o ho => by
      obtain ⟨q, hq, -⟩ := hday o ho
      rw [hq]
      simp, List.map_map]
    refine List.map_congr_left fun o ho => ?_
    obtain ⟨q, hq, hdate⟩ := hday o ho
    rw [hq, Function.comp_apply]
    unfold timesOn
    rw [← hdate]
    rfl
  have hflat : ((weekDays rr.dow (protoWday rr proto)).map fun o =>
      timesOn len rr proto (n + o)).flatten =
      (weekDays rr.dow (protoWday rr proto)).flatMap fun o => timesOn len rr proto (n + o) :=
    List.flatMap_def.symm
  have hgather := Loop.gather_somes (L := wlyLoop proto rr)
    ((weekDays rr.dow (protoWday rr proto)).map fun o => timesOn len rr proto (n + o))
  rw [← hgroups, hflat] at hgather
  obtain ⟨h1, h2, h3⟩ := Loop.taken_limited (L := wlyLoop proto rr) (wlyJudge_eq rr proto)
    ((weekDays rr.dow (protoWday rr proto)).flatMap fun o => timesOn len rr proto (n + o))
  have hitems : wlyItems len rr proto n =
      (notBefore proto ((weekDays rr.dow (protoWday rr proto)).flatMap fun o =>
        timesOn len rr proto (n + o))).takeWhile fun x => maskHas (mMaskOf rr.mon) x.m := by
    rw [notBefore_flatMap]
    rfl
  rw [hitems]
  refine ⟨hgroups, ⟨by rw [hgather]; exact h1, by rw [hgather]; exact Loop.sig_ne_trap _⟩, ?_⟩
  unfold Loop.EndsLate
  rw [hgather]
  by_cases hsome : ∃ x ∈ (notBefore proto ((weekDays rr.dow (protoWday rr proto)).flatMap fun o =>
      timesOn len rr proto (n + o))).takeWhile (fun x => maskHas (mMaskOf rr.mon) x.m),
      rr.late x = true
  · exact Or.inl ⟨fun _ => hsome, fun _ => h2 hsome⟩
  · by_cases hfin : (wlyLoop proto rr).sig ((weekDays rr.dow (protoWday rr proto)).flatMap fun o =>
        timesOn len rr proto (n + o)) = .fin
    · obtain ⟨x, hx, hl⟩ := h3 hfin
      obtain ⟨o, ho, hx⟩ := List.mem_flatMap.mp hx
      exact Or.inr ⟨o, weekDays_lt ho, x, hx, hl⟩
    · exact Or.inl ⟨fun h => absurd h hfin, fun h => absurd h hsome⟩

theorem mem_wlyItems {n : Nat} {x : Instant} (h : x ∈ wlyItems len rr proto n) :
    ∃ o < 7, x ∈ timesOn len rr proto (n + o) := by
  have hx := (List.takeWhile_prefix _).subset h
  obtain ⟨o, ho, hx⟩ := List.mem_flatMap.mp hx
  exact ⟨o, weekDays_lt ho, (List.mem_filter.mp hx).1⟩

theorem wlyLoop_plain (proto : Instant) (rr : Rrulsp) : (wlyLoop proto rr).Plain :=
  ⟨fun _ => rfl, rfl⟩

/-- Where `rrul_fill_wly` starts. -/
def wlyStart (rr : Rrulsp) (proto : Instant) : Pos where
  y := proto.y
  m := proto.m
  d := proto.d
  maxd := echsScaleNdim rr.scale proto.y proto.m

/-- The positions of `rrul_fill_wly` from there on. -/
theorem wlyLoop_at (rr : Rrulsp) (proto : Instant) (hm : 1 ≤ proto.m ∧ proto.m ≤ 12)
    (hvalid : Months.Valid len proto.monthDay.1 proto.monthDay.2)
    (hle : ∀ j, len j ≤ lenOf (echsScaleNdim rr.scale) j) (hinter : 1 ≤ rr.inter ∧ rr.inter ≤ 4)
    {k : Nat}
    (hcal : LengthsTo (echsScaleNdim rr.scale) len part proto.monthDay.1
      (proto.dayNoIn len + (k - 1) * (7 * rr.inter) + 6)) :
    ∀ i < k, ∃ p, (wlyLoop proto rr).orbit (wlyStart rr proto) i = some p ∧
      (wlyLoop proto rr).groups p = ((weekDays rr.dow (protoWday rr proto)).map fun o =>
        timesOn len rr proto (i * (7 * rr.inter) + o)).map some ∧
      (wlyLoop proto rr).StoresUpTo rr.late p (wlyItems len rr proto (i * (7 * rr.inter))) ∧
      ((wlyLoop proto rr).EndsLate rr.late p (wlyItems len rr proto (i * (7 * rr.inter))) ∨
        ∀ j < k, i < j → ∀ x ∈ wlyItems len rr proto (j * (7 * rr.inter)), rr.late x = true) := by
  intro i hi
  have hs : (wlyStart rr proto).IsStart proto := ⟨rfl, rfl, rfl⟩
  have h0 : (wlyStart rr proto).On (echsScaleNdim rr.scale) len := ⟨hm, rfl, hvalid⟩
  have hcal' := hcal
  rw [← hs.month, ← hs.dayNo len] at hcal'
  have hreg := regularLen_scale rr.scale
  have hlast : ∀ i < k, i * (7 * rr.inter) ≤ (k - 1) * (7 * rr.inter) := fun i hi =>
    Nat.mul_le_mul_right _ (by omega)
  obtain ⟨p, hp, hon, hno, -⟩ := orbit_days (L := wlyLoop proto rr) (W := fun _ _ => True)
    (c := 7 * rr.inter) (by omega) hreg hle
    (fun n p hon _ hfit => by
      obtain ⟨q, hq, hmv, -⟩ := wlyStep_spec hle hon hfit
      exact ⟨q, hq, hmv, trivial⟩)
    h0 trivial hcal' i (by have := hlast i hi; omega)
  obtain ⟨hgroups, hst, hend⟩ := wly_stores hs h0 hon hle hno hcal' (by have := hlast i hi; omega)
  refine ⟨p, hp, hgroups, hst, hend.imp_right ?_⟩
  rintro ⟨o, ho, x, hx, hl⟩ j hj hij z hz
  obtain ⟨o', ho', hz⟩ := mem_wlyItems hz
  have hlt : i * (7 * rr.inter) + o < j * (7 * rr.inter) + o' := by
    have h1 := Nat.mul_le_mul_right (7 * rr.inter) (Nat.succ_le_of_lt hij)
    rw [Nat.succ_mul] at h1
    omega
  have hj' := hlast j hj
  obtain ⟨hfits, -, hord⟩ := dateOn_lt hvalid hreg hle hcal (n := j * (7 * rr.inter) + o') (by omega)
  have hfits' := (dateOn_lt hvalid hreg hle hcal (n := i * (7 * rr.inter) + o) (by omega)).1
  exact Rrulsp.late_of_lt (key_lt_of_day hfits' hfits (hord _ hlt) hx hz) hl

/-! ### What a weekly rule means -/

/-- What a weekly rule means for the day `n` days after the start: its times, if its weekday
and its month are listed and its week, from Monday on, is a multiple of INTERVAL weeks from
that of the start. -/
def wlyDayItems (len : Nat → Nat) (rr : Rrulsp) (proto : Instant) (n : Nat) : List Instant :=
  if (weekdayAfter rr.scale proto n : Int) ∈ plainDays rr.dow ∧
      MonthListed rr.mon (dateOn len proto n).m ∧
      (weekdayAfter rr.scale proto 0 - 1 + n) / 7 % rr.inter = 0 then
    dayTimes len rr proto n
  else []

/-- **What a weekly rule means**: the times of the listed days among the first `n` ones. -/
def wlyListing (rr : Rrulsp) (proto : Instant) (n : Nat) : List Instant :=
  (Loop.listing (wlyDayItems (scaleLen rr.scale) rr proto) rr.late n).map
    fun x => echsInstantAttachScale x rr.scale

/-- In the week that begins `n` days after the start no listed day is preceded by a selected one
in an unlisted month. -/
def NoneSkipped (len : Nat → Nat) (rr : Rrulsp) (proto : Instant) (n : Nat) : Prop :=
  ∀ b ∈ weekDays rr.dow (protoWday rr proto), MonthListed rr.mon (dateOn len proto (n + b)).m →
    ∀ a ∈ weekDays rr.dow (protoWday rr proto), a < b → dayTimes len rr proto (n + a) ≠ [] →
      MonthListed rr.mon (dateOn len proto (n + a)).m

/-- Blocks whose items are kept or not as a whole: what is left are the ones before the first
that is not to be kept. -/
theorem takeWhile_flatMap {α : Type} {keep : α → Bool} {ok : Nat → Prop} [DecidablePred ok]
    {f : Nat → List α} {os : List Nat} (hsort : os.Pairwise (· < ·))
    (hkeep : ∀ o ∈ os, ∀ x ∈ f o, keep x = true ↔ ok o) :
    (os.flatMap f).takeWhile keep =
      os.flatMap fun o => if ∀ a ∈ os, a ≤ o → f a ≠ [] → ok a then f o else [] := by
  induction os with
  | nil => rfl
  | cons o os ih =>
      obtain ⟨hlt, hsort'⟩ := List.pairwise_cons.mp hsort
      have hrest := ih hsort' fun a ha => hkeep a (List.mem_cons_of_mem _ ha)
      have hfirst : ∀ b ∈ os, (∀ a ∈ o :: os, a ≤ b → f a ≠ [] → ok a) ↔
          (f o ≠ [] → ok o) ∧ ∀ a ∈ os, a ≤ b → f a ≠ [] → ok a := by
        intro b hb
        rw [List.forall_mem_cons]
        exact and_congr_left fun _ => ⟨fun h => h (hlt b hb).le, fun h _ => h⟩
      have hself : (∀ a ∈ o :: os, a ≤ o → f a ≠ [] → ok a) ↔ (f o ≠ [] → ok o) := by
        rw [List.forall_mem_cons]
        refine ⟨fun h => h.1 le_rfl, fun h => ⟨fun _ => h, fun a ha hle => ?_⟩⟩
        have := hlt a ha
        omega
      rw [List.flatMap_cons, List.flatMap_cons, if_congr hself rfl rfl,
        List.flatMap_congr fun b hb => if_congr (hfirst b hb) rfl rfl]
      by_cases hok : f o ≠ [] → ok o
      · rw [if_pos hok, List.flatMap_congr fun b _ => if_congr (and_iff_right hok) rfl rfl]
        by_cases hnil : f o = []
        · rw [hnil, List.nil_append, List.nil_append, hrest]
        · rw [List.takeWhile_append_of_pos fun x hx =>
            (hkeep o List.mem_cons_self x hx).mpr (hok hnil), hrest]
      · rw [if_neg hok]
        obtain ⟨hne, hno⟩ := Classical.not_imp.mp hok
        obtain ⟨x, xs, hf⟩ := List.exists_cons_of_ne_nil hne
        have hx : keep x = false := by
          refine Bool.eq_false_iff.mpr fun h => hno ?_
          exact (hkeep o List.mem_cons_self x (by rw [hf]; exact List.mem_cons_self)).mp h
        have hrest : os.flatMap (fun b => if (f o ≠ [] → ok o) ∧ (∀ a ∈ os, a ≤ b → f a ≠ [] → ok a)
            then f b else []) = [] :=
          List.flatMap_eq_nil_iff.mpr fun b _ => if_neg fun h => hok h.1
        rw [hrest, hf, List.cons_append, List.takeWhile_cons_of_neg (by simp [hx])]
        rfl

theorem maskDays_eq_filter (mask : Nat) :
    maskDays mask = (List.range 7).filter fun r => r ∈ maskDays mask := by
  unfold maskDays
  split
  · decide
  · refine List.filter_congr fun r hr => ?_
    simp [List.mem_range.mp hr]

theorem flatMap_filter {α β : Type} (p : α → Bool) (f : α → List β) (xs : List α) :
    (xs.filter p).flatMap f = xs.flatMap fun x => if p x then f x else [] := by
  induction xs with
  | nil => rfl
  | cons x xs ih =>
      rw [List.filter_cons, List.flatMap_cons, ← ih]
      split <;> simp

theorem flatMap_weekDays {α : Type} (dow : Bitints) (w : Nat) (f : Nat → List α) :
    (weekDays dow w).flatMap f =
      (List.range 7).flatMap fun r => if r ∈ weekDays dow w then f r else [] := by
  conv => lhs; rw [weekDays, maskDays_eq_filter, flatMap_filter]
  simp only [decide_eq_true_eq]
  rfl

/-- A range in blocks. -/
theorem flatMap_range_mul {α : Type} (f : Nat → List α) (c k : Nat) :
    (List.range (k * c)).flatMap f =
      (List.range k).flatMap fun j => (List.range c).flatMap fun r => f (j * c + r) := by
  induction k with
  | zero => simp
  | succ k ih =>
      rw [Nat.succ_mul, List.range_add, List.flatMap_append, ih, List.range_succ,
        List.flatMap_append, List.flatMap_singleton, List.flatMap_map]

theorem month_of_timesOn {n : Nat} {x : Instant} (h : (dateOn len proto n).Fits)
    (hx : x ∈ timesOn len rr proto n) : x.m = (dateOn len proto n).m := by
  have hdate := Enum.date_times h hx
  rw [← hdate]
  rfl

/-- A week's items are those of its days before the first one in an unlisted month. -/
theorem wlyItems_eq {n : Nat}
    (hdates : ∀ o < 7, (dateOn len proto (n + o)).Fits ∧
      1 ≤ (dateOn len proto (n + o)).m ∧ (dateOn len proto (n + o)).m ≤ 12) :
    wlyItems len rr proto n =
      (weekDays rr.dow (protoWday rr proto)).flatMap fun o =>
        if ∀ a ∈ weekDays rr.dow (protoWday rr proto), a ≤ o → dayTimes len rr proto (n + a) ≠ [] →
            MonthListed rr.mon (dateOn len proto (n + a)).m then
          dayTimes len rr proto (n + o)
        else [] := by
  unfold wlyItems weekTimes
  refine takeWhile_flatMap (weekDays_sorted _ _) fun o ho x hx => ?_
  obtain ⟨hfits, hm⟩ := hdates o (weekDays_lt ho)
  rw [month_of_timesOn hfits (List.mem_filter.mp hx).1]
  exact testBit_mMaskOf rr.mon hm

/-- If none is skipped, they are those of the days in listed months. -/
theorem wlyItems_of_none {n : Nat}
    (hdates : ∀ o < 7, (dateOn len proto (n + o)).Fits ∧
      1 ≤ (dateOn len proto (n + o)).m ∧ (dateOn len proto (n + o)).m ≤ 12)
    (hskip : NoneSkipped len rr proto n) :
    wlyItems len rr proto n =
      (weekDays rr.dow (protoWday rr proto)).flatMap fun o =>
        if MonthListed rr.mon (dateOn len proto (n + o)).m then dayTimes len rr proto (n + o)
        else [] := by
  rw [wlyItems_eq hdates]
  refine List.flatMap_congr fun o ho => ?_
  by_cases hnil : dayTimes len rr proto (n + o) = []
  · rw [hnil, ite_self, ite_self]
  · refine if_congr ⟨fun h => h o ho le_rfl hnil, fun hok a ha hle hne => ?_⟩ rfl rfl
    rcases Nat.eq_or_lt_of_le hle with rfl | hlt
    · exact hok
    · exact hskip o ho hok a ha hlt hne

/-- The days of INTERVAL weeks that a rule means are the selected ones of the first week. -/
theorem wlyDayItems_block (proto : Instant) (hinter : 1 ≤ rr.inter) (hdays : plainDays rr.dow ≠ [])
    (hy : 1 ≤ proto.y) (hm : 1 ≤ proto.m ∧ proto.m ≤ 12)
    (hfirst : rr.inter = 1 ∨ ∀ t ∈ plainDays rr.dow, (protoWday rr proto : Int) ≤ t) (j : Nat) :
    ((List.range (7 * rr.inter)).flatMap fun r =>
        wlyDayItems len rr proto (j * (7 * rr.inter) + r)) =
      (weekDays rr.dow (protoWday rr proto)).flatMap fun o =>
        if MonthListed rr.mon (dateOn len proto (j * (7 * rr.inter) + o)).m then
          dayTimes len rr proto (j * (7 * rr.inter) + o)
        else [] := by
  have hw : 1 ≤ protoWday rr proto ∧ protoWday rr proto ≤ 7 := echsScaleWday_range _ _ _ _
  have hw0 : weekdayAfter rr.scale proto 0 = protoWday rr proto := by
    rw [← weekdayAfter_eq hy hm]
    exact wdayFrom_zero hw
  have hwday : ∀ r, weekdayAfter rr.scale proto (j * (7 * rr.inter) + r) =
      wdayFrom (protoWday rr proto) r := by
    intro r
    rw [← weekdayAfter_eq hy hm]
    change wdayFrom (protoWday rr proto) _ = _
    unfold wdayFrom
    rw [show j * (7 * rr.inter) = 7 * (j * rr.inter) by ring]
    omega
  have hweek : ∀ r, (protoWday rr proto - 1 + (j * (7 * rr.inter) + r)) / 7 % rr.inter =
      (protoWday rr proto - 1 + r) / 7 % rr.inter := by
    intro r
    rw [show protoWday rr proto - 1 + (j * (7 * rr.inter) + r) =
        protoWday rr proto - 1 + r + 7 * (j * rr.inter) by ring,
      Nat.add_mul_div_left _ _ (by decide), Nat.add_mul_mod_self_right]
  -- a selected day is in the right week exactly if it is one of the first seven
  have haligned : ∀ r < 7 * rr.inter, (wdayFrom (protoWday rr proto) r : Int) ∈ plainDays rr.dow →
      ((protoWday rr proto - 1 + r) / 7 % rr.inter = 0 ↔ r < 7) := by
    intro r hr hmem
    rcases hfirst with h1 | hfirst
    · rw [h1, Nat.mod_one]
      omega
    · have hle := hfirst _ hmem
      unfold wdayFrom at hle
      by_cases hr7 : r < 7
      · rw [Nat.div_eq_of_lt (by omega), Nat.zero_mod]
        simp [hr7]
      · have hq1 : 1 ≤ (protoWday rr proto - 1 + r) / 7 := by omega
        have hq2 : (protoWday rr proto - 1 + r) / 7 < rr.inter := by omega
        rw [Nat.mod_eq_of_lt hq2]
        omega
  have hitem : ∀ r < 7 * rr.inter, wlyDayItems len rr proto (j * (7 * rr.inter) + r) =
      if r ∈ weekDays rr.dow (protoWday rr proto) then
        if MonthListed rr.mon (dateOn len proto (j * (7 * rr.inter) + r)).m then
          dayTimes len rr proto (j * (7 * rr.inter) + r)
        else []
      else [] := by
    intro r hr
    have hsel := mem_weekDays (o := r) hw hdays
    unfold wlyDayItems
    rw [hw0, hwday, hweek]
    by_cases hmem : (wdayFrom (protoWday rr proto) r : Int) ∈ plainDays rr.dow
    · have hal := haligned r hr hmem
      by_cases hr7 : r < 7 <;> simp [hmem, hr7, hsel, hal]
    · simp [hmem, hsel]
  have hsplit : List.range (7 * rr.inter) =
      List.range 7 ++ (List.range (7 * rr.inter - 7)).map (7 + ·) := by
    rw [← List.range_add]
    congr 1
    omega
  have hlate : ((List.range (7 * rr.inter - 7)).map (7 + ·)).flatMap (fun r =>
      wlyDayItems len rr proto (j * (7 * rr.inter) + r)) = [] := by
    refine List.flatMap_eq_nil_iff.mpr fun r hr => ?_
    obtain ⟨i, hi, rfl⟩ := List.mem_map.mp hr
    have hi' := List.mem_range.mp hi
    rw [hitem _ (by omega), if_neg fun h => by have := weekDays_lt h; omega]
  rw [hsplit, List.flatMap_append, hlate, List.append_nil, flatMap_weekDays]
  exact List.flatMap_congr fun r hr => hitem r (by have := List.mem_range.mp hr; omega)

/-- **What a weekly rule emits** is what it means, if weeks can be counted from the start and
none of their listed days is skipped. -/
theorem rrulFillWly_exact {tgt : Instant} (hinter : 1 ≤ rr.inter ∧ rr.inter ≤ 4)
    (hdays : plainDays rr.dow ≠ []) (hvalid : Tick.week.ValidStart tgt rr) (nti k : Nat)
    (hfirst : rr.inter = 1 ∨
      ∀ t ∈ plainDays rr.dow, (protoWday rr (protoOf tgt rr) : Int) ≤ t)
    (hskip : ∀ j < k, NoneSkipped (scaleLen rr.scale) rr (protoOf tgt rr) (j * (7 * rr.inter)))
    (hcal : LengthsTo (echsScaleNdim rr.scale) (scaleLen rr.scale) True (protoOf tgt rr).monthDay.1
      ((protoOf tgt rr).dayNoIn (scaleLen rr.scale) + (k - 1) * (7 * rr.inter) + 6)) :
    Fills (clampCount rr nti) ((rrulFillWly tgt nti rr).events k)
      (wlyListing rr (protoOf tgt rr) (k * (7 * rr.inter))) := by
  have hbad : badDate (protoOf tgt rr) = false := hvalid.badDate
  unfold rrulFillWly
  dsimp only
  by_cases hgone : countGone rr nti = true
  · rw [Expander.events_of_error (w := .done) (by simp [hgone]), clampCount_of_gone hgone]
    exact ⟨List.nil_prefix, Or.inr (Nat.zero_le _)⟩
  · have hat := wlyLoop_at rr (protoOf tgt rr) hvalid.month hvalid.day (scaleLen_le rr.scale) hinter hcal
    have hfills := (Loop.passes_listing (wlyLoop_plain (protoOf tgt rr) rr) (e := wlySlot rr)
      (fun _ _ => rfl) (clampCount rr nti) k fun i hi => by
        obtain ⟨p, hp, -, hst, hend⟩ := hat i hi
        exact ⟨p, hp, hst, hend⟩).map Slot.ev
    have hlisting : Loop.listing (wlyDayItems (scaleLen rr.scale) rr (protoOf tgt rr)) rr.late
          (k * (7 * rr.inter)) =
        Loop.listing (fun i => wlyItems (scaleLen rr.scale) rr (protoOf tgt rr)
          (i * (7 * rr.inter))) rr.late k := by
      unfold Loop.listing
      rw [flatMap_range_mul]
      congr 1
      refine List.flatMap_congr fun j hj => ?_
      have hj' := List.mem_range.mp hj
      have hle : j * (7 * rr.inter) ≤ (k - 1) * (7 * rr.inter) := Nat.mul_le_mul_right _ (by omega)
      rw [wlyDayItems_block (protoOf tgt rr) hinter.1 hdays hvalid.year hvalid.month hfirst,
        wlyItems_of_none _ (hskip j hj')]
      intro o ho
      obtain ⟨hfits, hm, -⟩ := dateOn_lt
        (show Months.Valid (scaleLen rr.scale) (protoOf tgt rr).monthDay.1 (protoOf tgt rr).monthDay.2
          from hvalid.day) (regularLen_scale rr.scale) (scaleLen_le rr.scale) hcal
        (n := j * (7 * rr.inter) + o) (by omega)
      exact ⟨hfits, hm⟩
    rw [List.map_map] at hfills
    unfold wlyListing Expander.events Expander.after Expander.init
    rw [hbad, Bool.or_false, if_neg hgone, hlisting]
    exact hfills

end Weekly

theorem snarfRrule_fortnight :
    snarfRrule "FREQ=WEEKLY;INTERVAL=2;BYDAY=WE,FR".toList =
      { freq := .weekly, inter := 2, dow := .native [3, 5] } := by decide

/-- Every other week from a Wednesday on. -/
theorem rrulFillWly_exact_fortnight :
    Fills 64
      ((rrulFillWly (.pack 2000 1 5 0 0 0 echsAllSec) 64
        { freq := .weekly, inter := 2, dow := .native [3, 5] }).events 2)
      (wlyListing { freq := .weekly, inter := 2, dow := .native [3, 5] }
        (protoOf (.pack 2000 1 5 0 0 0 echsAllSec)
          { freq := .weekly, inter := 2, dow := .native [3, 5] }) 28) := by
  refine rrulFillWly_exact (by decide) (by decide)
    ⟨by decide, by decide, ⟨by decide, by decide⟩, by decide⟩ 64 2 (by decide)
    (fun _ _ _ _ _ _ _ _ _ => Or.inl (by decide)) ?_
  generalize hrr : ({ freq := .weekly, inter := 2, dow := .native [3, 5] } : Rrulsp) = rr
  have hproto : protoOf (.pack 2000 1 5 0 0 0 echsAllSec) rr = .pack 2000 1 5 0 0 0 echsAllSec := by
    rw [← hrr]
    decide
  have hinter : (2 - 1) * (7 * rr.inter) = 14 := by
    rw [← hrr]
    rfl
  rw [hproto, hinter, Nat.add_assoc]
  refine lengthsTo_start (by rw [← hrr]) _ (by decide) ?_
  rw [Gregorian.dayNo_closed _ (by decide) (by decide),
    Gregorian.dayNo_closed 2100 (by decide) (by decide)]
  decide

/-- From a Wednesday on, the Monday of the next week comes in place of that of the week after. -/
theorem wly_counts_from_start :
    ¬ ∀ (s : List Char) (tgt : Instant) (nti k : Nat),
      1 ≤ (snarfRrule s).inter → (snarfRrule s).inter ≤ 4 → plainDays (snarfRrule s).dow ≠ [] →
      (snarfRrule s).scale = .gregorian → Tick.week.ValidStart tgt (snarfRrule s) →
      Fills (clampCount (snarfRrule s) nti) ((rrulFillWly tgt nti (snarfRrule s)).events k)
        (wlyListing (snarfRrule s) (protoOf tgt (snarfRrule s)) (k * (7 * (snarfRrule s).inter))) := by
  intro h
  have hrule : snarfRrule "FREQ=WEEKLY;INTERVAL=2;BYDAY=MO,FR".toList =
      { freq := .weekly, inter := 2, dow := .native [1, 5] } := by decide
  have hfills := h "FREQ=WEEKLY;INTERVAL=2;BYDAY=MO,FR".toList (.pack 2000 1 5 0 0 0 echsAllSec) 64 1
  rw [hrule] at hfills
  have hcode : (rrulFillWly (.pack 2000 1 5 0 0 0 echsAllSec) 64
      { freq := .weekly, inter := 2, dow := .native [1, 5] }).events 1
      = [.pack 2000 1 7 0 0 0 echsAllSec, .pack 2000 1 10 0 0 0 echsAllSec] := by decide
  have hproto : protoOf (.pack 2000 1 5 0 0 0 echsAllSec)
      { freq := .weekly, inter := 2, dow := .native [1, 5] } = .pack 2000 1 5 0 0 0 echsAllSec := by
    decide
  have hwday : ∀ n, weekdayAfter .gregorian (.pack 2000 1 5 0 0 0 echsAllSec) n = wdayFrom 3 n :=
    fun n => (weekdayAfter_eq (by decide) (by decide) n).symm
  have hmeant : wlyListing { freq := .weekly, inter := 2, dow := .native [1, 5] }
      (.pack 2000 1 5 0 0 0 echsAllSec) (1 * (7 * 2))
      = [.pack 2000 1 7 0 0 0 echsAllSec, .pack 2000 1 17 0 0 0 echsAllSec] := by
    unfold wlyListing wlyDayItems
    simp only [hwday]
    decide
  have hno := hfills (by decide) (by decide) (by decide) rfl
    ⟨by decide, by decide, ⟨by decide, by decide⟩, by decide⟩
  rw [hcode, hproto, hmeant] at hno
  revert hno
  unfold Fills
  decide

end Echse
