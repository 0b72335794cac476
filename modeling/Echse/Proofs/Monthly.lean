/-
What a monthly rule emits.

The loop of `rrul_fill_mly` comes to every INTERVAL-th month, hops over those that BYMONTH does
not list, and puts the days of the others into a set.  Beside BYMONTHDAY only the plain
weekdays are looked at.  So the loop emits the times of those days, month by month, from the
start on and up to UNTIL, unless it gives up after 63 listed months without any.
-/
import Echse.Lib.FillSteady
import Echse.Proofs.Grid
import Echse.Proofs.MonthDays
import Echse.Proofs.MonthHorizon

namespace Echse

open FillLoop (Loop Fills)
open Gregorian (monthDays dayNo weekday monthNo monthDays_range monthWeekdays)

/-! ### What the parts of a rule ask of a day -/

/-- BYMONTHDAY has a day of a month of `n` days, as it is or counted from the end. -/
def domHas (dom : Bitint) (n d : Nat) : Prop :=
  bi31HasBit dom d = true ∨ bi31HasBit dom ((d : Int) - (n + 1)) = true

/-- BYDAY has a day, by its weekday or as the one that is counted to. -/
def dowHas (dow : Bitints) (y m d : Nat) : Prop := ∃ t ∈ bi447List dow, EntryTakes y m t d

instance (dom : Bitint) (n d : Nat) : Decidable (domHas dom n d) := inferInstanceAs (Decidable (_ ∨ _))

instance (y m : Nat) (t : Int) (d : Nat) : Decidable (EntryTakes y m t d) :=
  inferInstanceAs (Decidable (if (unpackCd t).cnt = 0 then d ∈ monthWeekdays y m (unpackCd t).dow
    else Picks.pick (monthWeekdays y m (unpackCd t).dow) (unpackCd t).cnt = some d))

instance (dow : Bitints) (y m d : Nat) : Decidable (dowHas dow y m d) :=
  inferInstanceAs (Decidable (∃ t ∈ _, _))

/-- A day that BYMONTHDAY and BYDAY both allow, the day of the start's number if neither is given. -/
def MonthDayAsked (rr : Rrulsp) (proto : Instant) (y m d : Nat) : Prop :=
  (bi31HasBits rr.dom = true → domHas rr.dom (monthDays y m) d) ∧
    (bi447HasBits rr.dow = true → dowHas rr.dow y m d) ∧
      (bi31HasBits rr.dom = false → bi447HasBits rr.dow = false → d = proto.d)

/-- The same where counted weekdays are not looked at beside BYMONTHDAY. -/
def MonthDayMeant (rr : Rrulsp) (proto : Instant) (y m d : Nat) : Prop :=
  if bi31HasBits rr.dom = true then domHas rr.dom (monthDays y m) d ∧
    (plainDays rr.dow ≠ [] → (weekday (dayNo y m d) : Int) ∈ plainDays rr.dow)
  else if bi447HasBits rr.dow = true then dowHas rr.dow y m d
  else d = proto.d

instance (rr : Rrulsp) (proto : Instant) (y m : Nat) : DecidablePred (MonthDayAsked rr proto y m) :=
  fun _ => inferInstanceAs (Decidable (_ ∧ _ ∧ _))

instance (rr : Rrulsp) (proto : Instant) (y m : Nat) : DecidablePred (MonthDayMeant rr proto y m) :=
  fun d => inferInstanceAs (Decidable (if bi31HasBits rr.dom = true then
    domHas rr.dom (monthDays y m) d ∧
      (plainDays rr.dow ≠ [] → (weekday (dayNo y m d) : Int) ∈ plainDays rr.dow)
    else if bi447HasBits rr.dow = true then dowHas rr.dow y m d else d = proto.d))

theorem dow_nil {dow : Bitints} (h : bi447HasBits dow = false) : dow = .nil := by
  cases dow with
  | bits b => cases h
  | native xs =>
      cases xs with
      | nil => rfl
      | cons x xs => cases h

/-- Plain weekdays have the days that are on one of them. -/
theorem dowHas_plain {rr : Rrulsp} (hr : rr.Ranged) (hplain : ∀ t ∈ bi447List rr.dow, t ∈ plainDays rr.dow)
    {y m d : Nat} (hd : 1 ≤ d ∧ d ≤ monthDays y m) :
    dowHas rr.dow y m d ↔ (weekday (dayNo y m d) : Int) ∈ plainDays rr.dow := by
  have htakes : ∀ t ∈ bi447List rr.dow, EntryTakes y m t d ↔ (weekday (dayNo y m d) : Int) = t := by
    intro t ht
    have hcd := isCd_of_ranged hr t ht
    have h0 := hcd.plain_iff.mpr (mem_plainDays.mp (hplain t ht)).2
    have hdow := hcd.dow_eq h0
    unfold EntryTakes
    rw [if_pos h0, Gregorian.mem_monthWeekdays]
    constructor
    · rintro ⟨-, hw⟩
      omega
    · intro hw
      exact ⟨hd, by omega⟩
  constructor
  · rintro ⟨t, ht, h⟩
    rw [(htakes t ht).mp h]
    exact hplain t ht
  · intro h
    have hmem := (mem_plainDays.mp h).1
    exact ⟨_, hmem, (htakes _ hmem).mpr rfl⟩

/-- **Only beside BYMONTHDAY counted weekdays make a difference.** -/
theorem meant_iff_asked {rr : Rrulsp} (hr : rr.Ranged) {proto : Instant}
    (hplain : bi31HasBits rr.dom = true → bi447HasBits rr.dow = true →
      plainDays rr.dow ≠ [] ∧ ∀ t ∈ bi447List rr.dow, t ∈ plainDays rr.dow)
    {y m d : Nat} (hd : 1 ≤ d ∧ d ≤ monthDays y m) :
    MonthDayMeant rr proto y m d ↔ MonthDayAsked rr proto y m d := by
  unfold MonthDayMeant MonthDayAsked
  cases hdom : bi31HasBits rr.dom with
  | false => cases hdow : bi447HasBits rr.dow <;> simp
  | true =>
      cases hdow : bi447HasBits rr.dow with
      | false =>
          have hnil : plainDays rr.dow = [] := by
            rw [dow_nil hdow]
            rfl
          simp [hnil]
      | true =>
          obtain ⟨hne, hall⟩ := hplain hdom hdow
          simp [hne, dowHas_plain hr hall hd]

/-! ### The listing of a rule -/

/-- The dates of a month that are asked for. -/
def monthDates (ask : Nat → Nat → Nat → Prop) [∀ y m, DecidablePred (ask y m)] (k : Nat) : List Date :=
  ((List.range' 1 (monthDays (k / 12) (k % 12 + 1))).filter fun d => ask (k / 12) (k % 12 + 1) d).map
    fun d => ⟨k / 12, k % 12 + 1, d⟩

section Listing

variable (ask : Nat → Nat → Nat → Prop) [∀ y m, DecidablePred (ask y m)]

/-- Their times as far as they are not before the start, if BYMONTH lists the month. -/
def mlyItems (rr : Rrulsp) (proto : Instant) (k : Nat) : List Instant :=
  if monthListed rr k = true then
    notBefore proto ((monthDates ask k).flatMap ((makeEnum proto rr).on proto.ms))
  else []

/-- **What a monthly rule means**: the times of the days asked for in the first `n` of the months that
INTERVAL leads to from the start. -/
def mlyListing (rr : Rrulsp) (proto : Instant) (n : Nat) : List Instant :=
  (Loop.listing (fun i => mlyItems ask rr proto (monthNo proto.y proto.m + i * rr.inter)) rr.late n).map
    fun x => echsInstantAttachScale x rr.scale

end Listing

/-! ### What a rule has to keep to -/

/-- The month days of a rule are all read: the iterator comes to them, and there is room for them. -/
def DomRead (rr : Rrulsp) (room : Nat) : Prop :=
  ∀ t, bi31HasBit rr.dom t = true → t ∈ (bi31List rr.dom).take room

/-- A month of the calendar without month days that are more than one before its first. -/
structure MonthRight (rr : Rrulsp) (k : Nat) : Prop where
  right : RightMonth (k / 12) (k % 12 + 1)
  dom : ∀ t ∈ bi31List rr.dom, -(monthDays (k / 12) (k % 12 + 1) + 1 : Int) ≤ t

/-- Among 63 listed months in a row that are followed by another there is one with a date. -/
def MonthsLast (rr : Rrulsp) (proto : Instant) (n : Nat) : Prop :=
  ∀ k < n, ∀ a ≤ k, 63 ≤ monthsTried rr (monthNo proto.y proto.m) a k →
    ∃ i, a ≤ i ∧ i < k ∧
      mlyItems (MonthDayMeant rr proto) rr proto (monthNo proto.y proto.m + i * rr.inter) ≠ []

/-- It takes more than 63 months to give up. -/
theorem monthsLast_short {rr : Rrulsp} {proto : Instant} {n : Nat} (hn : n ≤ 63) :
    MonthsLast rr proto n := by
  intro k hk a ha hmany
  have := monthsTried_le rr (monthNo proto.y proto.m) ha
  omega

/-! ### The days of a month -/

variable {tgt proto : Instant} {rr : Rrulsp} {room : Nat}

theorem hasBit_of_mem (hr : rr.Ranged) {t : Int} (h : t ∈ bi31List rr.dom) :
    bi31HasBit rr.dom t = true := by
  have hmem : t ∈ drain (biNext 32 rr.dom) 66 0 := h
  rw [mem_biList (by decide) hr.dom.pos hr.dom.neg (by decide)] at hmem
  split at hmem
  · rename_i hodd
    unfold bi31HasBit biHasBit
    rw [if_pos hodd, hmem, beq_self_eq_true]
  · exact hmem.2.2.1

/-- A set that is not empty has a member. -/
theorem exists_hasBit {bi : Bitint} (h : bi31HasBits bi = true) : ∃ t, bi31HasBit bi t = true := by
  unfold bi31HasBit biHasBit
  by_cases hodd : bi.pos % 2 = 1
  · exact ⟨intOfWord 32 bi.neg, by rw [if_pos hodd, beq_self_eq_true]⟩
  · simp only [if_neg hodd]
    unfold bi31HasBits biHasBits at h
    simp only [Bool.or_eq_true, bne_iff_ne] at h
    by_cases hpos : bi.pos = 0
    · obtain ⟨i, hi⟩ := Nat.exists_testBit_of_ne_zero (h.resolve_left (not_not.mpr hpos))
      refine ⟨-(i : Int), ?_⟩
      rw [if_neg (by omega), Int.neg_neg, Int.toNat_natCast]
      exact hi
    · obtain ⟨i, hi⟩ := Nat.exists_testBit_of_ne_zero hpos
      have h0 : i ≠ 0 := by
        rintro rfl
        rw [Nat.testBit_zero, decide_eq_true_eq] at hi
        exact hodd hi
      refine ⟨(i : Int), ?_⟩
      rw [if_pos (by omega), Int.toNat_natCast]
      exact hi

/-- **What the generators take of a month is what a rule means**, if its month days are all read. -/
theorem taken_iff_meant (hr : rr.Ranged) (hread : DomRead rr room) {y m d : Nat}
    (hd : 1 ≤ d ∧ d ≤ monthDays y m) :
    MonthDayTaken rr (mlyParts proto room rr).d y m d ↔ MonthDayMeant rr proto y m d := by
  have hmem : ∀ t, t ∈ (bi31List rr.dom).take room ↔ bi31HasBit rr.dom t = true := fun t =>
    ⟨fun h => hasBit_of_mem hr (List.mem_of_mem_take h), hread t⟩
  have hlisted : DomListed ((bi31List rr.dom).take room) (monthDays y m) d ↔
      domHas rr.dom (monthDays y m) d := by
    rw [domListed_iff, hmem, hmem, and_iff_right hd]
    rfl
  unfold MonthDayTaken MonthDayMeant
  cases hdom : bi31HasBits rr.dom with
  | true =>
      obtain ⟨t, ht⟩ := exists_hasBit hdom
      have hne := List.ne_nil_of_mem ((hmem t).mpr ht)
      have hparts : (mlyParts proto room rr).d = (bi31List rr.dom).take room := by
        unfold mlyParts mlyYmdp
        simp [hdom]
      rw [hparts, if_neg hne, if_pos rfl, hlisted]
  | false =>
      have hnone : ∀ t, bi31HasBit rr.dom t ≠ true := fun t ht => by
        have hne := biHasBit_nonempty ht
        unfold bi31HasBits biHasBits at hdom
        simp only [Bool.or_eq_false_iff, bne_eq_false_iff_eq] at hdom
        exact hne hdom
      have hnil : (bi31List rr.dom).take room = [] :=
        List.eq_nil_iff_forall_not_mem.mpr fun t ht => hnone t ((hmem t).mp ht)
      rw [if_neg Bool.false_ne_true]
      cases hdow : bi447HasBits rr.dow with
      | true =>
          have hparts : (mlyParts proto room rr).d = [] := by
            unfold mlyParts mlyYmdp
            simp [hnil, hdow]
          rw [hparts, if_pos rfl, if_pos rfl]
          rfl
      | false =>
          have hempty : bi447List rr.dow = [] := by
            rw [dow_nil hdow]
            rfl
          rw [if_neg Bool.false_ne_true]
          by_cases h0 : proto.d = 0
          · have hparts : (mlyParts proto room rr).d = [] := by
              unfold mlyParts mlyYmdp
              simp [hnil, h0]
            rw [hparts, if_pos rfl, hempty, h0]
            refine iff_of_false ?_ (by omega)
            rintro ⟨t, ht, -⟩
            cases ht
          · have hparts : (mlyParts proto room rr).d = [(proto.d : Int)] := by
              unfold mlyParts mlyYmdp
              simp [hnil, hdow, hdom, h0]
            have hplain : plainDays rr.dow = [] := by
              unfold plainDays
              rw [hempty]
              rfl
            rw [hparts, if_neg (List.cons_ne_nil _ _), domListed_iff, hplain, and_iff_right hd]
            simp only [List.mem_singleton, ne_eq, not_true_eq_false, false_implies, and_true]
            omega

/-- The set of a month is that of the days asked for. -/
theorem mlyFill_list (hr : rr.Ranged) (hscale : rr.scale = .gregorian) (hread : DomRead rr room) {k : Nat}
    (hk : MonthRight rr k) :
    bi383List (mlyFill rr (mlyParts proto room rr) (k / 12) (k % 12 + 1)) =
      ((List.range' 1 (monthDays (k / 12) (k % 12 + 1))).filter fun d =>
        MonthDayMeant rr proto (k / 12) (k % 12 + 1) d).map fun d : Nat => codeOf (k % 12 + 1) d := by
  have hlen := monthDays_range (k / 12) (k % 12 + 1)
  have hparts : ∀ t ∈ (mlyParts proto room rr).d,
      -31 ≤ t ∧ -(monthDays (k / 12) (k % 12 + 1) + 1 : Int) ≤ t := by
    intro t ht
    unfold mlyParts at ht
    dsimp only at ht
    split at ht
    · rw [List.mem_singleton.mp ht]
      omega
    · have hmem := List.mem_of_mem_take ht
      exact ⟨(mem_bi31List_dom hr t hmem).2.1, hk.dom t hmem⟩
  have hcodes : CodeSet (mlyFill rr (mlyParts proto room rr) (k / 12) (k % 12 + 1)) :=
    mlyFill_codes hr hk.right.month fun hno => absurd hscale hno
  refine hcodes.sorted.eq_of_mem_iff ?_ fun x => ?_
  · refine List.pairwise_map.mpr (List.Pairwise.imp (fun hlt => ?_)
      (List.Pairwise.filter _ List.pairwise_lt_range'))
    unfold codeOf
    omega
  · rw [mem_mlyFill hk.right hr hscale hparts rfl, List.mem_map]
    simp only [List.mem_filter, List.mem_range'_1, decide_eq_true_eq]
    constructor
    · rintro ⟨d, hd, rfl⟩
      have hrange := hd.range
      exact ⟨d, ⟨by omega, (taken_iff_meant hr hread hrange).mp hd⟩, rfl⟩
    · rintro ⟨d, ⟨hrange, hd⟩, rfl⟩
      exact ⟨d, (taken_iff_meant hr hread (by omega)).mpr hd, rfl⟩

/-- The dates of the candidates of a month. -/
theorem candDates_month (hr : rr.Ranged) (hscale : rr.scale = .gregorian) (hread : DomRead rr room) {k : Nat}
    (hyear : k / 12 < 65536) (hk : MonthRight rr k) :
    candDates (k / 12) (.single (mlyFill rr (mlyParts proto room rr) (k / 12) (k % 12 + 1))) =
      monthDates (MonthDayMeant rr proto) k := by
  rw [candDates_eq hyear, mlyFill_list hr hscale hread hk, List.map_map]
  refine List.map_congr_left fun d hd => ?_
  have hlen := monthDays_range (k / 12) (k % 12 + 1)
  have hrange := List.mem_range'_1.mp (List.mem_filter.mp hd).1
  have hcode : codeOf (k % 12 + 1) d = ((32 * (k % 12) + d : Nat) : Int) := by
    unfold codeOf
    omega
  dsimp only [Function.comp]
  rw [hcode, u32OfInt_ofNat (by omega)]
  congr 1 <;> omega

/-! ### The run -/

/-- Past UNTIL and before the start together bar everything. -/
theorem late_of_early {x y : Instant} (hx : rr.late x = true) (hxp : echsInstantLtP x proto = true)
    (hy : echsInstantLtP y proto = false) : rr.late y = true := by
  refine Rrulsp.late_of_lt ?_ hx
  rw [ltP_iff] at hxp
  rw [ltP_false_iff] at hy
  omega

section Run

variable (hr : rr.Ranged) (hscale : rr.scale = .gregorian) (hshift : rr.shift = 0)
  (hpos : bi383HasBits rr.pos = false) (hread : DomRead rr room)
include hr hscale hshift hpos hread

/-- A position stores the items of its month. -/
theorem mly_stores {p : Pos} {k : Nat} (hyear : k / 12 < 65536) (hy : p.y = k / 12) (hm : p.m = k % 12 + 1)
    (hlisted : monthListed rr k = true) (hk : MonthRight rr k) :
    (mlyLoop proto room rr).StoresUpTo rr.late p (mlyItems (MonthDayMeant rr proto) rr proto k) ∧
      ((mlyLoop proto room rr).EndsLate rr.late p (mlyItems (MonthDayMeant rr proto) rr proto k) ∨
        ∀ x, echsInstantLtP x proto = false → rr.late x = true) := by
  have hcands : mlyCands rr (mlyParts proto room rr) p.y p.m =
      .single (mlyFill rr (mlyParts proto room rr) p.y p.m) := by
    unfold mlyCands clrPoss shift
    rw [hpos, hshift]
    rfl
  have hgroups : (mlyLoop proto room rr).groups p =
      ((monthDates (MonthDayMeant rr proto) k).map ((makeEnum proto rr).on proto.ms)).map some := by
    change (if p.m = 0 ∨ 12 < p.m then [none] else candGroups _ _ _ (mlyCands _ _ _ _)) = _
    rw [if_neg (by omega), hcands, candGroups_eq, hy, hm, candDates_month hr hscale hread hyear hk,
      List.map_map]
    rfl
  have hitems : mlyItems (MonthDayMeant rr proto) rr proto k = notBefore proto
      ((monthDates (MonthDayMeant rr proto) k).map ((makeEnum proto rr).on proto.ms)).flatten := by
    unfold mlyItems
    rw [if_pos hlisted, List.flatMap_def]
  rw [hitems]
  exact Loop.stores_barred (L := mlyLoop proto room rr) (fun _ => rfl)
    (fun _ _ hl hb hy => late_of_early hl hb hy) hgroups

/-- The positions of `rrul_fill_mly` store the items of their months. -/
theorem mly_carries (hm0 : 1 ≤ (protoOf tgt rr).m ∧ (protoOf tgt rr).m ≤ 12) (n : Nat)
    (hyears : (startMonth tgt rr + (n - 1) * rr.inter) / 12 < 65536)
    (hmonths : ∀ i < n, monthListed rr (startMonth tgt rr + i * rr.inter) = true →
      MonthRight rr (startMonth tgt rr + i * rr.inter)) :
    (mlyLoop (protoOf tgt rr) room rr).Carries rr.late
      (fun i => mlyItems (MonthDayMeant rr (protoOf tgt rr)) rr (protoOf tgt rr)
        (startMonth tgt rr + i * rr.inter))
      { y := (protoOf tgt rr).y, m := (protoOf tgt rr).m } n := by
  intro i hi
  have hyfits := (protoOf tgt rr).fits.1
  have hle : (startMonth tgt rr + i * rr.inter) / 12 < 65536 := by
    have := Nat.mul_le_mul_right rr.inter (show i ≤ n - 1 by omega)
    omega
  have hstep := stepMonths_eq rr { y := (protoOf tgt rr).y, m := (protoOf tgt rr).m } i
    (by unfold startMonth at hle; dsimp only; omega)
  change _ = (startMonth tgt rr + _) / 12 ∧ _ = (startMonth tgt rr + _) % 12 + 1 at hstep
  have horbit : (mlyLoop (protoOf tgt rr) room rr).orbit
      { y := (protoOf tgt rr).y, m := (protoOf tgt rr).m } i =
        some (stepMonths rr.inter i { y := (protoOf tgt rr).y, m := (protoOf tgt rr).m }) := by
    rcases Nat.eq_zero_or_pos i with rfl | hpos0
    · rw [stepMonths_zero hm0 (by dsimp only; omega)]
      rfl
    · refine mly_orbit room (protoOf tgt rr) hm0 (by dsimp only; omega) ?_ i
      have := Nat.le_mul_of_pos_left rr.inter hpos0
      omega
  have hhop : (mlyLoop (protoOf tgt rr) room rr).hop
      (stepMonths rr.inter i { y := (protoOf tgt rr).y, m := (protoOf tgt rr).m }) =
        !monthListed rr (startMonth tgt rr + i * rr.inter) := by
    change (bui31HasBits rr.mon && !bui31HasBit rr.mon _) = _
    rw [hstep.2]
    unfold monthListed
    rw [Bool.not_or, Bool.not_not]
  refine ⟨_, horbit, fun h => ?_, fun h => ?_⟩
  · rw [hhop, Bool.not_eq_true'] at h
    unfold mlyItems
    dsimp only
    rw [h, if_neg Bool.false_ne_true]
  · rw [hhop, Bool.not_eq_false'] at h
    obtain ⟨hst, hend⟩ := mly_stores hr hscale hshift hpos hread hle hstep.1 hstep.2 h (hmonths i hi h)
    refine ⟨hst, hend.imp_right fun hall j _ _ x hx => hall x ?_⟩
    unfold mlyItems at hx
    dsimp only at hx
    split at hx
    · unfold notBefore at hx
      simpa using (List.mem_filter.mp hx).2
    · cases hx

end Run

theorem exists_month {mon : Nat} (h : bui31HasBits mon = true) : ∃ b, bui31HasBit mon b = true := by
  unfold bui31HasBit buiHasBit
  by_cases hodd : mon % 2 = 1
  · exact ⟨mon >>> 1, by rw [if_pos hodd, beq_self_eq_true]⟩
  · unfold bui31HasBits at h
    obtain ⟨i, hi⟩ := Nat.exists_testBit_of_ne_zero (bne_iff_ne.mp h)
    have h0 : i ≠ 0 := by
      rintro rfl
      rw [Nat.testBit_zero, decide_eq_true_eq] at hi
      exact hodd hi
    refine ⟨i - 1, ?_⟩
    rw [if_neg hodd, Nat.sub_add_cancel (by omega)]
    exact hi

/-- A rule for every month is not turned away. -/
theorem mly_start_monthly (nti : Nat) (hset : MonthSet rr.mon)
    (hmon : bui31HasBits rr.mon = true → rr.inter = 1) (hshift : rr.shift = 0)
    (hgone : countGone rr nti = false) (hm0 : 1 ≤ (protoOf tgt rr).m ∧ (protoOf tgt rr).m ≤ 12) :
    (rrulFillMly tgt nti rr).start = .ok { y := (protoOf tgt rr).y, m := (protoOf tgt rr).m } := by
  rw [← mlyStart_open (protoOf tgt rr) hm0.1, ← hshift]
  cases hbits : bui31HasBits rr.mon with
  | false =>
      unfold rrulFillMly
      dsimp only
      rw [hgone, hbits, if_neg (by decide), if_neg (by omega), if_neg (by decide)]
  | true =>
      have hinter := hmon hbits
      refine (rrulFillMly_start_eq hset hbits (by omega) hgone hm0).1.mpr ?_
      obtain ⟨b, hb⟩ := exists_month hbits
      exact ⟨b, hb, by rw [hinter]; exact one_dvd _⟩

/-- **What a monthly rule emits** is what it means, with BYMONTHDAY beside plain weekdays only, as long as
the months looked at are ones it is right about and it does not give up. -/
theorem rrulFillMly_exact (hr : rr.Ranged) (hscale : rr.scale = .gregorian) (hshift : rr.shift = 0)
    (hpos : bi383HasBits rr.pos = false) (hmon : bui31HasBits rr.mon = true → rr.inter = 1)
    (hm0 : 1 ≤ (protoOf tgt rr).m ∧ (protoOf tgt rr).m ≤ 12) (nti n : Nat)
    (hread : DomRead rr (clampCount rr nti))
    (hyears : (startMonth tgt rr + (n - 1) * rr.inter) / 12 < 65536)
    (hmonths : ∀ i < n, monthListed rr (startMonth tgt rr + i * rr.inter) = true →
      MonthRight rr (startMonth tgt rr + i * rr.inter))
    (hlast : MonthsLast rr (protoOf tgt rr) n) :
    Fills (clampCount rr nti) ((rrulFillMly tgt nti rr).events n)
      (mlyListing (MonthDayMeant rr (protoOf tgt rr)) rr (protoOf tgt rr) n) := by
  by_cases hgone : countGone rr nti = true
  · rw [Expander.events_of_error (w := .done) (by simp [rrulFillMly, hgone]), clampCount_of_gone hgone]
    exact ⟨List.nil_prefix, Or.inr (Nat.zero_le _)⟩
  · have hstart := mly_start_monthly nti hr.mon hmon hshift (Bool.eq_false_iff.mpr hgone) hm0
    have hcarries := mly_carries hr hscale hshift hpos hread hm0 n hyears hmonths
    have hlasts : (mlyLoop (protoOf tgt rr) (clampCount rr nti) rr).Lasts 64
        (fun i => mlyItems (MonthDayMeant rr (protoOf tgt rr)) rr (protoOf tgt rr)
          (startMonth tgt rr + i * rr.inter))
        { y := (protoOf tgt rr).y, m := (protoOf tgt rr).m } n := by
      intro k hk _ a ha hmany
      refine hlast k hk a ha ?_
      have hinter : rr.inter < 2147483000 := by
        have hle := Loop.worked_le (L := mlyLoop (protoOf tgt rr) (clampCount rr nti) rr)
          (p := { y := (protoOf tgt rr).y, m := (protoOf tgt rr).m }) ha
        have := Nat.le_mul_of_pos_left rr.inter (show 0 < n - 1 by omega)
        omega
      rw [worked_eq tgt (clampCount rr nti) hm0 hinter] at hmany
      unfold startMonth at hmany
      omega
    have hfills := Loop.passes_lasting (f := Slot.ev) (e := fun x => echsInstantAttachScale x rr.scale)
      rfl (fun _ _ => rfl) (clampCount rr nti) n hcarries hlasts
    unfold Expander.events Expander.after Expander.init
    rw [hstart]
    exact hfills

theorem snarfRrule_monthEnds : snarfRrule "FREQ=MONTHLY;INTERVAL=3;BYMONTHDAY=-1;BYDAY=FR".toList =
    { freq := .monthly, inter := 3, dom := ⟨1, 4294967295⟩, dow := .native [5] } := by decide

theorem snarfRrule_thirteenth : snarfRrule "FREQ=MONTHLY;BYMONTHDAY=13;BYDAY=1FR".toList =
    { freq := .monthly, dom := ⟨1, 13⟩, dow := .native [13] } := by decide

/-- The last of a quarter's first month if it is a Friday. -/
theorem rrulFillMly_exact_fridays :
    Fills 64 ((rrulFillMly (.pack 2003 1 31 0 0 0 echsAllSec) 64
        { freq := .monthly, inter := 3, dom := ⟨1, 4294967295⟩, dow := .native [5] }).events 5)
      (mlyListing (MonthDayMeant
          { freq := .monthly, inter := 3, dom := ⟨1, 4294967295⟩, dow := .native [5] }
          (.pack 2003 1 31 0 0 0 echsAllSec))
        { freq := .monthly, inter := 3, dom := ⟨1, 4294967295⟩, dow := .native [5] }
        (.pack 2003 1 31 0 0 0 echsAllSec) 5) := by
  have hlist : bi31List ⟨1, 4294967295⟩ = [-1] := by decide
  have hread : DomRead { freq := .monthly, inter := 3, dom := ⟨1, 4294967295⟩, dow := .native [5] }
      64 := by
    intro t ht
    have hone : intOfWord 32 4294967295 = t := by simpa [bi31HasBit, biHasBit] using ht
    rw [hlist, ← hone]
    decide
  refine rrulFillMly_exact (snarfRrule_monthEnds ▸ snarfRrule_ranged _) rfl rfl rfl (by decide)
    ⟨by decide, by decide⟩ 64 5 hread (by decide) (fun i hi _ => ⟨?_, fun t ht => ?_⟩) ?_
  · have hstart : startMonth (.pack 2003 1 31 0 0 0 echsAllSec)
        { freq := .monthly, inter := 3, dom := ⟨1, 4294967295⟩, dow := .native [5] } = 24036 := by decide
    rw [hstart]
    exact rightMonth_of_range (by dsimp only; omega) (by omega)
  · rw [hlist, List.mem_singleton] at ht
    omega
  · exact monthsLast_short (by decide)

/-- The 13th is no first Friday. -/
theorem mly_ignores_counts :
    ¬ ∀ (s : List Char) (tgt : Instant) (nti n : Nat), (snarfRrule s).freq = .monthly →
      (snarfRrule s).scale = .gregorian → (snarfRrule s).shift = 0 →
      bi383HasBits (snarfRrule s).pos = false →
      (bui31HasBits (snarfRrule s).mon = true → (snarfRrule s).inter = 1) →
      Gregorian.Valid tgt.y tgt.m tgt.d → 1901 ≤ tgt.y → tgt.y ≤ 2099 →
      Fills (clampCount (snarfRrule s) nti) ((rrulFillMly tgt nti (snarfRrule s)).events n)
        (mlyListing (MonthDayAsked (snarfRrule s) (protoOf tgt (snarfRrule s))) (snarfRrule s)
          (protoOf tgt (snarfRrule s)) n) := by
  intro h
  have hfills := h "FREQ=MONTHLY;BYMONTHDAY=13;BYDAY=1FR".toList (.pack 2000 1 1 0 0 0 echsAllSec) 64 1
  rw [snarfRrule_thirteenth] at hfills
  have hcode : (rrulFillMly (.pack 2000 1 1 0 0 0 echsAllSec) 64
      { freq := .monthly, dom := ⟨1, 13⟩, dow := .native [13] }).events 1
      = [.pack 2000 1 13 0 0 0 echsAllSec] := by decide
  -- the first Friday is the 7th
  have hnone : ∀ d, ¬ MonthDayAsked { freq := .monthly, dom := ⟨1, 13⟩, dow := .native [13] }
      (.pack 2000 1 1 0 0 0 echsAllSec) 2000 1 d := by
    rintro d ⟨hdom, hdow, -⟩
    obtain ⟨t, ht, htakes⟩ := hdow rfl
    rw [show bi447List (.native [13]) = [13] by decide, List.mem_singleton] at ht
    have hpick := ymcwGetDom_pick (y := 2000) (m := 1) (w := 5) (c := 1)
      (rightMonth_of_range (by decide) (by decide)) (by decide) (by decide)
    rw [show ymcwGetDom 2000 1 1 5 = 7 by decide] at hpick
    have htakes' : Picks.pick (monthWeekdays 2000 1 5) 1 = some d := by
      rw [ht] at htakes
      exact htakes
    rw [htakes', Option.getD_some] at hpick
    rw [← hpick] at hdom
    exact absurd (hdom rfl) (by decide)
  have hmeant : mlyListing (MonthDayAsked { freq := .monthly, dom := ⟨1, 13⟩, dow := .native [13] }
      (protoOf (.pack 2000 1 1 0 0 0 echsAllSec)
        { freq := .monthly, dom := ⟨1, 13⟩, dow := .native [13] }))
      { freq := .monthly, dom := ⟨1, 13⟩, dow := .native [13] }
      (protoOf (.pack 2000 1 1 0 0 0 echsAllSec)
        { freq := .monthly, dom := ⟨1, 13⟩, dow := .native [13] }) 1 = [] := by
    have hdates : monthDates (MonthDayAsked { freq := .monthly, dom := ⟨1, 13⟩, dow := .native [13] }
        (.pack 2000 1 1 0 0 0 echsAllSec)) 24000 = [] := by
      unfold monthDates
      rw [List.map_eq_nil_iff, List.filter_eq_nil_iff]
      intro d _
      simpa using hnone d
    have hproto : protoOf (.pack 2000 1 1 0 0 0 echsAllSec)
        { freq := .monthly, dom := ⟨1, 13⟩, dow := .native [13] } = .pack 2000 1 1 0 0 0 echsAllSec := by
      decide
    have hmonth : monthNo (Instant.pack 2000 1 1 0 0 0 echsAllSec).y
        (Instant.pack 2000 1 1 0 0 0 echsAllSec).m + 0 * 1 = 24000 := by decide
    rw [hproto]
    unfold mlyListing Loop.listing mlyItems
    simp only [List.range_one, List.flatMap_cons, List.flatMap_nil, hmonth, hdates]
    rfl
  have hno := hfills rfl rfl rfl rfl (by decide) (by decide) (by decide) (by decide)
  rw [hcode, hmeant] at hno
  exact absurd hno.1 (by decide)

end Echse
