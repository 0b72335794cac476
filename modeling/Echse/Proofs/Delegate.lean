/-
Where a daily rule is handed over to the weekly loop.

`rrul_fill_dly` hands a rule with plain weekdays and no INTERVAL over to `rrul_fill_wly`, which
looks at neither BYMONTHDAY nor, after a day in an unlisted month, the rest of a week.  Both
loops take their times from the same days, so it is for each day to say whether they agree.
-/
import Echse.Proofs.Weekly

namespace Echse

open Months (before later)
open FillLoop (Loop)

/-- `rrul_fill_dly` with its own loop for every rule. -/
def dlyOwn (tgt : Instant) (nti : Nat) (rr : Rrulsp) : Expander where
  loop := dlyLoop (protoOf tgt rr) rr
  room := clampCount rr nti
  start :=
    if countGone rr nti || badDate (protoOf tgt rr) then .error .done
    else .ok
      { y := (protoOf tgt rr).y, m := (protoOf tgt rr).m, d := (protoOf tgt rr).d
        w := echsScaleWday rr.scale (protoOf tgt rr).y (protoOf tgt rr).m (protoOf tgt rr).d
        maxd := echsScaleNdim rr.scale (protoOf tgt rr).y (protoOf tgt rr).m }

/-- Rules that are not handed over are left to that loop. -/
theorem rrulFillDly_eq_dlyOwn {rr : Rrulsp} (tgt : Instant) (nti : Nat)
    (h : (maskPlain (wdMaskOf rr.dow) && rr.inter == 1) = false) :
    rrulFillDly tgt nti rr = dlyOwn tgt nti rr := Tick.rrulFillDly_eq tgt nti h

/-! ### Days -/

/-- The times of a day that are neither before the start nor past UNTIL. -/
def liveTimes (len : Nat → Nat) (rr : Rrulsp) (proto : Instant) (n : Nat) : List Instant :=
  (dayTimes len rr proto n).takeWhile fun x => !rr.late x

/-- No selected day before this one in its week lies in an unlisted month. -/
def Unskipped (len : Nat → Nat) (rr : Rrulsp) (proto : Instant) (n : Nat) : Prop :=
  ∀ a ∈ weekDays rr.dow (protoWday rr proto), a < n % 7 →
    dayTimes len rr proto (n - n % 7 + a) ≠ [] →
      MonthListed rr.mon (dateOn len proto (n - n % 7 + a)).m

/-- **The loops agree on a day**: if it has a listed weekday, a listed month and times, then
BYMONTHDAY lists it exactly if the weekly loop gets to it. -/
def DayAgrees (len : Nat → Nat) (rr : Rrulsp) (proto : Instant) (n : Nat) : Prop :=
  n % 7 ∈ weekDays rr.dow (protoWday rr proto) → MonthListed rr.mon (dateOn len proto n).m →
    liveTimes len rr proto n ≠ [] →
      (domListed rr.dom (dateOn len proto n).d (len (later len proto.monthDay n).1) ↔
        Unskipped len rr proto n)

/-- The weekly loop keeps a day. -/
def WlyKeeps (len : Nat → Nat) (rr : Rrulsp) (proto : Instant) (n : Nat) : Prop :=
  n % 7 ∈ weekDays rr.dow (protoWday rr proto) ∧
    ∀ a ∈ weekDays rr.dow (protoWday rr proto), a ≤ n % 7 →
      dayTimes len rr proto (n - n % 7 + a) ≠ [] →
        MonthListed rr.mon (dateOn len proto (n - n % 7 + a)).m

instance (len : Nat → Nat) (rr : Rrulsp) (proto : Instant) (n : Nat) :
    Decidable (WlyKeeps len rr proto n) := inferInstanceAs (Decidable (_ ∧ _))

/-- The daily loop keeps a day. -/
def DlyKeeps (len : Nat → Nat) (rr : Rrulsp) (proto : Instant) (n : Nat) : Prop :=
  DayListed rr (weekdayAfter rr.scale proto n) (dateOn len proto n).m (dateOn len proto n).d
    (len (later len proto.monthDay n).1)

instance (len : Nat → Nat) (rr : Rrulsp) (proto : Instant) (n : Nat) :
    Decidable (DlyKeeps len rr proto n) := inferInstanceAs (Decidable (DayListed ..))

section Delegate

variable {rr : Rrulsp} {proto : Instant} {len : Nat → Nat} {part : Prop} {last : Nat}

theorem liveTimes_subset {n : Nat} : liveTimes len rr proto n ⊆ timesOn len rr proto n :=
  fun _ hx => (List.mem_filter.mp ((List.takeWhile_prefix _).subset hx)).1

theorem dayTimes_ne_nil {n : Nat} (h : liveTimes len rr proto n ≠ []) : dayTimes len rr proto n ≠ [] := by
  intro h0
  unfold liveTimes at h
  rw [h0] at h
  exact h rfl

/-- So the days they agree on are kept by both or by none. -/
theorem keeps_iff (hdays : plainDays rr.dow ≠ []) (hy : 1 ≤ proto.y)
    (hm : 1 ≤ proto.m ∧ proto.m ≤ 12) (n : Nat) (hlive : liveTimes len rr proto n ≠ []) :
    (WlyKeeps len rr proto n ↔ DlyKeeps len rr proto n) ↔ DayAgrees len rr proto n := by
  have hw : 1 ≤ protoWday rr proto ∧ protoWday rr proto ≤ 7 := echsScaleWday_range _ _ _ _
  have hsel : n % 7 ∈ weekDays rr.dow (protoWday rr proto) ↔
      (weekdayAfter rr.scale proto n : Int) ∈ plainDays rr.dow := by
    rw [mem_weekDays hw hdays, ← weekdayAfter_eq hy hm]
    have hmod : wdayFrom (protoWday rr proto) (n % 7) = wdayFrom (protoWday rr proto) n := by
      unfold wdayFrom
      omega
    rw [hmod]
    exact and_iff_right (Nat.mod_lt _ (by decide))
  have hself : n - n % 7 + n % 7 = n := by omega
  have hwly : WlyKeeps len rr proto n ↔ n % 7 ∈ weekDays rr.dow (protoWday rr proto) ∧
      MonthListed rr.mon (dateOn len proto n).m ∧ Unskipped len rr proto n := by
    refine and_congr_right fun hmem => ⟨fun h => ⟨?_, fun a ha hlt => h a ha hlt.le⟩, fun h a ha hle => ?_⟩
    · have := h _ hmem le_rfl
      rw [hself] at this
      exact this (dayTimes_ne_nil hlive)
    · rcases Nat.eq_or_lt_of_le hle with rfl | hlt
      · rw [hself]
        exact fun _ => h.1
      · exact h.2 a ha hlt
  have hdly : DlyKeeps len rr proto n ↔ n % 7 ∈ weekDays rr.dow (protoWday rr proto) ∧
      MonthListed rr.mon (dateOn len proto n).m ∧
        domListed rr.dom (dateOn len proto n).d (len (later len proto.monthDay n).1) := by
    rw [hsel]
    exact ⟨fun ⟨h1, h2, h3⟩ => ⟨h1.resolve_left hdays, h2, h3⟩,
      fun ⟨h1, h2, h3⟩ => ⟨Or.inr h1, h2, h3⟩⟩
  rw [hwly, hdly]
  unfold DayAgrees
  constructor
  · intro h hmem hmon _
    have := h
    simp only [hmem, hmon, true_and] at this
    exact this.symm
  · intro h
    refine and_congr_right fun hmem => and_congr_right fun hmon => ?_
    exact (h hmem hmon hlive).symm

/-! ### Listings -/

/-- The month lengths the loops go by are a calendar of their own. -/
theorem lengthsTo_lenOf {ndim : Nat → Nat → Nat} {k0 n : Nat}
    (h : LengthsTo ndim (lenOf ndim) True k0 last) (hn : n ≤ last) (part : Prop) :
    LengthsTo ndim (lenOf ndim) part k0 n :=
  ⟨fun j hj hlt => h.pos j hj (by omega), fun _ _ _ => Or.inl rfl, hn.trans h.years⟩

theorem lengthsTo_ruleOfFour {k0 n : Nat} (hn : n ≤ before (lenOf ndimGreg) (12 * 65536)) (part : Prop) :
    LengthsTo ndimGreg (lenOf ndimGreg) part k0 n := by
  refine ⟨fun j _ _ => ?_, fun _ _ _ => Or.inl rfl, hn⟩
  have := ndimGreg_range (j / 12) (m := j % 12 + 1) (by omega) (by omega)
  unfold lenOf
  omega

theorem dayNoIn_add_le {i : Instant} {n : Nat} (hm : i.monthDay.1 < 12 * 65536)
    (hn : i.d + n ≤ len i.monthDay.1) : i.dayNoIn len + n ≤ before len (12 * 65536) := by
  have hs : before len (i.monthDay.1 + 1) = before len i.monthDay.1 + len i.monthDay.1 :=
    Months.before_succ _
  have hend := Months.before_le len (show i.monthDay.1 + 1 ≤ 12 * 65536 from hm)
  have hno : i.dayNoIn len = before len i.monthDay.1 + i.d := rfl
  omega

/-- Where what comes after something late is late, a listing goes by the days. -/
theorem listing_flatMap {α : Type} {items : Nat → List α} {late : α → Bool} (n : Nat)
    (h : ∀ j < n, ∀ i < j, ∀ x ∈ items i, late x = true → ∀ y ∈ items j, late y = true) :
    Loop.listing items late n = (List.range n).flatMap fun i => (items i).takeWhile fun x => !late x := by
  induction n with
  | zero => rfl
  | succ n ih =>
      rw [Loop.listing_succ, ih fun j hj => h j (by omega), List.range_succ, List.flatMap_append,
        List.flatMap_singleton]
      split
      · rfl
      · rename_i hsome
        simp only [not_forall, Bool.not_eq_false] at hsome
        obtain ⟨i, hi, x, hx, hl⟩ := hsome
        rw [Loop.takeWhile_of_late (h n (by omega) i hi x hx hl), List.append_nil]

/-- Blocks without a common item can be told from their union. -/
theorem flatMap_ite_iff {α : Type} {f : Nat → List α} {P Q : Nat → Prop} [DecidablePred P]
    [DecidablePred Q] {n : Nat} (hsep : ∀ j < n, ∀ i < j, ∀ x ∈ f i, ∀ y ∈ f j, x ≠ y) :
    ((List.range n).flatMap fun i => if P i then f i else []) =
        ((List.range n).flatMap fun i => if Q i then f i else []) ↔
      ∀ i < n, f i ≠ [] → (P i ↔ Q i) := by
  have hof : ∀ {P : Nat → Prop} [DecidablePred P] {i : Nat} {x : α}, i < n → x ∈ f i →
      (x ∈ (List.range n).flatMap (fun i => if P i then f i else []) ↔ P i) := by
    intro P _ i x hi hx
    rw [List.mem_flatMap]
    constructor
    · rintro ⟨j, hj, hmem⟩
      have hj' := List.mem_range.mp hj
      split at hmem
      · rename_i hP
        rcases Nat.lt_trichotomy i j with hlt | rfl | hlt
        · exact absurd rfl (hsep j hj' i hlt x hx x hmem)
        · exact hP
        · exact absurd rfl (hsep i hi j hlt x hmem x hx)
      · cases hmem
    · exact fun hP => ⟨i, List.mem_range.mpr hi, by rwa [if_pos hP]⟩
  constructor
  · intro heq i hi hne
    obtain ⟨x, xs, hf⟩ := List.exists_cons_of_ne_nil hne
    have hx : x ∈ f i := hf ▸ List.mem_cons_self
    rw [← hof hi hx (P := P), heq, hof hi hx]
  · intro h
    refine List.flatMap_congr fun i hi => ?_
    by_cases hnil : f i = []
    · rw [hnil, ite_self, ite_self]
    · exact if_congr (h i (List.mem_range.mp hi) hnil) rfl rfl

/-- Up to UNTIL, whatever days a loop keeps. -/
theorem listing_keeps {K : Nat → Prop} [DecidablePred K] {n : Nat}
    (hday : Months.Valid len proto.monthDay.1 proto.monthDay.2) {ndim : Nat → Nat → Nat}
    (hreg : RegularLen ndim) (hle : ∀ j, len j ≤ lenOf ndim j)
    (hcal : LengthsTo ndim len part proto.monthDay.1 (proto.dayNoIn len + n)) :
    Loop.listing (fun i => if K i then dayTimes len rr proto i else []) rr.late n =
      (List.range n).flatMap fun i => if K i then liveTimes len rr proto i else [] := by
  rw [listing_flatMap]
  · refine List.flatMap_congr fun i _ => ?_
    split <;> rfl
  · intro j hj i hi x hx hl y hy
    have hmem : ∀ {i : Nat} {x : Instant}, x ∈ (if K i then dayTimes len rr proto i else []) →
        x ∈ timesOn len rr proto i := by
      intro i x hx
      split at hx
      · exact (List.mem_filter.mp hx).1
      · cases hx
    obtain ⟨hfits, -, hord⟩ := dateOn_lt hday hreg hle hcal (n := j) (by omega)
    have hfits' := (dateOn_lt hday hreg hle hcal (n := i) (by omega)).1
    exact Rrulsp.late_of_lt (key_lt_of_day hfits' hfits (hord i hi) (hmem hx) (hmem hy)) hl

/-- A week's items are those of the days that the weekly loop keeps. -/
theorem wlyItems_keeps (j : Nat)
    (hdates : ∀ o < 7, (dateOn len proto (j * 7 + o)).Fits ∧
      1 ≤ (dateOn len proto (j * 7 + o)).m ∧ (dateOn len proto (j * 7 + o)).m ≤ 12) :
    wlyItems len rr proto (j * 7) =
      (List.range 7).flatMap fun r =>
        if WlyKeeps len rr proto (j * 7 + r) then dayTimes len rr proto (j * 7 + r) else [] := by
  rw [wlyItems_eq hdates, flatMap_weekDays]
  refine List.flatMap_congr fun r hr => ?_
  have hr' := List.mem_range.mp hr
  have hkeeps : WlyKeeps len rr proto (j * 7 + r) ↔ r ∈ weekDays rr.dow (protoWday rr proto) ∧
      ∀ a ∈ weekDays rr.dow (protoWday rr proto), a ≤ r → dayTimes len rr proto (j * 7 + a) ≠ [] →
        MonthListed rr.mon (dateOn len proto (j * 7 + a)).m := by
    unfold WlyKeeps
    rw [show (j * 7 + r) % 7 = r by omega, Nat.add_sub_cancel]
  rw [if_congr hkeeps rfl rfl]
  by_cases hmem : r ∈ weekDays rr.dow (protoWday rr proto)
  · rw [if_pos hmem]
    exact if_congr (and_iff_right hmem).symm rfl rfl
  · rw [if_neg hmem, if_neg fun h => hmem h.1]

/-- The day an instant is on, as a number. -/
def dateKey (x : Instant) : Nat := x.date.key

theorem dateKey_of_mem {n : Nat} (h : (dateOn len proto n).Fits) {x : Instant}
    (hx : x ∈ timesOn len rr proto n) : dateKey x = (dateOn len proto n).key := by
  unfold dateKey
  rw [Enum.date_times h hx]

end Delegate

/-! ### Both loops -/

section Runs

variable {rr : Rrulsp} {tgt : Instant}

/-- The calendar both loops go by. -/
def ownLen (rr : Rrulsp) : Nat → Nat := lenOf (echsScaleNdim rr.scale)

theorem valid_ownLen (hvalid : Tick.day.ValidStart tgt rr) :
    Months.Valid (ownLen rr) (protoOf tgt rr).monthDay.1 (protoOf tgt rr).monthDay.2 :=
  ⟨hvalid.day.1, hvalid.day.2.trans (scaleLen_le rr.scale _)⟩

variable {k : Nat}

/-- The dates of the run, each with its times. -/
theorem timesOn_keyed (hvalid : Tick.day.ValidStart tgt rr) {n : Nat}
    (hcal : LengthsTo (echsScaleNdim rr.scale) (ownLen rr) True (protoOf tgt rr).monthDay.1
      ((protoOf tgt rr).dayNoIn (ownLen rr) + n)) {i : Nat} (hi : i ≤ n) :
    ∀ x ∈ timesOn (ownLen rr) rr (protoOf tgt rr) i,
      dateKey x = (dateOn (ownLen rr) (protoOf tgt rr) i).key ∧
        ∀ h < i, ∀ y ∈ timesOn (ownLen rr) rr (protoOf tgt rr) h, dateKey y < dateKey x := by
  intro x hx
  have hreg := regularLen_scale rr.scale
  obtain ⟨hfits, -, hord⟩ := dateOn_lt (valid_ownLen hvalid) hreg (fun _ => le_rfl) hcal (n := i)
    (by omega)
  have hkey := dateKey_of_mem hfits hx
  refine ⟨hkey, fun h hlt y hy => ?_⟩
  have hfits' := (dateOn_lt (valid_ownLen hvalid) hreg (fun _ => le_rfl) hcal (n := h) (by omega)).1
  rw [hkey, dateKey_of_mem hfits' hy]
  exact hord h hlt

/-- **What the weekly loop leaves in the buffer.** -/
theorem events_wly (hinter : rr.inter = 1) (hvalid : Tick.day.ValidStart tgt rr) {nti : Nat}
    (hgone : countGone rr nti = false)
    (hcal : LengthsTo (echsScaleNdim rr.scale) (ownLen rr) True (protoOf tgt rr).monthDay.1
      ((protoOf tgt rr).dayNoIn (ownLen rr) + k * 7)) :
    (rrulFillWly tgt nti rr).events k =
      (Loop.fillBuffer dateKey (clampCount rr nti) ((List.range (k * 7)).flatMap fun i =>
        if WlyKeeps (ownLen rr) rr (protoOf tgt rr) i then liveTimes (ownLen rr) rr (protoOf tgt rr) i
        else [])).map fun x => echsInstantAttachScale x rr.scale := by
  have hbad : badDate (protoOf tgt rr) = false := hvalid.badDate
  have hreg := regularLen_scale rr.scale
  have hat : ∀ j < k, ∃ p,
      (wlyLoop (protoOf tgt rr) rr).orbit (wlyStart rr (protoOf tgt rr)) j = some p ∧
      (wlyLoop (protoOf tgt rr) rr).groups p =
        ((weekDays rr.dow (protoWday rr (protoOf tgt rr))).map fun o =>
          timesOn (ownLen rr) rr (protoOf tgt rr) (j * 7 + o)).map some ∧
      (wlyLoop (protoOf tgt rr) rr).StoresUpTo rr.late p
        (wlyItems (ownLen rr) rr (protoOf tgt rr) (j * 7)) ∧
      ((wlyLoop (protoOf tgt rr) rr).EndsLate rr.late p
          (wlyItems (ownLen rr) rr (protoOf tgt rr) (j * 7)) ∨
        ∀ i < k, j < i → ∀ x ∈ wlyItems (ownLen rr) rr (protoOf tgt rr) (i * 7), rr.late x = true) := by
    intro j hj
    have := wlyLoop_at rr (protoOf tgt rr) hvalid.month (valid_ownLen hvalid) (fun _ => le_rfl)
      (by omega) (k := k) (hcal.mono (by rw [hinter]; omega)) j hj
    simpa only [hinter, Nat.mul_one] using this
  have hlist := (Loop.chunksUpTo_listing (wlyLoop_plain (protoOf tgt rr) rr) k
    (fun j hj => by
      obtain ⟨p, hp, -, hst, hend⟩ := hat j hj
      exact ⟨p, hp, hst, hend⟩) k le_rfl).1
  have hbuf := Loop.passes_buffer (wlyLoop_plain (protoOf tgt rr) rr) (e := wlySlot rr)
    (fun _ _ => rfl)
    (fun j hj => by
      obtain ⟨p, hp, hgroups, -⟩ := hat j hj
      refine ⟨p, hp, hgroups, (⟨fun c hc x hx y hy => ?_, ?_⟩ : Loop.Keyed dateKey _)⟩
      · obtain ⟨o, ho, rfl⟩ := List.mem_map.mp hc
        have ho7 := weekDays_lt ho
        rw [(timesOn_keyed hvalid hcal (by omega) x hx).1, (timesOn_keyed hvalid hcal (by omega) y hy).1]
      · refine List.pairwise_map.mpr (List.Pairwise.imp_of_mem ?_ (weekDays_sorted _ _))
        intro a b _ hb hab x hx y hy
        have hb7 := weekDays_lt hb
        exact (timesOn_keyed hvalid hcal (by omega) y hy).2 _ (by omega) x hx)
    (fun j hj i hi x hx y hy => by
      obtain ⟨g, hg, hx⟩ := List.mem_flatten.mp hx
      obtain ⟨o, ho, rfl⟩ := List.mem_map.mp hg
      obtain ⟨g, hg, hy⟩ := List.mem_flatten.mp hy
      obtain ⟨o', ho', rfl⟩ := List.mem_map.mp hg
      have := weekDays_lt ho
      have := weekDays_lt ho'
      exact (timesOn_keyed hvalid hcal (by omega) y hy).2 _ (by omega) x hx)
    (clampCount rr nti)
  have hkeeps : Loop.listing (fun j => wlyItems (ownLen rr) rr (protoOf tgt rr) (j * 7)) rr.late k =
      Loop.listing (fun i => if WlyKeeps (ownLen rr) rr (protoOf tgt rr) i then
        dayTimes (ownLen rr) rr (protoOf tgt rr) i else []) rr.late (k * 7) := by
    unfold Loop.listing
    rw [flatMap_range_mul]
    congr 1
    refine List.flatMap_congr fun j hj => wlyItems_keeps j fun o ho => ?_
    have hj' := List.mem_range.mp hj
    obtain ⟨hfits, hm, -⟩ := dateOn_lt (valid_ownLen hvalid) hreg (fun _ => le_rfl) hcal
      (n := j * 7 + o) (by omega)
    exact ⟨hfits, hm⟩
  rw [hlist, hkeeps, listing_keeps (valid_ownLen hvalid) hreg (fun _ => le_rfl) hcal] at hbuf
  unfold Expander.events Expander.after Expander.init rrulFillWly
  dsimp only
  rw [hgone, hbad, Bool.or_false, if_neg Bool.false_ne_true]
  refine (congrArg (List.map Slot.ev) hbuf).trans ?_
  rw [List.map_map]
  rfl

/-- **What the daily loop leaves in the buffer.** -/
theorem events_dlyOwn (hinter : rr.inter = 1) (hvalid : Tick.day.ValidStart tgt rr) {nti : Nat}
    (hgone : countGone rr nti = false)
    (hcal : LengthsTo (echsScaleNdim rr.scale) (ownLen rr) True (protoOf tgt rr).monthDay.1
      ((protoOf tgt rr).dayNoIn (ownLen rr) + k)) :
    (dlyOwn tgt nti rr).events k =
      (Loop.fillBuffer dateKey (clampCount rr nti) ((List.range k).flatMap fun i =>
        if DlyKeeps (ownLen rr) rr (protoOf tgt rr) i then liveTimes (ownLen rr) rr (protoOf tgt rr) i
        else [])).map fun x => echsInstantAttachScale x rr.scale := by
  have hbad : badDate (protoOf tgt rr) = false := hvalid.badDate
  have hreg := regularLen_scale rr.scale
  have hat : ∀ i < k, ∃ p,
      (dlyLoop (protoOf tgt rr) rr).orbit (dlyStart rr (protoOf tgt rr)) i = some p ∧
      (dlyLoop (protoOf tgt rr) rr).groups p =
        (dlyGroups (ownLen rr) rr (protoOf tgt rr) i).map some ∧
      (dlyLoop (protoOf tgt rr) rr).StoresUpTo rr.late p
        (dlyItems (ownLen rr) rr (protoOf tgt rr) i) ∧
      (dlyLoop (protoOf tgt rr) rr).EndsLate rr.late p
        (dlyItems (ownLen rr) rr (protoOf tgt rr) i) := by
    intro i hi
    have := dlyLoop_at rr (protoOf tgt rr) hvalid.year hvalid.month (valid_ownLen hvalid)
      (fun _ => le_rfl) (by omega) (n := k) (lengthsTo_lenOf hcal (by rw [hinter]; omega) _) i hi
    simpa only [hinter, Nat.mul_one] using this
  have hlist := (Loop.chunksUpTo_listing (dlyLoop_plain (protoOf tgt rr) rr) k
    (fun i hi => by
      obtain ⟨p, hp, -, hst, hend⟩ := hat i hi
      exact ⟨p, hp, hst, Or.inl hend⟩) k le_rfl).1
  have hmem : ∀ {i : Nat}, ∀ g ∈ dlyGroups (ownLen rr) rr (protoOf tgt rr) i,
      g = timesOn (ownLen rr) rr (protoOf tgt rr) i := by
    intro i g hg
    unfold dlyGroups at hg
    split at hg
    · exact List.mem_singleton.mp hg
    · cases hg
  have hbuf := Loop.passes_buffer (dlyLoop_plain (protoOf tgt rr) rr) (e := dlySlot rr)
    (fun _ _ => rfl)
    (fun i hi => by
      obtain ⟨p, hp, hgroups, -⟩ := hat i hi
      refine ⟨p, hp, hgroups, (⟨fun c hc x hx y hy => ?_, ?_⟩ : Loop.Keyed dateKey _)⟩
      · rw [hmem c hc] at hx hy
        rw [(timesOn_keyed hvalid hcal hi.le x hx).1, (timesOn_keyed hvalid hcal hi.le y hy).1]
      · unfold dlyGroups
        split
        · exact List.pairwise_singleton ..
        · exact List.Pairwise.nil)
    (fun j hj i hi x hx y hy => by
      obtain ⟨g, hg, hx⟩ := List.mem_flatten.mp hx
      obtain ⟨g', hg', hy⟩ := List.mem_flatten.mp hy
      rw [hmem g hg] at hx
      rw [hmem g' hg'] at hy
      exact (timesOn_keyed hvalid hcal hj.le y hy).2 i hi x hx)
    (clampCount rr nti)
  have hkeeps : Loop.listing (dlyItems (ownLen rr) rr (protoOf tgt rr)) rr.late k =
      (List.range k).flatMap fun i => if DlyKeeps (ownLen rr) rr (protoOf tgt rr) i then
        liveTimes (ownLen rr) rr (protoOf tgt rr) i else [] :=
    listing_keeps (valid_ownLen hvalid) hreg (fun _ => le_rfl) hcal
  rw [hlist, hkeeps] at hbuf
  unfold Expander.events Expander.after Expander.init dlyOwn
  dsimp only
  rw [hgone, hbad, Bool.or_false, if_neg Bool.false_ne_true]
  refine (congrArg (List.map Slot.ev) hbuf).trans ?_
  rw [List.map_map]
  rfl

theorem clampCount_clampCount {nti : Nat} (h : countGone rr nti = false) :
    clampCount rr (clampCount rr nti) = clampCount rr nti ∧
      countGone rr (clampCount rr nti) = false := by
  by_cases hlt : u32OfInt rr.count < nti
  · have hclamp : clampCount rr nti = u32OfInt rr.count := if_pos hlt
    rw [hclamp]
    exact ⟨if_neg (lt_irrefl _), by simp [countGone]⟩
  · have hclamp : clampCount rr nti = nti := if_neg hlt
    rw [hclamp]
    exact ⟨hclamp, h⟩

/-- The daily rules that are handed over. -/
theorem rrulFillDly_eq_wly (hinter : rr.inter = 1) (hdays : plainDays rr.dow ≠ [])
    (hvalid : Tick.day.ValidStart tgt rr) {nti : Nat} (hgone : countGone rr nti = false) :
    rrulFillDly tgt nti rr = rrulFillWly tgt (clampCount rr nti) rr := by
  have hbad : badDate (protoOf tgt rr) = false := hvalid.badDate
  unfold rrulFillDly
  dsimp only
  rw [if_pos]
  simp [hgone, hbad, hinter, (maskPlain_wdMaskOf rr.dow).mpr hdays]

theorem fillBuffer_of_le {α : Type} (key : α → Nat) {n : Nat} {xs : List α} (h : xs.length ≤ n) :
    Loop.fillBuffer key n xs = xs := by
  unfold Loop.fillBuffer
  rw [List.take_of_length_le h, List.drop_of_length_le h]
  exact List.append_nil xs

theorem attachScale_date {x y : Instant} {s : Scale} (hx : x.y < 4096) (hy : y.y < 4096)
    (h : echsInstantAttachScale x s = echsInstantAttachScale y s) : x.date = y.date := by
  have hs : s.num < 16 := by cases s <;> decide
  have hfx := x.fits
  have hfy := y.fits
  have hdate := congrArg Instant.date h
  unfold echsInstantAttachScale at hdate
  rw [date_pack (t := ⟨x.y % 4096 + s.num * 4096, x.m, x.d⟩) ⟨by dsimp only; omega, hfx.2.1, hfx.2.2.1⟩,
    date_pack (t := ⟨y.y % 4096 + s.num * 4096, y.m, y.d⟩)
      ⟨by dsimp only; omega, hfy.2.1, hfy.2.2.1⟩] at hdate
  obtain ⟨hy', hm', hd'⟩ := Date.mk.inj hdate
  exact Date.mk.injEq .. ▸ ⟨by omega, hm', hd'⟩

/-- What a loop keeps is at most what there is. -/
theorem length_keeps_le {K : Nat → Prop} [DecidablePred K] (n : Nat) :
    ((List.range n).flatMap fun i => if K i then liveTimes (ownLen rr) rr (protoOf tgt rr) i else []).length
      ≤ ((List.range n).flatMap (dayTimes (ownLen rr) rr (protoOf tgt rr))).length := by
  rw [List.length_flatMap, List.length_flatMap]
  refine List.sum_le_sum fun i _ => ?_
  split
  · exact (List.takeWhile_prefix _).length_le
  · exact Nat.zero_le _

/-- **The shortcut for daily rules agrees with their own loop** as long as the two agree on each
day, and, where COUNT does not end the rule, only then. -/
theorem rrulFillDly_delegates (hinter : rr.inter = 1) (hdays : plainDays rr.dow ≠ [])
    (hvalid : Tick.day.ValidStart tgt rr) (k : Nat)
    (hcal : LengthsTo (echsScaleNdim rr.scale) (ownLen rr) True (protoOf tgt rr).monthDay.1
      ((protoOf tgt rr).dayNoIn (ownLen rr) + k * 7)) :
    ((∀ n < k * 7, DayAgrees (ownLen rr) rr (protoOf tgt rr) n) →
        ∀ nti, (rrulFillDly tgt nti rr).events k = (dlyOwn tgt nti rr).events (k * 7)) ∧
      ((∀ n < k * 7, (dateOn (ownLen rr) (protoOf tgt rr) n).y < 4096) →
        ((List.range (k * 7)).flatMap (dayTimes (ownLen rr) rr (protoOf tgt rr))).length
          ≤ u32OfInt rr.count →
        (∀ nti, (rrulFillDly tgt nti rr).events k = (dlyOwn tgt nti rr).events (k * 7)) →
          ∀ n < k * 7, DayAgrees (ownLen rr) rr (protoOf tgt rr) n) := by
  have hm := hvalid.month
  have hwly : ∀ {nti}, countGone rr nti = false → (rrulFillDly tgt nti rr).events k =
      (Loop.fillBuffer dateKey (clampCount rr nti) ((List.range (k * 7)).flatMap fun i =>
        if WlyKeeps (ownLen rr) rr (protoOf tgt rr) i then liveTimes (ownLen rr) rr (protoOf tgt rr) i
        else [])).map fun x => echsInstantAttachScale x rr.scale := by
    intro nti hgone
    obtain ⟨hclamp, hgone'⟩ := clampCount_clampCount hgone
    rw [rrulFillDly_eq_wly hinter hdays hvalid hgone, events_wly hinter hvalid hgone' hcal, hclamp]
  constructor
  · intro hagree nti
    cases hgone : countGone rr nti with
    | true =>
        rw [Expander.events_of_error (w := .done) (by simp [rrulFillDly, hgone]),
          Expander.events_of_error (w := .done) (by simp [dlyOwn, hgone])]
    | false =>
        rw [hwly hgone, events_dlyOwn hinter hvalid hgone hcal]
        congr 2
        refine List.flatMap_congr fun n hn => ?_
        by_cases hnil : liveTimes (ownLen rr) rr (protoOf tgt rr) n = []
        · rw [hnil, ite_self, ite_self]
        · exact if_congr ((keeps_iff hdays hvalid.year hm n hnil).mpr
            (hagree n (List.mem_range.mp hn))) rfl rfl
  · intro hyears hcount heq n hn
    by_cases hnil : liveTimes (ownLen rr) rr (protoOf tgt rr) n = []
    · exact fun _ _ hne => absurd hnil hne
    -- as many events as COUNT allows
    have hgone : countGone rr (u32OfInt rr.count) = false := by simp [countGone]
    have hroom : clampCount rr (u32OfInt rr.count) = u32OfInt rr.count := by simp [clampCount]
    have hall := heq (u32OfInt rr.count)
    rw [hwly hgone, events_dlyOwn hinter hvalid hgone hcal, hroom,
      fillBuffer_of_le _ ((length_keeps_le _).trans hcount),
      fillBuffer_of_le _ ((length_keeps_le _).trans hcount), List.map_flatMap, List.map_flatMap] at hall
    simp only [apply_ite (List.map _), List.map_nil] at hall
    refine (keeps_iff hdays hvalid.year hm n hnil).mp ((flatMap_ite_iff ?_).mp hall n hn (by simpa))
    intro j hj i hi ex hex ey hey hxy
    obtain ⟨x, hx, rfl⟩ := List.mem_map.mp hex
    obtain ⟨y, hy, rfl⟩ := List.mem_map.mp hey
    have hx' := liveTimes_subset hx
    have hy' := liveTimes_subset hy
    have hlt := (timesOn_keyed hvalid hcal hj.le y hy').2 i hi x hx'
    have hyear : ∀ {i : Nat} {x : Instant}, i < k * 7 →
        x ∈ timesOn (ownLen rr) rr (protoOf tgt rr) i → x.y < 4096 := by
      intro i x hi hx
      have hfits := (dateOn_lt (valid_ownLen hvalid) (regularLen_scale rr.scale) (fun _ => le_rfl) hcal
        (n := i) (by omega)).1
      have hy := hyears i hi
      rwa [← Enum.date_times hfits hx] at hy
    have hdate := attachScale_date (hyear (by omega) hx') (hyear hj hy') hxy
    unfold dateKey at hlt
    rw [hdate] at hlt
    exact lt_irrefl _ hlt

end Runs

theorem snarfRrule_weekdays :
    snarfRrule "FREQ=DAILY;BYDAY=WE,FR".toList = { freq := .daily, dow := .native [3, 5] } := by decide

/-- Without BYMONTH and BYMONTHDAY they agree on all days. -/
theorem rrulFillDly_delegates_weekdays :
    (rrulFillDly (.pack 2000 1 5 0 0 0 echsAllSec) 64
        { freq := .daily, dow := .native [3, 5] }).events 2 =
      (dlyOwn (.pack 2000 1 5 0 0 0 echsAllSec) 64
        { freq := .daily, dow := .native [3, 5] }).events 14 := by
  refine (rrulFillDly_delegates rfl (by decide)
    ⟨by decide, by decide, ⟨by decide, by decide⟩, by decide⟩ 2 ?_).1 (fun n _ _ _ _ => ?_) 64
  · exact lengthsTo_ruleOfFour (dayNoIn_add_le (by decide) (by decide)) _
  · exact ⟨fun _ _ _ _ _ => Or.inl (by decide), fun _ => Or.inl (by decide)⟩

/-- BYMONTHDAY is lost on the way: every Monday comes in place of those that are a first. -/
theorem delegate_drops_monthdays :
    ¬ ∀ (s : List Char) (tgt : Instant) (nti k : Nat),
      (snarfRrule s).inter = 1 → plainDays (snarfRrule s).dow ≠ [] →
      Tick.day.ValidStart tgt (snarfRrule s) →
      (rrulFillDly tgt nti (snarfRrule s)).events k = (dlyOwn tgt nti (snarfRrule s)).events (k * 7) := by
  intro h
  have hrule : snarfRrule "FREQ=DAILY;BYDAY=MO;BYMONTHDAY=1".toList =
      { freq := .daily, dow := .native [1], dom := ⟨1, 1⟩ } := by decide
  have := h "FREQ=DAILY;BYDAY=MO;BYMONTHDAY=1".toList (.pack 2000 1 1 0 0 0 echsAllSec) 64 1
  rw [hrule] at this
  have hno := this rfl (by decide) ⟨by decide, by decide, ⟨by decide, by decide⟩, by decide⟩
  revert hno
  decide

end Echse
