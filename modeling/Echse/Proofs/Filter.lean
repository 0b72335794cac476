/-
What a filter lets pass.

The list that is filled for an instant has the times of the rule's dates from its month on, at the
time of day of that instant where the rule names none.  As these ascend, the entry that a query
comes to is the instant asked for if that is in the list.  So a date of the rule is found for
instants of the same time of day; others are compared with what is never equal to them.
-/
import Echse.Filter
import Echse.Lib.Cursors
import Echse.Lib.FillSteady
import Echse.Proofs.Grid
import Echse.Proofs.Halt
import Echse.Proofs.Horizon
import Echse.Proofs.Room

namespace Echse

open FillLoop (Loop Fills)
open Cursors (place)

/-! ### The dates of a filter -/

/-- The parts that a filter has of its own. -/
def ownParts (rr : Rrulsp) : Parts := ylyParts echsNulInstant wlSize rr

/-- The dates that come up when the expander is at a year. -/
def ruleDates (rr : Rrulsp) (y : Nat) : List Date := candDates y (ylyCands rr (ownParts rr) y)

/-- A date of a rule: it comes up in one of the years that an instant has room for beside its scale,
and is not past the date of UNTIL. -/
def IsRuleDate (rr : Rrulsp) (t : Date) : Prop :=
  (∃ y, 1 ≤ y ∧ y < 4095 ∧ t ∈ ruleDates rr y) ∧ t.key ≤ rr.until_.date.key

/-- The times that a list filled for an instant has on a date. -/
def seedTimes (rr : Rrulsp) (inst : Instant) (t : Date) : List Instant :=
  (makeEnum (matchProto inst) rr).on (matchProto inst).ms t

/-- Those of a year as far as they are not before the month of the instant. -/
def seedItems (rr : Rrulsp) (inst : Instant) (y : Nat) : List Instant :=
  notBefore (matchProto inst) ((ruleDates rr y).flatMap (seedTimes rr inst))

/-- The year that filling starts with. -/
def firstYear (rr : Rrulsp) (inst : Instant) : Nat := ylyStartYear inst.y rr.shift

/-- An instant of a month, some time before those years are over. -/
structure Query (x : Instant) : Prop where
  year : 2 ≤ x.y ∧ x.y < 4000
  month : 1 ≤ x.m ∧ x.m ≤ 12
  day : 1 ≤ x.d ∧ x.d ≤ 31

/-- A rule that says by itself which dates it has, and has them in order. -/
structure FilterRule (rr : Rrulsp) : Prop where
  ranged : rr.Ranged
  scale : rr.scale = .gregorian
  count : rr.count = -1
  inter : rr.inter = 1
  hours : (bui31List rr.H).length ≠ 25
  own : ylyYmdp rr = true → bui31List rr.mon ≠ []
  dates : ∀ y, 1 ≤ y → y < 4095 → (ruleDates rr y).Pairwise (Date.key · < Date.key ·) ∧
    ∀ t ∈ ruleDates rr y, t.Fits
  years : ∀ y z, 1 ≤ y → y < z → z < 4095 →
    ∀ s ∈ ruleDates rr y, ∀ t ∈ ruleDates rr z, s.key < t.key

/-- What a rule needs so that a list can be filled for an instant. -/
structure Refillable (rr : Rrulsp) (inst : Instant) : Prop where
  /-- The rule names the time of day, or none, if it names the date. -/
  time : IsRuleDate rr inst.date → inst ∈ seedTimes rr inst inst.date
  /-- UNTIL is not at a time of day between them. -/
  until_ : ∀ t, IsRuleDate rr t → ∀ z ∈ seedTimes rr inst t, rr.late z = false
  /-- No date from the month on comes up before the first year. -/
  first : ∀ y, 1 ≤ y → y < firstYear rr inst → ∀ t ∈ ruleDates rr y,
    t.key < (matchProto inst).date.key
  /-- Nothing comes after 63 years without a date. -/
  gap : ∀ a b, firstYear rr inst ≤ a → a + 63 ≤ b → b < 65536 →
    (∀ y, a ≤ y → y < a + 63 → seedItems rr inst y = []) → seedItems rr inst b = []
  /-- If something is before the instant in its month, then something comes after that. -/
  next : ∀ y, firstYear rr inst ≤ y → y < 4095 → ∀ z ∈ seedItems rr inst y,
    rr.late z = false → z.key < inst.key →
      ∃ y', firstYear rr inst ≤ y' ∧ y' < 4095 ∧
        ∃ z' ∈ seedItems rr inst y', rr.late z' = false ∧ inst.key ≤ z'.key
  /-- What is before the instant in its month is less than the list has room for. -/
  few : ((List.range 3).flatMap fun i => seedItems rr inst (firstYear rr inst + i)).countP
    (echsInstantLtP · inst) < wlSize
  /-- No date is begun that has more times than there is room for. -/
  room : (rrulFillYly (matchProto inst) wlSize rr).DatesFit ⟨wlSize, wlSize + grpCchOff⟩

/-! ### Filling the list -/

section Fill

variable {rr : Rrulsp} {x : Instant}

theorem protoOf_matchProto (hs : rr.scale = .gregorian) (hx : Query x) :
    protoOf (matchProto x) rr = matchProto x := by
  have hyear := hx.year
  have hmonth := hx.month
  have hfits := x.fits
  have hscale : echsInstantScale (matchProto x) = Scale.gregorian.num := by
    unfold echsInstantScale matchProto Instant.pack Scale.num
    dsimp only
    omega
  unfold protoOf echsInstantRescale
  rw [hs]
  dsimp only
  rw [if_pos hscale]
  have hy : x.y % 65536 = x.y := Nat.mod_eq_of_lt hfits.1
  have hy' : x.y % 4096 = x.y := Nat.mod_eq_of_lt (by omega)
  have hm : x.m % 256 = x.m := Nat.mod_eq_of_lt hfits.2.1
  have hm' : x.m % 16 = x.m := Nat.mod_eq_of_lt (by omega)
  have hm0 : x.m / 16 = 0 := Nat.div_eq_of_lt (by omega)
  simp [echsInstantDetachScale, echsInstantAttachTzob, echsInstantAttachScale, echsInstantDetachTzob,
    echsInstantTzob, matchProto, Instant.pack, Scale.num, hy, hy', hm, hm', hm0]

theorem ylyParts_own (hown : ylyYmdp rr = true → bui31List rr.mon ≠ []) (x : Instant) :
    ylyParts (matchProto x) wlSize rr = ownParts rr := by
  have hd : (matchProto x).d = 0 := rfl
  have hnul : echsNulInstant.d = 0 ∧ echsNulInstant.m = 0 := ⟨rfl, rfl⟩
  unfold ownParts ylyParts
  rw [hd, hnul.1, hnul.2]
  cases hy : ylyYmdp rr with
  | false => simp
  | true =>
      have hne : ((bui31List rr.mon).take 12).isEmpty = false := by
        cases hmon : bui31List rr.mon with
        | nil => exact absurd hmon (hown hy)
        | cons m ms => rfl
      simp [hne]

theorem firstYear_range (rr : Rrulsp) {x : Instant} (hx : Query x) :
    x.y - 1 ≤ firstYear rr x ∧ firstYear rr x ≤ x.y := by
  have hyear := hx.year
  unfold firstYear ylyStartYear
  split
  · have hcast : (x.y : Int) - 1 = ((x.y - 1 : Nat) : Int) := by omega
    rw [hcast, u32OfInt_ofNat (by omega)]
    omega
  · omega

/-- The positions of the expander store the items of their years. -/
theorem seed_carries (h : FilterRule rr) {n : Nat} (hn : firstYear rr x + n < 4294967296) :
    (ylyLoop (matchProto x) wlSize rr).Carries rr.late
      (fun i => seedItems rr x (firstYear rr x + i)) { y := firstYear rr x } n := by
  intro i hi
  have horbit : (ylyLoop (matchProto x) wlSize rr).orbit { y := firstYear rr x } i =
      some { y := firstYear rr x + i * rr.inter } :=
    yly_orbit wlSize (matchProto x) (by rw [h.inter]; omega)
  rw [h.inter, Nat.mul_one] at horbit
  have hgroups : (ylyLoop (matchProto x) wlSize rr).groups { y := firstYear rr x + i } =
      ((ruleDates rr (firstYear rr x + i)).map (seedTimes rr x)).map some := by
    change candGroups _ _ _ (ylyCands rr (ylyParts (matchProto x) wlSize rr) _) = _
    rw [ylyParts_own h.own, candGroups_eq, List.map_map]
    rfl
  have hbar : ∀ z z' : Instant, rr.late z = true → echsInstantLtP z (matchProto x) = true →
      echsInstantLtP z' (matchProto x) = false → rr.late z' = true := by
    intro z z' hl hb hy
    rw [ltP_iff] at hb
    rw [ltP_false_iff] at hy
    exact Rrulsp.late_of_lt (by omega) hl
  have hjudge : ∀ z, (ylyLoop (matchProto x) wlSize rr).judge z =
      if rr.late z then .fin else if echsInstantLtP z (matchProto x) then .drop else .emit :=
    fun _ => rfl
  have hstores := Loop.stores_barred hjudge hbar hgroups
  have hitems : seedItems rr x (firstYear rr x + i) =
      ((ruleDates rr (firstYear rr x + i)).map (seedTimes rr x)).flatten.filter
        (fun z => !echsInstantLtP z (matchProto x)) := by
    unfold seedItems notBefore
    rw [List.flatMap_def]
  refine ⟨_, horbit, fun hhop => (nomatch hhop), fun _ => ?_⟩
  dsimp only
  rw [hitems]
  refine ⟨hstores.1, hstores.2.imp_right fun hall j _ _ z hz => hall z ?_⟩
  unfold seedItems notBefore at hz
  simpa using (List.mem_filter.mp hz).2

/-- The passes that are enough for `rrul_fill_yly` to fill the list, or to give up. -/
def fillPasses : Nat := wlSize * (64 + 1) + 64 + 1

/-- What the list is filled with for an instant. -/
def filledList (rr : Rrulsp) (x : Instant) : List Instant :=
  (rrulFillYly (matchProto x) wlSize rr).events fillPasses

/-- What is listed for an instant from the years before `n`. -/
def seedListing (rr : Rrulsp) (x : Instant) (n : Nat) : List Instant :=
  Loop.listing (fun i => seedItems rr x (firstYear rr x + i)) rr.late n

theorem fill_after (h : FilterRule rr) (hx : Query x) (n : Nat) :
    (rrulFillYly (matchProto x) wlSize rr).after n =
      (ylyLoop (matchProto x) wlSize rr).passes (some wlSize) n
        ((ylyLoop (matchProto x) wlSize rr).start { y := firstYear rr x }) := by
  obtain ⟨hroom, hgone⟩ := clampCount_open wlSize h.count (by decide)
  have hyear : (matchProto x).y = x.y := Nat.mod_eq_of_lt x.fits.1
  unfold Expander.after Expander.init rrulFillYly
  dsimp only
  rw [protoOf_matchProto h.scale hx, hroom, hgone, hyear]
  rfl

/-- **The list is filled with the listing**, as far as there is room. -/
theorem fill_spec (h : FilterRule rr) (hx : Query x) (hr : Refillable rr x) :
    Fills wlSize (filledList rr x) ((seedListing rr x fillPasses).map
      fun z => echsInstantAttachScale z .gregorian) := by
  have hfirst := (firstYear_range rr hx).2
  have hyear := hx.year.2
  have hpasses : fillPasses = 16705 := rfl
  unfold filledList Expander.events
  rw [fill_after h hx]
  refine Loop.passes_spending (r := 64) rfl (fun q z => ?_) wlSize fillPasses
    (seed_carries h (by omega)) ?_
  · change echsInstantAttachScale z rr.scale = _
    rw [h.scale]
  · intro k hk _ a ha hmany hnone j hj hkj
    have hworked := Loop.worked_le (L := ylyLoop (matchProto x) wlSize rr)
      (p := { y := firstYear rr x }) ha
    refine hr.gap (firstYear rr x + (k - 63)) _ (by omega) (by omega) (by omega) fun y hy hyk => ?_
    obtain ⟨i, rfl⟩ : ∃ i, y = firstYear rr x + i := ⟨y - firstYear rr x, by omega⟩
    exact hnone i (by omega) (by omega)

/-- The expander has returned by then. -/
theorem fill_done (h : FilterRule rr) (hx : Query x) {n : Nat} (hn : fillPasses ≤ n) :
    fillWhitelist n rr x = some (filledList rr x) := by
  have hstop : ((rrulFillYly (matchProto x) wlSize rr).after fillPasses).stop ≠ none := by
    rw [fill_after h hx]
    exact Loop.stop_of_budget (r := 64) rfl (fun _ => rfl) wlSize _ _ le_rfl
  have hdone : ((rrulFillYly (matchProto x) wlSize rr).after fillPasses).stop = some .done := by
    have hdef := Expander.defined_of_returns (rrulFillYly_returns (matchProto x) wlSize rr)
      fillPasses
    cases hs : ((rrulFillYly (matchProto x) wlSize rr).after fillPasses).stop with
    | none => exact absurd hs hstop
    | some w =>
        cases w with
        | done => rfl
        | trap => exact absurd hs hdef
  have hsame : (rrulFillYly (matchProto x) wlSize rr).after n =
      (rrulFillYly (matchProto x) wlSize rr).after fillPasses :=
    Loop.passes_of_stop_le _ hn hstop
  unfold fillWhitelist filledList Expander.events
  dsimp only
  rw [hsame, if_pos hdone]

/-! ### The order of the listing -/

theorem ruleDates_year {y : Nat} (hy : 1 ≤ y ∧ y < 4095) {t : Date} (ht : t ∈ ruleDates rr y) :
    y - 1 ≤ t.y ∧ t.y ≤ y + 1 := by
  have hcast : ∀ iy : Int, -1 ≤ iy → iy ≤ 1 → y - 1 ≤ u32OfInt ((y : Int) + iy) ∧
      u32OfInt ((y : Int) + iy) ≤ y + 1 := by
    intro iy h1 h2
    obtain ⟨k, hk⟩ : ∃ k : Nat, (y : Int) + iy = k := ⟨((y : Int) + iy).toNat, by omega⟩
    rw [hk, u32OfInt_ofNat (by omega)]
    omega
  unfold ruleDates candDates at ht
  simp only [List.mem_append, List.mem_map] at ht
  rcases ht with (⟨_, -, rfl⟩ | ⟨_, -, rfl⟩) | ⟨_, -, rfl⟩
  · exact hcast (-1) (by decide) (by decide)
  · exact hcast 0 (by decide) (by decide)
  · exact hcast 1 (by decide) (by decide)

theorem seedTimes_date {t : Date} (ht : t.Fits) {z : Instant} (hz : z ∈ seedTimes rr x t) :
    z.date = t := Enum.date_times ht hz

theorem mem_seedItems {y : Nat} {z : Instant} :
    z ∈ seedItems rr x y ↔
      ∃ t ∈ ruleDates rr y, z ∈ seedTimes rr x t ∧ (matchProto x).key ≤ z.key := by
  unfold seedItems notBefore
  simp only [List.mem_filter, List.mem_flatMap, Bool.not_eq_true', ltP_false_iff]
  constructor
  · rintro ⟨⟨t, ht, hz⟩, hkey⟩
    exact ⟨t, ht, hz, hkey⟩
  · rintro ⟨t, ht, hz, hkey⟩
    exact ⟨⟨t, ht, hz⟩, hkey⟩

/-- The items of a year are about that year. -/
theorem seedItems_year (h : FilterRule rr) {y : Nat} (hy : 1 ≤ y ∧ y < 4095) {z : Instant}
    (hz : z ∈ seedItems rr x y) : y - 1 ≤ z.y ∧ z.y ≤ y + 1 := by
  obtain ⟨t, ht, hzt, -⟩ := mem_seedItems.mp hz
  have hdate := seedTimes_date ((h.dates y hy.1 hy.2).2 t ht) hzt
  have hyear := ruleDates_year hy ht
  rw [← hdate] at hyear
  exact hyear

theorem key_lt_of_year {z z' : Instant} (hyear : z.y < z'.y) : z.key < z'.key := by
  have hz := (key_bounds z).2
  have hz' := (key_bounds z').1
  have hfits := z.fits
  unfold Date.key Instant.date at hz hz'
  dsimp only at hz hz'
  omega

/-- The items of the years ascend. -/
theorem seed_sorted (h : FilterRule rr) (hx : Query x) {n : Nat} (hn : firstYear rr x + n ≤ 4095) :
    ((List.range n).flatMap fun i => seedItems rr x (firstYear rr x + i)).Pairwise
      (Instant.key · < Instant.key ·) := by
  have hfirst := (firstYear_range rr hx).1
  have hyear := hx.year.1
  have htimes := makeEnum_sorted h.ranged h.hours (matchProto x)
  rw [List.pairwise_flatMap]
  constructor
  · intro i hi
    have hin := List.mem_range.mp hi
    obtain ⟨hdates, hfits⟩ := h.dates (firstYear rr x + i) (by omega) (by omega)
    exact (htimes.dates hdates hfits).filter _
  · refine List.pairwise_lt_range.imp_of_mem fun {i j} hi hj hij z hz z' hz' => ?_
    have hin := List.mem_range.mp hi
    have hjn := List.mem_range.mp hj
    obtain ⟨t, ht, hzt, -⟩ := mem_seedItems.mp hz
    obtain ⟨t', ht', hzt', -⟩ := mem_seedItems.mp hz'
    exact key_lt_of_day ((h.dates _ (by omega) (by omega)).2 t ht)
      ((h.dates _ (by omega) (by omega)).2 t' ht')
      (h.years _ _ (by omega) (by omega) (by omega) t ht t' ht') hzt hzt'

/-- The part of the listing that is about the years there are. -/
def seedHead (rr : Rrulsp) (x : Instant) : List Instant := seedListing rr x (4095 - firstYear rr x)

theorem late_mono (rr : Rrulsp) (z z' : Instant) (hkey : z.key < z'.key)
    (hz' : (!rr.late z') = true) : (!rr.late z) = true := by
  rw [Bool.not_eq_true'] at hz' ⊢
  by_contra hlate
  rw [Rrulsp.late_of_lt hkey (by simpa using hlate)] at hz'
  cases hz'

theorem mem_seedHead (h : FilterRule rr) (hx : Query x) {z : Instant} :
    z ∈ seedHead rr x ↔
      (∃ y, firstYear rr x ≤ y ∧ y < 4095 ∧ z ∈ seedItems rr x y) ∧ rr.late z = false := by
  have hfirst := (firstYear_range rr hx).2
  have hyear := hx.year.2
  unfold seedHead seedListing Loop.listing
  rw [Cursors.mem_takeWhile (seed_sorted h hx (by omega)) (late_mono rr), List.mem_flatMap,
    Bool.not_eq_true']
  refine and_congr_left fun _ => ?_
  constructor
  · rintro ⟨i, hi, hz⟩
    have hin := List.mem_range.mp hi
    exact ⟨firstYear rr x + i, by omega, by omega, hz⟩
  · rintro ⟨y, hy, hlt, hz⟩
    obtain ⟨i, rfl⟩ : ∃ i, y = firstYear rr x + i := ⟨y - firstYear rr x, by omega⟩
    exact ⟨i, List.mem_range.mpr (by omega), hz⟩

theorem seedHead_sorted (h : FilterRule rr) (hx : Query x) :
    (seedHead rr x).Pairwise (Instant.key · < Instant.key ·) := by
  have hfirst := (firstYear_range rr hx).2
  have hyear := hx.year.2
  exact (seed_sorted h hx (by omega)).sublist (List.takeWhile_sublist _)

theorem year_le_of_key {z z' : Instant} (hkey : z.key ≤ z'.key) : z.y ≤ z'.y := by
  by_contra hlt
  have := key_lt_of_year (show z'.y < z.y by omega)
  omega

/-- **What is listed behind those years is not come to**: where they have nothing from a query on,
63 years have passed without a date. -/
theorem seedListing_split (h : FilterRule rr) (hx : Query x) (hr : Refillable rr x) :
    ∃ rest, seedListing rr x fillPasses = seedHead rr x ++ rest ∧
      ∀ x', Query x' → x.key ≤ x'.key → rest ≠ [] → ∃ z ∈ seedHead rr x, x'.key ≤ z.key := by
  have hfirst := firstYear_range rr hx
  have hyear := hx.year
  have hpasses : fillPasses = 16705 := rfl
  have hle : 4095 - firstYear rr x ≤ fillPasses := by omega
  obtain ⟨rest, hrest⟩ : seedHead rr x <+: seedListing rr x fillPasses := by
    unfold seedHead seedListing
    exact Loop.listing_prefix hle
  refine ⟨rest, hrest.symm, fun x' hx' hkey hne => ?_⟩
  by_contra hall
  simp only [not_exists, not_and, not_le] at hall
  have hyear' := hx'.year
  have hxy := year_le_of_key hkey
  refine hne ?_
  have hsame : seedListing rr x fillPasses = seedHead rr x := by
    by_cases hlate : ∃ i < 4095 - firstYear rr x,
        ∃ z ∈ seedItems rr x (firstYear rr x + i), rr.late z = true
    · exact Loop.listing_of_late hle hlate
    · refine Loop.listing_of_nil hle fun j hj hjn => ?_
      refine hr.gap (x'.y + 2) _ (by omega) (by omega) (by omega) fun y hy hyk => ?_
      refine List.eq_nil_iff_forall_not_mem.mpr fun z hz => ?_
      have hzy := (seedItems_year h (by omega) hz).1
      have hmem : z ∈ seedHead rr x := by
        refine (mem_seedHead h hx).mpr ⟨⟨y, by omega, by omega, hz⟩, ?_⟩
        by_contra hl
        refine hlate ⟨y - firstYear rr x, by omega, z, ?_, by simpa using hl⟩
        rw [show firstYear rr x + (y - firstYear rr x) = y by omega]
        exact hz
      have hbefore := hall z hmem
      have hafter := key_lt_of_year (show x'.y < z.y by omega)
      omega
  rw [hsame] at hrest
  exact List.append_cancel_left (hrest.trans (List.append_nil _).symm)

theorem attach_gregorian {z : Instant} (hz : z.y < 4096) :
    echsInstantAttachScale z .gregorian = z := by
  have hyear : z.y % 4096 + Scale.gregorian.num * 4096 = z.y := by
    rw [Nat.mod_eq_of_lt hz]
    rfl
  unfold echsInstantAttachScale
  rw [hyear, pack_self]

/-- **What the list begins with**, and where it may be cut off. -/
theorem fill_head (h : FilterRule rr) (hx : Query x) (hr : Refillable rr x) :
    ∃ rest, filledList rr x <+: seedHead rr x ++ rest ∧
      (filledList rr x = seedHead rr x ++ rest ∨ wlSize ≤ (filledList rr x).length) ∧
      ∀ x', Query x' → x.key ≤ x'.key → rest ≠ [] → ∃ z ∈ seedHead rr x, x'.key ≤ z.key := by
  have hfirst := (firstYear_range rr hx).1
  have hyear := hx.year.1
  obtain ⟨rest, hlisting, hrest⟩ := seedListing_split h hx hr
  have hfills := fill_spec h hx hr
  have hhead : (seedHead rr x).map (fun z => echsInstantAttachScale z .gregorian) =
      seedHead rr x := by
    refine (List.map_congr_left fun z hz => ?_).trans (List.map_id _)
    obtain ⟨⟨y, hy, hlt, hzy⟩, -⟩ := (mem_seedHead h hx).mp hz
    have := (seedItems_year h (by omega) hzy).2
    exact attach_gregorian (by omega)
  rw [hlisting, List.map_append, hhead] at hfills
  refine ⟨_, hfills.1, hfills.2, fun x' hx' hkey hne => hrest x' hx' hkey fun hnil => hne ?_⟩
  rw [hnil]
  rfl

/-! ### Queries -/

theorem proto_date_lt (hx : Query x) : (matchProto x).date.key < x.date.key := by
  have hfits := x.fits
  have hday := hx.day.1
  unfold matchProto Instant.pack Instant.date Date.key
  dsimp only
  omega

/-- A date that is listed is in the head of the listing at all its times. -/
theorem mem_head_of_date (h : FilterRule rr) (hx : Query x) (hr : Refillable rr x) {t : Date}
    (ht : IsRuleDate rr t) (hkey : (matchProto x).date.key < t.key) {z : Instant}
    (hz : z ∈ seedTimes rr x t) : z ∈ seedHead rr x := by
  obtain ⟨y, hy1, hy, hty⟩ := ht.1
  have hfirst : firstYear rr x ≤ y := by
    by_contra hlt
    have := hr.first y hy1 (by omega) t hty
    omega
  have hdate := seedTimes_date ((h.dates y hy1 hy).2 t hty) hz
  have hproto := (key_bounds (matchProto x)).2
  have hkz := (key_bounds z).1
  rw [hdate] at hkz
  exact (mem_seedHead h hx).mpr ⟨⟨y, hfirst, hy, mem_seedItems.mpr ⟨t, hty, hz, by omega⟩⟩,
    hr.until_ t ht z hz⟩

variable {x' : Instant}

theorem date_le_of_key {z z' : Instant} (hkey : z.key ≤ z'.key) : z.date.key ≤ z'.date.key := by
  have hz := (key_bounds z).1
  have hz' := (key_bounds z').2
  omega

theorem head_date (h : FilterRule rr) (hx : Query x) {z : Instant} (hz : z ∈ seedHead rr x) :
    IsRuleDate rr z.date := by
  have hfirst := (firstYear_range rr hx).1
  have hyear := hx.year.1
  obtain ⟨⟨y, hy, hlt, hzy⟩, hlate⟩ := (mem_seedHead h hx).mp hz
  obtain ⟨t, ht, hzt, -⟩ := mem_seedItems.mp hzy
  have hdate := seedTimes_date ((h.dates y (by omega) hlt).2 t ht) hzt
  refine ⟨⟨y, by omega, hlt, by rw [hdate]; exact ht⟩, date_le_of_key ?_⟩
  exact (ltP_false_iff _ _).mp hlate

/-- **An instant is listed exactly if its date is one of the rule's**, at a time of day that the
list has. -/
theorem mem_head_iff (h : FilterRule rr) (hx : Query x) (hr : Refillable rr x)
    (hkey : x.key ≤ x'.key) (htime : IsRuleDate rr x'.date → x' ∈ seedTimes rr x x'.date) :
    x' ∈ seedHead rr x ↔ IsRuleDate rr x'.date := by
  have hproto := proto_date_lt hx
  have hdate := date_le_of_key hkey
  exact ⟨head_date h hx, fun ht => mem_head_of_date h hx hr ht (by omega) (htime ht)⟩

/-- **What a query comes to in the list is its instant exactly if the date is one of the
rule's.** -/
theorem entry_iff (h : FilterRule rr) (hx : Query x) (hr : Refillable rr x) (hx' : Query x')
    (hkey : x.key ≤ x'.key) (htime : IsRuleDate rr x'.date → x' ∈ seedTimes rr x x'.date)
    {e : Instant} (he : (filledList rr x)[place (echsInstantLtP · x') (filledList rr x)]? = some e) :
    e = x' ↔ IsRuleDate rr x'.date := by
  obtain ⟨rest, hprefix, -, hrest⟩ := fill_head h hx hr
  have hwhole := Cursors.getElem?_of_front hprefix he
  have hhead : (∃ z ∈ seedHead rr x, x'.key ≤ z.key) → (seedHead rr x)[place (echsInstantLtP · x')
      (seedHead rr x)]? = some e := by
    rintro ⟨z, hz, hle⟩
    have hex : ∃ z ∈ seedHead rr x, echsInstantLtP z x' = false :=
      ⟨z, hz, (ltP_false_iff _ _).mpr hle⟩
    rw [Cursors.place_append hex,
      List.getElem?_append_left (Cursors.place_lt_iff.mpr hex)] at hwhole
    exact hwhole
  rw [← mem_head_iff h hx hr hkey htime]
  constructor
  · rintro rfl
    by_cases hnil : rest = []
    · rw [hnil, List.append_nil] at hwhole
      exact List.mem_of_getElem? hwhole
    · exact List.mem_of_getElem? (hhead (hrest e hx' hkey hnil))
  · intro hmem
    have hbefore : ∀ y, echsInstantLtP y x' = true ↔ y.key < x'.key := fun y => ltP_iff y x'
    have hat := Cursors.getElem?_place_of_mem (seedHead_sorted h hx) hbefore hmem
    exact Option.some.inj ((hhead ⟨x', hmem, le_rfl⟩).symm.trans hat)

/-- Fewer entries than there is room for come before the instant that the list is filled for. -/
theorem place_head_lt (h : FilterRule rr) (hx : Query x) (hr : Refillable rr x) :
    place (echsInstantLtP · x) (seedHead rr x) < wlSize := by
  have hfirst := firstYear_range rr hx
  have hyear := hx.year
  refine lt_of_le_of_lt ?_ hr.few
  have hsplit : 4095 - firstYear rr x = 3 + (4092 - firstYear rr x) := by omega
  have hlater : (((List.range (4092 - firstYear rr x)).map (3 + ·)).flatMap
      fun i => seedItems rr x (firstYear rr x + i)).countP (echsInstantLtP · x) = 0 := by
    rw [List.countP_eq_zero]
    intro z hz hlt
    obtain ⟨i, hi, hz⟩ := List.mem_flatMap.mp hz
    obtain ⟨j, hj, rfl⟩ := List.mem_map.mp hi
    have hjn := List.mem_range.mp hj
    have hzy := (seedItems_year h (by omega) hz).1
    rw [ltP_iff] at hlt
    have := key_lt_of_year (show x.y < z.y by omega)
    omega
  refine (Cursors.place_le_countP _).trans ?_
  unfold seedHead seedListing Loop.listing
  refine (List.Sublist.countP_le (List.takeWhile_sublist _)).trans ?_
  rw [hsplit, List.range_add, List.flatMap_append, List.countP_append, hlater, Nat.add_zero]

/-- **A list that has been filled is not passed** by the instant it has been filled for. -/
theorem fill_reaches (h : FilterRule rr) (hx : Query x) (hr : Refillable rr x)
    (hne : filledList rr x ≠ []) :
    place (echsInstantLtP · x) (filledList rr x) < (filledList rr x).length := by
  obtain ⟨rest, hprefix, hwhole, hrest⟩ := fill_head h hx hr
  -- the head has something that is not before the instant
  have hex : ∃ z ∈ seedHead rr x, echsInstantLtP z x = false := by
    have hlater : ∃ z ∈ seedHead rr x, x.key ≤ z.key := by
      by_cases hnil : rest = []
      · rw [hnil, List.append_nil] at hprefix
        obtain ⟨z, hz⟩ := List.exists_mem_of_ne_nil _ hne
        have hmem := hprefix.subset hz
        by_cases hlt : z.key < x.key
        · obtain ⟨⟨y, hy, hyn, hzy⟩, hlate⟩ := (mem_seedHead h hx).mp hmem
          obtain ⟨y', hy', hyn', z', hz', hlate', hkey⟩ := hr.next y hy hyn z hzy hlate hlt
          exact ⟨z', (mem_seedHead h hx).mpr ⟨⟨y', hy', hyn', hz'⟩, hlate'⟩, hkey⟩
        · exact ⟨z, hmem, not_lt.mp hlt⟩
      · exact hrest x hx le_rfl hnil
    obtain ⟨z, hz, hle⟩ := hlater
    exact ⟨z, hz, (ltP_false_iff _ _).mpr hle⟩
  rcases hwhole with hall | hfull
  · refine Cursors.place_lt_iff.mpr ?_
    rw [hall]
    obtain ⟨z, hz, hb⟩ := hex
    exact ⟨z, List.mem_append_left _ hz, hb⟩
  · have hle : place (echsInstantLtP · x) (filledList rr x) ≤
        place (echsInstantLtP · x) (seedHead rr x ++ rest) := Cursors.place_mono hprefix
    rw [Cursors.place_append hex] at hle
    have hlt := place_head_lt h hx hr
    omega

/-- A list that stays empty is one of a rule that has no dates left. -/
theorem fill_empty (h : FilterRule rr) (hx : Query x) (hr : Refillable rr x)
    (hnil : filledList rr x = []) {t : Date} (ht : IsRuleDate rr t) : t.key < x.date.key := by
  by_contra hle
  obtain ⟨rest, -, hwhole, -⟩ := fill_head h hx hr
  rw [hnil] at hwhole
  have hhead : seedHead rr x = [] := by
    rcases hwhole with hall | hfull
    · exact (List.append_eq_nil_iff.mp hall.symm).1
    · exact absurd hfull (by decide)
  obtain ⟨z, hz⟩ := List.exists_mem_of_ne_nil _
    (makeEnum_times (matchProto x) rr t.y t.m t.d (matchProto x).ms)
  have hproto := proto_date_lt hx
  have hmem := mem_head_of_date h hx hr ht (by omega) (z := z) hz
  rw [hhead] at hmem
  cases hmem

/-- The list has no more entries than there is room for. -/
theorem fill_room (hr : Refillable rr x) : (filledList rr x).length ≤ wlSize := by
  have huniform : (rrulFillYly (matchProto x) wlSize rr).Uniform :=
    uniform_of_mem_expanders (by simp [expanders]) _ _ _
  have hsafe := (Expander.safe_iff huniform ⟨wlSize, wlSize + grpCchOff⟩).mpr hr.room
  exact (hsafe fillPasses).1

end Fill

/-! ### Runs -/

/-- What is left of the list is before an instant. -/
def Whitelist.Spent (s : Whitelist) (x : Instant) : Prop :=
  ∀ e ∈ (s.wl.take s.nwl).drop s.iwl, echsInstantLtP e x = true

/-- A query is answered. -/
def Answers (rr : Rrulsp) (s : Whitelist) (x : Instant) (b : Bool) (s' : Whitelist) : Prop :=
  ∃ fuel, echsInstantMatchesP fuel rr x s = some (b, s')

/-- **What a filter should do**: each of the queries is answered, and by whether the date is one of
the rule's. -/
def Filters (rr : Rrulsp) : Whitelist → List Instant → Prop
  | _, [] => True
  | s, x :: xs => ∃ b s', Answers rr s x b s' ∧ (b = true ↔ IsRuleDate rr x.date) ∧ Filters rr s' xs

/-- Two instants have the same time of day. -/
def SameTime (x y : Instant) : Prop := x.H = y.H ∧ x.M = y.M ∧ x.S = y.S ∧ x.ms = y.ms

/-- A query that the list can be filled for again if it is passed; otherwise the list has the time
of day that is asked for on a date of the rule. -/
def StepFit (rr : Rrulsp) (s : Whitelist) (x : Instant) : Prop :=
  s.nwl ≤ wlSize → (s.Spent x → Refillable rr x) ∧
    (¬ s.Spent x → IsRuleDate rr x.date → ∃ e ∈ s.wl, SameTime e x)

/-- A run of such queries. -/
def RunFit (rr : Rrulsp) : Whitelist → List Instant → Prop
  | _, [] => True
  | s, x :: xs => StepFit rr s x ∧ ∀ b s', Answers rr s x b s' → RunFit rr s' xs

/-- What a query leaves, for the queries from an instant on. -/
inductive Serves (rr : Rrulsp) (s : Whitelist) (x : Instant) : Prop
  | fresh (wl : s.wl = []) (nwl : s.nwl = 0) (iwl : s.iwl = 0)
  | never (nwl : s.nwl = nwlNever) (none : ∀ t, IsRuleDate rr t → t.key < x.date.key)
  | filled (seed : Instant) (query : Query seed) (refill : Refillable rr seed)
      (le : seed.key ≤ x.key) (wl : s.wl = filledList rr seed) (nwl : s.nwl = s.wl.length)
      (room : s.nwl ≤ wlSize) (iwl : s.iwl ≤ s.nwl)
      (passed : ∀ e ∈ s.wl.take s.iwl, echsInstantLtP e x = true)

section Run

variable {rr : Rrulsp} {s : Whitelist} {x x' : Instant}

/-- A time of a date is one of any other date. -/
theorem times_move {e : Enum} {y m d ms : Nat} {z w : Instant} (hz : z ∈ e.times y m d ms)
    (hsame : SameTime z w) : w ∈ e.times w.y w.m w.d ms := by
  unfold Enum.times at hz ⊢
  simp only [List.mem_flatMap, List.mem_map] at hz ⊢
  obtain ⟨H, hH, M, hM, S, hS, rfl⟩ := hz
  obtain ⟨h1, h2, h3, h4⟩ := hsame
  refine ⟨H, hH, M, hM, S, hS, ?_⟩
  have hself := pack_self w
  rw [← h1, ← h2, ← h3, ← h4] at hself
  rw [← hself]
  simp only [Instant.pack, Nat.mod_mod]

/-- The times of day of the list are those that it has been filled with. -/
theorem sameTime_seed (h : FilterRule rr) (hx : Query x) (hr : Refillable rr x) {e : Instant}
    (he : e ∈ filledList rr x) (hsame : SameTime e x') : x' ∈ seedTimes rr x x'.date := by
  obtain ⟨z, hz, rfl⟩ := List.mem_map.mp ((fill_spec h hx hr).1.subset he)
  unfold seedListing Loop.listing at hz
  obtain ⟨i, -, hz⟩ := List.mem_flatMap.mp ((List.takeWhile_prefix _).subset hz)
  obtain ⟨t, -, hzt, -⟩ := mem_seedItems.mp hz
  have hkeeps : SameTime z (echsInstantAttachScale z .gregorian) := by
    have hfits := z.fits
    unfold SameTime echsInstantAttachScale Instant.pack
    dsimp only
    omega
  refine times_move hzt ⟨hkeeps.1.trans hsame.1, hkeeps.2.1.trans hsame.2.1, ?_⟩
  exact ⟨hkeeps.2.2.1.trans hsame.2.2.1, hkeeps.2.2.2.trans hsame.2.2.2⟩

theorem Serves.mono (h : Serves rr s x) (hkey : x.key ≤ x'.key) : Serves rr s x' := by
  have hdate := date_le_of_key hkey
  cases h with
  | fresh wl nwl iwl => exact .fresh wl nwl iwl
  | never nwl none => exact .never nwl fun t ht => lt_of_lt_of_le (none t ht) hdate
  | filled seed query refill le wl nwl room iwl passed =>
      refine .filled seed query refill (le.trans hkey) wl nwl room iwl fun e he => ?_
      have hlt := (ltP_iff _ _).mp (passed e he)
      exact (ltP_iff _ _).mpr (by omega)

theorem eqP_iff (e x : Instant) : echsInstantEqP e x = true ↔ e = x := by
  unfold echsInstantEqP
  rw [beq_iff_eq]
  exact ⟨Instant.u_inj, fun h => by rw [h]⟩

/-- A list is answered from where the query comes to it. -/
theorem answer_iff {wl : List Instant} {i : Nat} {P : Prop}
    (h : ∀ e, wl[i]? = some e → (e = x ↔ P)) (hi : i < wl.length) :
    (wl[i]?).any (echsInstantEqP · x) = true ↔ P := by
  obtain ⟨e, he⟩ : ∃ e, wl[i]? = some e := ⟨wl[i], List.getElem?_eq_getElem hi⟩
  rw [he, Option.any_some, eqP_iff, h e he]

theorem passed_of_place (wl : List Instant) :
    ∀ e ∈ wl.take (place (echsInstantLtP · x) wl), echsInstantLtP e x = true := by
  intro e he
  have hbefore := Cursors.before_of_mem_take he
  exact hbefore

theorem matchRounds_here {fill : Option (List Instant)} (n : Nat) (h : (s.forward x).iwl < s.nwl) :
    matchRounds fill x (n + 1) s =
      some ((s.wl[(s.forward x).iwl]?).any (echsInstantEqP · x), s.forward x) := if_pos h

theorem matchRounds_nil (n : Nat) (h : s.nwl ≤ (s.forward x).iwl) :
    matchRounds (some []) x (n + 1) s = some (false, { s.forward x with nwl := nwlNever }) :=
  if_neg (not_lt.mpr h)

theorem forward_new (wl : List Instant) :
    (Whitelist.mk wl wl.length 0).forward x = ⟨wl, wl.length, place (echsInstantLtP · x) wl⟩ := by
  unfold Whitelist.forward countBefore place
  dsimp only
  rw [List.take_length, List.drop_zero, Nat.zero_add]

theorem matchRounds_again {wl : List Instant} (n : Nat) (h : s.nwl ≤ (s.forward x).iwl)
    (hplace : place (echsInstantLtP · x) wl < wl.length) :
    matchRounds (some wl) x (n + 2) s =
      some ((wl[place (echsInstantLtP · x) wl]?).any (echsInstantEqP · x),
        ⟨wl, wl.length, place (echsInstantLtP · x) wl⟩) := by
  have hnew : matchRounds (some wl) x (n + 1) ⟨wl, wl.length, 0⟩ =
      some ((wl[place (echsInstantLtP · x) wl]?).any (echsInstantEqP · x),
        ⟨wl, wl.length, place (echsInstantLtP · x) wl⟩) := by
    rw [matchRounds_here n (by rw [forward_new]; exact hplace), forward_new]
  refine (if_neg (not_lt.mpr h)).trans ?_
  cases wl with
  | nil => exact absurd hplace (Nat.not_lt_zero _)
  | cons e es => exact hnew

/-- **The list is filled again**, and once is enough. -/
theorem refilled (h : FilterRule rr) (hx : Query x) (hr : Refillable rr x) (hs : s.nwl ≤ wlSize)
    (hpassed : s.nwl ≤ (s.forward x).iwl) :
    ∃ b s', Answers rr s x b s' ∧ (b = true ↔ IsRuleDate rr x.date) ∧ Serves rr s' x := by
  obtain ⟨n, hn⟩ : ∃ n, fillPasses = n + 2 := ⟨fillPasses - 2, by decide⟩
  have hmatch : echsInstantMatchesP fillPasses rr x s =
      matchRounds (some (filledList rr x)) x fillPasses s := by
    unfold echsInstantMatchesP
    rw [if_neg (by omega), fill_done h hx le_rfl]
  by_cases hnil : filledList rr x = []
  · refine ⟨false, { s.forward x with nwl := nwlNever }, ⟨fillPasses, ?_⟩, ?_, ?_⟩
    · rw [hmatch, hnil, hn]
      exact matchRounds_nil (n + 1) hpassed
    · exact iff_of_false (by decide) fun hdate => lt_irrefl _ (fill_empty h hx hr hnil hdate)
    · exact .never rfl fun t ht => fill_empty h hx hr hnil ht
  · have hplace := fill_reaches h hx hr hnil
    have hanswer := answer_iff (x := x)
      (fun _ he => entry_iff h hx hr hx le_rfl hr.time he) hplace
    refine ⟨_, ⟨filledList rr x, (filledList rr x).length,
      place (echsInstantLtP · x) (filledList rr x)⟩, ⟨fillPasses, ?_⟩, hanswer, ?_⟩
    · rw [hmatch, hn]
      exact matchRounds_again n hpassed hplace
    · generalize hwl : filledList rr x = wl at hplace
      have hroom := fill_room hr
      rw [hwl] at hroom
      exact .filled x hx hr le_rfl hwl.symm rfl hroom (Cursors.place_le _) (passed_of_place wl)

/-- **A query is answered as it should be**, and leaves what the next one needs. -/
theorem answered (h : FilterRule rr) (hx : Query x) (hserves : Serves rr s x)
    (hfit : StepFit rr s x) :
    ∃ b s', Answers rr s x b s' ∧ (b = true ↔ IsRuleDate rr x.date) ∧ Serves rr s' x := by
  cases hserves with
  | fresh wl nwl iwl =>
      have hs : s.nwl ≤ wlSize := by
        rw [nwl]
        exact Nat.zero_le _
      refine refilled h hx ((hfit hs).1 fun e he => ?_) hs (by rw [nwl]; exact Nat.zero_le _)
      rw [wl, List.take_nil, List.drop_nil] at he
      cases he
  | never nwl none =>
      refine ⟨false, s, ⟨0, if_pos (by rw [nwl]; decide)⟩, ?_, .never nwl none⟩
      exact iff_of_false (by decide) fun hdate => lt_irrefl _ (none _ hdate)
  | filled seed query refill le wl nwl room iwl passed =>
      have hforward : s.forward x = { s with iwl := place (echsInstantLtP · x) s.wl } := by
        unfold Whitelist.forward
        rw [nwl, List.take_length, ← Cursors.place_drop (nwl ▸ iwl) passed]
        rfl
      have hiwl : (s.forward x).iwl = place (echsInstantLtP · x) s.wl := by rw [hforward]
      by_cases hlt : (s.forward x).iwl < s.nwl
      · have hspent : ¬ s.Spent x := by
          intro hall
          have hno : place (echsInstantLtP · x) (s.wl.drop s.iwl) = (s.wl.drop s.iwl).length := by
            unfold place
            rw [List.takeWhile_eq_self_iff.mpr fun e he => hall e (by rwa [nwl, List.take_length])]
          rw [hiwl, ← Cursors.place_drop (nwl ▸ iwl) passed, hno, List.length_drop] at hlt
          omega
        have htime : IsRuleDate rr x.date → x ∈ seedTimes rr seed x.date := fun hdate => by
          obtain ⟨e, he, hsame⟩ := (hfit room).2 hspent hdate
          exact sameTime_seed h query refill (wl ▸ he) hsame
        have hanswer : (s.wl[place (echsInstantLtP · x) s.wl]?).any (echsInstantEqP · x) = true ↔
            IsRuleDate rr x.date := by
          refine answer_iff (fun e he => ?_) (by rwa [nwl, hiwl] at hlt)
          rw [wl] at he
          exact entry_iff h query refill hx le htime he
        refine ⟨_, s.forward x, ⟨1, ?_⟩, hanswer, ?_⟩
        · unfold echsInstantMatchesP
          rw [if_neg (by omega), matchRounds_here 0 hlt, hiwl]
        · rw [hforward]
          exact .filled seed query refill le wl nwl room (by rw [nwl]; exact Cursors.place_le _)
            (passed_of_place s.wl)
      · refine refilled h hx ((hfit room).1 fun e he => ?_) room (not_lt.mp hlt)
        rw [nwl, List.take_length] at he
        rw [hiwl, nwl] at hlt
        by_contra hb
        refine hlt (Cursors.place_lt_iff.mpr ⟨e, List.mem_of_mem_drop he, by simpa using hb⟩)

theorem filters_of_serves (h : FilterRule rr) {xs : List Instant} (hxs : ∀ x ∈ xs, Query x)
    (hsorted : xs.Pairwise fun x y => echsInstantLtP y x = false)
    (hserves : ∀ x ∈ xs, Serves rr s x) (hfit : RunFit rr s xs) : Filters rr s xs := by
  induction xs generalizing s with
  | nil => trivial
  | cons x xs ih =>
      obtain ⟨hstep, hrest⟩ := hfit
      rw [List.pairwise_cons] at hsorted
      obtain ⟨b, s', hanswers, hb, hserves'⟩ := answered h (hxs x List.mem_cons_self)
        (hserves x List.mem_cons_self) hstep
      refine ⟨b, s', hanswers, hb, ih (fun y hy => hxs y (List.mem_cons_of_mem _ hy)) hsorted.2
        (fun y hy => hserves'.mono ?_) (hrest b s' hanswers)⟩
      exact (ltP_false_iff _ _).mp (hsorted.1 y hy)

/-- **A filter lets pass what is on a date of its rule**, in every run of queries whose times of day
the list has, and for which it can be filled again. -/
theorem filters_of_fit (h : FilterRule rr) {xs : List Instant} (hxs : ∀ x ∈ xs, Query x)
    (hsorted : xs.Pairwise fun x y => echsInstantLtP y x = false) (hfit : RunFit rr {} xs) :
    Filters rr {} xs :=
  filters_of_serves h hxs hsorted (fun _ _ => .fresh rfl rfl rfl) hfit

end Run

end Echse
