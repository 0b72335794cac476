/-
The events of RDATEs.

There is one for each RDATE, and they are in order: the sorted instants are spread out from the
front of the memory that they are at the end of, and an event is never as far as the next
instant.  A timed RDATE is moved by the offset that the zone is looked up for, and one without a
time is given the time of day that DTSTART has in UTC.  That is a time of the same date if
DTSTART has the same date in UTC, and not otherwise.
-/
import Echse.Evrdat
import Echse.Proofs.Duration
import Echse.Proofs.Stamps
import Echse.Proofs.Tzraw

namespace Echse

open Months (before)

/-! ### Spreading instants -/

theorem EvMem.rd_ofInstants (insts : List Instant) (i : Nat) :
    (EvMem.ofInstants insts).rd insts.length i = insts[i]? := by
  unfold EvMem.rd EvMem.ofInstants
  rw [if_pos (Nat.le_add_right _ i), Nat.add_sub_cancel_left]

/-- An event does not get as far as the instants after its own. -/
theorem EvMem.rd_put (mem : EvMem) (e : EchsEvent) {nd i j : Nat} (hij : i < j) (hj : j < nd) :
    (mem.put i e).rd nd j = mem.rd nd j := by
  unfold EvMem.rd EvMem.put eventWords
  rw [if_neg (by omega), if_neg (by omega), if_neg (by omega)]

/-- The instants from the `i`-th on. -/
theorem spreadEvents_from (cal : Scale) (insts : List Instant) :
    ∀ left i e (mem : EvMem), i + left = insts.length →
      (∀ j, i ≤ j → j < insts.length → mem.rd insts.length j = insts[j]?) →
      spreadEvents cal insts.length left i e mem =
        some ((insts.drop i).map fun x => { e with from_ := echsInstantRescale x cal }) := by
  intro left
  induction left with
  | zero =>
      intro i e mem hlen hmem
      rw [List.drop_eq_nil_of_le (by omega)]
      rfl
  | succ left ih =>
      intro i e mem hlen hmem
      have hi : i < insts.length := by omega
      have hread : mem.rd insts.length i = some insts[i] := by
        rw [hmem i le_rfl hi, List.getElem?_eq_getElem hi]
      have hnext := ih (i + 1) { e with from_ := echsInstantRescale insts[i] cal }
        (mem.put i { e with from_ := echsInstantRescale insts[i] cal }) (by omega)
        fun j hij hj => by
          rw [EvMem.rd_put _ _ (by omega) hj, hmem j (by omega) hj]
      rw [spreadEvents, hread, Option.bind_eq_bind, Option.bind_some]
      dsimp only
      rw [hnext, List.drop_eq_getElem_cons hi]
      rfl

/-- **No instant is overwritten** before it has been read. -/
theorem spreadEvents_eq (cal : Scale) (insts : List Instant) (e : EchsEvent) :
    spreadEvents cal insts.length insts.length 0 e (.ofInstants insts) =
      some (insts.map fun x => { e with from_ := echsInstantRescale x cal }) :=
  spreadEvents_from cal insts _ 0 e _ (Nat.zero_add _) fun j _ _ => EvMem.rd_ofInstants insts j

/-! ### Sorting instants -/

theorem echsInstantSort_perm (xs : List Instant) : (echsInstantSort xs).Perm xs :=
  List.perm_insertionSort _ xs

theorem not_ltP_iff {x y : Instant} : echsInstantLtP y x = false ↔ (bumped x).u ≤ (bumped y).u := by
  unfold echsInstantLtP
  rw [decide_eq_false_iff_not, not_lt]

theorem echsInstantSort_sorted (xs : List Instant) :
    (echsInstantSort xs).Pairwise fun x y => echsInstantLtP y x = false := by
  have htotal : Std.Total fun x y : Instant => echsInstantLtP y x = false :=
    ⟨fun x y => by
      rw [not_ltP_iff, not_ltP_iff]
      exact le_total _ _⟩
  have htrans : IsTrans Instant fun x y : Instant => echsInstantLtP y x = false :=
    ⟨fun x y z hxy hyz => by
      rw [not_ltP_iff] at hxy hyz ⊢
      exact hxy.trans hyz⟩
  exact List.pairwise_insertionSort _ xs

/-! ### Times -/

/-- The milliseconds since the epoch that a clock shows, by the calendar. -/
def Instant.epochMs (i : Instant) : Int :=
  86400000 * ((Gregorian.dayNo i.y i.m i.d : Int) - Gregorian.dayNo 1970 1 1) + i.dayMsecs

/-- A valid instant of a kind, with two days to spare in the years 1901 to 2099. -/
structure Instant.Near (k : Instant.Kind) (i : Instant) : Prop where
  proper : i.Proper k
  era : 1902 ≤ i.y ∧ i.y ≤ 2098

instance (k : Instant.Kind) (i : Instant) : Decidable (i.Near k) :=
  decidable_of_iff (i.Proper k ∧ 1902 ≤ i.y ∧ i.y ≤ 2098)
    ⟨fun ⟨h1, h2⟩ => ⟨h1, h2⟩, fun ⟨h1, h2⟩ => ⟨h1, h2⟩⟩

section

variable {k : Instant.Kind} {x : Instant}

theorem epochMs_eq (hx : x.Proper k) (hera : 1901 ≤ x.y ∧ x.y ≤ 2099) :
    x.epochMs = x.msecs - 86400000 * (Gregorian.dayNo 1970 1 1 + 15) := by
  obtain ⟨-, hday⟩ := era_gregorian hera.1 hera.2 hx.month.1 hx.month.2
  rw [Instant.epochMs, Instant.msecs, hday]
  push_cast
  ring

/-- What is a few days off is in the years 1901 to 2099. -/
theorem Instant.Near.inEra (hx : x.Near k) {c : Int} (hc : -300000 < c ∧ c < 300000) :
    InEra (x.msecs + 1000 * c) := by
  have hlo := (hx.proper.year_iff 1902).mp hx.era.1
  have hhi := (hx.proper.year_iff 2099).not.mp (by have := hx.era.2; omega)
  have hlt := hx.proper.dayMsecs_lt
  have h1901 := before_four 1901
  have h1902 := before_four 1902
  have h2099 := before_four 2099
  have h2100 := before_four 2100
  unfold InEra Instant.msecs
  omega

/-- Adding seconds to a time of day. -/
theorem Instant.Near.add (hx : x.Near k) (hk : k ≠ .allDay) {c : Int}
    (hc : -300000 < c ∧ c < 300000) :
    (echsInstantAdd x (c * 1000)).Proper k ∧
      (echsInstantAdd x (c * 1000)).epochMs = x.epochMs + 1000 * c := by
  have hera := hx.inEra hc
  have hunit : (k.unit : Int) * Int.tdiv (c * 1000) k.unit = 1000 * c := by
    cases k with
    | allDay => exact absurd rfl hk
    | allSec =>
        show 1000 * Int.tdiv (c * 1000) 1000 = 1000 * c
        rw [Int.mul_tdiv_cancel c (by decide)]
    | milli =>
        show 1 * Int.tdiv (c * 1000) 1 = 1000 * c
        rw [Int.tdiv_one]
        omega
  obtain ⟨hp, hms⟩ := echsInstantAdd_spec hx.proper (c * 1000) (by rw [hunit]; exact hera.fits.1)
    (by rw [hunit]; exact hera.fits.2)
  rw [hunit] at hms
  refine ⟨hp, ?_⟩
  have hx' := hx.era
  rw [epochMs_eq hp ((inEra_iff hp).mp (hms ▸ hera)), epochMs_eq hx.proper (by omega), hms]
  ring

theorem detach_of_lt (hm : x.m < 16) (hd : x.d < 64) : echsInstantDetachTzob x = x := by
  rw [echsInstantDetachTzob, Nat.mod_eq_of_lt hm, Nat.mod_eq_of_lt hd, pack_self]

theorem detach_of_tzob (h : echsInstantTzob x = 0) : echsInstantDetachTzob x = x := by
  have hm := x.fits.2.1
  have hd := x.fits.2.2.1
  unfold echsInstantTzob at h
  exact detach_of_lt (by omega) (by omega)

theorem Instant.Proper.detach (hx : x.Proper k) : echsInstantDetachTzob x = x := by
  have hd := hx.day.2
  have hm := hx.month
  have hr := (ndimGreg_range x.y hm.1 hm.2).2
  exact detach_of_lt (by omega) (by omega)

/-! ### Zones -/

/-- The zones that are behind the handles: UTC behind 0, and no offsets of a day or more. -/
structure Zones (zif : Nat → Option Zone) : Prop where
  utc : ∀ o, zif 0 = some o → ∀ t, o t = 0
  range : ∀ z o, zif z = some o → ∀ t, -86400 < o t ∧ o t < 86400

/-- The offsets behind a handle; what is not known is UTC. -/
def zoneOf (zif : Nat → Option Zone) (z : Nat) : Zone := (zif z).getD fun _ => 0

/-- The offset that `echs_instant_utc` takes off a local time. -/
def utcOffs (o : Zone) (i : Instant) : Int := o (instToEpoch i - o (instToEpoch i))

variable {zif : Nat → Option Zone} {z : Nat} {w : Instant}

theorem Zones.zoneOf_zero (hz : Zones zif) (t : Int) : zoneOf zif 0 t = 0 := by
  unfold zoneOf
  cases h : zif 0 with
  | none => rfl
  | some o => exact hz.utc o h t

theorem Zones.zoneOf_range (hz : Zones zif) (z : Nat) (t : Int) :
    -86400 < zoneOf zif z t ∧ zoneOf zif z t < 86400 := by
  unfold zoneOf
  cases h : zif z with
  | none =>
      show (-86400 : Int) < 0 ∧ (0 : Int) < 86400
      decide
  | some o => exact hz.range z o h t

theorem allDay_detach (w : Instant) :
    echsInstantAllDayP (echsInstantDetachTzob w) = echsInstantAllDayP w := by
  have hH : (echsInstantDetachTzob w).H = w.H := Nat.mod_eq_of_lt w.fits.2.2.2.1
  rw [echsInstantAllDayP, hH, echsInstantAllDayP]

theorem Instant.Proper.allDay (hx : x.Proper .allDay) : echsInstantAllDayP x = true :=
  beq_iff_eq.mpr hx.time.1

theorem Instant.Proper.clock (hx : x.Proper k) (hk : k ≠ .allDay) : x.Clock := by
  cases k with
  | allDay => exact absurd rfl hk
  | allSec => exact hx.time.1
  | milli => exact hx.time.1

theorem Instant.Proper.kind (hx : x.Proper k) :
    k = if x.H = echsAllDay then .allDay else if x.ms = echsAllSec then .allSec else .milli := by
  have hH : x.Clock → x.H ≠ echsAllDay := fun h heq => by
    have hhour := h.hour
    rw [heq] at hhour
    exact absurd hhour (by decide)
  cases k with
  | allDay => rw [if_pos hx.time.1]
  | allSec => rw [if_neg (hH hx.time.1), if_pos hx.time.2]
  | milli =>
      have hms : x.ms ≠ echsAllSec := fun heq => by
        have hlt := hx.time.2
        rw [heq] at hlt
        exact absurd hlt (by decide)
      rw [if_neg (hH hx.time.1), if_neg hms]

/-- An instant is of one kind. -/
theorem Instant.Proper.kind_eq {k' : Instant.Kind} (hx : x.Proper k) (hx' : x.Proper k') : k' = k :=
  hx'.kind.trans hx.kind.symm

/-- `echs_instant_tzof`, at a time. -/
theorem tzobOffs_eq (hw : echsInstantAllDayP w = false) :
    tzobOffs zif w z = zoneOf zif z (instToEpoch (echsInstantDetachTzob w)) := by
  have hall : echsInstantAllDayP (echsInstantDetachTzob w) = false := (allDay_detach w).trans hw
  unfold tzobOffs zoneOf echsInstantTzof
  cases zif z with
  | none => rfl
  | some o =>
      dsimp only
      rw [hall]
      rfl

/-- `echs_instant_utc`, at a time: the offset is taken off. -/
theorem Zones.tzobUtc_spec (hz : Zones zif) (hw : (echsInstantDetachTzob w).Near k)
    (hk : k ≠ .allDay) (z : Nat) : (tzobUtc zif w z).Proper k ∧ (tzobUtc zif w z).epochMs =
      (echsInstantDetachTzob w).epochMs -
        1000 * utcOffs (zoneOf zif z) (echsInstantDetachTzob w) := by
  have hclock := hw.proper.clock hk
  have hrange := hz.zoneOf_range z (instToEpoch (echsInstantDetachTzob w) -
    zoneOf zif z (instToEpoch (echsInstantDetachTzob w)))
  unfold tzobUtc utcOffs
  unfold zoneOf at hrange ⊢
  cases hzif : zif z with
  | none => exact ⟨hw.proper, by simp⟩
  | some o =>
      rw [hzif] at hrange
      dsimp only [Option.getD_some] at hrange ⊢
      obtain ⟨hp, hms⟩ := hw.add hk (c := -o (instToEpoch (echsInstantDetachTzob w) -
        o (instToEpoch (echsInstantDetachTzob w)))) (by omega)
      have hneg : ∀ t c : Int, 1000 * (t - c - t) = -c * 1000 := fun t c => by ring
      unfold echsInstantUtc
      dsimp only
      rw [hclock.not_allDay, if_neg (by decide), zifUtcTime_eq, hneg]
      refine ⟨hp, ?_⟩
      rw [hms]
      ring

/-- `echs_instant_to_utc`, at a time. -/
theorem Zones.toUtc_spec (hz : Zones zif) (hw : (echsInstantDetachTzob w).Near k)
    (hk : k ≠ .allDay) :
    (echsInstantToUtc zif w).Proper k ∧ (echsInstantToUtc zif w).epochMs =
      (echsInstantDetachTzob w).epochMs -
        1000 * utcOffs (zoneOf zif (echsInstantTzob w)) (echsInstantDetachTzob w) := by
  unfold echsInstantToUtc
  by_cases h0 : echsInstantTzob w = 0
  · have hself := detach_of_tzob h0
    rw [hself] at hw
    rw [if_pos h0, h0, hself, utcOffs, hz.zoneOf_zero, Int.mul_zero, Int.sub_zero]
    exact ⟨hw.proper, rfl⟩
  · rw [if_neg h0]
    exact hz.tzobUtc_spec hw hk _

theorem toUtc_allDay (hw : (echsInstantDetachTzob w).Proper .allDay) :
    echsInstantToUtc zif w = echsInstantDetachTzob w := by
  unfold echsInstantToUtc
  by_cases h0 : echsInstantTzob w = 0
  · rw [if_pos h0, detach_of_tzob h0]
  · rw [if_neg h0]
    unfold tzobUtc
    cases zif (echsInstantTzob w) with
    | none => rfl
    | some o => exact if_pos hw.allDay

/-! ### What the RDATEs name -/

/-- What the clocks of a zone show at a time, in milliseconds since the epoch. -/
def localMs (o : Zone) (x : Instant) : Int := x.epochMs + 1000 * o (x.epochMs / 1000)

/-- An instant is the one that an RDATE names, in UTC: the clocks of its zone show its time, or
those of DTSTART's zone show its date and DTSTART's time of day. -/
def Names (zif : Nat → Option Zone) (from_ water x : Instant) : Prop :=
  if echsInstantAllDayP water then
    if echsInstantAllDayP from_ then x = echsInstantDetachTzob water
    else (∀ k, (echsInstantDetachTzob from_).Proper k → x.Proper k) ∧
      localMs (zoneOf zif (echsInstantTzob from_)) x =
        (echsInstantDetachTzob water).epochMs + (echsInstantDetachTzob from_).dayMsecs
  else (∀ k, (echsInstantDetachTzob water).Proper k → x.Proper k) ∧
    localMs (zoneOf zif (echsInstantTzob water)) x = (echsInstantDetachTzob water).epochMs

/-- An offset is in force in a zone at a local time. -/
def InForce (o : Zone) (local_ off : Int) : Prop := o (local_ - off) = off

instance (o : Zone) (local_ off : Int) : Decidable (InForce o local_ off) :=
  inferInstanceAs (Decidable (_ = _))

/-- The offset that `instant_soup` gives to a date, at DTSTART's local time of day: the one that
is looked up at DTSTART's time of day in UTC, with a day for each day that DTSTART's date is
later in UTC, and with what the two looks at DTSTART's own offset differ by. -/
def datedOffs (o : Zone) (from_ utc water : Instant) : Int :=
  o (instToEpoch (pasteIntra water utc)) +
    86400 * ((Gregorian.dayNo utc.y utc.m utc.d : Int) - Gregorian.dayNo from_.y from_.m from_.d) +
    (utcOffs o from_ - o (instToEpoch utc))

/-- The offset that `instant_soup` takes an RDATE to have is in force at the local time that the
RDATE names. -/
def OffsHold (zif : Nat → Option Zone) (from_ water : Instant) : Prop :=
  if echsInstantAllDayP water then
    echsInstantAllDayP from_ ∨
      InForce (zoneOf zif (echsInstantTzob from_))
        (((echsInstantDetachTzob water).epochMs + (echsInstantDetachTzob from_).dayMsecs) / 1000)
        (datedOffs (zoneOf zif (echsInstantTzob from_)) (echsInstantDetachTzob from_)
          (echsInstantToUtc zif from_) (echsInstantDetachTzob water))
  else
    InForce (zoneOf zif (echsInstantTzob water)) ((echsInstantDetachTzob water).epochMs / 1000)
      (utcOffs (zoneOf zif (echsInstantTzob water)) (echsInstantDetachTzob water))

instance (zif : Nat → Option Zone) (from_ water : Instant) : Decidable (OffsHold zif from_ water) :=
  inferInstanceAs (Decidable (ite _ _ _))

variable {from_ : Instant}

theorem detach_pasteIntra (w x : Instant) :
    echsInstantDetachTzob (pasteIntra w x) = pasteIntra (echsInstantDetachTzob w) x := by
  have hw := w.fits
  have hx := x.fits
  simp only [echsInstantDetachTzob, pasteIntra, Instant.pack, Instant.mk.injEq, true_and]
  omega

/-- A date with a time of day pasted onto it. -/
theorem pasteIntra_spec (hw : (echsInstantDetachTzob w).Near .allDay) (hx : x.Proper k)
    (hk : k ≠ .allDay) : (pasteIntra (echsInstantDetachTzob w) x).Near k ∧
      (pasteIntra (echsInstantDetachTzob w) x).epochMs =
        (echsInstantDetachTzob w).epochMs + x.dayMsecs := by
  have hfits := (echsInstantDetachTzob w).fits
  have hy : (pasteIntra (echsInstantDetachTzob w) x).y = (echsInstantDetachTzob w).y :=
    Nat.mod_eq_of_lt hfits.1
  have hm : (pasteIntra (echsInstantDetachTzob w) x).m = (echsInstantDetachTzob w).m :=
    Nat.mod_eq_of_lt hfits.2.1
  have hd : (pasteIntra (echsInstantDetachTzob w) x).d = (echsInstantDetachTzob w).d :=
    Nat.mod_eq_of_lt hfits.2.2.1
  have hH : (pasteIntra (echsInstantDetachTzob w) x).H = x.H := Nat.mod_eq_of_lt x.fits.2.2.2.1
  have hM : (pasteIntra (echsInstantDetachTzob w) x).M = x.M := Nat.mod_eq_of_lt x.fits.2.2.2.2.1
  have hS : (pasteIntra (echsInstantDetachTzob w) x).S = x.S := Nat.mod_eq_of_lt x.fits.2.2.2.2.2.1
  have hms : (pasteIntra (echsInstantDetachTzob w) x).ms = x.ms :=
    Nat.mod_eq_of_lt x.fits.2.2.2.2.2.2
  have hclock := hx.clock hk
  have htime : k.Time (pasteIntra (echsInstantDetachTzob w) x) := by
    have hclock' : (pasteIntra (echsInstantDetachTzob w) x).Clock :=
      ⟨by rw [hH]; exact hclock.hour, by rw [hM]; exact hclock.min, by rw [hS]; exact hclock.sec⟩
    cases k with
    | allDay => exact absurd rfl hk
    | allSec => exact ⟨hclock', by rw [hms]; exact hx.time.2⟩
    | milli => exact ⟨hclock', by rw [hms]; exact hx.time.2⟩
  refine ⟨⟨⟨?_, ?_, htime⟩, ?_⟩, ?_⟩
  · rw [hm]
    exact hw.proper.month
  · rw [hy, hm, hd]
    exact hw.proper.day
  · rw [hy]
    exact hw.era
  · have hday : (pasteIntra (echsInstantDetachTzob w) x).dayMsecs = x.dayMsecs := by
      rw [Instant.dayMsecs, Instant.dayMsecs, Instant.secs, Instant.secs, hH, hM, hS, hms,
        echsInstantAllDayP, echsInstantAllSecP, hH, hms, ← echsInstantAllDayP, ← echsInstantAllSecP]
    rw [Instant.epochMs, hy, hm, hd, hday, Instant.epochMs, dayMsecs_allDay hw.proper.time]
    push_cast
    ring

/-- The clocks show a time if the offset that was taken off it is in force. -/
theorem localMs_iff {o : Zone} {ms off : Int} (hx : x.epochMs = ms - 1000 * off) :
    localMs o x = ms ↔ InForce o (ms / 1000) off := by
  have hdiv : (ms - 1000 * off) / 1000 = ms / 1000 - off := by omega
  unfold localMs InForce
  rw [hx, hdiv]
  omega

/-- A timed RDATE. -/
theorem names_timed_iff (hz : Zones zif) (hw : (echsInstantDetachTzob w).Near k) (hk : k ≠ .allDay)
    (hwall : echsInstantAllDayP w = false) :
    Names zif from_ w (evrdatInstant zif from_ w) ↔ OffsHold zif from_ w := by
  have hsoup : evrdatInstant zif from_ w = echsInstantToUtc zif w := by
    unfold evrdatInstant instantSoup echsInstantToUtc
    rw [hwall]
    rfl
  obtain ⟨hp, hms⟩ := hz.toUtc_spec hw hk
  unfold Names OffsHold
  rw [hwall, if_neg (by decide), if_neg (by decide), hsoup, localMs_iff hms]
  exact and_iff_right fun k' hk' => by
    rw [hw.proper.kind_eq hk']
    exact hp

/-- A date, for a DTSTART without a time. -/
theorem soup_allDay (hf : (echsInstantDetachTzob from_).Proper .allDay)
    (hw : (echsInstantDetachTzob w).Proper .allDay) :
    evrdatInstant zif from_ w = echsInstantDetachTzob w := by
  have hwall : echsInstantAllDayP w = true := (allDay_detach w).symm.trans hw.allDay
  have hbroth : echsInstantToUtc zif from_ = echsInstantDetachTzob from_ := toUtc_allDay hf
  have htzof : ∀ {i : Instant}, echsInstantAllDayP i = true → ∀ z, tzobOffs zif i z = 0 := by
    intro i hi z
    unfold tzobOffs echsInstantTzof
    cases zif z with
    | none => rfl
    | some o => exact if_pos ((allDay_detach i).trans hi)
  have hpaste : echsInstantAllDayP (pasteIntra w (echsInstantDetachTzob from_)) = true := by
    have hH : (pasteIntra w (echsInstantDetachTzob from_)).H = (echsInstantDetachTzob from_).H :=
      Nat.mod_eq_of_lt (echsInstantDetachTzob from_).fits.2.2.2.1
    rw [echsInstantAllDayP, hH]
    exact hf.allDay
  have hself : pasteIntra (echsInstantDetachTzob w) (echsInstantDetachTzob from_) =
      echsInstantDetachTzob w := by
    obtain ⟨hH, hM, hS, hms⟩ := hf.time
    obtain ⟨hH', hM', hS', hms'⟩ := hw.time
    rw [pasteIntra, hH.trans hH'.symm, hM.trans hM'.symm, hS.trans hS'.symm, hms.trans hms'.symm,
      pack_self]
  unfold evrdatInstant instantSoup
  dsimp only
  rw [hbroth, hwall, if_pos rfl, htzof hpaste, htzof hf.allDay, if_pos rfl, detach_pasteIntra,
    hself]

/-- The discrepancy is added, if there is one. -/
theorem Instant.Near.shift (hx : x.Near k) (hk : k ≠ .allDay) {fof eof : Int}
    (hfof : -86400 < fof ∧ fof < 86400) (heof : -86400 < eof ∧ eof < 86400) :
    (if fof = eof then x else echsTzobShift x fof eof).Proper k ∧
      (if fof = eof then x else echsTzobShift x fof eof).epochMs =
        x.epochMs + 1000 * (eof - fof) := by
  by_cases h : fof = eof
  · rw [if_pos h, h, sub_self, mul_zero, add_zero]
    exact ⟨hx.proper, rfl⟩
  · rw [if_neg h]
    exact hx.add hk (by omega)

/-- A date, with a time of day of UTC. -/
theorem instantSoup_date (hw : echsInstantAllDayP w = true) (hx : x.Proper k) (hk : k ≠ .allDay)
    (z : Nat) (eof : Int) :
    instantSoup zif x w z eof =
      if zoneOf zif z (instToEpoch (pasteIntra (echsInstantDetachTzob w) x)) = eof then
        pasteIntra (echsInstantDetachTzob w) x
      else echsTzobShift (pasteIntra (echsInstantDetachTzob w) x)
        (zoneOf zif z (instToEpoch (pasteIntra (echsInstantDetachTzob w) x))) eof := by
  have hH : (pasteIntra w x).H = x.H := Nat.mod_eq_of_lt x.fits.2.2.2.1
  have hpaste : echsInstantAllDayP (pasteIntra w x) = false := by
    rw [echsInstantAllDayP, hH]
    exact (hx.clock hk).not_allDay
  unfold instantSoup
  dsimp only
  rw [if_pos hw, tzobOffs_eq hpaste, detach_pasteIntra]

/-- The days between two times, and what is between their times of day. -/
theorem dayMsecs_sub {y : Instant} {off : Int} (h : y.epochMs = x.epochMs - 1000 * off) :
    (x.dayMsecs : Int) = y.dayMsecs + 1000 * off + 86400000 *
      ((Gregorian.dayNo y.y y.m y.d : Int) - Gregorian.dayNo x.y x.m x.d) := by
  unfold Instant.epochMs at h
  linarith

/-- A date, for a DTSTART with a time of day. -/
theorem soup_dated (hz : Zones zif) (hf : (echsInstantDetachTzob from_).Near k) (hk : k ≠ .allDay)
    (hw : (echsInstantDetachTzob w).Near .allDay) :
    (evrdatInstant zif from_ w).Proper k ∧ (evrdatInstant zif from_ w).epochMs =
      (echsInstantDetachTzob w).epochMs + (echsInstantDetachTzob from_).dayMsecs -
        1000 * datedOffs (zoneOf zif (echsInstantTzob from_)) (echsInstantDetachTzob from_)
          (echsInstantToUtc zif from_) (echsInstantDetachTzob w) := by
  have hwall : echsInstantAllDayP w = true := (allDay_detach w).symm.trans hw.proper.allDay
  have hoffs := hz.zoneOf_range (echsInstantTzob from_)
  obtain ⟨hutc, hutcms⟩ := hz.toUtc_spec hf hk
  obtain ⟨hpaste, hpastems⟩ := pasteIntra_spec hw hutc hk
  have heof : tzobOffs zif (echsInstantToUtc zif from_) (echsInstantTzob from_) =
      zoneOf zif (echsInstantTzob from_) (instToEpoch (echsInstantToUtc zif from_)) := by
    rw [tzobOffs_eq (hutc.clock hk).not_allDay, hutc.detach]
  unfold evrdatInstant
  dsimp only
  rw [heof, instantSoup_date hwall hutc hk]
  obtain ⟨hp, hms⟩ := hpaste.shift hk (hoffs (instToEpoch
    (pasteIntra (echsInstantDetachTzob w) (echsInstantToUtc zif from_))))
    (hoffs (instToEpoch (echsInstantToUtc zif from_)))
  refine ⟨hp, ?_⟩
  rw [hms, hpastems, dayMsecs_sub hutcms, datedOffs]
  ring

theorem names_dated_iff {kf : Instant.Kind} (hz : Zones zif)
    (hf : (echsInstantDetachTzob from_).Near kf) (hw : (echsInstantDetachTzob w).Near .allDay) :
    Names zif from_ w (evrdatInstant zif from_ w) ↔ OffsHold zif from_ w := by
  have hwall : echsInstantAllDayP w = true := (allDay_detach w).symm.trans hw.proper.allDay
  unfold Names OffsHold
  rw [if_pos hwall, if_pos hwall]
  by_cases hkf : kf = .allDay
  · subst hkf
    have hfall : echsInstantAllDayP from_ = true :=
      (allDay_detach from_).symm.trans hf.proper.allDay
    rw [if_pos hfall]
    exact iff_of_true (soup_allDay hf.proper hw.proper) (.inl hfall)
  · have hfall : echsInstantAllDayP from_ = false :=
      (allDay_detach from_).symm.trans (hf.proper.clock hkf).not_allDay
    obtain ⟨hp, hms⟩ := soup_dated hz hf hkf hw
    rw [hfall, if_neg (by decide), localMs_iff hms, or_iff_right (by decide)]
    exact and_iff_right fun k' hk' => by
      rw [hf.proper.kind_eq hk']
      exact hp

/-- An RDATE that `__make_evrdat` can be given: the date is near, with or without a time. -/
def NearWater (w : Instant) : Prop := ∃ k, (echsInstantDetachTzob w).Near k

theorem names_iff (hz : Zones zif) (hf : NearWater from_) (hw : NearWater w) :
    Names zif from_ w (evrdatInstant zif from_ w) ↔ OffsHold zif from_ w := by
  obtain ⟨kf, hf⟩ := hf
  obtain ⟨k, hw⟩ := hw
  by_cases hk : k = .allDay
  · subst hk
    exact names_dated_iff hz hf hw
  · exact names_timed_iff hz hw hk
      ((allDay_detach w).symm.trans (hw.proper.clock hk).not_allDay)

/-! ### The stream -/

/-- A stream of RDATEs is as it should be: what is made of an RDATE is the instant that it names,
and there is one event for each of them, in order. -/
structure EvrdatRight (zif : Nat → Option Zone) (e : EchsEvent) (d : List Instant) : Prop where
  each : ∀ w ∈ d, Names zif (echsInstantRescale e.from_ .gregorian) w
    (evrdatInstant zif (echsInstantRescale e.from_ .gregorian) w)
  events : d ≠ [] → ∃ insts : List Instant,
    insts.Perm (d.map (evrdatInstant zif (echsInstantRescale e.from_ .gregorian))) ∧
    insts.Pairwise (fun x y => echsInstantLtP y x = false) ∧
    makeEvrdat zif e d = some (insts.map fun x => { e with
      from_ := echsInstantRescale x ((Scale.ofNum (echsInstantScale e.from_)).getD .gregorian) })
  none : d = [] → makeEvrdat zif e d = none

/-- One event for each RDATE, in order. -/
theorem makeEvrdat_events (zif : Nat → Option Zone) (e : EchsEvent) {d : List Instant}
    (hd : d ≠ []) : ∃ insts : List Instant,
      insts.Perm (d.map (evrdatInstant zif (echsInstantRescale e.from_ .gregorian))) ∧
      insts.Pairwise (fun x y => echsInstantLtP y x = false) ∧
      makeEvrdat zif e d = some (insts.map fun x => { e with
        from_ := echsInstantRescale x
          ((Scale.ofNum (echsInstantScale e.from_)).getD .gregorian) }) := by
  match d, hd with
  | [i], _ => exact ⟨_, .refl _, List.pairwise_singleton _ _, rfl⟩
  | i :: j :: d, _ =>
      have hperm := echsInstantSort_perm
        ((i :: j :: d).map (evrdatInstant zif (echsInstantRescale e.from_ .gregorian)))
      refine ⟨_, hperm, echsInstantSort_sorted _, ?_⟩
      have hlen : (i :: j :: d).length = _ := (hperm.length_eq.trans (List.length_map _)).symm
      unfold makeEvrdat
      dsimp only
      rw [hlen, spreadEvents_eq]

end

/-! ### Evenings -/

/-- A zone four hours behind UTC, at handle 64. -/
def behind (z : Nat) : Option Zone := if z = 64 then some fun _ => -14400 else none

theorem zones_behind : Zones behind := by
  refine ⟨fun o h => (nomatch h), fun z o h t => ?_⟩
  unfold behind at h
  split at h
  · cases h
    show (-86400 : Int) < -14400 ∧ (-14400 : Int) < 86400
    decide
  · cases h

/-- An event at an hour of the first of June 2020, in that zone. -/
def juneEvent (H : Nat) : EchsEvent :=
  ⟨.pack 2020 6 (64 + 1) H 0 0 echsAllSec, echsNulInstant, 0, 0, 0⟩

end Echse
