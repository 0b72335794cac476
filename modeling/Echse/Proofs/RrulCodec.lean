/-
The rule that is read from what `send_rrul` has written.

The writer and the reader were written by hand on either side, and they do not agree
everywhere: a rule round-trips just if it is `Portable`.
-/
import Echse.Proofs.RrulParts

namespace Echse

/-! ### The whole rule -/

/-- The parts from `SHIFT` on. -/
def endParts (rr : Rrulsp) : List Char :=
  (if rr.shift ≠ 0 then sendPart "SHIFT" (sendShift rr.shift) else []) ++
  ((if 0 ≤ rr.count then sendPart "COUNT" (fmtU (rr.count.toNat + 0)) else []) ++
  ((if rr.until_.u < 2 ^ 64 - 1 then sendPart "UNTIL" (dtStrfIcal rr.until_) else []) ++ []))

/-- The parts from `BYHOUR` on. -/
def timeParts (rr : Rrulsp) : List Char :=
  sendBy "BYHOUR" (bui31HasBits rr.H) (bui31Next rr.H) 33 fmtU ++
  (sendBy "BYMINUTE" (bui31HasBits (rr.M % 2 ^ 32)) (bui31Next (rr.M % 2 ^ 32)) 33 fmtU ++
  (sendBy "BYSECOND" (bui63HasBits rr.S) (bui31Next (rr.S % 2 ^ 32)) 33 fmtU ++
  (sendBy "BYPOS" (bi383HasBits rr.pos) (bi383Next rr.pos) 769 fmtD ++ endParts rr)))

/-- The parts from `BYMONTH` on. -/
def dateParts (rr : Rrulsp) : List Char :=
  sendBy "BYMONTH" (bui31HasBits rr.mon) (bui31Next rr.mon) 33 fmtU ++
  (sendBy "BYWEEKNO" (bi63HasBits rr.wk) (bi63Next rr.wk) 130 fmtD ++
  (sendBy "BYYEARDAY" (bi383HasBits rr.doy) (bi383Next rr.doy) 769 fmtD ++
  (sendBy "BYMONTHDAY" (bi31HasBits rr.dom) (bi31Next rr.dom) 66 fmtD ++
  (sendBy "BYEASTER" (bi383HasBits rr.easter) (bi383Next rr.easter) 769 fmtD ++
  (sendBy "BYDAY" (bi447HasBits rr.dow) (bi447Next rr.dow) 897 (fun x => sendCd (unpackCd x)) ++
    timeParts rr)))))

theorem sendRrulParts_eq (rr : Rrulsp) :
    sendRrulParts rr 0 = sendFreq rr.freq ++
      ((if 1 < rr.inter then sendPart "INTERVAL" (fmtU rr.inter) else []) ++
        (sendScale rr.scale ++ dateParts rr)) := by
  simp only [sendRrulParts, dateParts, timeParts, endParts, List.append_assoc, List.append_nil]

theorem endsPart_endParts (rr : Rrulsp) : EndsPart (endParts rr) :=
  ((endsPart_nil.opt _ _ _).opt _ _ _).opt _ _ _

theorem endsPart_timeParts (rr : Rrulsp) : EndsPart (timeParts rr) :=
  ((((endsPart_endParts rr).list _ _ _ _ _).list _ _ _ _ _).list _ _ _ _ _).list _ _ _ _ _

theorem endsPart_dateParts (rr : Rrulsp) : EndsPart (dateParts rr) :=
  ((((((endsPart_timeParts rr).list _ _ _ _ _).list _ _ _ _ _).list _ _ _ _ _).list
    _ _ _ _ _).list _ _ _ _ _).list _ _ _ _ _

theorem quiet_endParts (rr : Rrulsp) : Quiet (endParts rr) := by
  have hu := quiet_nil.opt (rr.until_.u < 2 ^ 64 - 1) "UNTIL" (by decide) fun _ =>
    quiet_nil.append (not_mem_dtStrfIcal (by decide) (by decide) rr.until_)
  have hc := hu.opt (0 ≤ rr.count) "COUNT" (by decide) fun _ =>
    hu.append (not_mem_fmtU (rr.count.toNat + 0) (by decide))
  exact hc.opt _ "SHIFT" (by decide) fun _ => quiet_sendShift rr.shift hc

theorem quiet_timeParts {rr : Rrulsp} (h : rr.Ranged) (hl : rr.Legible) : Quiet (timeParts rr) := by
  have e := endsPart_endParts rr
  have hvs : bintsHasBits rr.pos = true → ∀ v ∈ sendVals (bintsNext 12 rr.pos) 769, IsLong v := by
    intro hb v hv
    obtain ⟨-, h1, h2⟩ := sendVals_bints_ok (n := 12) (by decide) h.pos
      (fun x hx => ⟨by omega, by omega⟩) hl.pos (by decide) hb v hv
    exact ⟨by omega, by omega⟩
  have hpos := quiet_bints "BYPOS" (by decide) hvs e (quiet_endParts rr)
  have hS := quiet_uints "BYSECOND" (by decide) (bui63HasBits rr.S)
    (Nat.mod_lt rr.S (show 0 < 2 ^ 32 by decide)) (e.opt _ _ _) hpos
  have hM := quiet_uints "BYMINUTE" (by decide) (bui31HasBits (rr.M % 2 ^ 32))
    (Nat.mod_lt rr.M (show 0 < 2 ^ 32 by decide)) ((e.opt _ _ _).opt _ _ _) hS
  exact quiet_uints "BYHOUR" (by decide) _ h.H.lt (((e.opt _ _ _).opt _ _ _).opt _ _ _) hM

/-- **The parts from `SHIFT` on are read.** -/
theorem readRest_endParts {rr r : Rrulsp} (ht : rr.Typed) (hl : rr.Legible) (h1 : r.shift = 0)
    (h2 : r.count = -1) (h3 : r.until_ = echsMaxInstant) :
    readRest (endParts rr) r =
      if rr.count = 0 then none
      else some { r with
        shift := (reread rr).shift, count := (reread rr).count, until_ := (reread rr).until_ } := by
  have e := endsPart_nil.opt (rr.until_.u < 2 ^ 64 - 1) "UNTIL" (dtStrfIcal rr.until_)
  rw [endParts, readRest_shift (e.opt _ _ _) ht h1]
  by_cases hz : rr.count = 0
  · rw [readRest_count_zero e hz, if_pos hz]
  · rw [readRest_count e ht hz, readRest_until hl, if_neg hz]
    · exact h3
    · exact h2

/-- **The parts from `BYHOUR` on are read.** -/
theorem readRest_timeParts {rr r : Rrulsp} (h : rr.Ranged) (h1 : r.H = 0) (h2 : r.M = 0)
    (h3 : r.S = 0) :
    readRest (timeParts rr) r =
      readRest (endParts rr)
        { r with H := (reread rr).H, M := (reread rr).M, S := (reread rr).S } := by
  have e1 := endsPart_endParts rr
  have e2 := e1.list "BYPOS" (bi383HasBits rr.pos) (bi383Next rr.pos) 769 fmtD
  have e3 := e2.list "BYSECOND" (bui63HasBits rr.S) (bui31Next (rr.S % 2 ^ 32)) 33 fmtU
  have e4 := e3.list "BYMINUTE" (bui31HasBits (rr.M % 2 ^ 32)) (bui31Next (rr.M % 2 ^ 32)) 33 fmtU
  rw [timeParts, readRest_H e4 h h1, readRest_M e3, readRest_S e2, readRest_pos e1]
  · exact h3
  · exact h2

/-- **The parts from `BYMONTH` on are read.** -/
theorem readRest_dateParts {rr r : Rrulsp} (h : rr.Ranged) (hl : rr.Legible) (h1 : r.mon = 0)
    (h2 : r.wk = ⟨0, 0⟩) (h3 : r.doy = .nil) (h4 : r.dom = ⟨0, 0⟩) (h5 : r.easter = .nil)
    (h6 : r.dow = .nil) :
    readRest (dateParts rr) r =
      readRest (timeParts rr)
        { r with
          mon := (reread rr).mon, wk := (reread rr).wk, doy := (reread rr).doy
          dom := (reread rr).dom, easter := (reread rr).easter, dow := (reread rr).dow } := by
  have e1 := endsPart_timeParts rr
  have e2 := e1.list "BYDAY" (bi447HasBits rr.dow) (bi447Next rr.dow) 897
    (fun x => sendCd (unpackCd x))
  have e3 := e2.list "BYEASTER" (bi383HasBits rr.easter) (bi383Next rr.easter) 769 fmtD
  have e4 := e3.list "BYMONTHDAY" (bi31HasBits rr.dom) (bi31Next rr.dom) 66 fmtD
  have e5 := e4.list "BYYEARDAY" (bi383HasBits rr.doy) (bi383Next rr.doy) 769 fmtD
  have e6 := e5.list "BYWEEKNO" (bi63HasBits rr.wk) (bi63Next rr.wk) 130 fmtD
  rw [dateParts, readRest_mon e6 h h1, readRest_wk e5 h, readRest_doy e4 h hl,
    readRest_dom e3 h, readRest_easter e2 h hl, readRest_dow e1 (quiet_timeParts h hl) h hl]
  · exact h6
  · exact h5
  · exact h4
  · exact h3
  · exact h2

/-- The first letter after the scale. -/
theorem scaleEnd_dateParts (rr : Rrulsp) : ScaleEnd (countNext rr) (dateParts rr) := by
  have hend : ScaleEnd (rr.shift == 0 && decide (0 ≤ rr.count)) (endParts rr) := by
    have hu := scaleEnd_nil.opt (rr.until_.u < 2 ^ 64 - 1) "UNTIL" (a := 'U') (b := 'N') rfl
      (by decide) (by decide) (dtStrfIcal rr.until_)
    have hc := hu.opt (0 ≤ rr.count) "COUNT" (a := 'C') (b := 'O') rfl (by decide) (by decide)
      (fmtU (rr.count.toNat + 0))
    have hs := hc.opt (rr.shift ≠ 0) "SHIFT" (a := 'S') (b := 'H') rfl (by decide) (by decide)
      (sendShift rr.shift)
    refine cast (congrArg (ScaleEnd · _) ?_) hs
    by_cases h1 : rr.shift = 0 <;> by_cases h2 : 0 ≤ rr.count <;> simp [h1, h2]
  have htime := (((hend.list "BYPOS" rfl (bi383HasBits rr.pos) (bi383Next rr.pos) 769 fmtD).list
    "BYSECOND" rfl (bui63HasBits rr.S) (bui31Next (rr.S % 2 ^ 32)) 33 fmtU).list
    "BYMINUTE" rfl (bui31HasBits (rr.M % 2 ^ 32)) (bui31Next (rr.M % 2 ^ 32)) 33 fmtU).list
    "BYHOUR" rfl (bui31HasBits rr.H) (bui31Next rr.H) 33 fmtU
  have hday := ((htime.list "BYDAY" rfl (bi447HasBits rr.dow) (bi447Next rr.dow) 897
    fun x => sendCd (unpackCd x)).list "BYEASTER" rfl (bi383HasBits rr.easter)
    (bi383Next rr.easter) 769 fmtD).list "BYMONTHDAY" rfl (bi31HasBits rr.dom)
    (bi31Next rr.dom) 66 fmtD
  exact ((hday.list "BYYEARDAY" rfl (bi383HasBits rr.doy) (bi383Next rr.doy) 769 fmtD).list
    "BYWEEKNO" rfl (bi63HasBits rr.wk) (bi63Next rr.wk) 130 fmtD).list
    "BYMONTH" rfl (bui31HasBits rr.mon) (bui31Next rr.mon) 33 fmtU

theorem endsPart_sendScale {t : List Char} (h : EndsPart t) (sc : Scale) :
    EndsPart (sendScale sc ++ t) := by
  cases sc with
  | gregorian => exact h
  | _ => exact .sendPart _ _ _

/-- **The parts after `FREQ` are read.** -/
theorem readRest_sendRrul {rr : Rrulsp} (h : rr.Ranged) (ht : rr.Typed) (hl : rr.Legible) :
    readRest ((if 1 < rr.inter then sendPart "INTERVAL" (fmtU rr.inter) else []) ++
        (sendScale rr.scale ++ dateParts rr)) { freq := rr.freq } =
      if rr.count = 0 then none else some (reread rr) := by
  have e1 := endsPart_dateParts rr
  have e2 := endsPart_sendScale e1 rr.scale
  rw [readRest_inter e2 ht, readRest_scale e1 (scaleEnd_dateParts rr), readRest_dateParts h hl,
    readRest_timeParts h, readRest_endParts ht hl]
  all_goals rfl

/-- **What is read is the rule that has been written, but for what `reread` says.** -/
theorem snarfRrule_sendRrul {rr : Rrulsp} (h : rr.Ranged) (ht : rr.Typed) (hl : rr.Legible)
    (hf : rr.freq ≠ .none) :
    snarfRrule (sendRrulParts rr 0) = if rr.count = 0 then bogusRule else reread rr := by
  obtain ⟨val, hval, hsc, hread⟩ := sendFreq_eq hf
  have e := (endsPart_sendScale (endsPart_dateParts rr) rr.scale).opt (1 < rr.inter) "INTERVAL"
    (fmtU rr.inter)
  have hp : snarfParts ((sendRrulParts rr 0).length + 1) (sendRrulParts rr 0) {} =
      if rr.count = 0 then none else some (reread rr) := by
    have hk : evrrulKey "FREQ".toList = some .freq := by decide
    rw [sendRrulParts_eq, hval, snarfParts_part (by decide) hsc e (Nat.lt_succ_self _),
      readPart, hk]
    dsimp only
    rw [snarfPart, hread, Option.bind_some]
    exact readRest_sendRrul h ht hl
  rw [snarfRrule, hp]
  by_cases hz : rr.count = 0
  · rw [if_pos hz, if_pos hz]
    rfl
  · rw [if_neg hz, if_neg hz]

/-! ### The same rule -/

/-- Two rules with the same fields, and the same values in their sets. -/
structure SameRule (a b : Rrulsp) : Prop where
  freq : a.freq = b.freq
  scale : a.scale = b.scale
  shift : a.shift = b.shift
  inter : a.inter = b.inter
  count : a.count = b.count
  until_ : a.until_ = b.until_
  mon : ∀ x, buiHasBit a.mon x = true ↔ buiHasBit b.mon x = true
  H : ∀ x, buiHasBit a.H x = true ↔ buiHasBit b.H x = true
  M : ∀ x, buiHasBit a.M x = true ↔ buiHasBit b.M x = true
  S : ∀ x, buiHasBit a.S x = true ↔ buiHasBit b.S x = true
  dom : ∀ x, biHasBit 32 a.dom x = true ↔ biHasBit 32 b.dom x = true
  wk : ∀ x, biHasBit 64 a.wk x = true ↔ biHasBit 64 b.wk x = true
  doy : ∀ x, bintsHas 12 a.doy x ↔ bintsHas 12 b.doy x
  pos : ∀ x, bintsHas 12 a.pos x ↔ bintsHas 12 b.pos x
  easter : ∀ x, bintsHas 12 a.easter x ↔ bintsHas 12 b.easter x
  dow : ∀ x, bintsHas 14 a.dow x ↔ bintsHas 14 b.dow x

/-- A rule that is the same when it has been written and read back. -/
def RoundTrips (rr : Rrulsp) : Prop := SameRule (snarfRrule (sendRrulParts rr 0)) rr

/-- A rule that the writer and the reader agree on. -/
structure Rrulsp.Portable (rr : Rrulsp) : Prop where
  /-- There are no positions, whose keyword is written as `BYPOS`. -/
  pos : bi383HasBits rr.pos = false
  /-- The tabular calendars of the types I and II, whose epoch is read from where the next
  keyword begins. -/
  scale : (rr.scale = .hijriIA ∨ rr.scale = .hijriIIA → countNext rr = false) ∧
    (rr.scale = .hijriIC ∨ rr.scale = .hijriIIC → countNext rr = true)
  shift : shiftLow rr.shift ≠ 1 ∧ shiftLow rr.shift ≠ 3
  inter : rr.inter ≠ 0
  count : rr.count = -1 ∨ 0 < rr.count
  /-- Milliseconds are not written. -/
  until_ : rr.until_.H = echsAllDay ∨ rr.until_.ms = echsAllSec
  /-- No minute or second that only the wide iterator yields. -/
  M : rr.M < 2 ^ 32
  S : rr.S < 2 ^ 32
  /-- Negative values come with a positive one, or alone. -/
  dom : rr.dom.pos ≠ 0 ∨ rr.dom.neg = 0
  wk : rr.wk.pos ≠ 0 ∨ rr.wk.neg = 0

instance (rr : Rrulsp) : Decidable rr.Portable :=
  decidable_of_iff
    (bi383HasBits rr.pos = false ∧
      ((rr.scale = .hijriIA ∨ rr.scale = .hijriIIA → countNext rr = false) ∧
        (rr.scale = .hijriIC ∨ rr.scale = .hijriIIC → countNext rr = true)) ∧
      (shiftLow rr.shift ≠ 1 ∧ shiftLow rr.shift ≠ 3) ∧ rr.inter ≠ 0 ∧
      (rr.count = -1 ∨ 0 < rr.count) ∧
      (rr.until_.H = echsAllDay ∨ rr.until_.ms = echsAllSec) ∧
      rr.M < 2 ^ 32 ∧ rr.S < 2 ^ 32 ∧ (rr.dom.pos ≠ 0 ∨ rr.dom.neg = 0) ∧
      (rr.wk.pos ≠ 0 ∨ rr.wk.neg = 0))
    ⟨fun ⟨h1, h2, h3, h4, h5, h6, h7, h8, h9, h10⟩ => ⟨h1, h2, h3, h4, h5, h6, h7, h8, h9, h10⟩,
      fun ⟨h1, h2, h3, h4, h5, h6, h7, h8, h9, h10⟩ => ⟨h1, h2, h3, h4, h5, h6, h7, h8, h9, h10⟩⟩

section Fields

variable {rr : Rrulsp}

theorem rereadScale_iff (c : Bool) (sc : Scale) :
    rereadScale c sc = sc ↔ (sc = .hijriIA ∨ sc = .hijriIIA → c = false) ∧
      (sc = .hijriIC ∨ sc = .hijriIIC → c = true) := by
  cases c <;> cases sc <;> decide

theorem rereadShift_iff (sh : Int) :
    rereadShift sh = sh ↔ shiftLow sh ≠ 1 ∧ shiftLow sh ≠ 3 := by
  have hlow : (shiftLow sh : Int) = sh % 65536 := by
    rw [shiftLow]
    omega
  rw [rereadShift]
  split <;> omega

theorem reread_until_iff (hl : rr.Legible) :
    (reread rr).until_ = rr.until_ ↔ rr.until_.H = echsAllDay ∨ rr.until_.ms = echsAllSec := by
  have hself := pack_self rr.until_
  by_cases hm : rr.until_ = echsMaxInstant
  · have hr : (reread rr).until_ = echsMaxInstant := if_neg (by rw [hm]; decide)
    rw [hr, hm]
    decide
  · have hs := hl.until_.resolve_left hm
    have hu : rr.until_.u < 2 ^ 64 - 1 := by
      obtain ⟨-, h1, h2, h3, h4, h5, h6⟩ := rr.until_.fits
      have hy := hs.y
      rw [Instant.u]
      omega
    have hr : (reread rr).until_ = if rr.until_.H = echsAllDay then rr.until_ else
        .pack rr.until_.y rr.until_.m rr.until_.d rr.until_.H rr.until_.M rr.until_.S echsAllSec :=
      if_pos hu
    rw [hr]
    by_cases hH : rr.until_.H = echsAllDay
    · simp [hH]
    · rw [if_neg hH]
      constructor
      · intro h
        have hms := congrArg Instant.ms h
        exact .inr hms.symm
      · rintro (h | h)
        · exact absurd h hH
        · rw [← h, hself]

theorem pos_nil_iff (hl : rr.Legible) :
    (∀ x, bintsHas 12 .nil x ↔ bintsHas 12 rr.pos x) ↔ bi383HasBits rr.pos = false := by
  constructor
  · intro h
    by_contra hb
    have hx : ∃ x, bintsHas 12 rr.pos x := by
      have hnon := hl.pos
      generalize rr.pos = bi at hnon hb
      rcases bi with (_ | ⟨y, ys⟩) | b
      · exact absurd rfl hb
      · exact ⟨y, List.mem_cons_self⟩
      · exact hnon b rfl
    obtain ⟨x, hx⟩ := hx
    exact bintsHas_nil 12 x ((h x).mpr hx)
  · exact fun h x => iff_of_false (bintsHas_nil 12 x) (bintsHas_none h x)

end Fields

/-- The minutes are read back if they fit the narrow iterator. -/
theorem reread_M_iff {rr : Rrulsp} (h : rr.Ranged) :
    (∀ x, buiHasBit (reread rr).M x = true ↔ buiHasBit rr.M x = true) ↔ rr.M < 2 ^ 32 := by
  have hP : ∀ x, x < 60 → x + 1 < 64 := fun x hx => by omega
  have hok : ∀ x, decide (x < 60) = true ↔ x < 60 := fun x => decide_eq_true_iff
  constructor
  · intro hs
    exact rereadUints_cut hP hok h.M (fun x hx => by omega) _ hs
  · intro hlt x
    have hM : (reread rr).M =
        rereadUints 64 (· < 60) (bui31HasBits (rr.M % 2 ^ 32)) (rr.M % 2 ^ 32) := rfl
    rw [hM, Nat.mod_eq_of_lt hlt]
    exact rereadUints_narrow hP hok h.M hlt x

theorem reread_S_iff {rr : Rrulsp} (h : rr.Ranged) :
    (∀ x, buiHasBit (reread rr).S x = true ↔ buiHasBit rr.S x = true) ↔ rr.S < 2 ^ 32 := by
  have hP : ∀ x, x ≤ 60 → x + 1 < 64 := fun x hx => by omega
  have hok : ∀ x, decide (x ≤ 60) = true ↔ x ≤ 60 := fun x => decide_eq_true_iff
  constructor
  · intro hs
    exact rereadUints_cut hP hok h.S (fun x hx => by omega) _ hs
  · intro hlt x
    have hS : (reread rr).S = rereadUints 64 (· ≤ 60) (bui63HasBits rr.S) (rr.S % 2 ^ 32) := rfl
    rw [hS, Nat.mod_eq_of_lt hlt]
    exact rereadUints_narrow hP hok h.S hlt x

theorem reread_mon {rr : Rrulsp} (h : rr.Ranged) (x : Nat) :
    buiHasBit (reread rr).mon x = true ↔ buiHasBit rr.mon x = true := by
  have hok : ∀ x : Nat, (x ≠ 0 && x ≤ 12 : Bool) = true ↔ 1 ≤ x ∧ x ≤ 12 := by
    intro x
    rw [Bool.and_eq_true, decide_eq_true_iff, decide_eq_true_iff]
    omega
  exact rereadUints_narrow (fun x hx => by omega) hok h.mon h.mon.lt x

theorem reread_H {rr : Rrulsp} (h : rr.Ranged) (x : Nat) :
    buiHasBit (reread rr).H x = true ↔ buiHasBit rr.H x = true :=
  rereadUints_narrow (fun x hx => by omega) (fun _ => decide_eq_true_iff) h.H h.H.lt x

/-- The rule that is read back is the same just if the rule is portable. -/
theorem sameRule_reread_iff {rr : Rrulsp} (h : rr.Ranged) (hl : rr.Legible) (hz : rr.count ≠ 0) :
    SameRule (reread rr) rr ↔ rr.Portable := by
  have hscale : (reread rr).scale = rr.scale ↔ _ := rereadScale_iff (countNext rr) rr.scale
  have hshift : (reread rr).shift = rr.shift ↔ _ := rereadShift_iff rr.shift
  have hdom : (∀ x, biHasBit 32 (reread rr).dom x = true ↔ biHasBit 32 rr.dom x = true) ↔ _ :=
    rereadInts_iff (by decide) (by decide) (by decide) h.dom
  have hwk : (∀ x, biHasBit 64 (reread rr).wk x = true ↔ biHasBit 64 rr.wk x = true) ↔ _ :=
    rereadInts_iff (by decide) (by decide) (by decide) h.wk
  have hinter : (reread rr).inter = if 1 < rr.inter then rr.inter else 1 := rfl
  have hcount : (reread rr).count = if 0 ≤ rr.count then rr.count else -1 := rfl
  constructor
  · intro hs
    refine ⟨(pos_nil_iff hl).mp hs.pos, hscale.mp hs.scale, hshift.mp hs.shift, ?_, ?_,
      (reread_until_iff hl).mp hs.until_, (reread_M_iff h).mp hs.M, (reread_S_iff h).mp hs.S,
      hdom.mp hs.dom, hwk.mp hs.wk⟩
    · have hi := hs.inter
      rw [hinter] at hi
      split at hi <;> omega
    · have hc := hs.count
      rw [hcount] at hc
      split at hc <;> omega
  · intro hp
    have hi : (reread rr).inter = rr.inter := by
      have := hp.inter
      rw [hinter]
      split <;> omega
    have hc : (reread rr).count = rr.count := by
      have := hp.count
      rw [hcount]
      split <;> omega
    exact
      { freq := rfl
        scale := hscale.mpr hp.scale
        shift := hshift.mpr hp.shift
        inter := hi
        count := hc
        until_ := (reread_until_iff hl).mpr hp.until_
        mon := reread_mon h
        H := reread_H h
        M := (reread_M_iff h).mpr hp.M
        S := (reread_S_iff h).mpr hp.S
        dom := hdom.mpr hp.dom
        wk := hwk.mpr hp.wk
        doy := rereadBints_has (by decide) h.doy (fun x hx => ⟨by omega, by omega⟩) hl.doy
          (by decide)
        pos := (pos_nil_iff hl).mpr hp.pos
        easter := rereadBints_has (by decide) h.easter (fun x hx => ⟨by omega, by omega⟩) hl.easter
          (by decide)
        dow := rereadBints_has (by decide) h.dow (fun x hx => isCd_lt hx) hl.dow (by decide) }

end Echse
