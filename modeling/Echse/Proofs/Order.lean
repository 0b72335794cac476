/-
In which order the expanders come by their candidates.

The dates of a pass ascend and come before those of the next pass, and the times of a
date ascend.  Shifts are left out here: what they move can end up in another's place.
-/
import Echse.Lib.FillOrder
import Echse.Proofs.Keys
import Echse.Proofs.Cands

namespace Echse

open FillLoop (Loop State)
open Months (before)

/-! ### Set positions -/

theorem bi383Next_le {c : Bitints} (h : CodeSet c) (i : Nat) : (bi383Next c i).1 ≤ 383 := by
  unfold bi383Next bintsNext
  cases c with
  | native xs =>
      dsimp only
      cases hx : xs[i]? with
      | none => simp
      | some x => exact (h.2.2 x (List.mem_of_getElem? hx)).2
  | bits b =>
      have hneg : ∀ lo, (bintsNextNeg 12 b lo).1 ≤ 383 := by
        intro lo
        unfold bintsNextNeg
        split
        · dsimp only; omega
        · simp
      dsimp only
      generalize (if i = 0 then 1 else i) = it
      split
      · simp
      · split
        · split
          · rename_i hp
            have := (nextBit_some hp).2.1
            dsimp only
            omega
          · exact hneg _
        · split
          · exact hneg _
          · simp

theorem shaveCand_le {c : Bitints} (h : CodeSet c) (p : Nat) :
    ∀ (x : Int) (i : Nat), x ≤ 383 → (shaveCand c p x i).1 ≤ 383 := by
  induction p with
  | zero => intro x i hx; exact hx
  | succ p ih =>
      intro x i _
      unfold shaveCand
      dsimp only
      split
      · exact bi383Next_le h i
      · exact ih _ _ (bi383Next_le h i)

/-- **Picking set positions from a set of codes leaves a set of codes.** -/
theorem clrPoss_codes {c : Bitints} (h : CodeSet c) (poss : Bitints) : CodeSet (clrPoss c poss) := by
  unfold clrPoss
  split
  · exact h
  · have hfold : ∀ (xs : List Int) (n : Nat) (st : PossSt), CodeSet st.res →
        CodeSet (xs.foldl (clrPossStep c n) st).res := by
      intro xs
      induction xs with
      | nil => intro n st hst; exact hst
      | cons x xs ih =>
          intro n st hst
          have hput : ∀ z : Int, z ≤ 383 → CodeSet (if 0 < z then assBi383 st.res z else st.res) := by
            intro z hz
            split
            · exact hst.ass (by omega) hz
            · exact hst
          exact ih n _ (hput _ (shaveCand_le h _ _ _ (by decide)))
    exact hfold _ _ _ codeSet_nil

/-! ### The candidates of a year and of a month -/

/-- The days a rule asks for in a year are days of the year: not the 366th of a common
year, not the 53rd of a weekday there are 52 of.  In the tables of the Hijri calendars
no month day is before the first of the year. -/
structure InYear (rr : Rrulsp) (y : Nat) : Prop where
  doy : ∀ t ∈ bi383List rr.doy, (ydToMd y t).m ≤ 12
  dow : bui31List rr.mon = [] → ∀ t ∈ bi447List rr.dow, (unpackCd t).cnt ≠ 0 →
    (ydToMd y (intOfWord 32 (ycwGetYday y (unpackCd t).cnt (unpackCd t).dow))).m ≤ 12
  easter : ∀ t ∈ bi383List rr.easter, u32OfInt ((easterGetYday y : Int) + t) ≤ 366 →
    (ydToMd y (u32OfInt ((easterGetYday y : Int) + t))).m ≤ 12
  dom : rr.scale ≠ .gregorian → ∀ m, 1 ≤ m ∧ m ≤ 12 → DomFits rr.scale y m (bi31List rr.dom)

/-- The same for the month days of a month. -/
def InMonth (rr : Rrulsp) (y m : Nat) : Prop :=
  rr.scale ≠ .gregorian → DomFits rr.scale y m (bi31List rr.dom)

section Cands

variable {rr : Rrulsp} {proto : Instant} {nti y m : Nat}

theorem mem_bi31List_dom (hr : rr.Ranged) : ∀ t ∈ bi31List rr.dom, t ≠ 0 ∧ -31 ≤ t ∧ t ≤ 31 :=
  hr.dom.list (by decide) (by decide)

theorem domFits_pos {s : Scale} {t : Int} (hm : 1 ≤ m) (ht : 0 < t) : DomFits s y m [t] := by
  intro u hu d hd
  rw [List.mem_singleton] at hu
  subst hu
  unfold domOf at hd
  unfold codeOf
  split at hd
  · cases hd; omega
  · rw [if_neg (by omega)] at hd
    cases hd

/-- The month days of a rule, or the day of the start, fit a month. -/
theorem domFits_parts (hr : rr.Ranged) (hm : 1 ≤ m ∧ m ≤ 12) (hin : InMonth rr y m) (b : Bool) :
    DomFits rr.scale y m
      (if ((bi31List rr.dom).take nti).isEmpty && b && proto.d != 0 then [(proto.d : Int)]
        else (bi31List rr.dom).take nti) := by
  split
  · rename_i h
    simp only [Bool.and_eq_true, bne_iff_ne] at h
    exact domFits_pos hm.1 (by omega)
  · intro t ht
    have ht' := List.mem_of_mem_take ht
    by_cases hs : rr.scale = .gregorian
    · rw [hs]
      exact domFits_gregorian y hm (fun t ht => (mem_bi31List_dom hr t ht).2.1) t ht'
    · exact hin hs t ht'

theorem mlyFill_codes (hr : rr.Ranged) (hm : 1 ≤ m ∧ m ≤ 12) (hin : InMonth rr y m) :
    CodeSet (mlyFill rr (mlyParts proto nti rr) y m) := by
  unfold mlyFill
  dsimp only
  have hcand : CodeSet (if (mlyParts proto nti rr).wdMask ≠ 0 ∧ (!(mlyParts proto nti rr).d.isEmpty) = true
      then Bitints.nil
      else if (mlyParts proto nti rr).wdMask ≠ 0 then
        fillMlyYmdAllD (if (mlyParts proto nti rr).wdMask % 2 = 1 ∧ rr.scale = .gregorian
          then fillMlyYmcw .nil y m rr.dow else .nil) rr.scale y m (mlyParts proto nti rr).wdMask
      else .nil) := by
    split
    · exact codeSet_nil
    · split
      · refine (adds_fillMlyYmdAllD _ y hm _).codes _ ?_
        split
        · exact (adds_fillMlyYmcw y hm _).codes _ codeSet_nil
        · exact codeSet_nil
      · exact codeSet_nil
  split
  · exact (adds_fillMlyYmd hm (domFits_parts hr hm hin (mlyYmdp rr)) _).codes _ hcand
  · exact hcand

theorem ylyParts_m (nti : Nat) (hr : rr.Ranged) (hproto : proto.m ≤ 12) :
    ∀ m ∈ (ylyParts proto nti rr).m, 1 ≤ m ∧ m ≤ 12 := by
  intro m hm
  unfold ylyParts at hm
  dsimp only at hm
  split at hm
  · rename_i h
    simp only [Bool.and_eq_true, bne_iff_ne] at h
    rw [List.mem_singleton] at hm
    omega
  · exact (bui31List_of_set hr.mon).2 m (List.mem_of_mem_take hm)

/-- **The candidates of a year are codes** if the days asked for are in the year. -/
theorem ylyFill_codes (hr : rr.Ranged) (hproto : proto.m ≤ 12) (hin : InYear rr y) :
    CodeSet (ylyFill rr (ylyParts proto nti rr) y) := by
  have hms := ylyParts_m nti hr hproto
  have hfit : ∀ m, 1 ≤ m ∧ m ≤ 12 → DomFits rr.scale y m (ylyParts proto nti rr).d :=
    fun m hm => domFits_parts hr hm (fun hs => hin.dom hs m hm) (ylyYmdp rr)
  have hdow : ∀ t ∈ bi447List rr.dow, IsCd t := hr.dow.list (by decide) (by decide)
  unfold ylyFill
  dsimp only
  set p := ylyParts proto nti rr
  have hmon : p.m = [] → bui31List rr.mon = [] := by
    intro h
    have h' : (if ((bui31List rr.mon).take 12).isEmpty && ylyYmdp rr && proto.m != 0 then [proto.m]
        else (bui31List rr.mon).take 12) = [] := h
    split at h'
    · cases h'
    · simpa using h'
  -- what the weekdays give
  generalize hcand : (if p.wdMask ≠ 0 ∧ (!p.d.isEmpty || bi383HasBits rr.doy) = true then Bitints.nil
      else _) = cand
  have h0 : CodeSet cand := by
    rw [← hcand]
    split
    · exact codeSet_nil
    · split
      · exact (adds_fillYlyYwd (hr.wk.list (by decide) (by decide)) rr.dow).codes _ codeSet_nil
      · split
        · refine (adds_fillYlyMdAll rr.scale y hms p.wdMask).codes _ ?_
          split
          · exact (adds_fillYlyYmcw y rr.dow hms).codes _ codeSet_nil
          · exact codeSet_nil
        · rename_i hnm
          split
          · rename_i hwd
            refine (adds_fillYlyYdAll y p.wdMask).codes _ ?_
            split
            · have hnil : p.m = [] := by
                by_contra hne
                exact hnm ⟨hwd.1, by simpa using hne⟩
              exact (adds_fillYlyYcw hdow (hin.dow (hmon hnil))).codes _ codeSet_nil
            · exact codeSet_nil
          · exact codeSet_nil
  -- what the days of the year add
  generalize hcand' : (if rr.scale = .gregorian then fillYlyYd cand y rr.doy p.wdMask else cand) = cand'
  have h1 : CodeSet cand' := by
    rw [← hcand']
    split
    · exact (adds_fillYlyYd (hr.doy.list (by decide) (by decide)) hin.doy p.wdMask).codes _ h0
    · exact h0
  split
  · exact (adds_fillYlyEastr hin.easter rr.mon rr.dom p.wdMask).codes _ h1
  · split
    · exact h1
    · split
      · exact (adds_fillYlyYmdAllM hfit p.wdMask).codes _ h1
      · split
        · exact (adds_fillYlyYmdAllD rr.scale y hms p.wdMask).codes _ h1
        · exact (adds_fillYlyYmd hms (fun m hm => hfit m (hms m hm)) p.wdMask).codes _ h1

end Cands

/-! ### Dates -/

/-- The dates of the candidates in the buckets of a year. -/
def candDates (y : Nat) (c : Cands) : List Date :=
  let on (iy : Int) (yd : Int) : Date :=
    ⟨u32OfInt ((y : Int) + iy), u32OfInt yd / 32 + 1, u32OfInt yd % 32⟩
  (bi383List c.prev).map (on (-1)) ++ (bi383List c.this).map (on 0) ++ (bi383List c.next).map (on 1)

/-- The instants of dates. -/
def Enum.on (e : Enum) (ms : Nat) (t : Date) : List Instant := e.times t.y t.m t.d ms

theorem candGroups_eq (e : Enum) (ms y : Nat) (c : Cands) :
    candGroups e ms y c = (candDates y c).map fun t => some (e.on ms t) := by
  simp [candGroups, candDates, Enum.on, List.map_map, Function.comp_def]

theorem flatMap_map_some {α β : Type} (xs : List α) (f : α → List β) :
    ((xs.map fun x => some (f x)).flatMap fun g => g.getD []) = xs.flatMap f := by
  rw [List.flatMap_map]
  rfl

/-- A date of year `y`. -/
structure Date.In (y : Nat) (t : Date) : Prop where
  year : t.y = y
  month : 1 ≤ t.m ∧ t.m ≤ 12
  day : t.d ≤ 31

theorem Date.In.fits {y : Nat} {t : Date} (h : t.In y) (hy : y < 65536) : t.Fits :=
  ⟨by rw [h.year]; exact hy, by have := h.month; omega, by have := h.day; omega⟩

/-- Where nothing has moved, all the candidates are of the year itself. -/
theorem candDates_eq {y : Nat} (hy : y < 65536) (c : Bitints) :
    candDates y (.single c) =
      (bi383List c).map fun x => ⟨y, u32OfInt x / 32 + 1, u32OfInt x % 32⟩ := by
  have hnil : bi383List .nil = [] := bi383List_native (by decide)
  unfold candDates Cands.single
  simp only [hnil, List.map_nil, List.nil_append, List.append_nil, Int.add_zero,
    u32OfInt_ofNat (show y < 4294967296 by omega)]

/-- **Codes stand for dates in their order.** -/
theorem candDates_single {y : Nat} (hy : y < 65536) {c : Bitints} (h : CodeSet c) :
    (candDates y (.single c)).Pairwise (Date.key · < Date.key ·) ∧
      ∀ t ∈ candDates y (.single c), t.In y := by
  have hcode : ∀ x ∈ bi383List c, u32OfInt x = x.toNat ∧ 1 ≤ x ∧ x ≤ 383 := by
    intro x hx
    obtain ⟨h1, h2⟩ := h.range x hx
    refine ⟨?_, h1, h2⟩
    unfold u32OfInt wordOfInt
    omega
  rw [candDates_eq hy]
  constructor
  · rw [List.pairwise_map]
    refine h.sorted.imp_of_mem fun {a b} ha hb hab => ?_
    obtain ⟨ea, ha1, ha2⟩ := hcode a ha
    obtain ⟨eb, hb1, hb2⟩ := hcode b hb
    rw [ea, eb]
    unfold Date.key
    dsimp only
    omega
  · intro t ht
    obtain ⟨x, hx, rfl⟩ := List.mem_map.mp ht
    obtain ⟨ex, hx1, hx2⟩ := hcode x hx
    rw [ex]
    exact ⟨rfl, ⟨by dsimp only; omega, by dsimp only; omega⟩, by dsimp only; omega⟩

/-! ### Moving on -/

def Pos.date (p : Pos) : Date := ⟨p.y, p.m, p.d⟩

/-- Where the loops below a month can be. -/
structure Pos.Placed (ndim : Nat → Nat → Nat) (p : Pos) : Prop where
  month : 1 ≤ p.m ∧ p.m ≤ 12
  day : 1 ≤ p.d ∧ p.d ≤ 31
  maxd : p.maxd = ndim p.y p.m

/-- No month is longer than 31 days. -/
def MonthsFit (ndim : Nat → Nat → Nat) : Prop := ∀ y m, 1 ≤ m ∧ m ≤ 12 → ndim y m ≤ 31

theorem monthsFit_scale (s : Scale) : MonthsFit (echsScaleNdim s) := fun y _ hm => ndim_le s y hm

theorem monthsFit_greg : MonthsFit getNdom := monthsFit_scale .gregorian

section Later

variable {ndim : Nat → Nat → Nat} {newYear : Pos → Pos}

/-- Carrying days leads to a day of the month, the same one or one of a later month. -/
theorem carryDays_later (hnew : ∀ p, newYear p = { p with yd := (newYear p).yd, maxy := (newYear p).maxy })
    (fuel : Nat) : ∀ {p q : Pos}, 1 ≤ p.m ∧ p.m ≤ 12 → 1 ≤ p.d → p.y + p.d < 4294967296 →
      p.d ≤ fuel → p.maxd = ndim p.y p.m → carryDays ndim newYear fuel p = some q →
      (1 ≤ q.m ∧ q.m ≤ 12) ∧ (1 ≤ q.d ∧ q.d ≤ q.maxd) ∧ q.maxd = ndim q.y q.m ∧
        (q.H = p.H ∧ q.M = p.M ∧ q.S = p.S) ∧
        ((q.y = p.y ∧ q.m = p.m ∧ q.d = p.d) ∨ 12 * p.y + p.m < 12 * q.y + q.m) := by
  induction fuel with
  | zero => intro p q _ h1 _ hf; omega
  | succ fuel ih =>
      intro p q hm h1 hsmall hf hmaxd h
      unfold carryDays at h
      split at h
      · rename_i hle
        cases h
        exact ⟨hm, ⟨h1, hle⟩, hmaxd, ⟨rfl, rfl, rfl⟩, Or.inl ⟨rfl, rfl, rfl⟩⟩
      · rename_i hlt
        split at h
        · cases h
        · rename_i h0
          dsimp only at h
          have hd : (p.d - 1) % p.maxd + 1 ≤ p.maxd := by
            have := Nat.mod_lt (p.d - 1) (Nat.pos_of_ne_zero h0)
            omega
          split at h
          · rename_i h12
            rw [u32_of_lt (by omega : p.y + 1 < 4294967296), hnew] at h
            obtain ⟨hqm, hqd, hqx, hqt, hlater⟩ :=
              ih (by dsimp only; omega) (by dsimp only; omega) (by dsimp only; omega)
                (by dsimp only; omega) rfl h
            refine ⟨hqm, hqd, hqx, hqt, Or.inr ?_⟩
            dsimp only at hlater
            omega
          · obtain ⟨hqm, hqd, hqx, hqt, hlater⟩ :=
              ih (by dsimp only; omega) (by dsimp only; omega) (by dsimp only; omega)
                (by dsimp only; omega) rfl h
            refine ⟨hqm, hqd, hqx, hqt, Or.inr ?_⟩
            dsimp only at hlater
            omega

/-- **A step by days leads to a later date.** -/
theorem carry_later (hfit : MonthsFit ndim)
    (hnew : ∀ p, newYear p = { p with yd := (newYear p).yd, maxy := (newYear p).maxy })
    {p r q : Pos} {k : Nat} (hp : p.Placed ndim) (hk : 0 < k) (hsmall : p.y + p.d + k < 4294967296)
    (hr : r.y = p.y ∧ r.m = p.m ∧ r.d = p.d + k ∧ r.maxd = p.maxd)
    (h : carry ndim newYear r = some q) :
    q.Placed ndim ∧ q.d ≤ q.maxd ∧ p.date.key < q.date.key ∧
      (q.H = r.H ∧ q.M = r.M ∧ q.S = r.S) := by
  obtain ⟨hy, hm, hd, hx⟩ := hr
  have hday := hp.day
  obtain ⟨hqm, hqd, hqx, hqt, hlater⟩ := carryDays_later hnew r.d (by rw [hm]; exact hp.month)
    (by omega) (by omega) le_rfl (by rw [hx, hy, hm]; exact hp.maxd) h
  have hq31 : q.d ≤ 31 := by
    have := hfit q.y q.m hqm
    omega
  refine ⟨⟨hqm, ⟨hqd.1, hq31⟩, hqx⟩, hqd.2, ?_, hqt⟩
  have hpm := hp.month
  unfold Pos.date Date.key
  dsimp only
  rcases hlater with ⟨h1, h2, h3⟩ | hlater
  · omega
  · omega

end Later

end Echse
