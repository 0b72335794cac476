/-
What the helpers put into a set of candidates.

Each helper only ever assigns codes to the set it is handed, so what it does can be said
by the codes it adds: `Adds f P`.  That composes along the lists the helpers go through.
-/
import Echse.Proofs.Ranges
import Echse.Proofs.Steps

namespace Echse

/-! ### Adding codes -/

/-- `f` adds exactly the codes that are `P` to a set of codes. -/
structure Adds (f : Bitints → Bitints) (P : Int → Prop) : Prop where
  codes : ∀ c, CodeSet c → CodeSet (f c)
  mem : ∀ c, CodeSet c → ∀ x, x ∈ bi383List (f c) ↔ P x ∨ x ∈ bi383List c

section Adds

variable {α : Type} {f g : Bitints → Bitints} {P Q : Int → Prop}

theorem adds_nothing (hP : ∀ x, ¬ P x) : Adds (fun c => c) P :=
  ⟨fun _ h => h, fun _ _ x => by simp [hP x]⟩

theorem adds_code {x : Int} (h1 : 1 ≤ x) (h383 : x ≤ 383) (hP : ∀ y, P y ↔ y = x) :
    Adds (fun c => assBi383 c x) P :=
  ⟨fun _ h => h.ass h1 h383, fun _ h y => by rw [h.mem_ass h1 h383, hP]⟩

theorem Adds.congr (h : Adds f P) (hPQ : ∀ x, P x ↔ Q x) : Adds f Q :=
  ⟨h.codes, fun c hc x => by rw [h.mem c hc, hPQ]⟩

theorem Adds.unique (hP : Adds f P) : Adds f Q ↔ ∀ x, P x ↔ Q x := by
  refine ⟨fun hQ x => ?_, hP.congr⟩
  have h1 := hP.mem .nil codeSet_nil x
  have h2 := hQ.mem .nil codeSet_nil x
  have hnil : x ∉ bi383List .nil := fun h => by cases h
  tauto

theorem Adds.comp (hf : Adds f P) (hg : Adds g Q) : Adds (fun c => g (f c)) fun x => P x ∨ Q x := by
  refine ⟨fun c hc => hg.codes _ (hf.codes c hc), fun c hc x => ?_⟩
  rw [hg.mem _ (hf.codes c hc), hf.mem c hc]
  tauto

theorem adds_ite (C : Prop) [Decidable C] (hf : C → Adds f P) (hg : ¬ C → Adds g Q) :
    Adds (fun c => if C then f c else g c) fun x => (C ∧ P x) ∨ (¬ C ∧ Q x) := by
  by_cases h : C
  · simpa [h] using hf h
  · simpa [h] using hg h

/-- A candidate or none. -/
theorem adds_if {C : Prop} [Decidable C] (hf : C → Adds f P) :
    Adds (fun c => if C then f c else c) fun x => C ∧ P x :=
  (adds_ite C hf fun _ => adds_nothing (P := fun _ => False) fun _ h => h).congr fun x => by tauto

theorem adds_unless {C : Prop} [Decidable C] (hf : ¬ C → Adds f P) :
    Adds (fun c => if C then c else f c) fun x => ¬ C ∧ P x :=
  (adds_ite C (fun _ => adds_nothing (P := fun _ => False) fun _ h => h) hf).congr fun x => by tauto

/-- A loop adds what its turns add. -/
theorem adds_foldl {xs : List α} {f : Bitints → α → Bitints} {P : α → Int → Prop}
    (h : ∀ a ∈ xs, Adds (fun c => f c a) (P a)) :
    Adds (fun c => xs.foldl f c) fun x => ∃ a ∈ xs, P a x := by
  induction xs with
  | nil => exact adds_nothing fun x => by simp
  | cons a xs ih =>
      refine ((h a List.mem_cons_self).comp
        (ih fun b hb => h b (List.mem_cons_of_mem _ hb))).congr fun x => ?_
      simp

end Adds

/-! ### Codes -/

/-- The code of a month and a day. -/
def codeOf (m : Nat) (d : Int) : Int := 32 * ((m : Int) - 1) + d

theorem packCand_eq {m : Nat} {d : Int} (h1 : 1 ≤ codeOf m d) (h383 : codeOf m d ≤ 383) :
    packCand m d = codeOf m d := by
  have h : ((m : Int) - 1) * 32 + d = codeOf m d := by unfold codeOf; ring
  unfold packCand
  rw [h, intOfWord_wordOfInt (by decide) (by norm_num; omega) (by norm_num; omega)]

theorem adds_pack {m : Nat} {d : Int} (h1 : 1 ≤ codeOf m d) (h383 : codeOf m d ≤ 383) :
    Adds (fun c => assBi383 c (packCand m d)) fun x => x = codeOf m d := by
  rw [packCand_eq h1 h383]
  exact adds_code h1 h383 fun y => Iff.rfl

theorem codeOf_range {m : Nat} {d : Int} (hm : 1 ≤ m ∧ m ≤ 12) (hd : 1 ≤ d ∧ d ≤ 31) :
    1 ≤ codeOf m d ∧ codeOf m d ≤ 383 := by
  unfold codeOf
  omega

theorem adds_date {m : Nat} {d : Int} (hm : 1 ≤ m ∧ m ≤ 12) (hd : 1 ≤ d ∧ d ≤ 31) :
    Adds (fun c => assBi383 c (packCand m d)) fun x => x = codeOf m d :=
  adds_pack (codeOf_range hm hd).1 (codeOf_range hm hd).2

/-! ### Month lengths -/

/-- The transitions of a month table are 28 to 31 days apart. -/
structure MonthTable.Regular (cal : MonthTable) : Prop where
  steps : ((cal.mt.zip cal.mt.tail).all fun ab => ab.1 + 28 ≤ ab.2 && ab.2 ≤ ab.1 + 31) = true
  short : cal.mt.length < 4294967295

theorem regular_ummulqura : datUmmulqura.Regular := ⟨by decide +kernel, by decide +kernel⟩

theorem regular_diyanet : datDiyanet.Regular := ⟨by decide +kernel, by decide +kernel⟩

theorem MonthTable.Regular.step {cal : MonthTable} (h : cal.Regular) {i : Nat}
    (hi : i + 1 < cal.mt.length) :
    cal.mt.getD i 0 + 28 ≤ cal.mt.getD (i + 1) 0 ∧
      cal.mt.getD (i + 1) 0 ≤ cal.mt.getD i 0 + 31 := by
  have hall := List.all_eq_true.mp h.steps
  have hz : i < (cal.mt.zip cal.mt.tail).length := by simp; omega
  have := hall _ (List.getElem_mem hz)
  simp only [List.getElem_zip, List.getElem_tail, Bool.and_eq_true, decide_eq_true_eq] at this
  rw [List.getD_eq_getElem _ _ hi, List.getD_eq_getElem _ _ (by omega : i < cal.mt.length)]
  exact this

/-- **A month has 28 to 31 days, or is not known to the calendar.** -/
theorem echsScaleNdim_range (s : Scale) (y : Nat) {m : Nat} (h1 : 1 ≤ m) (h12 : m ≤ 12) :
    echsScaleNdim s y m = 0 ∨ (28 ≤ echsScaleNdim s y m ∧ echsScaleNdim s y m ≤ 31) := by
  have hgreg : 28 ≤ ndimGreg y m ∧ ndimGreg y m ≤ 31 := ndimGreg_range y h1 h12
  have hhij : ∀ t, 28 ≤ ndimHij t y m ∧ ndimHij t y m ≤ 31 := by
    intro t
    unfold ndimHij
    split <;> omega
  have hht : ∀ cal : MonthTable, cal.Regular →
      ndimHt cal y m = 0 ∨ (28 ≤ ndimHt cal y m ∧ ndimHt cal y m ≤ 31) := by
    intro cal hcal
    unfold ndimHt
    split
    · exact Or.inl rfl
    · rename_i hi
      by_cases hlast : htIndex cal y m + 1 < cal.mt.length
      · have hstep := hcal.step hlast
        right
        rw [show ((cal.mt.getD (htIndex cal y m + 1) 0 : Int) - cal.mt.getD (htIndex cal y m) 0)
          = ((cal.mt.getD (htIndex cal y m + 1) 0 - cal.mt.getD (htIndex cal y m) 0 : Nat) : Int) by
            omega, u32OfInt_ofNat (by omega)]
        omega
      · -- the index is one before the first month, as an unsigned value
        left
        have hshort := hcal.short
        have hb : htIndex cal y m < 4294967296 := by
          unfold htIndex u32OfInt wordOfInt
          omega
        unfold MonthTable.nm u32 at hi
        rw [List.getD_eq_default _ _ (by omega : cal.mt.length ≤ htIndex cal y m + 1),
          List.getD_eq_default _ _ (by omega : cal.mt.length ≤ htIndex cal y m)]
        rfl
  cases s with
  | gregorian => exact Or.inr hgreg
  | hijriUmmulqura => exact hht _ regular_ummulqura
  | hijriDiyanet => exact hht _ regular_diyanet
  | _ => exact Or.inr (hhij _)

/-! ### Days of the year -/

/-- 1 in a year that the rule of four gives a leap day. -/
def leap4 (y : Nat) : Nat := if y % 4 = 0 then 1 else 0

theorem leap4_le (y : Nat) : leap4 y ≤ 1 := by
  unfold leap4
  split <;> omega

theorem ydToMd_congr {y z : Nat} (h : y % 4 = 0 ↔ z % 4 = 0) (doy : Int) :
    ydToMd y doy = ydToMd z doy := by
  unfold ydToMd
  simp only [h]

theorem incMd_congr {y z : Nat} (h : y % 4 = 0 ↔ z % 4 = 0) (md : Md) : incMd md y = incMd md z := by
  unfold incMd getNdom ndimGreg
  simp only [h]

/-- A year that stands for all with the same leap day. -/
def likeYear (y : Nat) : Nat := if y % 4 = 0 then 4 else 1

theorem likeYear_iff (y : Nat) : y % 4 = 0 ↔ likeYear y % 4 = 0 := by
  unfold likeYear
  split <;> omega

/-- What the conversion has to be: a date of that day of the year. -/
def ydRight (leap y k : Nat) : Bool :=
  let md := ydToMd y ((k : Int) + 1)
  1 ≤ md.m && md.m ≤ 12 && 1 ≤ md.d && md.d ≤ ndimGreg y md.m &&
    Gregorian.yearDaysBefore leap (md.m - 1) + md.d == k + 1 &&
    (k + 1 == 365 + leap || incMd md y == ydToMd y ((k : Int) + 2))

theorem ydRight_all : ((List.range 365).all (ydRight 0 1)) = true ∧
    ((List.range 366).all (ydRight 1 4)) = true := by
  constructor <;> decide +kernel

/-- **Days of the year become dates of the year.** -/
theorem ydToMd_spec {y k : Nat} (h1 : 1 ≤ k) (hk : k ≤ 365 + leap4 y) :
    1 ≤ (ydToMd y k).m ∧ (ydToMd y k).m ≤ 12 ∧ 1 ≤ (ydToMd y k).d ∧
      (ydToMd y k).d ≤ ndimGreg y (ydToMd y k).m ∧
      Gregorian.yearDaysBefore (leap4 y) ((ydToMd y k).m - 1) + (ydToMd y k).d = k ∧
      (k < 365 + leap4 y → incMd (ydToMd y k) y = ydToMd y (k + 1 : Nat)) := by
  obtain ⟨j, rfl⟩ : ∃ j, k = j + 1 := ⟨k - 1, by omega⟩
  have hnd : ∀ m, ndimGreg y m = ndimGreg (likeYear y) m := by
    intro m
    unfold ndimGreg
    simp only [likeYear_iff y]
  have hright : ydRight (leap4 y) (likeYear y) j = true := by
    unfold leap4 at hk ⊢
    unfold likeYear
    split
    · rename_i h4
      rw [if_pos h4] at hk
      exact List.all_eq_true.mp ydRight_all.2 j (List.mem_range.mpr (by omega))
    · rename_i h4
      rw [if_neg h4] at hk
      exact List.all_eq_true.mp ydRight_all.1 j (List.mem_range.mpr (by omega))
  rw [ydToMd_congr (likeYear_iff y), ydToMd_congr (likeYear_iff y), hnd,
    incMd_congr (likeYear_iff y)]
  unfold ydRight at hright
  simp only [Bool.and_eq_true, Bool.or_eq_true, decide_eq_true_eq, beq_iff_eq] at hright
  obtain ⟨⟨⟨⟨⟨h1, h2⟩, h3⟩, h4⟩, h5⟩, h6⟩ := hright
  push_cast
  refine ⟨h1, h2, h3, h4, h5, fun hlt => ?_⟩
  rw [show ((j : Int) + 1 + 1) = (j : Int) + 2 by ring]
  exact h6.resolve_left (by omega)

/-- A day counted from the year's end is one counted from its start. -/
theorem ydToMd_neg {y : Nat} {t : Int} (h : t < 0) (ht : 0 ≤ t + 366 + leap4 y) :
    ydToMd y t = ydToMd y (t + 366 + leap4 y) := by
  have hcast : ((leap4 y : Nat) : Int) = if y % 4 = 0 then 1 else 0 := by
    unfold leap4
    split <;> rfl
  rw [hcast] at ht ⊢
  have hno : ¬ (t + 366 + if y % 4 = 0 then 1 else 0) < 0 := by omega
  unfold ydToMd
  rw [if_pos h, if_neg hno]

/-- Day 0 and the days past the year's end. -/
def ydOver (leap y k : Nat) : Bool :=
  (ydToMd y 0 == ⟨0, 32⟩) && (ydToMd y ((365 : Int) + leap + k + 1) == ⟨13, k + 1⟩)

theorem ydOver_all : ((List.range 14).all (ydOver 0 1)) = true ∧
    ((List.range 14).all (ydOver 1 4)) = true := by
  constructor <;> decide

theorem ydToMd_over {y k : Nat} (hk : k < 14) :
    ydToMd y 0 = ⟨0, 32⟩ ∧ ydToMd y ((365 : Int) + leap4 y + k + 1) = ⟨13, k + 1⟩ := by
  have h : ydOver (leap4 y) (likeYear y) k = true := by
    unfold leap4 likeYear
    split
    · exact List.all_eq_true.mp ydOver_all.2 k (List.mem_range.mpr hk)
    · exact List.all_eq_true.mp ydOver_all.1 k (List.mem_range.mpr hk)
  rw [ydToMd_congr (likeYear_iff y), ydToMd_congr (likeYear_iff y)]
  unfold ydOver at h
  simpa only [Bool.and_eq_true, beq_iff_eq] using h

/-- Every day of the year from -366 to 378 has a date, is past the end, or is none. -/
theorem ydToMd_cases (y : Nat) {t : Int} (h1 : -366 ≤ t) (h2 : t ≤ 378) :
    ydToMd y t = ⟨0, 32⟩ ∨
      (1 ≤ (ydToMd y t).m ∧ (ydToMd y t).m ≤ 12 ∧ 1 ≤ (ydToMd y t).d ∧
        (ydToMd y t).d ≤ ndimGreg y (ydToMd y t).m) ∨
      ((ydToMd y t).m = 13 ∧ 1 ≤ (ydToMd y t).d ∧ (ydToMd y t).d ≤ 14) := by
  have hle := leap4_le y
  have hpos : ∀ t : Int, 0 ≤ t → t ≤ 378 → ydToMd y t = ⟨0, 32⟩ ∨
      (1 ≤ (ydToMd y t).m ∧ (ydToMd y t).m ≤ 12 ∧ 1 ≤ (ydToMd y t).d ∧
        (ydToMd y t).d ≤ ndimGreg y (ydToMd y t).m) ∨
      ((ydToMd y t).m = 13 ∧ 1 ≤ (ydToMd y t).d ∧ (ydToMd y t).d ≤ 14) := by
    intro t h0 h378
    obtain ⟨k, rfl⟩ : ∃ k : Nat, t = k := ⟨t.toNat, by omega⟩
    rcases Nat.eq_zero_or_pos k with rfl | hk
    · exact Or.inl (ydToMd_over (y := y) (k := 0) (by decide)).1
    · by_cases hin : k ≤ 365 + leap4 y
      · obtain ⟨a, b, c, d, -⟩ := ydToMd_spec (y := y) hk hin
        exact Or.inr (Or.inl ⟨a, b, c, d⟩)
      · have hover := (ydToMd_over (y := y) (k := k - 366 - leap4 y) (by omega)).2
        rw [show ((365 : Int) + leap4 y + (k - 366 - leap4 y : Nat) + 1) = (k : Int) by omega] at hover
        right; right
        rw [hover]
        exact ⟨rfl, by dsimp only; omega, by dsimp only; omega⟩
  by_cases h0 : 0 ≤ t
  · exact hpos t h0 h2
  · rw [ydToMd_neg (by omega) (by omega)]
    exact hpos _ (by omega) (by omega)

/-! ### Days of a month -/

theorem incWd_eq {w : Nat} (h : 1 ≤ w ∧ w ≤ 7) : incWd w = wdayFrom w 1 := by
  unfold incWd wdayFrom wdayMon
  split <;> omega

/-- Going through `n` days of a month from day `d`, a `w`. -/
theorem adds_fillDays {m : Nat} (hm : 1 ≤ m ∧ m ≤ 12) (keep : Nat → Bool) (n : Nat) :
    ∀ {d w : Nat}, 1 ≤ d → d + n ≤ 32 → 1 ≤ w ∧ w ≤ 7 →
      Adds (fillDays m keep n d w) fun x =>
        ∃ j < n, keep (wdayFrom w j) = true ∧ x = codeOf m ((d + j : Nat) : Int) := by
  induction n with
  | zero => intro d w _ _ _; exact adds_nothing fun x => by simp
  | succ n ih =>
      intro d w hd hn hw
      have hfirst := adds_if (C := keep w = true)
        (fun _ => adds_date hm (d := (d : Int)) ⟨by omega, by omega⟩)
      rw [show fillDays m keep (n + 1) d w = fun c =>
        fillDays m keep n (d + 1) (incWd w) (if keep w then assBi383 c (packCand m d) else c) from rfl,
        incWd_eq hw]
      refine (hfirst.comp (ih (by omega) (by omega) (wdayFrom_range w 1))).congr fun x => ?_
      constructor
      · rintro (⟨hk, rfl⟩ | ⟨j, hj, hk, rfl⟩)
        · exact ⟨0, by omega, by rwa [wdayFrom_zero hw], rfl⟩
        · rw [wdayFrom_add] at hk
          exact ⟨1 + j, by omega, hk, by rw [Nat.add_assoc]⟩
      · rintro ⟨j, hj, hk, rfl⟩
        cases j with
        | zero => rw [wdayFrom_zero hw] at hk; exact Or.inl ⟨hk, rfl⟩
        | succ j =>
            refine Or.inr ⟨j, by omega, ?_, ?_⟩
            · rwa [wdayFrom_add, Nat.add_comm 1 j]
            · rw [Nat.add_assoc, Nat.add_comm 1 j]

theorem ndim_le (s : Scale) (y : Nat) {m : Nat} (hm : 1 ≤ m ∧ m ≤ 12) : echsScaleNdim s y m ≤ 31 := by
  rcases echsScaleNdim_range s y hm.1 hm.2 with h | h <;> omega

theorem ymdGetWday_range (y m d : Nat) : 1 ≤ ymdGetWday y m d ∧ ymdGetWday y m d ≤ 7 :=
  echsScaleWday_range .gregorian y m d

theorem adds_fillMlyYmdAllD (s : Scale) (y : Nat) {m : Nat} (hm : 1 ≤ m ∧ m ≤ 12) (wdMask : Nat) :
    Adds (fun c => fillMlyYmdAllD c s y m wdMask) fun x =>
      ∃ j < echsScaleNdim s y m,
        (wdMask == 0 || maskHas wdMask (wdayFrom (echsScaleWday s y m 1) j)) = true ∧
          x = codeOf m ((1 + j : Nat) : Int) :=
  adds_fillDays hm _ _ le_rfl (by have := ndim_le s y hm; omega) (echsScaleWday_range s y m 1)

theorem adds_fillYlyYmdAllD (s : Scale) (y : Nat) {ms : List Nat} (hms : ∀ m ∈ ms, 1 ≤ m ∧ m ≤ 12)
    (wdMask : Nat) :
    Adds (fun c => fillYlyYmdAllD c s y ms wdMask) fun x =>
      ∃ m ∈ ms, ∃ j < echsScaleNdim s y m,
        (wdMask == 0 || maskHas wdMask (wdayFrom (echsScaleWday s y m 1) j)) = true ∧
          x = codeOf m ((1 + j : Nat) : Int) :=
  adds_foldl fun m hm => adds_fillMlyYmdAllD s y (hms m hm) wdMask

theorem adds_fillYlyMdAll (s : Scale) (y : Nat) {ms : List Nat} (hms : ∀ m ∈ ms, 1 ≤ m ∧ m ≤ 12)
    (wdMask : Nat) :
    Adds (fun c => fillYlyMdAll c s y ms wdMask) fun x =>
      maskPlain wdMask = true ∧ ∃ m ∈ ms, ∃ j < echsScaleNdim s y m,
        maskHas wdMask (wdayFrom (ymdGetWday y m 1) j) = true ∧
          x = codeOf m ((1 + j : Nat) : Int) := by
  unfold fillYlyMdAll
  refine (adds_unless (C := (!maskPlain wdMask) = true) fun _ => adds_foldl fun m hm =>
    adds_fillDays (hms m hm) _ _ le_rfl (by have := ndim_le s y (hms m hm); omega)
      (ymdGetWday_range y m 1)).congr fun x => ?_
  simp

/-- The listed month days are days of their months, or codes at least. -/
def DomFits (s : Scale) (y m : Nat) (ds : List Int) : Prop :=
  ∀ t ∈ ds, ∀ d, domOf (echsScaleNdim s y m) t = some d → 1 ≤ codeOf m d

theorem domOf_le {n : Nat} {t d : Int} (h : domOf n t = some d) : d ≤ n := by
  unfold domOf at h
  split at h
  · cases h; omega
  · split at h
    · cases h; omega
    · cases h

theorem domFits_gregorian (y : Nat) {m : Nat} (hm : 1 ≤ m ∧ m ≤ 12) {ds : List Int}
    (hds : ∀ t ∈ ds, -31 ≤ t) : DomFits .gregorian y m ds := by
  intro t ht d hd
  have h1 := hds t ht
  have hn : 28 ≤ ndimGreg y m ∧ (m = 1 → ndimGreg y m = 31) := by
    refine ⟨(ndimGreg_range y hm.1 hm.2).1, fun h => ?_⟩
    subst h
    simp [ndimGreg, gregMdays]
  have hscale : echsScaleNdim .gregorian y m = ndimGreg y m := rfl
  rw [hscale] at hd
  unfold domOf at hd
  unfold codeOf
  split at hd
  · cases hd; omega
  · split at hd
    · rename_i hneg
      obtain ⟨hneg, hne⟩ := hneg
      cases hd
      have hz : (ndimGreg y m : Int) + 1 + t ≠ 0 := by
        intro hz
        rw [hz] at hne
        exact hne rfl
      by_cases hm1 : m = 1
      · have := hn.2 hm1
        omega
      · omega
    · cases hd

theorem adds_domOf {s : Scale} {y m : Nat} (hm : 1 ≤ m ∧ m ≤ 12) {ds : List Int}
    (hfit : DomFits s y m ds) (skip : Int → Bool) :
    Adds (fun c => ds.foldl (fun c t =>
        match domOf (echsScaleNdim s y m) t with
        | none => c
        | some d => if skip d then c else assBi383 c (packCand m d)) c) fun x =>
      ∃ t ∈ ds, ∃ d, domOf (echsScaleNdim s y m) t = some d ∧ skip d = false ∧ x = codeOf m d := by
  refine adds_foldl fun t ht => ?_
  cases hd : domOf (echsScaleNdim s y m) t with
  | none => exact adds_nothing fun x => by simp
  | some d =>
      have h1 := hfit t ht d hd
      have h31 : d ≤ 31 := by
        have := domOf_le hd
        have := ndim_le s y hm
        omega
      refine (adds_unless (C := skip d = true) fun _ =>
        adds_pack h1 (by unfold codeOf at h1 ⊢; omega)).congr fun x => ?_
      simp

theorem adds_fillMlyYmd {s : Scale} {y m : Nat} (hm : 1 ≤ m ∧ m ≤ 12) {ds : List Int}
    (hfit : DomFits s y m ds) (wdMask : Nat) :
    Adds (fun c => fillMlyYmd c s y m ds wdMask) fun x =>
      ∃ t ∈ ds, ∃ d, domOf (echsScaleNdim s y m) t = some d ∧
        (maskPlain wdMask && !maskHas wdMask (echsScaleWday s y m (u32OfInt d))) = false ∧
          x = codeOf m d :=
  adds_domOf hm hfit fun d => maskPlain wdMask && !maskHas wdMask (echsScaleWday s y m (u32OfInt d))

theorem adds_fillYlyYmd {s : Scale} {y : Nat} {ms : List Nat} (hms : ∀ m ∈ ms, 1 ≤ m ∧ m ≤ 12)
    {ds : List Int} (hfit : ∀ m ∈ ms, DomFits s y m ds) (wdMask : Nat) :
    Adds (fun c => fillYlyYmd c s y ms ds wdMask) fun x =>
      ∃ m ∈ ms, ∃ t ∈ ds, ∃ d, domOf (echsScaleNdim s y m) t = some d ∧
        (maskPlain wdMask && !maskHas wdMask (echsScaleWday s y m (u32OfInt d))) = false ∧
          x = codeOf m d :=
  adds_foldl fun m hm => adds_fillMlyYmd (hms m hm) (hfit m hm) wdMask

theorem adds_fillYlyYmdAllM {s : Scale} {y : Nat} {ds : List Int}
    (hfit : ∀ m, 1 ≤ m ∧ m ≤ 12 → DomFits s y m ds) (wdMask : Nat) :
    Adds (fun c => fillYlyYmdAllM c s y ds wdMask) fun x =>
      ∃ m ∈ List.range' 1 12, ∃ t ∈ ds, ∃ d, domOf (echsScaleNdim s y m) t = some d ∧
        (wdMask != 0 && !maskHas wdMask (echsScaleWday s y m (u32OfInt d))) = false ∧
          x = codeOf m d := by
  refine adds_foldl fun m hm => ?_
  have hm' : 1 ≤ m ∧ m ≤ 12 := by
    rw [List.mem_range'_1] at hm
    omega
  exact adds_domOf hm' (hfit m hm')
    fun d => wdMask != 0 && !maskHas wdMask (echsScaleWday s y m (u32OfInt d))

/-! ### Counted weekdays -/

theorem unpackCd_range {t : Int} (h : IsCd t) :
    -53 ≤ (unpackCd t).cnt ∧ (unpackCd t).cnt ≤ 53 ∧ 1 ≤ (unpackCd t).dow ∧ (unpackCd t).dow ≤ 7 := by
  unfold IsCd at h
  unfold unpackCd
  dsimp only
  omega

theorem getMcnt_le (y : Nat) {m : Nat} (hm : 1 ≤ m ∧ m ≤ 12) (w : Nat) : getMcnt y m w ≤ 5 := by
  have hn : getNdom y m ≤ 31 := (ndimGreg_range y hm.1 hm.2).2
  unfold getMcnt
  dsimp only
  generalize (if w = wdaySun then wdayMir else w) = v
  split <;> omega

/-- A counted weekday of a month is one of its days, or none. -/
theorem ymcwGetDom_le (y : Nat) {m : Nat} (hm : 1 ≤ m ∧ m ≤ 12) {c : Int} (hc : c ≠ 0) (w : Nat) :
    ymcwGetDom y m c w ≤ 31 := by
  have hmax := getMcnt_le y hm w
  have hg : 28 ≤ gregMdays.getD m 0 ∧ gregMdays.getD m 0 ≤ 31 := by
    obtain ⟨h1, h12⟩ := hm
    interval_cases m <;> decide
  unfold ymcwGetDom
  dsimp only
  split
  · omega
  · split
    · omega
    · rename_i h1 h2
      generalize hadd : (w + 7 - ymdGetWday y m 1) % 7 = add
      have haddlt : add < 7 := by omega
      generalize hc' : (if c < 0 then c + (getMcnt y m w : Int) + 1 else c) = c'
      have hc'' : 1 ≤ c' ∧ c' ≤ 5 := by
        rw [← hc']
        split <;> omega
      have ht : u32OfInt (1 + (add : Int) + (c' - 1) * 7) = (1 + (add : Int) + (c' - 1) * 7).toNat := by
        unfold u32OfInt wordOfInt
        omega
      rw [ht]
      split
      · split
        · omega
        · unfold u32OfInt wordOfInt
          omega
      · omega

theorem adds_fillMlyYmcw (y : Nat) {m : Nat} (hm : 1 ≤ m ∧ m ≤ 12) (dow : Bitints) :
    Adds (fun c => fillMlyYmcw c y m dow) fun x =>
      ∃ t ∈ bi447List dow, (unpackCd t).cnt ≠ 0 ∧
        ymcwGetDom y m (unpackCd t).cnt (unpackCd t).dow ≠ 0 ∧
          x = codeOf m (ymcwGetDom y m (unpackCd t).cnt (unpackCd t).dow) := by
  refine adds_foldl fun t _ => ?_
  by_cases hcnt : (unpackCd t).cnt = 0
  · simp only [hcnt, if_true]
    exact adds_nothing fun x => by simp
  · have hle := ymcwGetDom_le y hm hcnt (unpackCd t).dow
    simp only [hcnt, if_false]
    refine (adds_unless fun h0 => adds_date hm ⟨by omega, by omega⟩).congr fun x => ?_
    simp [hcnt]

theorem adds_fillYlyYmcw (y : Nat) (dow : Bitints) {ms : List Nat}
    (hms : ∀ m ∈ ms, 1 ≤ m ∧ m ≤ 12) :
    Adds (fun c => fillYlyYmcw c y dow ms) fun x =>
      ∃ m ∈ ms, ∃ t ∈ bi447List dow, (unpackCd t).cnt ≠ 0 ∧
        ymcwGetDom y m (unpackCd t).cnt (unpackCd t).dow ≠ 0 ∧
          x = codeOf m (ymcwGetDom y m (unpackCd t).cnt (unpackCd t).dow) :=
  adds_foldl fun m hm => adds_fillMlyYmcw y (hms m hm) dow

/-- The counted weekdays of a year, as the signed days of the year that they become. -/
theorem ycwGetYday_range (y : Nat) {c : Int} (hc : c ≠ 0 ∧ -53 ≤ c ∧ c ≤ 53) {w : Nat}
    (hw : 1 ≤ w ∧ w ≤ 7) :
    -6 ≤ intOfWord 32 (ycwGetYday y c w) ∧ intOfWord 32 (ycwGetYday y c w) ≤ 371 := by
  have hsmall : ∀ z : Int, -6 ≤ z → z ≤ 371 →
      -6 ≤ intOfWord 32 (u32OfInt z) ∧ intOfWord 32 (u32OfInt z) ≤ 371 := by
    intro z h1 h2
    unfold u32OfInt
    rw [intOfWord_wordOfInt (by decide) (by norm_num; omega) (by norm_num; omega)]
    exact ⟨h1, h2⟩
  have hj := ymdGetWday_range y 1 1
  unfold ycwGetYday
  dsimp only
  generalize hdiff : (if ymdGetWday y 1 1 ≤ w then w - ymdGetWday y 1 1
    else 7 + w - ymdGetWday y 1 1) = diff
  have hd : diff ≤ 6 := by
    rw [← hdiff]
    split <;> omega
  split
  · exact hsmall _ (by omega) (by omega)
  · split
    · split
      · exact hsmall _ (by omega) (by omega)
      · exact hsmall _ (by omega) (by omega)
    · omega

/-- A day of the year that is put into a set if it is one of a month. -/
theorem adds_ydToMd {y : Nat} {t : Int} (h1 : -366 ≤ t) (h2 : t ≤ 378) (hm : (ydToMd y t).m ≤ 12) :
    Adds (fun c => if (ydToMd y t).m = 0 then c
        else assBi383 c (packCand (ydToMd y t).m (ydToMd y t).d)) fun x =>
      (ydToMd y t).m ≠ 0 ∧ x = codeOf (ydToMd y t).m (ydToMd y t).d := by
  refine adds_unless fun h0 => ?_
  rcases ydToMd_cases y h1 h2 with h | ⟨ha, hb, hc, hd⟩ | ⟨h, -⟩
  · rw [h] at h0
    exact absurd rfl h0
  · have := (ndimGreg_range y ha hb).2
    exact adds_date ⟨ha, hb⟩ ⟨by omega, by omega⟩
  · omega

theorem adds_fillYlyYcw {y : Nat} {dow : Bitints} (hdow : ∀ t ∈ bi447List dow, IsCd t)
    (hin : ∀ t ∈ bi447List dow, (unpackCd t).cnt ≠ 0 →
      (ydToMd y (intOfWord 32 (ycwGetYday y (unpackCd t).cnt (unpackCd t).dow))).m ≤ 12) :
    Adds (fun c => fillYlyYcw c y dow) fun x =>
      ∃ t ∈ bi447List dow, (unpackCd t).cnt ≠ 0 ∧
        ycwGetYday y (unpackCd t).cnt (unpackCd t).dow ≠ 0 ∧
        (ydToMd y (intOfWord 32 (ycwGetYday y (unpackCd t).cnt (unpackCd t).dow))).m ≠ 0 ∧
        x = codeOf (ydToMd y (intOfWord 32 (ycwGetYday y (unpackCd t).cnt (unpackCd t).dow))).m
          (ydToMd y (intOfWord 32 (ycwGetYday y (unpackCd t).cnt (unpackCd t).dow))).d := by
  refine adds_foldl fun t ht => ?_
  by_cases hcnt : (unpackCd t).cnt = 0
  · simp only [hcnt, if_true]
    exact adds_nothing fun x => by simp
  · obtain ⟨c1, c2, w1, w2⟩ := unpackCd_range (hdow t ht)
    obtain ⟨y1, y2⟩ := ycwGetYday_range y ⟨hcnt, c1, c2⟩ ⟨w1, w2⟩
    simp only [hcnt, if_false]
    refine (adds_unless (C := ycwGetYday y (unpackCd t).cnt (unpackCd t).dow = 0) fun _ =>
      adds_ydToMd (by omega) (by omega) (hin t ht hcnt)).congr fun x => ?_
    simp [hcnt]

/-! ### Days of the year, weeks and Easter -/

theorem adds_fillYlyYd {y : Nat} {doy : Bitints}
    (hdoy : ∀ t ∈ bi383List doy, t ≠ 0 ∧ -366 ≤ t ∧ t ≤ 366)
    (hin : ∀ t ∈ bi383List doy, (ydToMd y t).m ≤ 12) (wdMask : Nat) :
    Adds (fun c => fillYlyYd c y doy wdMask) fun x =>
      ∃ t ∈ bi383List doy, (maskPlain wdMask && !maskHas wdMask (ydGetWday y t)) = false ∧
        (ydToMd y t).m ≠ 0 ∧ x = codeOf (ydToMd y t).m (ydToMd y t).d := by
  refine adds_foldl fun t ht => ?_
  obtain ⟨-, h1, h2⟩ := hdoy t ht
  refine (adds_unless (C := (maskPlain wdMask && !maskHas wdMask (ydGetWday y t)) = true) fun _ =>
    adds_ydToMd (by omega) (by omega) (hin t ht)).congr fun x => ?_
  simp only [Bool.not_eq_true]

/-- The day after another, `n` days gone through. -/
theorem adds_fillYlyYdAllFrom (y wdMask : Nat) (n : Nat) :
    ∀ {k w : Nat}, 1 ≤ k → k + n ≤ 366 + leap4 y → 1 ≤ w ∧ w ≤ 7 → ∀ {md : Md},
      (0 < n → md = ydToMd y k) →
      Adds (fillYlyYdAllFrom y wdMask n w md) fun x =>
        ∃ j < n, maskHas wdMask (wdayFrom w j) = true ∧
          x = codeOf (ydToMd y (k + j : Nat)).m (ydToMd y (k + j : Nat)).d := by
  induction n with
  | zero => intro k w _ _ _ md _; exact adds_nothing fun x => by simp
  | succ n ih =>
      intro k w hk hn hw md hmd
      obtain rfl := hmd (Nat.succ_pos n)
      obtain ⟨m1, m2, d1, d2, -, hnext⟩ := ydToMd_spec (y := y) hk (by omega)
      have hfirst := adds_if (C := maskHas wdMask w = true) fun _ =>
        adds_date ⟨m1, m2⟩ (d := ((ydToMd y k).d : Int))
          ⟨by omega, by have := (ndimGreg_range y m1 m2).2; omega⟩
      have hrest := ih (k := k + 1) (w := wdayFrom w 1) (by omega) (by omega) (wdayFrom_range w 1)
        fun hpos => hnext (by omega)
      rw [show fillYlyYdAllFrom y wdMask (n + 1) w (ydToMd y k) = fun c =>
        fillYlyYdAllFrom y wdMask n (incWd w) (incMd (ydToMd y k) y)
          (if maskHas wdMask w then assBi383 c (packCand (ydToMd y k).m (ydToMd y k).d) else c)
        from rfl, incWd_eq hw]
      refine (hfirst.comp hrest).congr fun x => ?_
      constructor
      · rintro (⟨hkeep, rfl⟩ | ⟨j, hj, hkeep, rfl⟩)
        · exact ⟨0, by omega, by rwa [wdayFrom_zero hw], rfl⟩
        · rw [wdayFrom_add] at hkeep
          exact ⟨1 + j, by omega, hkeep, by rw [Nat.add_assoc]⟩
      · rintro ⟨j, hj, hkeep, rfl⟩
        cases j with
        | zero => rw [wdayFrom_zero hw] at hkeep; exact Or.inl ⟨hkeep, rfl⟩
        | succ j =>
            refine Or.inr ⟨j, by omega, ?_, ?_⟩
            · rwa [wdayFrom_add, Nat.add_comm 1 j]
            · rw [Nat.add_assoc, Nat.add_comm 1 j]

theorem adds_fillYlyYdAll (y wdMask : Nat) :
    Adds (fun c => fillYlyYdAll c y wdMask) fun x =>
      maskPlain wdMask = true ∧ ∃ j < 365 + leap4 y,
        maskHas wdMask (wdayFrom (ymdGetWday y 1 1) j) = true ∧
          x = codeOf (ydToMd y (1 + j : Nat)).m (ydToMd y (1 + j : Nat)).d := by
  have hdays : (if y % 4 = 0 then 366 else 365) = 365 + leap4 y := by
    unfold leap4
    split <;> rfl
  have hstart : (⟨1, 1⟩ : Md) = ydToMd y (1 : Nat) := by
    rw [ydToMd_congr (likeYear_iff y)]
    unfold likeYear
    split <;> decide
  unfold fillYlyYdAll
  rw [hdays]
  refine (adds_unless (C := (!maskPlain wdMask) = true) fun _ =>
    adds_fillYlyYdAllFrom y wdMask (365 + leap4 y) le_rfl (by omega) (ymdGetWday_range y 1 1)
      fun _ => hstart).congr fun x => ?_
  simp

theorem ywdGetYday_range (y : Nat) {w : Int} (hw : -53 ≤ w ∧ w ≤ 53) {d : Nat} (hd : d ≤ 7) :
    -10 ≤ ywdGetYday y w d ∧ ywdGetYday y w d ≤ 374 := by
  have hj : getJan01Wday y ≤ 7 := by
    have hlt : y % 28 < 28 := Nat.mod_lt _ (by decide)
    unfold getJan01Wday
    generalize y % 28 = k at hlt
    interval_cases k <;> decide
  have hi : getIsowk y = 52 ∨ getIsowk y = 53 := by
    unfold getIsowk
    split <;> simp
  have hh : -3 ≤ ywdGetJan01Hang (getJan01Wday y) ∧ ywdGetJan01Hang (getJan01Wday y) ≤ 3 := by
    unfold ywdGetJan01Hang
    dsimp only
    split <;> omega
  unfold ywdGetYday
  dsimp only
  split <;> omega

/-- A week date lies in the year, or goes by the month it comes from. -/
theorem ywdToMd_range (y : Nat) {w : Int} (hw : -53 ≤ w ∧ w ≤ 53) {d : Nat} (hd : d ≤ 7) :
    1 ≤ (ywdToMd y w d).m ∧ (ywdToMd y w d).m ≤ 12 ∧ 1 ≤ (ywdToMd y w d).d ∧
      (ywdToMd y w d).d ≤ 31 := by
  obtain ⟨h1, h2⟩ := ywdGetYday_range y hw hd
  unfold ywdToMd
  dsimp only
  rcases ydToMd_cases y (t := ywdGetYday y w d) (by omega) (by omega) with h | ⟨a, b, c, e⟩ | ⟨a, b, c⟩
  · rw [h]
    decide
  · have := (ndimGreg_range y a b).2
    rw [if_neg (by omega), if_neg (by omega)]
    omega
  · rw [if_neg (by omega), if_pos a]
    dsimp only
    omega

theorem adds_fillYlyYwd {y : Nat} {woy : Bitint}
    (hwoy : ∀ w ∈ bi63List woy, w ≠ 0 ∧ -53 ≤ w ∧ w ≤ 53) (dow : Bitints) :
    Adds (fun c => fillYlyYwd c y woy dow) fun x =>
      ∃ w ∈ bi63List woy, ∃ t ∈ bi447List dow, ¬ (t ≤ (wdayMir : Int) ∨ (wdaySun : Int) < t) ∧
        x = codeOf (ywdToMd y w t.toNat).m (ywdToMd y w t.toNat).d := by
  refine adds_foldl fun w hw => adds_foldl fun t _ => ?_
  refine adds_unless fun ht => ?_
  have hd : t.toNat ≤ 7 := by
    unfold wdayMir wdaySun at ht
    omega
  obtain ⟨m1, m2, d1, d2⟩ := ywdToMd_range y (hwoy w hw).2 hd
  refine (adds_unless (C := (ywdToMd y w t.toNat).m = 0) fun _ =>
    adds_date ⟨m1, m2⟩ ⟨by omega, by omega⟩).congr fun x => ?_
  simp
  omega

theorem adds_fillYlyEastr {y : Nat} {easter : Bitints}
    (hin : ∀ t ∈ bi383List easter, u32OfInt ((easterGetYday y : Int) + t) ≤ 366 →
      (ydToMd y (u32OfInt ((easterGetYday y : Int) + t))).m ≤ 12) (mon : Nat) (dom : Bitint)
    (wdMask : Nat) :
    Adds (fun c => fillYlyEastr c y easter mon dom wdMask) fun x =>
      ∃ t ∈ bi383List easter, eastrMasked wdMask t = false ∧ easterGetYday y ≠ 0 ∧
        u32OfInt ((easterGetYday y : Int) + t) ≠ 0 ∧
        u32OfInt ((easterGetYday y : Int) + t) ≤ 366 ∧
        (ydToMd y (u32OfInt ((easterGetYday y : Int) + t))).m ≠ 0 ∧
        mdMatchP (ydToMd y (u32OfInt ((easterGetYday y : Int) + t))) mon dom = true ∧
        x = codeOf (ydToMd y (u32OfInt ((easterGetYday y : Int) + t))).m
          (ydToMd y (u32OfInt ((easterGetYday y : Int) + t))).d := by
  refine adds_foldl fun t ht => ?_
  dsimp only
  by_cases hmask : eastrMasked wdMask t = true
  · simp only [hmask, if_true]
    exact adds_nothing fun x => by simp
  · by_cases hy0 : easterGetYday y = 0
    · simp only [hmask, hy0, if_true]
      exact adds_nothing fun x => by simp
    · generalize hyd : u32OfInt ((easterGetYday y : Int) + t) = yd
      have hin' := hin t ht
      rw [hyd] at hin'
      by_cases hr : yd = 0 ∨ 366 < yd
      · simp only [hmask, hy0, hr, if_true, if_false]
        exact adds_nothing fun x => by rintro ⟨-, -, h1, h2, -⟩; omega
      · have h366 : yd ≤ 366 := by omega
        simp only [hmask, hy0, hr, if_false]
        have hadd := adds_ydToMd (y := y) (t := (yd : Int)) (by omega) (by omega) (hin' h366)
        by_cases hmatch : mdMatchP (ydToMd y yd) mon dom = true
        · simp only [hmatch, Bool.not_true, Bool.false_eq_true, if_false]
          refine hadd.congr fun x => ?_
          simp [hy0]
          omega
        · have hmf : mdMatchP (ydToMd y yd) mon dom = false := by simpa using hmatch
          simp only [hmf, Bool.not_false, if_true, ite_self]
          exact adds_nothing fun x => by simp

end Echse
