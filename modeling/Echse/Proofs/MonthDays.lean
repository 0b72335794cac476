/-
Month days and weekdays put into a set, month by month.

A listed day is found from either end of its month, but the test for one counted from the end
is made in `unsigned int`: only the one that comes out as 0 fails it, and those before that
become days of the month before.  The variant for all months reads the mask
differently, and the dense one has weekdays of its own.
-/
import Echse.Proofs.Codes
import Echse.Proofs.MonthFill

namespace Echse

open Picks (pick)

/-! ### The codes of listed days -/

theorem packCand_of_small {m : Nat} {d : Int} (h : -1000 ≤ codeOf m d ∧ codeOf m d ≤ 1000) :
    packCand m d = codeOf m d := by
  have heq : ((m : Int) - 1) * 32 + d = codeOf m d := by unfold codeOf; ring
  unfold packCand
  rw [heq, intOfWord_wordOfInt (by decide) (by norm_num; omega) (by norm_num; omega)]

/-- The codes of the listed days of a month of `n` days, but for those to be skipped. -/
def domCodes (n m : Nat) (skip : Int → Bool) (ds : List Int) : List Int :=
  ds.flatMap fun t => ((domOf n t).filter fun d => !skip d).toList.map (packCand m)

theorem mem_domCodes {n m : Nat} {skip : Int → Bool} {ds : List Int} {x : Int} :
    x ∈ domCodes n m skip ds ↔
      ∃ t ∈ ds, ∃ d, domOf n t = some d ∧ skip d = false ∧ x = packCand m d := by
  unfold domCodes
  simp only [List.mem_flatMap, List.mem_map, Option.mem_toList, Option.filter_eq_some_iff,
    Bool.not_eq_true']
  constructor
  · rintro ⟨t, ht, d, ⟨hd, hskip⟩, rfl⟩
    exact ⟨t, ht, d, hd, hskip, rfl⟩
  · rintro ⟨t, ht, d, hd, hskip, rfl⟩
    exact ⟨t, ht, d, ⟨hd, hskip⟩, rfl⟩

theorem assigns_domOf (n m : Nat) (skip : Int → Bool) (ds : List Int) :
    Assigns (fun c => ds.foldl (fun c t =>
      match domOf n t with
      | none => c
      | some d => if skip d then c else assBi383 c (packCand m d)) c) (domCodes n m skip ds) := by
  refine assigns_foldl fun t _ => ?_
  cases domOf n t with
  | none => exact assigns_nothing
  | some d =>
      rw [Option.filter_some]
      dsimp only
      cases hskip : skip d with
      | true => exact assigns_nothing
      | false => exact assigns_code (packCand m d)

/-- The mask turns a day away. -/
def dayMasked (s : Scale) (y m mask : Nat) (d : Int) : Bool :=
  maskPlain mask && !maskHas mask (echsScaleWday s y m (u32OfInt d))

theorem assigns_fillMlyYmd (s : Scale) (y m : Nat) (ds : List Int) (mask : Nat) :
    Assigns (fun c => fillMlyYmd c s y m ds mask)
      (domCodes (echsScaleNdim s y m) m (dayMasked s y m mask) ds) :=
  assigns_domOf _ m (dayMasked s y m mask) ds

/-- Where a listed day is found. -/
theorem domOf_cases {n : Nat} (hn : n ≤ 31) {t : Int} (ht : -31 ≤ t) :
    domOf n t = if 0 < t ∧ t ≤ n then some t
      else if t < 0 ∧ t ≠ -(n + 1 : Int) then some (t + n + 1) else none := by
  unfold domOf
  by_cases hneg : t < 0
  · have hu : u32OfInt ((n : Int) + 1 + t) ≠ 0 ↔ t ≠ -(n + 1 : Int) := by
      unfold u32OfInt wordOfInt
      omega
    simp only [hu]
  · simp only [hneg, false_and]

/-! ### One month -/

/-- The dates that listed days and a mask stand for in a month. -/
def MonthDates (s : Scale) (y m : Nat) (ds : List Int) (mask : Nat) (x : Int) : Prop :=
  ∃ d : Nat, DomListed ds (echsScaleNdim s y m) d ∧
    (maskPlain mask = true → maskHas mask (echsScaleWday s y m d) = true) ∧ x = codeOf m d

theorem domListed_iff {ds : List Int} {n d : Nat} :
    DomListed ds n d ↔ (1 ≤ d ∧ d ≤ n) ∧ ((d : Int) ∈ ds ∨ (d : Int) - (n + 1) ∈ ds) := by
  unfold DomListed
  simp only [Picks.pick_range']
  constructor
  · rintro ⟨t, ht, hd⟩
    split at hd
    · cases hd
      refine ⟨by omega, Or.inl ?_⟩
      rwa [Int.toNat_of_nonneg (by omega)]
    · split at hd
      · cases hd
        refine ⟨by omega, Or.inr ?_⟩
        rwa [show (((n : Int) + 1 + t).toNat : Int) - (n + 1) = t by omega]
      · cases hd
  · rintro ⟨hd, hmem | hmem⟩
    · exact ⟨d, hmem, by rw [if_pos (by omega), Int.toNat_natCast]⟩
    · refine ⟨_, hmem, ?_⟩
      rw [if_neg (by omega), if_pos (by omega)]
      congr 1
      omega

theorem dayMasked_natCast {s : Scale} {y m mask d : Nat} (hd : d ≤ 31) :
    dayMasked s y m mask d = false ↔
      (maskPlain mask = true → maskHas mask (echsScaleWday s y m d) = true) := by
  unfold dayMasked
  rw [u32OfInt_ofNat (by omega)]
  cases maskPlain mask <;> simp

/-- **Which lists of month days are read as they should be**: those with no day from further
than one before the first, unless the mask happens to turn it away. -/
theorem fillMlyYmd_iff {s : Scale} {y m : Nat} (hm : 1 ≤ m ∧ m ≤ 12)
    {ds : List Int} (hds : ∀ t ∈ ds, -31 ≤ t ∧ t ≤ 31) (mask : Nat) :
    Adds (fun c => fillMlyYmd c s y m ds mask) (MonthDates s y m ds mask) ↔
      ∀ t ∈ ds, t < -(echsScaleNdim s y m + 1 : Int) →
        dayMasked s y m mask (t + echsScaleNdim s y m + 1) = true := by
  have hn := ndim_le s y hm
  have hdom : ∀ t ∈ ds, domOf (echsScaleNdim s y m) t = _ := fun t ht => domOf_cases hn (hds t ht).1
  rw [(assigns_fillMlyYmd s y m ds mask).adds_iff]
  constructor
  · rintro ⟨-, hP⟩ t ht hlt
    by_contra hmask
    have hcode : packCand m (t + echsScaleNdim s y m + 1) ∈
        domCodes (echsScaleNdim s y m) m (dayMasked s y m mask) ds := by
      refine mem_domCodes.mpr ⟨t, ht, _, ?_, by simpa using hmask, rfl⟩
      rw [hdom t ht, if_neg (by omega), if_pos (by omega)]
    obtain ⟨d, hd, -, hx⟩ := (hP _).mpr hcode
    have hrange := (domListed_iff.mp hd).1
    have := hds t ht
    rw [packCand_of_small (by unfold codeOf; omega)] at hx
    unfold codeOf at hx
    omega
  · intro hback
    -- the days found are days of the month
    have hin : ∀ t ∈ ds, ∀ d, domOf (echsScaleNdim s y m) t = some d →
        dayMasked s y m mask d = false → 1 ≤ d ∧ d ≤ echsScaleNdim s y m := by
      intro t ht d hd hmask
      rw [hdom t ht] at hd
      split at hd
      · cases hd
        omega
      · split at hd
        · cases hd
          by_contra hout
          rw [hback t ht (by omega)] at hmask
          cases hmask
        · cases hd
    have hcode : ∀ d : Int, 1 ≤ d → d ≤ echsScaleNdim s y m →
        packCand m d = codeOf m d ∧ 1 ≤ codeOf m d ∧ codeOf m d ≤ 383 := by
      intro d h1 hle
      obtain ⟨hlo, hhi⟩ := codeOf_range hm (d := d) (by omega)
      exact ⟨packCand_eq hlo hhi, hlo, hhi⟩
    constructor
    · intro x hx
      obtain ⟨t, ht, d, hd, hmask, rfl⟩ := mem_domCodes.mp hx
      obtain ⟨h1, hle⟩ := hin t ht d hd hmask
      rw [(hcode d h1 hle).1]
      exact (hcode d h1 hle).2
    · intro x
      rw [mem_domCodes]
      constructor
      · rintro ⟨d, hd, hmask, rfl⟩
        obtain ⟨hrange, hmem⟩ := domListed_iff.mp hd
        have hskip := (dayMasked_natCast (by omega)).mpr hmask
        have hpack := (hcode d (by omega) (by omega)).1.symm
        rcases hmem with hmem | hmem
        · exact ⟨d, hmem, d, by rw [hdom _ hmem, if_pos (by omega)], hskip, hpack⟩
        · refine ⟨_, hmem, d, ?_, hskip, hpack⟩
          rw [hdom _ hmem, if_neg (by omega), if_pos (by omega)]
          congr 1
          omega
      · rintro ⟨t, ht, d, hd, hmask, rfl⟩
        obtain ⟨h1, hle⟩ := hin t ht d hd hmask
        obtain ⟨k, rfl⟩ : ∃ k : Nat, d = k := ⟨d.toNat, by omega⟩
        refine ⟨k, domListed_iff.mpr ⟨by omega, ?_⟩, (dayMasked_natCast (by omega)).mp hmask,
          (hcode k h1 hle).1⟩
        rw [hdom t ht] at hd
        split at hd
        · cases hd
          exact Or.inl ht
        · split at hd
          · have hk := Option.some.inj hd
            refine Or.inr ?_
            rwa [show (k : Int) - (echsScaleNdim s y m + 1) = t by omega]
          · cases hd

/-- Days that a February does not have, and some of its last. -/
theorem fillMlyYmd_iff_february :
    Adds (fun c => fillMlyYmd c .gregorian 2023 2 [31, -1, -29] 0)
      (MonthDates .gregorian 2023 2 [31, -1, -29] 0) :=
  (fillMlyYmd_iff (by decide) (by decide) 0).mpr (by decide)

/-- The 31st last day of a February is the 30th of January. -/
theorem fillMlyYmd_backward :
    ¬ ∀ (s : Scale) (y m : Nat) (ds : List Int) (mask : Nat), 1 ≤ m ∧ m ≤ 12 →
      echsScaleNdim s y m ≠ 0 → (∀ t ∈ ds, (1 ≤ t ∧ t ≤ 31) ∨ (-31 ≤ t ∧ t ≤ -1)) → mask < 256 →
      Adds (fun c => fillMlyYmd c s y m ds mask) (MonthDates s y m ds mask) := by
  intro h
  have hadds := h .gregorian 2023 2 [-31] 0 (by decide) (by decide) (by decide) (by decide)
  have hmem : (30 : Int) ∈ bi383List (fillMlyYmd .nil .gregorian 2023 2 [-31] 0) := by decide
  rcases (hadds.mem .nil codeSet_nil 30).mp hmem with ⟨d, -, -, hx⟩ | hnil
  · unfold codeOf at hx
    omega
  · exact absurd hnil (by decide)

/-! ### All months -/

theorem assigns_fillYlyYmd (s : Scale) (y : Nat) (ms : List Nat) (ds : List Int) (mask : Nat) :
    Assigns (fun c => fillYlyYmd c s y ms ds mask)
      (ms.flatMap fun m => domCodes (echsScaleNdim s y m) m (dayMasked s y m mask) ds) :=
  assigns_foldl fun m _ => assigns_fillMlyYmd s y m ds mask

theorem assigns_fillYlyYmdAllM (s : Scale) (y : Nat) (ds : List Int) (mask : Nat) :
    Assigns (fun c => fillYlyYmdAllM c s y ds mask)
      ((List.range' 1 12).flatMap fun m => domCodes (echsScaleNdim s y m) m
        (fun d => mask != 0 && !maskHas mask (echsScaleWday s y m (u32OfInt d))) ds) :=
  assigns_foldl fun m _ => assigns_domOf _ m _ ds

/-- A mask names a weekday unless it is empty or tells of counted weekdays only. -/
theorem maskPlain_iff {mask : Nat} : maskPlain mask = true ↔ mask ≠ 0 ∧ mask ≠ 1 := by
  unfold maskPlain
  rw [bne_iff_ne, Nat.shiftRight_eq_div_pow]
  omega

/-- With a mask of counted weekdays only, no weekday is in it. -/
theorem maskHas_one {w : Nat} (hw : 1 ≤ w) : maskHas 1 w = false := by
  unfold maskHas
  by_contra h
  have := testBit_one_eq (by simpa using h)
  omega

/-- Whether the variant for all months leaves the same set as the general helper, whatever it is
given. -/
def AllMonthsAgree (s : Scale) (y : Nat) (ds : List Int) (mask : Nat) : Prop :=
  ∀ c x, x ∈ bi383List (fillYlyYmdAllM c s y ds mask) ↔
    x ∈ bi383List (fillYlyYmd c s y (List.range' 1 12) ds mask)

/-- **When the variant for all months agrees**: unless the mask tells of counted weekdays only,
and then only if no listed day is found in any month. -/
theorem fillYlyYmdAllM_iff (s : Scale) (y : Nat) {ds : List Int}
    (hds : ∀ t ∈ ds, (1 ≤ t ∧ t ≤ 31) ∨ (-31 ≤ t ∧ t ≤ -1)) (mask : Nat) :
    AllMonthsAgree s y ds mask ↔
      (mask = 1 → ∀ m ∈ List.range' 1 12, ∀ t ∈ ds, domOf (echsScaleNdim s y m) t = none) := by
  have hall : ∀ c, fillYlyYmdAllM c s y ds mask = _ := assigns_fillYlyYmdAllM s y ds mask
  have hgen : ∀ c, fillYlyYmd c s y (List.range' 1 12) ds mask = _ :=
    assigns_fillYlyYmd s y (List.range' 1 12) ds mask
  constructor
  · rintro hsame rfl m hm t ht
    by_contra hd
    obtain ⟨d, hd⟩ := Option.ne_none_iff_exists'.mp hd
    -- the variant assigns nothing
    have hnil : fillYlyYmdAllM .nil s y ds 1 = .nil := by
      rw [hall, List.flatMap_eq_nil_iff.mpr fun m _ => List.eq_nil_iff_forall_not_mem.mpr fun x hx => ?_]
      · rfl
      · obtain ⟨t, -, d, -, hskip, -⟩ := mem_domCodes.mp hx
        rw [maskHas_one (echsScaleWday_range s y m _).1] at hskip
        cases hskip
    have hm12 : 1 ≤ m ∧ m ≤ 12 := by
      rw [List.mem_range'_1] at hm
      omega
    have hn := ndim_le s y hm12
    have hd' := hd
    rw [domOf_cases hn (by have := hds t ht; omega)] at hd'
    have hrange : -31 ≤ d ∧ d ≤ 31 := by
      have := hds t ht
      split at hd'
      · cases hd'
        omega
      · split at hd'
        · have := Option.some.inj hd'
          omega
        · cases hd'
    have hstored : Stored (fillYlyYmd .nil s y (List.range' 1 12) ds 1) (packCand m d) := by
      rw [hgen]
      refine stored_foldl (Or.inl (List.mem_flatMap.mpr ⟨m, hm, mem_domCodes.mpr ⟨t, ht, d, hd, ?_, rfl⟩⟩))
      rfl
    have hcode : packCand m d = codeOf m d := packCand_of_small (by unfold codeOf; omega)
    refine hstored.ne_nil (by rw [hcode]; unfold codeOf; omega) ?_
    refine List.eq_nil_iff_forall_not_mem.mpr fun x hx => ?_
    have hx' := (hsame .nil x).mpr hx
    rw [hnil, bi383List_nil] at hx'
    cases hx'
  · intro hnone c x
    suffices h : ((List.range' 1 12).flatMap fun m => domCodes (echsScaleNdim s y m) m
        (fun d => mask != 0 && !maskHas mask (echsScaleWday s y m (u32OfInt d))) ds) =
        (List.range' 1 12).flatMap fun m => domCodes (echsScaleNdim s y m) m (dayMasked s y m mask) ds by
      rw [hall, hgen, h]
    by_cases h1 : mask = 1
    · have hempty : ∀ m ∈ List.range' 1 12, ∀ skip, domCodes (echsScaleNdim s y m) m skip ds = [] := by
        intro m hm skip
        refine List.eq_nil_iff_forall_not_mem.mpr fun x hx => ?_
        obtain ⟨t, ht, d, hd, -⟩ := mem_domCodes.mp hx
        rw [hnone h1 m hm t ht] at hd
        cases hd
      rw [List.flatMap_eq_nil_iff.mpr fun m hm => hempty m hm _,
        List.flatMap_eq_nil_iff.mpr fun m hm => hempty m hm _]
    · have hplain : (mask != 0) = maskPlain mask := by
        rw [Bool.eq_iff_iff, maskPlain_iff, bne_iff_ne, and_iff_left h1]
      simp only [hplain]
      rfl

/-- Month days with weekdays, and with none. -/
theorem fillYlyYmdAllM_iff_friday : AllMonthsAgree .gregorian 2023 [13] 32 :=
  (fillYlyYmdAllM_iff .gregorian 2023 (by decide) 32).mpr fun h => by cases h

/-- With counted weekdays only, the 13th of each month is dropped. -/
theorem fillYlyYmdAllM_drops :
    ¬ ∀ (s : Scale) (y : Nat) (ds : List Int) (dow : Bitints),
      (∀ t ∈ ds, (1 ≤ t ∧ t ≤ 31) ∨ (-31 ≤ t ∧ t ≤ -1)) → AllMonthsAgree s y ds (wdMaskOf dow) := by
  intro h
  have h13 := (h .gregorian 2023 [13] (.native [12]) (by decide) .nil 13).mpr (by decide)
  exact absurd h13 (by decide)

end Echse
