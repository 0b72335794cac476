/-
The calendar's cycle of 28 years.

Between 1901 and 2099 a year that is a multiple of 28 years away from another has the same month
lengths and the same weekdays.  So but for Easter the candidates of the two are the same.
-/
import Echse.Proofs.Order

namespace Echse

/-- A day of the month as an `unsigned int`, possibly a little before the first. -/
def NearDay (d : Nat) : Prop := d < 2147483648 ∨ (4294966000 ≤ d ∧ d < 4294967296)

/-- Two years that the date converters take for the same. -/
structure AlikeYears (y z : Nat) : Prop where
  cycle : y % 28 = z % 28
  wday : ∀ m d, NearDay d → wdayGreg y m d = wdayGreg z m d

namespace AlikeYears

theorem of_range {y z : Nat} (hy : 1901 ≤ y ∧ y ≤ 2099) (hz : 1901 ≤ z ∧ z ≤ 2099)
    (h : y % 28 = z % 28) : AlikeYears y z where
  cycle := h
  wday := by
    intro m d hd
    have hsak : sakamoto.getD (m - 1) 0 ≤ 6 := by
      by_cases hm : m - 1 < 12
      · generalize m - 1 = i at hm ⊢
        interval_cases i <;> decide
      · rw [List.getD_eq_default _ _ (by simp [sakamoto]; omega)]
        omega
    have hu : ∀ {a : Nat}, 1 ≤ a → a < 4294967296 → u32OfInt ((a : Int) - 1) = a - 1 := by
      intro a h1 ha
      rw [show (a : Int) - 1 = ((a - 1 : Nat) : Int) by omega]
      exact u32OfInt_ofNat (by omega)
    unfold wdayGreg NearDay at *
    dsimp only
    rw [hu (by omega) (by omega), hu (by omega) (by omega)]
    generalize sakamoto.getD (m - 1) 0 = s at hsak ⊢
    -- the years of a century add the same throughout
    have hcent : ∀ {a : Nat}, 1900 ≤ a → a ≤ 2099 → a + a / 4 + a / 400 - a / 100 = a + a / 4 - 15 := by
      intro a h1 h2
      omega
    have hsum : ∀ {a b : Nat}, 2000 ≤ a → a < 3000 → 2000 ≤ b → b < 3000 → a % 7 = b % 7 →
        u32 (a + s + d) % 7 = u32 (b + s + d) % 7 := by
      intro a b ha ha' hb hb' hab
      unfold u32
      rcases hd with hlt | hge
      · rw [Nat.mod_eq_of_lt (by omega : a + s + d < 4294967296),
          Nat.mod_eq_of_lt (by omega : b + s + d < 4294967296)]
        omega
      · have hsub : ∀ {a : Nat}, 2000 ≤ a → a < 3000 →
            (a + s + d) % 4294967296 = a + s + d - 4294967296 := by
          intro a h1 h2
          rw [Nat.mod_eq_sub_mod (by omega), Nat.mod_eq_of_lt (by omega)]
        rw [hsub ha ha', hsub hb hb']
        omega
    have hmod : ∀ {a b : Nat}, 1900 ≤ a → a ≤ 2099 → 1900 ≤ b → b ≤ 2099 → a % 28 = b % 28 →
        u32 (a + a / 4 + a / 400 - a / 100 + s + d) % 7 =
          u32 (b + b / 4 + b / 400 - b / 100 + s + d) % 7 := by
      intro a b ha ha' hb hb' hab
      rw [hcent ha ha', hcent hb hb']
      exact hsum (by omega) (by omega) (by omega) (by omega) (by omega)
    split
    · rw [hmod (a := y - 1) (b := z - 1) (by omega) (by omega) (by omega) (by omega) (by omega)]
    · rw [hmod (a := y) (b := z) (by omega) (by omega) (by omega) (by omega) h]

variable {y z : Nat} (h : AlikeYears y z)
include h

theorem leap : y % 4 = 0 ↔ z % 4 = 0 := by
  have := h.cycle
  omega

theorem first (m : Nat) : ymdGetWday y m 1 = ymdGetWday z m 1 :=
  h.wday m 1 (Or.inl (by decide))

theorem ndim (m : Nat) : ndimGreg y m = ndimGreg z m := by
  unfold ndimGreg
  simp only [h.leap]

theorem jan01 : getJan01Wday y = getJan01Wday z := by
  unfold getJan01Wday
  rw [h.cycle]

theorem isowk : getIsowk y = getIsowk z := by
  unfold getIsowk
  rw [h.cycle]

theorem ydToMd_eq (t : Int) : ydToMd y t = ydToMd z t := ydToMd_congr h.leap t

theorem ywdToMd_eq (w : Int) (d : Nat) : ywdToMd y w d = ywdToMd z w d := by
  unfold ywdToMd ywdGetYday
  rw [h.jan01, h.isowk]
  simp only [h.ydToMd_eq]

theorem ymcwGetDom_congr (m : Nat) (c : Int) (w : Nat) : ymcwGetDom y m c w = ymcwGetDom z m c w := by
  have hcnt : getMcnt y m w = getMcnt z m w := by
    unfold getMcnt getNdom
    rw [h.first, h.ndim]
  unfold ymcwGetDom
  rw [hcnt, h.first]
  simp only [h.leap]

theorem ycwGetYday_eq (c : Int) (w : Nat) : ycwGetYday y c w = ycwGetYday z c w := by
  unfold ycwGetYday
  rw [h.first]
  simp only [h.leap]

theorem ydGetWday_eq (t : Int) : ydGetWday y t = ydGetWday z t := by
  unfold ydGetWday
  rw [h.first]

/-! ### The helpers -/

theorem fillYlyYwd_eq (c : Bitints) (wk : Bitint) (dow : Bitints) :
    fillYlyYwd c y wk dow = fillYlyYwd c z wk dow := by
  unfold fillYlyYwd
  simp only [h.ywdToMd_eq]

theorem fillMlyYmcw_eq (c : Bitints) (m : Nat) (dow : Bitints) :
    fillMlyYmcw c y m dow = fillMlyYmcw c z m dow := by
  unfold fillMlyYmcw
  simp only [h.ymcwGetDom_congr]

theorem fillYlyYcw_eq (c dow : Bitints) : fillYlyYcw c y dow = fillYlyYcw c z dow := by
  unfold fillYlyYcw
  simp only [h.ycwGetYday_eq, h.ydToMd_eq]

theorem fillYlyYd_eq (c doy : Bitints) (mask : Nat) :
    fillYlyYd c y doy mask = fillYlyYd c z doy mask := by
  unfold fillYlyYd
  simp only [h.ydGetWday_eq, h.ydToMd_eq]

theorem fillYlyYdAllFrom_eq (mask n w : Nat) (md : Md) (c : Bitints) :
    fillYlyYdAllFrom y mask n w md c = fillYlyYdAllFrom z mask n w md c := by
  induction n generalizing w md c with
  | zero => rfl
  | succ n ih =>
      unfold fillYlyYdAllFrom
      rw [ih, incMd_congr h.leap]

theorem fillYlyYdAll_eq (c : Bitints) (mask : Nat) : fillYlyYdAll c y mask = fillYlyYdAll c z mask := by
  unfold fillYlyYdAll
  rw [h.fillYlyYdAllFrom_eq, h.first]
  simp only [h.leap]

theorem fillYlyMdAll_eq (c : Bitints) (ms : List Nat) (mask : Nat) :
    fillYlyMdAll c .gregorian y ms mask = fillYlyMdAll c .gregorian z ms mask := by
  unfold fillYlyMdAll echsScaleNdim
  simp only [h.ndim, h.first]

theorem fillMlyYmdAllD_eq (c : Bitints) (m mask : Nat) :
    fillMlyYmdAllD c .gregorian y m mask = fillMlyYmdAllD c .gregorian z m mask := by
  unfold fillMlyYmdAllD echsScaleNdim echsScaleWday
  simp only [h.ndim, h.wday m 1 (Or.inl (by decide))]

/-- Month days are near ones. -/
theorem domOf_wday {m : Nat} {t d : Int} (ht : -31 ≤ t) (hd : domOf (ndimGreg z m) t = some d) :
    wdayGreg y m (u32OfInt d) = wdayGreg z m (u32OfInt d) := by
  refine h.wday m _ ?_
  have hn : ndimGreg z m < 100 := by
    unfold ndimGreg
    have : gregMdays.getD m 0 ≤ 31 := by
      by_cases hm : m < 13
      · interval_cases m <;> decide
      · rw [List.getD_eq_default _ _ (by simp [gregMdays]; omega)]
        omega
    split <;> omega
  unfold domOf at hd
  unfold NearDay u32OfInt wordOfInt
  split at hd
  · cases hd
    omega
  · split at hd
    · cases hd
      omega
    · cases hd

theorem fillMlyYmd_eq (c : Bitints) (m : Nat) {ds : List Int} (hds : ∀ t ∈ ds, -31 ≤ t) (mask : Nat) :
    fillMlyYmd c .gregorian y m ds mask = fillMlyYmd c .gregorian z m ds mask := by
  unfold fillMlyYmd echsScaleNdim echsScaleWday
  simp only [h.ndim]
  refine List.foldl_ext _ _ c fun c t ht => ?_
  cases hd : domOf (ndimGreg z m) t with
  | none => rfl
  | some d => simp only [h.domOf_wday (hds t ht) hd]

theorem fillYlyYmdAllM_eq (c : Bitints) {ds : List Int} (hds : ∀ t ∈ ds, -31 ≤ t) (mask : Nat) :
    fillYlyYmdAllM c .gregorian y ds mask = fillYlyYmdAllM c .gregorian z ds mask := by
  unfold fillYlyYmdAllM echsScaleNdim echsScaleWday
  simp only [h.ndim]
  refine List.foldl_ext _ _ c fun c m _ => List.foldl_ext _ _ c fun c t ht => ?_
  cases hd : domOf (ndimGreg z m) t with
  | none => rfl
  | some d => simp only [h.domOf_wday (hds t ht) hd]

theorem fillYlyYmd_eq (c : Bitints) (ms : List Nat) {ds : List Int} (hds : ∀ t ∈ ds, -31 ≤ t)
    (mask : Nat) : fillYlyYmd c .gregorian y ms ds mask = fillYlyYmd c .gregorian z ms ds mask := by
  unfold fillYlyYmd
  simp only [h.fillMlyYmd_eq _ _ hds]

end AlikeYears

end Echse
