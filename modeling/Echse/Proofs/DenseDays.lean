/-
The dense expansions go through a month by the weekday of its first.

`fill_yly_md_all` takes that weekday by the Gregorian rule on every scale, so its run is that of
the scale on the Gregorian one only, or where the two happen to agree.  A run that is out of
step gives the same days just for a mask of all weekdays: being a multiple of a rotation of
the week it would have to be, seven being prime.
-/
import Echse.Proofs.MonthDays
import Echse.Proofs.Weekdays

namespace Echse

/-! ### Masks that a rotation keeps -/

/-- **A mask that is kept by a rotation is empty or names all weekdays.** -/
theorem mask_rotated {mask δ w : Nat} (hδ : δ % 7 ≠ 0) (hw : 1 ≤ w ∧ w ≤ 7)
    (hrot : ∀ v, 1 ≤ v ∧ v ≤ 7 → maskHas mask v = true → maskHas mask (wdayFrom v δ) = true)
    (hmask : maskHas mask w = true) : ∀ v, 1 ≤ v ∧ v ≤ 7 → maskHas mask v = true := by
  have hturn : ∀ k, maskHas mask (wdayFrom w (k * δ)) = true := by
    intro k
    induction k with
    | zero => rwa [Nat.zero_mul, wdayFrom_zero hw]
    | succ k ih =>
        have hnext := hrot _ (wdayFrom_range w (k * δ)) ih
        rwa [wdayFrom_add, ← Nat.succ_mul] at hnext
  have hprime : ∀ r < 7, r ≠ 0 → ∀ a < 7, ∃ k < 7, k * r % 7 = a := by decide
  intro v hv
  obtain ⟨k, -, hk⟩ := hprime (δ % 7) (Nat.mod_lt _ (by decide)) hδ ((v + 7 - w) % 7)
    (Nat.mod_lt _ (by decide))
  have hv' : wdayFrom w (k * δ) = v := by
    rw [Nat.mul_mod_mod] at hk
    unfold wdayFrom
    omega
  rw [← hv']
  exact hturn k

/-- The mask names all weekdays. -/
def AllDays (mask : Nat) : Prop := ∀ v, 1 ≤ v ∧ v ≤ 7 → maskHas mask v = true

/-- Two runs that a mask cannot tell apart for a week. -/
theorem runs_alike {mask a δ n : Nat} (hδ : δ % 7 ≠ 0) {w : Nat} (hw : 1 ≤ w ∧ w ≤ 7)
    (hmask : maskHas mask w = true) {k : Nat} (hn : k + 7 ≤ n)
    (h : ∀ j, k ≤ j → j < n →
      (maskHas mask (wdayFrom a j) = true ↔ maskHas mask (wdayFrom a (j + δ)) = true)) :
    AllDays mask := by
  refine mask_rotated hδ hw (fun v hv hmv => ?_) hmask
  -- the weekday comes in the first week
  obtain ⟨j, hkj, hj, hvj⟩ : ∃ j, k ≤ j ∧ j < k + 7 ∧ wdayFrom a j = v := by
    refine ⟨k + (v - 1 + 6 * (a - 1 + k)) % 7, by omega, by omega, ?_⟩
    unfold wdayFrom
    omega
  have hnext := (h j hkj (by omega)).mp (by rwa [hvj])
  rwa [← wdayFrom_add, hvj] at hnext

/-! ### The weekdays of a scale -/

/-- Away from 0 the weekdays of words run on, and past 0 they are three ahead. -/
theorem wday_words {z : Int} (hlo : -600000 < z) {j : Nat} (hhi : z + j < 4294967296) :
    u32OfInt (z + j) % 7 + 1 =
      wdayFrom (u32OfInt z % 7 + 1) (j + if z < 0 ∧ 0 ≤ z + j then 3 else 0) := by
  have hword : ∀ x : Int, -600000 < x → x < 4294967296 →
      (u32OfInt x : Int) = if x < 0 then x + 4294967296 else x := by
    intro x h1 h2
    unfold u32OfInt wordOfInt
    split <;> omega
  have hz := hword z hlo (by omega)
  have hj := hword (z + j) (by omega) hhi
  unfold wdayFrom
  by_cases h0 : z < 0
  · rw [if_pos h0] at hz
    by_cases hj0 : z + j < 0
    · rw [if_pos hj0] at hj
      rw [if_neg (by omega)]
      omega
    · rw [if_neg hj0] at hj
      rw [if_pos (by omega)]
      omega
  · rw [if_neg h0] at hz
    rw [if_neg (by omega)] at hj
    rw [if_neg (by omega)]
    omega

/-- Where the day numbers of a month are: they are not negative, or negative throughout, or
they stop being negative with a week left to go. -/
structure MonthWords (s : Scale) (y m : Nat) (z : Int) : Prop where
  wday : ∀ j < echsScaleNdim s y m, echsScaleWday s y m (1 + j) = u32OfInt (z + j) % 7 + 1
  range : -600000 < z ∧ z + 31 < 4294967296
  cross : 0 ≤ z ∨ z + echsScaleNdim s y m ≤ 0 ∨ 7 ≤ z + echsScaleNdim s y m

theorem monthWords_table {cal : MonthTable} (hf : cal.Fine) {y m : Nat}
    (hcover : ndimHt cal y m ≠ 0) :
    ∃ z : Int, (∀ j < 31, wdayHt cal y m (1 + j) = u32OfInt (z + j) % 7 + 1) ∧ 0 ≤ z ∧
      z + 31 < 4294967296 := by
  have hreach := hf.reach
  have hindex : htIndex cal y m < cal.nm := by
    by_contra hge
    apply hcover
    have hlt : htIndex cal y m < 4294967296 := u32OfInt_lt _
    unfold ndimHt
    by_cases hwrap : htIndex cal y m + 1 = 4294967296
    · -- there is no month before the first
      have hlen : cal.mt.length ≤ htIndex cal y m := by
        unfold MonthTable.nm at hreach
        omega
      rw [List.getD_eq_default _ _ (Nat.le_succ_of_le hlen), List.getD_eq_default _ _ hlen]
      split <;> rfl
    · rw [if_pos (by rw [u32_of_lt (by omega)]; omega)]
  have hsmall : cal.mt.getD (htIndex cal y m) 0 < 100000 := by
    by_cases hlt : htIndex cal y m < cal.mt.length
    · rw [List.getD_eq_getElem _ _ hlt]
      exact hf.small _ (List.getElem_mem hlt)
    · rw [List.getD_eq_default _ _ (Nat.not_lt.mp hlt)]
      decide
  refine ⟨(cal.mt.getD (htIndex cal y m) 0 : Int) + 1, fun j hj => ?_, by omega, by omega⟩
  unfold wdayHt ht2mjd
  rw [if_neg (by dsimp only; omega), u32_u32OfInt_add]
  dsimp only
  congr 3
  push_cast
  ring

/-- An arithmetic Hijri month is away from 0, or has at least a week after it: the numbers stop
being negative on the ninth or tenth of a month. -/
theorem hij_trichotomy (t : HijTyp) (e : HijEpo) {y m : Nat} (hm : 1 ≤ m ∧ m ≤ 12) (hy : y < 8388608) :
    let z := (hijDay t ⟨y, m, 1⟩ : Int) + ((epo e : Int) - 2400000) + 1
    (-600000 < z ∧ z + 31 < 4294967296) ∧
      (0 ≤ z ∨ z + ndimHij t y m ≤ 0 ∨ 7 ≤ z + ndimHij t y m) := by
  have hepo : 1948084 ≤ epo e ∧ epo e ≤ 1948085 := by cases e <;> decide
  have hdays : ndimHij t y m ≤ 31 := by
    unfold ndimHij
    split <;> omega
  have hbefore : hijMonthDays.getD m 0 ≤ 325 := by
    obtain ⟨h1, h12⟩ := hm
    interval_cases m <;> decide
  -- the rounded days of the years of a cycle
  generalize hround : u32 (y % 30 * 1063100 + tsh t) / 3000 = r
  have hr : (t = .IV ∧ y % 30 = 0 ∧ r = 1431655) ∨
      (y % 30 * 1063100 ≤ 3000 * r + 3198 ∧ 3000 * r ≤ y % 30 * 1063100 + 401) := by
    have hlt : ∀ sh ≤ 401, u32 (y % 30 * 1063100 + sh) = y % 30 * 1063100 + sh :=
      fun sh hsh => u32_of_lt (by omega)
    cases t with
    | I => exact Or.inr (by rw [← hround, show tsh .I = 401 from rfl, hlt 401 le_rfl]; omega)
    | II => exact Or.inr (by rw [← hround, show tsh .II = 301 from rfl, hlt 301 (by decide)]; omega)
    | III => exact Or.inr (by rw [← hround, show tsh .III = 1 from rfl, hlt 1 (by decide)]; omega)
    | IV =>
        have hsh : tsh .IV = 4294967097 := rfl
        by_cases h0 : y % 30 = 0
        · exact Or.inl ⟨rfl, h0, by rw [← hround, h0, hsh]; rfl⟩
        · refine Or.inr ?_
          rw [← hround, hsh]
          unfold u32
          omega
  have hz : (hijDay t ⟨y, m, 1⟩ : Int) =
      (y / 30 : Nat) * 10631 + r + (hijMonthDays.getD m 0 + 1) := by
    unfold hijDay
    rw [hround]
    push_cast
    rfl
  dsimp only
  rw [hz]
  rcases hr with ⟨-, -, rfl⟩ | hr
  · exact ⟨by omega, Or.inl (by omega)⟩
  · refine ⟨by omega, ?_⟩
    by_cases hlow : y ≤ 1274
    · exact Or.inr (Or.inl (by omega))
    · by_cases hhigh : 1276 ≤ y
      · exact Or.inl (by omega)
      · -- the year in which the numbers stop being negative
        obtain rfl : y = 1275 := by omega
        obtain rfl : r = 5315 := by omega
        have hlen : 29 + m % 2 ≤ ndimHij t 1275 m := by
          unfold ndimHij
          omega
        obtain ⟨h1, h12⟩ := hm
        interval_cases m <;> simp only [hijMonthDays, List.getD_cons_succ, List.getD_cons_zero] <;> omega

theorem wdayHij_words (t : HijTyp) (e : HijEpo) (y m d : Nat) :
    wdayHij t e y m d =
      u32OfInt ((hijDay t ⟨y, m, d⟩ : Int) + ((epo e : Int) - 2400000) + 1) % 7 + 1 := by
  have hlt : hij2mjd t e ⟨y, m, d⟩ < 2 ^ 32 := u32OfInt_lt _
  have hword : hij2mjd t e ⟨y, m, d⟩ = u32OfInt ((hijDay t ⟨y, m, d⟩ : Int) + ((epo e : Int) - 2400000)) := by
    rw [← u32OfInt_congr (hij2mjd_modEq t e ⟨y, m, d⟩), u32OfInt_ofNat hlt]
  unfold wdayHij
  rw [hword, u32_u32OfInt_add]
  rfl

/-- **The weekdays of a scale's month** are those of the words of its day numbers. -/
theorem monthWords {s : Scale} (hs : s ≠ .gregorian) {y m : Nat} (hm : 1 ≤ m ∧ m ≤ 12)
    (hcover : echsScaleNdim s y m ≠ 0) (hy : y < 8388608) : ∃ z, MonthWords s y m z := by
  have hn := ndim_le s y hm
  rcases hhij : s.hij with _ | ⟨t, e⟩
  · have htable : ∀ cal : MonthTable, cal.Fine → (∀ y m, echsScaleNdim s y m = ndimHt cal y m) →
        (∀ y m d, echsScaleWday s y m d = wdayHt cal y m d) → ∃ z, MonthWords s y m z := by
      intro cal hf hnd hwd
      obtain ⟨z, hz, h0, hhi⟩ := monthWords_table hf (by rwa [← hnd])
      exact ⟨z, fun j hj => by rw [hwd, hz j (by omega)], ⟨by omega, hhi⟩, Or.inl h0⟩
    cases s with
    | gregorian => exact absurd rfl hs
    | hijriUmmulqura => exact htable _ fine_ummulqura (fun _ _ => rfl) fun _ _ _ => rfl
    | hijriDiyanet => exact htable _ fine_diyanet (fun _ _ => rfl) fun _ _ _ => rfl
    | _ => cases hhij
  · obtain ⟨hrange, hcross⟩ := hij_trichotomy t e hm hy
    have hnd := (Scale.hij_spec hhij).2.1 y m
    refine ⟨_, fun j hj => ?_, hrange, by rwa [hnd]⟩
    rw [(Scale.hij_days hhij).2.1, wdayHij_words]
    unfold hijDay
    congr 3
    push_cast
    ring

/-- A month's weekdays run on, or they skip three when the numbers stop being negative. -/
theorem MonthWords.run {s : Scale} {y m : Nat} {z : Int} (h : MonthWords s y m z) {j : Nat}
    (hn : echsScaleNdim s y m ≤ 31) (hj : j < echsScaleNdim s y m) :
    echsScaleWday s y m (1 + j) =
      wdayFrom (echsScaleWday s y m 1) (j + if z < 0 ∧ 0 ≤ z + j then 3 else 0) := by
  have hrange := h.range
  have hfirst : echsScaleWday s y m 1 = u32OfInt z % 7 + 1 := by
    have h0 := h.wday 0 (by omega)
    rwa [Nat.cast_zero, Int.add_zero] at h0
  rw [h.wday j hj, hfirst, wday_words hrange.1 (by omega)]

theorem wdayGreg_run {y : Nat} (hy : y < 8388608) (m : Nat) {j : Nat} (hj : j < 31) :
    wdayGreg y m (1 + j) = wdayFrom (wdayGreg y m 1) j := by
  have hsak : sakamoto.getD (m - 1) 0 ≤ 6 := by
    by_cases h : m - 1 < sakamoto.length
    · have hall : ∀ x ∈ sakamoto, x ≤ 6 := by decide
      rw [List.getD_eq_getElem _ _ h]
      exact hall _ (List.getElem_mem h)
    · rw [List.getD_eq_default _ _ (Nat.not_lt.mp h)]
      decide
  -- the year of a January or February is the one before, and before 0 it wraps
  generalize hyear : (if m < 3 then u32OfInt ((y : Int) - 1) else y) = z
  have hz : z < 8388608 ∨ z = 4294967295 := by
    rw [← hyear]
    unfold u32OfInt wordOfInt
    split <;> omega
  unfold wdayGreg wdayFrom wdaySun
  dsimp only
  rw [hyear]
  generalize hsum : z + z / 4 + z / 400 - z / 100 + sakamoto.getD (m - 1) 0 = n
  have hn : n < 20000000 ∨ (5000000000 < n ∧ n < 8000000000) := by omega
  have hword : ∀ d ≤ 31, u32 (n + d) = n % 4294967296 + d := by
    intro d hd
    unfold u32
    omega
  rw [hword _ (by omega), hword 1 (by decide)]
  split <;> split <;> omega

/-! ### The dense expansion -/

/-- The dates of the listed months whose weekday on the scale is in the mask. -/
def DenseDates (s : Scale) (y : Nat) (ms : List Nat) (mask : Nat) (x : Int) : Prop :=
  ∃ m ∈ ms, ∃ d : Nat, (1 ≤ d ∧ d ≤ echsScaleNdim s y m) ∧
    maskHas mask (echsScaleWday s y m d) = true ∧ x = codeOf m d

/-- The dense expansion adds these dates, which are those of `fill_yly_ymd_all_d`. -/
def DenseExact (s : Scale) (y : Nat) (ms : List Nat) (mask : Nat) : Prop :=
  Adds (fun c => fillYlyMdAll c s y ms mask) (DenseDates s y ms mask) ∧
    ∀ c, CodeSet c → ∀ x, x ∈ bi383List (fillYlyMdAll c s y ms mask) ↔
      x ∈ bi383List (fillYlyYmdAllD c s y ms mask)

/-- The weekdays of a month run on from the one that the Gregorian rule gives its first. -/
def InStep (s : Scale) (y m : Nat) : Prop :=
  ∀ j < echsScaleNdim s y m, echsScaleWday s y m (1 + j) = wdayFrom (ymdGetWday y m 1) j

/-- Dates are taken month by month. -/
theorem monthCodes_congr {ms : List Nat} {n : Nat → Nat} (hn : ∀ m ∈ ms, n m ≤ 31)
    {K L : Nat → Nat → Prop} :
    (∀ x, (∃ m ∈ ms, ∃ j < n m, K m j ∧ x = codeOf m ((1 + j : Nat) : Int)) ↔
        ∃ m ∈ ms, ∃ j < n m, L m j ∧ x = codeOf m ((1 + j : Nat) : Int)) ↔
      ∀ m ∈ ms, ∀ j < n m, (K m j ↔ L m j) := by
  have hmem : ∀ {K : Nat → Nat → Prop} {m j : Nat}, m ∈ ms → j < n m →
      ((∃ m' ∈ ms, ∃ j' < n m', K m' j' ∧
        codeOf m ((1 + j : Nat) : Int) = codeOf m' ((1 + j' : Nat) : Int)) ↔ K m j) := by
    intro K m j hm hj
    constructor
    · rintro ⟨m', hm', j', hj', hK, heq⟩
      have := hn m hm
      have := hn m' hm'
      obtain ⟨rfl, hd⟩ := codeOf_inj (by omega : 1 ≤ 1 + j ∧ 1 + j ≤ 31)
        (by omega : 1 ≤ 1 + j' ∧ 1 + j' ≤ 31) heq
      rwa [show j = j' by omega]
    · exact fun hK => ⟨m, hm, j, hj, hK, rfl⟩
  constructor
  · intro h m hm j hj
    exact (hmem hm hj).symm.trans ((h _).trans (hmem hm hj))
  · intro h x
    exact exists_congr fun m => and_congr_right fun hm => exists_congr fun j => and_congr_right fun hj =>
      and_congr_left fun _ => h m hm j hj

instance (s : Scale) (y m : Nat) : Decidable (InStep s y m) :=
  inferInstanceAs (Decidable (∀ j < _, _))

section Dense

variable {s : Scale} {y : Nat} {ms : List Nat} {mask : Nat}
variable (hms : ∀ m ∈ ms, 1 ≤ m ∧ m ≤ 12) (hplain : maskPlain mask = true)
include hms hplain

/-- What a month contributes, by the days from its first. -/
theorem denseExact_iff : DenseExact s y ms mask ↔ ∀ m ∈ ms, ∀ j < echsScaleNdim s y m,
    (maskHas mask (wdayFrom (ymdGetWday y m 1) j) = true ↔
        maskHas mask (echsScaleWday s y m (1 + j)) = true) ∧
      (maskHas mask (wdayFrom (ymdGetWday y m 1) j) = true ↔
        maskHas mask (wdayFrom (echsScaleWday s y m 1) j) = true) := by
  have h0 : (mask == 0) = false := by
    rw [beq_eq_false_iff_ne]
    exact (maskPlain_iff.mp hplain).1
  have hall := adds_fillYlyMdAll s y hms mask
  have hday := adds_fillYlyYmdAllD s y hms mask
  simp only [hplain, true_and] at hall
  simp only [h0, Bool.false_or] at hday
  have hsame : (∀ c, CodeSet c → ∀ x, x ∈ bi383List (fillYlyMdAll c s y ms mask) ↔
      x ∈ bi383List (fillYlyYmdAllD c s y ms mask)) ↔ Adds (fun c => fillYlyMdAll c s y ms mask) _ :=
    ⟨fun h => ⟨hall.codes, fun c hc x => (h c hc x).trans (hday.mem c hc x)⟩,
      fun h c hc x => (h.mem c hc x).trans (hday.mem c hc x).symm⟩
  unfold DenseExact
  rw [hsame, hall.unique, hall.unique, monthCodes_congr fun m hm => ndim_le s y (hms m hm)]
  have hdates : ∀ x, DenseDates s y ms mask x ↔ ∃ m ∈ ms, ∃ j < echsScaleNdim s y m,
      maskHas mask (echsScaleWday s y m (1 + j)) = true ∧ x = codeOf m ((1 + j : Nat) : Int) := by
    intro x
    unfold DenseDates
    constructor
    · rintro ⟨m, hm, d, hd, hmask, rfl⟩
      refine ⟨m, hm, d - 1, by omega, ?_⟩
      rw [show 1 + (d - 1) = d by omega]
      exact ⟨hmask, rfl⟩
    · rintro ⟨m, hm, j, hj, hmask, rfl⟩
      exact ⟨m, hm, 1 + j, by omega, hmask, rfl⟩
  simp only [hdates]
  rw [monthCodes_congr fun m hm => ndim_le s y (hms m hm)]
  exact ⟨fun h m hm j hj => ⟨h.1 m hm j hj, h.2 m hm j hj⟩,
    fun h => ⟨fun m hm j hj => (h m hm j hj).1, fun m hm j hj => (h m hm j hj).2⟩⟩

/-- **When the dense expansion is right**: where the mask names all weekdays, or the scale's weekdays
run on from what the Gregorian rule gives the first of the month.  That this is necessary is shown as far
as day numbers do not wrap a second time. -/
theorem fillYlyMdAll_iff (hmask : mask < 256) :
    ((∀ m ∈ ms, AllDays mask ∨ InStep s y m) → DenseExact s y ms mask) ∧
      (y < 8388608 → DenseExact s y ms mask → ∀ m ∈ ms, AllDays mask ∨ InStep s y m) := by
  rw [denseExact_iff hms hplain]
  constructor
  · intro h m hm j hj
    have hw := echsScaleWday_range s y m
    rcases h m hm with hfull | hstep
    · have hall : ∀ w, 1 ≤ w ∧ w ≤ 7 → (maskHas mask w = true ↔ True) := fun w hw =>
        iff_true_intro (hfull w hw)
      rw [hall _ (wdayFrom_range _ _), hall _ (wdayFrom_range _ _), hall _ (hw _)]
      exact ⟨Iff.rfl, Iff.rfl⟩
    · have hfirst : echsScaleWday s y m 1 = ymdGetWday y m 1 := by
        have h0 := hstep 0 (by omega)
        rwa [wdayFrom_zero (ymdGetWday_range y m 1)] at h0
      rw [hstep j hj, hfirst]
      exact ⟨Iff.rfl, Iff.rfl⟩
  · intro hy h m hm
    by_cases hcover : echsScaleNdim s y m = 0
    · exact Or.inr fun j hj => by omega
    have hn := (echsScaleNdim_range s y (hms m hm).1 (hms m hm).2).resolve_left hcover
    -- a weekday of the mask
    obtain ⟨w, hw, hmw⟩ : ∃ w, (1 ≤ w ∧ w ≤ 7) ∧ maskHas mask w = true := by
      obtain ⟨i, hi⟩ := Nat.exists_testBit_of_ne_zero (bne_iff_ne.mp hplain)
      rw [Nat.testBit_shiftRight] at hi
      refine ⟨1 + i, ⟨by omega, ?_⟩, hi⟩
      by_contra hlarge
      have hlt := Nat.testBit_lt_two_pow (i := 1 + i)
        (lt_of_lt_of_le hmask (Nat.pow_le_pow_right (by decide : 0 < 2) (by omega : 8 ≤ 1 + i)))
      rw [hi] at hlt
      cases hlt
    have hg := ymdGetWday_range y m 1
    have ha := echsScaleWday_range s y m 1
    by_cases hfirst : echsScaleWday s y m 1 = ymdGetWday y m 1
    · by_cases hs : s = .gregorian
      · subst hs
        exact Or.inr fun j hj => wdayGreg_run hy m (by omega)
      · obtain ⟨z, hz⟩ := monthWords hs (hms m hm) hcover hy
        by_cases hcross : z < 0 ∧ 0 < z + echsScaleNdim s y m
        · -- past the crossing the weekdays are three ahead of the run
          have h7 := hz.cross
          refine Or.inl (runs_alike (δ := 3) (a := ymdGetWday y m 1) (k := (-z).toNat) (by decide) hw hmw
            (n := echsScaleNdim s y m) (by omega) fun j hkj hj => ?_)
          rw [(h m hm j hj).1, hz.run hn.2 hj, if_pos (by omega), hfirst]
        · refine Or.inr fun j hj => ?_
          rw [hz.run hn.2 hj, if_neg (by omega), hfirst]
          rfl
    · -- the runs are out of step from the first
      refine Or.inl (runs_alike (δ := echsScaleWday s y m 1 + 7 - ymdGetWday y m 1)
        (a := ymdGetWday y m 1) (k := 0) (by omega) hw hmw (n := echsScaleNdim s y m) (by omega)
        fun j _ hj => ?_)
      rw [(h m hm j hj).2]
      have hrun : wdayFrom (echsScaleWday s y m 1) j =
          wdayFrom (ymdGetWday y m 1) (j + (echsScaleWday s y m 1 + 7 - ymdGetWday y m 1)) := by
        unfold wdayFrom
        omega
      rw [hrun]

end Dense

/-- The weekends of two Gregorian months. -/
theorem fillYlyMdAll_iff_weekends : DenseExact .gregorian 2023 [1, 2] 192 :=
  (fillYlyMdAll_iff (by decide) (by decide) (by decide)).1 fun m hm => Or.inr (by
    revert m
    decide)

/-- The Fridays of a Ramadan come out as its Sundays. -/
theorem fillYlyMdAll_ramadan :
    ¬ ∀ (s : Scale) (y : Nat) (ms : List Nat) (mask : Nat), (∀ m ∈ ms, 1 ≤ m ∧ m ≤ 12) →
      maskPlain mask = true → mask < 256 → DenseExact s y ms mask := by
  intro h
  have hsame := (h .hijriIA 1441 [9] 32 (by decide) (by decide) (by decide)).2 .nil codeSet_nil 259
  exact absurd (hsame.mp (by decide +kernel)) (by decide +kernel)

end Echse
