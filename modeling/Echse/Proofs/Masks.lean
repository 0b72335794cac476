/-
What the masks of the subtractive loops let pass.

A mask has the bits of the values that a part of the rule lists, and a part that lists
nothing lets everything pass.  Month days are told from the start and from the end by a
mask each.
-/
import Echse.Expand

namespace Echse

/-! ### Bits -/

theorem testBit_foldl_bits (xs : List Nat) (i : Nat) : ∀ acc : Nat,
    (xs.foldl (fun mask x => mask ||| 1 <<< x) acc).testBit i = true ↔
      acc.testBit i = true ∨ i ∈ xs := by
  induction xs with
  | nil => intro acc; simp
  | cons x xs ih =>
      intro acc
      rw [List.foldl_cons, ih, Nat.testBit_or, Nat.one_shiftLeft, Nat.testBit_two_pow,
        Bool.or_eq_true, decide_eq_true_eq, List.mem_cons, eq_comm (a := x), or_assoc]

theorem testBit_bitsOf (xs : List Nat) (i : Nat) : (bitsOf xs).testBit i = true ↔ i ∈ xs := by
  rw [bitsOf, testBit_foldl_bits]
  simp

theorem bitsOf_eq_zero_iff {xs : List Nat} : bitsOf xs = 0 ↔ xs = [] := by
  constructor
  · intro h
    refine List.eq_nil_iff_forall_not_mem.mpr fun x hx => ?_
    have hbit := (testBit_bitsOf xs x).mpr hx
    rw [h, Nat.zero_testBit] at hbit
    cases hbit
  · rintro rfl
    rfl

/-! ### Weekdays -/

/-- The plain weekdays of BYDAY.  Counted ones have no meaning below a month. -/
def plainDays (dow : Bitints) : List Int :=
  (bi447List dow).filter fun t => (wdayMon : Int) ≤ t ∧ t ≤ wdaySun

theorem mem_plainDays {dow : Bitints} {t : Int} :
    t ∈ plainDays dow ↔ t ∈ bi447List dow ∧ 1 ≤ t ∧ t ≤ 7 := by
  simp [plainDays, wdayMon, wdaySun]

theorem wlyWdMask_eq (dow : Bitints) : wlyWdMask dow = bitsOf ((plainDays dow).map Int.toNat) := rfl

theorem mem_map_toNat {dow : Bitints} {w : Nat} :
    w ∈ (plainDays dow).map Int.toNat ↔ (w : Int) ∈ plainDays dow := by
  rw [List.mem_map]
  constructor
  · rintro ⟨t, ht, rfl⟩
    have h1 := (mem_plainDays.mp ht).2.1
    rwa [Int.toNat_of_nonneg (by omega)]
  · intro h
    exact ⟨w, h, rfl⟩

theorem testBit_wlyWdMask (dow : Bitints) (w : Nat) :
    (wlyWdMask dow).testBit w = true ↔ (w : Int) ∈ plainDays dow := by
  rw [wlyWdMask_eq, testBit_bitsOf, mem_map_toNat]

theorem wlyWdMask_eq_zero_iff {dow : Bitints} : wlyWdMask dow = 0 ↔ plainDays dow = [] := by
  rw [wlyWdMask_eq, bitsOf_eq_zero_iff, List.map_eq_nil_iff]

/-- The mask of `rrul_fill_dly` has the plain weekdays, and one bit for all others. -/
theorem testBit_wdMaskOf (dow : Bitints) {w : Nat} (hw : 1 ≤ w) :
    (wdMaskOf dow).testBit w = true ↔ (w : Int) ∈ plainDays dow := by
  have hfold : ∀ (xs : List Int) (acc : Nat),
      (xs.foldl (fun mask tmp =>
        mask ||| if (wdayMon : Int) ≤ tmp ∧ tmp ≤ wdaySun then 1 <<< tmp.toNat else 1) acc).testBit w
          = true ↔
        acc.testBit w = true ∨ ∃ t ∈ xs, (1 ≤ t ∧ t ≤ 7) ∧ t = w := by
    intro xs
    induction xs with
    | nil => intro acc; simp
    | cons x xs ih =>
        intro acc
        have hbit : (if (wdayMon : Int) ≤ x ∧ x ≤ wdaySun then 1 <<< x.toNat else 1).testBit w = true ↔
            (1 ≤ x ∧ x ≤ 7) ∧ x = w := by
          by_cases hx : (wdayMon : Int) ≤ x ∧ x ≤ wdaySun
          · rw [if_pos hx, Nat.one_shiftLeft, Nat.testBit_two_pow, decide_eq_true_eq]
            unfold wdayMon wdaySun at hx
            omega
          · rw [if_neg hx]
            unfold wdayMon wdaySun at hx
            have h1 : (1 : Nat).testBit w = false := by
              rw [← Bool.not_eq_true, Nat.testBit_one_eq_true_iff_self_eq_zero]
              omega
            rw [h1]
            simp only [Bool.false_eq_true, false_iff]
            omega
        rw [List.foldl_cons, ih, Nat.testBit_or, Bool.or_eq_true, hbit]
        simp only [List.mem_cons, exists_eq_or_imp, or_assoc]
  rw [wdMaskOf, hfold, mem_plainDays]
  simp only [Nat.zero_testBit, Bool.false_eq_true, false_or]
  constructor
  · rintro ⟨t, ht, hr, rfl⟩
    exact ⟨ht, hr⟩
  · rintro ⟨ht, hr⟩
    exact ⟨w, ht, hr, rfl⟩

theorem exists_testBit {n : Nat} (h : n ≠ 0) : ∃ i, n.testBit i = true := by
  by_contra hno
  refine h (Nat.eq_of_testBit_eq fun i => ?_)
  rw [Nat.zero_testBit]
  exact Bool.eq_false_iff.mpr fun hi => hno ⟨i, hi⟩

theorem maskPlain_wdMaskOf (dow : Bitints) : maskPlain (wdMaskOf dow) = true ↔ plainDays dow ≠ [] := by
  unfold maskPlain
  rw [bne_iff_ne]
  constructor
  · intro h hnil
    obtain ⟨i, hi⟩ := exists_testBit h
    rw [Nat.testBit_shiftRight, testBit_wdMaskOf dow (by omega), hnil] at hi
    exact List.not_mem_nil hi
  · intro h h0
    obtain ⟨t, ht⟩ := List.exists_mem_of_ne_nil _ h
    have hr := (mem_plainDays.mp ht).2
    have hbit := (testBit_wdMaskOf dow (w := t.toNat) (by omega)).mpr
      (by rwa [Int.toNat_of_nonneg (by omega)])
    rw [show t.toNat = 1 + (t.toNat - 1) by omega, ← Nat.testBit_shiftRight, h0,
      Nat.zero_testBit] at hbit
    cases hbit

theorem testBit_full_week : ∀ w < 8, 1 ≤ w → (0b11111110 : Nat).testBit w = true := by decide

/-- **Weekdays pass if they are listed, or if none is.** -/
theorem testBit_wdMaskAll (dow : Bitints) {w : Nat} (hw : 1 ≤ w ∧ w ≤ 7) :
    maskHas (wdMaskAll dow) w = true ↔ plainDays dow = [] ∨ (w : Int) ∈ plainDays dow := by
  unfold maskHas wdMaskAll
  by_cases h : plainDays dow = []
  · have hno : ¬ maskPlain (wdMaskOf dow) = true := fun hp => (maskPlain_wdMaskOf dow).mp hp h
    rw [if_neg hno, Nat.testBit_or, testBit_full_week w (by omega) hw.1, Bool.or_true]
    simp [h]
  · rw [if_pos ((maskPlain_wdMaskOf dow).mpr h), testBit_wdMaskOf dow hw.1]
    simp [h]

/-! ### Months and days -/

theorem testBit_full_year : ∀ m < 13, 1 ≤ m → (0b1111111111110 : Nat).testBit m = true := by decide

theorem testBit_mMaskOf (mon : Nat) {m : Nat} (hm : 1 ≤ m ∧ m ≤ 12) :
    maskHas (mMaskOf mon) m = true ↔ bui31List mon = [] ∨ m ∈ bui31List mon := by
  unfold maskHas mMaskOf
  by_cases h : bui31List mon = []
  · rw [if_pos (bitsOf_eq_zero_iff.mpr h), testBit_full_year m (by omega) hm.1]
    simp [h]
  · rw [if_neg (fun h0 => h (bitsOf_eq_zero_iff.mp h0)), testBit_bitsOf]
    simp [h]

/-- The days of BYMONTHDAY. -/
def monthDaysOf (dom : Bitint) : List Int := (bi31List dom).filter (· ≠ 0)

/-- A day of a month is listed, counted from the start or from the end. -/
def domListed (dom : Bitint) (d len : Nat) : Prop :=
  monthDaysOf dom = [] ∨ (d : Int) ∈ monthDaysOf dom ∨ (d : Int) - len - 1 ∈ monthDaysOf dom

instance (dom : Bitint) (d len : Nat) : Decidable (domListed dom d len) :=
  inferInstanceAs (Decidable (_ ∨ _ ∨ _))

theorem testBit_full_month {i : Nat} (h : i < 32) : (2 ^ 32 - 1 : Nat).testBit i = true := by
  rw [Nat.testBit_two_pow_sub_one, decide_eq_true_eq]
  exact h

theorem monthDaysOf_eq_nil {dom : Bitint}
    (hpos : ((bi31List dom).filter (0 < ·)).map Int.toNat = [])
    (hneg : ((bi31List dom).filter (· < 0)).map (fun t => (-(t + 1)).toNat) = []) :
    monthDaysOf dom = [] := by
  rw [List.map_eq_nil_iff, List.filter_eq_nil_iff] at hpos hneg
  refine List.filter_eq_nil_iff.mpr fun t ht => ?_
  have h1 := hpos t ht
  have h2 := hneg t ht
  simp only [decide_eq_true_eq] at h1 h2 ⊢
  omega

/-- **Month days pass if they are listed, from either end, or if none is.** -/
theorem dMasksOf_iff (dom : Bitint) {d len : Nat} (h1 : 1 ≤ d) (hd : d ≤ len) (hlen : len ≤ 31) :
    (maskHas (dMasksOf dom).1 d || maskHas (dMasksOf dom).2 (len - d)) = true ↔
      domListed dom d len := by
  unfold dMasksOf domListed maskHas
  dsimp only
  set pos := ((bi31List dom).filter (0 < ·)).map Int.toNat with hpos
  set neg := ((bi31List dom).filter (· < 0)).map (fun t => (-(t + 1)).toNat) with hneg
  have hmem : ∀ t : Int, t ∈ monthDaysOf dom ↔ t ∈ bi31List dom ∧ t ≠ 0 := by
    simp [monthDaysOf]
  by_cases h : bitsOf pos = 0 ∧ bitsOf neg = 0
  · have hnil := monthDaysOf_eq_nil (bitsOf_eq_zero_iff.mp h.1) (bitsOf_eq_zero_iff.mp h.2)
    rw [if_pos h]
    simp only
    rw [testBit_full_month (by omega)]
    simp [hnil]
  · have hp : d ∈ pos ↔ (d : Int) ∈ monthDaysOf dom := by
      rw [hmem, hpos, List.mem_map]
      constructor
      · rintro ⟨t, ht, htd⟩
        rw [List.mem_filter, decide_eq_true_eq] at ht
        rw [show (d : Int) = t by omega]
        exact ⟨ht.1, by omega⟩
      · rintro ⟨ht, -⟩
        exact ⟨d, List.mem_filter.mpr ⟨ht, by simp only [decide_eq_true_eq]; omega⟩, rfl⟩
    have hn : len - d ∈ neg ↔ (d : Int) - len - 1 ∈ monthDaysOf dom := by
      rw [hmem, hneg, List.mem_map]
      constructor
      · rintro ⟨t, ht, htd⟩
        rw [List.mem_filter, decide_eq_true_eq] at ht
        rw [show (d : Int) - len - 1 = t by omega]
        exact ⟨ht.1, by omega⟩
      · rintro ⟨ht, -⟩
        exact ⟨_, List.mem_filter.mpr ⟨ht, by simp only [decide_eq_true_eq]; omega⟩, by omega⟩
    have hne : monthDaysOf dom ≠ [] := by
      intro hnil
      refine h ⟨bitsOf_eq_zero_iff.mpr (List.map_eq_nil_iff.mpr ?_),
        bitsOf_eq_zero_iff.mpr (List.map_eq_nil_iff.mpr ?_)⟩ <;>
        (refine List.filter_eq_nil_iff.mpr fun t ht => ?_
         have h0 := List.filter_eq_nil_iff.mp hnil t ht
         simp only [ne_eq, decide_eq_true_eq] at h0 ⊢
         omega)
    rw [if_neg h, Bool.or_eq_true, testBit_bitsOf, testBit_bitsOf, hp, hn]
    simp [hne]

/-! ### Times -/

theorem testBit_timeMaskOf (xs : List Nat) {i : Nat} (hi : i < 64) :
    maskHas (timeMaskOf xs) i = true ↔ xs = [] ∨ i ∈ xs := by
  unfold maskHas timeMaskOf
  by_cases h : xs = []
  · rw [if_pos (bitsOf_eq_zero_iff.mpr h), Nat.testBit_two_pow_sub_one]
    simp [h, hi]
  · rw [if_neg (fun h0 => h (bitsOf_eq_zero_iff.mp h0)), testBit_bitsOf]
    simp [h]

/-! ### Days -/

/-- The parts of a rule that single out days: BYDAY, BYMONTH and BYMONTHDAY.  The day is a
weekday `w` and the `d`-th of month `m`, which has `len` days. -/
structure DayListed (rr : Rrulsp) (w m d len : Nat) : Prop where
  wday : plainDays rr.dow = [] ∨ (w : Int) ∈ plainDays rr.dow
  month : bui31List rr.mon = [] ∨ m ∈ bui31List rr.mon
  day : domListed rr.dom d len

instance (rr : Rrulsp) (w m d len : Nat) : Decidable (DayListed rr w m d len) :=
  decidable_of_iff ((plainDays rr.dow = [] ∨ (w : Int) ∈ plainDays rr.dow) ∧
      (bui31List rr.mon = [] ∨ m ∈ bui31List rr.mon) ∧ domListed rr.dom d len)
    ⟨fun ⟨h1, h2, h3⟩ => ⟨h1, h2, h3⟩, fun ⟨h1, h2, h3⟩ => ⟨h1, h2, h3⟩⟩

/-- **A day passes the masks exactly if the parts of the rule list it.** -/
theorem dayPasses_iff (rr : Rrulsp) {p : Pos} (hw : 1 ≤ p.w ∧ p.w ≤ 7) (hm : 1 ≤ p.m ∧ p.m ≤ 12)
    (hd : 1 ≤ p.d ∧ p.d ≤ p.maxd) (hmaxd : p.maxd ≤ 31) :
    dayPasses (wdMaskAll rr.dow) (mMaskOf rr.mon) (dMasksOf rr.dom) p = true ↔
      DayListed rr p.w p.m p.d p.maxd := by
  unfold dayPasses
  rw [Bool.and_eq_true, Bool.and_eq_true, testBit_wdMaskAll rr.dow hw, testBit_mMaskOf rr.mon hm,
    dMasksOf_iff rr.dom hd.1 hd.2 hmaxd]
  exact ⟨fun ⟨⟨h1, h2⟩, h3⟩ => ⟨h1, h2, h3⟩, fun ⟨h1, h2, h3⟩ => ⟨⟨h1, h2⟩, h3⟩⟩

end Echse
