/-
What the sets of a rule that has been read hold.

`snarf_rrule` assigns a value to a set only if it is within bounds, so the sets hold
such values only.  For that it has to be known that assigning adds the value and nothing
else.
-/
import Echse.Proofs.Bitint
import Echse.Proofs.Snarf

namespace Echse

/-! ### Assigning to the small sets -/

theorem testBit_one_shiftLeft (x y : Nat) : (1 <<< x).testBit y = decide (x = y) := by
  rw [Nat.one_shiftLeft, Nat.testBit_two_pow]

theorem or_mod_eq {a b w : Nat} (ha : a < 2 ^ w) (hb : b < 2 ^ w) : (a ||| b) % 2 ^ w = a ||| b :=
  Nat.mod_eq_of_lt (Nat.or_lt_two_pow ha hb)

theorem one_shiftLeft_lt {x w : Nat} (h : x < w) : 1 <<< x < 2 ^ w := by
  rw [Nat.one_shiftLeft]
  exact Nat.pow_lt_pow_right (by decide) h

theorem one_shiftLeft_mod_two {x : Nat} (h : 0 < x) : (1 <<< x) % 2 = 0 := by
  obtain ⟨y, rfl⟩ : ∃ y, x = y + 1 := ⟨x - 1, by omega⟩
  rw [Nat.one_shiftLeft, Nat.pow_succ]
  omega

theorem or_mod_two {a b : Nat} (ha : a % 2 = 0) (hb : b % 2 = 0) : (a ||| b) % 2 = 0 := by
  have h := Nat.testBit_or a b 0
  simp only [Nat.testBit_zero, ha, hb] at h
  have : ¬ (a ||| b) % 2 = 1 := by simpa using h
  omega

theorem two_pow_eq {w : Nat} (hw : 0 < w) : 2 ^ w = 2 ^ (w - 1) * 2 := by
  obtain ⟨v, rfl⟩ : ∃ v, w = v + 1 := ⟨w - 1, by omega⟩
  exact Nat.pow_succ ..

/-- Assigning to an unsigned set adds the value. -/
theorem assBui_spec {w bi x : Nat} (hx : x + 1 < w) (hbi : bi < 2 ^ w)
    (hold : bi % 2 = 1 → bi >>> 1 + 1 < w) :
    assBui w bi x < 2 ^ w ∧
      ∀ y, buiHasBit (assBui w bi x) y = true ↔ y = x ∨ buiHasBit bi y = true := by
  have hlt := one_shiftLeft_lt hx
  unfold assBui
  by_cases h0 : bi = 0
  · -- the value is kept as it is
    have hlow : x <<< 1 ||| 1 = 2 * x + 1 := by
      have h := Nat.shiftLeft_add_eq_or_of_lt (b := 1) (i := 1) (by decide) x
      rw [← h, Nat.shiftLeft_eq]
      omega
    have hsmall : 2 * x + 1 < 2 ^ w := by
      have h1 : x < 2 ^ x := Nat.lt_two_pow_self
      have h2 : 2 ^ (x + 1) ≤ 2 ^ (w - 1) := Nat.pow_le_pow_right (by decide) (by omega)
      have h3 := two_pow_eq (w := w) (by omega)
      have h4 : 2 ^ (x + 1) = 2 ^ x * 2 := Nat.pow_succ ..
      omega
    rw [if_pos h0, hlow, Nat.mod_eq_of_lt hsmall]
    refine ⟨hsmall, fun y => ?_⟩
    unfold buiHasBit
    rw [if_pos (by omega), h0]
    simp [Nat.shiftRight_one]
    omega
  · rw [if_neg h0]
    by_cases hodd : bi % 2 = 1
    · have hlt' := one_shiftLeft_lt (hold hodd)
      rw [if_pos hodd, or_mod_eq hlt' hlt]
      refine ⟨Nat.or_lt_two_pow hlt' hlt, fun y => ?_⟩
      unfold buiHasBit
      rw [if_neg (by
        rw [or_mod_two (one_shiftLeft_mod_two (Nat.succ_pos _))
          (one_shiftLeft_mod_two (Nat.succ_pos _))]; decide), if_pos hodd, Nat.testBit_or,
        testBit_one_shiftLeft, testBit_one_shiftLeft]
      simp
      omega
    · have heven : bi % 2 = 0 := by omega
      rw [if_neg hodd, or_mod_eq hbi hlt]
      refine ⟨Nat.or_lt_two_pow hbi hlt, fun y => ?_⟩
      unfold buiHasBit
      rw [if_neg (by rw [or_mod_two heven (one_shiftLeft_mod_two (Nat.succ_pos _))]; decide),
        if_neg hodd, Nat.testBit_or, testBit_one_shiftLeft]
      simp
      tauto

/-- An unsigned set of `w` bits whose members all are `P`. -/
structure UintSet (w : Nat) (P : Nat → Prop) (bi : Nat) : Prop where
  lt : bi < 2 ^ w
  mem : ∀ x, buiHasBit bi x = true → P x

section Uint

variable {w : Nat} {P : Nat → Prop} {bi x : Nat}

theorem uintSet_zero (w : Nat) (P : Nat → Prop) : UintSet w P 0 :=
  ⟨Nat.two_pow_pos w, fun x hx => by simp [buiHasBit] at hx⟩

theorem UintSet.single (h : UintSet w P bi) (hodd : bi % 2 = 1) : P (bi >>> 1) :=
  h.mem _ (by simp [buiHasBit, hodd])

/-- Assigning a value keeps a set of such values, and adds it. -/
theorem UintSet.ass (h : UintSet w P bi) (hP : ∀ x, P x → x + 1 < w) (hx : P x) :
    UintSet w P (assBui w bi x) ∧
      ∀ y, buiHasBit (assBui w bi x) y = true ↔ y = x ∨ buiHasBit bi y = true := by
  obtain ⟨hlt, hmem⟩ := assBui_spec (hP x hx) h.lt fun hodd => hP _ (h.single hodd)
  refine ⟨⟨hlt, fun y hy => ?_⟩, hmem⟩
  rcases (hmem y).mp hy with rfl | hy
  · exact hx
  · exact h.mem y hy

/-- The values of a set come in ascending order and are within its bounds. -/
theorem UintSet.list (h : UintSet w P bi) {fuel : Nat} (hf : w + 1 ≤ fuel) :
    (drain (buiNext w bi) fuel 0).Pairwise (· < ·) ∧ ∀ x ∈ drain (buiNext w bi) fuel 0, P x := by
  obtain ⟨hsorted, hmem⟩ := buiList_spec h.lt hf
  exact ⟨hsorted, fun x hx => h.mem x (hmem x hx)⟩

end Uint

/-! ### Signed sets -/

theorem intOfWord_wordOfInt {w : Nat} (hw : 0 < w) {x : Int} (h1 : -(2 ^ (w - 1) : Nat) ≤ x)
    (h2 : x < (2 ^ (w - 1) : Nat)) : intOfWord w (wordOfInt w x) = x := by
  have hpow := two_pow_eq hw
  unfold intOfWord wordOfInt
  rw [hpow]
  generalize 2 ^ (w - 1) = k at *
  have hk : ((k * 2 : Nat) : Int) = 2 * k := by push_cast; ring
  rw [hk]
  rcases Int.lt_or_le x 0 with hneg | hpos
  · have hmod : x % (2 * (k : Int)) = x + 2 * k := by
      rw [← Int.add_mul_emod_self_left x (2 * k) 1, Int.emod_eq_of_lt (by omega) (by omega)]
      ring
    rw [hmod]
    have hnat : (x + 2 * k).toNat % (k * 2) = (x + 2 * k).toNat := Nat.mod_eq_of_lt (by omega)
    rw [hnat]
    split <;> omega
  · rw [Int.emod_eq_of_lt hpos (by omega), Nat.mod_eq_of_lt (by omega)]
    split <;> omega

/-- A signed set of `w` bits whose members all are `P`. -/
structure IntSet (w : Nat) (P : Int → Prop) (bi : Bitint) : Prop where
  pos : bi.pos < 2 ^ w
  neg : bi.neg < 2 ^ w
  mem : ∀ x, biHasBit w bi x = true → P x

section Signed

variable {w : Nat} {P : Int → Prop} {bi : Bitint} {x : Int}

theorem intSet_zero (w : Nat) (P : Int → Prop) : IntSet w P ⟨0, 0⟩ :=
  ⟨Nat.two_pow_pos w, Nat.two_pow_pos w, fun x hx => by simp [biHasBit] at hx⟩

theorem IntSet.single (h : IntSet w P bi) (hodd : bi.pos % 2 = 1) : P (intOfWord w bi.neg) :=
  h.mem _ (by simp [biHasBit, hodd])

theorem biHasBit_even {bi : Bitint} (h : bi.pos % 2 = 0) (y : Int) :
    biHasBit w bi y = if 0 < y then bi.pos.testBit y.toNat else bi.neg.testBit (-y).toNat := by
  unfold biHasBit
  rw [if_neg (by omega)]

/-- Assigning to a signed set adds the value. -/
theorem assBi_spec (hw : 1 < w) (hx : -(w : Int) < x ∧ x < w) (hpos : bi.pos < 2 ^ w)
    (hneg : bi.neg < 2 ^ w)
    (hold : bi.pos % 2 = 1 → -(w : Int) < intOfWord w bi.neg ∧ intOfWord w bi.neg < w) :
    (assBi w bi x).pos < 2 ^ w ∧ (assBi w bi x).neg < 2 ^ w ∧
      ∀ y, biHasBit w (assBi w bi x) y = true ↔ y = x ∨ biHasBit w bi y = true := by
  have hword : ∀ z : Int, wordOfInt w z < 2 ^ w := by
    intro z
    have hp := Nat.two_pow_pos w
    have h1 := Int.emod_nonneg z (b := ((2 ^ w : Nat) : Int)) (by omega)
    have h2 := Int.emod_lt_of_pos z (b := ((2 ^ w : Nat) : Int)) (by omega)
    unfold wordOfInt
    omega
  have hhalf : w ≤ 2 ^ (w - 1) := by
    have := (Nat.lt_two_pow_self (n := w - 1))
    omega
  unfold assBi
  by_cases h0 : bi.pos = 0 ∧ bi.neg = 0
  · rw [if_pos h0]
    refine ⟨Nat.one_lt_two_pow (by omega), hword x, fun y => ?_⟩
    have hno : biHasBit w bi y = false := by simp [biHasBit, h0]
    have hyes : biHasBit w ⟨1, wordOfInt w x⟩ y = (x == y) := by
      simp [biHasBit, intOfWord_wordOfInt (w := w) (x := x) (by omega) (by omega) (by omega)]
    rw [hno, hyes, beq_iff_eq]
    exact ⟨fun h => Or.inl h.symm, fun h => by simpa [eq_comm] using h⟩
  · rw [if_neg h0]
    dsimp only
    -- the set that the value is added to
    generalize hbi' : (if bi.pos % 2 = 1 then _ else bi : Bitint) = bi'
    have hbi : bi'.pos < 2 ^ w ∧ bi'.neg < 2 ^ w ∧ bi'.pos % 2 = 0 ∧
        ∀ y, biHasBit w bi' y = biHasBit w bi y := by
      rw [← hbi']
      by_cases hodd : bi.pos % 2 = 1
      · rw [if_pos hodd]
        obtain ⟨hlo, hhi⟩ := hold hodd
        have hbit : ∀ y, biHasBit w bi y = (intOfWord w bi.neg == y) := by
          intro y; simp [biHasBit, hodd]
        by_cases hp : 0 < intOfWord w bi.neg
        · rw [if_pos hp]
          have hev := one_shiftLeft_mod_two (x := (intOfWord w bi.neg).toNat) (by omega)
          refine ⟨one_shiftLeft_lt (by omega), Nat.two_pow_pos w, hev, fun y => ?_⟩
          rw [hbit, biHasBit_even hev]
          dsimp only
          rw [testBit_one_shiftLeft]
          split <;> simp [Bool.beq_eq_decide_eq] <;> omega
        · rw [if_neg hp]
          refine ⟨Nat.two_pow_pos w, one_shiftLeft_lt (by omega), rfl, fun y => ?_⟩
          rw [hbit, biHasBit_even rfl]
          dsimp only
          rw [testBit_one_shiftLeft]
          split <;> simp [Bool.beq_eq_decide_eq] <;> omega
      · rw [if_neg hodd]
        exact ⟨hpos, hneg, by omega, fun _ => rfl⟩
    obtain ⟨hpos', hneg', heven, hbit⟩ := hbi
    by_cases hp : 0 < x
    · have hlt := one_shiftLeft_lt (x := x.toNat) (w := w) (by omega)
      have hev := or_mod_two heven (one_shiftLeft_mod_two (x := x.toNat) (by omega))
      rw [if_pos hp, or_mod_eq hpos' hlt]
      refine ⟨Nat.or_lt_two_pow hpos' hlt, hneg', fun y => ?_⟩
      rw [← hbit, biHasBit_even heven, biHasBit_even hev]
      dsimp only
      split
      · rw [Nat.testBit_or, testBit_one_shiftLeft, Bool.or_eq_true, decide_eq_true_eq]
        have : x.toNat = y.toNat ↔ y = x := by omega
        tauto
      · have : y ≠ x := by omega
        tauto
    · have hlt := one_shiftLeft_lt (x := (-x).toNat) (w := w) (by omega)
      rw [if_neg hp, or_mod_eq hneg' hlt]
      refine ⟨hpos', Nat.or_lt_two_pow hneg' hlt, fun y => ?_⟩
      rw [← hbit, biHasBit_even heven, biHasBit_even (by exact heven)]
      dsimp only
      split
      · have : y ≠ x := by omega
        tauto
      · rw [Nat.testBit_or, testBit_one_shiftLeft, Bool.or_eq_true, decide_eq_true_eq]
        have : (-x).toNat = (-y).toNat ↔ y = x := by omega
        tauto

/-- Assigning a value keeps a set of such values, and adds it. -/
theorem IntSet.ass (hw : 1 < w) (h : IntSet w P bi) (hP : ∀ x, P x → -(w : Int) < x ∧ x < w)
    (hx : P x) :
    IntSet w P (assBi w bi x) ∧
      ∀ y, biHasBit w (assBi w bi x) y = true ↔ y = x ∨ biHasBit w bi y = true := by
  obtain ⟨hpos, hneg, hmem⟩ :=
    assBi_spec hw (hP x hx) h.pos h.neg fun hodd => hP _ (h.single hodd)
  refine ⟨⟨hpos, hneg, fun y hy => ?_⟩, hmem⟩
  rcases (hmem y).mp hy with rfl | hy
  · exact hx
  · exact h.mem y hy

theorem IntSet.list (hw : 1 < w) (h : IntSet w P bi) {fuel : Nat} (hf : 2 * w ≤ fuel) :
    ∀ x ∈ drain (biNext w bi) fuel 0, P x := by
  intro x hx
  rw [mem_biList hw h.pos h.neg hf] at hx
  split at hx
  · rename_i hodd
    rw [hx]
    exact h.single hodd
  · exact h.mem x hx.2.2.1

end Signed

/-! ### Wide sets -/

/-- A wide set whose members all are `P`. -/
def IntsSet (n : Nat) (P : Int → Prop) : Bitints → Prop
  | .native xs => ∀ x ∈ xs, P x
  | .bits b => ∀ i, b.testBit i = true → i = 0 ∨ P (bintsVal n i)

section Wide

variable {n : Nat} {P : Int → Prop} {bi : Bitints} {x : Int}

theorem intsSet_nil (n : Nat) (P : Int → Prop) : IntsSet n P .nil := fun x hx => by cases hx

theorem mem_of_mem_assInt {y : Int} (xs : List Int) : y ∈ assInt x xs → y = x ∨ y ∈ xs :=
  (mem_assInt x xs y).mp

theorem testBit_assBs_iff {b i : Nat} (n : Nat) :
    (assBs n b x).testBit i = true ↔
      b.testBit i = true ∨ i = if 0 < x then x.toNat else 32 * n + (-x).toNat := by
  unfold assBs
  split <;> rw [Nat.testBit_or, testBit_one_shiftLeft, Bool.or_eq_true, decide_eq_true_eq] <;> tauto

theorem bintsVal_at (hx : x < 32 * n) :
    bintsVal n (if 0 < x then x.toNat else 32 * n + (-x).toNat) = x := by
  unfold bintsVal
  split
  · rw [if_pos (by omega)]
    omega
  · rw [if_neg (by omega)]
    omega

theorem IntsSet.assBs {b : Nat} (h : IntsSet n P (.bits b)) (hx : P x) (hlt : x < 32 * n) :
    IntsSet n P (.bits (Echse.assBs n b x)) := by
  intro i hi
  rcases (testBit_assBs_iff n).mp hi with hi | rfl
  · exact h i hi
  · right
    rwa [bintsVal_at hlt]

theorem intsSet_foldl (hP : ∀ x, P x → x < 32 * n) {xs : List Int} (hxs : ∀ x ∈ xs, P x) :
    ∀ b : Nat, IntsSet n P (.bits b) → IntsSet n P (.bits (xs.foldl (Echse.assBs n) b)) := by
  induction xs with
  | nil => intro b h; exact h
  | cons x xs ih =>
      intro b h
      have hx := hxs x List.mem_cons_self
      exact ih (fun y hy => hxs y (List.mem_cons_of_mem _ hy)) _ (h.assBs hx (hP x hx))

/-- Assigning a value keeps a set of such values. -/
theorem IntsSet.ass (hP : ∀ x, P x → x < 32 * n) (h : IntsSet n P bi) (hx : P x) :
    IntsSet n P (assBints n bi x) := by
  cases bi with
  | native xs =>
      unfold assBints
      dsimp only
      split
      · intro y hy
        rcases mem_of_mem_assInt xs hy with rfl | hy
        · exact hx
        · exact h y hy
      · refine IntsSet.assBs (intsSet_foldl hP h 1 fun i hi => ?_) hx (hP x hx)
        exact Or.inl (testBit_one_eq hi)
  | bits b => exact IntsSet.assBs h hx (hP x hx)

/-- The values that a wide set yields are within its bounds. -/
theorem IntsSet.list (hn : 0 < n) (h : IntsSet n P bi) {fuel : Nat} (hf : 64 * n ≤ fuel)
    (hlen : ∀ xs, bi = .native xs → xs.length ≤ fuel) :
    ∀ x ∈ drain (bintsNext n bi) fuel 0, P x := by
  cases bi with
  | native xs =>
      rw [drain_native n xs fuel 0 (by simpa using hlen xs rfl), List.drop_zero]
      exact h
  | bits b =>
      obtain ⟨l, hl, -, hmem⟩ := drain_spec (R := BintsIter n b)
        (fun i hi => bintsNext_bits hn i hi) fuel 0 (Or.inl (by omega)) (by omega)
      intro x hx
      rw [hl] at hx
      obtain ⟨i, hi, rfl⟩ := List.mem_map.mp hx
      rcases ((hmem i).mp hi).2.2 with ⟨rfl, hb⟩ | ⟨h1, -, hb⟩ | ⟨h1, hb, -⟩
      · -- naught is kept with the negatives
        have hP := (h _ hb).resolve_left (by omega)
        have h0 : bintsVal n (32 * n) = bintsVal n 0 := by
          unfold bintsVal
          rw [if_neg (by omega), if_pos (by omega)]
          simp
        rwa [h0] at hP
      · exact (h i hb).resolve_left (by omega)
      · exact (h i hb).resolve_left (by omega)

end Wide

/-- How many values a set can hold before it turns into bits. -/
def NativeSmall (n : Nat) (bi : Bitints) : Prop := ∀ xs, bi = .native xs → xs.length ≤ n

theorem NativeSmall.ass {n : Nat} {bi : Bitints} (h : NativeSmall n bi) (x : Int) :
    NativeSmall n (assBints n bi x) := by
  intro ys hys
  cases bi with
  | native xs =>
      unfold assBints at hys
      dsimp only at hys
      split at hys
      · cases hys
        exact (assInt_length x xs).trans (by omega)
      · cases hys
  | bits b => cases hys

/-- What an assignment keeps of a wide set. -/
structure WideSet (n : Nat) (P : Int → Prop) (bi : Bitints) : Prop where
  mem : IntsSet n P bi
  small : NativeSmall n bi

section Wide

variable {n : Nat} {P : Int → Prop} {bi : Bitints} {x : Int}

theorem wideSet_nil (n : Nat) (P : Int → Prop) : WideSet n P .nil :=
  ⟨intsSet_nil n P, fun xs hxs => by cases hxs; exact Nat.zero_le n⟩

theorem WideSet.ass (hP : ∀ x, P x → x < 32 * n) (h : WideSet n P bi) (hx : P x) :
    WideSet n P (assBints n bi x) := ⟨h.mem.ass hP hx, h.small.ass x⟩

theorem WideSet.list (hn : 0 < n) (h : WideSet n P bi) {fuel : Nat} (hf : 64 * n ≤ fuel) :
    ∀ x ∈ drain (bintsNext n bi) fuel 0, P x :=
  h.mem.list hn hf fun xs hxs => (h.small xs hxs).trans (by omega)

end Wide

/-! ### Lists of values -/

/-- Whatever every assignment keeps, a list of them keeps. -/
theorem snarfList_induct {σ α : Type} {P : σ → Prop} {read : List Char → α × List Char}
    {ass : σ → α → σ} (hass : ∀ s a, P s → P (ass s a)) (fuel : Nat) :
    ∀ (kv : List Char) (s : σ), P s → P (snarfList read ass fuel kv s) := by
  induction fuel with
  | zero => intro kv s h; exact h
  | succ fuel ih =>
      intro kv s h
      unfold snarfList
      dsimp only
      split
      · exact ih _ _ (hass _ _ h)
      · exact hass _ _ h

theorem snarfUints_set {w : Nat} {P : Nat → Prop} {ok : Nat → Bool} {bi : Nat}
    (hP : ∀ x, P x → x + 1 < w) (hok : ∀ x, ok x = true → P x) (kv : List Char)
    (h : UintSet w P bi) : UintSet w P (snarfUints ok (assBui w) kv bi) := by
  refine snarfList_induct (fun s a hs => ?_) _ _ _ h
  split
  · rename_i ha
    exact (hs.ass hP (hok a ha)).1
  · exact hs

theorem snarfInts_set {w : Nat} (hw : 1 < w) {lim : Int} (hlim : lim < w) {bi : Bitint}
    (kv : List Char) (h : IntSet w (fun x => x ≠ 0 ∧ -lim ≤ x ∧ x ≤ lim) bi) :
    IntSet w (fun x => x ≠ 0 ∧ -lim ≤ x ∧ x ≤ lim) (snarfInts lim (assBi w) kv bi) := by
  refine snarfList_induct (fun s a hs => ?_) _ _ _ h
  split
  · rename_i ha
    exact (hs.ass hw (fun x hx => ⟨by omega, by omega⟩) ha).1
  · exact hs

theorem snarfInts_wide {lim : Int} (hlim : lim < 384) {bi : Bitints} (kv : List Char)
    (h : WideSet 12 (fun x => x ≠ 0 ∧ -lim ≤ x ∧ x ≤ lim) bi) :
    WideSet 12 (fun x => x ≠ 0 ∧ -lim ≤ x ∧ x ≤ lim) (snarfInts lim assBi383 kv bi) := by
  refine snarfList_induct (fun s a hs => ?_) _ _ _ h
  split
  · rename_i ha
    exact hs.ass (fun x hx => by omega) ha
  · exact hs

theorem snarfWday_le (s : List Char) : snarfWday s ≤ 7 := by
  unfold snarfWday wdayMir
  split <;> omega

/-- A packed weekday with a count of at most 53. -/
def IsCd (x : Int) : Prop := -53 ≤ x / 8 ∧ x / 8 ≤ 53 ∧ 1 ≤ x % 8

theorem snarfWdays_wide (fuel : Nat) : ∀ (kv : List Char) (bi : Bitints),
    WideSet 14 IsCd bi → WideSet 14 IsCd (snarfWdays fuel kv bi) := by
  induction fuel with
  | zero => intro kv bi h; exact h
  | succ fuel ih =>
      intro kv bi h
      unfold snarfWdays
      dsimp only
      have hass : WideSet 14 IsCd (if snarfWday (strtol kv).2 ≠ wdayMir ∧ -53 ≤ (strtol kv).1 ∧
          (strtol kv).1 ≤ 53 then assBi447 bi (packCd ⟨(strtol kv).1, snarfWday (strtol kv).2⟩)
          else bi) := by
        split
        · rename_i hw
          have hle := snarfWday_le (strtol kv).2
          refine h.ass (fun x hx => by unfold IsCd at hx; omega) ?_
          unfold IsCd packCd
          unfold wdayMir at hw
          dsimp only
          omega
        · exact h
      split
      · exact hass
      · exact ih _ _ hass

/-! ### The sets of a rule -/

/-- The sets of a rule hold values that the parser lets through. -/
structure Rrulsp.Ranged (rr : Rrulsp) : Prop where
  mon : UintSet 32 (fun x => 1 ≤ x ∧ x ≤ 12) rr.mon
  H : UintSet 32 (· ≤ 24) rr.H
  M : UintSet 64 (· < 60) rr.M
  S : UintSet 64 (· ≤ 60) rr.S
  dom : IntSet 32 (fun x => x ≠ 0 ∧ -31 ≤ x ∧ x ≤ 31) rr.dom
  wk : IntSet 64 (fun x => x ≠ 0 ∧ -53 ≤ x ∧ x ≤ 53) rr.wk
  doy : WideSet 12 (fun x => x ≠ 0 ∧ -366 ≤ x ∧ x ≤ 366) rr.doy
  pos : WideSet 12 (fun x => x ≠ 0 ∧ -366 ≤ x ∧ x ≤ 366) rr.pos
  easter : WideSet 12 (fun x => -366 ≤ x ∧ x ≤ 366) rr.easter
  dow : WideSet 14 IsCd rr.dow

theorem ranged_empty {rr : Rrulsp} (hmon : rr.mon = 0) (hH : rr.H = 0) (hM : rr.M = 0)
    (hS : rr.S = 0) (hdom : rr.dom = ⟨0, 0⟩) (hwk : rr.wk = ⟨0, 0⟩) (hdoy : rr.doy = .nil)
    (hpos : rr.pos = .nil) (heaster : rr.easter = .nil) (hdow : rr.dow = .nil) : rr.Ranged where
  mon := by rw [hmon]; exact uintSet_zero ..
  H := by rw [hH]; exact uintSet_zero ..
  M := by rw [hM]; exact uintSet_zero ..
  S := by rw [hS]; exact uintSet_zero ..
  dom := by rw [hdom]; exact intSet_zero ..
  wk := by rw [hwk]; exact intSet_zero ..
  doy := by rw [hdoy]; exact wideSet_nil ..
  pos := by rw [hpos]; exact wideSet_nil ..
  easter := by rw [heaster]; exact wideSet_nil ..
  dow := by rw [hdow]; exact wideSet_nil ..

theorem snarfPart_ranged {k : RrulKey} {kv : List Char} {rr rr' : Rrulsp} (h : rr.Ranged)
    (hr : snarfPart k kv rr = some rr') : rr'.Ranged := by
  obtain ⟨hmon, hH, hM, hS, hdom, hwk, hdoy, hpos, heaster, hdow⟩ := h
  cases k with
  | byMon =>
      simp only [snarfPart] at hr
      cases hr
      refine ⟨snarfUints_set (fun x hx => by omega) (fun x hx => ?_) kv hmon, hH, hM, hS, hdom, hwk,
        hdoy, hpos, heaster, hdow⟩
      simp only [Bool.and_eq_true, ne_eq, decide_eq_true_eq] at hx
      omega
  | byHour =>
      simp only [snarfPart] at hr
      cases hr
      exact ⟨hmon, snarfUints_set (fun x hx => by omega) (fun x hx => by simpa using hx) kv hH,
        hM, hS, hdom, hwk, hdoy, hpos, heaster, hdow⟩
  | byMin =>
      simp only [snarfPart] at hr
      cases hr
      exact ⟨hmon, hH, snarfUints_set (fun x hx => by omega) (fun x hx => by simpa using hx) kv hM,
        hS, hdom, hwk, hdoy, hpos, heaster, hdow⟩
  | bySec =>
      simp only [snarfPart] at hr
      cases hr
      exact ⟨hmon, hH, hM, snarfUints_set (fun x hx => by omega) (fun x hx => by simpa using hx) kv hS,
        hdom, hwk, hdoy, hpos, heaster, hdow⟩
  | byMday =>
      simp only [snarfPart] at hr
      cases hr
      exact ⟨hmon, hH, hM, hS, snarfInts_set (by decide) (by decide) kv hdom, hwk, hdoy, hpos,
        heaster, hdow⟩
  | byWeek =>
      simp only [snarfPart] at hr
      cases hr
      exact ⟨hmon, hH, hM, hS, hdom, snarfInts_set (by decide) (by decide) kv hwk, hdoy, hpos,
        heaster, hdow⟩
  | byYday =>
      simp only [snarfPart] at hr
      cases hr
      exact ⟨hmon, hH, hM, hS, hdom, hwk, snarfInts_wide (by decide) kv hdoy, hpos, heaster, hdow⟩
  | byPos =>
      simp only [snarfPart] at hr
      cases hr
      exact ⟨hmon, hH, hM, hS, hdom, hwk, hdoy, snarfInts_wide (by decide) kv hpos, heaster, hdow⟩
  | byEaster =>
      simp only [snarfPart] at hr
      cases hr
      refine ⟨hmon, hH, hM, hS, hdom, hwk, hdoy, hpos, ?_, hdow⟩
      refine snarfList_induct (fun s a hs => ?_) _ _ _ heaster
      split
      · rename_i ha
        exact hs.ass (fun x hx => by omega) ha
      · exact hs
  | byWday =>
      simp only [snarfPart] at hr
      cases hr
      exact ⟨hmon, hH, hM, hS, hdom, hwk, hdoy, hpos, heaster, snarfWdays_wide _ _ _ hdow⟩
  | count =>
      simp only [snarfPart] at hr
      split at hr
      · cases hr
      · cases hr
        exact ⟨hmon, hH, hM, hS, hdom, hwk, hdoy, hpos, heaster, hdow⟩
  | inter =>
      simp only [snarfPart] at hr
      split at hr
      · cases hr
      · cases hr
        exact ⟨hmon, hH, hM, hS, hdom, hwk, hdoy, hpos, heaster, hdow⟩
  | _ =>
      simp only [snarfPart] at hr
      cases hr
      exact ⟨hmon, hH, hM, hS, hdom, hwk, hdoy, hpos, heaster, hdow⟩

/-- **The sets of a rule that has been read are within the parser's bounds.** -/
theorem snarfRrule_ranged (s : List Char) : (snarfRrule s).Ranged :=
  snarfRrule_induct (P := Rrulsp.Ranged) (fun _ _ _ _ h hr => snarfPart_ranged h hr)
    (ranged_empty rfl rfl rfl rfl rfl rfl rfl rfl rfl rfl)
    (ranged_empty rfl rfl rfl rfl rfl rfl rfl rfl rfl rfl) s

end Echse
