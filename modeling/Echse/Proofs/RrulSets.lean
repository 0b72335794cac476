/-
The sets of a rule, as they are written and read back.

A set is written value by value, as its iterator yields them, and each value that is read
is assigned to the empty set.  The iterators do not yield everything: one that starts
at the positives ends there when there are none.
-/
import Echse.Proofs.RrulVals
import Echse.Proofs.Stamps

namespace Echse

/-! ### Sets that have been assigned to -/

/-- A set that a list of values has been assigned to, one after the other, has these. -/
theorem foldl_has {σ α : Type} {R : σ → α → Prop} {I : σ → Prop} {K : α → Prop}
    [DecidablePred K] {f : σ → α → σ}
    (hass : ∀ s x, I s → K x → I (f s x) ∧ ∀ y, R (f s x) y ↔ y = x ∨ R s y)
    (xs : List α) : ∀ s, I s →
      I (xs.foldl (fun s x => if K x then f s x else s) s) ∧
      ∀ y, R (xs.foldl (fun s x => if K x then f s x else s) s) y ↔
        (y ∈ xs ∧ K y) ∨ R s y := by
  induction xs with
  | nil => exact fun s hs => ⟨hs, by simp⟩
  | cons x xs ih =>
      intro s hs
      rw [List.foldl_cons]
      by_cases hx : K x
      · rw [if_pos hx]
        obtain ⟨hs', hm⟩ := hass s x hs hx
        obtain ⟨hi, hy⟩ := ih (f s x) hs'
        refine ⟨hi, fun y => ?_⟩
        rw [hy, hm, List.mem_cons]
        constructor
        · rintro (⟨h, ho⟩ | rfl | h)
          · exact .inl ⟨.inr h, ho⟩
          · exact .inl ⟨.inl rfl, hx⟩
          · exact .inr h
        · rintro (⟨rfl | h, ho⟩ | h)
          · exact .inr (.inl rfl)
          · exact .inl ⟨h, ho⟩
          · exact .inr (.inr h)
      · rw [if_neg hx]
        obtain ⟨hi, hy⟩ := ih s hs
        refine ⟨hi, fun y => ?_⟩
        rw [hy, List.mem_cons]
        constructor
        · rintro (⟨h, ho⟩ | h)
          · exact .inl ⟨.inr h, ho⟩
          · exact .inr h
        · rintro (⟨rfl | h, ho⟩ | h)
          · exact absurd ho hx
          · exact .inl ⟨h, ho⟩
          · exact .inr h

/-- What is written is what iterating yields, if there is anything. -/
theorem sendVals_eq {α : Type} {next : Nat → α × Nat} (h : (next 0).2 ≠ 0) (fuel : Nat) :
    sendVals next fuel = drain next (fuel + 1) 0 := by
  rw [sendVals, drain, if_neg h]

/-! ### Unsigned sets -/

/-- All the values of a set are written. -/
theorem mem_sendVals_bui {bi : Nat} (hlt : bi < 2 ^ 32) (h0 : bi ≠ 0) (v : Nat) :
    v ∈ sendVals (bui31Next bi) 33 ↔ buiHasBit bi v = true := by
  have hn : bui31Next bi = buiNext 32 bi := rfl
  rw [hn]
  by_cases hodd : bi % 2 = 1
  · have h1 : buiNext 32 bi 0 = (bi >>> 1, bi >>> 1) := by simp [buiNext, hodd]
    have h2 : drain (buiNext 32 bi) 33 (bi >>> 1) = [] := by
      rw [drain, if_pos]
      by_cases hz : bi >>> 1 = 0
      · rw [hz, h1, hz]
      · simp [buiNext, hodd, hz]
    rw [sendVals, h1, h2]
    rw [buiHasBit, if_pos hodd, List.mem_singleton, beq_iff_eq]
    exact eq_comm
  · have heven : bi % 2 = 0 := by omega
    have hne : (buiNext 32 bi 0).2 ≠ 0 := by
      have hz : bi >>> 1 ≠ 0 := by
        rw [Nat.shiftRight_one]
        omega
      rw [buiNext, if_neg hodd, if_pos (by simpa using hz)]
      exact Nat.succ_ne_zero _
    obtain ⟨l, hl, -, hmem⟩ := drain_spec (R := fun _ => True)
      (fun i _ => buiNext_bits hlt heven i) 34 0 trivial (by decide)
    rw [sendVals_eq hne, hl, List.map_id' l, hmem, buiHasBit, if_neg hodd, Nat.testBit_shiftRight,
      Nat.add_comm 1 v]
    refine ⟨fun h => h.2.2, fun h => ⟨Nat.zero_le _, ?_, h⟩⟩
    by_contra hv
    have hp : bi < 2 ^ (v + 1) := hlt.trans_le (Nat.pow_le_pow_right (by decide) (by omega))
    rw [Nat.testBit_lt_two_pow hp] at h
    cases h

/-! ### Signed sets -/

/-- The values of a set that has a positive one, or just one, are all written. -/
theorem mem_sendVals_bi {w : Nat} {P : Int → Prop} {bi : Bitint} (hw : 1 < w)
    (h : IntSet w P bi) (hP : ∀ x, P x → x ≠ 0 ∧ -(w : Int) < x ∧ x < w) (hpos : bi.pos ≠ 0)
    {fuel : Nat} (hf : 2 * w ≤ fuel + 1) (x : Int) :
    x ∈ sendVals (biNext w bi) fuel ↔ biHasBit w bi x = true := by
  have hne : (biNext w bi 0).2 ≠ 0 := by
    rw [biNext]
    split
    · rw [if_neg (by simp)]
      exact Nat.one_ne_zero
    · split
      · exact Nat.one_ne_zero
      · rw [if_pos ⟨by omega, by simpa using hpos⟩]
        dsimp only
        split <;> omega
  rw [sendVals_eq hne, mem_biList hw h.pos h.neg hf]
  split
  · rename_i hodd
    rw [biHasBit, if_pos hodd, beq_iff_eq]
    exact eq_comm
  · constructor
    · exact fun hx => hx.2.2.1
    · intro hx
      obtain ⟨-, h1, h2⟩ := hP x (h.mem x hx)
      exact ⟨h1, h2, hx, .inr hpos⟩

/-- Of a set of negative values just a 0 is written. -/
theorem sendVals_bi_neg {w : Nat} {P : Int → Prop} {bi : Bitint} (h : IntSet w P bi)
    (hP : ∀ x, P x → x ≠ 0) (hpos : bi.pos = 0) (fuel : Nat) :
    sendVals (biNext w bi) fuel = [0] := by
  have h0 : bi.neg % 2 ≠ 1 := by
    intro hb
    have hz : biHasBit w bi 0 = true := by
      simp [biHasBit, hpos, Nat.testBit_zero, hb]
    exact hP 0 (h.mem 0 hz) rfl
  have hn : biNext w bi 0 = (0, 0) := by simp [biNext, hpos, h0]
  rw [sendVals, hn]
  rcases fuel with _ | fuel
  · rfl
  · rw [drain, hn]
    rfl

/-! ### Wide sets -/

/-- Where a value is in the row of bits. -/
def bintsPos (n : Nat) (x : Int) : Nat := if 0 < x then x.toNat else 32 * n + (-x).toNat

/-- The values of a wide set. -/
def bintsHas (n : Nat) (bi : Bitints) (x : Int) : Prop :=
  match bi with
  | .native xs => x ∈ xs
  | .bits b => x < 32 * n ∧ b.testBit (bintsPos n x) = true

theorem bintsPos_inj {n : Nat} {x y : Int} (hx : x < 32 * n) (hy : y < 32 * n)
    (h : bintsPos n x = bintsPos n y) : x = y := by
  rw [bintsPos, bintsPos] at h
  split at h <;> split at h <;> omega

theorem testBit_assBs_pos {n b : Nat} {x y : Int} (hx : x < 32 * n) (hy : y < 32 * n) :
    (assBs n b x).testBit (bintsPos n y) = true ↔
      y = x ∨ b.testBit (bintsPos n y) = true := by
  rw [testBit_assBs_iff n]
  constructor
  · rintro (h | h)
    · exact .inr h
    · exact .inl (bintsPos_inj hy hx h)
  · rintro (rfl | h)
    · exact .inr rfl
    · exact .inl h

theorem foldl_assBs_pos {n : Nat} {xs : List Int} (hxs : ∀ x ∈ xs, x < 32 * n) {y : Int}
    (hy : y < 32 * n) : ∀ b, (xs.foldl (assBs n) b).testBit (bintsPos n y) = true ↔
      y ∈ xs ∨ b.testBit (bintsPos n y) = true := by
  induction xs with
  | nil => simp
  | cons x xs ih =>
      intro b
      rw [List.foldl_cons, ih (fun z hz => hxs z (List.mem_cons_of_mem _ hz)),
        testBit_assBs_pos (hxs x List.mem_cons_self) hy, List.mem_cons]
      tauto

/-- **Assigning to a wide set adds the value.** -/
theorem bintsHas_ass {n : Nat} (hn : 0 < n) {bi : Bitints} {x : Int} (hx : x < 32 * n)
    (hbi : ∀ y, bintsHas n bi y → y < 32 * n) (y : Int) :
    bintsHas n (assBints n bi x) y ↔ y = x ∨ bintsHas n bi y := by
  cases bi with
  | native xs =>
      rw [assBints]
      split
      · exact mem_assInt x xs y
      · have hone : ∀ y, (1 : Nat).testBit (bintsPos n y) = false := by
          intro y
          by_contra h
          have h0 := testBit_one_eq (by simpa using h)
          rw [bintsPos] at h0
          split at h0 <;> omega
        simp only [bintsHas]
        constructor
        · rintro ⟨hy, h⟩
          rw [testBit_assBs_pos hx hy, foldl_assBs_pos hbi hy, hone] at h
          simpa using h
        · intro h
          have hy : y < 32 * n := by
            rcases h with rfl | h
            · exact hx
            · exact hbi y h
          rw [testBit_assBs_pos hx hy, foldl_assBs_pos hbi hy]
          exact ⟨hy, by tauto⟩
  | bits b =>
      simp only [assBints, bintsHas]
      constructor
      · rintro ⟨hy, h⟩
        rw [testBit_assBs_pos hx hy] at h
        tauto
      · rintro (rfl | ⟨hy, h⟩)
        · exact ⟨hx, (testBit_assBs_pos hx hx).mpr (.inl rfl)⟩
        · exact ⟨hy, (testBit_assBs_pos hx hy).mpr (.inr h)⟩

/-- Iterating over the bits of a wide set yields its values, but the negative ones only where the last
bit of the positive ones is not set. -/
theorem mem_drain_bits {n : Nat} {P : Int → Prop} {b : Nat} (hn : 0 < n) (h : WideSet n P (.bits b))
    (hP : ∀ x, P x → -(32 * n : Int) < x ∧ x < 32 * n) {fuel : Nat} (hf : 64 * n ≤ fuel) (x : Int) :
    x ∈ drain (bintsNext n (.bits b)) fuel 0 ↔
      bintsHas n (.bits b) x ∧ (x < 0 → b.testBit (32 * n - 1) = false) := by
  obtain ⟨l, hl, -, hmem⟩ := drain_spec (R := BintsIter n b)
    (fun i hi => bintsNext_bits hn i hi) fuel 0 (Or.inl (by omega)) (by omega)
  have hval : ∀ i, b.testBit i = true → i = 0 ∨ P (bintsVal n i) := h.mem
  rw [hl, List.mem_map]
  constructor
  · rintro ⟨i, hi, rfl⟩
    obtain ⟨-, h64, hat⟩ := (hmem i).mp hi
    rcases hat with ⟨rfl, hb⟩ | ⟨h1, h32, hb⟩ | ⟨h32, hb, hlast⟩
    · have hv : bintsVal n 0 = 0 := by
        rw [bintsVal, if_pos (by omega)]
        rfl
      have hp : bintsPos n 0 = 32 * n := by simp [bintsPos]
      rw [hv]
      refine ⟨⟨by omega, ?_⟩, fun h0 => absurd h0 (lt_irrefl 0)⟩
      rwa [hp]
    · have hv : bintsVal n i = i := by rw [bintsVal, if_pos h32]
      have hp : bintsPos n i = i := by
        rw [bintsPos, if_pos (by omega)]
        rfl
      rw [hv]
      refine ⟨⟨by omega, ?_⟩, fun h0 => by omega⟩
      rwa [hp]
    · have hv : bintsVal n i = -((i - 32 * n : Nat) : Int) := by
        rw [bintsVal, if_neg (by omega)]
      have hp : bintsPos n (-((i - 32 * n : Nat) : Int)) = i := by
        rw [bintsPos, if_neg (by omega)]
        omega
      rw [hv]
      refine ⟨⟨by omega, ?_⟩, fun _ => hlast⟩
      rwa [hp]
  · rintro ⟨⟨hx, hb⟩, hreach⟩
    have hx' : bintsVal n (bintsPos n x) = x := bintsVal_at hx
    have hlo : -(32 * n : Int) < x := by
      rcases hval _ hb with h0 | hp
      · rw [bintsPos] at h0
        split at h0 <;> omega
      · rw [hx'] at hp
        exact (hP x hp).1
    by_cases h0 : x = 0
    · subst h0
      refine ⟨0, (hmem 0).mpr ⟨le_rfl, by omega, .inl ⟨rfl, hb⟩⟩, ?_⟩
      rw [bintsVal, if_pos (by omega)]
      rfl
    · refine ⟨bintsPos n x, (hmem _).mpr ⟨Nat.zero_le _, ?_, ?_⟩, hx'⟩
      · rw [bintsPos]
        split <;> omega
      · rw [bintsPos] at hb ⊢
        split
        · rename_i hpos
          rw [if_pos hpos] at hb
          exact .inr (.inl ⟨by omega, by omega, hb⟩)
        · rename_i hneg
          rw [if_neg hneg] at hb
          exact .inr (.inr ⟨by omega, hb, hreach (by omega)⟩)

/-- **Iterating over a wide set yields its values.** -/
theorem mem_drain_bints {n : Nat} {P : Int → Prop} {bi : Bitints} (hn : 0 < n)
    (h : WideSet n P bi) (hP : ∀ x, P x → -(32 * n : Int) < x ∧ x < 32 * n - 1) {fuel : Nat}
    (hf : 64 * n ≤ fuel) (x : Int) :
    x ∈ drain (bintsNext n bi) fuel 0 ↔ bintsHas n bi x := by
  cases bi with
  | native xs =>
      have hlen := h.small xs rfl
      rw [drain_native n xs fuel 0 (by omega), List.drop_zero]
      rfl
  | bits b =>
      rw [mem_drain_bits hn h (fun x hx => by have := hP x hx; omega) hf]
      refine and_iff_left fun _ => ?_
      by_contra ht
      rcases h.mem (32 * n - 1) (by simpa using ht) with h0 | hp
      · omega
      · have := (hP _ hp).2
        rw [bintsVal, if_pos (by omega)] at this
        omega

/-- A set of bits has a value. -/
def Nonvoid (n : Nat) (bi : Bitints) : Prop := ∀ b, bi = .bits b → ∃ x, bintsHas n bi x

theorem nonvoid_nil (n : Nat) : Nonvoid n .nil := fun b h => by cases h

theorem WideSet.has {n : Nat} {P : Int → Prop} {bi : Bitints} (h : WideSet n P bi)
    (hP : ∀ x, P x → x < 32 * n) (y : Int) (hy : bintsHas n bi y) : y < 32 * n := by
  cases bi with
  | native xs => exact hP y (h.mem y hy)
  | bits b => exact hy.1

theorem Nonvoid.ass {n : Nat} {P : Int → Prop} {bi : Bitints} (hn : 0 < n)
    (hP : ∀ x, P x → x < 32 * n) (h : WideSet n P bi) {x : Int} (hx : P x) :
    Nonvoid n (assBints n bi x) := fun _ _ =>
  ⟨x, (bintsHas_ass hn (hP x hx) (h.has hP) x).mpr (.inl rfl)⟩

/-- All the values of a wide set are written. -/
theorem mem_sendVals_bints {n : Nat} {P : Int → Prop} {bi : Bitints} (hn : 0 < n)
    (h : WideSet n P bi) (hP : ∀ x, P x → -(32 * n : Int) < x ∧ x < 32 * n - 1)
    (hv : Nonvoid n bi) (hb : bintsHasBits bi = true) {fuel : Nat} (hf : 64 * n ≤ fuel + 1)
    (x : Int) : x ∈ sendVals (bintsNext n bi) fuel ↔ bintsHas n bi x := by
  have hx : ∃ x, bintsHas n bi x := by
    cases bi with
    | native xs =>
        rcases xs with _ | ⟨x, xs⟩
        · simp [bintsHasBits] at hb
        · exact ⟨x, List.mem_cons_self⟩
    | bits b => exact hv b rfl
  have hne : (bintsNext n bi 0).2 ≠ 0 := by
    intro h0
    obtain ⟨y, hy⟩ := hx
    rw [← mem_drain_bints hn h hP hf, drain, if_pos h0] at hy
    cases hy
  rw [sendVals_eq hne, mem_drain_bints hn h hP hf]

/-! ### Sets that are read back -/

/-- What an unsigned set is read back as: the iterator is the narrow one in any case. -/
def rereadUints (w : Nat) (ok : Nat → Bool) (has : Bool) (bi : Nat) : Nat :=
  if has then
    (sendVals (bui31Next bi) 33).foldl (fun s v => if ok v then assBui w s v else s) 0
  else 0

/-- What a signed set is read back as. -/
def rereadInts (w fuel : Nat) (lim : Int) (bi : Bitint) : Bitint :=
  if biHasBits bi then
    (sendVals (biNext w bi) fuel).foldl
      (fun s v => if v ≠ 0 ∧ -lim ≤ v ∧ v ≤ lim then assBi w s v else s) ⟨0, 0⟩
  else ⟨0, 0⟩

/-- What a wide set is read back as. -/
def rereadBints (n fuel : Nat) (ok : Int → Prop) [DecidablePred ok] (bi : Bitints) : Bitints :=
  if bintsHasBits bi then
    (sendVals (bintsNext n bi) fuel).foldl (fun s v => if ok v then assBints n s v else s) .nil
  else .nil

theorem buiHasBit_zero (x : Nat) : buiHasBit 0 x = false := by simp [buiHasBit]

theorem biHasBit_zero (w : Nat) (x : Int) : biHasBit w ⟨0, 0⟩ x = false := by simp [biHasBit]

theorem bintsHas_nil (n : Nat) (x : Int) : ¬ bintsHas n .nil x := fun h => by cases h

section

variable {w : Nat} {P : Nat → Prop} {ok : Nat → Bool}

/-- What is read back is what is written and let through. -/
theorem has_rereadUints (hP : ∀ x, P x → x + 1 < w) (hok : ∀ x, ok x = true → P x) (bi x : Nat) :
    buiHasBit (rereadUints w ok true bi) x = true ↔
      x ∈ sendVals (bui31Next bi) 33 ∧ ok x = true := by
  have h := (foldl_has (R := fun s x => buiHasBit s x = true) (I := UintSet w P)
    (K := fun v => ok v = true) (f := assBui w) (fun s a hs ha => hs.ass hP (hok a ha))
    (sendVals (bui31Next bi) 33) 0 (uintSet_zero w P)).2 x
  simpa [rereadUints, buiHasBit_zero] using h

theorem has_sendVals_zero (x : Nat) : x ∈ sendVals (bui31Next 0) 33 ↔ x = 0 := by
  have h : sendVals (bui31Next 0) 33 = [0] := by decide
  simp [h]

/-- **A narrow set is read back.** -/
theorem rereadUints_narrow {w' : Nat} (hP : ∀ x, P x → x + 1 < w) (hok : ∀ x, ok x = true ↔ P x)
    {bi : Nat} (h : UintSet w' P bi) (hlt : bi < 2 ^ 32) (x : Nat) :
    buiHasBit (rereadUints w ok (bi != 0) bi) x = true ↔ buiHasBit bi x = true := by
  by_cases h0 : bi = 0
  · simp [h0, rereadUints]
  · have hne : (bi != 0) = true := by simpa using h0
    rw [hne, has_rereadUints hP (fun x hx => (hok x).mp hx), mem_sendVals_bui hlt h0]
    exact ⟨fun hx => hx.1, fun hx => ⟨hx, (hok x).mpr (h.mem x hx)⟩⟩

/-- **A set that is cut off loses a value.** -/
theorem rereadUints_cut (hP : ∀ x, P x → x + 1 < w) (hok : ∀ x, ok x = true ↔ P x)
    {bi : Nat} (h : UintSet 64 P bi) (hw : ∀ x, P x → x < 2 ^ 30) (has : Bool)
    (hsame : ∀ x, buiHasBit (rereadUints w ok has (bi % 2 ^ 32)) x = true ↔
      buiHasBit bi x = true) : bi < 2 ^ 32 := by
  by_contra hge
  have heven : bi % 2 ≠ 1 := by
    intro hodd
    have hx := hw _ (h.single hodd)
    rw [Nat.shiftRight_one] at hx
    omega
  obtain ⟨i, hi, hbit⟩ := Nat.exists_ge_and_testBit_of_ge_two_pow (Nat.not_lt.mp hge)
  obtain ⟨x, rfl⟩ : ∃ x, i = x + 1 := ⟨i - 1, by omega⟩
  have hx : buiHasBit bi x = true := by rwa [buiHasBit, if_neg heven]
  have hr := (hsame x).mpr hx
  cases has
  · simp [rereadUints, buiHasBit_zero] at hr
  · rw [has_rereadUints hP (fun x hx => (hok x).mp hx)] at hr
    obtain ⟨hmem, -⟩ := hr
    by_cases h0 : bi % 2 ^ 32 = 0
    · rw [h0, has_sendVals_zero] at hmem
      omega
    · rw [mem_sendVals_bui (Nat.mod_lt _ (by decide)) h0, buiHasBit,
        if_neg (by omega), Nat.testBit_mod_two_pow] at hmem
      simp at hmem
      omega

end

/-- What is read back is what is written and let through. -/
theorem has_rereadInts {w : Nat} (hw : 1 < w) {lim : Int} (hlim : lim < w) (fuel : Nat)
    {bi : Bitint} (hb : biHasBits bi = true) (x : Int) :
    biHasBit w (rereadInts w fuel lim bi) x = true ↔
      x ∈ sendVals (biNext w bi) fuel ∧ x ≠ 0 ∧ -lim ≤ x ∧ x ≤ lim := by
  have h := (foldl_has (R := fun s x => biHasBit w s x = true)
    (I := IntSet w fun x => x ≠ 0 ∧ -lim ≤ x ∧ x ≤ lim)
    (K := fun x => x ≠ 0 ∧ -lim ≤ x ∧ x ≤ lim) (f := assBi w)
    (fun s a hs ha => hs.ass hw (fun x hx => ⟨by omega, by omega⟩) ha)
    (sendVals (biNext w bi) fuel) ⟨0, 0⟩ (intSet_zero w _)).2 x
  simpa [rereadInts, hb, biHasBit_zero] using h

/-- **A signed set is read back unless it has negative values only, and two of them.** -/
theorem rereadInts_iff {w : Nat} (hw : 1 < w) {lim : Int} (hlim : lim < w) {fuel : Nat}
    (hf : 2 * w ≤ fuel + 1) {bi : Bitint}
    (h : IntSet w (fun x => x ≠ 0 ∧ -lim ≤ x ∧ x ≤ lim) bi) :
    (∀ x, biHasBit w (rereadInts w fuel lim bi) x = true ↔ biHasBit w bi x = true) ↔
      bi.pos ≠ 0 ∨ bi.neg = 0 := by
  by_cases hpos : bi.pos = 0
  · by_cases hneg : bi.neg = 0
    · obtain rfl : bi = ⟨0, 0⟩ := by
        cases bi
        simp_all
      simp [rereadInts, biHasBits]
    · have hb : biHasBits bi = true := by simp [biHasBits, hneg]
      obtain ⟨i, hi⟩ := Nat.exists_testBit_of_ne_zero hneg
      have hbit : biHasBit w bi (-(i : Int)) = true := by
        rw [biHasBit, if_neg (by simp [hpos]), if_neg (by omega)]
        simpa using hi
      constructor
      · intro hall
        have hx := (hall (-(i : Int))).mpr hbit
        rw [has_rereadInts hw hlim fuel hb, sendVals_bi_neg h (fun x hx => hx.1) hpos] at hx
        simp at hx
        omega
      · rintro (h' | h')
        · exact absurd hpos h'
        · exact absurd h' hneg
  · have hb : biHasBits bi = true := by simp [biHasBits, hpos]
    refine ⟨fun _ => .inl hpos, fun _ x => ?_⟩
    rw [has_rereadInts hw hlim fuel hb,
      mem_sendVals_bi hw h (fun x hx => ⟨hx.1, by omega, by omega⟩) hpos hf]
    exact ⟨fun hx => hx.1, fun hx => ⟨hx, h.mem x hx⟩⟩

theorem WideSet.sat {n : Nat} {P : Int → Prop} {bi : Bitints} (hn : 0 < n) (h : WideSet n P bi)
    {x : Int} (hx : bintsHas n bi x) : P x := by
  cases bi with
  | native xs => exact h.mem x hx
  | bits b =>
      have hpos : bintsPos n x ≠ 0 := by
        rw [bintsPos]
        split <;> omega
      have hp := (h.mem _ hx.2).resolve_left hpos
      rwa [bintsPos, bintsVal_at hx.1] at hp

theorem bintsHas_none {n : Nat} {bi : Bitints} (h : bintsHasBits bi = false) (x : Int) :
    ¬ bintsHas n bi x := by
  rcases bi with (_ | ⟨y, ys⟩) | b
  · exact bintsHas_nil n x
  · simp [bintsHasBits] at h
  · simp [bintsHasBits] at h

/-- **A wide set is read back.** -/
theorem rereadBints_has {n : Nat} (hn : 0 < n) {ok : Int → Prop} [DecidablePred ok] {bi : Bitints}
    (h : WideSet n ok bi) (hP : ∀ x, ok x → -(32 * n : Int) < x ∧ x < 32 * n - 1)
    (hv : Nonvoid n bi) {fuel : Nat} (hf : 64 * n ≤ fuel + 1) (x : Int) :
    bintsHas n (rereadBints n fuel ok bi) x ↔ bintsHas n bi x := by
  by_cases hb : bintsHasBits bi = true
  · have hlt : ∀ x, ok x → x < 32 * n := fun x hx => by
      have := (hP x hx).2
      omega
    have hr := (foldl_has (R := bintsHas n) (I := WideSet n ok) (K := ok)
      (f := assBints n)
      (fun s a hs ha => ⟨hs.ass hlt ha, bintsHas_ass hn (hlt a ha) (hs.has hlt)⟩)
      (sendVals (bintsNext n bi) fuel) .nil (wideSet_nil n ok)).2 x
    rw [rereadBints, if_pos hb, hr, mem_sendVals_bints hn h hP hv hb hf]
    constructor
    · rintro (⟨hx, -⟩ | hx)
      · exact hx
      · exact absurd hx (bintsHas_nil n x)
    · exact fun hx => .inl ⟨hx, h.sat hn hx⟩
  · have hb : bintsHasBits bi = false := by simpa using hb
    have hr : rereadBints n fuel ok bi = .nil := by simp [rereadBints, hb]
    rw [hr]
    exact iff_of_false (bintsHas_nil n x) (bintsHas_none hb x)

/-! ### Rules that have been read -/

/-- What the writer can do with a rule. -/
structure Rrulsp.Legible (rr : Rrulsp) : Prop where
  doy : Nonvoid 12 rr.doy
  pos : Nonvoid 12 rr.pos
  easter : Nonvoid 12 rr.easter
  dow : Nonvoid 14 rr.dow
  until_ : rr.until_ = echsMaxInstant ∨ Stampable rr.until_

theorem legible_empty {rr : Rrulsp} (hdoy : rr.doy = .nil) (hpos : rr.pos = .nil)
    (heaster : rr.easter = .nil) (hdow : rr.dow = .nil)
    (hu : rr.until_ = echsMaxInstant ∨ Stampable rr.until_) : rr.Legible where
  doy := by rw [hdoy]; exact nonvoid_nil _
  pos := by rw [hpos]; exact nonvoid_nil _
  easter := by rw [heaster]; exact nonvoid_nil _
  dow := by rw [hdow]; exact nonvoid_nil _
  until_ := hu

/-- Values that are assigned to a set make it a set that has some. -/
theorem nonvoid_snarfList {n : Nat} (hn : 0 < n) {P : Int → Prop} {ok : Int → Prop}
    [DecidablePred ok] (hP : ∀ x, P x → x < 32 * n) (hok : ∀ x, ok x → P x) {bi : Bitints}
    (h : WideSet n P bi) (hv : Nonvoid n bi) (fuel : Nat) (kv : List Char) :
    Nonvoid n (snarfList strtol (fun s v => if ok v then assBints n s v else s) fuel kv bi) := by
  refine (snarfList_induct (P := fun s => WideSet n P s ∧ Nonvoid n s) ?_ fuel kv bi ⟨h, hv⟩).2
  intro s a hs
  split
  · rename_i ha
    exact ⟨hs.1.ass hP (hok a ha), .ass hn hP hs.1 (hok a ha)⟩
  · exact hs

theorem isCd_lt {x : Int} (h : IsCd x) : -(32 * 14 : Int) < x ∧ x < 32 * 14 - 1 := by
  obtain ⟨h1, h2, h3⟩ := h
  omega

theorem nonvoid_snarfWdays (fuel : Nat) : ∀ (kv : List Char) (bi : Bitints),
    WideSet 14 IsCd bi → Nonvoid 14 bi → Nonvoid 14 (snarfWdays fuel kv bi) := by
  induction fuel with
  | zero => exact fun kv bi _ h => h
  | succ fuel ih =>
      intro kv bi h hv
      rw [snarfWdays_succ, pastComma]
      by_cases hw : snarfWday (strtol kv).2 ≠ wdayMir ∧ -53 ≤ (strtol kv).1 ∧ (strtol kv).1 ≤ 53
      · have hle := snarfWday_le (strtol kv).2
        have hcd : IsCd (packCd ⟨(strtol kv).1, snarfWday (strtol kv).2⟩) := by
          rw [IsCd, packCd]
          rw [wdayMir] at hw
          dsimp only
          omega
        have hlt : ∀ x, IsCd x → x < 32 * (14 : Nat) := fun x hx => by
          have := (isCd_lt hx).2
          omega
        rw [if_pos hw]
        split
        · exact .ass (by decide) hlt h hcd
        · exact ih _ _ (h.ass hlt hcd) (.ass (by decide) hlt h hcd)
      · rw [if_neg hw]
        split
        · exact hv
        · exact ih _ _ h hv

theorem snarfPart_legible {k : RrulKey} {kv : List Char} {rr rr' : Rrulsp} (hr : rr.Ranged)
    (h : rr.Legible) (hp : snarfPart k kv rr = some rr') : rr'.Legible := by
  obtain ⟨hdoy, hpos, heaster, hdow, hu⟩ := h
  cases k with
  | byYday =>
      cases hp
      refine ⟨nonvoid_snarfList (by decide) ?_ (fun x hx => hx) hr.doy hdoy _ _, hpos, heaster,
        hdow, hu⟩
      omega
  | byPos =>
      cases hp
      refine ⟨hdoy, nonvoid_snarfList (by decide) ?_ (fun x hx => hx) hr.pos hpos _ _, heaster,
        hdow, hu⟩
      omega
  | byEaster =>
      cases hp
      refine ⟨hdoy, hpos, nonvoid_snarfList (by decide) ?_ (fun x hx => hx) hr.easter heaster _ _,
        hdow, hu⟩
      omega
  | byWday =>
      cases hp
      exact ⟨hdoy, hpos, heaster, nonvoid_snarfWdays _ _ _ hr.dow hdow, hu⟩
  | until_ =>
      cases hp
      exact ⟨hdoy, hpos, heaster, hdow, .inr (stampable_dtStrp kv 0)⟩
  | count =>
      simp only [snarfPart] at hp
      split at hp
      · cases hp
      · cases hp
        exact ⟨hdoy, hpos, heaster, hdow, hu⟩
  | inter =>
      simp only [snarfPart] at hp
      split at hp
      · cases hp
      · cases hp
        exact ⟨hdoy, hpos, heaster, hdow, hu⟩
  | _ =>
      cases hp
      exact ⟨hdoy, hpos, heaster, hdow, hu⟩

/-- **Every rule that has been read is one that can be written.** -/
theorem snarfRrule_legible (s : List Char) : (snarfRrule s).Legible := by
  refine (snarfRrule_induct (P := fun rr => rr.Ranged ∧ rr.Legible) ?_ ?_ ?_ s).2
  · exact fun k kv rr rr' h hp => ⟨snarfPart_ranged h.1 hp, snarfPart_legible h.1 h.2 hp⟩
  · exact ⟨ranged_empty rfl rfl rfl rfl rfl rfl rfl rfl rfl rfl,
      legible_empty rfl rfl rfl rfl (.inl rfl)⟩
  · exact ⟨ranged_empty rfl rfl rfl rfl rfl rfl rfl rfl rfl rfl,
      legible_empty rfl rfl rfl rfl (.inr (stampable_pack (by decide) (by decide) (by decide)
        (.inr (by decide))))⟩

end Echse
