/-
What iterating over a set yields.

Every iterator goes through positions, and a position stands for a value.  A set is
described by the positions that are occupied, and `drain_spec` says of any iterator that
goes from one occupied position to the next that it yields the values in this order,
each once.
-/
import Echse.Bitint

namespace Echse

/-! ### Scanning for bits -/

theorem scanBit_spec (b : Nat) (fuel : Nat) : ∀ i : Nat,
    i ≤ scanBit b fuel i ∧ scanBit b fuel i ≤ i + fuel ∧
      (∀ k, i ≤ k → k < scanBit b fuel i → b.testBit k = false) ∧
      (scanBit b fuel i < i + fuel → b.testBit (scanBit b fuel i) = true) := by
  induction fuel with
  | zero => intro i; simp [scanBit]; omega
  | succ fuel ih =>
      intro i
      unfold scanBit
      split
      · rename_i h
        exact ⟨le_rfl, by omega, fun k h1 h2 => by omega, fun _ => h⟩
      · rename_i h
        obtain ⟨h1, h2, h3, h4⟩ := ih (i + 1)
        refine ⟨by omega, by omega, fun k hk hk' => ?_, fun hlt => h4 (by omega)⟩
        rcases Nat.eq_or_lt_of_le hk with rfl | hk
        · simpa using h
        · exact h3 k (by omega) hk'

theorem nextBit_some {b lo hi p : Nat} (h : nextBit b lo hi = some p) :
    lo ≤ p ∧ p < hi ∧ b.testBit p = true ∧ ∀ k, lo ≤ k → k < p → b.testBit k = false := by
  unfold nextBit at h
  split at h
  · cases h
    obtain ⟨h1, h2, h3, h4⟩ := scanBit_spec b (hi - lo) lo
    exact ⟨h1, by assumption, h4 (by omega), h3⟩
  · cases h

theorem nextBit_none {b lo hi : Nat} (h : nextBit b lo hi = none) :
    ∀ k, lo ≤ k → k < hi → b.testBit k = false := by
  unfold nextBit at h
  split at h
  · cases h
  · obtain ⟨h1, h2, h3, h4⟩ := scanBit_spec b (hi - lo) lo
    intro k hk hk'
    exact h3 k hk (by omega)

theorem scanBit_of_ne_zero {b w i : Nat} (hb : b < 2 ^ w) (h : b >>> i ≠ 0) :
    i ≤ scanBit b w i ∧ scanBit b w i < w ∧ b.testBit (scanBit b w i) = true ∧
      ∀ k, i ≤ k → k < scanBit b w i → b.testBit k = false := by
  obtain ⟨j, hj⟩ := Nat.exists_testBit_of_ne_zero h
  rw [Nat.testBit_shiftRight] at hj
  have hjw : i + j < w := by
    by_contra hge
    have hlt := Nat.testBit_lt_two_pow (i := i + j)
      (lt_of_lt_of_le hb (Nat.pow_le_pow_right (by decide) (by omega)))
    rw [hj] at hlt
    cases hlt
  obtain ⟨h1, h2, h3, h4⟩ := scanBit_spec b w i
  have hle : scanBit b w i ≤ i + j := by
    by_contra hgt
    have := h3 (i + j) (by omega) (by omega)
    rw [hj] at this
    cases this
  exact ⟨h1, by omega, h4 (by omega), h3⟩

theorem testBit_of_shiftRight_eq_zero {b i : Nat} (h : b >>> i = 0) :
    ∀ k, i ≤ k → b.testBit k = false := by
  intro k hk
  have hz := Nat.testBit_shiftRight (i := i) (j := k - i) b
  rw [h, Nat.zero_testBit, show i + (k - i) = k by omega] at hz
  exact hz.symm

/-! ### Draining an iterator -/

/-- **An iterator that goes from one occupied position to the next yields them all**, in
this order.  `P` tells the occupied positions, `R` the ones the iterator can be at. -/
theorem drain_spec {α : Type} {next : Nat → α × Nat} {val : Nat → α} {P R : Nat → Prop}
    {hi : Nat}
    (hnext : ∀ i, R i →
      (∃ j k, i ≤ j ∧ j < k ∧ j < hi ∧ P j ∧ (∀ x, i ≤ x → x < k → P x → x = j) ∧
        next i = (val j, k) ∧ R k) ∨
      ((∀ x, i ≤ x → x < hi → ¬ P x) ∧ (next i).2 = 0))
    (fuel : Nat) : ∀ i, R i → hi ≤ fuel + i →
      ∃ l : List Nat, drain next fuel i = l.map val ∧ l.Pairwise (· < ·) ∧
        ∀ x, x ∈ l ↔ i ≤ x ∧ x < hi ∧ P x := by
  induction fuel with
  | zero =>
      intro i _ hf
      refine ⟨[], rfl, List.Pairwise.nil, fun x => ?_⟩
      constructor
      · intro h; cases h
      · rintro ⟨h1, h2, -⟩; omega
  | succ fuel ih =>
      intro i hi hf
      unfold drain
      rcases hnext i hi with ⟨j, k, hij, hjk, hjhi, hPj, honly, hn, hRk⟩ | ⟨hno, hn⟩
      · obtain ⟨l, hl, hsorted, hmem⟩ := ih k hRk (by omega)
        refine ⟨j :: l, ?_, ?_, ?_⟩
        · rw [hn, if_neg (by dsimp only; omega)]
          simp [hl]
        · refine List.pairwise_cons.mpr ⟨fun x hx => ?_, hsorted⟩
          have := ((hmem x).mp hx).1
          omega
        · intro x
          rw [List.mem_cons, hmem]
          constructor
          · rintro (rfl | ⟨h1, h2, h3⟩)
            · exact ⟨hij, hjhi, hPj⟩
            · exact ⟨by omega, h2, h3⟩
          · rintro ⟨h1, h2, h3⟩
            by_cases hxk : x < k
            · exact Or.inl (honly x h1 hxk h3)
            · exact Or.inr ⟨by omega, h2, h3⟩
      · refine ⟨[], ?_, List.Pairwise.nil, fun x => ?_⟩
        · rw [if_pos hn]
          rfl
        · constructor
          · intro h; cases h
          · rintro ⟨h1, h2, h3⟩; exact absurd h3 (hno x h1 h2)

/-! ### Unsigned sets -/

theorem buiNext_bits {w bi : Nat} (hw : bi < 2 ^ w) (heven : bi % 2 = 0) (i : Nat) :
    (∃ j k, i ≤ j ∧ j < k ∧ j < w ∧ (bi >>> 1).testBit j = true ∧
        (∀ x, i ≤ x → x < k → (bi >>> 1).testBit x = true → x = j) ∧
        buiNext w bi i = (j, k) ∧ True) ∨
      ((∀ x, i ≤ x → x < w → ¬ (bi >>> 1).testBit x = true) ∧ (buiNext w bi i).2 = 0) := by
  unfold buiNext
  rw [if_neg (by omega)]
  by_cases h : bi >>> 1 >>> i = 0
  · refine Or.inr ⟨fun x hx _ hb => ?_, by simp [h]⟩
    rw [testBit_of_shiftRight_eq_zero h x hx] at hb
    cases hb
  · refine Or.inl ?_
    have hlt : bi >>> 1 < 2 ^ w :=
      lt_of_le_of_lt (by rw [Nat.shiftRight_eq_div_pow]; exact Nat.div_le_self _ _) hw
    obtain ⟨h1, h2, h3, h4⟩ := scanBit_of_ne_zero hlt h
    refine ⟨scanBit (bi >>> 1) w i, scanBit (bi >>> 1) w i + 1, h1, by omega, h2, h3, ?_,
      by rw [if_pos h], trivial⟩
    intro x hx hxk hb
    by_contra hne
    rw [h4 x hx (by omega)] at hb
    cases hb

/-- The values of an unsigned set come in ascending order, and are members. -/
theorem buiList_spec {w bi : Nat} (hw : bi < 2 ^ w) {fuel : Nat} (hf : w + 1 ≤ fuel) :
    (drain (buiNext w bi) fuel 0).Pairwise (· < ·) ∧
      ∀ x, x ∈ drain (buiNext w bi) fuel 0 → buiHasBit bi x = true := by
  by_cases hodd : bi % 2 = 1
  · -- a value of its own
    obtain ⟨f, rfl⟩ : ∃ f, fuel = f + 2 := by
      have : 1 ≤ w := by
        by_contra h
        have hw0 : w = 0 := by omega
        subst hw0
        have : bi < 1 := hw
        omega
      exact ⟨fuel - 2, by omega⟩
    have h0 : buiNext w bi 0 = (bi >>> 1, bi >>> 1) := by simp [buiNext, hodd]
    unfold drain
    rw [h0]
    dsimp only
    split
    · simp
    · rename_i hne
      have h1 : buiNext w bi (bi >>> 1) = (0, 0) := by simp [buiNext, hodd, hne]
      unfold drain
      rw [h1]
      simp [buiHasBit, hodd]
  · obtain ⟨l, hl, hsorted, hmem⟩ := drain_spec (R := fun _ => True)
      (fun i _ => buiNext_bits hw (by omega) i) fuel 0 trivial (by omega)
    rw [List.map_id' l] at hl
    rw [hl]
    refine ⟨hsorted, fun x hx => ?_⟩
    have := ((hmem x).mp hx).2.2
    unfold buiHasBit
    rw [if_neg hodd]
    rwa [Nat.testBit_shiftRight, Nat.add_comm] at this

/-! ### Signed sets

Position 0 is for 0, positions below `w` are for the positive values and those above for
the negative ones.  The negative ones are only come to past a positive one.
-/

/-- The value a position stands for. -/
def biVal (w i : Nat) : Int := if i ≤ w then (i : Int) else -((i - w : Nat) : Int)

/-- The occupied positions that the iterator can come to. -/
def BiAt (w : Nat) (bi : Bitint) (i : Nat) : Prop :=
  (i = 0 ∧ bi.neg.testBit 0 = true) ∨ (1 ≤ i ∧ i < w ∧ bi.pos.testBit i = true) ∨
    (w < i ∧ bi.neg.testBit (i - w) = true ∧ bi.pos ≠ 0)

/-- Where the iterator can be. -/
def BiIter (w : Nat) (bi : Bitint) (i : Nat) : Prop :=
  (i < w ∧ (bi.pos = 0 ∨ bi.pos >>> i ≠ 0)) ∨ (w < i ∧ bi.pos ≠ 0)

theorem biNext_bits {w : Nat} {bi : Bitint} (hw : 1 < w) (hpos : bi.pos < 2 ^ w)
    (hneg : bi.neg < 2 ^ w) (heven : bi.pos % 2 = 0) (i : Nat) (hi : BiIter w bi i) :
    (∃ j k, i ≤ j ∧ j < k ∧ j < 2 * w ∧ BiAt w bi j ∧
        (∀ x, i ≤ x → x < k → BiAt w bi x → x = j) ∧
        biNext w bi i = (biVal w j, k) ∧ BiIter w bi k) ∨
      ((∀ x, i ≤ x → x < 2 * w → ¬ BiAt w bi x) ∧ (biNext w bi i).2 = 0) := by
  have hsucc : ∀ j, bi.pos >>> (j + 1) = bi.pos >>> j / 2 := fun j => Nat.shiftRight_succ _ _
  unfold biNext
  rw [if_neg (by omega)]
  by_cases h0 : i = 0 ∧ bi.neg % 2 = 1
  · -- the naught
    obtain ⟨rfl, hodd⟩ := h0
    rw [if_pos ⟨rfl, hodd⟩]
    refine Or.inl ⟨0, 1, le_rfl, Nat.one_pos, by omega, Or.inl ⟨rfl, ?_⟩, ?_, ?_, ?_⟩
    · rw [Nat.testBit_zero]; simp [hodd]
    · intro x _ hx _; omega
    · simp [biVal]
    · refine Or.inl ⟨by omega, ?_⟩
      by_cases hp : bi.pos = 0
      · exact Or.inl hp
      · refine Or.inr ?_
        rw [hsucc 0, Nat.shiftRight_zero]
        omega
  · rw [if_neg h0]
    by_cases hp : i < w ∧ bi.pos >>> i ≠ 0
    · -- a positive value
      obtain ⟨hiw, hne⟩ := hp
      rw [if_pos ⟨hiw, hne⟩]
      obtain ⟨h1, h2, h3, h4⟩ := scanBit_of_ne_zero hpos hne
      set j := scanBit bi.pos w i
      have hj1 : 1 ≤ j := by
        by_contra hj
        have hj0 : j = 0 := by omega
        rw [hj0, Nat.testBit_zero] at h3
        simp [heven] at h3
      have hp0 : bi.pos ≠ 0 := by
        intro h
        rw [h, Nat.zero_testBit] at h3
        cases h3
      refine Or.inl ⟨j, if 1 < bi.pos >>> j then j + 1 else w + 1, h1, ?_, by omega,
        Or.inr (Or.inl ⟨hj1, h2, h3⟩), ?_, ?_, ?_⟩
      · split <;> omega
      · intro x hx hxk hat
        rcases hat with ⟨rfl, hn⟩ | ⟨hx1, hxw, hb⟩ | ⟨hwx, -, -⟩
        · refine absurd ⟨by omega, ?_⟩ h0
          rw [Nat.testBit_zero] at hn
          simpa using hn
        · by_contra hne'
          rcases Nat.lt_or_ge x j with hlt | hge
          · rw [h4 x hx hlt] at hb; cases hb
          · split at hxk
            · omega
            · -- nothing is left past the last positive value
              rename_i hlast
              have hz : bi.pos >>> (j + 1) = 0 := by
                rw [hsucc]
                exact Nat.div_eq_of_lt (Nat.lt_succ_of_le (Nat.not_lt.mp hlast))
              rw [testBit_of_shiftRight_eq_zero hz x (by omega)] at hb
              cases hb
        · split at hxk <;> omega
      · simp [biVal, show j ≤ w by omega]
      · split
        · rename_i hmore
          have hne' : bi.pos >>> (j + 1) ≠ 0 := by rw [hsucc]; omega
          refine Or.inl ⟨?_, Or.inr hne'⟩
          by_contra hge
          refine hne' ?_
          rw [Nat.shiftRight_eq_div_pow]
          exact Nat.div_eq_of_lt (lt_of_lt_of_le hpos (Nat.pow_le_pow_right (by decide) (by omega)))
        · exact Or.inr ⟨by omega, hp0⟩
    · rw [if_neg hp]
      by_cases hn : w < i ∧ i < 2 * w ∧ bi.neg >>> (i - w) ≠ 0
      · -- a negative value
        obtain ⟨hwi, hi2, hne⟩ := hn
        have hp0 : bi.pos ≠ 0 := by
          rcases hi with ⟨h, -⟩ | ⟨-, h⟩
          · omega
          · exact h
        rw [if_pos ⟨hwi, hi2, hne⟩]
        obtain ⟨h1, h2, h3, h4⟩ := scanBit_of_ne_zero hneg hne
        set j := scanBit bi.neg w (i - w)
        refine Or.inl ⟨w + j, w + j + 1, by omega, by omega, by omega,
          Or.inr (Or.inr ⟨by omega, ?_, hp0⟩), ?_, ?_, Or.inr ⟨by omega, hp0⟩⟩
        · rwa [show w + j - w = j by omega]
        · intro x hx hxk hat
          rcases hat with ⟨rfl, -⟩ | ⟨-, hxw, -⟩ | ⟨hwx, hb, -⟩
          · omega
          · omega
          · by_contra hne'
            rw [h4 (x - w) (by omega) (by omega)] at hb
            cases hb
        · simp only [biVal, show ¬ w + j ≤ w by omega, if_false, Nat.add_sub_cancel_left]
      · rw [if_neg hn]
        refine Or.inr ⟨fun x hx hx2 hat => ?_, rfl⟩
        rcases hat with ⟨rfl, hb⟩ | ⟨hx1, hxw, hb⟩ | ⟨hwx, hb, hp0⟩
        · refine h0 ⟨by omega, ?_⟩
          rw [Nat.testBit_zero] at hb
          simpa using hb
        · have hz : bi.pos >>> i = 0 := by
            by_contra hne
            exact hp ⟨by omega, hne⟩
          rw [testBit_of_shiftRight_eq_zero hz x hx] at hb
          cases hb
        · rcases hi with ⟨hiw, hpz | hpz⟩ | ⟨hwi, -⟩
          · exact hp0 hpz
          · exact hp ⟨hiw, hpz⟩
          · have hz : bi.neg >>> (i - w) = 0 := by
              by_contra hne
              exact hn ⟨hwi, by omega, hne⟩
            rw [testBit_of_shiftRight_eq_zero hz (x - w) (by omega)] at hb
            cases hb

/-- What iterating over a signed set yields are members; and it yields all of them unless
they are negative and there is no positive one. -/
theorem mem_biList {w : Nat} {bi : Bitint} (hw : 1 < w) (hpos : bi.pos < 2 ^ w)
    (hneg : bi.neg < 2 ^ w) {fuel : Nat} (hf : 2 * w ≤ fuel) (x : Int) :
    x ∈ drain (biNext w bi) fuel 0 ↔
      if bi.pos % 2 = 1 then x = intOfWord w bi.neg
      else -(w : Int) < x ∧ x < w ∧ biHasBit w bi x = true ∧ (0 ≤ x ∨ bi.pos ≠ 0) := by
  split
  · rename_i hodd
    obtain ⟨f, rfl⟩ : ∃ f, fuel = f + 2 := ⟨fuel - 2, by omega⟩
    have h0 : biNext w bi 0 = (intOfWord w bi.neg, 1) := by simp [biNext, hodd]
    have h1 : biNext w bi 1 = (0, 0) := by simp [biNext, hodd]
    unfold drain
    rw [h0]
    dsimp only
    rw [if_neg (by decide)]
    unfold drain
    rw [h1]
    simp
  · rename_i hodd
    have hstart : BiIter w bi 0 := Or.inl ⟨by omega, by
      rw [Nat.shiftRight_zero]; exact em _⟩
    obtain ⟨l, hl, -, hmem⟩ := drain_spec (R := BiIter w bi)
      (fun i hi => biNext_bits hw hpos hneg (by omega) i hi) fuel 0 hstart (by omega)
    rw [hl, List.mem_map]
    unfold biHasBit
    rw [if_neg hodd]
    constructor
    · rintro ⟨i, hi, rfl⟩
      obtain ⟨-, hi2, hat⟩ := (hmem i).mp hi
      unfold biVal
      rcases hat with ⟨rfl, hb⟩ | ⟨hi1, hiw, hb⟩ | ⟨hwi, hb, hp0⟩
      · simp [hb]
        omega
      · rw [if_pos (by omega), if_pos (by omega)]
        refine ⟨by omega, by omega, ?_, Or.inl (by omega)⟩
        simpa using hb
      · rw [if_neg (by omega), if_neg (by omega)]
        refine ⟨by omega, by omega, ?_, Or.inr hp0⟩
        simpa using hb
    · rintro ⟨hlo, hhi, hb, hreach⟩
      by_cases hx : 0 < x
      · rw [if_pos hx] at hb
        refine ⟨x.toNat, (hmem _).mpr ⟨by omega, by omega, Or.inr (Or.inl ⟨by omega, by omega, hb⟩)⟩,
          ?_⟩
        unfold biVal
        rw [if_pos (by omega)]
        omega
      · rw [if_neg hx] at hb
        by_cases hx0 : x = 0
        · subst hx0
          exact ⟨0, (hmem _).mpr ⟨le_rfl, by omega, Or.inl ⟨rfl, by simpa using hb⟩⟩, by simp [biVal]⟩
        · refine ⟨w + (-x).toNat, (hmem _).mpr ⟨by omega, by omega, Or.inr (Or.inr ⟨by omega, ?_, ?_⟩)⟩,
            ?_⟩
          · rwa [show w + (-x).toNat - w = (-x).toNat by omega]
          · exact hreach.resolve_left (by omega)
          · unfold biVal
            rw [if_neg (by omega)]
            omega

/-! ### Wide sets

Position 0 is for 0, positions below `32 * n` are for the positive values, those above
for the negative ones, which are not come to past the last positive position.
-/

/-- The value a row position stands for. -/
def bintsVal (n i : Nat) : Int := if i < 32 * n then (i : Int) else -((i - 32 * n : Nat) : Int)

/-- The occupied positions that the iterator can come to. -/
def BintsAt (n b i : Nat) : Prop :=
  (i = 0 ∧ b.testBit (32 * n) = true) ∨ (1 ≤ i ∧ i < 32 * n ∧ b.testBit i = true) ∨
    (32 * n < i ∧ b.testBit i = true ∧ b.testBit (32 * n - 1) = false)

/-- Where the iterator can be. -/
def BintsIter (n b i : Nat) : Prop :=
  i < 32 * n ∨ (i = 32 * n ∧ b.testBit (32 * n - 1) = true) ∨
    (32 * n < i ∧ b.testBit (32 * n - 1) = false)

theorem bintsNextNeg_spec {n b i lo : Nat} (hlo : 32 * n < lo) (hi : i ≤ lo)
    (hlast : b.testBit (32 * n - 1) = false) (hbefore : ∀ x, i ≤ x → x < lo → ¬ BintsAt n b x) :
    (∃ j k, i ≤ j ∧ j < k ∧ j < 64 * n ∧ BintsAt n b j ∧
        (∀ x, i ≤ x → x < k → BintsAt n b x → x = j) ∧
        bintsNextNeg n b lo = (bintsVal n j, k) ∧ BintsIter n b k) ∨
      ((∀ x, i ≤ x → x < 64 * n → ¬ BintsAt n b x) ∧ (bintsNextNeg n b lo).2 = 0) := by
  unfold bintsNextNeg
  cases h : nextBit b lo (64 * n) with
  | some p =>
      obtain ⟨h1, h2, h3, h4⟩ := nextBit_some h
      refine Or.inl ⟨p, p + 1, by omega, by omega, h2, Or.inr (Or.inr ⟨by omega, h3, hlast⟩), ?_,
        ?_, Or.inr (Or.inr ⟨by omega, hlast⟩)⟩
      · intro x hx hxp hat
        by_contra hne
        rcases Nat.lt_or_ge x lo with hxlo | hxlo
        · exact hbefore x hx hxlo hat
        · rcases hat with ⟨rfl, -⟩ | ⟨-, hx32, -⟩ | ⟨-, hb, -⟩
          · omega
          · omega
          · rw [h4 x hxlo (by omega)] at hb
            cases hb
      · simp only [bintsVal, show ¬ p < 32 * n by omega, if_false]
  | none =>
      refine Or.inr ⟨fun x hx hx64 hat => ?_, rfl⟩
      rcases Nat.lt_or_ge x lo with hxlo | hxlo
      · exact hbefore x hx hxlo hat
      · rcases hat with ⟨rfl, -⟩ | ⟨-, hx32, -⟩ | ⟨-, hb, -⟩
        · omega
        · omega
        · rw [nextBit_none h x hxlo hx64] at hb
          cases hb

theorem bintsNext_bits {n b : Nat} (hn : 0 < n) (i : Nat) (hi : BintsIter n b i) :
    (∃ j k, i ≤ j ∧ j < k ∧ j < 64 * n ∧ BintsAt n b j ∧
        (∀ x, i ≤ x → x < k → BintsAt n b x → x = j) ∧
        bintsNext n (.bits b) i = (bintsVal n j, k) ∧ BintsIter n b k) ∨
      ((∀ x, i ≤ x → x < 64 * n → ¬ BintsAt n b x) ∧ (bintsNext n (.bits b) i).2 = 0) := by
  unfold bintsNext
  dsimp only
  by_cases h0 : i = 0 ∧ b.testBit (32 * n) = true
  · -- the naught
    obtain ⟨rfl, hb⟩ := h0
    rw [if_pos ⟨rfl, hb⟩]
    refine Or.inl ⟨0, 1, le_rfl, Nat.one_pos, by omega, Or.inl ⟨rfl, hb⟩, ?_, ?_,
      Or.inl (by omega)⟩
    · intro x _ hx _; omega
    · simp [bintsVal, show 0 < 32 * n by omega]
  · rw [if_neg h0]
    generalize hit : (if i = 0 then 1 else i) = it
    have hit' : i ≤ it ∧ 1 ≤ it ∧ (it = i ∨ (i = 0 ∧ it = 1)) := by
      split at hit <;> omega
    -- no position between the two is occupied
    have hgap : ∀ x, i ≤ x → x < it → ¬ BintsAt n b x := by
      rintro x hx hxit (⟨rfl, hb⟩ | ⟨hx1, -, -⟩ | ⟨hx32, -, -⟩)
      · exact h0 ⟨by omega, hb⟩
      · omega
      · omega
    by_cases hlt : it < 32 * n
    · rw [if_pos hlt]
      cases hnb : nextBit b it (32 * n) with
      | some p =>
          obtain ⟨h1, h2, h3, h4⟩ := nextBit_some hnb
          refine Or.inl ⟨p, p + 1, by omega, by omega, by omega,
            Or.inr (Or.inl ⟨by omega, h2, h3⟩), ?_, ?_, ?_⟩
          · intro x hx hxp hat
            by_contra hne
            rcases Nat.lt_or_ge x it with hxit | hxit
            · exact hgap x hx hxit hat
            · rcases hat with ⟨rfl, -⟩ | ⟨-, -, hb⟩ | ⟨hx32, -, -⟩
              · omega
              · rw [h4 x hxit (by omega)] at hb
                cases hb
              · omega
          · simp [bintsVal, h2]
          · rcases Nat.eq_or_lt_of_le (Nat.succ_le_of_lt h2) with he | hl
            · refine Or.inr (Or.inl ⟨he, ?_⟩)
              rwa [show 32 * n - 1 = p by omega]
            · exact Or.inl hl
      | none =>
          have hlast := nextBit_none hnb (32 * n - 1) (by omega) (by omega)
          refine bintsNextNeg_spec (by omega) (by omega) hlast fun x hx hx32 hat => ?_
          rcases Nat.lt_or_ge x it with hxit | hxit
          · exact hgap x hx hxit hat
          · rcases hat with ⟨rfl, -⟩ | ⟨-, hxn, hb⟩ | ⟨hxn, -, -⟩
            · omega
            · rw [nextBit_none hnb x hxit hxn] at hb
              cases hb
            · omega
    · rw [if_neg hlt]
      have hiit : it = i := by omega
      subst hiit
      by_cases hneg : 32 * n < it ∧ it < 64 * n
      · rw [if_pos hneg]
        have hlast : b.testBit (32 * n - 1) = false := by
          rcases hi with h | ⟨h, -⟩ | ⟨-, h⟩
          · omega
          · omega
          · exact h
        exact bintsNextNeg_spec hneg.1 le_rfl hlast fun x hx hx' _ => by omega
      · rw [if_neg hneg]
        refine Or.inr ⟨fun x hx hx64 hat => ?_, rfl⟩
        rcases hat with ⟨rfl, -⟩ | ⟨-, hxn, -⟩ | ⟨hxn, -, hlast⟩
        · omega
        · omega
        · rcases hi with h | ⟨h, hl⟩ | ⟨h, -⟩
          · omega
          · rw [hl] at hlast; cases hlast
          · exact hneg ⟨h, by omega⟩

theorem drain_native (n : Nat) (xs : List Int) (fuel : Nat) :
    ∀ i, xs.length ≤ fuel + i → drain (bintsNext n (.native xs)) fuel i = xs.drop i := by
  induction fuel with
  | zero => intro i h; simp [drain, List.drop_eq_nil_of_le (by omega : xs.length ≤ i)]
  | succ fuel ih =>
      intro i h
      unfold drain
      cases hx : xs[i]? with
      | none =>
          have hn : bintsNext n (.native xs) i = (0, 0) := by simp [bintsNext, hx]
          rw [hn, if_pos rfl, List.drop_eq_nil_of_le (List.getElem?_eq_none_iff.mp hx)]
      | some x =>
          have hn : bintsNext n (.native xs) i = (x, i + 1) := by simp [bintsNext, hx]
          obtain ⟨hlt, hget⟩ := List.getElem?_eq_some_iff.mp hx
          rw [hn, if_neg (by simp), ih (i + 1) (by omega), List.drop_eq_getElem_cons hlt, hget]

/-! ### Sets of candidates

These hold positive codes up to 383, and then they behave as sets.
-/

/-- A set that nothing but codes has been assigned to. -/
def CodeSet : Bitints → Prop
  | .native xs => xs.length ≤ 12 ∧ xs.Pairwise (· < ·) ∧ ∀ x ∈ xs, 1 ≤ x ∧ x ≤ 383
  | .bits b => ∀ i, b.testBit i = true → i ≤ 383

theorem codeSet_nil : CodeSet .nil := by
  refine ⟨by decide, List.Pairwise.nil, fun x hx => by cases hx⟩

theorem bi383List_native {xs : List Int} (h : xs.length ≤ 12) : bi383List (.native xs) = xs := by
  show drain (bintsNext 12 (.native xs)) 769 0 = xs
  rw [drain_native 12 xs 769 0 (by omega), List.drop_zero]

theorem bi383List_bits {b : Nat} (h : CodeSet (.bits b)) :
    (bi383List (.bits b)).Pairwise (· < ·) ∧
      ∀ x : Int, x ∈ bi383List (.bits b) ↔ 1 ≤ x ∧ x ≤ 383 ∧ b.testBit x.toNat = true := by
  obtain ⟨l, hl, hsorted, hmem⟩ := drain_spec (R := BintsIter 12 b)
    (fun i hi => bintsNext_bits (by decide) i hi) 769 0 (Or.inl (by decide)) (by decide)
  have hat : ∀ i, i ∈ l ↔ 1 ≤ i ∧ i ≤ 383 ∧ b.testBit i = true := by
    intro i
    rw [hmem]
    constructor
    · rintro ⟨-, -, ⟨rfl, hb⟩ | ⟨h1, h2, hb⟩ | ⟨h1, hb, -⟩⟩
      · exact absurd (h _ hb) (by decide)
      · exact ⟨h1, by omega, hb⟩
      · exact absurd (h _ hb) (by omega)
    · rintro ⟨h1, h2, hb⟩
      exact ⟨by omega, by omega, Or.inr (Or.inl ⟨h1, by omega, hb⟩)⟩
  have hval : ∀ i ∈ l, bintsVal 12 i = (i : Int) := by
    intro i hi
    have := (hat i).mp hi
    unfold bintsVal
    rw [if_pos (by omega)]
  have hlist : bi383List (.bits b) = l.map (Nat.cast : Nat → Int) := by
    have : bi383List (.bits b) = l.map (bintsVal 12) := hl
    rw [this]
    exact List.map_congr_left hval
  rw [hlist]
  refine ⟨List.pairwise_map.mpr (hsorted.imp fun h => by omega), fun x => ?_⟩
  rw [List.mem_map]
  constructor
  · rintro ⟨i, hi, rfl⟩
    obtain ⟨h1, h2, hb⟩ := (hat i).mp hi
    exact ⟨by omega, by omega, by simpa using hb⟩
  · rintro ⟨h1, h2, hb⟩
    exact ⟨x.toNat, (hat _).mpr ⟨by omega, by omega, hb⟩, by omega⟩

/-- **The codes of a set come in ascending order.** -/
theorem CodeSet.sorted {c : Bitints} (h : CodeSet c) : (bi383List c).Pairwise (· < ·) := by
  cases c with
  | native xs => rw [bi383List_native h.1]; exact h.2.1
  | bits b => exact (bi383List_bits h).1

theorem CodeSet.range {c : Bitints} (h : CodeSet c) : ∀ x ∈ bi383List c, 1 ≤ x ∧ x ≤ 383 := by
  cases c with
  | native xs => rw [bi383List_native h.1]; exact h.2.2
  | bits b =>
      intro x hx
      have := ((bi383List_bits h).2 x).mp hx
      exact ⟨this.1, this.2.1⟩

theorem mem_assInt (x : Int) (xs : List Int) : ∀ y, y ∈ assInt x xs ↔ y = x ∨ y ∈ xs := by
  induction xs with
  | nil => intro y; simp [assInt]
  | cons z zs ih =>
      intro y
      unfold assInt
      split
      · rw [List.mem_cons, ih, List.mem_cons]
        tauto
      · split
        · rename_i hz
          subst hz
          rw [List.mem_cons]
          tauto
        · rw [List.mem_cons]

theorem assInt_sorted {x : Int} (hx : 1 ≤ x) {xs : List Int} (hpos : ∀ y ∈ xs, 1 ≤ y)
    (h : xs.Pairwise (· < ·)) : (assInt x xs).Pairwise (· < ·) := by
  induction xs with
  | nil => simp [assInt]
  | cons z zs ih =>
      obtain ⟨hz, hzs⟩ := List.pairwise_cons.mp h
      have hz1 := hpos z List.mem_cons_self
      unfold assInt
      split
      · refine List.pairwise_cons.mpr ⟨fun y hy => ?_,
          ih (fun y hy => hpos y (List.mem_cons_of_mem _ hy)) hzs⟩
        rcases (mem_assInt x zs y).mp hy with rfl | hy
        · omega
        · exact hz y hy
      · split
        · exact h
        · refine List.pairwise_cons.mpr ⟨fun y hy => ?_, h⟩
          rcases List.mem_cons.mp hy with rfl | hy
          · omega
          · have := hz y hy
            omega

theorem assInt_length (x : Int) (xs : List Int) : (assInt x xs).length ≤ xs.length + 1 := by
  induction xs with
  | nil => simp [assInt]
  | cons z zs ih =>
      unfold assInt
      split
      · simpa using ih
      · split <;> simp

theorem testBit_assBs {b i : Nat} {x : Int} (hx : 1 ≤ x) :
    (assBs 12 b x).testBit i = (b.testBit i || decide (i = x.toNat)) := by
  unfold assBs
  rw [if_pos (by omega), Nat.testBit_or, Nat.one_shiftLeft, Nat.testBit_two_pow]
  simp [eq_comm]

theorem testBit_foldl_assBs {xs : List Int} (h : ∀ x ∈ xs, 1 ≤ x) :
    ∀ b i : Nat, (xs.foldl (assBs 12) b).testBit i = true ↔
      b.testBit i = true ∨ (i : Int) ∈ xs := by
  induction xs with
  | nil => intro b i; simp
  | cons x xs ih =>
      intro b i
      have hx := h x List.mem_cons_self
      rw [List.foldl_cons, ih (fun y hy => h y (List.mem_cons_of_mem _ hy)), testBit_assBs hx,
        Bool.or_eq_true, List.mem_cons, decide_eq_true_eq, or_assoc]
      have : i = x.toNat ↔ (i : Int) = x := by omega
      rw [this]

theorem testBit_one_eq {i : Nat} (h : (1 : Nat).testBit i = true) : i = 0 := by
  cases i with
  | zero => rfl
  | succ i => simp [Nat.testBit_succ] at h

/-- Assigning a code keeps a set of codes. -/
theorem CodeSet.ass {c : Bitints} (h : CodeSet c) {x : Int} (h1 : 1 ≤ x) (h383 : x ≤ 383) :
    CodeSet (assBi383 c x) := by
  cases c with
  | native xs =>
      obtain ⟨hlen, hsorted, hrange⟩ := h
      unfold assBi383 assBints
      dsimp only
      split
      · refine ⟨(assInt_length x xs).trans (by omega),
          assInt_sorted h1 (fun y hy => (hrange y hy).1) hsorted, fun y hy => ?_⟩
        rcases (mem_assInt x xs y).mp hy with rfl | hy
        · exact ⟨h1, h383⟩
        · exact hrange y hy
      · intro i hi
        rw [testBit_assBs h1, Bool.or_eq_true, decide_eq_true_eq,
          testBit_foldl_assBs fun y hy => (hrange y hy).1] at hi
        rcases hi with (hi | hi) | hi
        · have := testBit_one_eq hi
          omega
        · have := hrange _ hi
          omega
        · omega
  | bits b =>
      intro i hi
      show i ≤ 383
      rw [testBit_assBs h1, Bool.or_eq_true, decide_eq_true_eq] at hi
      rcases hi with hi | hi
      · exact h i hi
      · omega

/-- **Assigning a code adds it.** -/
theorem CodeSet.mem_ass {c : Bitints} (h : CodeSet c) {x : Int} (h1 : 1 ≤ x) (h383 : x ≤ 383)
    (y : Int) : y ∈ bi383List (assBi383 c x) ↔ y = x ∨ y ∈ bi383List c := by
  have hass := h.ass h1 h383
  cases c with
  | native xs =>
      obtain ⟨hlen, hsorted, hrange⟩ := h
      rw [bi383List_native hlen]
      unfold assBi383 assBints at hass ⊢
      dsimp only at hass ⊢
      split
      · rename_i hlt
        rw [if_pos hlt] at hass
        rw [bi383List_native hass.1]
        exact mem_assInt x xs y
      · rename_i hlt
        rw [if_neg hlt] at hass
        rw [(bi383List_bits hass).2, testBit_assBs h1, Bool.or_eq_true, decide_eq_true_eq,
          testBit_foldl_assBs fun z hz => (hrange z hz).1]
        constructor
        · rintro ⟨hy1, -, (hy | hy) | hy⟩
          · have := testBit_one_eq hy
            omega
          · rw [Int.toNat_of_nonneg (by omega)] at hy
            exact Or.inr hy
          · exact Or.inl (by omega)
        · rintro (rfl | hy)
          · exact ⟨h1, h383, Or.inr rfl⟩
          · have := hrange y hy
            refine ⟨this.1, this.2, Or.inl (Or.inr ?_)⟩
            rwa [Int.toNat_of_nonneg (by omega)]
  | bits b =>
      have hb : assBi383 (.bits b) x = .bits (assBs 12 b x) := rfl
      rw [hb] at hass ⊢
      rw [(bi383List_bits hass).2, (bi383List_bits h).2, testBit_assBs h1, Bool.or_eq_true,
        decide_eq_true_eq]
      constructor
      · rintro ⟨hy1, hy2, hy | hy⟩
        · exact Or.inr ⟨hy1, hy2, hy⟩
        · exact Or.inl (by omega)
      · rintro (rfl | ⟨hy1, hy2, hy⟩)
        · exact ⟨h1, h383, Or.inr rfl⟩
        · exact ⟨hy1, hy2, Or.inl hy⟩

end Echse
