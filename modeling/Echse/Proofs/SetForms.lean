/-
What the forms of a set stand for.

A set is assigned to value by value.  One value is kept as it is, tagged, and a second one turns it
into bits; a wide set keeps up to as many as it has words.  The iterators read either form
back, but each loses something where a value, or its position, is taken for the end.
-/
import Echse.Proofs.Members

namespace Echse

/-! ### Unsigned sets -/

section Unsigned

variable {w : Nat} {P : Nat → Prop}

theorem assBui_even {bi : Nat} (h : bi ≠ 0) (hw : 1 < w) (x : Nat) : assBui w bi x % 2 = 0 := by
  have hdvd : ∀ a : Nat, a % 2 ^ w % 2 = a % 2 := fun a =>
    Nat.mod_mod_of_dvd a (dvd_pow_self 2 (by omega))
  unfold assBui
  rw [if_neg h]
  split
  · rw [hdvd]
    exact or_mod_two (one_shiftLeft_mod_two (by omega)) (one_shiftLeft_mod_two (by omega))
  · rw [hdvd]
    exact or_mod_two (by omega) (one_shiftLeft_mod_two (by omega))

theorem uintSet_assAll (hP : ∀ x, P x → x + 1 < w) {bi : Nat} (h : UintSet w P bi) {xs : List Nat}
    (hxs : ∀ x ∈ xs, P x) :
    UintSet w P (xs.foldl (assBui w) bi) ∧
      ∀ y, buiHasBit (xs.foldl (assBui w) bi) y = true ↔ y ∈ xs ∨ buiHasBit bi y = true := by
  induction xs generalizing bi with
  | nil => exact ⟨h, fun y => by simp⟩
  | cons x xs ih =>
      obtain ⟨hset, hmem⟩ := h.ass hP (hxs x List.mem_cons_self)
      obtain ⟨hset', hmem'⟩ := ih hset fun y hy => hxs y (List.mem_cons_of_mem _ hy)
      refine ⟨hset', fun y => ?_⟩
      rw [List.foldl_cons, hmem', hmem, List.mem_cons]
      tauto

theorem buiHasBit_ne_zero {bi x : Nat} (h : buiHasBit bi x = true) : bi ≠ 0 := by
  rintro rfl
  simp [buiHasBit] at h

/-- A naught of its own is taken for the end, and nothing else is. -/
theorem mem_buiList {bi : Nat} (hlt : bi < 2 ^ w) (hw : 0 < w) {fuel : Nat} (hf : w + 1 ≤ fuel) (y : Nat) :
    y ∈ drain (buiNext w bi) fuel 0 ↔ bi ≠ 1 ∧ buiHasBit bi y = true := by
  by_cases hodd : bi % 2 = 1
  · obtain ⟨f, rfl⟩ : ∃ f, fuel = f + 2 := ⟨fuel - 2, by omega⟩
    have h0 : buiNext w bi 0 = (bi >>> 1, bi >>> 1) := by simp [buiNext, hodd]
    have hhas : buiHasBit bi y = true ↔ y = bi >>> 1 := by
      rw [buiHasBit, if_pos hodd, beq_iff_eq]
      exact eq_comm
    rw [hhas, drain, h0]
    dsimp only
    by_cases hz : bi >>> 1 = 0
    · rw [if_pos hz]
      have h1 : bi = 1 := by
        rw [Nat.shiftRight_one] at hz
        omega
      simp [h1]
    · have h1 : buiNext w bi (bi >>> 1) = (0, 0) := by simp [buiNext, hodd, hz]
      have hne : bi ≠ 1 := by
        rintro rfl
        exact hz rfl
      rw [if_neg hz, drain, h1]
      simp [hne]
  · obtain ⟨l, hl, -, hmem⟩ := drain_spec (R := fun _ => True)
      (fun i _ => buiNext_bits hlt (by omega) i) fuel 0 trivial (by omega)
    rw [hl, List.map_id' l, hmem, buiHasBit, if_neg hodd, Nat.testBit_shiftRight, Nat.add_comm 1 y]
    constructor
    · rintro ⟨-, -, hb⟩
      exact ⟨fun h => hodd (by rw [h]), hb⟩
    · rintro ⟨-, hb⟩
      refine ⟨Nat.zero_le _, ?_, hb⟩
      by_contra hy
      have hp : bi < 2 ^ (y + 1) := hlt.trans_le (Nat.pow_le_pow_right (by decide) (by omega))
      rw [Nat.testBit_lt_two_pow hp] at hb
      cases hb

/-- A set stays one of bits. -/
theorem assAllBui_even (hw : 1 < w) (hP : ∀ x, P x → x + 1 < w) {bi : Nat} (h : UintSet w P bi)
    (hne : bi ≠ 0) {xs : List Nat} (hxs : ∀ x ∈ xs, P x) (hlong : xs ≠ [] ∨ bi % 2 = 0) :
    xs.foldl (assBui w) bi % 2 = 0 := by
  induction xs generalizing bi with
  | nil => exact hlong.resolve_left fun h => h rfl
  | cons x xs ih =>
      obtain ⟨hset, hmem⟩ := h.ass hP (hxs x List.mem_cons_self)
      exact ih hset (buiHasBit_ne_zero ((hmem x).mpr (Or.inl rfl)))
        (fun y hy => hxs y (List.mem_cons_of_mem _ hy)) (Or.inr (assBui_even hne hw x))

/-- The sequences that end in such a naught. -/
theorem assAll_eq_one_iff (hw : 1 < w) (hP : ∀ x, P x → x + 1 < w) {xs : List Nat}
    (hxs : ∀ x ∈ xs, P x) : xs.foldl (assBui w) 0 = 1 ↔ xs = [0] := by
  constructor
  · intro hone
    have hhas := (uintSet_assAll hP (uintSet_zero w P) hxs).2
    match xs, hxs, hone, hhas with
    | [], _, hone, _ => cases hone
    | [x], _, hone, hhas =>
        have hmem := (hhas 0).mp (by rw [hone]; rfl)
        simp [buiHasBit] at hmem
        rw [hmem]
    | x :: z :: zs, hxs, hone, _ =>
        obtain ⟨hset, hmem⟩ := (uintSet_zero w P).ass hP (hxs x List.mem_cons_self)
        have hzs : ∀ y ∈ z :: zs, P y := fun y hy => hxs y (List.mem_cons_of_mem _ hy)
        have heven := assAllBui_even hw hP hset (buiHasBit_ne_zero ((hmem x).mpr (Or.inl rfl))) hzs
          (Or.inl (List.cons_ne_nil _ _))
        rw [List.foldl_cons] at hone
        rw [hone] at heven
        cases heven
  · rintro rfl
    exact Nat.mod_eq_of_lt (Nat.one_lt_two_pow (by omega))

/-- **What an unsigned set yields** are the values assigned to it, unless it is a naught only. -/
theorem mem_assAllBui (hw : 1 < w) (hP : ∀ x, P x → x + 1 < w) {xs : List Nat}
    (hxs : ∀ x ∈ xs, P x) {fuel : Nat} (hf : w + 1 ≤ fuel) (y : Nat) :
    y ∈ drain (buiNext w (xs.foldl (assBui w) 0)) fuel 0 ↔ xs ≠ [0] ∧ y ∈ xs := by
  obtain ⟨hset, hmem⟩ := uintSet_assAll hP (uintSet_zero w P) hxs
  rw [mem_buiList hset.lt (by omega) hf, Ne, assAll_eq_one_iff hw hP hxs, hmem]
  simp [buiHasBit]

end Unsigned

/-- Membership and iteration describe the values assigned to a `bituint31_t`. -/
def Bui31Exact (xs : List Nat) : Prop :=
  (∀ y ≤ 30, bui31HasBit (xs.foldl assBui31 0) y = true ↔ y ∈ xs) ∧
    ∀ y, y ∈ bui31List (xs.foldl assBui31 0) ↔ y ∈ xs

/-- Iteration describes the values assigned to a `bituint63_t`. -/
def Bui63Exact (xs : List Nat) : Prop := ∀ y, y ∈ bui63List (xs.foldl assBui63 0) ↔ y ∈ xs

/-- A naught that is the only value assigned, and just this, is lost. -/
theorem naught_lost {w : Nat} {P : Nat → Prop} (hw : 1 < w) (hP : ∀ x, P x → x + 1 < w) {xs : List Nat}
    (hxs : ∀ x ∈ xs, P x) {fuel : Nat} (hf : w + 1 ≤ fuel) :
    (∀ y, y ∈ drain (buiNext w (xs.foldl (assBui w) 0)) fuel 0 ↔ y ∈ xs) ↔ xs ≠ [0] := by
  simp only [mem_assAllBui hw hP hxs hf]
  constructor
  · rintro h rfl
    exact ((h 0).mpr List.mem_cons_self).1 rfl
  · exact fun hne y => and_iff_right hne

/-- **The unsigned sets are what was assigned to them**, but for the set of 0 alone. -/
theorem buiSets_iff {xs ys : List Nat} (hxs : ∀ x ∈ xs, x ≤ 30) (hys : ∀ y ∈ ys, y ≤ 62) :
    (Bui31Exact xs ↔ xs ≠ [0]) ∧ (Bui63Exact ys ↔ ys ≠ [0]) := by
  have hhas := (uintSet_assAll (w := 32) (P := (· ≤ 30)) (fun x h => by omega) (uintSet_zero 32 _) hxs).2
  refine ⟨?_, naught_lost (P := (· ≤ 62)) (by decide) (fun x h => by omega) hys (by decide)⟩
  refine Iff.trans ?_ (naught_lost (P := (· ≤ 30)) (by decide : 1 < 32) (fun x h => by omega) hxs
    (by decide : 32 + 1 ≤ 33))
  refine and_iff_right fun y _ => (hhas y).trans ?_
  simp [buiHasBit]

/-- Values at both ends. -/
theorem buiSets_iff_ends : Bui31Exact [30, 0, 30] ∧ Bui63Exact [62] :=
  have h : (Bui31Exact [30, 0, 30] ↔ [30, 0, 30] ≠ [0]) ∧ (Bui63Exact [62] ↔ [62] ≠ [0]) :=
    buiSets_iff (by decide) (by decide)
  ⟨h.1.mpr (by decide), h.2.mpr (by decide)⟩

theorem bui31_naught :
    ¬ ∀ xs : List Nat, (∀ x ∈ xs, x ≤ 30) → Bui31Exact xs ∧ Bui63Exact xs := by
  intro h
  have h0 := ((h [0] (by decide)).1.2 0).mpr List.mem_cons_self
  exact absurd h0 (by decide)

/-! ### Signed sets -/

/-- Membership and iteration describe the values assigned to a `bitint31_t`. -/
def Bi31Exact (xs : List Int) : Prop :=
  (∀ y, -31 ≤ y ∧ y ≤ 31 → (bi31HasBit (xs.foldl assBi31 ⟨0, 0⟩) y = true ↔ y ∈ xs)) ∧
    ∀ y, y ∈ bi31List (xs.foldl assBi31 ⟨0, 0⟩) ↔ y ∈ xs

/-- Iteration describes the values assigned to a `bitint63_t`. -/
def Bi63Exact (xs : List Int) : Prop := ∀ y, y ∈ bi63List (xs.foldl assBi63 ⟨0, 0⟩) ↔ y ∈ xs

/-- The values of a set that are all come to: there is but one, or a positive one, or no negative one. -/
def AllReached (xs : List Int) : Prop := xs.length ≤ 1 ∨ (∃ p ∈ xs, 0 < p) ∨ ∀ x ∈ xs, 0 ≤ x

theorem negatives_lost {w : Nat} {P : Int → Prop} (hw : 1 < w)
    (hP : ∀ x, P x → -(w : Int) < x ∧ x < w) {xs : List Int} (hxs : ∀ x ∈ xs, P x) {fuel : Nat}
    (hf : 2 * w ≤ fuel) :
    (∀ y, y ∈ drain (biNext w (xs.foldl (assBi w) ⟨0, 0⟩)) fuel 0 ↔ y ∈ xs) ↔ AllReached xs := by
  simp only [mem_drain_assAllBi hw hP hxs hf, and_iff_left_iff_imp]
  unfold AllReached
  constructor
  · intro h
    by_contra hno
    push Not at hno
    obtain ⟨hlong, hpos, x, hx, hneg⟩ := hno
    rcases h x hx with h1 | h0 | ⟨p, hp, hp0⟩
    · omega
    · omega
    · exact absurd hp0 (by have := hpos p hp; omega)
  · rintro (h1 | hpos | hnn) y hy
    · exact Or.inl h1
    · exact Or.inr (Or.inr hpos)
    · exact Or.inr (Or.inl (hnn y hy))

/-- **The signed sets are what was assigned to them**, but for those of several values without a
positive and with a negative one: the iterator takes the empty positive half for the end. -/
theorem biSets_iff {xs ys : List Int} (hxs : ∀ x ∈ xs, -31 ≤ x ∧ x ≤ 31)
    (hys : ∀ y ∈ ys, -63 ≤ y ∧ y ≤ 63) :
    (Bi31Exact xs ↔ AllReached xs) ∧ (Bi63Exact ys ↔ AllReached ys) := by
  have hhas := (intSet_assAll (w := 32) (P := fun x => -31 ≤ x ∧ x ≤ 31) (by decide)
    (fun x h => by omega) (intSet_zero 32 _) hxs).2
  refine ⟨?_, negatives_lost (P := fun y => -63 ≤ y ∧ y ≤ 63) (by decide) (fun y h => by omega) hys
    (by decide)⟩
  refine Iff.trans ?_ (negatives_lost (P := fun x => -31 ≤ x ∧ x ≤ 31) (by decide : 1 < 32)
    (fun x h => by omega) hxs (by decide : 2 * 32 ≤ 66))
  refine and_iff_right fun y _ => (hhas y).trans ?_
  simp [biHasBit_zero]

/-- Mixtures of signs, up to the ends. -/
theorem biSets_iff_ends : Bi31Exact [-31, 0, 31] ∧ Bi63Exact [-63] :=
  have h : (Bi31Exact [-31, 0, 31] ↔ AllReached [-31, 0, 31]) ∧ (Bi63Exact [-63] ↔ AllReached [-63]) :=
    biSets_iff (by decide) (by decide)
  ⟨h.1.mpr (Or.inr (Or.inl ⟨31, by decide, by decide⟩)), h.2.mpr (Or.inl (by decide))⟩

theorem bi31_negatives :
    ¬ ∀ xs : List Int, (∀ x ∈ xs, -31 ≤ x ∧ x ≤ 31) → Bi31Exact xs ∧ Bi63Exact xs := by
  intro h
  have hlast := ((h [-1, -2] (by decide)).1.2 (-1)).mpr List.mem_cons_self
  exact absurd hlast (by decide)

/-! ### Wide sets -/

/-- The order of a wide set: naught and the positives ascending, then the negatives from -1 down. -/
def Precedes (x y : Int) : Prop := if 0 ≤ x then x < y ∨ y < 0 else y < x

/-- A list is that of some values, each once and in order. -/
def Enumerates (l xs : List Int) : Prop := l.Pairwise Precedes ∧ ∀ y, y ∈ l ↔ y ∈ xs

/-- Iteration yields the values assigned to a `bitint383_t`. -/
def Bi383Exact (xs : List Int) : Prop := Enumerates (bi383List (xs.foldl assBi383 .nil)) xs

/-- Iteration yields the values assigned to a `bitint447_t`. -/
def Bi447Exact (xs : List Int) : Prop := Enumerates (bi447List (xs.foldl assBi447 .nil)) xs

/-- A value comes to a set of `n` words that has as many others already. -/
def Degrades (n : Nat) (xs : List Int) : Prop := n ≤ xs.dropLast.toFinset.card

instance (n : Nat) (xs : List Int) : Decidable (Degrades n xs) := inferInstanceAs (Decidable (_ ≤ _))

section Wide

variable {n : Nat} (hn : 0 < n) {xs : List Int}
include hn

theorem native_length (hxs : ∀ x ∈ xs, -(32 * n : Int) < x ∧ x < 32 * n) {ys : List Int}
    (h : xs.foldl (assBints n) .nil = .native ys) : ys.length = xs.toFinset.card := by
  have hlt : ∀ x : Int, -(32 * n : Int) < x ∧ x < 32 * n → x < 32 * n := fun x hx => hx.2
  have hmem := bintsHas_assAll hn hlt (wideSet_nil n _) hxs
  have hord := nativeInOrder_assAll hlt (wideSet_nil n _)
    (fun ys hys => by cases hys; exact List.Pairwise.nil) hxs
  have hnodup : ys.Nodup := (hord ys h).imp fun hlt heq => by
    rw [heq] at hlt
    exact lt_irrefl _ hlt
  rw [List.card_toFinset]
  refine ((List.perm_ext_iff_of_nodup hnodup (List.nodup_dedup xs)).mpr fun y => ?_).length_eq
  have hy := hmem y
  rw [h] at hy
  rw [List.mem_dedup]
  exact hy.trans (or_iff_left (bintsHas_nil n y))

/-- **When a wide set becomes one of bits.** -/
theorem degrades_iff (hxs : ∀ x ∈ xs, -(32 * n : Int) < x ∧ x < 32 * n) :
    Degrades n xs ↔ ∃ b, xs.foldl (assBints n) .nil = .bits b := by
  induction xs using List.reverseRecOn with
  | nil =>
      refine iff_of_false ?_ fun ⟨b, hb⟩ => by cases hb
      unfold Degrades
      exact Nat.not_le.mpr hn
  | append_singleton xs x ih =>
      have hxs' : ∀ x ∈ xs, -(32 * n : Int) < x ∧ x < 32 * n := fun z hz =>
        hxs z (List.mem_append_left _ hz)
      have ih' := ih hxs'
      unfold Degrades at ih' ⊢
      rw [List.dropLast_concat, List.foldl_append, List.foldl_cons, List.foldl_nil]
      cases hform : xs.foldl (assBints n) .nil with
      | native ys =>
          have hlen := native_length hn hxs' hform
          unfold assBints
          dsimp only
          split
          · exact iff_of_false (by omega) fun ⟨b, hb⟩ => by cases hb
          · exact iff_of_true (by omega) ⟨_, rfl⟩
      | bits b =>
          have hmono : xs.dropLast.toFinset.card ≤ xs.toFinset.card :=
            Finset.card_le_card fun y hy =>
              List.mem_toFinset.mpr (List.dropLast_subset xs (List.mem_toFinset.mp hy))
          exact iff_of_true ((ih'.mpr ⟨b, hform⟩).trans hmono) ⟨_, rfl⟩

/-- **What a wide set yields** are the values assigned to it, in order and each once, unless it
has become one of bits and the last positive value keeps the iterator from the negative ones. -/
theorem enumerates_assAll (hxs : ∀ x ∈ xs, -(32 * n : Int) < x ∧ x < 32 * n) {fuel : Nat}
    (hf : 64 * n ≤ fuel) :
    Enumerates (drain (bintsNext n (xs.foldl (assBints n) .nil)) fuel 0) xs ↔
      ¬ (Degrades n xs ∧ (32 * n - 1 : Int) ∈ xs ∧ ∃ x ∈ xs, x < 0) := by
  have hlt : ∀ x : Int, -(32 * n : Int) < x ∧ x < 32 * n → x < 32 * n := fun x hx => hx.2
  have hwide := (wideSet_nil n _).assAll hlt hxs
  have hhas : ∀ y, bintsHas n (xs.foldl (assBints n) .nil) y ↔ y ∈ xs := fun y =>
    (bintsHas_assAll hn hlt (wideSet_nil n _) hxs y).trans (or_iff_left (bintsHas_nil n y))
  have horder := inOrder_drain hn (nativeInOrder_assAll hlt (wideSet_nil n _)
    (fun ys hys => by cases hys; exact List.Pairwise.nil) hxs) hwide.small hf
  have hdeg := degrades_iff hn hxs
  have hbefore : ∀ l : List Int, (∀ x ∈ l, x < 32 * n) → InOrder n l → l.Pairwise Precedes := by
    intro l hl hord
    refine hord.imp_of_mem fun hx hy hkey => ?_
    have := hl _ hx
    have := hl _ hy
    unfold bintsKey at hkey
    unfold Precedes
    split at hkey <;> split at hkey <;> split <;> omega
  cases hform : xs.foldl (assBints n) .nil with
  | native ys =>
      rw [hform] at hhas horder
      have hlen := hwide.small ys hform
      rw [drain_native n ys fuel 0 (by omega), List.drop_zero] at horder ⊢
      refine iff_of_true ⟨hbefore ys (fun y hy => (hxs y ((hhas y).mp hy)).2) horder, hhas⟩ fun h => ?_
      obtain ⟨b, hb⟩ := hdeg.mp h.1
      rw [hform] at hb
      cases hb
  | bits b =>
      rw [hform] at hhas horder hwide
      have hmem := mem_drain_bits hn hwide (fun x hx => hx) hf
      have hlast : b.testBit (32 * n - 1) = true ↔ (32 * n - 1 : Int) ∈ xs := by
        rw [← hhas]
        have hpos : bintsPos n (32 * n - 1) = 32 * n - 1 := by
          unfold bintsPos
          rw [if_pos (by omega)]
          omega
        unfold bintsHas
        dsimp only
        rw [hpos]
        exact (and_iff_right (by omega)).symm
      simp only [hhas] at hmem
      rw [and_iff_right (hdeg.mpr ⟨b, hform⟩)]
      constructor
      · rintro ⟨-, hlists⟩ ⟨hlast', x, hx, hneg⟩
        have hfree := ((hmem x).mp ((hlists x).mpr hx)).2 hneg
        rw [hlast.mpr hlast'] at hfree
        cases hfree
      · intro hno
        refine ⟨hbefore _ (fun y hy => (hxs y ((hmem y).mp hy).1).2) horder, fun y => ?_⟩
        refine (hmem y).trans (and_iff_left_of_imp fun hy hneg => ?_)
        by_contra hset
        exact hno ⟨hlast.mp (by simpa using hset), y, hy, hneg⟩

end Wide

/-- **The wide sets are what was assigned to them**, but for sets of bits with the last positive
value and a negative one. -/
theorem wideSets_iff {xs ys : List Int} (hxs : ∀ x ∈ xs, -383 ≤ x ∧ x ≤ 383)
    (hys : ∀ y ∈ ys, -447 ≤ y ∧ y ≤ 447) :
    (Bi383Exact xs ↔ ¬ (Degrades 12 xs ∧ 383 ∈ xs ∧ ∃ x ∈ xs, x < 0)) ∧
      (Bi447Exact ys ↔ ¬ (Degrades 14 ys ∧ 447 ∈ ys ∧ ∃ y ∈ ys, y < 0)) :=
  ⟨enumerates_assAll (n := 12) (by decide) (fun x hx => by have := hxs x hx; omega) (by decide),
    enumerates_assAll (n := 14) (by decide) (fun y hy => by have := hys y hy; omega) (by decide)⟩

/-- The extremes of a native set. -/
theorem wideSets_iff_native : Bi383Exact [-383, 383, 0, -383] ∧ Bi447Exact [447, -1, -447] :=
  have h : (Bi383Exact [-383, 383, 0, -383] ↔ _) ∧ (Bi447Exact [447, -1, -447] ↔ _) :=
    wideSets_iff (by decide) (by decide)
  ⟨h.1.mpr fun hd => absurd hd.1 (by decide), h.2.mpr fun hd => absurd hd.1 (by decide)⟩

theorem bi383_last :
    ¬ ((∀ xs : List Int, (∀ x ∈ xs, -383 ≤ x ∧ x ≤ 383) → Bi383Exact xs) ∧
      ∀ ys : List Int, (∀ y ∈ ys, -447 ≤ y ∧ y ≤ 447) → Bi447Exact ys) := by
  rintro ⟨h, -⟩
  have hmem := ((h [1, 2, 3, 4, 5, 6, 7, 8, 9, 10, 11, 383, -1] (by decide)).2 (-1)).mpr (by decide)
  exact absurd hmem (by decide +kernel)

end Echse
