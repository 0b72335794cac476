/-
The values a wide set is made of, in the order in which iterating over it yields them.

Assigned one by one they are all there afterwards, whichever form the set takes on the way.
Naught and the positive ones come first, ascending, and then the negative ones from -1 on.
-/
import Echse.Proofs.RrulSets

namespace Echse

/-! ### Assigned one by one -/

section Assign

variable {n : Nat} {P : Int → Prop}

theorem WideSet.assAll (hP : ∀ x, P x → x < 32 * n) {bi : Bitints} (h : WideSet n P bi)
    {xs : List Int} (hxs : ∀ x ∈ xs, P x) : WideSet n P (xs.foldl (assBints n) bi) := by
  induction xs generalizing bi with
  | nil => exact h
  | cons x xs ih =>
      exact ih (h.ass hP (hxs x List.mem_cons_self)) fun y hy => hxs y (List.mem_cons_of_mem _ hy)

theorem bintsHas_assAll (hn : 0 < n) (hP : ∀ x, P x → x < 32 * n) {bi : Bitints}
    (h : WideSet n P bi) {xs : List Int} (hxs : ∀ x ∈ xs, P x) (y : Int) :
    bintsHas n (xs.foldl (assBints n) bi) y ↔ y ∈ xs ∨ bintsHas n bi y := by
  induction xs generalizing bi with
  | nil => simp
  | cons x xs ih =>
      have hx := hxs x List.mem_cons_self
      rw [List.foldl_cons, ih (h.ass hP hx) fun z hz => hxs z (List.mem_cons_of_mem _ hz),
        bintsHas_ass hn (hP x hx) (h.has hP), List.mem_cons]
      tauto

/-- The members of a set that values have been assigned to. -/
theorem mem_assAll (hn : 0 < n) (hP : ∀ x, P x → -(32 * n : Int) < x ∧ x < 32 * n - 1)
    {xs : List Int} (hxs : ∀ x ∈ xs, P x) {fuel : Nat} (hf : 64 * n ≤ fuel) (y : Int) :
    y ∈ drain (bintsNext n (xs.foldl (assBints n) .nil)) fuel 0 ↔ y ∈ xs := by
  have hlt : ∀ x, P x → x < 32 * n := fun x hx => by have := hP x hx; omega
  have hwide := (wideSet_nil n P).assAll hlt hxs
  rw [mem_drain_bints hn hwide hP hf, bintsHas_assAll hn hlt (wideSet_nil n P) hxs]
  exact or_iff_left (bintsHas_nil n y)

end Assign

/-- The set of some numbers of days or positions. -/
def ass383All (xs : List Int) : Bitints := xs.foldl assBi383 .nil

/-- The numbers that `snarf_rrule` lets into such a set. -/
def Signed366 (x : Int) : Prop := x ≠ 0 ∧ -366 ≤ x ∧ x ≤ 366

instance (x : Int) : Decidable (Signed366 x) := inferInstanceAs (Decidable (_ ∧ _))

theorem mem_ass383All {xs : List Int} (hxs : ∀ x ∈ xs, Signed366 x) (y : Int) :
    y ∈ bi383List (ass383All xs) ↔ y ∈ xs :=
  mem_assAll (P := Signed366) (by decide) (fun x hx => by unfold Signed366 at hx; omega) hxs
    (by decide) y

/-! ### The order -/

/-- Where a value comes in the order. -/
def bintsKey (n : Nat) (x : Int) : Nat := if 0 ≤ x then x.toNat else 32 * n + (-x).toNat

/-- Values in the order of a wide set. -/
def InOrder (n : Nat) (xs : List Int) : Prop := xs.Pairwise fun x y => bintsKey n x < bintsKey n y

theorem assInt_inOrder {n : Nat} {x : Int} (hx : x < 32 * n) {xs : List Int}
    (hxs : ∀ y ∈ xs, y < 32 * n) (h : InOrder n xs) : InOrder n (assInt x xs) := by
  unfold InOrder at h ⊢
  induction xs with
  | nil => exact List.pairwise_singleton ..
  | cons y ys ih =>
      obtain ⟨hy, hys⟩ := List.pairwise_cons.mp h
      have hylt := hxs y List.mem_cons_self
      unfold assInt
      split
      · rename_i hafter
        refine List.pairwise_cons.mpr ⟨fun z hz => ?_,
          ih (fun z hz => hxs z (List.mem_cons_of_mem _ hz)) hys⟩
        rcases (mem_assInt x ys z).mp hz with rfl | hz
        · unfold bintsKey
          split <;> split <;> omega
        · exact hy z hz
      · rename_i hafter
        split
        · exact h
        · rename_i hne
          have hlt : bintsKey n x < bintsKey n y := by
            unfold bintsKey
            split <;> split <;> omega
          refine List.pairwise_cons.mpr ⟨fun z hz => ?_, h⟩
          rcases List.mem_cons.mp hz with rfl | hz
          · exact hlt
          · exact hlt.trans (hy z hz)

/-- The native values of a set are in order. -/
def NativeInOrder (n : Nat) (bi : Bitints) : Prop := ∀ xs, bi = .native xs → InOrder n xs

theorem nativeInOrder_assAll {n : Nat} {P : Int → Prop} (hP : ∀ x, P x → x < 32 * n) {bi : Bitints}
    (h : WideSet n P bi) (hord : NativeInOrder n bi) {xs : List Int} (hxs : ∀ x ∈ xs, P x) :
    NativeInOrder n (xs.foldl (assBints n) bi) := by
  induction xs generalizing bi with
  | nil => exact hord
  | cons x xs ih =>
      have hx := hxs x List.mem_cons_self
      refine ih (h.ass hP hx) ?_ fun y hy => hxs y (List.mem_cons_of_mem _ hy)
      intro ys hys
      cases bi with
      | native zs =>
          unfold assBints at hys
          dsimp only at hys
          split at hys
          · cases hys
            exact assInt_inOrder (hP x hx) (fun z hz => hP z (h.mem z hz)) (hord zs rfl)
          · cases hys
      | bits b => cases hys

/-- **Iterating over a wide set goes by this order.** -/
theorem inOrder_drain {n : Nat} (hn : 0 < n) {bi : Bitints} (hord : NativeInOrder n bi)
    (hsmall : NativeSmall n bi) {fuel : Nat} (hf : 64 * n ≤ fuel) :
    InOrder n (drain (bintsNext n bi) fuel 0) := by
  cases bi with
  | native xs =>
      have hlen := hsmall xs rfl
      rw [drain_native n xs fuel 0 (by omega), List.drop_zero]
      exact hord xs rfl
  | bits b =>
      obtain ⟨l, hl, hsorted, hmem⟩ := drain_spec (R := BintsIter n b)
        (fun i hi => bintsNext_bits hn i hi) fuel 0 (Or.inl (by omega)) (by omega)
      have hkey : ∀ i ∈ l, bintsKey n (bintsVal n i) = i := by
        intro i hi
        obtain ⟨-, -, hat⟩ := (hmem i).mp hi
        unfold bintsKey bintsVal
        rcases hat with ⟨rfl, -⟩ | ⟨h1, h32, -⟩ | ⟨h32, -, -⟩
        · rw [if_pos (by omega : 0 < 32 * n)]
          rfl
        · rw [if_pos h32, if_pos (by omega)]
          rfl
        · rw [if_neg (by omega), if_neg (by omega)]
          omega
      rw [hl]
      unfold InOrder
      rw [List.pairwise_map]
      refine hsorted.imp_of_mem fun hi hj hlt => ?_
      rw [hkey _ hi, hkey _ hj]
      exact hlt

theorem ass383All_inOrder {xs : List Int} (hxs : ∀ x ∈ xs, Signed366 x) :
    InOrder 12 (bi383List (ass383All xs)) := by
  have hlt : ∀ x, Signed366 x → x < 32 * (12 : Nat) := fun x hx => by unfold Signed366 at hx; omega
  have hwide := (wideSet_nil 12 Signed366).assAll hlt hxs
  refine inOrder_drain (by decide) ?_ hwide.small (by decide)
  exact nativeInOrder_assAll hlt (wideSet_nil 12 Signed366)
    (fun ys hys => by cases hys; exact List.Pairwise.nil) hxs

/-! ### Signed sets

These are different: the negative values of a set of bits are only come to past a positive one.
-/

section Signed

variable {w : Nat} {P : Int → Prop}

/-- A second value turns a set into bits. -/
theorem assBi_even (hw : 1 < w) {bi : Bitint} (h : ¬ (bi.pos = 0 ∧ bi.neg = 0)) (x : Int) :
    (assBi w bi x).pos % 2 = 0 := by
  have hdvd : ∀ a : Nat, a % 2 ^ w % 2 = a % 2 := fun a =>
    Nat.mod_mod_of_dvd a (dvd_pow_self 2 (by omega))
  unfold assBi
  rw [if_neg h]
  dsimp only
  generalize hbi' : (if bi.pos % 2 = 1 then _ else bi : Bitint) = bi'
  have heven : bi'.pos % 2 = 0 := by
    rw [← hbi']
    split
    · split
      · exact one_shiftLeft_mod_two (by omega)
      · rfl
    · omega
  split
  · rw [hdvd]
    exact or_mod_two heven (one_shiftLeft_mod_two (by omega))
  · exact heven

/-- A set with a member is not empty. -/
theorem biHasBit_nonempty {bi : Bitint} {x : Int} (h : biHasBit w bi x = true) :
    ¬ (bi.pos = 0 ∧ bi.neg = 0) := by
  rintro ⟨hp, hn⟩
  unfold biHasBit at h
  rw [hp, hn] at h
  simp at h

theorem intSet_assAll (hw : 1 < w) (hP : ∀ x, P x → -(w : Int) < x ∧ x < w) {bi : Bitint}
    (h : IntSet w P bi) {xs : List Int} (hxs : ∀ x ∈ xs, P x) :
    IntSet w P (xs.foldl (assBi w) bi) ∧
      ∀ y, biHasBit w (xs.foldl (assBi w) bi) y = true ↔ y ∈ xs ∨ biHasBit w bi y = true := by
  induction xs generalizing bi with
  | nil => exact ⟨h, fun y => by simp⟩
  | cons x xs ih =>
      obtain ⟨hset, hmem⟩ := h.ass hw hP (hxs x List.mem_cons_self)
      obtain ⟨hset', hmem'⟩ := ih hset fun y hy => hxs y (List.mem_cons_of_mem _ hy)
      refine ⟨hset', fun y => ?_⟩
      rw [List.foldl_cons, hmem', hmem, List.mem_cons]
      tauto

theorem assAll_even (hw : 1 < w) (hP : ∀ x, P x → -(w : Int) < x ∧ x < w) {bi : Bitint}
    (h : IntSet w P bi) (hne : ¬ (bi.pos = 0 ∧ bi.neg = 0)) {xs : List Int} (hxs : ∀ x ∈ xs, P x)
    (hlong : xs ≠ [] ∨ bi.pos % 2 = 0) : (xs.foldl (assBi w) bi).pos % 2 = 0 := by
  induction xs generalizing bi with
  | nil => exact hlong.resolve_left fun h => h rfl
  | cons x xs ih =>
      obtain ⟨hset, hmem⟩ := h.ass hw hP (hxs x List.mem_cons_self)
      exact ih hset (biHasBit_nonempty ((hmem x).mpr (Or.inl rfl)))
        (fun y hy => hxs y (List.mem_cons_of_mem _ hy)) (Or.inr (assBi_even hw hne x))

/-- **What a signed set yields** of the values assigned to it: all of them if there is but one
assignment or a positive value, and else only naught. -/
theorem mem_drain_assAllBi (hw : 1 < w) (hP : ∀ x, P x → -(w : Int) < x ∧ x < w) {xs : List Int}
    (hxs : ∀ x ∈ xs, P x) {fuel : Nat} (hf : 2 * w ≤ fuel) (y : Int) :
    y ∈ drain (biNext w (xs.foldl (assBi w) ⟨0, 0⟩)) fuel 0 ↔
      y ∈ xs ∧ (xs.length ≤ 1 ∨ 0 ≤ y ∨ ∃ p ∈ xs, 0 < p) := by
  obtain ⟨hset, hhas⟩ := intSet_assAll hw hP (intSet_zero w P) hxs
  have hmem : ∀ y, biHasBit w (xs.foldl (assBi w) ⟨0, 0⟩) y = true ↔ y ∈ xs := by
    intro y
    rw [hhas]
    exact or_iff_left fun h => by simp [biHasBit] at h
  rw [mem_biList hw hset.pos hset.neg hf]
  by_cases hlong : xs.length ≤ 1
  · rw [and_iff_left (Or.inl hlong)]
    rcases xs with _ | ⟨x, _ | ⟨z, zs⟩⟩
    · simp [biHasBit]
    · have hone : [x].foldl (assBi w) ⟨0, 0⟩ = ⟨1, wordOfInt w x⟩ := rfl
      have hhalf := Nat.lt_two_pow_self (n := w - 1)
      obtain ⟨hlo, hhi⟩ := hP x (hxs x List.mem_cons_self)
      have hodd : (⟨1, wordOfInt w x⟩ : Bitint).pos % 2 = 1 := rfl
      rw [hone, if_pos hodd, List.mem_singleton]
      dsimp only
      rw [intOfWord_wordOfInt (by omega) (by omega) (by omega)]
    · simp at hlong
  · have heven : (xs.foldl (assBi w) ⟨0, 0⟩).pos % 2 = 0 := by
      rcases xs with _ | ⟨x, xs⟩
      · simp at hlong
      · obtain ⟨hset1, hmem1⟩ := (intSet_zero w P).ass hw hP (hxs x List.mem_cons_self)
        refine assAll_even hw hP hset1 (biHasBit_nonempty ((hmem1 x).mpr (Or.inl rfl)))
          (fun y hy => hxs y (List.mem_cons_of_mem _ hy)) (Or.inl ?_)
        rintro rfl
        simp at hlong
    have hpos : (xs.foldl (assBi w) ⟨0, 0⟩).pos ≠ 0 ↔ ∃ p ∈ xs, 0 < p := by
      constructor
      · intro hne
        obtain ⟨i, hi⟩ := Nat.exists_testBit_of_ne_zero hne
        have hi0 : i ≠ 0 := by
          rintro rfl
          rw [Nat.testBit_zero] at hi
          simp [heven] at hi
        refine ⟨(i : Int), (hmem i).mp ?_, by omega⟩
        rw [biHasBit_even heven, if_pos (by omega)]
        exact hi
      · rintro ⟨p, hp, h0⟩ hz
        have hbit := (hmem p).mpr hp
        rw [biHasBit_even heven, if_pos h0, hz, Nat.zero_testBit] at hbit
        cases hbit
    rw [if_neg (by omega), hmem, hpos]
    constructor
    · rintro ⟨-, -, hy, hreach⟩
      exact ⟨hy, Or.inr hreach⟩
    · rintro ⟨hy, hreach⟩
      have hrange := hP y (hxs y hy)
      exact ⟨hrange.1, hrange.2, hy, hreach.resolve_left hlong⟩

/-- Without naught it is all of them or none. -/
theorem mem_assAllBi (hw : 1 < w) (hP : ∀ x, P x → x ≠ 0 ∧ -(w : Int) < x ∧ x < w) {xs : List Int}
    (hxs : ∀ x ∈ xs, P x) {fuel : Nat} (hf : 2 * w ≤ fuel) (y : Int) :
    y ∈ drain (biNext w (xs.foldl (assBi w) ⟨0, 0⟩)) fuel 0 ↔
      y ∈ xs ∧ (xs.length ≤ 1 ∨ ∃ p ∈ xs, 0 < p) := by
  rw [mem_drain_assAllBi hw (fun x hx => (hP x hx).2) hxs hf]
  refine and_congr_right fun hy => or_congr_right (or_iff_right_of_imp fun h0 => ⟨y, hy, ?_⟩)
  have hne := (hP y (hxs y hy)).1
  omega

end Signed

end Echse
