/-
The first occurrence of a list in another.

`search` tries every place from the left.  It is what a faster search has to agree with,
and `search_eq_some_iff` says what it finds.
-/
import Mathlib.Data.List.Infix

namespace Search

variable {α : Type} [DecidableEq α]

/-- Where `ndl` is first found in `hay`. -/
def search (ndl : List α) : List α → Option Nat
  | [] => if ndl = [] then some 0 else none
  | c :: hay => if ndl <+: c :: hay then some 0 else (search ndl hay).map (· + 1)

theorem search_of_front {ndl hay : List α} (h : ndl <+: hay) : search ndl hay = some 0 := by
  cases hay with
  | nil => exact if_pos (List.prefix_nil.mp h)
  | cons c hay => exact if_pos h

theorem search_cons {ndl : List α} {c : α} {hay : List α} (h : ¬ ndl <+: c :: hay) :
    search ndl (c :: hay) = (search ndl hay).map (· + 1) :=
  if_neg h

theorem search_tail {ndl hay : List α} (hne : hay ≠ []) (h : ¬ ndl <+: hay) :
    search ndl hay = (search ndl hay.tail).map (· + 1) := by
  cases hay with
  | nil => exact absurd rfl hne
  | cons c hay => exact search_cons h

theorem search_eq_some_iff {ndl hay : List α} {i : Nat} :
    search ndl hay = some i ↔ i ≤ hay.length ∧ ndl <+: hay.drop i ∧ ∀ j < i, ¬ ndl <+: hay.drop j := by
  induction hay generalizing i with
  | nil =>
      rw [search, List.drop_nil, List.prefix_nil]
      constructor
      · intro h
        split at h
        · next hnil =>
            obtain rfl := Option.some.inj h
            exact ⟨le_rfl, hnil, fun j hj => absurd hj (Nat.not_lt_zero j)⟩
        · cases h
      · rintro ⟨hi, hnil, -⟩
        rw [if_pos hnil, Nat.le_zero.mp hi]
  | cons c hay ih =>
      by_cases hp : ndl <+: c :: hay
      · rw [search_of_front hp, Option.some_inj]
        constructor
        · rintro rfl
          exact ⟨Nat.zero_le _, hp, fun j hj => absurd hj (Nat.not_lt_zero j)⟩
        · rintro ⟨-, -, hfirst⟩
          by_contra hi
          exact hfirst 0 (by omega) hp
      · rw [search_cons hp, Option.map_eq_some_iff]
        constructor
        · rintro ⟨k, hk, rfl⟩
          obtain ⟨hle, hpre, hfirst⟩ := ih.mp hk
          refine ⟨Nat.succ_le_succ hle, hpre, ?_⟩
          intro j hj
          cases j with
          | zero => exact hp
          | succ j => exact hfirst j (by omega)
        · rintro ⟨hle, hpre, hfirst⟩
          cases i with
          | zero => exact absurd hpre hp
          | succ k =>
              refine ⟨k, ih.mpr ⟨Nat.le_of_succ_le_succ hle, hpre, ?_⟩, rfl⟩
              intro j hj
              exact hfirst (j + 1) (by omega)

theorem search_eq_none_iff {ndl hay : List α} :
    search ndl hay = none ↔ ∀ i ≤ hay.length, ¬ ndl <+: hay.drop i := by
  induction hay with
  | nil =>
      rw [search]
      constructor
      · intro h i _ hpre
        rw [List.drop_nil, List.prefix_nil] at hpre
        rw [if_pos hpre] at h
        cases h
      · intro h
        exact if_neg fun hnil => h 0 le_rfl (List.prefix_nil.mpr hnil)
  | cons c hay ih =>
      by_cases hp : ndl <+: c :: hay
      · rw [search_of_front hp]
        constructor
        · intro h
          cases h
        · intro h
          exact absurd hp (h 0 (Nat.zero_le _))
      · rw [search_cons hp, Option.map_eq_none_iff, ih]
        constructor
        · intro h i hi
          cases i with
          | zero => exact hp
          | succ i => exact h i (Nat.le_of_succ_le_succ hi)
        · intro h i hi
          exact h (i + 1) (Nat.succ_le_succ hi)

/-- Nothing longer than the rest is found in it. -/
theorem search_of_short {ndl hay : List α} (h : hay.length < ndl.length) : search ndl hay = none := by
  refine search_eq_none_iff.mpr ?_
  intro i _ hpre
  have hlen := hpre.length_le
  rw [List.length_drop] at hlen
  omega

/-- What does not begin like the list can be skipped. -/
theorem search_skip {x : α} {ndl pre hay : List α} (h : x ∉ pre) :
    search (x :: ndl) (pre ++ hay) = (search (x :: ndl) hay).map (· + pre.length) := by
  induction pre with
  | nil => simp
  | cons c pre ih =>
      have hc : ¬ (x :: ndl) <+: c :: (pre ++ hay) := by
        intro hpre
        exact h (by rw [(List.cons_prefix_cons.mp hpre).1]; exact List.mem_cons_self)
      rw [List.cons_append, search_cons hc, ih fun hx => h (List.mem_cons_of_mem _ hx), Option.map_map]
      rfl

end Search
