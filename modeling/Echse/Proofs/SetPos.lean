/-
Thinning candidates by their positions: `clr_poss`.

It goes through the positions and, along with them, through the candidates, by the difference
of a position to the one before.  That is right as long as the candidates last.  Past
their end the iterator starts over, but the position it is compared with stays where it is, so
the next position beyond the end is taken from the start.
-/
import Echse.Shift
import Echse.Proofs.Members
import Echse.Lib.Picks

namespace Echse

open Picks (pick)

/-! ### Iterators and what is left of them -/

/-- From a position on, an iterator yields these values. -/
inductive Yields (next : Nat → Int × Nat) : Nat → List Int → Prop
  | done {i : Nat} (h : next i = (0, 0)) : Yields next i []
  | more {i k : Nat} {x : Int} {xs : List Int} (h : next i = (x, k)) (hk : k ≠ 0)
      (hrest : Yields next k xs) : Yields next i (x :: xs)

/-- An iterator ends with naught. -/
theorem bintsNext_end {n : Nat} {bi : Bitints} {i : Nat} (h : (bintsNext n bi i).2 = 0) :
    bintsNext n bi i = (0, 0) := by
  have hneg : ∀ b lo, (bintsNextNeg n b lo).2 = 0 → bintsNextNeg n b lo = (0, 0) := by
    intro b lo hz
    unfold bintsNextNeg at hz ⊢
    split at hz
    · exact absurd hz (Nat.succ_ne_zero _)
    · rfl
  unfold bintsNext at h ⊢
  cases bi with
  | native xs =>
      dsimp only at h ⊢
      split at h
      · rfl
      · exact absurd h (Nat.succ_ne_zero _)
  | bits b =>
      dsimp only at h ⊢
      generalize (if i = 0 then 1 else i) = it at h ⊢
      split at h
      · exact absurd h Nat.one_ne_zero
      · rename_i h0
        rw [if_neg h0]
        split at h
        · rename_i hlt
          rw [if_pos hlt]
          split at h
          · exact absurd h (Nat.succ_ne_zero _)
          · exact hneg b _ h
        · rename_i hlt
          rw [if_neg hlt]
          split at h
          · rename_i hin
            rw [if_pos hin]
            exact hneg b _ h
          · rename_i hin
            rw [if_neg hin]

theorem yields_drain {bi : Bitints} (fuel : Nat) : ∀ i,
    (drain (bi383Next bi) fuel i).length < fuel →
      Yields (bi383Next bi) i (drain (bi383Next bi) fuel i) := by
  induction fuel with
  | zero =>
      intro i h
      cases h
  | succ fuel ih =>
      intro i h
      rw [drain] at h ⊢
      by_cases hz : (bi383Next bi i).2 = 0
      · rw [if_pos hz]
        exact Yields.done (bintsNext_end hz)
      · rw [if_neg hz] at h ⊢
        exact Yields.more rfl hz (ih _ (Nat.lt_of_succ_lt_succ h))

/-- A sorted list between two bounds is no longer than they are apart. -/
theorem length_le_of_sorted {xs : List Int} {a b : Int} (hle : a ≤ b)
    (hsort : xs.Pairwise (· < ·)) (hrange : ∀ x ∈ xs, a < x ∧ x ≤ b) :
    xs.length ≤ (b - a).toNat := by
  induction xs generalizing a with
  | nil => exact Nat.zero_le _
  | cons x xs ih =>
      obtain ⟨hx, hxs⟩ := List.pairwise_cons.mp hsort
      obtain ⟨h1, h2⟩ := hrange x List.mem_cons_self
      have hrest := ih (a := x) h2 hxs fun y hy =>
        ⟨hx y hy, (hrange y (List.mem_cons_of_mem _ hy)).2⟩
      rw [List.length_cons]
      omega

theorem CodeSet.yields {c : Bitints} (h : CodeSet c) : Yields (bi383Next c) 0 (bi383List c) := by
  refine yields_drain 769 0 ?_
  have hlen := length_le_of_sorted (a := 0) (b := 383) (by decide) h.sorted fun x hx => by
    have := h.range x hx
    omega
  exact lt_of_le_of_lt hlen (by decide)

/-- Shaving off as many candidates as there are leads to the last of them. -/
theorem shaveCand_within {cand : Bitints} {p : Nat} : ∀ {ci : Nat} {xs : List Int} (c : Int),
    Yields (bi383Next cand) ci xs → p ≤ xs.length →
      ∃ ci', shaveCand cand p c ci = (if p = 0 then c else xs.getD (p - 1) 0, ci') ∧
        Yields (bi383Next cand) ci' (xs.drop p) := by
  induction p with
  | zero => exact fun c h _ => ⟨_, rfl, h⟩
  | succ p ih =>
      intro ci xs c h hp
      cases h with
      | done h => simp at hp
      | more h hk hrest =>
          rename_i k x xs
          obtain ⟨ci', hshave, hyields⟩ := ih x hrest (by simpa using hp)
          refine ⟨ci', ?_, hyields⟩
          unfold shaveCand
          rw [h, if_neg hk, hshave, if_neg (Nat.succ_ne_zero p), Nat.add_sub_cancel]
          cases p with
          | zero => rfl
          | succ p => rfl

/-- Beyond them it leads to none and back to the start. -/
theorem shaveCand_beyond {cand : Bitints} {p : Nat} : ∀ {ci : Nat} {xs : List Int} (c : Int),
    Yields (bi383Next cand) ci xs → xs.length < p → shaveCand cand p c ci = (0, 0) := by
  induction p with
  | zero => exact fun c _ hp => absurd hp (Nat.not_lt_zero _)
  | succ p ih =>
      intro ci xs c h hp
      unfold shaveCand
      cases h with
      | done h => rw [h, if_pos rfl]
      | more h hk hrest =>
          rw [h, if_neg hk]
          exact ih _ hrest (by simpa using hp)

/-! ### The ranks that are selected -/

/-- The ranks that the positions lead to, from rank `r` and position `prev` on. -/
def walkPoss (n : Nat) : Nat → Int → List Int → List Nat
  | _, _, [] => []
  | r, prev, p :: ps =>
      let r := if p < prev then 0 else r
      let k := (p - if p < prev then 0 else prev).toNat
      if n < r + k then walkPoss n 0 p ps
      else if k = 0 then walkPoss n r p ps
      else (r + k) :: walkPoss n (r + k) p ps

/-- A position from the end as one from the start. -/
def fromStart (n : Nat) (p : Int) : Int := if p < 0 then (n : Int) + p + 1 else p

/-- **What `clr_poss` adds to its result** are the candidates of these ranks. -/
theorem clrPoss_walk {cand : Bitints} (hc : CodeSet cand) (ps : List Int) :
    ∀ (st : PossSt) {r : Nat}, r ≤ (bi383List cand).length →
      Yields (bi383Next cand) st.ci ((bi383List cand).drop r) → CodeSet st.res →
      CodeSet (ps.foldl (clrPossStep cand (bi383List cand).length) st).res ∧
        ∀ x, x ∈ bi383List (ps.foldl (clrPossStep cand (bi383List cand).length) st).res ↔
          (∃ k ∈ walkPoss (bi383List cand).length r st.prev
              (ps.map (fromStart (bi383List cand).length)), (bi383List cand)[k - 1]? = some x) ∨
            x ∈ bi383List st.res := by
  set xs := bi383List cand with hxs
  induction ps with
  | nil =>
      intro st r _ _ hres
      exact ⟨hres, fun x => by simp [walkPoss]⟩
  | cons p ps ih =>
      intro st r hr hyields hres
      rw [List.foldl_cons, List.map_cons]
      unfold walkPoss
      dsimp only
      -- after the reset
      generalize hr' : (if fromStart xs.length p < st.prev then 0 else r) = r'
      generalize hci : (if fromStart xs.length p < st.prev then 0 else st.ci) = ci'
      have hstart : r' ≤ xs.length ∧ Yields (bi383Next cand) ci' (xs.drop r') := by
        rw [← hr', ← hci]
        split
        · exact ⟨Nat.zero_le _, hc.yields⟩
        · exact ⟨hr, hyields⟩
      obtain ⟨hr'le, hyields'⟩ := hstart
      generalize hk : (fromStart xs.length p - if fromStart xs.length p < st.prev then 0
        else st.prev).toNat = k
      have hstep : clrPossStep cand xs.length st p =
          ⟨(shaveCand cand k 0 ci').2, fromStart xs.length p,
            if 0 < (shaveCand cand k 0 ci').1 then assBi383 st.res (shaveCand cand k 0 ci').1
            else st.res⟩ := by
        rw [← hk, ← hci]
        rfl
      rw [hstep]
      by_cases hgt : xs.length < r' + k
      · rw [if_pos hgt, shaveCand_beyond 0 hyields' (by rw [List.length_drop]; omega)]
        exact ih ⟨0, fromStart xs.length p, st.res⟩ (Nat.zero_le _) hc.yields hres
      · rw [if_neg hgt]
        obtain ⟨ci'', hshave, hyields''⟩ :=
          shaveCand_within (p := k) 0 hyields' (by rw [List.length_drop]; omega)
        rw [List.drop_drop] at hyields''
        rw [hshave]
        dsimp only
        by_cases hk0 : k = 0
        · subst hk0
          rw [if_pos rfl, if_pos rfl, if_neg (by decide)]
          exact ih ⟨ci'', fromStart xs.length p, st.res⟩ hr'le hyields'' hres
        · have hlt : r' + k - 1 < xs.length := by omega
          have hget : (xs.drop r').getD (k - 1) 0 = xs[r' + k - 1] := by
            rw [List.getD_eq_getElem _ _ (by rw [List.length_drop]; omega), List.getElem_drop]
            congr 1
            omega
          have hrange := hc.range (xs[r' + k - 1]) (List.getElem_mem hlt)
          rw [if_neg hk0, if_neg hk0, hget, if_pos (by omega)]
          obtain ⟨hcode, hmem⟩ := ih
            ⟨ci'', fromStart xs.length p, assBi383 st.res xs[r' + k - 1]⟩ (r := r' + k) (by omega) hyields'' (hres.ass hrange.1 hrange.2)
          refine ⟨hcode, fun x => ?_⟩
          rw [hmem, hres.mem_ass hrange.1 hrange.2, List.exists_mem_cons_iff,
            List.getElem?_eq_getElem hlt, Option.some.injEq]
          constructor
          · rintro (h | rfl | h)
            · exact Or.inl (Or.inr h)
            · exact Or.inl (Or.inl rfl)
            · exact Or.inr h
          · rintro ((rfl | h) | h)
            · exact Or.inr (Or.inl rfl)
            · exact Or.inl h
            · exact Or.inr (Or.inr h)

/-! ### Positions in order -/

/-- The ranks that positions beyond the end are taken for: the distances between them, added up
as long as that stays within the end, and then over again. -/
def strays (n : Nat) : Nat → List Nat → List Nat
  | r, q :: q' :: qs =>
      if r + (q' - q) ≤ n then (r + (q' - q)) :: strays n (r + (q' - q)) (q' :: qs)
      else strays n 0 (q' :: qs)
  | _, _ => []

variable {n : Nat}

/-- Ascending positions up to the end are ranks. -/
theorem walkPoss_within {qs : List Nat} (rest : List Int) : ∀ {r : Nat}, (r :: qs).Pairwise (· < ·) →
    (∀ q ∈ qs, q ≤ n) →
      walkPoss n r r (qs.map (Nat.cast : Nat → Int) ++ rest) =
        qs ++ walkPoss n (qs.getLast?.getD r) (qs.getLast?.getD r : Nat) rest := by
  induction qs with
  | nil => exact fun _ _ => rfl
  | cons q qs ih =>
      intro r hsort hle
      obtain ⟨hr, hsort'⟩ := List.pairwise_cons.mp hsort
      have hlt := hr q List.mem_cons_self
      have hqn := hle q List.mem_cons_self
      have hk : ((q : Int) - r).toNat = q - r := by omega
      have hno : ¬ (q : Int) < r := by omega
      rw [List.map_cons, List.cons_append, walkPoss]
      simp only [if_neg hno]
      rw [hk, if_neg (by omega), if_neg (by omega), show r + (q - r) = q by omega,
        ih hsort' fun p hp => hle p (List.mem_cons_of_mem _ hp), List.getLast?_cons]
      rfl

/-- Beyond the end they are taken for others. -/
theorem walkPoss_beyond {qs : List Nat} (rest : List Int) : ∀ {r q : Nat}, r ≤ n →
    (q :: qs).Pairwise (· < ·) →
      ∃ r' ≤ n, walkPoss n r q (qs.map (Nat.cast : Nat → Int) ++ rest) =
        strays n r (q :: qs) ++ walkPoss n r' (qs.getLast?.getD q : Nat) rest := by
  induction qs with
  | nil => exact fun {r} _ hr _ => ⟨r, hr, rfl⟩
  | cons q' qs ih =>
      intro r q hr hsort
      obtain ⟨hq, hsort'⟩ := List.pairwise_cons.mp hsort
      have hlt := hq q' List.mem_cons_self
      have hk : ((q' : Int) - q).toNat = q' - q := by omega
      have hno : ¬ (q' : Int) < q := by omega
      rw [List.map_cons, List.cons_append, walkPoss, strays]
      simp only [if_neg hno]
      rw [hk, List.getLast?_cons]
      by_cases hle : r + (q' - q) ≤ n
      · obtain ⟨r', hr', hwalk⟩ := ih hle hsort'
        rw [if_neg (by omega), if_neg (by omega), if_pos hle, hwalk]
        exact ⟨r', hr', rfl⟩
      · obtain ⟨r', hr', hwalk⟩ := ih (Nat.zero_le n) hsort'
        rw [if_pos (by omega), if_neg hle, hwalk]
        exact ⟨r', hr', rfl⟩

/-- Descending positions are ranks each for itself. -/
theorem mem_walkPoss_desc {ps : List Int} : ∀ {r : Nat} {prev : Int}, ps.Pairwise (· > ·) →
    (∀ p ∈ ps, p ≤ n ∧ p < prev) → ∀ k, k ∈ walkPoss n r prev ps ↔ 0 < k ∧ (k : Int) ∈ ps := by
  induction ps with
  | nil => exact fun _ _ k => by simp [walkPoss]
  | cons p ps ih =>
      intro r prev hsort hps k
      obtain ⟨hp, hsort'⟩ := List.pairwise_cons.mp hsort
      obtain ⟨hpn, hprev⟩ := hps p List.mem_cons_self
      have hrest : ∀ r', k ∈ walkPoss n r' p ps ↔ 0 < k ∧ (k : Int) ∈ ps := fun r' =>
        ih hsort' (fun q hq => ⟨(hps q (List.mem_cons_of_mem _ hq)).1, hp q hq⟩) k
      rw [walkPoss]
      simp only [if_pos hprev]
      rw [if_neg (by omega), List.mem_cons]
      by_cases h0 : (p - 0).toNat = 0
      · rw [if_pos h0, hrest]
        exact ⟨fun h => ⟨h.1, Or.inr h.2⟩, fun h => ⟨h.1, h.2.resolve_left (by omega)⟩⟩
      · rw [if_neg h0, List.mem_cons, hrest]
        constructor
        · rintro (h | h)
          · exact ⟨by omega, Or.inl (by omega)⟩
          · exact ⟨h.1, Or.inr h.2⟩
        · rintro ⟨hk, h | h⟩
          · exact Or.inl (by omega)
          · exact Or.inr ⟨hk, h⟩

/-- So they are after a rank that has been selected. -/
theorem mem_walkPoss_after {ps : List Int} {r : Nat} (hsort : ps.Pairwise (· > ·))
    (hps : ∀ p ∈ ps, p ≤ n) (k : Nat) :
    k ∈ walkPoss n r r ps ∨ (0 < k ∧ k = r) ↔ (0 < k ∧ (k : Int) ∈ ps) ∨ (0 < k ∧ k = r) := by
  cases ps with
  | nil => simp [walkPoss]
  | cons p ps =>
      obtain ⟨hp, hsort'⟩ := List.pairwise_cons.mp hsort
      by_cases hlt : p < r
      · rw [mem_walkPoss_desc hsort fun q hq => ⟨hps q hq, ?_⟩]
        rcases List.mem_cons.mp hq with rfl | hq
        · exact hlt
        · exact lt_trans (hp q hq) hlt
      · have hpn := hps p List.mem_cons_self
        have hrest : ∀ r', k ∈ walkPoss n r' p ps ↔ 0 < k ∧ (k : Int) ∈ ps := fun r' =>
          mem_walkPoss_desc hsort' (fun q hq => ⟨hps q (List.mem_cons_of_mem _ hq), hp q hq⟩) k
        rw [walkPoss]
        simp only [if_neg hlt]
        rw [if_neg (by omega), List.mem_cons]
        by_cases h0 : (p - r).toNat = 0
        · rw [if_pos h0, hrest]
          have hpr : p = r := by omega
          constructor
          · rintro (h | h)
            · exact Or.inl ⟨h.1, Or.inr h.2⟩
            · exact Or.inr h
          · rintro (⟨hk, h | h⟩ | h)
            · exact Or.inr ⟨hk, by omega⟩
            · exact Or.inl ⟨hk, h⟩
            · exact Or.inr h
        · rw [if_neg h0, List.mem_cons, hrest]
          constructor
          · rintro ((h | h) | h)
            · exact Or.inl ⟨by omega, Or.inl (by omega)⟩
            · exact Or.inl ⟨h.1, Or.inr h.2⟩
            · exact Or.inr h
          · rintro (⟨hk, h | h⟩ | h)
            · exact Or.inl (Or.inl (by omega))
            · exact Or.inl (Or.inr ⟨hk, h⟩)
            · exact Or.inr h

/-- **The ranks that positions lead to**: those they stand for and the strays. -/
theorem mem_walkPoss {within beyond : List Nat} {back : List Int}
    (hwithin : (0 :: within).Pairwise (· < ·)) (hle : ∀ q ∈ within, q ≤ n)
    (hbeyond : beyond.Pairwise (· < ·)) (hgt : ∀ q ∈ beyond, n < q)
    (hback : back.Pairwise (· > ·)) (hbn : ∀ p ∈ back, p ≤ n) (k : Nat) :
    k ∈ walkPoss n 0 0 (within.map (Nat.cast : Nat → Int) ++
        (beyond.map (Nat.cast : Nat → Int) ++ back)) ↔
      (0 < k ∧ (k ∈ within ∨ (k : Int) ∈ back)) ∨ k ∈ strays n 0 beyond := by
  have hpos : ∀ q ∈ within, 0 < q := (List.pairwise_cons.mp hwithin).1
  have hwalk := walkPoss_within (n := n) (beyond.map (Nat.cast : Nat → Int) ++ back) hwithin hle
  rw [Nat.cast_zero] at hwalk
  rw [hwalk, List.mem_append]
  -- the last of the first ones
  obtain ⟨last, hlast, hlastn, hmem⟩ : ∃ last, within.getLast?.getD 0 = last ∧ last ≤ n ∧
      (last = 0 ∨ last ∈ within) := by
    cases h : within.getLast? with
    | none => exact ⟨0, rfl, Nat.zero_le n, Or.inl rfl⟩
    | some q =>
        have hq := List.mem_of_getLast? h
        exact ⟨q, rfl, hle q hq, Or.inr hq⟩
  rw [hlast]
  cases beyond with
  | nil =>
      have hnil : strays n 0 [] = [] := by simp [strays]
      rw [List.map_nil, List.nil_append, hnil]
      have hafter := @mem_walkPoss_after n back last hback hbn k
      constructor
      · rintro (h | h)
        · exact Or.inl ⟨hpos k h, Or.inl h⟩
        · rcases hafter.mp (Or.inl h) with h | ⟨hk, rfl⟩
          · exact Or.inl ⟨h.1, Or.inr h.2⟩
          · exact Or.inl ⟨hk, Or.inl (hmem.resolve_left (by omega))⟩
      · rintro (⟨hk, h | h⟩ | h)
        · exact Or.inl h
        · rcases hafter.mpr (Or.inl ⟨hk, h⟩) with h | ⟨hk, rfl⟩
          · exact Or.inr h
          · exact Or.inl (hmem.resolve_left (by omega))
        · cases h
  | cons q qs =>
      have hq := hgt q List.mem_cons_self
      have hno : ¬ (q : Int) < last := by omega
      rw [List.map_cons, List.cons_append, walkPoss]
      simp only [if_neg hno]
      rw [if_pos (by omega)]
      obtain ⟨r', -, hstray⟩ := walkPoss_beyond back (Nat.zero_le n) hbeyond
      rw [hstray, List.mem_append, mem_walkPoss_desc hback fun p hp => ⟨hbn p hp, ?_⟩]
      · constructor
        · rintro (h | h | h)
          · exact Or.inl ⟨hpos k h, Or.inl h⟩
          · exact Or.inr h
          · exact Or.inl ⟨h.1, Or.inr h.2⟩
        · rintro (⟨hk, h | h⟩ | h)
          · exact Or.inl h
          · exact Or.inr (Or.inr ⟨hk, h⟩)
          · exact Or.inr (Or.inl h)
      · -- the end lies before the last position
        have hend : n < qs.getLast?.getD q := by
          cases h : qs.getLast? with
          | none => exact hq
          | some q' => exact hgt q' (List.mem_cons_of_mem _ (List.mem_of_getLast? h))
        have := hbn p hp
        omega

/-! ### The positions of a set -/

/-- The numbers up to 366 that meet a condition, in order. -/
def upTo366 (P : Nat → Prop) [DecidablePred P] : List Nat := (List.range 367).filter (P ·)

section Positions

variable {P : Nat → Prop} [DecidablePred P]

theorem mem_upTo366 (q : Nat) : q ∈ upTo366 P ↔ q ≤ 366 ∧ P q := by
  unfold upTo366
  rw [List.mem_filter, List.mem_range, decide_eq_true_eq, Nat.lt_succ_iff]

theorem upTo366_sorted : (upTo366 P).Pairwise (· < ·) := List.pairwise_lt_range.filter _

end Positions

/-- The positions within a number of candidates. -/
def within (n : Nat) (ps : List Int) : List Nat := upTo366 fun q => 0 < q ∧ q ≤ n ∧ (q : Int) ∈ ps

/-- The positions beyond a number of candidates. -/
def beyond (n : Nat) (ps : List Int) : List Nat := upTo366 fun q => n < q ∧ (q : Int) ∈ ps

/-- The positions that count from the end. -/
def fromEnd (ps : List Int) : List Nat := upTo366 fun q => 0 < q ∧ -(q : Int) ∈ ps

/-- This is how a set of positions is gone through. -/
theorem positions_eq (n : Nat) {ps : List Int} (hps : ∀ p ∈ ps, Signed366 p) :
    bi383List (ass383All ps) = (within n ps).map (Nat.cast : Nat → Int) ++
      ((beyond n ps).map (Nat.cast : Nat → Int) ++ (fromEnd ps).map fun q : Nat => -(q : Int)) := by
  have hirr : Std.Irrefl fun x y : Int => bintsKey 12 x < bintsKey 12 y :=
    ⟨fun _ => Nat.lt_irrefl _⟩
  have hkey : ∀ q : Nat, bintsKey 12 q = q := fun q => if_pos (by omega)
  have hneg : ∀ q : Nat, 0 < q → bintsKey 12 (-(q : Int)) = 384 + q := fun q h => by
    unfold bintsKey
    rw [if_neg (by omega)]
    omega
  have hwithin : ∀ q, q ∈ within n ps ↔ q ≤ 366 ∧ 0 < q ∧ q ≤ n ∧ (q : Int) ∈ ps := mem_upTo366
  have hbeyond : ∀ q, q ∈ beyond n ps ↔ q ≤ 366 ∧ n < q ∧ (q : Int) ∈ ps := mem_upTo366
  have hend : ∀ q, q ∈ fromEnd ps ↔ q ≤ 366 ∧ 0 < q ∧ -(q : Int) ∈ ps := mem_upTo366
  refine List.Pairwise.eq_of_mem_iff (ass383All_inOrder hps) ?_ fun x => ?_
  · rw [List.pairwise_append, List.pairwise_append, List.pairwise_map, List.pairwise_map,
      List.pairwise_map]
    refine ⟨upTo366_sorted.imp fun h => ?_, ⟨upTo366_sorted.imp fun h => ?_,
      upTo366_sorted.imp_of_mem fun hp hq h => ?_, ?_⟩, ?_⟩
    · rwa [hkey, hkey]
    · rwa [hkey, hkey]
    · rw [hneg _ ((hend _).mp hp).2.1, hneg _ ((hend _).mp hq).2.1]
      omega
    · simp only [List.mem_map]
      rintro _ ⟨q, hq, rfl⟩ _ ⟨p, hp, rfl⟩
      have := (hbeyond q).mp hq
      rw [hkey, hneg _ ((hend p).mp hp).2.1]
      omega
    · simp only [List.mem_append, List.mem_map]
      rintro _ ⟨q, hq, rfl⟩ _ (⟨p, hp, rfl⟩ | ⟨p, hp, rfl⟩)
      · have h1 := (hwithin q).mp hq
        have h2 := (hbeyond p).mp hp
        rw [hkey, hkey]
        omega
      · have := (hwithin q).mp hq
        rw [hkey, hneg _ ((hend p).mp hp).2.1]
        omega
  · rw [mem_ass383All hps]
    simp only [List.mem_append, List.mem_map]
    constructor
    · intro hx
      obtain ⟨h0, hlo, hhi⟩ := hps x hx
      by_cases hpos : 0 < x
      · have hcast : ((x.toNat : Nat) : Int) = x := Int.toNat_of_nonneg (by omega)
        by_cases hle : x.toNat ≤ n
        · exact Or.inl ⟨x.toNat, (hwithin _).mpr ⟨by omega, by omega, hle, hcast.symm ▸ hx⟩, hcast⟩
        · exact Or.inr (Or.inl ⟨x.toNat,
            (hbeyond _).mpr ⟨by omega, by omega, hcast.symm ▸ hx⟩, hcast⟩)
      · have hcast : -(((-x).toNat : Nat) : Int) = x := by omega
        exact Or.inr (Or.inr ⟨(-x).toNat,
          (hend _).mpr ⟨by omega, by omega, hcast.symm ▸ hx⟩, hcast⟩)
    · rintro (⟨q, hq, rfl⟩ | ⟨q, hq, rfl⟩ | ⟨q, hq, rfl⟩)
      · exact ((hwithin q).mp hq).2.2.2
      · exact ((hbeyond q).mp hq).2.2
      · exact ((hend q).mp hq).2.2

/-- A rank is selected if a position stands for it. -/
theorem exists_pick_rank {ps : List Int} (hps : ∀ p ∈ ps, Signed366 p) (k : Nat) :
    (∃ p ∈ ps, pick (List.range' 1 n) p = some k) ↔
      0 < k ∧ (k ∈ within n ps ∨ (k : Int) ∈ (fromEnd ps).map fun q : Nat => fromStart n (-(q : Int))) := by
  have hwithin : ∀ q, q ∈ within n ps ↔ q ≤ 366 ∧ 0 < q ∧ q ≤ n ∧ (q : Int) ∈ ps := mem_upTo366
  have hend : ∀ q, q ∈ fromEnd ps ↔ q ≤ 366 ∧ 0 < q ∧ -(q : Int) ∈ ps := mem_upTo366
  have hstart : ∀ q : Nat, 0 < q → fromStart n (-(q : Int)) = n - q + 1 := fun q h => by
    unfold fromStart
    rw [if_pos (by omega)]
    omega
  simp only [List.mem_map]
  constructor
  · rintro ⟨p, hp, hpick⟩
    have hrange := hps p hp
    unfold Signed366 at hrange
    rw [Picks.pick_range'] at hpick
    split at hpick
    · cases hpick
      have hcast : ((p.toNat : Nat) : Int) = p := by omega
      exact ⟨by omega, Or.inl ((hwithin _).mpr ⟨by omega, by omega, by omega, hcast.symm ▸ hp⟩)⟩
    · split at hpick
      · cases hpick
        have hcast : -(((-p).toNat : Nat) : Int) = p := by omega
        refine ⟨by omega, Or.inr ⟨(-p).toNat,
          (hend _).mpr ⟨by omega, by omega, hcast.symm ▸ hp⟩, ?_⟩⟩
        rw [hstart _ (by omega)]
        omega
      · cases hpick
  · rintro ⟨hk, hin | ⟨q, hq, hkq⟩⟩
    · obtain ⟨-, h0, hn, hmem⟩ := (hwithin k).mp hin
      refine ⟨k, hmem, ?_⟩
      rw [Picks.pick_range', if_pos (by omega), Int.toNat_natCast]
    · obtain ⟨-, h0, hmem⟩ := (hend q).mp hq
      rw [hstart q h0] at hkq
      refine ⟨_, hmem, ?_⟩
      rw [Picks.pick_range', if_neg (by omega), if_pos (by omega)]
      congr 1
      omega

/-! ### What is left -/

theorem strays_range {qs : List Nat} : ∀ {r : Nat}, qs.Pairwise (· < ·) →
    ∀ k ∈ strays n r qs, 0 < k ∧ k ≤ n := by
  induction qs with
  | nil => exact fun _ k hk => absurd hk (by simp [strays])
  | cons q qs ih =>
      intro r hsort k hk
      obtain ⟨hq, hsort'⟩ := List.pairwise_cons.mp hsort
      cases qs with
      | nil => simp [strays] at hk
      | cons q' qs =>
          have hlt := hq q' List.mem_cons_self
          rw [strays] at hk
          split at hk
          · rename_i hle
            rcases List.mem_cons.mp hk with rfl | hk
            · exact ⟨by omega, hle⟩
            · exact ih hsort' k hk
          · exact ih hsort' k hk

/-- What `clr_poss` leaves: what the positions stand for and the strays. -/
theorem mem_clrPoss {cand : Bitints} (hc : CodeSet cand) {ps : List Int}
    (hps : ∀ p ∈ ps, Signed366 p) (hne : ps ≠ []) (x : Int) :
    x ∈ bi383List (clrPoss cand (ass383All ps)) ↔
      ∃ k, ((∃ p ∈ ps, pick (List.range' 1 (bi383List cand).length) p = some k) ∨
        k ∈ strays (bi383List cand).length 0 (beyond (bi383List cand).length ps)) ∧
          (bi383List cand)[k - 1]? = some x := by
  have hbits : bi383HasBits (ass383All ps) = true := by
    obtain ⟨p, hp⟩ := List.exists_mem_of_ne_nil ps hne
    have hmem := (mem_ass383All hps p).mpr hp
    cases h : ass383All ps with
    | bits b => rfl
    | native xs =>
        cases xs with
        | cons y ys => rfl
        | nil =>
            rw [h] at hmem
            cases hmem
  unfold clrPoss
  rw [hbits, Bool.not_true, if_neg Bool.false_ne_true]
  set n := (bi383List cand).length with hn
  have hwalk := (clrPoss_walk hc (bi383List (ass383All ps)) ⟨0, 0, .nil⟩ (r := 0)
    (Nat.zero_le _) hc.yields codeSet_nil).2 x
  have hmap : (bi383List (ass383All ps)).map (fromStart n) =
      (within n ps).map (Nat.cast : Nat → Int) ++ ((beyond n ps).map (Nat.cast : Nat → Int) ++
        (fromEnd ps).map fun q : Nat => fromStart n (-(q : Int))) := by
    have hcast : ∀ q : Nat, fromStart n (q : Int) = q := fun q => if_neg (by omega)
    rw [positions_eq n hps, List.map_append, List.map_append, List.map_map, List.map_map,
      List.map_map]
    exact congrArg₂ (· ++ ·) (List.map_congr_left fun q _ => hcast q)
      (congrArg (· ++ _) (List.map_congr_left fun q _ => hcast q))
  have hnil : ¬ x ∈ bi383List .nil := fun h => by cases h
  rw [hwalk, or_iff_left hnil, ← hn, hmap]
  refine exists_congr fun k => and_congr_left fun _ => ?_
  have hfrom : ∀ q ∈ fromEnd ps, 0 < q := fun q hq => ((mem_upTo366 q).mp hq).2.1
  have hstart : ∀ q : Nat, 0 < q → fromStart n (-(q : Int)) = n - q + 1 := fun q h => by
    unfold fromStart
    rw [if_pos (by omega)]
    omega
  rw [mem_walkPoss, exists_pick_rank hps]
  · exact List.pairwise_cons.mpr ⟨fun q hq => ((mem_upTo366 q).mp hq).2.1, upTo366_sorted⟩
  · exact fun q hq => ((mem_upTo366 q).mp hq).2.2.1
  · exact upTo366_sorted
  · exact fun q hq => ((mem_upTo366 q).mp hq).2.1
  · rw [List.pairwise_map]
    refine upTo366_sorted.imp_of_mem fun hp hq h => ?_
    rw [hstart _ (hfrom _ hp), hstart _ (hfrom _ hq)]
    omega
  · rw [List.forall_mem_map]
    intro q hq
    have := hfrom q hq
    rw [hstart q this]
    omega

/-- **Positions leave the candidates they stand for** if every stray is asked for as well. -/
theorem clrPoss_exact {cand : Bitints} (hc : CodeSet cand) {ps : List Int}
    (hps : ∀ p ∈ ps, Signed366 p) (hne : ps ≠ []) :
    (∀ x, x ∈ bi383List (clrPoss cand (ass383All ps)) ↔
        ∃ p ∈ ps, pick (bi383List cand) p = some x) ↔
      ∀ k ∈ strays (bi383List cand).length 0 (beyond (bi383List cand).length ps),
        ∃ p ∈ ps, pick (List.range' 1 (bi383List cand).length) p = some k := by
  have hpick : ∀ x, (∃ p ∈ ps, pick (bi383List cand) p = some x) ↔
      ∃ k, (∃ p ∈ ps, pick (List.range' 1 (bi383List cand).length) p = some k) ∧
        (bi383List cand)[k - 1]? = some x := by
    intro x
    simp only [Picks.pick_eq (bi383List cand), Option.bind_eq_some_iff]
    constructor
    · rintro ⟨p, hp, k, hk, hx⟩
      exact ⟨k, ⟨p, hp, hk⟩, hx⟩
    · rintro ⟨k, ⟨p, hp, hk⟩, hx⟩
      exact ⟨p, hp, k, hk, hx⟩
  constructor
  · intro h k hk
    obtain ⟨h0, hkn⟩ := strays_range upTo366_sorted k hk
    have hlt : k - 1 < (bi383List cand).length := by omega
    have hget : (bi383List cand)[k - 1]? = some (bi383List cand)[k - 1] :=
      List.getElem?_eq_getElem hlt
    obtain ⟨k', ⟨p, hp, hk'⟩, hget'⟩ := (hpick _).mp
      ((h _).mp ((mem_clrPoss hc hps hne _).mpr ⟨k, Or.inr hk, hget⟩))
    -- a candidate has but one rank
    have hrank := (exists_pick_rank hps k').mp ⟨p, hp, hk'⟩
    have hinj := (List.getElem?_inj hlt hc.sorted.nodup).mp (hget.trans hget'.symm)
    have hkk : k = k' := by omega
    exact ⟨p, hp, hkk ▸ hk'⟩
  · intro h x
    rw [mem_clrPoss hc hps hne, hpick]
    refine exists_congr fun k => and_congr_left fun _ => ⟨?_, Or.inl⟩
    rintro (hk | hk)
    · exact hk
    · exact h k hk

/-- One position beyond the end does no harm. -/
theorem clrPoss_exact_short :
    (∀ x, x ∈ bi383List (clrPoss (.native [1, 2, 3]) (ass383All [2, 7, -1])) ↔
        ∃ p ∈ [2, 7, -1], pick (bi383List (.native [1, 2, 3])) p = some x) ↔
      ∀ k ∈ strays (bi383List (.native [1, 2, 3])).length 0
          (beyond (bi383List (.native [1, 2, 3])).length [2, 7, -1]),
        ∃ p ∈ [2, 7, -1],
          pick (List.range' 1 (bi383List (.native [1, 2, 3])).length) p = some k :=
  clrPoss_exact (show CodeSet (.native [1, 2, 3]) from ⟨by decide, by decide, by decide⟩)
    (by decide) (by decide)

/-- The fifth and the sixth of three is the first. -/
theorem clrPoss_takes_stray :
    ¬ ∀ (cand : Bitints) (ps : List Int), CodeSet cand → (∀ p ∈ ps, Signed366 p) → ps ≠ [] →
      ∀ x, x ∈ bi383List (clrPoss cand (ass383All ps)) ↔
        ∃ p ∈ ps, pick (bi383List cand) p = some x := by
  intro h
  have hcand : CodeSet (.native [1, 2, 3]) := ⟨by decide, by decide, by decide⟩
  have hiff := h (.native [1, 2, 3]) [5, 6] hcand (by decide) (by decide) 1
  have hleft : (1 : Int) ∈ bi383List (clrPoss (.native [1, 2, 3]) (ass383All [5, 6])) := by decide
  obtain ⟨p, hp, hpick⟩ := hiff.mp hleft
  rw [show bi383List (.native [1, 2, 3]) = [1, 2, 3] from rfl] at hpick
  rcases List.mem_cons.mp hp with rfl | hp
  · cases hpick
  · cases List.mem_singleton.mp hp
    cases hpick

end Echse
