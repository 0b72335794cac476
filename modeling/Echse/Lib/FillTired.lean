/-
Loops that give up.

A loop with a counter is left once it has come to a number of positions in a row that store
nothing.  Here is what such an end says of the positions: a stretch of them was gone through
to the last, those it hops over aside, and none yields anything.  So a loop does not give up
before a position that yields if the ones before it never leave so long a stretch empty.
-/
import Echse.Lib.FillExact
import Mathlib.Data.Nat.Count

namespace FillLoop

namespace Loop

variable {σ α β : Type} (L : Loop σ α β)

/-- The loop comes to its `i`-th position and does not hop over it. -/
def worksAt (p : σ) (i : Nat) : Bool := (L.orbit p i).any fun q => !L.hop q

/-- How many of the positions `i` up to `j` are not hopped over. -/
def worked (p : σ) (i j : Nat) : Nat :=
  Nat.count (fun k => L.worksAt p k = true) j - Nat.count (fun k => L.worksAt p k = true) i

/-- The `i`-th position yields something. -/
def Fruitful (p : σ) (i : Nat) : Prop :=
  ∃ q, L.orbit p i = some q ∧ L.hop q = false ∧ L.yield q ≠ []

variable {L}

/-- Items that are all stored or dropped end nothing, and the stored ones are yielded. -/
theorem gather_calm {gs : List (List α)}
    (h : ∀ x ∈ gs.flatten, L.judge x = .emit ∨ L.judge x = .drop) :
    (L.gather (gs.map some)).2 = .cont ∧
      ∀ x, x ∈ (L.gather (gs.map some)).1 ↔ x ∈ gs.flatten ∧ L.judge x = .emit := by
  rw [gather_somes]
  generalize gs.flatten = xs at h ⊢
  induction xs with
  | nil => simp [taken, sig]
  | cons x xs ih =>
      obtain ⟨hsig, hmem⟩ := ih fun y hy => h y (List.mem_cons_of_mem _ hy)
      unfold taken sig
      rcases h x List.mem_cons_self with hj | hj
      · rw [hj]
        refine ⟨hsig, fun y => ?_⟩
        rw [List.mem_cons, hmem, List.mem_cons]
        constructor
        · rintro (rfl | ⟨hy, he⟩)
          · exact ⟨Or.inl rfl, hj⟩
          · exact ⟨Or.inr hy, he⟩
        · rintro ⟨rfl | hy, he⟩
          · exact Or.inl rfl
          · exact Or.inr ⟨hy, he⟩
      · rw [hj]
        refine ⟨hsig, fun y => ?_⟩
        rw [hmem, List.mem_cons]
        constructor
        · rintro ⟨hy, he⟩
          exact ⟨Or.inr hy, he⟩
        · rintro ⟨rfl | hy, he⟩
          · rw [hj] at he
            cases he
          · exact ⟨hy, he⟩

theorem worksAt_of {p q : σ} {i : Nat} (h : L.orbit p i = some q) (hhop : L.hop q = false) :
    L.worksAt p i = true := by
  simp [worksAt, h, hhop]

theorem Fruitful.worksAt {p : σ} {i : Nat} (h : L.Fruitful p i) : L.worksAt p i = true := by
  obtain ⟨q, hq, hhop, -⟩ := h
  exact worksAt_of hq hhop

theorem worked_succ {p : σ} {a k : Nat} (h : a ≤ k) :
    L.worked p a (k + 1) = L.worked p a k + if L.worksAt p k = true then 1 else 0 := by
  have hle := Nat.count_monotone (fun k => L.worksAt p k = true) h
  unfold worked
  rw [Nat.count_succ]
  omega

theorem worked_self (p : σ) (k : Nat) : L.worked p k k = 0 := Nat.sub_self _

theorem worked_add {p : σ} {a b c : Nat} (hab : a ≤ b) (hbc : b ≤ c) :
    L.worked p a c = L.worked p a b + L.worked p b c := by
  have hle := Nat.count_monotone (fun k => L.worksAt p k = true) hab
  have hle' := Nat.count_monotone (fun k => L.worksAt p k = true) hbc
  unfold worked
  omega

theorem worked_le {p : σ} {a b : Nat} (h : a ≤ b) : L.worked p a b ≤ b - a := by
  induction b, h using Nat.le_induction with
  | base => simp [worked_self]
  | succ b hab ih =>
      rw [worked_succ hab]
      split <;> omega

/-- What an unlimited run has behind it while it goes on: it is at the position of that number, and
since some position it has used up the counter on others that yield nothing. -/
structure Trying (L : Loop σ α β) (r : Nat) (p : σ) (k : Nat) (s : State σ β) : Prop where
  pos : L.orbit p k = some s.pos
  stored : ∀ i < k, ∀ q, L.orbit p i = some q → L.hop q = false →
    ∀ x ∈ L.yield q, L.entry q x ∈ s.out
  tries : ∃ a ≤ k, s.tries + L.worked p a k = r ∧ ∀ i, a ≤ i → i < k → ¬ L.Fruitful p i

theorem trying_start {r : Nat} (hr : L.reload = some r) (p : σ) : Trying L r p 0 (L.start p) where
  pos := rfl
  stored := fun i hi => absurd hi (Nat.not_lt_zero i)
  tries := ⟨0, le_rfl, by simp [start, hr, worked_self],
    fun i _ hi => absurd hi (Nat.not_lt_zero i)⟩

/-- A position that is hopped over costs nothing. -/
theorem Trying.skip {r : Nat} {p : σ} {k : Nat} {s : State σ β} (h : Trying L r p k s)
    (hhop : L.hop s.pos = true) (hgo : (L.advance s).stop = none) (hs : s.stop = none) :
    Trying L r p (k + 1) (L.advance s) := by
  have hidle : L.worksAt p k = false := by simp [worksAt, h.pos, hhop]
  obtain ⟨a, ha, hcount, hfruit⟩ := h.tries
  refine ⟨?_, fun i hi q hq hno x hx => ?_, a, by omega, ?_, fun i hi hlt => ?_⟩
  · rw [orbit_succ, h.pos]
    exact (advance_stop hs).2 hgo
  · rw [advance_out]
    refine h.stored i (lt_of_le_of_ne (by omega) ?_) q hq hno x hx
    rintro rfl
    rw [h.pos] at hq
    cases hq
    rw [hhop] at hno
    cases hno
  · rw [advance_tries, worked_succ ha, hidle]
    simpa using hcount
  · rcases Nat.lt_succ_iff_lt_or_eq.mp hlt with hlt | rfl
    · exact hfruit i hi hlt
    · intro hf
      rw [hf.worksAt] at hidle
      cases hidle

/-- A body that goes on stores what its position yields, and starts the counter again if that is
anything. -/
theorem Trying.work {r t : Nat} {p : σ} {k : Nat} {s : State σ β} (hr : L.reload = some r)
    (h : Trying L r p k s) (hhop : L.hop s.pos = false) (ht : L.tick s.tries = some t)
    (hgo : (L.body none t s).stop = none) (hs : s.stop = none) :
    Trying L r p (k + 1) (L.body none t s) := by
  have hout := body_none_out (L := L) t s
  have htick : 1 < s.tries ∧ t = s.tries - 1 := by
    unfold tick at ht
    rw [hr] at ht
    dsimp only at ht
    split at ht
    · cases ht
    · cases ht
      exact ⟨by omega, rfl⟩
  have hworks := worksAt_of h.pos hhop
  have htries : (L.body none t s).tries = if L.yield s.pos = [] then t else r := by
    unfold body at hgo ⊢
    dsimp only at hgo ⊢
    rw [fillGroups_none] at hgo ⊢
    unfold yield
    cases hg : (L.gather (L.groups s.pos)).2 with
    | fin => simp [hg] at hgo
    | trap => simp [hg] at hgo
    | cont => simp [advance_tries, retry, hr, List.length_pos_iff, ite_not]
    | skip => simp [advance_tries, retry, hr, List.length_pos_iff, ite_not]
  refine ⟨?_, fun i hi q hq hno x hx => ?_, ?_⟩
  · rw [orbit_succ, h.pos]
    exact (body_none_stop hs).2 hgo
  · rw [hout, List.mem_append]
    rcases Nat.lt_succ_iff_lt_or_eq.mp hi with hi | rfl
    · exact Or.inl (h.stored i hi q hq hno x hx)
    · rw [h.pos] at hq
      cases hq
      exact Or.inr (List.mem_map_of_mem hx)
  · rw [htries]
    by_cases hy : L.yield s.pos = []
    · obtain ⟨a, ha, hcount, hfruit⟩ := h.tries
      refine ⟨a, by omega, ?_, fun i hi hlt => ?_⟩
      · rw [if_pos hy, worked_succ ha, if_pos hworks]
        omega
      · rcases Nat.lt_succ_iff_lt_or_eq.mp hlt with hlt | rfl
        · exact hfruit i hi hlt
        · rintro ⟨q, hq, -, hne⟩
          rw [h.pos] at hq
          cases hq
          exact hne hy
    · exact ⟨k + 1, le_rfl, by rw [if_neg hy, worked_self, Nat.add_zero],
        fun i hi hlt => absurd hlt (by omega)⟩

/-- **While an unlimited run goes on**, it is trying. -/
theorem trying_passes {r : Nat} (hr : L.reload = some r) (p : σ) (k : Nat)
    (h : (L.passes none k (L.start p)).stop = none) :
    Trying L r p k (L.passes none k (L.start p)) := by
  induction k with
  | zero => exact trying_start hr p
  | succ k ih =>
      rw [passes_succ] at h ⊢
      set s := L.passes none k (L.start p)
      by_cases hs : s.stop = none
      · have htry := ih hs
        cases hhop : L.hop s.pos with
        | true =>
            rw [pass_hop _ hs hhop] at h ⊢
            exact htry.skip hhop h hs
        | false =>
            cases ht : L.tick s.tries with
            | none =>
                rw [pass_tired hs hhop rfl ht] at h
                cases h
            | some t =>
                rw [pass_body hs hhop rfl ht] at h ⊢
                exact htry.work hr hhop ht h hs
      · rw [pass_of_stop _ hs] at h
        exact absurd h hs

/-- **Where an unlimited run is left**: a position says so, or the counter has been used up on a
stretch of positions that yield nothing. -/
theorem left_of_done {r : Nat} (hr : L.reload = some r) {p : σ} {k : Nat}
    (h : (L.passes none k (L.start p)).stop = some .done) :
    ∃ n < k, Trying L r p n (L.passes none n (L.start p)) ∧
      ((∃ q, L.orbit p n = some q ∧ (L.gather (L.groups q)).2 = .fin) ∨
        ∃ a ≤ n, r ≤ L.worked p a n + 1 ∧ ∀ i, a ≤ i → i < n → ¬ L.Fruitful p i) := by
  induction k with
  | zero => cases h
  | succ k ih =>
      rw [passes_succ] at h
      by_cases hs : (L.passes none k (L.start p)).stop = none
      · have htry := trying_passes hr p k hs
        set s := L.passes none k (L.start p) with hset
        refine ⟨k, Nat.lt_succ_self k, htry, ?_⟩
        have hadv : ∀ s' : State σ β, s'.stop = none → (L.advance s').stop ≠ some .done := by
          intro s' hs'
          unfold advance
          split <;> simp [hs']
        cases hhop : L.hop s.pos with
        | true =>
            rw [pass_hop _ hs hhop] at h
            exact absurd h (hadv s hs)
        | false =>
            cases ht : L.tick s.tries with
            | none =>
                refine Or.inr ?_
                have htries : s.tries ≤ 1 := by
                  unfold tick at ht
                  rw [hr] at ht
                  dsimp only at ht
                  split at ht
                  · assumption
                  · cases ht
                obtain ⟨a, ha, hcount, hfruit⟩ := htry.tries
                exact ⟨a, ha, by omega, hfruit⟩
            | some t =>
                refine Or.inl ⟨s.pos, htry.pos, ?_⟩
                rw [pass_body hs hhop rfl ht] at h
                unfold body at h
                dsimp only at h
                rw [fillGroups_none] at h
                cases hg : (L.gather (L.groups s.pos)).2 with
                | fin => rfl
                | trap => simp [hg] at h
                | cont =>
                    rw [hg] at h
                    exact absurd h (hadv _ hs)
                | skip =>
                    rw [hg] at h
                    exact absurd h (hadv _ hs)
      · rw [pass_of_stop _ hs] at h
        obtain ⟨n, hn, hrest⟩ := ih h
        exact ⟨n, by omega, hrest⟩

/-- **A position that yields is not given up before**, if none up to it ends the loop and each
fruitful one that is far enough on has another before it that is near. -/
theorem not_left_before {r : Nat} (hr : L.reload = some r) {p : σ} {j k : Nat}
    (hdone : (L.passes none k (L.start p)).stop = some .done)
    (hfin : ∀ i ≤ j, ∀ q, L.orbit p i = some q → (L.gather (L.groups q)).2 ≠ .fin)
    (hnear : ∀ i ≤ j, L.Fruitful p i → r ≤ L.worked p 0 i + 1 →
      ∃ i' < i, L.worked p i' i + 1 < r ∧ L.Fruitful p i')
    (hj : L.Fruitful p j) :
    ∃ n, j < n ∧ Trying L r p n (L.passes none n (L.start p)) ∧ n < k := by
  obtain ⟨n, hn, htry, hend⟩ := left_of_done hr hdone
  refine ⟨n, ?_, htry, hn⟩
  by_contra hle
  rcases hend with ⟨q, hq, hq'⟩ | ⟨a, ha, hworked, hempty⟩
  · exact hfin n (by omega) q hq hq'
  · -- no fruitful position is at or past the place where the loop is left
    have hnone : ∀ i, n ≤ i → i ≤ j → ¬ L.Fruitful p i := by
      intro i
      induction i using Nat.strong_induction_on with
      | _ i ih =>
          intro hni hij hf
          have hsplit := worked_add (L := L) (p := p) (Nat.zero_le a) (ha.trans hni)
          have hsplit' := worked_add (L := L) (p := p) ha hni
          obtain ⟨i', hlt, hnear', hf'⟩ := hnear i hij hf (by omega)
          by_cases hn' : n ≤ i'
          · exact ih i' hlt hn' (by omega) hf'
          · refine hempty i' ?_ (by omega) hf'
            by_contra hai
            have := worked_add (L := L) (p := p) (by omega : i' ≤ a) (ha.trans hni)
            omega
    exact hnone j (by omega) le_rfl hj

end Loop

end FillLoop
