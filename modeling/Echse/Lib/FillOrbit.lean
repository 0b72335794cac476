/-
The positions of a fill loop, and what they yield.

With an unlimited buffer a loop that never hops goes through the positions that `next`
gives, one a pass, and stores what each of them yields.  So a run can be spoken of
without its states: by the positions, `orbit`, and by what they store, `upTo`.
-/
import Echse.Lib.FillRuns

namespace FillLoop

namespace Loop

variable {σ α β : Type} (L : Loop σ α β)

/-- What the groups of a position store without a limit, and how that ends. -/
def gather : List (Option (List α)) → List α × Sig
  | [] => ([], .cont)
  | none :: _ => ([], .trap)
  | some xs :: gs =>
      if L.sig xs = .cont then (L.taken xs ++ (gather gs).1, (gather gs).2)
      else (L.taken xs, L.sig xs)

/-- The items a position stores. -/
def yield (p : σ) : List α := (L.gather (L.groups p)).1

/-- The loop is over after this position. -/
def Quits (p : σ) : Prop :=
  (L.gather (L.groups p)).2 = .fin ∨ (L.gather (L.groups p)).2 = .trap ∨ L.next p = none

/-- The position after `k` steps. -/
def orbit (p : σ) : Nat → Option σ
  | 0 => some p
  | k + 1 => (orbit p k).bind L.next

/-- What the first `k` positions store. -/
def upTo (p : σ) : Nat → List β
  | 0 => []
  | k + 1 => upTo p k ++ (L.orbit p k).elim [] fun q => (L.yield q).map (L.entry q)

variable {L}

theorem fillGroups_none (p : σ) (gs : List (Option (List α))) :
    ∀ out : List β, L.fillGroups none p gs out =
      (out ++ (L.gather gs).1.map (L.entry p), (L.gather gs).2) := by
  induction gs with
  | nil => intro out; simp [fillGroups, gather]
  | cons g gs ih =>
      intro out
      cases g with
      | none => simp [fillGroups_trap (show full none out = false from rfl), gather]
      | some xs =>
          rw [fillGroups_some (show full none out = false from rfl)]
          unfold gather
          split
          · rw [ih]; simp
          · rfl

theorem orbit_succ (p : σ) (k : Nat) : L.orbit p (k + 1) = (L.orbit p k).bind L.next := rfl

theorem orbit_add (p : σ) (i k : Nat) :
    L.orbit p (i + k) = (L.orbit p i).bind fun q => L.orbit q k := by
  induction k with
  | zero => cases L.orbit p i <;> rfl
  | succ k ih =>
      rw [← Nat.add_assoc, orbit_succ, ih]
      cases L.orbit p i <;> rfl

/-- A property that every step keeps holds of the whole orbit. -/
theorem orbit_induct {Q : σ → Prop} (hnext : ∀ p q, Q p → L.next p = some q → Q q)
    {p : σ} (h : Q p) (k : Nat) : ∀ q, L.orbit p k = some q → Q q := by
  induction k with
  | zero => intro q hq; cases hq; exact h
  | succ k ih =>
      intro q hq
      rw [orbit_succ] at hq
      obtain ⟨r, hr, hrq⟩ := Option.bind_eq_some_iff.mp hq
      exact hnext r q (ih r hr) hrq

/-- As long as the positions meet a condition, the orbit goes on and keeps an invariant. -/
theorem orbit_run {I C : σ → Prop} (hstep : ∀ p, I p → C p → ∃ q, L.next p = some q ∧ I q)
    {p : σ} (h : I p) (k : Nat) (hC : ∀ i < k, ∀ q, L.orbit p i = some q → C q) :
    ∃ q, L.orbit p k = some q ∧ I q := by
  induction k with
  | zero => exact ⟨p, rfl, h⟩
  | succ k ih =>
      obtain ⟨q, hq, hI⟩ := ih fun i hi => hC i (by omega)
      obtain ⟨r, hr, hI'⟩ := hstep q hI (hC k (by omega) q hq)
      refine ⟨r, ?_, hI'⟩
      rw [orbit_succ, hq]
      exact hr

theorem upTo_succ_of_orbit {p q : σ} {k : Nat} (h : L.orbit p k = some q) :
    L.upTo p (k + 1) = L.upTo p k ++ (L.yield q).map (L.entry q) := by
  simp [upTo, h]

theorem prefix_upTo {p : σ} {j k : Nat} (h : j ≤ k) : L.upTo p j <+: L.upTo p k := by
  induction k, h using Nat.le_induction with
  | base => exact List.prefix_rfl
  | succ k _ ih => exact ih.trans (List.prefix_append _ _)

/-! ### Unlimited runs -/

/-- Loops that never hop. -/
def Hopless (L : Loop σ α β) : Prop := ∀ p, L.hop p = false

/-- Loops without hops and without a counter. -/
def Plain (L : Loop σ α β) : Prop := L.Hopless ∧ L.reload = none

theorem body_none_out (t : Nat) (s : State σ β) :
    (L.body none t s).out = s.out ++ (L.yield s.pos).map (L.entry s.pos) := by
  rw [body_out, fillGroups_none]
  rfl

theorem advance_stop {s : State σ β} (h : s.stop = none) :
    ((L.advance s).stop = none ↔ L.next s.pos ≠ none) ∧
      ((L.advance s).stop = none → L.next s.pos = some (L.advance s).pos) := by
  unfold advance
  cases hn : L.next s.pos <;> simp [h]

/-- The body goes on to the next position unless the loop is over after this one. -/
theorem body_none_stop {t : Nat} {s : State σ β} (h : s.stop = none) :
    ((L.body none t s).stop = none ↔ ¬ L.Quits s.pos) ∧
      ((L.body none t s).stop = none → L.next s.pos = some (L.body none t s).pos) := by
  unfold body Quits
  dsimp only
  rw [fillGroups_none]
  have hadv := fun o t' => advance_stop (L := L) (s := { s with out := o, tries := t' }) h
  cases hg : (L.gather (L.groups s.pos)).2 with
  | fin => simp
  | trap => simp
  | cont => simpa using hadv _ _
  | skip => simpa using hadv _ _

/-- **An unlimited run stores what a number of positions yield**, and while it goes on
that number is the number of passes. -/
theorem passes_none (hhop : L.Hopless) (s : State σ β) (k : Nat) :
    (∃ j ≤ k, (L.passes none k s).out = s.out ++ L.upTo s.pos j) ∧
      ((L.passes none k s).stop = none →
        (L.passes none k s).out = s.out ++ L.upTo s.pos k ∧
          L.orbit s.pos k = some (L.passes none k s).pos) := by
  induction k with
  | zero => exact ⟨⟨0, le_rfl, by simp [passes, upTo]⟩, fun _ => by simp [passes, upTo, orbit]⟩
  | succ k ih =>
      rw [passes_succ]
      obtain ⟨⟨j, hj, hout⟩, hgo⟩ := ih
      set r := L.passes none k s
      by_cases hstop : r.stop = none
      · obtain ⟨hout', horb⟩ := hgo hstop
        cases ht : L.tick r.tries with
        | none =>
            rw [pass_tired hstop (hhop _) rfl ht]
            exact ⟨⟨k, by omega, hout'⟩, fun h => by simp at h⟩
        | some t =>
            rw [pass_body hstop (hhop _) rfl ht]
            have hbody : (L.body none t r).out = s.out ++ L.upTo s.pos (k + 1) := by
              rw [body_none_out, hout', upTo_succ_of_orbit horb, List.append_assoc]
            refine ⟨⟨k + 1, le_rfl, hbody⟩, fun h => ⟨hbody, ?_⟩⟩
            rw [orbit_succ, horb]
            exact (body_none_stop hstop).2 h
      · rw [pass_of_stop _ hstop]
        exact ⟨⟨j, by omega, hout⟩, fun h => absurd h hstop⟩

theorem tick_of_plain (h : L.Plain) (t : Nat) : L.tick t = some t := by
  unfold tick
  rw [h.2]

/-- An unlimited run of a plain loop goes on as long as no position ends it. -/
theorem passes_none_stop (hplain : L.Plain) {s : State σ β} (hs : s.stop = none) (k : Nat) :
    (L.passes none k s).stop = none ↔
      ∀ i < k, ∃ q, L.orbit s.pos i = some q ∧ ¬ L.Quits q := by
  induction k with
  | zero => simp [passes, hs]
  | succ k ih =>
      have hrun := (passes_none hplain.1 s k).2
      rw [passes_succ]
      set r := L.passes none k s
      by_cases hstop : r.stop = none
      · obtain ⟨-, horb⟩ := hrun hstop
        rw [pass_body hstop (hplain.1 _) rfl (tick_of_plain hplain _), (body_none_stop hstop).1]
        constructor
        · intro hq i hi
          rcases Nat.lt_succ_iff_lt_or_eq.mp hi with hi | rfl
          · exact ih.mp hstop i hi
          · exact ⟨_, horb, hq⟩
        · intro h
          obtain ⟨q, hq, hquits⟩ := h k (Nat.lt_succ_self k)
          rw [horb] at hq
          cases hq
          exact hquits
      · rw [pass_of_stop _ hstop]
        exact ⟨fun h => absurd h hstop, fun h =>
          absurd (ih.mpr fun i hi => h i (by omega)) hstop⟩

/-- An unlimited run of a plain loop is left only where a position says so. -/
theorem fin_of_passes_none (hplain : L.Plain) {s : State σ β} (hs : s.stop = none) (k : Nat)
    (h : (L.passes none k s).stop = some .done) :
    ∃ i q, L.orbit s.pos i = some q ∧ (L.gather (L.groups q)).2 = .fin := by
  induction k with
  | zero => rw [passes_zero, hs] at h; cases h
  | succ k ih =>
      have hrun := (passes_none hplain.1 s k).2
      rw [passes_succ] at h
      set r := L.passes none k s
      by_cases hstop : r.stop = none
      · obtain ⟨-, horb⟩ := hrun hstop
        rw [pass_body hstop (hplain.1 _) rfl (tick_of_plain hplain _)] at h
        refine ⟨k, r.pos, horb, ?_⟩
        have hadv : ∀ s' : State σ β, s'.stop = none → (L.advance s').stop ≠ some .done := by
          intro s' hs'
          unfold advance
          split <;> simp [hs']
        unfold body at h
        dsimp only at h
        rw [fillGroups_none] at h
        cases hg : (L.gather (L.groups r.pos)).2 with
        | fin => rfl
        | trap => simp [hg] at h
        | cont => rw [hg] at h; exact absurd h (hadv _ hstop)
        | skip => rw [hg] at h; exact absurd h (hadv _ hstop)
      · rw [pass_of_stop _ hstop] at h
        exact ih h

/-! ### Runs that return

A run returns if the loop is left.  A run that traps does not return.
-/

def Returns (L : Loop σ α β) (room : Option Nat) (s : State σ β) : Prop :=
  ∃ n, (L.passes room n s).stop = some .done

def Traps (L : Loop σ α β) (room : Option Nat) (s : State σ β) : Prop :=
  ∃ n, (L.passes room n s).stop = some .trap

theorem returns_iff {room : Option Nat} {s : State σ β} :
    L.Returns room s ↔ ¬ L.Traps room s ∧ L.Halts room s := by
  constructor
  · rintro ⟨n, hn⟩
    refine ⟨?_, n, by rw [hn]; simp⟩
    rintro ⟨m, hm⟩
    -- whichever comes first stays
    rcases Nat.le_total m n with hmn | hnm
    · rw [passes_of_stop_le room hmn (by rw [hm]; simp), hm] at hn
      cases hn
    · rw [passes_of_stop_le room hnm (by rw [hn]; simp), hn] at hm
      cases hm
  · rintro ⟨hno, n, hn⟩
    cases h : (L.passes room n s).stop with
    | none => exact absurd h hn
    | some w =>
        cases w with
        | done => exact ⟨n, h⟩
        | trap => exact absurd ⟨n, h⟩ hno

/-- A position the loop comes to is the last by its own verdicts. -/
def Finishes (L : Loop σ α β) (p : σ) : Prop :=
  ∃ i q, L.orbit p i = some q ∧ (L.gather (L.groups q)).2 = .fin

/-- The positions the loop comes to yield enough for `n` slots. -/
def Supplies (L : Loop σ α β) (p : σ) (n : Nat) : Prop := ∃ k, n ≤ (L.upTo p k).length

/-- **A plain loop returns exactly if, short of a trap, some position finishes it or the
positions yield enough to fill the buffer.** -/
theorem returns_plain_iff (hplain : L.Plain) (n : Nat) (p : σ) :
    L.Returns (some n) (L.start p) ↔
      ¬ L.Traps (some n) (L.start p) ∧ (L.Finishes p ∨ L.Supplies p n) := by
  have hs : (L.start p).stop = none := rfl
  constructor
  · intro hret
    refine ⟨(returns_iff.mp hret).1, ?_⟩
    obtain ⟨k, hk⟩ := hret
    rcases bounded_or_full (L := L) n (L.start p) k with he | ⟨hlen, hpre⟩
    · exact Or.inl (fin_of_passes_none hplain hs k (by rw [← he]; exact hk))
    · refine Or.inr ?_
      obtain ⟨j, -, hj⟩ := (passes_none hplain.1 (L.start p) k).1
      refine ⟨j, hlen.trans (hpre.length_le.trans ?_)⟩
      rw [hj]
      simp [start]
  · rintro ⟨hno, h⟩
    refine returns_iff.mpr ⟨hno, (halts_iff hplain.1).mpr ?_⟩
    rcases h with ⟨i, q, hq, hfin⟩ | ⟨k, hk⟩
    · refine ⟨i + 1, Or.inl fun hstop => ?_⟩
      obtain ⟨q', hq', hquits⟩ := (passes_none_stop hplain hs (i + 1)).mp hstop i (by omega)
      have hqq : some q' = some q := hq'.symm.trans hq
      cases hqq
      exact hquits (Or.inl hfin)
    · refine ⟨k, ?_⟩
      by_cases hstop : (L.passes none k (L.start p)).stop = none
      · refine Or.inr ?_
        rw [((passes_none hplain.1 (L.start p) k).2 hstop).1]
        simpa [start] using hk
      · exact Or.inl hstop

theorem sig_ne_trap (xs : List α) : L.sig xs ≠ .trap := by
  induction xs with
  | nil => simp [sig]
  | cons x xs ih => unfold sig; split <;> simp [ih]

theorem fillGroups_ne_trap (room : Option Nat) (p : σ) {gs : List (Option (List α))}
    (hgs : none ∉ gs) (out : List β) : (L.fillGroups room p gs out).2 ≠ .trap := by
  induction gs generalizing out with
  | nil => simp [fillGroups]
  | cons g gs ih =>
      cases g with
      | none => simp at hgs
      | some xs =>
          by_cases hf : full room out = true
          · simp [fillGroups_of_full hf]
          · rw [fillGroups_some (by simpa using hf)]
            split
            · exact ih (fun h => hgs (List.mem_cons_of_mem _ h)) _
            · exact sig_ne_trap xs

theorem advance_ne_trap {s : State σ β} (hs : s.stop ≠ some .trap) (hnext : L.next s.pos ≠ none) :
    (L.advance s).stop ≠ some .trap := by
  unfold advance
  split
  · rename_i h
    exact absurd h hnext
  · exact hs

/-- A pass from a position that can be computed, and whose next one can be, does not trap. -/
theorem pass_ne_trap (room : Option Nat) {s : State σ β} (hs : s.stop ≠ some .trap)
    (h : s.stop = none → L.hop s.pos = true ∨ full room s.out = false →
      none ∉ L.groups s.pos ∧ L.next s.pos ≠ none) :
    (L.pass room s).stop ≠ some .trap := by
  unfold pass
  split
  · exact hs
  · rename_i hr
    split
    · rename_i hh
      exact advance_ne_trap hs (h hr (Or.inl hh)).2
    · split
      · simp
      · rename_i hf
        obtain ⟨hgroups, hnext⟩ := h hr (Or.inr (by simpa using hf))
        split
        · simp
        · unfold body
          dsimp only
          split
          · simp
          · rename_i htrap
            exact absurd htrap (fillGroups_ne_trap room s.pos hgroups s.out)
          · exact advance_ne_trap hs hnext

/-- **A run does not trap** as long as every position it comes to can be computed. -/
theorem passes_ne_trap (room : Option Nat) {s : State σ β} (hs : s.stop ≠ some .trap) (n : Nat)
    (h : ∀ k < n, (L.passes room k s).stop = none →
      L.hop (L.passes room k s).pos = true ∨ full room (L.passes room k s).out = false →
      none ∉ L.groups (L.passes room k s).pos ∧ L.next (L.passes room k s).pos ≠ none) :
    (L.passes room n s).stop ≠ some .trap := by
  induction n with
  | zero => exact hs
  | succ n ih =>
      rw [passes_succ]
      exact pass_ne_trap room (ih fun k hk => h k (by omega)) (h n (by omega))

/-- A loop whose positions can always be computed does not trap. -/
theorem not_traps {Q : σ → Prop} (hnext : ∀ p q, Q p → L.next p = some q → Q q)
    (hgroups : ∀ p, Q p → none ∉ L.groups p) (hdef : ∀ p, Q p → L.next p ≠ none)
    (room : Option Nat) {s : State σ β} (hpos : Q s.pos) (hs : s.stop ≠ some .trap) :
    ¬ L.Traps room s := by
  rintro ⟨n, hn⟩
  refine passes_ne_trap room hs n (fun k _ _ _ => ?_) hn
  have hQ := passes_pos hnext room k hpos
  exact ⟨hgroups _ hQ, hdef _ hQ⟩

/-! ### Landing -/

/-- The loop comes to a position it does not step over. -/
def LandsFrom (L : Loop σ α β) (p : σ) : Prop :=
  ∃ k q, L.orbit p k = some q ∧ L.hop q = false

theorem landsFrom_of_next {p q : σ} (h : L.next p = some q) (hq : L.LandsFrom q) :
    L.LandsFrom p := by
  obtain ⟨k, r, hr, hhop⟩ := hq
  refine ⟨1 + k, r, ?_, hhop⟩
  rw [orbit_add]
  simpa [orbit, h] using hr

theorem lands_of_landsFrom {p : σ} (h : L.LandsFrom p) : L.Lands p := by
  obtain ⟨k, q, hq, hhop⟩ := h
  induction k generalizing p with
  | zero => cases hq; exact Lands.here hhop
  | succ k ih =>
      rw [Nat.add_comm, orbit_add] at hq
      obtain ⟨r, hr, hrq⟩ := Option.bind_eq_some_iff.mp hq
      exact Lands.hop (by simpa [orbit] using hr) (ih hrq)

/-- A run that returns has landed. -/
theorem landsFrom_of_returns {room : Option Nat} (n : Nat) :
    ∀ s : State σ β, s.stop = none → (L.passes room n s).stop = some .done →
      L.LandsFrom s.pos := by
  induction n with
  | zero => intro s hs h; rw [passes_zero, hs] at h; cases h
  | succ n ih =>
      intro s hs h
      cases hh : L.hop s.pos with
      | false => exact ⟨0, s.pos, rfl, hh⟩
      | true =>
          rw [passes_succ', pass_hop _ hs hh] at h
          cases hn : L.next s.pos with
          | none =>
              rw [passes_of_stop room (by simp [advance, hn])] at h
              simp [advance, hn] at h
          | some q =>
              have hadv : L.advance s = { s with pos := q } := by simp [advance, hn]
              rw [hadv] at h
              exact landsFrom_of_next hn (ih { s with pos := q } hs h)

end Loop

end FillLoop
