/-
Probing tables.

Every key has a row of places where it may be, and is put into the first free one of them.
Nothing is taken out.  So whoever looks for a key along its row meets it before any free
place, and not at all if the row has a free place before it.

Keys may bar each other's places, and a row need not end in a free one.  It does where the
rows come to places that a key can only have to share with larger ones.
-/
import Mathlib.Logic.Function.Basic
import Mathlib.Data.Nat.Find
import Mathlib.Order.WellFounded
import Mathlib.Tactic

namespace Probing

variable {κ : Type*} (seq : κ → Nat → Nat) (occ : Nat → Option κ)

/-- The key is at the `n`-th place of its row, and others are at those before. -/
def Settled (k : κ) (n : Nat) : Prop :=
  occ (seq k n) = some k ∧ ∀ i < n, occ (seq k i) ≠ none ∧ occ (seq k i) ≠ some k

/-- Every key in the table has come to its place by probing. -/
def Fine : Prop := ∀ p k, occ p = some k → ∃ n, seq k n = p ∧ Settled seq occ k n

/-- The key is nowhere in the table. -/
def Absent (k : κ) : Prop := ∀ p, occ p ≠ some k

variable {seq occ} {k : κ}

theorem fine_empty : Fine seq (fun _ => (none : Option κ)) := by
  intro p k h
  cases h

/-- A key is at one place. -/
theorem Fine.unique (hf : Fine seq occ) {p q : Nat} (hp : occ p = some k) (hq : occ q = some k) :
    p = q := by
  obtain ⟨m, rfl, hm, hmbefore⟩ := hf p k hp
  obtain ⟨n, rfl, hn, hnbefore⟩ := hf q k hq
  rcases Nat.lt_trichotomy m n with h | rfl | h
  · exact absurd hm (hnbefore m h).2
  · rfl
  · exact absurd hn (hmbefore n h).2

/-- The first place of the row that is free or has the key. -/
def Hit (seq : κ → Nat → Nat) (occ : Nat → Option κ) (k : κ) (n : Nat) : Prop :=
  (occ (seq k n) = none ∨ occ (seq k n) = some k) ∧
    ∀ i < n, occ (seq k i) ≠ none ∧ occ (seq k i) ≠ some k

/-- A key of the table is what its row hits. -/
theorem Fine.hit_of_mem (hf : Fine seq occ) {p : Nat} (hp : occ p = some k) {n : Nat}
    (h : Hit seq occ k n) : seq k n = p := by
  obtain ⟨m, rfl, hm, hmbefore⟩ := hf p k hp
  rcases Nat.lt_trichotomy m n with hlt | rfl | hlt
  · exact absurd hm (h.2 m hlt).2
  · rfl
  · obtain ⟨hnone, hsome⟩ := hmbefore n hlt
    rcases h.1 with h1 | h1
    · exact absurd h1 hnone
    · exact absurd h1 hsome

/-- The row of a key that is absent hits a free place. -/
theorem Absent.hit (ha : Absent occ k) {n : Nat} (h : Hit seq occ k n) : occ (seq k n) = none :=
  h.1.resolve_right (ha _)

/-- **Putting a key into the place that its row hits** leaves all of them settled. -/
theorem Fine.insert (hf : Fine seq occ) (ha : Absent occ k) {n : Nat} (h : Hit seq occ k n) :
    Fine seq (Function.update occ (seq k n) (some k)) := by
  have hfree := ha.hit h
  intro p x hp
  by_cases hpn : p = seq k n
  · subst hpn
    rw [Function.update_self] at hp
    obtain rfl : k = x := Option.some.inj hp
    refine ⟨n, rfl, Function.update_self .., fun i hi => ?_⟩
    obtain ⟨hnone, hsome⟩ := h.2 i hi
    have hne : seq k i ≠ seq k n := fun heq => hnone (heq ▸ hfree)
    rw [Function.update_of_ne hne]
    exact ⟨hnone, hsome⟩
  · rw [Function.update_of_ne hpn] at hp
    obtain ⟨m, rfl, hm, hbefore⟩ := hf p x hp
    refine ⟨m, rfl, ?_, fun i hi => ?_⟩
    · rw [Function.update_of_ne hpn]
      exact hm
    · obtain ⟨hnone, hsome⟩ := hbefore i hi
      have hne : seq x i ≠ seq k n := fun heq => hnone (heq ▸ hfree)
      rw [Function.update_of_ne hne]
      exact ⟨hnone, hsome⟩

/-! ### Rows that come home -/

section

variable {r : κ → κ → Prop} {home : Nat}

/-- At its home place a key only meets keys above it, and these have passed their own. -/
def HomeRow (r : κ → κ → Prop) (seq : κ → Nat → Nat) (home : Nat) : Prop :=
  ∀ x y n, seq y n = seq x home → y ≠ x → r y x ∧ home < n

/-- **The home place of a key has no other in it.**  One that had would be met at its own home
place by a key above it, and so on. -/
theorem Fine.eq_of_home (hf : Fine seq occ) (hr : WellFounded r) (hrow : HomeRow r seq home)
    {x y : κ} (h : occ (seq x home) = some y) : y = x := by
  induction x using hr.induction generalizing y with
  | _ x ih =>
      by_contra hne
      obtain ⟨n, hn, -, hbefore⟩ := hf _ y h
      obtain ⟨habove, hhome⟩ := hrow x y n hn hne
      obtain ⟨hnone, hsome⟩ := hbefore home hhome
      obtain ⟨z, hz⟩ := Option.ne_none_iff_exists'.mp hnone
      obtain rfl := ih y habove hz
      exact hsome hz

/-- A row that comes home hits. -/
theorem Fine.exists_hit (hf : Fine seq occ) (hr : WellFounded r) (hrow : HomeRow r seq home) (k : κ) :
    ∃ n ≤ home, Hit seq occ k n := by
  have hhome : occ (seq k home) = none ∨ occ (seq k home) = some k := by
    rcases hk : occ (seq k home) with _ | y
    · exact Or.inl rfl
    · exact Or.inr (congrArg some (hf.eq_of_home hr hrow hk))
  have hex : ∃ n, occ (seq k n) = none ∨ occ (seq k n) = some k := ⟨home, hhome⟩
  classical
  have hmin : ∀ i < Nat.find hex, occ (seq k i) ≠ none ∧ occ (seq k i) ≠ some k :=
    fun i hi => not_or.mp (Nat.find_min hex hi)
  exact ⟨Nat.find hex, Nat.find_min' hex hhome, Nat.find_spec hex, hmin⟩

end

end Probing
