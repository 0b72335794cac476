/-
Linked lists: nodes that are chained up by a `next` function.

`Chain next a l` says that following `next` from `a` on visits the nodes in `l` and
comes to an end.  A node and where it leads to determine all that follows, so there is
at most one such list, and it has no node twice.
-/
import Mathlib.Data.List.Nodup
import Mathlib.Logic.Function.Basic

namespace Linked

variable {α : Type*}

/-- The list that starts at `a`. -/
inductive Chain (next : α → Option α) : Option α → List α → Prop
  | nil : Chain next none []
  | cons {i : α} {l : List α} (h : Chain next (next i) l) : Chain next (some i) (i :: l)

variable {next : α → Option α} {a : Option α} {l : List α}

theorem Chain.unique (h : Chain next a l) : ∀ {l' : List α}, Chain next a l' → l = l' := by
  induction h with
  | nil =>
      intro l' h'
      cases h'
      rfl
  | cons _ ih =>
      intro l' h'
      cases h' with
      | cons h' => rw [ih h']

/-- From any node on the list the rest of it follows. -/
theorem Chain.of_mem (h : Chain next a l) {i : α} (hi : i ∈ l) :
    ∃ r, Chain next (some i) (i :: r) ∧ r.length < l.length := by
  induction h with
  | nil => cases hi
  | @cons j l h ih =>
      rcases List.mem_cons.mp hi with rfl | hi
      · exact ⟨l, .cons h, Nat.lt_succ_self _⟩
      · obtain ⟨r, hr, hlt⟩ := ih hi
        exact ⟨r, hr, Nat.lt_succ_of_lt hlt⟩

theorem Chain.nodup (h : Chain next a l) : l.Nodup := by
  induction h with
  | nil => exact List.nodup_nil
  | @cons i l h ih =>
      refine List.nodup_cons.mpr ⟨fun hi => ?_, ih⟩
      obtain ⟨r, hr, hlt⟩ := h.of_mem hi
      cases hr with
      | cons hr =>
          have := hr.unique h
          subst this
          exact absurd hlt (Nat.lt_irrefl _)

/-- Only the nodes on the list matter. -/
theorem Chain.congr {next' : α → Option α} (h : Chain next a l) :
    (∀ i ∈ l, next' i = next i) → Chain next' a l := by
  induction h with
  | nil => exact fun _ => .nil
  | @cons i l _ ih =>
      intro hn
      refine .cons ?_
      rw [hn i (List.mem_cons_self ..)]
      exact ih fun j hj => hn j (List.mem_cons_of_mem _ hj)

/-- Put a node in front. -/
theorem Chain.push [DecidableEq α] (h : Chain next a l) {i : α} (hi : i ∉ l) :
    Chain (Function.update next i a) (some i) (i :: l) := by
  refine .cons ?_
  rw [Function.update_self]
  refine h.congr fun j hj => Function.update_of_ne ?_ ..
  rintro rfl
  exact hi hj

theorem Chain.head {i : α} (h : Chain next (some i) l) :
    ∃ r, l = i :: r ∧ Chain next (next i) r := by
  cases h with
  | cons h => exact ⟨_, rfl, h⟩

theorem Chain.none (h : Chain next none l) : l = [] := by
  cases h
  rfl

/-- Numbered nodes, each followed by the one with the next number. -/
theorem chain_range (next : Nat → Option Nat) (k : Nat) :
    ∀ n, (∀ i, n ≤ i → i < n + k → next i = if i + 1 < n + k then some (i + 1) else none) →
      Chain next (if 0 < k then some n else none) (List.range' n k) := by
  induction k with
  | zero => intro n _; exact .nil
  | succ k ih =>
      intro n h
      rw [if_pos (Nat.succ_pos k), List.range'_succ]
      refine .cons ?_
      have hn := h n (Nat.le_refl n) (by omega)
      have hk : (n + 1 < n + (k + 1)) ↔ 0 < k := by omega
      rw [hn, if_congr hk rfl rfl]
      refine ih (n + 1) fun i hi hik => ?_
      rw [h i (by omega) (by omega), show n + (k + 1) = n + 1 + k by omega]

end Linked
