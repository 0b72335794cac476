/-
Merging streams that may repeat each other.

The streams are lists.  A step takes the next item of one of them: either it comes out,
then it must stand in a relation `R` to what every other stream has next, or it is dropped,
then another stream must have an item of the same signature next.  What `R` is, an order or
a strict one, is left open, as is which step is taken when.
-/
import Mathlib.Tactic

namespace Mux

variable {α σ : Type} {R : α → α → Prop} {sig : α → σ}

/-- One item is taken, and the list has it if it came out. -/
inductive Step (R : α → α → Prop) (sig : α → σ) :
    List (List α) → List α → List (List α) → Prop
  | drop {p q : List (List α)} {x y : α} {t : List α} (hy : ∃ s ∈ p ++ q, s.head? = some y)
      (hxy : sig x = sig y) : Step R sig (p ++ (x :: t) :: q) [] (p ++ t :: q)
  | pop {p q : List (List α)} {y : α} {t : List α}
      (hy : ∀ s ∈ p ++ q, ∀ x, s.head? = some x → R y x) :
      Step R sig (p ++ (y :: t) :: q) [y] (p ++ t :: q)

/-- Steps in a row, and what came out. -/
inductive Run (R : α → α → Prop) (sig : α → σ) :
    List (List α) → List α → List (List α) → Prop
  | refl (ls : List (List α)) : Run R sig ls [] ls
  | step {ls ms ns : List (List α)} {o out : List α} (h : Step R sig ls o ms)
      (hs : Run R sig ms out ns) : Run R sig ls (o ++ out) ns

theorem Run.trans {ls ms ns : List (List α)} {o out : List α} (h : Run R sig ls o ms)
    (h' : Run R sig ms out ns) : Run R sig ls (o ++ out) ns := by
  induction h with
  | refl ls => exact h'
  | step hst _ ih =>
      rw [List.append_assoc]
      exact .step hst (ih h')

/-- Every stream is in the order of `R`. -/
def Ordered (R : α → α → Prop) (ls : List (List α)) : Prop := ∀ s ∈ ls, s.Pairwise R

/-! ### One step -/

theorem Step.sublist {ls ms : List (List α)} {o : List α} (h : Step R sig ls o ms) :
    ∀ s ∈ ms, ∃ s' ∈ ls, s.Sublist s' := by
  cases h with
  | drop hy hxy | pop hy =>
      intro s hs
      rcases List.mem_append.mp hs with hs | hs
      · exact ⟨s, by simp [hs], List.Sublist.refl s⟩
      rcases List.mem_cons.mp hs with rfl | hs
      · exact ⟨_, List.mem_append_right _ List.mem_cons_self, List.sublist_cons_self ..⟩
      · exact ⟨s, by simp [hs], List.Sublist.refl s⟩

theorem Step.ordered {ls ms : List (List α)} {o : List α} (h : Step R sig ls o ms)
    (hls : Ordered R ls) : Ordered R ms := by
  intro s hs
  obtain ⟨s', hs', hsub⟩ := h.sublist s hs
  exact (hls s' hs').sublist hsub

theorem mem_flatten_split {p q : List (List α)} {s : List α} {x : α} :
    x ∈ (p ++ s :: q).flatten ↔ x ∈ s ∨ x ∈ (p ++ q).flatten := by
  rw [List.flatten_append, List.flatten_cons, List.flatten_append]
  simp only [List.mem_append]
  tauto

theorem Step.mem {ls ms : List (List α)} {o : List α} {x : α} (h : Step R sig ls o ms)
    (hx : x ∈ o ∨ x ∈ ms.flatten) : x ∈ ls.flatten := by
  cases h with
  | drop hy hxy | pop hy =>
      simp only [mem_flatten_split, List.mem_cons, List.not_mem_nil] at hx ⊢
      tauto

theorem Step.length {ls ms : List (List α)} {o : List α} (h : Step R sig ls o ms) :
    o.length + ms.flatten.length ≤ ls.flatten.length := by
  cases h with
  | drop hy hxy | pop hy =>
      simp only [List.flatten_append, List.flatten_cons, List.length_append, List.length_cons,
        List.length_nil]
      omega

/-- What is taken comes out or is still to come under another item. -/
theorem Step.cover {ls ms : List (List α)} {o : List α} {x : α} (h : Step R sig ls o ms)
    (hx : x ∈ ls.flatten) : ∃ y, (y ∈ o ∨ y ∈ ms.flatten) ∧ sig y = sig x := by
  cases h with
  | @drop p q x' y t hy hxy =>
      by_cases hxx : x = x'
      · obtain ⟨s, hs, hh⟩ := hy
        have hyf : y ∈ (p ++ q).flatten := List.mem_flatten.mpr ⟨s, hs, List.mem_of_mem_head? hh⟩
        exact ⟨y, Or.inr (mem_flatten_split.mpr (Or.inr hyf)), by rw [hxx, hxy]⟩
      · refine ⟨x, Or.inr ?_, rfl⟩
        rw [mem_flatten_split, List.mem_cons] at hx
        rw [mem_flatten_split]
        tauto
  | pop hy =>
      refine ⟨x, ?_, rfl⟩
      simp only [mem_flatten_split, List.mem_cons, List.not_mem_nil] at hx ⊢
      tauto

/-- What comes out stands in `R` to all that is left. -/
theorem Step.out_rel (htrans : ∀ x y z : α, R x y → R y z → R x z) {ls ms : List (List α)}
    {o : List α} (h : Step R sig ls o ms) (hls : Ordered R ls) :
    o.Pairwise R ∧ ∀ y ∈ o, ∀ x ∈ ms.flatten, R y x := by
  cases h with
  | drop hy hxy => simp
  | @pop p q y t hy =>
      refine ⟨List.pairwise_singleton R y, ?_⟩
      intro y' hy' x hx
      obtain rfl := List.mem_singleton.mp hy'
      have hyt := hls (y' :: t) (by simp)
      rcases mem_flatten_split.mp hx with hxt | hx
      · exact List.rel_of_pairwise_cons hyt hxt
      obtain ⟨s, hs, hxs⟩ := List.mem_flatten.mp hx
      cases s with
      | nil => exact absurd hxs List.not_mem_nil
      | cons z s =>
          have hz := hy (z :: s) hs z rfl
          rcases List.mem_cons.mp hxs with rfl | hxs
          · exact hz
          · have hord := hls (z :: s) (by simp at hs ⊢; tauto)
            exact htrans _ _ _ hz (List.rel_of_pairwise_cons hord hxs)

/-! ### Runs -/

theorem Run.ordered {ls ms : List (List α)} {out : List α} (h : Run R sig ls out ms)
    (hls : Ordered R ls) : Ordered R ms := by
  induction h with
  | refl ls => exact hls
  | step hst _ ih => exact ih (hst.ordered hls)

theorem Run.sublist {ls ms : List (List α)} {out : List α} (h : Run R sig ls out ms) :
    ∀ s ∈ ms, ∃ s' ∈ ls, s.Sublist s' := by
  induction h with
  | refl ls => exact fun s hs => ⟨s, hs, List.Sublist.refl s⟩
  | step hst _ ih =>
      intro s hs
      obtain ⟨s', hs', hsub⟩ := ih s hs
      obtain ⟨s'', hs'', hsub'⟩ := hst.sublist s' hs'
      exact ⟨s'', hs'', hsub.trans hsub'⟩

theorem Run.mem {ls ms : List (List α)} {out : List α} {x : α} (h : Run R sig ls out ms)
    (hx : x ∈ out ∨ x ∈ ms.flatten) : x ∈ ls.flatten := by
  induction h with
  | refl ls => exact hx.resolve_left (List.not_mem_nil)
  | step hst _ ih =>
      refine hst.mem ?_
      rw [List.mem_append] at hx
      tauto

/-- **Nothing is lost**: an item comes out, or one of its signature does or is still there. -/
theorem Run.cover {ls ms : List (List α)} {out : List α} {x : α} (h : Run R sig ls out ms)
    (hx : x ∈ ls.flatten) : ∃ y, (y ∈ out ∨ y ∈ ms.flatten) ∧ sig y = sig x := by
  induction h generalizing x with
  | refl ls => exact ⟨x, Or.inr hx, rfl⟩
  | step hst _ ih =>
      obtain ⟨y, hy | hy, hsig⟩ := hst.cover hx
      · exact ⟨y, Or.inl (List.mem_append_left _ hy), hsig⟩
      · obtain ⟨z, hz, hsig'⟩ := ih hy
        refine ⟨z, ?_, hsig'.trans hsig⟩
        rw [List.mem_append]
        tauto

/-- Every item that comes out is one that is taken. -/
theorem Run.length {ls ms : List (List α)} {out : List α} (h : Run R sig ls out ms) :
    out.length + ms.flatten.length ≤ ls.flatten.length := by
  induction h with
  | refl ls => simp
  | step hst _ ih =>
      have hone := hst.length
      rw [List.length_append]
      omega

/-- **What comes out is in order.** -/
theorem Run.pairwise (htrans : ∀ x y z : α, R x y → R y z → R x z) {ls ms : List (List α)}
    {out : List α} (h : Run R sig ls out ms) (hls : Ordered R ls) : out.Pairwise R := by
  induction h with
  | refl ls => exact List.Pairwise.nil
  | step hst hs ih =>
      obtain ⟨hpair, hrel⟩ := hst.out_rel htrans hls
      refine List.pairwise_append.mpr ⟨hpair, ih (hst.ordered hls), ?_⟩
      intro y hy x hx
      exact hrel y hy x (hs.mem (Or.inl hx))

end Mux
