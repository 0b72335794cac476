/-
The dates of a week in `rrul_fill_wly`.

The increments from one selected weekday to the next are packed into a word, and the dates
are found by carrying them on from the base.  So they are the days of the week that begins
with the base whose weekdays are selected.
-/
import Echse.Proofs.Turns
import Echse.Proofs.Masks

namespace Echse

/-! ### Increments -/

/-- The days from the base that packed increments lead to, `o` being the last one. -/
def incDays : Nat → Nat → Nat → List Nat
  | 0, _, _ => []
  | n + 1, incs, o =>
      (o + incs % 16) :: if incs >>> 4 = 0 then [] else incDays n (incs >>> 4) (o + incs % 16)

/-- The days that a mask of seven days selects.  An empty one leaves the base. -/
def maskDays (mask : Nat) : List Nat :=
  if mask = 0 then [0] else (List.range 7).filter mask.testBit

theorem incDays_wdIncs : ∀ mask < 128, incDays 16 (wdIncs 7 mask 0 0) 0 = maskDays mask := by
  decide

theorem maskDays_lt {mask o : Nat} (h : o ∈ maskDays mask) : o < 7 := by
  unfold maskDays at h
  split at h
  · rw [List.mem_singleton.mp h]
    decide
  · exact List.mem_range.mp (List.mem_filter.mp h).1

/-- The weekdays from the base on, as `rrul_fill_wly` shifts them. -/
def weekMask (dow : Bitints) (w : Nat) : Nat := (wlyWdMask dow ||| wlyWdMask dow <<< 7) >>> w % 128

/-- The days of a week that are selected, counted from a base that is a `w`. -/
def weekDays (dow : Bitints) (w : Nat) : List Nat := maskDays (weekMask dow w)

theorem incDays_wlyIncs (dow : Bitints) (w : Nat) : incDays 16 (wlyIncs dow w) 0 = weekDays dow w :=
  incDays_wdIncs _ (Nat.mod_lt _ (by decide))

theorem testBit_weekMask (dow : Bitints) {w o : Nat} (hw : 1 ≤ w ∧ w ≤ 7) (ho : o < 7) :
    (weekMask dow w).testBit o = true ↔ (wdayFrom w o : Int) ∈ plainDays dow := by
  have hnone : ∀ i, i = 0 ∨ 7 < i → (wlyWdMask dow).testBit i = false := by
    intro i hi
    refine Bool.eq_false_iff.mpr fun h => ?_
    have hr := (mem_plainDays.mp ((testBit_wlyWdMask dow i).mp h)).2
    omega
  rw [weekMask, show (128 : Nat) = 2 ^ 7 from rfl, Nat.testBit_mod_two_pow, Nat.testBit_shiftRight,
    Nat.testBit_or, Nat.testBit_shiftLeft, ← testBit_wlyWdMask]
  by_cases hle : w + o ≤ 7
  · rw [show wdayFrom w o = w + o by unfold wdayFrom; omega]
    by_cases h7 : w + o = 7
    · simp [h7, ho, hnone 0]
    · simp [ho, show ¬ 7 ≤ w + o by omega]
  · rw [show wdayFrom w o = w + o - 7 by unfold wdayFrom; omega, hnone (w + o) (by omega)]
    simp [ho, show 7 ≤ w + o by omega]

/-- **The selected days are those with a selected weekday.** -/
theorem mem_weekDays {dow : Bitints} {w o : Nat} (hw : 1 ≤ w ∧ w ≤ 7) (hne : plainDays dow ≠ []) :
    o ∈ weekDays dow w ↔ o < 7 ∧ (wdayFrom w o : Int) ∈ plainDays dow := by
  have hmask : weekMask dow w ≠ 0 := by
    intro h0
    obtain ⟨t, ht⟩ := List.exists_mem_of_ne_nil _ hne
    have hr := (mem_plainDays.mp ht).2
    -- the day on which the weekday comes next
    have hbit := (testBit_weekMask dow (o := (t.toNat + 7 - w) % 7) hw (by omega)).mpr
      (by rwa [show ((wdayFrom w ((t.toNat + 7 - w) % 7) : Nat) : Int) = t by
            unfold wdayFrom; omega])
    rw [h0, Nat.zero_testBit] at hbit
    cases hbit
  rw [weekDays, maskDays, if_neg hmask, List.mem_filter, List.mem_range]
  exact ⟨fun ⟨ho, hb⟩ => ⟨ho, (testBit_weekMask dow hw ho).mp hb⟩,
    fun ⟨ho, hb⟩ => ⟨ho, (testBit_weekMask dow hw ho).mpr hb⟩⟩

theorem weekDays_sorted (dow : Bitints) (w : Nat) : (weekDays dow w).Pairwise (· < ·) := by
  unfold weekDays maskDays
  split
  · exact List.pairwise_singleton ..
  · exact List.Pairwise.filter _ List.pairwise_lt_range

/-! ### Dates -/

/-- Where the days of a week are carried to. -/
def Pos.day (ndim : Nat → Nat → Nat) (p : Pos) (o : Nat) : Option Pos :=
  carry ndim id { p with d := p.d + o }

variable {ndim : Nat → Nat → Nat}

/-- The dates of a week from the one after `a` days on, which `q` goes on from. -/
theorem wlyDates_from (hlen : RegularLen ndim) (e : Enum) (ms : Nat) {p : Pos} (hp : p.InMonth ndim)
    (n : Nat) : ∀ (incs a : Nat) (q : Pos),
      (∀ b, a + b ≤ 25 → carry ndim id { q with d := q.d + b } = p.day ndim (a + b)) →
      (∀ o ∈ incDays n incs a, o ≤ 25 ∧ p.day ndim o ≠ none) →
      wlyDates ndim e ms n incs q =
        (incDays n incs a).map fun o => (p.day ndim o).map fun r => e.times r.y r.m r.d ms := by
  induction n with
  | zero => intro incs a q _ _; rfl
  | succ n ih =>
      intro incs a q hq hall
      obtain ⟨h25, hsome⟩ := hall (a + incs % 16) (by simp [incDays])
      obtain ⟨r, hr⟩ := Option.ne_none_iff_exists'.mp hsome
      rw [wlyDates, hq _ h25, hr, incDays, List.map_cons, hr]
      refine congrArg₂ List.cons rfl ?_
      split
      · rfl
      · rename_i hne
        refine ih (incs >>> 4) _ r (fun b hb => carry_add hlen hp hb hr) fun o ho => hall o ?_
        rw [incDays, if_neg hne]
        exact List.mem_cons_of_mem _ ho

/-- **The dates of a week are its selected days**, as far as there are months for them. -/
theorem wlyDates_eq (hlen : RegularLen ndim) (e : Enum) (ms : Nat) (dow : Bitints) (w : Nat) {p : Pos}
    (hp : p.InMonth ndim) (hall : ∀ o ∈ weekDays dow w, p.day ndim o ≠ none) :
    wlyDates ndim e ms 16 (wlyIncs dow w) p =
      (weekDays dow w).map fun o => (p.day ndim o).map fun r => e.times r.y r.m r.d ms := by
  rw [← incDays_wlyIncs] at hall ⊢
  refine wlyDates_from hlen e ms hp 16 _ 0 p (fun b _ => by rw [Nat.zero_add]; rfl) fun o ho => ?_
  have hlt := maskDays_lt (incDays_wlyIncs dow w ▸ ho)
  exact ⟨by omega, hall o ho⟩

end Echse
