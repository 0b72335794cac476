/-
Moving by business days.

What a movement by business days means is a walk by single days that counts Monday to Friday.
The code goes whole weeks first and then corrects by residues.  One of these is unsigned and has
but a small number added to keep it from wrapping around, so for large movements back it is
wrong.
-/
import Echse.Shift
import Echse.Lib.Walks

namespace Echse

open Walks (Walk)

/-! ### What is meant -/

/-- Monday to Friday. -/
def IsBday (w : Nat) : Prop := wdayMon ≤ w ∧ w ≤ wdayFri

instance (w : Nat) : Decidable (IsBday w) := inferInstanceAs (Decidable (_ ∧ _))

/-- The weekday after and the one before. -/
def dayOn (back : Bool) (w : Nat) : Nat := if back then (w + 5) % 7 + 1 else w % 7 + 1

/-- First leave the weekend, then take `k` business days, the first of which is the one already
come to unless inverse semantics are asked for. -/
def BdayWalk (w k : Nat) (back inv : Bool) (n : Nat) : Prop :=
  ∃ w0 w1 n0 n1, Walk (dayOn back) IsBday w (if IsBday w then 0 else 1) n0 w0 ∧
    Walk (dayOn back) IsBday w0 (if IsBday w ∨ inv = true then k else k - 1) n1 w1 ∧ n = n0 + n1

/-- The number of days that a movement by `b` business days is. -/
def BdaysAway (w : Nat) (b : Int) (back inv : Bool) (n : Int) : Prop :=
  ∃ m : Nat, BdayWalk w b.natAbs back inv m ∧ n = if back then -(m : Int) else m

theorem BdayWalk.unique {w k : Nat} {back inv : Bool} {n m : Nat} (h : BdayWalk w k back inv n)
    (h' : BdayWalk w k back inv m) : n = m := by
  obtain ⟨w0, w1, n0, n1, hleave, hwalk, rfl⟩ := h
  obtain ⟨w0', w1', n0', n1', hleave', hwalk', rfl⟩ := h'
  obtain ⟨rfl, rfl⟩ := hleave.unique hleave'
  rw [(hwalk.unique hwalk').1]

/-! ### How far the walk goes -/

/-- The `i`-th weekday of the walk from the first day of a week of it. -/
def bdayPlace (back : Bool) (i : Nat) : Nat := if back then 5 - i % 5 else i % 5 + 1

/-- The days to the `i`-th business day from the first of a week. -/
def bdaySteps (i : Nat) : Nat := i / 5 * 7 + i % 5

theorem walk_bday (back : Bool) (i : Nat) : Walk (dayOn back) IsBday (bdayPlace back i) 1
    (bdaySteps (i + 1) - bdaySteps i) (bdayPlace back (i + 1)) := by
  have hsteps : bdaySteps (i + 1) - bdaySteps i = if i % 5 = 4 then 3 else 1 := by
    unfold bdaySteps
    split <;> omega
  have hlt : i % 5 < 5 := Nat.mod_lt _ (by decide)
  have hnext : (i + 1) % 5 = (i % 5 + 1) % 5 := by omega
  unfold bdayPlace
  rw [hsteps, hnext]
  generalize i % 5 = j at hlt
  -- from the end of a week there are two days to pass
  interval_cases j <;> cases back
  all_goals first
    | exact Walk.count (by decide) (Walk.here _)
    | exact Walk.pass (by decide) (Walk.pass (by decide) (Walk.count (by decide) (Walk.here _)))

theorem walk_bdays (back : Bool) (i k : Nat) : Walk (dayOn back) IsBday (bdayPlace back i) k
    (bdaySteps (i + k) - bdaySteps i) (bdayPlace back (i + k)) :=
  (Walk.through (walk_bday back) (fun i => by unfold bdaySteps; omega) i k).1

/-- Where in the week a walk from a business day starts. -/
def bdayIndex (back : Bool) (w : Nat) : Nat := if back then 5 - w else w - 1

theorem bdayWalk_bday {w : Nat} (hw : IsBday w) (k : Nat) (back inv : Bool) :
    BdayWalk w k back inv
      (bdaySteps (bdayIndex back w + k) - bdaySteps (bdayIndex back w)) := by
  have hplace : bdayPlace back (bdayIndex back w) = w := by
    unfold IsBday wdayMon wdayFri at hw
    unfold bdayPlace bdayIndex
    cases back <;> simp <;> omega
  have hwalk := walk_bdays back (bdayIndex back w) k
  rw [hplace] at hwalk
  refine ⟨w, bdayPlace back (bdayIndex back w + k), 0,
    bdaySteps (bdayIndex back w + k) - bdaySteps (bdayIndex back w), ?_, ?_, (Nat.zero_add _).symm⟩
  · rw [if_pos hw]
    exact Walk.here _
  · rwa [if_pos (Or.inl hw)]

/-- The days it takes to leave the weekend. -/
def weekendDays (back : Bool) (w : Nat) : Nat := if back then w - 5 else 8 - w

theorem bdayWalk_weekend {w : Nat} (hw : w = 6 ∨ w = 7) (k : Nat) (back inv : Bool) :
    BdayWalk w k back inv
      (weekendDays back w + bdaySteps (if inv = true then k else k - 1)) := by
  have hno : ¬ IsBday w := by
    unfold IsBday wdayMon wdayFri
    omega
  have hleave : Walk (dayOn back) IsBday w 1 (weekendDays back w) (bdayPlace back 0) := by
    rcases hw with rfl | rfl <;> cases back
    all_goals first
      | exact Walk.count (by decide) (Walk.here _)
      | exact Walk.pass (by decide) (Walk.count (by decide) (Walk.here _))
  have hwalk := walk_bdays back 0 (if inv = true then k else k - 1)
  rw [Nat.zero_add] at hwalk
  refine ⟨bdayPlace back 0, bdayPlace back (if inv = true then k else k - 1), weekendDays back w,
    bdaySteps (if inv = true then k else k - 1), ?_, ?_, rfl⟩
  · rwa [if_neg hno]
  · rw [show (if IsBday w ∨ inv = true then k else k - 1) = if inv = true then k else k - 1 by
      simp [hno]]
    exact hwalk

/-! ### What the code computes -/

/-- The movement from a business day on. -/
def bdayRest (w : Nat) (nuB : Int) : Int :=
  let u5 := u32OfInt ((w : Int) + 384 + nuB) % 5
  let nuB := Int.tdiv nuB 5 * 7 + Int.tmod nuB 5
  let u7 := u32OfInt ((w : Int) + 384 + nuB) % 7
  nuB + ((u5 : Int) - u7) + if 0 < nuB ∧ u5 < u7 then 7 else 0

theorem bdayOffs_bday {w : Nat} (hw : w < wdaySat) (b : Int) (neg inv : Bool) :
    bdayOffs w b neg inv = bdayRest w b := by
  unfold bdayOffs bdayRest
  simp only [if_pos hw]
  omega

theorem bdayOffs_weekend {w : Nat} (hw : ¬ w < wdaySat) (b : Int) (neg inv : Bool) :
    bdayOffs w b neg inv =
      (if neg then -((w : Int) - 5) else 8 - (w : Int)) +
        bdayRest (if neg then wdayFri else wdayMon)
          (if b ≠ 0 ∧ inv = false then if neg then b + 1 else b - 1 else b) := by
  unfold bdayOffs bdayRest
  simp only [if_neg hw]
  by_cases hone : b ≠ 0 ∧ inv = false
  · simp only [if_pos hone]
    cases neg <;> simp only [if_true, Bool.false_eq_true, if_false] <;> omega
  · simp only [if_neg hone]
    cases neg <;> simp only [if_true, Bool.false_eq_true, if_false, Int.sub_zero, Int.add_zero] <;>
      omega

/-- Without wrapping around, the rest is right. -/
theorem bdayRest_on {w k : Nat} (hw : IsBday w) (hk : k ≤ 366) :
    bdayRest w k = (bdaySteps (w - 1 + k) - bdaySteps (w - 1) : Nat) := by
  unfold IsBday wdayMon wdayFri at hw
  have hdiv : Int.tdiv k 5 = ((k / 5 : Nat) : Int) := rfl
  have hmod : Int.tmod k 5 = ((k % 5 : Nat) : Int) := rfl
  have h5 : u32OfInt ((w : Int) + 384 + k) = w + 384 + k := by
    unfold u32OfInt wordOfInt
    omega
  have h7 : u32OfInt ((w : Int) + 384 + (((k / 5 : Nat) : Int) * 7 + ((k % 5 : Nat) : Int))) =
      w + 384 + (k / 5 * 7 + k % 5) := by
    unfold u32OfInt wordOfInt
    omega
  unfold bdayRest bdaySteps
  simp only [hdiv, hmod, h5, h7]
  clear hdiv hmod h5 h7
  split <;> omega

/-- Back, the unsigned residue has to keep from wrapping around. -/
theorem bdayRest_back {w k : Nat} (hw : IsBday w) (hk : k ≤ 366) :
    bdayRest w (-(k : Int)) = -((bdaySteps (5 - w + k) - bdaySteps (5 - w) : Nat) : Int) ↔
      k ≤ 274 + w := by
  unfold IsBday wdayMon wdayFri at hw
  have hdiv : Int.tdiv (-(k : Int)) 5 = -((k / 5 : Nat) : Int) := Int.neg_tdiv k 5
  have hmod : Int.tmod (-(k : Int)) 5 = -((k % 5 : Nat) : Int) := Int.neg_tmod k 5
  have h5 : u32OfInt ((w : Int) + 384 + -(k : Int)) = w + 384 - k := by
    unfold u32OfInt wordOfInt
    omega
  have hno : ¬ (0 < -((k / 5 : Nat) : Int) * 7 + -((k % 5 : Nat) : Int)) := by omega
  unfold bdayRest bdaySteps
  simp only [hdiv, hmod, h5, hno, false_and, if_false]
  by_cases hwrap : k / 5 * 7 + k % 5 ≤ w + 384
  · have h7 : u32OfInt ((w : Int) + 384 + (-((k / 5 : Nat) : Int) * 7 + -((k % 5 : Nat) : Int))) =
        w + 384 - (k / 5 * 7 + k % 5) := by
      unfold u32OfInt wordOfInt
      omega
    rw [h7]
    omega
  · -- 2 ^ 32 is 4 modulo 7
    have h7 : u32OfInt ((w : Int) + 384 + (-((k / 5 : Nat) : Int) * 7 + -((k % 5 : Nat) : Int))) =
        4294967296 + (w + 384) - (k / 5 * 7 + k % 5) := by
      unfold u32OfInt wordOfInt
      omega
    rw [h7]
    omega

/-! ### The shift value -/

/-- The number of business days is a multiple of the direction. -/
theorem echsShiftBvalue_sign (sh : Int) :
    echsShiftBvalue sh =
      if echsShiftNegP sh then -((echsShiftBvalue sh).natAbs : Int)
      else (echsShiftBvalue sh).natAbs := by
  have hval : echsShiftBvalue sh =
      if shiftLow sh % 2 = 0 then ((shiftLow sh / 4 : Nat) : Int)
      else -((shiftLow sh / 4 : Nat) : Int) := rfl
  unfold echsShiftNegP
  by_cases hlow : shiftLow sh % 2 = 0
  · rw [if_pos hlow] at hval
    rw [hlow, if_neg (by decide)]
    omega
  · rw [if_neg hlow] at hval
    rw [show shiftLow sh % 2 = 1 by omega, if_pos (by decide)]
    omega

/-- The condition on the number of business days: going back 274 and a few more is too far. -/
def BdaysNear (w : Nat) (b : Int) (neg inv : Bool) : Prop :=
  neg = true → -b ≤ if w < wdaySat then 274 + w else if b ≠ 0 ∧ inv = false then 280 else 279

/-- The closed form counts business days unless there are too many to go back. -/
theorem bdaysAway_bdayOffs {w : Nat} (h1 : 1 ≤ w) (h7 : w ≤ 7) {b : Int} {neg : Bool}
    (hb : b.natAbs ≤ 366) (hsign : b = if neg then -(b.natAbs : Int) else b.natAbs) (inv : Bool) :
    BdaysAway w b neg inv (bdayOffs w b neg inv) ↔ BdaysNear w b neg inv := by
  generalize hk : b.natAbs = k at hb hsign
  -- there is but one number of days
  have haway : ∀ {m : Nat}, BdayWalk w k neg inv m → (BdaysAway w b neg inv (bdayOffs w b neg inv) ↔
      bdayOffs w b neg inv = if neg then -(m : Int) else m) := by
    intro m hm
    constructor
    · rintro ⟨m', hm', heq⟩
      rw [hk] at hm'
      rw [heq, hm'.unique hm]
    · intro heq
      exact ⟨m, hk.symm ▸ hm, heq⟩
  by_cases hbday : IsBday w
  · have hlt : w < wdaySat := Nat.lt_succ_of_le hbday.2
    rw [haway (bdayWalk_bday hbday k neg inv), bdayOffs_bday hlt]
    unfold BdaysNear
    rw [if_pos hlt]
    cases neg with
    | false =>
        rw [hsign]
        simp only [Bool.false_eq_true, if_false, false_imp_iff, iff_true]
        exact bdayRest_on hbday hb
    | true =>
        rw [hsign]
        simp only [if_true, true_imp_iff, Int.neg_neg]
        rw [show bdayIndex true w = 5 - w from rfl, bdayRest_back hbday hb]
        omega
  · have hge : ¬ w < wdaySat := fun h => hbday ⟨h1, Nat.le_of_lt_succ h⟩
    have hw : w = 6 ∨ w = 7 := by
      unfold wdaySat at hge
      omega
    rw [haway (bdayWalk_weekend hw k neg inv), bdayOffs_weekend hge]
    unfold BdaysNear weekendDays
    rw [if_neg hge]
    -- the days that are left after leaving the weekend
    generalize hk' : (if inv = true then k else k - 1) = k'
    have hle : k' ≤ 366 := by
      rw [← hk']
      split <;> omega
    cases neg with
    | false =>
        have hrest : (if b ≠ 0 ∧ inv = false then b - 1 else b) = (k' : Int) := by
          rw [hsign, ← hk']
          cases inv with
          | true => simp
          | false =>
              simp
              omega
        simp only [Bool.false_eq_true, if_false, false_imp_iff, iff_true]
        rw [hrest, bdayRest_on (by decide) hle]
        unfold wdayMon bdaySteps
        omega
    | true =>
        have hrest : (if b ≠ 0 ∧ inv = false then b + 1 else b) = -(k' : Int) := by
          rw [hsign, ← hk']
          cases inv with
          | true => simp
          | false =>
              simp
              omega
        have hback := bdayRest_back (w := wdayFri) (by decide) hle
        have hnear : -b ≤ ((if b ≠ 0 ∧ inv = false then 280 else 279 : Nat) : Int) ↔
            k' ≤ 274 + wdayFri := by
          rw [hsign, ← hk', if_pos rfl]
          cases inv with
          | true => simp [wdayFri]
          | false =>
              simp [wdayFri]
              omega
        have hsteps : bdaySteps (5 - wdayFri + k') - bdaySteps (5 - wdayFri) = bdaySteps k' := by
          rw [show 5 - wdayFri = 0 from rfl, Nat.zero_add]
          rfl
        rw [hsteps] at hback
        simp only [if_true, true_imp_iff]
        rw [hrest, hnear, ← hback]
        omega

/-- **The closed form of `shift` counts business days** unless there are too many to go back. -/
theorem bdayOffs_exact {w : Nat} (h1 : 1 ≤ w) (h7 : w ≤ 7) {sh : Int}
    (hb : (echsShiftBvalue sh).natAbs ≤ 366) :
    BdaysAway w (echsShiftBvalue sh) (echsShiftNegP sh) (echsShiftInvP sh)
        (bdayOffs w (echsShiftBvalue sh) (echsShiftNegP sh) (echsShiftInvP sh)) ↔
      BdaysNear w (echsShiftBvalue sh) (echsShiftNegP sh) (echsShiftInvP sh) :=
  bdaysAway_bdayOffs h1 h7 hb (echsShiftBvalue_sign sh) (echsShiftInvP sh)

/-- Two business days back in inverse semantics: the shift value 11. -/
theorem bdayOffs_exact_two :
    BdaysAway 7 (echsShiftBvalue 11) (echsShiftNegP 11) (echsShiftInvP 11)
        (bdayOffs 7 (echsShiftBvalue 11) (echsShiftNegP 11) (echsShiftInvP 11)) ↔
      BdaysNear 7 (echsShiftBvalue 11) (echsShiftNegP 11) (echsShiftInvP 11) :=
  bdayOffs_exact (by decide) (by decide) (by decide)

/-- From a Monday, 300 business days back are 420 days, and the code goes four more. -/
theorem bdayOffs_wraps :
    ¬ ∀ (w : Nat) (sh : Int), 1 ≤ w → w ≤ 7 → (echsShiftBvalue sh).natAbs ≤ 366 →
      BdaysAway w (echsShiftBvalue sh) (echsShiftNegP sh) (echsShiftInvP sh)
        (bdayOffs w (echsShiftBvalue sh) (echsShiftNegP sh) (echsShiftInvP sh)) := by
  intro h
  obtain ⟨m, hm, heq⟩ := h 1 1201 (by decide) (by decide) (by decide)
  have hm' : BdayWalk 1 300 true false 420 := bdayWalk_bday (by decide) 300 true false
  have hval : bdayOffs 1 (echsShiftBvalue 1201) (echsShiftNegP 1201) (echsShiftInvP 1201) = -424 := by
    decide
  rw [hval] at heq
  obtain rfl : m = 420 := hm.unique hm'
  exact absurd heq (by decide)

end Echse
