/-
What the expanders divide by.

Days are carried by remainders of month lengths, which are 0 for the months that a month
table does not have, and `rrul_fill_mly` looks for congruent months by remainders of
INTERVAL, which a text can make 0 by a multiple of 2^32.
-/
import Echse.Proofs.Weeks
import Echse.Proofs.Steps
import Echse.Proofs.Halt

namespace Echse

open FillLoop (Loop)

/-! ### Months that always have a length -/

/-- Days are carried through months that all have a length. -/
theorem carries_of_pos {ndim : Nat → Nat → Nat} (hpos : ∀ y m, 1 ≤ m → m ≤ 12 → ndim y m ≠ 0)
    {y m : Nat} (hm : 1 ≤ m ∧ m ≤ 12) (d : Nat) : Carries ndim y m (ndim y m) d := by
  have hnext := monthAfter_range (y := y) hm.1 hm.2
  have hlast := monthAfter_range (y := (monthAfter y m).1) hnext.1 hnext.2
  exact Or.inr ⟨hpos _ _ hm.1 hm.2, hpos _ _ hnext.1 hnext.2, Or.inr (hpos _ _ hlast.1 hlast.2)⟩

theorem carry_ne_none_of_pos {ndim : Nat → Nat → Nat} {newYear : Pos → Pos} (hlen : RegularLen ndim)
    (hpos : ∀ y m, 1 ≤ m → m ≤ 12 → ndim y m ≠ 0) (hnew : KeepsDate newYear) {p : Pos}
    (hm : 1 ≤ p.m ∧ p.m ≤ 12) (hmaxd : p.maxd = ndim p.y p.m) : carry ndim newYear p ≠ none := by
  rw [carry_ne_none_iff hlen hnew hm hmaxd, hmaxd]
  exact carries_of_pos hpos hm p.d

/-- Only the calendars with a month table run out of months. -/
theorem echsScaleNdim_pos {s : Scale} (hu : s ≠ .hijriUmmulqura) (hd : s ≠ .hijriDiyanet) (y m : Nat)
    (h1 : 1 ≤ m) (h12 : m ≤ 12) : echsScaleNdim s y m ≠ 0 := by
  have hhij : ∀ t, ndimHij t y m ≠ 0 := by
    intro t
    unfold ndimHij
    omega
  cases s with
  | gregorian =>
      have h : 28 ≤ ndimGreg y m := (ndimGreg_range y h1 h12).1
      change ndimGreg y m ≠ 0
      omega
  | hijriUmmulqura => exact absurd rfl hu
  | hijriDiyanet => exact absurd rfl hd
  | _ => exact hhij _

theorem getNdom_pos (y m : Nat) (h1 : 1 ≤ m) (h12 : m ≤ 12) : getNdom y m ≠ 0 :=
  echsScaleNdim_pos (s := .gregorian) (by decide) (by decide) y m h1 h12

/-- Days are carried through Gregorian months. -/
theorem carry_greg {newYear : Pos → Pos} (hnew : KeepsDate newYear) {p : Pos}
    (hm : 1 ≤ p.m ∧ p.m ≤ 12) (hmaxd : p.maxd = getNdom p.y p.m) :
    ∃ q, carry getNdom newYear p = some q ∧ q.InMonth getNdom := by
  have hlen : RegularLen getNdom := regularLen_scale .gregorian
  obtain ⟨q, hq⟩ := Option.ne_none_iff_exists'.mp
    (carry_ne_none_of_pos hlen getNdom_pos hnew hm hmaxd)
  exact ⟨q, hq, (carry_inMonth hlen hnew hm hmaxd hq).1⟩

theorem carryHours_greg {p : Pos} (h : p.InMonth getNdom) :
    ∃ q, carryHours p = some q ∧ q.InMonth getNdom := by
  unfold carryHours
  split
  · exact carry_greg keepsDate_id h.month h.maxd
  · exact ⟨p, rfl, h⟩

/-- **The steps of the loops below a day can always be taken.** -/
theorem step_greg {t : Tick} (ht : t = .hour ∨ t = .minute ∨ t = .second) (rr : Rrulsp) {p : Pos}
    (h : p.InMonth getNdom) : ∃ q, t.next rr p = some q ∧ q.InMonth getNdom := by
  have hmove : ∀ r : Pos, r.y = p.y → r.m = p.m → r.d = p.d → r.maxd = p.maxd →
      r.InMonth getNdom := fun r hy hm hd hx => ⟨by rw [hm]; exact h.month,
        by rw [hx, hy, hm]; exact h.maxd, by rw [hd]; exact h.day⟩
  rcases ht with rfl | rfl | rfl
  · change ∃ q, hlyStep rr.inter p = some q ∧ _
    unfold hlyStep
    dsimp only
    split
    · exact carry_greg keepsDate_hly h.month h.maxd
    · exact ⟨_, rfl, hmove _ rfl rfl rfl rfl⟩
  · change ∃ q, minlyStep rr.inter p = some q ∧ _
    unfold minlyStep
    dsimp only
    split
    · exact carryHours_greg (hmove _ rfl rfl rfl rfl)
    · exact ⟨_, rfl, hmove _ rfl rfl rfl rfl⟩
  · change ∃ q, slyStep rr.inter p = some q ∧ _
    unfold slyStep
    dsimp only
    split
    · split
      · exact carryHours_greg (hmove _ rfl rfl rfl rfl)
      · exact ⟨_, rfl, hmove _ rfl rfl rfl rfl⟩
    · exact ⟨_, rfl, hmove _ rfl rfl rfl rfl⟩

namespace Tick

/-- **The loops below a day never divide by a month length of 0.** -/
theorem defined_below_day {t : Tick} (ht : t = .hour ∨ t = .minute ∨ t = .second) (tgt : Instant)
    (nti : Nat) (rr : Rrulsp) : (t.expander tgt nti rr).Defined := by
  have hstart : ∃ p : Pos, p.y = tgt.y ∧ p.m = tgt.m ∧ p.d = tgt.d ∧ p.maxd = getNdom tgt.y tgt.m ∧
      (t.expander tgt nti rr).start =
        if countOrScaleGone rr nti || badStart tgt then .error .done else .ok p := by
    rcases ht with rfl | rfl | rfl
    all_goals exact ⟨_, rfl, rfl, rfl, rfl, rfl⟩
  have hnext : (t.expander tgt nti rr).loop.next = t.next rr := by
    rcases ht with rfl | rfl | rfl <;> rfl
  have hgroups : ∀ p, none ∉ (t.expander tgt nti rr).loop.groups p := by
    intro p
    rcases ht with rfl | rfl | rfl
    all_goals
      change none ∉ if _ then [some _] else []
      split <;> simp
  obtain ⟨p, hy, hm, hd, hmaxd, hs⟩ := hstart
  by_cases hbad : (countOrScaleGone rr nti || badStart tgt) = true
  · rw [if_pos hbad] at hs
    exact Expander.defined_of_returns (Expander.returns_of_done hs)
  · rw [if_neg hbad] at hs
    rw [Bool.or_eq_true, not_or] at hbad
    have hdate := hbad.2
    simp only [badStart, badDate, Bool.or_eq_true, decide_eq_true_eq, beq_iff_eq, not_or,
      Nat.not_lt] at hdate
    rw [Expander.defined_ok_iff hs]
    refine Loop.not_traps (Q := fun q : Pos => q.InMonth getNdom) (fun q r hq hr => ?_)
      (fun q _ => hgroups q) (fun q hq => ?_) _ ?_ (by simp [Loop.start])
    · rw [hnext] at hr
      obtain ⟨r', hr', hin⟩ := step_greg ht rr hq
      rw [hr, Option.some.injEq] at hr'
      exact hr' ▸ hin
    · rw [hnext]
      obtain ⟨r, hr, -⟩ := step_greg ht rr hq
      rw [hr]
      simp
    · refine ⟨?_, ?_, ?_⟩ <;> dsimp only [Loop.start]
      · omega
      · rw [hmaxd, hy, hm]
      · omega

/-! ### Days and weeks

These carry days through the months of the rule's scale.
-/

/-- The days that a pass from a position carries: those of the week and those it steps by. -/
def carried (t : Tick) (rr : Rrulsp) (w : Nat) (p : Pos) : List Nat :=
  if t = .week ∨ (maskPlain (wdMaskOf rr.dow) && rr.inter == 1) = true then
    (weekDays rr.dow w).map (p.d + ·) ++ [u32 (p.d + u32 (rr.inter * 7))]
  else [u32 (p.d + rr.inter)]

end Tick

namespace Expander

/-- A run makes another pass. -/
def WorksAt (X : Expander) (k : Nat) : Prop :=
  (X.after k).stop = none ∧ (X.after k).out.length < X.room

/-- A run does not trap as long as the passes it makes can be computed. -/
theorem after_ne_trap {X : Expander} {Q : Pos → Prop}
    (hstart : X.start = .error .done ∨ ∃ p, X.start = .ok p ∧ Q p)
    (hhop : ∀ p, X.loop.hop p = false)
    (hnext : ∀ p q, Q p → X.loop.next p = some q → Q q) {n : Nat}
    (h : ∀ k < n, X.WorksAt k → Q (X.after k).pos →
      none ∉ X.loop.groups (X.after k).pos ∧ X.loop.next (X.after k).pos ≠ none) :
    (X.after n).stop ≠ some .trap := by
  rcases hstart with hs | ⟨p, hs, hp⟩
  · exact defined_of_returns (returns_of_done hs) n
  · have hinit : X.init = X.loop.start p := by
      unfold init
      rw [hs]
    have hpos : ∀ k, Q (X.after k).pos := by
      intro k
      unfold after
      rw [hinit]
      exact Loop.passes_pos hnext _ k hp
    refine Loop.passes_ne_trap (some X.room) (by simp [hinit, Loop.start]) n
      fun k hk hstop hgo => h k hk ⟨hstop, ?_⟩ (hpos k)
    rcases hgo with hgo | hgo
    · rw [hhop] at hgo
      cases hgo
    · exact Nat.not_le.mp (of_decide_eq_false hgo)

end Expander

section Weeks

variable {rr : Rrulsp} {tgt : Instant} {nti : Nat}

/-- The weekday of a start instant. -/
def startWday (tgt : Instant) (rr : Rrulsp) : Nat :=
  echsScaleWday rr.scale (protoOf tgt rr).y (protoOf tgt rr).m (protoOf tgt rr).d

theorem inMonth_of_proto {b : Bool} (h : ¬ (b || badDate (protoOf tgt rr)) = true) {p : Pos}
    (hy : p.y = (protoOf tgt rr).y) (hm : p.m = (protoOf tgt rr).m) (hd : p.d = (protoOf tgt rr).d)
    (hmaxd : p.maxd = echsScaleNdim rr.scale (protoOf tgt rr).y (protoOf tgt rr).m) :
    p.InMonth (echsScaleNdim rr.scale) := by
  rw [Bool.or_eq_true, not_or] at h
  have hdate := h.2
  simp only [badDate, Bool.or_eq_true, decide_eq_true_eq, beq_iff_eq, not_or, Nat.not_lt] at hdate
  exact ⟨by omega, by rw [hmaxd, hy, hm], by omega⟩

/-- A pass of `rrul_fill_wly` can be computed if its days can be carried. -/
theorem wlyLoop_defined {p : Pos} (hp : p.InMonth (echsScaleNdim rr.scale))
    (h : ∀ d ∈ Tick.week.carried rr (startWday tgt rr) p,
      Carries (echsScaleNdim rr.scale) p.y p.m p.maxd d) :
    none ∉ (wlyLoop (protoOf tgt rr) rr).groups p ∧ (wlyLoop (protoOf tgt rr) rr).next p ≠ none := by
  have hlen := regularLen_scale rr.scale
  rw [Tick.carried, if_pos (Or.inl rfl), List.forall_mem_append] at h
  obtain ⟨hweek, hstep⟩ := h
  have hday : ∀ o ∈ weekDays rr.dow (startWday tgt rr), p.day (echsScaleNdim rr.scale) o ≠ none := by
    intro o ho
    exact (carry_ne_none_iff (p := { p with d := p.d + o }) hlen keepsDate_id hp.month hp.maxd).mpr
      (hweek _ (List.mem_map_of_mem ho))
  constructor
  · change none ∉ wlyDates _ _ _ 16 (wlyIncs rr.dow (startWday tgt rr)) p
    rw [wlyDates_eq hlen _ _ _ _ hp hday, List.mem_map]
    rintro ⟨o, ho, hnone⟩
    exact hday o ho (Option.map_eq_none_iff.mp hnone)
  · exact (carry_ne_none_iff (p := { p with d := u32 (p.d + u32 (rr.inter * 7)) }) hlen keepsDate_id
      hp.month hp.maxd).mpr (hstep _ (List.mem_singleton_self _))

theorem wlyLoop_inMonth (tgt : Instant) {p q : Pos} (hp : p.InMonth (echsScaleNdim rr.scale))
    (h : (wlyLoop (protoOf tgt rr) rr).next p = some q) : q.InMonth (echsScaleNdim rr.scale) :=
  (carry_inMonth (p := { p with d := u32 (p.d + u32 (rr.inter * 7)) }) (regularLen_scale rr.scale)
    keepsDate_id hp.month hp.maxd h).1

theorem rrulFillWly_ne_trap (n : Nat)
    (h : ∀ k < n, (rrulFillWly tgt nti rr).WorksAt k →
      ((rrulFillWly tgt nti rr).after k).pos.InMonth (echsScaleNdim rr.scale) →
      ∀ d ∈ Tick.week.carried rr (startWday tgt rr) ((rrulFillWly tgt nti rr).after k).pos,
        Carries (echsScaleNdim rr.scale) ((rrulFillWly tgt nti rr).after k).pos.y
          ((rrulFillWly tgt nti rr).after k).pos.m ((rrulFillWly tgt nti rr).after k).pos.maxd d) :
    ((rrulFillWly tgt nti rr).after n).stop ≠ some .trap := by
  refine Expander.after_ne_trap (Q := fun p => p.InMonth (echsScaleNdim rr.scale)) ?_
    (fun _ => rfl) (fun _ _ hp hq => wlyLoop_inMonth tgt hp hq)
    fun k hk hw hp => wlyLoop_defined hp (h k hk hw hp)
  unfold rrulFillWly
  dsimp only
  split
  · exact Or.inl rfl
  · rename_i hbad
    exact Or.inr ⟨_, rfl, inMonth_of_proto hbad rfl rfl rfl rfl⟩

theorem rrulFillDly_ne_trap (n : Nat)
    (h : ∀ k < n, (rrulFillDly tgt nti rr).WorksAt k →
      ((rrulFillDly tgt nti rr).after k).pos.InMonth (echsScaleNdim rr.scale) →
      ∀ d ∈ Tick.day.carried rr (startWday tgt rr) ((rrulFillDly tgt nti rr).after k).pos,
        Carries (echsScaleNdim rr.scale) ((rrulFillDly tgt nti rr).after k).pos.y
          ((rrulFillDly tgt nti rr).after k).pos.m ((rrulFillDly tgt nti rr).after k).pos.maxd d) :
    ((rrulFillDly tgt nti rr).after n).stop ≠ some .trap := by
  by_cases hdel : (maskPlain (wdMaskOf rr.dow) && rr.inter == 1) = true
  · by_cases hgo : (!countGone rr nti && !badDate (protoOf tgt rr)) = true
    · -- the weekly loop is at work
      have hX : rrulFillDly tgt nti rr = rrulFillWly tgt (clampCount rr nti) rr := by
        unfold rrulFillDly
        dsimp only
        rw [Bool.and_assoc, hgo, hdel]
        rfl
      rw [hX] at h ⊢
      refine rrulFillWly_ne_trap n fun k hk hw hp => ?_
      have hcarried : Tick.day.carried rr = Tick.week.carried rr := by
        funext w p
        unfold Tick.carried
        rw [if_pos (Or.inr hdel), if_pos (Or.inl rfl)]
      rw [← hcarried]
      exact h k hk hw hp
    · have hstart : (rrulFillDly tgt nti rr).start = .error .done := by
        unfold rrulFillDly
        dsimp only
        rw [Bool.and_assoc, Bool.eq_false_iff.mpr hgo, if_neg (by simp)]
        dsimp only
        refine if_pos ?_
        revert hgo
        cases countGone rr nti <;> cases badDate (protoOf tgt rr) <;> decide
      exact Expander.defined_of_returns (Expander.returns_of_done hstart) n
  · have hown : (maskPlain (wdMaskOf rr.dow) && rr.inter == 1) = false := Bool.eq_false_iff.mpr hdel
    rw [Tick.rrulFillDly_eq tgt nti hown] at h ⊢
    refine Expander.after_ne_trap (Q := fun p => p.InMonth (echsScaleNdim rr.scale)) ?_
      (fun _ => rfl) (fun p q hp hq => ?_) fun k hk hw hp => ⟨?_, ?_⟩
    · dsimp only
      split
      · exact Or.inl rfl
      · rename_i hbad
        exact Or.inr ⟨_, rfl, inMonth_of_proto hbad rfl rfl rfl rfl⟩
    · exact (carry_inMonth (regularLen_scale rr.scale) keepsDate_id (by exact hp.month)
        (by exact hp.maxd) hq).1
    · change none ∉ if _ then [some _] else []
      split <;> simp
    · refine (carry_ne_none_iff (regularLen_scale rr.scale) keepsDate_id ?_ ?_).mpr ?_
      · exact hp.month
      · exact hp.maxd
      · refine h k hk hw hp _ ?_
        unfold Tick.carried
        rw [if_neg (by simp [hown])]
        exact List.mem_singleton_self _

end Weeks

/-! ### All of them -/

/-- **A monthly rule divides by 0 exactly if it searches for months by an INTERVAL of 0.** -/
theorem rrulFillMly_start_trap_iff (tgt : Instant) (nti : Nat) (rr : Rrulsp) :
    (rrulFillMly tgt nti rr).start = .error .trap ↔
      rr.inter = 0 ∧ bui31HasBits rr.mon = true ∧ countGone rr nti = false ∧
        1 ≤ (protoOf tgt rr).m ∧ (protoOf tgt rr).m ≤ 12 := by
  unfold rrulFillMly
  dsimp only
  by_cases hcount : countGone rr nti = true
  · simp [hcount]
  by_cases hm : (protoOf tgt rr).m = 0 ∨ 12 < (protoOf tgt rr).m
  · rw [if_neg hcount, if_pos hm]
    simp only [Except.error.injEq, reduceCtorEq, false_iff]
    omega
  have hm12 : 1 ≤ (protoOf tgt rr).m ∧ (protoOf tgt rr).m ≤ 12 := by omega
  rw [if_neg hcount, if_neg hm]
  cases hmon : bui31HasBits rr.mon with
  | false => simp
  | true =>
      by_cases h0 : rr.inter = 0
      · simp [h0, hcount, hm12]
      · rw [if_pos rfl, if_neg h0]
        split <;> simp [h0]

/-- **Where the expanders divide**, for any rule that can be read.  Years, and hours and below,
never divide by 0; months do where INTERVAL has become 0 and BYMONTH is given; weeks and days
do not as long as the days they carry come to months of the calendar, and that they always
do unless the calendar is a table. -/
theorem expanders_divide (s : List Char) (tgt : Instant) (nti : Nat) :
    (rrulFillYly tgt nti (snarfRrule s)).Defined ∧
      ((rrulFillMly tgt nti (snarfRrule s)).start ≠ .error .trap ↔
        ¬ ((snarfRrule s).inter = 0 ∧ bui31HasBits (snarfRrule s).mon = true ∧
          countGone (snarfRrule s) nti = false ∧ 1 ≤ (protoOf tgt (snarfRrule s)).m ∧
          (protoOf tgt (snarfRrule s)).m ≤ 12)) ∧
      (∀ t ∈ [Tick.hour, .minute, .second], (t.expander tgt nti (snarfRrule s)).Defined) ∧
      ∀ t ∈ [Tick.week, .day],
        (∀ n, (∀ k < n, (t.expander tgt nti (snarfRrule s)).WorksAt k →
            ∀ d ∈ t.carried (snarfRrule s) (startWday tgt (snarfRrule s))
                ((t.expander tgt nti (snarfRrule s)).after k).pos,
              Carries (echsScaleNdim (snarfRrule s).scale)
                ((t.expander tgt nti (snarfRrule s)).after k).pos.y
                ((t.expander tgt nti (snarfRrule s)).after k).pos.m
                ((t.expander tgt nti (snarfRrule s)).after k).pos.maxd d) →
          ((t.expander tgt nti (snarfRrule s)).after n).stop ≠ some .trap) ∧
        ((snarfRrule s).scale ≠ .hijriUmmulqura → (snarfRrule s).scale ≠ .hijriDiyanet →
          (t.expander tgt nti (snarfRrule s)).Defined) := by
  have hruns : ∀ t ∈ [Tick.week, .day], ∀ n,
      (∀ k < n, (t.expander tgt nti (snarfRrule s)).WorksAt k →
        ((t.expander tgt nti (snarfRrule s)).after k).pos.InMonth
          (echsScaleNdim (snarfRrule s).scale) →
        ∀ d ∈ t.carried (snarfRrule s) (startWday tgt (snarfRrule s))
            ((t.expander tgt nti (snarfRrule s)).after k).pos,
          Carries (echsScaleNdim (snarfRrule s).scale)
            ((t.expander tgt nti (snarfRrule s)).after k).pos.y
            ((t.expander tgt nti (snarfRrule s)).after k).pos.m
            ((t.expander tgt nti (snarfRrule s)).after k).pos.maxd d) →
      ((t.expander tgt nti (snarfRrule s)).after n).stop ≠ some .trap := by
    intro t ht n
    rcases List.mem_pair.mp ht with rfl | rfl
    · exact rrulFillWly_ne_trap n
    · exact rrulFillDly_ne_trap n
  refine ⟨Expander.defined_of_returns (rrulFillYly_returns ..),
    not_congr (rrulFillMly_start_trap_iff ..),
    fun t ht => Tick.defined_below_day (by simpa using ht) tgt nti _,
    fun t ht => ⟨fun n h => hruns t ht n fun k hk hw _ => h k hk hw, fun hu hd n => ?_⟩⟩
  refine hruns t ht n fun k _ _ hp d _ => ?_
  rw [hp.maxd]
  exact carries_of_pos (echsScaleNdim_pos hu hd) hp.month d

/-- A run of a weekly rule that never divides by 0. -/
theorem expanders_divide_weekly :
    (rrulFillWly (.pack 2000 1 1 0 0 0 echsAllSec) grpCchOff
      (snarfRrule "FREQ=WEEKLY;BYDAY=MO".toList)).Defined :=
  ((expanders_divide "FREQ=WEEKLY;BYDAY=MO".toList (.pack 2000 1 1 0 0 0 echsAllSec)
    grpCchOff).2.2.2 .week (by decide)).2 (by decide) (by decide)

/-- A multiple of 2^32 is no INTERVAL to divide by. -/
theorem mly_divides_by_zero :
    ¬ ∀ (s : List Char) (tgt : Instant) (nti : Nat),
      (rrulFillMly tgt nti (snarfRrule s)).start ≠ .error .trap := by
  intro h
  refine h "FREQ=MONTHLY;INTERVAL=4294967296;BYMONTH=1".toList
    (.pack 2000 1 1 0 0 0 echsAllSec) grpCchOff ?_
  rw [rrulFillMly_start_trap_iff]
  decide

end Echse
