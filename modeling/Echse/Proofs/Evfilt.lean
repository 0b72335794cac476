/-
What a filter lets through.

A filter goes through its events and exceptions as the sweep does, with the ranges as
spans of keys.  It therefore misses events of no duration, exceptions of no duration
that begin with the event, and every exception that lies behind one which ends where
the event begins.
-/
import Echse.Evfilt
import Echse.Lib.Spans
import Echse.Proofs.Keys

namespace Echse

open Spans

/-- An event starts in a month of the year. -/
def EchsEvent.Dated (e : EchsEvent) : Prop := 1 ≤ e.from_.m ∧ e.from_.m ≤ 12

/-- The range of an event, by keys. -/
def EchsEvent.span (e : EchsEvent) : Span Nat :=
  ⟨(echsEventRange e).beg.key, (echsEventRange e).fin.key⟩

/-! ### Dates stay dates -/

theorem fixupBack_month : ∀ (fuel y m : Nat) (d : Int), 1 ≤ m → m ≤ 12 →
    1 ≤ (fixupBack fuel y m d).2.1 ∧ (fixupBack fuel y m d).2.1 ≤ 12 := by
  intro fuel
  induction fuel with
  | zero => intro y m d h1 h12; exact ⟨h1, h12⟩
  | succ fuel ih =>
      intro y m d h1 h12
      simp only [fixupBack]
      by_cases hd : d < 1
      · rw [if_pos hd]
        apply ih
        · split <;> omega
        · split <;> omega
      · rw [if_neg hd]
        exact ⟨h1, h12⟩

theorem fixupFwd_month : ∀ (fuel y m : Nat) (d : Int), 1 ≤ m → m ≤ 12 →
    1 ≤ (fixupFwd fuel y m d).2.1 ∧ (fixupFwd fuel y m d).2.1 ≤ 12 := by
  intro fuel
  induction fuel with
  | zero => intro y m d h1 h12; exact ⟨h1, h12⟩
  | succ fuel ih =>
      intro y m d h1 h12
      simp only [fixupFwd]
      by_cases hd : (ndimGreg y m : Int) < d
      · rw [if_pos hd]
        apply ih
        · split <;> omega
        · split <;> omega
      · rw [if_neg hd]
        exact ⟨h1, h12⟩

theorem addDd_month {y m : Nat} (d : Int) (h1 : 1 ≤ m) (h12 : m ≤ 12) :
    1 ≤ (addDd y m d).2.1 ∧ (addDd y m d).2.1 ≤ 12 := by
  unfold addDd
  split
  · exact ⟨h1, h12⟩
  split
  · exact fixupBack_month _ _ _ _ h1 h12
  · exact fixupFwd_month _ _ _ _ h1 h12

/-- Adding to a date gives a date. -/
theorem instantAdd_month {i : Instant} (d : Int) (h1 : 1 ≤ i.m) (h12 : i.m ≤ 12) :
    1 ≤ (echsInstantAdd i d).m := by
  have hpack : ∀ (dd : Int) (H M S ms : Nat),
      1 ≤ (Instant.pack (addDd i.y i.m dd).1 (addDd i.y i.m dd).2.1
        (addDd i.y i.m dd).2.2.toNat H M S ms).m := by
    intro dd H M S ms
    obtain ⟨hm1, hm12⟩ := addDd_month (y := i.y) dd h1 h12
    show 1 ≤ (addDd i.y i.m dd).2.1 % 256
    omega
  unfold echsInstantAdd
  dsimp only
  split
  · exact hpack _ _ _ _ _
  · generalize (if echsInstantAllSecP i = true then _ else _) = ms
    split
    · show 1 ≤ i.m % 256
      omega
    · exact hpack _ _ _ _ _

theorem key_of_month {i : Instant} (h : 1 ≤ i.m) : echsNulInstant.key < i.key := by
  have hk := (key_bounds i).1
  have hd : 256 ≤ i.date.key := by
    show 256 ≤ (i.y * 256 + i.m) * 256 + i.d
    omega
  have hn : echsNulInstant.key < 4294967296 := by decide
  omega

theorem not_nul_of_month {i : Instant} (h : 1 ≤ i.m) : echsNulInstantP i = false := by
  unfold echsNulInstantP Instant.u
  rw [beq_eq_false_iff_ne]
  omega

namespace EchsEvent.Dated

variable {e : EchsEvent}

theorem not_nulRange (h : e.Dated) : echsNulRangeP (echsEventRange e) = false :=
  not_nul_of_month (instantAdd_month _ h.1 h.2)

theorem not_nul (h : e.Dated) : echsEvent0P e = false := not_nul_of_month h.1

/-- The nul event neither overlaps nor follows a dated one. -/
theorem nul_apart (h : e.Dated) :
    echsRangeOverlapsP (echsEventRange echsNulEvent) (echsEventRange e) = false ∧
      echsRangePrecedesP (echsEventRange e) (echsEventRange echsNulEvent) = false := by
  have hb : echsNulInstant.key < (echsEventRange e).beg.key := key_of_month h.1
  have hf : echsNulInstant.key < (echsEventRange e).fin.key :=
    key_of_month (instantAdd_month _ h.1 h.2)
  have hnul : echsEventRange echsNulEvent = ⟨echsNulInstant, echsNulInstant⟩ := by decide
  rw [hnul]
  constructor
  · unfold echsRangeOverlapsP
    rw [(ltP_false_iff _ _).mpr hb.le, Bool.and_false]
  · unfold echsRangePrecedesP
    rw [(ltP_false_iff _ _).mpr hf.le]

end EchsEvent.Dated

theorem overlapsP_iff (a b : EchsEvent) :
    echsRangeOverlapsP (echsEventRange a) (echsEventRange b) = true ↔ Overlap a.span b.span := by
  unfold echsRangeOverlapsP
  rw [Bool.and_eq_true, ltP_iff, ltP_iff]
  exact Iff.rfl

theorem precedesP_iff (a b : EchsEvent) :
    echsRangePrecedesP (echsEventRange a) (echsEventRange b) = true ↔ a.span.fin < b.span.beg :=
  ltP_iff _ _

/-! ### A filter sweeps -/

/-- What is let through of the events `es` with the exceptions `xs`. -/
abbrev swept (es xs : List EchsEvent) : List EchsEvent := sweep EchsEvent.span EchsEvent.span es xs

/-- The filter that has the events `es` and the exceptions `xs` ahead. -/
def Evfilt.ahead (es xs : List EchsEvent) : Evfilt :=
  ⟨es, echsEvstrmPop xs, echsEventRange (echsEvstrmNext xs)⟩

/-- Checking ends at the next event that is let through, or at the end of the events. -/
theorem check_ahead : ∀ (fuel : Nat) (es xs : List EchsEvent),
    (∀ e ∈ es, e.Dated) → (∀ x ∈ xs, x.Dated) → es.length + xs.length < fuel →
      ∃ es' xs', (Evfilt.ahead es xs).check fuel = some (.ahead es' xs') ∧
        es' <:+ es ∧ xs' <:+ xs ∧
        swept es xs = (match es' with | [] => [] | e :: es' => e :: swept es' xs') := by
  intro fuel
  induction fuel with
  | zero => intro es xs _ _ h; exact absurd h (Nat.not_lt_zero _)
  | succ fuel ih =>
      intro es xs hes hxs hlen
      cases xs with
      | nil =>
          refine ⟨es, [], ?_, List.suffix_rfl, List.suffix_rfl, ?_⟩
          · have hnul : echsNulRangeP (echsEventRange (echsEvstrmNext [])) = true := by decide
            simp only [Evfilt.check, Evfilt.ahead, hnul, if_true]
          · cases es with
            | nil => rfl
            | cons e es => exact sweep_none e es
      | cons x xs =>
          have hx : x.Dated := hxs x (List.mem_cons_self ..)
          have hxs' : ∀ y ∈ xs, y.Dated := fun y hy => hxs y (List.mem_cons_of_mem _ hy)
          have hnul : echsNulRangeP (echsEventRange (echsEvstrmNext (x :: xs))) = false :=
            hx.not_nulRange
          cases es with
          | nil =>
              refine ⟨[], x :: xs, ?_, List.suffix_rfl, List.suffix_rfl, rfl⟩
              obtain ⟨ho, hp⟩ := hx.nul_apart
              have ho' : echsRangeOverlapsP (echsEventRange (echsEvstrmNext []))
                  (echsEventRange (echsEvstrmNext (x :: xs))) = false := ho
              have hp' : echsRangePrecedesP (echsEventRange (echsEvstrmNext (x :: xs)))
                  (echsEventRange (echsEvstrmNext [])) = false := hp
              simp only [Evfilt.check, Evfilt.ahead, hnul, ho', hp', Bool.false_eq_true, if_false]
          | cons e es =>
              have hes' : ∀ y ∈ es, y.Dated := fun y hy => hes y (List.mem_cons_of_mem _ hy)
              have hlen' : es.length + xs.length + 1 < fuel := by
                simp only [List.length_cons] at hlen
                omega
              have hstep : (Evfilt.ahead (e :: es) (x :: xs)).check (fuel + 1) =
                  if echsRangeOverlapsP (echsEventRange e) (echsEventRange x) then
                    (Evfilt.ahead es (x :: xs)).check fuel
                  else if echsRangePrecedesP (echsEventRange x) (echsEventRange e) then
                    (Evfilt.ahead (e :: es) xs).check fuel
                  else some (.ahead (e :: es) (x :: xs)) := by
                rw [Evfilt.check]
                show (if echsNulRangeP (echsEventRange (echsEvstrmNext (x :: xs))) = true then _
                  else _) = _
                rw [hnul]
                rfl
              rw [hstep]
              by_cases ho : echsRangeOverlapsP (echsEventRange e) (echsEventRange x) = true
              · rw [if_pos ho]
                obtain ⟨es', xs', hc, h1, h2, h3⟩ := ih es (x :: xs) hes' hxs
                  (by simp only [List.length_cons]; omega)
                exact ⟨es', xs', hc, h1.trans (List.suffix_cons e es), h2,
                  (sweep_catch ((overlapsP_iff e x).mp ho) es xs).trans h3⟩
              · rw [if_neg ho]
                by_cases hp : echsRangePrecedesP (echsEventRange x) (echsEventRange e) = true
                · rw [if_pos hp]
                  obtain ⟨es', xs', hc, h1, h2, h3⟩ := ih (e :: es) xs hes hxs'
                    (by simp only [List.length_cons]; omega)
                  exact ⟨es', xs', hc, h1, h2.trans (List.suffix_cons x xs),
                    (sweep_drop ((precedesP_iff x e).mp hp) es xs).trans h3⟩
                · rw [if_neg hp]
                  refine ⟨e :: es, x :: xs, rfl, List.suffix_rfl, List.suffix_rfl, ?_⟩
                  exact sweep_pass (fun h => ho ((overlapsP_iff e x).mpr h))
                    (fun h => hp ((precedesP_iff x e).mpr h)) es xs

theorem popEvfilt_succ {n : Nat} {s s' : Filtered} {e : EchsEvent} (h : s.pop = some (e, s')) :
    popEvfilt (n + 1) s =
      if echsEvent0P e then some [] else (popEvfilt n s').map fun es => e :: es := by
  simp only [popEvfilt, h, Option.bind_eq_bind, Option.bind_some]
  split
  · rfl
  · cases popEvfilt n s' <;> rfl

/-- **A filter pops what the sweep lets through.** -/
theorem popEvfilt_ahead : ∀ (n : Nat) (es xs : List EchsEvent),
    (∀ e ∈ es, e.Dated) → (∀ x ∈ xs, x.Dated) →
      popEvfilt n (.filt (.ahead es xs)) = some ((swept es xs).take n) := by
  intro n
  induction n with
  | zero => intro es xs _ _; rfl
  | succ n ih =>
      intro es xs hes hxs
      have hrounds : es.length + xs.length < (Evfilt.ahead es xs).rounds := by
        have : xs.length ≤ xs.tail.length + 1 := by
          rw [List.length_tail]
          omega
        show es.length + xs.length < es.length + xs.tail.length + 2
        omega
      obtain ⟨es', xs', hc, h1, h2, hs⟩ := check_ahead _ es xs hes hxs hrounds
      have hpop : (Filtered.filt (.ahead es xs)).pop =
          some (echsEvstrmNext es', .filt (.ahead (echsEvstrmPop es') xs')) := by
        simp only [Filtered.pop, nextEvfilt, hc]
        rfl
      rw [popEvfilt_succ hpop, hs]
      cases es' with
      | nil =>
          have h0 : echsEvent0P (echsEvstrmNext []) = true := by decide
          rw [if_pos h0]
          rfl
      | cons e es' =>
          have he : e.Dated := hes e (h1.subset (List.mem_cons_self ..))
          have hes' : ∀ y ∈ es', y.Dated := fun y hy => hes y (h1.subset (List.mem_cons_of_mem _ hy))
          have hxs' : ∀ y ∈ xs', y.Dated := fun y hy => hxs y (h2.subset hy)
          have h0 : ¬ echsEvent0P (echsEvstrmNext (e :: es')) = true := by
            rw [Bool.not_eq_true]
            exact he.not_nul
          have htail : echsEvstrmPop (e :: es') = es' := rfl
          rw [if_neg h0, htail, ih es' xs' hes' hxs']
          rfl

/-- Sorted by start. -/
def ByStart (es : List EchsEvent) : Prop :=
  es.Pairwise fun a b => echsInstantLtP b.from_ a.from_ = false

theorem ByStart.spans {es : List EchsEvent} (h : ByStart es) :
    es.Pairwise fun a b => a.span.beg ≤ b.span.beg :=
  h.imp fun hab => (ltP_false_iff _ _).mp hab

/-- The events of a stream whose ranges meet no exception's. -/
def unexcepted (es xs : List EchsEvent) : List EchsEvent :=
  es.filter fun e => ¬ Excluded EchsEvent.span EchsEvent.span xs e

/-- **A filter pops exactly the events that meet no exception, in order, if and only if
every event that meets one overlaps an exception and no exception before that one ends
where the event starts.** -/
theorem evfilt_pops_iff (es xs : List EchsEvent) (hes : ByStart es) (hxs : ByStart xs)
    (hd : ∀ e ∈ es ++ xs, e.Dated) :
    (∀ n, popEvfilt n (makeEvfilt (some es) (some xs)) = some ((unexcepted es xs).take n)) ↔
      ∀ e ∈ es, Excluded EchsEvent.span EchsEvent.span xs e →
        Covered EchsEvent.span EchsEvent.span xs e := by
  have hd1 : ∀ e ∈ es, e.Dated := fun e he => hd e (List.mem_append_left _ he)
  have hd2 : ∀ x ∈ xs, x.Dated := fun x hx => hd x (List.mem_append_right _ hx)
  rw [← sweep_eq_filter_iff hes.spans hxs.spans]
  constructor
  · intro h
    have hn := h (max (swept es xs).length (unexcepted es xs).length)
    have hm : makeEvfilt (some es) (some xs) = .filt (.ahead es xs) := rfl
    rw [hm, popEvfilt_ahead _ es xs hd1 hd2, Option.some.injEq,
      List.take_of_length_le (le_max_left _ _), List.take_of_length_le (le_max_right _ _)] at hn
    exact hn
  · intro h n
    have hm : makeEvfilt (some es) (some xs) = .filt (.ahead es xs) := rfl
    rw [hm, popEvfilt_ahead _ es xs hd1 hd2]
    exact congrArg (fun l => some (l.take n)) h

/-- An all-day event of one day in January 2024. -/
def janDay (d : Nat) : EchsEvent :=
  ⟨.pack 2024 1 d 255 0 0 0, echsNulInstant, msecsPerDay, 0, 0⟩

/-- The days 1 and 3 are excepted, and the daily events are right. -/
theorem evfilt_pops_iff_apart :
    ((ByStart [janDay 1, janDay 2, janDay 3] ∧ ByStart [janDay 1, janDay 3]) ∧
      ∀ e ∈ [janDay 1, janDay 2, janDay 3] ++ [janDay 1, janDay 3], e.Dated) ∧
    ((∀ n, popEvfilt n (makeEvfilt (some [janDay 1, janDay 2, janDay 3])
        (some [janDay 1, janDay 3])) =
          some ((unexcepted [janDay 1, janDay 2, janDay 3] [janDay 1, janDay 3]).take n)) ↔
      ∀ e ∈ [janDay 1, janDay 2, janDay 3],
        Excluded EchsEvent.span EchsEvent.span [janDay 1, janDay 3] e →
          Covered EchsEvent.span EchsEvent.span [janDay 1, janDay 3] e) := by
  have hes : ByStart [janDay 1, janDay 2, janDay 3] := by
    unfold ByStart
    decide
  have hxs : ByStart [janDay 1, janDay 3] := by
    unfold ByStart
    decide
  have hd : ∀ e ∈ [janDay 1, janDay 2, janDay 3] ++ [janDay 1, janDay 3], e.Dated := by
    unfold EchsEvent.Dated
    decide
  exact ⟨⟨⟨hes, hxs⟩, hd⟩, evfilt_pops_iff _ _ hes hxs hd⟩

/-- With the days 1 and 2 excepted the event of day 2 gets through: the exception of
day 1 ends where it starts. -/
theorem evfilt_lets_through :
    ¬ ∀ n, popEvfilt n (makeEvfilt (some [janDay 2]) (some [janDay 1, janDay 2])) =
      some ((unexcepted [janDay 2] [janDay 1, janDay 2]).take n) := by
  intro h
  have h1 := h 1
  revert h1
  decide

end Echse
