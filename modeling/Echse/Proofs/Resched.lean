/-
Which event `resched` finds.

The events before a time are dropped from the stream, the one that is found is left there, and
later times find what they would have found in the whole stream.  So what has been asked before
makes no difference.  A time stamp has no milliseconds, though, so an event that has some looks
as if it were earlier than it is.
-/
import Echse.Proofs.Epoch
import Echse.Proofs.Keys
import Echse.Proofs.Watchers

namespace Echse

/-! ### The times of events -/

/-- The milliseconds of an instant. -/
def Instant.subsec (i : Instant) : Nat :=
  if echsInstantAllDayP i || echsInstantAllSecP i then 0 else i.ms

/-- The seconds from the epoch to the start of an instant's second, by the calendar. -/
def Instant.epochSecs (i : Instant) : Nat :=
  86400 * (Gregorian.dayNo i.y i.m i.d - Gregorian.dayNo 1970 1 1) +
    if echsInstantAllDayP i then 0 else (i.H * 60 + i.M) * 60 + i.S

/-- When an event starts, in seconds since the epoch. -/
def eventTime (e : EchsEvent) : ℚ := e.from_.epochSecs + e.from_.subsec / 1000

/-- An event from 2001 to 2099. -/
structure EchsEvent.Stamped (e : EchsEvent) : Prop where
  era : 2001 ≤ e.from_.y ∧ e.from_.y ≤ 2099
  date : Gregorian.Valid e.from_.y e.from_.m e.from_.d

instance (e : EchsEvent) : Decidable e.Stamped :=
  decidable_of_iff ((2001 ≤ e.from_.y ∧ e.from_.y ≤ 2099) ∧ Gregorian.Valid e.from_.y e.from_.m e.from_.d)
    ⟨fun ⟨h1, h2⟩ => ⟨h1, h2⟩, fun ⟨h1, h2⟩ => ⟨h1, h2⟩⟩

namespace EchsEvent.Stamped

variable {e : EchsEvent}

theorem not_nul (h : e.Stamped) : echsEvent0P e = false := by
  have hm := h.date.1
  unfold echsEvent0P Instant.u
  rw [beq_eq_false_iff_ne]
  omega

/-- The time stamp of an event is the time without the milliseconds. -/
theorem time_eq (h : e.Stamped) : eventTime e = instantToTstamp e.from_ + (e.from_.subsec : ℚ) / 1000 := by
  rw [instantToTstamp_date h.era.1 (Nat.lt_succ_of_le h.era.2) h.date]
  rfl

theorem tstamp_le (h : e.Stamped) : (instantToTstamp e.from_ : ℚ) ≤ eventTime e := by
  rw [h.time_eq]
  exact le_add_of_nonneg_right (by positivity)

theorem time_eq_tstamp_iff (h : e.Stamped) :
    (instantToTstamp e.from_ : ℚ) = eventTime e ↔ e.from_.subsec = 0 := by
  rw [h.time_eq, left_eq_add, div_eq_zero_iff, Nat.cast_eq_zero]
  exact or_iff_left (by norm_num)

end EchsEvent.Stamped

/-! ### What is found -/

/-- The event of a stream that a time finds by the time stamps. -/
def stampFrom (s : List EchsEvent) (now : ℚ) : Option EchsEvent :=
  s.find? fun e => decide (now ≤ instantToTstamp e.from_)

/-- The first event of a stream that is not earlier than a time. -/
def eventFrom (s : List EchsEvent) (now : ℚ) : Option EchsEvent :=
  s.find? fun e => decide (now ≤ eventTime e)

variable {s : List EchsEvent} {now now' : ℚ}

theorem stampFrom_cons_pos {e : EchsEvent} (h : now ≤ instantToTstamp e.from_) :
    stampFrom (e :: s) now = some e := List.find?_cons_of_pos (decide_eq_true h)

theorem stampFrom_cons_neg {e : EchsEvent} (h : ¬ now ≤ instantToTstamp e.from_) :
    stampFrom (e :: s) now = stampFrom s now :=
  List.find?_cons_of_neg (Bool.not_eq_true _ ▸ decide_eq_false h)

theorem eventFrom_cons_pos {e : EchsEvent} (h : now ≤ eventTime e) : eventFrom (e :: s) now = some e :=
  List.find?_cons_of_pos (decide_eq_true h)

theorem eventFrom_cons_neg {e : EchsEvent} (h : ¬ now ≤ eventTime e) :
    eventFrom (e :: s) now = eventFrom s now :=
  List.find?_cons_of_neg (Bool.not_eq_true _ ▸ decide_eq_false h)

theorem unwindTill_stamped (hs : ∀ e ∈ s, e.Stamped) : (unwindTill s now).head? = stampFrom s now := by
  induction s with
  | nil => rfl
  | cons e s ih =>
      have he := (hs e List.mem_cons_self).not_nul
      rw [unwindTill, he]
      by_cases hlt : (instantToTstamp e.from_ : ℚ) < now
      · rw [if_pos ⟨rfl, hlt⟩, stampFrom_cons_neg (not_le.mpr hlt)]
        exact ih fun f hf => hs f (List.mem_cons_of_mem e hf)
      · rw [if_neg fun h => hlt h.2, stampFrom_cons_pos (not_lt.mp hlt), List.head?_cons]

/-- **What has been dropped** is not missed later. -/
theorem unwindTill_unwindTill (hs : ∀ e ∈ s, e.Stamped) (h : now ≤ now') :
    unwindTill (unwindTill s now) now' = unwindTill s now' := by
  induction s with
  | nil => rfl
  | cons e s ih =>
      have he := (hs e List.mem_cons_self).not_nul
      have hrest : ∀ f ∈ s, f.Stamped := fun f hf => hs f (List.mem_cons_of_mem e hf)
      by_cases hlt : (instantToTstamp e.from_ : ℚ) < now
      · have hdrop : unwindTill (e :: s) now = unwindTill s now := by
          rw [unwindTill, if_pos ⟨by rw [he]; rfl, hlt⟩]
        have hdrop' : unwindTill (e :: s) now' = unwindTill s now' := by
          rw [unwindTill, if_pos ⟨by rw [he]; rfl, hlt.trans_le h⟩]
        rw [hdrop, hdrop', ih hrest]
      · rw [show unwindTill (e :: s) now = e :: s by rw [unwindTill, if_neg fun hc => hlt hc.2]]

theorem unwindTill_subset (s : List EchsEvent) (now : ℚ) : ∀ e ∈ unwindTill s now, e ∈ s := by
  induction s with
  | nil => exact fun e he => he
  | cons f s ih =>
      intro e he
      rw [unwindTill] at he
      split at he
      · exact List.mem_cons_of_mem f (ih e he)
      · exact he

/-! ### Calls of `resched` -/

/-- What a call comes to: the event at a time, if there is one, or else no event and no further
calls. -/
def Scheduled (e : Option EchsEvent) (r : Task × ℚ) : Prop :=
  match e with
  | some e => r.2 = eventTime e ∧ r.1.cur = e.from_ ∧ r.1.dur = e.dur
  | none => r.1.cur = echsNulInstant ∧ r.1.w.reschedule = false

/-- One call after another. -/
def reschedRun : Task → List ℚ → List (Task × ℚ)
  | _, [] => []
  | t, now :: nows => resched t now :: reschedRun (resched t now).1 nows

variable {t : Task}

theorem resched_events (t : Task) (now : ℚ) : (resched t now).1.events = unwindTill t.events now := by
  have h := evReschedule_events t now
  exact h

/-- **One call**, by the event that the time stamps find. -/
theorem resched_cases (hs : ∀ e ∈ s, e.Stamped) (hup : t.upcoming now = unwindTill s now) :
    (∃ e ∈ s, stampFrom s now = some e ∧ (resched t now).2 = instantToTstamp e.from_ ∧
      (resched t now).1.cur = e.from_ ∧ (resched t now).1.dur = e.dur) ∨
    (stampFrom s now = none ∧ (resched t now).1.cur = echsNulInstant ∧
      (resched t now).1.w.reschedule = false) := by
  have hhead := @unwindTill_stamped _ now hs
  cases hfind : stampFrom s now with
  | some e =>
      have hmem := List.mem_of_find?_eq_some hfind
      have hnext : echsEvstrmNext (t.upcoming now) = e := by
        rw [hup, echsEvstrmNext, List.headD_eq_head?_getD, hhead, hfind]
        rfl
      have he := (hs e hmem).not_nul
      refine Or.inl ⟨e, hmem, rfl, ?_⟩
      unfold resched
      dsimp only
      rw [hnext, he, if_neg (by simp), if_neg (by simp)]
      exact ⟨rfl, rfl, rfl⟩
  | none =>
      have hnext : echsEvstrmNext (t.upcoming now) = echsNulEvent := by
        rw [hup, echsEvstrmNext, List.headD_eq_head?_getD, hhead, hfind]
        rfl
      have h0 : echsEvent0P echsNulEvent = true := by decide
      refine Or.inr ⟨rfl, ?_⟩
      unfold resched
      dsimp only
      rw [hnext, h0]
      split
      · exact ⟨rfl, rfl⟩
      · rw [if_pos rfl]
        exact ⟨rfl, rfl⟩

/-- A time finds an event on a whole second, if it finds any. -/
def WholeSecond (s : List EchsEvent) (now : ℚ) : Prop :=
  ∀ e, eventFrom s now = some e → e.from_.subsec = 0

/-- An event on a whole second is found by the time stamps too. -/
theorem stampFrom_of_whole (hs : ∀ e ∈ s, e.Stamped) (hwhole : WholeSecond s now) :
    stampFrom s now = eventFrom s now := by
  induction s with
  | nil => exact List.find?_nil.trans List.find?_nil.symm
  | cons e s ih =>
      have he := hs e List.mem_cons_self
      by_cases hlt : now ≤ eventTime e
      · have hsub := hwhole e (eventFrom_cons_pos hlt)
        have hstamp := he.time_eq_tstamp_iff.mpr hsub
        rw [eventFrom_cons_pos hlt, stampFrom_cons_pos (hlt.trans_eq hstamp.symm)]
      · have hlt' : ¬ now ≤ (instantToTstamp e.from_ : ℚ) := fun hc => hlt (hc.trans he.tstamp_le)
        have hrest : WholeSecond s now := fun f hf => hwhole f ((eventFrom_cons_neg hlt).trans hf)
        rw [eventFrom_cons_neg hlt, stampFrom_cons_neg hlt']
        exact ih (fun f hf => hs f (List.mem_cons_of_mem e hf)) hrest

/-- **One call finds the event that it should** if and only if that is on a whole second. -/
theorem resched_scheduled (hs : ∀ e ∈ s, e.Stamped) (hup : t.upcoming now = unwindTill s now) :
    Scheduled (eventFrom s now) (resched t now) ↔ WholeSecond s now := by
  constructor
  · intro h e hfind
    rw [hfind] at h
    obtain ⟨htime, hcur, -⟩ := h
    have he := hs e (List.mem_of_find?_eq_some hfind)
    rcases resched_cases hs hup with ⟨f, -, -, hstamp, hcur', -⟩ | ⟨-, hcur', -⟩
    · rw [← he.time_eq_tstamp_iff, ← htime, hstamp, ← hcur', hcur]
    · have h0 : echsEvent0P e = true := by
        unfold echsEvent0P
        rw [← hcur, hcur']
        decide
      rw [he.not_nul] at h0
      cases h0
  · intro hwhole
    have hsame := stampFrom_of_whole hs hwhole
    rcases resched_cases hs hup with ⟨e, he, hfind, htime, hcur, hdur⟩ | ⟨hfind, hcur, hw⟩
    · rw [← hsame, hfind]
      rw [hsame] at hfind
      exact ⟨htime.trans ((hs e he).time_eq_tstamp_iff.mpr (hwhole e hfind)), hcur, hdur⟩
    · rw [← hsame, hfind]
      exact ⟨hcur, hw⟩

/-- A call leaves the stream such that later calls find what they would have found in it. -/
theorem resched_upcoming (ht : ∀ e ∈ t.events, e.Stamped) (h : now ≤ now') :
    (resched t now).1.upcoming now' = t.upcoming now' := by
  have hevents : (resched t now).1.upcoming now' = unwindTill (unwindTill t.events now) now' := by
    rw [← resched_events t now]
    rfl
  rw [hevents, unwindTill_unwindTill ht h]
  rfl

/-- **All calls find the events that they should**, whatever has been asked before. -/
theorem reschedRun_scheduled (hs : ∀ e ∈ s, e.Stamped) {nows : List ℚ} (hnows : nows.Pairwise (· ≤ ·))
    (ht : ∀ e ∈ t.events, e.Stamped) (hup : ∀ now ∈ nows, t.upcoming now = unwindTill s now) :
    List.Forall₂ (fun now r => Scheduled (eventFrom s now) r) nows (reschedRun t nows) ↔
      ∀ now ∈ nows, WholeSecond s now := by
  induction nows generalizing t with
  | nil => exact iff_of_true List.Forall₂.nil fun now hnow => absurd hnow List.not_mem_nil
  | cons now nows ih =>
      obtain ⟨hle, hnows⟩ := List.pairwise_cons.mp hnows
      have hleft : ∀ e ∈ (resched t now).1.events, e.Stamped := by
        intro e he
        rw [resched_events] at he
        exact ht e (unwindTill_subset _ _ e he)
      have hlater : ∀ now' ∈ nows, (resched t now).1.upcoming now' = unwindTill s now' := by
        intro now' hnow'
        rw [resched_upcoming ht (hle now' hnow')]
        exact hup now' (List.mem_cons_of_mem now hnow')
      rw [reschedRun, List.forall₂_cons, ih hnows hleft hlater, List.forall_mem_cons,
        resched_scheduled hs (hup now List.mem_cons_self)]

/-- **The events of a stream are scheduled** as they should be if and only if each that is the
first not earlier than the time of a call is on a whole second. -/
theorem reschedRun_scheduled_iff (t : Task) (hs : ∀ e ∈ t.events, e.Stamped) (nows : List ℚ)
    (hnows : nows.Pairwise (· ≤ ·)) :
    List.Forall₂ (fun now r => Scheduled (eventFrom t.events now) r) nows (reschedRun t nows) ↔
      ∀ now ∈ nows, WholeSecond t.events now :=
  reschedRun_scheduled hs hnows hs fun _ _ => rfl

/-- A slot with a task that is to be run at `ms` milliseconds after ten and at eleven. -/
def twiceTask (ms : Nat) : Task :=
  { Task.zero with
    t := some ⟨1, some [⟨.pack 2020 1 1 10 0 0 ms, echsNulInstant, 0, 1, 0⟩,
      ⟨.pack 2020 1 1 11 0 0 echsAllSec, echsNulInstant, 0, 1, 0⟩], .null, none, none, 0⟩ }

theorem reschedRun_scheduled_twice :
    List.Forall₂ (fun now r => Scheduled (eventFrom (twiceTask 0).events now) r) [0, 1577872800, 1577872801]
        (reschedRun (twiceTask 0) [0, 1577872800, 1577872801]) ↔
      ∀ now ∈ [0, 1577872800, 1577872801], WholeSecond (twiceTask 0).events now :=
  reschedRun_scheduled_iff (twiceTask 0) (by decide) _ (by norm_num)

/-- A quarter of a second after ten the event half a second after ten is taken for past. -/
theorem not_reschedRun_scheduled : ¬ ∀ (t : Task) (nows : List ℚ), (∀ e ∈ t.events, e.Stamped) →
    t.events.Pairwise (fun e f => eventTime e < eventTime f) → nows.Pairwise (· ≤ ·) →
    List.Forall₂ (fun now r => Scheduled (eventFrom t.events now) r) nows (reschedRun t nows) := by
  intro hall
  have hs : ∀ e ∈ (twiceTask 500).events, e.Stamped := by decide
  have hten : eventTime ⟨.pack 2020 1 1 10 0 0 500, echsNulInstant, 0, 1, 0⟩ = 1577872800 + 1 / 2 := by
    rw [(show EchsEvent.Stamped _ by decide).time_eq,
      show instantToTstamp (.pack 2020 1 1 10 0 0 500) = 1577872800 by decide,
      show (Instant.pack 2020 1 1 10 0 0 500).subsec = 500 by decide]
    norm_num
  have heleven : eventTime ⟨.pack 2020 1 1 11 0 0 echsAllSec, echsNulInstant, 0, 1, 0⟩ = 1577876400 := by
    rw [(show EchsEvent.Stamped _ by decide).time_eq,
      show instantToTstamp (.pack 2020 1 1 11 0 0 echsAllSec) = 1577876400 by decide,
      show (Instant.pack 2020 1 1 11 0 0 echsAllSec).subsec = 0 by decide]
    norm_num
  have hevents : (twiceTask 500).events = [⟨.pack 2020 1 1 10 0 0 500, echsNulInstant, 0, 1, 0⟩,
      ⟨.pack 2020 1 1 11 0 0 echsAllSec, echsNulInstant, 0, 1, 0⟩] := rfl
  have hrun := hall (twiceTask 500) [1577872800 + 1 / 4] hs
    (by rw [hevents, List.pairwise_pair, hten, heleven]; norm_num) (List.pairwise_singleton _ _)
  have hfirst : eventFrom (twiceTask 500).events (1577872800 + 1 / 4) =
      some ⟨.pack 2020 1 1 10 0 0 500, echsNulInstant, 0, 1, 0⟩ := by
    rw [hevents]
    exact eventFrom_cons_pos (by rw [hten]; norm_num)
  have hwhole := (resched_scheduled hs rfl).mp (List.forall₂_cons.mp hrun).1
  exact absurd (hwhole _ hfirst) (by decide)

end Echse
