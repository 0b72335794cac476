/-
What the watcher functions do to a slot.

Rescheduling a slot moves its stream on and sets the time of the next run, and nothing
else of the task in it.  There are three ways it can end, by whether the stream has
another event and whether the slot has been scheduled before.
-/
import Echse.Echsd

namespace Echse

/-- A task but for where its stream is. -/
def EchsTask.ident (t : EchsTask) : EchsTask := { t with strm := none }

theorem EchsTask.ident_owner {s t : EchsTask} (h : s.ident = t.ident) :
    echsTaskOwner s = echsTaskOwner t := by
  have ho : s.ident.owner = t.ident.owner := by rw [h]
  have : s.owner = t.owner := ho
  unfold echsTaskOwner
  rw [this]

theorem EchsTask.ident_oid {s t : EchsTask} (h : s.ident = t.ident) : s.oid = t.oid := by
  have ho : s.ident.oid = t.ident.oid := by rw [h]
  exact ho

/-- What rescheduling leaves of a slot. -/
structure Task.Same (s t : Task) : Prop where
  next : s.next = t.next
  task : s.t.map EchsTask.ident = t.t.map EchsTask.ident
  nsim : s.nsim = t.nsim
  cred : s.dfltCred = t.dfltCred

theorem Task.Same.rfl {t : Task} : t.Same t := ⟨Eq.refl _, Eq.refl _, Eq.refl _, Eq.refl _⟩

theorem Task.Same.trans {s t u : Task} (h : s.Same t) (h' : t.Same u) : s.Same u :=
  ⟨h.next.trans h'.next, h.task.trans h'.task, h.nsim.trans h'.nsim, h.cred.trans h'.cred⟩

/-- A task in one of two slots that are the same is in the other, but for its stream. -/
theorem Task.Same.exists_task {s t : Task} (h : s.Same t) {x : EchsTask} (hx : t.t = some x) :
    ∃ y, s.t = some y ∧ y.ident = x.ident := by
  have := h.task
  rw [hx] at this
  exact Option.map_eq_some_iff.mp this

/-- The stream of a slot has no event from `now` on. -/
def Task.Exhausted (t : Task) (now : ℚ) : Prop :=
  echsEvent0P (echsEvstrmNext (t.upcoming now)) = true

instance (t : Task) (now : ℚ) : Decidable (t.Exhausted now) :=
  inferInstanceAs (Decidable (_ = true))

theorem Task.unwind_task (t : Task) (now : ℚ) :
    (t.unwind now).t.map EchsTask.ident = t.t.map EchsTask.ident := by
  unfold Task.unwind
  cases t.t <;> rfl

/-- **Rescheduling**: the slot is to be taken off, or waits for its last run to end, or
has a next run. -/
theorem evReschedule_cases (t : Task) (now : ℚ) :
    (evReschedule t now).Same t ∧
    ((t.Exhausted now ∧ t.nrun = 0 ∧ (evReschedule t now).nrun = 0 ∧
        (evReschedule t now).w = { t.w with reschedule := false, cb := .unsched, at_ := now }) ∨
      (t.Exhausted now ∧ t.nrun ≠ 0 ∧ (evReschedule t now).nrun = t.nrun ∧
        (evReschedule t now).w = { t.w with reschedule := false, at_ := now + farFuture }) ∨
      (¬ t.Exhausted now ∧ (evReschedule t now).nrun = t.nrun + 1 ∧
        ∃ x, (evReschedule t now).w = { t.w with at_ := x })) := by
  have htask := t.unwind_task now
  by_cases he : t.Exhausted now
  · have he' : echsEvent0P (echsEvstrmNext (t.upcoming now)) = true := he
    by_cases hn : t.nrun = 0
    · have hn' : (t.unwind now).nrun = 0 := hn
      have hr : evReschedule t now =
          { t.unwind now with
            w := { t.w with reschedule := false, cb := .unsched, at_ := now }
            cur := echsNulInstant } := by
        unfold evReschedule resched
        dsimp only
        rw [if_pos ⟨he', hn'⟩]
        rfl
      rw [hr]
      exact ⟨⟨rfl, htask, rfl, rfl⟩, Or.inl ⟨he, hn, hn, rfl⟩⟩
    · have hn' : ¬ (t.unwind now).nrun = 0 := hn
      have hr : evReschedule t now =
          { t.unwind now with
            w := { t.w with reschedule := false, at_ := now + farFuture }
            cur := echsNulInstant } := by
        unfold evReschedule resched
        dsimp only
        rw [if_neg (fun h => hn' h.2), if_pos he']
        rfl
      rw [hr]
      exact ⟨⟨rfl, htask, rfl, rfl⟩, Or.inr (Or.inl ⟨he, hn, rfl, rfl⟩)⟩
  · have he' : ¬ echsEvent0P (echsEvstrmNext (t.upcoming now)) = true := he
    have hr : evReschedule t now =
        { t.unwind now with
          w := { t.w with at_ := instantToTstamp (echsEvstrmNext (t.upcoming now)).from_ }
          cur := (echsEvstrmNext (t.upcoming now)).from_
          dur := (echsEvstrmNext (t.upcoming now)).dur
          nrun := t.nrun + 1 } := by
      unfold evReschedule resched
      dsimp only
      rw [if_neg (fun h => he' h.1), if_neg he']
      rfl
    rw [hr]
    exact ⟨⟨rfl, htask, rfl, rfl⟩, Or.inr (Or.inr ⟨he, rfl, _, rfl⟩)⟩

/-- The events a slot's task has left. -/
def Task.events (t : Task) : List EchsEvent := (t.t.bind (·.strm)).getD []

/-- There are none. -/
def Task.Spent (t : Task) : Prop := echsEvent0P (echsEvstrmNext t.events) = true

theorem Task.unwind_events (t : Task) (now : ℚ) : (t.unwind now).events = t.upcoming now := by
  unfold Task.events Task.unwind Task.upcoming EchsTask.setStrm
  cases ht : t.t with
  | none => rfl
  | some x =>
      cases hs : x.strm with
      | none =>
          simp only [Option.map_some, Option.bind_some, hs, Option.map_none, Option.getD_none]
          rfl
      | some s => simp [hs]

theorem evReschedule_events (t : Task) (now : ℚ) :
    (evReschedule t now).events = t.upcoming now := by
  have h : (evReschedule t now).t = (t.unwind now).t := by
    unfold evReschedule resched
    dsimp only
    split
    · rfl
    · split <;> rfl
  rw [← t.unwind_events now]
  unfold Task.events
  rw [h]

/-- A slot is spent once rescheduled if it had nothing more to come. -/
theorem evReschedule_spent (t : Task) (now : ℚ) : (evReschedule t now).Spent ↔ t.Exhausted now := by
  unfold Task.Spent Task.Exhausted
  rw [evReschedule_events]

theorem evReschedule_same (t : Task) (now : ℚ) : (evReschedule t now).Same t :=
  (evReschedule_cases t now).1

theorem evReschedule_w (t : Task) (now : ℚ) :
    (evReschedule t now).w.active = t.w.active ∧ (evReschedule t now).w.pending = t.w.pending := by
  obtain ⟨-, ⟨-, -, -, hw⟩ | ⟨-, -, -, hw⟩ | ⟨-, -, x, hw⟩⟩ := evReschedule_cases t now
  · rw [hw]
    exact ⟨rfl, rfl⟩
  · rw [hw]
    exact ⟨rfl, rfl⟩
  · rw [hw]
    exact ⟨rfl, rfl⟩

theorem evPeriodicStop_same (t : Task) : (evPeriodicStop t).Same t := ⟨rfl, rfl, rfl, rfl⟩

theorem evPeriodicInit_same (t : Task) : (evPeriodicInit t).Same t := ⟨rfl, rfl, rfl, rfl⟩

theorem evPeriodicStart_same (t : Task) (now : ℚ) : (evPeriodicStart t now).Same t := by
  unfold evPeriodicStart
  split
  · exact Task.Same.rfl
  · dsimp only
    split
    · have h := evReschedule_same t now
      exact ⟨h.next, h.task, h.nsim, h.cred⟩
    · exact ⟨rfl, rfl, rfl, rfl⟩

theorem evPeriodicExpire_same (t : Task) (now : ℚ) : (evPeriodicExpire t now).Same t := by
  unfold evPeriodicExpire
  dsimp only
  split
  · have h := evReschedule_same t now
    exact ⟨h.next, h.task, h.nsim, h.cred⟩
  · exact ⟨rfl, rfl, rfl, rfl⟩

/-! ### Slots of the daemon -/

@[simp] theorem slot_setSlot (d : Echsd) (i : Nat) (t : Task) : (d.setSlot i t).slot i = t :=
  Function.update_self ..

theorem slot_setSlot_ne (d : Echsd) {i j : Nat} (t : Task) (h : j ≠ i) :
    (d.setSlot i t).slot j = d.slot j :=
  Function.update_of_ne h ..

/-- A slot that is taken off is stopped and has no task left. -/
theorem unsched_slot (d : Echsd) (i : Nat) :
    ((unsched d i).slot i).w.active = false ∧ ((unsched d i).slot i).w.pending = false ∧
      ((unsched d i).slot i).t = none := by
  have h : (unsched d i).slot i =
      { evPeriodicStop (d.slot i) with t := none, next := d.pool.freeTasks } := by
    show Function.update (d.setSlot i (evPeriodicStop (d.slot i))).pool.slots i _ i = _
    rw [Function.update_self]
    show { (d.setSlot i (evPeriodicStop (d.slot i))).slot i with
      t := none, next := d.pool.freeTasks } = _
    rw [slot_setSlot]
  rw [h]
  exact ⟨rfl, rfl, rfl⟩

theorem unsched_slot_ne (d : Echsd) {i j : Nat} (h : j ≠ i) :
    (unsched d i).slot j = d.slot j :=
  (Function.update_of_ne h ..).trans (slot_setSlot_ne d _ h)

theorem unsched_chlds (d : Echsd) (i : Nat) : (unsched d i).chlds = d.chlds := rfl

theorem unsched_nd (d : Echsd) (i : Nat) : (unsched d i).nd = d.nd := rfl

/-! ### Steps -/

/-- The slot, once its pending callback has been taken up. -/
def Task.unpend (t : Task) : Task := { t with w := { t.w with pending := false } }

theorem Task.unpend_same (t : Task) : t.unpend.Same t := ⟨rfl, rfl, rfl, rfl⟩

/-- A child is no more. -/
def Echsd.reap (d : Echsd) (k : Nat) : Echsd := { d with chlds := d.chlds.eraseIdx k }

/-- **What a step can do.** -/
theorem echsdStep_cases {d d' : Echsd} {a : Action} (h : echsdStep d a = some d') :
    (∃ c u i, a = .request c u i ∧ ClockOk c.now ∧ d' = (cmdInstruc c d u i).2) ∨
    (∃ i now, a = .expire i now ∧ (d.slot i).w.active = true ∧ (d.slot i).w.at_ ≤ now ∧
      ClockOk now ∧ d' = d.setSlot i (evPeriodicExpire (d.slot i) now)) ∨
    (∃ i now, a = .jump i now ∧ (d.slot i).w.active = true ∧ (d.slot i).w.reschedule = true ∧
      ClockOk now ∧ d' = d.setSlot i (evReschedule (d.slot i) now)) ∨
    (∃ i sys, a = .invoke i sys ∧ (d.slot i).w.pending = true ∧ (d.slot i).w.cb = .taskCb ∧
      d' = taskCb (d.setSlot i (d.slot i).unpend) i sys) ∨
    (∃ i sys, a = .invoke i sys ∧ (d.slot i).w.pending = true ∧ (d.slot i).w.cb = .unsched ∧
      d' = unsched (d.setSlot i (d.slot i).unpend) i) ∨
    (∃ k c, a = .exit k ∧ d.chlds[k]? = some c ∧ c.live = true ∧
      d' = if c.watched then chldCb (d.reap k) c.task else d.reap k) := by
  unfold echsdStep at h
  cases a with
  | request c u i =>
      dsimp only at h
      split at h
      · rename_i hg
        exact Or.inl ⟨c, u, i, rfl, hg, (Option.some.inj h).symm⟩
      · cases h
  | expire i now =>
      dsimp only at h
      split at h
      · rename_i hg
        exact Or.inr (Or.inl ⟨i, now, rfl, hg.1, hg.2.1, hg.2.2, (Option.some.inj h).symm⟩)
      · cases h
  | jump i now =>
      dsimp only at h
      split at h
      · rename_i hg
        exact Or.inr (Or.inr (Or.inl
          ⟨i, now, rfl, hg.1, hg.2.1, hg.2.2, (Option.some.inj h).symm⟩))
      · cases h
  | invoke i sys =>
      dsimp only at h
      split at h
      · rename_i hg
        rw [slot_setSlot] at h
        split at h
        · rename_i hcb
          exact Or.inr (Or.inr (Or.inr (Or.inl
            ⟨i, sys, rfl, hg, hcb, (Option.some.inj h).symm⟩)))
        · rename_i hcb
          exact Or.inr (Or.inr (Or.inr (Or.inr (Or.inl
            ⟨i, sys, rfl, hg, hcb, (Option.some.inj h).symm⟩))))
      · cases h
  | exit k =>
      dsimp only at h
      split at h
      · cases h
      · rename_i c hk
        split at h
        · rename_i hl
          exact Or.inr (Or.inr (Or.inr (Or.inr (Or.inr
            ⟨k, c, rfl, hk, hl, (Option.some.inj h).symm⟩))))
        · cases h

end Echse
