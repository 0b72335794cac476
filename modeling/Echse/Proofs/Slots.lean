/-
Where the task slots are.

A slot is in the table while its task is scheduled: it recurs, or its last run is still
to be started or to be waited for, or it is to be taken off without a run.  A child that
is waited for leads to such a slot, and the slot counts it.  All this is kept by a step
unless a slot is given back while there are children to wait for, or is left to itself
when its stream is spent.
-/
import Echse.Proofs.Pool
import Echse.Proofs.Children
import Echse.Proofs.Credentials

namespace Echse

open Runs Linked

/-! ### Bookkeeping -/

/-- A child that is waited for leads to slot `i`. -/
def Reached (d : Echsd) (i : Nat) : Prop := ∃ c ∈ d.chlds, c.watched = true ∧ c.task = i

/-- Live children that are waited for on behalf of slot `i`. -/
def liveRuns (d : Echsd) (i : Nat) : Nat :=
  d.chlds.countP fun (c : Chld) => c.task == i && c.watched && c.live

/-- A callback of the slot's watcher is still to come. -/
def Task.Due (t : Task) : Prop :=
  t.w.pending = true ∨ (t.w.active = true ∧ t.w.at_ < farFuture)

/-- The books of the daemon, where `fl` is the list of free slots. -/
structure Books (d : Echsd) (fl : List Nat) : Prop where
  freeList : FreeList d.pool fl
  /-- A slot is in the table once, or kept for its children, or free once. -/
  slot : ∀ i < d.pool.nslots,
    ((∃! k, (htAt d.pool.taskHt k).t = some i) ∧ i ∉ fl) ∨
    (¬ InTable d.pool i ∧ i ∉ fl ∧ Reached d i) ∨
    (¬ InTable d.pool i ∧ fl.count i = 1)
  /-- No child leads to a slot that may be reused. -/
  reached : ∀ i ∈ fl, ¬ Reached d i
  nsim : ∀ i < d.pool.nslots, i ∉ fl → (d.slot i).nsim = liveRuns d i
  /-- A task whose stream is complete, and that has no child, is about to leave. -/
  spent : ∀ i, InTable d.pool i → (d.slot i).Spent → (d.slot i).nsim = 0 → (d.slot i).Due

/-- The books are kept. -/
def Bookkept (d : Echsd) : Prop := ∃ fl, Books d fl

/-! ### What is asked of a step -/

/-- The uid a request would have its task run as, unless it is turned down. -/
def runAs (c : Ctx) (t : EchsTask) (u : Nat) : Option Nat :=
  let oc := complOwner (c.pw 0) t.owner
  let uc := complUid (c.pw 1) u
  if (uc.u = notAUid ∧ oc.u = notAUid) ∨ (uc.u = notAUid ∧ c.meself ≠ 0 ∧ oc.u ≠ c.meself) ∨
      (oc.u = notAUid ∧ c.meself ≠ 0 ∧ uc.u ≠ c.meself) ∨
      (uc.u ≠ notAUid ∧ oc.u ≠ notAUid ∧ oc.u ≠ uc.u) then none
  else some (if uc.u = notAUid then oc.u else uc.u)

/-- The stream of a task has no event from `now` on. -/
def EchsTask.Over (t : EchsTask) (now : ℚ) : Prop :=
  echsEvent0P (echsEvstrmNext (unwindTill (t.strm.getD []) now)) = true

/-- Where a step keeps the books. -/
def BookSafe (d : Echsd) : Action → Prop
  -- a task has an id, its user does not vanish halfway, and an update has an event to
  -- come, or comes when the slot has never been scheduled or has children
  | .request c u (.sche t) => t.oid ≠ 0 ∧ t.oid < 2 ^ 64 ∧
      ∀ o, runAs c t u = some o → t.strm ≠ none →
        match getTask d.pool t.oid with
        | none => (complUid (c.pw 2) o).u ≠ notAUid
        | some res => OwnedBy (d.slot res) o → (complUid (c.pw 2) o).u ≠ notAUid ∧
            (t.Over c.now → (d.slot res).nrun = 0 ∨ (d.slot res).nsim ≠ 0)
  -- a task that is cancelled has no children
  | .request _ u (.unsc oid) =>
      ∀ res, getTask d.pool oid = some res → OwnedBy (d.slot res) u → (d.slot res).nsim = 0
  | .expire _ _ => True
  -- the clock does not jump past the last event of a task that is idle
  | .jump i now =>
      (d.slot i).Exhausted now → (d.slot i).w.pending = true ∨ (d.slot i).nsim ≠ 0
  -- a child that is waited for is one, and the last run of a task is waited for unless
  -- an earlier one still is
  | .invoke i sys => (d.slot i).w.cb = .taskCb →
      (Supervises (d.slot i) sys → sys.spawn = 0) ∧
      ((d.slot i).w.reschedule = false → (d.slot i).nsim ≠ 0 ∨ Supervises (d.slot i) sys)
  -- once the stream is complete there is one child left
  | .exit k => ∀ c, d.chlds[k]? = some c → c.watched = true →
      (d.slot c.task).w.reschedule = false → (d.slot c.task).nsim = 1

/-! ### The slots in the table -/

/-- There are runs to come. -/
structure Task.Recurring (t : Task) : Prop where
  reschedule : t.w.reschedule = true
  cb : t.w.cb = .taskCb
  active : t.w.active = true
  nrun : t.nrun ≠ 0
  spent : ¬ t.Spent

/-- The last run is still to be started, or there are children to wait for. -/
structure Task.Finishing (t : Task) : Prop where
  reschedule : t.w.reschedule = false
  cb : t.w.cb = .taskCb
  nrun : t.nrun ≠ 0
  at_ : farFuture ≤ t.w.at_
  busy : t.w.pending = true ∨ t.nsim ≠ 0

/-- There never was a run to come. -/
structure Task.Leaving (t : Task) : Prop where
  reschedule : t.w.reschedule = false
  cb : t.w.cb = .unsched
  nrun : t.nrun = 0
  nsim : t.nsim = 0
  due : t.Due

def Task.Placed (t : Task) : Prop := t.Recurring ∨ t.Finishing ∨ t.Leaving

theorem Task.Placed.due {t : Task} (h : t.Placed) (hs : t.Spent) (hn : t.nsim = 0) : t.Due := by
  rcases h with h | h | h
  · exact absurd hs h.spent
  · exact Or.inl (h.busy.resolve_right fun hc => hc hn)
  · exact h.due

/-- A slot that is rescheduled, with a watcher that is started, recurs, or was scheduled
for the last time, or should leave. -/
theorem placed_reschedule {t t' : Task} {now : ℚ} {b : Bool} (hc : ClockOk now)
    (hr : t.w.reschedule = true) (hcb : t.w.cb = .taskCb) (hnew : t.nrun = 0 → t.nsim = 0)
    (hlast : t.Exhausted now → t.nrun = 0 ∨ b = true ∨ t.nsim ≠ 0)
    (hw' : t'.w = { (evReschedule t now).w with active := true, pending := b })
    (ht : t'.t = (evReschedule t now).t) (hn' : t'.nrun = (evReschedule t now).nrun)
    (hs : t'.nsim = t.nsim) : t'.Placed := by
  obtain ⟨-, ⟨he, hn, hz, hw⟩ | ⟨he, hn, hz, hw⟩ | ⟨he, hz, x, hw⟩⟩ := evReschedule_cases t now
  · rw [hw] at hw'
    refine Or.inr (Or.inr ⟨?_, ?_, hn'.trans hz, hs.trans (hnew hn), Or.inr ⟨?_, ?_⟩⟩)
    · rw [hw']
    · rw [hw']
    · rw [hw']
    · rw [hw']
      exact hc.2
  · rw [hw] at hw'
    refine Or.inr (Or.inl ⟨?_, ?_, ?_, ?_, ?_⟩)
    · rw [hw']
    · rw [hw']
      exact hcb
    · rw [hn', hz]
      exact hn
    · rw [hw']
      have := hc.1
      show farFuture ≤ now + farFuture
      linarith
    · rw [hw', hs]
      exact (hlast he).resolve_left hn
  · rw [hw] at hw'
    refine Or.inl ⟨?_, ?_, ?_, ?_, fun hsp => he ?_⟩
    · rw [hw']
      exact hr
    · rw [hw']
      exact hcb
    · rw [hw']
    · rw [hn', hz]
      exact Nat.succ_ne_zero _
    · rw [← evReschedule_spent]
      unfold Task.Spent Task.events at hsp ⊢
      rwa [ht] at hsp

/-! ### The invariant -/

structure Booked (d : Echsd) (fl : List Nat) : Prop where
  pool : PoolOk d.pool fl
  count : ∀ i, InTable d.pool i → (d.slot i).nsim = watchedRuns d i
  bound : ∀ i, InTable d.pool i → (d.slot i).nsim ≤ 2 ^ 32
  placed : ∀ i, InTable d.pool i → (d.slot i).Placed
  idle : ∀ i, ¬ InTable d.pool i →
    (d.slot i).w.active = false ∧ (d.slot i).w.pending = false
  chld : ∀ c ∈ d.chlds, c.watched = true → c.live = true ∧ InTable d.pool c.task

theorem booked_ini : Booked .ini [] := by
  have hnone : ∀ i, ¬ InTable Echsd.ini.pool i := by
    rintro i ⟨k, hk⟩
    exact absurd (poolOk_ini.task k i hk).1 (Nat.not_lt_zero i)
  exact ⟨poolOk_ini, fun i hi => absurd hi (hnone i), fun i hi => absurd hi (hnone i),
    fun i hi => absurd hi (hnone i), fun _ _ => ⟨rfl, rfl⟩, fun c hc => nomatch hc⟩

theorem watchedRuns_eq_zero {d : Echsd} {i : Nat} (h : watchedRuns d i = 0) {c : Chld}
    (hc : c ∈ d.chlds) (hw : c.watched = true) : c.task ≠ i := by
  intro hi
  have hn := (List.countP_eq_zero.mp h) c hc
  rw [hw, hi] at hn
  simp at hn

namespace Booked

variable {d : Echsd} {fl : List Nat} (h : Booked d fl)
include h

/-- **The invariant has the books kept.** -/
theorem books : Books d fl := by
  have hlive : ∀ i, liveRuns d i = watchedRuns d i := by
    intro i
    unfold liveRuns watchedRuns
    refine List.countP_congr fun c hc => ?_
    constructor
    · intro hp
      exact (Bool.and_eq_true_iff.mp hp).1
    · intro hp
      refine Bool.and_eq_true_iff.mpr ⟨hp, ?_⟩
      exact (h.chld c hc (Bool.and_eq_true_iff.mp hp).2).1
  refine ⟨h.pool.chain, fun i hi => ?_, fun i hi => ?_, fun i hi hf => ?_, fun i hi => ?_⟩
  · rcases h.pool.all i hi with hf | hin
    · exact Or.inr (Or.inr ⟨(h.pool.free i hf).2,
        List.count_eq_one_of_mem (Chain.nodup h.pool.chain) hf⟩)
    · refine Or.inl ⟨?_, fun hf => (h.pool.free i hf).2 hin⟩
      obtain ⟨k, hk⟩ := hin
      exact ⟨k, hk, fun k' hk' => h.pool.unique hk' hk⟩
  · rintro ⟨c, hc, hw, rfl⟩
    exact (h.pool.free c.task hi).2 (h.chld c hc hw).2
  · rw [hlive]
    exact h.count i ((h.pool.all i hi).resolve_left hf)
  · exact (h.placed i hi).due

/-- What is scheduled is in the table. -/
theorem inTable_of_scheduled {i : Nat}
    (hs : (d.slot i).w.active = true ∨ (d.slot i).w.pending = true) : InTable d.pool i := by
  by_contra hi
  obtain ⟨ha, hp⟩ := h.idle i hi
  rcases hs with hs | hs
  · rw [ha] at hs
    cases hs
  · rw [hp] at hs
    cases hs

/-- A slot is written that still has the same task, and counts its children, while no
other slot has its children changed. -/
theorem write {i : Nat} (hi : InTable d.pool i) {s : Task} (hnext : s.next = (d.slot i).next)
    (ht : ∀ x, (d.slot i).t = some x → ∃ y, s.t = some y ∧ y.oid = x.oid) (hp : s.Placed)
    (hb : s.nsim ≤ 2 ^ 32) {d' : Echsd} (hpool : d'.pool = d.pool.set i s)
    (hn : s.nsim = watchedRuns d' i) (hne : ∀ j, j ≠ i → watchedRuns d' j = watchedRuns d j)
    (hc : ∀ c ∈ d'.chlds, c.watched = true → c.live = true ∧ InTable d.pool c.task) :
    Booked d' fl := by
  have hslot : d'.slot i = s := by
    unfold Echsd.slot
    rw [hpool]
    exact Function.update_self ..
  have hslot_ne : ∀ j, j ≠ i → d'.slot j = d.slot j := by
    intro j hj
    unfold Echsd.slot
    rw [hpool]
    exact Function.update_of_ne hj ..
  have hin : ∀ j, InTable d'.pool j ↔ InTable d.pool j := by
    intro j
    rw [hpool]
    exact Iff.rfl
  refine ⟨hpool ▸ h.pool.set hnext ht, fun j hj => ?_, fun j hj => ?_, fun j hj => ?_,
    fun j hj => ?_, fun c hcm hcw => ?_⟩
  · rw [hin] at hj
    by_cases hji : j = i
    · rw [hji, hslot, hn]
    · rw [hslot_ne j hji, hne j hji]
      exact h.count j hj
  · rw [hin] at hj
    by_cases hji : j = i
    · rw [hji, hslot]
      exact hb
    · rw [hslot_ne j hji]
      exact h.bound j hj
  · rw [hin] at hj
    by_cases hji : j = i
    · rw [hji, hslot]
      exact hp
    · rw [hslot_ne j hji]
      exact h.placed j hj
  · rw [hin] at hj
    have hji : j ≠ i := by
      rintro rfl
      exact hj hi
    rw [hslot_ne j hji]
    exact h.idle j hj
  · rw [hin]
    exact hc c hcm hcw

/-- A slot is given back, once it has been stopped and no child leads to it any more. -/
theorem release {i : Nat} (hi : InTable d.pool i) {s : Task} (hnext : s.next = (d.slot i).next)
    (ht : s.t = (d.slot i).t) (hw : s.w.active = false ∧ s.w.pending = false) {d' : Echsd}
    (hpool : d'.pool = freeTask (d.pool.set i s) i) (hz : watchedRuns d' i = 0)
    (hne : ∀ j, j ≠ i → watchedRuns d' j = watchedRuns d j)
    (hc : ∀ c ∈ d'.chlds, c ∈ d.chlds) : Booked d' (i :: fl) := by
  have hset : PoolOk (d.pool.set i s) fl :=
    h.pool.set hnext fun x hx => ⟨x, ht.trans hx, rfl⟩
  obtain ⟨hfree, hin'⟩ := hset.freed hi
  have hin : ∀ j, InTable d'.pool j ↔ InTable d.pool j ∧ j ≠ i := by
    intro j
    rw [hpool]
    exact hin' j
  have hslot : d'.slot i = { s with t := none, next := d.pool.freeTasks } := by
    unfold Echsd.slot
    rw [hpool, freeTask_slot]
    show { (Function.update d.pool.slots i s i) with t := none, next := d.pool.freeTasks } = _
    rw [Function.update_self]
  have hslot_ne : ∀ j, j ≠ i → d'.slot j = d.slot j := by
    intro j hj
    unfold Echsd.slot
    rw [hpool, freeTask_slot_ne _ hj]
    exact Function.update_of_ne hj ..
  refine ⟨hpool ▸ hfree, fun j hj => ?_, fun j hj => ?_, fun j hj => ?_, fun j hj => ?_,
    fun c hcm hcw => ?_⟩
  · obtain ⟨hj', hji⟩ := (hin j).mp hj
    rw [hslot_ne j hji, hne j hji]
    exact h.count j hj'
  · obtain ⟨hj', hji⟩ := (hin j).mp hj
    rw [hslot_ne j hji]
    exact h.bound j hj'
  · obtain ⟨hj', hji⟩ := (hin j).mp hj
    rw [hslot_ne j hji]
    exact h.placed j hj'
  · by_cases hji : j = i
    · rw [hji, hslot]
      exact hw
    · rw [hslot_ne j hji]
      exact h.idle j fun hc => hj ((hin j).mpr ⟨hc, hji⟩)
  · obtain ⟨hl, hct⟩ := h.chld c (hc c hcm) hcw
    exact ⟨hl, (hin _).mpr ⟨hct, watchedRuns_eq_zero hz hcm hcw⟩⟩

end Booked

/-! ### Steps -/

theorem set_set (p : TaskPool) (i : Nat) (s t : Task) : (p.set i s).set i t = p.set i t := by
  unfold TaskPool.set
  rw [Function.update_idem]

theorem unsched_pool (d : Echsd) (i : Nat) (s : Task) :
    (unsched (d.setSlot i s) i).pool = freeTask (d.pool.set i (evPeriodicStop s)) i := by
  show freeTask ((d.pool.set i s).set i (evPeriodicStop ((d.setSlot i s).slot i))) i = _
  rw [slot_setSlot, set_set]

/-- A slot that is only moved on in time. -/
theorem Booked.move {d : Echsd} {fl : List Nat} (h : Booked d fl) {i : Nat}
    (hi : InTable d.pool i) {s : Task} (hs : s.Same (d.slot i)) (hp : s.Placed) :
    Booked (d.setSlot i s) fl := by
  refine h.write hi hs.next (fun x hx => ?_) hp ?_ rfl ?_ (fun _ _ => rfl) h.chld
  · obtain ⟨y, hy, hid⟩ := hs.exists_task hx
    exact ⟨y, hy, EchsTask.ident_oid hid⟩
  · rw [hs.nsim]
    exact h.bound i hi
  · rw [hs.nsim]
    exact h.count i hi

/-- The watcher of a slot expires. -/
theorem Booked.expire {d : Echsd} {fl : List Nat} (h : Booked d fl) {i : Nat} {now : ℚ}
    (ha : (d.slot i).w.active = true) (hat : (d.slot i).w.at_ ≤ now) (hc : ClockOk now) :
    Booked (d.setSlot i (evPeriodicExpire (d.slot i) now)) fl := by
  have hi := h.inTable_of_scheduled (Or.inl ha)
  refine h.move hi (evPeriodicExpire_same _ _) ?_
  unfold evPeriodicExpire
  dsimp only
  rcases h.placed i hi with hp | hp | hp
  · rw [if_pos hp.reschedule]
    refine placed_reschedule hc hp.reschedule hp.cb
      (fun h0 => absurd h0 hp.nrun) (fun _ => Or.inr (Or.inl rfl)) ?_ rfl rfl
      (evReschedule_same _ _).nsim
    have hact := (evReschedule_w (d.slot i) now).1.trans ha
    dsimp only
    rw [← hact]
  · have := hp.at_
    have := hc.2
    exact absurd hat (by linarith)
  · rw [if_neg (by rw [hp.reschedule]; exact Bool.false_ne_true)]
    exact Or.inr (Or.inr ⟨hp.reschedule, hp.cb, hp.nrun, hp.nsim, Or.inl rfl⟩)

/-- The clock jumps. -/
theorem Booked.jump {d : Echsd} {fl : List Nat} (h : Booked d fl) {i : Nat} {now : ℚ}
    (ha : (d.slot i).w.active = true) (hr : (d.slot i).w.reschedule = true) (hc : ClockOk now)
    (hs : (d.slot i).Exhausted now → (d.slot i).w.pending = true ∨ (d.slot i).nsim ≠ 0) :
    Booked (d.setSlot i (evReschedule (d.slot i) now)) fl := by
  have hi := h.inTable_of_scheduled (Or.inl ha)
  refine h.move hi (evReschedule_same _ _) ?_
  rcases h.placed i hi with hp | hp | hp
  · obtain ⟨hact, hpend⟩ := evReschedule_w (d.slot i) now
    refine placed_reschedule hc hr hp.cb
      (fun h0 => absurd h0 hp.nrun) (fun he => Or.inr (hs he)) ?_ rfl rfl
      (evReschedule_same _ _).nsim
    rw [← hact.trans ha, ← hpend]
  · rw [hp.reschedule] at hr
    cases hr
  · rw [hp.reschedule] at hr
    cases hr

/-- The task of a slot is run. -/
theorem Booked.fire {d : Echsd} {fl : List Nat} (h : Booked d fl) {i : Nat} {sys : Spawn}
    (hp : (d.slot i).w.pending = true) (hcb : (d.slot i).w.cb = .taskCb)
    (hsp : Supervises (d.slot i) sys → sys.spawn = 0)
    (hlast : (d.slot i).w.reschedule = false →
      (d.slot i).nsim ≠ 0 ∨ Supervises (d.slot i) sys) :
    Booked (taskCb (d.setSlot i (d.slot i).unpend) i sys) fl := by
  have hi := h.inTable_of_scheduled (Or.inr hp)
  generalize hd : d.setSlot i (d.slot i).unpend = d₁
  have hslot : d₁.slot i = (d.slot i).unpend := by
    rw [← hd]
    exact slot_setSlot ..
  have hpool : d₁.pool = d.pool.set i (d.slot i).unpend := by rw [← hd]; rfl
  have hchlds : d₁.chlds = d.chlds := by rw [← hd]; rfl
  have hruns : ∀ j, watchedRuns d₁ j = watchedRuns d j := by
    intro j
    unfold watchedRuns
    rw [hchlds]
  have hsup : Supervises (d₁.slot i) sys ↔ Supervises (d.slot i) sys := by
    rw [hslot]
    exact Iff.rfl
  -- the slot stays where it is if a child is waited for then
  have hplaced : ∀ n, (n ≠ 0 ∨ (d.slot i).w.reschedule = true) →
      ({ (d.slot i).unpend with nsim := n } : Task).Placed := by
    intro n hn
    rcases h.placed i hi with hr | hr | hr
    · exact Or.inl ⟨hr.reschedule, hr.cb, hr.active, hr.nrun, hr.spent⟩
    · refine Or.inr (Or.inl ⟨hr.reschedule, hr.cb, hr.nrun, hr.at_, Or.inr ?_⟩)
      refine hn.resolve_right fun hc => ?_
      rw [hr.reschedule] at hc
      cases hc
    · rw [hr.cb] at hcb
      cases hcb
  have hne : ∀ j, j ≠ i → watchedRuns (taskCb d₁ i sys) j = watchedRuns d j := by
    intro j hj
    rw [watchedRuns_taskCb_ne d₁ sys hj, hruns]
  have hcount := h.count i hi
  rcases taskCb_cases d₁ i sys with ⟨hs, hpl, hch⟩ | ⟨hs, hpl, hch⟩
  · have hs' := hsup.mp hs
    have hw : watchedRuns (taskCb d₁ i sys) i = (d.slot i).nsim + 1 := by
      rcases taskCb_counts d₁ i sys with ⟨-, hw, -⟩ | ⟨hc, -⟩
      · rw [hw, hruns, hcount]
      · exact absurd hs hc
    rw [hslot, hpool, set_set] at hpl
    refine h.write hi (s := { (d.slot i).unpend with nsim := (d.slot i).nsim + 1 }) rfl
      (fun x hx => ⟨x, hx, rfl⟩) (hplaced _ (Or.inl (Nat.succ_ne_zero _))) ?_ hpl hw.symm hne ?_
    · have := u32OfInt_lt (((d.slot i).maxSimul : Int) - 1)
      have := hs'.1
      show (d.slot i).nsim + 1 ≤ 2 ^ 32
      omega
    · intro c hc hcw
      rw [hch, hchlds] at hc
      rcases List.mem_cons.mp hc with rfl | hc
      · have hst : sys.Starts := ⟨hs'.2.1, hs'.2.2.1, hsp hs'⟩
        exact ⟨decide_eq_true hst, hi⟩
      · exact h.chld c hc hcw
  · have hs' : ¬ Supervises (d.slot i) sys := fun hc => hs (hsup.mpr hc)
    have hw : watchedRuns (taskCb d₁ i sys) i = (d.slot i).nsim := by
      rcases taskCb_counts d₁ i sys with ⟨hc, -⟩ | ⟨-, hw, -⟩
      · exact absurd hc hs
      · rw [hw, hruns, hcount]
    rw [hpool] at hpl
    refine h.write hi (s := (d.slot i).unpend) rfl (fun x hx => ⟨x, hx, rfl⟩) (hplaced _ ?_)
      (h.bound i hi) hpl hw.symm hne ?_
    · by_cases hr : (d.slot i).w.reschedule = true
      · exact Or.inr hr
      · exact Or.inl ((hlast (by simpa using hr)).resolve_right hs')
    · intro c hc hcw
      rw [hch, hchlds] at hc
      rcases List.mem_append.mp hc with hc | hc
      · split at hc
        · obtain rfl := List.mem_singleton.mp hc
          cases hcw
        · cases hc
      · exact h.chld c hc hcw

/-- A slot is taken off that never had a run to come. -/
theorem Booked.leave {d : Echsd} {fl : List Nat} (h : Booked d fl) {i : Nat}
    (hp : (d.slot i).w.pending = true) (hcb : (d.slot i).w.cb = .unsched) :
    Booked (unsched (d.setSlot i (d.slot i).unpend) i) (i :: fl) := by
  have hi := h.inTable_of_scheduled (Or.inr hp)
  have hz : watchedRuns d i = 0 := by
    rw [← h.count i hi]
    rcases h.placed i hi with hr | hr | hr
    · rw [hr.cb] at hcb
      cases hcb
    · rw [hr.cb] at hcb
      cases hcb
    · exact hr.nsim
  exact h.release hi (s := evPeriodicStop (d.slot i).unpend) rfl rfl ⟨rfl, rfl⟩
    (unsched_pool d i _) hz (fun _ _ => rfl) fun _ hc => hc

/-- A child that is waited for exits. -/
theorem Booked.reaped {d : Echsd} {fl : List Nat} (h : Booked d fl) {k : Nat} {c : Chld}
    (hk : d.chlds[k]? = some c) (hw : c.watched = true)
    (hone : (d.slot c.task).w.reschedule = false → (d.slot c.task).nsim = 1) :
    ∃ fl', Booked (chldCb (d.reap k) c.task) fl' := by
  have hmem : c ∈ d.chlds := List.mem_of_getElem? hk
  obtain ⟨-, hi⟩ := h.chld c hmem hw
  have hruns := watchedRuns_reap hk hw
  have hself := hruns c.task
  rw [if_pos rfl, ← h.count c.task hi] at hself
  have hb := h.bound c.task hi
  have hdec : ((d.slot c.task).nsim + (2 ^ 64 - 1)) % 2 ^ 64 = watchedRuns (d.reap k) c.task := by
    omega
  have hne : ∀ j, j ≠ c.task → watchedRuns (d.reap k) j = watchedRuns d j := by
    intro j hj
    rw [hruns j, if_neg (Ne.symm hj)]
    rfl
  have hsub : ∀ x ∈ (d.reap k).chlds, x ∈ d.chlds := fun x hx => List.mem_of_mem_eraseIdx hx
  have hcb : chldCb (d.reap k) c.task =
      if (d.slot c.task).w.reschedule then
        (d.reap k).setSlot c.task
          { d.slot c.task with nsim := watchedRuns (d.reap k) c.task }
      else unsched ((d.reap k).setSlot c.task
        { d.slot c.task with nsim := watchedRuns (d.reap k) c.task }) c.task := by
    rw [← hdec]
    unfold chldCb
    dsimp only
    rw [slot_setSlot]
    rfl
  rw [hcb]
  by_cases hr : (d.slot c.task).w.reschedule = true
  · rw [if_pos hr]
    refine ⟨fl, h.write hi (s := { d.slot c.task with nsim := watchedRuns (d.reap k) c.task })
      rfl (fun x hx => ⟨x, hx, rfl⟩) ?_ ?_ rfl rfl hne fun x hx hxw => h.chld x (hsub x hx) hxw⟩
    · rcases h.placed c.task hi with hp | hp | hp
      · exact Or.inl ⟨hp.reschedule, hp.cb, hp.active, hp.nrun, hp.spent⟩
      · rw [hp.reschedule] at hr
        cases hr
      · rw [hp.reschedule] at hr
        cases hr
    · show watchedRuns (d.reap k) c.task ≤ 2 ^ 32
      omega
  · rw [if_neg hr]
    have hz : watchedRuns (d.reap k) c.task = 0 := by
      have := hone (by simpa using hr)
      omega
    exact ⟨_, h.release hi
      (s := evPeriodicStop { d.slot c.task with nsim := watchedRuns (d.reap k) c.task })
      rfl rfl ⟨rfl, rfl⟩ (unsched_pool _ _ _) hz hne hsub⟩

/-! ### Requests -/

/-- A task is cancelled. -/
theorem Booked.eject {d : Echsd} {fl : List Nat} (h : Booked d fl) {oid u : Nat}
    (hz : ∀ res, getTask d.pool oid = some res → OwnedBy (d.slot res) u →
      (d.slot res).nsim = 0) : ∃ fl', Booked (ejectTask1 d oid u).2 fl' := by
  unfold ejectTask1
  cases hg : getTask d.pool oid with
  | none => exact ⟨fl, h⟩
  | some res =>
      dsimp only
      by_cases ho : OwnedBy (d.slot res) u
      · rw [if_pos (ownedByP_iff.mpr ho)]
        obtain ⟨hi, -⟩ := h.pool.getTask_some hg
        refine ⟨_, h.release hi (s := evPeriodicStop (d.slot res)) rfl rfl ⟨rfl, rfl⟩ rfl ?_
          (fun _ _ => rfl) fun _ hc => hc⟩
        show watchedRuns d res = 0
        rw [← h.count res hi]
        exact hz res hg ho
      · rw [if_neg fun hc => ho (ownedByP_iff.mp hc)]
        exact ⟨fl, h⟩

/-- `_inject_task1` by whom the task would be run as. -/
theorem injectTask1_eq (c : Ctx) (d : Echsd) (t : EchsTask) (u : Nat) :
    injectTask1 c d t u =
      match runAs c t u with
      | none => (-1, d)
      | some o => injectFor c d t o := by
  unfold injectTask1 runAs
  dsimp only
  generalize complOwner (c.pw 0) t.owner = oc
  generalize complUid (c.pw 1) u = uc
  by_cases h1 : uc.u = notAUid ∧ oc.u = notAUid
  · rw [if_pos h1, if_pos (Or.inl h1)]
  by_cases h2 : uc.u = notAUid ∧ c.meself ≠ 0 ∧ oc.u ≠ c.meself
  · rw [if_neg h1, if_pos h2, if_pos (Or.inr (Or.inl h2))]
  by_cases h3 : oc.u = notAUid ∧ c.meself ≠ 0 ∧ uc.u ≠ c.meself
  · rw [if_neg h1, if_neg h2, if_pos h3, if_pos (Or.inr (Or.inr (Or.inl h3)))]
  by_cases h4 : uc.u ≠ notAUid ∧ oc.u ≠ notAUid ∧ oc.u ≠ uc.u
  · rw [if_neg h1, if_neg h2, if_neg h3, if_pos h4, if_pos (Or.inr (Or.inr (Or.inr h4)))]
  rw [if_neg h1, if_neg h2, if_neg h3, if_neg h4,
    if_neg (not_or.mpr ⟨h1, not_or.mpr ⟨h2, not_or.mpr ⟨h3, h4⟩⟩⟩)]
  dsimp only
  by_cases hu : uc.u = notAUid
  · have ho : oc.u ≠ notAUid := fun hc => h1 ⟨hu, hc⟩
    rw [if_neg ho, if_pos hu]
    rfl
  · have ho : (if oc.u = notAUid then uc.u else oc.u) = uc.u := by
      split
      · rfl
      · rename_i hc
        by_contra hne
        exact h4 ⟨hu, hc, hne⟩
    rw [ho, if_neg hu, if_neg hu]
    rfl

/-- A watcher that is set up and started is one that is rescheduled. -/
theorem placed_start {s : Task} {now : ℚ} (hc : ClockOk now) (hnew : s.nrun = 0 → s.nsim = 0)
    (hlast : s.Exhausted now → s.nrun = 0 ∨ s.nsim ≠ 0) :
    (evPeriodicStart (evPeriodicInit s) now).Placed := by
  have hinit := (evReschedule_w (evPeriodicInit s) now).2
  unfold evPeriodicStart
  rw [if_neg (show ¬ (evPeriodicInit s).w.active = true from Bool.false_ne_true)]
  dsimp only
  rw [if_pos (show (evPeriodicInit s).w.reschedule = true from rfl)]
  refine placed_reschedule (t := evPeriodicInit s) (b := false) hc rfl rfl hnew
    (fun he => (hlast he).imp_right fun hn => Or.inr hn) ?_ rfl rfl (evReschedule_same _ _).nsim
  have hfalse : (evReschedule (evPeriodicInit s) now).w.pending = false := hinit
  rw [← hfalse]

/-- What is put into a slot for a user that is known. -/
theorem installTask_known {c : Ctx} (d : Echsd) (res : Nat) {t : EchsTask} {o : Nat}
    (ho : (complUid (c.pw 2) o).u ≠ notAUid) (hc : ClockOk c.now)
    (hnew : (d.slot res).nrun = 0 → (d.slot res).nsim = 0)
    (hlast : t.Over c.now → (d.slot res).nrun = 0 ∨ (d.slot res).nsim ≠ 0) :
    ∃ s, (installTask c d res t o).2 = d.setSlot res s ∧
      (∃ x, s.t = some x ∧ x.oid = t.oid) ∧ s.next = (d.slot res).next ∧
      s.nsim = (d.slot res).nsim ∧ s.Placed := by
  unfold installTask
  dsimp only
  rw [if_neg ho]
  generalize hs : ({ d.slot res with
    t := some { t with owner := nummapstrBangNum (complUid (c.pw 2) o).u }
    dfltCred := complUid (c.pw 2) o } : Task) = s
  have hsame := (evPeriodicStart_same (evPeriodicInit s) c.now).trans (evPeriodicInit_same s)
  refine ⟨_, rfl, ?_, ?_, ?_, ?_⟩
  · obtain ⟨x, hx, hid⟩ := hsame.exists_task
      (x := { t with owner := nummapstrBangNum (complUid (c.pw 2) o).u }) (by rw [← hs])
    have hoid := EchsTask.ident_oid hid
    exact ⟨x, hx, hoid⟩
  · rw [hsame.next, ← hs]
  · rw [hsame.nsim, ← hs]
  · refine placed_start hc ?_ fun he => ?_
    · rw [← hs]
      exact hnew
    · rw [← hs] at he ⊢
      exact hlast he

/-- A new task is put into the slot that was found for it. -/
theorem Booked.installed {d : Echsd} {fl : List Nat} (h : Booked d fl) {pool : TaskPool}
    {oid res : Nat} (hm : Made d.pool pool oid res) {s : Task}
    (ht : ∃ x, s.t = some x ∧ x.oid = oid) (hn : s.nsim = 0) (hp : s.Placed) :
    ∃ fl', Booked ({ d with pool := pool }.setSlot res s) fl' := by
  obtain ⟨fl', hpool⟩ := hm.pool s ht
  have hslot : ∀ j, j ≠ res → ({ d with pool := pool }.setSlot res s).slot j = pool.slots j :=
    fun j hj => slot_setSlot_ne _ s hj
  have hkeep : ∀ j, j ≠ res → InTable d.pool j → pool.slots j = d.slot j := by
    intro j hj hin
    exact (hm.slots j hj).resolve_right fun hc => hc.1 hin
  -- the table has the slots that it had, and the new one
  have hold : ∀ j, j ≠ res → InTable ({ d with pool := pool }.setSlot res s).pool j →
      InTable d.pool j :=
    fun j hj hin => ((hm.inTable j).mp hin).resolve_right hj
  refine ⟨fl', hpool, fun j hj => ?_, fun j hj => ?_, fun j hj => ?_, fun j hj => ?_,
    fun c hc hcw => ?_⟩
  · by_cases hjr : j = res
    · subst hjr
      rw [slot_setSlot, hn]
      refine (List.countP_eq_zero.mpr fun c hc hcp => ?_).symm
      obtain ⟨hct, hcw⟩ := Bool.and_eq_true_iff.mp hcp
      have hct' : c.task = j := by simpa using hct
      exact hm.new (hct' ▸ (h.chld c hc hcw).2)
    · rw [hslot j hjr, hkeep j hjr (hold j hjr hj)]
      exact h.count j (hold j hjr hj)
  · by_cases hjr : j = res
    · subst hjr
      rw [slot_setSlot, hn]
      exact Nat.zero_le _
    · rw [hslot j hjr, hkeep j hjr (hold j hjr hj)]
      exact h.bound j (hold j hjr hj)
  · by_cases hjr : j = res
    · subst hjr
      rw [slot_setSlot]
      exact hp
    · rw [hslot j hjr, hkeep j hjr (hold j hjr hj)]
      exact h.placed j (hold j hjr hj)
  · have hjr : j ≠ res := by
      rintro rfl
      exact hj ((hm.inTable j).mpr (Or.inr rfl))
    have hj' : ¬ InTable d.pool j := fun hc => hj ((hm.inTable j).mpr (Or.inl hc))
    rw [hslot j hjr]
    rcases hm.slots j hjr with hs | ⟨-, hs⟩
    · rw [hs]
      exact h.idle j hj'
    · rw [hs]
      exact ⟨rfl, rfl⟩
  · obtain ⟨hl, hct⟩ := h.chld c hc hcw
    exact ⟨hl, (hm.inTable _).mpr (Or.inl hct)⟩

/-- A request for a slot that is not to be had. -/
theorem Booked.unmade {d : Echsd} {fl : List Nat} (h : Booked d fl) {pool : TaskPool}
    (hm : Unmade d.pool pool) : ∃ fl', Booked { d with pool := pool } fl' := by
  obtain ⟨fl', hpool⟩ := hm.pool
  have hslot : ∀ j, ({ d with pool := pool } : Echsd).slot j = d.slot j := by
    intro j
    exact congrFun hm.slots j
  refine ⟨fl', hpool, fun j hj => ?_, fun j hj => ?_, fun j hj => ?_, fun j hj => ?_,
    fun c hc hcw => ?_⟩
  · rw [hslot]
    exact h.count j ((hm.inTable j).mp hj)
  · rw [hslot]
    exact h.bound j ((hm.inTable j).mp hj)
  · rw [hslot]
    exact h.placed j ((hm.inTable j).mp hj)
  · rw [hslot]
    exact h.idle j fun hc => hj ((hm.inTable j).mpr hc)
  · obtain ⟨hl, hct⟩ := h.chld c hc hcw
    exact ⟨hl, (hm.inTable _).mpr hct⟩

/-- A task is scheduled. -/
theorem Booked.inject {d : Echsd} {fl : List Nat} (h : Booked d fl) {c : Ctx} {t : EchsTask}
    {u : Nat} (hc : ClockOk c.now) (hs : BookSafe d (.request c u (.sche t))) :
    ∃ fl', Booked (injectTask1 c d t u).2 fl' := by
  obtain ⟨h0, hlt, hsafe⟩ := hs
  rw [injectTask1_eq]
  cases hr : runAs c t u with
  | none => exact ⟨fl, h⟩
  | some o =>
      dsimp only
      unfold injectFor
      by_cases hst : t.strm.isNone = true
      · rw [if_pos hst]
        exact ⟨fl, h⟩
      rw [if_neg hst]
      have hsafe := hsafe o hr fun hn => hst (by rw [hn]; rfl)
      cases hg : getTask d.pool t.oid with
      | some res =>
          rw [hg] at hsafe
          dsimp only at hsafe ⊢
          by_cases ho : OwnedBy (d.slot res) o
          · rw [if_pos (ownedByP_iff.mpr ho)]
            obtain ⟨hknown, hover⟩ := hsafe ho
            obtain ⟨hi, -, x, hx, hxo⟩ := h.pool.getTask_some hg
            generalize hstop : ({ evPeriodicStop (d.slot res) with t := none } : Task) = stopped
            generalize hd : d.setSlot res stopped = d₁
            have hslot : d₁.slot res = stopped := by
              rw [← hd]
              exact slot_setSlot ..
            have hnew : (d.slot res).nrun = 0 → (d.slot res).nsim = 0 := by
              intro hz
              rcases h.placed res hi with hp | hp | hp
              · exact absurd hz hp.nrun
              · exact absurd hz hp.nrun
              · exact hp.nsim
            obtain ⟨s, hinst, ⟨y, hy, hyo⟩, hnext, hnsim, hp⟩ :=
              installTask_known d₁ res hknown hc
                (by rw [hslot, ← hstop]; exact hnew) (by rw [hslot, ← hstop]; exact hover)
            rw [hslot, ← hstop] at hnext hnsim
            rw [hinst]
            refine ⟨fl, h.write hi (s := s) hnext (fun z hz => ⟨y, hy, ?_⟩) hp ?_ ?_ ?_
              (fun j _ => ?_) ?_⟩
            · obtain rfl := Option.some.inj (hx.symm.trans hz)
              exact hyo.trans hxo.symm
            · rw [hnsim]
              exact h.bound res hi
            · rw [← hd]
              exact set_set d.pool res _ s
            · rw [hnsim, ← hd]
              exact h.count res hi
            · rw [← hd]
              rfl
            · rw [← hd]
              exact h.chld
          · rw [if_neg fun hc => ho (ownedByP_iff.mp hc)]
            exact ⟨fl, h⟩
      | none =>
          rw [hg] at hsafe
          dsimp only at hsafe ⊢
          cases hmk : makeTask c.mem d.pool t.oid with
          | mk r pool =>
              rcases h.pool.made h0 hlt hg hmk with ⟨rfl, hm⟩ | ⟨res, rfl, hm⟩
              · exact h.unmade hm
              · dsimp only
                have hz : ({ d with pool := pool } : Echsd).slot res = .zero := hm.zero
                obtain ⟨s, hinst, ht, -, hnsim, hp⟩ :=
                  installTask_known { d with pool := pool } res hsafe hc
                    (by rw [hz]; exact fun _ => rfl) (by rw [hz]; exact fun _ => Or.inl rfl)
                rw [hinst]
                refine h.installed hm ht ?_ hp
                rw [hnsim, hz]
                rfl

/-! ### Runs -/

/-- A step that is safe keeps the invariant. -/
theorem booked_step {d d' : Echsd} {a : Action} (h : ∃ fl, Booked d fl) (hs : BookSafe d a)
    (hst : echsdStep d a = some d') : ∃ fl, Booked d' fl := by
  obtain ⟨fl, h⟩ := h
  rcases echsdStep_cases hst with ⟨c, u, i, rfl, hc, rfl⟩ | ⟨i, now, rfl, ha, hat, hc, rfl⟩ |
    ⟨i, now, rfl, ha, hr, hc, rfl⟩ | ⟨i, sys, rfl, hp, hcb, rfl⟩ | ⟨i, sys, rfl, hp, hcb, rfl⟩ |
    ⟨k, c, rfl, hk, -, rfl⟩
  · cases i with
    | sche t => exact h.inject hc hs
    | unsc oid => exact h.eject hs
  · exact ⟨fl, h.expire ha hat hc⟩
  · exact ⟨fl, h.jump ha hr hc hs⟩
  · obtain ⟨hsp, hlast⟩ := hs hcb
    exact ⟨fl, h.fire hp hcb hsp hlast⟩
  · exact ⟨_, h.leave hp hcb⟩
  · split
    · rename_i hw
      exact h.reaped hk hw (hs c hk hw)
    · rename_i hw
      refine ⟨fl, h.pool, fun i hi => ?_, h.bound, h.placed, h.idle, fun x hx => ?_⟩
      · rw [← watchedRuns_reap_of_not hk hw]
        exact h.count i hi
      · exact h.chld x (List.mem_of_mem_eraseIdx hx)

/-- **The books are kept in every state of a run whose steps are safe.** -/
theorem slots_bookkept (as : List Action) (hs : Before echsdStep BookSafe .ini as) :
    Bookkept .ini ∧ Along echsdStep (fun _ _ d' => Bookkept d') .ini as := by
  refine ⟨⟨[], booked_ini.books⟩, ?_⟩
  refine along_of_inv (fun d => ∃ fl, Booked d fl) (fun d a d' h hsafe hst => ?_) as .ini
    ⟨[], booked_ini⟩ hs
  have h' := booked_step h hsafe hst
  obtain ⟨fl, hb⟩ := h'
  exact ⟨⟨fl, hb⟩, ⟨fl, hb.books⟩⟩

/-- alice schedules a task that is run once, and it is run. -/
def aliceRun : List Action :=
  [.request rootCtx 1000 (.sche aliceTask), .expire 0 1893499201, .invoke 0 ⟨0, 0, 0, 4242⟩]

theorem aliceRun_safe : Before echsdStep BookSafe .ini aliceRun := by
  have hrun : runAs rootCtx aliceTask 1000 = some 1000 := by decide
  have hnew : getTask Echsd.ini.pool aliceTask.oid = none := by decide
  have hknown : (complUid (rootCtx.pw 2) 1000).u ≠ notAUid := by decide
  intro d₁ h₁
  refine ⟨⟨by decide, by decide, fun o ho _ => ?_⟩, fun d₂ h₂ => ⟨trivial, fun d₃ h₃ =>
    ⟨fun _ => ⟨fun _ => rfl, fun _ => Or.inr ?_⟩, trivial⟩⟩⟩
  · rw [hrun] at ho
    obtain rfl := Option.some.inj ho
    rw [hnew]
    exact hknown
  · have hsup : (run echsdStep .ini (aliceRun.take 2)).map
        (fun d => decide (Supervises (d.slot 0) ⟨0, 0, 0, 4242⟩)) = some true := by
      decide
    have hd : run echsdStep .ini (aliceRun.take 2) = some d₂ :=
      run_cons h₁ (run_cons h₂ rfl)
    rw [hd] at hsup
    exact of_decide_eq_true (Option.some.inj hsup)

theorem slots_bookkept_alice :
    Bookkept .ini ∧ Along echsdStep (fun _ _ d' => Bookkept d') .ini aliceRun :=
  slots_bookkept aliceRun aliceRun_safe

/-- A task that is cancelled while it runs has its slot free and reached by a child. -/
theorem cancel_frees_running : ¬ Along echsdStep (fun _ _ d' => Bookkept d') .ini
    (aliceRun ++ [.request rootCtx 1000 (.unsc 7)]) := by
  intro h
  have hend : ((run echsdStep .ini aliceRun).bind
      (echsdStep · (.request rootCtx 1000 (.unsc 7)))).map
        (fun d => (d.pool.freeTasks, d.chlds)) =
      some (some 0, [⟨0, true, true, true⟩]) := by
    decide
  obtain ⟨d', hd', heq⟩ := Option.map_eq_some_iff.mp hend
  obtain ⟨d, hd, hst⟩ := Option.bind_eq_some_iff.mp hd'
  obtain ⟨hfree, hch⟩ := Prod.mk.inj heq
  obtain ⟨fl, hb⟩ := along_at aliceRun [] _ h hd hst
  have hfl := hb.freeList
  unfold FreeList at hfl
  rw [hfree] at hfl
  obtain ⟨r, rfl, -⟩ := hfl.head
  refine hb.reached 0 (List.mem_cons_self ..) ⟨⟨0, true, true, true⟩, ?_, rfl, rfl⟩
  rw [hch]
  exact List.mem_cons_self ..

end Echse
