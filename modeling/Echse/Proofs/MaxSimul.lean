/-
How many runs of a task there are at a time.

The field `max_simul` of a task that has been made is its limit, and 63 for none.  The
callback of a watcher reads it as one more than that: it supervises a run, and counts
it, only while there are fewer than `max_simul - 1` of them, and hands every other run
to `run_task`, which compares the count with `max_simul` and finds it lower still.  So a
run at the limit is a real one that nobody counts, unless `-nd` has been set by a run of
a task whose limit is 0, and from there on it is set for good.
-/
import Echse.Proofs.Children
import Echse.Lib.Runs

namespace Echse

open Runs

/-! ### Counting children -/

/-- Children that run the task of slot `i`, without `-nd`. -/
def realRuns (d : Echsd) (i : Nat) : Nat :=
  d.chlds.countP fun (c : Chld) => c.task == i && c.real && c.live

theorem realRuns_reap_le (d : Echsd) (k i : Nat) :
    realRuns (d.reap k) i ≤ realRuns d i :=
  (List.eraseIdx_sublist ..).countP_le

/-! ### Limits -/

/-- `n` is below the limit, if there is one. -/
def Below (lim : Option Nat) (n : Nat) : Prop := ∀ v, lim = some v → n < v

def Within (lim : Option Nat) (n : Nat) : Prop := ∀ v, lim = some v → n ≤ v

theorem Below.within_succ {lim : Option Nat} {n : Nat} (h : Below lim n) : Within lim (n + 1) :=
  fun v hv => h v hv

theorem Within.mono {lim : Option Nat} {m n : Nat} (h : Within lim n) (hm : m ≤ n) :
    Within lim m :=
  fun v hv => hm.trans (h v hv)

/-- The field as it is used, from `X-ECHS-MAX-SIMUL` as it is given. -/
def simulField (lim : Option Nat) : Fin 64 := bakeMaxSimul (snarfMaxSimul lim)

/-- The field is the limit if that fits, and 63 otherwise. -/
theorem simulField_val (lim : Option Nat) :
    (simulField lim).val = ((lim.filter (· < 63)).getD 63) := by
  cases lim with
  | none => decide
  | some v =>
      unfold simulField bakeMaxSimul snarfMaxSimul
      by_cases h : v < 63
      · simp only [h, dite_true, Option.filter_some, decide_true, if_true, Option.getD_some,
          Fin.sub_def]
        show (64 - 1 + (v + 1)) % 64 = v
        omega
      · simp only [h, dite_false, Option.filter_some, decide_false, if_false, Bool.false_eq_true,
          Option.getD_none]
        decide

theorem simulField_eq_zero_iff (lim : Option Nat) : (simulField lim).val = 0 ↔ lim = some 0 := by
  rw [simulField_val]
  cases lim with
  | none => simp
  | some v =>
      by_cases h : v < 63
      · simp [Option.filter_some, h]
      · simp [Option.filter_some, h]
        omega

/-- A task below its limit is one that may run at all. -/
theorem Below.ne_zero {lim : Option Nat} {n : Nat} (h : Below lim n) : lim ≠ some 0 := by
  intro h0
  exact absurd (h 0 h0) (Nat.not_lt_zero n)

/-! ### Fires -/

/-- Between requests. -/
def fireStep (d : Echsd) : Action → Option Echsd
  | .request _ _ _ => none
  | a => echsdStep d a

def Task.Scheduled (t : Task) : Prop := t.w.active = true ∨ t.w.pending = true

/-- A daemon that has only just been given its tasks, with `lim i` for the
`X-ECHS-MAX-SIMUL` of the one in slot `i`. -/
structure Fresh (lim : Nat → Option Nat) (d : Echsd) : Prop where
  nd : d.nd = false
  chlds : d.chlds = []
  tasks : ∀ i, (d.slot i).Scheduled →
    (d.slot i).nsim = 0 ∧ ∃ x, (d.slot i).t = some x ∧ x.maxSimul = simulField (lim i)

/-- A fire starts a real run exactly if the task is below its limit, and no task is ever
above it. -/
def KeepsLimit (lim : Nat → Option Nat) (d : Echsd) (a : Action) (d' : Echsd) : Prop :=
  (∀ i sys, a = .invoke i sys → (d.slot i).w.cb = .taskCb →
    (realRuns d' i = realRuns d i + 1 ↔ Below (lim i) (realRuns d i))) ∧
  ∀ j, Within (lim j) (realRuns d' j)

/-- Where a fire does what it should: below the limit a process can be started and `-nd`
is not left over from another task; and at the limit the limit is 0, or `-nd` is left
over, or no process can be started. -/
def FireSound (lim : Nat → Option Nat) (d : Echsd) (a : Action) : Prop :=
  ∀ i sys, a = .invoke i sys → (d.slot i).w.cb = .taskCb →
    (Below (lim i) (realRuns d i) → sys.Starts ∧ d.nd = false) ∧
    (¬ Below (lim i) (realRuns d i) → lim i = some 0 ∨ d.nd = true ∨ ¬ sys.Starts)

/-! ### The count of supervised runs -/

theorem Task.Same.maxSimul {s t : Task} (h : s.Same t) : s.maxSimul = t.maxSimul := by
  have hm := congrArg (Option.map fun (x : EchsTask) => x.maxSimul) h.task
  rw [Option.map_map, Option.map_map] at hm
  have hm' : s.t.map (fun (x : EchsTask) => x.maxSimul) =
      t.t.map (fun (x : EchsTask) => x.maxSimul) := hm
  unfold Task.maxSimul
  rw [hm']

/-- What holds of a scheduled slot that `n` children are waited for: it has a task, `n`
is its count of runs, and that does not exceed the number the callback compares it
with. -/
structure SupervisedAt (lim : Option Nat) (n : Nat) (t : Task) : Prop where
  task : ∃ x, t.t = some x ∧ x.maxSimul = simulField lim
  count : t.nsim = n
  bound : t.nsim ≤ u32OfInt ((t.maxSimul : Int) - 1)

def Supervised (lim : Nat → Option Nat) (d : Echsd) : Prop :=
  ∀ i, (d.slot i).Scheduled → SupervisedAt (lim i) (watchedRuns d i) (d.slot i)

theorem SupervisedAt.maxSimul {lim : Option Nat} {n : Nat} {t : Task}
    (h : SupervisedAt lim n t) : t.maxSimul = (simulField lim).val := by
  obtain ⟨x, hx, hm⟩ := h.task
  unfold Task.maxSimul
  rw [hx, ← hm]
  rfl

theorem SupervisedAt.same {lim : Option Nat} {n : Nat} {s t : Task}
    (h : SupervisedAt lim n t) (hs : s.Same t) : SupervisedAt lim n s := by
  obtain ⟨x, hx, hm⟩ := h.task
  obtain ⟨y, hy, hid⟩ := hs.exists_task hx
  have hxy : y.ident.maxSimul = x.ident.maxSimul := by rw [hid]
  refine ⟨⟨y, hy, Eq.trans hxy hm⟩, hs.nsim.trans h.count, ?_⟩
  rw [hs.nsim, hs.maxSimul]
  exact h.bound

/-- `run_task` would set `-nd` for such a slot only if the limit is 0. -/
theorem SupervisedAt.lt_iff {lim : Option Nat} {n : Nat} {t : Task}
    (h : SupervisedAt lim n t) : t.nsim < t.maxSimul ↔ lim ≠ some 0 := by
  have hb := h.bound
  have hm := h.maxSimul
  have hlt := (simulField lim).isLt
  have hz := simulField_eq_zero_iff lim
  constructor
  · intro hn h0
    have := hz.mpr h0
    omega
  · intro h0
    have hpos : (simulField lim).val ≠ 0 := fun hc => h0 (hz.mp hc)
    have hu : u32OfInt ((t.maxSimul : Int) - 1) = t.maxSimul - 1 := by
      unfold u32OfInt wordOfInt
      omega
    omega

/-- A change of the slots `i` only that leaves it as it was, and no child. -/
theorem Supervised.setSlot {lim : Nat → Option Nat} {d : Echsd} (h : Supervised lim d) {i : Nat}
    {s : Task} (hs : s.Same (d.slot i)) (hsch : s.Scheduled → (d.slot i).Scheduled) :
    Supervised lim (d.setSlot i s) := by
  intro j hj
  by_cases hji : j = i
  · subst hji
    rw [slot_setSlot] at hj ⊢
    exact (h j (hsch hj)).same hs
  · rw [slot_setSlot_ne d s hji] at hj ⊢
    exact h j hj

theorem Supervised.unsched {lim : Nat → Option Nat} {d : Echsd} (h : Supervised lim d)
    (i : Nat) : Supervised lim (unsched d i) := by
  intro j hj
  by_cases hji : j = i
  · subst hji
    obtain ⟨ha, hp, -⟩ := unsched_slot d j
    rcases hj with hj | hj
    · rw [ha] at hj
      cases hj
    · rw [hp] at hj
      cases hj
  · rw [unsched_slot_ne d hji] at hj ⊢
    exact h j hj

/-! ### What a fire does -/

/-- **A fire adds one real run, and only if a process starts, and starts without `-nd`.** -/
theorem realRuns_taskCb (d : Echsd) (i : Nat) (sys : Spawn) (j : Nat) :
    realRuns (taskCb d i sys) j = realRuns d j +
      if j = i ∧ sys.Starts ∧ (runTask d.nd (d.slot i) sys).nd = false then 1 else 0 := by
  have hcases := taskCb_cases d i sys
  generalize (runTask d.nd (d.slot i) sys).nd = nd at *
  have hone : ∀ w l, (((⟨i, !nd, w, l⟩ : Chld).task == j && (!nd) && l) = true) ↔
      (j = i ∧ l = true ∧ nd = false) := by
    intro w l
    by_cases hji : j = i
    · subst hji
      cases nd <;> cases l <;> simp
    · have hij : ¬ i = j := fun h => hji h.symm
      simp [hji, hij]
  rcases hcases with ⟨-, -, hch⟩ | ⟨-, -, hch⟩
  · unfold realRuns
    rw [hch, List.countP_cons]
    congr 1
    refine if_congr ?_ rfl rfl
    rw [hone, decide_eq_true_iff]
  · unfold realRuns
    rw [hch, List.countP_append, Nat.add_comm]
    congr 1
    by_cases hs : sys.Starts
    · rw [if_pos hs, List.countP_singleton]
      refine if_congr ?_ rfl rfl
      rw [hone]
      exact ⟨fun h => ⟨h.1, hs, h.2.2⟩, fun h => ⟨h.1, rfl, h.2.2⟩⟩
    · rw [if_neg hs]
      exact (if_neg fun h => hs h.2.1).symm

theorem Supervised.taskCb {lim : Nat → Option Nat} {d : Echsd} (h : Supervised lim d) {i : Nat}
    (hi : SupervisedAt (lim i) (watchedRuns d i) (d.slot i)) (sys : Spawn) :
    Supervised lim (taskCb d i sys) := by
  intro j hj
  by_cases hji : j = i
  · subst hji
    rcases taskCb_counts d j sys with ⟨hs, hw, hsl⟩ | ⟨-, hw, hsl⟩
    · rw [hw, hsl]
      have hcount := hi.count
      refine ⟨hi.task, ?_, ?_⟩
      · show (d.slot j).nsim + 1 = watchedRuns d j + 1
        rw [hcount]
      · exact hs.1
    · rw [hw, hsl]
      exact hi
  · rw [taskCb_slot_ne d sys hji] at hj ⊢
    rw [watchedRuns_taskCb_ne d sys hji]
    exact h j hj

/-- A child that was waited for exits. -/
theorem Supervised.chldCb {lim : Nat → Option Nat} {d : Echsd} (h : Supervised lim d) {k : Nat}
    {c : Chld} (hk : d.chlds[k]? = some c) (hw : c.watched = true) :
    Supervised lim (chldCb (d.reap k) c.task) := by
  have hcount := watchedRuns_reap hk hw
  -- the count is right again
  have hdec : Supervised lim ((d.reap k).setSlot c.task
      { d.slot c.task with nsim := ((d.slot c.task).nsim + (2 ^ 64 - 1)) % 2 ^ 64 }) := by
    intro j hj
    by_cases hji : j = c.task
    · subst hji
      rw [slot_setSlot] at hj ⊢
      have hsch : (d.slot c.task).w.active = true ∨ (d.slot c.task).w.pending = true := hj
      have hs := h c.task hsch
      have hb := hs.bound
      have hc := hs.count
      have hn := hcount c.task
      rw [if_pos rfl] at hn
      have hu := u32OfInt_lt (((d.slot c.task).maxSimul : Int) - 1)
      have hone : ((d.slot c.task).nsim + (2 ^ 64 - 1)) % 2 ^ 64 = (d.slot c.task).nsim - 1 := by
        omega
      rw [hone]
      refine ⟨hs.task, ?_, ?_⟩
      · show (d.slot c.task).nsim - 1 =
          watchedRuns (d.reap k) c.task
        omega
      · show (d.slot c.task).nsim - 1 ≤ u32OfInt (((d.slot c.task).maxSimul : Int) - 1)
        omega
    · rw [slot_setSlot_ne _ _ hji] at hj ⊢
      have hs := h j hj
      have hn := hcount j
      rw [if_neg (Ne.symm hji)] at hn
      show SupervisedAt (lim j) (watchedRuns (d.reap k) j) (d.slot j)
      rw [← show watchedRuns d j = watchedRuns (d.reap k) j from hn]
      exact hs
  unfold Echse.chldCb
  dsimp only
  split
  · exact hdec
  · exact hdec.unsched c.task

/-! ### Steps and runs -/

theorem fireStep_some {d d' : Echsd} {a : Action} (h : fireStep d a = some d') :
    echsdStep d a = some d' ∧ ∀ c u i, a ≠ .request c u i := by
  cases a with
  | request c u i => cases h
  | expire i now => exact ⟨h, fun _ _ _ hc => nomatch hc⟩
  | jump i now => exact ⟨h, fun _ _ _ hc => nomatch hc⟩
  | invoke i sys => exact ⟨h, fun _ _ _ hc => nomatch hc⟩
  | exit k => exact ⟨h, fun _ _ _ hc => nomatch hc⟩

theorem supervised_step {lim : Nat → Option Nat} {d d' : Echsd} {a : Action}
    (h : Supervised lim d) (hst : fireStep d a = some d') : Supervised lim d' := by
  obtain ⟨hst, hreq⟩ := fireStep_some hst
  rcases echsdStep_cases hst with ⟨c, u, i, rfl, -⟩ | ⟨i, now, -, hact, -, -, rfl⟩ |
    ⟨i, now, -, hact, -, -, rfl⟩ | ⟨i, sys, -, hp, -, rfl⟩ | ⟨i, sys, -, hp, -, rfl⟩ |
    ⟨k, c, -, hk, -, rfl⟩
  · exact absurd rfl (hreq c u i)
  · exact h.setSlot (evPeriodicExpire_same _ _) fun _ => Or.inl hact
  · exact h.setSlot (evReschedule_same _ _) fun _ => Or.inl hact
  · refine (h.setSlot (Task.unpend_same _) fun _ => Or.inr hp).taskCb ?_ sys
    rw [slot_setSlot]
    exact (h i (Or.inr hp)).same (Task.unpend_same _)
  · exact (h.setSlot (Task.unpend_same _) fun _ => Or.inr hp).unsched i
  · split
    · rename_i hw
      exact h.chldCb hk hw
    · rename_i hw
      intro j hj
      exact watchedRuns_reap_of_not hk hw j ▸ h j hj

theorem realRuns_chldCb (d : Echsd) (i j : Nat) : realRuns (chldCb d i) j = realRuns d j := by
  unfold chldCb
  dsimp only
  split
  · rfl
  · rfl

/-- What a step does to the number of real runs. -/
theorem realRuns_step {lim : Nat → Option Nat} {d d' : Echsd} {a : Action}
    (h : Supervised lim d) (hst : fireStep d a = some d') :
    (∃ i sys, a = .invoke i sys ∧ (d.slot i).w.cb = .taskCb ∧
      ∀ j, realRuns d' j = realRuns d j +
        if j = i ∧ sys.Starts ∧ d.nd = false ∧ lim i ≠ some 0 then 1 else 0) ∨
    ((∀ i sys, a = .invoke i sys → (d.slot i).w.cb ≠ .taskCb) ∧
      ∀ j, realRuns d' j ≤ realRuns d j) := by
  obtain ⟨hst, hreq⟩ := fireStep_some hst
  rcases echsdStep_cases hst with ⟨c, u, i, rfl, -⟩ | ⟨i, now, rfl, -, -, -, rfl⟩ |
    ⟨i, now, rfl, -, -, -, rfl⟩ | ⟨i, sys, rfl, hp, hcb, rfl⟩ | ⟨i, sys, rfl, hp, hcb, rfl⟩ |
    ⟨k, c, rfl, hk, -, rfl⟩
  · exact absurd rfl (hreq c u i)
  · exact Or.inr ⟨fun _ _ hc => (nomatch hc), fun _ => Nat.le_refl _⟩
  · exact Or.inr ⟨fun _ _ hc => (nomatch hc), fun _ => Nat.le_refl _⟩
  · refine Or.inl ⟨i, sys, rfl, hcb, fun j => ?_⟩
    have hlt := ((h i (Or.inr hp)).same (Task.unpend_same _)).lt_iff
    have hr := realRuns_taskCb (d.setSlot i (d.slot i).unpend) i sys j
    rw [slot_setSlot] at hr
    refine hr.trans (congrArg (realRuns d j + ·) (if_congr ?_ rfl rfl))
    refine and_congr_right fun _ => and_congr_right fun hs => ?_
    rw [runTask_nd hs, ← hlt, Bool.or_eq_false_iff, Bool.not_eq_false', decide_eq_true_iff]
    exact Iff.rfl
  · refine Or.inr ⟨fun j sys' hc => ?_, fun j => Nat.le_refl _⟩
    obtain ⟨rfl, -⟩ := Action.invoke.inj hc
    rw [hcb]
    exact fun hc => nomatch hc
  · refine Or.inr ⟨fun _ _ hc => (nomatch hc), fun j => ?_⟩
    split
    · rw [realRuns_chldCb]
      exact realRuns_reap_le d k j
    · exact realRuns_reap_le d k j

/-- A fire keeps the limit exactly if it is sound. -/
theorem keepsLimit_iff {lim : Nat → Option Nat} {d d' : Echsd} {a : Action}
    (h : Supervised lim d) (hw : ∀ j, Within (lim j) (realRuns d j))
    (hst : fireStep d a = some d') : KeepsLimit lim d a d' ↔ FireSound lim d a := by
  rcases realRuns_step h hst with ⟨i, sys, rfl, hcb, hr⟩ | ⟨hno, hr⟩
  · have hi := hr i
    constructor
    · rintro ⟨hkeep, -⟩ i' sys' hinv hcb'
      obtain ⟨rfl, rfl⟩ := Action.invoke.inj hinv
      have hk := hkeep i sys rfl hcb
      constructor
      · intro hb
        have hone := hk.mpr hb
        by_cases hc : i = i ∧ sys.Starts ∧ d.nd = false ∧ lim i ≠ some 0
        · exact ⟨hc.2.1, hc.2.2.1⟩
        · rw [if_neg hc] at hi
          omega
      · intro hb
        by_contra hc
        have hc' : i = i ∧ sys.Starts ∧ d.nd = false ∧ lim i ≠ some 0 := by
          refine ⟨rfl, ?_, ?_, ?_⟩
          · by_contra hs
            exact hc (Or.inr (Or.inr hs))
          · by_contra hs
            exact hc (Or.inr (Or.inl (by simpa using hs)))
          · intro h0
            exact hc (Or.inl h0)
        rw [if_pos hc'] at hi
        exact hb (hk.mp hi)
    · intro hs
      obtain ⟨hbelow, hat⟩ := hs i sys rfl hcb
      refine ⟨fun i' sys' hinv _ => ?_, fun j => ?_⟩
      · obtain ⟨rfl, rfl⟩ := Action.invoke.inj hinv
        by_cases hb : Below (lim i) (realRuns d i)
        · rw [if_pos ⟨rfl, (hbelow hb).1, (hbelow hb).2, hb.ne_zero⟩] at hi
          exact ⟨fun _ => hb, fun _ => hi⟩
        · have hc : ¬ (i = i ∧ sys.Starts ∧ d.nd = false ∧ lim i ≠ some 0) := by
            rintro ⟨-, hst', hnd, h0⟩
            rcases hat hb with hz | hz | hz
            · exact h0 hz
            · rw [hnd] at hz
              cases hz
            · exact hz hst'
          rw [if_neg hc] at hi
          refine ⟨fun hone => ?_, fun hb' => absurd hb' hb⟩
          omega
      · have hj := hr j
        by_cases hc : j = i ∧ sys.Starts ∧ d.nd = false ∧ lim i ≠ some 0
        · rw [if_pos hc] at hj
          obtain ⟨rfl, hst', hnd, h0⟩ := hc
          rw [hj]
          by_cases hb : Below (lim j) (realRuns d j)
          · exact hb.within_succ
          · rcases hat hb with hz | hz | hz
            · exact absurd hz h0
            · rw [hnd] at hz
              cases hz
            · exact absurd hst' hz
        · rw [if_neg hc, Nat.add_zero] at hj
          rw [hj]
          exact hw j
  · refine ⟨fun _ i sys hinv hcb => absurd hcb (hno i sys hinv), fun _ => ⟨?_, ?_⟩⟩
    · exact fun i sys hinv hcb => absurd hcb (hno i sys hinv)
    · exact fun j => (hw j).mono (hr j)

theorem Fresh.supervised {lim : Nat → Option Nat} {d : Echsd} (h : Fresh lim d) :
    Supervised lim d := by
  intro i hi
  obtain ⟨hn, htask⟩ := h.tasks i hi
  have hz : watchedRuns d i = 0 := by
    unfold watchedRuns
    rw [h.chlds]
    rfl
  refine ⟨htask, ?_, ?_⟩
  · rw [hn, hz]
  · rw [hn]
    exact Nat.zero_le _

/-- **Every fire of a run starts a real run exactly if its task is below its limit, and
no task is ever above it, exactly if every fire is sound.** -/
theorem maxSimul_iff (lim : Nat → Option Nat) (d : Echsd) (hd : Fresh lim d)
    (as : List Action) :
    Along fireStep (KeepsLimit lim) d as ↔ Before fireStep (FireSound lim) d as := by
  have hstart : Supervised lim d ∧ ∀ j, Within (lim j) (realRuns d j) := by
    refine ⟨hd.supervised, fun j v _ => ?_⟩
    have hz : realRuns d j = 0 := by
      unfold realRuns
      rw [hd.chlds]
      rfl
    rw [hz]
    exact Nat.zero_le v
  refine along_iff (fun d => Supervised lim d ∧ ∀ j, Within (lim j) (realRuns d j))
    ?_ ?_ as d hstart
  · intro d a d' hinv hc hst
    exact ⟨supervised_step hinv.1 hst, ((keepsLimit_iff hinv.1 hinv.2 hst).mpr hc).2⟩
  · intro d a d' hinv hst
    exact keepsLimit_iff hinv.1 hinv.2 hst

/-- A task that is run every hour, and not more than once at a time. -/
def hourly : EchsTask where
  oid := 7
  strm := some [⟨.pack 2030 1 1 12 0 0 0, echsNulInstant, 0, 7, 0⟩,
    ⟨.pack 2030 1 1 13 0 0 0, echsNulInstant, 0, 7, 0⟩,
    ⟨.pack 2030 1 1 14 0 0 0, echsNulInstant, 0, 7, 0⟩]
  owner := .num 1000
  wd := none
  sh := none
  maxSimul := simulField (some 1)

/-- A daemon with that task in slot 0 only. -/
def hourlyEchsd : Echsd :=
  Echsd.ini.setSlot 0
    (evPeriodicStart (evPeriodicInit { Task.zero with t := some hourly }) 1893400000)

theorem hourlyEchsd_fresh : Fresh (fun _ => some 1) hourlyEchsd := by
  refine ⟨rfl, rfl, fun i hi => ?_⟩
  by_cases h : i = 0
  · subst h
    unfold hourlyEchsd
    rw [slot_setSlot]
    have hsame := (evPeriodicStart_same (evPeriodicInit { Task.zero with t := some hourly })
      1893400000).trans (evPeriodicInit_same _)
    obtain ⟨x, hx, hid⟩ := hsame.exists_task (x := hourly) rfl
    have hm : x.ident.maxSimul = hourly.ident.maxSimul := by rw [hid]
    exact ⟨hsame.nsim, x, hx, hm⟩
  · have hz : hourlyEchsd.slot i = Task.zero := slot_setSlot_ne _ _ h
    rw [hz] at hi
    rcases hi with hi | hi
    · cases hi
    · cases hi

/-- The second run is started while the first one goes on. -/
def overlap : List Action :=
  [.expire 0 1893499200, .invoke 0 ⟨0, 0, 0, 4242⟩, .expire 0 1893502800]

theorem maxSimul_iff_hourly :
    Along fireStep (KeepsLimit fun _ => some 1) hourlyEchsd overlap ↔
      Before fireStep (FireSound fun _ => some 1) hourlyEchsd overlap :=
  maxSimul_iff _ _ hourlyEchsd_fresh _

/-- A task whose limit is 1 is run twice at a time. -/
theorem runs_overlap : ¬ Along fireStep (KeepsLimit fun _ => some 1) hourlyEchsd
    (overlap ++ [.invoke 0 ⟨0, 0, 0, 4243⟩]) := by
  intro h
  have hend : ((run fireStep hourlyEchsd overlap).bind
      (fireStep · (.invoke 0 ⟨0, 0, 0, 4243⟩))).map (realRuns · 0) = some 2 := by
    decide
  obtain ⟨d', hd', h2⟩ := Option.map_eq_some_iff.mp hend
  obtain ⟨d, hd, hst⟩ := Option.bind_eq_some_iff.mp hd'
  have hle := (along_at overlap [] _ h hd hst).2 0 1 rfl
  omega

end Echse
