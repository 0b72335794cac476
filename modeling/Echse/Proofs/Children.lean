/-
The children of the daemon: which runs are waited for, and what the callback of a task
does about them.
-/
import Echse.Proofs.Watchers

namespace Echse

/-! ### Counting -/

/-- Children that are waited for on behalf of slot `i`. -/
def watchedRuns (d : Echsd) (i : Nat) : Nat :=
  d.chlds.countP fun (c : Chld) => c.task == i && c.watched

theorem countP_eraseIdx {α : Type*} (p : α → Bool) {l : List α} {k : Nat} {c : α}
    (h : l[k]? = some c) : l.countP p = (l.eraseIdx k).countP p + if p c then 1 else 0 := by
  obtain ⟨hk, rfl⟩ := List.getElem?_eq_some_iff.mp h
  rw [← (List.getElem_cons_eraseIdx_perm hk).countP_eq p, List.countP_cons]

theorem watchedRuns_reap {d : Echsd} {k : Nat} {c : Chld} (hk : d.chlds[k]? = some c)
    (hw : c.watched = true) (j : Nat) :
    watchedRuns d j = watchedRuns (d.reap k) j + if c.task = j then 1 else 0 := by
  unfold watchedRuns
  rw [countP_eraseIdx _ hk, hw]
  simp [Echsd.reap]

/-- A child that is not waited for does not count. -/
theorem watchedRuns_reap_of_not {d : Echsd} {k : Nat} {c : Chld} (hk : d.chlds[k]? = some c)
    (hw : ¬ c.watched = true) (j : Nat) : watchedRuns d j = watchedRuns (d.reap k) j := by
  unfold watchedRuns
  rw [countP_eraseIdx _ hk, if_neg (by simp [hw])]
  rfl

/-! ### Fires -/

/-- A process comes of it. -/
def Spawn.Starts (sys : Spawn) : Prop := ¬ sys.pipe < 0 ∧ ¬ sys.init < 0 ∧ sys.spawn = 0

instance (sys : Spawn) : Decidable sys.Starts := inferInstanceAs (Decidable (_ ∧ _ ∧ _))

/-- A run of the task in this slot is waited for: it is below the number it is compared
with, and `run_task` returns a pid. -/
def Supervises (t : Task) (sys : Spawn) : Prop :=
  t.nsim < u32OfInt ((t.maxSimul : Int) - 1) ∧
    ¬ sys.pipe < 0 ∧ ¬ sys.init < 0 ∧ ¬ sys.spawn < 0 ∧ 0 < sys.pid

instance (t : Task) (sys : Spawn) : Decidable (Supervises t sys) :=
  inferInstanceAs (Decidable (_ ∧ _))

theorem runTask_started (nd : Bool) (t : Task) (sys : Spawn) :
    (runTask nd t sys).started = decide sys.Starts := by
  unfold runTask Spawn.Starts
  by_cases hp : sys.pipe < 0
  · simp [hp]
  · by_cases hi : sys.init < 0
    · simp [hp, hi]
    · simp [hp, hi]

theorem runTask_nd {nd : Bool} {t : Task} {sys : Spawn} (h : sys.Starts) :
    (runTask nd t sys).nd = (nd || !decide (t.nsim < t.maxSimul)) := by
  unfold runTask
  rw [if_neg h.1, if_neg h.2.1]

theorem supervises_iff (nd : Bool) (t : Task) (sys : Spawn) :
    Supervises t sys ↔
      t.nsim < u32OfInt ((t.maxSimul : Int) - 1) ∧ 0 < (runTask nd t sys).r := by
  refine and_congr_right fun _ => ?_
  unfold runTask
  by_cases hp : sys.pipe < 0
  · simp [hp]
  · by_cases hi : sys.init < 0
    · simp [hp, hi]
    · by_cases hs : sys.spawn < 0
      · simp [hp, hi, hs]
      · simp [hp, hi, hs]

/-- The two ways a fire can end: the run is counted and waited for, or it is not. -/
theorem taskCb_cases (d : Echsd) (i : Nat) (sys : Spawn) :
    (Supervises (d.slot i) sys ∧ (taskCb d i sys).pool =
        d.pool.set i { d.slot i with nsim := (d.slot i).nsim + 1 } ∧
      (taskCb d i sys).chlds =
        ⟨i, !(runTask d.nd (d.slot i) sys).nd, true, decide sys.Starts⟩ :: d.chlds) ∨
    (¬ Supervises (d.slot i) sys ∧ (taskCb d i sys).pool = d.pool ∧
      (taskCb d i sys).chlds = (if sys.Starts then
        [⟨i, !(runTask d.nd (d.slot i) sys).nd, false, true⟩] else []) ++ d.chlds) := by
  have hsup := supervises_iff d.nd (d.slot i) sys
  have hst := runTask_started d.nd (d.slot i) sys
  unfold taskCb
  dsimp only
  rw [hst]
  by_cases hc : Supervises (d.slot i) sys
  · rw [if_pos (hsup.mp hc)]
    have hlt := u32OfInt_lt (((d.slot i).maxSimul : Int) - 1)
    have hn : ((d.slot i).nsim + 1) % 2 ^ 64 = (d.slot i).nsim + 1 := by
      have := hc.1
      omega
    rw [hn]
    exact Or.inl ⟨hc, rfl, rfl⟩
  · rw [if_neg fun h => hc (hsup.mpr h)]
    refine Or.inr ⟨hc, rfl, ?_⟩
    by_cases hs : sys.Starts
    · rw [if_pos hs, decide_eq_true hs]
      rfl
    · rw [if_neg hs, decide_eq_false hs]
      rfl

/-- A fire leaves the other slots alone. -/
theorem taskCb_slot_ne (d : Echsd) (sys : Spawn) {i j : Nat} (h : j ≠ i) :
    (taskCb d i sys).slot j = d.slot j := by
  unfold Echsd.slot
  rcases taskCb_cases d i sys with ⟨-, hp, -⟩ | ⟨-, hp, -⟩
  · rw [hp]
    exact Function.update_of_ne h ..
  · rw [hp]

theorem watchedRuns_taskCb_ne (d : Echsd) (sys : Spawn) {i j : Nat} (h : j ≠ i) :
    watchedRuns (taskCb d i sys) j = watchedRuns d j := by
  have hij : (i == j) = false := beq_false_of_ne (Ne.symm h)
  unfold watchedRuns
  rcases taskCb_cases d i sys with ⟨-, -, hch⟩ | ⟨-, -, hch⟩
  · rw [hch, List.countP_cons, hij]
    rfl
  · rw [hch, List.countP_append]
    split
    · rw [List.countP_singleton, hij]
      exact Nat.zero_add _
    · exact Nat.zero_add _

/-- The slot itself counts a run if and only if that is waited for. -/
theorem taskCb_counts (d : Echsd) (i : Nat) (sys : Spawn) :
    (Supervises (d.slot i) sys ∧ watchedRuns (taskCb d i sys) i = watchedRuns d i + 1 ∧
      (taskCb d i sys).slot i = { d.slot i with nsim := (d.slot i).nsim + 1 }) ∨
    (¬ Supervises (d.slot i) sys ∧ watchedRuns (taskCb d i sys) i = watchedRuns d i ∧
      (taskCb d i sys).slot i = d.slot i) := by
  unfold watchedRuns Echsd.slot
  rcases taskCb_cases d i sys with ⟨hs, hp, hch⟩ | ⟨hs, hp, hch⟩
  · refine Or.inl ⟨hs, ?_, ?_⟩
    · rw [hch, List.countP_cons]
      simp
    · rw [hp]
      exact Function.update_self ..
  · refine Or.inr ⟨hs, ?_, ?_⟩
    · rw [hch, List.countP_append]
      split <;> simp
    · rw [hp]

end Echse
