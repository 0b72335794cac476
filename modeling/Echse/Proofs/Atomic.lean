/-
Requests that fail.

`_inject_task1` looks its user up three times.  When the third time comes an update has
already freed the old task, and a new task has its slot in the table; neither is undone.
Before that a failure leaves every task as it was, even if the table has grown.
-/
import Echse.Proofs.Slots

namespace Echse

/-! ### What is seen of the table -/

/-- What the table has for an id: the task, and the state of its watcher. -/
def Echsd.entry (d : Echsd) (oid : Nat) : Option (Option EchsTask × EvPeriodic) :=
  (getTask d.pool oid).map fun i => ((d.slot i).t, (d.slot i).w)

/-- The same tasks, with their owners, streams and schedules. -/
def Untouched (d d' : Echsd) : Prop := ∀ oid, d'.entry oid = d.entry oid

/-- Tasks are found in a table of the same entries. -/
theorem getTask_retable {p p' : TaskPool} (h : TableOk p.taskHt) (h' : TableOk p'.taskHt)
    (hents : ∀ m : TMap, m.oid ≠ 0 →
      ((∃ j, htAt p'.taskHt j = m) ↔ ∃ i, htAt p.taskHt i = m)) (oid : Nat) :
    getTask p' oid = getTask p oid := by
  refine Option.ext fun i => ?_
  rw [getTask_iff_entry h', getTask_iff_entry h]
  exact and_congr_right fun h0 => hents ⟨oid, some i⟩ h0

/-- What is found depends on one place of the table. -/
theorem getTask_congr {p p' : TaskPool} (hlen : p'.taskHt.length = p.taskHt.length) {oid : Nat}
    (h : htAt p'.taskHt (htSlot p.taskHt.length oid) =
      htAt p.taskHt (htSlot p.taskHt.length oid)) : getTask p' oid = getTask p oid := by
  unfold getTask getTaskSlot
  dsimp only
  rw [hlen, h]
  split
  · rfl
  · next hs =>
      split at hs
      · obtain rfl := Option.some.inj hs
        rw [h]
      · exact nomatch hs

/-- An empty place has no task, and neither has one where another id is. -/
theorem getTask_eq_none {p : TaskPool} {oid : Nat}
    (h : (htAt p.taskHt (htSlot p.taskHt.length oid)).oid = 0 ∨
      (htAt p.taskHt (htSlot p.taskHt.length oid)).oid ≠ oid) : getTask p oid = none := by
  unfold getTask getTaskSlot
  dsimp only
  split
  · rfl
  · next hs =>
      split at hs
      · next hc =>
          obtain rfl := Option.some.inj hs
          rcases h with h | h
          · rw [if_pos h]
          · exact absurd hc.2 h
      · exact nomatch hs

/-- Where the entry of an id is put, others are found as before. -/
theorem getTask_put {p p' : TaskPool} (h : TableOk p.taskHt) {oid o res : Nat} (ho : o ≠ oid)
    (hempty : htAt p.taskHt (htSlot p.taskHt.length oid) = .empty)
    (hp' : p'.taskHt = p.taskHt.set (htSlot p.taskHt.length oid) ⟨oid, some res⟩) :
    getTask p' o = getTask p o := by
  have hlt := h.slot_lt oid
  have hlen : p'.taskHt.length = p.taskHt.length := by rw [hp', List.length_set]
  by_cases hs : htSlot p.taskHt.length o = htSlot p.taskHt.length oid
  · have hnew : getTask p' o = none := by
      refine getTask_eq_none (Or.inr ?_)
      rw [hlen, hs, hp', htAt_set _ hlt, if_pos rfl]
      exact ho.symm
    have hold : getTask p o = none := by
      refine getTask_eq_none (Or.inl ?_)
      rw [hs, hempty]
      rfl
    rw [hnew, hold]
  · refine getTask_congr hlen ?_
    rw [hp', htAt_set _ hlt, if_neg hs]

/-! ### What `make_task` does to the other tasks -/

theorem putTaskSlot_entries {mem : Nat → Bool} {p : TaskPool} {fl : List Nat} (h : PoolOk p fl)
    {oid : Nat} (hlt : oid < 2 ^ 64) (hg : getTask p oid = none) {ht : List TMap} {slot : Nat}
    (hp : putTaskSlot mem p.taskHt oid = some (ht, slot)) :
    TableOk ht ∧ slot = htSlot ht.length oid ∧ htAt ht slot = .empty ∧
      ∀ m : TMap, m.oid ≠ 0 → ((∃ j, htAt ht j = m) ↔ ∃ i, htAt p.taskHt i = m) := by
  by_cases hoid : (htAt p.taskHt (htSlot p.taskHt.length oid)).oid = oid
  · have h0 : oid = 0 := by
      by_contra hc
      exact h.getTask_none hc hg hoid
    unfold putTaskSlot at hp
    dsimp only at hp
    rw [if_pos (hoid.trans h0)] at hp
    obtain ⟨rfl, rfl⟩ := Prod.mk.inj (Option.some.inj hp)
    refine ⟨h.table, rfl, ?_, fun _ _ => Iff.rfl⟩
    have ht := (h.table.task _).mp (hoid.trans h0)
    generalize htAt p.taskHt (htSlot p.taskHt.length oid) = m at hoid ht ⊢
    obtain ⟨o, t⟩ := m
    obtain rfl : o = oid := hoid
    obtain rfl : t = none := ht
    rw [h0]
    rfl
  · exact putTaskSlot_spec h.table hlt hoid hp

/-- Every other task is where it was, and is what it was. -/
theorem makeTask_others {mem : Nat → Bool} {p p' : TaskPool} {fl : List Nat} (h : PoolOk p fl)
    {oid : Nat} (hlt : oid < 2 ^ 64) (hg : getTask p oid = none) {r : Option Nat}
    (hm : makeTask mem p oid = (r, p')) :
    (∀ o, o ≠ oid ∨ r = none → getTask p' o = getTask p o) ∧
      (∀ o i, getTask p o = some i → p'.slots i = p.slots i) ∧
      ∀ res, r = some res → getTask p' oid = if oid = 0 then none else some res := by
  unfold makeTask at hm
  cases hp : putTaskSlot mem p.taskHt oid with
  | none =>
      rw [hp] at hm
      obtain ⟨rfl, rfl⟩ := Prod.mk.inj hm
      exact ⟨fun _ _ => rfl, fun _ _ _ => rfl, fun _ hc => nomatch hc⟩
  | some q =>
      obtain ⟨ht, slot⟩ := q
      rw [hp] at hm
      dsimp only at hm
      obtain ⟨hok, rfl, hempty, hents⟩ := putTaskSlot_entries h hlt hg hp
      obtain ⟨h1, hin1⟩ := h.retable hok hents
      have hfound (q : TaskPool) (hq : q.taskHt = ht) (o : Nat) : getTask q o = getTask p o :=
        getTask_retable h.table (by rw [hq]; exact hok) (by rw [hq]; exact hents) o
      cases hr : refillPool mem { p with taskHt := ht } with
      | none =>
          rw [hr] at hm
          obtain ⟨rfl, rfl⟩ := Prod.mk.inj hm
          exact ⟨fun o _ => hfound _ rfl o, fun _ _ _ => rfl, fun _ hc => nomatch hc⟩
      | some p2 =>
          rw [hr] at hm
          dsimp only at hm
          obtain ⟨res, rest, h2, hf, hht, hslots⟩ := h1.refilled hr
          rw [hf] at hm
          dsimp only at hm
          obtain ⟨rfl, rfl⟩ := Prod.mk.inj hm
          have hht' : p2.taskHt = ht := hht
          have hempty' : htAt p2.taskHt (htSlot p2.taskHt.length oid) = .empty := by
            rw [hht']
            exact hempty
          refine ⟨fun o ho => ?_, fun o i hi => ?_, fun res' hres => ?_⟩
          · have hne : o ≠ oid := ho.resolve_right (Option.some_ne_none res)
            rw [← hfound p2 hht' o]
            exact getTask_put h2.table hne hempty' (by rw [hht'])
          · -- a slot in the table is not on the free list
            have hin : InTable p i := (h.getTask_some hi).1
            have hin2 : InTable p2 i := by
              unfold InTable
              rw [hht']
              exact (hin1 i).mpr hin
            have hne : i ≠ res := by
              rintro rfl
              exact (h2.free i List.mem_cons_self).2 hin2
            refine (Function.update_of_ne hne ..).trans ?_
            rcases hslots i with hs | ⟨hs, -⟩
            · exact hs
            · exact absurd ((hin1 i).mpr hin) hs
          · obtain rfl := Option.some.inj hres
            have hlt' : htSlot ht.length oid < ht.length := hok.slot_lt oid
            by_cases h0 : oid = 0
            · rw [if_pos h0]
              refine getTask_eq_none (Or.inl ?_)
              dsimp only
              rw [List.length_set, hht', htAt_set _ hlt', if_pos rfl, h0]
            · rw [if_neg h0]
              have hins := h2.table.insert res h0 hlt
              rw [hht'] at hins
              refine (getTask_iff (by rw [hht']; exact hins)).mpr ⟨h0, ?_⟩
              dsimp only
              rw [List.length_set, hht', htAt_set _ hlt', if_pos rfl]

/-! ### Requests -/

/-- The user a task is to run as is still known when the task is put into its slot.  This
does not matter to requests that are turned down before: by the users given, for want of a
stream, for the owner of a task that has the id already, or for want of memory; nor to an
id of 0, which no task is found by. -/
def UserStays (c : Ctx) (d : Echsd) (t : EchsTask) (u : Nat) : Prop :=
  t.oid ≠ 0 → ∀ o, runAs c t u = some o → t.strm ≠ none →
    (∀ res, getTask d.pool t.oid = some res → OwnedBy (d.slot res) o) →
      taskSlot c d t.oid ≠ none → (complUid (c.pw 2) o).u ≠ notAUid

theorem untouched_of_found {d : Echsd} {pool : TaskPool}
    (hg : ∀ oid, getTask pool oid = getTask d.pool oid)
    (hs : ∀ oid i, getTask d.pool oid = some i → pool.slots i = d.pool.slots i) :
    Untouched d { d with pool := pool } := by
  intro oid
  unfold Echsd.entry Echsd.slot
  dsimp only
  rw [hg]
  cases hi : getTask d.pool oid with
  | none => rfl
  | some i => rw [Option.map_some, Option.map_some, hs oid i hi]

/-- A task that is freed is missed. -/
theorem not_untouched_of_freed {d : Echsd} {oid res u : Nat} {s : Task}
    (hg : getTask d.pool oid = some res) (ho : OwnedBy (d.slot res) u) (hs : s.t = none) :
    ¬ Untouched d (d.setSlot res s) := by
  intro h
  obtain ⟨x, hx, -⟩ := ho
  have hentry := h oid
  unfold Echsd.entry at hentry
  rw [show getTask (d.setSlot res s).pool oid = some res from hg, hg, Option.map_some,
    Option.map_some, slot_setSlot, hs, hx] at hentry
  exact nomatch (Prod.mk.inj (Option.some.inj hentry)).1

/-- A slot without a task is seen. -/
theorem not_untouched_of_made {d : Echsd} {pool : TaskPool} {oid res : Nat}
    (hg : getTask d.pool oid = none) (hg' : getTask pool oid = some res) :
    ¬ Untouched d { d with pool := pool } := by
  intro h
  have hentry := h oid
  unfold Echsd.entry at hentry
  rw [show getTask ({ d with pool := pool } : Echsd).pool oid = some res from hg', hg] at hentry
  exact nomatch hentry

/-- **A request that fails leaves the tasks as they were** if and only if its user does not
vanish halfway. -/
theorem injectTask1_atomic_iff (c : Ctx) (d : Echsd) (t : EchsTask) (u : Nat)
    (hd : ∃ fl, PoolOk d.pool fl) (hlt : t.oid < 2 ^ 64) :
    ((injectTask1 c d t u).1 = -1 → Untouched d (injectTask1 c d t u).2) ↔ UserStays c d t u := by
  obtain ⟨fl, h⟩ := hd
  rw [injectTask1_eq]
  cases hr : runAs c t u with
  | none => exact iff_of_true (fun _ _ => rfl) fun _ o ho => by rw [hr] at ho; exact nomatch ho
  | some o =>
      have hsame : ((-1 : Int), d).1 = -1 → Untouched d ((-1 : Int), d).2 := fun _ _ => rfl
      dsimp only
      unfold injectFor
      by_cases hst : t.strm = none
      · rw [hst]
        exact iff_of_true hsame fun _ _ _ hne => absurd hst hne
      rw [if_neg (by simpa using hst)]
      cases hg : getTask d.pool t.oid with
      | some res =>
          have h0 : t.oid ≠ 0 := ((getTask_iff h.table).mp hg).1
          have hslot : taskSlot c d t.oid ≠ none := by simp [taskSlot, hg]
          dsimp only
          by_cases ho : OwnedBy (d.slot res) o
          · have hown : ∀ res', getTask d.pool t.oid = some res' → OwnedBy (d.slot res') o := by
              intro res' hg'
              obtain rfl := Option.some.inj (hg.symm.trans hg')
              exact ho
            rw [if_pos (ownedByP_iff.mpr ho)]
            rcases installTask_spec c (d.setSlot res { evPeriodicStop (d.slot res) with t := none })
              res t o with ⟨hn, hi⟩ | ⟨hu, hne, hi, -⟩
            · rw [hi]
              exact iff_of_false (fun hc => not_untouched_of_freed hg ho rfl (hc rfl))
                fun hc => hc h0 o hr hst hown hslot hn
            · rw [hi]
              refine iff_of_true (fun hc => absurd hc (by decide)) fun _ o' ho' _ _ _ => ?_
              obtain rfl := Option.some.inj (hr.symm.trans ho')
              rw [hu]
              exact hne
          · rw [if_neg fun hc => ho (ownedByP_iff.mp hc)]
            refine iff_of_true hsame fun _ o' ho' _ hown _ => ?_
            obtain rfl := Option.some.inj (hr.symm.trans ho')
            exact absurd (hown res hg) ho
      | none =>
          dsimp only
          have hslot : taskSlot c d t.oid = (makeTask c.mem d.pool t.oid).1 := by
            unfold taskSlot
            rw [hg]
          cases hm : makeTask c.mem d.pool t.oid with
          | mk r pool =>
              rw [hm] at hslot
              obtain ⟨hfound, hslots, hnew⟩ := makeTask_others h hlt hg hm
              cases r with
              | none =>
                  exact iff_of_true
                    (fun _ => untouched_of_found (fun o => hfound o (Or.inr rfl)) hslots)
                    fun _ _ _ _ _ hc => absurd hslot hc
              | some res =>
                  have hnone : ∀ res', getTask d.pool t.oid = some res' →
                      OwnedBy (d.slot res') o := fun res' hg' => nomatch hg.symm.trans hg'
                  dsimp only
                  rcases installTask_spec c { d with pool := pool } res t o with
                    ⟨hn, hi⟩ | ⟨hu, hne, hi, -⟩
                  · rw [hi]
                    have hnew := hnew res rfl
                    by_cases h0 : t.oid = 0
                    · rw [if_pos h0, ← hg] at hnew
                      refine iff_of_true (fun _ => untouched_of_found (fun o => ?_) hslots)
                        fun hc => absurd h0 hc
                      by_cases hoo : o = t.oid
                      · rw [hoo, hnew]
                      · exact hfound o (Or.inl hoo)
                    · rw [if_neg h0] at hnew
                      exact iff_of_false (fun hc => not_untouched_of_made hg hnew (hc rfl))
                        fun hc => hc h0 o hr hst hnone (by rw [hslot]; exact Option.some_ne_none _) hn
                  · rw [hi]
                    refine iff_of_true (fun hc => absurd hc (by decide)) fun _ o' ho' _ _ _ => ?_
                    obtain rfl := Option.some.inj (hr.symm.trans ho')
                    rw [hu]
                    exact hne

/-- There is no memory for a first pool of slots. -/
theorem injectTask1_atomic_nomem :
    Untouched .ini (injectTask1 { rootCtx with mem := fun _ => false } .ini aliceTask 1000).2 := by
  have hnone : taskSlot { rootCtx with mem := fun _ => false } .ini aliceTask.oid = none := by
    decide
  have hfail : (injectTask1 { rootCtx with mem := fun _ => false } .ini aliceTask 1000).1 = -1 := by
    decide
  exact (injectTask1_atomic_iff _ .ini aliceTask 1000 ⟨[], poolOk_ini⟩ (by decide)).mpr
    (fun _ _ _ _ _ hslot => absurd hnone hslot) hfail

/-- Alice is taken out of the passwd database while her first task is being scheduled. -/
theorem injectTask1_leaves_slot :
    ¬ ∀ (c : Ctx) (d : Echsd) (t : EchsTask) (u : Nat), (∃ fl, PoolOk d.pool fl) →
      (injectTask1 c d t u).1 = -1 → Untouched d (injectTask1 c d t u).2 := by
  intro h
  let c : Ctx := { rootCtx with pw := fun n => if n < 2 then rootCtx.pw n else [] }
  have hentry := h c .ini aliceTask 1000 ⟨[], poolOk_ini⟩ (by decide) 7
  have hold : getTask Echsd.ini.pool 7 = none := by decide
  have hnew : getTask (injectTask1 c .ini aliceTask 1000).2.pool 7 = some 0 := by decide
  unfold Echsd.entry at hentry
  rw [hold, hnew] at hentry
  exact nomatch hentry

end Echse
