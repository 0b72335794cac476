/-
Who may do what to a task.

The peer's uid is looked up before it is used, and a peer without an entry in the passwd
database comes out as `NOT_A_UID`, which stands for a request that has no peer.  Then
the owner given in the task is taken for it.  So a request is authorised if the peer is
known, or if something else refuses it.
-/
import Echse.Proofs.Watchers
import Echse.Lib.Runs

namespace Echse

open Runs

/-! ### Looking up users -/

theorem complUid_cases (pw : PasswdDb) (u : Nat) :
    (complUid pw u).u = notAUid ∨ (complUid pw u).u = u := by
  unfold complUid
  by_cases h : u = notAUid
  · rw [if_pos h]
    exact Or.inl rfl
  · rw [if_neg h]
    cases hg : getpwuid pw u with
    | none => exact Or.inl rfl
    | some p =>
        unfold getpwuid at hg
        have hp : p.uid = u := by simpa using List.find?_some hg
        exact Or.inr hp

theorem complUser_lt (pw : PasswdDb) (s : String) : (complUser pw s).u < 2 ^ 32 := by
  unfold complUser
  cases getpwnam pw s with
  | none => decide
  | some p => exact p.fits

theorem complUid_lt (pw : PasswdDb) (u : Nat) : (complUid pw u).u < 2 ^ 32 := by
  unfold complUid
  split
  · decide
  · split
    · rename_i p _
      exact p.fits
    · decide

theorem complOwner_lt (pw : PasswdDb) (o : NumMapStr) : (complOwner pw o).u < 2 ^ 32 := by
  unfold complOwner
  split
  · exact complUser_lt pw _
  · split
    · exact complUid_lt pw _
    · decide

/-- The owner that is set for a uid is that uid. -/
theorem owner_bangNum (t : EchsTask) {u : Nat} (h : u < 2 ^ 32) :
    echsTaskOwner { t with owner := nummapstrBangNum u } = u := by
  show uidT (u % 2 ^ 63) = u
  unfold uidT
  omega

/-! ### One instruction -/

/-- The slot a task goes to. -/
def taskSlot (c : Ctx) (d : Echsd) (oid : Nat) : Option Nat :=
  match getTask d.pool oid with
  | some res => some res
  | none => (makeTask c.mem d.pool oid).1

/-- The task in a slot is `t`, owned by `u` and run with the credentials of `u`. -/
def RunsFor (c : Ctx) (s : Task) (t : EchsTask) (u : Nat) : Prop :=
  ∃ x, s.t = some x ∧ x.oid = t.oid ∧ echsTaskOwner x = u ∧
    (vtodRunAs s).u = u ∧ (vtodRunAs s).g = (complUid (c.pw 2) u).g

/-- The task in a slot is owned by `u`. -/
def OwnedBy (s : Task) (u : Nat) : Prop := ∃ x, s.t = some x ∧ echsTaskOwner x = u

/-- What an instruction may do for a peer `u`: a task it inserts or replaces is owned by
`u` and runs for `u`, and a task it updates or cancels is one owned by `u`. -/
def Authorised (d : Echsd) (a : Ctx × Nat × Instruc) : Prop :=
  match a with
  | (c, u, .sche t) => (injectTask1 c d t u).1 = 0 →
      (∃ res, taskSlot c d t.oid = some res ∧
        RunsFor c ((injectTask1 c d t u).2.slot res) t u) ∧
      ∀ res, getTask d.pool t.oid = some res → OwnedBy (d.slot res) u
  | (_, u, .unsc oid) => (ejectTask1 d oid u).1 = 0 →
      ∃ res, getTask d.pool oid = some res ∧ OwnedBy (d.slot res) u

theorem ownedByP_iff {s : Task} {u : Nat} :
    (s.t.map (echsTaskOwnedByP · u)).getD false = true ↔ OwnedBy s u := by
  unfold OwnedBy
  cases s.t with
  | none => simp
  | some x => simp [echsTaskOwnedByP]

/-- Putting a task into a slot for a uid. -/
theorem installTask_spec (c : Ctx) (d : Echsd) (res : Nat) (t : EchsTask) (u : Nat) :
    ((complUid (c.pw 2) u).u = notAUid ∧ installTask c d res t u = (-1, d)) ∨
      ((complUid (c.pw 2) u).u = u ∧ u ≠ notAUid ∧ (installTask c d res t u).1 = 0 ∧
        RunsFor c ((installTask c d res t u).2.slot res) t u) := by
  by_cases hn : (complUid (c.pw 2) u).u = notAUid
  · refine Or.inl ⟨hn, ?_⟩
    unfold installTask
    dsimp only
    rw [if_pos hn]
  · have hu : (complUid (c.pw 2) u).u = u := (complUid_cases _ _).resolve_left hn
    refine Or.inr ⟨hu, fun h => hn (hu.trans h), ?_⟩
    have hlt : u < 2 ^ 32 := hu ▸ complUid_lt (c.pw 2) u
    unfold installTask
    dsimp only
    rw [if_neg hn]
    refine ⟨rfl, ?_⟩
    show RunsFor c ((d.setSlot res _).slot res) t u
    rw [slot_setSlot]
    generalize hs : ({ d.slot res with
      t := some { t with owner := nummapstrBangNum (complUid (c.pw 2) u).u }
      dfltCred := complUid (c.pw 2) u } : Task) = s
    have hsame := (evPeriodicStart_same (evPeriodicInit s) c.now).trans (evPeriodicInit_same s)
    obtain ⟨x, hx, hid⟩ := hsame.exists_task (x := { t with owner := nummapstrBangNum u })
      (by rw [← hs, hu])
    have hcred : (evPeriodicStart (evPeriodicInit s) c.now).dfltCred = complUid (c.pw 2) u := by
      rw [hsame.cred, ← hs]
    refine ⟨x, hx, ?_, ?_, ?_, ?_⟩
    · have hoid := EchsTask.ident_oid hid
      exact hoid
    · rw [EchsTask.ident_owner hid, owner_bangNum t hlt]
    · show (evPeriodicStart (evPeriodicInit s) c.now).dfltCred.u = u
      rw [hcred, hu]
    · show (evPeriodicStart (evPeriodicInit s) c.now).dfltCred.g = _
      rw [hcred]

/-- The reasons other than the owner for which a request of `u` is refused, where `o` is
the uid that its task would be run as. -/
def Refused (c : Ctx) (d : Echsd) (t : EchsTask) (o : Nat) : Prop :=
  t.strm = none ∨
    (∃ res, getTask d.pool t.oid = some res ∧ ¬ OwnedBy (d.slot res) o) ∨
    taskSlot c d t.oid = none ∨ (complUid (c.pw 2) o).u = notAUid

/-- What `_inject_task1` does once it knows whom the task is run as. -/
def injectFor (c : Ctx) (d : Echsd) (t : EchsTask) (o : Nat) : Int × Echsd :=
  if t.strm.isNone then (-1, d)
  else
    match getTask d.pool t.oid with
    | some res =>
        if ((d.slot res).t.map (echsTaskOwnedByP · o)).getD false then
          installTask c (d.setSlot res { evPeriodicStop (d.slot res) with t := none }) res t o
        else (-1, d)
    | none =>
        match makeTask c.mem d.pool t.oid with
        | (none, pool) => (-1, { d with pool := pool })
        | (some res, pool) => installTask c { d with pool := pool } res t o

/-- It succeeds unless it refuses, and then the task runs for that user. -/
theorem injectFor_spec (c : Ctx) (d : Echsd) (t : EchsTask) (o : Nat) :
    (Refused c d t o ∧ (injectFor c d t o).1 = -1) ∨
      (¬ Refused c d t o ∧ (injectFor c d t o).1 = 0 ∧
        ∃ res, taskSlot c d t.oid = some res ∧ RunsFor c ((injectFor c d t o).2.slot res) t o) := by
  unfold injectFor
  by_cases hs : t.strm = none
  · refine Or.inl ⟨Or.inl hs, ?_⟩
    rw [hs]
    rfl
  have hsome : ¬ t.strm.isNone = true := by simpa using hs
  rw [if_neg hsome]
  cases hg : getTask d.pool t.oid with
  | some res =>
      have hslot : taskSlot c d t.oid = some res := by
        unfold taskSlot
        rw [hg]
      dsimp only
      by_cases ho : OwnedBy (d.slot res) o
      · rw [if_pos (ownedByP_iff.mpr ho)]
        rcases installTask_spec c (d.setSlot res { evPeriodicStop (d.slot res) with t := none })
          res t o with ⟨hn, hi⟩ | ⟨hu, hne, hi, hr⟩
        · exact Or.inl ⟨Or.inr (Or.inr (Or.inr hn)), by rw [hi]⟩
        · refine Or.inr ⟨?_, hi, res, hslot, hr⟩
          rintro (h | ⟨res', hg', hno⟩ | h | h)
          · exact hs h
          · rw [hg] at hg'
            obtain rfl := Option.some.inj hg'
            exact hno ho
          · rw [hslot] at h
            cases h
          · exact hne (hu.symm.trans h)
      · rw [if_neg (fun h => ho (ownedByP_iff.mp h))]
        exact Or.inl ⟨Or.inr (Or.inl ⟨res, hg, ho⟩), rfl⟩
  | none =>
      have hslot : taskSlot c d t.oid = (makeTask c.mem d.pool t.oid).1 := by
        unfold taskSlot
        rw [hg]
      dsimp only
      cases hm : makeTask c.mem d.pool t.oid with
      | mk r pool =>
          rw [hm] at hslot
          cases r with
          | none => exact Or.inl ⟨Or.inr (Or.inr (Or.inl hslot)), rfl⟩
          | some res =>
              dsimp only
              rcases installTask_spec c { d with pool := pool } res t o with
                ⟨hn, hi⟩ | ⟨hu, hne, hi, hr⟩
              · exact Or.inl ⟨Or.inr (Or.inr (Or.inr hn)), by rw [hi]⟩
              · refine Or.inr ⟨?_, hi, res, hslot, hr⟩
                rintro (h | ⟨res', hg', -⟩ | h | h)
                · exact hs h
                · rw [hg] at hg'
                  cases hg'
                · rw [hslot] at h
                  cases h
                · exact hne (hu.symm.trans h)

/-- **`_inject_task1` by whom the task would be run as**: the peer if he is known, else
the owner given, if `echsd` is root or that user itself. -/
theorem injectTask1_cases (c : Ctx) (d : Echsd) (t : EchsTask) (u : Nat) :
    (((complUid (c.pw 1) u).u = u ∧ u ≠ notAUid) ∧
      (injectTask1 c d t u = (-1, d) ∨ injectTask1 c d t u = injectFor c d t u)) ∨
    ((complUid (c.pw 1) u).u = notAUid ∧
      (((complOwner (c.pw 0) t.owner).u = notAUid ∨
          (c.meself ≠ 0 ∧ (complOwner (c.pw 0) t.owner).u ≠ c.meself)) ∧
        injectTask1 c d t u = (-1, d) ∨
      ((complOwner (c.pw 0) t.owner).u ≠ notAUid ∧
          ¬ (c.meself ≠ 0 ∧ (complOwner (c.pw 0) t.owner).u ≠ c.meself)) ∧
        injectTask1 c d t u = injectFor c d t (complOwner (c.pw 0) t.owner).u)) := by
  unfold injectTask1
  dsimp only
  generalize complOwner (c.pw 0) t.owner = oc
  by_cases hu : (complUid (c.pw 1) u).u = notAUid
  · rw [hu]
    refine Or.inr ⟨rfl, ?_⟩
    by_cases ho : oc.u = notAUid
    · rw [if_pos ⟨rfl, ho⟩]
      exact Or.inl ⟨Or.inl ho, rfl⟩
    rw [if_neg (fun h => ho h.2)]
    by_cases hm : c.meself ≠ 0 ∧ oc.u ≠ c.meself
    · rw [if_pos ⟨rfl, hm⟩]
      exact Or.inl ⟨Or.inr hm, rfl⟩
    refine Or.inr ⟨⟨ho, hm⟩, ?_⟩
    rw [if_neg (fun h => hm h.2), if_neg (fun h => ho h.1), if_neg (fun h => h.1 rfl), if_neg ho,
      if_pos rfl]
    rfl
  · have huu : (complUid (c.pw 1) u).u = u := (complUid_cases _ _).resolve_left hu
    have hne : u ≠ notAUid := fun h => hu (huu.trans h)
    rw [huu]
    refine Or.inl ⟨⟨rfl, hne⟩, ?_⟩
    rw [if_neg (fun h => hne h.1), if_neg (fun h => hne h.1)]
    by_cases hm : oc.u = notAUid ∧ c.meself ≠ 0 ∧ u ≠ c.meself
    · rw [if_pos hm]
      exact Or.inl rfl
    rw [if_neg hm]
    by_cases ho : u ≠ notAUid ∧ oc.u ≠ notAUid ∧ oc.u ≠ u
    · rw [if_pos ho]
      exact Or.inl rfl
    rw [if_neg ho, if_neg hne]
    right
    by_cases hon : oc.u = notAUid
    · rw [if_pos hon]
      rfl
    · have hou : oc.u = u := by
        by_contra hc
        exact ho ⟨hne, hon, hc⟩
      rw [if_neg hon, hou]
      rfl

/-- The instructions that are safe to take from a peer: to cancel a task, and to
schedule one if the peer is known, or is refused, or is the owner the task gives. -/
def SafePeer (d : Echsd) (a : Ctx × Nat × Instruc) : Prop :=
  match a with
  | (c, u, .sche t) =>
      (complUid (c.pw 1) u).u ≠ notAUid ∨
        (complOwner (c.pw 0) t.owner).u = notAUid ∨
        (c.meself ≠ 0 ∧ (complOwner (c.pw 0) t.owner).u ≠ c.meself) ∨
        Refused c d t (complOwner (c.pw 0) t.owner).u ∨
        (complOwner (c.pw 0) t.owner).u = u
  | (_, _, .unsc _) => True

/-- **An instruction is authorised exactly if it is safe to take.** -/
theorem authorised_iff (d : Echsd) (a : Ctx × Nat × Instruc) : Authorised d a ↔ SafePeer d a := by
  obtain ⟨c, u, i⟩ := a
  cases i with
  | unsc oid =>
      refine ⟨fun _ => trivial, fun _ h0 => ?_⟩
      unfold ejectTask1 at h0
      cases hg : getTask d.pool oid with
      | none =>
          rw [hg] at h0
          cases h0
      | some res =>
          rw [hg] at h0
          dsimp only at h0
          by_cases ho : OwnedBy (d.slot res) u
          · exact ⟨res, rfl, ho⟩
          · rw [if_neg (fun h => ho (ownedByP_iff.mp h))] at h0
            cases h0
  | sche t =>
      -- where it is run for `o`, it is authorised if that is the peer
      have hfor : ∀ o, injectTask1 c d t u = injectFor c d t o →
          (Authorised d (c, u, .sche t) ↔ Refused c d t o ∨ o = u) := by
        intro o ho
        show ((injectTask1 c d t u).1 = 0 → _) ↔ _
        rw [ho]
        rcases injectFor_spec c d t o with ⟨hr, hi⟩ | ⟨hr, hi, res, hslot, hruns⟩
        · refine ⟨fun _ => Or.inl hr, fun _ h0 => ?_⟩
          rw [hi] at h0
          cases h0
        · constructor
          · intro h
            obtain ⟨⟨res', hslot', x, hx, -, hxo, -⟩, -⟩ := h hi
            obtain ⟨y, hy, -, hyo, -⟩ := hruns
            rw [hslot] at hslot'
            obtain rfl := Option.some.inj hslot'
            rw [hx] at hy
            obtain rfl := Option.some.inj hy
            exact Or.inr (hyo.symm.trans hxo)
          · rintro (h | rfl)
            · exact absurd h hr
            · refine fun _ => ⟨⟨res, hslot, hruns⟩, fun res' hg => ?_⟩
              by_contra hno
              exact hr (Or.inr (Or.inl ⟨res', hg, hno⟩))
      have hrefused : injectTask1 c d t u = (-1, d) → Authorised d (c, u, .sche t) := by
        intro h h0
        rw [h] at h0
        cases h0
      rcases injectTask1_cases c d t u with ⟨⟨hu, hne⟩, h | h⟩ | ⟨hu, ⟨ho, h⟩ | ⟨⟨ho, hm⟩, h⟩⟩
      · exact ⟨fun _ => Or.inl (fun hc => hne (hu.symm.trans hc)), fun _ => hrefused h⟩
      · exact ⟨fun _ => Or.inl (fun hc => hne (hu.symm.trans hc)),
          fun _ => (hfor u h).mpr (Or.inr rfl)⟩
      · refine ⟨fun _ => ?_, fun _ => hrefused h⟩
        rcases ho with ho | ho
        · exact Or.inr (Or.inl ho)
        · exact Or.inr (Or.inr (Or.inl ho))
      · rw [hfor _ h]
        constructor
        · rintro (hr | hr)
          · exact Or.inr (Or.inr (Or.inr (Or.inl hr)))
          · exact Or.inr (Or.inr (Or.inr (Or.inr hr)))
        · rintro (hc | hc | hc | hc | hc)
          · exact absurd hu hc
          · exact absurd hc ho
          · exact absurd hc hm
          · exact Or.inl hc
          · exact Or.inr hc

/-! ### Requests -/

/-- One instruction of a request. -/
def requestStep (d : Echsd) (a : Ctx × Nat × Instruc) : Option Echsd :=
  some (cmdInstruc a.1 d a.2.1 a.2.2).2

/-- **All instructions of all requests are authorised exactly if every one is safe to
take in the state it finds.** -/
theorem requests_authorised_iff (d : Echsd) (as : List (Ctx × Nat × Instruc)) :
    Along requestStep (fun d a _ => Authorised d a) d as ↔ Before requestStep SafePeer d as :=
  along_iff (fun _ => True) (fun _ _ _ _ _ _ => trivial)
    (fun d a _ _ _ => authorised_iff d a) as d trivial

/-- An `echsd` run by root, where 1000 is known as alice. -/
def rootCtx : Ctx where
  meself := 0
  pw := fun _ => [⟨"root", 0, 0, "/root", "/bin/sh", by decide⟩,
    ⟨"alice", 1000, 100, "/home/alice", "/bin/sh", by decide⟩]
  mem := fun _ => true
  now := 1700000000

/-- A task that names alice as its owner. -/
def aliceTask : EchsTask :=
  ⟨7, some [⟨.pack 2030 1 1 12 0 0 0, echsNulInstant, 0, 7, 0⟩], .str "alice", none, none, 63⟩

/-- A peer without a passwd entry schedules a task that runs as alice. -/
theorem stranger_runs_as_alice : ¬ Along requestStep (fun d a _ => Authorised d a) Echsd.ini
    [(rootCtx, 4242, .sche aliceTask)] := by
  intro h
  have hsafe := (authorised_iff _ _).mp (h _ rfl).1
  have hoc : (complOwner (rootCtx.pw 0) aliceTask.owner).u = 1000 := by decide
  have huc : (complUid (rootCtx.pw 1) 4242).u = notAUid := by decide
  have hnew : getTask Echsd.ini.pool aliceTask.oid = none := by decide
  have hslot : taskSlot rootCtx Echsd.ini aliceTask.oid = some 0 := by decide
  unfold SafePeer at hsafe
  dsimp only at hsafe
  rw [hoc, huc] at hsafe
  rcases hsafe with hc | hc | hc | (hc | ⟨res, hc, -⟩ | hc | hc) | hc
  · exact hc rfl
  · exact absurd hc (by decide)
  · exact hc.1 rfl
  · cases hc
  · rw [hnew] at hc
    cases hc
  · rw [hslot] at hc
    cases hc
  · revert hc
    decide
  · exact absurd hc (by decide)

end Echse
