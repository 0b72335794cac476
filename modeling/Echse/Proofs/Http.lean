/-
Whose tasks are sent.

A request names a user or none, and the peer's own uid decides.  The two uids are compared
bit by bit, so a peer may also name one whose bits include those of his own; and for root
without a name the user is neither root nor anybody.
-/
import Echse.Http
import Echse.Proofs.TaskMap
import Echse.Proofs.Credentials
import Echse.Proofs.RrulText

namespace Echse

/-! ### The text of a request -/

/-- A request of the routine `sched`, for a user or without a user part. -/
structure SchedReq where
  user : Option Nat
  params : Option (List Char)

def SchedReq.userPart (r : SchedReq) : List Char :=
  match r.user with
  | none => []
  | some v => 'u' :: '/' :: (fmtU v ++ ['/'])

def SchedReq.paramPart (r : SchedReq) : List Char :=
  match r.params with
  | none => []
  | some p => '?' :: p

def SchedReq.text (r : SchedReq) : List Char :=
  "GET /".toList ++ (r.userPart ++ "sched".toList ++ r.paramPart) ++ htVers

/-- A uid has 32 bits, and there are no blanks in a parameter. -/
structure SchedReq.Ok (r : SchedReq) : Prop where
  user : ∀ v, r.user = some v → v < 2 ^ 32
  params : ∀ p, r.params = some p → ' ' ∉ p

theorem xmemmem_vers {pre : List Char} (h : ' ' ∉ pre) (rest : List Char) :
    xmemmem htVers (pre ++ (htVers ++ rest)) = some (htVers ++ rest) := by
  induction pre with
  | nil =>
      have hp : htVers.isPrefixOf (htVers ++ rest) = true :=
        List.isPrefixOf_iff_prefix.mpr (List.prefix_append ..)
      have hc : htVers ++ rest = ' ' :: ("HTTP/1.1\r\n".toList ++ rest) := rfl
      rw [List.nil_append, hc, xmemmem, ← hc, if_pos hp]
  | cons c pre ih =>
      rw [List.mem_cons, not_or] at h
      have hp : ¬htVers.isPrefixOf (c :: (pre ++ (htVers ++ rest))) = true := by
        have hv : htVers = ' ' :: "HTTP/1.1\r\n".toList := rfl
        rw [hv, List.isPrefixOf_cons_cons]
        simp [h.1]
      rw [List.cons_append, xmemmem, if_neg hp, ih h.2]

theorem SchedReq.Ok.blank {r : SchedReq} (h : r.Ok) :
    ' ' ∉ r.userPart ++ "sched".toList ++ r.paramPart := by
  rw [List.mem_append, List.mem_append, not_or, not_or]
  refine ⟨⟨?_, by decide⟩, ?_⟩
  · unfold SchedReq.userPart
    cases r.user with
    | none => exact List.not_mem_nil
    | some v =>
        have hd : ' ' ∉ fmtU v := fun hc => absurd (isDigit_of_mem_fmtU hc) (by decide)
        simp [hd]
  · unfold SchedReq.paramPart
    cases hp : r.params with
    | none => exact List.not_mem_nil
    | some p => simpa using h.params p hp

/-- The user part is read off. -/
theorem SchedReq.Ok.httpUserPart {r : SchedReq} (h : r.Ok) (s : List Char) :
    httpUserPart (r.userPart ++ ("sched".toList ++ s)) =
      some (r.user.getD notAUid, "sched".toList ++ s) := by
  unfold Echse.httpUserPart SchedReq.userPart
  cases hv : r.user with
  | none => rfl
  | some v =>
      have hstop : Stops ('/' :: ("sched".toList ++ s)) := stops_cons _ (by decide)
      have hv64 := h.user v hv
      have hx := strtoul_fmtU (n := v) (by omega) hstop
      dsimp only
      rw [if_pos (by simp)]
      have hdrop : ('u' :: '/' :: (fmtU v ++ ['/']) ++ ("sched".toList ++ s)).drop 2 =
          fmtU v ++ '/' :: ("sched".toList ++ s) := by simp
      rw [hdrop, hx, if_neg (by simp)]
      simp only [uidT, Nat.mod_eq_of_lt hv64, List.tail_cons, Option.getD_some]

/-- **A request is understood.** -/
theorem cmdHttpP_text {r : SchedReq} (h : r.Ok) (rest : List Char) :
    cmdHttpP (r.text ++ rest) = some ⟨.sched, r.user.getD notAUid, r.params⟩ := by
  have hbuf : (r.text ++ rest).drop 5 =
      r.userPart ++ ("sched".toList ++ (r.paramPart ++ (htVers ++ rest))) := by
    simp [SchedReq.text]
  have hvers : xmemmem htVers (r.userPart ++ ("sched".toList ++ (r.paramPart ++ (htVers ++ rest))))
      = some (htVers ++ rest) := by
    have hx := xmemmem_vers h.blank rest
    rw [← hx]
    simp
  have hrou (s : List Char) : httpRoutine ("sched".toList ++ s) = (.sched, s) := by
    unfold httpRoutine
    simp
  rw [cmdHttpP, if_pos (by simp [SchedReq.text])]
  dsimp only
  rw [hbuf, hvers]
  dsimp only
  rw [h.httpUserPart]
  dsimp only
  rw [hrou]
  dsimp only
  unfold SchedReq.paramPart
  cases hp : r.params with
  | none =>
      have hhead : (htVers ++ rest).head? = some ' ' := rfl
      rw [List.nil_append, hhead, if_neg (by decide)]
  | some p => simp

/-! ### The tasks asked for -/

/-- The `tuid` parameters. -/
def SchedReq.tuids (p : List Char) : List (List Char) :=
  (p.splitOn '&').filterMap fun par =>
    if "tuid=".toList.isPrefixOf par then some (par.drop 5) else none

section

variable (obint : List Char → UInt32) (obintName : Nat → List Char)

/-- The ids asked for and the names they go by: those of the parameters in their order, or
without any those of all tasks. -/
def SchedReq.Asks (p : TaskPool) (r : SchedReq) (ids : List (Nat × List Char)) : Prop :=
  match r.params with
  | some (x :: xs) => ids = (SchedReq.tuids (x :: xs)).map fun tuid => ((obint tuid).toNat, tuid)
  | _ => ∃ os : List Nat, os.Nodup ∧ (∀ o, o ∈ os ↔ ∃ i, getTask p o = some i) ∧
      ids = os.map fun o => (o, obintName o)

/-- The line for an id, if the task is one of `v`. -/
def lineFor (p : TaskPool) (v : Nat) (x : Nat × List Char) : Option HttpLine :=
  (getTask p x.1).bind fun i => if slotOwner p i = v then some ⟨i, x.2⟩ else none

/-- The lines are those of the tasks of `v` that are asked for. -/
def Lists (p : TaskPool) (r : SchedReq) (v : Nat) (ls : List HttpLine) : Prop :=
  ∃ ids, r.Asks obint obintName p ids ∧ ls = ids.filterMap (lineFor p v)

theorem getTask_zero {p : TaskPool} (h : TableOk p.taskHt) : getTask p 0 = none := by
  rw [Option.eq_none_iff_forall_ne_some]
  intro i hi
  exact ((getTask_iff h).mp hi).1 rfl

/-- The parameters are gone through. -/
theorem filterMap_httpParam {p : TaskPool} (h : TableOk p.taskHt) (u : Nat) (q : List Char) :
    (q.splitOn '&').filterMap (httpParam obint p u) =
      ((SchedReq.tuids q).map fun tuid => ((obint tuid).toNat, tuid)).filterMap (lineFor p u) := by
  rw [SchedReq.tuids, List.map_filterMap, List.filterMap_filterMap]
  refine List.filterMap_congr fun par _ => ?_
  unfold httpParam lineFor
  by_cases hp : "tuid=".toList.isPrefixOf par = true
  · rw [if_pos hp, if_pos hp]
    dsimp only [Option.map_some, Option.bind_some]
    by_cases h0 : (obint (par.drop 5)).toNat = 0
    · rw [if_pos h0, h0, getTask_zero h]
      rfl
    · rw [if_neg h0]
      cases getTask p (obint (par.drop 5)).toNat <;> rfl
  · rw [if_neg hp, if_neg hp]
    rfl

/-- The table is gone through. -/
theorem filterMap_httpEntry {p : TaskPool} (h : TableOk p.taskHt) (u : Nat) :
    ∃ os : List Nat, os.Nodup ∧ (∀ o, o ∈ os ↔ ∃ i, getTask p o = some i) ∧
      p.taskHt.filterMap (httpEntry obintName p u) =
        (os.map fun o => (o, obintName o)).filterMap (lineFor p u) := by
  obtain ⟨k, hlen⟩ := h.len
  -- an entry of an id leads to the slot that is found for the id
  have hentry : ∀ m ∈ p.taskHt, m.oid ≠ 0 → ∃ i, m.t = some i ∧ getTask p m.oid = some i := by
    intro m hm h0
    obtain ⟨j, rfl⟩ := exists_htAt hm
    obtain ⟨i, hi⟩ := Option.ne_none_iff_exists'.mp fun hc => h0 ((h.task j).mpr hc)
    refine ⟨i, hi, (getTask_iff_entry h).mpr ⟨h0, j, ?_⟩⟩
    rw [← hi]
  refine ⟨p.taskHt.filterMap fun m => if m.oid = 0 then none else some m.oid, ?_, fun o => ?_, ?_⟩
  · refine List.pairwise_filterMap.mpr ((pairwise_apart h hlen le_rfl).imp ?_)
    intro m m' hne o ho o' ho'
    split at ho
    · exact nomatch ho
    split at ho'
    · exact nomatch ho'
    next hm hm' =>
      obtain rfl := Option.some.inj ho
      obtain rfl := Option.some.inj ho'
      exact fun hc => hne hm hm' (by rw [hc])
  · rw [List.mem_filterMap]
    constructor
    · rintro ⟨m, hm, ho⟩
      split at ho
      · exact nomatch ho
      next h0 =>
        obtain rfl := Option.some.inj ho
        obtain ⟨i, -, hi⟩ := hentry m hm h0
        exact ⟨i, hi⟩
    · rintro ⟨i, hi⟩
      obtain ⟨h0, j, hj⟩ := (getTask_iff_entry h).mp hi
      refine ⟨htAt p.taskHt j, mem_of_htAt (by rw [hj]; exact h0), ?_⟩
      rw [hj, if_neg h0]
  · rw [List.map_filterMap, List.filterMap_filterMap]
    refine List.filterMap_congr fun m hm => ?_
    unfold httpEntry lineFor
    by_cases h0 : m.oid = 0
    · rw [if_pos h0, if_pos h0]
      rfl
    · obtain ⟨i, hi, hg⟩ := hentry m hm h0
      rw [if_neg h0, if_neg h0, hi]
      dsimp only [Option.map_some, Option.bind_some]
      rw [hg]
      dsimp only [Option.bind_some]
      by_cases hu : slotOwner p i = u
      · rw [if_neg (not_not.mpr hu), if_pos hu]
      · rw [if_pos hu, if_neg hu]

/-- **What is sent for a user are the tasks of that user.** -/
theorem cmdHttp_lists {q : Nat → Option (List Char) → HttpReply} {p : TaskPool}
    (h : TableOk p.taskHt) {c uid u : Nat} (r : SchedReq) (hu : httpUser c uid = some u) :
    (cmdHttp obint obintName q p ⟨.sched, uid, r.params⟩ c).status = 200 ∧
      Lists obint obintName p r u
        (cmdHttp obint obintName q p ⟨.sched, uid, r.params⟩ c).lines := by
  obtain ⟨os, hnd, hmem, hos⟩ := filterMap_httpEntry obintName h u
  unfold cmdHttp Lists SchedReq.Asks
  dsimp only
  rw [hu]
  dsimp only
  rcases r.params with _ | ⟨_ | ⟨x, xs⟩⟩
  · exact ⟨rfl, _, ⟨os, hnd, hmem, rfl⟩, hos⟩
  · exact ⟨rfl, _, ⟨os, hnd, hmem, rfl⟩, hos⟩
  · exact ⟨rfl, _, rfl, filterMap_httpParam obint h u (x :: xs)⟩

end

/-! ### Other users -/

/-- What is shown of the task under an id if it is one of `v`: its next run. -/
def shown (p : TaskPool) (v o : Nat) : Option (Instant × Int) :=
  (getTask p o).bind fun i =>
    if slotOwner p i = v then some ((p.slots i).cur, (p.slots i).dur) else none

theorem shown_isSome {p : TaskPool} {v o : Nat} (h : (shown p v o).isSome = true) :
    ∃ i, getTask p o = some i := by
  unfold shown at h
  cases hg : getTask p o with
  | none =>
      rw [hg] at h
      exact nomatch h
  | some i => exact ⟨i, rfl⟩

/-- The same tasks of `v`, whatever others have. -/
def SameTasks (v : Nat) (p p' : TaskPool) : Prop := ∀ o, shown p v o = shown p' v o

/-- The text of the lines. -/
def texts (rangeStrf : EchsRange → List Char) (p : TaskPool) (ls : List HttpLine) :
    List (List Char) :=
  ls.map (echsHttpSendSched rangeStrf p)

/-- A line's text from what is shown. -/
def shownText (rangeStrf : EchsRange → List Char) (p : TaskPool) (v : Nat)
    (x : Nat × List Char) : Option (List Char) :=
  (shown p v x.1).map fun e =>
    x.2 ++ '\t' :: rangeStrf ⟨e.1, echsInstantAdd e.1 e.2⟩ ++ ['\n']

theorem texts_lineFor (rangeStrf : EchsRange → List Char) (p : TaskPool) (v : Nat)
    (ids : List (Nat × List Char)) :
    texts rangeStrf p (ids.filterMap (lineFor p v)) = ids.filterMap (shownText rangeStrf p v) := by
  rw [texts, List.map_filterMap]
  refine List.filterMap_congr fun x _ => ?_
  unfold lineFor shownText shown
  cases hg : getTask p x.1 with
  | none => rfl
  | some i =>
      dsimp only [Option.bind_some]
      split <;> rfl

/-- **The lines for a user do not depend on the tasks of others.** -/
theorem texts_perm {obint : List Char → UInt32} {obintName : Nat → List Char}
    (rangeStrf : EchsRange → List Char) {p p' : TaskPool} {r : SchedReq} {v : Nat}
    {ls ls' : List HttpLine} (hl : Lists obint obintName p r v ls)
    (hl' : Lists obint obintName p' r v ls') (hs : SameTasks v p p') :
    (texts rangeStrf p ls).Perm (texts rangeStrf p' ls') := by
  obtain ⟨ids, ha, rfl⟩ := hl
  obtain ⟨ids', ha', rfl⟩ := hl'
  have hshown : shownText rangeStrf p v = shownText rangeStrf p' v := by
    funext x
    rw [shownText, shownText, hs]
  rw [texts_lineFor, texts_lineFor, ← hshown]
  -- without parameters both tables are gone through, each in its order
  have hall : ∀ os os' : List Nat, os.Nodup → os'.Nodup →
      (∀ o, o ∈ os ↔ ∃ i, getTask p o = some i) → (∀ o, o ∈ os' ↔ ∃ i, getTask p' o = some i) →
      ((os.map fun o => (o, obintName o)).filterMap (shownText rangeStrf p v)).Perm
        ((os'.map fun o => (o, obintName o)).filterMap (shownText rangeStrf p v)) := by
    intro os os' hnd hnd' hmem hmem'
    have hpick : ∀ l : List Nat, (l.map fun o => (o, obintName o)).filterMap
        (shownText rangeStrf p v) = (l.filter fun o => (shown p v o).isSome).filterMap
          fun o => shownText rangeStrf p v (o, obintName o) := by
      intro l
      rw [List.filterMap_map, List.filterMap_filter]
      refine List.filterMap_congr fun o _ => ?_
      unfold shownText
      cases hsh : shown p v o with
      | none => simp [hsh]
      | some e => simp [hsh]
    rw [hpick, hpick]
    refine List.Perm.filterMap _ ((List.perm_ext_iff_of_nodup (hnd.filter _) (hnd'.filter _)).mpr ?_)
    intro o
    rw [List.mem_filter, List.mem_filter, hmem, hmem']
    refine and_congr_left fun hsome => iff_of_true ?_ ?_
    · exact shown_isSome hsome
    · rw [hs] at hsome
      exact shown_isSome hsome
  unfold SchedReq.Asks at ha ha'
  rcases hp : r.params with _ | ⟨_ | ⟨x, xs⟩⟩
  · rw [hp] at ha ha'
    obtain ⟨os, hnd, hmem, rfl⟩ := ha
    obtain ⟨os', hnd', hmem', rfl⟩ := ha'
    exact hall os os' hnd hnd' hmem hmem'
  · rw [hp] at ha ha'
    obtain ⟨os, hnd, hmem, rfl⟩ := ha
    obtain ⟨os', hnd', hmem', rfl⟩ := ha'
    exact hall os os' hnd hnd' hmem hmem'
  · rw [hp] at ha ha'
    rw [ha, ha']

/-! ### Who may see what -/

/-- No task is asked for: there are parameters, but none that could name one. -/
def SchedReq.AsksNobody (obint : List Char → UInt32) (r : SchedReq) : Prop :=
  ∃ x xs, r.params = some (x :: xs) ∧ ∀ tuid ∈ SchedReq.tuids (x :: xs), (obint tuid).toNat = 0

theorem asked_of_not_nobody {obint : List Char → UInt32} {r : SchedReq}
    (h : ¬ r.AsksNobody obint) : ∃ o, o ≠ 0 ∧ o < 2 ^ 64 ∧ ∀ x xs, r.params = some (x :: xs) →
      ∃ tuid ∈ SchedReq.tuids (x :: xs), (obint tuid).toNat = o := by
  rcases hp : r.params with _ | ⟨_ | ⟨x, xs⟩⟩
  · exact ⟨1, by decide, by decide, fun x xs hc => nomatch hc⟩
  · exact ⟨1, by decide, by decide, fun x xs hc => nomatch hc⟩
  · unfold SchedReq.AsksNobody at h
    push Not at h
    obtain ⟨tuid, ht, h0⟩ := h x xs hp
    have hlt := (obint tuid).toNat_lt
    refine ⟨(obint tuid).toNat, h0, by omega, fun y ys hc => ?_⟩
    obtain ⟨rfl, rfl⟩ := List.cons.inj (Option.some.inj hc)
    exact ⟨tuid, ht, rfl⟩

/-- The line of a task of `v` that is asked for is there. -/
theorem lists_ne_nil {obint : List Char → UInt32} {obintName : Nat → List Char} {p : TaskPool}
    {r : SchedReq} {v : Nat} {ls : List HttpLine} (hl : Lists obint obintName p r v ls)
    {o i : Nat} (ho : ∀ x xs, r.params = some (x :: xs) →
      ∃ tuid ∈ SchedReq.tuids (x :: xs), (obint tuid).toNat = o)
    (hg : getTask p o = some i) (hv : slotOwner p i = v) : ls ≠ [] := by
  obtain ⟨ids, ha, rfl⟩ := hl
  have hid : ∃ tuid, (o, tuid) ∈ ids := by
    unfold SchedReq.Asks at ha
    rcases hp : r.params with _ | ⟨_ | ⟨x, xs⟩⟩
    · rw [hp] at ha
      obtain ⟨os, -, hmem, rfl⟩ := ha
      exact ⟨_, List.mem_map_of_mem ((hmem o).mpr ⟨i, hg⟩)⟩
    · rw [hp] at ha
      obtain ⟨os, -, hmem, rfl⟩ := ha
      exact ⟨_, List.mem_map_of_mem ((hmem o).mpr ⟨i, hg⟩)⟩
    · rw [hp] at ha
      obtain ⟨tuid, ht, rfl⟩ := ho x xs hp
      rw [ha]
      exact ⟨tuid, List.mem_map_of_mem ht⟩
  obtain ⟨tuid, hmem⟩ := hid
  refine List.ne_nil_of_mem (a := ⟨i, tuid⟩) (List.mem_filterMap.mpr ⟨_, hmem, ?_⟩)
  unfold lineFor
  rw [hg, Option.bind_some, if_pos hv]

theorem owner_of_lists {obint : List Char → UInt32} {obintName : Nat → List Char}
    {p : TaskPool} {r : SchedReq} {v : Nat} {ls : List HttpLine}
    (hl : Lists obint obintName p r v ls) : ∀ l ∈ ls, slotOwner p l.t = v := by
  obtain ⟨ids, -, rfl⟩ := hl
  intro l hmem
  obtain ⟨x, -, hx⟩ := List.mem_filterMap.mp hmem
  unfold lineFor at hx
  obtain ⟨i, -, hi⟩ := Option.bind_eq_some_iff.mp hx
  split at hi
  · next hv =>
      obtain rfl := Option.some.inj hi
      exact hv
  · exact nomatch hi

/-- Where nobody is asked for, nobody is sent. -/
theorem lists_nobody {obint : List Char → UInt32} {obintName : Nat → List Char} {p : TaskPool}
    (h : TableOk p.taskHt) {r : SchedReq} (hr : r.AsksNobody obint) {v w : Nat}
    {ls : List HttpLine} (hl : Lists obint obintName p r v ls) : Lists obint obintName p r w ls := by
  obtain ⟨x, xs, hp, hnone⟩ := hr
  obtain ⟨ids, ha, rfl⟩ := hl
  refine ⟨ids, ha, List.filterMap_congr fun y hy => ?_⟩
  unfold SchedReq.Asks at ha
  rw [hp] at ha
  rw [ha] at hy
  obtain ⟨tuid, ht, rfl⟩ := List.mem_map.mp hy
  unfold lineFor
  dsimp only
  rw [hnone tuid ht, getTask_zero h]
  rfl

/-- There may be a task of any user under any id. -/
theorem exists_task {o u : Nat} (h0 : o ≠ 0) (ho : o < 2 ^ 64) (hu : u < 2 ^ 32) :
    ∃ p, (∃ fl, PoolOk p fl) ∧ ∃ i, getTask p o = some i ∧ slotOwner p i = u := by
  have hnone : getTask TaskPool.ini o = none := kept_ini.getTask_eq o
  have hsome := poolOk_ini.makeTask_isSome h0 ho hnone
  generalize hm : makeTask (fun _ => true) TaskPool.ini o = r at hsome
  obtain ⟨r, p⟩ := r
  rcases poolOk_ini.made h0 ho hnone hm with ⟨rfl, -⟩ | ⟨res, rfl, hmade⟩
  · exact absurd rfl hsome
  let x : EchsTask := { idleTask o with owner := nummapstrBangNum u }
  obtain ⟨fl, hp⟩ := hmade.pool { p.slots res with t := some x } ⟨x, rfl, rfl⟩
  have hslot := TaskPool.set_self p res { p.slots res with t := some x }
  refine ⟨_, ⟨fl, hp⟩, res, hp.getTask_eq_some.mpr ⟨h0, ?_, x, ?_, rfl⟩, ?_⟩
  · exact (hmade.inTable res).mpr (Or.inr rfl)
  · rw [hslot]
  · unfold slotOwner
    rw [hslot]
    exact owner_bangNum (idleTask o) hu

section

variable (obint : List Char → UInt32) (obintName : Nat → List Char)
  (queue : Nat → Option (List Char) → HttpReply) (rangeStrf : EchsRange → List Char)

/-- How a request of a peer `c` ought to be served, whatever the table is: it is forbidden
only to see another user, and not to root; else the tasks of that user are sent, or the
peer's own, and those of others do not matter. -/
structure Served (cmd : HttpCmd) (c : Nat) (r : SchedReq) : Prop where
  forbidden : ∀ p, (∃ fl, PoolOk p fl) →
    ((cmdHttp obint obintName queue p cmd c).status = 403 ↔
      ∃ v, r.user = some v ∧ v ≠ c ∧ c ≠ 0)
  lines : ∀ p, (∃ fl, PoolOk p fl) → (cmdHttp obint obintName queue p cmd c).status ≠ 403 →
    (cmdHttp obint obintName queue p cmd c).status = 200 ∧
      Lists obint obintName p r (r.user.getD c) (cmdHttp obint obintName queue p cmd c).lines
  others : ∀ p p', (∃ fl, PoolOk p fl) → (∃ fl, PoolOk p' fl) →
    SameTasks (r.user.getD c) p p' →
      (cmdHttp obint obintName queue p cmd c).status =
        (cmdHttp obint obintName queue p' cmd c).status ∧
      (texts rangeStrf p (cmdHttp obint obintName queue p cmd c).lines).Perm
        (texts rangeStrf p' (cmdHttp obint obintName queue p' cmd c).lines)

/-- A user that is named is the peer, or the peer is root, or the peer's uid has a bit that
the named one lacks; if none is named the peer is not root, unless no task is asked for. -/
def SchedReq.Granted (r : SchedReq) (c : Nat) : Prop :=
  match r.user with
  | some v => v = c ∨ c = 0 ∨ c &&& v ≠ c
  | none => c ≠ 0 ∨ r.AsksNobody obint

variable {obint obintName queue rangeStrf}

/-- A request is served if the lines of the user that is looked up will do. -/
theorem served_of_user {c uid u : Nat} {r : SchedReq} (hu : httpUser c uid = some u)
    (hf : ¬ ∃ v, r.user = some v ∧ v ≠ c ∧ c ≠ 0)
    (hl : ∀ p ls, TableOk p.taskHt → Lists obint obintName p r u ls →
      Lists obint obintName p r (r.user.getD c) ls) :
    Served obint obintName queue rangeStrf ⟨.sched, uid, r.params⟩ c r := by
  have hsent : ∀ p, (∃ fl, PoolOk p fl) →
      (cmdHttp obint obintName queue p ⟨.sched, uid, r.params⟩ c).status = 200 ∧
        Lists obint obintName p r (r.user.getD c)
          (cmdHttp obint obintName queue p ⟨.sched, uid, r.params⟩ c).lines := by
    rintro p ⟨fl, hp⟩
    obtain ⟨h200, hlists⟩ := cmdHttp_lists obint obintName (q := queue) hp.table r hu
    exact ⟨h200, hl p _ hp.table hlists⟩
  refine ⟨fun p hp => ?_, fun p hp _ => hsent p hp, fun p p' hp hp' hs => ?_⟩
  · rw [(hsent p hp).1]
    exact iff_of_false (by decide) hf
  · rw [(hsent p hp).1, (hsent p' hp').1]
    exact ⟨rfl, texts_perm rangeStrf (hsent p hp).2 (hsent p' hp').2 hs⟩

/-- **Who is served as he ought to be.** -/
theorem cmdHttp_served_iff (obint : List Char → UInt32) (obintName : Nat → List Char)
    (queue : Nat → Option (List Char) → HttpReply) (rangeStrf : EchsRange → List Char)
    {c : Nat} (hc : c < 2 ^ 32) {r : SchedReq} (hr : r.Ok) (rest : List Char) :
    ∃ cmd, cmdHttpP (r.text ++ rest) = some cmd ∧
      (Served obint obintName queue rangeStrf cmd c r ↔ r.Granted obint c) := by
  refine ⟨_, cmdHttpP_text hr rest, ?_⟩
  have hself : c &&& c = c := Nat.and_self c
  have hini : ∃ fl, PoolOk .ini fl := ⟨[], poolOk_ini⟩
  unfold SchedReq.Granted
  cases hu : r.user with
  | some v =>
      simp only [Option.getD_some]
      by_cases hv : v = c
      · have huser : httpUser c v = some v := by
          unfold httpUser
          dsimp only
          rw [hv, hself, if_neg (by simp)]
          split
          · rfl
          · rfl
        refine iff_of_true (served_of_user huser ?_ ?_) (Or.inl hv)
        · rintro ⟨w, hw, hne, -⟩
          rw [hu] at hw
          exact hne (Option.some.inj hw ▸ hv)
        · intro p ls _ hl
          rw [hu]
          exact hl
      by_cases h0 : c = 0
      · have huser : httpUser c v = some v := by
          unfold httpUser
          dsimp only
          rw [h0, Nat.zero_and, if_neg (by simp), if_pos rfl]
        refine iff_of_true (served_of_user huser ?_ ?_) (Or.inr (Or.inl h0))
        · rintro ⟨w, -, -, hne⟩
          exact hne h0
        · intro p ls _ hl
          rw [hu]
          exact hl
      have hother : ∃ w, r.user = some w ∧ w ≠ c ∧ c ≠ 0 := ⟨v, hu, hv, h0⟩
      by_cases hbits : c &&& v ≠ c
      · have hnone : httpUser c v = none := by
          unfold httpUser
          dsimp only
          rw [if_pos hbits]
        have hreply : ∀ p, cmdHttp obint obintName queue p ⟨.sched, v, r.params⟩ c = ⟨403, []⟩ := by
          intro p
          unfold cmdHttp
          dsimp only
          rw [hnone]
        refine iff_of_true ⟨fun p _ => ?_, fun p _ => ?_, fun p p' _ _ _ => ?_⟩
          (Or.inr (Or.inr hbits))
        · rw [hreply]
          exact iff_of_true rfl hother
        · rw [hreply]
          exact fun hne => absurd rfl hne
        · rw [hreply, hreply]
          exact ⟨rfl, List.Perm.refl _⟩
      · have huser : httpUser c v = some c := by
          unfold httpUser
          dsimp only
          rw [not_not.mp hbits, if_neg (by simp), if_neg h0]
        refine iff_of_false (fun hs => ?_) (by tauto)
        have h403 := (hs.forbidden .ini hini).mpr hother
        rw [(cmdHttp_lists obint obintName tableOk_ini r huser).1] at h403
        exact absurd h403 (by decide)
  | none =>
      have hnof : ¬ ∃ v, r.user = some v ∧ v ≠ c ∧ c ≠ 0 := by
        rintro ⟨v, hv, -⟩
        rw [hu] at hv
        exact nomatch hv
      have hall : c &&& notAUid = c := by
        rw [show notAUid = 2 ^ 32 - 1 from rfl, Nat.and_two_pow_sub_one_eq_mod,
          Nat.mod_eq_of_lt hc]
      simp only [Option.getD_none]
      by_cases h0 : c = 0
      · have huser : httpUser c notAUid = some notAUid := by
          unfold httpUser
          dsimp only
          rw [h0, Nat.zero_and, if_neg (by simp), if_pos rfl]
        by_cases hn : r.AsksNobody obint
        · refine iff_of_true (served_of_user huser hnof ?_) (Or.inr hn)
          intro p ls hp hl
          exact lists_nobody hp hn hl
        · refine iff_of_false (fun hs => ?_) (by tauto)
          -- a task of root that is asked for is not sent
          obtain ⟨o, ho0, ho, hask⟩ := asked_of_not_nobody hn
          obtain ⟨p, hp, i, hg, hi⟩ := exists_task (u := c) ho0 ho hc
          obtain ⟨fl, hok⟩ := hp
          obtain ⟨h200, hsent⟩ := cmdHttp_lists obint obintName (q := queue) hok.table r huser
          obtain ⟨-, hwant⟩ := hs.lines p ⟨fl, hok⟩ (by rw [h200]; decide)
          rw [hu, Option.getD_none] at hwant
          obtain ⟨l, hl⟩ := List.exists_mem_of_ne_nil _ (lists_ne_nil hwant hask hg hi)
          have h1 := owner_of_lists hsent l hl
          have h2 := owner_of_lists hwant l hl
          rw [h1, h0] at h2
          exact absurd h2 (by decide)
      · have huser : httpUser c notAUid = some c := by
          unfold httpUser
          dsimp only
          rw [hall, if_neg (by simp), if_neg h0]
        refine iff_of_true (served_of_user huser hnof ?_) (Or.inl h0)
        intro p ls _ hl
        rw [hu]
        exact hl

end

/-- Alice asks for the tasks that are hers. -/
theorem cmdHttp_served_alice :
    ∃ cmd, cmdHttpP "GET /u/1000/sched HTTP/1.1\r\n\r\n".toList = some cmd ∧
      Served (fun _ => 7) (fun _ => []) (fun _ _ => ⟨404, []⟩) (fun _ => []) cmd 1000
        ⟨some 1000, none⟩ := by
  obtain ⟨cmd, hcmd, hiff⟩ := cmdHttp_served_iff (fun _ => 7) (fun _ => [])
    (fun _ _ => ⟨404, []⟩) (fun _ => []) (c := 1000) (r := ⟨some 1000, none⟩) (by decide)
    ⟨by simp, by simp⟩ "\r\n".toList
  exact ⟨cmd, by rw [← hcmd]; rfl, hiff.mpr (Or.inl rfl)⟩

/-- Alice, who is 1000, asks for the tasks of 1001 and is not turned away. -/
theorem cmdHttp_lets_alice_ask :
    ¬ ∀ (obint : List Char → UInt32) (obintName : Nat → List Char)
      (queue : Nat → Option (List Char) → HttpReply) (rangeStrf : EchsRange → List Char)
      (c : Nat) (r : SchedReq), c < 2 ^ 32 → r.Ok → ∀ cmd, cmdHttpP (r.text ++ []) = some cmd →
        Served obint obintName queue rangeStrf cmd c r := by
  intro h
  have hok : SchedReq.Ok ⟨some 1001, none⟩ := ⟨by simp, by simp⟩
  have hserved := h (fun _ => 7) (fun _ => []) (fun _ _ => ⟨404, []⟩) (fun _ => []) 1000
    ⟨some 1001, none⟩ (by decide) hok _ (cmdHttpP_text hok [])
  have h403 := (hserved.forbidden .ini ⟨[], poolOk_ini⟩).mpr ⟨1001, rfl, by decide, by decide⟩
  exact absurd h403 (by decide)

end Echse
