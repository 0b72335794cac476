/-
The daemon: scheduling, running and reaping tasks in `echsd.c`.

What libev and the system do is up to them and enters as the actions of a run: a
periodic watcher expires and later has its callback invoked, the clock jumps, a child
exits, a request comes in.  Of libev this much is modelled, as its manual has it: when
a watcher with a `reschedule_cb` is started, expires or the clock jumps, that function
is asked for the next time; one without it is stopped as it expires; and stopping a
watcher takes back a pending invocation.  Times are in seconds since the epoch.
-/
import Echse.TaskPool
import Echse.Chkpnt

namespace Echse

/-! ### Times -/

def monYdayTstamp : List Nat :=
  [0xfff8, 0, 31, 59, 90, 120, 151, 181, 212, 243, 273, 304, 334, 365]

/-- `instant_to_tstamp`. -/
def instantToTstamp (i : Instant) : Nat :=
  let yr := u32OfInt ((i.y : Int) - 2001)
  let nd := u32 (365 * yr + yr / 4)
  let nd := u32 (nd + monYdayTstamp.getD i.m 0 + i.d + (if i.y % 4 = 0 ∧ 3 ≤ i.m then 1 else 0))
  let t := if echsInstantAllDayP i then nd * 86400 else ((nd * 24 + i.H) * 60 + i.M) * 60 + i.S
  t + 11322 * 86400

/-- `unwind_till`: the stream from the first event on that is not before `t`. -/
def unwindTill : List EchsEvent → ℚ → List EchsEvent
  | [], _ => []
  | e :: s, t =>
      if !echsEvent0P e ∧ (instantToTstamp e.from_ : ℚ) < t then unwindTill s t else e :: s

/-- The point in time that `now + 1.e+30` stands for, and no clock gets to. -/
def farFuture : ℚ := 10 ^ 30

/-- What a slot's stream has from `now` on. -/
def Task.upcoming (t : Task) (now : ℚ) : List EchsEvent :=
  unwindTill ((t.t.bind (·.strm)).getD []) now

/-- A task with its stream moved on. -/
def EchsTask.setStrm (s : List EchsEvent) (t : EchsTask) : EchsTask :=
  { t with strm := t.strm.map fun _ => s }

def Task.unwind (t : Task) (now : ℚ) : Task :=
  { t with t := t.t.map (EchsTask.setStrm (t.upcoming now)) }

/-- `resched`: the slot, and the time of its next run. -/
def resched (t : Task) (now : ℚ) : Task × ℚ :=
  let e := echsEvstrmNext (t.upcoming now)
  let t := t.unwind now
  if echsEvent0P e ∧ t.nrun = 0 then
    -- this has never been run in the first place
    ({ t with w := { t.w with reschedule := false, cb := .unsched }, cur := echsNulInstant }, now)
  else if echsEvent0P e then
    -- we need to unschedule AFTER the next run
    ({ t with w := { t.w with reschedule := false }, cur := echsNulInstant }, now + farFuture)
  else
    ({ t with cur := e.from_, dur := e.dur, nrun := t.nrun + 1 }, instantToTstamp e.from_)

/-! ### Watchers -/

/-- `ev_periodic_init(&res->w, task_cb, 0., 0., resched)`. -/
def evPeriodicInit (t : Task) : Task := { t with w := ⟨false, false, 0, .taskCb, true⟩ }

/-- Ask `reschedule_cb` for the next time. -/
def evReschedule (t : Task) (now : ℚ) : Task :=
  let r := resched t now
  { r.1 with w := { r.1.w with at_ := r.2 } }

/-- `ev_periodic_start`, of a watcher with a `reschedule_cb` and no offset. -/
def evPeriodicStart (t : Task) (now : ℚ) : Task :=
  if t.w.active then t
  else
    let t := if t.w.reschedule then evReschedule t now else { t with w := { t.w with at_ := 0 } }
    { t with w := { t.w with active := true } }

/-- `ev_periodic_stop`. -/
def evPeriodicStop (t : Task) : Task :=
  { t with w := { t.w with active := false, pending := false } }

/-- A watcher that expires. -/
def evPeriodicExpire (t : Task) (now : ℚ) : Task :=
  let t := if t.w.reschedule then evReschedule t now else evPeriodicStop t
  { t with w := { t.w with pending := true } }

/-! ### The daemon -/

/-- A child: the slot whose task it runs, whether it was started without `-nd`, whether
an `ev_child` with that slot as its data waits for it, and whether there is such a
process at all. -/
structure Chld where
  task : Nat
  real : Bool
  watched : Bool
  live : Bool
deriving DecidableEq, Repr

structure Echsd where
  pool : TaskPool
  /-- `args[2U]` of `run_task` is `-nd`; the array is static. -/
  nd : Bool
  chlds : List Chld
  chk : Chkpnts

def Echsd.ini : Echsd := ⟨.ini, false, [], .ini⟩

/-- The slot `i`. -/
def Echsd.slot (d : Echsd) (i : Nat) : Task := d.pool.slots i

/-- Write to slot `i`. -/
def Echsd.setSlot (d : Echsd) (i : Nat) (t : Task) : Echsd := { d with pool := d.pool.set i t }

/-- What the system calls of `run_task` return, and the pid `posix_spawn` leaves
behind. -/
structure Spawn where
  pipe : Int
  init : Int
  spawn : Int
  pid : Int
deriving DecidableEq, Repr

/-- What comes of `run_task`: its result, whether `-nd` is set, and whether a process
was started. -/
structure Ran where
  r : Int
  nd : Bool
  started : Bool
deriving DecidableEq, Repr

/-- `run_task`. -/
def runTask (nd : Bool) (t : Task) (sys : Spawn) : Ran :=
  if sys.pipe < 0 then ⟨-1, nd, false⟩
  else if sys.init < 0 then ⟨-1, nd, false⟩
  else
    ⟨if sys.spawn < 0 then -1 else sys.pid, nd || !decide (t.nsim < t.maxSimul),
      decide (sys.spawn = 0)⟩

/-- `task_cb`. -/
def taskCb (d : Echsd) (i : Nat) (sys : Spawn) : Echsd :=
  let t := d.slot i
  let ran := runTask d.nd t sys
  if t.nsim < u32OfInt ((t.maxSimul : Int) - 1) ∧ 0 < ran.r then
    -- consider us running already
    { d.setSlot i { t with nsim := (t.nsim + 1) % 2 ^ 64 } with
      nd := ran.nd
      chlds := ⟨i, !ran.nd, true, ran.started⟩ :: d.chlds }
  else
    { d with
      nd := ran.nd
      chlds := if ran.started then ⟨i, !ran.nd, false, true⟩ :: d.chlds else d.chlds }

/-- `unsched`. -/
def unsched (d : Echsd) (i : Nat) : Echsd :=
  let u := ((d.slot i).t.map echsTaskOwner).getD notAUid
  let d := d.setSlot i (evPeriodicStop (d.slot i))
  { d with pool := freeTask d.pool i, chk := addChkpnt d.chk u }

/-- `chld_cb` of a watcher for slot `i`. -/
def chldCb (d : Echsd) (i : Nat) : Echsd :=
  let d := d.setSlot i { d.slot i with nsim := ((d.slot i).nsim + (2 ^ 64 - 1)) % 2 ^ 64 }
  -- we promised taskB_cb to kill this guy
  if (d.slot i).w.reschedule then d else unsched d i

/-! ### Requests -/

/-- What the daemon is run with: its uid, the passwd database at the first, second and
third lookup of a request, which allocations succeed, and the time. -/
structure Ctx where
  meself : Nat
  pw : Nat → PasswdDb
  mem : Nat → Bool
  now : ℚ

/-- Put the task into its slot, with the credentials of `u`, and start the watcher. -/
def installTask (c : Ctx) (d : Echsd) (res : Nat) (t : EchsTask) (u : Nat) : Int × Echsd :=
  -- refresh the actual credentials again
  let uc := complUid (c.pw 2) u
  if uc.u = notAUid then (-1, d)
  else
    let s := { d.slot res with
      t := some { t with owner := nummapstrBangNum uc.u }
      dfltCred := uc }
    (0, d.setSlot res (evPeriodicStart (evPeriodicInit s) c.now))

/-- `_inject_task1`. -/
def injectTask1 (c : Ctx) (d : Echsd) (t : EchsTask) (u : Nat) : Int × Echsd :=
  let oc := complOwner (c.pw 0) t.owner
  let uc := complUid (c.pw 1) u
  -- can't have both unset, bugger off
  if uc.u = notAUid ∧ oc.u = notAUid then (-1, d)
  else if uc.u = notAUid ∧ c.meself ≠ 0 ∧ oc.u ≠ c.meself then (-1, d)
  else if oc.u = notAUid ∧ c.meself ≠ 0 ∧ uc.u ≠ c.meself then (-1, d)
  -- we've caught him, call the police!!!
  else if uc.u ≠ notAUid ∧ oc.u ≠ notAUid ∧ oc.u ≠ uc.u then (-1, d)
  else
    let ocu := if oc.u = notAUid then uc.u else oc.u
    let ucu := if uc.u = notAUid then ocu else uc.u
    if t.strm.isNone then (-1, d)
    else
      match getTask d.pool t.oid with
      | some res =>
          if ((d.slot res).t.map (echsTaskOwnedByP · ocu)).getD false then
            -- task update, unscheduling old task
            let d := d.setSlot res { evPeriodicStop (d.slot res) with t := none }
            installTask c d res t ucu
          else (-1, d)
      | none =>
          match makeTask c.mem d.pool t.oid with
          | (none, pool) => (-1, { d with pool := pool })
          | (some res, pool) => installTask c { d with pool := pool } res t ucu

/-- `_eject_task1`. -/
def ejectTask1 (d : Echsd) (oid uid : Nat) : Int × Echsd :=
  match getTask d.pool oid with
  | none => (-1, d)
  | some res =>
      if ((d.slot res).t.map (echsTaskOwnedByP · uid)).getD false then
        let d := d.setSlot res (evPeriodicStop (d.slot res))
        (0, { d with pool := freeTask d.pool res })
      else (-1, d)

/-- The credentials `vtodoify` writes for a run of a task, `X-ECHS-SETUID` first. -/
def vtodRunAs (t : Task) : NCred where
  u := t.dfltCred.u
  g := t.dfltCred.g
  wd := (t.t.bind (·.wd)).or t.dfltCred.wd
  sh := (t.t.bind (·.sh)).or t.dfltCred.sh

/-- An instruction of a calendar: schedule a task, or cancel the one with an id. -/
inductive Instruc where
  | sche (t : EchsTask)
  | unsc (oid : Nat)

/-- One instruction in `cmd_ical`, from a peer with uid `u`. -/
def cmdInstruc (c : Ctx) (d : Echsd) (u : Nat) : Instruc → Int × Echsd
  | .sche t => injectTask1 c d t u
  | .unsc oid => ejectTask1 d oid u

/-- `cmd_ical`: the result of each instruction, and the daemon with the peer noted for
a checkpoint if one of them succeeded. -/
def cmdIcal (c : Ctx) (d : Echsd) (u : Nat) (is : List Instruc) : List Int × Echsd :=
  let r := is.foldl (fun (r : List Int × Echsd) i =>
    let x := cmdInstruc c r.2 u i
    (r.1 ++ [x.1], x.2)) ([], d)
  if r.1.any (· == 0) then (r.1, { r.2 with chk := addChkpnt r.2.chk u }) else r

/-! ### Runs -/

inductive Action where
  /-- An instruction of a peer. -/
  | request (c : Ctx) (u : Nat) (i : Instruc)
  /-- The watcher of slot `i` expires. -/
  | expire (i : Nat) (now : ℚ)
  /-- The clock jumps, and the watcher of slot `i` is rescheduled. -/
  | jump (i : Nat) (now : ℚ)
  /-- The pending callback of slot `i` is invoked. -/
  | invoke (i : Nat) (sys : Spawn)
  /-- The child at `k` exits. -/
  | exit (k : Nat)

/-- The clock is somewhere between the epoch and the far future. -/
def ClockOk (now : ℚ) : Prop := 0 ≤ now ∧ now < farFuture

instance (now : ℚ) : Decidable (ClockOk now) := inferInstanceAs (Decidable (_ ∧ _))

/-- What an action does, if it can occur. -/
def echsdStep (d : Echsd) : Action → Option Echsd
  | .request c u i => if ClockOk c.now then some (cmdInstruc c d u i).2 else none
  | .expire i now =>
      if (d.slot i).w.active ∧ (d.slot i).w.at_ ≤ now ∧ ClockOk now then
        some (d.setSlot i (evPeriodicExpire (d.slot i) now))
      else none
  | .jump i now =>
      if (d.slot i).w.active ∧ (d.slot i).w.reschedule ∧ ClockOk now then
        some (d.setSlot i (evReschedule (d.slot i) now))
      else none
  | .invoke i sys =>
      if (d.slot i).w.pending then
        let d := d.setSlot i { d.slot i with w := { (d.slot i).w with pending := false } }
        match (d.slot i).w.cb with
        | .taskCb => some (taskCb d i sys)
        | .unsched => some (unsched d i)
      else none
  | .exit k =>
      match d.chlds[k]? with
      | none => none
      | some c =>
          if c.live then
            let d := { d with chlds := d.chlds.eraseIdx k }
            some (if c.watched then chldCb d c.task else d)
          else none

end Echse
