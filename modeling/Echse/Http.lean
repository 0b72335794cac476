/-
The HTTP side of `echsd`: `cmd_http_p` and `cmd_http`.

The buffer is the text received.  `obint` is the `hash_t` of a text, `obintName` the name
interned for a hash, and `queue` what the routine `queue` sends for a user, which is the
calendar file of that user or the tasks asked for as calendar text.
-/
import Echse.TaskPool
import Echse.Snarf

namespace Echse

/-! ### Requests -/

/-- The routines of `struct echs_cmd_http_s`. -/
inductive HttpRou where
  | unk
  | queue
  | sched
deriving DecidableEq, Repr

/-- `struct echs_cmd_http_s`; `params` is `none` for `NULL`. -/
structure HttpCmd where
  rou : HttpRou
  uid : Nat
  params : Option (List Char)
deriving DecidableEq, Repr

/-- ` HTTP/1.1\r\n`. -/
def htVers : List Char := " HTTP/1.1\r\n".toList

/-- `xmemmem`: the text from the first occurrence of `ndl` on. -/
def xmemmem (ndl : List Char) : List Char → Option (List Char)
  | [] => if ndl.isEmpty then some [] else none
  | c :: hay => if ndl.isPrefixOf (c :: hay) then some (c :: hay) else xmemmem ndl hay

/-- The user part: the uid, and what is after it. -/
def httpUserPart (bp : List Char) : Option (Nat × List Char) :=
  if "u/".toList.isPrefixOf bp then
    let x := strtoul (bp.drop 2)
    -- they've fucked it
    if x.2.head? ≠ some '/' then none else some (uidT x.1, x.2.tail)
  else some (notAUid, bp)

def httpRoutine (bp : List Char) : HttpRou × List Char :=
  if "queue".toList.isPrefixOf bp then (.queue, bp.drop 5)
  else if "sched".toList.isPrefixOf bp then (.sched, bp.drop 5)
  else (.unk, bp)

/-- `cmd_http_p`, of a command not known yet. -/
def cmdHttpP (buf : List Char) : Option HttpCmd :=
  if "GET /".toList.isPrefixOf buf then
    let bp := buf.drop 5
    match xmemmem htVers bp with
    | none => none
    | some vp =>
        match httpUserPart bp with
        | none => none
        | some (uid, bp) =>
            let (rou, bp) := httpRoutine bp
            some ⟨rou, uid,
              if bp.head? = some '?' then some (bp.tail.take (bp.tail.length - vp.length))
              else none⟩
  else none

/-! ### Replies -/

/-- A call of `echs_http_send_sched`: the slot of the task, and the `tuid`. -/
structure HttpLine where
  t : Nat
  tuid : List Char
deriving DecidableEq, Repr

/-- What `echs_http_send_sched` writes, where `rangeStrf` formats a range. -/
def echsHttpSendSched (rangeStrf : EchsRange → List Char) (p : TaskPool) (l : HttpLine) :
    List Char :=
  let t := p.slots l.t
  l.tuid ++ '\t' :: rangeStrf ⟨t.cur, echsInstantAdd t.cur t.dur⟩ ++ ['\n']

structure HttpReply where
  status : Nat
  lines : List HttpLine
deriving DecidableEq, Repr

/-- The user whose tasks are sent, unless that is forbidden. -/
def httpUser (c uid : Nat) : Option Nat :=
  let u := c &&& uid
  if u ≠ c then none else some (if u = 0 then uid else u)

/-- `echs_task_owner(t->t)`, of a slot. -/
def slotOwner (p : TaskPool) (i : Nat) : Nat := ((p.slots i).t.map echsTaskOwner).getD notAUid

/-- One of the parameters. -/
def httpParam (obint : List Char → UInt32) (p : TaskPool) (u : Nat) (par : List Char) :
    Option HttpLine :=
  if "tuid=".toList.isPrefixOf par then
    let tuid := par.drop 5
    let oid := (obint tuid).toNat
    if oid = 0 then none
    else
      match getTask p oid with
      | none => none
      | some i => if slotOwner p i = u then some ⟨i, tuid⟩ else none
  else none

/-- One place of the task table. -/
def httpEntry (obintName : Nat → List Char) (p : TaskPool) (u : Nat) (m : TMap) :
    Option HttpLine :=
  if m.oid = 0 then none
  else m.t.bind fun i => if slotOwner p i ≠ u then none else some ⟨i, obintName m.oid⟩

/-- `cmd_http`, from a peer with uid `c`. -/
def cmdHttp (obint : List Char → UInt32) (obintName : Nat → List Char)
    (queue : Nat → Option (List Char) → HttpReply) (p : TaskPool) (cmd : HttpCmd) (c : Nat) :
    HttpReply :=
  match httpUser c cmd.uid with
  | none => ⟨403, []⟩
  | some u =>
      match cmd.rou with
      | .unk => ⟨404, []⟩
      | .queue => queue u cmd.params
      | .sched =>
          match cmd.params with
          | some (x :: xs) =>
              -- go through the ones specified
              ⟨200, ((x :: xs).splitOn '&').filterMap (httpParam obint p u)⟩
          -- go through all the tasks
          | _ => ⟨200, p.taskHt.filterMap (httpEntry obintName p u)⟩

end Echse
