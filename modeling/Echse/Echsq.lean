/-
The listing requests of the client: `cmd_list` of `echsq.c`.

The buffer is the text in it, up to `bix`.  The user is known by the uid, and the requests are
those that are built while a daemon takes them; what it replies is of no concern to the next.
-/
import Echse.Icalify

namespace Echse

/-- `sizeof(buf)` of `cmd_list`. -/
def listBufz : Nat := 4096

/-- `verb`, `vers`, `sche` and `queu`. -/
def listVerb : List Char := "GET /".toList
def listVers : List Char := " HTTP/1.1\r\n\r\n".toList
def listSche : List Char := "sched".toList
def listQueu : List Char := "queue".toList

/-- `xstrlncpy`: what is copied, the zero after it apart. -/
def xstrlncpy (dsz : Nat) (src : List Char) : List Char :=
  if dsz = 0 then [] else if dsz < src.length then src.take (dsz - 1) else src

/-- `bix += xstrlncpy(BUF, BSZ, src, ..)`. -/
def bufCopy (buf src : List Char) : List Char := buf ++ xstrlncpy (listBufz - buf.length) src

/-- `CHK_BIX`. -/
def chkBix (buf : List Char) : Option (List Char) := if listBufz ≤ buf.length then none else some buf

/-- `bix += snprintf(BUF, BSZ, ..)` and `CHK_BIX`: what has not been printed counts too. -/
def bufPrint (buf src : List Char) : Option (List Char) := chkBix (buf ++ src)

/-- `struct yuck_cmd_list_s`: the uid behind `user_arg`, and `next_flag`. -/
structure CmdList where
  user : Option UInt32
  nextFlag : Bool

/-- The user part of a request, if there is one. -/
def bufUser (buf : List Char) : Option UInt32 → Option (List Char)
  | none => some buf
  | some u => bufPrint buf ("u/".toList ++ fmtU u.toNat ++ "/".toList)

/-- A request up to the routine. -/
def listHead (argi : CmdList) : Option (List Char) := do
  let buf ← chkBix (bufCopy [] listVerb)
  let buf ← bufUser buf argi.user
  chkBix (bufCopy buf (if argi.nextFlag then listSche else listQueu))

/-- The loop over further arguments: the buffer, and the arguments for the next time. -/
def listArgs (buf : List Char) : List (List Char) → List Char × List (List Char)
  | [] => (buf, [])
  | a :: args =>
      let n := ("&tuid=".toList ++ a).length
      if listBufz ≤ buf.length + n then
        -- just do him next time
        (buf, a :: args)
      else if listBufz ≤ buf.length + listVers.length then
        -- we can't have no space for the version suffix
        (buf, a :: args)
      else listArgs (buf ++ ("&tuid=".toList ++ a)) args

/-- From `more` on: a request, and the arguments that are left. -/
def listMore (argi : CmdList) (args : List (List Char)) : Option (List Char × List (List Char)) := do
  let buf ← listHead argi
  match args with
  | [] => some (bufCopy buf listVers, [])
  | a :: args => do
      let buf ← bufPrint buf ("?tuid=".toList ++ a)
      let (buf, args) := listArgs buf args
      some (bufCopy buf listVers, args)

/-- `cmd_list`: the requests, and if they could all be built; nothing while it is still at
work. -/
def cmdList (argi : CmdList) : Nat → List (List Char) → Option (List (List Char) × Bool)
  | 0, _ => none
  | fuel + 1, args =>
      match listMore argi args with
      | none => some ([], false)
      | some (req, []) => some ([req], true)
      | some (req, args) => (cmdList argi fuel args).map fun r => (req :: r.1, r.2)

end Echse
