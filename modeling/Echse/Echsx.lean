/-
Running a job: `prep_task`, `data_cb`, `run_task` and `mail_task` of `echsx.c`, as built
with `HAVE_SPLICE` and `HAVE_SENDFILE`.

Of the kernel there are the contents of the files, what each descriptor refers to and the
offsets.  Names stand for regular files, and two names may stand for one file.  The event
loop and the job are a list of what happens: the job writes a chunk or exits, or one of
the callbacks is invoked.  The job is spawned, and descriptors are not closed.
-/
import Echse.Task
import Echse.Lib.Runs
import Mathlib.Logic.Function.Basic

namespace Echse.Echsx

/-! ### Files and descriptors -/

/-- The names that are opened: `/dev/null`, what `mkstemp` makes of `tmpl`, and those of
the task. -/
inductive FileName where
  | null | tmpl
  | name (s : String)
deriving DecidableEq

/-- What a descriptor refers to; the pipes are those of stdout and stderr. -/
inductive Inode where
  | null | tmpl | opip | epip
  | file (i : Nat)
deriving DecidableEq

structure Kern where
  files : Inode → List Char
  /-- What the descriptors from 0 on refer to. -/
  fds : List Inode
  off : Int → Nat

/-- What the job and the system calls find. -/
structure World where
  /-- The file that a name stands for. -/
  ino : String → Nat
  /-- What `mkstemp` makes of `tmpl`. -/
  tmpl : String
  opens : FileName → Bool
  chdirs : String → Bool
  pipes : Bool
  /-- How many bytes, from an offset and out of the bytes asked for, `sendfile` sends. -/
  sendfile : Nat → Nat → Nat

def World.inode (w : World) : FileName → Inode
  | .null => .null
  | .tmpl => .tmpl
  | .name s => .file (w.ino s)

/-- The name as it is written. -/
def World.text (w : World) : FileName → String
  | .null => "/dev/null"
  | .tmpl => w.tmpl
  | .name s => s

namespace Kern

/-- Nothing is open, and the files have what is on disk. -/
def start (disk : Nat → List Char) : Kern where
  files
    | .file i => disk i
    | _ => []
  fds := []
  off _ := 0

/-- What `fd` refers to. -/
def ino (k : Kern) (fd : Int) : Option Inode := if fd < 0 then none else k.fds[fd.toNat]?

/-- A new descriptor, at the start of its file. -/
def install (k : Kern) (i : Inode) : Kern × Int :=
  ({ k with fds := k.fds ++ [i], off := Function.update k.off k.fds.length 0 }, k.fds.length)

/-- `open`, and `mkstemp` for `tmpl`. -/
def openat (w : World) (k : Kern) (fn : FileName) (trunc : Bool) : Kern × Int :=
  if w.opens fn then
    let k := if trunc then { k with files := Function.update k.files (w.inode fn) [] } else k
    k.install (w.inode fn)
  else (k, -1)

/-- `pipe`: the read end and the write end. -/
def pipe (k : Kern) (i : Inode) : Kern × Int × Int :=
  let k := { k with files := Function.update k.files i [] }
  let (k, r) := k.install i
  let (k, w) := k.install i
  (k, r, w)

/-- `b` over the bytes of `c` from an offset on. -/
def overwrite (c : List Char) (off : Nat) (b : List Char) : List Char :=
  c.take off ++ List.replicate (off - c.length) '\x00' ++ b ++ c.drop (off + b.length)

/-- `write`. -/
def write (k : Kern) (fd : Int) (b : List Char) : Kern :=
  match k.ino fd with
  | none | some .null => k
  | some .opip => { k with files := Function.update k.files .opip (k.files .opip ++ b) }
  | some .epip => { k with files := Function.update k.files .epip (k.files .epip ++ b) }
  | some i =>
      { k with files := Function.update k.files i (overwrite (k.files i) (k.off fd) b),
               off := Function.update k.off fd (k.off fd + b.length) }

/-- What is in the file that `fd` refers to. -/
def content (k : Kern) (fd : Int) : List Char :=
  match k.ino fd with
  | none => []
  | some i => k.files i

/-- `splice` of `n` bytes from a pipe. -/
def splice (k : Kern) (cfd mfd : Int) (n : Nat) : Kern :=
  match k.ino cfd with
  | none => k
  | some i =>
      let k' := { k with files := Function.update k.files i ((k.files i).drop n) }
      k'.write mfd ((k.files i).take n)

end Kern

/-! ### `prep_task` -/

/-- `struct echsx_task_s`; a descriptor that is not there is -1. -/
structure EchsxTask where
  ifd : Int
  ofd : Int
  efd : Int
  mfd : Int
  opip : Int
  epip : Int
  teeo : Int
  teee : Int
  mfn : Option FileName
  mrm : Bool
deriving DecidableEq

/-- Sane defaults. -/
def EchsxTask.ini (ifd : Int) : EchsxTask := ⟨ifd, -1, -1, -1, -1, -1, -1, -1, none, false⟩

/-- Both files are set and `strcmp` finds them equal. -/
def sameFile (t : FullTask) : Bool := t.more.out.isSome && t.more.out == t.more.err

section

variable (w : World) (t : FullTask) (k : Kern)

/-- R1, R2, R3. -/
def prepTmp (nulfd : Int) (x : EchsxTask) : Option (EchsxTask × Kern) :=
  let (k, fd) := k.openat w .tmpl true
  if fd < 0 then none
  else
    let x :=
      if t.more.mailout ∧ t.more.mailerr then { x with ofd := fd, efd := fd, mfd := fd }
      else if t.more.mailout then { x with ofd := fd, mfd := fd, efd := nulfd }
      else if t.more.mailerr then { x with efd := fd, mfd := fd, ofd := nulfd }
      else x
    some ({ x with mfn := some .tmpl, mrm := true }, k)

/-- Open a file of the task, if it is set. -/
def openSet (fn : Option String) : Kern × Int :=
  match fn with
  | some fn => k.openat w (.name fn) true
  | none => (k, -1)

/-- Postset with defaults. -/
def postset (nulfd : Int) (x : EchsxTask) : EchsxTask :=
  { x with ofd := if x.ofd < 0 then nulfd else x.ofd,
           efd := if x.efd < 0 then nulfd else x.efd }

/-- R8, R12, R16, R20. -/
def prepNoMail (nulfd : Int) (x : EchsxTask) : EchsxTask × Kern :=
  let (k, ofd) := openSet w k t.more.out
  let (k, efd) :=
    if t.more.err.isSome ∧ ¬sameFile t then openSet w k t.more.err
    else if t.more.err.isSome ∧ 0 ≤ ofd then (k, ofd)
    else (k, -1)
  (postset nulfd { x with ofd := ofd, efd := efd }, k)

/-- R13. -/
def prepSame (x : EchsxTask) : EchsxTask × Kern :=
  let (k, fd) := openSet w k t.more.out
  ({ x with ofd := fd, efd := fd, mfd := fd, mfn := t.more.out.map .name }, k)

/-- R6, R7, R10, R11, R18, R19. -/
def prepPipeless (nulfd : Int) (x : EchsxTask) : EchsxTask × Kern :=
  match t.more.out, t.more.err, t.more.mailout with
  | none, err, true =>
      -- R6
      let (k, fd) := k.openat w .tmpl true
      let (k, efd) := openSet w k err
      (postset nulfd { x with ofd := fd, mfd := fd, efd := efd, mfn := some .tmpl, mrm := true },
        k)
  | none, err, false =>
      -- R7
      let (k, fd) := openSet w k err
      (postset nulfd { x with ofd := nulfd, efd := fd, mfd := fd, mfn := err.map .name }, k)
  | some out, none, true =>
      -- R10
      let (k, fd) := k.openat w (.name out) true
      (postset nulfd { x with ofd := fd, mfd := fd, efd := nulfd, mfn := some (.name out) }, k)
  | some out, none, false =>
      -- R11
      let (k, fd) := k.openat w .tmpl true
      let (k, ofd) := k.openat w (.name out) true
      (postset nulfd { x with efd := fd, mfd := fd, ofd := ofd, mfn := some .tmpl, mrm := true },
        k)
  | some out, some err, true =>
      -- R18
      let (k, fd) := k.openat w (.name out) true
      let (k, efd) := k.openat w (.name err) true
      (postset nulfd { x with ofd := fd, mfd := fd, efd := efd, mfn := some (.name out) }, k)
  | some out, some err, false =>
      -- R19
      let (k, ofd) := k.openat w (.name out) true
      let (k, fd) := k.openat w (.name err) true
      (postset nulfd { x with ofd := ofd, efd := fd, mfd := fd, mfn := some (.name err) }, k)

/-- R5, R9, R14, R15, R17. -/
def prepPipes (x : EchsxTask) : Option (EchsxTask × Kern) :=
  if w.pipes then
    let (k, opip, ofd) := k.pipe .opip
    let (k, epip, efd) := k.pipe .epip
    -- a file for the mailer
    let (k, mfd) := k.openat w .tmpl true
    let x := { x with ofd := ofd, opip := opip, efd := efd, epip := epip, mfd := mfd,
                      mfn := some .tmpl, mrm := true }
    if sameFile t then
      -- R14, R15, the tee turned on its head
      let x := if t.more.mailout then { x with teeo := mfd } else { x with teee := mfd }
      let (k, fd) := openSet w k t.more.out
      some ({ x with mfd := fd }, k)
    else
      -- R17, R9, R5
      let (k, teeo) := openSet w k t.more.out
      let (k, teee) := openSet w k t.more.err
      some ({ x with teeo := teeo, teee := teee }, k)
  else none

/-- The descriptors for the job's output. -/
def prepOut (nulfd : Int) (x : EchsxTask) : Option (EchsxTask × Kern) :=
  if t.more.out = none ∧ t.more.err = none ∧ ¬t.more.mailout ∧ ¬t.more.mailerr then
    -- R4
    some ({ x with ofd := nulfd, efd := nulfd }, k)
  else if t.more.out = none ∧ t.more.err = none then prepTmp w t k nulfd x
  else if ¬t.more.mailout ∧ ¬t.more.mailerr then some (prepNoMail w t k nulfd x)
  else if t.more.mailout ∧ t.more.mailerr ∧ sameFile t then some (prepSame w t k x)
  else if t.more.mailout ≠ t.more.mailerr ∧ ¬sameFile t then some (prepPipeless w t k nulfd x)
  else prepPipes w t k x

/-- `prep_task`, if it returns 0. -/
def prepTask : Option (EchsxTask × Kern) :=
  let (k, nulfd) := k.openat w .null false
  if t.runAs.wd.any fun wd => !w.chdirs wd then none
  else
    let (k, ifd) := k.openat w (t.more.in_.elim .null .name) false
    if ifd < 0 then none else prepOut w t k nulfd (.ini ifd)

end

/-! ### `run_task` -/

/-- What the job writes to. -/
inductive Stream where
  | out | err
deriving DecidableEq, Repr

/-- The descriptor of the job. -/
def EchsxTask.fd (x : EchsxTask) : Stream → Int
  | .out => x.ofd
  | .err => x.efd

/-- The descriptor that the watcher of a stream is for. -/
def EchsxTask.pip (x : EchsxTask) : Stream → Int
  | .out => x.opip
  | .err => x.epip

/-- `filefd` of the watcher. -/
def EchsxTask.tee (x : EchsxTask) : Stream → Int
  | .out => x.teeo
  | .err => x.teee

/-- The pipe of a stream. -/
def pipeOf : Stream → Inode
  | .out => .opip
  | .err => .epip

/-- The loop around `sendfile` in `data_cb`. -/
def sendNsp (w : World) (ofd mfd : Int) (nsp : Nat) : Nat → Nat → Nat → Kern → Kern
  | 0, _, _, k => k
  | fuel + 1, mfo, tots, k =>
      if tots < nsp then
        let b := ((k.content mfd).drop mfo).take (w.sendfile mfo nsp)
        sendNsp w ofd mfd nsp fuel (mfo + b.length) (tots + b.length) (k.write ofd b)
      else k

/-- `data_cb`, where `splice` moves `nsp` bytes.  Every call of `sendfile` sends something,
which bounds the loop. -/
def dataCb (w : World) (k : Kern) (cfd mailfd filefd : Int) (nsp : Nat) : Kern :=
  let k := k.splice cfd mailfd nsp
  if 0 ≤ filefd then sendNsp w filefd mailfd nsp nsp (k.off mailfd - nsp) 0 k else k

/-- What happens while the loop runs. -/
inductive RunEvent where
  /-- The job writes. -/
  | job (s : Stream) (b : List Char)
  /-- The job exits. -/
  | exit
  /-- `data_cb` for a stream, and the bytes that `splice` moves; none at the end of file. -/
  | data (s : Stream) (nsp : Nat)
  /-- `chld_cb`, which breaks the loop. -/
  | chld
deriving DecidableEq, Repr

/-- The kernel, the job and the watchers. -/
structure JobRun where
  k : Kern
  running : Bool
  /-- The watcher of the stream is active. -/
  watch : Stream → Bool
  /-- `ev_break` has been called. -/
  brk : Bool

def JobRun.start (x : EchsxTask) (k : Kern) : JobRun := ⟨k, true, fun s => 0 ≤ x.pip s, false⟩

/-- One event, if it can happen.  What has been pending is still invoked after
`chld_cb`. -/
def runStep (w : World) (x : EchsxTask) (r : JobRun) : RunEvent → Option JobRun
  | .job s b => if r.running then some { r with k := r.k.write (x.fd s) b } else none
  | .exit => if r.running then some { r with running := false } else none
  | .data s nsp =>
      let c := r.k.content (x.pip s)
      if ¬r.watch s ∨ c.length < nsp then none
      else if nsp ≠ 0 then
        some { r with k := dataCb w r.k (x.pip s) x.mfd (x.tee s) nsp }
      -- the write end is closed and nothing is left
      else if c = [] ∧ ¬r.running then some { r with watch := Function.update r.watch s false }
      else none
  | .chld => if ¬r.running ∧ ¬r.brk then some { r with brk := true } else none

/-- `run_task`: what is there once the loop has been broken. -/
def runTask (w : World) (x : EchsxTask) (k : Kern) (es : List RunEvent) : Option Kern :=
  (Runs.run (runStep w x) (.start x k) es).bind fun r => if r.brk then some r.k else none

/-! ### `mail_task` -/

/-- `xsplice`: `totz` bytes of a file. -/
def xsplice (w : World) (src : List Char) (totz : Nat) : Nat → Nat → List Char
  | 0, _ => []
  | fuel + 1, tots =>
      if tots < totz then
        let b := (src.drop tots).take (w.sendfile tots (totz - tots))
        b ++ xsplice w src totz fuel (tots + b.length)
      else []

/-- `mail_task` for a job that has been run: the mail body, if there is a mail. -/
def mailTask (w : World) (t : FullTask) (x : EchsxTask) (k : Kern) : Option (List Char) :=
  if t.more.org = none ∨ t.more.att = [] then none
  else if ¬t.more.mailout ∧ ¬t.more.mailerr ∧ ¬t.more.mailrun then none
  else
    match x.mfn with
    | none => some []
    | some fn =>
        let c := k.files (w.inode fn)
        if w.opens fn then some (xsplice w c c.length c.length 0)
        else some (("Error: cannot open mail file `" ++ w.text fn ++ "'\n").toList)

end Echse.Echsx
