/-
The push and pull parser of `evical.c`: `esccpy`, `_ical_proc`, `_ical_pull` and the calls
on top of them.

A buffer is the list of its bytes and `buf` is what is left of it from `bix` on.  Of the
stash there are the bytes up to `six` and, in `tail`, those from there on, as far as they
have been written since: none stands for the final nul.  The field snarfers and `make_task`
are functions of what the source hands to them, and the slots which only they use are
parameters.
-/
import Echse.Event
import Echse.Owner
import Echse.TaskPool

namespace Echse

/-! ### Lines -/

/-- `*c == ' ' || *c == '\t'`, where there is a byte. -/
def blankAt (s : List Char) : Bool := s.head? == some ' ' || s.head? == some '\t'

/-- The search for the end of a line: what comes up to the first newline not followed by
a blank, and what comes after it.  Without such a newline `eol` is `NULL`. -/
def chop : List Char → Option (List Char × List Char)
  | [] => none
  | c :: s =>
      if c = '\n' ∧ blankAt s = false then some ([c], s)
      else (chop s).map fun (l, r) => (c :: l, r)

/-- The bytes that `esccpy` makes of some text, given room. -/
def unescape : List Char → List Char
  | [] => []
  | '\r' :: s => unescape s
  -- overread along with the next space
  | '\n' :: _ :: s => unescape s
  | ['\n'] => []
  -- the inner switch looks at the backslash itself, and never sees what is escaped
  | '\\' :: _ :: s => '\\' :: unescape s
  | ['\\'] => ['\\']
  | c :: s => c :: unescape s

/-- `esccpy(tgt, tz, src, sz)`: the bytes it returns the number of, which a nul follows.
A text that is too long for `tz` returns 0, `tz` bytes having been written. -/
def esccpy (tz : Nat) (src : List Char) : Option (List Char) :=
  if (unescape src).length < tz then some (unescape src) else none

/-! ### Keywords -/

/-- `ical_fld_t`, the fields that a keyword stands for. -/
inductive IcalFld where
  | begin_ | end_ | meth | scale | dtstart | dtend | due | compl | dura | rrule | xrule
  | rdate | xdate | uid | summ | desc | loc | shell | state | mrule | mfile | att | org
  | ifile | ofile | efile | mout | merr | mrun | maxSimul | rstat | recurid | owner | umask
  | suid | sgid
deriving DecidableEq, Repr

/-- `__evical_fld`. -/
def evicalFld (key : List Char) : Option IcalFld :=
  [("BEGIN", IcalFld.begin_), ("END", .end_), ("METHOD", .meth), ("CALSCALE", .scale),
   ("DTSTART", .dtstart), ("DTEND", .dtend), ("DUE", .due), ("COMPLETED", .compl),
   ("DURATION", .dura), ("RRULE", .rrule), ("RDATE", .rdate), ("EXRULE", .xrule),
   ("EXDATE", .xdate), ("UID", .uid), ("SUMMARY", .summ), ("DESCRIPTION", .desc),
   ("X-GA-STATE", .state), ("X-GA-MRULE", .mrule), ("X-GA-MFILE", .mfile),
   ("X-ECHS-OWNER", .owner), ("X-ECHS-SHELL", .shell), ("X-ECHS-IFILE", .ifile),
   ("X-ECHS-OFILE", .ofile), ("X-ECHS-EFILE", .efile), ("X-ECHS-MAIL-RUN", .mrun),
   ("X-ECHS-MAIL-OUT", .mout), ("X-ECHS-MAIL-ERR", .merr),
   ("X-ECHS-MAX-SIMUL", .maxSimul), ("X-ECHS-UMASK", .umask), ("X-ECHS-SETUID", .suid),
   ("X-ECHS-SETGID", .sgid), ("LOCATION", .loc), ("ATTENDEE", .att), ("ORGANIZER", .org),
   ("REQUEST-STATUS", .rstat), ("RECURRENCE-ID", .recurid)].findSome? fun (s, f) =>
    if s.toList = key then some f else none

/-- `ical_comp_t`. -/
inductive IcalComp where
  | vcal | vevt | vtod | vjrn
deriving DecidableEq, Repr

/-- `__evical_comp`. -/
def evicalComp (s : List Char) : Option IcalComp :=
  [("VCALENDAR", IcalComp.vcal), ("VEVENT", .vevt), ("VTODO", .vtod),
   ("VJOURNAL", .vjrn)].findSome? fun (k, c) => if k.toList = s then some c else none

/-- `ical_meth_t`. -/
inductive IcalMeth where
  | unk | publish | request | reply | add | cancel | refresh | counter | declinecounter
deriving DecidableEq, Repr

/-! ### Components -/

/-- The `run_as` of a task. -/
structure RunAs where
  u : NumMapStr
  g : NumMapStr
  wd : Option String
  sh : Option String
deriving DecidableEq, Repr

/-- The slots of `struct echs_task_s` that the parser itself looks at. -/
structure ProtoTask (α : Type) where
  oid : Nat
  owner : NumMapStr
  umsk : Nat
  maxSimul : Fin 64
  runAs : RunAs
  more : α
deriving DecidableEq

/-- `struct ical_vevent_s`, the other slots alike. -/
structure IcalVevent (α β : Type) where
  from_ : Instant
  till : Instant
  cal : Scale
  t : ProtoTask α
  meth : IcalMeth
  reqStatus : Nat
  more : β
deriving DecidableEq

/-- The field snarfers and `make_task`.  A snarfer is given the memory at `eof` and at
`vp`, and the number of bytes from there to `ep`. -/
structure Snarfers (α β τ : Type) where
  /-- The slots after a `memset` to 0. -/
  zeroTask : α
  zeroVevent : β
  snarfPro : IcalVevent α β → IcalFld → (vp : List Char) → Nat → IcalVevent α β
  snarfFld : IcalVevent α β → IcalFld → (eof vp : List Char) → Nat → IcalVevent α β
  makeTask : IcalVevent α β → τ

section

variable {α β τ : Type} (x : Snarfers α β τ)

/-- A rinsed bucket. -/
def IcalVevent.zero : IcalVevent α β where
  from_ := .pack 0 0 0 0 0 0 0
  till := .pack 0 0 0 0 0 0 0
  cal := .gregorian
  t := ⟨0, .null, 0, 0, ⟨.null, .null, none, none⟩, x.zeroTask⟩
  meth := .unk
  reqStatus := 0
  more := x.zeroVevent

/-! ### The parser -/

/-- The states, the last of them with the depth above `ST_VOTH`. -/
inductive IcalSt where
  | unk | vcal | vtod
  | voth (d : Nat)
deriving DecidableEq, Repr

/-- What the lines act on in `struct ical_parser_s`. -/
structure IcalCtx (α β : Type) where
  st : IcalSt
  ve : IcalVevent α β
  globve : IcalVevent α β
deriving DecidableEq

/-- `struct ical_parser_s`. -/
structure IcalParser (α β : Type) extends IcalCtx α β where
  buf : List Char
  stash : List Char
  tail : List Char
deriving DecidableEq

/-- What `_ical_proc` and `_ical_pull` return: `NULL`, `ICAL_EOP` or the component. -/
inductive IcalRes (α β : Type) where
  | null | eop
  | ve (v : IcalVevent α β)
deriving DecidableEq

namespace IcalCtx

/-- Fresh from `calloc`. -/
def fresh : IcalCtx α β := ⟨.unk, .zero x, .zero x⟩

/-- Outside of a calendar. -/
def procUnk (p : IcalCtx α β) (fld : IcalFld) (comp : Option IcalComp) :
    IcalRes α β × IcalCtx α β :=
  match fld with
  | .begin_ =>
      if comp = some .vcal then (.null, { p with globve := .zero x, st := .vcal })
      else (.null, { p with st := .voth 0 })
  -- all bullshit
  | _ => (.eop, p)

/-- In some other component. -/
def procVoth (p : IcalCtx α β) (d : Nat) (fld : IcalFld) (comp : Option IcalComp) :
    IcalRes α β × IcalCtx α β :=
  match fld with
  -- the depth is that of an `unsigned int`, above the other states, and wraps to the first
  | .begin_ => (.null, { p with st := if d + 4 < 2 ^ 32 then .voth (d + 1) else .unk })
  | .end_ =>
      if comp = some .vcal then (.eop, { p with st := .unk })
      else (.null, { p with st := match d with | 0 => .vcal | d + 1 => .voth d })
  | _ => (.null, p)

/-- In a calendar. -/
def procVcal (p : IcalCtx α β) (fld : IcalFld) (comp : Option IcalComp) (vp : List Char)
    (z : Nat) : IcalRes α β × IcalCtx α β :=
  match fld, comp with
  | .begin_, none => (.null, { p with st := .voth 0 })
  | .begin_, some .vtod | .begin_, some .vevt =>
      (.null, { p with ve := { IcalVevent.zero x with t := p.globve.t, cal := p.globve.cal },
                       st := .vtod })
  -- the calendar is complete, or not what it should be
  | .begin_, _ | .end_, _ => (.eop, { p with st := .unk })
  | fld, _ => (.null, { p with globve := x.snarfPro p.globve fld vp z })

/-- What a component has not set is taken from the calendar. -/
def inherit_ (ve globve : IcalVevent α β) : IcalVevent α β :=
  { ve with
    t := { ve.t with
      owner := if ve.t.owner = .null then globve.t.owner else ve.t.owner
      umsk := if ve.t.umsk = 0 then globve.t.umsk else ve.t.umsk
      maxSimul := if ve.t.maxSimul = 0 then globve.t.maxSimul else ve.t.maxSimul
      runAs := if ve.t.runAs.u = .null then globve.t.runAs else ve.t.runAs }
    cal := globve.cal }

/-- In an event or a to-do. -/
def procVtod (p : IcalCtx α β) (fld : IcalFld) (comp : Option IcalComp)
    (eof vp : List Char) (z : Nat) : IcalRes α β × IcalCtx α β :=
  match fld with
  | .begin_ => (.eop, { p with st := .unk })
  | .end_ =>
      if comp = some .vevt ∨ comp = some .vtod then
        let ve := inherit_ p.ve p.globve
        (.ve ve, { p with ve := ve, st := .vcal })
      else (.eop, { p with st := .unk })
  | _ => (.null, { p with ve := x.snarfFld p.ve fld eof vp z })

/-- The line of `_ical_proc`, which goes up to `six`, and the bytes behind it. -/
def procLine (p : IcalCtx α β) (stash tail : List Char) : IcalRes α β × IcalCtx α β :=
  let mem := stash ++ tail
  let sp := mem.takeWhile (· ≠ '\x00')
  let key := sp.takeWhile fun c => c ≠ ':' && c ≠ ';'
  match evicalFld key, (sp.drop key.length).dropWhile (· ≠ ':') with
  | some fld, _ :: v =>
      let off := sp.length - v.length
      let z := stash.length - off
      let vp := mem.drop off
      let comp := evicalComp (vp.take z)
      match p.st with
      | .unk => procUnk x p fld comp
      | .voth d => procVoth p d fld comp
      | .vcal => procVcal x p fld comp vp z
      | .vtod => procVtod x p fld comp (mem.drop key.length) vp z
  | _, _ => (.null, p)

end IcalCtx

namespace IcalParser

def stashSize : Nat := 1024

/-- `_ical_proc`: the line has been consumed afterwards. -/
def proc (p : IcalParser α β) : IcalRes α β × IcalParser α β :=
  let r := p.toIcalCtx.procLine x p.stash p.tail
  (r.1, ⟨r.2, p.buf, [], []⟩)

/-- Copy to the stash and unescape. -/
def append (p : IcalParser α β) (src : List Char) : IcalParser α β :=
  let tz := stashSize - p.stash.length
  match esccpy tz src with
  | some tgt => { p with stash := p.stash ++ tgt, tail := [] }
  | none => { p with tail := (unescape src).take tz }

/-- The end of the buffer comes before the end of the line.  What is left is copied, unless
it is too long, and is left in the buffer too.  A newline at the end leaves a mark. -/
def stow (p : IcalParser α β) (nl : Bool) : IcalParser α β :=
  if stashSize - p.stash.length ≤ p.buf.length then { p with stash := [], tail := [] }
  else
    let p := p.append p.buf
    if nl then { p with tail := '\x01' :: p.tail.tail } else p

/-- The loop of `_ical_pull`, from `chop_more` on. -/
def chopMore : Nat → IcalParser α β → IcalRes α β × IcalParser α β
  | 0, p => (.null, p)
  | n + 1, p =>
      match chop p.buf with
      | none => (.null, p.stow false)
      | some (_, []) => (.null, p.stow true)
      | some (l, r) =>
          let p := ({ p with buf := r } : IcalParser α β).append l
          if p.stash = [] then (.null, p)
          else
            match proc x p with
            | (.null, p) => chopMore n p
            | res => res

/-- `_ical_pull`.  Every line is as long as the newline at its end, which bounds the loop. -/
def pull (p : IcalParser α β) : IcalRes α β × IcalParser α β :=
  if p.stash ≠ [] ∧ p.tail.head? = some '\x01' then
    let p : IcalParser α β := { p with tail := [] }
    if blankAt p.buf then chopMore x (p.buf.length + 1) p
    else
      match proc x p with
      | (.null, p) => chopMore x (p.buf.length + 1) p
      | res => res
  else chopMore x (p.buf.length + 1) p

end IcalParser

/-! ### Instructions -/

/-- `echs_insverb_t`. -/
inductive InsVerb where
  | unk | list | sche | resc | unsc | next | skip
deriving DecidableEq, Repr

/-- `echs_instruc_t`, with the members of the union that the parser sets. -/
structure EchsInstruc (τ : Type) where
  v : InsVerb
  o : Nat
  t : Option τ
  rng : Option EchsRange
deriving DecidableEq

def EchsInstruc.unk : EchsInstruc τ := ⟨.unk, 0, none, none⟩

/-- The instruction that a component stands for, by the method of its calendar. -/
def icalInstruc (meth : IcalMeth) (ve : IcalVevent α β) : EchsInstruc τ :=
  match meth with
  | .unk | .publish | .request => ⟨.sche, 0, some (x.makeTask ve), none⟩
  | .reply =>
      ⟨if ve.reqStatus = 2 then .resc else if ve.reqStatus = 5 then .unsc else .unk,
        ve.t.oid, none, none⟩
  | .cancel => ⟨.unsc, ve.t.oid, none, some ⟨ve.from_, ve.till⟩⟩
  | .add | .refresh | .counter | .declinecounter => .unk

/-- `echs_evical_push`; a parser starts with a buffer that is not empty. -/
def echsEvicalPush (p : Option (IcalParser α β)) (buf : List Char) :
    Option (IcalParser α β) :=
  match p with
  | none => if buf = [] then none else some ⟨.fresh x, buf, [], []⟩
  | some p => some { p with buf := buf }

/-- `echs_evical_pull`. -/
def echsEvicalPull (p : Option (IcalParser α β)) : EchsInstruc τ × Option (IcalParser α β) :=
  match p with
  | none => (.unk, none)
  | some p =>
      match p.pull x with
      | (.null, p) => (.unk, some p)
      -- do the big cleaning up
      | (.eop, _) => (.unk, none)
      | (.ve ve, p) => (icalInstruc x p.globve.meth ve, some p)

/-- `echs_evical_last_pull`, which frees the parser. -/
def echsEvicalLastPull (p : Option (IcalParser α β)) : EchsInstruc τ := (echsEvicalPull x p).1

/-! ### The callers -/

/-- Pull until `INSVERB_UNK`. -/
def pullUntil : Nat → Option (IcalParser α β) →
    List (EchsInstruc τ) × Option (IcalParser α β)
  | 0, p => ([], p)
  | n + 1, p =>
      let (i, p) := echsEvicalPull x p
      if i.v = .unk then ([], p)
      else
        let (is, p) := pullUntil n p
        (i :: is, p)

/-- Every instruction but the first takes a line of the buffer, which bounds the pulls. -/
def pullAll (p : Option (IcalParser α β)) : List (EchsInstruc τ) × Option (IcalParser α β) :=
  pullUntil x ((p.elim 0 fun (p : IcalParser α β) => p.buf.length) + 2) p

/-- Push and pull every buffer, and pull for the last time. -/
def icalRun : Option (IcalParser α β) → List (List Char) → List (EchsInstruc τ)
  | p, [] => [echsEvicalLastPull x p].filter (·.v ≠ .unk)
  | p, b :: bs =>
      let r := pullAll x (echsEvicalPush x p b)
      r.1 ++ icalRun r.2 bs

/-- Pull for as long as the verbs are of some kind. -/
def pullWhile (ok : InsVerb → Bool) : Nat → Option (IcalParser α β) →
    List (EchsInstruc τ) × Option (IcalParser α β)
  | 0, p => ([], p)
  | n + 1, p =>
      let (i, p) := echsEvicalPull x p
      if ok i.v then
        let (is, p) := pullWhile ok n p
        (i :: is, p)
      else ([], p)

/-- Push every buffer and pull like that. -/
def buffersWhile (ok : InsVerb → Bool) : Option (IcalParser α β) → List (List Char) →
    List (EchsInstruc τ) × Option (IcalParser α β)
  | p, [] => ([], p)
  | p, b :: bs =>
      let p := echsEvicalPush x p b
      let r := pullWhile x ok ((p.elim 0 fun (p : IcalParser α β) => p.buf.length) + 2) p
      let rs := buffersWhile ok r.2 bs
      (r.1 ++ rs.1, rs.2)

end

end Echse
