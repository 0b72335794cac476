/-
Replies to requests: `cmd_ical` and `cmd_ical_rpl` of `echsd.c`, and `poll1` of `echsq.c`
which reads them.

What the instructions do to the daemon is with its other parts.  Here it is left to
parameters whether a task can be injected or ejected, and so are the time and the strings
that the daemon has interned when it replies to an instruction.
-/
import Echse.Intern
import Echse.SnarfFld
import Echse.Icalify
import Echse.Tzob

namespace Echse

/-- The fields where `intern` uses a certain hash. -/
def FldEnv.hashed {ρ : Type} (e : FldEnv ρ) (hash : List Char → UInt32) : FldEnv ρ :=
  { e with intern := Echse.intern hash, obint := Echse.obint hash }

namespace Replies

/-- The static variables of `cmd_ical_rpl`. -/
structure RplState where
  nrpl : Nat
  now : Nat
  stmp : List Char
  stamped : stmp = [] ∨ ∃ t, stmp = dtStrfIcal (epochToInst t)

/-- Renew the stamp, unless the second is the same. -/
def RplState.tick (st : RplState) (tmp : Nat) : RplState :=
  if st.now < tmp then
    { st with now := tmp, stmp := dtStrfIcal (epochToInst tmp), stamped := .inr ⟨tmp, rfl⟩ }
  else st

/-- The daemon at the instruction of some number. -/
structure CmdEnv where
  /-- `time(NULL)`. -/
  time : Nat → Nat
  /-- `_inject_task1` and `_eject_task1` do not fail. -/
  inject : Nat → FullTask → Bool
  eject : Nat → Nat → Bool

def rplHdr : List Char := "BEGIN:VCALENDAR\n".toList

def rplRpl : List Char := "METHOD:REPLY\n".toList

def rplFtr : List Char := "END:VCALENDAR\n".toList

def rplVeh : List Char := "BEGIN:VEVENT\n".toList

def rplVef : List Char := "END:VEVENT\n".toList

/-- `succ` or `fail`. -/
def rplStatus : InsVerb → List Char
  | .resc => "REQUEST-STATUS:2.0;Success\n".toList
  | _ => "REQUEST-STATUS:5.1;Service unavailable\n".toList

section

variable (hash : List Char → UInt32)

/-- `cmd_ical_rpl`: what it writes.  It flushes if there is no verb. -/
def cmdIcalRpl (obs : List (List Char)) (tmp : Nat) (ins : EchsInstruc FullTask)
    (st : RplState) : List Char × RplState :=
  if ins.v = .unk then
    (if st.nrpl ≠ 0 then rplFtr else [], { st with nrpl := 0 })
  else
    -- we may not have sent the VCALENDAR thingie yet
    let hdr := if st.nrpl = 0 then rplHdr ++ rplRpl else []
    let st := st.tick tmp
    (hdr ++ rplVeh ++ ("UID:".toList ++ fmtS (obintName hash obs ins.o) ++ ['\n']) ++
      ("DTSTAMP:".toList ++ st.stmp ++ ['\n']) ++ "ATTENDEE:echse\n".toList ++
      rplStatus ins.v ++ rplVef, { st with nrpl := st.nrpl + 1 })

/-- The loop of `cmd_ical` from instruction `i` on, by which the strings `obs i` have been
interned: what is written, and whether there is something to be checkpointed. -/
def cmdIcalLoop (obs : Nat → List (List Char)) (w : CmdEnv) :
    Nat → List (EchsInstruc FullTask) → Bool → RplState → List Char × Bool × RplState
  | i, [], dump, st =>
      -- this flushes all replies
      let r := cmdIcalRpl hash (obs i) (w.time i) .unk st
      (r.1, dump, r.2)
  | i, ins :: is, dump, st =>
      let reply (ok : Bool) :=
        let r := cmdIcalRpl hash (obs i) (w.time i)
          { ins with v := if ok then .resc else .unsc } st
        let rs := cmdIcalLoop obs w (i + 1) is (dump || ok) r.2
        (r.1 ++ rs.1, rs.2)
      match ins.v with
      | .sche | .resc =>
          match ins.t with
          | none => cmdIcalLoop obs w (i + 1) is dump st
          | some t => reply (w.inject i t)
      | .unsc => reply (w.eject i ins.o)
      | .unk | .list | .next | .skip =>
          let r := cmdIcalRpl hash (obs i) (w.time i) .unk st
          (r.1, dump, r.2)

section

variable {α β τ : Type} (x : Snarfers α β τ)

/-- `poll1` on what it reads, and at last to clear up: the replies. -/
def poll1 (bs : List (List Char)) : List (EchsInstruc τ) :=
  let reply (v : InsVerb) : Bool := v = .resc ∨ v = .unsc
  let r := buffersWhile x reply none bs
  r.1 ++ [echsEvicalLastPull x r.2].filter (reply ·.v)

end

/-- `cmd_ical`. -/
def cmdIcal {ρ : Type} (e : FldEnv ρ) (obs : Nat → List (List Char)) (w : CmdEnv)
    (cmd : Option (IcalParser TaskSlots (VeventSlots ρ))) (st : RplState) :
    List Char × Bool × RplState :=
  cmdIcalLoop hash obs w 0 (pullAll (evicalSnarfers e) cmd).1 false st

end

end Replies

end Echse
