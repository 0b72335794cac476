/-
What `echse unroll` prints: the streams of all tasks in one, and its events from `from` to
`till`.  `unroll_ical` prints each with the task that it is an event of, `unroll_frmt` prints
those that the filter lets through.

A stream is the list of its events.  Streams are known by their addresses elsewhere; `evs` has
the events of each.
-/
import Echse.DtStrp
import Echse.Evmux
import Echse.Filter
import Echse.Snarf
import Echse.Unroll

namespace Echse

/-! ### One stream of many -/

/-- What `echs_evstrm_vmux` makes of an array of streams. -/
inductive VmuxStrm where
  | null
  | one (s : List EchsEvent)
  | mux (this : Evmux)

/-- `echs_evstrm_vmux`; `ev` is the cache as it was allocated. -/
def echsEvstrmVmux (ev : List EchsEvent) (s : List (Option (List EchsEvent))) : VmuxStrm :=
  match s.filterMap id with
  | [] => .null
  | [s] => .one s
  | ss => .mux (makeEvmux ev ss)

/-- `echs_evstrm_pop`. -/
def VmuxStrm.pop : VmuxStrm → EchsEvent × VmuxStrm
  | .null => (echsNulEvent, .null)
  | .one s => (echsEvstrmNext s, .one (echsEvstrmPop s))
  | .mux this =>
      let r := nextEvmux this true
      (r.1, .mux r.2)

/-- The stream of all tasks' streams, as `cmd_unroll` makes it. -/
def Unroll.smux (st : Unroll) (evs : Nat → List EchsEvent) (ev : List EchsEvent) : VmuxStrm :=
  echsEvstrmVmux ev ((Unroll.condenseStrms st.strms).map (Option.map evs))

/-! ### What is asked for -/

/-- `struct unroll_param_s`. -/
structure UnrollParam where
  from_ : Instant
  till : Instant
  filt : Rrulsp

/-- `chck_filt`: indicate an active filter. -/
def chckFilt (f : Rrulsp) : Rrulsp :=
  if bi31HasBits f.dom || bi447HasBits f.dow || bui31HasBits f.mon || bi63HasBits f.wk ||
      bi383HasBits f.doy then { f with freq := .yearly }
  else f

/-- The parameters that `cmd_unroll` has from its arguments `--from`, `--till` and `--filter`. -/
def unrollParam (fromArg tillArg filterArg : Option (List Char)) : UnrollParam where
  from_ := match fromArg with
    | some s => dtStrp s 0
    | none => echsNulInstant
  till := match tillArg with
    | some s => dtStrp s 0
    | none => .pack 2037 12 31 0 0 0 0
  filt := match filterArg with
    | some s => chckFilt (snarfRrule s)
    | none => { freq := .none }

/-! ### Printing -/

/-- The events that `unroll_ical` prints, each with what `get_task` gives for it; nothing if it is
still at work. -/
def unrollIcal (getTask : Nat → Option Nat) (p : UnrollParam) :
    Nat → VmuxStrm → Option (List (Option Nat × EchsEvent))
  | 0, _ => none
  | fuel + 1, smux =>
      let r := smux.pop
      if echsEvent0P r.1 then some []
      else
        let ebeg := echsInstantDetachScale r.1.from_
        if echsInstantLtP ebeg p.from_ then unrollIcal getTask p fuel r.2
        else if echsInstantLtP p.till ebeg then some []
        -- otherwise print
        else (unrollIcal getTask p fuel r.2).map ((getTask r.1.oid, r.1) :: ·)

/-- The events that `unroll_frmt` prints, with their scale detached, `fill` being the passes for
a query of the filter; nothing if it is still at work. -/
def unrollFrmt (p : UnrollParam) (fill : Nat) :
    Nat → Whitelist → VmuxStrm → Option (List EchsEvent)
  | 0, _, _ => none
  | fuel + 1, wl, smux =>
      let r := smux.pop
      if echsEvent0P r.1 then some []
      else
        -- prepare for printing
        let e := { r.1 with from_ := echsInstantDetachScale r.1.from_ }
        if echsInstantLtP p.till e.from_ then some []
        else if echsInstantLtP e.from_ p.from_ then unrollFrmt p fill fuel wl r.2
        else if p.filt.freq = .none then (unrollFrmt p fill fuel wl r.2).map (e :: ·)
        else
          match echsInstantMatchesP fill p.filt e.from_ wl with
          | none => none
          | some (false, wl) => unrollFrmt p fill fuel wl r.2
          | some (true, wl) => (unrollFrmt p fill fuel wl r.2).map (e :: ·)

end Echse
