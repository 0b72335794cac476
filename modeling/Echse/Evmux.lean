/-
The muxer of event streams: `next_evmux` of `evstrm.c`.
-/
import Echse.Event

namespace Echse

/-- `echs_event_eq_p`. -/
def echsEventEqP (e1 e2 : EchsEvent) : Bool :=
  e1.oid == e2.oid && echsInstantEqP e1.from_ e2.from_

/-- `struct evmux_s`.  The number of streams is the length of `s`, which is NULL once
every stream is at its end. -/
structure Evmux where
  s : Option (List (List EchsEvent))
  /-- The event cache. -/
  ev : List EchsEvent

/-- `make_evmux`.  But for the mark in its first place the cache is as it was allocated. -/
def makeEvmux (ev : List EchsEvent) (s : List (List EchsEvent)) : Evmux where
  s := some s
  ev := { ev.headD echsNulEvent with from_ := echsMaxInstant } :: ev.tail

/-- What the search has found, and the streams and the cache it leaves behind. -/
structure Scan where
  best : EchsEvent
  besti : Nat
  s : List (List EchsEvent)
  ev : List EchsEvent

def Scan.cons (s : List EchsEvent) (ev : EchsEvent) (r : Scan) : Scan :=
  { r with s := s :: r.s, ev := ev :: r.ev }

/-- Try and find an earlier event from place `i` on. -/
def evmuxScan (i : Nat) (best : EchsEvent) (besti : Nat) :
    List (List EchsEvent) → List EchsEvent → Scan
  | s :: ss, ecur :: evs =>
      if echsEvent0P ecur then (evmuxScan (i + 1) best besti ss evs).cons s ecur
      else if echsEventLtP ecur best then (evmuxScan (i + 1) ecur i ss evs).cons s ecur
      else if echsEventEqP ecur best then
        (evmuxScan (i + 1) best besti ss evs).cons (echsEvstrmPop s)
          (echsEvstrmNext (echsEvstrmPop s))
      else (evmuxScan (i + 1) best besti ss evs).cons s ecur
  | s, ev => ⟨best, besti, s, ev⟩

/-- The cache with every stream looked at, where the mark asks for it. -/
def evmuxPrecache (ss : List (List EchsEvent)) (ev : List EchsEvent) : List EchsEvent :=
  if echsMaxInstantP (ev.headD echsNulEvent).from_ then ss.map echsEvstrmNext else ev

/-- `next_evmux`. -/
def nextEvmux (this : Evmux) (popp : Bool) : EchsEvent × Evmux :=
  match this.s with
  | none => (echsNulEvent, this)
  | some ss =>
      let ev := evmuxPrecache ss this.ev
      -- best event so far is the first non-null event
      match ev.findIdx? (fun e => !echsEvent0P e) with
      | none => (echsNulEvent, ⟨none, ev⟩)
      | some i =>
          let r := evmuxScan (i + 1) (ev.getD i echsNulEvent) i (ss.drop (i + 1))
            (ev.drop (i + 1))
          let ss := ss.take (i + 1) ++ r.s
          let ev := ev.take (i + 1) ++ r.ev
          if popp then
            let t := echsEvstrmPop (ss.getD r.besti [])
            (r.best, ⟨some (ss.set r.besti t), ev.set r.besti (echsEvstrmNext t)⟩)
          else (r.best, ⟨some ss, ev⟩)

/-- Calls of the muxer one after the other, and what those in popping mode gave. -/
def runEvmux (this : Evmux) : List Bool → List EchsEvent × Evmux
  | [] => ([], this)
  | popp :: ps =>
      let r := nextEvmux this popp
      let t := runEvmux r.2 ps
      (if popp then r.1 :: t.1 else t.1, t.2)

end Echse
