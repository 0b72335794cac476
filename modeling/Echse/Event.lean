/-
Events and the ranges they take: `event.h` and `range.h`.
-/
import Echse.Refill

namespace Echse

/-- `echs_event_t`, the duration in milliseconds. -/
structure EchsEvent where
  from_ : Instant
  grp : Instant
  dur : Int
  oid : Nat
  sts : Nat
deriving DecidableEq, Repr

def echsNulEvent : EchsEvent := ⟨echsNulInstant, echsNulInstant, 0, 0, 0⟩

def echsEvent0P (e : EchsEvent) : Bool := e.from_.u == 0
def echsNulEventP (e : EchsEvent) : Bool := echsNulInstantP e.from_
def echsEventLtP (e1 e2 : EchsEvent) : Bool := echsInstantLtP e1.from_ e2.from_

/-- `echs_range_t`. -/
structure EchsRange where
  beg : Instant
  fin : Instant
deriving DecidableEq, Repr

def echsNulRangeP (r : EchsRange) : Bool := echsNulInstantP r.fin

/-- A precedes B, according to Allen. -/
def echsRangePrecedesP (a b : EchsRange) : Bool := echsInstantLtP a.fin b.beg

/-- A overlaps B, according to Allen. -/
def echsRangeOverlapsP (a b : EchsRange) : Bool :=
  echsInstantLtP a.beg b.fin && echsInstantLtP b.beg a.fin

def echsEventRange (e : EchsEvent) : EchsRange := ⟨e.from_, echsInstantAdd e.from_ e.dur⟩

/-! ### Streams

A stream is the list of the events it still has.  Asked for more it answers the nul
event, for ever.
-/

/-- `echs_evstrm_next`: look at the next event. -/
def echsEvstrmNext (s : List EchsEvent) : EchsEvent := s.headD echsNulEvent

/-- The stream after `echs_evstrm_pop`. -/
def echsEvstrmPop (s : List EchsEvent) : List EchsEvent := s.tail

end Echse
