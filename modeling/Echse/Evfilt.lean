/-
A stream with exceptions: `evfilt.c`.
-/
import Echse.Event

namespace Echse

/-- `struct evfilt_s`: normal events, exception events and the next exception. -/
structure Evfilt where
  e : List EchsEvent
  x : List EchsEvent
  ex : EchsRange

/-- The loop at `check:` of `next_evfilt`, up to the label `pop:`; the number bounds
its rounds. -/
def Evfilt.check : Nat → Evfilt → Option Evfilt
  | 0, _ => none
  | fuel + 1, this =>
      let r := echsEventRange (echsEvstrmNext this.e)
      -- no more exceptions
      if echsNulRangeP this.ex then some this
      else if echsRangeOverlapsP r this.ex then
        check fuel { this with e := echsEvstrmPop this.e }
      else if echsRangePrecedesP this.ex r then
        -- there could be another exception in the range of E
        check fuel { this with
          x := echsEvstrmPop this.x
          ex := echsEventRange (echsEvstrmNext this.x) }
      else some this

/-- Every round takes an event or an exception. -/
def Evfilt.rounds (this : Evfilt) : Nat := this.e.length + this.x.length + 2

/-- `next_evfilt`; nothing if it is still checking. -/
def nextEvfilt (this : Evfilt) (popp : Bool) : Option (EchsEvent × Evfilt) := do
  let this ← this.check this.rounds
  let e := echsEvstrmNext this.e
  if popp then some (e, { this with e := echsEvstrmPop this.e }) else some (e, this)

/-- What `make_evfilt` returns: no stream, the event stream itself or a filter. -/
inductive Filtered where
  | null
  | all (e : List EchsEvent)
  | filt (f : Evfilt)

/-- `make_evfilt`, a stream that is `NULL` being none. -/
def makeEvfilt (e x : Option (List EchsEvent)) : Filtered :=
  match e, x with
  | none, _ => .null
  | some e, none => .all e
  | some e, some x => .filt ⟨e, echsEvstrmPop x, echsEventRange (echsEvstrmNext x)⟩

/-- `echs_evstrm_pop` of the result: the event and the stream afterwards. -/
def Filtered.pop : Filtered → Option (EchsEvent × Filtered)
  | .null => some (echsNulEvent, .null)
  | .all e => some (echsEvstrmNext e, .all (echsEvstrmPop e))
  | .filt f => (nextEvfilt f true).map fun r => (r.1, .filt r.2)

/-- The first `n` events popped, or all of them if there are fewer. -/
def popEvfilt : Nat → Filtered → Option (List EchsEvent)
  | 0, _ => some []
  | n + 1, s => do
      let (e, s) ← s.pop
      if echsEvent0P e then some []
      else do
        let es ← popEvfilt n s
        some (e :: es)

end Echse
