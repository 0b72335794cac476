/-
Loops that generate, filter and fill a buffer.

A loop walks over positions.  At each position it generates groups of items, judges
every item, and stores what is to be emitted.  How much is stored is looked at
between groups and never inside one, so a group is stored whole or not at all.  A
loop may carry a counter that bounds the passes in a row without anything stored.

The machine is one `pass` at a time.  Nothing says that it ever stops; a run that
stops does so by `Stop.done`, the loop is left, or by `Stop.trap`, the code has no
defined result from there on.
-/
import Mathlib.Data.List.Basic

namespace FillLoop

/-- What becomes of an item. -/
inductive Verdict where
  /-- It is stored. -/
  | emit
  /-- It is passed over. -/
  | drop
  /-- The rest of this position is passed over. -/
  | skip
  /-- The loop is left. -/
  | fin
deriving DecidableEq, Repr

/-- How a run ended. -/
inductive Stop where
  | done
  | trap
deriving DecidableEq, Repr

/-- How the processing of a group, or of all groups of a position, ended. -/
inductive Sig where
  | cont
  | skip
  | fin
  | trap
deriving DecidableEq, Repr

/-- A loop over positions `σ`, judging items `α` and storing entries `β`. -/
structure Loop (σ α β : Type) where
  /-- The start value of the counter of fruitless passes, if there is one. -/
  reload : Option Nat
  /-- Positions that are only stepped over, whatever has been stored. -/
  hop : σ → Bool
  /-- The next position; nothing if it cannot be computed. -/
  next : σ → Option σ
  /-- The groups of a position; `none` is a group that cannot be computed. -/
  groups : σ → List (Option (List α))
  judge : α → Verdict
  entry : σ → α → β

/-- A machine state. -/
structure State (σ β : Type) where
  pos : σ
  tries : Nat
  out : List β
  stop : Option Stop

namespace Loop

variable {σ α β : Type} (L : Loop σ α β)

/-- Whether a buffer of the given room is full; no room given means unlimited. -/
def full (room : Option Nat) (out : List β) : Bool :=
  match room with
  | none => false
  | some n => n ≤ out.length

/-- Process the items of a group. -/
def fillGroup (p : σ) : List α → List β → List β × Sig
  | [], out => (out, .cont)
  | x :: xs, out =>
      match L.judge x with
      | .emit => fillGroup p xs (out ++ [L.entry p x])
      | .drop => fillGroup p xs out
      | .skip => (out, .skip)
      | .fin => (out, .fin)

/-- Process the groups of a position, as long as there is room. -/
def fillGroups (room : Option Nat) (p : σ) : List (Option (List α)) → List β → List β × Sig
  | [], out => (out, .cont)
  | g :: gs, out =>
      if full room out then (out, .cont)
      else match g with
        | none => (out, .trap)
        | some xs =>
            let r := L.fillGroup p xs out
            if r.2 = .cont then fillGroups room p gs r.1 else r

/-- The counter before a pass, nothing if it has run out. -/
def tick (tries : Nat) : Option Nat :=
  match L.reload with
  | none => some tries
  | some _ => if tries ≤ 1 then none else some (tries - 1)

/-- The counter after a pass. -/
def retry (tries : Nat) (stored : Bool) : Nat :=
  match L.reload with
  | none => tries
  | some r => if stored then r else tries

/-- Go to the next position. -/
def advance (s : State σ β) : State σ β :=
  match L.next s.pos with
  | none => { s with stop := some .trap }
  | some p => { s with pos := p }

/-- The loop body. -/
def body (room : Option Nat) (tries : Nat) (s : State σ β) : State σ β :=
  let r := L.fillGroups room s.pos (L.groups s.pos) s.out
  match r.2 with
  | .fin => { s with out := r.1, stop := some .done }
  | .trap => { s with out := r.1, stop := some .trap }
  | _ => L.advance { s with out := r.1, tries := L.retry tries (s.out.length < r.1.length) }

/-- One pass. -/
def pass (room : Option Nat) (s : State σ β) : State σ β :=
  match s.stop with
  | some _ => s
  | none =>
      if L.hop s.pos then L.advance s
      else if full room s.out then { s with stop := some .done }
      else match L.tick s.tries with
        | none => { s with stop := some .done }
        | some t => L.body room t s

/-- `n` passes. -/
def passes (room : Option Nat) : Nat → State σ β → State σ β
  | 0, s => s
  | n + 1, s => passes room n (L.pass room s)

/-- The state a run from position `p` starts in. -/
def start (p : σ) : State σ β := ⟨p, L.reload.getD 0, [], none⟩

end Loop

end FillLoop
