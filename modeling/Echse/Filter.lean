/-
Rules as a query language: `echs_instant_matches_p` of `evrrul.c`.

The whitelist is static, so a query finds it as the query before has left it.  A list that is
passed is filled again, from the beginning of the month asked for, and this goes on until there
is something in it that is not before the instant, so there is a number of rounds to give.  The
marks that `rrul_fill_yly` leaves behind the events are never looked at and left out here; those
of the events from the 193rd on would be behind the array.
-/
import Echse.Expand

namespace Echse

/-- `countof(wl)`. -/
def wlSize : Nat := 256

/-- `-1UL` in `nwl`. -/
def nwlNever : Nat := 18446744073709551615

/-- `wl`, `nwl` and `iwl`. -/
structure Whitelist where
  wl : List Instant := []
  nwl : Nat := 0
  iwl : Nat := 0
deriving DecidableEq, Repr

/-- How many entries come before an instant, up to the first one that does not. -/
def countBefore (inst : Instant) (wl : List Instant) : Nat :=
  (wl.takeWhile fun e => echsInstantLtP e inst).length

/-- `for (; iwl < nwl && echs_instant_lt_p(wl[iwl], inst); iwl++)`. -/
def Whitelist.forward (s : Whitelist) (inst : Instant) : Whitelist :=
  { s with iwl := s.iwl + countBefore inst ((s.wl.take s.nwl).drop s.iwl) }

/-- `proto.d = 0`. -/
def matchProto (inst : Instant) : Instant :=
  .pack inst.y inst.m 0 inst.H inst.M inst.S inst.ms

/-- What `rrul_fill_yly` puts in the list, with `fuel` passes; nothing if it is still at work. -/
def fillWhitelist (fuel : Nat) (filt : Rrulsp) (inst : Instant) : Option (List Instant) :=
  let X := rrulFillYly (matchProto inst) wlSize filt
  if (X.after fuel).stop = some .done then some (X.events fuel) else none

/-- The rounds from `ffw` on. -/
def matchRounds (fill : Option (List Instant)) (inst : Instant) :
    Nat → Whitelist → Option (Bool × Whitelist)
  | 0, _ => none
  | n + 1, s =>
      let s := s.forward inst
      if s.iwl < s.nwl then
        some ((s.wl[s.iwl]?).any (echsInstantEqP · inst), s)
      else match fill with
        | none => none
        | some [] => some (false, { s with nwl := nwlNever })
        -- reset state and retry the fast forwarding
        | some wl => matchRounds fill inst n ⟨wl, wl.length, 0⟩

/-- `echs_instant_matches_p`, with so many passes for an expander and rounds for a query;
nothing if it is still at work. -/
def echsInstantMatchesP (fuel : Nat) (filt : Rrulsp) (inst : Instant) (s : Whitelist) :
    Option (Bool × Whitelist) :=
  if wlSize < s.nwl then some (false, s)
  else matchRounds (fillWhitelist fuel filt inst) inst fuel s

end Echse
