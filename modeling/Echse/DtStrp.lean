/-
Reading an instant: `dt_strp` of `dt-strpf.c`.

A C string is the list of its characters, and reading past its end gives the
terminating NUL.  The reader bounds some of its looks by an end pointer `ep`, so a
position is carried along with the text that is left.
-/
import Echse.Instant

namespace Echse

/-- A read pointer: how far it is from the start, and what it points at. -/
structure Cursor where
  off : Nat
  rest : List Char

namespace Cursor

/-- `*sp`. -/
def peek (c : Cursor) : Char := c.rest.headD '\x00'

/-- `sp++`. -/
def adv (c : Cursor) : Cursor := ⟨c.off + 1, c.rest.tail⟩

end Cursor

/-- `(uint8_t)(c ^ '0')` where it is below 10. -/
def digitOf (c : Char) : Option Nat :=
  if '0'.toNat ≤ c.toNat ∧ c.toNat ≤ '9'.toNat then some (c.toNat - '0'.toNat) else none

/-- A digit below `lim`, and the pointer past it. -/
def readDigit (lim : Nat) (c : Cursor) : Option (Nat × Cursor) := do
  let v ← digitOf c.peek
  if v < lim then some (v, c.adv) else none

/-- Two digits, the first below `lim`. -/
def readTwo (lim : Nat) (c : Cursor) : Option (Nat × Cursor) := do
  let (a, c) ← readDigit lim c
  let (b, c) ← readDigit 10 c
  some (10 * a + b, c)

def readYear (c : Cursor) : Option (Nat × Cursor) := do
  let (a, c) ← readTwo 10 c
  let (b, c) ← readTwo 10 c
  some (100 * a + b, c)

/-- Overread one separator. -/
def skipChar (x : Char) (c : Cursor) : Cursor := if c.peek = x then c.adv else c

def readHour (c : Cursor) : Option (Nat × Cursor) :=
  if c.peek = '2' then do
    let (b, c) ← readDigit 4 c.adv
    some (20 + b, c)
  else readTwo 2 c

/-- The milliseconds: digits are taken while the value, started at 100 so that the
first three are told apart from none, stays below 100000. -/
def readMs : Nat → Nat → Cursor → Nat × Cursor
  | 0, tmp, c => (tmp, c)
  | fuel + 1, tmp, c =>
      match digitOf c.peek with
      | some v => if tmp < 100000 then readMs fuel (tmp * 10 + v) c.adv else (tmp, c)
      | none => (tmp, c)

/-- The seconds and milliseconds; `ep` is the end pointer. -/
def readSeconds (ep y m d H M : Nat) (c : Cursor) : Instant × Cursor :=
  -- seconds are optional
  let c := if ep ≤ c.off ∨ c.peek = ':' then c.adv else c
  if ep < c.off + 2 then (.pack y m d H M 0 0, c)
  else
    let (S, c) :=
      if c.peek = '6' ∧ c.adv.peek = '0' then (60, c.adv.adv)
      else match readTwo 6 c with
        | some r => r
        | none => (0, if (readDigit 6 c).isSome then c.adv else c)
    if ep ≤ c.off ∨ c.peek ≠ '.' then (.pack y m d H M S echsAllSec, c)
    else
      let (ms, c) := readMs 8 100 c.adv
      (.pack y m d H M S (ms % 1000), c)

/-- The time of day, after the date. -/
def readTime (ep y m d : Nat) (c : Cursor) : Option (Instant × Cursor) :=
  if ep ≤ c.off ∨ (c.peek ≠ 'T' ∧ c.peek ≠ ' ') then
    some (.pack y m d echsAllDay 0 0 0, c)
  else if ep ≤ c.off + 4 then none
  else do
    let (H, c) ← readHour c.adv
    -- furthermore, we demand minutes
    let c := skipChar ':' c
    if ep < c.off + 2 then none
    else
      let (M, c) ← readTwo 6 c
      some (readSeconds ep y m d H M c)

/-- The instant at the start of `str`, and where the reader stopped; nothing is the
nul instant.  A `len` of 0 stands for 23. -/
def dtStrpOn (str : List Char) (len : Nat) : Option (Instant × List Char) :=
  let ep := if len = 0 then 23 else len
  if len ≠ 0 ∧ len < 8 then none
  else do
    let (y, c) ← readYear ⟨0, str⟩
    let (m, c) ← readTwo 2 (skipChar '-' c)
    let c := skipChar '-' c
    if ep ≤ c.off then none
    else
      let (a, c) ← readDigit 4 c
      if ep ≤ c.off then none
      else
        let (b, c) ← readDigit 10 c
        let (res, c) ← readTime ep y m (10 * a + b) c
        -- always overread final Z
        some (res, (skipChar 'Z' c).rest)

def dtStrp (str : List Char) (len : Nat) : Instant :=
  match dtStrpOn str len with
  | some (i, _) => i
  | none => echsNulInstant

/-! ### Durations -/

/-- A run of digits in an `unsigned int`, and the pointer past it. -/
def readVal : Nat → Nat → Nat → Cursor → Nat × Cursor
  | 0, _, val, c => (val, c)
  | fuel + 1, len, val, c =>
      match digitOf c.peek with
      | some v => if c.off < len then readVal fuel len (u32 (val * 10 + v)) c.adv else (val, c)
      | none => (val, c)

/-- `more_time:`, with the flags of the units seen so far.  A unit is or-ed with them, so
after some of them it is not found any more. -/
def idiffTime : Nat → Nat → Nat → Int → Cursor → Int × Cursor
  | 0, _, _, msd, c => (msd, c)
  | fuel + 1, len, step, msd, c =>
      let (val, c) := readVal (len + 1) len 0 c
      let unit := c.peek.toNat ||| step
      if unit = 'H'.toNat then
        idiffTime fuel len (step ||| 0x1) (intOfWord 32 (wordOfInt 32 (msd + val * 3600000))) c.adv
      else if unit = 'M'.toNat then
        idiffTime fuel len (step ||| 0x11) (intOfWord 32 (wordOfInt 32 (msd + val * 60000))) c.adv
      else if unit = 'S'.toNat then
        idiffTime fuel len (step ||| 0x21) (intOfWord 32 (wordOfInt 32 (msd + val * 1000))) c.adv
      else (msd, c.adv)

/-- `more_date:`, with the days so far and whether there were weeks and days.  Nothing is
the exit that drops the value, which the sum then makes up again. -/
def idiffDate : Nat → Nat → Bool → Bool → Int → Cursor → Int × Int × Cursor
  | 0, _, _, _, dd, c => (dd, 0, c)
  | fuel + 1, len, seenW, seenD, dd, c =>
      let (val, c) := readVal (len + 1) len 0 c
      if c.peek = 'T' then
        let (msd, c) := idiffTime (len + 2) len 0 0 c.adv
        (dd, msd, c)
      else if c.peek = 'W' ∧ !seenW then
        idiffDate fuel len true seenD (intOfWord 32 (wordOfInt 32 (dd + val * 7))) c.adv
      else if c.peek = 'D' ∧ !seenD then
        idiffDate fuel len seenW true (intOfWord 32 (wordOfInt 32 (dd + val))) c.adv
      else (dd, 0, c.adv)

/-- `idiff_strp`: the milliseconds, and how far it has read.  After a sign it only looks
for the `P`. -/
def idiffStrp (str : List Char) (len : Nat) : Int × Nat :=
  let c : Cursor := ⟨0, str⟩
  if len < 3 then (0, 0)
  else if c.peek = 'P' then
    let (dd, msd, c) := idiffDate (len + 2) len false false 0 c.adv
    (wordOfInt 32 (dd * 86400000 + msd), c.off)
  else if c.peek = '-' then (0, 2)
  else if c.peek = '+' then (0, 2)
  else (0, 1)

end Echse
