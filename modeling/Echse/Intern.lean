/-
Interned strings: `hash.c` and `intern.c`.

An object id is the hash of a string, and the table finds every hash that has been put in.
So of the table there are the strings, in the order in which they have been pasted.  They
are put in by any hash here, `hash` being the one that there is.
-/
import Mathlib.Tactic

namespace Echse

/-! ### The hash -/

def prime321 : UInt32 := 2654435761

def prime322 : UInt32 := 2246822519

def prime323 : UInt32 := 3266489917

def prime324 : UInt32 := 668265263

def prime325 : UInt32 := 374761393

/-- `XXH_rotl32`. -/
def xxhRotl32 (x r : UInt32) : UInt32 := (x <<< r) ||| (x >>> (32 - r))

/-- The byte at an offset. -/
def xxhByte (s : List Char) (i : Nat) : UInt32 := .ofNat (s.getD i '\x00').toNat

/-- `XXH_get32bits`. -/
def xxhGet32bits (s : List Char) : UInt32 :=
  xxhByte s 0 ||| xxhByte s 1 <<< 8 ||| xxhByte s 2 <<< 16 ||| xxhByte s 3 <<< 24

/-- What is done to one of `v1` to `v4`. -/
def xxhRound (v : UInt32) (s : List Char) : UInt32 :=
  xxhRotl32 (v + xxhGet32bits s * prime322) 13 * prime321

/-- `n` times 16 bytes. -/
def xxhStripes : Nat → List Char → UInt32 → UInt32 → UInt32 → UInt32 → UInt32
  | 0, _, v1, v2, v3, v4 =>
      xxhRotl32 v1 1 + xxhRotl32 v2 7 + xxhRotl32 v3 12 + xxhRotl32 v4 18
  | n + 1, s, v1, v2, v3, v4 =>
      xxhStripes n (s.drop 16) (xxhRound v1 s) (xxhRound v2 (s.drop 4)) (xxhRound v3 (s.drop 8))
        (xxhRound v4 (s.drop 12))

/-- `n` times 4 bytes. -/
def xxhWords : Nat → List Char → UInt32 → UInt32
  | 0, _, h32 => h32
  | n + 1, s, h32 =>
      xxhWords n (s.drop 4) (xxhRotl32 (h32 + xxhGet32bits s * prime323) 17 * prime324)

/-- `hash`, on a little-endian machine. -/
def hash (s : List Char) : UInt32 :=
  let h32 :=
    if 16 ≤ s.length then
      xxhStripes (s.length / 16) s (prime321 + prime322) prime322 0 (-prime321)
    else prime325
  let h32 := h32 + .ofNat s.length
  let h32 := xxhWords (s.length % 16 / 4) (s.drop (s.length / 16 * 16)) h32
  let h32 := (s.drop (s.length / 4 * 4)).foldl (fun h32 c =>
    xxhRotl32 (h32 + .ofNat c.toNat * prime325) 11 * prime321) h32
  let h32 := (h32 ^^^ (h32 >>> 15)) * prime322
  let h32 := (h32 ^^^ (h32 >>> 13)) * prime323
  h32 ^^^ (h32 >>> 16)

/-! ### The table -/

/-- `u2h`. -/
def u2h (c : Nat) : Char := if c < 16 then c.digitChar else '?'

/-- The string that starts at a pointer. -/
def cStr (s : List Char) : List Char := s.takeWhile (· ≠ '\x00')

/-- What `obint_name` makes up for a hash that is not in the table. -/
def autoUid (hx : Nat) : List Char :=
  "echse/autouid-0x".toList ++ (List.range 8).reverse.map (fun j => u2h (hx / 16 ^ j % 16)) ++
    "@echse".toList

section

variable (hash : List Char → UInt32)

/-- `obint`. -/
def obint (str : List Char) : Nat := (hash str).toNat

/-- The object id that `intern` returns. -/
def intern (str : List Char) : Nat :=
  -- don't bother
  if str.length = 0 ∨ 256 ≤ str.length then 0 else obint hash str

/-- The strings after `intern`.  A free slot looks like one of hash 0, so a string of that
hash is not put in. -/
def internObs (obs : List (List Char)) (str : List Char) : List (List Char) :=
  if intern hash str = 0 ∨ obs.any (fun s => obint hash s = intern hash str) then obs
  else obs ++ [str]

/-- `obint_name`, which is `NULL` as long as there are no strings.  No id gets the string
that has been pasted first. -/
def obintName (obs : List (List Char)) (hx : Nat) : Option (List Char) :=
  if hx = 0 then obs.head?.map cStr
  else some ((obs.find? fun s => obint hash s = hx).elim (autoUid hx) cStr)

end

end Echse
