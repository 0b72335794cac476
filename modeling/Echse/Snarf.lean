/-
Reading a recurrence rule: `snarf_rrule` of `evical.c` and what it calls.

The text is a C string that ends where `s + z` points.  A pointer into it is what is
left of the text from there on, so a search that does not stop at the end of the
current part, as the one for the next comma of `BYDAY`, runs into the parts after it.
-/
import Echse.Rrule
import Echse.DtStrp

namespace Echse

/-! ### `strtol` and `strtoul` -/

def isSpaceC (c : Char) : Bool :=
  c == ' ' || c == '\t' || c == '\n' || c == '\x0b' || c == '\x0c' || c == '\r'

/-- The value of a run of digits. -/
def digitsVal (ds : List Char) : Nat := ds.foldl (fun a c => a * 10 + (c.toNat - '0'.toNat)) 0

/-- A number at the start of a text: whether it is negative, its magnitude and the
text after it.  Without digits nothing is consumed. -/
def readNum (s : List Char) : Bool × Nat × List Char :=
  let t := s.dropWhile isSpaceC
  let neg := t.head? == some '-'
  let t := if t.head? = some '-' ∨ t.head? = some '+' then t.tail else t
  let ds := t.takeWhile Char.isDigit
  if ds.isEmpty then (false, 0, s) else (neg, digitsVal ds, t.drop ds.length)

/-- `strtol(s, &on, 10)` on a 64-bit `long int`. -/
def strtol (s : List Char) : Int × List Char :=
  let (neg, v, on) := readNum s
  (max (-9223372036854775808) (min 9223372036854775807 (if neg then -(v : Int) else v)), on)

/-- `strtoul(s, &on, 10)`. -/
def strtoul (s : List Char) : Nat × List Char :=
  let (neg, v, on) := readNum s
  if 18446744073709551615 < v then (18446744073709551615, on)
  else if neg then ((18446744073709551616 - v) % 18446744073709551616, on)
  else (v, on)

/-- A `long int` assigned to an `int`. -/
def intOfLong (z : Int) : Int := intOfWord 32 (wordOfInt 32 z)

/-! ### The values -/

def snarfFreq (spec : List Char) : Freq :=
  if "YEARLY".toList.isPrefixOf spec then .yearly
  else if "MINUTELY".toList.isPrefixOf spec then .minutely
  else if "MONTHLY".toList.isPrefixOf spec then .monthly
  else if "WEEKLY".toList.isPrefixOf spec then .weekly
  else if "DAILY".toList.isPrefixOf spec then .daily
  else if "HOURLY".toList.isPrefixOf spec then .hourly
  else if "SECONDLY".toList.isPrefixOf spec then .secondly
  else .none

def snarfWday (s : List Char) : Nat :=
  match s with
  | 'M' :: _ => 1
  | 'W' :: _ => 3
  | 'F' :: _ => 5
  | 'R' :: _ => 4
  | 'A' :: _ => 6
  | 'T' :: 'H' :: _ => 4
  | 'T' :: _ => 2
  | 'S' :: 'A' :: _ => 6
  | 'S' :: _ => 7
  | _ => wdayMir

/-- `spec[i]`. -/
def charAt (spec : List Char) (i : Nat) : Char := spec.getD i '\x00'

/-- Gent's types: `I` and `V` are counted up while the pointer goes on. -/
def snarfHijri (spec : List Char) : Nat :=
  let r := 1
  let kp := 7
  -- `*kp == 'V' || *kp++ == 'I'` moves on unless there is a `V`
  let r := r + if charAt spec kp = 'V' ∨ charAt spec kp = 'I' then 2 else 0
  let kp := if charAt spec kp = 'V' then kp else kp + 1
  let r := r + if charAt spec kp = 'V' ∨ charAt spec kp = 'I' then 2 else 0
  let kp := if charAt spec kp = 'V' then kp else kp + 1
  let r := r + if charAt spec kp = 'C' then 1 else 0
  let r := r + if charAt spec kp = 'V' then 2 else 0
  r + if charAt spec (kp + 1) = 'C' then 1 else 0

def snarfScale (spec : List Char) : Scale :=
  if charAt spec 0 = 'H' then
    if charAt spec 5 = '.' then
      if charAt spec 6 = 'D' then .hijriDiyanet
      else if charAt spec 6 = 'I' then (Scale.ofNum (snarfHijri spec)).getD .gregorian
      else .hijriUmmulqura
    else .hijriUmmulqura
  else .gregorian

/-- One turn of `again:` in `snarf_shift`: the flags after a `B`.  The result is the
flags so far and the text from the character that ends the item. -/
def snarfSem (tmp : Int) : List Char → Nat → Nat × List Char
  | '+' :: s, sem => snarfSem tmp s (sem ||| if 0 ≤ tmp then 2 else 0)
  | '-' :: s, sem => snarfSem tmp s (sem ||| if tmp < 0 then 2 else 0)
  | s, sem => (sem, s)

/-- Whether a text is at the end of a part. -/
def atEnd (s : List Char) : Bool := s.isEmpty || s.head? == some ';'

/-- The value of a shift: `(d << 16) ^ (b << 2) ^ sem` in 32 bits. -/
def shiftCode (d b : Int) (sem : Nat) : Int :=
  intOfWord 32 (Nat.xor (Nat.xor (wordOfInt 32 (d * 65536)) (wordOfInt 32 (b * 4))) sem)

/-- `more:` in `snarf_shift`, with the sums and flags so far. -/
def snarfShiftItems : Nat → List Char → Int → Int → Nat → Int
  | 0, _, _, _, _ => 0
  | fuel + 1, spec, d, b, sem =>
      let (tmp, on) := strtol spec
      match on with
      | 'b' :: s | 'B' :: s =>
          -- yes, it was a businessday shift
          let (sem, s) := snarfSem tmp s sem
          let b := intOfLong (b + tmp)
          match s with
          | ',' :: s => snarfShiftItems fuel s d b sem
          | s =>
              if atEnd s then
                let sem := sem ||| (if b < 0 then 1 else 0) ||| (if b = 0 then 2 else 0)
                shiftCode d (if 0 ≤ b then b else -b) sem
              else 0
      | ',' :: s => snarfShiftItems fuel s (intOfLong (d + tmp)) b sem
      | s => if atEnd s then shiftCode (intOfLong (d + tmp)) b sem else 0

def snarfShift (spec : List Char) : Int := snarfShiftItems (spec.length + 1) spec 0 0 0

/-! ### The parts -/

inductive RrulKey where
  | freq | until_ | count | inter | wkst | scale | shift
  | bySec | byMin | byHour | byWday | byMday | byYday | byWeek | byMon | byPos | byEaster
deriving DecidableEq, Repr

/-- `__evrrul_key`, over the table of `evrrul-gp.erf`. -/
def evrrulKey (key : List Char) : Option RrulKey :=
  if key = "FREQ".toList then some .freq
  else if key = "UNTIL".toList then some .until_
  else if key = "COUNT".toList then some .count
  else if key = "INTERVAL".toList then some .inter
  else if key = "WKST".toList then some .wkst
  else if key = "SCALE".toList then some .scale
  else if key = "SHIFT".toList then some .shift
  else if key = "BYSECOND".toList then some .bySec
  else if key = "BYMINUTE".toList then some .byMin
  else if key = "BYHOUR".toList then some .byHour
  else if key = "BYDAY".toList then some .byWday
  else if key = "BYMONTHDAY".toList then some .byMday
  else if key = "BYYEARDAY".toList then some .byYday
  else if key = "BYWEEKNO".toList then some .byWeek
  else if key = "BYMONTH".toList then some .byMon
  else if key = "BYSETPOS".toList then some .byPos
  else if key = "BYEASTER".toList then some .byEaster
  else none

/-- The `do .. while` of `BYDAY`: counted weekdays, looked for after every comma up to
the end of the whole text. -/
def snarfWdays : Nat → List Char → Bitints → Bitints
  | 0, _, dow => dow
  | fuel + 1, kv, dow =>
      let (tmp, on) := strtol kv
      let w := snarfWday on
      let dow :=
        if w ≠ wdayMir ∧ -53 ≤ tmp ∧ tmp ≤ 53 then assBi447 dow (packCd ⟨tmp, w⟩) else dow
      match on.dropWhile (· ≠ ',') with
      | [] => dow
      | _ :: kv => snarfWdays fuel kv dow

/-- The `do .. while` of the other lists: each value is handed to `ass`, as long as a
comma follows directly. -/
def snarfList {σ α : Type} (read : List Char → α × List Char) (ass : σ → α → σ) :
    Nat → List Char → σ → σ
  | 0, _, s => s
  | fuel + 1, kv, s =>
      let (tmp, on) := read kv
      match on with
      | ',' :: kv => snarfList read ass fuel kv (ass s tmp)
      | _ => ass s tmp

/-- The unsigned lists keep the values up to a bound. -/
def snarfUints (ok : Nat → Bool) (ass : Nat → Nat → Nat) (kv : List Char) (bi : Nat) : Nat :=
  snarfList strtoul (fun bi v => if ok v then ass bi v else bi) (kv.length + 1) kv bi

/-- The signed lists keep the values of magnitude up to a bound, and never 0. -/
def snarfInts {σ : Type} (lim : Int) (ass : σ → Int → σ) (kv : List Char) (bi : σ) : σ :=
  snarfList strtol (fun bi v => if v ≠ 0 ∧ -lim ≤ v ∧ v ≤ lim then ass bi v else bi)
    (kv.length + 1) kv bi

/-- One part with a known key; nothing is the `bogus` exit. -/
def snarfPart (key : RrulKey) (kv : List Char) (rr : Rrulsp) : Option Rrulsp :=
  match key with
  | .freq => some { rr with freq := snarfFreq kv }
  | .count =>
      if (strtol kv).1 = 0 then none else some { rr with count := intOfLong (strtol kv).1 }
  | .inter =>
      if (strtol kv).1 = 0 then none else some { rr with inter := u32OfInt (strtol kv).1 }
  | .until_ => some { rr with until_ := dtStrp kv 0 }
  | .scale => some { rr with scale := snarfScale kv }
  | .shift => some { rr with shift := snarfShift kv }
  | .byWday => some { rr with dow := snarfWdays (kv.length + 1) kv rr.dow }
  | .byMon =>
      some { rr with mon := snarfUints (fun v => v ≠ 0 && v ≤ 12) assBui31 kv rr.mon }
  | .byHour => some { rr with H := snarfUints (· ≤ 24) assBui31 kv rr.H }
  | .byMin => some { rr with M := snarfUints (· < 60) assBui63 kv rr.M }
  | .bySec => some { rr with S := snarfUints (· ≤ 60) assBui63 kv rr.S }
  | .byMday => some { rr with dom := snarfInts 31 assBi31 kv rr.dom }
  | .byWeek => some { rr with wk := snarfInts 53 assBi63 kv rr.wk }
  | .byYday => some { rr with doy := snarfInts 366 assBi383 kv rr.doy }
  | .byPos => some { rr with pos := snarfInts 366 assBi383 kv rr.pos }
  | .byEaster =>
      some { rr with
        easter := snarfList strtol
          (fun bi v => if -366 ≤ v ∧ v ≤ 366 then assBi383 bi v else bi)
          (kv.length + 1) kv rr.easter }
  | .wkst => some rr

/-- The loop over the parts; `fuel` is bounded by the text, every turn of the loop
leaves at least one character behind. -/
def snarfParts : Nat → List Char → Rrulsp → Option Rrulsp
  | 0, _, rr => some rr
  | fuel + 1, sp, rr =>
      if sp.isEmpty then some rr
      else
        -- past the end of this part
        let next := (sp.dropWhile (· ≠ ';')).tail
        let key := sp.takeWhile (· ≠ '=')
        match sp.dropWhile (· ≠ '=') with
        | [] => snarfParts fuel next rr
        | _ :: kv =>
            if key.contains ';' then snarfParts fuel next rr
            else match evrrulKey key with
              | none => snarfParts fuel next rr
              | some k => match snarfPart k kv rr with
                | none => none
                | some rr => snarfParts fuel next rr

/-- The rule a text stands for. -/
def snarfRrule (s : List Char) : Rrulsp :=
  match snarfParts (s.length + 1) s {} with
  | some rr => rr
  | none => { freq := .none, count := 0, inter := 0, until_ := echsNulInstant }

end Echse
