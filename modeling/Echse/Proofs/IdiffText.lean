/-
What `idiff_strf` writes, and what `idiff_strp` makes of it.

The writer has the digits counted by `ilog10_ceil`, which is enough of them for any
`unsigned int`, so a part is its number and its letter.  The reader is back at its start
after every part, with the letters seen so far or-ed into the next one.

What it sums up is an `unsigned int` of milliseconds, and after a sign it does not look at
the parts at all.
-/
import Echse.DtStrf
import Echse.Proofs.Ranges
import Echse.Proofs.Stamps

namespace Echse

/-! ### How many digits a number has -/

/-- Below the `k`-th bit the topmost `w` are set, and from it on none is. -/
structure Topped (k w x : Nat) : Prop where
  lt : x < 2 ^ k
  bit : ∀ i, i < k → k ≤ i + w → x.testBit i = true

theorem Topped.start {x : Nat} (h : x ≠ 0) : Topped (x.log2 + 1) 1 x := by
  refine ⟨Nat.lt_log2_self, ?_⟩
  intro i hi hk
  rw [show i = x.log2 by omega]
  exact Nat.testBit_log2 h

theorem Topped.step {k w x : Nat} (h : Topped k w x) : Topped k (w + w) (x ||| x >>> w) := by
  have hshift : x >>> w < 2 ^ k := by
    rw [Nat.shiftRight_eq_div_pow]
    exact lt_of_le_of_lt (Nat.div_le_self _ _) h.lt
  refine ⟨Nat.or_lt_two_pow h.lt hshift, ?_⟩
  intro i hi hk
  rw [Nat.testBit_or, Nat.testBit_shiftRight, Bool.or_eq_true]
  by_cases hw : k ≤ i + w
  · exact Or.inl (h.bit i hi hw)
  · exact Or.inr (h.bit (w + i) (by omega) (by omega))

theorem Topped.eq {k w x : Nat} (h : Topped k w x) (hk : k ≤ w) : x = 2 ^ k - 1 := by
  apply Nat.eq_of_testBit_eq
  intro i
  rw [Nat.testBit_two_pow_sub_one]
  by_cases hi : i < k
  · rw [h.bit i hi (by omega)]
    exact (decide_eq_true hi).symm
  · rw [Nat.testBit_lt_two_pow (lt_of_lt_of_le h.lt (Nat.pow_le_pow_right (by decide) (by omega)))]
    exact (decide_eq_false hi).symm

theorem smear_eq {x : Nat} (h : x ≠ 0) (hx : x < 2 ^ 32) : smear x = 2 ^ (x.log2 + 1) - 1 := by
  have hlog : x.log2 < 32 := (Nat.log2_lt h).mpr hx
  exact (Topped.start h).step.step.step.step.step.eq (by omega)

/-- The table is indexed by a product that tells all the smeared words apart. -/
theorem deBruijns_spec : ∀ k < 33, 4 ≤ k →
    deBruijns.getD (u32 ((2 ^ k - 1) * 0x07c4acdd) >>> 27) 0 = k := by
  decide

theorem ilog2Ceil_spec {n : Nat} (h : n < 2 ^ 32) :
    n < 2 ^ ilog2Ceil n ∧ 4 ≤ ilog2Ceil n ∧ ilog2Ceil n ≤ 32 := by
  have hx : n ||| 0b1111 < 2 ^ 32 := Nat.or_lt_two_pow h (by decide)
  have hle : n ≤ n ||| 0b1111 := Nat.left_le_or
  have h15 : 0b1111 ≤ n ||| 0b1111 := Nat.right_le_or
  have h0 : n ||| 0b1111 ≠ 0 := by omega
  have hlo : 3 ≤ (n ||| 0b1111).log2 := (Nat.le_log2 h0).mpr (by omega)
  have hhi : (n ||| 0b1111).log2 < 32 := (Nat.log2_lt h0).mpr hx
  have heq : ilog2Ceil n = (n ||| 0b1111).log2 + 1 := by
    unfold ilog2Ceil
    rw [smear_eq h0 hx]
    exact deBruijns_spec _ (by omega) (by omega)
  rw [heq]
  exact ⟨lt_of_le_of_lt hle Nat.lt_log2_self, by omega, by omega⟩

/-- The estimate is one digit short at most. -/
theorem tenPows_spec : ∀ k < 33, 4 ≤ k →
    tenPows.getD ((k * 1233) >>> 12) 0 = 10 ^ ((k * 1233) >>> 12) ∧
      2 ^ k ≤ 10 ^ ((k * 1233) >>> 12 + 1) ∧ (k * 1233) >>> 12 ≤ 9 := by
  decide

theorem ilog10Ceil_spec {n : Nat} (h : n < 2 ^ 32) : n < 10 ^ ilog10Ceil n ∧ ilog10Ceil n ≤ 10 := by
  obtain ⟨hlt, hlo, hhi⟩ := ilog2Ceil_spec h
  obtain ⟨hpow, hnext, hnine⟩ := tenPows_spec _ (by omega) hlo
  unfold ilog10Ceil
  dsimp only
  rw [hpow]
  split
  · exact ⟨lt_of_lt_of_le hlt hnext, by omega⟩
  · next hless =>
      rw [Nat.add_zero]
      exact ⟨not_le.mp hless, by omega⟩

/-! ### A part -/

/-- A part as it is written. -/
def unitText (unit : Char) (n : Nat) : List Char :=
  if n = 0 then [] else lastDigits (ilog10Ceil n) n ++ [unit]

theorem length_lastDigits (l d : Nat) : (lastDigits l d).length = l := by
  induction l generalizing d with
  | zero => rfl
  | succ l ih => simp [lastDigits, ih]

theorem ilog10Ceil_two : ∀ n < 100, ilog10Ceil n ≤ 2 := by
  decide

theorem length_unitText (unit : Char) {n : Nat} (h : n < 100) : (unitText unit n).length ≤ 3 := by
  have hl := ilog10Ceil_two n h
  unfold unitText
  split
  · exact Nat.zero_le 3
  · rw [List.length_append, length_lastDigits, List.length_singleton]
    omega

theorem unitText_ne_nil (unit : Char) {n : Nat} (h0 : n ≠ 0) (h : n < 100) :
    2 ≤ (unitText unit n).length := by
  have hlt := (ilog10Ceil_spec (n := n) (by omega)).1
  have hpos : ilog10Ceil n ≠ 0 := by
    intro hz
    rw [hz] at hlt
    omega
  rw [unitText, if_neg h0, List.length_append, length_lastDigits, List.length_singleton]
  omega

/-- Where there is room for it a part is put whole. -/
theorem putUnit_eq (unit : Char) {bsz n : Nat} {buf : List Char} (h : n < 100)
    (hroom : buf.length + 3 ≤ bsz) : putUnit bsz unit n buf = buf ++ unitText unit n := by
  have hl := ilog10Ceil_two n h
  unfold putUnit unitText
  split
  · exact (List.append_nil buf).symm
  · have hstr : ui32tostr (bsz - buf.length) n = lastDigits (ilog10Ceil n) n := by
      unfold ui32tostr
      exact if_neg (by omega)
    dsimp only
    rw [hstr, if_neg (by rw [List.length_append, length_lastDigits]; omega), List.append_assoc]

/-- What `idiff_strf` writes after the days. -/
def timeText (ms : Nat) : List Char :=
  if ms = 0 then []
  else 'T' :: (unitText 'H' (ms / 3600000) ++ (unitText 'M' (ms % 3600000 / 60000) ++
    unitText 'S' (ms % 3600000 % 60000 / 1000)))

theorem idiffStrf_eq {bsz d : Nat} (hbsz : 16 ≤ bsz) (h0 : d ≠ 0) (hd : d < 2 ^ 32) :
    idiffStrf bsz d = 'P' :: (unitText 'D' (d / 86400000) ++ timeText (d % 86400000)) := by
  have hword : u32 (d / 86400000) = d / 86400000 := u32_of_lt (by omega)
  have hhour : u32 (d % 86400000 / 3600000) = d % 86400000 / 3600000 := u32_of_lt (by omega)
  have hrest : (if d / 86400000 = 0 then d else d % 86400000) = d % 86400000 := by
    split
    · omega
    · rfl
  have hlenD := length_unitText 'D' (n := d / 86400000) (by omega)
  have hlenH := length_unitText 'H' (n := d % 86400000 / 3600000) (by omega)
  have hlenM := length_unitText 'M' (n := d % 86400000 % 3600000 / 60000) (by omega)
  have hlenS := length_unitText 'S' (n := d % 86400000 % 3600000 % 60000 / 1000) (by omega)
  have hneg : ¬ ((d : Int) < 0) := by omega
  have hone : (['P'] : List Char).length = 1 := rfl
  unfold idiffStrf timeText
  rw [if_neg (by omega)]
  simp only [hneg, Int.natAbs_natCast, h0, if_false, hword, hrest, hhour]
  rw [putUnit_eq 'D' (by omega) (by omega)]
  by_cases hday : d % 86400000 = 0
  · rw [if_pos (Or.inl hday), if_pos hday, if_pos (by rw [List.length_append]; omega), List.append_nil]
    rfl
  · have hroom : ¬ (d % 86400000 = 0 ∨ bsz ≤ (['P'] ++ unitText 'D' (d / 86400000)).length) := by
      rw [List.length_append]
      omega
    have hlenT : (['T'] : List Char).length = 1 := rfl
    rw [if_neg hroom, if_neg hday, putUnit_eq 'H' (by omega) (by simp only [List.length_append]; omega),
      putUnit_eq 'M' (by omega) (by simp only [List.length_append]; omega),
      putUnit_eq 'S' (by omega) (by simp only [List.length_append]; omega),
      if_pos (by simp only [List.length_append]; omega)]
    simp

/-! ### Reading it -/

theorem readVal_stop {s : List Char} (h : digitOf (s.headD '\x00') = none) (fuel len val off : Nat) :
    readVal fuel len val ⟨off, s⟩ = (val, ⟨off, s⟩) := by
  cases fuel with
  | zero => rfl
  | succ fuel =>
      unfold readVal
      rw [show (⟨off, s⟩ : Cursor).peek = s.headD '\x00' from rfl, h]

/-- The digits of a number are taken in one after the other. -/
theorem readVal_lastDigits {len : Nat} (l : Nat) {d fuel off : Nat} {s : List Char} (hd : d < 2 ^ 32)
    (hroom : off + l ≤ len) : readVal (fuel + l) len 0 ⟨off, lastDigits l d ++ s⟩ =
      readVal fuel len (d % 10 ^ l) ⟨off + l, s⟩ := by
  induction l generalizing d fuel s with
  | zero => rw [Nat.pow_zero, Nat.mod_one]; rfl
  | succ l ih =>
      have hval : d / 10 % 10 ^ l * 10 + d % 10 = d % 10 ^ (l + 1) := by
        rw [Nat.pow_succ, Nat.mul_comm (10 ^ l) 10, Nat.mod_mul]
        omega
      have hword : u32 (d % 10 ^ (l + 1)) = d % 10 ^ (l + 1) :=
        u32_of_lt (lt_of_le_of_lt (Nat.mod_le _ _) hd)
      rw [lastDigits, List.append_assoc, List.singleton_append, show fuel + (l + 1) = fuel + 1 + l by omega,
        ih (by omega) (by omega), readVal]
      simp only [Cursor.peek, Cursor.adv, List.headD_cons, List.tail_cons,
        digitOf_digitChar (Nat.mod_lt d (by decide : 10 > 0))]
      rw [if_pos (by omega), hval, hword]
      rfl

/-- A part is read as its number, and the pointer is on the letter. -/
theorem readVal_unit {unit : Char} (hunit : digitOf unit = none) {len n off : Nat} {s : List Char}
    (h : n < 100) (hroom : off + ilog10Ceil n ≤ len) :
    readVal (len + 1) len 0 ⟨off, lastDigits (ilog10Ceil n) n ++ (unit :: s)⟩ =
      (n, ⟨off + ilog10Ceil n, unit :: s⟩) := by
  rw [show len + 1 = len + 1 - ilog10Ceil n + ilog10Ceil n by omega,
    readVal_lastDigits _ (by omega) hroom, readVal_stop (s := unit :: s) hunit,
    Nat.mod_eq_of_lt (ilog10Ceil_spec (by omega)).1]

/-- The units of a time, what they leave in `step`, and their milliseconds. -/
def timeUnits : List (Char × Nat × Nat) := [('H', 0x1, 3600000), ('M', 0x11, 60000), ('S', 0x21, 1000)]

/-- A unit that is not seen yet adds what was read before it. -/
theorem idiffTime_letter {unit : Char} {flag w step n len off off' fuel : Nat} {s r : List Char}
    {msd : Int} (hmem : (unit, flag, w) ∈ timeUnits) (hstep : unit.toNat ||| step = unit.toNat)
    (hread : readVal (len + 1) len 0 ⟨off, s⟩ = (n, ⟨off', unit :: r⟩))
    (h0 : 0 ≤ msd) (hmsd : msd + n * w < 2 ^ 31) :
    idiffTime (fuel + 1) len step msd ⟨off, s⟩ =
      idiffTime fuel len (step ||| flag) (msd + n * w) ⟨off' + 1, r⟩ := by
  have hprod : (0 : Int) ≤ n * w := by positivity
  have hsum : intOfWord 32 (wordOfInt 32 (msd + n * w)) = msd + n * w :=
    intOfWord_wordOfInt (by decide) (by omega) hmsd
  rw [idiffTime, hread]
  simp only [Cursor.peek, Cursor.adv, List.headD_cons, List.tail_cons, hstep]
  simp only [timeUnits, List.mem_cons, Prod.mk.injEq, List.not_mem_nil, or_false] at hmem
  rcases hmem with ⟨rfl, rfl, rfl⟩ | ⟨rfl, rfl, rfl⟩ | ⟨rfl, rfl, rfl⟩
  · rw [if_pos rfl]
    exact congrArg (idiffTime fuel len (step ||| 0x1) · ⟨off' + 1, r⟩) hsum
  · rw [if_neg (by decide), if_pos rfl]
    exact congrArg (idiffTime fuel len (step ||| 0x11) · ⟨off' + 1, r⟩) hsum
  · rw [if_neg (by decide), if_neg (by decide), if_pos rfl]
    exact congrArg (idiffTime fuel len (step ||| 0x21) · ⟨off' + 1, r⟩) hsum

/-- With `k` rounds or more `s` is read as `v` milliseconds. -/
def ReadsTime (len k step off : Nat) (s : List Char) (v : Nat) : Prop :=
  ∀ (fuel : Nat) (msd : Int), k ≤ fuel → 0 ≤ msd → msd + v < 2 ^ 31 →
    (idiffTime fuel len step msd ⟨off, s⟩).1 = msd + v

/-- Nothing is left, and the flags alone are no unit. -/
theorem ReadsTime.nil {step : Nat} (hstep : step < 64) (len off : Nat) :
    ReadsTime len 0 step off [] 0 := by
  intro fuel msd _ _ _
  rw [Nat.cast_zero, add_zero]
  cases fuel with
  | zero => rfl
  | succ fuel =>
      have hunit : (⟨off, []⟩ : Cursor).peek.toNat ||| step = step := Nat.zero_or step
      have hH : 'H'.toNat = 72 := rfl
      have hM : 'M'.toNat = 77 := rfl
      have hS : 'S'.toNat = 83 := rfl
      rw [idiffTime, readVal_stop (s := []) rfl]
      simp only [hunit]
      rw [if_neg (by omega), if_neg (by omega), if_neg (by omega)]

/-- A part adds its milliseconds, and one that is left out adds none. -/
theorem ReadsTime.unit {unit : Char} {flag w step n len k off v : Nat} {s : List Char}
    (hmem : (unit, flag, w) ∈ timeUnits) (hstep : unit.toNat ||| step = unit.toNat) (h : n < 100)
    (hroom : off + (unitText unit n).length ≤ len)
    (hrest : ∀ step' ∈ [step, step ||| flag], ReadsTime len k step' (off + (unitText unit n).length) s v) :
    ReadsTime len (k + 1) step off (unitText unit n ++ s) (n * w + v) := by
  intro fuel msd hfuel h0 hmsd
  push_cast at hmsd ⊢
  by_cases hn : n = 0
  · subst hn
    have hskip := hrest step List.mem_cons_self fuel msd (by omega) h0 (by omega)
    rw [Nat.cast_zero, zero_mul, zero_add]
    exact hskip
  · obtain ⟨fuel, rfl⟩ : ∃ f, fuel = f + 1 := ⟨fuel - 1, by omega⟩
    have htext : unitText unit n = lastDigits (ilog10Ceil n) n ++ [unit] := if_neg hn
    have hlen : (unitText unit n).length = ilog10Ceil n + 1 := by
      rw [htext, List.length_append, length_lastDigits, List.length_singleton]
    have hletter : digitOf unit = none := by
      simp only [timeUnits, List.mem_cons, Prod.mk.injEq, List.not_mem_nil, or_false] at hmem
      rcases hmem with ⟨rfl, -⟩ | ⟨rfl, -⟩ | ⟨rfl, -⟩ <;> rfl
    have hprod : (0 : Int) ≤ n * w := by positivity
    have hread := readVal_unit (s := s) hletter h (show off + ilog10Ceil n ≤ len by omega)
    have hnext := hrest (step ||| flag) (List.mem_cons_of_mem _ List.mem_cons_self) fuel (msd + n * w)
      (by omega) (by omega) (by omega)
    rw [hlen, ← Nat.add_assoc] at hnext
    rw [htext, List.append_assoc, List.singleton_append,
      idiffTime_letter hmem hstep hread h0 (by omega), hnext, add_assoc]

/-- The hours, minutes and seconds. -/
theorem idiffTime_text {ms len off fuel : Nat} (hms : ms < 86400000) (hsec : 1000 ∣ ms)
    (hfuel : 3 ≤ fuel) (h0 : ms ≠ 0) (hroom : off + (timeText ms).tail.length ≤ len) :
    (idiffTime fuel len 0 0 ⟨off, (timeText ms).tail⟩).1 = ms := by
  rw [timeText, if_neg h0, List.tail_cons] at hroom ⊢
  simp only [List.length_append] at hroom
  have hsum : ms / 3600000 * 3600000 + (ms % 3600000 / 60000 * 60000 +
      (ms % 3600000 % 60000 / 1000 * 1000 + 0)) = ms := by
    omega
  have hS : ∀ step ∈ [0, 1, 17], ∀ off, off + (unitText 'S' (ms % 3600000 % 60000 / 1000)).length ≤ len →
      ReadsTime len 1 step off (unitText 'S' (ms % 3600000 % 60000 / 1000) ++ [])
        (ms % 3600000 % 60000 / 1000 * 1000 + 0) := by
    have hmem : ('S', 0x21, 1000) ∈ timeUnits := by decide
    intro step hstep off hroom
    refine ReadsTime.unit hmem (by revert step; decide) (by omega) hroom ?_
    intro step' hstep'
    exact ReadsTime.nil (by revert step' step; decide) len _
  have hM : ∀ step ∈ [0, 1], ∀ off, off + (unitText 'M' (ms % 3600000 / 60000)).length +
      (unitText 'S' (ms % 3600000 % 60000 / 1000)).length ≤ len →
      ReadsTime len 2 step off (unitText 'M' (ms % 3600000 / 60000) ++
        (unitText 'S' (ms % 3600000 % 60000 / 1000) ++ []))
        (ms % 3600000 / 60000 * 60000 + (ms % 3600000 % 60000 / 1000 * 1000 + 0)) := by
    have hmem : ('M', 0x11, 60000) ∈ timeUnits := by decide
    intro step hstep off hroom
    refine ReadsTime.unit hmem (by revert step; decide) (by omega) (by omega) ?_
    intro step' hstep'
    exact hS step' (by revert step' step; decide) _ hroom
  have hmem : ('H', 0x1, 3600000) ∈ timeUnits := by decide
  have hH := ReadsTime.unit hmem (Nat.or_zero 'H'.toNat) (show ms / 3600000 < 100 by omega)
    (show off + _ ≤ len by omega) (fun step' hstep' => hM step' (by revert step'; decide) _ (by omega))
    fuel 0 hfuel le_rfl (by omega)
  rw [hsum, List.append_nil, zero_add] at hH
  exact hH

/-- The days are in, and what follows is a time or nothing. -/
theorem idiffDate_rest {dd ms len off fuel : Nat} (hms : ms < 86400000) (hsec : 1000 ∣ ms)
    (hlen : 1 ≤ len) (hroom : off + (timeText ms).length ≤ len) (seenW seenD : Bool) :
    (idiffDate (fuel + 1) len seenW seenD dd ⟨off, timeText ms⟩).1 = dd ∧
      (idiffDate (fuel + 1) len seenW seenD dd ⟨off, timeText ms⟩).2.1 = ms := by
  by_cases h0 : ms = 0
  · subst h0
    rw [timeText, if_pos rfl, idiffDate, readVal_stop (s := []) rfl]
    exact ⟨rfl, rfl⟩
  · obtain ⟨r, hr⟩ : ∃ r, timeText ms = 'T' :: r := ⟨_, if_neg h0⟩
    have htime : off + 1 + (timeText ms).tail.length ≤ len →
        (idiffTime (len + 2) len 0 0 ⟨off + 1, (timeText ms).tail⟩).1 = ms :=
      idiffTime_text hms hsec (by omega) h0
    rw [hr] at hroom htime ⊢
    simp only [List.length_cons, List.tail_cons] at hroom htime
    rw [idiffDate, readVal_stop (s := 'T' :: r) rfl]
    simp only [Cursor.peek, Cursor.adv, List.headD_cons, List.tail_cons, if_true]
    exact ⟨trivial, htime (by omega)⟩

theorem idiffDate_text {dd ms len off fuel : Nat} (hdd : dd < 100) (hms : ms < 86400000)
    (hsec : 1000 ∣ ms) (hlen : 1 ≤ len)
    (hroom : off + (unitText 'D' dd).length + (timeText ms).length ≤ len) :
    (idiffDate (fuel + 2) len false false 0 ⟨off, unitText 'D' dd ++ timeText ms⟩).1 = dd ∧
      (idiffDate (fuel + 2) len false false 0 ⟨off, unitText 'D' dd ++ timeText ms⟩).2.1 = ms := by
  by_cases hd : dd = 0
  · subst hd
    have htext : unitText 'D' 0 = [] := if_pos rfl
    rw [htext] at hroom ⊢
    rw [List.nil_append]
    exact idiffDate_rest hms hsec hlen (by simpa using hroom) false false
  · have htext : unitText 'D' dd = lastDigits (ilog10Ceil dd) dd ++ ['D'] := if_neg hd
    have hsum : intOfWord 32 (wordOfInt 32 ((0 : Int) + dd)) = dd := by
      rw [zero_add]
      exact intOfWord_wordOfInt (by decide) (by omega) (by omega)
    rw [htext, List.length_append, length_lastDigits, List.length_singleton, ← Nat.add_assoc] at hroom
    have hread := readVal_unit (s := timeText ms) (show digitOf 'D' = none from rfl) hdd
      (show off + ilog10Ceil dd ≤ len by omega)
    rw [htext, List.append_assoc, List.singleton_append, idiffDate, hread]
    simp only [Cursor.peek, Cursor.adv, List.headD_cons, List.tail_cons, hsum]
    rw [if_neg (by decide), if_neg (by decide), if_pos (by decide)]
    exact idiffDate_rest hms hsec hlen hroom false true

theorem wordOfInt_natCast {n : Nat} (h : n < 2 ^ 32) : wordOfInt 32 (n : Int) = n := by
  unfold wordOfInt
  omega

theorem idiffStrp_text {dd ms : Nat} (h : dd * 86400000 + ms < 2 ^ 32) (hms : ms < 86400000)
    (hsec : 1000 ∣ ms) (h0 : dd ≠ 0 ∨ ms ≠ 0) :
    (idiffStrp ('P' :: (unitText 'D' dd ++ timeText ms))
      ('P' :: (unitText 'D' dd ++ timeText ms)).length).1 = dd * 86400000 + ms := by
  have hlen : ('P' :: (unitText 'D' dd ++ timeText ms)).length =
      1 + (unitText 'D' dd).length + (timeText ms).length := by
    rw [List.length_cons, List.length_append]
    omega
  have hlong : 2 ≤ (unitText 'D' dd).length + (timeText ms).length := by
    rcases h0 with h0 | h0
    · have hday := unitText_ne_nil 'D' h0 (by omega)
      omega
    · have hpart : ms / 3600000 ≠ 0 ∨ ms % 3600000 / 60000 ≠ 0 ∨
          ms % 3600000 % 60000 / 1000 ≠ 0 := by
        omega
      have htime : (timeText ms).length = 1 + (unitText 'H' (ms / 3600000)).length +
          (unitText 'M' (ms % 3600000 / 60000)).length +
          (unitText 'S' (ms % 3600000 % 60000 / 1000)).length := by
        rw [timeText, if_neg h0]
        simp only [List.length_cons, List.length_append]
        omega
      rcases hpart with hpart | hpart | hpart
      · have := unitText_ne_nil 'H' hpart (by omega)
        omega
      · have := unitText_ne_nil 'M' hpart (by omega)
        omega
      · have := unitText_ne_nil 'S' hpart (by omega)
        omega
  generalize ('P' :: (unitText 'D' dd ++ timeText ms)).length = len at hlen ⊢
  obtain ⟨h1, h2⟩ := @idiffDate_text dd ms len 1 len (by omega) hms hsec (by omega) (by omega)
  have hsum : ((dd : Int) * 86400000 + ms) = (dd * 86400000 + ms : Nat) := by push_cast; rfl
  unfold idiffStrp
  rw [if_neg (by omega)]
  simp only [Cursor.peek, Cursor.adv, List.headD_cons, List.tail_cons, if_true, h1, h2]
  rw [hsum, wordOfInt_natCast h]

/-! ### The way back -/

/-- What is read is an `unsigned int`. -/
theorem idiffStrp_range (s : List Char) (len : Nat) :
    0 ≤ (idiffStrp s len).1 ∧ (idiffStrp s len).1 < 2 ^ 32 := by
  have hword (z : Int) : (wordOfInt 32 z : Int) < 2 ^ 32 := by
    unfold wordOfInt
    omega
  unfold idiffStrp
  dsimp only
  split
  · exact ⟨le_rfl, by decide⟩
  split
  · exact ⟨Int.natCast_nonneg _, hword _⟩
  split
  · exact ⟨le_rfl, by decide⟩
  split
  · exact ⟨le_rfl, by decide⟩
  · exact ⟨le_rfl, by decide⟩

/-- A duration is read back from what is written of it. -/
def IdiffReadBack (bsz : Nat) (d : Int) : Prop :=
  (idiffStrp (idiffStrf bsz d) (idiffStrf bsz d).length).1 = d

theorem idiffStrp_idiffStrf {bsz d : Nat} (hbsz : 16 ≤ bsz) (hd : d < 2 ^ 32) (hsec : 1000 ∣ d) :
    IdiffReadBack bsz d := by
  unfold IdiffReadBack
  by_cases h0 : d = 0
  · subst h0
    have hzero : idiffStrf bsz 0 = ['P', '0', 'D'] := by
      unfold idiffStrf
      rw [if_neg (by omega)]
      exact if_pos (show 3 < bsz by omega)
    rw [Nat.cast_zero, hzero]
    decide
  · rw [idiffStrf_eq hbsz h0 hd, idiffStrp_text (by omega) (by omega) (by omega) (by omega)]
    omega

/-- **A duration of whole seconds is read back just if it is not negative and its milliseconds
are those of an `unsigned int`.** -/
theorem idiffStrp_idiffStrf_iff {bsz : Nat} (hbsz : 16 ≤ bsz) {d : Int} (hsec : 1000 ∣ d) :
    IdiffReadBack bsz d ↔ 0 ≤ d ∧ d < 2 ^ 32 := by
  constructor
  · intro hread
    have hrange := idiffStrp_range (idiffStrf bsz d) (idiffStrf bsz d).length
    rw [show (idiffStrp (idiffStrf bsz d) (idiffStrf bsz d).length).1 = d from hread] at hrange
    exact hrange
  · rintro ⟨h0, hd⟩
    obtain ⟨n, rfl⟩ := Int.eq_ofNat_of_zero_le h0
    exact idiffStrp_idiffStrf hbsz (by omega) (by omega)

/-- Seven weeks and one second. -/
theorem idiffStrp_idiffStrf_iff_weeks : IdiffReadBack 32 4233601000 :=
  (idiffStrp_idiffStrf_iff (by decide) (by decide)).mpr (by decide)

/-- A second back, as `-PT1S`, is read as none, and fifty days, as `P50D`, as some seven hours. -/
theorem not_idiffReadBack : ¬ IdiffReadBack 32 (-1000) ∧ ¬ IdiffReadBack 32 4320000000 := by
  unfold IdiffReadBack
  decide

end Echse
