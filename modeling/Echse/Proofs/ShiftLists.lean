/-
Reading the lists of `SHIFT`.

The movements by days add up and so do those by business days.  What the value says about
direction and semantics is only put right if the list ends in business days, and a naught has no sign.
-/
import Echse.Proofs.RrulVals
import Echse.Proofs.Readers

namespace Echse

/-! ### Lists -/

/-- A sign, which can be left out. -/
inductive Sign where
  | none | plus | minus
deriving DecidableEq, Repr

def Sign.text : Sign → List Char
  | .none => []
  | .plus => ['+']
  | .minus => ['-']

/-- An item of a list: a number of days, or of business days with what comes after the `B`. -/
structure ShiftItem where
  sign : Sign
  digits : List Char
  bday : Option Sign
  nonempty : digits ≠ []
  isDigit : ∀ c ∈ digits, c.isDigit = true

namespace ShiftItem

def num (i : ShiftItem) : Int :=
  if i.sign = .minus then -(digitsVal i.digits : Int) else digitsVal i.digits

def tail (i : ShiftItem) : List Char :=
  match i.bday with
  | .none => []
  | some s => 'B' :: s.text

def text (i : ShiftItem) : List Char := i.sign.text ++ i.digits ++ i.tail

def days (i : ShiftItem) : Int := if i.bday.isSome then 0 else i.num

def bdays (i : ShiftItem) : Int := if i.bday.isSome then i.num else 0

/-- A `+` after a movement on or a `-` after a movement back asks for inverse semantics. -/
def asksInverse (i : ShiftItem) : Bool :=
  match i.bday with
  | some .plus => 0 ≤ i.num
  | some .minus => i.num < 0
  | _ => false

/-- `-0B`. -/
def IsNegZero (i : ShiftItem) : Prop := i.bday.isSome = true ∧ i.sign = .minus ∧ i.num = 0

end ShiftItem

def shiftText : List ShiftItem → List Char
  | [] => []
  | [i] => i.text
  | i :: j :: is => i.text ++ ',' :: shiftText (j :: is)

def sumDays (is : List ShiftItem) : Int := (is.map ShiftItem.days).sum

def sumBdays (is : List ShiftItem) : Int := (is.map ShiftItem.bdays).sum

/-- Whether a list ends in business days. -/
def endsInBdays (is : List ShiftItem) : Bool := is.getLast?.any fun i => i.bday.isSome

/-! ### Reading an item -/

theorem readNum_digits (sign : Sign) {ds s : List Char} (hne : ds ≠ [])
    (hds : ∀ c ∈ ds, c.isDigit = true) (h : Stops s) :
    readNum (sign.text ++ ds ++ s) = (decide (sign = .minus), digitsVal ds, s) := by
  have htake : (ds ++ s).takeWhile Char.isDigit = ds := by
    rw [List.takeWhile_append_of_pos hds]
    rcases s with _ | ⟨c, s⟩
    · simp
    · simp [h c rfl]
  obtain ⟨c, ds', hc⟩ := List.exists_cons_of_ne_nil hne
  obtain ⟨h1, h2, h3⟩ := isDigit_ne (hds c (by rw [hc]; exact List.mem_cons_self))
  have hempty : ds.isEmpty = false := by rw [hc]; rfl
  cases sign with
  | none =>
      have hdrop : (ds ++ s).dropWhile isSpaceC = ds ++ s := by
        rw [hc]
        simp [h1]
      have hhead : (ds ++ s).head? = some c := by
        rw [hc]
        rfl
      simp only [readNum, Sign.text, List.nil_append, hdrop, hhead, Option.some.injEq, h2, h3,
        or_self, if_false, htake, hempty]
      simp [h2]
  | plus =>
      have hdrop : (['+'] ++ ds ++ s).dropWhile isSpaceC = '+' :: (ds ++ s) := by simp [isSpaceC]
      simp only [readNum, Sign.text, hdrop, List.head?_cons, List.tail_cons]
      simp [htake, hempty]
  | minus =>
      have hdrop : (['-'] ++ ds ++ s).dropWhile isSpaceC = '-' :: (ds ++ s) := by simp [isSpaceC]
      simp only [readNum, Sign.text, hdrop, List.head?_cons, List.tail_cons]
      simp [htake, hempty]

/-- The number of an item is read, up to its `B` or the end of it. -/
theorem strtol_item {i : ShiftItem} (hlong : IsLong i.num) {s : List Char} (h : Stops s) :
    strtol (i.text ++ s) = (i.num, i.tail ++ s) := by
  have hstops : Stops (i.tail ++ s) := by
    unfold ShiftItem.tail
    cases i.bday with
    | none => exact h
    | some f => exact stops_cons _ (by decide)
  obtain ⟨h1, h2⟩ := hlong
  have hnum : (if decide (i.sign = .minus) = true then -(digitsVal i.digits : Int)
      else digitsVal i.digits) = i.num := by
    unfold ShiftItem.num
    simp
  rw [ShiftItem.text, List.append_assoc, strtol, readNum_digits i.sign i.nonempty i.isDigit hstops]
  dsimp only
  rw [hnum, min_eq_right h2, max_eq_right h1]

theorem snarfSem_item (f : Sign) (tmp : Int) (sem : Nat) {t : List Char} (ht : EndsItem t) :
    snarfSem tmp (f.text ++ t) sem =
      (sem ||| (if f = .plus ∧ 0 ≤ tmp ∨ f = .minus ∧ tmp < 0 then 2 else 0), t) := by
  have hstop : ∀ sem, snarfSem tmp t sem = (sem, t) := fun sem => by
    rcases t with _ | ⟨c, t⟩
    · rfl
    · rcases ht c rfl with rfl | rfl <;> rfl
  cases f with
  | none => simp [Sign.text, hstop]
  | plus =>
      rw [Sign.text, List.singleton_append, snarfSem, hstop]
      simp
  | minus =>
      rw [Sign.text, List.singleton_append, snarfSem, hstop]
      simp

/-! ### Reading a list -/

theorem intOfLong_add (x y : Int) : intOfLong (intOfLong x + y) = intOfLong (x + y) := by
  have hword : wordOfInt 32 (intOfLong x + y) = wordOfInt 32 (x + y) := by
    unfold intOfLong intOfWord wordOfInt
    split <;> omega
  unfold intOfLong at hword ⊢
  rw [hword]

/-- The flag of inverse semantics. -/
def invBit (inv : Bool) : Nat := if inv then 2 else 0

theorem invBit_or (inv inv' : Bool) : invBit inv ||| invBit inv' = invBit (inv || inv') := by
  cases inv <;> cases inv' <;> rfl

/-- Business days before a comma. -/
theorem snarfShiftItems_bday_comma {spec s u : List Char} {tmp d b : Int} {sem sem' : Nat}
    (hr : strtol spec = (tmp, 'B' :: s)) (hs : snarfSem tmp s sem = (sem', ',' :: u)) (fuel : Nat) :
    snarfShiftItems (fuel + 1) spec d b sem =
      snarfShiftItems fuel u d (intOfLong (b + tmp)) sem' := by
  simp [snarfShiftItems, hr, hs]

/-- Business days at the end. -/
theorem snarfShiftItems_bday_end {spec s t : List Char} {tmp d b : Int} {sem sem' : Nat}
    (hr : strtol spec = (tmp, 'B' :: s)) (hs : snarfSem tmp s sem = (sem', t)) (ht : EndsPart t)
    (fuel : Nat) :
    snarfShiftItems (fuel + 1) spec d b sem =
      shiftCode d (if 0 ≤ intOfLong (b + tmp) then intOfLong (b + tmp) else -intOfLong (b + tmp))
        (sem' ||| (if intOfLong (b + tmp) < 0 then 1 else 0) |||
          (if intOfLong (b + tmp) = 0 then 2 else 0)) := by
  rw [snarfShiftItems, hr]
  rcases t with _ | ⟨c, t⟩
  · simp [hs, atEnd]
  · obtain rfl := ht c rfl
    simp [hs, atEnd]

/-- What is made of the sums in the end. -/
def shiftEnd (last : Bool) (d b : Int) (inv : Bool) : Int :=
  if last then
    shiftCode d (if 0 ≤ b then b else -b)
      (invBit inv ||| (if b < 0 then 1 else 0) ||| (if b = 0 then 2 else 0))
  else shiftCode d b (invBit inv)

/-- The flags of business days, with those so far. -/
theorem ShiftItem.invBit_flag {i : ShiftItem} {f : Sign} (h : i.bday = some f) (inv : Bool) :
    invBit inv ||| (if f = .plus ∧ 0 ≤ i.num ∨ f = .minus ∧ i.num < 0 then 2 else 0) =
      invBit (inv || i.asksInverse) := by
  have hasks : i.asksInverse = decide (f = .plus ∧ 0 ≤ i.num ∨ f = .minus ∧ i.num < 0) := by
    cases f <;> simp [asksInverse, h]
  rw [← invBit_or, hasks]
  simp [invBit]

theorem sumDays_cons (i : ShiftItem) (is : List ShiftItem) :
    sumDays (i :: is) = i.days + sumDays is := List.sum_cons

theorem sumBdays_cons (i : ShiftItem) (is : List ShiftItem) :
    sumBdays (i :: is) = i.bdays + sumBdays is := List.sum_cons

/-- **A list is read to its sums.** -/
theorem snarfShiftItems_list {t : List Char} (ht : EndsPart t) (is : List ShiftItem) :
    ∀ (i : ShiftItem) (d b : Int) (inv : Bool) (fuel : Nat), (∀ j ∈ i :: is, IsLong j.num) →
      is.length < fuel →
        snarfShiftItems fuel (shiftText (i :: is) ++ t) (intOfLong d) (intOfLong b) (invBit inv) =
          shiftEnd (endsInBdays (i :: is)) (intOfLong (d + sumDays (i :: is)))
            (intOfLong (b + sumBdays (i :: is)))
            (inv || (i :: is).any ShiftItem.asksInverse) := by
  induction is with
  | nil =>
      intro i d b inv fuel hlong hfuel
      obtain ⟨fuel, rfl⟩ : ∃ m, fuel = m + 1 := ⟨fuel - 1, by simp at hfuel; omega⟩
      have hr := strtol_item (hlong i List.mem_cons_self) ht.endsItem.stops
      have hsums : sumDays [i] = i.days ∧ sumBdays [i] = i.bdays :=
        ⟨Int.add_zero _, Int.add_zero _⟩
      rw [hsums.1, hsums.2, shiftText]
      cases hb : i.bday with
      | none =>
          rw [ShiftItem.tail, hb] at hr
          rw [snarfShiftItems_days hr ht, intOfLong_add]
          simp [endsInBdays, hb, shiftEnd, ShiftItem.days, ShiftItem.bdays, ShiftItem.asksInverse]
      | some f =>
          rw [ShiftItem.tail, hb] at hr
          rw [snarfShiftItems_bday_end hr (snarfSem_item f _ _ ht.endsItem) ht, intOfLong_add,
            i.invBit_flag hb]
          simp [endsInBdays, hb, shiftEnd, ShiftItem.days, ShiftItem.bdays]
  | cons j is ih =>
      intro i d b inv fuel hlong hfuel
      obtain ⟨fuel, rfl⟩ : ∃ m, fuel = m + 1 := ⟨fuel - 1, by simp at hfuel; omega⟩
      have hcomma := endsItem_comma (shiftText (j :: is) ++ t)
      have hr := strtol_item (hlong i List.mem_cons_self) hcomma.stops
      have hrest := fun d b inv => ih j d b inv fuel
        (fun k hk => hlong k (List.mem_cons_of_mem _ hk)) (Nat.lt_of_succ_lt_succ hfuel)
      have hend : endsInBdays (i :: j :: is) = endsInBdays (j :: is) := by
        unfold endsInBdays
        rw [List.getLast?_cons_cons]
      rw [shiftText, List.append_assoc, List.cons_append, hend, sumDays_cons, sumBdays_cons,
        List.any_cons, ← Int.add_assoc, ← Int.add_assoc, ← Bool.or_assoc]
      cases hb : i.bday with
      | none =>
          have hdays : i.days = i.num := by simp [ShiftItem.days, hb]
          have hbdays : i.bdays = 0 := by simp [ShiftItem.bdays, hb]
          have hasks : i.asksInverse = false := by simp [ShiftItem.asksInverse, hb]
          rw [ShiftItem.tail, hb] at hr
          rw [snarfShiftItems_comma hr, intOfLong_add, hrest, hdays, hbdays, hasks, Int.add_zero,
            Bool.or_false]
      | some f =>
          have hdays : i.days = 0 := by simp [ShiftItem.days, hb]
          have hbdays : i.bdays = i.num := by simp [ShiftItem.bdays, hb]
          rw [ShiftItem.tail, hb] at hr
          rw [snarfShiftItems_bday_comma hr (snarfSem_item f _ _ hcomma), intOfLong_add,
            i.invBit_flag hb, hrest, hdays, hbdays, Int.add_zero]

/-! ### What it says -/

/-- Whether inverse semantics are asked for. -/
def AsksInverse (is : List ShiftItem) : Prop := ∃ i ∈ is, i.asksInverse = true

/-- What the value of a shift is to say about a list. -/
structure SaysShift (sh : Int) (is : List ShiftItem) : Prop where
  days : echsShiftDvalue sh = sumDays is
  bdays : echsShiftBvalue sh = sumBdays is
  neg : echsShiftNegP sh = true ↔ sumBdays is < 0 ∨ sumBdays is = 0 ∧ ∃ i ∈ is, i.IsNegZero
  inv : echsShiftInvP sh = true ↔ AsksInverse is

/-- Where there is a sign to put right, the list has to end in business days, and for a naught
there is no direction back and none but inverse semantics. -/
def ShiftSound (is : List ShiftItem) : Prop :=
  0 < sumBdays is ∨ (sumBdays is < 0 ∧ endsInBdays is = true) ∨
    (sumBdays is = 0 ∧ (¬ ∃ i ∈ is, i.IsNegZero) ∧ (endsInBdays is = true → AsksInverse is))

/-- The lowest bit of a value is that of its flags. -/
theorem echsShiftNegP_shiftCode (d b : Int) (inv : Bool) :
    echsShiftNegP (shiftCode d b (invBit inv)) = false := by
  have hd : wordOfInt 32 (d * 65536) % 2 = 0 := by
    unfold wordOfInt
    omega
  have hb : wordOfInt 32 (b * 4) % 2 = 0 := by
    unfold wordOfInt
    omega
  have hinv : invBit inv % 2 = 0 := by cases inv <;> rfl
  have hxor : ∀ x y : Nat, x % 2 = 0 → y % 2 = 0 → Nat.xor x y % 2 = 0 := fun x y hx hy => by
    have hmod : (x ^^^ y) % 2 ^ 1 = x % 2 ^ 1 ^^^ y % 2 ^ 1 := Nat.xor_mod_two_pow
    rw [show (2 : Nat) ^ 1 = 2 from rfl, hx, hy] at hmod
    exact hmod
  have heven := hxor _ _ (hxor _ _ hd hb) hinv
  unfold shiftCode echsShiftNegP shiftLow intOfWord
  generalize Nat.xor (Nat.xor (wordOfInt 32 (d * 65536)) (wordOfInt 32 (b * 4))) (invBit inv) = z
    at heven ⊢
  have hlow : ((if z % 2 ^ 32 < 2 ^ (32 - 1) then ((z % 2 ^ 32 : Nat) : Int)
      else (z % 2 ^ 32 : Nat) - (2 ^ 32 : Nat)) % 65536).toNat % 2 = 0 := by
    split <;> omega
  rw [hlow]
  rfl

/-- What the fields of a value say. -/
theorem echsShift_fields (d : Int) {n s : Nat} (hn : n < 16384) (hs : s < 4) :
    echsShiftDvalue (d * 65536 + n * 4 + s) = d ∧
      echsShiftBvalue (d * 65536 + n * 4 + s) = (if s % 2 = 0 then (n : Int) else -n) ∧
      echsShiftNegP (d * 65536 + n * 4 + s) = (s % 2 == 1) ∧
      echsShiftInvP (d * 65536 + n * 4 + s) = (s / 2 % 2 == 1) := by
  have hlow : shiftLow (d * 65536 + n * 4 + s) = n * 4 + s := by
    unfold shiftLow
    omega
  refine ⟨?_, ?_, ?_, ?_⟩
  · unfold echsShiftDvalue
    omega
  · unfold echsShiftBvalue
    rw [hlow, show (n * 4 + s) % 2 = s % 2 by omega, show (n * 4 + s) / 4 = n by omega]
  · unfold echsShiftNegP
    rw [hlow, show (n * 4 + s) % 2 = s % 2 by omega]
  · unfold echsShiftInvP
    rw [hlow, show (n * 4 + s) / 2 % 2 = s / 2 % 2 by omega]

theorem length_le_shiftText (is : List ShiftItem) : is.length ≤ (shiftText is).length := by
  have hitem : ∀ i : ShiftItem, 1 ≤ i.text.length := fun i => by
    have := List.length_pos_of_ne_nil i.nonempty
    unfold ShiftItem.text
    rw [List.length_append, List.length_append]
    omega
  induction is with
  | nil => exact Nat.zero_le _
  | cons i is ih =>
      cases is with
      | nil => exact hitem i
      | cons j is =>
          have := hitem i
          simp only [shiftText, List.length_cons, List.length_append] at ih ⊢
          omega

/-- The value of a list. -/
theorem snarfShift_list {is : List ShiftItem} (hne : is ≠ []) (hlong : ∀ i ∈ is, IsLong i.num)
    (hd : (sumDays is).natAbs ≤ 366) (hb : (sumBdays is).natAbs ≤ 366) {t : List Char}
    (ht : EndsPart t) :
    snarfShift (shiftText is ++ t) =
      shiftEnd (endsInBdays is) (sumDays is) (sumBdays is) (is.any ShiftItem.asksInverse) := by
  obtain ⟨i, is, rfl⟩ := List.exists_cons_of_ne_nil hne
  have hfuel : is.length < (shiftText (i :: is) ++ t).length + 1 := by
    have := length_le_shiftText (i :: is)
    rw [List.length_cons] at this
    rw [List.length_append]
    omega
  have hint : ∀ z : Int, z.natAbs ≤ 366 → intOfLong (0 + z) = z := fun z hz => by
    rw [Int.zero_add]
    exact intOfLong_eq ⟨by omega, by omega⟩
  have hlist := snarfShiftItems_list ht is i 0 0 false _ hlong hfuel
  rw [hint _ hd, hint _ hb, Bool.false_or] at hlist
  exact hlist

/-- **The value `snarf_shift` returns says what the list says** exactly if that is sound. -/
theorem snarfShift_exact {is : List ShiftItem} (hne : is ≠ []) (hlong : ∀ i ∈ is, IsLong i.num)
    (hd : (sumDays is).natAbs ≤ 366) (hb : (sumBdays is).natAbs ≤ 366) {t : List Char}
    (ht : EndsPart t) : SaysShift (snarfShift (shiftText is ++ t)) is ↔ ShiftSound is := by
  have hask : AsksInverse is ↔ is.any ShiftItem.asksInverse = true := List.any_eq_true.symm
  have hsays : ∀ sh, SaysShift sh is ↔ echsShiftDvalue sh = sumDays is ∧
      echsShiftBvalue sh = sumBdays is ∧
      (echsShiftNegP sh = true ↔ sumBdays is < 0 ∨ sumBdays is = 0 ∧ ∃ i ∈ is, i.IsNegZero) ∧
      (echsShiftInvP sh = true ↔ AsksInverse is) :=
    fun sh => ⟨fun h => ⟨h.days, h.bdays, h.neg, h.inv⟩, fun h => ⟨h.1, h.2.1, h.2.2.1, h.2.2.2⟩⟩
  rw [snarfShift_list hne hlong hd hb ht, hsays, hask]
  unfold ShiftSound
  rw [hask]
  generalize (∃ i ∈ is, i.IsNegZero) = zero
  generalize sumDays is = d at hd ⊢
  generalize sumBdays is = b at hb ⊢
  generalize is.any ShiftItem.asksInverse = inv
  unfold shiftEnd
  cases endsInBdays is with
  | false =>
      rw [if_neg Bool.false_ne_true]
      by_cases hneg : b < 0
      · rw [echsShiftNegP_shiftCode]
        refine iff_of_false (fun h => ?_) ?_
        · exact absurd (h.2.2.1.mpr (Or.inl hneg)) Bool.false_ne_true
        · rintro (h | ⟨_, h⟩ | ⟨h, _⟩)
          · omega
          · cases h
          · omega
      · obtain ⟨n, rfl⟩ : ∃ n : Nat, b = n := ⟨b.toNat, by omega⟩
        rw [shiftCode_eq (by omega) (by omega) (by cases inv <;> decide)]
        obtain ⟨h1, h2, h3, h4⟩ := echsShift_fields d (n := n) (s := invBit inv) (by omega)
          (by cases inv <;> decide)
        rw [h1, h2, h3, h4]
        have hflag : invBit inv % 2 = 0 ∧ (invBit inv / 2 % 2 == 1) = inv := by
          cases inv <;> exact ⟨rfl, rfl⟩
        rw [hflag.1, hflag.2]
        rcases Nat.eq_zero_or_pos n with rfl | hn
        · simp
        · simp [hn]
          omega
  | true =>
      rw [if_pos rfl]
      obtain ⟨n, hn⟩ : ∃ n : Nat, (if 0 ≤ b then b else -b) = n := ⟨b.natAbs, by split <;> omega⟩
      generalize hs : invBit inv ||| (if b < 0 then 1 else 0) ||| (if b = 0 then 2 else 0) = s
      have hs4 : s < 4 := by
        rw [← hs]
        cases inv <;> split <;> split <;> decide
      rw [hn, shiftCode_eq (by omega) (by omega) hs4]
      obtain ⟨h1, h2, h3, h4⟩ := echsShift_fields d (n := n) (s := s) (by omega) hs4
      rw [h1, h2, h3, h4]
      rcases lt_trichotomy b 0 with hneg | rfl | hpos
      · have hflag : s % 2 = 1 ∧ (s / 2 % 2 == 1) = inv := by
          rw [← hs, if_pos hneg, if_neg (by omega)]
          cases inv <;> exact ⟨rfl, rfl⟩
        rw [if_neg (by omega)] at hn
        rw [hflag.1, hflag.2, if_neg (by decide)]
        simp [hneg]
        omega
      · have hflag : s = 2 := by
          rw [← hs]
          cases inv <;> rfl
        have hn0 : n = 0 := by
          rw [if_pos (Int.le_refl 0)] at hn
          omega
        subst hflag hn0
        simp
      · have hflag : s % 2 = 0 ∧ (s / 2 % 2 == 1) = inv := by
          rw [← hs, if_neg (by omega), if_neg (by omega)]
          cases inv <;> exact ⟨rfl, rfl⟩
        rw [if_pos (by omega)] at hn
        rw [hflag.1, hflag.2, if_pos rfl]
        simp [hpos]
        omega

/-- A single item of one digit. -/
def digitItem (sign : Sign) (c : Char) (h : c.isDigit = true) (bday : Option Sign) : ShiftItem where
  sign := sign
  digits := [c]
  bday := bday
  nonempty := List.cons_ne_nil _ _
  isDigit := fun _ hd => List.mem_singleton.mp hd ▸ h

/-- Three days on and then two business days back, `SHIFT=3,-2B`. -/
theorem snarfShift_exact_days :
    SaysShift (snarfShift (shiftText [digitItem .none '3' rfl .none,
        digitItem .minus '2' rfl (some .none)] ++ []))
      [digitItem .none '3' rfl .none, digitItem .minus '2' rfl (some .none)] ↔
        ShiftSound [digitItem .none '3' rfl .none, digitItem .minus '2' rfl (some .none)] := by
  refine snarfShift_exact (List.cons_ne_nil _ _) (fun i hi => ?_) (by decide) (by decide) ?_
  · rcases List.mem_cons.mp hi with rfl | hi
    · exact ⟨by decide, by decide⟩
    · cases List.mem_singleton.mp hi
      exact ⟨by decide, by decide⟩
  · exact fun c hc => by cases hc

/-- `SHIFT=-0B` goes on to Monday. -/
theorem snarfShift_neg_zero :
    ¬ ∀ (is : List ShiftItem) (t : List Char), is ≠ [] → (∀ i ∈ is, IsLong i.num) →
      (sumDays is).natAbs ≤ 366 → (sumBdays is).natAbs ≤ 366 → EndsPart t →
        SaysShift (snarfShift (shiftText is ++ t)) is := by
  intro h
  have hsays := h [digitItem .minus '0' rfl (some .none)] [] (List.cons_ne_nil _ _)
    (fun i hi => by
      cases List.mem_singleton.mp hi
      exact ⟨by decide, by decide⟩) (by decide) (by decide) fun c hc => by cases hc
  have hval : snarfShift (shiftText [digitItem .minus '0' rfl (some .none)] ++ []) = 2 := by decide
  have hneg := hsays.neg.mpr (Or.inr ⟨by decide, _, List.mem_singleton_self _, rfl, rfl, by decide⟩)
  rw [hval] at hneg
  cases hneg

end Echse
