/-
The values of a rule, as they are written and read back: lists, weekdays with their counts,
and shifts.

A list of numbers ends with its part.  The reader of `BYDAY` goes on to the commas of the
parts after it, so none of these may come before a weekday: such a text is `Quiet`.
-/
import Echse.Proofs.RrulText
import Echse.Proofs.Ranges
namespace Echse

/-! ### Lists -/

theorem sendList_cons_cons {α : Type} (fmt : α → List Char) (v w : α) (vs : List α) :
    sendList fmt (v :: w :: vs) = fmt v ++ ',' :: sendList fmt (w :: vs) := by
  simp [sendList]

theorem length_sendList {α : Type} (fmt : α → List Char) (vs : List α) :
    vs.length ≤ (sendList fmt vs).length + 1 := by
  induction vs with
  | nil => exact Nat.zero_le _
  | cons v vs ih =>
      rcases vs with _ | ⟨w, vs⟩
      · simp
      · rw [sendList_cons_cons]
        simp only [List.length_append, List.length_cons] at ih ⊢
        omega

theorem not_mem_sendList {α : Type} {fmt : α → List Char} {vs : List α} {c : Char}
    (hc : c ≠ ',') (h : ∀ v ∈ vs, c ∉ fmt v) : c ∉ sendList fmt vs := by
  rcases vs with _ | ⟨v, vs⟩
  · simp [sendList]
  · simp only [sendList, List.mem_append, List.mem_flatMap, List.mem_cons, not_or, not_exists,
      not_and]
    exact ⟨h v List.mem_cons_self, fun w hw => ⟨hc, h w (List.mem_cons_of_mem _ hw)⟩⟩

theorem stops_comma (s : List Char) : Stops (',' :: s) := stops_cons s (by decide)

/-- A list is read back, value by value. -/
theorem snarfList_sendList {α β σ : Type} {read : List Char → β × List Char} {f : α → β}
    (ass : σ → β → σ) {fmt : α → List Char} {vs : List α}
    (hread : ∀ v ∈ vs, ∀ s, Stops s → read (fmt v ++ s) = (f v, s)) (hne : vs ≠ [])
    {t : List Char} (ht : EndsPart t) {fuel : Nat} (hf : vs.length ≤ fuel) (s : σ) :
    snarfList read ass fuel (sendList fmt vs ++ t) s = (vs.map f).foldl ass s := by
  induction vs generalizing fuel s with
  | nil => exact absurd rfl hne
  | cons v vs ih =>
      obtain ⟨fuel, rfl⟩ : ∃ n, fuel = n + 1 := ⟨fuel - 1, by simp at hf; omega⟩
      have hv := hread v List.mem_cons_self
      rcases vs with _ | ⟨w, vs⟩
      · have hr := hv t ht.stops
        have hl : sendList fmt [v] = fmt v := by simp [sendList]
        have hcomma : ∀ t', t ≠ ',' :: t' := fun t' h => by
          rw [h] at ht
          exact absurd (ht ',' rfl) (by decide)
        rw [snarfList, hl, hr]
        dsimp only
        split
        · exact absurd rfl (hcomma _)
        · rfl
      · have hr := hv (',' :: (sendList fmt (w :: vs) ++ t)) (stops_comma _)
        rw [snarfList, sendList_cons_cons, List.append_assoc, List.cons_append, hr]
        exact ih (fun u hu => hread u (List.mem_cons_of_mem _ hu)) (by simp)
          (by simpa using hf) (ass s (f v))

/-! ### Weekdays -/

/-- The text after the next comma, as `BYDAY` goes on to it. -/
def pastComma (fuel : Nat) (t : List Char) (dow : Bitints) : Bitints :=
  match t.dropWhile (· ≠ ',') with
  | [] => dow
  | _ :: kv => snarfWdays fuel kv dow

/-- No comma in the text comes before a weekday. -/
def Quiet (t : List Char) : Prop := ∀ fuel dow, pastComma fuel t dow = dow

theorem quiet_nil : Quiet [] := fun _ _ => rfl

theorem snarfWdays_succ (fuel : Nat) (kv : List Char) (dow : Bitints) :
    snarfWdays (fuel + 1) kv dow =
      pastComma fuel (strtol kv).2
        (if snarfWday (strtol kv).2 ≠ wdayMir ∧ -53 ≤ (strtol kv).1 ∧ (strtol kv).1 ≤ 53 then
          assBi447 dow (packCd ⟨(strtol kv).1, snarfWday (strtol kv).2⟩) else dow) := rfl

theorem dropWhile_comma {u : List Char} (hu : ',' ∉ u) (t : List Char) :
    (u ++ t).dropWhile (· ≠ ',') = t.dropWhile (· ≠ ',') :=
  List.dropWhile_append_of_pos fun c hc => decide_eq_true fun h : c = ',' => hu (h ▸ hc)

theorem Quiet.append {t : List Char} (h : Quiet t) {u : List Char} (hu : ',' ∉ u) :
    Quiet (u ++ t) := by
  intro fuel dow
  rw [pastComma, dropWhile_comma hu t]
  exact h fuel dow

/-- A comma before what is no weekday. -/
theorem Quiet.comma {kv : List Char} (h : Quiet (strtol kv).2)
    (hw : snarfWday (strtol kv).2 = wdayMir) : Quiet (',' :: kv) := by
  intro fuel dow
  rcases fuel with _ | fuel
  · rfl
  · show snarfWdays (fuel + 1) kv dow = dow
    rw [snarfWdays_succ, if_neg (by simp [hw])]
    exact h fuel dow

/-- A value is at its end. -/
def EndsVal (t : List Char) : Prop := ∀ c ∈ t.head?, c = ';' ∨ c = ','

theorem EndsPart.endsVal {t : List Char} (h : EndsPart t) : EndsVal t := fun c hc => .inl (h c hc)

theorem EndsVal.stops {t : List Char} (h : EndsVal t) : Stops t := by
  intro c hc
  rcases h c hc with rfl | rfl <;> decide

theorem EndsVal.snarfWday {t : List Char} (h : EndsVal t) : snarfWday t = wdayMir := by
  rcases t with _ | ⟨c, t⟩
  · rfl
  · rcases h c rfl with rfl | rfl <;> rfl

theorem endsVal_flatMap {α : Type} (fmt : α → List Char) (vs : List α) {t : List Char}
    (ht : EndsVal t) : EndsVal ((vs.flatMap fun v => ',' :: fmt v) ++ t) := by
  rcases vs with _ | ⟨v, vs⟩
  · exact ht
  · simp [EndsVal]

/-- The numbers of a list are no weekdays. -/
theorem quiet_sendList {α : Type} {fmt : α → List Char} {f : α → Int} {vs : List α}
    (hread : ∀ v ∈ vs, ∀ s, Stops s → strtol (fmt v ++ s) = (f v, s))
    (hcomma : ∀ v ∈ vs, ',' ∉ fmt v) {t : List Char} (ht : EndsPart t) (hq : Quiet t) :
    Quiet (sendList fmt vs ++ t) := by
  have htail : ∀ us : List α, (∀ v ∈ us, v ∈ vs) → Quiet ((us.flatMap fun v => ',' :: fmt v) ++ t) := by
    intro us
    induction us with
    | nil => exact fun _ => hq
    | cons v us ih =>
        intro hus
        have he := endsVal_flatMap fmt us ht.endsVal
        have hr := hread v (hus v List.mem_cons_self) _ he.stops
        rw [List.flatMap_cons, List.cons_append, List.cons_append, List.append_assoc]
        refine Quiet.comma ?_ ?_
        · rw [hr]
          exact ih fun u hu => hus u (List.mem_cons_of_mem _ hu)
        · rw [hr]
          exact he.snarfWday
  rcases vs with _ | ⟨v, vs⟩
  · exact hq
  · rw [sendList, List.append_assoc]
    exact (htail vs fun u hu => List.mem_cons_of_mem _ hu).append (hcomma v List.mem_cons_self)

/-- `MO` to `SU`. -/
theorem snarfWday_name {dow : Nat} (h : 1 ≤ dow ∧ dow ≤ 7) (s : List Char) :
    let w := (["MI", "MO", "TU", "WE", "TH", "FR", "SA", "SU"].getD dow "").toList
    snarfWday (w ++ s) = dow ∧ strtol (w ++ s) = (0, w ++ s) ∧ Stops (w ++ s) ∧ ',' ∉ w ∧
      ';' ∉ w := by
  obtain ⟨h1, h7⟩ := h
  interval_cases dow <;> exact ⟨rfl, rfl, by simp [Stops], by decide, by decide⟩

/-- A weekday with its count is read back. -/
theorem strtol_sendCd {cd : Cd} (h : 1 ≤ cd.dow ∧ cd.dow ≤ 7) (hc : -53 ≤ cd.cnt ∧ cd.cnt ≤ 53)
    (s : List Char) :
    ∃ w, ',' ∉ w ∧ strtol (sendCd cd ++ s) = (cd.cnt, w ++ s) ∧ snarfWday (w ++ s) = cd.dow := by
  obtain ⟨hd, h0, hstop, hcomma, -⟩ := snarfWday_name h s
  refine ⟨_, hcomma, ?_, hd⟩
  rw [sendCd]
  split
  · rw [List.append_assoc, strtol_fmtD ⟨by omega, by omega⟩ hstop]
  · rename_i hz
    obtain hz : cd.cnt = 0 := by simpa using hz
    rw [List.nil_append, h0, hz]

theorem packCd_unpackCd {x : Int} (h : 1 ≤ x % 8) : packCd (unpackCd x) = x := by
  rw [packCd, unpackCd]
  dsimp only
  omega

/-- The weekdays of a list are read back, and nothing after them is taken for one. -/
theorem snarfWdays_sendList {vs : List Int} (hvs : ∀ v ∈ vs, IsCd v) (hne : vs ≠ [])
    {t : List Char} (hq : Quiet t) {fuel : Nat} (hf : vs.length ≤ fuel) (dow : Bitints) :
    snarfWdays fuel (sendList (fun v => sendCd (unpackCd v)) vs ++ t) dow =
      vs.foldl assBi447 dow := by
  induction vs generalizing fuel dow with
  | nil => exact absurd rfl hne
  | cons v vs ih =>
      obtain ⟨fuel, rfl⟩ : ∃ n, fuel = n + 1 := ⟨fuel - 1, by simp at hf; omega⟩
      have hv := hvs v List.mem_cons_self
      have hcnt : -53 ≤ (unpackCd v).cnt ∧ (unpackCd v).cnt ≤ 53 := ⟨hv.1, hv.2.1⟩
      have hdow : 1 ≤ (unpackCd v).dow ∧ (unpackCd v).dow ≤ 7 := by
        have := hv.2.2
        rw [unpackCd]
        dsimp only
        omega
      have hmir : (unpackCd v).dow ≠ wdayMir := by
        rw [wdayMir]
        omega
      rcases vs with _ | ⟨w, vs⟩
      · obtain ⟨n, hn, hr, hd⟩ := strtol_sendCd hdow hcnt t
        have hl : sendList (fun v => sendCd (unpackCd v)) [v] = sendCd (unpackCd v) := by
          simp [sendList]
        rw [hl, snarfWdays_succ, hr]
        dsimp only
        rw [hd, if_pos ⟨hmir, hcnt⟩, packCd_unpackCd hv.2.2]
        exact hq.append hn fuel _
      · obtain ⟨n, hn, hr, hd⟩ := strtol_sendCd hdow hcnt
          (',' :: (sendList (fun v => sendCd (unpackCd v)) (w :: vs) ++ t))
        rw [sendList_cons_cons, List.append_assoc, List.cons_append, snarfWdays_succ, hr]
        dsimp only
        rw [hd, if_pos ⟨hmir, hcnt⟩, packCd_unpackCd hv.2.2, pastComma, dropWhile_comma hn]
        exact ih (fun u hu => hvs u (List.mem_cons_of_mem _ hu)) (by simp) (by simpa using hf) _

/-! ### Shifts -/

theorem xor_eq_add (a : Nat) {k b : Nat} (hb : b < 2 ^ k) :
    Nat.xor (a * 2 ^ k) b = a * 2 ^ k + b := by
  refine Nat.eq_of_testBit_eq fun i => ?_
  rw [show Nat.xor (a * 2 ^ k) b = (a * 2 ^ k) ^^^ b from rfl, Nat.testBit_xor,
    Nat.mul_comm a, Nat.testBit_two_pow_mul_add a hb, Nat.testBit_two_pow_mul]
  by_cases hi : i < k
  · simp [hi, Nat.not_le.mpr hi]
  · have hz : b.testBit i = false :=
      Nat.testBit_lt_two_pow (hb.trans_le (Nat.pow_le_pow_right (by decide) (by omega)))
    simp [hi, hz, Nat.not_lt.mp hi]

/-- The fields of a shift do not overlap. -/
theorem shiftCode_eq {d b : Int} {sem : Nat} (hd : -32768 ≤ d ∧ d < 32768)
    (hb : 0 ≤ b ∧ b < 16384) (hs : sem < 4) :
    shiftCode d b sem = d * 65536 + b * 4 + sem := by
  obtain ⟨n, rfl⟩ : ∃ n : Nat, b = n := ⟨b.toNat, by omega⟩
  have hw : ∃ m : Nat, wordOfInt 32 (d * 65536) = m * 2 ^ 16 ∧ m < 65536 ∧
      ((m : Int) = d ∨ (m : Int) = d + 65536) := by
    rcases Int.lt_or_le d 0 with h | h
    · refine ⟨(d + 65536).toNat, ?_, by omega, by omega⟩
      rw [wordOfInt]
      omega
    · refine ⟨d.toNat, ?_, by omega, by omega⟩
      rw [wordOfInt]
      omega
  obtain ⟨m, hm, hlt, hmd⟩ := hw
  have hn : wordOfInt 32 ((n : Int) * 4) = n * 4 := by
    rw [wordOfInt]
    omega
  have hx : Nat.xor (Nat.xor (m * 2 ^ 16) (n * 4)) sem = m * 2 ^ 16 + n * 4 + sem := by
    rw [xor_eq_add m (by omega), show m * 2 ^ 16 + n * 4 = (m * 2 ^ 14 + n) * 2 ^ 2 by omega,
      xor_eq_add _ (by omega)]
  rw [shiftCode, hm, hn, hx, intOfWord]
  split <;> omega

/-- What a shift is read back as: without a business day there is no sign. -/
def rereadShift (sh : Int) : Int :=
  if shiftLow sh = 1 ∨ shiftLow sh = 3 then sh / 65536 * 65536 + 2 else sh

theorem not_mem_fmtU {c : Char} (n : Nat) (hc : c.isDigit = false) : c ∉ fmtU n := fun h => by
  rw [isDigit_of_mem_fmtU h] at hc
  cases hc

/-- The flags of the business days that are written. -/
theorem snarfSem_end {t : List Char} (ht : EndsPart t) (tmp : Int) (sem : Nat) :
    snarfSem tmp t sem = (sem, t) := by
  rcases t with _ | ⟨c, t⟩
  · rfl
  · rw [ht c rfl]
    rfl

theorem intOfLong_eq {z : Int} (h : IsInt z) : intOfLong z = z := by
  obtain ⟨h1, h2⟩ := h
  exact intOfWord_wordOfInt (by decide) (by norm_num; exact h1) (by norm_num; exact h2)

/-- Days before a comma. -/
theorem snarfShiftItems_comma {spec s : List Char} {tmp d b : Int} {sem : Nat}
    (hr : strtol spec = (tmp, ',' :: s)) (fuel : Nat) :
    snarfShiftItems (fuel + 1) spec d b sem =
      snarfShiftItems fuel s (intOfLong (d + tmp)) b sem := by
  simp [snarfShiftItems, hr]

/-- Days at the end of a shift. -/
theorem snarfShiftItems_days {spec t : List Char} {tmp d b : Int} {sem : Nat}
    (hr : strtol spec = (tmp, t)) (ht : EndsPart t) (fuel : Nat) :
    snarfShiftItems (fuel + 1) spec d b sem = shiftCode (intOfLong (d + tmp)) b sem := by
  rw [snarfShiftItems, hr]
  rcases t with _ | ⟨c, t⟩
  · simp [atEnd]
  · obtain rfl := ht c rfl
    simp [atEnd]

/-- An item of business days at the end of a shift. -/
theorem snarfShiftItems_last {spec s t : List Char} {tmp d : Int} {sem : Nat}
    (hr : strtol spec = (tmp, 'B' :: s)) (hs : snarfSem tmp s 0 = (sem, t)) (ht : EndsPart t)
    (htmp : IsInt tmp) (fuel : Nat) :
    snarfShiftItems (fuel + 1) spec d 0 0 =
      shiftCode d (if 0 ≤ tmp then tmp else -tmp)
        (sem ||| (if tmp < 0 then 1 else 0) ||| (if tmp = 0 then 2 else 0)) := by
  have hend := ht.atEnd
  rw [snarfShiftItems, hr]
  rcases t with _ | ⟨c, t⟩
  · simp [hs, intOfLong_eq htmp, atEnd]
  · obtain rfl := ht c rfl
    simp [hs, intOfLong_eq htmp, atEnd]

theorem snarfSem_flag {neg inv : Bool} {n : Nat} {t : List Char} (ht : EndsPart t) :
    snarfSem (if neg then -(n : Int) else n)
        ((if inv = true ∧ n ≠ 0 then [if neg then '-' else '+'] else []) ++ t) 0 =
      (if inv = true ∧ n ≠ 0 then 2 else 0, t) := by
  by_cases hi : inv = true ∧ n ≠ 0
  · have hn : 0 < n := Nat.pos_of_ne_zero hi.2
    cases neg
    · simp [hi, snarfSem, snarfSem_end ht]
    · simp [hi, snarfSem, snarfSem_end ht, hn]
  · simp [hi, snarfSem_end ht]

/-- The business days of a shift, as they are written. -/
def sendBdays (neg inv : Bool) (n : Nat) : List Char :=
  (if neg then '-' else '+') :: fmtU n ++
    'B' :: if inv = true ∧ n ≠ 0 then [if neg then '-' else '+'] else []

theorem strtol_sendBdays {neg inv : Bool} {n : Nat} (hn : n < 16384) (t : List Char) :
    strtol (sendBdays neg inv n ++ t) = (if neg then -(n : Int) else n,
      'B' :: ((if inv = true ∧ n ≠ 0 then [if neg then '-' else '+'] else []) ++ t)) := by
  have hstop : ∀ s, Stops ('B' :: s) := fun s => stops_cons s (by decide)
  rw [sendBdays, List.append_assoc, List.cons_append]
  cases neg
  · exact strtol_plus (s := 'B' :: (_ ++ t)) ⟨by omega, by omega⟩ (hstop _)
  · exact strtol_minus (s := 'B' :: (_ ++ t)) ⟨by omega, by omega⟩ (hstop _)

theorem snarfShiftItems_bdays {neg inv : Bool} {n : Nat} (hn : n < 16384) {d : Int}
    (hd : -32768 ≤ d ∧ d < 32768) {t : List Char} (ht : EndsPart t) (fuel : Nat) :
    snarfShiftItems (fuel + 1) (sendBdays neg inv n ++ t) d 0 0 =
      d * 65536 + if n = 0 then 2 else n * 4 + (inv.toNat * 2 + neg.toNat : Nat) := by
  have hint : IsInt (if neg then -(n : Int) else n) := by
    constructor <;> split <;> omega
  rw [snarfShiftItems_last (strtol_sendBdays hn t) (snarfSem_flag ht) ht hint]
  by_cases h0 : n = 0
  · subst h0
    cases neg <;> cases inv <;> simp [shiftCode_eq hd]
  · have hpos : 0 < n := Nat.pos_of_ne_zero h0
    have hz : ¬ ((n : Int) < 0) := by omega
    have hb : 0 ≤ (n : Int) ∧ (n : Int) < 16384 := ⟨by omega, by omega⟩
    cases neg <;> cases inv <;>
      simp [h0, hpos, hz, shiftCode_eq hd hb, Int.add_assoc]

theorem sendShift_eq (sh : Int) :
    sendShift sh =
      (if echsShiftDvalue sh ≠ 0 then fmtD (echsShiftDvalue sh) else []) ++
        if echsShiftBdayP sh then
          (if echsShiftDvalue sh ≠ 0 then [','] else []) ++
            sendBdays (echsShiftNegP sh) (echsShiftInvP sh) (echsShiftAbsval sh)
        else [] := by
  simp [sendShift, sendBdays]

/-- The last item of a shift is read with what the days have come to. -/
theorem snarfShiftItems_low {sh : Int} {d : Int} (hd : -32768 ≤ d ∧ d < 32768)
    (h : echsShiftBdayP sh = true) {t : List Char} (ht : EndsPart t) (fuel : Nat) :
    snarfShiftItems (fuel + 1)
        (sendBdays (echsShiftNegP sh) (echsShiftInvP sh) (echsShiftAbsval sh) ++ t) d 0 0 =
      d * 65536 + if shiftLow sh = 1 ∨ shiftLow sh = 3 then 2 else (shiftLow sh : Int) := by
  have hlt : shiftLow sh < 65536 := by
    rw [shiftLow]
    omega
  have hne : shiftLow sh ≠ 0 := by simpa [echsShiftBdayP] using h
  have hneg : (echsShiftNegP sh).toNat = shiftLow sh % 2 := by
    rw [echsShiftNegP]
    rcases Nat.mod_two_eq_zero_or_one (shiftLow sh) with h | h <;> rw [h] <;> rfl
  have hinv : (echsShiftInvP sh).toNat = shiftLow sh / 2 % 2 := by
    rw [echsShiftInvP]
    rcases Nat.mod_two_eq_zero_or_one (shiftLow sh / 2) with h | h <;> rw [h] <;> rfl
  rw [snarfShiftItems_bdays (by rw [echsShiftAbsval]; omega) hd ht, hneg, hinv, echsShiftAbsval]
  split <;> split <;> omega

/-- A shift that has been written is read back. -/
theorem snarfShift_sendShift {sh : Int} (h : IsInt sh) (h0 : sh ≠ 0) {t : List Char}
    (ht : EndsPart t) : snarfShift (sendShift sh ++ t) = rereadShift sh := by
  obtain ⟨h1, h2⟩ := h
  have hd : -32768 ≤ echsShiftDvalue sh ∧ echsShiftDvalue sh < 32768 := by
    rw [echsShiftDvalue]
    omega
  have hsh : sh = echsShiftDvalue sh * 65536 + shiftLow sh := by
    rw [echsShiftDvalue, shiftLow]
    omega
  have hre : rereadShift sh = echsShiftDvalue sh * 65536 +
      if shiftLow sh = 1 ∨ shiftLow sh = 3 then 2 else (shiftLow sh : Int) := by
    rw [rereadShift]
    split
    · rfl
    · exact hsh
  have hint : intOfLong (0 + echsShiftDvalue sh) = echsShiftDvalue sh := by
    rw [Int.zero_add]
    exact intOfLong_eq ⟨by omega, by omega⟩
  have hlong : IsLong (echsShiftDvalue sh) := ⟨by omega, by omega⟩
  rw [hre, sendShift_eq, snarfShift]
  by_cases hdz : echsShiftDvalue sh = 0
  · have hb : echsShiftBdayP sh = true := by
      have hlow : shiftLow sh ≠ 0 := by
        intro hl
        rw [hdz, hl] at hsh
        exact h0 (by simpa using hsh)
      simpa [echsShiftBdayP] using hlow
    simp only [hdz, hb, ne_eq, not_true_eq_false, if_false, if_true, List.nil_append]
    exact snarfShiftItems_low (by decide) hb ht _
  · by_cases hb : echsShiftBdayP sh = true
    · simp only [hdz, hb, ne_eq, not_false_eq_true, if_true, List.append_assoc,
        List.cons_append, List.nil_append]
      have hlen : ∀ u : List Char, ∃ n, (fmtD (echsShiftDvalue sh) ++ ',' :: u).length = n + 1 :=
        fun u => ⟨(fmtD (echsShiftDvalue sh)).length + u.length, by simp; omega⟩
      obtain ⟨n, hn⟩ := hlen (sendBdays (echsShiftNegP sh) (echsShiftInvP sh)
        (echsShiftAbsval sh) ++ t)
      rw [snarfShiftItems_comma (strtol_fmtD hlong (stops_cons (c := ',') _ (by decide))), hint, hn,
        snarfShiftItems_low hd hb ht]
    · have hlow : shiftLow sh = 0 := by simpa [echsShiftBdayP] using hb
      simp only [hdz, hb, ne_eq, not_false_eq_true, if_true]
      rw [snarfShiftItems_days (t := t) (by simpa using strtol_fmtD hlong ht.stops) ht, hint,
        shiftCode_eq hd (by decide) (by decide), hlow]
      simp

end Echse
