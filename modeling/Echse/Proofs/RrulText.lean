/-
A rule that has been written is read part by part.

What a reader of a number or of a part stops at is what has been written after it, so the
lemmas have a text `t` that the written one is followed by.
-/
import Echse.Icalify
import Echse.Snarf
namespace Echse

/-! ### Numbers -/

/-- The text does not go on with a digit. -/
def Stops (s : List Char) : Prop := ∀ c ∈ s.head?, c.isDigit = false

theorem stops_nil : Stops [] := by simp [Stops]

theorem stops_cons {c : Char} (s : List Char) (h : c.isDigit = false) : Stops (c :: s) := by
  simpa [Stops] using h

theorem isDigit_of_mem_fmtU {n : Nat} {c : Char} (h : c ∈ fmtU n) : c.isDigit = true :=
  Nat.isDigit_of_mem_toDigits (by decide) (by decide) h

theorem takeWhile_fmtU (n : Nat) {s : List Char} (h : Stops s) :
    (fmtU n ++ s).takeWhile Char.isDigit = fmtU n := by
  rw [List.takeWhile_append_of_pos fun c hc => isDigit_of_mem_fmtU hc]
  rcases s with _ | ⟨c, s⟩
  · simp
  · simp [h c rfl]

theorem digitsVal_fmtU (n : Nat) : digitsVal (fmtU n) = n := by
  have h := Nat.ofDigitChars_ten_toDigits (n := n)
  rw [Nat.ofDigitChars_eq_foldl] at h
  simpa only [digitsVal, fmtU, Nat.mul_comm] using h

theorem fmtU_cons (n : Nat) : ∃ c ds, fmtU n = c :: ds ∧ c.isDigit = true := by
  obtain ⟨c, ds, h⟩ := List.exists_cons_of_ne_nil (Nat.toDigits_ne_nil (n := n) (b := 10))
  exact ⟨c, ds, h, isDigit_of_mem_fmtU (n := n) (by rw [fmtU, h]; exact List.mem_cons_self)⟩

theorem isDigit_ne {c : Char} (h : c.isDigit = true) :
    isSpaceC c = false ∧ c ≠ '-' ∧ c ≠ '+' := by
  refine ⟨?_, ?_, ?_⟩
  · rw [isSpaceC]
    simp only [Bool.or_eq_false_iff, beq_eq_false_iff_ne]
    refine ⟨⟨⟨⟨⟨?_, ?_⟩, ?_⟩, ?_⟩, ?_⟩, ?_⟩ <;> (rintro rfl; exact absurd h (by decide))
  · rintro rfl
    exact absurd h (by decide)
  · rintro rfl
    exact absurd h (by decide)

/-- A number is read back, with what has been put before it. -/
theorem readNum_fmtU (sign : List Char) (n : Nat) {s : List Char} (h : Stops s)
    (hs : sign = [] ∨ sign = ['-'] ∨ sign = ['+']) :
    readNum (sign ++ fmtU n ++ s) = (sign == ['-'], n, s) := by
  obtain ⟨c, ds, hc, hd⟩ := fmtU_cons n
  obtain ⟨h1, h2, h3⟩ := isDigit_ne hd
  have ht := takeWhile_fmtU n h
  have hne : (fmtU n).isEmpty = false := by rw [hc]; rfl
  have hv := digitsVal_fmtU n
  rcases hs with rfl | rfl | rfl
  · have hw : ([] ++ fmtU n ++ s).dropWhile isSpaceC = fmtU n ++ s := by
      simp [hc, h1]
    have hh : (fmtU n ++ s).head? = some c := by rw [hc]; rfl
    simp only [readNum, hw, hh, Option.some.injEq, h2, h3, or_self, if_false, ht, hne, hv]
    simp [h2]
  · have hw : (['-'] ++ fmtU n ++ s).dropWhile isSpaceC = '-' :: (fmtU n ++ s) := by
      simp [isSpaceC]
    simp only [readNum, hw, List.head?_cons, List.tail_cons]
    simp [ht, hne, hv]
  · have hw : (['+'] ++ fmtU n ++ s).dropWhile isSpaceC = '+' :: (fmtU n ++ s) := by
      simp [isSpaceC]
    simp only [readNum, hw, List.head?_cons, List.tail_cons]
    simp [ht, hne, hv]

theorem strtoul_fmtU {n : Nat} (hn : n < 2 ^ 64) {s : List Char} (h : Stops s) :
    strtoul (fmtU n ++ s) = (n, s) := by
  have hr := readNum_fmtU [] n h (.inl rfl)
  rw [List.nil_append] at hr
  rw [strtoul, hr]
  simp
  omega

/-- What a `long int` holds. -/
def IsLong (z : Int) : Prop := -9223372036854775808 ≤ z ∧ z ≤ 9223372036854775807

theorem strtol_plus {n : Nat} (hn : IsLong n) {s : List Char} (h : Stops s) :
    strtol ('+' :: fmtU n ++ s) = ((n : Int), s) := by
  have hr := readNum_fmtU ['+'] n h (.inr (.inr rfl))
  rw [List.singleton_append] at hr
  obtain ⟨h1, h2⟩ := hn
  rw [strtol, hr]
  simp [min_eq_right h2]

theorem strtol_minus {n : Nat} (hn : IsLong (-(n : Int))) {s : List Char} (h : Stops s) :
    strtol ('-' :: fmtU n ++ s) = (-(n : Int), s) := by
  have hr := readNum_fmtU ['-'] n h (.inr (.inl rfl))
  rw [List.singleton_append] at hr
  obtain ⟨h1, h2⟩ := hn
  rw [strtol, hr]
  simp [max_eq_right h1]

theorem strtol_fmtU {n : Nat} (hn : IsLong n) {s : List Char} (h : Stops s) :
    strtol (fmtU n ++ s) = ((n : Int), s) := by
  have hr := readNum_fmtU [] n h (.inl rfl)
  rw [List.nil_append] at hr
  obtain ⟨h1, h2⟩ := hn
  rw [strtol, hr]
  simp [min_eq_right h2]

theorem strtol_fmtD {z : Int} (hz : IsLong z) {s : List Char} (h : Stops s) :
    strtol (fmtD z ++ s) = (z, s) := by
  rw [fmtD]
  split
  · rename_i hneg
    have hn : (-((-z).toNat : Int)) = z := by omega
    rw [strtol_minus (by rw [hn]; exact hz) h, hn]
  · rename_i hpos
    have hn : (z.toNat : Int) = z := by omega
    rw [strtol_fmtU (by rw [hn]; exact hz) h, hn]

/-! ### Parts -/

/-- The end of a part: of the text, or a semicolon. -/
def EndsPart (t : List Char) : Prop := ∀ c ∈ t.head?, c = ';'

theorem endsPart_nil : EndsPart [] := by simp [EndsPart]

theorem EndsPart.sendPart (key : String) (val t : List Char) :
    EndsPart (Echse.sendPart key val ++ t) := by simp [EndsPart, Echse.sendPart]

theorem EndsPart.stops {t : List Char} (h : EndsPart t) : Stops t := by
  intro c hc
  rw [h c hc]
  decide

theorem EndsPart.atEnd {t : List Char} (h : EndsPart t) : atEnd t = true := by
  rcases t with _ | ⟨c, t⟩
  · rfl
  · simp [Echse.atEnd, h c rfl]

theorem length_next {sp : List Char} (h : sp.isEmpty = false) :
    ((sp.dropWhile (· ≠ ';')).tail).length < sp.length := by
  have hle := (List.dropWhile_sublist (p := fun (c : Char) => decide (c ≠ ';')) (l := sp)).length_le
  have hpos : 0 < sp.length := by
    rcases sp with _ | ⟨c, sp⟩
    · simp at h
    · simp
  rw [List.length_tail]
  omega

/-- The loop may go on for longer than the text is. -/
theorem snarfParts_fuel (n m : Nat) (sp : List Char) (rr : Rrulsp) (hn : sp.length < n)
    (hm : sp.length < m) : snarfParts n sp rr = snarfParts m sp rr := by
  induction n generalizing m sp rr with
  | zero => omega
  | succ n ih =>
      obtain ⟨m, rfl⟩ : ∃ m', m = m' + 1 := ⟨m - 1, by omega⟩
      rw [snarfParts, snarfParts]
      by_cases he : sp.isEmpty = true
      · rw [if_pos he, if_pos he]
      · have hlt := length_next (by simpa using he)
        have hih : ∀ rr, snarfParts n (sp.dropWhile (· ≠ ';')).tail rr =
            snarfParts m (sp.dropWhile (· ≠ ';')).tail rr :=
          fun rr => ih m _ rr (by omega) (by omega)
        rw [if_neg he, if_neg he]
        simp only [hih]

/-- What a part does to a rule, when `t` comes after it. -/
def readPart (key : String) (val t : List Char) (rr : Rrulsp) : Option Rrulsp :=
  match evrrulKey key.toList with
  | none => some rr
  | some k => snarfPart k (val ++ t) rr

/-- The parts from here on, `t` being at the end of one. -/
def readRest (t : List Char) (rr : Rrulsp) : Option Rrulsp := snarfParts t.length t.tail rr

theorem readRest_nil (rr : Rrulsp) : readRest [] rr = some rr := rfl

theorem snarfParts_part {key : String} {val t : List Char}
    (hk : ';' ∉ key.toList ∧ '=' ∉ key.toList) (hv : ';' ∉ val) (ht : EndsPart t) {n : Nat}
    (hn : (key.toList ++ '=' :: val ++ t).length < n) (rr : Rrulsp) :
    snarfParts n (key.toList ++ '=' :: val ++ t) rr = (readPart key val t rr).bind (readRest t) := by
  obtain ⟨n, rfl⟩ : ∃ m, n = m + 1 := ⟨n - 1, by omega⟩
  have hne : ∀ c ∈ key.toList, (decide (c ≠ '=')) = true := fun c hc =>
    decide_eq_true fun h : c = '=' => hk.2 (h ▸ hc)
  have hns : ∀ c ∈ key.toList ++ '=' :: val, (decide (c ≠ ';')) = true := by
    intro c hc
    rcases List.mem_append.mp hc with hc | hc
    · exact decide_eq_true fun h : c = ';' => hk.1 (h ▸ hc)
    · rcases List.mem_cons.mp hc with rfl | hc
      · decide
      · exact decide_eq_true fun h : c = ';' => hv (h ▸ hc)
  have hnext : ((key.toList ++ '=' :: val ++ t).dropWhile (· ≠ ';')).tail = t.tail := by
    rw [List.dropWhile_append_of_pos hns]
    rcases t with _ | ⟨c, t⟩
    · rfl
    · simp [ht c rfl]
  have htake : (key.toList ++ '=' :: val ++ t).takeWhile (· ≠ '=') = key.toList := by
    rw [List.append_assoc, List.takeWhile_append_of_pos hne]
    simp
  have hdrop : (key.toList ++ '=' :: val ++ t).dropWhile (· ≠ '=') = '=' :: (val ++ t) := by
    rw [List.append_assoc, List.dropWhile_append_of_pos hne]
    simp
  have hrest : ∀ rr, snarfParts n t.tail rr = readRest t rr := by
    intro rr
    rcases t with _ | ⟨c, t⟩
    · rcases n with _ | n <;> rfl
    · refine snarfParts_fuel _ _ _ rr ?_ (by simp)
      simp only [List.length_append, List.length_cons, List.tail_cons] at hn ⊢
      omega
  rw [snarfParts, if_neg (by simp)]
  simp only [hnext, htake, hdrop, hrest]
  rw [if_neg (by simpa using hk.1), readPart]
  cases evrrulKey key.toList with
  | none => rfl
  | some k => cases h : snarfPart k (val ++ t) rr <;> simp [h]

theorem readRest_part {key : String} {val t : List Char}
    (hk : ';' ∉ key.toList ∧ '=' ∉ key.toList) (hv : ';' ∉ val) (ht : EndsPart t) (rr : Rrulsp) :
    readRest (sendPart key val ++ t) rr = (readPart key val t rr).bind (readRest t) :=
  snarfParts_part hk hv ht (by simp [sendPart]) rr

end Echse
