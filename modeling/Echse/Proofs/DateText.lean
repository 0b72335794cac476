/-
Dates and times as text.

What `dt_strp` takes is what the writers' digits spell, in either spelling.  So all that has
been written is read back, and what is read is valid if the digits are those of a date: of
the month and the day the reader only looks at the first digit, and a year may run into the bits
of the scale.
-/
import Echse.Lib.Gregorian
import Echse.Proofs.Stamps
import Mathlib.Data.List.TakeWhile

namespace Echse

/-! ### Digits -/

theorem digitOf_iff {c : Char} {v : Nat} : digitOf c = some v ↔ v < 10 ∧ c = v.digitChar := by
  constructor
  · intro h
    unfold digitOf at h
    split at h
    · have h0 : '0'.toNat = 48 := rfl
      have h9 : '9'.toNat = 57 := rfl
      obtain rfl := Option.some.inj h
      refine ⟨by omega, Char.toNat_inj.mp ?_⟩
      rw [Nat.toNat_digitChar_of_lt_ten (by omega)]
      omega
    · cases h
  · rintro ⟨hv, rfl⟩
    exact digitOf_digitChar hv

/-- A reader that reads a word wherever it stands. -/
theorem Cursor.reads {f : Cursor → Option (Nat × Cursor)} {v k : Nat} {w : List Char}
    (h : ∀ off s, f ⟨off, w ++ s⟩ = some (v, ⟨off + k, s⟩)) {c c' : Cursor}
    (hrest : c.rest = w ++ c'.rest) (hoff : c'.off = c.off + k) : f c = some (v, c') := by
  obtain ⟨off, rest⟩ := c
  obtain ⟨off', rest'⟩ := c'
  dsimp only at hrest hoff
  rw [hrest, hoff]
  exact h off rest'

/-- A digit is read where one has been written. -/
theorem readDigit_iff {lim v : Nat} {c c' : Cursor} : readDigit lim c = some (v, c') ↔
    (v < 10 ∧ v < lim) ∧ c.rest = v.digitChar :: c'.rest ∧ c'.off = c.off + 1 := by
  constructor
  · intro h
    obtain ⟨w, hw, h⟩ := Option.bind_eq_some_iff.mp h
    obtain ⟨hw10, hpeek⟩ := digitOf_iff.mp hw
    split at h
    · next hlim =>
        obtain ⟨rfl, rfl⟩ := Prod.mk.inj (Option.some.inj h)
        refine ⟨⟨hw10, hlim⟩, ?_, rfl⟩
        cases hrest : c.rest with
        | nil =>
            have hnul : '\x00' ≠ w.digitChar := by interval_cases w <;> decide
            rw [Cursor.peek, hrest] at hpeek
            exact absurd hpeek hnul
        | cons x xs =>
            rw [Cursor.peek, hrest] at hpeek
            rw [Cursor.adv, hrest, ← hpeek]
            rfl
    · cases h
  · rintro ⟨⟨hv, hlim⟩, hrest, hoff⟩
    exact Cursor.reads (w := [v.digitChar]) (readDigit_digitChar hv hlim) hrest hoff

theorem readTwo_iff {lim v : Nat} {c c' : Cursor} : readTwo lim c = some (v, c') ↔
    (v < 100 ∧ v / 10 < lim) ∧ c.rest = ui32tpstr v 2 ++ c'.rest ∧ c'.off = c.off + 2 := by
  constructor
  · intro h
    obtain ⟨⟨a, c1⟩, ha, h⟩ := Option.bind_eq_some_iff.mp h
    obtain ⟨⟨b, c2⟩, hb, h⟩ := Option.bind_eq_some_iff.mp h
    obtain ⟨rfl, rfl⟩ := Prod.mk.inj (Option.some.inj h)
    obtain ⟨⟨ha10, halim⟩, harest, haoff⟩ := readDigit_iff.mp ha
    obtain ⟨⟨hb10, -⟩, hbrest, hboff⟩ := readDigit_iff.mp hb
    refine ⟨⟨by omega, by omega⟩, ?_, by omega⟩
    rw [ui32tpstr_two (by omega), harest, hbrest, show (10 * a + b) / 10 = a by omega,
      show (10 * a + b) % 10 = b by omega]
    rfl
  · rintro ⟨⟨hv, hlim⟩, hrest, hoff⟩
    exact Cursor.reads (readTwo_ui32tpstr hv hlim) hrest hoff

theorem readYear_iff {v : Nat} {s : List Char} {c : Cursor} : readYear ⟨0, s⟩ = some (v, c) ↔
    v < 10000 ∧ s = ui32tpstr v 4 ++ c.rest ∧ c.off = 4 := by
  constructor
  · intro h
    obtain ⟨⟨a, c1⟩, ha, h⟩ := Option.bind_eq_some_iff.mp h
    obtain ⟨⟨b, c2⟩, hb, h⟩ := Option.bind_eq_some_iff.mp h
    obtain ⟨rfl, rfl⟩ := Prod.mk.inj (Option.some.inj h)
    obtain ⟨⟨ha100, -⟩, harest, haoff⟩ := readTwo_iff.mp ha
    obtain ⟨⟨hb100, -⟩, hbrest, hboff⟩ := readTwo_iff.mp hb
    dsimp only at harest haoff hbrest hboff
    refine ⟨by omega, ?_, by omega⟩
    rw [ui32tpstr_four (by omega), harest, hbrest, show (100 * a + b) / 100 = a by omega,
      show (100 * a + b) % 100 = b by omega, List.append_assoc]
  · rintro ⟨hv, rfl, hoff⟩
    obtain ⟨off, rest⟩ := c
    obtain rfl : off = 4 := hoff
    exact readYear_ui32tpstr hv rest

theorem readHour_iff {v : Nat} {c c' : Cursor} : readHour c = some (v, c') ↔
    v < 24 ∧ c.rest = ui32tpstr v 2 ++ c'.rest ∧ c'.off = c.off + 2 := by
  constructor
  · intro h
    have hv := readHour_lt h
    rw [readHour] at h
    split at h
    · next htwo =>
        obtain ⟨⟨b, c1⟩, hb, h⟩ := Option.bind_eq_some_iff.mp h
        obtain ⟨rfl, rfl⟩ := Prod.mk.inj (Option.some.inj h)
        obtain ⟨⟨hb10, -⟩, hbrest, hboff⟩ := readDigit_iff.mp hb
        have htwo' : readDigit 10 c = some (2, c.adv) := by
          unfold readDigit
          rw [htwo]
          rfl
        obtain ⟨-, hrest, -⟩ := readDigit_iff.mp htwo'
        refine ⟨hv, ?_, hboff⟩
        rw [ui32tpstr_two (by omega), hrest, hbrest, show (20 + b) / 10 = 2 by omega,
          show (20 + b) % 10 = b by omega]
        rfl
    · exact ⟨hv, (readTwo_iff.mp h).2⟩
  · rintro ⟨hv, hrest, hoff⟩
    exact Cursor.reads (readHour_ui32tpstr hv) hrest hoff

/-! ### Separators -/

/-- A separator, or none. -/
def Sep (x : Char) (a : List Char) : Prop := a = [] ∨ a = [x]

theorem skipChar_cases {x : Char} (hx : x ≠ '\x00') (c : Cursor) : ∃ a, Sep x a ∧
    c.rest = a ++ (skipChar x c).rest ∧ (skipChar x c).off = c.off + a.length := by
  unfold skipChar
  split
  · next hpeek =>
      refine ⟨[x], Or.inr rfl, ?_, rfl⟩
      cases hrest : c.rest with
      | nil =>
          rw [Cursor.peek, hrest] at hpeek
          exact absurd hpeek.symm hx
      | cons z zs =>
          rw [Cursor.peek, hrest] at hpeek
          rw [Cursor.adv, hrest, ← hpeek]
          rfl
  · exact ⟨[], Or.inl rfl, rfl, rfl⟩

theorem skipChar_sep {x : Char} (hx : x = '-' ∨ x = ':') {a : List Char} (ha : Sep x a) {n : Nat}
    (hn : n < 100) (off : Nat) (s : List Char) :
    skipChar x ⟨off, a ++ (ui32tpstr n 2 ++ s)⟩ = ⟨off + a.length, ui32tpstr n 2 ++ s⟩ := by
  rcases ha with rfl | rfl
  · exact skipChar_ui32tpstr hx hn off s
  · unfold skipChar
    exact if_pos rfl

/-! ### What is taken -/

/-- The end that `dt_strp` goes by. -/
def endOf (len : Nat) : Nat := if len = 0 then 23 else len

/-- A date is spelt out at the start of `s`, up to the `n`-th character, and `r` follows. -/
structure DateText (ep : Nat) (s : List Char) (y m d n : Nat) (r : List Char) : Prop where
  range : y < 10000 ∧ m < 20 ∧ d < 40
  text : ∃ a b, Sep '-' a ∧ Sep '-' b ∧ n = 8 + a.length + b.length ∧
    s = ui32tpstr y 4 ++ (a ++ (ui32tpstr m 2 ++ (b ++ (ui32tpstr d 2 ++ r))))
  room : n ≤ ep

/-- A time is spelt out in `r`, the `n`-th character on, up to the `n'`-th, and `r'` follows. -/
structure TimeText (ep n : Nat) (r : List Char) (H M n' : Nat) (r' : List Char) : Prop where
  range : H < 24 ∧ M < 60
  text : ∃ t a, (t = 'T' ∨ t = ' ') ∧ Sep ':' a ∧ n' = n + 5 + a.length ∧
    r = t :: (ui32tpstr H 2 ++ (a ++ (ui32tpstr M 2 ++ r')))
  room : n' ≤ ep

/-- No time follows. -/
def NoTime (ep n : Nat) (r : List Char) : Prop :=
  ep ≤ n ∨ (r.headD '\x00' ≠ 'T' ∧ r.headD '\x00' ≠ ' ')

/-- A date is spelt out, with a time or none. -/
def Spelt (s : List Char) (len y m d : Nat) : Prop :=
  ∃ n r, DateText (endOf len) s y m d n r ∧
    (NoTime (endOf len) n r ∨ ∃ H M n' r', TimeText (endOf len) n r H M n' r')

variable {s r r' : List Char} {len ep y m d H M n n' : Nat}

/-- The date, with what follows it. -/
theorem DateText.read (h : DateText (endOf len) s y m d n r) : dtStrpOn s len =
    (readTime (endOf len) y m d ⟨n, r⟩).bind fun x => some (x.1, (skipChar 'Z' x.2).rest) := by
  obtain ⟨⟨hy, hm, hd⟩, ⟨a, b, ha, hb, hn, rfl⟩, hroom⟩ := h
  have hlen : ¬ (len ≠ 0 ∧ len < 8) := by
    unfold endOf at hroom
    split at hroom <;> omega
  have hend : (if len = 0 then 23 else len) = endOf len := rfl
  unfold dtStrpOn
  dsimp only
  rw [if_neg hlen, hend, readYear_ui32tpstr hy]
  simp only [Option.bind_eq_bind, Option.bind_some]
  rw [skipChar_sep (.inl rfl) ha (by omega), readTwo_ui32tpstr (by omega) (by omega)]
  simp only [Option.bind_some]
  rw [skipChar_sep (.inl rfl) hb (by omega), ui32tpstr_two (by omega)]
  simp only [List.cons_append, List.nil_append]
  rw [if_neg (by omega), readDigit_digitChar (by omega) (by omega)]
  simp only [Option.bind_some]
  rw [if_neg (by omega), readDigit_digitChar (by omega) (by omega)]
  simp only [Option.bind_some]
  rw [show 10 * (d / 10) + d % 10 = d by omega, show 4 + a.length + 2 + b.length + 1 + 1 = n by omega]

/-- What is read is a date. -/
theorem dateText_of_read {x : Instant × List Char} (h : dtStrpOn s len = some x) :
    ∃ y m d n r, DateText (endOf len) s y m d n r ∧
      ∃ c', readTime (endOf len) y m d ⟨n, r⟩ = some (x.1, c') := by
  have hend : (if len = 0 then 23 else len) = endOf len := rfl
  unfold dtStrpOn at h
  dsimp only at h
  rw [hend] at h
  split at h
  · cases h
  obtain ⟨⟨y, c1⟩, hy, h⟩ := Option.bind_eq_some_iff.mp h
  obtain ⟨⟨m, c2⟩, hm, h⟩ := Option.bind_eq_some_iff.mp h
  dsimp only at hm h
  split at h
  · cases h
  obtain ⟨⟨u, c3⟩, hu, h⟩ := Option.bind_eq_some_iff.mp h
  dsimp only at h
  split at h
  · cases h
  next hroom =>
  obtain ⟨⟨v, c4⟩, hv, h⟩ := Option.bind_eq_some_iff.mp h
  obtain ⟨⟨res, c5⟩, hres, h⟩ := Option.bind_eq_some_iff.mp h
  obtain rfl := Option.some.inj h
  obtain ⟨hyr, hys, hyo⟩ := readYear_iff.mp hy
  obtain ⟨⟨-, hmr⟩, hms, hmo⟩ := readTwo_iff.mp hm
  obtain ⟨a, ha, has, hao⟩ := skipChar_cases (x := '-') (by decide) c1
  obtain ⟨b, hb, hbs, hbo⟩ := skipChar_cases (x := '-') (by decide) c2
  obtain ⟨⟨-, hur⟩, hus, huo⟩ := readDigit_iff.mp hu
  obtain ⟨⟨hvr, -⟩, hvs, hvo⟩ := readDigit_iff.mp hv
  have hday : ui32tpstr (10 * u + v) 2 = [u.digitChar, v.digitChar] := by
    rw [ui32tpstr_two (by omega), show (10 * u + v) / 10 = u by omega, show (10 * u + v) % 10 = v by omega]
  refine ⟨y, m, 10 * u + v, c4.off, c4.rest, ⟨⟨hyr, by omega, by omega⟩, ⟨a, b, ha, hb, by omega, ?_⟩,
    by omega⟩, c5, hres⟩
  rw [hys, has, hms, hbs, hus, hvs, hday]
  rfl

theorem readTime_none (h : NoTime ep n r) (y m d : Nat) :
    readTime ep y m d ⟨n, r⟩ = some (.pack y m d echsAllDay 0 0 0, ⟨n, r⟩) := by
  unfold readTime
  exact if_pos h

theorem TimeText.read (h : TimeText ep n r H M n' r') (y m d : Nat) :
    readTime ep y m d ⟨n, r⟩ = some (readSeconds ep y m d H M ⟨n', r'⟩) := by
  obtain ⟨⟨hH, hM⟩, ⟨t, a, ht, ha, hn, rfl⟩, hroom⟩ := h
  have htime : ¬ (ep ≤ n ∨ (t ≠ 'T' ∧ t ≠ ' ')) := by
    rintro (hle | ⟨hT, hblank⟩)
    · omega
    · exact ht.elim hT hblank
  unfold readTime
  simp only [Cursor.peek, Cursor.adv, List.headD_cons, List.tail_cons]
  rw [if_neg htime, if_neg (by omega), readHour_ui32tpstr hH]
  simp only [Option.bind_eq_bind, Option.bind_some]
  rw [skipChar_sep (.inr rfl) ha (by omega), if_neg (by dsimp only; omega),
    readTwo_ui32tpstr (by omega) (by omega)]
  simp only [Option.bind_some]
  rw [show n + 1 + 2 + a.length + 2 = n' by omega]

/-- What is read after a date is a time, or there is none. -/
theorem timeText_of_read {x : Instant × Cursor} (h : readTime ep y m d ⟨n, r⟩ = some x) :
    NoTime ep n r ∨ ∃ H M n' r', TimeText ep n r H M n' r' := by
  unfold readTime at h
  split at h
  · next hno => exact Or.inl hno
  next htime =>
  split at h
  · cases h
  obtain ⟨⟨H, c1⟩, hH, h⟩ := Option.bind_eq_some_iff.mp h
  dsimp only at h
  split at h
  · cases h
  next hroom =>
  obtain ⟨⟨M, c2⟩, hM, h⟩ := Option.bind_eq_some_iff.mp h
  obtain ⟨hHr, hHs, hHo⟩ := readHour_iff.mp hH
  obtain ⟨⟨-, hMr⟩, hMs, hMo⟩ := readTwo_iff.mp hM
  obtain ⟨a, ha, has, hao⟩ := skipChar_cases (x := ':') (by decide) c1
  simp only [Cursor.adv, Cursor.peek] at hHs hHo htime
  have ht : r.headD '\x00' = 'T' ∨ r.headD '\x00' = ' ' := by tauto
  refine Or.inr ⟨H, M, c2.off, c2.rest, ⟨hHr, by omega⟩, ⟨_, a, ht, ha, by omega, ?_⟩, by omega⟩
  cases r with
  | nil =>
      rcases ht with h | h
      · exact absurd h (by decide)
      · exact absurd h (by decide)
  | cons z zs =>
      rw [List.headD_cons, ← hMs, ← has, ← hHs]
      rfl

/-! ### What is read -/

/-- A date on its own is a day. -/
theorem dtStrp_day (hdate : DateText (endOf len) s y m d n r) (hno : NoTime (endOf len) n r) :
    dtStrp s len = .pack y m d echsAllDay 0 0 0 := by
  unfold dtStrp
  rw [hdate.read, readTime_none hno]
  rfl

/-- A date with a time is a point in time. -/
theorem dtStrp_time (hdate : DateText (endOf len) s y m d n r)
    (htime : TimeText (endOf len) n r H M n' r') :
    dtStrp s len = (readSeconds (endOf len) y m d H M ⟨n', r'⟩).1 := by
  unfold dtStrp
  rw [hdate.read, htime.read]
  rfl

theorem dtStrp_nul (h : ∀ y m d, ¬ Spelt s len y m d) : dtStrp s len = echsNulInstant := by
  unfold dtStrp
  cases hread : dtStrpOn s len with
  | none => rfl
  | some x =>
      obtain ⟨y, m, d, n, r, hdate, c', hx⟩ := dateText_of_read hread
      exact absurd ⟨n, r, hdate, timeText_of_read hx⟩ (h y m d)

/-! ### What is written -/

theorem ui32tpstr_three {n : Nat} (h : n < 1000) :
    ui32tpstr n 3 = [(n / 100).digitChar, (n / 10 % 10).digitChar, (n % 10).digitChar] := by
  have h0 : ¬ 1000000000 < n := by omega
  have h1 : ¬ 1000000000 < n / 10 := by omega
  have h2 : ¬ 1000000000 < n / 10 / 10 := by omega
  simp only [ui32tpstr, h0, h1, h2, if_false, List.nil_append, List.cons_append]
  rw [show n / 10 / 10 % 10 = n / 100 by omega]

/-- Three digits of milliseconds are told apart by what they are added to. -/
theorem readMs_ui32tpstr {ms : Nat} (h : ms < 1000) (off : Nat) :
    (readMs 8 100 ⟨off, ui32tpstr ms 3⟩).1 % 1000 = ms := by
  have hnul : digitOf '\x00' = none := rfl
  rw [ui32tpstr_three h]
  simp only [readMs, Cursor.peek, Cursor.adv, List.headD_cons, List.headD_nil, List.tail_cons, hnul,
    digitOf_digitChar (show ms / 100 < 10 by omega), digitOf_digitChar (show ms / 10 % 10 < 10 by omega),
    digitOf_digitChar (show ms % 10 < 10 by omega)]
  rw [if_pos (by decide), if_pos (by omega), if_pos (by omega)]
  dsimp only
  omega

/-- The seconds, from where a colon is no longer looked for. -/
def secondsAt (ep y m d H M : Nat) (c : Cursor) : Instant × Cursor :=
  if ep < c.off + 2 then (.pack y m d H M 0 0, c) else readFraction ep y m d H M (readSec c)

theorem readSeconds_at (ep y m d H M : Nat) (c : Cursor) : readSeconds ep y m d H M c =
    secondsAt ep y m d H M (if ep ≤ c.off ∨ c.peek = ':' then c.adv else c) :=
  readSeconds_eq ep y m d H M c

/-- The seconds may be set off as well. -/
theorem readSeconds_colon {S off : Nat} (hS : S < 100) (hroom : off + 3 ≤ ep) (y m d H M : Nat)
    (s : List Char) : readSeconds ep y m d H M ⟨off, ':' :: (ui32tpstr S 2 ++ s)⟩ =
      readSeconds ep y m d H M ⟨off + 1, ui32tpstr S 2 ++ s⟩ := by
  have hd := digitChar_ne (show S / 10 < 10 by omega)
  have hdigit : ¬ (ep ≤ off + 1 ∨ (⟨off + 1, ui32tpstr S 2 ++ s⟩ : Cursor).peek = ':') := by
    rw [ui32tpstr_two (by omega)]
    rintro (h | h)
    · omega
    · exact hd.2.1 h
  have hcolon : ep ≤ off ∨ (⟨off, ':' :: (ui32tpstr S 2 ++ s)⟩ : Cursor).peek = ':' := Or.inr rfl
  have hadv : (⟨off, ':' :: (ui32tpstr S 2 ++ s)⟩ : Cursor).adv = ⟨off + 1, ui32tpstr S 2 ++ s⟩ := rfl
  rw [readSeconds_at, readSeconds_at, if_pos hcolon, if_neg hdigit, hadv]

/-- A valid instant on the Gregorian scale: a day, a second or a millisecond. -/
structure ValidStamp (i : Instant) : Prop where
  year : i.y < 4096
  date : Gregorian.Valid i.y i.m i.d
  time : (i.H = echsAllDay ∧ i.M = 0 ∧ i.S = 0 ∧ i.ms = 0) ∨
    ((i.H ≤ 23 ∧ i.M ≤ 59 ∧ i.S ≤ 60) ∧ (i.ms = echsAllSec ∨ i.ms ≤ 999))

theorem ui32tpstr_length {k : Nat} (h : k ≤ 1000000000) (pad : Nat) : (ui32tpstr k pad).length = pad := by
  induction pad generalizing k with
  | zero => rfl
  | succ pad ih =>
      unfold ui32tpstr
      rw [if_neg (by omega), List.length_append, ih (by omega)]
      rfl

/-- An instant is read back from what `dt_strf` writes, and if it has no milliseconds also from
what `dt_strf_ical` writes. -/
def ReadBack (i : Instant) : Prop := dtStrp (dtStrf i) (dtStrf i).length = i ∧
  (i.H = echsAllDay ∨ i.ms = echsAllSec → dtStrp (dtStrfIcal i) (dtStrfIcal i).length = i)

/-- A date as it is written, with `a` between its parts. -/
def dateOf (a : List Char) (i : Instant) (r : List Char) : List Char :=
  ui32tpstr i.y 4 ++ (a ++ (ui32tpstr i.m 2 ++ (a ++ (ui32tpstr i.d 2 ++ r))))

/-- A time as it is written, with `a` between its parts. -/
def timeOf (a : List Char) (i : Instant) (r : List Char) : List Char :=
  'T' :: (ui32tpstr i.H 2 ++ (a ++ (ui32tpstr i.M 2 ++ (a ++ (ui32tpstr i.S 2 ++ r)))))

theorem dtStrf_eq (i : Instant) : dtStrf i = dateOf ['-'] i (if echsInstantAllDayP i then []
    else timeOf [':'] i (if echsInstantAllSecP i then [] else '.' :: ui32tpstr i.ms 3)) := by
  simp [dtStrf, dateOf, timeOf]

theorem dtStrfIcal_eq (i : Instant) :
    dtStrfIcal i = dateOf [] i (if echsInstantAllDayP i then [] else timeOf [] i ['Z']) := by
  simp [dtStrfIcal, dateOf, timeOf]

section Written

variable {i : Instant} (h : ValidStamp i) {a b : List Char}
include h

theorem ValidStamp.ranges : i.y < 10000 ∧ i.m < 20 ∧ i.d < 40 := by
  obtain ⟨hy, ⟨m1, m12, d1, d2⟩, -⟩ := h
  have hlen := Gregorian.monthDays_range i.y i.m
  omega

theorem length_dateOf : (dateOf a i r).length = 8 + a.length + a.length + r.length := by
  obtain ⟨hy, hm, hd⟩ := h.ranges
  unfold dateOf
  simp only [List.length_append]
  rw [ui32tpstr_length (by omega), ui32tpstr_length (by omega), ui32tpstr_length (by omega)]
  omega

theorem endOf_dateOf : endOf (dateOf a i r).length = 8 + a.length + a.length + r.length := by
  unfold endOf
  rw [length_dateOf h, if_neg (by omega)]

theorem dateText_dateOf (ha : Sep '-' a) :
    DateText (endOf (dateOf a i r).length) (dateOf a i r) i.y i.m i.d (8 + a.length + a.length) r := by
  refine ⟨h.ranges, ⟨a, a, ha, ha, rfl, rfl⟩, ?_⟩
  rw [endOf_dateOf h]
  omega

/-- A day is read back. -/
theorem dtStrp_dateOf (ha : Sep '-' a) (hday : i.H = echsAllDay) :
    dtStrp (dateOf a i []) (dateOf a i []).length = i := by
  obtain ⟨-, hM, hS, hms⟩ := h.time.resolve_right fun ht => by
    have h255 : echsAllDay = 255 := rfl
    omega
  have hno : NoTime (endOf (dateOf a i []).length) (8 + a.length + a.length) [] := by
    refine Or.inl ?_
    rw [endOf_dateOf h]
    exact le_rfl
  have hself : Instant.pack i.y i.m i.d echsAllDay 0 0 0 = .pack i.y i.m i.d i.H i.M i.S i.ms := by
    rw [hday, hM, hS, hms]
  rw [dtStrp_day (dateText_dateOf h ha) hno, hself, pack_self]

/-- A time is read back up to its seconds. -/
theorem dtStrp_timeOf (ha : Sep '-' a) (hb : Sep ':' b) (ht : i.H ≤ 23 ∧ i.M ≤ 59 ∧ i.S ≤ 60) :
    dtStrp (dateOf a i (timeOf b i r)) (dateOf a i (timeOf b i r)).length =
      .pack i.y i.m i.d i.H i.M i.S (if r.headD '\x00' ≠ '.' then echsAllSec
        else (readMs 8 100 ⟨16 + 2 * a.length + 2 * b.length, r.tail⟩).1 % 1000) := by
  have hlen : (timeOf b i r).length = 7 + b.length + b.length + r.length := by
    unfold timeOf
    simp only [List.length_append, List.length_cons]
    rw [ui32tpstr_length (by omega), ui32tpstr_length (by omega), ui32tpstr_length (by omega)]
    omega
  have hend := endOf_dateOf h (a := a) (r := timeOf b i r)
  have htime : TimeText (endOf (dateOf a i (timeOf b i r)).length) (8 + a.length + a.length)
      (timeOf b i r) i.H i.M (8 + a.length + a.length + 5 + b.length) (b ++ (ui32tpstr i.S 2 ++ r)) :=
    ⟨⟨by omega, by omega⟩, ⟨'T', b, Or.inl rfl, hb, rfl, rfl⟩, by omega⟩
  rw [dtStrp_time (dateText_dateOf h ha) htime, hend, hlen]
  have hskip : ∀ ep off : Nat, off + b.length + 2 ≤ ep →
      readSeconds ep i.y i.m i.d i.H i.M ⟨off, b ++ (ui32tpstr i.S 2 ++ r)⟩ =
        readSeconds ep i.y i.m i.d i.H i.M ⟨off + b.length, ui32tpstr i.S 2 ++ r⟩ := by
    intro ep off hroom
    rcases hb with rfl | rfl
    · rfl
    · exact readSeconds_colon (by omega) hroom _ _ _ _ _ _
  rw [hskip _ _ (by omega), readSeconds_spelt ht.2.2 (by omega)]
  by_cases hdot : r.headD '\x00' = '.'
  · have hlong : r.length ≠ 0 := by
      intro h0
      rw [List.eq_nil_of_length_eq_zero h0] at hdot
      exact absurd hdot (by decide)
    have hmore : ¬ (8 + a.length + a.length + (7 + b.length + b.length + r.length) ≤
        8 + a.length + a.length + 5 + b.length + b.length + 2 ∨ r.headD '\x00' ≠ '.') := by
      rintro (hle | hne)
      · omega
      · exact hne hdot
    rw [if_neg hmore, if_neg (not_not.mpr hdot), show 8 + a.length + a.length + 5 + b.length + b.length + 3 =
      16 + 2 * a.length + 2 * b.length by omega]
  · rw [if_pos (Or.inr hdot), if_pos hdot]

/-- **What has been written is read back.** -/
theorem dtStrp_dtStrf : ReadBack i := by
  unfold ReadBack
  rw [dtStrf_eq, dtStrfIcal_eq]
  unfold echsInstantAllDayP echsInstantAllSecP
  by_cases hday : i.H = echsAllDay
  · simp only [hday, BEq.rfl, if_true]
    exact ⟨dtStrp_dateOf h (Or.inr rfl) hday, fun _ => dtStrp_dateOf h (Or.inl rfl) hday⟩
  · obtain ⟨ht, hms⟩ := h.time.resolve_left fun hd => hday hd.1
    have hno : (i.H == echsAllDay) = false := beq_eq_false_iff_ne.mpr hday
    rw [hno]
    simp only [Bool.false_eq_true, if_false]
    rw [dtStrp_timeOf h (Or.inr rfl) (Or.inr rfl) ht, dtStrp_timeOf h (Or.inl rfl) (Or.inl rfl) ht]
    constructor
    · by_cases hsec : i.ms = echsAllSec
      · rw [if_pos (beq_iff_eq.mpr hsec), if_pos (by decide), ← hsec, pack_self]
      · rw [if_neg fun hb => hsec (beq_iff_eq.mp hb), List.headD_cons, if_neg (not_not.mpr rfl),
          List.tail_cons, readMs_ui32tpstr (by omega), pack_self]
    · intro hwhole
      rw [if_pos (by decide), ← hwhole.resolve_left hday, pack_self]

end Written

/-- A leap second, and a leap day of year 0. -/
theorem dtStrp_dtStrf_leap :
    ReadBack (.pack 2016 12 31 23 59 60 7) ∧ ReadBack (.pack 0 2 29 255 0 0 0) :=
  ⟨dtStrp_dtStrf ⟨by decide, by decide, Or.inr ⟨by decide, Or.inr (by decide)⟩⟩,
    dtStrp_dtStrf ⟨by decide, by decide, Or.inl (by decide)⟩⟩

/-! ### Texts of no date -/

/-- The digits that milliseconds are read from, three at most. -/
def msDigits (k : Nat) (z : List Char) : List Char := (z.take k).takeWhile fun c => (digitOf c).isSome

/-- The reader stops after three digits, as the value gets too big then. -/
theorem readMs_eq {k fuel : Nat} (hk : k < fuel) {tmp : Nat} (hlo : 100000 ≤ tmp * 10 ^ k)
    (hhi : (tmp + 1) * 10 ^ k ≤ 101000) (off : Nat) (z : List Char) :
    (readMs fuel tmp ⟨off, z⟩).1 =
      (msDigits k z).foldl (fun t c => t * 10 + (digitOf c).getD 0) tmp := by
  obtain ⟨fuel, rfl⟩ : ∃ f, fuel = f + 1 := ⟨fuel - 1, by omega⟩
  induction k generalizing fuel tmp off z with
  | zero =>
      have hbig : ¬ tmp < 100000 := by omega
      unfold readMs
      split
      · rw [if_neg hbig]
        rfl
      · rfl
  | succ k ih =>
      have hpow : 10 ^ (k + 1) = 10 ^ k * 10 := pow_succ 10 k
      have hone : 1 ≤ 10 ^ k := Nat.one_le_pow _ _ (by decide)
      cases z with
      | nil => rfl
      | cons c z =>
          unfold readMs msDigits
          rw [Cursor.peek, List.headD_cons, List.take_succ_cons, List.takeWhile_cons]
          cases hc : digitOf c with
          | none => rfl
          | some v =>
              have hv := (digitOf_iff.mp hc).1
              have hsmall : tmp < 100000 := by nlinarith
              obtain ⟨f, rfl⟩ : ∃ f, fuel = f + 1 := ⟨fuel - 1, by omega⟩
              dsimp only
              rw [if_pos hsmall, Option.isSome_some, if_pos rfl, List.foldl_cons, hc]
              exact ih (by nlinarith) (by nlinarith) (off + 1) z f (by omega)

/-- The digits that milliseconds are read from are naughts. -/
def NoughtMs (z : List Char) : Prop := msDigits 3 z ≠ [] ∧ ∀ c ∈ msDigits 3 z, c = '0'

theorem readMs_nought {z : List Char} {off : Nat} :
    (readMs 8 100 ⟨off, z⟩).1 % 1000 = 0 ↔ NoughtMs z := by
  have hzero : ∀ c ∈ msDigits 3 z, (digitOf c).getD 0 < 10 ∧ ((digitOf c).getD 0 = 0 ↔ c = '0') := by
    intro c hc
    obtain ⟨v, hv⟩ := Option.isSome_iff_exists.mp
      (List.mem_takeWhile_imp (p := fun c => (digitOf c).isSome) hc)
    obtain ⟨h10, rfl⟩ := digitOf_iff.mp hv
    rw [hv]
    exact ⟨h10, (digitChar_ne h10).2.2.2.2.symm⟩
  have hlen : (msDigits 3 z).length ≤ 3 :=
    (List.takeWhile_prefix _).length_le.trans (List.length_take_le 3 z)
  rw [readMs_eq (k := 3) (by decide) (by decide) (by decide)]
  unfold NoughtMs
  generalize msDigits 3 z = ds at hzero hlen ⊢
  match ds, hzero, hlen with
  | [], _, _ => simp
  | [a], hz, _ =>
      obtain ⟨ha, ha0⟩ := hz a (by simp)
      simp only [List.foldl_cons, List.foldl_nil, List.forall_mem_cons, ← ha0]
      simp
      omega
  | [a, b], hz, _ =>
      obtain ⟨ha, ha0⟩ := hz a (by simp)
      obtain ⟨hb, hb0⟩ := hz b (by simp)
      simp only [List.foldl_cons, List.foldl_nil, List.forall_mem_cons, ← ha0, ← hb0]
      simp
      omega
  | [a, b, c], hz, _ =>
      obtain ⟨ha, ha0⟩ := hz a (by simp)
      obtain ⟨hb, hb0⟩ := hz b (by simp)
      obtain ⟨hc, hc0⟩ := hz c (by simp)
      simp only [List.foldl_cons, List.foldl_nil, List.forall_mem_cons, ← ha0, ← hb0, ← hc0]
      simp
      omega
  | _ :: _ :: _ :: _ :: _, _, hlong =>
      simp only [List.length_cons] at hlong
      omega

/-- Seconds that are naught or rubbish. -/
def NoughtSecond (p : List Char) : Prop := p = [] ∨ p = ['0', '0'] ∨ ∃ k < 6, p = [Nat.digitChar k]

theorem readSec_nought {c : Cursor} (h : (readSec c).1 = 0) : ∃ p, NoughtSecond p ∧
    c.rest = p ++ (readSec c).2.rest ∧ (readSec c).2.off = c.off + p.length := by
  unfold readSec at h ⊢
  split at h
  · cases h
  next h6 =>
  rw [if_neg h6]
  cases htwo : readTwo 6 c with
  | some r =>
      rw [htwo] at h
      obtain ⟨-, hrest, hoff⟩ := readTwo_iff.mp (htwo.trans (congrArg some (Prod.ext h rfl :
        r = (0, r.2))))
      exact ⟨['0', '0'], Or.inr (Or.inl rfl), hrest, hoff⟩
  | none =>
      dsimp only
      cases hone : readDigit 6 c with
      | some r =>
          obtain ⟨⟨-, hk⟩, hrest, -⟩ := readDigit_iff.mp (show readDigit 6 c = some (r.1, r.2) from hone)
          have hadv : c.adv.rest = r.2.rest := congrArg List.tail hrest
          refine ⟨[r.1.digitChar], Or.inr (Or.inr ⟨r.1, hk, rfl⟩), ?_, rfl⟩
          rw [Option.isSome_some, if_pos rfl, hadv, hrest]
          rfl
      | none => exact ⟨[], Or.inl rfl, rfl, rfl⟩

theorem readSec_dot {p : List Char} (h : NoughtSecond p) (n : Nat) (z : List Char) :
    readSec ⟨n, p ++ '.' :: z⟩ = (0, ⟨n + p.length, '.' :: z⟩) := by
  rcases h with rfl | rfl | ⟨k, hk, rfl⟩
  · rfl
  · rfl
  · have hdot : '.' ≠ '0' := by decide
    have h6 : ¬ ((⟨n, k.digitChar :: '.' :: z⟩ : Cursor).peek = '6' ∧
        (⟨n, k.digitChar :: '.' :: z⟩ : Cursor).adv.peek = '0') := fun h => hdot h.2
    unfold readSec readTwo
    rw [List.singleton_append, if_neg h6, readDigit_digitChar (by omega) hk]
    rfl

/-- Seconds that leave no trace: there is no room for them, or they are naught or rubbish and
the milliseconds are naught. -/
def NoughtSeconds (ep n : Nat) (r : List Char) : Prop :=
  ep < n + 2 ∨ ∃ p z, NoughtSecond p ∧ n + p.length < ep ∧ r = p ++ '.' :: z ∧ NoughtMs z

/-- The same after the minutes, where a colon may come first. -/
def NoughtRest (ep n : Nat) (r : List Char) : Prop :=
  if ep ≤ n ∨ r.headD '\x00' = ':' then NoughtSeconds ep (n + 1) r.tail else NoughtSeconds ep n r

/-- The nul instant is spelt out: midnight on day 0 of month 0 of year 0. -/
def SpeltNul (s : List Char) (len : Nat) : Prop :=
  ∃ n r n' r', DateText (endOf len) s 0 0 0 n r ∧ TimeText (endOf len) n r 0 0 n' r' ∧
    NoughtRest (endOf len) n' r'

theorem pack_eq_nul {S ms : Nat} (hS : S ≤ 60) (hms : ms < 1024) :
    Instant.pack 0 0 0 0 0 S ms = echsNulInstant ↔ S = 0 ∧ ms = 0 := by
  unfold echsNulInstant Instant.pack
  rw [Instant.mk.injEq]
  omega

theorem readSec_le (c : Cursor) : (readSec c).1 ≤ 60 := by
  unfold readSec
  split
  · exact le_rfl
  · split
    · next r hr =>
        have hlt := readTwo_lt (show readTwo 6 c = some (r.1, r.2) from hr)
        omega
    · exact Nat.zero_le _

/-- Naught is read where there are no seconds, or naughts. -/
theorem secondsAt_nul {ep n : Nat} {r : List Char} :
    (secondsAt ep 0 0 0 0 0 ⟨n, r⟩).1 = echsNulInstant ↔ NoughtSeconds ep n r := by
  have h60 := readSec_le ⟨n, r⟩
  have hdot : '\x00' ≠ '.' := by decide
  unfold secondsAt NoughtSeconds readFraction
  dsimp only
  split
  · next hend => exact iff_of_true rfl (Or.inl hend)
  next hroom =>
  rw [or_iff_right hroom]
  split
  · next hno =>
      refine iff_of_false ?_ ?_
      · rw [pack_eq_nul h60 (by decide)]
        exact fun h => absurd h.2 (by decide)
      · rintro ⟨p, z, hp, hlt, rfl, -⟩
        rw [readSec_dot hp] at hno
        exact hno.elim (by dsimp only; omega) fun h => h rfl
  · next hyes =>
      push Not at hyes
      rw [pack_eq_nul h60 (by omega)]
      constructor
      · rintro ⟨h0, hms⟩
        obtain ⟨p, hp, hrest, hoff⟩ := readSec_nought h0
        obtain ⟨hlt, hpeek⟩ := hyes
        dsimp only at hoff
        cases htail : (readSec ⟨n, r⟩).2.rest with
        | nil =>
            rw [Cursor.peek, htail] at hpeek
            exact absurd hpeek hdot
        | cons x z =>
            rw [Cursor.peek, htail] at hpeek
            obtain rfl : x = '.' := hpeek
            rw [htail] at hrest
            refine ⟨p, z, hp, by omega, hrest, ?_⟩
            rw [Cursor.adv, htail] at hms
            exact readMs_nought.mp hms
      · rintro ⟨p, z, hp, hlt, rfl, hz⟩
        rw [readSec_dot hp]
        exact ⟨rfl, readMs_nought.mpr hz⟩

theorem readSeconds_nul {ep n : Nat} {r : List Char} :
    (readSeconds ep 0 0 0 0 0 ⟨n, r⟩).1 = echsNulInstant ↔ NoughtRest ep n r := by
  rw [readSeconds_at]
  unfold NoughtRest Cursor.peek Cursor.adv
  dsimp only
  split
  · exact secondsAt_nul
  · exact secondsAt_nul

/-! ### What is valid -/

/-- An instant that `dt_strp` may return: none, or a date with a time or none that leaves the
bits of the scale and of the zone alone. -/
def StampSound (i : Instant) : Prop :=
  i = echsNulInstant ∨ (Gregorian.Valid i.y i.m i.d ∧ (i.H ≤ 23 ∨ i.H = echsAllDay) ∧ i.M ≤ 59 ∧
    i.S ≤ 60) ∧ echsInstantScale i = 0 ∧ echsInstantTzob i = 0

theorem stampSound_pack {y m d H M S ms : Nat} (hdate : y < 10000 ∧ m < 20 ∧ d < 40)
    (htime : (H ≤ 23 ∨ H = echsAllDay) ∧ M ≤ 59 ∧ S ≤ 60) :
    StampSound (.pack y m d H M S ms) ↔
      Instant.pack y m d H M S ms = echsNulInstant ∨ y < 4096 ∧ Gregorian.Valid y m d := by
  have h255 : echsAllDay = 255 := rfl
  have hlen := Gregorian.monthDays_range y m
  have hy : y % 65536 = y := Nat.mod_eq_of_lt (by omega)
  have hm : m % 256 = m := Nat.mod_eq_of_lt (by omega)
  have hd : d % 256 = d := Nat.mod_eq_of_lt (by omega)
  unfold StampSound
  refine or_congr_right ?_
  unfold echsInstantScale echsInstantTzob Instant.pack
  dsimp only
  rw [hy, hm, hd]
  constructor
  · rintro ⟨⟨hvalid, -⟩, hscale, -⟩
    exact ⟨by omega, hvalid⟩
  · rintro ⟨hyear, hvalid⟩
    refine ⟨⟨hvalid, by omega, by omega, by omega⟩, by omega, ?_⟩
    obtain ⟨m1, m12, d1, d2⟩ := hvalid
    omega

/-- A date on its own, or with a time, is valid if its digits are those of a date. -/
theorem stampSound_spelt {n : Nat} {r : List Char} (hdate : DateText (endOf len) s y m d n r)
    (htime : NoTime (endOf len) n r ∨ ∃ H M n' r', TimeText (endOf len) n r H M n' r') :
    StampSound (dtStrp s len) ↔ dtStrp s len = echsNulInstant ∨ y < 4096 ∧ Gregorian.Valid y m d := by
  rcases htime with hno | ⟨H, M, n', r', htime⟩
  · rw [dtStrp_day hdate hno]
    exact stampSound_pack hdate.range (by decide)
  · obtain ⟨S, ms, c', hread, hS⟩ := readSeconds_pack (endOf len) y m d H M ⟨n', r'⟩
    have hrange := htime.range
    rw [dtStrp_time hdate htime, hread]
    exact stampSound_pack hdate.range ⟨by omega, by omega, hS⟩

/-- The fields of a date are read as they are spelt. -/
theorem Spelt.read {s : List Char} (h : Spelt s len y m d) :
    (dtStrp s len).y = y ∧ (dtStrp s len).m = m ∧ (dtStrp s len).d = d := by
  obtain ⟨n, r, hdate, htime⟩ := h
  have hpack : ∃ H M S ms, dtStrp s len = .pack y m d H M S ms := by
    rcases htime with hno | ⟨H, M, n', r', htime⟩
    · exact ⟨_, _, _, _, dtStrp_day hdate hno⟩
    · obtain ⟨S, ms, c', hread, -⟩ := readSeconds_pack (endOf len) y m d H M ⟨n', r'⟩
      exact ⟨H, M, S, ms, by rw [dtStrp_time hdate htime, hread]⟩
  obtain ⟨H, M, S, ms, hpack⟩ := hpack
  have hrange := hdate.range
  rw [hpack]
  unfold Instant.pack
  dsimp only
  omega

/-- The nul instant is what is read from its own spelling. -/
theorem speltNul_iff {s : List Char} (h : Spelt s len y m d) :
    dtStrp s len = echsNulInstant ↔ SpeltNul s len := by
  have hread := h.read
  constructor
  · intro hnul
    obtain ⟨n, r, hdate, htime⟩ := h
    rw [hnul] at hread
    obtain rfl : 0 = y := hread.1
    obtain rfl : 0 = m := hread.2.1
    obtain rfl : 0 = d := hread.2.2
    have hhour : (dtStrp s len).H = 0 := congrArg Instant.H hnul
    have hmin : (dtStrp s len).M = 0 := congrArg Instant.M hnul
    rcases htime with hno | ⟨H, M, n', r', htime⟩
    · rw [dtStrp_day hdate hno] at hhour
      exact absurd hhour (by decide)
    · obtain ⟨S, ms, c', hpack, -⟩ := readSeconds_pack (endOf len) 0 0 0 H M ⟨n', r'⟩
      have hrange := htime.range
      have hrest := dtStrp_time hdate htime
      rw [hrest, hpack] at hhour hmin
      obtain rfl : H = 0 := by
        change H % 256 = 0 at hhour
        omega
      obtain rfl : M = 0 := by
        change M % 256 = 0 at hmin
        omega
      exact ⟨n, r, n', r', hdate, htime, readSeconds_nul.mp (hrest.symm.trans hnul)⟩
  · rintro ⟨n, r, n', r', hdate, htime, hrest⟩
    rw [dtStrp_time hdate htime]
    exact readSeconds_nul.mpr hrest

/-- **What is returned is nothing or valid** if the text spells no date but valid ones before year
4096, or spells the nul instant. -/
theorem dtStrp_sound_iff (s : List Char) (len : Nat) : StampSound (dtStrp s len) ↔
    SpeltNul s len ∨ ∀ y m d, Spelt s len y m d → y < 4096 ∧ Gregorian.Valid y m d := by
  by_cases hspelt : ∃ y m d, Spelt s len y m d
  · obtain ⟨y, m, d, h⟩ := hspelt
    have hall : (∀ y' m' d', Spelt s len y' m' d' → y' < 4096 ∧ Gregorian.Valid y' m' d') ↔
        y < 4096 ∧ Gregorian.Valid y m d := by
      refine ⟨fun hv => hv y m d h, fun hv y' m' d' h' => ?_⟩
      obtain ⟨rfl, rfl, rfl⟩ := h.read
      obtain ⟨rfl, rfl, rfl⟩ := h'.read
      exact hv
    rw [hall, ← speltNul_iff h]
    obtain ⟨n, r, hdate, htime⟩ := h
    exact stampSound_spelt hdate htime
  · push Not at hspelt
    exact iff_of_true (Or.inl (dtStrp_nul hspelt)) (Or.inr fun y m d h => absurd h (hspelt y m d))

/-- A month that is none. -/
theorem dtStrp_month_13 : ¬ ∀ (s : List Char) (len : Nat), StampSound (dtStrp s len) := by
  intro h
  have hno : ¬ StampSound (dtStrp "20241301T000000Z".toList 16) := by
    rintro (h | ⟨⟨h, -⟩, -⟩)
    · exact absurd h (by decide)
    · exact absurd h (by decide)
  exact hno (h _ _)

end Echse
