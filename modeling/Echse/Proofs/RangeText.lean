/-
What `range_strf` writes is read back by `range_strp`.

An open end is not a date but a mark, or nothing at all: where no lower end is written the
reader finds no date, so that it has the lowest instant and stays where it is.  The date
reader is given the length of the whole text, of which the first date is a part only.
-/
import Echse.DtStrf
import Echse.Proofs.DateText
import Echse.Proofs.Evfilt

namespace Echse

/-- What may follow a date in a range. -/
def AfterDate (s : List Char) : Prop := s.headD '\x00' = '/' ∨ s.headD '\x00' = '+' ∨ s = []

/-- What may follow is none of what a date goes on with. -/
theorem AfterDate.headD {s : List Char} (h : AfterDate s) :
    s.headD '\x00' ≠ 'T' ∧ s.headD '\x00' ≠ ' ' ∧ s.headD '\x00' ≠ '.' ∧ s.headD '\x00' ≠ 'Z' ∧
      digitOf (s.headD '\x00') = none := by
  rcases h with h | h | rfl
  · rw [h]
    decide
  · rw [h]
    decide
  · decide

theorem AfterDate.skipZ {s : List Char} (h : AfterDate s) {c : Cursor} (hc : c.rest = s) :
    (skipChar 'Z' c).rest = s := by
  unfold skipChar Cursor.peek
  rw [hc, if_neg h.headD.2.2.2.1, hc]

/-- Three digits of milliseconds, and the pointer past them. -/
theorem readMs_after {ms : Nat} (h : ms < 1000) {s : List Char} (hs : AfterDate s) (off : Nat) :
    (readMs 8 100 ⟨off, ui32tpstr ms 3 ++ s⟩).1 % 1000 = ms ∧
      (readMs 8 100 ⟨off, ui32tpstr ms 3 ++ s⟩).2.rest = s := by
  have hstop := hs.headD.2.2.2.2
  rw [ui32tpstr_three h]
  simp only [readMs, Cursor.peek, Cursor.adv, List.headD_cons, List.tail_cons, List.cons_append,
    List.nil_append, hstop, digitOf_digitChar (show ms / 100 < 10 by omega),
    digitOf_digitChar (show ms / 10 % 10 < 10 by omega), digitOf_digitChar (show ms % 10 < 10 by omega)]
  rw [if_pos (by decide), if_pos (by omega), if_pos (by omega)]
  exact ⟨by dsimp only; omega, rfl⟩

theorem length_timeOf (a : List Char) (i : Instant) (r : List Char) :
    (timeOf a i r).length = 7 + a.length + a.length + r.length := by
  have hfits := i.fits
  unfold timeOf
  simp only [List.length_append, List.length_cons]
  rw [ui32tpstr_length (by omega), ui32tpstr_length (by omega), ui32tpstr_length (by omega)]
  omega

section Written

variable {i : Instant} {s : List Char} (hs : AfterDate s)
include hs

/-- The seconds and milliseconds are read with what follows them. -/
theorem readSeconds_after {ep off : Nat} (hS : i.S ≤ 60) (hms : i.ms = echsAllSec ∨ i.ms ≤ 999)
    {frac : List Char} (hfrac : frac = if echsInstantAllSecP i then [] else '.' :: ui32tpstr i.ms 3)
    (hroom : off + 3 + frac.length ≤ ep) :
    (readSeconds ep i.y i.m i.d i.H i.M ⟨off, ':' :: (ui32tpstr i.S 2 ++ (frac ++ s))⟩).1 = i ∧
      (readSeconds ep i.y i.m i.d i.H i.M ⟨off, ':' :: (ui32tpstr i.S 2 ++ (frac ++ s))⟩).2.rest = s := by
  rw [readSeconds_colon (by omega) (by omega), readSeconds_spelt hS (by omega)]
  unfold echsInstantAllSecP at hfrac
  by_cases hsec : i.ms = echsAllSec
  · rw [if_pos (beq_iff_eq.mpr hsec)] at hfrac
    subst hfrac
    rw [List.nil_append, if_pos (Or.inr hs.headD.2.2.1), ← hsec, pack_self]
    exact ⟨rfl, rfl⟩
  · rw [if_neg fun hb => hsec (beq_iff_eq.mp hb)] at hfrac
    subst hfrac
    obtain ⟨h1, h2⟩ := readMs_after (show i.ms < 1000 by omega) hs (off + 1 + 3)
    have hmore : ¬ (ep ≤ off + 1 + 2 ∨ ('.' :: ui32tpstr i.ms 3 ++ s).headD '\x00' ≠ '.') := by
      rintro (hle | hne)
      · rw [List.length_cons] at hroom
        omega
      · exact hne rfl
    rw [if_neg hmore, List.cons_append, List.tail_cons, h1, pack_self]
    exact ⟨rfl, h2⟩

variable (h : ValidStamp i)
include h

/-- A day is read with what follows it. -/
theorem dtStrpOn_day (hday : i.H = echsAllDay) :
    dtStrpOn (dateOf ['-'] i s) (dateOf ['-'] i s).length = some (i, s) := by
  obtain ⟨-, hM, hS, hms⟩ := h.time.resolve_right fun ht => by
    have h255 : echsAllDay = 255 := rfl
    omega
  have hself : Instant.pack i.y i.m i.d echsAllDay 0 0 0 = .pack i.y i.m i.d i.H i.M i.S i.ms := by
    rw [hday, hM, hS, hms]
  rw [(dateText_dateOf h (Or.inr rfl)).read, readTime_none (Or.inr ⟨hs.headD.1, hs.headD.2.1⟩),
    Option.bind_some, hs.skipZ rfl, hself, pack_self]

/-- A time is read with what follows it. -/
theorem dtStrpOn_time (ht : i.H ≤ 23 ∧ i.M ≤ 59 ∧ i.S ≤ 60) (hms : i.ms = echsAllSec ∨ i.ms ≤ 999)
    {frac : List Char} (hfrac : frac = if echsInstantAllSecP i then [] else '.' :: ui32tpstr i.ms 3) :
    dtStrpOn (dateOf ['-'] i (timeOf [':'] i (frac ++ s)))
      (dateOf ['-'] i (timeOf [':'] i (frac ++ s))).length = some (i, s) := by
  have hlen := length_timeOf [':'] i (frac ++ s)
  rw [List.length_append, List.length_singleton] at hlen
  have hend := endOf_dateOf h (a := ['-']) (r := timeOf [':'] i (frac ++ s))
  rw [List.length_singleton] at hend
  have htime : TimeText (endOf (dateOf ['-'] i (timeOf [':'] i (frac ++ s))).length) (8 + 1 + 1)
      (timeOf [':'] i (frac ++ s)) i.H i.M 16 (':' :: (ui32tpstr i.S 2 ++ (frac ++ s))) :=
    ⟨⟨by omega, by omega⟩, ⟨'T', [':'], Or.inl rfl, Or.inr rfl, rfl, rfl⟩, by omega⟩
  obtain ⟨h1, h2⟩ := readSeconds_after hs ht.2.2 hms hfrac (show 16 + 3 + frac.length ≤
    endOf (dateOf ['-'] i (timeOf [':'] i (frac ++ s))).length by omega)
  rw [(dateText_dateOf h (Or.inr rfl)).read]
  simp only [List.length_singleton]
  rw [htime.read, Option.bind_some, h1, hs.skipZ h2]

/-- An instant is read with what follows it in a range. -/
theorem dtStrpOn_dtStrf : dtStrpOn (dtStrf i ++ s) (dtStrf i ++ s).length = some (i, s) := by
  have happ : dtStrf i ++ s = dateOf ['-'] i (if echsInstantAllDayP i then s else timeOf [':'] i
      ((if echsInstantAllSecP i then [] else '.' :: ui32tpstr i.ms 3) ++ s)) := by
    rw [dtStrf_eq]
    unfold dateOf timeOf
    split
    · simp
    · simp
  rw [happ]
  unfold echsInstantAllDayP
  by_cases hday : i.H = echsAllDay
  · rw [if_pos (beq_iff_eq.mpr hday)]
    exact dtStrpOn_day hs h hday
  · obtain ⟨ht, hms⟩ := h.time.resolve_left fun hd => hday hd.1
    rw [if_neg fun hb => hday (beq_iff_eq.mp hb)]
    exact dtStrpOn_time hs h ht hms rfl

end Written

/-! ### The way back -/

theorem ValidStamp.not_nul {i : Instant} (h : ValidStamp i) : echsNulInstantP i = false :=
  not_nul_of_month h.date.1

theorem ValidStamp.not_max {i : Instant} (h : ValidStamp i) : echsMaxInstantP i = false := by
  have hy := h.year
  obtain ⟨-, hm, hd, hH, hM, hS, hms⟩ := i.fits
  unfold echsMaxInstantP Instant.u
  rw [beq_eq_false_iff_ne]
  omega

/-- A range of valid instants, either end of which may be open. -/
structure ValidRange (r : EchsRange) : Prop where
  beg : r.beg = echsNulInstant ∨ ValidStamp r.beg
  fin : r.fin = echsMaxInstant ∨ ValidStamp r.fin

/-- What is written of the upper end. -/
def finText (fin : Instant) : List Char :=
  if echsMaxInstantP fin then ['+'] else '/' :: dtStrf fin

theorem finText_max : finText echsMaxInstant = ['+'] := if_pos (by decide)

theorem finText_stamp {fin : Instant} (h : ValidStamp fin) : finText fin = '/' :: dtStrf fin :=
  if_neg (by rw [h.not_max]; decide)

theorem length_dtStrf_le {i : Instant} (h : ValidStamp i) : (dtStrf i).length ≤ 23 := by
  have hfits := i.fits
  rw [dtStrf_eq, length_dateOf h]
  by_cases hday : echsInstantAllDayP i = true
  · rw [if_pos hday]
    decide
  · rw [if_neg hday, length_timeOf]
    by_cases hsec : echsInstantAllSecP i = true
    · rw [if_pos hsec]
      decide
    · have hms : (ui32tpstr i.ms 3).length = 3 := ui32tpstr_length (by omega) 3
      rw [if_neg hsec]
      simp only [List.length_cons, List.length_nil, hms]
      decide

/-- The lower end is in, and the upper one comes. -/
theorem rangeStrp_finText {beg fin : Instant} (hfin : fin = echsMaxInstant ∨ ValidStamp fin)
    {str : List Char} (h0 : str ≠ []) (hlt : str.length < 2 ^ 64) (hsign : str.headD '\x00' ≠ '-')
    (hbeg : (dtStrpOn str str.length).getD (echsNulInstant, str) = (beg, finText fin))
    (hle : (finText fin).length ≤ str.length) : (rangeStrp str str.length).1 = ⟨beg, fin⟩ := by
  have hlen : str.length ≠ 0 := fun hz => h0 (List.eq_nil_of_length_eq_zero hz)
  unfold rangeStrp
  dsimp only
  rw [if_neg hlen, if_neg hsign, hbeg]
  rcases hfin with rfl | hfin
  · rw [finText_max]
    dsimp only
    rw [if_neg (by decide), if_pos (by decide)]
  · have hread := dtStrpOn_dtStrf (s := []) (Or.inr (Or.inr rfl)) hfin
    rw [List.append_nil] at hread
    rw [finText_stamp hfin, List.length_cons] at hle
    have hz : (str.length + 2 ^ 64 - (str.length - (dtStrf fin).length)) % 2 ^ 64 = (dtStrf fin).length := by
      omega
    rw [finText_stamp hfin]
    dsimp only
    rw [if_pos List.headD_cons, List.tail_cons, hz, hread]

theorem dtStrpOn_none {str : List Char} (h : digitOf (str.headD '\x00') = none) (len : Nat) :
    dtStrpOn str len = none := by
  have hyear : readYear ⟨0, str⟩ = none := by
    unfold readYear readTwo readDigit Cursor.peek
    rw [h]
    rfl
  unfold dtStrpOn
  dsimp only
  rw [hyear]
  split
  · rfl
  · rfl

theorem afterDate_finText {fin : Instant} (h : fin = echsMaxInstant ∨ ValidStamp fin) :
    AfterDate (finText fin) := by
  rcases h with rfl | h
  · rw [finText_max]
    exact Or.inr (Or.inl rfl)
  · rw [finText_stamp h]
    exact Or.inl rfl

theorem finText_length {fin : Instant} (h : fin = echsMaxInstant ∨ ValidStamp fin) :
    1 ≤ (finText fin).length ∧ (finText fin).length ≤ 24 := by
  rcases h with rfl | h
  · rw [finText_max]
    decide
  · rw [finText_stamp h, List.length_cons]
    exact ⟨Nat.le_add_left 1 _, Nat.succ_le_succ (length_dtStrf_le h)⟩

/-- Neither a date nor a mark is a minus sign. -/
theorem dtStrf_headD {i : Instant} (h : ValidStamp i) (s : List Char) :
    (dtStrf i ++ s).headD '\x00' ≠ '-' := by
  have hy := h.year
  rw [dtStrf_eq]
  unfold dateOf
  rw [ui32tpstr_four (by omega), ui32tpstr_two (show i.y / 100 < 100 by omega)]
  exact (digitChar_ne (show i.y / 100 / 10 < 10 by omega)).1

theorem finText_headD {fin : Instant} (h : fin = echsMaxInstant ∨ ValidStamp fin) :
    (finText fin).headD '\x00' ≠ '-' := by
  rcases afterDate_finText h with h' | h' | h'
  · rw [h']
    decide
  · rw [h']
    decide
  · rw [h']
    decide

theorem rangeStrf_open {fin : Instant} (h : ValidStamp fin) :
    rangeStrf ⟨echsNulInstant, fin⟩ = finText fin := by
  have hnul : echsNulInstantP echsNulInstant = true := by decide
  unfold rangeStrf finText
  dsimp only
  rw [hnul, h.not_max]
  rfl

theorem rangeStrf_from {beg : Instant} (h : ValidStamp beg) (fin : Instant) :
    rangeStrf ⟨beg, fin⟩ = dtStrf beg ++ finText fin := by
  unfold rangeStrf finText
  dsimp only
  rw [h.not_nul]
  rfl

/-- **A range is read back from what is written of it.** -/
theorem rangeStrp_rangeStrf {r : EchsRange} (h : ValidRange r) :
    (rangeStrp (rangeStrf r) (rangeStrf r).length).1 = r := by
  obtain ⟨beg, fin⟩ := r
  obtain ⟨hbeg, hfin⟩ := h
  dsimp only at hbeg hfin
  obtain ⟨hpos, hlong⟩ := finText_length hfin
  rcases hbeg with rfl | hbeg
  · rcases hfin with rfl | hfin
    · -- the star is neither a date nor a mark
      decide
    · have hnone : dtStrpOn (finText fin) (finText fin).length = none :=
        dtStrpOn_none (afterDate_finText (Or.inr hfin)).headD.2.2.2.2 _
      rw [rangeStrf_open hfin]
      refine rangeStrp_finText (Or.inr hfin) (List.ne_nil_of_length_pos hpos) (by omega)
        (finText_headD (Or.inr hfin)) ?_ le_rfl
      rw [hnone]
      rfl
  · have hlen := length_dtStrf_le hbeg
    have hread := dtStrpOn_dtStrf (afterDate_finText hfin) hbeg
    rw [rangeStrf_from hbeg]
    refine rangeStrp_finText hfin ?_ ?_ (dtStrf_headD hbeg _) ?_ ?_
    · exact List.append_ne_nil_of_right_ne_nil _ (List.ne_nil_of_length_pos hpos)
    · rw [List.length_append]
      omega
    · rw [hread]
      rfl
    · rw [List.length_append]
      exact Nat.le_add_left _ _

/-- From a leap second on for ever, and up to a leap day. -/
theorem rangeStrp_rangeStrf_leap :
    (rangeStrp (rangeStrf ⟨.pack 2016 12 31 23 59 60 7, echsMaxInstant⟩)
      (rangeStrf ⟨.pack 2016 12 31 23 59 60 7, echsMaxInstant⟩).length).1 =
        ⟨.pack 2016 12 31 23 59 60 7, echsMaxInstant⟩ ∧
    (rangeStrp (rangeStrf ⟨echsNulInstant, .pack 2016 2 29 255 0 0 0⟩)
      (rangeStrf ⟨echsNulInstant, .pack 2016 2 29 255 0 0 0⟩).length).1 =
        ⟨echsNulInstant, .pack 2016 2 29 255 0 0 0⟩ :=
  ⟨rangeStrp_rangeStrf ⟨Or.inr ⟨by decide, by decide, Or.inr ⟨by decide, Or.inr (by decide)⟩⟩, Or.inl rfl⟩,
    rangeStrp_rangeStrf ⟨Or.inl rfl, Or.inr ⟨by decide, by decide, Or.inl (by decide)⟩⟩⟩

end Echse
