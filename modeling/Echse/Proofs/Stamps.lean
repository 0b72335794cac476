/-
Instants that are written in a rule, and read back.

Every instant that has been read is in the range of the writer, which leaves out the
milliseconds.
-/
import Echse.Icalify
import Echse.Snarf
import Echse.Proofs.Keys

namespace Echse

/-! ### Digits -/

theorem digitOf_digitChar {k : Nat} (h : k < 10) : digitOf k.digitChar = some k := by
  interval_cases k <;> rfl

theorem digitChar_ne {k : Nat} (h : k < 10) :
    k.digitChar ≠ '-' ∧ k.digitChar ≠ ':' ∧ (k.digitChar = '2' ↔ k = 2) ∧
      (k.digitChar = '6' ↔ k = 6) ∧ (k.digitChar = '0' ↔ k = 0) := by
  interval_cases k <;> decide

theorem readDigit_digitChar {lim k : Nat} (hk : k < 10) (h : k < lim) (off : Nat)
    (s : List Char) : readDigit lim ⟨off, k.digitChar :: s⟩ = some (k, ⟨off + 1, s⟩) := by
  simp [readDigit, Cursor.peek, Cursor.adv, digitOf_digitChar hk, h]

theorem ui32tpstr_two {n : Nat} (h : n < 100) :
    ui32tpstr n 2 = [(n / 10).digitChar, (n % 10).digitChar] := by
  have h1 : ¬ 1000000000 < n := by omega
  have h2 : ¬ 1000000000 < n / 10 := by omega
  simp [ui32tpstr, h1, h2, Nat.mod_eq_of_lt (show n / 10 < 10 by omega)]

theorem ui32tpstr_four {n : Nat} (h : n < 10000) :
    ui32tpstr n 4 = ui32tpstr (n / 100) 2 ++ ui32tpstr (n % 100) 2 := by
  have h0 : ¬ 1000000000 < n := by omega
  have h1 : ¬ 1000000000 < n / 10 := by omega
  have h2 : ¬ 1000000000 < n / 10 / 10 := by omega
  have h3 : ¬ 1000000000 < n / 10 / 10 / 10 := by omega
  rw [ui32tpstr_two (by omega), ui32tpstr_two (by omega)]
  simp only [ui32tpstr, h0, h1, h2, h3, if_false, List.nil_append, List.cons_append]
  have e1 : n / 10 / 10 / 10 % 10 = n / 100 / 10 := by omega
  have e2 : n / 10 / 10 % 10 = n / 100 % 10 := by omega
  have e3 : n / 10 % 10 = n % 100 / 10 := by omega
  have e4 : n % 10 = n % 100 % 10 := by omega
  rw [e1, e2, e3, ← e4]

/-- Two digits are read back. -/
theorem readTwo_ui32tpstr {n lim : Nat} (hn : n < 100) (h : n / 10 < lim) (off : Nat)
    (s : List Char) : readTwo lim ⟨off, ui32tpstr n 2 ++ s⟩ = some (n, ⟨off + 2, s⟩) := by
  rw [ui32tpstr_two hn, List.cons_append, List.cons_append, List.nil_append, readTwo,
    readDigit_digitChar (by omega) h]
  simp only [Option.bind_eq_bind, Option.bind_some]
  rw [readDigit_digitChar (by omega) (by omega)]
  simp only [Option.bind_some]
  rw [show 10 * (n / 10) + n % 10 = n by omega]

theorem readYear_ui32tpstr {n : Nat} (hn : n < 10000) (s : List Char) :
    readYear ⟨0, ui32tpstr n 4 ++ s⟩ = some (n, ⟨4, s⟩) := by
  rw [ui32tpstr_four hn, List.append_assoc, readYear,
    readTwo_ui32tpstr (by omega) (by omega)]
  simp only [Option.bind_eq_bind, Option.bind_some]
  rw [readTwo_ui32tpstr (by omega) (by omega)]
  simp only [Option.bind_some]
  rw [show 100 * (n / 100) + n % 100 = n by omega]

theorem skipChar_ui32tpstr {x : Char} (hx : x = '-' ∨ x = ':') {n : Nat} (hn : n < 100)
    (off : Nat) (s : List Char) :
    skipChar x ⟨off, ui32tpstr n 2 ++ s⟩ = ⟨off, ui32tpstr n 2 ++ s⟩ := by
  have hd := digitChar_ne (show n / 10 < 10 by omega)
  rw [ui32tpstr_two hn]
  rcases hx with rfl | rfl <;> simp [skipChar, Cursor.peek, hd]

theorem readHour_ui32tpstr {n : Nat} (hn : n < 24) (off : Nat) (s : List Char) :
    readHour ⟨off, ui32tpstr n 2 ++ s⟩ = some (n, ⟨off + 2, s⟩) := by
  have hd := digitChar_ne (show n / 10 < 10 by omega)
  rw [readHour]
  split
  · rename_i h
    have h2 : n / 10 = 2 := by
      rw [ui32tpstr_two (by omega)] at h
      simpa [Cursor.peek, hd] using h
    rw [ui32tpstr_two (by omega)]
    simp only [Cursor.adv, List.cons_append, List.nil_append, List.tail_cons]
    rw [readDigit_digitChar (by omega) (by omega)]
    simp
    omega
  · rename_i h
    have h2 : n / 10 ≠ 2 := by
      rw [ui32tpstr_two (by omega)] at h
      simpa [Cursor.peek, hd] using h
    exact readTwo_ui32tpstr (by omega) (by omega) off s

/-- The two digits of the seconds. -/
def readSec (c : Cursor) : Nat × Cursor :=
  if c.peek = '6' ∧ c.adv.peek = '0' then (60, c.adv.adv)
  else match readTwo 6 c with
    | some r => r
    | none => (0, if (readDigit 6 c).isSome then c.adv else c)

/-- What comes after them. -/
def readFraction (ep y m d H M : Nat) (r : Nat × Cursor) : Instant × Cursor :=
  if ep ≤ r.2.off ∨ r.2.peek ≠ '.' then (.pack y m d H M r.1 echsAllSec, r.2)
  else
    (.pack y m d H M r.1 ((readMs 8 100 r.2.adv).1 % 1000), (readMs 8 100 r.2.adv).2)

theorem readSeconds_eq (ep y m d H M : Nat) (c : Cursor) :
    readSeconds ep y m d H M c =
      if ep < (if ep ≤ c.off ∨ c.peek = ':' then c.adv else c).off + 2 then
        (.pack y m d H M 0 0, if ep ≤ c.off ∨ c.peek = ':' then c.adv else c)
      else
        readFraction ep y m d H M (readSec (if ep ≤ c.off ∨ c.peek = ':' then c.adv else c)) := by
  rfl

/-- The seconds, and what comes after them. -/
theorem readSeconds_spelt {ep S off : Nat} (hS : S ≤ 60) (hroom : off + 2 ≤ ep) (y m d H M : Nat)
    (s : List Char) : readSeconds ep y m d H M ⟨off, ui32tpstr S 2 ++ s⟩ =
      if ep ≤ off + 2 ∨ s.headD '\x00' ≠ '.' then (.pack y m d H M S echsAllSec, ⟨off + 2, s⟩)
      else (.pack y m d H M S ((readMs 8 100 ⟨off + 3, s.tail⟩).1 % 1000),
        (readMs 8 100 ⟨off + 3, s.tail⟩).2) := by
  have hd := digitChar_ne (show S / 10 < 10 by omega)
  have hpeek : (⟨off, ui32tpstr S 2 ++ s⟩ : Cursor).peek = (S / 10).digitChar := by
    rw [ui32tpstr_two (by omega)]
    rfl
  have hcolon : ¬ (ep ≤ off ∨ (⟨off, ui32tpstr S 2 ++ s⟩ : Cursor).peek = ':') := by
    rintro (h | h)
    · omega
    · exact hd.2.1 (hpeek.symm.trans h)
  unfold readSeconds
  rw [if_neg hcolon]
  dsimp only
  rw [if_neg (by omega)]
  by_cases h60 : S = 60
  · subst h60
    have h6 : (⟨off, ui32tpstr 60 2 ++ s⟩ : Cursor).peek = '6' ∧
      (⟨off, ui32tpstr 60 2 ++ s⟩ : Cursor).adv.peek = '0' := ⟨rfl, rfl⟩
    rw [if_pos h6]
    rfl
  · have h6 : ¬ ((⟨off, ui32tpstr S 2 ++ s⟩ : Cursor).peek = '6' ∧
        (⟨off, ui32tpstr S 2 ++ s⟩ : Cursor).adv.peek = '0') := by
      rintro ⟨h, -⟩
      rw [hpeek, hd.2.2.2.1] at h
      omega
    rw [if_neg h6, readTwo_ui32tpstr (by omega) (by omega)]
    rfl

/-- The seconds and what ends the stamp. -/
theorem readSeconds_ui32tpstr {S : Nat} (hS : S ≤ 60) (y m d H M : Nat) {off : Nat}
    (ho : off + 2 < 23) :
    (readSeconds 23 y m d H M ⟨off, ui32tpstr S 2 ++ ['Z']⟩).1 =
      .pack y m d H M S echsAllSec := by
  rw [readSeconds_spelt hS (by omega), if_pos (Or.inr (by decide))]

/-- What can be written and read back, but for the milliseconds. -/
structure Stampable (i : Instant) : Prop where
  y : i.y < 10000
  m : i.m < 20
  d : i.d < 40
  time : (i.H = echsAllDay ∧ i.M = 0 ∧ i.S = 0 ∧ i.ms = 0) ∨ (i.H < 24 ∧ i.M < 60 ∧ i.S ≤ 60)

/-- **An instant that has been written is read back, up to its milliseconds.** -/
theorem dtStrp_dtStrfIcal {i : Instant} (h : Stampable i) :
    dtStrp (dtStrfIcal i) 0 =
      if i.H = echsAllDay then i else .pack i.y i.m i.d i.H i.M i.S echsAllSec := by
  obtain ⟨hy, hm, hd, ht⟩ := h
  have hdate : ∀ t : List Char, dtStrpOn (ui32tpstr i.y 4 ++ (ui32tpstr i.m 2 ++
      (ui32tpstr i.d 2 ++ t))) 0 =
        (readTime 23 i.y i.m i.d ⟨8, t⟩).bind fun r => some (r.1, (skipChar 'Z' r.2).rest) := by
    intro t
    simp only [dtStrpOn, if_true, readYear_ui32tpstr hy]
    simp only [Option.bind_eq_bind, Option.bind_some]
    rw [skipChar_ui32tpstr (.inl rfl) (by omega), readTwo_ui32tpstr (by omega) (by omega)]
    simp only [Option.bind_some]
    rw [skipChar_ui32tpstr (.inl rfl) (by omega), ui32tpstr_two (by omega)]
    simp only [List.cons_append, List.nil_append]
    rw [readDigit_digitChar (by omega) (by omega)]
    simp only [Option.bind_some]
    rw [if_neg (by decide), if_neg (by decide), readDigit_digitChar (by omega) (by omega)]
    simp only [Option.bind_some]
    rw [show 10 * (i.d / 10) + i.d % 10 = i.d by omega]
    rfl
  rw [dtStrp, dtStrfIcal, List.append_assoc, List.append_assoc, hdate]
  by_cases ha : i.H = echsAllDay
  · have hp : echsInstantAllDayP i = true := by simpa [echsInstantAllDayP] using ha
    have ht' : readTime 23 i.y i.m i.d ⟨8, []⟩ =
        some (.pack i.y i.m i.d echsAllDay 0 0 0, ⟨8, []⟩) := by
      rw [readTime, if_pos (.inr (by decide))]
    rw [if_pos hp, ht', if_pos ha]
    obtain ⟨h0, h1, h2, h3⟩ := ht.resolve_right fun h => by rw [ha] at h; exact absurd h.1 (by decide)
    exact (show Instant.pack i.y i.m i.d echsAllDay 0 0 0 = .pack i.y i.m i.d i.H i.M i.S i.ms by
      rw [h0, h1, h2, h3]).trans (pack_self i)
  · have hp : ¬ echsInstantAllDayP i = true := by simpa [echsInstantAllDayP] using ha
    have ht := ht.resolve_left fun h => ha h.1
    have ht' : (readTime 23 i.y i.m i.d
        ⟨8, 'T' :: ui32tpstr i.H 2 ++ ui32tpstr i.M 2 ++ ui32tpstr i.S 2 ++ ['Z']⟩) =
          some (readSeconds 23 i.y i.m i.d i.H i.M ⟨13, ui32tpstr i.S 2 ++ ['Z']⟩) := by
      simp only [List.append_assoc, List.cons_append]
      rw [readTime, if_neg (by simp [Cursor.peek]), if_neg (show ¬ 23 ≤ 8 + 4 by decide)]
      simp only [Cursor.adv, List.tail_cons]
      rw [readHour_ui32tpstr ht.1]
      simp only [Option.bind_eq_bind, Option.bind_some]
      rw [skipChar_ui32tpstr (.inr rfl) (by omega), if_neg (show ¬ 23 < 8 + 1 + 2 + 2 by decide),
        readTwo_ui32tpstr (by omega) (by omega)]
      rfl
    rw [if_neg hp, ht', if_neg ha]
    simp only [Option.bind_some]
    exact readSeconds_ui32tpstr ht.2.2 _ _ _ _ _ (by decide)

/-! ### What is read -/

theorem readDigit_lt {lim v : Nat} {c c' : Cursor} (h : readDigit lim c = some (v, c')) :
    v < lim ∧ v < 10 := by
  rw [readDigit] at h
  obtain ⟨w, hw, h⟩ := Option.bind_eq_some_iff.mp h
  rw [digitOf] at hw
  split at hw
  · split at h
    · rename_i hc hlt
      obtain rfl : w = v := by simpa using (Prod.mk.inj (Option.some.inj h)).1
      have := Option.some.inj hw
      have h9 : '9'.toNat = 57 := rfl
      have h0 : '0'.toNat = 48 := rfl
      omega
    · cases h
  · cases hw

theorem readTwo_lt {lim v : Nat} {c c' : Cursor} (h : readTwo lim c = some (v, c')) :
    v < 10 * lim ∧ v < 100 := by
  obtain ⟨⟨a, c₁⟩, ha, h⟩ := Option.bind_eq_some_iff.mp h
  obtain ⟨⟨b, c₂⟩, hb, h⟩ := Option.bind_eq_some_iff.mp h
  have h1 := readDigit_lt ha
  have h2 := readDigit_lt hb
  have : 10 * a + b = v := (Prod.mk.inj (Option.some.inj h)).1
  omega

theorem readHour_lt {v : Nat} {c c' : Cursor} (h : readHour c = some (v, c')) : v < 24 := by
  rw [readHour] at h
  split at h
  · obtain ⟨⟨b, c₂⟩, hb, h⟩ := Option.bind_eq_some_iff.mp h
    have h2 := readDigit_lt hb
    have : 20 + b = v := (Prod.mk.inj (Option.some.inj h)).1
    omega
  · have := readTwo_lt h
    omega

/-- The seconds end up within their range, whatever there is. -/
theorem readSeconds_pack (ep y m d H M : Nat) (c : Cursor) :
    ∃ S ms c', readSeconds ep y m d H M c = (.pack y m d H M S ms, c') ∧ S ≤ 60 := by
  rw [readSeconds]
  dsimp only
  generalize (if ep ≤ c.off ∨ c.peek = ':' then c.adv else c) = c
  split
  · exact ⟨0, 0, c, rfl, by decide⟩
  · generalize hr : (if c.peek = '6' ∧ c.adv.peek = '0' then (60, c.adv.adv)
      else match readTwo 6 c with
        | some r => r
        | none => (0, if (readDigit 6 c).isSome then c.adv else c) : Nat × Cursor) = r
    have hS : r.1 ≤ 60 := by
      rw [← hr]
      split
      · exact le_rfl
      · split
        · rename_i r' h
          have := readTwo_lt (show readTwo 6 c = some (r'.1, r'.2) from h)
          omega
        · exact Nat.zero_le _
    split
    · exact ⟨r.1, _, _, rfl, hS⟩
    · exact ⟨r.1, _, _, rfl, hS⟩

theorem stampable_pack {y m d H M S ms : Nat} (hy : y < 10000) (hm : m < 20) (hd : d < 40)
    (ht : (H = echsAllDay ∧ M = 0 ∧ S = 0 ∧ ms = 0) ∨ (H < 24 ∧ M < 60 ∧ S ≤ 60)) :
    Stampable (.pack y m d H M S ms) := by
  have h255 : echsAllDay = 255 := rfl
  refine ⟨?_, ?_, ?_, ?_⟩ <;> simp only [Instant.pack] <;> omega

theorem stampable_readTime {ep y m d : Nat} {c c' : Cursor} {i : Instant}
    (h : readTime ep y m d c = some (i, c')) (hy : y < 10000) (hm : m < 20) (hd : d < 40) :
    Stampable i := by
  rw [readTime] at h
  split at h
  · obtain rfl := (Prod.mk.inj (Option.some.inj h)).1
    exact stampable_pack hy hm hd (.inl ⟨rfl, rfl, rfl, rfl⟩)
  · split at h
    · cases h
    · obtain ⟨⟨H, c₁⟩, hH, h⟩ := Option.bind_eq_some_iff.mp h
      have hH := readHour_lt hH
      dsimp only at h
      split at h
      · cases h
      · obtain ⟨⟨M, c₂⟩, hM, h⟩ := Option.bind_eq_some_iff.mp h
        have hM := readTwo_lt hM
        obtain ⟨S, ms, c₃, hs, hS⟩ := readSeconds_pack ep y m d H M c₂
        have h := hs.symm.trans (Option.some.inj h)
        obtain rfl := (Prod.mk.inj h).1
        exact stampable_pack hy hm hd (.inr ⟨hH, by omega, hS⟩)

/-- **Every instant that is read is in range.** -/
theorem stampable_dtStrp (s : List Char) (n : Nat) : Stampable (dtStrp s n) := by
  rw [dtStrp]
  split
  · rename_i i c h
    rw [dtStrpOn] at h
    dsimp only at h
    generalize (if n = 0 then 23 else n) = ep at h
    split at h
    · cases h
    · obtain ⟨⟨y, c₁⟩, hy, h⟩ := Option.bind_eq_some_iff.mp h
      obtain ⟨⟨m, c₂⟩, hm, h⟩ := Option.bind_eq_some_iff.mp h
      obtain ⟨⟨y1, c₃⟩, hy1, hy⟩ := Option.bind_eq_some_iff.mp hy
      obtain ⟨⟨y2, c₄⟩, hy2, hy⟩ := Option.bind_eq_some_iff.mp hy
      have hyr : 100 * y1 + y2 = y := (Prod.mk.inj (Option.some.inj hy)).1
      have hy1 := readTwo_lt hy1
      have hy2 := readTwo_lt hy2
      have hm := readTwo_lt hm
      dsimp only at h
      split at h
      · cases h
      · obtain ⟨⟨a, c₅⟩, ha, h⟩ := Option.bind_eq_some_iff.mp h
        have ha := readDigit_lt ha
        dsimp only at h
        split at h
        · cases h
        · obtain ⟨⟨b, c₆⟩, hb, h⟩ := Option.bind_eq_some_iff.mp h
          have hb := readDigit_lt hb
          obtain ⟨⟨res, c₇⟩, hres, h⟩ := Option.bind_eq_some_iff.mp h
          obtain rfl : res = i := (Prod.mk.inj (Option.some.inj h)).1
          exact stampable_readTime hres (by omega) (by omega) (by omega)
  · exact stampable_pack (by decide) (by decide) (by decide) (.inr (by decide))

end Echse
