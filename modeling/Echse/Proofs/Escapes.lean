/-
Text values: what is escaped and folded, and what `esccpy` makes of it.

The inner switch of `esccpy` looks at the backslash and never at what it escapes, so every
escape comes out as a backslash.  A text without anything to escape but backslashes is
given back as it was, wherever the folds are.
-/
import Echse.Proofs.Lines

namespace Echse

/-- A character of a text value, as the standard has it escaped. -/
def escape (c : Char) : List Char :=
  if c = '\\' ∨ c = ';' ∨ c = ',' then ['\\', c]
  else if c = '\n' then ['\\', 'n']
  else [c]

/-- The end of a line. -/
def IsBreak (b : List Char) : Prop := b = ['\n'] ∨ b = ['\r', '\n']

def IsBlank (c : Char) : Prop := c = ' ' ∨ c = '\t'

/-- A text value escaped, folded between characters, and its line ended. -/
inductive Folded : List Char → List Char → Prop where
  | done {b : List Char} (hb : IsBreak b) : Folded [] b
  | char (c : Char) {t s : List Char} (h : Folded t s) : Folded (c :: t) (escape c ++ s)
  | fold {b : List Char} {x : Char} {t s : List Char} (hb : IsBreak b) (hx : IsBlank x)
      (h : Folded t s) : Folded t (b ++ x :: s)

/-- What the reader makes of a character. -/
def readAs (c : Char) : List Char :=
  if c = '\r' then [] else if c = ';' ∨ c = ',' ∨ c = '\n' then ['\\'] else [c]

theorem unescape_escape (c : Char) (s : List Char) :
    unescape (escape c ++ s) = readAs c ++ unescape s := by
  unfold escape readAs
  by_cases hesc : c = '\\' ∨ c = ';' ∨ c = ','
  · rw [if_pos hesc, List.cons_append, unescape_cons]
    rcases hesc with rfl | rfl | rfl <;> rfl
  · rw [if_neg hesc]
    by_cases hn : c = '\n'
    · subst hn
      rfl
    · rw [if_neg hn, List.singleton_append, unescape_cons]
      simp only [not_or] at hesc
      by_cases hr : c = '\r'
      · rw [if_pos hr, if_pos hr]
        rfl
      · have hplain : ¬ (c = ';' ∨ c = ',' ∨ c = '\n') := by tauto
        rw [if_neg hr, if_neg hn, if_neg hesc.1, if_neg hr, if_neg hplain]
        rfl

theorem unescape_fold {b : List Char} (hb : IsBreak b) (x : Char) (s : List Char) :
    unescape (b ++ x :: s) = unescape s := by
  rcases hb with rfl | rfl
  · rfl
  · rfl

theorem unescape_folded {t s : List Char} (h : Folded t s) : unescape s = t.flatMap readAs := by
  induction h with
  | done hb =>
      rcases hb with rfl | rfl
      · rfl
      · rfl
  | char c h ih => rw [unescape_escape, ih, List.flatMap_cons]
  | fold hb hx h ih => rw [unescape_fold hb, ih]

/-- Nothing has to be escaped but backslashes, and no carriage return is lost. -/
def Unescaped (t : List Char) : Prop := ∀ c ∈ t, c ≠ ';' ∧ c ≠ ',' ∧ c ≠ '\n' ∧ c ≠ '\r'

theorem readAs_length (c : Char) : (readAs c).length ≤ 1 := by
  unfold readAs
  split_ifs <;> simp

theorem readAs_eq_iff (c : Char) : readAs c = [c] ↔ c ≠ ';' ∧ c ≠ ',' ∧ c ≠ '\n' ∧ c ≠ '\r' := by
  unfold readAs
  by_cases hr : c = '\r'
  · simp [hr]
  · rw [if_neg hr]
    by_cases hesc : c = ';' ∨ c = ',' ∨ c = '\n'
    · rw [if_pos hesc]
      rcases hesc with rfl | rfl | rfl <;> simp
    · rw [if_neg hesc]
      simp only [not_or] at hesc
      simp [hesc, hr]

theorem length_flatMap_readAs (t : List Char) : (t.flatMap readAs).length ≤ t.length := by
  induction t with
  | nil => exact le_rfl
  | cons c t ih =>
      have hc := readAs_length c
      rw [List.flatMap_cons, List.length_append, List.length_cons]
      omega

/-- As no character is read as more than one, the text is the same just if each of them is. -/
theorem flatMap_readAs_iff (t : List Char) : t.flatMap readAs = t ↔ Unescaped t := by
  induction t with
  | nil => simp [Unescaped]
  | cons c t ih =>
      have hcons : Unescaped (c :: t) ↔ readAs c = [c] ∧ Unescaped t := by
        rw [readAs_eq_iff]
        exact List.forall_mem_cons
      rw [hcons, ← ih, List.flatMap_cons]
      constructor
      · intro heq
        have hlen := congrArg List.length heq
        have hc := readAs_length c
        have ht := length_flatMap_readAs t
        rw [List.length_append, List.length_cons] at hlen
        obtain ⟨d, hd⟩ := List.length_eq_one_iff.mp (show (readAs c).length = 1 by omega)
        rw [hd, List.singleton_append] at heq
        obtain ⟨rfl, htail⟩ := List.cons_eq_cons.mp heq
        exact ⟨hd, htail⟩
      · rintro ⟨hc, ht⟩
        rw [hc, ht]
        rfl

/-- **An escaped and folded text is given back just if none of it had to be escaped but
backslashes.** -/
theorem esccpy_folded_iff {t s : List Char} (h : Folded t s) {tz : Nat} (htz : t.length < tz) :
    esccpy tz s = some t ↔ Unescaped t := by
  have hroom : (t.flatMap readAs).length < tz := lt_of_le_of_lt (length_flatMap_readAs t) htz
  unfold esccpy
  rw [unescape_folded h, if_pos hroom, Option.some_inj]
  exact flatMap_readAs_iff t

/-- A backslash is doubled, and the line folded before and after it. -/
theorem esccpy_folded_iff_backslash :
    esccpy 8 ("a\r\n \\\\\n\tb\r\n".toList) = some "a\\b".toList :=
  (esccpy_folded_iff (.char 'a' (.fold (Or.inr rfl) (Or.inl rfl) (.char '\\' (.fold (Or.inl rfl) (Or.inr rfl)
    (.char 'b' (.done (Or.inr rfl))))))) (by decide)).mpr (by simp [Unescaped])

/-- A comma comes out as a backslash. -/
theorem esccpy_loses_comma : Folded "a,b".toList "a\\,b\r\n".toList ∧
    esccpy 8 "a\\,b\r\n".toList ≠ some "a,b".toList :=
  ⟨.char 'a' (.char ',' (.char 'b' (.done (Or.inr rfl)))), by decide⟩

end Echse
