/-
Reading up to the end of an item.

The readers of numbers and instants are given the text from some place on, without its end.
What they read there ends at a comma or a semicolon all the same, so it does not matter what comes
after.
-/
import Echse.Proofs.RrulText
import Echse.Proofs.Stamps

namespace Echse

/-- The end of an item: of a part, or a comma. -/
def EndsItem (t : List Char) : Prop := ∀ c ∈ t.head?, c = ',' ∨ c = ';'

theorem EndsPart.endsItem {t : List Char} (h : EndsPart t) : EndsItem t :=
  fun c hc => Or.inr (h c hc)

theorem EndsItem.stops {t : List Char} (h : EndsItem t) : Stops t := fun c hc => by
  rcases h c hc with rfl | rfl <;> decide

theorem endsItem_comma (t : List Char) : EndsItem (',' :: t) := fun c hc => by
  cases hc
  exact Or.inl rfl

/-! ### Instants

Two cursors go along, one in the value alone and one where `u` comes after it.
-/

/-- The same place in both. -/
structure Abreast (u : List Char) (c d : Cursor) : Prop where
  off : c.off = d.off
  rest : c.rest = d.rest ++ u

/-- The same place, or behind the value. -/
def AbreastOr (u : List Char) (c d : Cursor) : Prop :=
  Abreast u c d ∨ d.rest = [] ∧ c.rest.length ≤ u.length

/-- Readers with the same result that leave their cursors like that. -/
def Alike {β : Type} (R : Cursor → Cursor → Prop) : Option (β × Cursor) → Option (β × Cursor) → Prop
  | none, none => True
  | some (v, c), some (w, d) => v = w ∧ R c d
  | _, _ => False

section Reading

variable {u : List Char} {c d : Cursor}

theorem Abreast.peek (hu : EndsItem u) (h : Abreast u c d) :
    c.peek = d.peek ∧ d.rest ≠ [] ∨
      (c.peek = ',' ∨ c.peek = ';' ∨ c.peek = '\x00') ∧ d.peek = '\x00' ∧ d.rest = [] := by
  unfold Cursor.peek
  rw [h.rest]
  cases hr : d.rest with
  | nil =>
      refine Or.inr ⟨?_, rfl, rfl⟩
      rcases u with _ | ⟨x, u⟩
      · exact Or.inr (Or.inr rfl)
      · exact (hu x rfl).imp_right Or.inl
  | cons x r => exact Or.inl ⟨rfl, List.cons_ne_nil _ _⟩

theorem Abreast.adv (h : Abreast u c d) (hne : d.rest ≠ []) : Abreast u c.adv d.adv := by
  obtain ⟨x, r, hr⟩ := List.exists_cons_of_ne_nil hne
  exact ⟨by simp [Cursor.adv, h.off], by simp [Cursor.adv, h.rest, hr]⟩

/-- What is asked of the next character has the same answer. -/
theorem Abreast.ask (hu : EndsItem u) (h : Abreast u c d) {x : Char}
    (hx : x ≠ ',' ∧ x ≠ ';' ∧ x ≠ '\x00') :
    (c.peek = x ↔ d.peek = x) ∧ (d.peek = x → d.rest ≠ []) := by
  rcases h.peek hu with ⟨heq, hne⟩ | ⟨hc, hd, hr⟩
  · rw [heq]
    exact ⟨Iff.rfl, fun _ => hne⟩
  · rw [hd]
    refine ⟨iff_of_false (fun h => ?_) hx.2.2.symm, fun h => absurd h.symm hx.2.2⟩
    rcases hc with hc | hc | hc
    · exact hx.1 (h.symm.trans hc)
    · exact hx.2.1 (h.symm.trans hc)
    · exact hx.2.2 (h.symm.trans hc)

theorem Abreast.digit (hu : EndsItem u) (h : Abreast u c d) :
    digitOf c.peek = digitOf d.peek ∧ (digitOf d.peek ≠ none → d.rest ≠ []) := by
  rcases h.peek hu with ⟨heq, hne⟩ | ⟨hc, hd, hr⟩
  · rw [heq]
    exact ⟨rfl, fun _ => hne⟩
  · rw [hd]
    refine ⟨?_, fun h => absurd (by decide) h⟩
    rcases hc with hc | hc | hc <;> rw [hc] <;> decide

theorem Abreast.skipChar (hu : EndsItem u) (h : Abreast u c d) {x : Char}
    (hx : x ≠ ',' ∧ x ≠ ';' ∧ x ≠ '\x00') : Abreast u (skipChar x c) (skipChar x d) := by
  obtain ⟨hiff, hne⟩ := h.ask hu hx
  unfold Echse.skipChar
  by_cases hd : d.peek = x
  · rw [if_pos hd, if_pos (hiff.mpr hd)]
    exact h.adv (hne hd)
  · rw [if_neg hd, if_neg fun hc => hd (hiff.mp hc)]
    exact h

theorem Alike.bind {β γ : Type} {R S : Cursor → Cursor → Prop} {a b : Option (β × Cursor)}
    {f g : β × Cursor → Option (γ × Cursor)} (h : Alike R a b)
    (hf : ∀ v c d, R c d → Alike S (f (v, c)) (g (v, d))) : Alike S (a.bind f) (b.bind g) := by
  rcases a with _ | ⟨v, c⟩ <;> rcases b with _ | ⟨w, d⟩
  · trivial
  · exact h.elim
  · exact h.elim
  · obtain ⟨rfl, hR⟩ := h
    exact hf v c d hR

theorem readDigit_alike (hu : EndsItem u) (h : Abreast u c d) (lim : Nat) :
    Alike (Abreast u) (readDigit lim c) (readDigit lim d) := by
  obtain ⟨heq, hne⟩ := h.digit hu
  unfold readDigit
  rw [heq]
  cases hd : digitOf d.peek with
  | none => trivial
  | some v =>
      dsimp only [bind, Option.bind]
      split
      · exact ⟨rfl, h.adv (hne (by rw [hd]; exact Option.some_ne_none _))⟩
      · trivial

theorem readTwo_alike (hu : EndsItem u) (h : Abreast u c d) (lim : Nat) :
    Alike (Abreast u) (readTwo lim c) (readTwo lim d) :=
  (readDigit_alike hu h lim).bind fun _ _ _ h' =>
    (readDigit_alike hu h' 10).bind fun _ _ _ h'' => ⟨rfl, h''⟩

theorem readYear_alike (hu : EndsItem u) (h : Abreast u c d) :
    Alike (Abreast u) (readYear c) (readYear d) :=
  (readTwo_alike hu h 10).bind fun _ _ _ h' =>
    (readTwo_alike hu h' 10).bind fun _ _ _ h'' => ⟨rfl, h''⟩

theorem readHour_alike (hu : EndsItem u) (h : Abreast u c d) :
    Alike (Abreast u) (readHour c) (readHour d) := by
  obtain ⟨hiff, hne⟩ := h.ask hu (x := '2') (by decide)
  unfold readHour
  by_cases hd : d.peek = '2'
  · rw [if_pos hd, if_pos (hiff.mpr hd)]
    exact (readDigit_alike hu (h.adv (hne hd)) 4).bind fun _ _ _ h' => ⟨rfl, h'⟩
  · rw [if_neg hd, if_neg fun hc => hd (hiff.mp hc)]
    exact readTwo_alike hu h 2

theorem readMs_alike (hu : EndsItem u) (fuel : Nat) : ∀ {c d : Cursor} (tmp : Nat),
    Abreast u c d → (readMs fuel tmp c).1 = (readMs fuel tmp d).1 ∧
      Abreast u (readMs fuel tmp c).2 (readMs fuel tmp d).2 := by
  induction fuel with
  | zero => exact fun tmp h => ⟨rfl, h⟩
  | succ fuel ih =>
      intro c d tmp h
      obtain ⟨heq, hne⟩ := h.digit hu
      unfold readMs
      rw [heq]
      cases hd : digitOf d.peek with
      | none => exact ⟨rfl, h⟩
      | some v =>
          dsimp only
          split
          · exact ih _ (h.adv (hne (by rw [hd]; exact Option.some_ne_none _)))
          · exact ⟨rfl, h⟩

theorem readSec_alike (hu : EndsItem u) (h : Abreast u c d) :
    (readSec c).1 = (readSec d).1 ∧ Abreast u (readSec c).2 (readSec d).2 := by
  obtain ⟨hsix, hne⟩ := h.ask hu (x := '6') (by decide)
  have hsixty : (c.peek = '6' ∧ c.adv.peek = '0' ↔ d.peek = '6' ∧ d.adv.peek = '0') ∧
      (d.peek = '6' ∧ d.adv.peek = '0' → d.rest ≠ [] ∧ d.adv.rest ≠ []) := by
    by_cases hd : d.peek = '6'
    · obtain ⟨hzero, hne'⟩ := (h.adv (hne hd)).ask hu (x := '0') (by decide)
      exact ⟨and_congr hsix hzero, fun h' => ⟨hne hd, hne' h'.2⟩⟩
    · exact ⟨iff_of_false (fun h' => hd (hsix.mp h'.1)) fun h' => hd h'.1, fun h' => absurd h'.1 hd⟩
  unfold readSec
  by_cases hd : d.peek = '6' ∧ d.adv.peek = '0'
  · rw [if_pos hd, if_pos (hsixty.1.mpr hd)]
    exact ⟨rfl, (h.adv (hsixty.2 hd).1).adv (hsixty.2 hd).2⟩
  · rw [if_neg hd, if_neg fun hc => hd (hsixty.1.mp hc)]
    have htwo := readTwo_alike hu h 6
    have hone := readDigit_alike hu h 6
    have hadv : (readDigit 6 d).isSome = true → d.rest ≠ [] := fun hsome =>
      (h.digit hu).2 fun hnone => by
        unfold readDigit at hsome
        rw [hnone] at hsome
        cases hsome
    revert htwo hone hadv
    rcases readTwo 6 c with _ | ⟨v, c'⟩ <;> rcases readTwo 6 d with _ | ⟨w, d'⟩
    · rcases readDigit 6 c with _ | r <;> rcases readDigit 6 d with _ | r'
      · exact fun _ _ _ => ⟨rfl, h⟩
      · exact fun _ h' => h'.elim
      · exact fun _ h' => h'.elim
      · exact fun _ _ hadv => ⟨rfl, h.adv (hadv rfl)⟩
    · exact fun h' => h'.elim
    · exact fun h' => h'.elim
    · exact fun h' _ _ => h'

theorem readFraction_alike (hu : EndsItem u) {S : Nat} (h : Abreast u c d)
    (ep y m dd H M : Nat) :
    (readFraction ep y m dd H M (S, c)).1 = (readFraction ep y m dd H M (S, d)).1 ∧
      Abreast u (readFraction ep y m dd H M (S, c)).2 (readFraction ep y m dd H M (S, d)).2 := by
  obtain ⟨hdot, hne⟩ := h.ask hu (x := '.') (by decide)
  unfold readFraction
  dsimp only
  rw [h.off]
  by_cases hd : d.peek = '.'
  · by_cases hend : ep ≤ d.off
    · rw [if_pos (Or.inl hend), if_pos (Or.inl hend)]
      exact ⟨rfl, h⟩
    · rw [if_neg fun hx => hx.elim hend fun hy => hy (hdot.mpr hd),
        if_neg fun hx => hx.elim hend fun hy => hy hd]
      obtain ⟨hval, hcur⟩ := readMs_alike hu 8 100 (h.adv (hne hd))
      rw [hval]
      exact ⟨rfl, hcur⟩
  · rw [if_pos (Or.inr fun hc => hd (hdot.mp hc)), if_pos (Or.inr hd)]
    exact ⟨rfl, h⟩

theorem readSeconds_alike (hu : EndsItem u) (h : Abreast u c d) (ep y m dd H M : Nat) :
    (readSeconds ep y m dd H M c).1 = (readSeconds ep y m dd H M d).1 ∧
      AbreastOr u (readSeconds ep y m dd H M c).2 (readSeconds ep y m dd H M d).2 := by
  obtain ⟨hcolon, hne⟩ := h.ask hu (x := ':') (by decide)
  rw [readSeconds_eq, readSeconds_eq]
  by_cases hend : ep ≤ d.off
  · -- one past the end, where it stops at once
    have hoff := h.off
    rw [if_pos (Or.inl hend : ep ≤ d.off ∨ d.peek = ':'),
      if_pos (Or.inl (hoff ▸ hend) : ep ≤ c.off ∨ c.peek = ':'),
      if_pos (by simp only [Cursor.adv]; omega), if_pos (by simp only [Cursor.adv]; omega)]
    refine ⟨rfl, ?_⟩
    by_cases hrest : d.rest = []
    · refine Or.inr ⟨by simp [Cursor.adv, hrest], ?_⟩
      simp [Cursor.adv, h.rest, hrest]
    · exact Or.inl (h.adv hrest)
  · have hstart : Abreast u (if ep ≤ c.off ∨ c.peek = ':' then c.adv else c)
        (if ep ≤ d.off ∨ d.peek = ':' then d.adv else d) := by
      rw [h.off]
      by_cases hd : d.peek = ':'
      · rw [if_pos (Or.inr hd), if_pos (Or.inr (hcolon.mpr hd))]
        exact h.adv (hne hd)
      · rw [if_neg fun h => h.elim hend fun hc => hd (hcolon.mp hc),
          if_neg fun h => h.elim hend hd]
        exact h
    revert hstart
    generalize (if ep ≤ c.off ∨ c.peek = ':' then c.adv else c) = c
    generalize (if ep ≤ d.off ∨ d.peek = ':' then d.adv else d) = d
    intro h
    rw [h.off]
    by_cases hshort : ep < d.off + 2
    · rw [if_pos hshort, if_pos hshort]
      exact ⟨rfl, Or.inl h⟩
    · rw [if_neg hshort, if_neg hshort]
      obtain ⟨hval, hsec⟩ := readSec_alike hu h
      have hfrac := readFraction_alike hu (S := (readSec d).1) hsec ep y m dd H M
      rw [show readSec c = ((readSec d).1, (readSec c).2) from Prod.ext hval rfl]
      exact ⟨hfrac.1, Or.inl hfrac.2⟩

theorem readTime_alike (hu : EndsItem u) (h : Abreast u c d) (ep y m dd : Nat) :
    Alike (AbreastOr u) (readTime ep y m dd c) (readTime ep y m dd d) := by
  obtain ⟨hT, hneT⟩ := h.ask hu (x := 'T') (by decide)
  obtain ⟨hspace, hnespace⟩ := h.ask hu (x := ' ') (by decide)
  unfold readTime
  rw [h.off]
  by_cases hday : ep ≤ d.off ∨ (d.peek ≠ 'T' ∧ d.peek ≠ ' ')
  · rw [if_pos hday, if_pos (hday.imp_right fun hx =>
      ⟨fun hy => hx.1 (hT.mp hy), fun hy => hx.2 (hspace.mp hy)⟩)]
    exact ⟨rfl, Or.inl h⟩
  · rw [if_neg hday, if_neg fun hx => hday (hx.imp_right fun hx =>
      ⟨fun hy => hx.1 (hT.mpr hy), fun hy => hx.2 (hspace.mpr hy)⟩)]
    by_cases hshort : ep ≤ d.off + 4
    · rw [if_pos hshort, if_pos hshort]
      trivial
    · rw [if_neg hshort, if_neg hshort]
      have hne : d.rest ≠ [] := by
        by_cases hd : d.peek = 'T'
        · exact hneT hd
        · exact hnespace (Classical.not_not.mp fun hs => hday (Or.inr ⟨hd, hs⟩))
      refine (readHour_alike hu (h.adv hne)).bind fun H c' d' h' => ?_
      have hskip := h'.skipChar hu (x := ':') (by decide)
      dsimp only
      rw [hskip.off]
      by_cases hmin : ep < (skipChar ':' d').off + 2
      · rw [if_pos hmin, if_pos hmin]
        trivial
      · rw [if_neg hmin, if_neg hmin]
        refine (readTwo_alike hu hskip 6).bind fun M c'' d'' h'' => ?_
        exact readSeconds_alike hu h'' ep y m dd H M

/-- The reader of an instant up to the final `Z`. -/
def readDate (ep : Nat) (c : Cursor) : Option (Instant × Cursor) := do
  let (y, c) ← readYear c
  let (m, c) ← readTwo 2 (skipChar '-' c)
  if ep ≤ (skipChar '-' c).off then none
  else
    let (a, c) ← readDigit 4 (skipChar '-' c)
    if ep ≤ c.off then none
    else
      let (b, c) ← readDigit 10 c
      readTime ep y m (10 * a + b) c

theorem dtStrpOn_eq (str : List Char) (len : Nat) :
    dtStrpOn str len =
      if len ≠ 0 ∧ len < 8 then none
      else (readDate (if len = 0 then 23 else len) ⟨0, str⟩).map fun r =>
        (r.1, (skipChar 'Z' r.2).rest) := by
  unfold dtStrpOn readDate
  by_cases hlen : len ≠ 0 ∧ len < 8
  · rw [if_pos hlen, if_pos hlen]
  · rw [if_neg hlen, if_neg hlen]
    generalize (if len = 0 then 23 else len) = ep
    dsimp only [bind, Option.bind]
    rcases readYear ⟨0, str⟩ with _ | ⟨y, c⟩
    · rfl
    · dsimp only
      rcases readTwo 2 (skipChar '-' c) with _ | ⟨m, c⟩
      · rfl
      · dsimp only
        split
        · rfl
        · rcases readDigit 4 (skipChar '-' c) with _ | ⟨a, c⟩
          · rfl
          · dsimp only
            split
            · rfl
            · rcases readDigit 10 c with _ | ⟨b, c⟩
              · rfl
              · dsimp only
                cases readTime _ y m (10 * a + b) c <;> rfl

theorem readDate_alike (hu : EndsItem u) (h : Abreast u c d) (ep : Nat) :
    Alike (AbreastOr u) (readDate ep c) (readDate ep d) := by
  refine (readYear_alike hu h).bind fun y c d h => ?_
  have hm := h.skipChar hu (x := '-') (by decide)
  refine (readTwo_alike hu hm 2).bind fun m c d h => ?_
  have hd := h.skipChar hu (x := '-') (by decide)
  dsimp only
  rw [hd.off]
  by_cases hend : ep ≤ (skipChar '-' d).off
  · rw [if_pos hend, if_pos hend]
    trivial
  · rw [if_neg hend, if_neg hend]
    refine (readDigit_alike hu hd 4).bind fun a c d h => ?_
    dsimp only
    rw [h.off]
    by_cases hend : ep ≤ d.off
    · rw [if_pos hend, if_pos hend]
      trivial
    · rw [if_neg hend, if_neg hend]
      exact (readDigit_alike hu h 10).bind fun b c d h => readTime_alike hu h ep y m (10 * a + b)

/-- What is left after the final `Z`. -/
theorem AbreastOr.final (hu : EndsItem u) (h : AbreastOr u c d) :
    (skipChar 'Z' c).rest = (skipChar 'Z' d).rest ++ u ∨
      (skipChar 'Z' d).rest = [] ∧ (skipChar 'Z' c).rest.length ≤ u.length := by
  rcases h with h | ⟨hd, hc⟩
  · exact Or.inl (h.skipChar hu (by decide)).rest
  · refine Or.inr ⟨?_, ?_⟩
    · unfold skipChar
      split
      · simp [Cursor.adv, hd]
      · exact hd
    · unfold skipChar
      split
      · simp only [Cursor.adv, List.length_tail]
        omega
      · exact hc

/-- The instant of a text does not depend on what comes after it. -/
theorem dtStrp_append (hu : EndsItem u) (v : List Char) : dtStrp (v ++ u) 0 = dtStrp v 0 := by
  have hdate := readDate_alike hu (c := ⟨0, v ++ u⟩) (d := ⟨0, v⟩) ⟨rfl, rfl⟩ 23
  unfold dtStrp
  rw [dtStrpOn_eq, dtStrpOn_eq]
  simp only [ne_eq, not_true_eq_false, false_and, if_false, if_true]
  revert hdate
  rcases readDate 23 ⟨0, v ++ u⟩ with _ | ⟨i, c⟩ <;> rcases readDate 23 ⟨0, v⟩ with _ | ⟨j, d⟩
  · exact fun _ => rfl
  · exact fun h => h.elim
  · exact fun h => h.elim
  · exact fun h => h.1

end Reading

/-! ### Numbers -/

section Numbers

variable {t : List Char}

theorem takeWhile_ends {p : Char → Bool} (hp : p ',' = false ∧ p ';' = false) (ht : EndsItem t)
    (v : List Char) : (v ++ t).takeWhile p = v.takeWhile p := by
  induction v with
  | nil =>
      rcases t with _ | ⟨c, t⟩
      · rfl
      · rcases ht c rfl with rfl | rfl
        · exact List.takeWhile_cons_of_neg (by simp [hp])
        · exact List.takeWhile_cons_of_neg (by simp [hp])
  | cons c v ih => rw [List.cons_append, List.takeWhile_cons, List.takeWhile_cons, ih]

theorem dropWhile_ends {p : Char → Bool} (hp : p ',' = false ∧ p ';' = false) (ht : EndsItem t)
    (v : List Char) : (v ++ t).dropWhile p = v.dropWhile p ++ t := by
  induction v with
  | nil =>
      rcases t with _ | ⟨c, t⟩
      · rfl
      · rcases ht c rfl with rfl | rfl
        · exact List.dropWhile_cons_of_neg (by simp [hp])
        · exact List.dropWhile_cons_of_neg (by simp [hp])
  | cons c v ih =>
      rw [List.cons_append, List.dropWhile_cons, List.dropWhile_cons, ih]
      split <;> rfl

theorem head_ends {x : Char} (hx : x ≠ ',' ∧ x ≠ ';') (ht : EndsItem t) (v : List Char) :
    (v ++ t).head? = some x ↔ v.head? = some x := by
  cases v with
  | cons c v => rfl
  | nil =>
      refine iff_of_false (fun h => ?_) fun h => by cases h
      rcases ht x h with rfl | rfl
      · exact hx.1 rfl
      · exact hx.2 rfl

theorem readNum_append (ht : EndsItem t) (v : List Char) :
    readNum (v ++ t) = ((readNum v).1, (readNum v).2.1, (readNum v).2.2 ++ t) := by
  have hdrop := dropWhile_ends (p := isSpaceC) (by decide) ht v
  unfold readNum
  rw [hdrop]
  generalize v.dropWhile isSpaceC = w
  have hminus := head_ends (x := '-') (by decide) ht w
  have hplus := head_ends (x := '+') (by decide) ht w
  have htail : (if (w ++ t).head? = some '-' ∨ (w ++ t).head? = some '+' then (w ++ t).tail
      else w ++ t) = (if w.head? = some '-' ∨ w.head? = some '+' then w.tail else w) ++ t := by
    by_cases hs : w.head? = some '-' ∨ w.head? = some '+'
    · rw [if_pos hs, if_pos (hs.imp hminus.mpr hplus.mpr)]
      cases w with
      | nil => exact absurd hs (by simp)
      | cons c w => rfl
    · rw [if_neg hs, if_neg fun h => hs (h.imp hminus.mp hplus.mp)]
  have hneg : ((w ++ t).head? == some '-') = (w.head? == some '-') := by
    rw [Bool.eq_iff_iff, beq_iff_eq, beq_iff_eq, hminus]
  simp only [htail, hneg]
  generalize (if w.head? = some '-' ∨ w.head? = some '+' then w.tail else w) = x
  rw [takeWhile_ends (by decide) ht]
  split
  · rfl
  · have hle : (x.takeWhile Char.isDigit).length ≤ x.length := (List.takeWhile_sublist _).length_le
    rw [List.drop_append_of_le_length hle]

theorem strtol_append (ht : EndsItem t) (v : List Char) :
    strtol (v ++ t) = ((strtol v).1, (strtol v).2 ++ t) := by
  unfold strtol
  rw [readNum_append ht]

theorem strtoul_append (ht : EndsItem t) (v : List Char) :
    strtoul (v ++ t) = ((strtoul v).1, (strtoul v).2 ++ t) := by
  unfold strtoul
  rw [readNum_append ht]
  simp only
  split
  · rfl
  · split <;> rfl

/-- What a number leaves is the end of its text. -/
theorem readNum_suffix (v : List Char) : (readNum v).2.2 <:+ v := by
  have hdrop : v.dropWhile isSpaceC <:+ v := List.dropWhile_suffix _
  have hsign : (if (v.dropWhile isSpaceC).head? = some '-' ∨ (v.dropWhile isSpaceC).head? = some '+'
      then (v.dropWhile isSpaceC).tail else v.dropWhile isSpaceC) <:+ v := by
    split
    · exact (List.tail_suffix _).trans hdrop
    · exact hdrop
  revert hsign
  unfold readNum
  dsimp only
  generalize (if (v.dropWhile isSpaceC).head? = some '-' ∨ (v.dropWhile isSpaceC).head? = some '+'
    then (v.dropWhile isSpaceC).tail else v.dropWhile isSpaceC) = x
  intro hsign
  split
  · exact List.suffix_rfl
  · exact (List.drop_suffix _ _).trans hsign

theorem strtol_suffix (v : List Char) : (strtol v).2 <:+ v := readNum_suffix v

theorem strtoul_suffix (v : List Char) : (strtoul v).2 <:+ v := by
  unfold strtoul
  simp only
  split
  · exact readNum_suffix v
  · split <;> exact readNum_suffix v

end Numbers

end Echse
