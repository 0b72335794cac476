/-
Where the readers of a part of a rule stop.

Each is given the rest of the whole text and not its own part.  Most of them do stop at the
semicolon, so that it does not matter what comes after it.  The two others are told apart by what
they make of the text behind: `BYDAY` looks for weekdays after every comma, and a scale goes by
the characters at fixed places.
-/
import Echse.Proofs.Readers
import Echse.Proofs.Members

namespace Echse

/-! ### Readers that stop -/

section Parts

variable {t : List Char}

theorem isPrefixOf_ends (ht : EndsPart t) {key : List Char} (hk : ';' ∉ key) (v : List Char) :
    key.isPrefixOf (v ++ t) = key.isPrefixOf v := by
  induction key generalizing v with
  | nil => rfl
  | cons k key ih =>
      cases v with
      | nil =>
          rcases t with _ | ⟨c, t⟩
          · rfl
          · obtain rfl := ht c rfl
            rw [List.nil_append, List.isPrefixOf_cons_cons, List.isPrefixOf_cons_nil,
              Bool.and_eq_false_iff]
            refine Or.inl (beq_eq_false_iff_ne.mpr fun h => hk ?_)
            rw [h]
            exact List.mem_cons_self
      | cons c v =>
          rw [List.cons_append, List.isPrefixOf_cons_cons, List.isPrefixOf_cons_cons,
            ih fun h => hk (List.mem_cons_of_mem _ h)]

theorem snarfFreq_append (ht : EndsPart t) (v : List Char) : snarfFreq (v ++ t) = snarfFreq v := by
  unfold snarfFreq
  repeat rw [isPrefixOf_ends ht (by decide)]

/-- A list goes up to the end of its part. -/
theorem snarfList_append {σ α : Type} {read : List Char → α × List Char} {ass : σ → α → σ}
    (hread : ∀ v, read (v ++ t) = ((read v).1, (read v).2 ++ t)) (hsuf : ∀ v, (read v).2 <:+ v)
    (ht : EndsPart t) (n : Nat) : ∀ {m : Nat} (v : List Char) (s : σ), v.length < n →
      v.length < m → snarfList read ass n (v ++ t) s = snarfList read ass m v s := by
  induction n with
  | zero => exact fun _ _ h => absurd h (Nat.not_lt_zero _)
  | succ n ih =>
      intro m v s hn hm
      obtain ⟨m, rfl⟩ : ∃ k, m = k + 1 := ⟨m - 1, by omega⟩
      have hlen := (hsuf v).length_le
      unfold snarfList
      rw [hread]
      revert hlen
      rcases read v with ⟨x, _ | ⟨c, on⟩⟩
      · intro _
        rcases t with _ | ⟨c, t⟩
        · rfl
        · obtain rfl := ht c rfl
          rfl
      · intro hlen
        rw [List.length_cons] at hlen
        by_cases hc : c = ','
        · subst hc
          exact ih on _ (by omega) (by omega)
        · simp only [List.cons_append]
          split
          · rename_i h
            exact absurd (List.cons.inj h).1 hc
          · split
            · rename_i h
              exact absurd (List.cons.inj h).1 hc
            · rfl

theorem snarfUints_append (ht : EndsPart t) (ok : Nat → Bool) (ass : Nat → Nat → Nat)
    (v : List Char) (bi : Nat) : snarfUints ok ass (v ++ t) bi = snarfUints ok ass v bi :=
  snarfList_append (strtoul_append ht.endsItem) strtoul_suffix ht _ v bi
    (by rw [List.length_append]; omega) (Nat.lt_succ_self _)

theorem snarfInts_append {σ : Type} (ht : EndsPart t) (lim : Int) (ass : σ → Int → σ)
    (v : List Char) (bi : σ) : snarfInts lim ass (v ++ t) bi = snarfInts lim ass v bi :=
  snarfList_append (strtol_append ht.endsItem) strtol_suffix ht _ v bi
    (by rw [List.length_append]; omega) (Nat.lt_succ_self _)

theorem snarfSem_append (ht : EndsPart t) (tmp : Int) (v : List Char) : ∀ sem,
    snarfSem tmp (v ++ t) sem = ((snarfSem tmp v sem).1, (snarfSem tmp v sem).2 ++ t) ∧
      (snarfSem tmp v sem).2 <:+ v := by
  induction v with
  | nil =>
      intro sem
      rcases t with _ | ⟨c, t⟩
      · exact ⟨rfl, List.suffix_rfl⟩
      · obtain rfl := ht c rfl
        exact ⟨rfl, List.suffix_rfl⟩
  | cons c v ih =>
      intro sem
      by_cases hplus : c = '+'
      · subst hplus
        obtain ⟨h1, h2⟩ := ih (sem ||| if 0 ≤ tmp then 2 else 0)
        exact ⟨h1, h2.trans (List.suffix_cons _ _)⟩
      · by_cases hminus : c = '-'
        · subst hminus
          obtain ⟨h1, h2⟩ := ih (sem ||| if tmp < 0 then 2 else 0)
          exact ⟨h1, h2.trans (List.suffix_cons _ _)⟩
        · have hstop : ∀ w, snarfSem tmp (c :: w) sem = (sem, c :: w) := by
            intro w
            unfold snarfSem
            split
            · rename_i h
              exact absurd (List.cons.inj h).1 hplus
            · rename_i h
              exact absurd (List.cons.inj h).1 hminus
            · rfl
          rw [List.cons_append, hstop, hstop]
          exact ⟨rfl, List.suffix_rfl⟩

theorem atEnd_cons {c : Char} (hc : c ≠ ';') (v : List Char) : ¬ atEnd (c :: v) = true := by
  unfold atEnd
  simp [hc]

theorem snarfShiftItems_append (ht : EndsPart t) (n : Nat) :
    ∀ {m : Nat} {v : List Char} (d b : Int) (sem : Nat), ';' ∉ v → v.length < n → v.length < m →
      snarfShiftItems n (v ++ t) d b sem = snarfShiftItems m v d b sem := by
  induction n with
  | zero => exact fun _ _ _ _ h => absurd h (Nat.not_lt_zero _)
  | succ n ih =>
      intro m v d b sem hv hn hm
      obtain ⟨m, rfl⟩ : ∃ k, m = k + 1 := ⟨m - 1, by omega⟩
      have hsuf := strtol_suffix v
      unfold snarfShiftItems
      rw [strtol_append ht.endsItem]
      dsimp only
      generalize (strtol v).1 = tmp
      generalize (strtol v).2 = on at hsuf
      have hon : ';' ∉ on := fun h => hv (hsuf.subset h)
      have hlen := hsuf.length_le
      rcases on with _ | ⟨c, on⟩
      · have hend := ht.atEnd
        rcases t with _ | ⟨c, t⟩
        · rfl
        · obtain rfl := ht c rfl
          rfl
      · rw [List.length_cons] at hlen
        have hon' : ';' ∉ on := fun h => hon (List.mem_cons_of_mem _ h)
        by_cases hb : c = 'b' ∨ c = 'B'
        · obtain ⟨hsem, hsuf'⟩ := snarfSem_append ht tmp on sem
          have hend' : ';' ∉ (snarfSem tmp on sem).2 := fun h => hon' (hsuf'.subset h)
          have hlen' := hsuf'.length_le
          rcases hb with rfl | rfl
          all_goals
            simp only [List.cons_append, hsem]
            revert hend' hlen'
            rcases (snarfSem tmp on sem).2 with _ | ⟨c', s⟩
            · intro _ _
              have hend := ht.atEnd
              rcases t with _ | ⟨c', t⟩
              · rfl
              · obtain rfl := ht c' rfl
                rfl
            · intro hend' hlen'
              rw [List.length_cons] at hlen'
              by_cases hcomma : c' = ','
              · subst hcomma
                exact ih _ _ _ (fun h => hend' (List.mem_cons_of_mem _ h)) (by omega) (by omega)
              · have hno := atEnd_cons fun h : c' = ';' => hend' (h ▸ List.mem_cons_self)
                simp only [List.cons_append]
                split
                · rename_i h
                  exact absurd (List.cons.inj h).1 hcomma
                · rw [if_neg (hno _)]
                  split
                  · rename_i h
                    exact absurd (List.cons.inj h).1 hcomma
                  · rw [if_neg (hno _)]
        · by_cases hcomma : c = ','
          · subst hcomma
            exact ih _ _ _ hon' (by omega) (by omega)
          · have hno := atEnd_cons fun h : c = ';' => hon (h ▸ List.mem_cons_self)
            simp only [List.cons_append]
            split
            · rename_i h
              exact absurd (Or.inl (List.cons.inj h).1) hb
            · rename_i h
              exact absurd (Or.inr (List.cons.inj h).1) hb
            · rename_i h
              exact absurd (List.cons.inj h).1 hcomma
            · rw [if_neg (hno _)]
              split
              · rename_i h
                exact absurd (Or.inl (List.cons.inj h).1) hb
              · rename_i h
                exact absurd (Or.inr (List.cons.inj h).1) hb
              · rename_i h
                exact absurd (List.cons.inj h).1 hcomma
              · rw [if_neg (hno _)]

theorem snarfShift_append (ht : EndsPart t) {v : List Char} (hv : ';' ∉ v) :
    snarfShift (v ++ t) = snarfShift v :=
  snarfShiftItems_append ht _ 0 0 0 hv (by rw [List.length_append]; omega) (Nat.lt_succ_self _)

/-- **Most of the parts stop at their end.** -/
theorem snarfPart_append (ht : EndsPart t) {v : List Char} (hv : ';' ∉ v) {k : RrulKey}
    (hk : k ≠ .byWday ∧ k ≠ .scale) (rr : Rrulsp) : snarfPart k (v ++ t) rr = snarfPart k v rr := by
  have hnum := congrArg Prod.fst (strtol_append ht.endsItem v)
  unfold snarfPart
  cases k with
  | freq => rw [snarfFreq_append ht]
  | count => rw [hnum]
  | inter => rw [hnum]
  | until_ => rw [dtStrp_append ht.endsItem]
  | shift => rw [snarfShift_append ht hv]
  | byMon | byHour | byMin | bySec => simp only [snarfUints_append ht]
  | byMday | byWeek | byYday | byPos => simp only [snarfInts_append ht]
  | byEaster =>
      dsimp only
      rw [snarfList_append (strtol_append ht.endsItem) strtol_suffix ht _ v rr.easter
        (by rw [List.length_append]; omega) (Nat.lt_succ_self _)]
  | wkst => rfl
  | scale => exact absurd rfl hk.2
  | byWday => exact absurd rfl hk.1

/-! ### The weekdays -/

/-- The one or two characters that count. -/
theorem snarfWday_cons (a : Char) (s : List Char) : snarfWday (a :: s) =
    if a = 'M' then 1 else if a = 'W' then 3 else if a = 'F' then 5 else if a = 'R' then 4
    else if a = 'A' then 6 else if a = 'T' then (if s.head? = some 'H' then 4 else 2)
    else if a = 'S' then (if s.head? = some 'A' then 6 else 7) else wdayMir := by
  unfold snarfWday
  split
  · simp_all
  · simp_all
  · simp_all
  · simp_all
  · simp_all
  · simp_all
  · next h heq =>
      obtain ⟨rfl, rfl⟩ := List.cons.inj heq
      have hH : s.head? ≠ some 'H' := by
        intro hs
        obtain ⟨t, rfl⟩ := List.head?_eq_some_iff.mp hs
        exact h t rfl
      simp [hH]
  · simp_all
  · next h heq =>
      obtain ⟨rfl, rfl⟩ := List.cons.inj heq
      have hA : s.head? ≠ some 'A' := by
        intro hs
        obtain ⟨t, rfl⟩ := List.head?_eq_some_iff.mp hs
        exact h t rfl
      simp [hA]
  · next hM hW hF hR hA hTH hT hSA hS =>
      have hne {c : Char} (h : ∀ t : List Char, a :: s = c :: t → False) : a ≠ c := fun hc => h s (by rw [hc])
      rw [if_neg (hne hM), if_neg (hne hW), if_neg (hne hF), if_neg (hne hR), if_neg (hne hA), if_neg (hne hT),
        if_neg (hne hS)]

theorem snarfWday_append (ht : EndsItem t) (v : List Char) : snarfWday (v ++ t) = snarfWday v := by
  have hend (c : Char) (hc : c ∈ ['H', 'A']) : t.head? ≠ some c := by
    intro h
    rcases ht c h with rfl | rfl
    · exact absurd hc (by decide)
    · exact absurd hc (by decide)
  cases v with
  | nil =>
      cases t with
      | nil => rfl
      | cons c t => rcases ht c rfl with rfl | rfl <;> rfl
  | cons a v =>
      rw [List.cons_append, snarfWday_cons, snarfWday_cons]
      cases v with
      | nil => simp [hend]
      | cons b v => rfl

/-- The weekday at the start of a text, if there is one. -/
def wdayAt (kv : List Char) : List Int :=
  if snarfWday (strtol kv).2 ≠ wdayMir ∧ -53 ≤ (strtol kv).1 ∧ (strtol kv).1 ≤ 53 then
    [packCd ⟨(strtol kv).1, snarfWday (strtol kv).2⟩] else []

/-- The weekdays after the commas of a text. -/
def wdaysPast : List Char → List Int
  | [] => []
  | c :: s => if c = ',' then wdayAt s ++ wdaysPast s else wdaysPast s

theorem wdayAt_append (ht : EndsItem t) (v : List Char) : wdayAt (v ++ t) = wdayAt v := by
  unfold wdayAt
  rw [strtol_append ht]
  dsimp only
  rw [snarfWday_append ht]

theorem wdaysPast_append (ht : EndsPart t) (v : List Char) :
    wdaysPast (v ++ t) = wdaysPast v ++ wdaysPast t := by
  induction v with
  | nil => rfl
  | cons c v ih =>
      rw [List.cons_append, wdaysPast, wdaysPast, ih, wdayAt_append ht.endsItem]
      split
      · rw [List.append_assoc]
      · rfl

theorem wdaysPast_dropWhile (s : List Char) :
    wdaysPast s = match s.dropWhile (· ≠ ',') with
      | [] => []
      | _ :: kv => wdayAt kv ++ wdaysPast kv := by
  induction s with
  | nil => rfl
  | cons c s ih =>
      rw [wdaysPast, List.dropWhile_cons]
      by_cases hc : c = ','
      · simp [hc]
      · simp [hc, ih]

theorem isCd_wdayAt {kv : List Char} {x : Int} (h : x ∈ wdayAt kv) : IsCd x := by
  unfold wdayAt at h
  split at h
  · rename_i hw
    obtain rfl := List.mem_singleton.mp h
    have hle := snarfWday_le (strtol kv).2
    unfold IsCd packCd
    unfold wdayMir at hw
    dsimp only
    omega
  · cases h

theorem isCd_wdaysPast {s : List Char} {x : Int} (h : x ∈ wdaysPast s) : IsCd x := by
  induction s with
  | nil => cases h
  | cons c s ih =>
      unfold wdaysPast at h
      split at h
      · exact (List.mem_append.mp h).elim isCd_wdayAt ih
      · exact ih h

end Parts

theorem dropWhile_dropWhile {p q : Char → Bool} (hpq : ∀ c, p c = true → q c = true)
    (s : List Char) : (s.dropWhile p).dropWhile q = s.dropWhile q := by
  induction s with
  | nil => rfl
  | cons c s ih =>
      rw [List.dropWhile_cons]
      split
      · rename_i hc
        rw [ih, List.dropWhile_cons_of_pos (hpq c hc)]
      · rfl

/-- There is no comma in a number. -/
theorem strtol_dropWhile (kv : List Char) :
    (strtol kv).2.dropWhile (· ≠ ',') = kv.dropWhile (· ≠ ',') := by
  have hspace : ∀ c, isSpaceC c = true → decide (c ≠ ',') = true := by
    rintro c hc
    rw [decide_eq_true_eq]
    rintro rfl
    exact absurd hc (by decide)
  have hdigit : ∀ c, Char.isDigit c = true → decide (c ≠ ',') = true := by
    rintro c hc
    rw [decide_eq_true_eq]
    rintro rfl
    exact absurd hc (by decide)
  have hsign : ∀ w : List Char, (if w.head? = some '-' ∨ w.head? = some '+' then w.tail
      else w).dropWhile (· ≠ ',') = w.dropWhile (· ≠ ',') := by
    intro w
    split
    · rename_i hw
      rcases w with _ | ⟨c, w⟩
      · rfl
      · have hc : decide (c ≠ ',') = true := by
          rcases hw with hw | hw <;> obtain rfl := Option.some.inj hw <;> decide
        exact (List.dropWhile_cons_of_pos (p := fun c => decide (c ≠ ',')) hc).symm
    · rfl
  have hx := (hsign (kv.dropWhile isSpaceC)).trans (dropWhile_dropWhile hspace kv)
  revert hx
  unfold strtol readNum
  dsimp only
  generalize (if (kv.dropWhile isSpaceC).head? = some '-' ∨
    (kv.dropWhile isSpaceC).head? = some '+' then (kv.dropWhile isSpaceC).tail
    else kv.dropWhile isSpaceC) = x
  intro hx
  split
  · rfl
  · have hrest : x.drop (x.takeWhile Char.isDigit).length = x.dropWhile Char.isDigit := by
      have hsplit := List.takeWhile_append_dropWhile (p := Char.isDigit) (l := x)
      generalize x.takeWhile Char.isDigit = ds at hsplit
      rw [← hsplit, List.drop_left]
      rw [hsplit]
    dsimp only
    rw [hrest, dropWhile_dropWhile hdigit, hx]

/-- **What `BYDAY` makes of a text.** -/
theorem snarfWdays_eq (fuel : Nat) : ∀ (kv : List Char) (dow : Bitints), kv.length < fuel →
    snarfWdays fuel kv dow = (wdayAt kv ++ wdaysPast kv).foldl assBi447 dow := by
  induction fuel with
  | zero => exact fun _ _ h => absurd h (Nat.not_lt_zero _)
  | succ fuel ih =>
      intro kv dow hlt
      have hfold : (wdayAt kv).foldl assBi447 dow =
          if snarfWday (strtol kv).2 ≠ wdayMir ∧ -53 ≤ (strtol kv).1 ∧ (strtol kv).1 ≤ 53 then
            assBi447 dow (packCd ⟨(strtol kv).1, snarfWday (strtol kv).2⟩) else dow := by
        unfold wdayAt
        split <;> rfl
      have hlen := (List.dropWhile_suffix (l := kv) (fun c : Char => decide (c ≠ ','))).length_le
      rw [snarfWdays_succ, ← hfold, List.foldl_append, wdaysPast_dropWhile, pastComma,
        strtol_dropWhile]
      revert hlen
      rcases kv.dropWhile (· ≠ ',') with _ | ⟨c, s⟩
      · exact fun _ => rfl
      · intro hlen
        rw [List.length_cons] at hlen
        exact ih s _ (by omega)

/-! ### The scale -/

/-- What the four characters come to that a Hijri type is told from. -/
def hijriType (a b c d : Char) : Nat :=
  if a = 'V' then 7 + if b = 'C' then 1 else 0
  else (if a = 'I' then 3 else 1) +
    if b = 'V' then 4 + if c = 'C' then 1 else 0
    else (if b = 'I' then 2 else 0) + (if c = 'C' then 1 else if c = 'V' then 2 else 0) +
      if d = 'C' then 1 else 0

theorem snarfHijri_eq (spec : List Char) :
    snarfHijri spec =
      hijriType (charAt spec 7) (charAt spec 8) (charAt spec 9) (charAt spec 10) := by
  unfold snarfHijri hijriType
  dsimp only
  by_cases ha : charAt spec 7 = 'V'
  · simp [ha]
  · by_cases hb : charAt spec 8 = 'V'
    · by_cases ha' : charAt spec 7 = 'I' <;> simp [ha, hb, ha', ← Nat.add_assoc]
    · by_cases hc : charAt spec 9 = 'C' <;> simp [ha, hb, hc, Nat.add_assoc]
      all_goals split <;> omega

theorem hijriType_range (a b c d : Char) : 1 ≤ hijriType a b c d ∧ hijriType a b c d ≤ 8 := by
  unfold hijriType
  split_ifs <;> omega

/-- The scale of a Hijri type. -/
theorem getD_ofNum : ∀ n < 9, ((Scale.ofNum n).getD .gregorian).num = n := by decide

theorem charAt_append (v t : List Char) (i : Nat) :
    charAt (v ++ t) i = if i < v.length then charAt v i else charAt t (i - v.length) := by
  unfold charAt
  split
  · rename_i h
    exact List.getD_append _ _ _ _ h
  · rename_i h
    exact List.getD_append_right _ _ _ _ (by omega)

theorem charAt_beyond {v : List Char} {i : Nat} (h : v.length ≤ i) : charAt v i = '\x00' :=
  List.getD_eq_default _ _ h

/-- The scale in `v` is taken for another one for the characters of `t` after it. -/
def ScaleStrays (v t : List Char) : Prop :=
  charAt v 0 = 'H' ∧
    ((v.length < 5 ∧ charAt t (5 - v.length) = '.' ∧
        (charAt t (6 - v.length) = 'D' ∨ charAt t (6 - v.length) = 'I')) ∨
      (charAt v 5 = '.' ∧ charAt v 6 = 'I' ∧
        ((v.length = 7 ∧ (charAt t 1 = 'I' ∨ charAt t 1 = 'V' ∨ charAt t 2 = 'C' ∨
            charAt t 2 = 'V' ∨ charAt t 3 = 'C')) ∨
          (v.length = 8 ∧ charAt v 7 ≠ 'V' ∧
            (charAt t 1 = 'C' ∨ charAt t 1 = 'V' ∨ charAt t 2 = 'C')) ∨
          (v.length = 9 ∧ charAt v 7 ≠ 'V' ∧ charAt v 8 ≠ 'V' ∧ charAt t 1 = 'C'))))

theorem EndsPart.charAt {t : List Char} (ht : EndsPart t) :
    Echse.charAt t 0 = ';' ∨ ∀ i, Echse.charAt t i = '\x00' := by
  rcases t with _ | ⟨c, t⟩
  · exact Or.inr fun i => rfl
  · obtain rfl := ht c rfl
    exact Or.inl rfl

/-- The scale a Hijri type stands for. -/
theorem hijriType_inj {a b c d a' b' c' d' : Char} :
    (Scale.ofNum (hijriType a b c d)).getD .gregorian =
        (Scale.ofNum (hijriType a' b' c' d')).getD .gregorian ↔
      hijriType a b c d = hijriType a' b' c' d' := by
  have h1 := getD_ofNum _ (Nat.lt_succ_of_le (hijriType_range a b c d).2)
  have h2 := getD_ofNum _ (Nat.lt_succ_of_le (hijriType_range a' b' c' d').2)
  constructor
  · intro h
    rw [← h1, ← h2, h]
  · intro h
    rw [h]

theorem hijriType_ne (a b c d : Char) :
    (Scale.ofNum (hijriType a b c d)).getD .gregorian ≠ .hijriUmmulqura := by
  intro h
  have h1 := getD_ofNum _ (Nat.lt_succ_of_le (hijriType_range a b c d).2)
  have h2 := (hijriType_range a b c d).2
  rw [h] at h1
  rw [← h1] at h2
  exact absurd h2 (by decide)

/-- The texts of a Hijri type go on. -/
theorem hijriType_append {t : List Char} (ht : EndsPart t) {v : List Char} (hv : 7 ≤ v.length) :
    snarfHijri (v ++ t) = snarfHijri v ↔
      ¬ ((v.length = 7 ∧ (charAt t 1 = 'I' ∨ charAt t 1 = 'V' ∨ charAt t 2 = 'C' ∨
            charAt t 2 = 'V' ∨ charAt t 3 = 'C')) ∨
          (v.length = 8 ∧ charAt v 7 ≠ 'V' ∧
            (charAt t 1 = 'C' ∨ charAt t 1 = 'V' ∨ charAt t 2 = 'C')) ∨
          (v.length = 9 ∧ charAt v 7 ≠ 'V' ∧ charAt v 8 ≠ 'V' ∧ charAt t 1 = 'C')) := by
  have ht0 : ∀ c, c ∈ ['V', 'I', 'C'] → charAt t 0 ≠ c := by
    intro c hc
    rcases ht.charAt with h | h
    · rw [h]
      rintro rfl
      exact absurd hc (by decide)
    · rw [h]
      rintro rfl
      exact absurd hc (by decide)
  have hV := ht0 'V' (by decide)
  have hI := ht0 'I' (by decide)
  have hC := ht0 'C' (by decide)
  rw [snarfHijri_eq, snarfHijri_eq]
  simp only [charAt_append]
  rcases Nat.lt_or_ge 10 v.length with hlong | hshort
  · have h7 : v.length ≠ 7 ∧ v.length ≠ 8 ∧ v.length ≠ 9 := by omega
    simp [h7, show 7 < v.length by omega, show 8 < v.length by omega, show 9 < v.length by omega,
      hlong]
  · have hcase : v.length = 7 ∨ v.length = 8 ∨ v.length = 9 ∨ v.length = 10 := by omega
    rcases hcase with h | h | h | h
    · have h7 : charAt v 7 = '\x00' := charAt_beyond (by omega)
      have h8 : charAt v 8 = '\x00' := charAt_beyond (by omega)
      have h9 : charAt v 9 = '\x00' := charAt_beyond (by omega)
      have h10 : charAt v 10 = '\x00' := charAt_beyond (by omega)
      simp [h, h7, h8, h9, h10, hijriType, hV, hI]
      split_ifs <;> simp_all
    · have h8 : charAt v 8 = '\x00' := charAt_beyond (by omega)
      have h9 : charAt v 9 = '\x00' := charAt_beyond (by omega)
      have h10 : charAt v 10 = '\x00' := charAt_beyond (by omega)
      simp [h, h8, h9, h10, hijriType, hV, hI, hC]
      split_ifs <;> simp_all
    · have h9 : charAt v 9 = '\x00' := charAt_beyond (by omega)
      have h10 : charAt v 10 = '\x00' := charAt_beyond (by omega)
      simp [h, h9, h10, hijriType, hV, hC]
      split_ifs <;> simp_all
    · have h10 : charAt v 10 = '\x00' := charAt_beyond (by omega)
      simp [h, h10, hijriType, hC]

/-- **When the scale is its own**, whatever comes after it. -/
theorem snarfScale_append {t : List Char} (ht : EndsPart t) (v : List Char) :
    snarfScale (v ++ t) = snarfScale v ↔ ¬ ScaleStrays v t := by
  have ht0 : ∀ c, c ∈ ['H', '.', 'D', 'I'] → charAt t 0 ≠ c := by
    intro c hc
    rcases ht.charAt with h | h
    all_goals
      rw [h]
      rintro rfl
      exact absurd hc (by decide)
  have hdot := ht0 '.' (by decide)
  have hD := ht0 'D' (by decide)
  have hI := ht0 'I' (by decide)
  have hhead : charAt (v ++ t) 0 = 'H' ↔ charAt v 0 = 'H' := by
    rw [charAt_append]
    split
    · rfl
    · rename_i h
      refine iff_of_false (fun h' => ht0 'H' (by decide) ?_) fun h' => ?_
      · rwa [Nat.zero_sub] at h'
      · rw [charAt_beyond (by omega)] at h'
        exact absurd h' (by decide)
  unfold snarfScale ScaleStrays
  by_cases hH : charAt v 0 = 'H'
  · rw [if_pos hH, if_pos (hhead.mpr hH)]
    rcases Nat.lt_or_ge v.length 5 with hshort | hlong
    · have h5 : charAt v 5 = '\x00' := charAt_beyond (by omega)
      have hfive : charAt (v ++ t) 5 = charAt t (5 - v.length) := by
        rw [charAt_append, if_neg (by omega)]
      have hsix : charAt (v ++ t) 6 = charAt t (6 - v.length) := by
        rw [charAt_append, if_neg (by omega)]
      have h57 : ¬ v.length = 7 ∧ ¬ v.length = 8 ∧ ¬ v.length = 9 := by omega
      rw [hfive, hsix, if_neg (c := charAt v 5 = '.') (by rw [h5]; decide)]
      simp only [hH, hshort, h5, h57, true_and, false_and]
      by_cases h5t : charAt t (5 - v.length) = '.'
      · rw [if_pos h5t]
        by_cases h6D : charAt t (6 - v.length) = 'D'
        · rw [if_pos h6D]
          simp [h5t, h6D]
        · rw [if_neg h6D]
          by_cases h6I : charAt t (6 - v.length) = 'I'
          · rw [if_pos h6I, snarfHijri_eq]
            simp [h5t, h6I, hijriType_ne]
          · rw [if_neg h6I]
            simp [h5t, h6D, h6I]
      · rw [if_neg h5t]
        simp [h5t]
    · have hlt : ¬ v.length < 5 := by omega
      have hfive : charAt (v ++ t) 5 = '.' ↔ charAt v 5 = '.' := by
        rw [charAt_append]
        split
        · rfl
        · have h5 : v.length = 5 := by omega
          rw [h5, Nat.sub_self, charAt_beyond (v := v) (by omega)]
          exact iff_of_false hdot (by decide)
      by_cases h5 : charAt v 5 = '.'
      · have h6 : 6 ≤ v.length := by
          by_contra h6
          rw [charAt_beyond (by omega)] at h5
          exact absurd h5 (by decide)
        have hsix : ∀ c, charAt t 0 ≠ c → '\x00' ≠ c → (charAt (v ++ t) 6 = c ↔ charAt v 6 = c) := by
          intro c hc0 hc
          rw [charAt_append]
          split
          · rfl
          · have h6 : v.length = 6 := by omega
            rw [h6, Nat.sub_self, charAt_beyond (v := v) (by omega)]
            exact iff_of_false hc0 hc
        rw [if_pos h5, if_pos (hfive.mpr h5)]
        by_cases h6D : charAt v 6 = 'D'
        · rw [if_pos h6D, if_pos ((hsix 'D' hD (by decide)).mpr h6D)]
          simp [hlt, h6D]
        · rw [if_neg h6D, if_neg fun h => h6D ((hsix 'D' hD (by decide)).mp h)]
          by_cases h6I : charAt v 6 = 'I'
          · have h7 : 7 ≤ v.length := by
              by_contra h7
              rw [charAt_beyond (by omega)] at h6I
              exact absurd h6I (by decide)
            rw [if_pos h6I, if_pos ((hsix 'I' hI (by decide)).mpr h6I)]
            simp only [hH, hlt, h5, h6I, true_and, false_and, false_or]
            rw [← hijriType_append ht h7, snarfHijri_eq, snarfHijri_eq]
            exact hijriType_inj
          · rw [if_neg h6I, if_neg fun h => h6I ((hsix 'I' hI (by decide)).mp h)]
            simp [hlt, h6I]
      · rw [if_neg h5, if_neg fun h => h5 (hfive.mp h)]
        simp [hlt, h5]
  · rw [if_neg hH, if_neg fun h => hH (hhead.mp h)]
    exact iff_of_true rfl fun h => hH h.1

end Echse
