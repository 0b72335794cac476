/-
Lines on their way from a writer to the parser, in buffers of any size.

A backslash drops the byte behind it, unless the buffer ends in between: then that byte is
kept.  So there may be several texts that a line is read to, and they are its readings.  A
cut makes no other difference to lines that are neither empty nor too long and do not start
with a blank, as long as the parser gets through them.
-/
import Echse.Proofs.Chunks
import Echse.Proofs.Calendars

namespace Echse

open IcalParser

/-! ### Readings -/

/-- Text `l` may be read as `v`, if it is cut into the right pieces. -/
def Reading (l v : List Char) : Prop :=
  ∃ ps : List (List Char), ps.flatten = l ∧ ps.flatMap unescape = v

/-- Nothing in the text is dropped, nor drops anything. -/
def Verbatim (l : List Char) : Prop := ∀ c ∈ l, c ≠ '\r' ∧ c ≠ '\n' ∧ c ≠ '\\'

theorem Reading.nil : Reading [] [] := ⟨[], rfl, rfl⟩

theorem Reading.whole (l : List Char) : Reading l (unescape l) := ⟨[l], by simp, by simp⟩

theorem Reading.append {l l' v v' : List Char} (h : Reading l v) (h' : Reading l' v') :
    Reading (l ++ l') (v ++ v') := by
  obtain ⟨ps, rfl, rfl⟩ := h
  obtain ⟨ps', rfl, rfl⟩ := h'
  exact ⟨ps ++ ps', by simp, by simp⟩

theorem pending_verbatim {l : List Char} (h : Verbatim l) : pending l = false := by
  induction l using pending.induct with
  | case1 => rfl
  | case2 c => simpa [pending] using ⟨(h c (by simp)).2.1, (h c (by simp)).2.2⟩
  | case3 c d s hc _ =>
      rcases hc with rfl | rfl
      · exact absurd rfl (h _ List.mem_cons_self).2.1
      · exact absurd rfl (h _ List.mem_cons_self).2.2
  | case4 c d s hc ih =>
      rw [pending, if_neg hc]
      exact ih fun a ha => h a (List.mem_cons_of_mem _ ha)

theorem unescape_verbatim {l : List Char} (h : Verbatim l) : unescape l = l := by
  induction l with
  | nil => rfl
  | cons c l ih =>
      obtain ⟨hr, hn, hb⟩ := h c List.mem_cons_self
      rw [unescape_cons, if_neg hr, if_neg hn, if_neg hb,
        ih fun a ha => h a (List.mem_cons_of_mem _ ha)]

theorem Verbatim.append {k l : List Char} (hk : Verbatim k) (hl : Verbatim l) :
    Verbatim (k ++ l) := fun c hc => (List.mem_append.mp hc).elim (hk c) (hl c)

/-- What is verbatim at the start of a text is kept by all its readings. -/
theorem Reading.of_append {k l v : List Char} (hk : Verbatim k) (h : Reading (k ++ l) v) :
    ∃ w, v = k ++ w ∧ Reading l w := by
  obtain ⟨ps, hl, rfl⟩ := h
  induction ps generalizing k with
  | nil =>
      obtain ⟨rfl, rfl⟩ : k = [] ∧ l = [] := by simpa using hl.symm
      exact ⟨[], rfl, .nil⟩
  | cons p ps ih =>
      rw [List.flatten_cons, List.append_eq_append_iff] at hl
      rcases hl with ⟨k', rfl, hl⟩ | ⟨p', rfl, rfl⟩
      · have hp : Verbatim p := fun c hc => hk c (List.mem_append_left _ hc)
        obtain ⟨w, hw, h⟩ := ih (fun c hc => hk c (List.mem_append_right _ hc)) hl
        exact ⟨w, by rw [List.flatMap_cons, unescape_verbatim hp, hw, List.append_assoc], h⟩
      · refine ⟨unescape p' ++ ps.flatMap unescape, ?_, p' :: ps, rfl, rfl⟩
        rw [List.flatMap_cons, unescape_append _ _ (pending_verbatim hk), unescape_verbatim hk, List.append_assoc]

theorem Verbatim.reading {l v : List Char} (hl : Verbatim l) (h : Reading l v) : v = l := by
  rw [← List.append_nil l] at h
  obtain ⟨w, rfl, ps, hps, rfl⟩ := h.of_append hl
  have hn : ps.flatMap unescape = [] := by
    rw [List.flatMap_eq_nil_iff]
    intro p hp
    rw [List.flatten_eq_nil_iff.mp hps p hp]
    rfl
  rw [hn, List.append_nil]

theorem not_mem_unescape (l : List Char) : '\n' ∉ unescape l ∧ '\r' ∉ unescape l := by
  induction l using pending.induct with
  | case1 => simp [unescape]
  | case2 c =>
      rw [unescape_cons]
      split_ifs <;> simp_all [unescape, eq_comm]
  | case3 c d s hc ih =>
      rcases hc with rfl | rfl <;> simpa [unescape_cons] using ih
  | case4 c d s hc ih =>
      have hc : c ≠ '\n' ∧ c ≠ '\\' := by simpa using hc
      rw [unescape_cons]
      by_cases hr : c = '\r'
      · rwa [if_pos hr]
      · rw [if_neg hr, if_neg hc.1, if_neg hc.2]
        simpa [hc.1.symm, Ne.symm hr] using ih

theorem unescape_newline {l : List Char} (h : '\n' ∉ l) :
    unescape (l ++ ['\n']) = unescape l := by
  induction l using pending.induct with
  | case1 => rfl
  | case2 c =>
      have hn : c ≠ '\n' := by simpa [eq_comm] using h
      rw [List.singleton_append, unescape_cons, unescape_cons c, if_neg hn]
      split_ifs <;> simp [unescape]
  | case3 c d s hc ih =>
      obtain rfl : c = '\\' := hc.resolve_left fun hn => h (by simp [hn])
      have ih := ih fun hn => h (by simp [hn])
      rw [List.cons_append, List.cons_append, unescape_cons, unescape_cons '\\']
      simp [ih]
  | case4 c d s hc ih =>
      have hc : c ≠ '\n' ∧ c ≠ '\\' := by simpa using hc
      have ih := ih fun hn => h (List.mem_cons_of_mem _ hn)
      rw [List.cons_append, unescape_cons, if_neg hc.1, if_neg hc.2, ih, unescape_cons c,
        if_neg hc.1, if_neg hc.2]

/-! ### Lines -/

/-- A line that the parser has the room for, however it is cut. -/
structure IsWire (l : List Char) : Prop where
  start : ∃ c t, l = c :: t ∧ c ≠ '\r' ∧ c ≠ ' ' ∧ c ≠ '\t'
  single : '\n' ∉ l
  fits : l.length ≤ 1022

/-- The lines as they are sent. -/
def wireText (ls : List (List Char)) : List Char := ls.flatMap (· ++ ['\n'])

/-- The first byte of a line is kept, wherever the line is cut after it. -/
theorem IsWire.unescape_ne {b q : List Char} (h : IsWire (b ++ q)) (hb : b ≠ []) :
    unescape b ≠ [] := by
  obtain ⟨c, t, he, hr, -, -⟩ := h.start
  obtain ⟨d, b, rfl⟩ := List.exists_cons_of_ne_nil hb
  obtain rfl : d = c := by simpa using congrArg List.head? he
  have hn : d ≠ '\n' := fun hn => h.single (by simp [hn])
  rw [unescape_cons, if_neg hr, if_neg hn]
  split_ifs <;> simp

theorem chop_none {s : List Char} (h : '\n' ∉ s) : chop s = none := by
  induction s with
  | nil => rfl
  | cons c s ih =>
      have hc : c ≠ '\n' := fun hc => h (by simp [hc])
      rw [chop, if_neg fun hn => hc hn.1, ih fun hn => h (List.mem_cons_of_mem _ hn)]
      rfl

theorem chop_line {s r : List Char} (h : '\n' ∉ s) (hr : blankAt r = false) :
    chop (s ++ '\n' :: r) = some (s ++ ['\n'], r) := by
  have hn : chop ('\n' :: r) = some (['\n'], r) := by rw [chop, if_pos ⟨rfl, hr⟩]
  rw [chop_append_open _ (fun l r hl => by simp [chop_none h] at hl) (.inl (chop_none h)), hn]
  rfl

/-- Every backslash twice: a text which `u` is read of whole. -/
def double (u : List Char) : List Char := u.flatMap fun c => if c = '\\' then [c, c] else [c]

theorem mem_double {u : List Char} {c : Char} : c ∈ double u ↔ c ∈ u := by
  rw [double, List.mem_flatMap]
  constructor
  · rintro ⟨d, hd, h⟩
    split at h <;> simp_all
  · intro h
    refine ⟨c, h, ?_⟩
    split <;> simp

theorem double_cons (c : Char) (u : List Char) :
    double (c :: u) = (if c = '\\' then [c, c] else [c]) ++ double u := List.flatMap_cons

theorem unescape_double {u : List Char} (h : '\n' ∉ u ∧ '\r' ∉ u) : unescape (double u) = u := by
  induction u with
  | nil => rfl
  | cons c u ih =>
      have hn : c ≠ '\n' := fun hc => h.1 (by simp [hc])
      have hr : c ≠ '\r' := fun hc => h.2 (by simp [hc])
      have ih := ih ⟨fun hu => h.1 (List.mem_cons_of_mem _ hu),
        fun hu => h.2 (List.mem_cons_of_mem _ hu)⟩
      rw [double_cons]
      split
      · rename_i hb
        rw [hb, List.cons_append, unescape_cons]
        simp [ih]
      · rename_i hb
        rw [List.cons_append, unescape_cons, if_neg hr, if_neg hn, if_neg hb,
          List.nil_append, ih]

theorem pending_double {u : List Char} (h : '\n' ∉ u) : pending (double u) = false := by
  induction u with
  | nil => rfl
  | cons c u ih =>
      have hn : c ≠ '\n' := fun hc => h (by simp [hc])
      have ih := ih fun hu => h (List.mem_cons_of_mem _ hu)
      rw [double_cons]
      split
      · rename_i hb
        simpa [hb, pending] using ih
      · rename_i hb
        rcases hd : double u with _ | ⟨d, s⟩
        · simp [pending, hn, hb]
        · rw [List.singleton_append, pending, if_neg (by simp [hn, hb]), ← hd, ih]

/-- A line that is read as it is, however it is cut. -/
def plainLine : List Char → Bool
  | [] => false
  | c :: l => c ≠ ' ' && c ≠ '\t' &&
      (c :: l).all (fun d => d ≠ '\r' && d ≠ '\n' && d ≠ '\\') && (c :: l).length ≤ 1022

theorem of_plainLine {l : List Char} (h : plainLine l = true) : Verbatim l ∧ IsWire l := by
  rcases l with _ | ⟨c, l⟩
  · simp [plainLine] at h
  · simp only [plainLine, Bool.and_eq_true, List.all_eq_true, decide_eq_true_eq] at h
    obtain ⟨⟨⟨hs, ht⟩, hv⟩, hl⟩ := h
    have hv : Verbatim (c :: l) := fun d hd => ⟨(hv d hd).1.1, (hv d hd).1.2, (hv d hd).2⟩
    exact ⟨hv, ⟨c, l, rfl, (hv c List.mem_cons_self).1, hs, ht⟩,
      fun h => (hv _ h).2.1 rfl, hl⟩

theorem verbatim_keyed {key : List Char} (hk : plainLine key = true) : Verbatim (key ++ [':']) := by
  refine (of_plainLine hk).1.append fun c hc => ?_
  obtain rfl := List.mem_singleton.mp hc
  decide

theorem isWire_keyed {key v : List Char} (hk : plainLine key = true) (hv : '\n' ∉ v)
    (hl : key.length + 1 + v.length ≤ 1022) : IsWire (key ++ ':' :: v) := by
  obtain ⟨hkv, hkw⟩ := of_plainLine hk
  obtain ⟨c, t, rfl, hc⟩ := hkw.start
  refine ⟨⟨c, t ++ ':' :: v, rfl, hc⟩, fun h => ?_, ?_⟩
  · rcases List.mem_append.mp h with h | h
    · exact (hkv _ h).2.1 rfl
    · exact hv (by simpa using h)
  · simp only [List.length_append, List.length_cons] at hl ⊢
    omega

theorem Reading.keyed {v w : List Char} (h : Reading v w) {key : List Char}
    (hk : plainLine key = true) : Reading (key ++ ':' :: v) (key ++ ':' :: w) := by
  have := (Reading.whole (key ++ [':'])).append h
  rw [unescape_verbatim (verbatim_keyed hk)] at this
  simpa using this

theorem reading_keyed {key v u : List Char} (hk : plainLine key = true)
    (h : Reading (key ++ ':' :: v) u) : ∃ w, u = key ++ ':' :: w ∧ Reading v w := by
  have h' : Reading ((key ++ [':']) ++ v) u := by simpa using h
  obtain ⟨w, rfl, hw⟩ := h'.of_append (verbatim_keyed hk)
  exact ⟨w, by simp, hw⟩

theorem Verbatim.reading_self {l : List Char} (h : Verbatim l) : Reading l l := by
  have := Reading.whole l
  rwa [unescape_verbatim h] at this

/-! ### A line in the middle -/

/-- Between two buffers: what has been read of a line, what of it is still to come, and the
lines after it.  If it is marked, it has come to its end. -/
structure Wire where
  u : List Char
  q : List Char
  marked : Bool
  ls : List (List Char)
  clean : '\n' ∉ u ∧ '\r' ∉ u
  single : '\n' ∉ q
  fits : u.length + q.length ≤ 1022
  some_ : u ≠ [] ∨ IsWire q
  done : marked = true → q = [] ∧ u ≠ []
  wires : ∀ l ∈ ls, IsWire l

namespace Wire

/-- What is still to come. -/
def toCome (w : Wire) : List Char := (if w.marked then [] else w.q ++ ['\n']) ++ wireText w.ls

/-- A text that leaves the same in the stash. -/
def text (w : Wire) : List Char := double w.u ++ if w.marked then ['\n'] else []

/-- The parser that has stowed `t` is where the wire is. -/
def Holds (w : Wire) (t : List Char) : Prop :=
  unescape t = w.u ∧ (chop t = none ↔ w.marked = false)

/-- What the lines may be read to. -/
def Reads (w : Wire) (vs : List (List Char)) : Prop :=
  ∃ v vs', Reading w.q v ∧ List.Forall₂ Reading w.ls vs' ∧ vs = (w.u ++ v) :: vs'

/-- Before a line. -/
def before {l : List Char} {ls : List (List Char)} (h : ∀ k ∈ l :: ls, IsWire k) : Wire where
  u := []
  q := l
  marked := false
  ls := ls
  clean := by simp
  single := (h l List.mem_cons_self).single
  fits := by simpa using (h l List.mem_cons_self).fits
  some_ := .inr (h l List.mem_cons_self)
  done := by simp
  wires k hk := h k (List.mem_cons_of_mem _ hk)

theorem holds_text (w : Wire) : w.Holds w.text := by
  have hd : '\n' ∉ double w.u := fun h => w.clean.1 (mem_double.mp h)
  rw [Holds, text]
  rcases w.marked with _ | _
  · simp [unescape_double w.clean, chop_none hd]
  · have hc := chop_line (r := []) hd rfl
    simp [unescape_newline hd, unescape_double w.clean, hc]

theorem held_eq {α β : Type} {w : Wire} {s t : List Char} (hs : w.Holds s) (ht : w.Holds t)
    (c : IcalCtx α β) (buf : List Char) : held c s buf = held c t buf := by
  have h : chop s = none ↔ chop t = none := hs.2.trans ht.2.symm
  simp only [held, hs.1, ht.1, h]

theorem isOpen_text (w : Wire) : Open w.text := by
  have hd : '\n' ∉ double w.u := fun h => w.clean.1 (mem_double.mp h)
  intro l r h
  rw [text] at h
  rcases hm : w.marked with _ | _
  · simp [hm, chop_none hd] at h
  · have hc := chop_line (r := []) hd rfl
    rw [hm, if_pos rfl, hc] at h
    exact (Prod.mk.inj (Option.some.inj h)).2.symm

theorem joinOk_text (w : Wire) {b : List Char} (hb : w.marked = true → blankAt b = false) :
    JoinOk w.text b := by
  have hd : '\n' ∉ double w.u := fun h => w.clean.1 (mem_double.mp h)
  rw [JoinOk]
  rcases hm : w.marked with _ | _
  · rw [if_neg fun h => h.1 (w.holds_text.2.mpr hm), text, hm]
    simpa using pending_double w.clean.1
  · have hc : chop w.text ≠ none := fun h => by simp [w.holds_text.2.mp h] at hm
    rw [if_pos ⟨hc, hb hm⟩, w.holds_text.1]
    exact (w.done hm).2

end Wire

/-! ### Getting through -/

section

variable {α β τ : Type} {x : Snarfers α β τ}

/-- The lines are processed up to the last, and none of them is the end of it all, nor of a
component without an instruction. -/
inductive Through (x : Snarfers α β τ) :
    IcalCtx α β → List (List Char) → List (EchsInstruc τ) → IcalCtx α β → Prop
  | nil {c} : Through x c [] [] c
  | null {c v c₁ vs is c₂} (hp : c.procLine x v [] = (.null, c₁)) (h : Through x c₁ vs is c₂) :
      Through x c (v :: vs) is c₂
  | ve {c v w c₁ vs is c₂} (hp : c.procLine x v [] = (.ve w, c₁))
      (hv : (icalInstruc x c₁.globve.meth w).v ≠ .unk) (h : Through x c₁ vs is c₂) :
      Through x c (v :: vs) (icalInstruc x c₁.globve.meth w :: is) c₂

theorem Through.append {c c₁ c₂ : IcalCtx α β} {vs ws : List (List Char)}
    {is js : List (EchsInstruc τ)} (h : Through x c vs is c₁) (h' : Through x c₁ ws js c₂) :
    Through x c (vs ++ ws) (is ++ js) c₂ := by
  induction h with
  | nil => exact h'
  | null hp _ ih => exact .null hp (ih h')
  | ve hp hv _ ih => exact .ve hp hv (ih h')

theorem Through.split {c c₂ : IcalCtx α β} {vs ws : List (List Char)}
    {is : List (EchsInstruc τ)} (h : Through x c (vs ++ ws) is c₂) :
    ∃ is₁ c₁ is₂, is = is₁ ++ is₂ ∧ Through x c vs is₁ c₁ ∧ Through x c₁ ws is₂ c₂ := by
  induction vs generalizing c is with
  | nil => exact ⟨[], c, is, rfl, .nil, h⟩
  | cons v vs ih =>
      cases h with
      | null hp h =>
          obtain ⟨is₁, c₁, is₂, rfl, h₁, h₂⟩ := ih h
          exact ⟨is₁, c₁, is₂, rfl, .null hp h₁, h₂⟩
      | ve hp hv h =>
          obtain ⟨is₁, c₁, is₂, rfl, h₁, h₂⟩ := ih h
          exact ⟨_ :: is₁, c₁, is₂, rfl, .ve hp hv h₁, h₂⟩

/-! ### A buffer -/

namespace Wire

/-- Buffer `b` is read: the lines `ws` are complete, and `w'` is where it ends. -/
structure Step (x : Snarfers α β τ) (w : Wire) (b rest : List Char) (ws : List (List Char))
    (w' : Wire) (t : List Char) : Prop where
  rest : rest = w'.toCome
  holds : w'.Holds t
  le : t.length ≤ w.text.length + b.length
  kept : (unescape (t.take (t.length - b.length))).length + min t.length b.length < stashSize
  reads : ∀ c is c', Through x c ws is c' → Echse.Reads x c (w.text ++ b) is c' t
  lines : ∀ vs, w'.Reads vs → w.Reads (ws ++ vs)

theorem unescape_text_append (w : Wire) (hm : w.marked = false) (b : List Char) :
    unescape (w.text ++ b) = w.u ++ unescape b := by
  have hp : pending w.text = false := by
    rw [text, hm]
    simpa using pending_double w.clean.1
  rw [unescape_append _ _ hp, w.holds_text.1]

theorem not_mem_text {w : Wire} (hm : w.marked = false) : '\n' ∉ w.text := by
  rw [text, hm]
  simpa using fun h => w.clean.1 (mem_double.mp h)

/-- What is held and the buffer are all of the rest. -/
theorem kept_text (w : Wire) {b : List Char} (h : w.u.length + b.length < stashSize) :
    (unescape ((w.text ++ b).take ((w.text ++ b).length - b.length))).length +
      min (w.text ++ b).length b.length < stashSize := by
  rw [List.length_append, Nat.add_sub_cancel, List.take_left, w.holds_text.1]
  omega

/-- The buffer ends before the line does. -/
theorem step_stays {w : Wire} {b q rest : List Char} (hm : w.marked = false)
    (hq : w.q = b ++ q) (hr : rest = q ++ '\n' :: wireText w.ls) :
    ∃ w' t, Step x w b rest [] w' t := by
  have hb : '\n' ∉ b := fun h => w.single (by simp [hq, h])
  have hl : w.u.length + (b.length + q.length) ≤ 1022 := by simpa [hq] using w.fits
  have hn : '\n' ∉ w.text ++ b := by simp [not_mem_text hm, hb]
  have hne : w.u ++ unescape b ≠ [] ∨ IsWire q := by
    rcases w.some_ with hu | hw
    · exact .inl (by simp [hu])
    · rw [hq] at hw
      by_cases hb : b = []
      · exact .inr (by simpa [hb] using hw)
      · exact .inl (by simp [hw.unescape_ne hb])
  have hlen := length_unescape b
  let w' : Wire :=
    { u := w.u ++ unescape b
      q := q
      marked := false
      ls := w.ls
      clean := ⟨by simp [w.clean, not_mem_unescape], by simp [w.clean, not_mem_unescape]⟩
      single := fun h => w.single (by simp [hq, h])
      fits := by rw [List.length_append]; omega
      some_ := hne
      done := by simp
      wires := w.wires }
  refine ⟨w', w.text ++ b, ?_, ⟨w.unescape_text_append hm b, ?_⟩, ?_, ?_, ?_, ?_⟩
  · simp [hr, w', toCome]
  · simp [chop_none hn, w']
  · rw [List.length_append]
  · exact w.kept_text (by simp only [stashSize]; omega)
  · intro c is c' h
    cases h
    exact .done fun l r hl => by simp [chop_none hn] at hl
  · rintro vs ⟨v, vs', hv, hvs, rfl⟩
    exact ⟨unescape b ++ v, vs', hq ▸ (Reading.whole b).append hv, hvs, by simp [w']⟩

theorem line_ne (w : Wire) : w.u ++ unescape w.q ≠ [] := by
  rcases w.some_ with hu | hw
  · simp [hu]
  · have hq : w.q ≠ [] := by
      obtain ⟨c, t, hs, -⟩ := hw.start
      simp [hs]
    rw [← List.append_nil w.q] at hw
    simp [hw.unescape_ne hq]

/-- The buffer ends where the line does. -/
theorem step_ends {w : Wire} {b rest : List Char} (hm : w.marked = false)
    (hb : b = w.q ++ ['\n']) (hr : rest = wireText w.ls) :
    ∃ w' t, Step x w b rest [] w' t := by
  have hn : '\n' ∉ w.text ++ w.q := by simp [not_mem_text hm, w.single]
  have hc : chop (w.text ++ b) = some (w.text ++ b, []) := by
    rw [hb, ← List.append_assoc]
    exact chop_line hn rfl
  have hne := w.line_ne
  have hlen := length_unescape w.q
  have hfits := w.fits
  have hbl : b.length = w.q.length + 1 := by simp [hb]
  let w' : Wire :=
    { u := w.u ++ unescape w.q
      q := []
      marked := true
      ls := w.ls
      clean := ⟨by simp [w.clean, not_mem_unescape], by simp [w.clean, not_mem_unescape]⟩
      single := by simp
      fits := by rw [List.length_append, List.length_nil]; omega
      some_ := .inl hne
      done := fun _ => ⟨rfl, hne⟩
      wires := w.wires }
  refine ⟨w', w.text ++ b, ?_, ⟨?_, ?_⟩, ?_, ?_, ?_, ?_⟩
  · simp [hr, w', toCome]
  · rw [w.unescape_text_append hm, hb, unescape_newline w.single]
  · simp [hc, w']
  · rw [List.length_append]
  · exact w.kept_text (by simp only [stashSize]; omega)
  · intro c is c' h
    cases h
    refine .done fun l r hl => ?_
    rw [hc] at hl
    exact (Prod.mk.inj (Option.some.inj hl)).2.symm
  · rintro vs ⟨v, vs', hv, hvs, rfl⟩
    obtain rfl : v = [] := Verbatim.reading (by simp [Verbatim]) hv
    exact ⟨unescape w.q, vs', .whole w.q, hvs, by simp [w']⟩

theorem blankAt_wireText {l : List Char} {ls : List (List Char)} (hl : IsWire l)
    {b rest : List Char} (hb : b ≠ []) (he : b ++ rest = wireText (l :: ls)) :
    blankAt b = false := by
  obtain ⟨c, t, rfl, -, hs, ht⟩ := hl.start
  obtain ⟨d, b, rfl⟩ := List.exists_cons_of_ne_nil hb
  obtain rfl : d = c := by simpa [wireText] using congrArg List.head? he
  simp [blankAt, hs, ht]

/-- The line comes to its end, and the buffer goes on with the next one. -/
theorem step_line {w : Wire} {b b' rest l : List Char} {ls : List (List Char)}
    (hls : ∀ k ∈ l :: ls, IsWire k) (hw : w.ls = l :: ls) (hb' : b' ≠ [])
    (he : b' ++ rest = wireText (l :: ls))
    (hb : (w.marked = false ∧ b = w.q ++ '\n' :: b') ∨ (w.marked = true ∧ b = b'))
    {ws : List (List Char)} {w' : Wire} {t : List Char}
    (h : Step x (before hls) b' rest ws w' t) :
    Step x w b rest ((w.u ++ unescape w.q) :: ws) w' t := by
  have hd : '\n' ∉ double w.u := fun h => w.clean.1 (mem_double.mp h)
  have hn : '\n' ∉ double w.u ++ w.q := by simp [hd, w.single]
  have hs : w.text ++ b = (double w.u ++ w.q) ++ '\n' :: b' ∧ b'.length ≤ b.length := by
    rcases hb with ⟨hm, rfl⟩ | ⟨hm, rfl⟩
    · simp [text, hm]
      omega
    · simp [text, hm, (w.done hm).1]
  have hc : chop (w.text ++ b) = some (double w.u ++ w.q ++ ['\n'], b') := by
    rw [hs.1]
    exact chop_line hn (blankAt_wireText (hls l List.mem_cons_self) hb' he)
  have hu : unescape (double w.u ++ w.q ++ ['\n']) = w.u ++ unescape w.q := by
    rw [unescape_newline hn, unescape_append _ _ (pending_double w.clean.1),
      unescape_double w.clean]
  have hlen : (w.u ++ unescape w.q).length < stashSize := by
    have h₁ := length_unescape w.q
    have h₂ := w.fits
    rw [List.length_append, stashSize]
    omega
  have hle : t.length ≤ b'.length := by simpa [before, text, double] using h.le
  refine ⟨h.rest, h.holds, by omega, ?_, ?_, ?_⟩
  · have hk := h.kept
    rw [Nat.sub_eq_zero_of_le hle, Nat.min_eq_left hle] at hk
    rw [Nat.sub_eq_zero_of_le (hle.trans hs.2), Nat.min_eq_left (hle.trans hs.2)]
    exact hk
  · intro c is c' hr
    cases hr with
    | null hp hr =>
        refine .null hc hb' (hu ▸ ⟨w.line_ne, hlen⟩) (hu ▸ hp) ?_
        simpa [before, text, double] using h.reads _ _ _ hr
    | ve hp hv hr =>
        refine .ve hc hb' (hu ▸ ⟨w.line_ne, hlen⟩) (hu ▸ hp) hv ?_
        simpa [before, text, double] using h.reads _ _ _ hr
  · intro vs hvs
    obtain ⟨v, vs', hv, hvs', hvv⟩ := h.lines vs hvs
    refine ⟨unescape w.q, v :: vs', .whole w.q, hw ▸ .cons hv hvs', ?_⟩
    rw [List.cons_append, hvv]
    rfl

/-- Where the buffer may end. -/
theorem toCome_cases {w : Wire} {b rest : List Char} (hb : b ≠ []) (he : b ++ rest = w.toCome) :
    (w.marked = false ∧ ∃ q, w.q = b ++ q ∧ rest = q ++ '\n' :: wireText w.ls) ∨
    (w.marked = false ∧ b = w.q ++ ['\n'] ∧ rest = wireText w.ls) ∨
    ∃ b', b' ≠ [] ∧ b' ++ rest = wireText w.ls ∧
      ((w.marked = false ∧ b = w.q ++ '\n' :: b') ∨ (w.marked = true ∧ b = b')) := by
  rw [toCome] at he
  rcases hm : w.marked with _ | _
  · rw [hm, if_neg (by simp), List.append_assoc, List.append_eq_append_iff] at he
    rcases he with ⟨q, hq, hr⟩ | ⟨c, hbc, hc⟩
    · exact .inl ⟨rfl, q, hq, hr⟩
    · rcases c with _ | ⟨d, b'⟩
      · exact .inl ⟨rfl, [], by simpa using hbc.symm, by simpa using hc.symm⟩
      · obtain ⟨rfl, hc'⟩ : '\n' = d ∧ wireText w.ls = b' ++ rest := by simpa using hc
        by_cases hb' : b' = []
        · exact .inr (.inl ⟨rfl, by rw [hbc, hb'], by simpa [hb'] using hc'.symm⟩)
        · exact .inr (.inr ⟨b', hb', hc'.symm, .inl ⟨rfl, hbc⟩⟩)
  · rw [hm, if_pos rfl, List.nil_append] at he
    exact .inr (.inr ⟨b, hb, he, .inr ⟨rfl, rfl⟩⟩)

/-- **A buffer** takes the wire to where it ends. -/
theorem exists_step (x : Snarfers α β τ) (w : Wire) {b rest : List Char} (hb : b ≠ [])
    (he : b ++ rest = w.toCome) : ∃ ws w' t, Step x w b rest ws w' t := by
  induction hls : w.ls generalizing w b with
  | nil =>
      rcases toCome_cases hb he with ⟨hm, q, hq, hr⟩ | ⟨hm, hbq, hr⟩ | ⟨b', hb', he', -⟩
      · exact ⟨[], step_stays hm hq hr⟩
      · exact ⟨[], step_ends hm hbq hr⟩
      · simp [hls, wireText, hb'] at he'
  | cons l ls ih =>
      rcases toCome_cases hb he with ⟨hm, q, hq, hr⟩ | ⟨hm, hbq, hr⟩ | ⟨b', hb', he', hbb⟩
      · exact ⟨[], step_stays hm hq hr⟩
      · exact ⟨[], step_ends hm hbq hr⟩
      · rw [hls] at he'
        have hw : ∀ k ∈ l :: ls, IsWire k := hls ▸ w.wires
        obtain ⟨ws, w', t, h⟩ := ih (before hw) hb' (by simpa [before, toCome, wireText] using he')
          rfl
        exact ⟨_, w', t, step_line hw hls hb' he' hbb h⟩

/-! ### The run -/

/-- What comes in buffers is read to one of its readings. -/
theorem run (x : Snarfers α β τ) (bs : List (List Char)) (hne : ∀ b ∈ bs, b ≠ []) (w : Wire)
    (he : bs.flatten = w.toCome) :
    ∃ vs, w.Reads vs ∧ ∀ c s is c' ws v buf, w.Holds s → Open buf → vs = ws ++ [v] →
      Through x c ws is c' → (∀ t, unescape t = v → lineInstruc x c' t = .unk) →
      icalRun x (some (held c s buf)) bs = is := by
  induction bs generalizing w with
  | nil =>
      have hm : w.marked = true := by
        by_contra hm
        simp [toCome, hm] at he
      have hls : w.ls = [] := by
        rcases hls : w.ls with _ | ⟨l, ls⟩
        · rfl
        · simp [toCome, hls, wireText] at he
      have hq := (w.done hm).1
      refine ⟨[w.u], ⟨[], [], by rw [hq]; exact .nil, by rw [hls]; exact .nil, by simp⟩, ?_⟩
      intro c s is c' ws v buf hs hbuf hvs ht hv
      obtain ⟨rfl, rfl⟩ : ws = [] ∧ w.u = v := by
        rcases ws with _ | ⟨_, ws⟩ <;> simp_all
      cases ht
      rw [icalRun, lastPull_held c s hbuf, hv s hs.1]
      simp [EchsInstruc.unk]
  | cons b bs ih =>
      -- the lines up to `w'` are those of this buffer, and the others are those of the rest
      have hb : b ≠ [] := hne b List.mem_cons_self
      obtain ⟨ws₁, w', t, h⟩ := exists_step x w hb he
      obtain ⟨vs', hvs', hrun⟩ := ih (fun b hb => hne b (List.mem_cons_of_mem _ hb)) w' h.rest
      refine ⟨ws₁ ++ vs', h.lines vs' hvs', ?_⟩
      intro c s is c' ws v buf hs _ hvs ht hv
      obtain ⟨ws₂, hws₂⟩ : ∃ ws₂, vs' = ws₂ ++ [v] := by
        obtain ⟨a, as, -, -, rfl⟩ := hvs'
        rcases List.eq_nil_or_concat ((w'.u ++ a) :: as) with h0 | ⟨ws₂, v', h0⟩
        · simp at h0
        · rw [List.concat_eq_append] at h0
          rw [h0, ← List.append_assoc] at hvs
          obtain ⟨-, hv⟩ := List.append_inj' hvs rfl
          exact ⟨ws₂, by rw [h0, hv]⟩
      obtain rfl : ws₁ ++ ws₂ = ws := by
        rw [hws₂, ← List.append_assoc] at hvs
        exact List.append_cancel_right hvs
      obtain ⟨is₁, c₁, is₂, rfl, ht₁, ht₂⟩ := ht.split
      have hj : JoinOk w.text b := w.joinOk_text fun hm => by
        rw [toCome, hm, if_pos rfl, List.nil_append, List.flatten_cons] at he
        rcases hls : w.ls with _ | ⟨l, ls⟩
        · simp [hls, wireText, hb] at he
        · rw [hls] at he
          exact blankAt_wireText (w.wires l (by simp [hls])) hb he
      obtain ⟨buf', hbuf', hp⟩ := (h.reads c is₁ c₁ ht₁).between w.isOpen_text hj hb h.kept
      rw [icalRun_cons, show echsEvicalPush x (some (held c s buf)) b = some (held c s b) from rfl,
        held_eq hs w.holds_text, hp, hrun c₁ t is₂ c' ws₂ v buf' h.holds hbuf' hws₂ ht₂ hv]

end Wire

/-- Buffers of up to `n` bytes that make up a text. -/
structure Buffers (n : Nat) (text : List Char) (bs : List (List Char)) : Prop where
  flatten : bs.flatten = text
  ne : ∀ b ∈ bs, b ≠ []
  le : ∀ b ∈ bs, b.length ≤ n

def endCal : List Char := "END:VCALENDAR".toList

theorem isWire_endCal : IsWire endCal :=
  ⟨⟨'E', "ND:VCALENDAR".toList, by decide, by decide, by decide, by decide⟩,
    by decide, by decide⟩

theorem lineInstruc_endCal (x : Snarfers α β τ) (c : IcalCtx α β) {t : List Char}
    (ht : unescape t = endCal) : lineInstruc x c t = .unk := by
  have h : parseLine endCal = some (.end_, ":VCALENDAR".toList, "VCALENDAR".toList, 9) := by
    decide
  have hc : evicalComp ("VCALENDAR".toList.take 9) = some .vcal := by decide
  rw [lineInstruc, ht, procLine_eq, h]
  dsimp only
  rw [hc]
  rcases c.st with _ | _ | _ | d <;> rfl

theorem forall₂_split {γ δ : Type} {R : γ → δ → Prop} {as bs : List γ} {cs : List δ}
    (h : List.Forall₂ R (as ++ bs) cs) :
    ∃ cs₁ cs₂, cs = cs₁ ++ cs₂ ∧ List.Forall₂ R as cs₁ ∧ List.Forall₂ R bs cs₂ := by
  induction as generalizing cs with
  | nil => exact ⟨[], cs, rfl, .nil, h⟩
  | cons a as ih =>
      cases h with
      | cons hc h =>
          obtain ⟨cs₁, cs₂, rfl, h₁, h₂⟩ := ih h
          exact ⟨_ :: cs₁, cs₂, rfl, .cons hc h₁, h₂⟩

theorem verbatim_endCal : Verbatim endCal := forall_mem_of_all (by decide)

theorem reading_endCal {vs : List (List Char)} (h : List.Forall₂ Reading [endCal] vs) :
    vs = [endCal] := by
  cases h with
  | cons hv h =>
      cases h
      rw [verbatim_endCal.reading hv]

theorem icalRun_fresh (x : Snarfers α β τ) {b : List Char} (hb : b ≠ []) (bs : List (List Char)) :
    icalRun x none (b :: bs) = icalRun x (some (held (.fresh x) [] [])) (b :: bs) := by
  rw [icalRun_cons, push_fresh hb, icalRun_cons]
  rfl

/-- **What is sent up to the end of a calendar is read to one of its readings.** -/
theorem icalRun_wire (x : Snarfers α β τ) {ls : List (List Char)} (hls : ∀ l ∈ ls, IsWire l)
    {n : Nat} {bs : List (List Char)} (hbs : Buffers n (wireText (ls ++ [endCal])) bs) :
    ∃ vs, List.Forall₂ Reading ls vs ∧
      ∀ is c, Through x (.fresh x) vs is c → icalRun x none bs = is := by
  have hall : ∀ l ∈ ls ++ [endCal], IsWire l := by
    intro l hl
    rcases List.mem_append.mp hl with h | h
    · exact hls l h
    · exact List.mem_singleton.mp h ▸ isWire_endCal
  obtain ⟨l, ls', hl⟩ : ∃ l ls', ls ++ [endCal] = l :: ls' :=
    List.exists_cons_of_ne_nil (by simp)
  obtain ⟨b, bs, rfl⟩ := List.exists_cons_of_ne_nil (l := bs) fun h => by
    have := hbs.flatten
    simp [h, hl, wireText] at this
  have hw : ∀ k ∈ l :: ls', IsWire k := hl ▸ hall
  obtain ⟨vs', ⟨v, vs, hv, hvs, rfl⟩, hrun⟩ := Wire.run x (b :: bs) hbs.ne (.before hw) (by
    rw [hbs.flatten, hl]
    simp [Wire.toCome, Wire.before, wireText])
  have hr : List.Forall₂ Reading (ls ++ [endCal]) (v :: vs) := hl ▸ .cons hv hvs
  obtain ⟨vs₁, vs₂, he, h₁, h₂⟩ := forall₂_split hr
  obtain rfl := reading_endCal h₂
  refine ⟨vs₁, h₁, fun is c ht => ?_⟩
  rw [icalRun_fresh x (hbs.ne b List.mem_cons_self)]
  exact hrun _ [] is c vs₁ endCal [] ⟨rfl, by simp [chop, Wire.before]⟩ open_nil he ht
    fun t => lineInstruc_endCal x c

/-! ### Cuts for every reading -/

theorem icalRun_stow (c : IcalCtx α β) {s b : List Char} (hs : Open s) (hj : JoinOk s b)
    (hb : b ≠ []) (ho : Open (s ++ b)) (hk : b.length + (unescape s).length < stashSize)
    (bs : List (List Char)) (buf : List Char) :
    icalRun x (some (held c s buf)) (b :: bs) = icalRun x (some (held c (s ++ b) b)) bs := by
  have hp := pull_held_open x c hs hj hb ho
  rw [if_pos hk] at hp
  rw [icalRun_cons, show echsEvicalPush x (some (held c s buf)) b = some (held c s b) from rfl,
    pullAll_null hp]
  rfl

theorem isOpen_of_not_mem {s : List Char} (h : '\n' ∉ s) : Open s :=
  fun l r hl => by simp [chop_none h] at hl

theorem isOpen_newline {s : List Char} (h : '\n' ∉ s) : Open (s ++ ['\n']) := by
  intro l r hl
  rw [chop_line h rfl] at hl
  exact (Prod.mk.inj (Option.some.inj hl)).2.symm

theorem joinOk_double {u : List Char} (hu : '\n' ∉ u) (b : List Char) : JoinOk (double u) b := by
  rw [JoinOk, if_neg fun h => h.1 (chop_none fun h => hu (mem_double.mp h))]
  exact pending_double hu

/-- The pieces of a line go to the stash one by one, and the newline marks its end. -/
theorem icalRun_pieces (c : IcalCtx α β) {u : List Char} (hu : '\n' ∉ u ∧ '\r' ∉ u)
    {ps : List (List Char)} (hps : ∀ p ∈ ps, p ≠ [] ∧ '\n' ∉ p)
    (hlen : u.length + ps.flatten.length ≤ 1022) (bs : List (List Char)) (buf : List Char) :
    icalRun x (some (held c (double u) buf)) (ps ++ ['\n'] :: bs) =
      icalRun x (some (held c (double (u ++ ps.flatMap unescape) ++ ['\n']) ['\n'])) bs := by
  have hd : '\n' ∉ double u := fun h => hu.1 (mem_double.mp h)
  induction ps generalizing u buf with
  | nil =>
      rw [List.nil_append, List.flatMap_nil, List.append_nil]
      refine icalRun_stow c (isOpen_of_not_mem hd) (joinOk_double hu.1 _) (by simp)
        (isOpen_newline hd) ?_ bs buf
      rw [unescape_double hu, stashSize, List.length_singleton]
      simp only [List.flatten_nil, List.length_nil] at hlen
      omega
  | cons p ps ih =>
      obtain ⟨hp, hpn⟩ := hps p List.mem_cons_self
      have hn : '\n' ∉ double u ++ p := by simp [hd, hpn]
      have hu' : '\n' ∉ u ++ unescape p ∧ '\r' ∉ u ++ unescape p := by
        simp [hu, not_mem_unescape]
      have hd' : '\n' ∉ double (u ++ unescape p) := fun h => hu'.1 (mem_double.mp h)
      have hlp := length_unescape p
      rw [List.flatten_cons, List.length_append] at hlen
      have hst : held c (double u ++ p) p = held c (double (u ++ unescape p)) p := by
        simp only [held, chop_none hn, chop_none hd', unescape_double hu',
          unescape_append _ _ (pending_double hu.1), unescape_double hu]
      have hlen' : (u ++ unescape p).length + ps.flatten.length ≤ 1022 := by
        rw [List.length_append]
        omega
      rw [List.cons_append, icalRun_stow c (isOpen_of_not_mem hd) (joinOk_double hu.1 _) hp
        (isOpen_of_not_mem hn) (by rw [unescape_double hu, stashSize]; omega), hst,
        ih hu' (fun p hp => hps p (List.mem_cons_of_mem _ hp)) hlen' p hd',
        List.flatMap_cons, List.append_assoc]

/-- A line and its newline, in pieces. -/
def pieces (ps : List (List Char)) : List (List Char) := ps ++ [['\n']]

/-- Pieces that make up a line. -/
structure IsPieces (ps : List (List Char)) : Prop where
  ne : ∀ p ∈ ps, p ≠ []
  wire : IsWire ps.flatten

theorem IsPieces.not_mem {ps : List (List Char)} (h : IsPieces ps) :
    ∀ p ∈ ps, p ≠ [] ∧ '\n' ∉ p :=
  fun p hp => ⟨h.ne p hp, fun hn => h.wire.single (List.mem_flatten.mpr ⟨p, hp, hn⟩)⟩

/-- A line that is complete, and what comes after it. -/
theorem reads_line {c c' : IcalCtx α β} {s p : List Char} (hc : chop (s ++ p) = some (s, p))
    (hl : unescape s ≠ [] ∧ (unescape s).length < stashSize) (hp : p ≠ []) (ho : Open p)
    {vs : List (List Char)} {is : List (EchsInstruc τ)}
    (ht : Through x c (unescape s :: vs) is c') :
    ∃ is₁ c₁ is₂, is = is₁ ++ is₂ ∧ Through x c₁ vs is₂ c' ∧ Reads x c (s ++ p) is₁ c₁ p := by
  cases ht with
  | null h ht => exact ⟨[], _, _, rfl, ht, .null hc hp hl h (.done ho)⟩
  | ve h hv ht => exact ⟨[_], _, _, rfl, ht, .ve hc hp hl h hv (.done ho)⟩

/-- A marked line and the first piece of the next one. -/
theorem reads_marked {c c' : IcalCtx α β} {u p : List Char} (hu : '\n' ∉ u ∧ '\r' ∉ u)
    (hne : u ≠ []) (hlen : u.length ≤ 1022) (hp : p ≠ []) (hpn : '\n' ∉ p)
    (hpb : blankAt p = false) {vs : List (List Char)} {is : List (EchsInstruc τ)}
    (ht : Through x c (u :: vs) is c') :
    ∃ is₁ c₁ is₂, is = is₁ ++ is₂ ∧ Through x c₁ vs is₂ c' ∧
      Reads x c (double u ++ ['\n'] ++ p) is₁ c₁ p := by
  have hd : '\n' ∉ double u := fun h => hu.1 (mem_double.mp h)
  have hc : chop (double u ++ ['\n'] ++ p) = some (double u ++ ['\n'], p) := by
    rw [List.append_assoc]
    exact chop_line hd hpb
  have hun : unescape (double u ++ ['\n']) = u := by
    rw [unescape_newline hd, unescape_double hu]
  refine reads_line hc ?_ hp (isOpen_of_not_mem hpn) (by rwa [hun])
  rw [hun, stashSize]
  exact ⟨hne, by omega⟩

/-- The line that is marked, and the lines after it in pieces. -/
theorem icalRun_cut (pss : List (List (List Char))) (h : ∀ ps ∈ pss, IsPieces ps)
    {c c' : IcalCtx α β} {u v : List Char} (hu : '\n' ∉ u ∧ '\r' ∉ u) (hne : u ≠ [])
    (hlen : u.length ≤ 1022) {vs : List (List Char)}
    (hvs : u :: pss.map (List.flatMap unescape) = vs ++ [v]) {is : List (EchsInstruc τ)}
    (ht : Through x c vs is c') (hv : ∀ t, unescape t = v → lineInstruc x c' t = .unk)
    {buf : List Char} (hbuf : Open buf) :
    icalRun x (some (held c (double u ++ ['\n']) buf)) (pss.flatMap pieces) = is := by
  have hd : '\n' ∉ double u := fun h => hu.1 (mem_double.mp h)
  induction pss generalizing c u vs is buf with
  | nil =>
      obtain ⟨rfl, rfl⟩ : vs = [] ∧ u = v := by
        rcases vs with _ | ⟨_, vs⟩ <;> simp_all
      cases ht
      have hun : unescape (double u ++ ['\n']) = u := by
        rw [unescape_newline hd, unescape_double hu]
      rw [List.flatMap_nil, icalRun, lastPull_held _ _ hbuf, hv _ hun]
      simp [EchsInstruc.unk]
  | cons ps pss ih =>
      have hps := h ps List.mem_cons_self
      obtain ⟨p, ps, rfl⟩ : ∃ p ps', ps = p :: ps' := by
        refine List.exists_cons_of_ne_nil fun h0 => ?_
        obtain ⟨a, t, hs, -⟩ := hps.wire.start
        simp [h0] at hs
      obtain ⟨hp, hpn⟩ := hps.not_mem p List.mem_cons_self
      have hw : IsWire (p ++ ps.flatten) := hps.wire
      have hpb : blankAt p = false := by
        have he : p ++ (ps.flatten ++ ['\n']) = wireText [p ++ ps.flatten] := by simp [wireText]
        exact Wire.blankAt_wireText hw hp he
      have hfits : p.length + ps.flatten.length ≤ 1022 := by simpa using hw.fits
      obtain ⟨vs, rfl, hvs'⟩ : ∃ vs', vs = u :: vs' ∧
          (unescape p ++ ps.flatMap unescape) :: pss.map (List.flatMap unescape) = vs' ++ [v] := by
        rcases vs with _ | ⟨a, vs⟩
        · simp at hvs
        · obtain ⟨rfl, h⟩ := List.cons_eq_cons.mp hvs
          exact ⟨vs, rfl, h⟩
      obtain ⟨is₁, c₁, is₂, rfl, ht₂, hr⟩ := reads_marked hu hne hlen hp hpn hpb ht
      obtain ⟨buf', hbuf', hpull⟩ := hr.between (isOpen_newline hd)
        (by
          rw [JoinOk, if_pos ⟨by rw [chop_line hd rfl]; simp, hpb⟩, unescape_newline hd,
            unescape_double hu]
          exact hne) hp (by
          rw [Nat.sub_self, List.take_zero, Nat.min_self, stashSize]
          simp only [unescape, List.length_nil]
          omega)
      have hpu := not_mem_unescape p
      have hst : held c₁ p buf' = held c₁ (double (unescape p)) buf' := by
        have hdp : '\n' ∉ double (unescape p) := fun h => hpu.1 (mem_double.mp h)
        simp only [held, chop_none hpn, chop_none hdp, unescape_double hpu]
      have hlp := length_unescape p
      have hu' : '\n' ∉ unescape p ++ ps.flatMap unescape ∧
          '\r' ∉ unescape p ++ ps.flatMap unescape := by
        simp [hpu, not_mem_unescape]
      have hlps : (ps.flatMap unescape).length ≤ ps.flatten.length := by
        rw [List.length_flatMap, List.length_flatten]
        exact List.sum_le_sum fun p _ => length_unescape p
      have hopen : Open ['\n'] := isOpen_newline (s := []) (by simp)
      rw [List.flatMap_cons, pieces, List.append_assoc, List.singleton_append, List.cons_append,
        icalRun_cons, show echsEvicalPush x (some (held c (double u ++ ['\n']) buf)) p =
          some (held c (double u ++ ['\n']) p) from rfl, hpull, hst,
        icalRun_pieces c₁ hpu (fun p hp => hps.not_mem p (List.mem_cons_of_mem _ hp)) (by omega),
        ih (fun ps hps => h ps (List.mem_cons_of_mem _ hps)) hu'
          (by simp [hw.unescape_ne hp]) (by rw [List.length_append]; omega) hvs' ht₂
          hopen (fun h => hu'.1 (mem_double.mp h))]

theorem Reading.exists_pieces {l v : List Char} (hl : IsWire l) (h : Reading l v) :
    ∃ ps, IsPieces ps ∧ ps.flatten = l ∧ ps.flatMap unescape = v := by
  obtain ⟨ps, rfl, rfl⟩ := h
  have hf : (ps.filter (· ≠ [])).flatten = ps.flatten := by
    clear hl
    induction ps with
    | nil => rfl
    | cons p ps ih => by_cases hp : p = [] <;> simp_all
  refine ⟨ps.filter (· ≠ []), ⟨by simp, hf ▸ hl⟩, hf, ?_⟩
  clear hf hl
  induction ps with
  | nil => rfl
  | cons p ps ih => by_cases hp : p = [] <;> simp_all [unescape]

theorem exists_pieces {ls vs : List (List Char)} (hls : ∀ l ∈ ls, IsWire l)
    (h : List.Forall₂ Reading ls vs) :
    ∃ pss : List (List (List Char)), (∀ ps ∈ pss, IsPieces ps) ∧
      pss.map List.flatten = ls ∧ pss.map (List.flatMap unescape) = vs := by
  induction h with
  | nil => exact ⟨[], by simp, rfl, rfl⟩
  | cons hv _ ih =>
      obtain ⟨pss, h, rfl, rfl⟩ := ih fun l hl => hls l (List.mem_cons_of_mem _ hl)
      obtain ⟨ps, hps, rfl, rfl⟩ := hv.exists_pieces (hls _ List.mem_cons_self)
      exact ⟨ps :: pss, List.forall_mem_cons.mpr ⟨hps, h⟩, rfl, rfl⟩

theorem buffers_pieces {pss : List (List (List Char))} (h : ∀ ps ∈ pss, IsPieces ps) :
    Buffers 1022 (wireText (pss.map List.flatten)) (pss.flatMap pieces) := by
  have hb : ∀ b ∈ pss.flatMap pieces, b = ['\n'] ∨ ∃ ps ∈ pss, b ∈ ps := by
    intro b hb
    obtain ⟨ps, hps, hb⟩ := List.mem_flatMap.mp hb
    rcases List.mem_append.mp hb with hb | hb
    · exact .inr ⟨ps, hps, hb⟩
    · exact .inl (List.mem_singleton.mp hb)
  refine ⟨?_, fun b hbm => ?_, fun b hbm => ?_⟩
  · clear h hb
    induction pss with
    | nil => rfl
    | cons ps pss ih => simp [pieces, wireText] at ih ⊢; rw [ih]
  · rcases hb b hbm with rfl | ⟨ps, hps, hbp⟩
    · simp
    · exact (h ps hps).ne b hbp
  · rcases hb b hbm with rfl | ⟨ps, hps, hbp⟩
    · simp
    · exact ((List.sublist_flatten_of_mem hbp).length_le).trans (h ps hps).wire.fits

/-- **There are buffers for every reading.** -/
theorem exists_buffers (x : Snarfers α β τ) {ls vs : List (List Char)}
    (hls : ∀ l ∈ ls, IsWire l) (hvs : List.Forall₂ Reading ls vs) :
    ∃ bs, Buffers 1022 (wireText (ls ++ [endCal])) bs ∧
      ∀ is c, Through x (.fresh x) vs is c → icalRun x none bs = is := by
  obtain ⟨pss, hpss, rfl, rfl⟩ := exists_pieces hls hvs
  have hend : IsPieces [endCal] := by
    refine ⟨List.forall_mem_singleton.mpr (by decide), ?_⟩
    rw [List.flatten_cons, List.flatten_nil, List.append_nil]
    exact isWire_endCal
  have hall : ∀ ps ∈ pss ++ [[endCal]], IsPieces ps := by
    intro ps hps
    rcases List.mem_append.mp hps with h | h
    · exact hpss ps h
    · exact List.mem_singleton.mp h ▸ hend
  have hlines : (pss ++ [[endCal]]).map List.flatten = pss.map List.flatten ++ [endCal] := by
    rw [List.map_append, List.map_singleton, List.flatten_cons, List.flatten_nil,
      List.append_nil]
  have hread : (pss ++ [[endCal]]).map (List.flatMap unescape) =
      pss.map (List.flatMap unescape) ++ [endCal] := by
    rw [List.map_append, List.map_singleton, List.flatMap_cons, List.flatMap_nil,
      List.append_nil, unescape_verbatim verbatim_endCal]
  refine ⟨(pss ++ [[endCal]]).flatMap pieces, hlines ▸ buffers_pieces hall, ?_⟩
  intro is c ht
  obtain ⟨ps, pss', he⟩ : ∃ ps pss', pss ++ [[endCal]] = ps :: pss' :=
    List.exists_cons_of_ne_nil (by simp)
  rw [he] at hall hread ⊢
  have hps := hall ps List.mem_cons_self
  have hfits : ps.flatten.length ≤ 1022 := hps.wire.fits
  have hlen : (ps.flatMap unescape).length ≤ ps.flatten.length := by
    rw [List.length_flatMap, List.length_flatten]
    exact List.sum_le_sum fun p _ => length_unescape p
  obtain ⟨p, ps, rfl⟩ : ∃ p ps', ps = p :: ps' := by
    refine List.exists_cons_of_ne_nil fun h0 => ?_
    obtain ⟨a, t, hs, -⟩ := hps.wire.start
    simp [h0] at hs
  have hp := hps.ne p List.mem_cons_self
  have hw : IsWire (p ++ ps.flatten) := hps.wire
  have hrun := icalRun_pieces (x := x) (.fresh x) (u := []) (by simp) hps.not_mem
    (by simpa using hfits) (pss'.flatMap pieces) []
  rw [List.flatMap_cons, pieces, List.append_assoc, List.singleton_append, List.cons_append,
    icalRun_fresh x hp]
  refine hrun.trans (icalRun_cut pss' (fun ps h => hall ps (List.mem_cons_of_mem _ h))
    (by simp [not_mem_unescape]) ?_ ?_ hread ht (fun t => lineInstruc_endCal x c)
    (isOpen_newline (s := []) (by simp)))
  · simp [hw.unescape_ne hp]
  · exact hlen.trans hfits

/-! ### Calendars -/

theorem through_vtod (g : IcalVevent α β) {ls : List (List Char)} (h : ∀ l ∈ ls, IsProp l)
    (v : IcalVevent α β) : Through x ⟨.vtod, v, g⟩ ls [] ⟨.vtod, ls.foldl (applyFld x) v, g⟩ := by
  induction ls generalizing v with
  | nil => exact .nil
  | cons l ls ih =>
      exact .null (procLine_vtod x v g (h l List.mem_cons_self))
        (ih (fun l hl => h l (List.mem_cons_of_mem _ hl)) _)

theorem through_vcal (v : IcalVevent α β) {ls : List (List Char)} (h : ∀ l ∈ ls, IsProp l)
    (g : IcalVevent α β) : Through x ⟨.vcal, v, g⟩ ls [] ⟨.vcal, v, ls.foldl (applyPro x) g⟩ := by
  induction ls generalizing g with
  | nil => exact .nil
  | cons l ls ih =>
      exact .null (procLine_vcal x v g (h l List.mem_cons_self))
        (ih (fun l hl => h l (List.mem_cons_of_mem _ hl)) _)

/-- The instruction of a component. -/
def Comp.instruc (x : Snarfers α β τ) (g : IcalVevent α β) (k : Comp) : EchsInstruc τ :=
  icalInstruc x g.meth (k.vevent x g)

theorem through_comp (v g : IcalVevent α β) {k : Comp} (hk : (k.instruc x g).v ≠ .unk) :
    Through x ⟨.vcal, v, g⟩ k.text [k.instruc x g] ⟨.vcal, k.vevent x g, g⟩ := by
  have hb := procLine_begin x v g k.kind
  have he := procLine_end x (k.lines.foldl (applyFld x)
    { IcalVevent.zero x with t := g.t, cal := g.cal }) g k.kind
  exact .null hb ((through_vtod g k.props _).append (.ve he hk .nil))

theorem through_comps (g : IcalVevent α β) {ks : List Comp}
    (h : ∀ k ∈ ks, (k.instruc x g).v ≠ .unk) (v : IcalVevent α β) :
    ∃ v', Through x ⟨.vcal, v, g⟩ (ks.flatMap Comp.text) (ks.map (Comp.instruc x g))
      ⟨.vcal, v', g⟩ := by
  induction ks generalizing v with
  | nil => exact ⟨v, .nil⟩
  | cons k ks ih =>
      obtain ⟨v', ht⟩ := ih (fun k hk => h k (List.mem_cons_of_mem _ hk)) (k.vevent x g)
      exact ⟨v', (through_comp v g (h k List.mem_cons_self)).append ht⟩

/-- The lines of a calendar but for the last. -/
def Calendar.body (cal : Calendar) : List (List Char) :=
  "BEGIN:VCALENDAR".toList :: cal.lines ++ cal.comps.flatMap Comp.text

theorem Calendar.text_eq (cal : Calendar) : cal.text = cal.body ++ [endCal] := rfl

/-- **The parser gets through a calendar** whose components have an instruction each. -/
theorem through_calendar {c : IcalCtx α β} (hc : c.st = .unk) {cal : Calendar}
    (h : ∀ k ∈ cal.comps, (k.instruc x (cal.glob x)).v ≠ .unk) :
    ∃ v, Through x c cal.body (cal.comps.map (Comp.instruc x (cal.glob x)))
      ⟨.vcal, v, cal.glob x⟩ := by
  have hb : c.procLine x "BEGIN:VCALENDAR".toList [] = (.null, ⟨.vcal, c.ve, .zero x⟩) := by
    rw [procLine_eq, hc]
    rfl
  obtain ⟨v, hv⟩ := through_comps (cal.glob x) h c.ve
  exact ⟨v, .null hb ((through_vcal c.ve cal.props _).append hv)⟩

/-! ### A text in one buffer -/

/-- A text is made up of complete lines, which are read to these. -/
inductive TextOf : List Char → List (List Char) → Prop
  | nil : TextOf [] []
  | cons {s l r ls} (hc : chop s = some (l, r))
      (hl : unescape l ≠ [] ∧ (unescape l).length < stashSize) (h : TextOf r ls) :
      TextOf s (unescape l :: ls)

theorem TextOf.ne_nil {s : List Char} {ls : List (List Char)} (h : TextOf s ls)
    (hls : ls ≠ []) : s ≠ [] := by
  rintro rfl
  cases h with
  | nil => exact hls rfl
  | cons hc => simp [chop] at hc

theorem TextOf.lines {s : List Char} {ls : List (List Char)} (h : TextOf s ls) :
    ∀ l ∈ ls, '\n' ∉ l ∧ '\r' ∉ l := by
  induction h with
  | nil => simp
  | cons _ _ _ ih => exact List.forall_mem_cons.mpr ⟨not_mem_unescape _, ih⟩

/-- Lines that are read as they are, each with its newline. -/
theorem textOf_wireText {ls : List (List Char)} (h : ∀ l ∈ ls, plainLine l = true) :
    TextOf (wireText ls) ls := by
  induction ls with
  | nil => exact .nil
  | cons l ls ih =>
      have ih := ih fun l hl => h l (List.mem_cons_of_mem _ hl)
      obtain ⟨hv, hw⟩ := of_plainLine (h l List.mem_cons_self)
      have hb : blankAt (wireText ls) = false := by
        rcases ls with _ | ⟨k, ls⟩
        · rfl
        · exact Wire.blankAt_wireText (of_plainLine (h k (by simp))).2 
            (ih.ne_nil (by simp)) (List.append_nil _)
      have hc : chop (wireText (l :: ls)) = some (l ++ ['\n'], wireText ls) := by
        rw [wireText, List.flatMap_cons, List.append_assoc]
        exact chop_line hw.single hb
      have hu : unescape (l ++ ['\n']) = l := by
        rw [unescape_newline hw.single, unescape_verbatim hv]
      have hl : unescape (l ++ ['\n']) ≠ [] ∧ (unescape (l ++ ['\n'])).length < stashSize := by
        rw [hu]
        obtain ⟨c, t, hs, -⟩ := hw.start
        exact ⟨by simp [hs], hw.fits.trans_lt (by decide)⟩
      have := TextOf.cons hc hl ih
      rwa [hu] at this

theorem TextOf.reads {c c' : IcalCtx α β} {vs : List (List Char)} {is : List (EchsInstruc τ)}
    (ht : Through x c vs is c') {s e : List Char} (h : TextOf s (vs ++ [e])) :
    ∃ t, Reads x c s is c' t := by
  induction ht generalizing s with
  | nil =>
      cases h with
      | cons hc _ h =>
          cases h
          refine ⟨s, .done fun l r hl => ?_⟩
          rw [hc] at hl
          exact (Prod.mk.inj (Option.some.inj hl)).2.symm
  | @null c v c₁ vs is c₂ hp _ ih =>
      cases h with
      | cons hc hl h =>
          obtain ⟨t, hr⟩ := ih h
          exact ⟨t, .null hc (h.ne_nil (by simp)) hl hp hr⟩
  | @ve c v w c₁ vs is c₂ hp hv _ ih =>
      cases h with
      | cons hc hl h =>
          obtain ⟨t, hr⟩ := ih h
          exact ⟨t, .ve hc (h.ne_nil (by simp)) hl hp hv hr⟩

/-- **A text in one buffer**: the instructions of all but its last line are pulled. -/
theorem TextOf.pulled {c : IcalCtx α β} {vs : List (List Char)} {is : List (EchsInstruc τ)}
    (ht : Through x (.fresh x) vs is c) {s e : List Char} (h : TextOf s (vs ++ [e])) :
    (pullAll x (echsEvicalPush x none s)).1 = is := by
  have hs : s ≠ [] := h.ne_nil (by simp)
  obtain ⟨t, hr⟩ := h.reads ht
  have hp := hr.pulled []
  rw [List.append_nil, List.append_nil] at hp
  have hn := pull_held_open x c open_nil (joinOk_nil t) (hr.length_le.2 hs)
    (by simpa using hr.isOpen)
  rw [push_fresh hs, hp, pullAll_null hn, List.append_nil]

/-! ### Readers -/

theorem pullWhile_eq {ok : InsVerb → Bool} (hok : ok .unk = false) (n : Nat)
    (p : Option (IcalParser α β)) (h : ∀ i ∈ (pullUntil x n p).1, ok i.v = true) :
    pullWhile x ok n p = pullUntil x n p := by
  induction n generalizing p with
  | zero => rfl
  | succ n ih =>
      rw [pullUntil] at h
      rw [pullWhile, pullUntil]
      dsimp only at h ⊢
      by_cases hu : (echsEvicalPull x p).1.v = .unk
      · rw [if_neg (by simp [hu, hok]), if_pos hu]
      · rw [if_neg hu] at h
        rw [if_pos (h _ List.mem_cons_self), if_neg hu,
          ih _ fun i hi => h i (List.mem_cons_of_mem _ hi)]

/-- Where all instructions are of some kind, a reader that wants these gets all there is. -/
theorem buffersWhile_eq {ok : InsVerb → Bool} (hok : ok .unk = false) {bs : List (List Char)}
    (p : Option (IcalParser α β)) (h : ∀ i ∈ icalRun x p bs, ok i.v = true) :
    (buffersWhile x ok p bs).1 ++
      [echsEvicalLastPull x (buffersWhile x ok p bs).2].filter (ok ·.v) = icalRun x p bs := by
  induction bs generalizing p with
  | nil =>
      rw [icalRun] at h
      rw [buffersWhile, icalRun, List.nil_append]
      by_cases hu : (echsEvicalLastPull x p).v = .unk
      · simp [hu, hok]
      · have hr := h (echsEvicalLastPull x p) (by simp [hu])
        simp [hu, hr]
  | cons b bs ih =>
      rw [icalRun_cons] at h
      have hd : ∀ i ∈ (pullAll x (echsEvicalPush x p b)).1, ok i.v = true :=
        fun i hi => h i (List.mem_append_left _ hi)
      have hp := pullWhile_eq hok _ _ hd
      rw [icalRun_cons, buffersWhile, hp, List.append_assoc]
      exact congrArg _ (ih _ fun i hi => h i (List.mem_append_right _ hi))

end

end Echse
