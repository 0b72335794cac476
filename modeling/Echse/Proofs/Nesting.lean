/-
Components that the parser does not know, and the depth of them.

The state number doubles as the depth.  It tells how many components have to end, but not
where the outermost of them began: that is taken to be a calendar.  So a component inside
of one is passed over, down to the depth at which the number wraps around, and one before
any calendar leaves the parser inside of a calendar that has never begun.
-/
import Echse.Proofs.Calendars

namespace Echse

/-- A line that begins or ends a component, and which. -/
def IsMark (fld : IcalFld) (comp : Option IcalComp) (l : List Char) : Prop :=
  ∃ eof vp z, parseLine l = some (fld, eof, vp, z) ∧ evicalComp (vp.take z) = comp

/-- What is inside of a component: properties, and components down to the depth `d`, any of
them but a calendar. -/
inductive Nested : Nat → List (List Char) → Prop where
  | nil : Nested 0 []
  | prop {d : Nat} {l : List Char} {ls : List (List Char)} (hl : IsProp l) (h : Nested d ls) :
      Nested d (l :: ls)
  | comp {d e : Nat} {b e' : Option IcalComp} {lb le : List Char} {xs ys : List (List Char)}
      (hb : IsMark .begin_ b lb) (hbc : b ≠ some .vcal) (he : IsMark .end_ e' le) (hec : e' ≠ some .vcal)
      (hx : Nested d xs) (hy : Nested e ys) : Nested (max (d + 1) e) (lb :: xs ++ le :: ys)

/-- A sequence of unrecognised components, down to the depth `d`. -/
inductive Unknown : Nat → List (List Char) → Prop where
  | nil : Unknown 0 []
  | comp {d e : Nat} {lb le : List Char} {xs ys : List (List Char)} (hb : IsMark .begin_ none lb)
      (he : IsMark .end_ none le) (hx : Nested d xs) (hy : Unknown e ys) :
      Unknown (max (d + 1) e) (lb :: xs ++ le :: ys)

section

variable {α β τ : Type} (x : Snarfers α β τ)

/-- Process lines, whatever comes of them: all that came, and the context after them. -/
def lineRun : IcalCtx α β → List (List Char) → List (IcalRes α β) × IcalCtx α β
  | c, [] => ([], c)
  | c, l :: ls =>
      let r := c.procLine x l []
      let rs := lineRun r.2 ls
      (r.1 :: rs.1, rs.2)

/-- Nothing comes of the lines, and the context is what it was. -/
def PassedOver (c : IcalCtx α β) (ls : List (List Char)) : Prop :=
  (∀ r ∈ (lineRun x c ls).1, r = .null) ∧ (lineRun x c ls).2 = c

/-- Something comes of one of the lines. -/
def Trips (c : IcalCtx α β) (ls : List (List Char)) : Prop := ∃ r ∈ (lineRun x c ls).1, r ≠ .null

theorem lineRun_append (c : IcalCtx α β) (xs ys : List (List Char)) :
    lineRun x c (xs ++ ys) = ((lineRun x c xs).1 ++ (lineRun x (lineRun x c xs).2 ys).1,
      (lineRun x (lineRun x c xs).2 ys).2) := by
  induction xs generalizing c with
  | nil => rfl
  | cons l xs ih =>
      rw [List.cons_append, lineRun]
      simp only [ih]
      rfl

theorem Trips.head {c : IcalCtx α β} {l : List Char} (h : (c.procLine x l []).1 ≠ .null)
    (ls : List (List Char)) : Trips x c (l :: ls) :=
  ⟨_, List.mem_cons_self, h⟩

theorem Trips.cons {c c' : IcalCtx α β} {l : List Char} {r : IcalRes α β}
    (hl : c.procLine x l [] = (r, c')) {ls : List (List Char)} (h : Trips x c' ls) :
    Trips x c (l :: ls) := by
  obtain ⟨r', hr, hne⟩ := h
  refine ⟨r', ?_, hne⟩
  rw [lineRun, hl]
  exact List.mem_cons_of_mem _ hr

theorem Trips.append {c : IcalCtx α β} {xs ys : List (List Char)} (hx : PassedOver x c xs)
    (h : Trips x c ys) : Trips x c (xs ++ ys) := by
  obtain ⟨r, hr, hne⟩ := h
  refine ⟨r, ?_, hne⟩
  rw [lineRun_append, hx.2]
  exact List.mem_append_right _ hr

theorem PassedOver.append {c : IcalCtx α β} {xs ys : List (List Char)} (hx : PassedOver x c xs)
    (hy : PassedOver x c ys) : PassedOver x c (xs ++ ys) := by
  constructor
  · intro r hr
    rw [lineRun_append, hx.2] at hr
    rcases List.mem_append.mp hr with hr | hr
    · exact hx.1 r hr
    · exact hy.1 r hr
  · rw [lineRun_append, hx.2]
    exact hy.2

/-- A component that its own lines are passed over in, from its beginning to its end. -/
theorem PassedOver.enclosed {c c' : IcalCtx α β} {lb le : List Char} {xs : List (List Char)}
    (hb : c.procLine x lb [] = (.null, c')) (hx : PassedOver x c' xs)
    (he : c'.procLine x le [] = (.null, c)) : PassedOver x c (lb :: xs ++ [le]) := by
  have hrun : lineRun x c (lb :: xs ++ [le]) = (.null :: (lineRun x c' xs).1 ++ [.null], c) := by
    rw [List.cons_append, lineRun, hb]
    simp only [lineRun_append, hx.2, lineRun, he]
    rfl
  rw [PassedOver, hrun]
  refine ⟨?_, rfl⟩
  intro r hr
  simp only [List.mem_append, List.mem_cons, List.not_mem_nil, or_false] at hr
  rcases hr with (rfl | hr) | rfl
  · rfl
  · exact hx.1 r hr
  · rfl

/-! ### One line -/

variable {x} {c : IcalCtx α β} {l : List Char} {comp : Option IcalComp}

theorem procLine_mark {fld : IcalFld} (h : IsMark fld comp l) : ∃ eof vp z, c.procLine x l [] =
    match c.st with
    | .unk => c.procUnk x fld comp
    | .voth d => c.procVoth d fld comp
    | .vcal => c.procVcal x fld comp vp z
    | .vtod => c.procVtod x fld comp eof vp z := by
  obtain ⟨eof, vp, z, hl, hc⟩ := h
  have hline := procLine_eq x c l
  rw [hl] at hline
  subst hc
  exact ⟨eof, vp, z, hline⟩

/-- In some other component every line but the marks is skipped. -/
theorem procLine_voth {k : Nat} (hst : c.st = .voth k) (h : IsProp l) :
    c.procLine x l [] = (.null, c) := by
  rw [procLine_eq]
  cases hl : parseLine l with
  | none => rfl
  | some r =>
      obtain ⟨fld, eof, vp, z⟩ := r
      obtain ⟨hb, he⟩ := h _ hl
      simp only [hst]
      cases fld <;> first | exact absurd rfl hb | exact absurd rfl he | rfl

theorem begin_voth {k : Nat} (hst : c.st = .voth k) (h : IsMark .begin_ comp l) :
    c.procLine x l [] = (.null, { c with st := if k + 4 < 2 ^ 32 then .voth (k + 1) else .unk }) := by
  obtain ⟨eof, vp, z, heq⟩ := procLine_mark (x := x) (c := c) h
  rw [heq, hst]
  rfl

/-- The state that the end of a component falls back to. -/
def outerSt : Nat → IcalSt
  | 0 => .vcal
  | k + 1 => .voth k

theorem end_voth {k : Nat} (hst : c.st = .voth k) (h : IsMark .end_ comp l) (hc : comp ≠ some .vcal) :
    c.procLine x l [] = (.null, { c with st := outerSt k }) := by
  obtain ⟨eof, vp, z, heq⟩ := procLine_mark (x := x) (c := c) h
  rw [heq, hst]
  cases k with
  | zero => exact if_neg hc
  | succ k => exact if_neg hc

theorem begin_unk (hst : c.st = .unk) (h : IsMark .begin_ comp l) (hc : comp ≠ some .vcal) :
    c.procLine x l [] = (.null, { c with st := .voth 0 }) := by
  obtain ⟨eof, vp, z, heq⟩ := procLine_mark (x := x) (c := c) h
  rw [heq, hst]
  exact if_neg hc

theorem begin_vcal (hst : c.st = .vcal) (h : IsMark .begin_ none l) :
    c.procLine x l [] = (.null, { c with st := .voth 0 }) := by
  obtain ⟨eof, vp, z, heq⟩ := procLine_mark (x := x) (c := c) h
  rw [heq, hst]
  rfl

/-- What the parser knows begins in the calendar as a component, or is refused. -/
theorem begin_vcal_known {k : IcalComp} (hst : c.st = .vcal) (h : IsMark .begin_ (some k) l) :
    (c.procLine x l []).1 ≠ .null ∨ ∃ c', c.procLine x l [] = (.null, c') ∧ c'.st = .vtod := by
  obtain ⟨eof, vp, z, heq⟩ := procLine_mark (x := x) (c := c) h
  rw [heq, hst]
  cases k with
  | vcal => exact Or.inl (by simp [IcalCtx.procVcal])
  | vjrn => exact Or.inl (by simp [IcalCtx.procVcal])
  | vevt => exact Or.inr ⟨_, rfl, rfl⟩
  | vtod => exact Or.inr ⟨_, rfl, rfl⟩

/-- Outside of any other component an end is not passed over. -/
theorem end_trips (hst : c.st = .unk ∨ c.st = .vcal ∨ c.st = .vtod) (h : IsMark .end_ comp l) :
    (c.procLine x l []).1 ≠ .null := by
  obtain ⟨eof, vp, z, heq⟩ := procLine_mark (x := x) (c := c) h
  rw [heq]
  rcases hst with hst | hst | hst
  · rw [hst]
    simp [IcalCtx.procUnk]
  · rw [hst]
    simp [IcalCtx.procVcal]
  · rw [hst]
    unfold IcalCtx.procVtod
    dsimp only
    split
    · simp
    · simp

/-- A property is either refused or keeps the state. -/
theorem procLine_prop (h : IsProp l) :
    (c.procLine x l []).1 ≠ .null ∨ ∃ c', c.procLine x l [] = (.null, c') ∧ c'.st = c.st := by
  rw [procLine_eq]
  cases hl : parseLine l with
  | none => exact Or.inr ⟨c, rfl, rfl⟩
  | some r =>
      obtain ⟨fld, eof, vp, z⟩ := r
      obtain ⟨hb, he⟩ := h _ hl
      dsimp only
      cases hst : c.st with
      | unk =>
          left
          cases fld <;> first | exact absurd rfl hb | simp [IcalCtx.procUnk]
      | voth d =>
          right
          cases fld <;> first | exact absurd rfl hb | exact absurd rfl he | exact ⟨_, rfl, hst⟩
      | vcal =>
          right
          cases fld <;> first | exact absurd rfl hb | exact absurd rfl he | exact ⟨_, rfl, hst⟩
      | vtod =>
          right
          cases fld <;> first | exact absurd rfl hb | exact absurd rfl he | exact ⟨_, rfl, hst⟩

/-! ### The inside of a component -/

theorem Nested.passed {d k : Nat} {a : List (List Char)} (h : Nested d a) (hst : c.st = .voth k)
    (hd : k + d + 3 < 2 ^ 32) : PassedOver x c a := by
  induction h generalizing c k with
  | nil => exact ⟨fun r hr => absurd hr List.not_mem_nil, rfl⟩
  | prop hl h ih =>
      obtain ⟨h1, h2⟩ := ih hst hd
      rw [PassedOver, lineRun, procLine_voth hst hl]
      exact ⟨List.forall_mem_cons.mpr ⟨rfl, h1⟩, h2⟩
  | @comp d e b e' lb le xs ys hb hbc he hec hx hy ihx ihy =>
      have hin : IcalCtx.procLine x c lb [] = (.null, { c with st := .voth (k + 1) }) := by
        rw [begin_voth hst hb, if_pos (by omega)]
      have hout : IcalCtx.procLine x { c with st := .voth (k + 1) } le [] = (.null, c) := by
        rw [end_voth rfl he hec, outerSt, ← hst]
      have hxs := ihx (c := { c with st := .voth (k + 1) }) (k := k + 1) rfl (by omega)
      have hcomp := PassedOver.enclosed x hin hxs hout
      have hys := ihy hst (by omega)
      have happ := PassedOver.append x hcomp hys
      rw [List.append_assoc, List.singleton_append] at happ
      exact happ

/-- A component that is begun outside of any other, or too deep in others, is not passed over
together with the end of the one around it. -/
theorem Nested.trips {d : Nat} {a : List (List Char)} (h : Nested d a) {comp : Option IcalComp}
    {le : List Char} (he : IsMark .end_ comp le) (rest : List (List Char)) :
    (∀ c : IcalCtx α β, c.st = .unk ∨ c.st = .vcal ∨ c.st = .vtod → Trips x c (a ++ le :: rest)) ∧
      ∀ (c : IcalCtx α β) (k : Nat), c.st = .voth k → k + 3 < 2 ^ 32 → 2 ^ 32 ≤ k + d + 3 →
        Trips x c (a ++ le :: rest) := by
  induction h generalizing comp le rest with
  | nil =>
      refine ⟨fun c hst => Trips.head x (end_trips hst he) rest, ?_⟩
      intro c k _ hlo hhi
      omega
  | @prop d l ls hl h ih =>
      obtain ⟨ihout, ihin⟩ := ih he rest
      constructor
      · intro c hst
        rcases procLine_prop (x := x) (c := c) hl with hne | ⟨c', hc, hst'⟩
        · exact Trips.head x hne _
        · exact Trips.cons x hc (ihout c' (by rw [hst']; exact hst))
      · intro c k hst hlo hhi
        exact Trips.cons x (procLine_voth hst hl) (ihin c k hst hlo hhi)
  | @comp d e b e' lb le' xs ys hb hbc he' hec hx hy ihx ihy =>
      obtain ⟨ihxout, ihxin⟩ := ihx he' (ys ++ le :: rest)
      obtain ⟨ihyout, ihyin⟩ := ihy he rest
      rw [List.append_assoc, List.cons_append, List.cons_append]
      -- from a component of depth 0 the inside is passed over and the calendar comes, or it trips
      have hzero : ∀ c : IcalCtx α β, c.st = .voth 0 →
          Trips x c (xs ++ le' :: (ys ++ le :: rest)) := by
        intro c hst
        by_cases hd : d + 3 < 2 ^ 32
        · refine Trips.append x (hx.passed hst (by omega)) (Trips.cons x (end_voth hst he' hec) ?_)
          exact ihyout _ (Or.inr (Or.inl rfl))
        · exact ihxin c 0 hst (by omega) (by omega)
      constructor
      · intro c hst
        rcases hst with hst | hst | hst
        · exact Trips.cons x (begin_unk hst hb hbc) (hzero _ rfl)
        · cases b with
          | none => exact Trips.cons x (begin_vcal hst hb) (hzero _ rfl)
          | some k =>
              rcases begin_vcal_known (x := x) hst hb with hne | ⟨c', hc, hst'⟩
              · exact Trips.head x hne _
              · exact Trips.cons x hc (ihxout c' (Or.inr (Or.inr hst')))
        · obtain ⟨eof, vp, z, heq⟩ := procLine_mark (x := x) (c := c) hb
          refine Trips.head x ?_ _
          rw [heq, hst]
          simp [IcalCtx.procVtod]
      · intro c k hst hlo hhi
        have hbegin := begin_voth (x := x) hst hb
        by_cases hwrap : k + 4 < 2 ^ 32
        · rw [if_pos hwrap] at hbegin
          refine Trips.cons x hbegin ?_
          by_cases hd : k + 1 + d + 3 < 2 ^ 32
          · refine Trips.append x (hx.passed rfl hd) (Trips.cons x (end_voth rfl he' hec) ?_)
            exact ihyin _ k rfl hlo (by omega)
          · exact ihxin _ (k + 1) rfl (by omega) (by omega)
        · rw [if_neg hwrap] at hbegin
          exact Trips.cons x hbegin (ihxout _ (Or.inl rfl))

/-! ### Sequences of components -/

/-- In a calendar components are passed over if they are not too deep. -/
theorem Unknown.passed {d : Nat} {ls : List (List Char)} (h : Unknown d ls) (hst : c.st = .vcal)
    (hd : d + 2 < 2 ^ 32) : PassedOver x c ls := by
  induction h with
  | nil => exact ⟨fun r hr => absurd hr List.not_mem_nil, rfl⟩
  | @comp d e lb le xs ys hb he hx hy ih =>
      have hout : IcalCtx.procLine x { c with st := .voth 0 } le [] = (.null, c) := by
        rw [end_voth rfl he (by decide), outerSt, ← hst]
      have hxs := hx.passed (x := x) (c := { c with st := .voth 0 }) (k := 0) rfl (by omega)
      have happ := PassedOver.append x (PassedOver.enclosed x (begin_vcal hst hb) hxs hout) (ih (by omega))
      rw [List.append_assoc, List.singleton_append] at happ
      exact happ

/-- From a component of depth 0 on: its inside and the components after it trip, or the parser
is in a calendar afterwards. -/
theorem Unknown.left {d e : Nat} {le : List Char} {xs ys : List (List Char)} (hx : Nested d xs)
    (he : IsMark .end_ none le) (hst : c.st = .voth 0)
    (hy : ∀ c : IcalCtx α β, c.st = .vcal → Trips x c ys ∨ (lineRun x c ys).2.st = .vcal ∧ e + 2 < 2 ^ 32) :
    Trips x c (xs ++ le :: ys) ∨ (lineRun x c (xs ++ le :: ys)).2.st = .vcal ∧ max (d + 1) e + 2 < 2 ^ 32 := by
  by_cases hd : d + 3 < 2 ^ 32
  · have hxs := hx.passed (x := x) hst (by omega)
    have hend := end_voth (x := x) hst he (by decide)
    rcases hy { c with st := .vcal } rfl with htrip | ⟨hlast, hy⟩
    · exact Or.inl (Trips.append x hxs (Trips.cons x hend htrip))
    · refine Or.inr ⟨?_, by omega⟩
      rw [lineRun_append, hxs.2, lineRun, hend]
      exact hlast
  · exact Or.inl ((hx.trips he ys).2 c 0 hst (by omega) (by omega))

theorem Unknown.vcal {d : Nat} {ls : List (List Char)} (h : Unknown d ls) (c : IcalCtx α β)
    (hst : c.st = .vcal) : Trips x c ls ∨ (lineRun x c ls).2.st = .vcal ∧ d + 2 < 2 ^ 32 := by
  induction h generalizing c with
  | nil => exact Or.inr ⟨hst, by decide⟩
  | @comp d e lb le xs ys hb he hx hy ih =>
      have hbegin := begin_vcal (x := x) hst hb
      rcases Unknown.left (x := x) hx he (c := { c with st := .voth 0 }) rfl ih with htrip | ⟨hlast, hd⟩
      · exact Or.inl (Trips.cons x hbegin htrip)
      · refine Or.inr ⟨?_, hd⟩
        rw [List.cons_append, lineRun, hbegin]
        exact hlast

/-- **Unrecognised components before or in a calendar are passed over just if there are none, or
if they are in one and the state number does not wrap around.** -/
theorem unknown_passedOver_iff {d : Nat} {ls : List (List Char)} (h : Unknown d ls)
    (hst : c.st = .unk ∨ c.st = .vcal) :
    PassedOver x c ls ↔ ls = [] ∨ (c.st = .vcal ∧ d + 2 < 2 ^ 32) := by
  constructor
  · intro hpass
    have hno : ¬ Trips x c ls := by
      rintro ⟨r, hr, hne⟩
      exact hne (hpass.1 r hr)
    rcases hst with hst | hst
    · cases h with
      | nil => exact Or.inl rfl
      | @comp d e lb le xs ys hb he hx hy =>
          -- the first of them leaves the parser in a calendar
          have hbegin := begin_unk (x := x) hst hb (by decide)
          rcases Unknown.left (x := x) hx he (c := { c with st := .voth 0 }) rfl hy.vcal with
            htrip | ⟨hlast, -⟩
          · exact absurd (Trips.cons x hbegin htrip) hno
          · have hrun : (lineRun x c (lb :: xs ++ le :: ys)).2.st = .vcal := by
              rw [List.cons_append, lineRun, hbegin]
              exact hlast
            rw [hpass.2, hst] at hrun
            cases hrun
    · exact Or.inr ⟨hst, ((h.vcal c hst).resolve_left hno).2⟩
  · rintro (rfl | ⟨hvcal, hd⟩)
    · exact ⟨fun r hr => absurd hr List.not_mem_nil, rfl⟩
    · exact h.passed hvcal hd

end

/-- Snarfers that leave everything as it is. -/
def deafSnarfers : Snarfers Unit Unit Unit where
  zeroTask := ()
  zeroVevent := ()
  snarfPro ve _ _ _ := ve
  snarfFld ve _ _ _ _ := ve
  makeTask _ := ()

/-- A time zone with its standard time. -/
def zoneLines : List (List Char) :=
  ["BEGIN:VTIMEZONE".toList, "TZID:Europe/Berlin".toList, "BEGIN:STANDARD".toList,
    "DTSTART:19961027T030000".toList, "END:STANDARD".toList, "END:VTIMEZONE".toList]

theorem isMark_of_any {fld : IcalFld} {comp : Option IcalComp} {l : List Char}
    (h : (parseLine l).any (fun p => p.1 = fld ∧ evicalComp (p.2.2.1.take p.2.2.2) = comp) = true) :
    IsMark fld comp l := by
  obtain ⟨⟨f, eof, vp, z⟩, hp, hmark⟩ := Option.any_eq_true _ _ |>.mp h
  obtain ⟨rfl, hcomp⟩ := of_decide_eq_true hmark
  exact ⟨eof, vp, z, hp, hcomp⟩

theorem zoneLines_unknown : Unknown 2 zoneLines := by
  have htime : Nested 0 ["DTSTART:19961027T030000".toList] :=
    .prop (isProp_keyed (k := "DTSTART".toList) (by simp) (by decide +kernel) _) .nil
  have hstd : Nested (max (0 + 1) 0) ("BEGIN:STANDARD".toList :: ["DTSTART:19961027T030000".toList] ++
      "END:STANDARD".toList :: []) :=
    .comp (b := none) (isMark_of_any (by decide +kernel)) (by simp)
      (@isMark_of_any _ none _ (by decide +kernel)) (by simp) htime .nil
  have hbody : Nested 1 ("TZID:Europe/Berlin".toList :: ("BEGIN:STANDARD".toList ::
      ["DTSTART:19961027T030000".toList] ++ "END:STANDARD".toList :: [])) :=
    .prop (isProp_keyed (k := "TZID".toList) (by simp) (by decide +kernel) _) hstd
  have hzone : Unknown (max (1 + 1) 0) ("BEGIN:VTIMEZONE".toList :: ("TZID:Europe/Berlin".toList ::
      ("BEGIN:STANDARD".toList :: ["DTSTART:19961027T030000".toList] ++ "END:STANDARD".toList :: [])) ++
        "END:VTIMEZONE".toList :: []) :=
    .comp (isMark_of_any (by decide +kernel)) (isMark_of_any (by decide +kernel)) hbody .nil
  exact hzone

/-- In a calendar a time zone is passed over. -/
theorem unknown_passedOver_iff_zone :
    PassedOver deafSnarfers { IcalCtx.fresh deafSnarfers with st := .vcal } zoneLines :=
  (unknown_passedOver_iff zoneLines_unknown (Or.inr rfl)).mpr (Or.inr ⟨rfl, by decide⟩)

/-- Before any calendar it leaves the parser inside of one. -/
theorem unknown_starts_calendar :
    ¬ PassedOver deafSnarfers (IcalCtx.fresh deafSnarfers) zoneLines ∧
      (lineRun deafSnarfers (IcalCtx.fresh deafSnarfers) zoneLines).2.st = .vcal := by
  have hst : (lineRun deafSnarfers (IcalCtx.fresh deafSnarfers) zoneLines).2.st = .vcal := by decide
  refine ⟨?_, hst⟩
  intro hpass
  rw [hpass.2] at hst
  exact absurd hst (by decide)

end Echse
