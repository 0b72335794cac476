/-
Calendars line by line.

A calendar is its own lines and then its components, and a component is the lines between
a `BEGIN` and an `END`.  The lines are taken as they are in the stash.  None of them begins
or ends anything; what they are otherwise is open, and a line that cannot be read does
nothing.  The parser makes one component of each, from its lines and those of the calendar.
-/
import Echse.Parser

namespace Echse

/-! ### Lines -/

/-- What `_ical_proc` makes of a line: the field, the memory at `eofld` and at `vp`, and the
number of bytes from there on. -/
def parseLine (l : List Char) : Option (IcalFld × List Char × List Char × Nat) :=
  let sp := l.takeWhile (· ≠ '\x00')
  let key := sp.takeWhile fun c => c ≠ ':' && c ≠ ';'
  match evicalFld key, (sp.drop key.length).dropWhile (· ≠ ':') with
  | some fld, _ :: v =>
      let off := sp.length - v.length
      some (fld, l.drop key.length, l.drop off, l.length - off)
  | _, _ => none

/-- What can be checked of every character of a text. -/
theorem forall_mem_of_all {p : Char → Prop} [DecidablePred p] {l : List Char}
    (h : l.all (fun c => decide (p c)) = true) : ∀ c ∈ l, p c :=
  fun c hc => of_decide_eq_true (List.all_eq_true.mp h c hc)

/-- A line that starts with a keyword. -/
theorem parseLine_keyed {key : List Char} (hk : ∀ c ∈ key, c ≠ ':' ∧ c ≠ ';' ∧ c ≠ '\x00')
    (v : List Char) :
    parseLine (key ++ ':' :: v) = (evicalFld key).map fun f => (f, ':' :: v, v, v.length) := by
  have hsp : (key ++ ':' :: v).takeWhile (· ≠ '\x00') = key ++ ':' :: v.takeWhile (· ≠ '\x00') := by
    rw [List.takeWhile_append_of_pos fun c hc => by simpa using (hk c hc).2.2]
    rfl
  have hkey : (key ++ ':' :: v.takeWhile (· ≠ '\x00')).takeWhile (fun c => c ≠ ':' && c ≠ ';') =
      key := by
    rw [List.takeWhile_append_of_pos fun c hc => by simp [hk c hc]]
    simp
  rw [parseLine, hsp]
  dsimp only
  rw [hkey, List.drop_left, List.drop_left]
  have hd : (':' :: v.takeWhile (· ≠ '\x00')).dropWhile (· ≠ ':') =
      ':' :: v.takeWhile (· ≠ '\x00') := rfl
  have hoff : (key ++ ':' :: v.takeWhile (· ≠ '\x00')).length -
      (v.takeWhile (· ≠ '\x00')).length = key.length + 1 := by
    rw [List.length_append, List.length_cons]
    omega
  rw [hd]
  rcases evicalFld key with _ | f
  · rfl
  · have hdrop : (key ++ ':' :: v).drop (key.length + 1) = v := by
      rw [← List.drop_drop, List.drop_left]
      rfl
    have hz : (key ++ ':' :: v).length - (key.length + 1) = v.length := by
      rw [List.length_append, List.length_cons]
      omega
    simp only [Option.map_some, hoff, hdrop, hz]

/-- A line of the stash that neither begins nor ends a component. -/
def IsProp (l : List Char) : Prop :=
  ∀ r, parseLine l = some r → r.1 ≠ .begin_ ∧ r.1 ≠ .end_

theorem isProp_keyed {k : List Char} (hk : ∀ c ∈ k, c ≠ ':' ∧ c ≠ ';' ∧ c ≠ '\x00')
    (h : evicalFld k ≠ some .begin_ ∧ evicalFld k ≠ some .end_) (v : List Char) :
    IsProp (k ++ ':' :: v) := by
  intro r hr
  rw [parseLine_keyed hk] at hr
  obtain ⟨f, hf, rfl⟩ := Option.map_eq_some_iff.mp hr
  exact ⟨fun h0 => h.1 (hf.trans (congrArg some h0)), fun h0 => h.2 (hf.trans (congrArg some h0))⟩

section

variable {α β τ : Type} (x : Snarfers α β τ)

theorem procLine_eq (p : IcalCtx α β) (l : List Char) :
    p.procLine x l [] =
      match parseLine l with
      | none => (.null, p)
      | some (fld, eof, vp, z) =>
          let comp := evicalComp (vp.take z)
          match p.st with
          | .unk => p.procUnk x fld comp
          | .voth d => p.procVoth d fld comp
          | .vcal => p.procVcal x fld comp vp z
          | .vtod => p.procVtod x fld comp eof vp z := by
  simp only [IcalCtx.procLine, parseLine, List.append_nil]
  generalize evicalFld _ = f
  generalize List.dropWhile _ _ = d
  rcases f with _ | f <;> rcases d with _ | ⟨a, v⟩ <;> rfl

/-- A line in a component. -/
def applyFld (ve : IcalVevent α β) (l : List Char) : IcalVevent α β :=
  match parseLine l with
  | none => ve
  | some (fld, eof, vp, z) => x.snarfFld ve fld eof vp z

/-- A line of the calendar. -/
def applyPro (ve : IcalVevent α β) (l : List Char) : IcalVevent α β :=
  match parseLine l with
  | none => ve
  | some (fld, _, vp, z) => x.snarfPro ve fld vp z

theorem procLine_vtod (v g : IcalVevent α β) {l : List Char} (h : IsProp l) :
    IcalCtx.procLine x ⟨.vtod, v, g⟩ l [] = (.null, ⟨.vtod, applyFld x v l, g⟩) := by
  rw [procLine_eq, applyFld]
  rcases hl : parseLine l with _ | ⟨fld, eof, vp, z⟩
  · rfl
  · obtain ⟨hb, he⟩ := h _ hl
    cases fld <;> first | exact absurd rfl hb | exact absurd rfl he | rfl

theorem procLine_vcal (v g : IcalVevent α β) {l : List Char} (h : IsProp l) :
    IcalCtx.procLine x ⟨.vcal, v, g⟩ l [] = (.null, ⟨.vcal, v, applyPro x g l⟩) := by
  rw [procLine_eq, applyPro]
  rcases hl : parseLine l with _ | ⟨fld, eof, vp, z⟩
  · rfl
  · obtain ⟨hb, he⟩ := h _ hl
    cases fld <;> first | exact absurd rfl hb | exact absurd rfl he | rfl

/-! ### Calendars -/

/-- `VEVENT` or `VTODO`. -/
inductive CompKind where
  | vevent | vtodo
deriving DecidableEq, Repr

def CompKind.text : CompKind → List Char
  | .vevent => "VEVENT".toList
  | .vtodo => "VTODO".toList

/-- A component: what it is and its lines. -/
structure Comp where
  kind : CompKind
  lines : List (List Char)
  props : ∀ l ∈ lines, IsProp l

/-- A calendar: its own lines and its components. -/
structure Calendar where
  lines : List (List Char)
  comps : List Comp
  props : ∀ l ∈ lines, IsProp l

def Comp.text (k : Comp) : List (List Char) :=
  ("BEGIN:".toList ++ k.kind.text) :: k.lines ++ ["END:".toList ++ k.kind.text]

def Calendar.text (c : Calendar) : List (List Char) :=
  "BEGIN:VCALENDAR".toList :: c.lines ++ c.comps.flatMap Comp.text ++ ["END:VCALENDAR".toList]

/-- Process lines up to the end of a calendar: the components, and the context after it. -/
def procLines : IcalCtx α β → List (List Char) → List (IcalVevent α β) × IcalCtx α β
  | c, [] => ([], c)
  | c, l :: ls =>
      match c.procLine x l [] with
      | (.null, c) => procLines c ls
      | (.ve v, c) => (v :: (procLines c ls).1, (procLines c ls).2)
      | (.eop, c) => ([], c)

/-- What a component is read to, given what the calendar is. -/
def Comp.vevent (g : IcalVevent α β) (k : Comp) : IcalVevent α β :=
  IcalCtx.inherit_
    (k.lines.foldl (applyFld x) { IcalVevent.zero x with t := g.t, cal := g.cal }) g

/-- What the lines of a calendar are read to. -/
def Calendar.glob (c : Calendar) : IcalVevent α β := c.lines.foldl (applyPro x) (.zero x)

theorem procLines_vtod (g : IcalVevent α β) (ls rest : List (List Char))
    (h : ∀ l ∈ ls, IsProp l) (v : IcalVevent α β) :
    procLines x ⟨.vtod, v, g⟩ (ls ++ rest) =
      procLines x ⟨.vtod, ls.foldl (applyFld x) v, g⟩ rest := by
  induction ls generalizing v with
  | nil => rfl
  | cons l ls ih =>
      rw [List.cons_append, procLines, procLine_vtod x v g (h l (by simp))]
      exact ih (fun l hl => h l (by simp [hl])) _

theorem procLines_vcal (v : IcalVevent α β) (ls rest : List (List Char))
    (h : ∀ l ∈ ls, IsProp l) (g : IcalVevent α β) :
    procLines x ⟨.vcal, v, g⟩ (ls ++ rest) =
      procLines x ⟨.vcal, v, ls.foldl (applyPro x) g⟩ rest := by
  induction ls generalizing g with
  | nil => rfl
  | cons l ls ih =>
      rw [List.cons_append, procLines, procLine_vcal x v g (h l (by simp))]
      exact ih (fun l hl => h l (by simp [hl])) _

theorem procLine_begin (v g : IcalVevent α β) (k : CompKind) :
    IcalCtx.procLine x ⟨.vcal, v, g⟩ ("BEGIN:".toList ++ k.text) [] =
      (.null, ⟨.vtod, { IcalVevent.zero x with t := g.t, cal := g.cal }, g⟩) := by
  rw [procLine_eq]
  cases k <;> rfl

theorem procLine_end (v g : IcalVevent α β) (k : CompKind) :
    IcalCtx.procLine x ⟨.vtod, v, g⟩ ("END:".toList ++ k.text) [] =
      (.ve (IcalCtx.inherit_ v g), ⟨.vcal, IcalCtx.inherit_ v g, g⟩) := by
  rw [procLine_eq]
  cases k <;> rfl

/-- A component is read to one, and leaves the calendar as it was. -/
theorem procLines_comp (v g : IcalVevent α β) (k : Comp) (rest : List (List Char)) :
    procLines x ⟨.vcal, v, g⟩ (k.text ++ rest) =
      (k.vevent x g :: (procLines x ⟨.vcal, k.vevent x g, g⟩ rest).1,
        (procLines x ⟨.vcal, k.vevent x g, g⟩ rest).2) := by
  rw [Comp.text, List.cons_append, List.cons_append, List.append_assoc, procLines,
    procLine_begin]
  simp only
  rw [procLines_vtod x g _ _ k.props, List.singleton_append, procLines, procLine_end]
  rfl

theorem procLines_comps (g : IcalVevent α β) (ks : List Comp) (rest : List (List Char))
    (v : IcalVevent α β) :
    ∃ v', procLines x ⟨.vcal, v, g⟩ (ks.flatMap Comp.text ++ rest) =
      (ks.map (Comp.vevent x g) ++ (procLines x ⟨.vcal, v', g⟩ rest).1,
        (procLines x ⟨.vcal, v', g⟩ rest).2) := by
  induction ks generalizing v with
  | nil => exact ⟨v, rfl⟩
  | cons k ks ih =>
      obtain ⟨v', h⟩ := ih (k.vevent x g)
      refine ⟨v', ?_⟩
      rw [List.flatMap_cons, List.append_assoc, procLines_comp, h]
      rfl

/-- **A calendar is read to what its components are read to**, each of them by itself. -/
theorem procLines_calendar (c : IcalCtx α β) (hc : c.st = .unk) (cal : Calendar) :
    ∃ v, procLines x c cal.text =
      (cal.comps.map (Comp.vevent x (cal.glob x)), ⟨.unk, v, cal.glob x⟩) := by
  have hb : c.procLine x "BEGIN:VCALENDAR".toList [] = (.null, ⟨.vcal, c.ve, .zero x⟩) := by
    rw [procLine_eq, hc]
    rfl
  obtain ⟨v, hv⟩ := procLines_comps x (cal.glob x) cal.comps ["END:VCALENDAR".toList] c.ve
  refine ⟨v, ?_⟩
  rw [Calendar.text, List.cons_append, List.cons_append, List.append_assoc, procLines, hb]
  simp only
  rw [procLines_vcal x c.ve _ _ cal.props]
  change procLines x ⟨.vcal, c.ve, cal.glob x⟩ _ = _
  have he : procLines x ⟨.vcal, v, cal.glob x⟩ ["END:VCALENDAR".toList] =
      ([], ⟨.unk, v, cal.glob x⟩) := by
    rw [procLines, procLine_eq]
    rfl
  rw [hv, he, List.append_nil]

end

end Echse
