/-
What the client reads of the daemon's replies.

The text is a calendar with a component for each instruction, and the client gets through
it whatever the names in there are.  So the verbs, their number and their order are right.
The object id is not: for a task to be scheduled the daemon leaves the one of the
instruction unset, and `obint_name` then gives the string that has been interned first.
-/
import Echse.CmdIcal
import Echse.Proofs.Inherit
import Echse.Proofs.RrulParts
import Echse.Proofs.Wire

namespace Echse.Replies

open IcalParser

/-! ### Interned strings -/

section

variable (hash : List Char → UInt32)

/-- The strings after the texts `us` have been interned, from the start. -/
def internAll (us : List (List Char)) : List (List Char) := us.foldl (internObs hash) []

theorem mem_internObs {obs : List (List Char)} {u s : List Char}
    (h : s ∈ internObs hash obs u) : s ∈ obs ∨ (s = u ∧ s.length < 256) := by
  rw [internObs] at h
  split at h
  · exact .inl h
  · rename_i hc
    rcases List.mem_append.mp h with h | h
    · exact .inl h
    · obtain rfl := List.mem_singleton.mp h
      refine .inr ⟨rfl, ?_⟩
      by_contra hl
      exact hc (.inl (by rw [intern, if_pos (.inr (not_lt.mp hl))]))

theorem mem_internAll {us : List (List Char)} {s : List Char} (h : s ∈ internAll hash us) :
    s ∈ us ∧ s.length < 256 := by
  induction us using List.reverseRecOn with
  | nil => simp [internAll] at h
  | append_singleton us u ih =>
      rw [internAll, List.foldl_append] at h
      rcases mem_internObs hash h with h | ⟨rfl, hl⟩
      · exact ⟨List.mem_append_left _ (ih h).1, (ih h).2⟩
      · exact ⟨by simp, hl⟩

/-- The texts that a component has interned. -/
def uidTexts (k : Comp) : List (List Char) :=
  given .uid (fun vp z => some (vp.take z)) k.lines

/-- What is interned by the time that component `i` of a calendar is complete, where it was
`us` before the calendar. -/
def obsAfter (us : List (List Char)) (cal : Calendar) (i : Nat) : List (List Char) :=
  internAll hash (us ++ (cal.comps.take (i + 1)).flatMap uidTexts)

theorem uidTexts_sub {k : Comp} {u : List Char} (h : u ∈ uidTexts k) :
    ∃ l ∈ k.lines, ∀ c ∈ u, c ∈ l := by
  obtain ⟨l, hl, hv⟩ := List.mem_filterMap.mp h
  obtain ⟨⟨f, eof, vp, z⟩, hp, hv⟩ := Option.bind_eq_some_iff.mp hv
  refine ⟨l, hl, fun c hc => ?_⟩
  dsimp only at hv
  split_ifs at hv
  obtain rfl := Option.some.inj hv
  rw [parseLine] at hp
  dsimp only at hp
  split at hp
  · obtain ⟨-, -, rfl, -⟩ : _ ∧ _ ∧ _ ∧ _ := by simpa using hp
    exact List.mem_of_mem_drop (List.mem_of_mem_take hc)
  · simp at hp

/-- A name that is shown, without a newline and not too long. -/
structure IsName (n : List Char) : Prop where
  single : '\n' ∉ n
  le : n.length ≤ 255

theorem isName_autoUid (hx : Nat) : IsName (autoUid hx) := by
  have hh : ∀ m < 16, u2h m ≠ '\n' := by decide
  have hn : ∀ a b : List Char, '\n' ∉ a ∧ a.length = 16 → '\n' ∉ b ∧ b.length = 6 →
      IsName (a ++ (List.range 8).reverse.map (fun j => u2h (hx / 16 ^ j % 16)) ++ b) := by
    intro a b ha hb
    refine ⟨fun h => ?_, by simp [ha, hb]⟩
    rw [List.mem_append, List.mem_append] at h
    rcases h with (h | h) | h
    · exact ha.1 h
    · obtain ⟨j, -, hj⟩ := List.mem_map.mp h
      exact hh _ (Nat.mod_lt _ (by decide)) hj
    · exact hb.1 h
  exact hn _ _ (by decide) (by decide)

theorem isName_cStr {s : List Char} (h : '\n' ∉ s ∧ s.length < 256) : IsName (cStr s) := by
  have hs : (cStr s).Sublist s := List.takeWhile_sublist _
  exact ⟨fun hn => h.1 (hs.subset hn), hs.length_le.trans (Nat.le_of_lt_succ h.2)⟩

theorem isName_obintName {obs : List (List Char)} (h : ∀ s ∈ obs, '\n' ∉ s ∧ s.length < 256)
    (hx : Nat) : IsName (fmtS (obintName hash obs hx)) := by
  rw [obintName]
  split
  · rcases obs with _ | ⟨s, obs⟩
    · exact ⟨by decide, by decide⟩
    · exact isName_cStr (h s List.mem_cons_self)
  · rcases hf : obs.find? fun s => obint hash s = hx with _ | s
    · exact isName_autoUid hx
    · exact isName_cStr (h s (List.mem_of_find?_eq_some hf))

end

/-! ### The text -/

/-- What a component of the replies is made of. -/
structure Rpl where
  name : List Char
  stmp : List Char
  ok : Bool

def statusLine (ok : Bool) : List Char :=
  if ok then "REQUEST-STATUS:2.0;Success".toList
  else "REQUEST-STATUS:5.1;Service unavailable".toList

def Rpl.lines (r : Rpl) : List (List Char) :=
  ["UID".toList ++ ':' :: r.name, "DTSTAMP".toList ++ ':' :: r.stmp, "ATTENDEE:echse".toList,
    statusLine r.ok]

theorem Rpl.props (r : Rpl) : ∀ l ∈ r.lines, IsProp l := by
  have hu : IsProp ("UID".toList ++ ':' :: r.name) :=
    isProp_keyed (forall_mem_of_all (by decide)) (by decide) _
  have hs : IsProp ("DTSTAMP".toList ++ ':' :: r.stmp) :=
    isProp_keyed (forall_mem_of_all (by decide)) (by decide) _
  have ha : IsProp "ATTENDEE:echse".toList :=
    isProp_keyed (k := "ATTENDEE".toList) (forall_mem_of_all (by decide)) (by decide) _
  have ht : IsProp (statusLine r.ok) := by
    rw [statusLine]
    split
    · exact isProp_keyed (k := "REQUEST-STATUS".toList) (forall_mem_of_all (by decide))
        (by decide) _
    · exact isProp_keyed (k := "REQUEST-STATUS".toList) (forall_mem_of_all (by decide))
        (by decide) _
  intro l hl
  simp only [Rpl.lines, List.mem_cons, List.not_mem_nil, or_false] at hl
  rcases hl with rfl | rfl | rfl | rfl
  · exact hu
  · exact hs
  · exact ha
  · exact ht

def Rpl.comp (r : Rpl) : Comp := ⟨.vevent, r.lines, r.props⟩

/-- The calendar that a list of replies makes up. -/
def rplCal (rs : List Rpl) : Calendar where
  lines := ["METHOD:REPLY".toList]
  comps := rs.map Rpl.comp
  props := by
    intro l hl
    obtain rfl := List.mem_singleton.mp hl
    exact isProp_keyed (k := "METHOD".toList) (forall_mem_of_all (by decide)) (by decide) _

section

variable (hash : List Char → UInt32) (obs : Nat → List (List Char)) (w : CmdEnv)

/-- The instruction has been carried out. -/
def done_ (i : Nat) (ins : EchsInstruc FullTask) : Bool :=
  match ins.t with
  | some t => w.inject i t
  | none => w.eject i ins.o

/-- The replies to the instructions from number `i` on. -/
def rpls : Nat → List (EchsInstruc FullTask) → RplState → List Rpl
  | _, [], _ => []
  | i, ins :: is, st =>
      ⟨fmtS (obintName hash (obs i) ins.o), (st.tick (w.time i)).stmp, done_ w i ins⟩ ::
        rpls (i + 1) is { st.tick (w.time i) with nrpl := st.nrpl + 1 }

/-- An instruction of a request: schedule a task, or cancel one. -/
def IsRequest (ins : EchsInstruc FullTask) : Prop :=
  (ins.v = .sche ∧ ∃ t, ins.t = some t) ∨ (ins.v = .unsc ∧ ins.t = none)

theorem tick_nrpl (st : RplState) (tmp : Nat) : (st.tick tmp).nrpl = st.nrpl := by
  rw [RplState.tick]
  split <;> rfl

theorem rplHdr_eq : rplHdr = "BEGIN:VCALENDAR".toList ++ ['\n'] := by decide

theorem rplRpl_eq : rplRpl = "METHOD:REPLY".toList ++ ['\n'] := by decide

theorem rplFtr_eq : rplFtr = endCal ++ ['\n'] := by decide

theorem rplVeh_eq : rplVeh = "BEGIN:VEVENT".toList ++ ['\n'] := by decide

theorem rplVef_eq : rplVef = "END:VEVENT".toList ++ ['\n'] := by decide

theorem rplStatus_eq (ok : Bool) :
    rplStatus (if ok then .resc else .unsc) = statusLine ok ++ ['\n'] := by
  cases ok <;> decide +kernel

theorem wireText_append (ls ms : List (List Char)) :
    wireText (ls ++ ms) = wireText ls ++ wireText ms := List.flatMap_append

theorem wireText_comp (r : Rpl) :
    wireText r.comp.text = rplVeh ++ ("UID:".toList ++ r.name ++ ['\n']) ++
      ("DTSTAMP:".toList ++ r.stmp ++ ['\n']) ++ "ATTENDEE:echse\n".toList ++
      (statusLine r.ok ++ ['\n']) ++ rplVef := by
  have hu : ∀ n : List Char, "UID:".toList ++ n = "UID".toList ++ ':' :: n := fun _ => rfl
  have hs : ∀ n : List Char, "DTSTAMP:".toList ++ n = "DTSTAMP".toList ++ ':' :: n := fun _ => rfl
  have ha : "ATTENDEE:echse\n".toList = "ATTENDEE:echse".toList ++ ['\n'] := by decide
  have hb : "BEGIN:".toList ++ CompKind.vevent.text = "BEGIN:VEVENT".toList := by decide
  have he : "END:".toList ++ CompKind.vevent.text = "END:VEVENT".toList := by decide
  have ht : r.comp.text = ["BEGIN:VEVENT".toList] ++ r.lines ++ ["END:VEVENT".toList] := by
    rw [← hb, ← he]
    rfl
  rw [ht, hu, hs, ha, rplVeh_eq, rplVef_eq]
  simp only [wireText, Rpl.lines, List.flatMap_append, List.flatMap_cons, List.flatMap_nil,
    List.append_assoc, List.append_nil]

theorem cmdIcalRpl_ok (os : List (List Char)) (tmp : Nat) (ins : EchsInstruc FullTask) (ok : Bool)
    (st : RplState) :
    cmdIcalRpl hash os tmp { ins with v := if ok then .resc else .unsc } st =
      ((if st.nrpl = 0 then rplHdr ++ rplRpl else []) ++
        wireText (Rpl.comp ⟨fmtS (obintName hash os ins.o), (st.tick tmp).stmp, ok⟩).text,
        { st.tick tmp with nrpl := st.nrpl + 1 }) := by
  have hv : (if ok then InsVerb.resc else .unsc) ≠ .unk := by cases ok <;> decide
  rw [cmdIcalRpl, if_neg hv, wireText_comp, ← rplStatus_eq]
  simp only [tick_nrpl, List.append_assoc]

theorem cmdIcalRpl_flush (os : List (List Char)) (tmp : Nat) (st : RplState) :
    (cmdIcalRpl hash os tmp .unk st).1 = if st.nrpl = 0 then [] else rplFtr := by
  rw [cmdIcalRpl, if_pos (show EchsInstruc.unk.v = InsVerb.unk from rfl)]
  by_cases h : st.nrpl = 0 <;> simp [h]

/-- One turn of the loop. -/
theorem cmdIcalLoop_cons {ins : EchsInstruc FullTask} (h : IsRequest ins) (i : Nat)
    (is : List (EchsInstruc FullTask)) (dump : Bool) (st : RplState) :
    (cmdIcalLoop hash obs w i (ins :: is) dump st).1 =
      (cmdIcalRpl hash (obs i) (w.time i)
        { ins with v := if done_ w i ins then .resc else .unsc } st).1 ++
      (cmdIcalLoop hash obs w (i + 1) is (dump || done_ w i ins)
        { st.tick (w.time i) with nrpl := st.nrpl + 1 }).1 := by
  obtain ⟨v, o, t, rng⟩ := ins
  have hr := congrArg Prod.snd (cmdIcalRpl_ok hash (obs i) (w.time i) ⟨v, o, t, rng⟩
    (done_ w i ⟨v, o, t, rng⟩) st)
  dsimp only at hr
  rcases h with ⟨hv, t, ht⟩ | ⟨hv, ht⟩ <;> dsimp only at hv ht <;> subst hv ht <;>
    rw [cmdIcalLoop, ← hr] <;> rfl

/-- Once there has been a reply, the others follow, and then the end of the calendar. -/
theorem cmdIcalLoop_text {is : List (EchsInstruc FullTask)} (h : ∀ ins ∈ is, IsRequest ins)
    (i : Nat) (dump : Bool) {st : RplState} (hst : st.nrpl ≠ 0) :
    (cmdIcalLoop hash obs w i is dump st).1 =
      wireText ((rpls hash obs w i is st).flatMap fun r => r.comp.text) ++ rplFtr := by
  induction is generalizing i dump st with
  | nil => rw [cmdIcalLoop, cmdIcalRpl_flush, if_neg hst, rpls, List.flatMap_nil]; rfl
  | cons ins is ih =>
      rw [cmdIcalLoop_cons hash obs w (h ins List.mem_cons_self), cmdIcalRpl_ok, if_neg hst,
        ih (fun ins hi => h ins (List.mem_cons_of_mem _ hi)) _ _ (Nat.succ_ne_zero _), rpls,
        List.flatMap_cons, wireText_append, List.nil_append, List.append_assoc]

/-- **What is written for a request** is a calendar of replies, or nothing at all. -/
theorem cmdIcalLoop_eq {is : List (EchsInstruc FullTask)} (h : ∀ ins ∈ is, IsRequest ins)
    (i : Nat) (dump : Bool) {st : RplState} (hst : st.nrpl = 0) :
    (cmdIcalLoop hash obs w i is dump st).1 =
      if is = [] then [] else wireText ((rplCal (rpls hash obs w i is st)).body ++ [endCal]) := by
  rcases is with _ | ⟨ins, is⟩
  · rw [cmdIcalLoop, cmdIcalRpl_flush, if_pos hst, if_pos rfl]
  · rw [cmdIcalLoop_cons hash obs w (h ins List.mem_cons_self), cmdIcalRpl_ok, if_pos hst,
      cmdIcalLoop_text hash obs w (fun ins hi => h ins (List.mem_cons_of_mem _ hi)) _ _
        (Nat.succ_ne_zero _), if_neg (by simp), rpls, rplHdr_eq, rplRpl_eq, rplFtr_eq]
    simp only [Calendar.body, rplCal, wireText, List.flatMap_append,
      List.flatMap_cons, List.flatMap_nil, List.map_cons, List.flatMap_map, List.append_assoc,
      List.append_nil]

end

/-! ### What is read of it -/

/-- A reply that can be sent: the name is a line, and the stamp is one. -/
structure Rpl.Ok (r : Rpl) : Prop where
  name : IsName r.name
  stmp : r.stmp = [] ∨ ∃ t, r.stmp = dtStrfIcal (epochToInst t)

/-- Reply `r` may be read as `r'`. -/
structure Rpl.Reads (r r' : Rpl) : Prop where
  name : Reading r.name r'.name
  stmp : r'.stmp = r.stmp
  ok : r'.ok = r.ok

theorem length_ui32tpstr (d pad : Nat) : (ui32tpstr d pad).length ≤ pad := by
  induction pad generalizing d with
  | zero => simp [ui32tpstr]
  | succ pad ih =>
      rw [ui32tpstr]
      split
      · simp
      · have := ih (d / 10)
        simp
        omega

theorem length_dtStrfIcal (i : Instant) : (dtStrfIcal i).length ≤ 16 := by
  have hy := length_ui32tpstr i.y 4
  have hm := length_ui32tpstr i.m 2
  have hd := length_ui32tpstr i.d 2
  have hH := length_ui32tpstr i.H 2
  have hM := length_ui32tpstr i.M 2
  have hS := length_ui32tpstr i.S 2
  rw [dtStrfIcal]
  split
  · simp only [List.length_append, List.length_nil]
    omega
  · simp only [List.length_append, List.length_cons, List.length_nil]
    omega

theorem Rpl.Ok.verbatim {r : Rpl} (h : r.Ok) : Verbatim r.stmp ∧ r.stmp.length ≤ 16 := by
  rcases h.stmp with hs | ⟨t, hs⟩
  · simp [hs, Verbatim]
  · rw [hs]
    refine ⟨fun c hc => ?_, length_dtStrfIcal _⟩
    have hn : ∀ d : Char, d.isDigit = false → d ≠ 'T' ∧ d ≠ 'Z' → c ≠ d := by
      rintro d hd hT rfl
      exact not_mem_dtStrfIcal hd hT _ hc
    exact ⟨hn _ (by decide) (by decide), hn _ (by decide) (by decide),
      hn _ (by decide) (by decide)⟩

theorem Rpl.comp_text (r : Rpl) :
    r.comp.text = ["BEGIN:".toList ++ CompKind.vevent.text, "UID".toList ++ ':' :: r.name,
      "DTSTAMP".toList ++ ':' :: r.stmp, "ATTENDEE:echse".toList, statusLine r.ok,
      "END:".toList ++ CompKind.vevent.text] := rfl

theorem plainLine_status (ok : Bool) : plainLine (statusLine ok) = true := by
  cases ok <;> decide +kernel

theorem Rpl.Ok.isWire {r : Rpl} (h : r.Ok) : ∀ l ∈ r.comp.text, IsWire l := by
  have hn : IsWire ("UID".toList ++ ':' :: r.name) := by
    refine isWire_keyed (by decide) h.name.single ?_
    have := h.name.le
    have h₁ : "UID".toList.length = 3 := by decide
    omega
  have hs : IsWire ("DTSTAMP".toList ++ ':' :: r.stmp) := by
    refine isWire_keyed (by decide) (fun hs => (h.verbatim.1 _ hs).2.1 rfl) ?_
    have := h.verbatim.2
    have h₁ : "DTSTAMP".toList.length = 7 := by decide
    omega
  rw [Rpl.comp_text]
  simp only [List.forall_mem_cons, List.not_mem_nil, false_imp_iff, implies_true, and_true]
  exact ⟨(of_plainLine (by decide)).2, hn, hs, (of_plainLine (by decide)).2,
    (of_plainLine (plainLine_status r.ok)).2, (of_plainLine (by decide)).2⟩

theorem Rpl.Ok.reading {r : Rpl} (h : r.Ok) {vs : List (List Char)}
    (hvs : List.Forall₂ Reading r.comp.text vs) : ∃ r', r.Reads r' ∧ vs = r'.comp.text := by
  rw [Rpl.comp_text] at hvs
  obtain ⟨b, _, hb, h₁, rfl⟩ := List.forall₂_cons_left_iff.mp hvs
  obtain ⟨u, _, hu, h₂, rfl⟩ := List.forall₂_cons_left_iff.mp h₁
  obtain ⟨s, _, hs, h₃, rfl⟩ := List.forall₂_cons_left_iff.mp h₂
  obtain ⟨a, _, ha, h₄, rfl⟩ := List.forall₂_cons_left_iff.mp h₃
  obtain ⟨t, _, ht, h₅, rfl⟩ := List.forall₂_cons_left_iff.mp h₄
  obtain ⟨e, _, he, h₆, rfl⟩ := List.forall₂_cons_left_iff.mp h₅
  obtain rfl := List.forall₂_nil_left_iff.mp h₆
  obtain ⟨n, rfl, hn⟩ := reading_keyed (by decide) hu
  obtain ⟨m, rfl, hm⟩ := reading_keyed (by decide) hs
  obtain rfl := h.verbatim.1.reading hm
  refine ⟨⟨n, r.stmp, r.ok⟩, ⟨hn, rfl, rfl⟩, ?_⟩
  rw [Rpl.comp_text, (of_plainLine (by decide)).1.reading hb,
    (of_plainLine (by decide)).1.reading ha,
    (of_plainLine (plainLine_status r.ok)).1.reading ht,
    (of_plainLine (by decide)).1.reading he]

theorem Rpl.Reads.lines {r r' : Rpl} (hr : r.Ok) (h : r.Reads r') :
    List.Forall₂ Reading r.comp.text r'.comp.text := by
  rw [Rpl.comp_text, Rpl.comp_text, h.stmp, h.ok]
  exact .cons (of_plainLine (by decide)).1.reading_self
    (.cons (h.name.keyed (by decide)) (.cons (hr.verbatim.1.reading_self.keyed
      (by decide)) (.cons (of_plainLine (by decide)).1.reading_self
      (.cons (of_plainLine (plainLine_status r.ok)).1.reading_self
      (.cons (of_plainLine (by decide)).1.reading_self .nil)))))

/-! ### The replies -/

theorem body_rplCal (rs : List Rpl) :
    (rplCal rs).body = ["BEGIN:VCALENDAR".toList, "METHOD:REPLY".toList] ++
      rs.flatMap fun r => r.comp.text := by
  simp only [Calendar.body, rplCal, List.flatMap_map, List.cons_append, List.nil_append]

theorem isWire_rplCal {rs : List Rpl} (h : ∀ r ∈ rs, r.Ok) : ∀ l ∈ (rplCal rs).body, IsWire l := by
  rw [body_rplCal]
  intro l hl
  rcases List.mem_append.mp hl with hl | hl
  · rcases List.mem_pair.mp hl with rfl | rfl <;> exact (of_plainLine (by decide)).2
  · obtain ⟨r, hr, hl⟩ := List.mem_flatMap.mp hl
    exact (h r hr).isWire l hl

/-- **What the client reads of a calendar of replies** is one with the names read. -/
theorem reading_rplCal {rs : List Rpl} (h : ∀ r ∈ rs, r.Ok) {vs : List (List Char)}
    (hvs : List.Forall₂ Reading (rplCal rs).body vs) :
    ∃ rs', List.Forall₂ Rpl.Reads rs rs' ∧ vs = (rplCal rs').body := by
  rw [body_rplCal] at hvs
  obtain ⟨ws, us, rfl, hw, hu⟩ := forall₂_split hvs
  obtain ⟨b, _, hb, h₁, rfl⟩ := List.forall₂_cons_left_iff.mp hw
  obtain ⟨m, _, hm, h₂, rfl⟩ := List.forall₂_cons_left_iff.mp h₁
  obtain rfl := List.forall₂_nil_left_iff.mp h₂
  obtain ⟨rs', hrs, rfl⟩ : ∃ rs', List.Forall₂ Rpl.Reads rs rs' ∧
      us = rs'.flatMap fun r => r.comp.text := by
    clear hvs
    induction rs generalizing us with
    | nil => exact ⟨[], .nil, List.forall₂_nil_left_iff.mp hu⟩
    | cons r rs ih =>
        rw [List.flatMap_cons] at hu
        obtain ⟨vs₁, vs₂, rfl, h₁, h₂⟩ := forall₂_split hu
        obtain ⟨r', hr, rfl⟩ := (h r List.mem_cons_self).reading h₁
        obtain ⟨rs', hrs, rfl⟩ := ih (fun r hr => h r (List.mem_cons_of_mem _ hr)) vs₂ h₂
        exact ⟨r' :: rs', .cons hr hrs, rfl⟩
  refine ⟨rs', hrs, ?_⟩
  rw [body_rplCal, (of_plainLine (by decide)).1.reading hb,
    (of_plainLine (by decide)).1.reading hm]

theorem rplCal_reading {rs rs' : List Rpl} (h : ∀ r ∈ rs, r.Ok)
    (hrs : List.Forall₂ Rpl.Reads rs rs') :
    List.Forall₂ Reading (rplCal rs).body (rplCal rs').body := by
  rw [body_rplCal, body_rplCal]
  refine List.rel_append (.cons (of_plainLine (by decide)).1.reading_self
    (.cons (of_plainLine (by decide)).1.reading_self .nil)) ?_
  induction hrs with
  | nil => exact .nil
  | cons hr _ ih =>
      rw [List.flatMap_cons, List.flatMap_cons]
      exact List.rel_append (hr.lines (h _ List.mem_cons_self))
        (ih fun r hr => h r (List.mem_cons_of_mem _ hr))

section

variable (hash : List Char → UInt32) {ρ : Type} (e : FldEnv ρ)

/-- The instruction that stands for a reply. -/
def reply (ok : Bool) (oid : Nat) : EchsInstruc FullTask :=
  ⟨if ok then .resc else .unsc, oid, none, none⟩

theorem applyFld_uid (ve : Vevent ρ) (n : List Char) :
    applyFld (evicalSnarfers (e.hashed hash)) ve ("UID".toList ++ ':' :: n) =
      snarfFld (e.hashed hash) ve .uid (':' :: n) n n.length := by
  have hu : evicalFld "UID".toList = some .uid := by decide
  rw [applyFld, parseLine_keyed (forall_mem_of_all (by decide)), hu]
  rfl

theorem applyFld_dtstamp (ve : Vevent ρ) (s : List Char) :
    applyFld (evicalSnarfers (e.hashed hash)) ve ("DTSTAMP".toList ++ ':' :: s) = ve := by
  have hs : evicalFld "DTSTAMP".toList = none := by decide +kernel
  rw [applyFld, parseLine_keyed (forall_mem_of_all (by decide)), hs]
  rfl

theorem applyFld_attendee (ve : Vevent ρ) :
    (applyFld (evicalSnarfers (e.hashed hash)) ve "ATTENDEE:echse".toList).t.oid = ve.t.oid := by
  have ha : parseLine "ATTENDEE:echse".toList =
      some (.att, ":echse".toList, "echse".toList, 5) := by decide
  rw [applyFld, ha]
  rfl

theorem applyFld_status (ve : Vevent ρ) (ok : Bool) :
    (applyFld (evicalSnarfers (e.hashed hash)) ve (statusLine ok)).t.oid = ve.t.oid ∧
      (applyFld (evicalSnarfers (e.hashed hash)) ve (statusLine ok)).reqStatus =
        if ok then 2 else 5 := by
  have hs : parseLine (statusLine true) =
      some (.rstat, ":2.0;Success".toList, "2.0;Success".toList, 11) := by decide +kernel
  have hf : parseLine (statusLine false) = some (.rstat, ":5.1;Service unavailable".toList,
      "5.1;Service unavailable".toList, 23) := by decide +kernel
  have h₂ : ("2.0;Success".toList.headD '\x00').toNat ^^^ '0'.toNat = 2 := by decide +kernel
  have h₅ : ("5.1;Service unavailable".toList.headD '\x00').toNat ^^^ '0'.toNat = 5 := by
    decide +kernel
  cases ok
  · rw [applyFld, hf]
    exact ⟨rfl, h₅⟩
  · rw [applyFld, hs]
    exact ⟨rfl, h₂⟩

theorem oid_uid (ve : Vevent ρ) (h : ve.t.oid = 0) (n : List Char) :
    (snarfFld (e.hashed hash) ve .uid (':' :: n) n n.length).t.oid = intern hash n := by
  rw [snarfFld]
  split
  · rename_i hn
    rw [h, intern, if_pos (.inl hn)]
  · simp [Vevent.setT, FldEnv.hashed]

/-- A component of the replies is read to the reply of the name's id. -/
theorem instruc_comp {g : Vevent ρ} (hm : g.meth = .reply) (ho : g.t.oid = 0) (r : Rpl) :
    r.comp.instruc (evicalSnarfers (e.hashed hash)) g = reply r.ok (intern hash r.name) := by
  let x := evicalSnarfers (e.hashed hash)
  let v₀ : Vevent ρ := { IcalVevent.zero x with t := g.t, cal := g.cal }
  let v₁ := snarfFld (e.hashed hash) v₀ .uid (':' :: r.name) r.name r.name.length
  have hf : r.lines.foldl (applyFld x) v₀ =
      applyFld x (applyFld x v₁ "ATTENDEE:echse".toList) (statusLine r.ok) := by
    simp only [Rpl.lines, List.foldl_cons, List.foldl_nil, x, applyFld_uid, applyFld_dtstamp, v₁]
  have ho : (r.comp.vevent (evicalSnarfers (e.hashed hash)) g).t.oid = intern hash r.name := by
    change (r.lines.foldl (applyFld x) v₀).t.oid = _
    rw [hf, (applyFld_status hash e _ r.ok).1, applyFld_attendee]
    exact oid_uid hash e v₀ ho r.name
  have hr : (r.comp.vevent (evicalSnarfers (e.hashed hash)) g).reqStatus =
      if r.ok then 2 else 5 := by
    change (r.lines.foldl (applyFld x) v₀).reqStatus = _
    rw [hf]
    exact (applyFld_status hash e _ r.ok).2
  simp only [Comp.instruc, icalInstruc, hm, ho, hr, reply]
  cases r.ok <;> rfl

theorem glob_rplCal (rs : List Rpl) :
    ((rplCal rs).glob (evicalSnarfers (e.hashed hash))).meth = .reply ∧
      ((rplCal rs).glob (evicalSnarfers (e.hashed hash))).t.oid = 0 := by
  have hm : parseLine "METHOD:REPLY".toList =
      some (.meth, ":REPLY".toList, "REPLY".toList, 5) := by decide
  have hr : evicalMeth ("REPLY".toList.take 5) = some .reply := by decide
  rw [Calendar.glob, rplCal, List.foldl_cons, List.foldl_nil, applyPro, hm]
  simp only [evicalSnarfers, snarfPro, hr]
  exact ⟨rfl, rfl⟩

/-- **The client gets through a calendar of replies**, to the replies of the names in it. -/
theorem through_rplCal (rs : List Rpl) :
    ∃ c, Through (evicalSnarfers (e.hashed hash)) (.fresh (evicalSnarfers (e.hashed hash)))
      (rplCal rs).body
      (rs.map fun r => reply r.ok (intern hash r.name)) c := by
  have hg := glob_rplCal hash e rs
  have hi : ∀ r ∈ rs, r.comp.instruc (evicalSnarfers (e.hashed hash))
      ((rplCal rs).glob (evicalSnarfers (e.hashed hash))) = reply r.ok (intern hash r.name) :=
    fun r _ => instruc_comp hash e hg.1 hg.2 r
  have hu : ∀ k ∈ (rplCal rs).comps, (k.instruc (evicalSnarfers (e.hashed hash))
      ((rplCal rs).glob (evicalSnarfers (e.hashed hash)))).v ≠ .unk := by
    intro k hk
    obtain ⟨r, hr, rfl⟩ := List.mem_map.mp hk
    rw [hi r hr, reply]
    cases r.ok <;> simp
  obtain ⟨v, h⟩ := through_calendar (x := evicalSnarfers (e.hashed hash))
    (c := .fresh (evicalSnarfers (e.hashed hash))) rfl hu
  have hmap : (rplCal rs).comps.map (Comp.instruc (evicalSnarfers (e.hashed hash))
      ((rplCal rs).glob (evicalSnarfers (e.hashed hash)))) =
      rs.map fun r => reply r.ok (intern hash r.name) := by
    rw [rplCal, List.map_map]
    exact List.map_congr_left hi
  exact ⟨_, hmap ▸ h⟩

end

/-! ### The client -/

section

variable (hash : List Char → UInt32) {ρ : Type} (e : FldEnv ρ)

theorem poll1_eq_map {bs : List (List Char)} {rs : List Rpl}
    (h : icalRun (evicalSnarfers (e.hashed hash)) none bs =
      rs.map fun r => reply r.ok (intern hash r.name)) :
    poll1 (evicalSnarfers (e.hashed hash)) bs =
      rs.map fun r => reply r.ok (intern hash r.name) := by
  rw [← h]
  refine buffersWhile_eq rfl none fun i hi => ?_
  rw [h] at hi
  obtain ⟨r, -, rfl⟩ := List.mem_map.mp hi
  cases hok : r.ok <;> simp [reply]

/-- The ids that names are to be read to. -/
def NamesRead (rs : List Rpl) (os : List Nat) : Prop :=
  List.Forall₂ (fun r o => ∀ v, Reading r.name v → intern hash v = o) rs os

theorem NamesRead.replies {rs rs' : List Rpl} {os : List Nat} (h : NamesRead hash rs os)
    (hr : List.Forall₂ Rpl.Reads rs rs') :
    (rs'.map fun r => reply r.ok (intern hash r.name)) =
      List.zipWith (fun r o => reply r.ok o) rs os := by
  induction h generalizing rs' with
  | nil => rw [List.forall₂_nil_left_iff.mp hr]; rfl
  | @cons r o rs os ho _ ih =>
      obtain ⟨r', rs', hr', hrs, rfl⟩ := List.forall₂_cons_left_iff.mp hr
      rw [List.map_cons, List.zipWith_cons_cons, ih hrs, hr'.ok, ho _ hr'.name]

/-- One of the names is read as it may be, the others whole. -/
def readAt (rs : List Rpl) (i : Nat) (v : List Char) : List Rpl :=
  rs.mapIdx fun j r => ⟨if j = i then v else unescape r.name, r.stmp, r.ok⟩

theorem reads_readAt {rs : List Rpl} {i : Nat} {r : Rpl} (hi : rs[i]? = some r) {v : List Char}
    (hv : Reading r.name v) : List.Forall₂ Rpl.Reads rs (readAt rs i v) := by
  rw [List.forall₂_iff_get]
  refine ⟨by simp [readAt], fun j h₁ h₂ => ?_⟩
  simp only [readAt, List.get_eq_getElem, List.getElem_mapIdx]
  refine ⟨?_, rfl, rfl⟩
  dsimp only
  split
  · rename_i hj
    subst hj
    rw [List.getElem?_eq_getElem h₁] at hi
    rwa [Option.some.inj hi]
  · exact .whole _

/-- **However the replies are cut**, the client gets the right ids if and only if that is
what the names may be read to. -/
theorem poll1_rplCal {rs : List Rpl} (hok : ∀ r ∈ rs, r.Ok) {os : List Nat}
    (hlen : rs.length = os.length) :
    (∀ bs, Buffers 4096 (wireText ((rplCal rs).body ++ [endCal])) bs →
      poll1 (evicalSnarfers (e.hashed hash)) bs =
        List.zipWith (fun r o => reply r.ok o) rs os) ↔ NamesRead hash rs os := by
  constructor
  · intro h
    rw [NamesRead, List.forall₂_iff_get]
    refine ⟨hlen, fun i h₁ h₂ v hv => ?_⟩
    have hi : rs[i]? = some (rs.get ⟨i, h₁⟩) := List.getElem?_eq_getElem h₁
    have hr := reads_readAt hi hv
    obtain ⟨bs, hbs, hrun⟩ := exists_buffers (evicalSnarfers (e.hashed hash))
      (isWire_rplCal hok) (rplCal_reading hok hr)
    obtain ⟨c, ht⟩ := through_rplCal hash e (readAt rs i v)
    have heq := (poll1_eq_map hash e (hrun _ c ht)).symm.trans
      (h bs ⟨hbs.flatten, hbs.ne, fun b hb => (hbs.le b hb).trans (by decide)⟩)
    have hat := congrArg (fun l => l[i]?) heq
    simp only [readAt, List.getElem?_map, List.getElem?_mapIdx, hi, Option.map_some,
      List.getElem?_zipWith, List.getElem?_eq_getElem h₂, if_pos] at hat
    simpa [reply] using hat
  · intro h bs hbs
    obtain ⟨vs, hvs, hrun⟩ := icalRun_wire (evicalSnarfers (e.hashed hash)) (isWire_rplCal hok) hbs
    obtain ⟨rs', hrs, rfl⟩ := reading_rplCal hok hvs
    obtain ⟨c, ht⟩ := through_rplCal hash e rs'
    rw [poll1_eq_map hash e (hrun _ c ht), h.replies hash hrs]

end

/-! ### Requests -/

section

variable (hash : List Char → UInt32) (obs : Nat → List (List Char)) (w : CmdEnv)

theorem rpls_map (is : List (EchsInstruc FullTask)) (i : Nat) (st : RplState) :
    (rpls hash obs w i is st).map (fun r => (r.name, r.ok)) =
      is.mapIdx fun j ins =>
        (fmtS (obintName hash (obs (i + j)) ins.o), done_ w (i + j) ins) := by
  induction is generalizing i st with
  | nil => rfl
  | cons ins is ih =>
      rw [rpls, List.map_cons, ih, List.mapIdx_cons]
      simp only [Nat.add_zero, Nat.add_assoc, Nat.add_comm 1]

theorem rpls_ok (hobs : ∀ i, ∀ s ∈ obs i, '\n' ∉ s ∧ s.length < 256)
    (is : List (EchsInstruc FullTask)) (i : Nat) (st : RplState) :
    ∀ r ∈ rpls hash obs w i is st, r.Ok := by
  induction is generalizing i st with
  | nil => simp [rpls]
  | cons ins is ih =>
      rw [rpls]
      exact List.forall_mem_cons.mpr ⟨⟨isName_obintName hash (hobs i) ins.o,
        (st.tick (w.time i)).stamped⟩, ih _ _⟩

/-- The object id of the component that an instruction stands for. -/
def insOid (ins : EchsInstruc FullTask) : Nat := ins.t.elim ins.o ProtoTask.oid

variable {ρ : Type} (e : FldEnv ρ)

/-- The instructions of a calendar's components. -/
def requests (cal : Calendar) : List (EchsInstruc FullTask) :=
  cal.comps.map (Comp.instruc (evicalSnarfers (e.hashed hash))
    (cal.glob (evicalSnarfers (e.hashed hash))))

/-- The method of a calendar is one that requests something. -/
def Requests (cal : Calendar) : Prop :=
  (cal.glob (evicalSnarfers (e.hashed hash))).meth ∈
    [IcalMeth.publish, .request, .cancel]

theorem isRequest_instruc {cal : Calendar} (h : Requests hash e cal) :
    ∀ ins ∈ requests hash e cal, IsRequest ins := by
  intro ins hi
  obtain ⟨k, -, rfl⟩ := List.mem_map.mp hi
  rw [Requests] at h
  simp only [List.mem_cons, List.not_mem_nil, or_false] at h
  rcases h with h | h | h
  · exact .inl (by simp [Comp.instruc, icalInstruc, h])
  · exact .inl (by simp [Comp.instruc, icalInstruc, h])
  · exact .inr (by simp [Comp.instruc, icalInstruc, h])

theorem instruc_ne_unk {cal : Calendar} (h : Requests hash e cal) :
    ∀ k ∈ cal.comps, (k.instruc (evicalSnarfers (e.hashed hash))
      (cal.glob (evicalSnarfers (e.hashed hash)))).v ≠ .unk := by
  intro k hk
  rcases isRequest_instruc hash e h _ (List.mem_map_of_mem hk) with ⟨hv, -⟩ | ⟨hv, -⟩ <;> simp [hv]

/-- The strings interned are lines, and none of them is too long. -/
theorem obsAfter_ok {raw : List Char} {cal : Calendar} (hraw : TextOf raw cal.text)
    {us : List (List Char)} (hus : ∀ u ∈ us, '\n' ∉ u) (i : Nat) :
    ∀ s ∈ obsAfter hash us cal i, '\n' ∉ s ∧ s.length < 256 := by
  intro s hs
  obtain ⟨hs, hl⟩ := mem_internAll hash hs
  refine ⟨?_, hl⟩
  rcases List.mem_append.mp hs with hs | hs
  · exact hus s hs
  · obtain ⟨k, hk, hs⟩ := List.mem_flatMap.mp hs
    obtain ⟨l, hl, hsub⟩ := uidTexts_sub hs
    have hmem : l ∈ cal.text := by
      have hk : l ∈ k.text := by simp [Comp.text, hl]
      simp only [Calendar.text, List.mem_append, List.mem_flatMap]
      exact .inl (.inr ⟨k, List.mem_of_mem_take ‹_›, hk⟩)
    exact fun hn => (hraw.lines l hmem).1 (hsub _ hn)

/-- What `cmd_ical` writes for a request. -/
theorem cmdIcal_text {raw : List Char} {cal : Calendar} (hraw : TextOf raw cal.text)
    (hm : Requests hash e cal) (obs : Nat → List (List Char)) {st : RplState}
    (hst : st.nrpl = 0) :
    (cmdIcal hash (e.hashed hash) obs w
      (echsEvicalPush (evicalSnarfers (e.hashed hash)) none raw) st).1 =
      if requests hash e cal = [] then []
      else wireText ((rplCal (rpls hash obs w 0 (requests hash e cal) st)).body ++ [endCal]) := by
  obtain ⟨v, ht⟩ := through_calendar (c := .fresh (evicalSnarfers (e.hashed hash))) rfl
    (instruc_ne_unk hash e hm)
  rw [Calendar.text_eq] at hraw
  rw [cmdIcal, hraw.pulled ht]
  exact cmdIcalLoop_eq hash obs w (isRequest_instruc hash e hm) 0 false hst

theorem rpls_get (obs : Nat → List (List Char)) (is : List (EchsInstruc FullTask))
    (st : RplState) :
    (rpls hash obs w 0 is st).length = is.length ∧ ∀ (i : Nat) r ins,
      (rpls hash obs w 0 is st)[i]? = some r → is[i]? = some ins →
        r.name = fmtS (obintName hash (obs i) ins.o) ∧ r.ok = done_ w i ins := by
  have h := rpls_map hash obs w is 0 st
  refine ⟨by simpa using congrArg List.length h, fun i r ins hr hi => ?_⟩
  have hat := congrArg (fun l => l[i]?) h
  simpa [hr, hi] using hat

/-- The names that are shown are to be read to the ids of the components. -/
theorem namesRead_rpls (obs : Nat → List (List Char)) (is : List (EchsInstruc FullTask))
    (st : RplState) :
    NamesRead hash (rpls hash obs w 0 is st) (is.map insOid) ↔
      ∀ i ins, is[i]? = some ins →
        ∀ v, Reading (fmtS (obintName hash (obs i) ins.o)) v → intern hash v = insOid ins := by
  obtain ⟨hlen, hget⟩ := rpls_get hash w obs is st
  rw [NamesRead, List.forall₂_iff_get]
  constructor
  · rintro ⟨-, h⟩ i ins hi v hv
    obtain ⟨h₂, rfl⟩ := List.getElem?_eq_some_iff.mp hi
    have h₁ : i < (rpls hash obs w 0 is st).length := hlen ▸ h₂
    have hr := hget i _ _ (List.getElem?_eq_getElem h₁) hi
    simpa using h i h₁ (by simpa using h₂) v (by simpa [hr.1] using hv)
  · intro h
    refine ⟨by simpa using hlen, fun i h₁ h₂ v hv => ?_⟩
    have h₂' : i < is.length := hlen ▸ h₁
    have hi : is[i]? = some is[i] := List.getElem?_eq_getElem h₂'
    have hr := hget i _ _ (List.getElem?_eq_getElem h₁) hi
    simpa using h i _ hi v (by simpa [hr.1] using hv)

theorem zipWith_rpls (obs : Nat → List (List Char)) (is : List (EchsInstruc FullTask))
    (st : RplState) :
    List.zipWith (fun r o => reply r.ok o) (rpls hash obs w 0 is st) (is.map insOid) =
      is.mapIdx fun i ins => reply (done_ w i ins) (insOid ins) := by
  obtain ⟨hlen, hget⟩ := rpls_get hash w obs is st
  refine List.ext_getElem (by simp [hlen]) fun i h₁ h₂ => ?_
  have h₂' : i < is.length := by simpa using h₂
  have h₁' : i < (rpls hash obs w 0 is st).length := hlen ▸ h₂'
  have hr := hget i _ _ (List.getElem?_eq_getElem h₁') (List.getElem?_eq_getElem h₂')
  simp [hr.2]

end

/-! ### Two tasks -/

/-- A task with an id. -/
def uidComp (c : Char) : Comp where
  kind := .vevent
  lines := ["UID".toList ++ ':' :: [c], "SUMMARY:true".toList]
  props := by
    intro l hl
    rcases List.mem_pair.mp hl with rfl | rfl
    · exact isProp_keyed (forall_mem_of_all (by decide)) (by decide) _
    · exact isProp_keyed (k := "SUMMARY".toList) (forall_mem_of_all (by decide)) (by decide) _

/-- A request that is about two tasks. -/
def twoTasks (meth : List Char) : Calendar where
  lines := ["METHOD".toList ++ ':' :: meth]
  comps := [uidComp 'a', uidComp 'b']
  props := by
    intro l hl
    obtain rfl := List.mem_singleton.mp hl
    exact isProp_keyed (forall_mem_of_all (by decide)) (by decide) _

/-- Everything works out. -/
def fineEnv : CmdEnv := ⟨fun _ => 1420070400, fun _ _ => true, fun _ _ => true⟩

theorem buffers_one {t : List Char} (h : t ≠ [] ∧ t.length ≤ 4096) : Buffers 4096 t [t] :=
  ⟨by simp, by simpa using h.1, by simpa using h.2⟩

/-- What `cmd_ical` writes for the two, to begin with. -/
def twoReplies (meth : List Char) : List Char :=
  (cmdIcal hash (blankEnv.hashed hash) (obsAfter hash [] (twoTasks meth)) fineEnv
    (echsEvicalPush (evicalSnarfers (blankEnv.hashed hash)) none (wireText (twoTasks meth).text))
    ⟨0, 0, [], .inl rfl⟩).1

end Echse.Replies
