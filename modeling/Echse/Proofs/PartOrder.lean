/-
The order of the parts of a rule, and parts that are not known.

A rule comes out the same for every order of its parts, unless a weekday is found in a part that
is not `BYDAY`, or the scale runs into the part that happens to come after it.
-/
import Echse.Proofs.PartEnds

namespace Echse

/-! ### Rules as parts -/

/-- `NAME=VALUE`. -/
structure RulePart where
  name : String
  value : List Char
  name_plain : ';' ∉ name.toList ∧ '=' ∉ name.toList
  value_plain : ';' ∉ value
deriving DecidableEq

namespace RulePart

variable (p : RulePart)

/-- The keyword a part is for, if it is known. -/
def key : Option RrulKey := evrrulKey p.name.toList

/-- The part makes the whole rule a bogus one. -/
def Fails : Prop := (p.key = some .count ∨ p.key = some .inter) ∧ (strtol p.value).1 = 0

/-- The weekdays there are in the part's value. -/
def wdays : List Int := wdayAt p.value ++ wdaysPast p.value

/-- The weekdays that come after a comma of the part. -/
def strays : List Int := wdaysPast (sendPart p.name p.value)

end RulePart

/-- The parts as they go on in a text, each after its semicolon. -/
def afterText (ps : List RulePart) : List Char := ps.flatMap fun p => sendPart p.name p.value

/-- The text of a rule. -/
def ruleText (ps : List RulePart) : List Char := (afterText ps).tail

/-- Two rules that differ in the representation of the weekdays at most. -/
structure SameYield (r r' : Rrulsp) : Prop where
  dow : bi447List r.dow = bi447List r'.dow
  rest : { r with dow := .nil } = { r' with dow := .nil }

/-- The parts are read independently. -/
structure PartsIndependent (ps : List RulePart) : Prop where
  order : ∀ qs : List RulePart, qs.Perm ps →
    SameYield (snarfRrule (ruleText qs)) (snarfRrule (ruleText ps))
  unknown : ∀ (us : List RulePart) (p : RulePart) (vs : List RulePart), ps = us ++ p :: vs →
    p.key = none → SameYield (snarfRrule (ruleText (us ++ vs))) (snarfRrule (ruleText ps))

/-- Nothing is a weekday in another part, unless `BYDAY` has it. -/
def WdaysOwn (ps : List RulePart) : Prop :=
  ∀ p ∈ ps, p.key = some .byWday → ∀ q ∈ ps, q ≠ p → ∀ x ∈ q.strays, x ∈ p.wdays

instance (ps : List RulePart) : Decidable (WdaysOwn ps) := inferInstanceAs (Decidable (∀ p ∈ ps, _))

/-- The scale is its own whatever other parts are put after it. -/
def ScaleOwn (ps : List RulePart) : Prop :=
  ∀ (us : List RulePart) (p : RulePart) (vs : List RulePart), (us ++ p :: vs).Perm ps →
    p.key = some .scale → ¬ ScaleStrays p.value (afterText vs)

/-- The rules whose parts are read independently. -/
def RuleSound (ps : List RulePart) : Prop := (∃ p ∈ ps, p.Fails) ∨ (WdaysOwn ps ∧ ScaleOwn ps)

theorem endsPart_afterText (ps : List RulePart) : EndsPart (afterText ps) := by
  cases ps with
  | nil => exact endsPart_nil
  | cons p ps => exact EndsPart.sendPart p.name p.value (afterText ps)

theorem afterText_cons (p : RulePart) (ps : List RulePart) :
    afterText (p :: ps) = sendPart p.name p.value ++ afterText ps := rfl

/-! ### What a run over the parts leaves -/

/-- What a part writes that is read for itself. -/
def writePart (k : RrulKey) (v : List Char) (rr : Rrulsp) : Rrulsp :=
  match k with
  | .freq => { rr with freq := snarfFreq v }
  | .count => { rr with count := intOfLong (strtol v).1 }
  | .inter => { rr with inter := u32OfInt (strtol v).1 }
  | .until_ => { rr with until_ := dtStrp v 0 }
  | .shift => { rr with shift := snarfShift v }
  | .byMon => { rr with mon := snarfUints (fun v => v ≠ 0 && v ≤ 12) assBui31 v rr.mon }
  | .byHour => { rr with H := snarfUints (· ≤ 24) assBui31 v rr.H }
  | .byMin => { rr with M := snarfUints (· < 60) assBui63 v rr.M }
  | .bySec => { rr with S := snarfUints (· ≤ 60) assBui63 v rr.S }
  | .byMday => { rr with dom := snarfInts 31 assBi31 v rr.dom }
  | .byWeek => { rr with wk := snarfInts 53 assBi63 v rr.wk }
  | .byYday => { rr with doy := snarfInts 366 assBi383 v rr.doy }
  | .byPos => { rr with pos := snarfInts 366 assBi383 v rr.pos }
  | .byEaster =>
      { rr with
        easter := snarfList strtol (fun bi v => if -366 ≤ v ∧ v ≤ 366 then assBi383 bi v else bi)
          (v.length + 1) v rr.easter }
  | .wkst | .byWday | .scale => rr

/-- A rule without its weekdays and scale. -/
def Rrulsp.plain (rr : Rrulsp) : Rrulsp := { rr with dow := .nil, scale := .gregorian }

def RulePart.write (rr : Rrulsp) (p : RulePart) : Rrulsp :=
  match p.key with
  | none => rr
  | some k => writePart k p.value rr

/-- The weekdays that a run over the parts assigns. -/
def wdaysOf : List RulePart → List Int
  | [] => []
  | p :: ps =>
      (if p.key = some .byWday then p.wdays ++ wdaysPast (afterText ps) else []) ++ wdaysOf ps

/-- The scale that a run over the parts ends with. -/
def scaleOf : List RulePart → Scale → Scale
  | [], s => s
  | p :: ps, s =>
      scaleOf ps (if p.key = some .scale then snarfScale (p.value ++ afterText ps) else s)

theorem readPart_eq {p : RulePart} (hp : ¬ p.Fails) {t : List Char} (ht : EndsPart t)
    (rr : Rrulsp) : ∃ rr', readPart p.name p.value t rr = some rr' ∧
      rr'.plain = RulePart.write rr.plain p ∧
      rr'.dow =
        (if p.key = some .byWday then p.wdays ++ wdaysPast t else []).foldl assBi447 rr.dow ∧
      rr'.scale = if p.key = some .scale then snarfScale (p.value ++ t) else rr.scale := by
  unfold readPart RulePart.write
  rw [show evrrulKey p.name.toList = p.key from rfl]
  cases hkey : p.key with
  | none => exact ⟨rr, rfl, rfl, rfl, rfl⟩
  | some k =>
      dsimp only
      by_cases hown : k ≠ .byWday ∧ k ≠ .scale
      · rw [snarfPart_append ht p.value_plain hown, if_neg fun h => hown.1 (Option.some.inj h),
          if_neg fun h => hown.2 (Option.some.inj h)]
        have hnum : k = .count ∨ k = .inter → (strtol p.value).1 ≠ 0 := fun hk h =>
          hp ⟨hk.imp (fun h => hkey.trans (congrArg some h)) fun h =>
            hkey.trans (congrArg some h), h⟩
        cases k with
        | count =>
            refine ⟨_, if_neg (hnum (Or.inl rfl)), rfl, rfl, rfl⟩
        | inter =>
            refine ⟨_, if_neg (hnum (Or.inr rfl)), rfl, rfl, rfl⟩
        | byWday => exact absurd rfl hown.1
        | scale => exact absurd rfl hown.2
        | _ => exact ⟨_, rfl, rfl, rfl, rfl⟩
      · by_cases hday : k = .byWday
        · subst hday
          refine ⟨_, rfl, rfl, ?_, rfl⟩
          rw [if_pos rfl]
          show snarfWdays _ _ _ = _
          rw [snarfWdays_eq _ _ _ (Nat.lt_succ_self _), wdayAt_append ht.endsItem,
            wdaysPast_append ht, RulePart.wdays, List.append_assoc]
        · obtain rfl : k = .scale := by
            by_contra h
            exact hown ⟨hday, h⟩
          exact ⟨_, rfl, rfl, rfl, rfl⟩

/-- **What a run over the parts leaves.** -/
theorem readRest_eq (ps : List RulePart) : ∀ (rr : Rrulsp), (∀ p ∈ ps, ¬ p.Fails) →
    ∃ rr', readRest (afterText ps) rr = some rr' ∧ rr'.plain = ps.foldl RulePart.write rr.plain ∧
      rr'.dow = (wdaysOf ps).foldl assBi447 rr.dow ∧ rr'.scale = scaleOf ps rr.scale := by
  induction ps with
  | nil => exact fun rr _ => ⟨rr, rfl, rfl, rfl, rfl⟩
  | cons p ps ih =>
      intro rr hps
      have ht := endsPart_afterText ps
      obtain ⟨r1, hr1, hplain1, hdow1, hscale1⟩ := readPart_eq (hps p List.mem_cons_self) ht rr
      obtain ⟨r2, hr2, hplain2, hdow2, hscale2⟩ :=
        ih r1 fun q hq => hps q (List.mem_cons_of_mem _ hq)
      refine ⟨r2, ?_, ?_, ?_, ?_⟩
      · rw [afterText_cons, readRest_part p.name_plain p.value_plain ht, hr1]
        exact hr2
      · rw [hplain2, hplain1, List.foldl_cons]
      · rw [hdow2, hdow1, wdaysOf, List.foldl_append]
      · rw [hscale2, hscale1, scaleOf]

/-! ### Keywords -/

/-- How a keyword is spelled. -/
def RrulKey.text : RrulKey → List Char
  | .freq => "FREQ".toList
  | .until_ => "UNTIL".toList
  | .count => "COUNT".toList
  | .inter => "INTERVAL".toList
  | .wkst => "WKST".toList
  | .scale => "SCALE".toList
  | .shift => "SHIFT".toList
  | .bySec => "BYSECOND".toList
  | .byMin => "BYMINUTE".toList
  | .byHour => "BYHOUR".toList
  | .byWday => "BYDAY".toList
  | .byMday => "BYMONTHDAY".toList
  | .byYday => "BYYEARDAY".toList
  | .byWeek => "BYWEEKNO".toList
  | .byMon => "BYMONTH".toList
  | .byPos => "BYSETPOS".toList
  | .byEaster => "BYEASTER".toList

theorem of_ite_some {c : Prop} [Decidable c] {a k : RrulKey} {o : Option RrulKey}
    (h : (if c then some a else o) = some k) : (c ∧ a = k) ∨ o = some k := by
  split at h
  · rename_i hc
    exact Or.inl ⟨hc, Option.some.inj h⟩
  · exact Or.inr h

theorem evrrulKey_text {key : List Char} {k : RrulKey} (h : evrrulKey key = some k) :
    key = k.text := by
  unfold evrrulKey at h
  iterate 17
    rcases of_ite_some h with ⟨hkey, rfl⟩ | h
    · exact hkey
  cases h

/-- The parts have different names. -/
def Distinct (ps : List RulePart) : Prop := (ps.map RulePart.name).Nodup

instance (ps : List RulePart) : Decidable (Distinct ps) :=
  inferInstanceAs (Decidable (List.Nodup _))

theorem Distinct.perm {ps qs : List RulePart} (h : Distinct ps) (hp : qs.Perm ps) : Distinct qs :=
  (hp.map RulePart.name).nodup_iff.mpr h

/-- No two parts are for the same keyword. -/
theorem Distinct.eq {ps : List RulePart} (h : Distinct ps) {p q : RulePart} (hp : p ∈ ps)
    (hq : q ∈ ps) {k : RrulKey} (hpk : p.key = some k) (hqk : q.key = some k) : p = q :=
  List.inj_on_of_nodup_map h hp hq
    (String.toList_injective ((evrrulKey_text hpk).trans (evrrulKey_text hqk).symm))

/-! ### The order -/

/-- A field that the keyword `a` is for. -/
def onKey (k a : RrulKey) {α : Type} (f : α → α) (x : α) : α := if k = a then f x else x

theorem onKey_comm {k k' : RrulKey} (hk : k ≠ k') (a : RrulKey) {α : Type} (f g : α → α) (x : α) :
    onKey k' a g (onKey k a f x) = onKey k a f (onKey k' a g x) := by
  unfold onKey
  by_cases h : k = a
  · rw [if_neg fun h' => hk (h.trans h'.symm), if_pos h, if_pos h,
      if_neg fun h' => hk (h.trans h'.symm)]
  · rw [if_neg h, if_neg h]

/-- A part writes its own field only. -/
theorem writePart_eq (k : RrulKey) (v : List Char) (rr : Rrulsp) :
    writePart k v rr =
      { freq := onKey k .freq (fun _ => snarfFreq v) rr.freq
        scale := rr.scale
        count := onKey k .count (fun _ => intOfLong (strtol v).1) rr.count
        inter := onKey k .inter (fun _ => u32OfInt (strtol v).1) rr.inter
        until_ := onKey k .until_ (fun _ => dtStrp v 0) rr.until_
        shift := onKey k .shift (fun _ => snarfShift v) rr.shift
        dom := onKey k .byMday (snarfInts 31 assBi31 v) rr.dom
        doy := onKey k .byYday (snarfInts 366 assBi383 v) rr.doy
        dow := rr.dow
        mon := onKey k .byMon (snarfUints (fun v => v ≠ 0 && v ≤ 12) assBui31 v) rr.mon
        wk := onKey k .byWeek (snarfInts 53 assBi63 v) rr.wk
        H := onKey k .byHour (snarfUints (· ≤ 24) assBui31 v) rr.H
        M := onKey k .byMin (snarfUints (· < 60) assBui63 v) rr.M
        S := onKey k .bySec (snarfUints (· ≤ 60) assBui63 v) rr.S
        pos := onKey k .byPos (snarfInts 366 assBi383 v) rr.pos
        easter := onKey k .byEaster (snarfList strtol
          (fun bi v => if -366 ≤ v ∧ v ≤ 366 then assBi383 bi v else bi) (v.length + 1) v)
          rr.easter } := by
  cases k <;> rfl

theorem write_comm {p q : RulePart} (h : ∀ k, p.key = some k → q.key = some k → p = q)
    (rr : Rrulsp) :
    RulePart.write (RulePart.write rr p) q = RulePart.write (RulePart.write rr q) p := by
  unfold RulePart.write
  cases hp : p.key with
  | none => rfl
  | some k =>
      cases hq : q.key with
      | none => rfl
      | some k' =>
          by_cases hk : k = k'
          · subst hk
            rw [h k hp hq]
          · simp only [writePart_eq, onKey_comm hk]

theorem foldl_write_perm {ps qs : List RulePart} (hd : Distinct ps) (hp : qs.Perm ps)
    (rr : Rrulsp) : qs.foldl RulePart.write rr = ps.foldl RulePart.write rr :=
  hp.foldl_eq' (fun _ hx _ hy rr => write_comm (fun _ hpk hqk =>
    hd.eq (hp.subset hx) (hp.subset hy) hpk hqk) rr) rr

/-- The members of a set are assigned in any order. -/
theorem bi447List_assAll {xs ys : List Int} (hxs : ∀ x ∈ xs, IsCd x) (hys : ∀ x ∈ ys, IsCd x) :
    bi447List (xs.foldl assBi447 .nil) = bi447List (ys.foldl assBi447 .nil) ↔
      ∀ x, x ∈ xs ↔ x ∈ ys := by
  have hlt : ∀ x, IsCd x → x < 32 * (14 : Nat) := fun x hx => by
    have := (isCd_lt hx).2
    omega
  have hmem : ∀ zs : List Int, (∀ x ∈ zs, IsCd x) →
      ∀ x, x ∈ bi447List (zs.foldl assBi447 .nil) ↔ x ∈ zs := fun zs hzs x =>
    mem_assAll (P := IsCd) (by decide) (fun x hx => isCd_lt hx) hzs (by decide) x
  have hord : ∀ zs : List Int, (∀ x ∈ zs, IsCd x) →
      InOrder 14 (bi447List (zs.foldl assBi447 .nil)) := fun zs hzs =>
    inOrder_drain (by decide)
      (nativeInOrder_assAll hlt (wideSet_nil 14 IsCd)
        (fun ys hys => by cases hys; exact List.Pairwise.nil) hzs)
      ((wideSet_nil 14 IsCd).assAll hlt hzs).small (by decide)
  constructor
  · intro h x
    rw [← hmem xs hxs, h, hmem ys hys]
  · intro h
    have : Std.Irrefl fun x y => bintsKey 14 x < bintsKey 14 y := ⟨fun x => lt_irrefl _⟩
    refine (hord xs hxs).eq_of_mem_iff (hord ys hys) fun x => ?_
    rw [hmem xs hxs, hmem ys hys]
    exact h x

theorem wdaysPast_afterText (ps : List RulePart) (x : Int) :
    x ∈ wdaysPast (afterText ps) ↔ ∃ p ∈ ps, x ∈ p.strays := by
  induction ps with
  | nil => simp [afterText, wdaysPast]
  | cons p ps ih =>
      rw [afterText_cons, wdaysPast_append (endsPart_afterText ps), List.mem_append, ih]
      simp [RulePart.strays]

theorem isCd_wdaysOf {ps : List RulePart} : ∀ x ∈ wdaysOf ps, IsCd x := by
  induction ps with
  | nil => exact fun x hx => by cases hx
  | cons p ps ih =>
      intro x hx
      rcases List.mem_append.mp hx with hx | hx
      · split at hx
        · rcases List.mem_append.mp hx with hx | hx
          · exact (List.mem_append.mp hx).elim isCd_wdayAt isCd_wdaysPast
          · exact isCd_wdaysPast hx
        · cases hx
      · exact ih x hx

theorem mem_wdaysOf (ps : List RulePart) (x : Int) :
    x ∈ wdaysOf ps ↔ ∃ us p vs, ps = us ++ p :: vs ∧ p.key = some .byWday ∧
      (x ∈ p.wdays ∨ ∃ q ∈ vs, x ∈ q.strays) := by
  induction ps with
  | nil => simp [wdaysOf]
  | cons p ps ih =>
      rw [wdaysOf, List.mem_append, ih]
      constructor
      · rintro (hx | ⟨us, q, vs, rfl, hq, hx⟩)
        · split at hx
          · rename_i hp
            rw [List.mem_append, wdaysPast_afterText] at hx
            exact ⟨[], p, ps, rfl, hp, hx⟩
          · cases hx
        · exact ⟨p :: us, q, vs, rfl, hq, hx⟩
      · rintro ⟨us, q, vs, heq, hq, hx⟩
        rcases us with _ | ⟨u, us⟩
        · obtain ⟨rfl, rfl⟩ := List.cons.inj heq
          left
          rw [if_pos hq, List.mem_append, wdaysPast_afterText]
          exact hx
        · obtain ⟨rfl, rfl⟩ := List.cons.inj heq
          exact Or.inr ⟨us, q, vs, rfl, hq, hx⟩

theorem scaleOf_none {ps : List RulePart} (h : ∀ p ∈ ps, p.key ≠ some .scale) (s : Scale) :
    scaleOf ps s = s := by
  induction ps with
  | nil => rfl
  | cons p ps ih =>
      rw [scaleOf, if_neg (h p List.mem_cons_self)]
      exact ih fun q hq => h q (List.mem_cons_of_mem _ hq)

theorem scaleOf_append (us vs : List RulePart) {p : RulePart} (hp : p.key = some .scale)
    (hv : ∀ q ∈ vs, q.key ≠ some .scale) (s : Scale) :
    scaleOf (us ++ p :: vs) s = snarfScale (p.value ++ afterText vs) := by
  induction us generalizing s with
  | nil =>
      rw [List.nil_append, scaleOf, if_pos hp]
      exact scaleOf_none hv _
  | cons u us ih =>
      rw [List.cons_append, scaleOf]
      exact ih _

/-! ### Reading a whole rule -/

theorem snarfRrule_eq (ps : List RulePart) :
    snarfRrule (ruleText ps) = (readRest (afterText ps) {}).getD
      { freq := .none, count := 0, inter := 0, until_ := echsNulInstant } := by
  have hrun : snarfParts ((ruleText ps).length + 1) (ruleText ps) {} =
      readRest (afterText ps) {} := by
    cases ps <;> rfl
  unfold snarfRrule
  rw [hrun]
  cases readRest (afterText ps) {} <;> rfl

theorem readRest_fails {ps : List RulePart} (h : ∃ p ∈ ps, p.Fails) :
    ∀ rr, readRest (afterText ps) rr = none := by
  induction ps with
  | nil =>
      obtain ⟨p, hp, -⟩ := h
      cases hp
  | cons p ps ih =>
      intro rr
      have ht := endsPart_afterText ps
      rw [afterText_cons, readRest_part p.name_plain p.value_plain ht]
      by_cases hp : p.Fails
      · obtain ⟨hkey, h0⟩ := hp
        have hnone : readPart p.name p.value (afterText ps) rr = none := by
          have hnum := congrArg Prod.fst (strtol_append ht.endsItem p.value)
          rw [h0] at hnum
          unfold readPart
          rw [show evrrulKey p.name.toList = p.key from rfl]
          rcases hkey with hkey | hkey <;> rw [hkey] <;> exact if_pos hnum
        rw [hnone]
        rfl
      · obtain ⟨r1, hr1, -⟩ := readPart_eq hp ht rr
        rw [hr1]
        refine ih ?_ r1
        obtain ⟨q, hq, hfail⟩ := h
        rcases List.mem_cons.mp hq with rfl | hq
        · exact absurd hfail hp
        · exact ⟨q, hq, hfail⟩

theorem snarfRrule_fails {ps : List RulePart} (h : ∃ p ∈ ps, p.Fails) :
    snarfRrule (ruleText ps) =
      { freq := .none, count := 0, inter := 0, until_ := echsNulInstant } := by
  rw [snarfRrule_eq, readRest_fails h]
  rfl

theorem snarfRrule_run {ps : List RulePart} (h : ¬ ∃ p ∈ ps, p.Fails) :
    (snarfRrule (ruleText ps)).plain = ps.foldl RulePart.write ({} : Rrulsp).plain ∧
      (snarfRrule (ruleText ps)).dow = (wdaysOf ps).foldl assBi447 .nil ∧
      (snarfRrule (ruleText ps)).scale = scaleOf ps .gregorian := by
  obtain ⟨rr, hrun, hrr⟩ := readRest_eq ps {} fun p hp hfail => h ⟨p, hp, hfail⟩
  rw [snarfRrule_eq, hrun]
  exact hrr

/-- When two rules come out the same. -/
theorem sameYield_iff {ps qs : List RulePart} (hps : ¬ ∃ p ∈ ps, p.Fails)
    (hqs : ¬ ∃ p ∈ qs, p.Fails)
    (hwrite : qs.foldl RulePart.write ({} : Rrulsp).plain =
      ps.foldl RulePart.write ({} : Rrulsp).plain) :
    SameYield (snarfRrule (ruleText qs)) (snarfRrule (ruleText ps)) ↔
      (∀ x, x ∈ wdaysOf qs ↔ x ∈ wdaysOf ps) ∧
        scaleOf qs .gregorian = scaleOf ps .gregorian := by
  obtain ⟨hplain, hdow, hscale⟩ := snarfRrule_run hps
  obtain ⟨hplain', hdow', hscale'⟩ := snarfRrule_run hqs
  rw [← bi447List_assAll isCd_wdaysOf isCd_wdaysOf, ← hdow, ← hdow', ← hscale, ← hscale']
  constructor
  · intro h
    have hsame := congrArg Rrulsp.scale h.rest
    exact ⟨h.dow, hsame⟩
  · rintro ⟨h1, h2⟩
    refine ⟨h1, ?_⟩
    have hsame := hplain'.trans (hwrite.trans hplain.symm)
    unfold Rrulsp.plain at hsame
    generalize snarfRrule (ruleText qs) = r at *
    generalize snarfRrule (ruleText ps) = r' at *
    cases r
    cases r'
    cases h2
    simp_all

/-- Weekdays that are nowhere but in `BYDAY` do not go by the order. -/
theorem mem_wdaysOf_own {ps qs : List RulePart} (hown : WdaysOwn ps)
    (hsub : ∀ p ∈ qs, p ∈ ps) (hq : qs.Nodup) (x : Int) :
    x ∈ wdaysOf qs ↔ ∃ p ∈ qs, p.key = some .byWday ∧ x ∈ p.wdays := by
  rw [mem_wdaysOf]
  constructor
  · rintro ⟨us, p, vs, rfl, hp, hx⟩
    refine ⟨p, by simp, hp, hx.elim id ?_⟩
    rintro ⟨q, hqv, hx⟩
    refine hown p (hsub p (by simp)) hp q (hsub q (by simp [hqv])) ?_ x hx
    rintro rfl
    have hsplit := (List.nodup_append.mp hq).2.1
    exact (List.nodup_cons.mp hsplit).1 hqv
  · rintro ⟨p, hpq, hp, hx⟩
    obtain ⟨us, vs, rfl⟩ := List.append_of_mem hpq
    exact ⟨us, p, vs, rfl, hp, Or.inl hx⟩

/-- A scale that is its own does not, either. -/
theorem scaleOf_own {ps l qs : List RulePart} (hd : Distinct ps) (hown : ScaleOwn ps)
    (hq : (l ++ qs).Perm ps) {p : RulePart} (hpq : p ∈ qs) (hp : p.key = some .scale)
    (s : Scale) : scaleOf qs s = snarfScale p.value := by
  obtain ⟨vs, ws, rfl⟩ := List.append_of_mem hpq
  have hnone : ∀ q ∈ ws, q.key ≠ some .scale := by
    intro q hqw hqk
    have hnodup : (l ++ (vs ++ p :: ws)).Nodup := (hd.perm hq).of_map
    obtain rfl := hd.eq (hq.subset (by simp)) (hq.subset (by simp [hqw])) hp hqk
    have hsplit := (List.nodup_append.mp (List.nodup_append.mp hnodup).2.1).2.1
    exact (List.nodup_cons.mp hsplit).1 hqw
  rw [scaleOf_append vs ws hp hnone, snarfScale_append (endsPart_afterText ws)]
  refine hown (l ++ vs) p ws ?_ hp
  rw [List.append_assoc]
  exact hq

/-- The other parts in any order, and without some that are not known. -/
theorem sameYield_of_sound {ps l qs : List RulePart} (hd : Distinct ps) (hwdays : WdaysOwn ps)
    (hscale : ScaleOwn ps) (hfail : ¬ ∃ p ∈ ps, p.Fails) (hq : (l ++ qs).Perm ps)
    (hl : ∀ p ∈ l, p.key = none) :
    SameYield (snarfRrule (ruleText qs)) (snarfRrule (ruleText ps)) := by
  have hsub : ∀ p ∈ qs, p ∈ ps := fun p hp => hq.subset (List.mem_append_right _ hp)
  have hknown : ∀ p ∈ ps, ∀ k, p.key = some k → p ∈ qs := by
    intro p hp k hk
    refine (List.mem_append.mp (hq.symm.subset hp)).resolve_left fun hu => ?_
    rw [hl p hu] at hk
    cases hk
  have hnodup : qs.Nodup := (List.nodup_append.mp (hd.perm hq).of_map).2.1
  have hskip : l.foldl RulePart.write ({} : Rrulsp).plain = ({} : Rrulsp).plain := by
    clear hq hnodup
    induction l with
    | nil => rfl
    | cons u l ih =>
        have hu : RulePart.write ({} : Rrulsp).plain u = ({} : Rrulsp).plain := by
          unfold RulePart.write
          rw [hl u List.mem_cons_self]
        rw [List.foldl_cons, hu]
        exact ih fun p hp => hl p (List.mem_cons_of_mem _ hp)
  have hwrite := foldl_write_perm hd hq ({} : Rrulsp).plain
  rw [List.foldl_append, hskip] at hwrite
  refine (sameYield_iff hfail (fun h => hfail ?_) hwrite).mpr ⟨fun x => ?_, ?_⟩
  · obtain ⟨p, hp, hf⟩ := h
    exact ⟨p, hsub p hp, hf⟩
  · rw [mem_wdaysOf_own hwdays hsub hnodup, mem_wdaysOf_own hwdays (fun _ h => h) hd.of_map]
    constructor
    · rintro ⟨p, hp, hk, hx⟩
      exact ⟨p, hsub p hp, hk, hx⟩
    · rintro ⟨p, hp, hk, hx⟩
      exact ⟨p, hknown p hp _ hk, hk, hx⟩
  · by_cases h : ∃ p ∈ ps, p.key = some .scale
    · obtain ⟨p, hp, hk⟩ := h
      rw [scaleOf_own hd hscale hq (hknown p hp _ hk) hk,
        scaleOf_own (l := []) hd hscale (List.Perm.refl ps) hp hk]
    · rw [scaleOf_none fun p hp hk => h ⟨p, hsub p hp, hk⟩,
        scaleOf_none fun p hp hk => h ⟨p, hp, hk⟩]

/-! ### Independence -/

theorem wdaysOf_none {ps : List RulePart} (h : ∀ p ∈ ps, p.key ≠ some .byWday) (p : RulePart)
    (hp : p.key = some .byWday) : wdaysOf (ps ++ [p]) = p.wdays := by
  induction ps with
  | nil =>
      rw [List.nil_append, wdaysOf, if_pos hp]
      simp [wdaysOf, afterText, wdaysPast]
  | cons q ps ih =>
      rw [List.cons_append, wdaysOf, if_neg (h q List.mem_cons_self), List.nil_append]
      exact ih fun r hr => h r (List.mem_cons_of_mem _ hr)

/-- The rest of the parts are for other keywords. -/
theorem Distinct.others {ps vs : List RulePart} (hd : Distinct ps) {p : RulePart}
    (hp : (p :: vs).Perm ps) {k : RrulKey} (hk : p.key = some k) : ∀ q ∈ vs, q.key ≠ some k := by
  intro q hq hqk
  obtain rfl := hd.eq (hp.subset List.mem_cons_self) (hp.subset (List.mem_cons_of_mem _ hq)) hk hqk
  exact (List.nodup_cons.mp (hd.perm hp).of_map).1 hq

/-- A bogus rule is one however its parts come. -/
theorem partsIndependent_of_fails {ps : List RulePart} (hfail : ∃ p ∈ ps, p.Fails) :
    PartsIndependent ps := by
  obtain ⟨q, hq, hf⟩ := hfail
  refine ⟨fun qs hperm => ?_, fun us p vs heq hp => ?_⟩
  · rw [snarfRrule_fails ⟨q, hq, hf⟩, snarfRrule_fails ⟨q, hperm.symm.subset hq, hf⟩]
    exact ⟨rfl, rfl⟩
  · have hq' : q ∈ us ++ vs := by
      have hmem := hq
      rw [heq] at hmem
      rcases List.mem_append.mp hmem with hmem | hmem
      · exact List.mem_append_left _ hmem
      · rcases List.mem_cons.mp hmem with rfl | hmem
        · rcases hf.1 with h | h <;> rw [hp] at h <;> cases h
        · exact List.mem_append_right _ hmem
    rw [snarfRrule_fails ⟨q, hq, hf⟩, snarfRrule_fails ⟨q, hq', hf⟩]
    exact ⟨rfl, rfl⟩

/-- A part that is put first gets to see all the others, and one that is put last none. -/
theorem own_of_independent {ps : List RulePart} (hd : Distinct ps) (hfail : ¬ ∃ p ∈ ps, p.Fails)
    (h : PartsIndependent ps) : WdaysOwn ps ∧ ScaleOwn ps := by
  have hsame : ∀ qs, qs.Perm ps → (∀ x, x ∈ wdaysOf qs ↔ x ∈ wdaysOf ps) ∧
      scaleOf qs .gregorian = scaleOf ps .gregorian := by
    intro qs hq
    refine (sameYield_iff hfail (fun hf => hfail ?_) (foldl_write_perm hd hq _)).mp (h.order qs hq)
    obtain ⟨p, hp, hf⟩ := hf
    exact ⟨p, hq.subset hp, hf⟩
  refine ⟨fun p hp hk q hq hne x hx => ?_, fun us p vs hperm hk => ?_⟩
  · obtain ⟨us, vs, rfl⟩ := List.append_of_mem hp
    have hfront : (p :: (us ++ vs)).Perm (us ++ p :: vs) := List.perm_middle.symm
    have hback : ((us ++ vs) ++ [p]).Perm (us ++ p :: vs) :=
      (List.perm_append_singleton p (us ++ vs)).trans hfront
    have hq' : q ∈ us ++ vs := (List.mem_cons.mp (hfront.symm.subset hq)).resolve_left hne
    have hin : x ∈ wdaysOf (p :: (us ++ vs)) :=
      (mem_wdaysOf _ x).mpr ⟨[], p, us ++ vs, rfl, hk, Or.inr ⟨q, hq', hx⟩⟩
    rw [((hsame _ hfront).1 x), ← ((hsame _ hback).1 x),
      wdaysOf_none (hd.others hfront hk) p hk] at hin
    exact hin
  · have hback : ((us ++ vs) ++ [p]).Perm ps :=
      ((List.perm_append_singleton p (us ++ vs)).trans List.perm_middle.symm).trans hperm
    have hothers := hd.others (List.perm_middle.symm.trans hperm) hk
    have hsc := (hsame _ hperm).2.trans (hsame _ hback).2.symm
    rw [scaleOf_append us vs hk fun q hq => hothers q (List.mem_append_right _ hq),
      scaleOf_append (us ++ vs) [] hk fun q hq => by cases hq] at hsc
    rw [← snarfScale_append (endsPart_afterText vs), hsc]
    exact congrArg snarfScale (List.append_nil _)

/-- `BYDAY=MO;X-FOO=a,TU`. -/
def strayDay : List RulePart :=
  [⟨"BYDAY", "MO".toList, by decide, by decide⟩, ⟨"X-FOO", "a,TU".toList, by decide, by decide⟩]

/-- `SCALE=HIJRI.IA;COUNT=5`. -/
def strayScale : List RulePart :=
  [⟨"SCALE", "HIJRI.IA".toList, by decide, by decide⟩, ⟨"COUNT", "5".toList, by decide, by decide⟩]

end Echse
