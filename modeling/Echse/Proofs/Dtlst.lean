/-
Lists of dates.

Every value of a list is read as if it stood alone: the reader of an instant may look past
the comma after a value but makes nothing of what is there.  But a list takes the place of the one
before it, so of several lines only the last one with a value counts.
-/
import Echse.Dtlst
import Echse.Proofs.Inherit
import Echse.Proofs.Readers

namespace Echse

/-! ### A value -/

/-- **A value of a list is read as if it stood alone.** -/
theorem snarfValue_append {u : List Char} (hu : EndsItem u) (zs : Nat × Scale) (v : List Char) :
    snarfValue zs (v ++ u) v.length = snarfValue zs v v.length := by
  have hstart : Abreast u ⟨0, v ++ u⟩ ⟨0, v⟩ := ⟨rfl, rfl⟩
  unfold snarfValue
  rw [dtStrpOn_eq, dtStrpOn_eq]
  by_cases hlen : v.length ≠ 0 ∧ v.length < 8
  · rw [if_pos hlen, if_pos hlen]
  · rw [if_neg hlen, if_neg hlen]
    by_cases h0 : v.length = 0
    · -- an empty value is none
      obtain rfl : v = [] := List.length_eq_zero_iff.mp h0
      have hyear := readYear_alike hu hstart
      have hnone : readYear ⟨0, [] ++ u⟩ = none := by
        rcases hr : readYear ⟨0, [] ++ u⟩ with _ | r
        · rfl
        · rw [hr] at hyear
          exact hyear.elim
      have hdate : ∀ ep, readDate ep ⟨0, [] ++ u⟩ = none := fun ep => by
        unfold readDate
        rw [hnone]
        rfl
      rw [hdate]
      rfl
    · rw [if_neg h0]
      have hdate := readDate_alike hu hstart v.length
      revert hdate
      rcases readDate v.length ⟨0, v ++ u⟩ with _ | ⟨i, c⟩ <;>
        rcases readDate v.length ⟨0, v⟩ with _ | ⟨j, d⟩
      · exact fun _ => rfl
      · exact fun h => h.elim
      · exact fun h => h.elim
      · rintro ⟨rfl, h⟩
        have hrest := h.final hu
        simp only [Option.map_some]
        generalize (skipChar 'Z' c).rest = on at hrest
        generalize (skipChar 'Z' d).rest = on' at hrest
        have htest : (v.length ≤ (v ++ u).length - on.length ∨ on.head? ≠ some 'Z') ↔
            (v.length ≤ v.length - on'.length ∨ on'.head? ≠ some 'Z') := by
          rw [List.length_append]
          rcases hrest with rfl | ⟨rfl, hle⟩
          · rw [List.length_append, Nat.add_sub_add_right]
            cases on' with
            | nil => exact iff_of_true (Or.inl (Nat.le_refl _)) (Or.inl (Nat.le_refl _))
            | cons x r => rfl
          · exact iff_of_true (Or.inl (by omega)) (Or.inl (Nat.le_refl _))
        simp only [htest]


/-! ### A list -/

/-- A value by itself. -/
def ownValue (zs : Nat × Scale) (v : List Char) : Option Instant := snarfValue zs v v.length

theorem takeWhile_value {v : List Char} (hv : ',' ∉ v ∧ '\x00' ∉ v) (u : List Char) :
    (v ++ u).takeWhile (fun c => c ≠ ',' && c ≠ '\x00') =
      v ++ u.takeWhile fun c => c ≠ ',' && c ≠ '\x00' := by
  refine List.takeWhile_append_of_pos fun c hc => ?_
  have hcomma : c ≠ ',' := fun h => hv.1 (h ▸ hc)
  have hnul : c ≠ '\x00' := fun h => hv.2 (h ▸ hc)
  simp [hcomma, hnul]

theorem valueEnd_append {v u : List Char} (hv : ',' ∉ v ∧ '\x00' ∉ v) (left : Nat) :
    valueEnd (v ++ ',' :: u) left = v.length := by
  have htake := takeWhile_value hv (',' :: u)
  rw [List.takeWhile_cons_of_neg (by decide), List.append_nil] at htake
  unfold valueEnd
  simp only [htake, List.drop_left]
  rfl

theorem valueEnd_last {v : List Char} (hv : ',' ∉ v ∧ '\x00' ∉ v) :
    valueEnd v v.length = v.length := by
  have htake := takeWhile_value hv []
  rw [List.append_nil, List.takeWhile_nil, List.append_nil] at htake
  unfold valueEnd
  rw [htake, ite_self]

/-- **A list is read value by value.** -/
theorem snarfValues_eq (zs : Nat × Scale) (fuel : Nat) : ∀ {vp : List Char}, '\x00' ∉ vp →
    vp.length < fuel → snarfValues zs fuel vp vp.length =
      (vp.splitOn ',').filterMap (ownValue zs) := by
  induction fuel with
  | zero => exact fun _ h => absurd h (Nat.not_lt_zero _)
  | succ fuel ih =>
      intro vp hnul hfuel
      unfold snarfValues
      by_cases h0 : vp.length = 0
      · obtain rfl : vp = [] := List.length_eq_zero_iff.mp h0
        rw [if_pos List.length_nil, List.splitOn_nil]
        rfl
      · rw [if_neg h0]
        by_cases hcomma : ',' ∈ vp
        · obtain ⟨v, u, rfl, hv⟩ := List.eq_append_cons_of_mem hcomma
          have hnul' : '\x00' ∉ v ∧ '\x00' ∉ u :=
            ⟨fun h => hnul (List.mem_append_left _ h),
              fun h => hnul (List.mem_append_right _ (List.mem_cons_of_mem _ h))⟩
          have hlen : (v ++ ',' :: u).length - (v.length + 1) = u.length := by
            rw [List.length_append, List.length_cons]
            omega
          have hdrop : (v ++ ',' :: u).drop (v.length + 1) = u := by
            rw [← List.drop_drop, List.drop_left]
            rfl
          have hlt : u.length < fuel := by
            rw [List.length_append, List.length_cons] at hfuel
            omega
          dsimp only
          rw [valueEnd_append ⟨hv, hnul'.1⟩, snarfValue_append (endsItem_comma u), hdrop, hlen,
            ih hnul'.2 hlt, List.splitOn_append_cons_self_of_not_mem hv, List.filterMap_cons]
          unfold ownValue
          cases snarfValue zs v v.length <;> rfl
        · have hdrop : vp.drop (vp.length + 1) = [] := List.drop_eq_nil_of_le (Nat.le_succ _)
          have hend : snarfValues zs fuel [] 0 = [] := by
            cases fuel <;> rfl
          dsimp only
          rw [valueEnd_last ⟨hcomma, hnul⟩, hdrop, Nat.sub_eq_zero_of_le (Nat.le_succ _), hend,
            List.append_nil, List.splitOn_eq_singleton hcomma, List.filterMap_cons]
          unfold ownValue
          cases snarfValue zs vp vp.length <;> rfl

theorem snarfDtlst_eq (tzob : List Char → Nat) (eof : List Char) {vp : List Char}
    (hnul : '\x00' ∉ vp) :
    snarfDtlst tzob eof vp vp.length = (vp.splitOn ',').filterMap
      (ownValue (snarfParams tzob (eof.length + 1) eof (0, .gregorian))) :=
  snarfValues_eq _ _ hnul (Nat.lt_succ_self _)

/-! ### Lines -/

section Lines

variable {μ : Type} (n : RecurEnv μ) (e : FldEnv Unit)

/-- The dates that a line gives to a field: its values, with its zone and its scale. -/
def lineDates (f : IcalFld) (l : List Char) : List Instant :=
  match parseLine l with
  | some (f', eof, vp, _) =>
      if f' = f then
        (vp.splitOn ',').filterMap
          (ownValue (snarfParams n.tzob (eof.length + 1) eof (0, .gregorian)))
      else []
  | none => []

/-- At most one of the lines gives any dates to the field. -/
def OneLine (f : IcalFld) (ls : List (List Char)) : Prop :=
  ((ls.map (lineDates n f)).filter (· ≠ [])).length ≤ 1

theorem parseLine_value {l : List Char} {f : IcalFld} {eof vp : List Char} {z : Nat}
    (h : parseLine l = some (f, eof, vp, z)) : z = vp.length ∧ ∀ c ∈ vp, c ∈ l := by
  unfold parseLine at h
  dsimp only at h
  split at h
  · cases h
    exact ⟨by rw [List.length_drop], fun c hc => List.mem_of_mem_drop hc⟩
  · cases h

/-- The dates of a line as they are snarfed, if there are any. -/
def lineList (f : IcalFld) (l : List Char) : Option (List Instant) :=
  (parseLine l).bind fun (f', eof, vp, z) =>
    if f' = f ∧ snarfDtlst n.tzob eof vp z ≠ [] then some (snarfDtlst n.tzob eof vp z) else none

theorem lineList_eq (f : IcalFld) {l : List Char} (hnul : '\x00' ∉ l) :
    lineList n f l = if lineDates n f l = [] then none else some (lineDates n f l) := by
  unfold lineList lineDates
  rcases hl : parseLine l with _ | ⟨f', eof, vp, z⟩
  · rfl
  · obtain ⟨rfl, hmem⟩ := parseLine_value hl
    simp only [Option.bind_some]
    rw [snarfDtlst_eq n.tzob eof fun h => hnul (hmem _ h)]
    by_cases hf : f' = f
    · rw [if_pos hf]
      by_cases hnil : (vp.splitOn ',').filterMap
          (ownValue (snarfParams n.tzob (eof.length + 1) eof (0, .gregorian))) = []
      · rw [if_pos hnil, if_neg fun h => h.2 hnil]
      · rw [if_neg hnil, if_pos ⟨hf, hnil⟩]
    · rw [if_neg hf, if_pos rfl, if_neg fun h => hf h.1]

/-- A line only touches the list of its own field. -/
theorem snarfFld_dates (ve : Vevent (RecurSlots μ)) (f : IcalFld) (eof vp : List Char) {z : Nat}
    (hz : z ≠ 0) :
    (snarfFld (recurFldEnv n e) ve f eof vp z).more.rules.rdat =
        (if f = .rdate ∧ snarfDtlst n.tzob eof vp z ≠ [] then some (snarfDtlst n.tzob eof vp z)
          else none).getD ve.more.rules.rdat ∧
      (snarfFld (recurFldEnv n e) ve f eof vp z).more.rules.xdat =
        (if f = .xdate ∧ snarfDtlst n.tzob eof vp z ≠ [] then some (snarfDtlst n.tzob eof vp z)
          else none).getD ve.more.rules.xdat := by
  cases f with
  | rdate =>
      simp only [snarfFld, if_neg hz, recurFldEnv, snarfRecur]
      by_cases hl : snarfDtlst n.tzob eof vp z = [] <;> simp [hl]
  | xdate =>
      simp only [snarfFld, if_neg hz, recurFldEnv, snarfRecur]
      by_cases hl : snarfDtlst n.tzob eof vp z = [] <;> simp [hl]
  | rrule =>
      simp only [snarfFld, if_neg hz, recurFldEnv, snarfRecur]
      split <;> exact ⟨rfl, rfl⟩
  | xrule =>
      simp only [snarfFld, if_neg hz, recurFldEnv, snarfRecur]
      split <;> exact ⟨rfl, rfl⟩
  | dura =>
      simp only [snarfFld, if_neg hz]
      split <;> exact ⟨rfl, rfl⟩
  | _ =>
      simp only [snarfFld, if_neg hz]
      exact ⟨rfl, rfl⟩

/-- **Of several lines the last one with dates counts.** -/
theorem lines_dates (ls : List (List Char)) (ve : Vevent (RecurSlots μ)) :
    (ls.foldl (applyFld (evicalSnarfers (recurFldEnv n e))) ve).more.rules.rdat =
        (ls.filterMap (lineList n .rdate)).getLast?.getD ve.more.rules.rdat ∧
      (ls.foldl (applyFld (evicalSnarfers (recurFldEnv n e))) ve).more.rules.xdat =
        (ls.filterMap (lineList n .xdate)).getLast?.getD ve.more.rules.xdat := by
  have hempty : ∀ eof vp, snarfDtlst n.tzob eof vp 0 = [] := fun _ _ => rfl
  constructor
  · refine foldl_getLast (fun ve : Vevent (RecurSlots μ) => ve.more.rules.rdat) _
      (fun ve l => ?_) ls ve
    unfold applyFld lineList
    rcases parseLine l with _ | ⟨f, eof, vp, z⟩
    · rfl
    · by_cases hz : z = 0
      · subst hz
        simp [evicalSnarfers, snarfFld, hempty]
      · exact (snarfFld_dates n e ve f eof vp hz).1
  · refine foldl_getLast (fun ve : Vevent (RecurSlots μ) => ve.more.rules.xdat) _
      (fun ve l => ?_) ls ve
    unfold applyFld lineList
    rcases parseLine l with _ | ⟨f, eof, vp, z⟩
    · rfl
    · by_cases hz : z = 0
      · subst hz
        simp [evicalSnarfers, snarfFld, hempty]
      · exact (snarfFld_dates n e ve f eof vp hz).2

/-- The last list is all there is if there is at most one. -/
theorem getLast_eq_flatten {α : Type} {xss : List (List α)} (hne : ∀ xs ∈ xss, xs ≠ []) :
    xss.getLast?.getD [] = xss.flatten ↔ xss.length ≤ 1 := by
  rcases List.eq_nil_or_concat xss with rfl | ⟨init, last, rfl⟩
  · simp
  · rw [List.concat_eq_append, List.getLast?_concat, Option.getD_some, List.flatten_append,
      List.flatten_singleton, List.length_append, List.length_singleton]
    constructor
    · intro h
      have hinit : init.flatten = [] := by
        have := congrArg List.length h
        rw [List.length_append] at this
        exact List.length_eq_zero_iff.mp (by omega)
      cases init with
      | nil => exact Nat.le_refl _
      | cons xs init =>
          exact absurd (List.flatten_eq_nil_iff.mp hinit xs List.mem_cons_self)
            (hne xs (by simp))
    · intro h
      obtain rfl : init = [] := List.length_eq_zero_iff.mp (by omega)
      rfl

theorem lastDates_iff (f : IcalFld) {ls : List (List Char)} (hnul : ∀ l ∈ ls, '\x00' ∉ l) :
    (ls.filterMap (lineList n f)).getLast?.getD [] = ls.flatMap (lineDates n f) ↔
      OneLine n f ls := by
  have hval : ls.filterMap (lineList n f) = (ls.map (lineDates n f)).filter (· ≠ []) := by
    induction ls with
    | nil => rfl
    | cons l ls ih =>
        have hrest := ih fun l hl => hnul l (List.mem_cons_of_mem _ hl)
        rw [List.filterMap_cons, List.map_cons, lineList_eq n f (hnul l List.mem_cons_self)]
        by_cases h : lineDates n f l = []
        · rw [if_pos h, List.filter_cons_of_neg (by simp [h]), hrest]
        · rw [if_neg h, List.filter_cons_of_pos (by simp [h]), hrest]
  have hflat : ls.flatMap (lineDates n f) = ((ls.map (lineDates n f)).filter (· ≠ [])).flatten := by
    rw [List.flatten_filter_ne_nil, List.flatMap_def]
  rw [hval, hflat]
  refine getLast_eq_flatten fun xs hxs => ?_
  simpa using (List.mem_filter.mp hxs).2

/-- **The dates of a component are those of all its lines** if no two lines of a kind give any. -/
theorem makeVeStrm_dates (sts : RecurSlots μ → Nat) (g : Vevent (RecurSlots μ)) (k : Comp)
    (hnul : ∀ l ∈ k.lines, '\x00' ∉ l) {pe : EchsEvent} {rr xr : List Rrulsp}
    {rd xd : List Instant}
    (h : makeVeStrm (recurFldEnv n e) sts (k.vevent (evicalSnarfers (recurFldEnv n e)) g) =
      .recur pe rr rd xr xd) :
    (rd = k.lines.flatMap (lineDates n .rdate) ∧ xd = k.lines.flatMap (lineDates n .xdate)) ↔
      OneLine n .rdate k.lines ∧ OneLine n .xdate k.lines := by
  have hfold := lines_dates n e k.lines
    { IcalVevent.zero (evicalSnarfers (recurFldEnv n e)) with t := g.t, cal := g.cal }
  have hrec : (k.vevent (evicalSnarfers (recurFldEnv n e)) g).more.rules.rdat = rd ∧
      (k.vevent (evicalSnarfers (recurFldEnv n e)) g).more.rules.xdat = xd := by
    unfold makeVeStrm at h
    dsimp only at h
    split at h
    · cases h
    · split at h
      · cases h
      · split at h
        · cases h
        · injection h with _ _ hrd _ hxd
          exact ⟨hrd, hxd⟩
  obtain ⟨rfl, rfl⟩ := hrec
  rw [← lastDates_iff n .rdate hnul, ← lastDates_iff n .xdate hnul]
  exact and_congr (iff_of_eq (congrArg (· = _) hfold.1)) (iff_of_eq (congrArg (· = _) hfold.2))

end Lines

/-- Where no zone is known and nothing but dates is read to anything. -/
def datesEnv : RecurEnv Unit := ⟨fun _ => 0, (), fun _ _ _ _ _ => ()⟩

/-- A start that is read without a zone. -/
def datesFld : FldEnv Unit := { blankEnv with snarfDt := fun _ vp z => dtStrp vp z }

/-- An event on two more days, one of them excepted. -/
def datesComp : Comp where
  kind := .vevent
  lines := ["DTSTART:20240101".toList, "RDATE:20240103,20240105".toList, "EXDATE:20240103".toList]
  props := by
    rintro l hl r hr
    simp only [List.mem_cons, List.not_mem_nil, or_false] at hl
    rcases hl with rfl | rfl | rfl <;>
      (obtain rfl := Option.some.inj hr; exact ⟨by decide, by decide⟩)

/-- The same days on a line each. -/
def linesComp : Comp where
  kind := .vevent
  lines := ["DTSTART:20240101".toList, "RDATE:20240103".toList, "RDATE:20240105".toList]
  props := by
    rintro l hl r hr
    simp only [List.mem_cons, List.not_mem_nil, or_false] at hl
    rcases hl with rfl | rfl | rfl <;>
      (obtain rfl := Option.some.inj hr; exact ⟨by decide, by decide⟩)

set_option maxRecDepth 20000 in
theorem makeVeStrm_dates_two :
    ([Instant.pack 2024 1 3 255 0 0 0, .pack 2024 1 5 255 0 0 0] =
          datesComp.lines.flatMap (lineDates datesEnv .rdate) ∧
        [Instant.pack 2024 1 3 255 0 0 0] =
          datesComp.lines.flatMap (lineDates datesEnv .xdate)) ↔
      OneLine datesEnv .rdate datesComp.lines ∧ OneLine datesEnv .xdate datesComp.lines :=
  makeVeStrm_dates datesEnv datesFld (fun _ => 0)
    (.zero (evicalSnarfers (recurFldEnv datesEnv datesFld))) datesComp (by decide)
    (show makeVeStrm _ _ _ = .recur ⟨.pack 2024 1 1 255 0 0 0, echsNulInstant, 0, 0, 0⟩ []
      [.pack 2024 1 3 255 0 0 0, .pack 2024 1 5 255 0 0 0] [] [.pack 2024 1 3 255 0 0 0] from rfl)

set_option maxRecDepth 20000 in
/-- The dates of the first line are lost to the second one. -/
theorem rdate_replaces_rdate :
    ¬ ∀ (n : RecurEnv Unit) (e : FldEnv Unit) (sts : RecurSlots Unit → Nat)
      (g : Vevent (RecurSlots Unit)) (k : Comp) (pe : EchsEvent) (rr xr : List Rrulsp)
      (rd xd : List Instant), (∀ l ∈ k.lines, '\x00' ∉ l) →
        makeVeStrm (recurFldEnv n e) sts (k.vevent (evicalSnarfers (recurFldEnv n e)) g) =
          .recur pe rr rd xr xd →
        rd = k.lines.flatMap (lineDates n .rdate) ∧
          xd = k.lines.flatMap (lineDates n .xdate) := by
  intro h
  have hdates := h datesEnv datesFld (fun _ => 0)
    (.zero (evicalSnarfers (recurFldEnv datesEnv datesFld))) linesComp
    ⟨.pack 2024 1 1 255 0 0 0, echsNulInstant, 0, 0, 0⟩ [] []
    [.pack 2024 1 5 255 0 0 0] [] (by decide) rfl
  exact absurd hdates.1 (by decide)

end Echse
