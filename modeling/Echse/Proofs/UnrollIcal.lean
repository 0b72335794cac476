/-
What is printed of all streams.

The pops of the stream of all streams are a run of the merge, down to where nothing is left.  As
they do not go back in time, the first event past `till` ends the window, and what is printed is
what lies in it.  The filter is asked for that and nothing else, one event after another.
-/
import Echse.Proofs.Evmux
import Echse.Proofs.PlainFilters
import Echse.Proofs.Unroll
import Echse.UnrollIcal

namespace Echse

open Mux Unroll

variable {R : EchsEvent → EchsEvent → Prop} {D : EchsEvent → Prop} {smux : VmuxStrm}

/-- The streams that are left. -/
def VmuxStrm.rest : VmuxStrm → List (List EchsEvent)
  | .null => []
  | .one s => [s]
  | .mux this => this.rest

def VmuxStrm.Ready : VmuxStrm → Prop
  | .null => True
  | .one _ => True
  | .mux this => this.Ready

/-- The events that pops give, up to the first that gives none. -/
def VmuxStrm.events : Nat → VmuxStrm → List EchsEvent
  | 0, _ => []
  | n + 1, smux => if echsEvent0P smux.pop.1 then [] else smux.pop.1 :: smux.pop.2.events n

@[simp] theorem VmuxStrm.pop_null : VmuxStrm.null.pop = (echsNulEvent, .null) := rfl

@[simp] theorem VmuxStrm.pop_nil : (VmuxStrm.one []).pop = (echsNulEvent, .one []) := rfl

@[simp] theorem VmuxStrm.pop_cons (e : EchsEvent) (s : List EchsEvent) :
    (VmuxStrm.one (e :: s)).pop = (e, .one s) := rfl

/-- Within so many pops there is one that gives nothing. -/
def VmuxStrm.Drained : Nat → VmuxStrm → Prop
  | 0, _ => False
  | n + 1, smux => echsEvent0P smux.pop.1 = true ∨ smux.pop.2.Drained n

/-- A pop is a run of the merge. -/
structure VmuxStrm.Popped (R : EchsEvent → EchsEvent → Prop) (smux : VmuxStrm) : Prop where
  ready : smux.pop.2.Ready
  run : Run R EchsEvent.sig smux.rest (popped true smux.pop.1) smux.pop.2.rest
  done : echsEvent0P smux.pop.1 = true ↔ ∀ s ∈ smux.rest, s = []

theorem VmuxStrm.pop_spec (hf : Fits R D) (hready : smux.Ready)
    (hgood : ∀ s ∈ smux.rest, Good R D s) : smux.Popped R := by
  have hnul : popped true echsNulEvent = [] := by simp [popped, event0P_nul]
  cases smux with
  | null =>
      refine ⟨?_, ?_, ?_⟩
      · simp [VmuxStrm.Ready]
      · simp only [pop_null, hnul]
        exact Run.refl _
      · simp [VmuxStrm.rest, event0P_nul]
  | one s =>
      cases s with
      | nil =>
          refine ⟨?_, ?_, ?_⟩
          · simp [VmuxStrm.Ready]
          · simp only [pop_nil, hnul]
            exact Run.refl _
          · simp [VmuxStrm.rest, event0P_nul]
      | cons e t =>
          have he : echsEvent0P e = false :=
            (hgood (e :: t) (List.mem_singleton_self _)).events e List.mem_cons_self
          refine ⟨?_, ?_, ?_⟩
          · simp [VmuxStrm.Ready]
          · have hstep : Step R EchsEvent.sig ([] ++ (e :: t) :: []) [e] ([] ++ t :: []) :=
              .pop fun s hs => absurd hs List.not_mem_nil
            have hrun := Run.step hstep (Run.refl _)
            simpa [popped, he, VmuxStrm.rest] using hrun
          · simp [VmuxStrm.rest, he]
  | mux this =>
      obtain ⟨hready', hrun, hdone⟩ := nextEvmux_spec hf hready hgood true
      exact ⟨hready', hrun, hdone⟩

theorem VmuxStrm.Popped.good (h : smux.Popped R) (hgood : ∀ s ∈ smux.rest, Good R D s) :
    ∀ s ∈ smux.pop.2.rest, Good R D s := by
  intro s hs
  obtain ⟨s', hs', hsub⟩ := h.run.sublist s hs
  exact (hgood s' hs').sublist hsub

/-- All pops together; enough of them leave nothing. -/
theorem VmuxStrm.events_run (hf : Fits R D) (n : Nat) :
    ∀ smux : VmuxStrm, smux.Ready → (∀ s ∈ smux.rest, Good R D s) →
      ∃ ls, Run R EchsEvent.sig smux.rest (smux.events n) ls ∧
        (smux.rest.flatten.length < n → ls.flatten = [] ∧ smux.Drained n) := by
  induction n with
  | zero =>
      intro smux _ _
      exact ⟨smux.rest, Run.refl _, fun hlen => absurd hlen (Nat.not_lt_zero _)⟩
  | succ n ih =>
      intro smux hready hgood
      have hpop := pop_spec hf hready hgood
      have hlen := hpop.run.length
      rw [VmuxStrm.events]
      cases h0 : echsEvent0P smux.pop.1 with
      | true =>
          have hnil : smux.rest.flatten = [] := List.flatten_eq_nil_iff.mpr (hpop.done.mp h0)
          exact ⟨smux.rest, Run.refl _, fun _ => ⟨hnil, Or.inl h0⟩⟩
      | false =>
          obtain ⟨ls, hrun, hls⟩ := ih _ hpop.ready (hpop.good hgood)
          have hout : popped true smux.pop.1 = [smux.pop.1] := by simp [popped, h0]
          have hfirst := hpop.run
          rw [hout] at hfirst hlen
          rw [List.length_singleton] at hlen
          refine ⟨ls, hfirst.trans hrun, ?_⟩
          intro hlt
          obtain ⟨hnil, hdrained⟩ := hls (by omega)
          exact ⟨hnil, Or.inr hdrained⟩

/-! ### The window -/

/-- Neither before `from` nor past `till`. -/
def UnrollParam.has (p : UnrollParam) (e : EchsEvent) : Bool :=
  !echsInstantLtP (echsInstantDetachScale e.from_) p.from_ &&
    !echsInstantLtP p.till (echsInstantDetachScale e.from_)

/-- The start of an event without its scale does not go back. -/
def Forward (es : List EchsEvent) : Prop :=
  es.Pairwise fun e e' =>
    (echsInstantDetachScale e.from_).key ≤ (echsInstantDetachScale e'.from_).key

/-- Past `till` there are no more. -/
theorem filter_past {p : UnrollParam} {e : EchsEvent} {es : List EchsEvent}
    (h : Forward (e :: es)) (hpast : echsInstantLtP p.till (echsInstantDetachScale e.from_) = true) :
    (e :: es).filter p.has = [] := by
  rw [ltP_iff] at hpast
  refine List.filter_eq_nil_iff.mpr fun e' he' hhas => ?_
  have hle : (echsInstantDetachScale e.from_).key ≤ (echsInstantDetachScale e'.from_).key := by
    rcases List.mem_cons.mp he' with rfl | he'
    · exact le_rfl
    · exact List.rel_of_pairwise_cons h he'
  rw [UnrollParam.has, Bool.and_eq_true, Bool.not_eq_true', Bool.not_eq_true', ltP_false_iff,
    ltP_false_iff] at hhas
  omega

theorem UnrollParam.has_of {p : UnrollParam} {e : EchsEvent}
    (hfrom : ¬ echsInstantLtP (echsInstantDetachScale e.from_) p.from_ = true)
    (htill : ¬ echsInstantLtP p.till (echsInstantDetachScale e.from_) = true) : p.has e = true := by
  simp [UnrollParam.has, hfrom, htill]

theorem UnrollParam.not_has {p : UnrollParam} {e : EchsEvent}
    (hfrom : echsInstantLtP (echsInstantDetachScale e.from_) p.from_ = true) :
    ¬ p.has e = true := by
  simp [UnrollParam.has, hfrom]

/-- **`unroll_ical` prints what is in the window.** -/
theorem unrollIcal_eq (getTask : Nat → Option Nat) (p : UnrollParam) (n : Nat) :
    ∀ smux : VmuxStrm, smux.Drained n → Forward (smux.events n) →
      unrollIcal getTask p n smux =
        some (((smux.events n).filter p.has).map fun e => (getTask e.oid, e)) := by
  induction n with
  | zero => intro smux hdrained; exact hdrained.elim
  | succ n ih =>
      intro smux hdrained hfor
      rw [unrollIcal]
      rw [VmuxStrm.events] at hfor ⊢
      cases h0 : echsEvent0P smux.pop.1 with
      | true => rfl
      | false =>
          rw [h0, if_neg Bool.false_ne_true] at hfor
          rw [if_neg Bool.false_ne_true, if_neg Bool.false_ne_true]
          have hmore : smux.pop.2.Drained n := hdrained.resolve_left (by simp [h0])
          have hrest := ih smux.pop.2 hmore (List.Pairwise.of_cons hfor)
          dsimp only
          by_cases hfrom : echsInstantLtP (echsInstantDetachScale smux.pop.1.from_) p.from_ = true
          · rw [if_pos hfrom, hrest, List.filter_cons_of_neg (UnrollParam.not_has hfrom)]
          · rw [if_neg hfrom]
            by_cases htill : echsInstantLtP p.till (echsInstantDetachScale smux.pop.1.from_) = true
            · rw [if_pos htill, filter_past hfor htill, List.map_nil]
            · rw [if_neg htill, hrest, List.filter_cons_of_pos (UnrollParam.has_of hfrom htill)]
              rfl

/-! ### The filter -/

/-- Without its scale. -/
def EchsEvent.detached (e : EchsEvent) : EchsEvent :=
  { e with from_ := echsInstantDetachScale e.from_ }

/-- The events that the filter lets through, asked for one after another. -/
def askFilter (p : UnrollParam) (fill : Nat) : Whitelist → List EchsEvent → Option (List EchsEvent)
  | _, [] => some []
  | wl, e :: es =>
      if p.filt.freq = .none then (askFilter p fill wl es).map (e :: ·)
      else
        match echsInstantMatchesP fill p.filt e.from_ wl with
        | none => none
        | some (false, wl) => askFilter p fill wl es
        | some (true, wl) => (askFilter p fill wl es).map (e :: ·)

/-- **`unroll_frmt` asks the filter for what is in the window**, and prints what it lets through. -/
theorem unrollFrmt_eq (p : UnrollParam) (fill n : Nat) :
    ∀ (wl : Whitelist) (smux : VmuxStrm), smux.Drained n → Forward (smux.events n) →
      unrollFrmt p fill n wl smux =
        askFilter p fill wl (((smux.events n).filter p.has).map EchsEvent.detached) := by
  induction n with
  | zero => intro wl smux hdrained; exact hdrained.elim
  | succ n ih =>
      intro wl smux hdrained hfor
      rw [unrollFrmt]
      rw [VmuxStrm.events] at hfor ⊢
      cases h0 : echsEvent0P smux.pop.1 with
      | true => rfl
      | false =>
          rw [h0, if_neg Bool.false_ne_true] at hfor
          rw [if_neg Bool.false_ne_true, if_neg Bool.false_ne_true]
          have hmore : smux.pop.2.Drained n := hdrained.resolve_left (by simp [h0])
          have hrest := fun wl => ih wl smux.pop.2 hmore (List.Pairwise.of_cons hfor)
          dsimp only
          by_cases htill : echsInstantLtP p.till (echsInstantDetachScale smux.pop.1.from_) = true
          · rw [if_pos htill, filter_past hfor htill]
            rfl
          · rw [if_neg htill]
            by_cases hfrom : echsInstantLtP (echsInstantDetachScale smux.pop.1.from_) p.from_ = true
            · rw [if_pos hfrom, hrest, List.filter_cons_of_neg (UnrollParam.not_has hfrom)]
            · rw [if_neg hfrom, List.filter_cons_of_pos (UnrollParam.has_of hfrom htill),
                List.map_cons]
              simp only [hrest]
              rfl

/-- Without a filter there is nothing to ask. -/
theorem askFilter_none {p : UnrollParam} (hfreq : p.filt.freq = .none) (fill : Nat) (wl : Whitelist)
    (es : List EchsEvent) : askFilter p fill wl es = some es := by
  induction es with
  | nil => rfl
  | cons e es ih => rw [askFilter, if_pos hfreq, ih, Option.map_some]

open Classical in
/-- A filter that answers as it should lets the rule's dates through. -/
theorem askFilter_of_filters {p : UnrollParam} (hfreq : p.filt.freq ≠ .none)
    (es : List EchsEvent) :
    ∀ wl, Filters p.filt wl (es.map EchsEvent.from_) → ∃ fill₀, ∀ fill, fill₀ ≤ fill →
      askFilter p fill wl es = some (es.filter fun e => IsRuleDate p.filt e.from_.date) := by
  induction es with
  | nil => intro wl _; exact ⟨0, fun _ _ => rfl⟩
  | cons e es ih =>
      intro wl hfilters
      obtain ⟨b, wl', ⟨fill₁, hanswer⟩, hb, hmore⟩ := hfilters
      obtain ⟨fill₂, hrest⟩ := ih wl' hmore
      refine ⟨max fill₁ fill₂, ?_⟩
      intro fill hfill
      have hsame := matchesP_mono (le_trans (le_max_left _ _) hfill) hanswer
      have hes := hrest fill (le_trans (le_max_right _ _) hfill)
      rw [askFilter, if_neg hfreq, hsame]
      cases b with
      | false =>
          have hno : ¬ IsRuleDate p.filt e.from_.date := by simpa using hb
          simp [hes, hno]
      | true =>
          have hyes : IsRuleDate p.filt e.from_.date := hb.mp rfl
          simp [hes, hyes]

/-! ### All tasks -/

theorem rest_vmux (ev : List EchsEvent) (s : List (Option (List EchsEvent))) :
    (echsEvstrmVmux ev s).rest = s.filterMap id ∧ (echsEvstrmVmux ev s).Ready := by
  rw [echsEvstrmVmux]
  rcases s.filterMap id with _ | ⟨s, _ | ⟨s', ss⟩⟩
  · exact ⟨rfl, trivial⟩
  · exact ⟨rfl, trivial⟩
  · exact ⟨rfl, ready_make ev _⟩

section

variable {strm : Nat → Option Nat} {calloc realloc : Nat → Bool} {st : Unroll}
  {ins : List (Nat × Nat)} {evs : Nat → List EchsEvent} {ev : List EchsEvent} {p : UnrollParam}

/-- The streams that tasks come with: in order, of events with the task's id, and no two of whose
events change their order when their scales are detached. -/
structure TaskStreams (strm : Nat → Option Nat) (evs : Nat → List EchsEvent)
    (ins : List (Nat × Nat)) : Prop where
  good : ∀ c ∈ ins, ∀ s, strm c.2 = some s → Events (evs s) ∧ Nondecreasing (evs s)
  oid : ∀ c ∈ ins, ∀ s, strm c.2 = some s → ∀ e ∈ evs s, e.oid = c.1
  aligned : ∀ c ∈ ins, ∀ s, strm c.2 = some s → ∀ c' ∈ ins, ∀ s', strm c'.2 = some s' →
    ∀ e ∈ evs s, ∀ e' ∈ evs s', e.from_.key ≤ e'.from_.key →
      (echsInstantDetachScale e.from_).key ≤ (echsInstantDetachScale e'.from_).key

theorem mem_streamsOf {s : Nat} {cur : List (Nat × Nat)} :
    s ∈ streamsOf strm cur ↔ ∃ c ∈ cur, strm c.2 = some s := List.mem_filterMap

/-- The stream of all streams has those of the tasks. -/
theorem Unroll.Held.rest (h : Held strm st ins) :
    (st.smux evs ev).rest = (streamsOf strm (Unroll.tasksOf ins)).map evs := by
  rw [Unroll.smux, (rest_vmux ev _).1, condenseStrms_eq, filter_isSome, h.streams]
  simp [List.filterMap_map]

theorem TaskStreams.streams (h : TaskStreams strm evs ins) {s : List EchsEvent}
    (hs : s ∈ (streamsOf strm (Unroll.tasksOf ins)).map evs) :
    Good (fun e1 e2 => echsEventLtP e2 e1 = false) (fun _ => True) s := by
  obtain ⟨a, ha, rfl⟩ := List.mem_map.mp hs
  obtain ⟨c, hc, hstrm⟩ := mem_streamsOf.mp ha
  obtain ⟨hev, hord⟩ := h.good c (tasksOf_subset ins hc) a hstrm
  exact ⟨hev, hord, fun _ _ => trivial⟩

/-- What pops of the stream of all streams give, when there are enough of them. -/
structure Merged (strm : Nat → Option Nat) (evs : Nat → List EchsEvent) (ins : List (Nat × Nat))
    (n : Nat) (smux : VmuxStrm) : Prop where
  drained : smux.Drained n
  forward : Forward (smux.events n)
  ordered : Nondecreasing (smux.events n)
  mem : ∀ e ∈ smux.events n, ∃ c ∈ Unroll.tasksOf ins, ∃ s, strm c.2 = some s ∧ e ∈ evs s
  cover : ∀ c ∈ Unroll.tasksOf ins, ∀ s, strm c.2 = some s → ∀ e ∈ evs s,
    ∃ e' ∈ smux.events n, e'.sig = e.sig

theorem Unroll.Held.merged (h : Held strm st ins) (hstrms : TaskStreams strm evs ins) {n : Nat}
    (hn : ((streamsOf strm (Unroll.tasksOf ins)).map evs).flatten.length < n) :
    Merged strm evs ins n (st.smux evs ev) := by
  have hrest : (st.smux evs ev).rest = (streamsOf strm (Unroll.tasksOf ins)).map evs := h.rest
  have hready : (st.smux evs ev).Ready := (rest_vmux ev _).2
  have hgood : ∀ s ∈ (st.smux evs ev).rest,
      Good (fun e1 e2 => echsEventLtP e2 e1 = false) (fun _ => True) s := by
    intro s hs
    exact hstrms.streams (hrest ▸ hs)
  obtain ⟨ls, hmerge, hls⟩ := VmuxStrm.events_run fits_nondecreasing n _ hready hgood
  obtain ⟨hnil, hdrained⟩ := hls (hrest ▸ hn)
  have hmem : ∀ e ∈ (st.smux evs ev).events n, ∃ c ∈ Unroll.tasksOf ins, ∃ s,
      strm c.2 = some s ∧ e ∈ evs s := by
    intro e he
    obtain ⟨es, hes, hees⟩ := List.mem_flatten.mp (hmerge.mem (Or.inl he))
    rw [hrest] at hes
    obtain ⟨s, hs, rfl⟩ := List.mem_map.mp hes
    obtain ⟨c, hc, hstrm⟩ := mem_streamsOf.mp hs
    exact ⟨c, hc, s, hstrm, hees⟩
  have hord : Nondecreasing ((st.smux evs ev).events n) :=
    hmerge.pairwise fits_nondecreasing.trans fun s hs => (hgood s hs).ordered
  refine ⟨hdrained, ?_, hord, hmem, ?_⟩
  · -- detaching the scales does not change the order
    refine List.Pairwise.imp_of_mem ?_ hord
    intro e e' he he' hle
    obtain ⟨c, hc, s, hs, hes⟩ := hmem e he
    obtain ⟨c', hc', s', hs', hes'⟩ := hmem e' he'
    exact hstrms.aligned c (tasksOf_subset ins hc) s hs c' (tasksOf_subset ins hc') s' hs' e hes
      e' hes' ((ltP_false_iff _ _).mp hle)
  · intro c hc s hs e he
    have hin : e ∈ (st.smux evs ev).rest.flatten := by
      rw [hrest]
      exact List.mem_flatten.mpr ⟨evs s, List.mem_map_of_mem (mem_streamsOf.mpr ⟨c, hc, hs⟩), he⟩
    obtain ⟨e', he', hsig⟩ := hmerge.cover hin
    rw [hnil] at he'
    exact ⟨e', he'.resolve_right List.not_mem_nil, hsig⟩

/-- A filter that is able to answer: a plain one, that is asked about dates at one time of day. -/
structure FilterFit (p : UnrollParam) (es : List EchsEvent) : Prop where
  plain : PlainFilter p.filt
  query : ∀ e ∈ es, Query e.detached.from_
  time : ∀ e ∈ es, ∀ e' ∈ es, SameTime e.detached.from_ e'.detached.from_

theorem FilterFit.filters {es es' : List EchsEvent} (h : FilterFit p es) (hsub : es' ⊆ es)
    (hfor : Forward es') : Filters p.filt {} ((es'.map EchsEvent.detached).map EchsEvent.from_) := by
  refine h.plain.filters ?_ ?_ ?_
  · simp only [List.map_map, List.mem_map, Function.comp_apply, forall_exists_index, and_imp,
      forall_apply_eq_imp_iff₂]
    intro e he
    exact h.query e (hsub he)
  · rw [List.map_map, List.pairwise_map]
    refine hfor.imp ?_
    intro e e' hle
    exact (ltP_false_iff _ _).mpr hle
  · rw [List.map_map, List.pairwise_map]
    refine List.Pairwise.imp_of_mem (R := fun _ _ => True) ?_ (List.pairwise_of_forall fun _ _ => trivial)
    intro e e' he he' _
    exact h.time e (hsub he) e' (hsub he')

/-- A filter is as plain with a frequency as without. -/
theorem PlainFilter.freq {rr : Rrulsp} (h : PlainFilter rr) (f : Freq) :
    PlainFilter { rr with freq := f } where
  ranged := by
    obtain ⟨mon, hours, mins, secs, dom, wk, doy, pos, easter, dow⟩ := h.ranged
    exact ⟨mon, hours, mins, secs, dom, wk, doy, pos, easter, dow⟩
  isOpen := by
    obtain ⟨scale, until_, count, shift, pos⟩ := h.isOpen
    exact ⟨scale, until_, count, shift, pos⟩
  inter := h.inter
  own := h.own
  hours := h.hours
  mins := h.mins
  secs := h.secs
  inYear := by
    intro y
    obtain ⟨doy, dow, easter, dom⟩ := h.inYear y
    exact ⟨doy, dow, easter, dom⟩
  yearly := h.yearly

end

/-! ### A week in May -/

/-- All day in May 2020. -/
def mayDay (oid d : Nat) : EchsEvent := ⟨.pack 2020 5 d 255 0 0 0, echsNulInstant, 0, oid, 0⟩

/-- Three tasks, the last one in place of the first. -/
def mayTasks : List (Nat × Nat) := [(1, 10), (5, 11), (1, 12)]

def mayEvs : Nat → List EchsEvent
  | 10 => [mayDay 1 1]
  | 11 => [mayDay 5 25, mayDay 5 29]
  | 12 => [mayDay 1 29, mayDay 1 30]
  | _ => []

/-- `echse unroll --from 20200528 --filter BYMONTHDAY=29`. -/
def mayParam : UnrollParam :=
  unrollParam (some "20200528".toList) none (some "BYMONTHDAY=29".toList)

theorem mayEvs_streams : TaskStreams some mayEvs mayTasks where
  good := by
    intro c hc s hs
    obtain rfl := Option.some.inj hs
    revert c hc
    unfold Events Nondecreasing
    decide
  oid := by
    intro c hc s hs
    obtain rfl := Option.some.inj hs
    revert c hc
    decide
  aligned := by
    intro c hc s hs c' hc' s' hs'
    obtain rfl := Option.some.inj hs
    obtain rfl := Option.some.inj hs'
    revert c hc c' hc'
    decide

theorem injectAll_may :
    ∃ st, injectAll some (fun _ => true) (fun _ => true) mayTasks = some st :=
  Option.isSome_iff_exists.mp (by decide)

theorem mayFilter : FilterFit mayParam
    (((streamsOf some (Unroll.tasksOf mayTasks)).map mayEvs).flatten) where
  plain := filter29_plain.freq .yearly
  query := by
    have h : ∀ e ∈ ((streamsOf some (Unroll.tasksOf mayTasks)).map mayEvs).flatten,
        (2 ≤ e.detached.from_.y ∧ e.detached.from_.y < 4000) ∧
        (1 ≤ e.detached.from_.m ∧ e.detached.from_.m ≤ 12) ∧
        (1 ≤ e.detached.from_.d ∧ e.detached.from_.d ≤ 31) := by decide
    intro e he
    obtain ⟨year, month, day⟩ := h e he
    exact ⟨year, month, day⟩
  time := by
    unfold SameTime
    decide

end Echse
