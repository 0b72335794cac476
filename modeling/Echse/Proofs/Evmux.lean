/-
The muxer merges its streams.

Whatever is asked of it, a look or a pop, the cache holds what the streams have next, and
the search drops items that another stream also has next.  So each call is a run of steps
of a merge, and the muxer's results are the merge's.
-/
import Echse.Evmux
import Echse.Lib.Mux
import Echse.Proofs.Keys

namespace Echse

open Mux (Step Run Ordered)

/-! ### Events -/

/-- What the muxer tells events apart by. -/
def EchsEvent.sig (e : EchsEvent) : Nat × Instant := (e.oid, e.from_)

theorem eventEqP_iff (e1 e2 : EchsEvent) : echsEventEqP e1 e2 = true ↔ e1.sig = e2.sig := by
  rw [echsEventEqP, echsInstantEqP, Bool.and_eq_true, beq_iff_eq, beq_iff_eq, EchsEvent.sig,
    EchsEvent.sig, Prod.mk.injEq]
  exact and_congr_right fun _ => ⟨Instant.u_inj, congrArg _⟩

theorem eventLtP_iff (e1 e2 : EchsEvent) :
    echsEventLtP e1 e2 = true ↔ e1.from_.key < e2.from_.key := ltP_iff _ _

/-- A stream's events: none of them is the nul event that a stream ends with. -/
def Events (s : List EchsEvent) : Prop := ∀ e ∈ s, echsEvent0P e = false

theorem evstrmNext_cons (e : EchsEvent) (s : List EchsEvent) : echsEvstrmNext (e :: s) = e := rfl

theorem event0P_nul : echsEvent0P echsNulEvent = true := by decide

theorem event0P_next {s : List EchsEvent} (h : Events s) :
    echsEvent0P (echsEvstrmNext s) = true ↔ s = [] := by
  cases s with
  | nil => exact iff_of_true event0P_nul rfl
  | cons e s => simp [evstrmNext_cons, h e List.mem_cons_self]

/-! ### The search

`R` is what a popped event must stand in to the other streams' next ones: the order of the
starts, or the strict one.  `D` is what is known of all events. -/

structure Fits (R : EchsEvent → EchsEvent → Prop) (D : EchsEvent → Prop) : Prop where
  trans : ∀ x y z, R x y → R y z → R x z
  of_lt : ∀ x y, echsEventLtP x y = true → R x y
  of_eq : ∀ x y z, echsEventEqP x y = true → R x z → R y z
  of_not : ∀ x y, D x → D y → echsEventLtP x y = false → echsEventEqP x y = false → R y x

/-- The stream at place `k` has `y` next, and `y` stands in `R` to what the others have. -/
def BestAt (R : EchsEvent → EchsEvent → Prop) (ss : List (List EchsEvent)) (k : Nat)
    (y : EchsEvent) : Prop :=
  ∃ p t q, ss = p ++ (y :: t) :: q ∧ p.length = k ∧
    ∀ s ∈ p ++ q, ∀ x, s.head? = some x → R y x

variable {R : EchsEvent → EchsEvent → Prop} {D : EchsEvent → Prop}

/-- A stream in the order of `R`. -/
structure Good (R : EchsEvent → EchsEvent → Prop) (D : EchsEvent → Prop)
    (s : List EchsEvent) : Prop where
  events : Events s
  ordered : s.Pairwise R
  dom : ∀ e ∈ s, D e

theorem Good.sublist {s t : List EchsEvent} (h : Good R D s) (hst : t.Sublist s) :
    Good R D t where
  events e he := h.events e (hst.subset he)
  ordered := h.ordered.sublist hst
  dom e he := h.dom e (hst.subset he)

theorem BestAt.snoc {ss : List (List EchsEvent)} {k : Nat} {y : EchsEvent} {s : List EchsEvent}
    (h : BestAt R ss k y) (hs : ∀ x, s.head? = some x → R y x) : BestAt R (ss ++ [s]) k y := by
  obtain ⟨p, t, q, rfl, hk, hall⟩ := h
  refine ⟨p, t, q ++ [s], by simp, hk, ?_⟩
  intro s' hs' x hx
  rw [← List.append_assoc, List.mem_append, List.mem_singleton] at hs'
  rcases hs' with hs' | rfl
  · exact hall s' hs' x hx
  · exact hs x hx

/-- A new best event. -/
theorem BestAt.new (hf : Fits R D) {ss : List (List EchsEvent)} {k : Nat} {y e : EchsEvent}
    {t : List EchsEvent} (h : BestAt R ss k y) (he : echsEventLtP e y = true) :
    BestAt R (ss ++ [e :: t]) ss.length e := by
  obtain ⟨p, t', q, rfl, hk, hall⟩ := h
  refine ⟨p ++ (y :: t') :: q, t, [], rfl, rfl, ?_⟩
  intro s hs x hx
  have hey := hf.of_lt e y he
  rw [List.append_nil, List.mem_append, List.mem_cons] at hs
  rcases hs with hs | rfl | hs
  · exact hf.trans _ _ _ hey (hall s (List.mem_append_left _ hs) x hx)
  · obtain rfl := Option.some.inj hx
    exact hey
  · exact hf.trans _ _ _ hey (hall s (List.mem_append_right _ hs) x hx)

theorem BestAt.mem {ss : List (List EchsEvent)} {k : Nat} {y : EchsEvent}
    (h : BestAt R ss k y) : ∃ s ∈ ss, s.head? = some y := by
  obtain ⟨p, t, q, rfl, -, -⟩ := h
  exact ⟨y :: t, by simp, rfl⟩

/-- The search from `ss` on is a run of drops, and ends with a best event. -/
structure Scanned (R : EchsEvent → EchsEvent → Prop) (pre ss : List (List EchsEvent))
    (r : Scan) : Prop where
  cache : r.ev = r.s.map echsEvstrmNext
  run : Run R EchsEvent.sig (pre ++ ss) [] (pre ++ r.s)
  best : BestAt R (pre ++ r.s) r.besti r.best

/-- Every branch puts one more stream before those to come. -/
theorem Scanned.cons {pre ss : List (List EchsEvent)} {s s' : List EchsEvent} {r : Scan}
    (h : Scanned R (pre ++ [s']) ss r)
    (hrun : Run R EchsEvent.sig (pre ++ s :: ss) [] (pre ++ s' :: ss)) :
    Scanned R pre (s :: ss) (r.cons s' (echsEvstrmNext s')) := by
  obtain ⟨hev, hrun', hb⟩ := h
  rw [List.append_assoc, List.append_assoc] at hrun'
  rw [List.append_assoc] at hb
  exact ⟨by simp [Scan.cons, hev], hrun.trans hrun', hb⟩

theorem evmuxScan_spec (hf : Fits R D) (ss : List (List EchsEvent)) :
    ∀ (pre : List (List EchsEvent)) (best : EchsEvent) (besti : Nat),
      BestAt R pre besti best → D best → (∀ s ∈ ss, Good R D s) →
      Scanned R pre ss (evmuxScan pre.length best besti ss (ss.map echsEvstrmNext)) := by
  induction ss with
  | nil =>
      intro pre best besti hbest _ _
      refine ⟨rfl, Run.refl _, ?_⟩
      rw [evmuxScan, List.append_nil]
      · exact hbest
      · simp
  | cons s ss ih =>
      intro pre best besti hbest hD hss
      have hs := hss s List.mem_cons_self
      have hrest : ∀ s ∈ ss, Good R D s := fun s hs => hss s (List.mem_cons_of_mem _ hs)
      have hnext (s' : List EchsEvent) (best' : EchsEvent) (besti' : Nat)
          (hb : BestAt R (pre ++ [s']) besti' best') (hD' : D best') :
          Scanned R (pre ++ [s']) ss
            (evmuxScan (pre.length + 1) best' besti' ss (ss.map echsEvstrmNext)) := by
        have h := ih (pre ++ [s']) best' besti' hb hD' hrest
        rwa [List.length_append] at h
      rw [List.map_cons, evmuxScan]
      cases s with
      | nil =>
          rw [if_pos (show echsEvent0P (echsEvstrmNext []) = true from event0P_nul)]
          exact (hnext [] best besti (hbest.snoc (by simp)) hD).cons (Run.refl _)
      | cons e t =>
          have he0 := hs.events e List.mem_cons_self
          have hDe := hs.dom e List.mem_cons_self
          rw [evstrmNext_cons, if_neg (by simp [he0])]
          split
          · next hlt =>
              exact (hnext (e :: t) e pre.length (hbest.new hf hlt) hDe).cons (Run.refl _)
          split
          · next hlt heq =>
              have hdrop : Step R EchsEvent.sig (pre ++ (e :: t) :: ss) [] (pre ++ t :: ss) := by
                obtain ⟨s, hs, hh⟩ := hbest.mem
                exact Step.drop ⟨s, List.mem_append_left _ hs, hh⟩ ((eventEqP_iff _ _).mp heq)
              refine (hnext t best besti (hbest.snoc ?_) hD).cons (.step hdrop (Run.refl _))
              intro x hx
              exact hf.of_eq e best x heq
                (List.rel_of_pairwise_cons hs.ordered (List.mem_of_mem_head? hx))
          · next hlt heq =>
              refine (hnext (e :: t) best besti (hbest.snoc ?_) hD).cons (Run.refl _)
              intro x hx
              obtain rfl := Option.some.inj hx
              exact hf.of_not _ best hDe hD (by simpa using hlt) (by simpa using heq)

/-- The search from the first stream that has an event. -/
theorem scanned_first (hf : Fits R D) {p q : List (List EchsEvent)} {e : EchsEvent}
    {t : List EchsEvent} (hp : ∀ s ∈ p, s = []) (hD : D e) (hq : ∀ s ∈ q, Good R D s) :
    Scanned R (p ++ [e :: t]) q
      (evmuxScan (p.length + 1) e p.length q (q.map echsEvstrmNext)) := by
  have hbest : BestAt R (p ++ [e :: t]) p.length e := by
    refine ⟨p, t, [], rfl, rfl, ?_⟩
    intro s hs x hx
    rw [hp s (by simpa using hs)] at hx
    exact absurd hx (by simp)
  have hscan := evmuxScan_spec hf q (p ++ [e :: t]) e p.length hbest hD hq
  rwa [show (p ++ [e :: t]).length = p.length + 1 by simp] at hscan

/-! ### A call -/

/-- What a call finds in the cache is what the streams have next. -/
def Evmux.Ready (this : Evmux) : Prop :=
  ∀ ss, this.s = some ss → evmuxPrecache ss this.ev = ss.map echsEvstrmNext

/-- The streams, which are at their end when they are gone. -/
def Evmux.rest (this : Evmux) : List (List EchsEvent) :=
  match this.s with
  | some ss => ss
  | none => this.ev.map fun _ => []

theorem ready_make (ev : List EchsEvent) (ss : List (List EchsEvent)) :
    (makeEvmux ev ss).Ready := by
  intro ss' h
  obtain rfl := Option.some.inj h
  exact if_pos (show echsMaxInstantP echsMaxInstant = true by decide)

theorem ready_cached {ss : List (List EchsEvent)} {ev : List EchsEvent}
    (h : ev = ss.map echsEvstrmNext) : (Evmux.mk (some ss) ev).Ready := by
  intro ss' hss
  obtain rfl := Option.some.inj hss
  rw [h, evmuxPrecache, ite_id]

/-- The first stream that has an event. -/
theorem first_event {ss : List (List EchsEvent)} (hev : ∀ s ∈ ss, Events s) :
    ∀ {i : Nat}, (ss.map echsEvstrmNext).findIdx? (fun e => !echsEvent0P e) = some i →
      ∃ p e t q, ss = p ++ (e :: t) :: q ∧ p.length = i ∧ echsEvent0P e = false ∧
        ∀ s ∈ p, s = [] := by
  induction ss with
  | nil => intro i h; simp at h
  | cons s ss ih =>
      intro i h
      rw [List.map_cons, List.findIdx?_cons] at h
      cases s with
      | nil =>
          rw [if_neg (by simp [echsEvstrmNext, event0P_nul]), Option.map_eq_some_iff] at h
          obtain ⟨j, hj, rfl⟩ := h
          obtain ⟨p, e, t, q, rfl, rfl, he, hp⟩ :=
            ih (fun s hs => hev s (List.mem_cons_of_mem _ hs)) hj
          exact ⟨[] :: p, e, t, q, rfl, rfl, he, by simpa using hp⟩
      | cons e t =>
          have he := hev (e :: t) List.mem_cons_self e List.mem_cons_self
          rw [evstrmNext_cons, if_pos (by simp [he])] at h
          obtain rfl := Option.some.inj h
          exact ⟨[], e, t, ss, rfl, rfl, he, by simp⟩

theorem no_event {ss : List (List EchsEvent)} (hev : ∀ s ∈ ss, Events s)
    (h : (ss.map echsEvstrmNext).findIdx? (fun e => !echsEvent0P e) = none) :
    ∀ s ∈ ss, s = [] := by
  intro s hs
  rw [List.findIdx?_eq_none_iff] at h
  have h0 := h _ (List.mem_map_of_mem hs)
  exact (event0P_next (hev s hs)).mp (by simpa using h0)

theorem findIdx?_ended {ss : List (List EchsEvent)} (hss : ∀ s ∈ ss, s = []) :
    (ss.map echsEvstrmNext).findIdx? (fun e => !echsEvent0P e) = none := by
  rw [List.findIdx?_eq_none_iff]
  intro e he
  obtain ⟨s, hs, rfl⟩ := List.mem_map.mp he
  rw [hss s hs]
  simp [echsEvstrmNext, event0P_nul]

/-- The muxer when every stream has come to its end. -/
theorem nextEvmux_end {this : Evmux} {ss : List (List EchsEvent)} (hs : this.s = some ss)
    (hready : this.Ready) (hss : ∀ s ∈ ss, s = []) (popp : Bool) :
    nextEvmux this popp = (echsNulEvent, ⟨none, ss.map echsEvstrmNext⟩) := by
  rw [nextEvmux, hs]
  dsimp only
  rw [hready ss hs, findIdx?_ended hss]

/-- The muxer when the stream after `p` is the first that has an event. -/
theorem nextEvmux_some {this : Evmux} {p q : List (List EchsEvent)} {e : EchsEvent}
    {t : List EchsEvent} (hs : this.s = some (p ++ (e :: t) :: q)) (hready : this.Ready)
    (he : echsEvent0P e = false) (hp : ∀ s ∈ p, s = [])
    {r : Scan} (hr : evmuxScan (p.length + 1) e p.length q (q.map echsEvstrmNext) = r)
    {ss : List (List EchsEvent)} (hss : p ++ [e :: t] ++ r.s = ss)
    (hcache : r.ev = r.s.map echsEvstrmNext) :
    nextEvmux this false = (r.best, ⟨some ss, ss.map echsEvstrmNext⟩) ∧
      ∀ {p' q' : List (List EchsEvent)} {t' : List EchsEvent},
        ss = p' ++ (r.best :: t') :: q' → p'.length = r.besti →
        nextEvmux this true =
          (r.best, ⟨some (p' ++ t' :: q'), (p' ++ t' :: q').map echsEvstrmNext⟩) := by
  have hidx : ((p ++ (e :: t) :: q).map echsEvstrmNext).findIdx? (fun e => !echsEvent0P e) =
      some p.length := by
    rw [List.map_append, List.findIdx?_append, findIdx?_ended hp, List.map_cons,
      List.findIdx?_cons, evstrmNext_cons, he]
    simp
  have hget : ((p ++ (e :: t) :: q).map echsEvstrmNext).getD p.length echsNulEvent = e := by
    simp [evstrmNext_cons]
  have hsplit : p ++ (e :: t) :: q = p ++ [e :: t] ++ q := by simp
  have htake : (p ++ (e :: t) :: q).take (p.length + 1) = p ++ [e :: t] := by
    rw [hsplit]
    exact List.take_left' (by simp)
  have hdrop : (p ++ (e :: t) :: q).drop (p.length + 1) = q := by
    rw [hsplit]
    exact List.drop_left' (by simp)
  have hcall (popp : Bool) : nextEvmux this popp =
      if popp then
        (r.best, ⟨some (ss.set r.besti (echsEvstrmPop (ss.getD r.besti []))),
          (ss.map echsEvstrmNext).set r.besti
            (echsEvstrmNext (echsEvstrmPop (ss.getD r.besti [])))⟩)
      else (r.best, ⟨some ss, ss.map echsEvstrmNext⟩) := by
    rw [nextEvmux, hs]
    dsimp only
    rw [hready _ hs, hidx]
    dsimp only
    rw [hget, ← List.map_take, ← List.map_drop, htake, hdrop, hr, hcache, hss, ← List.map_append,
      hss]
  refine ⟨hcall false, ?_⟩
  rintro p' q' t' rfl hk
  rw [hcall true, if_pos rfl, ← hk]
  simp [echsEvstrmPop]

/-- What comes out of a call: in popping mode the event, if there is one. -/
def popped (popp : Bool) (e : EchsEvent) : List EchsEvent :=
  if popp && !echsEvent0P e then [e] else []

/-- **A call of the muxer is a run of the merge.** -/
structure Called (R : EchsEvent → EchsEvent → Prop) (this : Evmux) (popp : Bool)
    (r : EchsEvent × Evmux) : Prop where
  ready : r.2.Ready
  run : Run R EchsEvent.sig this.rest (popped popp r.1) r.2.rest
  done : echsEvent0P r.1 = true ↔ ∀ s ∈ this.rest, s = []

theorem nextEvmux_spec (hf : Fits R D) {this : Evmux} (hready : this.Ready)
    (hgood : ∀ s ∈ this.rest, Good R D s) (popp : Bool) :
    Called R this popp (nextEvmux this popp) := by
  have hnul : popped popp echsNulEvent = [] := by simp [popped, event0P_nul]
  cases hs : this.s with
  | none =>
      have hnext : nextEvmux this popp = (echsNulEvent, this) := by rw [nextEvmux, hs]
      rw [hnext]
      refine ⟨hready, by rw [hnul]; exact Run.refl _, iff_of_true event0P_nul ?_⟩
      intro s hmem
      rw [Evmux.rest, hs, List.mem_map] at hmem
      obtain ⟨_, -, rfl⟩ := hmem
      rfl
  | some ss =>
      have hrest : this.rest = ss := by rw [Evmux.rest, hs]
      rw [hrest] at hgood
      have hev : ∀ s ∈ ss, Events s := fun s hs => (hgood s hs).events
      cases hidx : (ss.map echsEvstrmNext).findIdx? (fun e => !echsEvent0P e) with
      | none =>
          have hend := no_event hev hidx
          rw [nextEvmux_end hs hready hend]
          refine ⟨by intro ss' h; simp at h, ?_, iff_of_true event0P_nul (by rwa [hrest])⟩
          have hid : (ss.map echsEvstrmNext).map (fun _ => ([] : List EchsEvent)) = ss := by
            rw [List.map_map]
            exact (List.map_congr_left fun s hs => (hend s hs).symm).trans (List.map_id ss)
          rw [hnul, hrest, Evmux.rest, hid]
          exact Run.refl _
      | some i =>
          obtain ⟨p, e, t, q, rfl, rfl, he, hp⟩ := first_event hev hidx
          have hscan := scanned_first hf hp ((hgood (e :: t) (by simp)).dom e List.mem_cons_self)
            (t := t) (q := q) fun s hs => hgood s (by simp [hs])
          obtain ⟨hcache, hrun, hbest⟩ := hscan
          generalize hr : evmuxScan (p.length + 1) e p.length q (q.map echsEvstrmNext) = r at *
          generalize hss : p ++ [e :: t] ++ r.s = ss' at *
          obtain ⟨hpeek, hpop⟩ := nextEvmux_some hs hready he hp hr hss hcache
          rw [List.append_assoc, List.singleton_append] at hrun
          have hb0 : echsEvent0P r.best = false := by
            obtain ⟨s, hsm, hh⟩ := hbest.mem
            obtain ⟨s', hs', hsub⟩ := hrun.sublist s hsm
            exact hev s' hs' _ (hsub.subset (List.mem_of_mem_head? hh))
          have hdone : echsEvent0P r.best = true ↔ ∀ s ∈ this.rest, s = [] := by
            rw [hrest, hb0]
            exact iff_of_false Bool.false_ne_true fun h => by simpa using h (e :: t) (by simp)
          cases popp with
          | false =>
              rw [hpeek]
              refine ⟨ready_cached rfl, ?_, hdone⟩
              rw [hrest]
              exact hrun
          | true =>
              obtain ⟨p', t', q', rfl, hk, hall⟩ := hbest
              have hout : popped true r.best = [r.best] := by simp [popped, hb0]
              rw [hpop rfl hk]
              refine ⟨ready_cached rfl, ?_, hdone⟩
              rw [hrest, hout]
              exact hrun.trans (.step (Step.pop hall) (Run.refl _))

/-! ### Runs of calls -/

/-- The events among what the pops gave. -/
def realEvents (es : List EchsEvent) : List EchsEvent := es.filter fun e => !echsEvent0P e

theorem realEvents_cons (popp : Bool) (e : EchsEvent) (es : List EchsEvent) :
    realEvents (if popp then e :: es else es) = popped popp e ++ realEvents es := by
  cases popp with
  | false => rfl
  | true =>
      rw [if_pos rfl, realEvents, List.filter_cons, popped, Bool.true_and]
      split <;> rfl

theorem Called.good {this : Evmux} {popp : Bool} {r : EchsEvent × Evmux}
    (h : Called R this popp r) (hgood : ∀ s ∈ this.rest, Good R D s) :
    ∀ s ∈ r.2.rest, Good R D s := by
  intro s hs
  obtain ⟨s', hs', hsub⟩ := h.run.sublist s hs
  exact (hgood s' hs').sublist hsub

/-- **A run of calls is a run of the merge.** -/
theorem runEvmux_run (hf : Fits R D) (ops : List Bool) :
    ∀ this : Evmux, this.Ready → (∀ s ∈ this.rest, Good R D s) →
      Run R EchsEvent.sig this.rest (realEvents (runEvmux this ops).1)
        (runEvmux this ops).2.rest := by
  induction ops with
  | nil => exact fun this _ _ => Run.refl _
  | cons popp ops ih =>
      intro this hready hgood
      have hcall := nextEvmux_spec hf hready hgood popp
      rw [runEvmux, realEvents_cons]
      exact hcall.run.trans (ih _ hcall.ready (hcall.good hgood))

/-- Enough pops leave nothing. -/
theorem runEvmux_rest (hf : Fits R D) (ops : List Bool) :
    ∀ this : Evmux, this.Ready → (∀ s ∈ this.rest, Good R D s) →
      this.rest.flatten.length ≤ ops.count true → (runEvmux this ops).2.rest.flatten = [] := by
  induction ops with
  | nil =>
      intro this _ _ hlen
      exact List.length_eq_zero_iff.mp (Nat.le_zero.mp hlen)
  | cons popp ops ih =>
      intro this hready hgood hlen
      have hcall := nextEvmux_spec hf hready hgood popp
      have hstep := hcall.run.length
      refine ih _ hcall.ready (hcall.good hgood) ?_
      cases popp with
      | false =>
          rw [List.count_cons_of_ne (by decide)] at hlen
          omega
      | true =>
          rw [List.count_cons_self] at hlen
          cases h0 : echsEvent0P (nextEvmux this true).1 with
          | true =>
              have hnil : this.rest.flatten = [] := List.flatten_eq_nil_iff.mpr (hcall.done.mp h0)
              rw [hnil, List.length_nil] at hstep
              omega
          | false =>
              have hout : popped true (nextEvmux this true).1 = [(nextEvmux this true).1] := by
                simp [popped, h0]
              rw [hout, List.length_singleton] at hstep
              omega

/-! ### Looks

A look drops what a pop would.  It drops more only when the stream that repeats the best
event repeats itself. -/

/-- The first of the earliest events that the streams have next. -/
def earliestFrom (best : EchsEvent) : List (List EchsEvent) → EchsEvent
  | [] => best
  | [] :: ss => earliestFrom best ss
  | (e :: _) :: ss => earliestFrom (if echsEventLtP e best then e else best) ss

def earliest : List (List EchsEvent) → Option EchsEvent
  | [] => none
  | [] :: ss => earliest ss
  | (e :: _) :: ss => some (earliestFrom e ss)

/-- No stream's next two events both repeat the earliest one that the streams before it
have next. -/
def Evmux.NoRepeat (this : Evmux) : Prop :=
  ∀ p q : List (List EchsEvent), ∀ (e e' : EchsEvent) (t : List EchsEvent),
    this.rest = p ++ (e :: e' :: t) :: q → ∀ b, earliest p = some b →
      echsEventEqP e b = true → echsEventEqP e' b = false

theorem earliest_append {p q : List (List EchsEvent)} {e : EchsEvent} {t : List EchsEvent}
    (hp : ∀ s ∈ p, s = []) : earliest (p ++ (e :: t) :: q) = some (earliestFrom e q) := by
  induction p with
  | nil => rfl
  | cons s p ih =>
      rw [hp s List.mem_cons_self]
      exact ih fun s hs => hp s (List.mem_cons_of_mem _ hs)

/-- Starts do not go back. -/
def Nondecreasing (s : List EchsEvent) : Prop :=
  s.Pairwise fun e1 e2 => echsEventLtP e2 e1 = false

/-- Searched again, the streams are as they were. -/
theorem evmuxScan_again (ss : List (List EchsEvent)) :
    ∀ (i : Nat) (best : EchsEvent) (besti : Nat), (∀ s ∈ ss, Events s ∧ Nondecreasing s) →
      (∀ p q e e' t, ss = p ++ (e :: e' :: t) :: q → echsEventEqP e (earliestFrom best p) = true →
        echsEventEqP e' (earliestFrom best p) = false) →
      evmuxScan i best besti (evmuxScan i best besti ss (ss.map echsEvstrmNext)).s
        ((evmuxScan i best besti ss (ss.map echsEvstrmNext)).s.map echsEvstrmNext) =
          evmuxScan i best besti ss (ss.map echsEvstrmNext) := by
  induction ss with
  | nil => intro i best besti _ _; rfl
  | cons s ss ih =>
      intro i best besti hss hno
      obtain ⟨hev, hmono⟩ := hss s List.mem_cons_self
      have hih (best' : EchsEvent) (besti' : Nat)
          (hb : ∀ p, earliestFrom best' p = earliestFrom best (s :: p)) :=
        ih (i + 1) best' besti' (fun s hs => hss s (List.mem_cons_of_mem _ hs))
          fun p q e e' t heq => by
            rw [hb]
            exact hno (s :: p) q e e' t (by rw [heq, List.cons_append])
      have hnul : echsEvent0P (echsEvstrmNext []) = true := event0P_nul
      rw [List.map_cons, evmuxScan]
      cases s with
      | nil =>
          rw [if_pos hnul]
          simp only [Scan.cons, List.map_cons]
          rw [evmuxScan, if_pos hnul, hih best besti fun p => rfl]
          rfl
      | cons e t =>
          have he0 := hev e List.mem_cons_self
          rw [evstrmNext_cons, if_neg (by simp [he0])]
          by_cases hlt : echsEventLtP e best = true
          · rw [if_pos hlt]
            simp only [Scan.cons, List.map_cons, evstrmNext_cons]
            rw [evmuxScan, if_neg (by simp [he0]), if_pos hlt,
              hih e i fun p => by rw [earliestFrom, if_pos hlt]]
            rfl
          rw [if_neg hlt]
          have hb : ∀ p, earliestFrom best p = earliestFrom best ((e :: t) :: p) := fun p => by
            rw [earliestFrom, if_neg hlt]
          by_cases heq : echsEventEqP e best = true
          · rw [if_pos heq]
            simp only [Scan.cons, List.map_cons, echsEvstrmPop, List.tail_cons]
            cases t with
            | nil =>
                rw [evmuxScan, if_pos hnul, hih best besti hb]
                rfl
            | cons e' t =>
                -- what comes after a dropped event is neither earlier nor the same again
                have hkey : e'.from_.key ≥ best.from_.key := by
                  have hle := List.rel_of_pairwise_cons hmono List.mem_cons_self
                  have hsig := congrArg Prod.snd ((eventEqP_iff _ _).mp heq)
                  rw [show best.from_ = e.from_ from hsig.symm]
                  exact (ltP_false_iff _ _).mp hle
                have hlt' : ¬echsEventLtP e' best = true := by
                  rw [eventLtP_iff]
                  omega
                have hne : echsEventEqP e' best = false := hno [] ss e e' t rfl heq
                have heq' : ¬echsEventEqP e' best = true := by simp [hne]
                have he0' := hev e' (by simp)
                rw [evstrmNext_cons, evmuxScan, if_neg (by simp [he0']), if_neg hlt', if_neg heq',
                  hih best besti hb]
                rfl
          · rw [if_neg heq]
            simp only [Scan.cons, List.map_cons, evstrmNext_cons]
            rw [evmuxScan, if_neg (by simp [he0]), if_neg hlt, if_neg heq, hih best besti hb]
            rfl

theorem fits_nondecreasing :
    Fits (fun e1 e2 => echsEventLtP e2 e1 = false) fun _ => True where
  trans x y z hxy hyz := by
    unfold echsEventLtP at *
    rw [ltP_false_iff] at *
    omega
  of_lt x y h := by
    unfold echsEventLtP at *
    rw [ltP_iff] at h
    rw [ltP_false_iff]
    omega
  of_eq x y z h hxz := by
    have hfrom : x.from_ = y.from_ := congrArg Prod.snd ((eventEqP_iff _ _).mp h)
    unfold echsEventLtP at *
    rwa [← hfrom]
  of_not x y _ _ h _ := h

/-- A look and then a call is the call. -/
theorem nextEvmux_look {this : Evmux} (hready : this.Ready)
    (hgood : ∀ s ∈ this.rest, Events s ∧ Nondecreasing s) (hno : this.NoRepeat) (popp : Bool) :
    nextEvmux (nextEvmux this false).2 popp = nextEvmux this popp := by
  cases hs : this.s with
  | none =>
      have hnext : nextEvmux this false = (echsNulEvent, this) := by rw [nextEvmux, hs]
      rw [hnext]
  | some ss =>
      have hrest : this.rest = ss := by rw [Evmux.rest, hs]
      rw [hrest] at hgood
      have hev : ∀ s ∈ ss, Events s := fun s hs => (hgood s hs).1
      cases hidx : (ss.map echsEvstrmNext).findIdx? (fun e => !echsEvent0P e) with
      | none =>
          rw [nextEvmux_end hs hready (no_event hev hidx), nextEvmux_end hs hready (no_event hev hidx),
            nextEvmux]
      | some i =>
          obtain ⟨p, e, t, q, rfl, rfl, he, hp⟩ := first_event hev hidx
          have hq : ∀ s ∈ q, Events s ∧ Nondecreasing s := fun s hs => hgood s (by simp [hs])
          have hagain := evmuxScan_again q (p.length + 1) e p.length hq
            fun p' q' e1 e2 t' heq => hno (p ++ (e :: t) :: p') q' e1 e2 t'
              (by rw [hrest, heq]; simp) _ (earliest_append hp)
          have hscan := scanned_first (e := e) (t := t) fits_nondecreasing hp trivial
            fun s hs => ⟨(hq s hs).1, (hq s hs).2, fun _ _ => trivial⟩
          obtain ⟨hcache, -, p', t', q', hss, hk, -⟩ := hscan
          generalize hr : evmuxScan (p.length + 1) e p.length q (q.map echsEvstrmNext) = r at *
          obtain ⟨hpeek, hpop⟩ := nextEvmux_some hs hready he hp hr rfl hcache
          rw [hpeek]
          have hs' : (⟨some (p ++ [e :: t] ++ r.s), (p ++ [e :: t] ++ r.s).map echsEvstrmNext⟩ :
              Evmux).s = some (p ++ (e :: t) :: r.s) := by simp
          obtain ⟨hpeek', hpop'⟩ :=
            nextEvmux_some hs' (ready_cached rfl) he hp hagain rfl hcache
          cases popp with
          | false => rw [hpeek, hpeek']
          | true => rw [hpop hss hk, hpop' hss hk]

/-- The peeks of a run find no repetition in the streams. -/
def PeeksClean (this : Evmux) : List Bool → Prop
  | [] => True
  | popp :: ops => (popp = false → this.NoRepeat) ∧ PeeksClean (nextEvmux this popp).2 ops

/-- A run goes on after a look as it does without. -/
theorem runEvmux_look {this : Evmux} (hready : this.Ready)
    (hgood : ∀ s ∈ this.rest, Events s ∧ Nondecreasing s) (hno : this.NoRepeat)
    (ops : List Bool) :
    (runEvmux (nextEvmux this false).2 ops).1 = (runEvmux this ops).1 := by
  cases ops with
  | nil => rfl
  | cons popp ops => rw [runEvmux, runEvmux, nextEvmux_look hready hgood hno]

/-- **Looks do not change what is popped.** -/
theorem runEvmux_pops (ops : List Bool) :
    ∀ this : Evmux, this.Ready → (∀ s ∈ this.rest, Events s ∧ Nondecreasing s) →
      PeeksClean this ops → (runEvmux this ops).1 = (runEvmux this (ops.filter id)).1 := by
  induction ops with
  | nil => exact fun this _ _ _ => rfl
  | cons popp ops ih =>
      intro this hready hgood hclean
      have hcall := nextEvmux_spec fits_nondecreasing hready
        (fun s hs => ⟨(hgood s hs).1, (hgood s hs).2, fun _ _ => trivial⟩) popp
      have hgood' : ∀ s ∈ (nextEvmux this popp).2.rest, Events s ∧ Nondecreasing s := by
        intro s hs
        obtain ⟨s', hs', hsub⟩ := hcall.run.sublist s hs
        exact ⟨fun e he => (hgood s' hs').1 e (hsub.subset he), (hgood s' hs').2.sublist hsub⟩
      have hrest := ih _ hcall.ready hgood' hclean.2
      cases popp with
      | false =>
          rw [List.filter_cons_of_neg (by simp),
            ← runEvmux_look hready hgood (hclean.1 rfl) (ops.filter id)]
          exact hrest
      | true =>
          rw [List.filter_cons_of_pos (by simp), runEvmux, runEvmux, hrest]

/-- Streams in which no event comes twice leave every peek clean. -/
theorem peeksClean_of_distinct (ops : List Bool) :
    ∀ this : Evmux, this.Ready → (∀ s ∈ this.rest, Events s ∧ Nondecreasing s) →
      (∀ s ∈ this.rest, s.Pairwise fun e1 e2 => e1.sig ≠ e2.sig) → PeeksClean this ops := by
  induction ops with
  | nil => exact fun _ _ _ _ => trivial
  | cons popp ops ih =>
      intro this hready hgood hdist
      have hcall := nextEvmux_spec fits_nondecreasing hready
        (fun s hs => ⟨(hgood s hs).1, (hgood s hs).2, fun _ _ => trivial⟩) popp
      refine ⟨fun _ => ?_, ih _ hcall.ready (fun s hs => ?_) (fun s hs => ?_)⟩
      · intro p q e e' t hrest b _ heq
        have hne := List.rel_of_pairwise_cons (hdist (e :: e' :: t) (by rw [hrest]; simp))
          List.mem_cons_self
        rw [← Bool.not_eq_true, eventEqP_iff]
        exact fun h => hne (((eventEqP_iff _ _).mp heq).trans h.symm)
      · obtain ⟨s', hs', hsub⟩ := hcall.run.sublist s hs
        exact ⟨fun e he => (hgood s' hs').1 e (hsub.subset he), (hgood s' hs').2.sublist hsub⟩
      · obtain ⟨s', hs', hsub⟩ := hcall.run.sublist s hs
        exact (hdist s' hs').sublist hsub

/-! ### What the muxer makes of its streams -/

/-- Every start comes after the one before. -/
def Increasing (s : List EchsEvent) : Prop := s.Pairwise fun e1 e2 => echsEventLtP e1 e2 = true

theorem fits_increasing (o : Nat) :
    Fits (fun e1 e2 => echsEventLtP e1 e2 = true) fun e => e.oid = o where
  trans x y z hxy hyz := by
    rw [eventLtP_iff] at *
    omega
  of_lt x y h := h
  of_eq x y z h hxz := by
    have hfrom : x.from_ = y.from_ := congrArg Prod.snd ((eventEqP_iff _ _).mp h)
    rw [eventLtP_iff] at *
    rwa [← hfrom]
  of_not x y hx hy hlt heq := by
    have hle : y.from_.key ≤ x.from_.key := (ltP_false_iff _ _).mp hlt
    have hne : y.from_.key ≠ x.from_.key := by
      intro h
      have hsig : x.sig = y.sig := Prod.ext (hx.trans hy.symm) (Instant.key_inj h.symm)
      rw [(eventEqP_iff _ _).mpr hsig] at heq
      exact absurd heq (by decide)
    rw [eventLtP_iff]
    omega

/-- The events that the pops of a run over the streams `ss` give. -/
def muxed (ev : List EchsEvent) (ss : List (List EchsEvent)) (ops : List Bool) : List EchsEvent :=
  realEvents (runEvmux (makeEvmux ev ss) ops).1

/-- Every event comes out, or one of its oid and start does, once there were pops enough. -/
def Covers (ss : List (List EchsEvent)) (es : List EchsEvent) : Prop :=
  ∀ s ∈ ss, ∀ e ∈ s, ∃ e' ∈ es, echsEventEqP e' e = true

/-- **The muxer merges its streams**: what it gives is in order, made of the streams'
events, and all of them but for repetitions; of increasing streams under one oid it is
increasing; and if no peek meets a stream that repeats itself, the pops give what they
would without the peeks. -/
theorem nextEvmux_merges (ev : List EchsEvent) (ss : List (List EchsEvent)) (ops : List Bool)
    (hss : ∀ s ∈ ss, Events s ∧ Nondecreasing s) :
    Nondecreasing (muxed ev ss ops) ∧
      (∀ e ∈ muxed ev ss ops, ∃ s ∈ ss, e ∈ s) ∧
      (ss.flatten.length ≤ ops.count true → Covers ss (muxed ev ss ops)) ∧
      ((∃ o, ∀ s ∈ ss, Increasing s ∧ ∀ e ∈ s, e.oid = o) → Increasing (muxed ev ss ops)) ∧
      (PeeksClean (makeEvmux ev ss) ops →
        (runEvmux (makeEvmux ev ss) ops).1 = (runEvmux (makeEvmux ev ss) (ops.filter id)).1) := by
  have hready := ready_make ev ss
  have hgood : ∀ s ∈ (makeEvmux ev ss).rest,
      Good (fun e1 e2 => echsEventLtP e2 e1 = false) (fun _ => True) s :=
    fun s hs => ⟨(hss s hs).1, (hss s hs).2, fun _ _ => trivial⟩
  have hrun := runEvmux_run fits_nondecreasing ops _ hready hgood
  refine ⟨hrun.pairwise fits_nondecreasing.trans fun s hs => (hss s hs).2, ?_, ?_, ?_,
    runEvmux_pops ops _ hready hss⟩
  · intro e he
    obtain ⟨s, hs, hes⟩ := List.mem_flatten.mp (hrun.mem (Or.inl he))
    exact ⟨s, hs, hes⟩
  · intro hlen s hs e he
    obtain ⟨e', he', hsig⟩ := hrun.cover (List.mem_flatten.mpr ⟨s, hs, he⟩)
    rw [runEvmux_rest fits_nondecreasing ops _ hready hgood hlen] at he'
    exact ⟨e', he'.resolve_right List.not_mem_nil, (eventEqP_iff _ _).mpr hsig⟩
  · rintro ⟨o, ho⟩
    have hgood' : ∀ s ∈ (makeEvmux ev ss).rest,
        Good (fun e1 e2 => echsEventLtP e1 e2 = true) (fun e => e.oid = o) s :=
      fun s hs => ⟨(hss s hs).1, (ho s hs).1, (ho s hs).2⟩
    have hrun' := runEvmux_run (fits_increasing o) ops _ hready hgood'
    exact hrun'.pairwise (fits_increasing o).trans fun s hs => (ho s hs).1

/-- An event of task `oid` at a day of May 2020. -/
def mayEvent (oid d : Nat) : EchsEvent :=
  ⟨.pack 2020 5 d echsAllDay 0 0 0, echsNulInstant, 0, oid, 0⟩

instance (s : List EchsEvent) : Decidable (Events s ∧ Nondecreasing s) :=
  inferInstanceAs (Decidable ((∀ e ∈ s, _) ∧ s.Pairwise _))

/-- Two days of three under one task, looked at in between. -/
theorem nextEvmux_merges_may :
    let ss := [[mayEvent 7 1, mayEvent 7 3], [mayEvent 7 1, mayEvent 7 2]]
    let ops := [false, true, false, false, true, true, true]
    Covers ss (muxed [] ss ops) ∧ Increasing (muxed [] ss ops) ∧
      (runEvmux (makeEvmux [] ss) ops).1 = (runEvmux (makeEvmux [] ss) (ops.filter id)).1 := by
  intro ss ops
  have hss : ∀ s ∈ ss, Events s ∧ Nondecreasing s := by decide
  have hone : ∀ s ∈ ss, (s.Pairwise fun e1 e2 => echsEventLtP e1 e2 = true) ∧
      ∀ e ∈ s, e.oid = 7 := by decide
  have hdist : ∀ s ∈ ss, s.Pairwise fun e1 e2 => e1.sig ≠ e2.sig := by
    intro s hs
    refine (hone s hs).1.imp fun {a b} hlt hsig => ?_
    have hfrom : a.from_ = b.from_ := congrArg Prod.snd hsig
    rw [eventLtP_iff, hfrom] at hlt
    omega
  obtain ⟨-, -, hcov, hinc, hpops⟩ := nextEvmux_merges [] ss ops hss
  exact ⟨hcov (by decide), hinc ⟨7, hone⟩,
    hpops (peeksClean_of_distinct ops _ (ready_make [] ss) hss hdist)⟩

/-- An event that its stream has twice comes out twice, but once after a look. -/
theorem nextEvmux_look_loses :
    ¬ ∀ (ev : List EchsEvent) (ss : List (List EchsEvent)) (ops : List Bool),
      (∀ s ∈ ss, Events s ∧ Nondecreasing s) →
        muxed ev ss ops = muxed ev ss (ops.filter id) :=
  fun h => absurd
    (h [] [[mayEvent 7 1], [mayEvent 7 1, mayEvent 7 1]] [false, true, true] (by decide))
    (by decide)

end Echse
