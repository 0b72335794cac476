/-
What a loop stores that may give up.

A loop with a counter and with positions it hops over is compared with the plain one that goes
through the same positions and stores their items as they are.  While the counter lasts the
two are in step, so the listing of the plain one is the listing of the other.  It lasts if no
stretch of positions uses it up without an item.
-/
import Echse.Lib.FillTired

namespace FillLoop

namespace Loop

variable {σ α β γ : Type} (L : Loop σ α β)

/-- The same positions without a counter and without hops, storing the items themselves. -/
def steady : Loop σ α α where
  reload := none
  hop := fun _ => false
  next := L.next
  groups := fun p => if L.hop p then [] else L.groups p
  judge := L.judge
  entry := fun _ x => x

theorem steady_plain : L.steady.Plain := ⟨fun _ => rfl, rfl⟩

theorem steady_orbit (p : σ) (k : Nat) : L.steady.orbit p k = L.orbit p k := by
  induction k with
  | zero => rfl
  | succ k ih => rw [orbit_succ, orbit_succ, ih]; rfl

variable {L}

/-- What is stored of a list of items depends on the judge only. -/
theorem steady_taken (xs : List α) : L.steady.taken xs = L.taken xs ∧ L.steady.sig xs = L.sig xs := by
  induction xs with
  | nil => exact ⟨rfl, rfl⟩
  | cons x xs ih =>
      unfold taken sig
      rw [show L.steady.judge x = L.judge x from rfl, ih.1, ih.2]
      exact ⟨rfl, rfl⟩

theorem steady_gather (gs : List (Option (List α))) : L.steady.gather gs = L.gather gs := by
  induction gs with
  | nil => rfl
  | cons g gs ih =>
      cases g with
      | none => rfl
      | some xs =>
          unfold gather
          rw [(steady_taken xs).1, (steady_taken xs).2, ih]

/-- A run of the loop and one of its steady form are in step. -/
structure KeepsPace (f : β → γ) (e : α → γ) (s : State σ β) (s' : State σ α) : Prop where
  stop : s.stop = none ↔ s'.stop = none
  pos : s.stop = none → s.pos = s'.pos
  out : s.out.map f = s'.out.map e

/-- The loop is about to give up. -/
def Tired (L : Loop σ α β) (s : State σ β) : Prop :=
  s.stop = none ∧ L.hop s.pos = false ∧ L.tick s.tries = none

variable {f : β → γ} {e : α → γ}

/-- **One pass keeps the two in step**, unless the loop gives up. -/
theorem KeepsPace.pass (hentry : ∀ q x, f (L.entry q x) = e x) {s : State σ β} {s' : State σ α}
    (h : KeepsPace f e s s') (hgo : ¬ L.Tired s) :
    KeepsPace f e (L.pass none s) (L.steady.pass none s') := by
  by_cases hs : s.stop = none
  · have hs' := h.stop.mp hs
    have hpos := h.pos hs
    rw [pass_body (L := L.steady) hs' rfl rfl (tick_of_plain L.steady_plain s'.tries)]
    obtain ⟨hstop', hpos'⟩ := body_none_stop (L := L.steady) (t := s'.tries) hs'
    have hout' := body_none_out (L := L.steady) s'.tries s'
    cases hhop : L.hop s.pos with
    | true =>
        -- the steady loop goes through a position without groups
        rw [pass_hop _ hs hhop]
        obtain ⟨hstop, hpos1⟩ := advance_stop (L := L) hs
        have hgroups : L.steady.groups s'.pos = [] := by
          change (if L.hop s'.pos = true then [] else L.groups s'.pos) = []
          rw [if_pos (hpos ▸ hhop)]
        have hquits : L.steady.Quits s'.pos ↔ L.next s.pos = none := by
          unfold Quits
          rw [hgroups, hpos]
          simp [gather, steady]
        have hiff : (L.advance s).stop = none ↔ (L.steady.body none s'.tries s').stop = none := by
          rw [hstop, hstop', hquits]
        refine ⟨hiff, fun hno => ?_, ?_⟩
        · have hnext : L.next s'.pos = some (L.steady.body none s'.tries s').pos := hpos' (hiff.mp hno)
          rw [← hpos, hpos1 hno] at hnext
          exact Option.some.inj hnext
        · rw [advance_out, hout', h.out]
          unfold yield
          rw [hgroups]
          simp [gather]
    | false =>
        obtain ⟨t, ht⟩ := Option.ne_none_iff_exists'.mp fun ht => hgo ⟨hs, hhop, ht⟩
        rw [pass_body hs hhop rfl ht]
        obtain ⟨hstop, hpos1⟩ := body_none_stop (L := L) (t := t) hs
        have hgroups : L.steady.groups s'.pos = L.groups s.pos := by
          change (if L.hop s'.pos = true then [] else L.groups s'.pos) = _
          rw [← hpos, if_neg (by rw [hhop]; decide)]
        have hquits : L.steady.Quits s'.pos ↔ L.Quits s.pos := by
          unfold Quits
          rw [hgroups, steady_gather, hpos]
          rfl
        have hiff : (L.body none t s).stop = none ↔
            (L.steady.body none s'.tries s').stop = none := by
          rw [hstop, hstop', hquits]
        refine ⟨hiff, fun hno => ?_, ?_⟩
        · have hnext : L.next s'.pos = some (L.steady.body none s'.tries s').pos := hpos' (hiff.mp hno)
          rw [← hpos, hpos1 hno] at hnext
          exact Option.some.inj hnext
        · rw [body_none_out, hout', List.map_append, List.map_append, h.out]
          congr 1
          unfold yield
          rw [hgroups, steady_gather, List.map_map, List.map_map]
          exact List.map_congr_left fun x _ => hentry s.pos x
  · have hs' := fun hno => hs (h.stop.mpr hno)
    rw [pass_of_stop _ hs, pass_of_stop _ hs']
    exact h

/-- **While the counter lasts** the runs are in step. -/
theorem keepsPace_passes (hentry : ∀ q x, f (L.entry q x) = e x) (p : σ) (k : Nat)
    (hgo : ∀ i < k, ¬ L.Tired (L.passes none i (L.start p))) :
    KeepsPace f e (L.passes none k (L.start p)) (L.steady.passes none k (L.steady.start p)) := by
  induction k with
  | zero => exact ⟨Iff.rfl, fun _ => rfl, rfl⟩
  | succ k ih =>
      rw [passes_succ, passes_succ]
      exact (ih fun i hi => hgo i (by omega)).pass hentry (hgo k (Nat.lt_succ_self k))

/-! ### Listings -/

variable {late : α → Bool} {items : Nat → List α} {p : σ}

/-- Where something is late, the listing does not get longer. -/
theorem listing_of_late {k n : Nat} (hkn : k ≤ n) (h : ∃ i < k, ∃ x ∈ items i, late x = true) :
    listing items late n = listing items late k := by
  obtain ⟨i, hi, x, hx, hlate⟩ := h
  induction n, hkn using Nat.le_induction with
  | base => rfl
  | succ n hkn ih =>
      rw [listing_succ, if_neg, ih]
      intro hno
      rw [hno i (by omega) x hx] at hlate
      cases hlate

/-- The first late item is the last one, whether it is too early or not; too early ones are passed
over. -/
theorem taken_barred {before : α → Bool}
    (hjudge : ∀ x, L.judge x = if late x then .fin else if before x then .drop else .emit)
    (hbar : ∀ x y, late x = true → before x = true → before y = false → late y = true) (xs : List α) :
    L.taken xs = (xs.filter fun x => !before x).takeWhile (fun x => !late x) ∧
      (L.sig xs = .fin ↔ ∃ x ∈ xs, late x = true) := by
  induction xs with
  | nil => simp [taken, sig]
  | cons x xs ih =>
      unfold taken sig
      rw [hjudge]
      cases hl : late x with
      | true =>
          have hnil : ((x :: xs).filter fun x => !before x).takeWhile (fun x => !late x) = [] := by
            cases hb : before x with
            | true =>
                refine takeWhile_of_late fun y hy => hbar x y hl hb ?_
                simpa using (List.mem_filter.mp hy).2
            | false => simp [hb, hl]
          rw [hnil]
          simp [hl]
      | false => cases hb : before x <;> simp [hb, hl, ih]

/-- Where the end is looked at first, a position ends the loop at a late item; it may be too early, but
then everything is late. -/
theorem stores_barred {before : α → Bool}
    (hjudge : ∀ x, L.judge x = if late x then .fin else if before x then .drop else .emit)
    (hbar : ∀ x y, late x = true → before x = true → before y = false → late y = true) {q : σ}
    {gs : List (List α)} (hgroups : L.groups q = gs.map some) :
    L.StoresUpTo late q (gs.flatten.filter fun x => !before x) ∧
      (L.EndsLate late q (gs.flatten.filter fun x => !before x) ∨
        ∀ y, before y = false → late y = true) := by
  have hgather := gather_somes (L := L) gs
  rw [← hgroups] at hgather
  obtain ⟨htaken, hsig⟩ := taken_barred hjudge hbar gs.flatten
  refine ⟨⟨by rw [hgather]; exact htaken, by rw [hgather]; exact sig_ne_trap _⟩, ?_⟩
  by_cases hearly : ∃ x ∈ gs.flatten, late x = true ∧ before x = true
  · obtain ⟨x, -, hl, hb⟩ := hearly
    exact Or.inr fun y hy => hbar x y hl hb hy
  · refine Or.inl ?_
    unfold EndsLate
    rw [hgather]
    refine hsig.trans ⟨fun ⟨x, hx, hl⟩ => ⟨x, List.mem_filter.mpr ⟨hx, ?_⟩, hl⟩,
      fun ⟨x, hx, hl⟩ => ⟨x, (List.mem_filter.mp hx).1, hl⟩⟩
    cases hb : before x with
    | false => rfl
    | true => exact absurd ⟨x, hx, hl, hb⟩ hearly

/-- The positions of a loop, hops among them, store the items of a listing. -/
def Carries (L : Loop σ α β) (late : α → Bool) (items : Nat → List α) (p : σ) (n : Nat) : Prop :=
  ∀ i < n, ∃ q, L.orbit p i = some q ∧
    (L.hop q = true → items i = []) ∧
    (L.hop q = false → L.StoresUpTo late q (items i) ∧
      (L.EndsLate late q (items i) ∨ ∀ j < n, i < j → ∀ x ∈ items j, late x = true))

theorem Carries.steady {n : Nat} (h : L.Carries late items p n) :
    ∀ i < n, ∃ q, L.steady.orbit p i = some q ∧ L.steady.StoresUpTo late q (items i) ∧
      (L.steady.EndsLate late q (items i) ∨ ∀ j < n, i < j → ∀ x ∈ items j, late x = true) := by
  intro i hi
  obtain ⟨q, hq, hhop, hwork⟩ := h i hi
  refine ⟨q, by rw [steady_orbit, hq], ?_⟩
  have hgroups : L.steady.groups q = if L.hop q = true then [] else L.groups q := rfl
  cases hh : L.hop q with
  | true =>
      rw [hh, if_pos rfl] at hgroups
      rw [hhop hh]
      refine ⟨⟨by rw [hgroups]; rfl, by rw [hgroups]; simp [gather]⟩, Or.inl ?_⟩
      unfold EndsLate
      rw [hgroups]
      simp [gather]
  | false =>
      rw [hh, if_neg (by decide)] at hgroups
      obtain ⟨⟨htaken, htrap⟩, hend⟩ := hwork hh
      unfold EndsLate at hend ⊢
      rw [hgroups, steady_gather]
      exact ⟨⟨by rw [hgroups, steady_gather]; exact htaken,
        by rw [hgroups, steady_gather]; exact htrap⟩, hend⟩

/-- A stretch of positions that uses the counter up without an item is not followed by any item. -/
def Spends (L : Loop σ α β) (r : Nat) (items : Nat → List α) (p : σ) (n : Nat) : Prop :=
  ∀ k < n, L.worksAt p k = true → ∀ a ≤ k, r ≤ L.worked p a k + 1 →
    (∀ i, a ≤ i → i < k → items i = []) → ∀ j < n, k ≤ j → items j = []

/-- No stretch of positions uses the counter up without an item, where another position is worked
at after them. -/
def Lasts (L : Loop σ α β) (r : Nat) (items : Nat → List α) (p : σ) (n : Nat) : Prop :=
  ∀ k < n, L.worksAt p k = true → ∀ a ≤ k, r ≤ L.worked p a k + 1 → ∃ i, a ≤ i ∧ i < k ∧ items i ≠ []

theorem Lasts.spends {r n : Nat} (h : L.Lasts r items p n) : L.Spends r items p n := by
  intro k hk hworks a ha hmany hnone
  obtain ⟨i, hai, hik, hne⟩ := h k hk hworks a ha hmany
  exact absurd (hnone i hai hik) hne

/-- A loop that gives up has seen something late, or its counter has been used up. -/
theorem Tired.seen_late {r n k : Nat} (hr : L.reload = some r) (hcarries : L.Carries late items p n)
    (hk : k < n) (h : L.Tired (L.passes none k (L.start p))) :
    (∃ i < k, ∃ x ∈ items i, late x = true) ∨
      L.worksAt p k = true ∧ ∃ a ≤ k, r ≤ L.worked p a k + 1 ∧
        ∀ i, a ≤ i → i < k → items i = [] := by
  obtain ⟨hs, hhop, ht⟩ := h
  have htry := trying_passes hr p k hs
  obtain ⟨a, ha, hcount, hfruit⟩ := htry.tries
  have htries : (L.passes none k (L.start p)).tries ≤ 1 := by
    unfold tick at ht
    rw [hr] at ht
    dsimp only at ht
    split at ht
    · assumption
    · cases ht
  by_cases hnone : ∀ i, a ≤ i → i < k → items i = []
  · exact Or.inr ⟨worksAt_of htry.pos hhop, a, ha, by omega, hnone⟩
  · simp only [not_forall] at hnone
    obtain ⟨i, hai, hik, hne⟩ := hnone
    obtain ⟨q, hq, hno, hwork⟩ := hcarries i (by omega)
    have hh : L.hop q = false := by
      by_contra hhop
      exact hne (hno (Bool.not_eq_false _ ▸ hhop))
    -- the items are there but nothing is stored of them
    have hyield : L.yield q = [] := by
      by_contra hno
      exact hfruit i hai hik ⟨q, hq, hh, hno⟩
    have htaken : L.yield q = (items i).takeWhile fun x => !late x := (hwork hh).1.taken
    rw [hyield] at htaken
    refine Or.inl ⟨i, hik, ?_⟩
    cases hitems : items i with
    | nil => exact absurd hitems hne
    | cons x xs =>
        refine ⟨x, List.mem_cons_self, ?_⟩
        by_contra hlate
        rw [hitems, List.takeWhile_cons_of_pos (by simpa using hlate)] at htaken
        cases htaken

theorem listing_prefix {k n : Nat} (hkn : k ≤ n) : listing items late k <+: listing items late n := by
  unfold listing
  rw [show n = k + (n - k) by omega, List.range_add, List.flatMap_append, List.takeWhile_append]
  split
  · rename_i hlen
    rw [(List.takeWhile_prefix _).eq_of_length hlen]
    exact List.prefix_append _ _
  · exact List.prefix_rfl

/-- Positions without items do not make the listing longer. -/
theorem listing_of_nil {k n : Nat} (hkn : k ≤ n) (h : ∀ j < n, k ≤ j → items j = []) :
    listing items late n = listing items late k := by
  have hmap : ((List.range (n - k)).map (k + ·)).flatMap items = [] := by
    rw [List.flatMap_eq_nil_iff]
    intro j hj
    obtain ⟨i, hi, rfl⟩ := List.mem_map.mp hj
    have := List.mem_range.mp hi
    exact h (k + i) (by omega) (by omega)
  unfold listing
  rw [show n = k + (n - k) by omega, List.range_add, List.flatMap_append, hmap, List.append_nil]

/-- **A loop that only gives up where nothing is left stores the listing of its positions**, as far
as there is room. -/
theorem passes_spending {r : Nat} (hr : L.reload = some r) (hentry : ∀ q x, f (L.entry q x) = e x)
    (room n : Nat) (hcarries : L.Carries late items p n) (hspends : L.Spends r items p n) :
    Fills room ((L.passes (some room) n (L.start p)).out.map f) ((listing items late n).map e) := by
  have hsteady := hcarries.steady
  -- an unlimited run stores the listing
  have hrun : ∀ k ≤ n, (∀ i < k, ¬ L.Tired (L.passes none i (L.start p))) →
      (L.passes none k (L.start p)).out.map f = (listing items late k).map e := by
    intro k hk hgo
    rw [(keepsPace_passes hentry p k hgo).out,
      (passes_chunks L.steady_plain (e := id) (fun _ _ => rfl) 0 p k).1, List.map_id,
      (chunksUpTo_listing L.steady_plain n hsteady k hk).1]
  have hall : (L.passes none n (L.start p)).out.map f = (listing items late n).map e := by
    by_cases hgo : ∀ i < n, ¬ L.Tired (L.passes none i (L.start p))
    · exact hrun n le_rfl hgo
    · -- the first place where the loop gives up
      simp only [not_forall, not_not] at hgo
      have hex : ∃ i, i < n ∧ L.Tired (L.passes none i (L.start p)) := by
        obtain ⟨i, hi, hti⟩ := hgo
        exact ⟨i, hi, hti⟩
      classical
      obtain ⟨k, ⟨hk, htired⟩, hfirst⟩ := Nat.findX hex
      have hstop : (L.passes none (k + 1) (L.start p)).stop ≠ none := by
        rw [passes_succ, pass_tired htired.1 htired.2.1 rfl htired.2.2]
        simp
      have hlisting : listing items late n = listing items late k := by
        rcases htired.seen_late hr hcarries hk with hlate | ⟨hworks, a, ha, hmany, hnone⟩
        · exact listing_of_late hk.le hlate
        · exact listing_of_nil hk.le (hspends k hk hworks a ha hmany hnone)
      rw [passes_of_stop_le none hk hstop, passes_succ,
        pass_tired htired.1 htired.2.1 rfl htired.2.2, hlisting]
      exact hrun k hk.le fun i hi hti => hfirst i hi ⟨by omega, hti⟩
  rw [← hall]
  refine ⟨(prefix_bounded room (L.start p) n).map f, ?_⟩
  rw [List.length_map]
  rcases bounded_or_full room (L.start p) n with heq | ⟨hfull, -⟩
  · exact Or.inl (by rw [heq])
  · exact Or.inr hfull

/-- **A loop whose counter lasts stores the listing of its positions**, as far as there is room. -/
theorem passes_lasting {r : Nat} (hr : L.reload = some r) (hentry : ∀ q x, f (L.entry q x) = e x)
    (room n : Nat) (hcarries : L.Carries late items p n) (hlasts : L.Lasts r items p n) :
    Fills room ((L.passes (some room) n (L.start p)).out.map f) ((listing items late n).map e) :=
  passes_spending hr hentry room n hcarries hlasts.spends

end Loop

end FillLoop
