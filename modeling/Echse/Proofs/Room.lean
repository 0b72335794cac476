/-
How much the expanders write.

An expander looks at the number of events stored before it begins a date, and stores
all times of that date.  Events go to the front of the target array and groups to
the slots from `grpCchOff` on, so there is a number of events, the limit, up to which
both stay inside what the caller has given.  A run respects it exactly if no date is
begun that has more times than there is room for.
-/
import Echse.Expand
import Echse.Snarf
import Echse.Lib.FillRuns

namespace Echse

open FillLoop (Loop)

/-! ### What a caller gives -/

/-- A target array. -/
structure Target where
  /-- How many events may be returned. -/
  nti : Nat
  /-- The length of the array. -/
  len : Nat

/-- `cch` of `struct evrrul_s`, filled by `refill`. -/
def refillTarget : Target := ⟨grpCchOff, 2 * grpCchOff⟩

/-- `wl` of `echs_instant_matches_p`. -/
def matchesTarget : Target := ⟨256, 256⟩

/-- The seven expanders. -/
def expanders : List (Instant → Nat → Rrulsp → Expander) :=
  [rrulFillYly, rrulFillMly, rrulFillWly, rrulFillDly, rrulFillHly, rrulFillMinly, rrulFillSly]

namespace Expander

/-- The array elements written to by `n` passes. -/
def writes (X : Expander) (n : Nat) : List Nat :=
  (X.after n).out.zipIdx.flatMap fun (s, i) =>
    if s.grp.isSome then [i, i + grpCchOff] else [i]

/-- At any time, the number of events to return and the elements written to are what
the caller allows. -/
def Safe (X : Expander) (t : Target) : Prop :=
  ∀ n, (X.events n).length ≤ t.nti ∧ ∀ i ∈ X.writes n, i < t.len

/-- Whether the expander stores groups. -/
def grouped (X : Expander) : Bool := (X.loop.entry {} echsNulInstant).grp.isSome

/-- The number of events up to which everything written is inside the array. -/
def limit (X : Expander) (t : Target) : Nat :=
  if X.grouped then min t.nti (t.len - grpCchOff) else min t.nti t.len

/-- Every entry is written the same way. -/
def Uniform (X : Expander) : Prop := ∀ p x, (X.loop.entry p x).grp.isSome = X.grouped

/-! ### The limit -/

theorem after_succ (X : Expander) (n : Nat) :
    X.after (n + 1) = X.loop.pass (some X.room) (X.after n) := Loop.passes_succ ..

theorem init_out (X : Expander) : X.init.out = [] := by
  unfold init
  split <;> rfl

theorem grp_of_uniform {X : Expander} (h : X.Uniform) (n : Nat) :
    ∀ e ∈ (X.after n).out, e.grp.isSome = X.grouped :=
  Loop.passes_mem (Q := fun _ => True) (fun _ _ _ _ => trivial) (fun p x _ _ => h p x) _ n
    trivial (by simp [init_out])

theorem mem_writes {X : Expander} (h : X.Uniform) {n k : Nat} :
    k ∈ X.writes n ↔
      ∃ i < (X.after n).out.length, k = i ∨ (X.grouped = true ∧ k = i + grpCchOff) := by
  have hgrp := grp_of_uniform h n
  unfold writes
  simp only [List.mem_flatMap, Prod.exists, List.mem_zipIdx_iff_getElem?]
  constructor
  · rintro ⟨e, i, hi, hk⟩
    have he := hgrp e (List.mem_of_getElem? hi)
    refine ⟨i, (List.getElem?_eq_some_iff.mp hi).1, ?_⟩
    rw [he] at hk
    cases hX : X.grouped <;> simp [hX] at hk ⊢
    · exact hk
    · exact hk
  · rintro ⟨i, hi, hk⟩
    refine ⟨(X.after n).out[i], i, List.getElem?_eq_getElem hi, ?_⟩
    rw [hgrp _ (List.getElem_mem hi)]
    rcases hk with rfl | ⟨hX, rfl⟩
    · cases X.grouped <;> simp
    · simp [hX]

theorem length_le_limit_iff {X : Expander} (h : X.Uniform) (t : Target) (n : Nat) :
    (X.after n).out.length ≤ X.limit t ↔
      (X.events n).length ≤ t.nti ∧ ∀ i ∈ X.writes n, i < t.len := by
  have hev : (X.events n).length = (X.after n).out.length := by simp [events]
  simp only [mem_writes h, hev]
  unfold limit
  cases hX : X.grouped with
  | true =>
      simp only [if_true, true_and]
      constructor
      · intro hle
        refine ⟨by omega, ?_⟩
        rintro k ⟨i, hi, rfl | rfl⟩ <;> omega
      · rintro ⟨hnti, hall⟩
        by_cases h0 : (X.after n).out.length = 0
        · omega
        · have := hall _ ⟨(X.after n).out.length - 1, by omega, Or.inr rfl⟩
          omega
  | false =>
      simp only [Bool.false_eq_true, if_false, false_and, or_false]
      constructor
      · intro hle
        refine ⟨by omega, ?_⟩
        rintro k ⟨i, hi, rfl⟩
        omega
      · rintro ⟨hnti, hall⟩
        by_cases h0 : (X.after n).out.length = 0
        · omega
        · have := hall _ ⟨(X.after n).out.length - 1, by omega, rfl⟩
          omega

/-- No pass of the run begins a date that has more times to store than the limit leaves
room for. -/
def DatesFit (X : Expander) (t : Target) : Prop :=
  ∀ n, X.loop.passFits (X.limit t) (some X.room) (X.after n)

theorem safe_iff {X : Expander} (h : X.Uniform) (t : Target) : X.Safe t ↔ X.DatesFit t := by
  unfold Safe DatesFit after
  rw [← Loop.passes_le_iff (by simp [init_out])]
  exact forall_congr' fun n => (length_le_limit_iff h t n).symm

end Expander

/-! ### The seven of them -/

theorem uniform_of_mem_expanders {f : Instant → Nat → Rrulsp → Expander} (hf : f ∈ expanders)
    (tgt : Instant) (nti : Nat) (rr : Rrulsp) : (f tgt nti rr).Uniform := by
  simp only [expanders, List.mem_cons, List.not_mem_nil, or_false] at hf
  rcases hf with rfl | rfl | rfl | rfl | rfl | rfl | rfl
  · intro p x; rfl
  · intro p x; rfl
  · intro p x; rfl
  · unfold rrulFillDly
    dsimp only
    split <;> (intro p x; rfl)
  · intro p x; rfl
  · intro p x; rfl
  · intro p x; rfl

/-! ### One time a date

Where a rule names no more than one hour, minute and second there is one event a date,
and then looking between dates is enough.
-/

/-- A rule with at most one hour, one minute and one second. -/
def Rrulsp.Single (rr : Rrulsp) : Prop :=
  (bui31List rr.H).length ≤ 1 ∧ (bui63List rr.M).length ≤ 1 ∧ (bui63List rr.S).length ≤ 1

/-- All groups of all positions have at most one item. -/
def Expander.OneEach (X : Expander) : Prop :=
  ∀ p xs, some xs ∈ X.loop.groups p → xs.length ≤ 1

theorem Expander.safe_of_oneEach {X : Expander} {t : Target} (hu : X.Uniform) (h : X.OneEach)
    (hroom : X.room ≤ t.nti) (hlen : t.nti + grpCchOff ≤ t.len) : X.Safe t := by
  rw [Expander.safe_iff hu]
  intro n _ _ hf _
  have hlimit : t.nti ≤ X.limit t := by
    unfold Expander.limit
    split <;> omega
  have hlt := Loop.full_false_iff.mp hf _ rfl
  exact Loop.fits_of_single (by omega) (h _) _ (by omega)

private theorem orElse_length {α : Type} {xs : List α} {x : α} (h : xs.length ≤ 1) :
    (if xs.isEmpty then [x] else xs).length = 1 := by
  cases xs with
  | nil => rfl
  | cons y ys => simpa using h

theorem makeEnum_single {rr : Rrulsp} (h : rr.Single) (proto : Instant) :
    (makeEnum proto rr).H.length = 1 ∧ (makeEnum proto rr).M.length = 1 ∧
      (makeEnum proto rr).S.length = 1 := by
  obtain ⟨hH, hM, hS⟩ := h
  refine ⟨?_, orElse_length hM, orElse_length hS⟩
  unfold makeEnum
  dsimp only
  rw [if_neg (by rw [orElse_length hH]; decide)]
  exact orElse_length hH

theorem times1_length (e : Enum) (y m d H M ms : Nat) :
    (e.times1 y m d H M ms).length = e.S.length := by
  simp [Enum.times1]

theorem times2_length (e : Enum) (y m d H ms : Nat) :
    (e.times2 y m d H ms).length = e.M.length * e.S.length := by
  simp [Enum.times2, List.length_flatMap, List.map_const']

theorem times_length (e : Enum) (y m d ms : Nat) :
    (e.times y m d ms).length = e.H.length * (e.M.length * e.S.length) := by
  simp [Enum.times, List.length_flatMap, List.map_const']

theorem mem_candGroups {e : Enum} {ms y : Nat} {c : Cands} {xs : List Instant}
    (h : some xs ∈ candGroups e ms y c) : ∃ y' m d, xs = e.times y' m d ms := by
  simp only [candGroups, List.mem_append, List.mem_map, Option.some.injEq] at h
  rcases h with (⟨_, _, rfl⟩ | ⟨_, _, rfl⟩) | ⟨_, _, rfl⟩ <;> exact ⟨_, _, _, rfl⟩

theorem mem_wlyDates {ndim : Nat → Nat → Nat} {e : Enum} {ms : Nat} {xs : List Instant} (n : Nat) :
    ∀ (incs : Nat) (p : Pos), some xs ∈ wlyDates ndim e ms n incs p →
      ∃ y' m d, xs = e.times y' m d ms := by
  induction n with
  | zero => intro incs p h; simp [wlyDates] at h
  | succ n ih =>
      intro incs p h
      unfold wlyDates at h
      split at h
      · simp at h
      · rcases List.mem_cons.mp h with h | h
        · exact ⟨_, _, _, Option.some.inj h⟩
        · split at h
          · simp at h
          · exact ih _ _ h

theorem oneEach_of_mem_expanders {f : Instant → Nat → Rrulsp → Expander} (hf : f ∈ expanders)
    {rr : Rrulsp} (h : rr.Single) (tgt : Instant) (nti : Nat) : (f tgt nti rr).OneEach := by
  have htimes : ∀ proto y m d ms, ((makeEnum proto rr).times y m d ms).length ≤ 1 := by
    intro proto y m d ms
    obtain ⟨hH, hM, hS⟩ := makeEnum_single h proto
    rw [times_length, hH, hM, hS]
  have hwly : (rrulFillWly tgt nti rr).OneEach := by
    intro p xs hxs
    obtain ⟨y, m, d, rfl⟩ := mem_wlyDates _ _ _ hxs
    exact htimes ..
  simp only [expanders, List.mem_cons, List.not_mem_nil, or_false] at hf
  rcases hf with rfl | rfl | rfl | rfl | rfl | rfl | rfl
  · intro p xs hxs
    obtain ⟨y, m, d, rfl⟩ := mem_candGroups hxs
    exact htimes ..
  · intro p xs hxs
    change some xs ∈ (if _ then _ else _) at hxs
    split at hxs
    · simp at hxs
    · obtain ⟨y, m, d, rfl⟩ := mem_candGroups hxs
      exact htimes ..
  · exact hwly
  · unfold rrulFillDly
    dsimp only
    split
    · intro p xs hxs
      obtain ⟨y, m, d, rfl⟩ := mem_wlyDates _ _ _ hxs
      exact htimes ..
    · intro p xs hxs
      change some xs ∈ (if _ then _ else _) at hxs
      split at hxs
      · obtain rfl : xs = _ := by simpa using hxs
        exact htimes ..
      · simp at hxs
  · intro p xs hxs
    change some xs ∈ (if _ then _ else _) at hxs
    split at hxs
    · obtain rfl : xs = _ := by simpa using hxs
      obtain ⟨-, hM, hS⟩ := makeEnum_single h tgt
      rw [times2_length, hM, hS]
    · simp at hxs
  · intro p xs hxs
    change some xs ∈ (if _ then _ else _) at hxs
    split at hxs
    · obtain rfl : xs = _ := by simpa using hxs
      obtain ⟨-, -, hS⟩ := makeEnum_single h tgt
      rw [times1_length, hS]
    · simp at hxs
  · intro p xs hxs
    change some xs ∈ (if _ then _ else _) at hxs
    split at hxs
    · obtain rfl : xs = _ := by simpa using hxs
      simp
    · simp at hxs

theorem clampCount_le (rr : Rrulsp) (nti : Nat) : clampCount rr nti ≤ nti := by
  unfold clampCount
  split <;> omega

theorem room_le_of_mem_expanders {f : Instant → Nat → Rrulsp → Expander} (hf : f ∈ expanders)
    (tgt : Instant) (nti : Nat) (rr : Rrulsp) : (f tgt nti rr).room ≤ nti := by
  simp only [expanders, List.mem_cons, List.not_mem_nil, or_false] at hf
  rcases hf with rfl | rfl | rfl | rfl | rfl | rfl | rfl
  · exact clampCount_le rr nti
  · exact clampCount_le rr nti
  · exact clampCount_le rr nti
  · unfold rrulFillDly
    dsimp only
    split
    · exact (clampCount_le rr _).trans (clampCount_le rr nti)
    · exact clampCount_le rr nti
  · exact clampCount_le rr nti
  · exact clampCount_le rr nti
  · exact clampCount_le rr nti

/-- A rule with one time a date never overruns an array that has a slot and a group for
every event, as the cache of `refill` does. -/
theorem safe_of_single {t : Target} (hlen : t.nti + grpCchOff ≤ t.len) {rr : Rrulsp}
    (h : rr.Single) (tgt : Instant) : ∀ f ∈ expanders, (f tgt t.nti rr).Safe t :=
  fun _ hf => Expander.safe_of_oneEach (uniform_of_mem_expanders hf tgt t.nti rr)
    (oneEach_of_mem_expanders hf h tgt t.nti) (room_le_of_mem_expanders hf tgt t.nti rr) hlen

end Echse
