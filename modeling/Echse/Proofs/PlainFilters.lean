/-
Filters that name no times.

A rule without UNTIL, with dates in every year and no times of day, always has something to fill
the list with.  So where all that is asked for is at one time of day, as it is for events that
take whole days, a filter lets pass exactly what is on a date of the rule.  That is how the filters
of the tests are used.
-/
import Echse.Proofs.Filter

namespace Echse

open FillLoop (Loop)

/-! ### Answers -/

section Answers

variable {rr : Rrulsp} {x : Instant} {r : Bool × Whitelist}

/-- More rounds do not change an answer. -/
theorem matchRounds_mono {fill fill' : Option (List Instant)} (hfill : fill = none ∨ fill = fill') :
    ∀ (n n' : Nat) (s : Whitelist), n ≤ n' → matchRounds fill x n s = some r →
      matchRounds fill' x n' s = some r := by
  intro n
  induction n with
  | zero => intro n' s _ h; cases h
  | succ n ih =>
      intro n' s hn h
      obtain ⟨k, rfl⟩ : ∃ k, n' = k + 1 := ⟨n' - 1, by omega⟩
      unfold matchRounds at h ⊢
      dsimp only at h ⊢
      split at h
      · rename_i hlt
        rw [if_pos hlt]
        exact h
      · rename_i hlt
        rw [if_neg hlt]
        rcases hfill with rfl | rfl
        · cases h
        · cases fill with
          | none => cases h
          | some wl =>
              cases wl with
              | nil => exact h
              | cons e es => exact ih k _ (by omega) h

theorem fillWhitelist_mono {n n' : Nat} (h : n ≤ n') :
    fillWhitelist n rr x = none ∨ fillWhitelist n rr x = fillWhitelist n' rr x := by
  unfold fillWhitelist Expander.events
  dsimp only
  by_cases hstop : ((rrulFillYly (matchProto x) wlSize rr).after n).stop = some .done
  · have hsame : (rrulFillYly (matchProto x) wlSize rr).after n' =
        (rrulFillYly (matchProto x) wlSize rr).after n :=
      Loop.passes_of_stop_le _ h (by
        change ((rrulFillYly (matchProto x) wlSize rr).after n).stop ≠ none
        rw [hstop]
        decide)
    rw [hsame]
    exact Or.inr rfl
  · exact Or.inl (if_neg hstop)

theorem matchesP_mono {n n' : Nat} {s : Whitelist} (hn : n ≤ n')
    (h : echsInstantMatchesP n rr x s = some r) : echsInstantMatchesP n' rr x s = some r := by
  unfold echsInstantMatchesP at h ⊢
  split at h
  · rename_i hnever
    rw [if_pos hnever]
    exact h
  · rename_i hnever
    rw [if_neg hnever]
    exact matchRounds_mono (fillWhitelist_mono hn) n n' s hn h

/-- **There is only one answer.** -/
theorem Answers.unique {s s₁ s₂ : Whitelist} {b₁ b₂ : Bool} (h₁ : Answers rr s x b₁ s₁)
    (h₂ : Answers rr s x b₂ s₂) : b₁ = b₂ ∧ s₁ = s₂ := by
  obtain ⟨n₁, h₁⟩ := h₁
  obtain ⟨n₂, h₂⟩ := h₂
  have h := (matchesP_mono (le_max_left n₁ n₂) h₁).symm.trans
    (matchesP_mono (le_max_right n₁ n₂) h₂)
  rw [Option.some.injEq, Prod.mk.injEq] at h
  exact h

end Answers

/-! ### Plain filters -/

/-- A rule that only the calendar ends, with dates in every year, and that names no times. -/
structure PlainFilter (rr : Rrulsp) : Prop where
  ranged : rr.Ranged
  isOpen : rr.Open
  inter : rr.inter = 1
  own : ylyYmdp rr = true → bui31List rr.mon ≠ []
  hours : bui31List rr.H = []
  mins : bui63List rr.M = []
  secs : bui63List rr.S = []
  inYear : ∀ y, InYear rr y
  yearly : ∀ y, bi383List (ylyFill rr (ownParts rr) y) ≠ []

section Plain

variable {rr : Rrulsp} {x : Instant}

theorem PlainFilter.single (h : PlainFilter rr) : rr.Single := by
  unfold Rrulsp.Single
  rw [h.hours, h.mins, h.secs]
  exact ⟨Nat.zero_le _, Nat.zero_le _, Nat.zero_le _⟩

theorem PlainFilter.ruleDates_eq (h : PlainFilter rr) (y : Nat) :
    ruleDates rr y = candDates y (.single (ylyFill rr (ownParts rr) y)) := by
  unfold ruleDates
  rw [ylyCands_open h.isOpen]

theorem PlainFilter.dates (h : PlainFilter rr) {y : Nat} (hy : y < 65536) :
    (ruleDates rr y).Pairwise (Date.key · < Date.key ·) ∧ ∀ t ∈ ruleDates rr y, t.In y := by
  rw [h.ruleDates_eq]
  exact candDates_single hy (ylyFill_codes h.ranged (by decide) (h.inYear y))

theorem key_lt_of_in {y z : Nat} (hyz : y < z) {s t : Date} (hs : s.In y) (ht : t.In z) :
    s.key < t.key := by
  have h1 := hs.year
  have h2 := hs.month
  have h3 := hs.day
  have h4 := ht.year
  have h5 := ht.month
  unfold Date.key
  omega

theorem PlainFilter.filterRule (h : PlainFilter rr) : FilterRule rr where
  ranged := h.ranged
  scale := h.isOpen.scale
  count := h.isOpen.count
  inter := h.inter
  hours := by rw [h.hours]; decide
  own := h.own
  dates y _ hy :=
    ⟨(h.dates (by omega)).1, fun t ht => ((h.dates (by omega)).2 t ht).fits (by omega)⟩
  years _ _ _ hyz hz s hs t ht :=
    key_lt_of_in hyz ((h.dates (by omega)).2 s hs) ((h.dates (by omega)).2 t ht)

/-- There is one time a date, the one of the instant that the list is filled for. -/
theorem PlainFilter.seedTimes_eq (h : PlainFilter rr) (x : Instant) (t : Date) :
    seedTimes rr x t = [.pack t.y t.m t.d x.H x.M x.S x.ms] := by
  have hfits := x.fits
  have hproto : (matchProto x).H = x.H ∧ (matchProto x).M = x.M ∧ (matchProto x).S = x.S ∧
      (matchProto x).ms = x.ms := by
    unfold matchProto Instant.pack
    dsimp only
    omega
  unfold seedTimes Enum.on Enum.times makeEnum
  rw [h.hours, h.mins, h.secs, hproto.1, hproto.2.1, hproto.2.2.1, hproto.2.2.2]
  rfl

theorem firstYear_open (ho : rr.Open) (x : Instant) : firstYear rr x = x.y := by
  unfold firstYear
  rw [ho.shift]
  rfl

/-- The later years all have something. -/
theorem PlainFilter.later (h : PlainFilter rr) {y : Nat} (hy : x.y < y) (hlt : y < 65536) :
    ∃ z ∈ seedItems rr x y, z.y = y := by
  obtain ⟨yd, hyd⟩ := List.exists_mem_of_ne_nil _ (h.yearly y)
  obtain ⟨t, ht⟩ : ∃ t, t ∈ ruleDates rr y := by
    rw [h.ruleDates_eq, candDates_eq hlt]
    exact ⟨_, List.mem_map_of_mem hyd⟩
  have htin := (h.dates hlt).2 t ht
  have hzy : (Instant.pack t.y t.m t.d x.H x.M x.S x.ms).y = y := by
    have := htin.year
    unfold Instant.pack
    dsimp only
    omega
  have hxy : (matchProto x).y = x.y := Nat.mod_eq_of_lt x.fits.1
  have hkey := key_lt_of_year (show (matchProto x).y < _ by rw [hzy, hxy]; exact hy)
  refine ⟨_, mem_seedItems.mpr ⟨t, ht, ?_, le_of_lt hkey⟩, hzy⟩
  rw [h.seedTimes_eq]
  exact List.mem_singleton_self _

/-- The items of the years are on different dates. -/
theorem PlainFilter.apart (h : PlainFilter rr) (hx : Query x) :
    ((List.range 3).flatMap fun i => seedItems rr x (firstYear rr x + i)).Pairwise
      fun a b => a.date.key < b.date.key := by
  have hyear := hx.year
  have hfirst := firstYear_open h.isOpen x
  have hdate : ∀ i < 3, ∀ t ∈ ruleDates rr (firstYear rr x + i), ∀ z ∈ seedTimes rr x t,
      z.date = t := fun i hi t ht z hz =>
    seedTimes_date (((h.dates (by omega)).2 t ht).fits (by omega)) hz
  rw [List.pairwise_flatMap]
  constructor
  · intro i hi
    have hin := List.mem_range.mp hi
    refine List.Pairwise.filter _ (List.pairwise_flatMap.mpr ⟨fun t _ => ?_, ?_⟩)
    · rw [h.seedTimes_eq]
      exact List.pairwise_singleton _ _
    · refine (h.dates (by omega)).1.imp_of_mem fun {a b} ha hb hab z hz z' hz' => ?_
      rw [hdate i hin a ha z hz, hdate i hin b hb z' hz']
      exact hab
  · refine List.pairwise_lt_range.imp_of_mem fun {i j} hi hj hij z hz z' hz' => ?_
    have hin := List.mem_range.mp hi
    have hjn := List.mem_range.mp hj
    obtain ⟨t, ht, hzt, -⟩ := mem_seedItems.mp hz
    obtain ⟨t', ht', hzt', -⟩ := mem_seedItems.mp hz'
    rw [hdate i hin t ht z hzt, hdate j hjn t' ht' z' hzt']
    exact key_lt_of_in (by omega) ((h.dates (by omega)).2 t ht) ((h.dates (by omega)).2 t' ht')

/-- What is before an instant in its month is on different days of it. -/
theorem PlainFilter.few (h : PlainFilter rr) (hx : Query x) :
    ((List.range 3).flatMap fun i => seedItems rr x (firstYear rr x + i)).countP
      (echsInstantLtP · x) ≤ 32 := by
  have hday := hx.day.2
  have hapart := h.apart hx
  have hproto : (matchProto x).date.key = x.date.key - x.d := by
    have hfits := x.fits
    unfold matchProto Instant.pack Instant.date Date.key
    dsimp only
    omega
  rw [List.countP_eq_length_filter, ← List.length_map (fun z : Instant => z.date.key)]
  have hnodup : ((((List.range 3).flatMap fun i => seedItems rr x (firstYear rr x + i)).filter
      (echsInstantLtP · x)).map fun z : Instant => z.date.key).Nodup :=
    List.pairwise_map.mpr ((hapart.filter _).imp fun hlt => ne_of_lt hlt)
  have hsub : ∀ k ∈ (((List.range 3).flatMap fun i => seedItems rr x (firstYear rr x + i)).filter
      (echsInstantLtP · x)).map fun z : Instant => z.date.key,
      k ∈ List.range' (matchProto x).date.key 32 := by
    intro k hk
    obtain ⟨z, hz, rfl⟩ := List.mem_map.mp hk
    obtain ⟨hz, hlt⟩ := List.mem_filter.mp hz
    obtain ⟨i, -, hz⟩ := List.mem_flatMap.mp hz
    obtain ⟨t, -, -, hle⟩ := mem_seedItems.mp hz
    have h1 := date_le_of_key hle
    have h2 := date_le_of_key (le_of_lt ((ltP_iff _ _).mp hlt))
    rw [List.mem_range'_1]
    omega
  exact (List.subperm_of_subset hnodup hsub).length_le.trans (by rw [List.length_range'])

/-- **The list of a plain filter can always be filled again.** -/
theorem PlainFilter.refillable (h : PlainFilter rr) (hx : Query x) : Refillable rr x where
  time _ := by
    rw [h.seedTimes_eq]
    exact List.mem_singleton.mpr (pack_self x).symm
  until_ t ht z hz := by
    obtain ⟨y, -, hy, hty⟩ := ht.1
    have hyear := ((h.dates (show y < 65536 by omega)).2 t hty).year
    unfold Rrulsp.late
    rw [h.isOpen.until_]
    refine not_late ?_
    rw [h.seedTimes_eq, List.mem_singleton] at hz
    rw [hz]
    change t.y % 65536 < 65535
    omega
  first y _ hy t ht := by
    rw [firstYear_open h.isOpen] at hy
    have hfits := x.fits
    have htin := (h.dates (show y < 65536 by omega)).2 t ht
    have h1 := htin.year
    have h2 := htin.month
    have h3 := htin.day
    unfold matchProto Instant.pack Instant.date Date.key
    dsimp only
    omega
  gap a b ha hab hb hnone := by
    rw [firstYear_open h.isOpen] at ha
    obtain ⟨z, hz, -⟩ := h.later (x := x) (y := a + 1) (by omega) (by omega)
    rw [hnone (a + 1) (by omega) (by omega)] at hz
    cases hz
  next _ _ _ _ _ _ _ := by
    have hyear := hx.year
    obtain ⟨z', hz', hzy⟩ := h.later (x := x) (y := x.y + 1) (by omega) (by omega)
    refine ⟨x.y + 1, ?_, by omega, z', hz', ?_, le_of_lt (key_lt_of_year (by omega))⟩
    · rw [firstYear_open h.isOpen]
      omega
    · unfold Rrulsp.late
      rw [h.isOpen.until_]
      exact not_late (by omega)
  few := lt_of_le_of_lt (h.few hx) (by decide)
  room := by
    have hmem : rrulFillYly ∈ expanders := by simp [expanders]
    exact (Expander.safe_iff (uniform_of_mem_expanders hmem _ _ _) _).mp
      (safe_of_single (t := ⟨wlSize, wlSize + grpCchOff⟩) le_rfl h.single _ _ hmem)

/-- The entries of a list have the time of day that it has been filled for. -/
theorem PlainFilter.entry_time (h : PlainFilter rr) (hx : Query x) {e : Instant}
    (he : e ∈ filledList rr x) : SameTime e x := by
  obtain ⟨z, hz, rfl⟩ := List.mem_map.mp ((fill_spec h.filterRule hx (h.refillable hx)).1.subset he)
  unfold seedListing Loop.listing at hz
  obtain ⟨i, -, hz⟩ := List.mem_flatMap.mp ((List.takeWhile_prefix _).subset hz)
  obtain ⟨t, -, hzt, -⟩ := mem_seedItems.mp hz
  have hfits := x.fits
  rw [h.seedTimes_eq, List.mem_singleton] at hzt
  rw [hzt]
  unfold SameTime echsInstantAttachScale Instant.pack
  dsimp only
  omega

/-- The list is as it has been, or as it is filled for the instant. -/
theorem matchRounds_wl {fill : Option (List Instant)} {b : Bool} {s' : Whitelist} :
    ∀ (n : Nat) (s : Whitelist), matchRounds fill x n s = some (b, s') →
      s'.wl = s.wl ∨ fill = some s'.wl := by
  intro n
  induction n with
  | zero => intro s h; cases h
  | succ n ih =>
      intro s h
      unfold matchRounds at h
      dsimp only at h
      split at h
      · cases h
        exact Or.inl rfl
      · split at h
        · cases h
        · cases h
          exact Or.inl rfl
        · exact Or.inr ((ih _ h).elim (fun heq => by rw [heq]) fun heq => heq)

theorem answers_wl (h : FilterRule rr) (hx : Query x) {s s' : Whitelist} {b : Bool}
    (ha : Answers rr s x b s') : s'.wl = s.wl ∨ s'.wl = filledList rr x := by
  obtain ⟨n, ha⟩ := ha
  have hlong := matchesP_mono (le_max_left n fillPasses) ha
  unfold echsInstantMatchesP at hlong
  split at hlong
  · cases hlong
    exact Or.inl rfl
  · rw [fill_done h hx (le_max_right _ _)] at hlong
    exact (matchRounds_wl _ _ hlong).imp_right fun heq => (Option.some.inj heq).symm

theorem PlainFilter.runFit (h : PlainFilter rr) {s : Whitelist} {xs : List Instant}
    (hxs : ∀ x ∈ xs, Query x) (htime : xs.Pairwise SameTime)
    (hwl : ∀ e ∈ s.wl, ∀ x ∈ xs, SameTime e x) : RunFit rr s xs := by
  induction xs generalizing s with
  | nil => trivial
  | cons x xs ih =>
      have hx := hxs x List.mem_cons_self
      rw [List.pairwise_cons] at htime
      refine ⟨fun _ => ⟨fun _ => h.refillable hx, fun hspent _ => ?_⟩, fun b s' ha => ?_⟩
      · unfold Whitelist.Spent at hspent
        simp only [not_forall] at hspent
        obtain ⟨e, he, -⟩ := hspent
        have hmem := List.mem_of_mem_take (List.mem_of_mem_drop he)
        exact ⟨e, hmem, hwl e hmem x List.mem_cons_self⟩
      · refine ih (fun y hy => hxs y (List.mem_cons_of_mem _ hy)) htime.2 fun e he y hy => ?_
        rcases answers_wl h.filterRule hx ha with hold | hnew
        · exact hwl e (hold ▸ he) y (List.mem_cons_of_mem _ hy)
        · obtain ⟨h1, h2, h3, h4⟩ := h.entry_time hx (hnew ▸ he)
          obtain ⟨k1, k2, k3, k4⟩ := htime.1 y hy
          exact ⟨h1.trans k1, h2.trans k2, h3.trans k3, h4.trans k4⟩

/-- **A plain filter lets pass what is on its dates**, if all is at one time of day. -/
theorem PlainFilter.filters (h : PlainFilter rr) {xs : List Instant} (hxs : ∀ x ∈ xs, Query x)
    (hsorted : xs.Pairwise fun x y => echsInstantLtP y x = false) (htime : xs.Pairwise SameTime) :
    Filters rr {} xs :=
  filters_of_serves h.filterRule hxs hsorted (fun _ _ => .fresh rfl rfl rfl)
    (h.runFit hxs htime fun _ he => nomatch he)

end Plain

/-! ### The 29th, and the 15th -/

/-- The filter `BYMONTHDAY=29`. -/
def filter29 : Rrulsp := snarfRrule "BYMONTHDAY=29".toList

theorem filter29_fill (y : Nat) :
    ylyFill filter29 (ownParts filter29) y = fillYlyYmdAllM .nil .gregorian y [29] 0 := by
  rfl

theorem filter29_plain : PlainFilter filter29 where
  ranged := snarfRrule_ranged _
  isOpen := ⟨rfl, rfl, rfl, rfl, rfl⟩
  inter := rfl
  own := fun h => nomatch h
  hours := rfl
  mins := rfl
  secs := rfl
  inYear _ := ⟨fun _ ht => (nomatch ht), fun _ _ ht => (nomatch ht), fun _ ht => (nomatch ht),
    fun hs => absurd rfl hs⟩
  yearly y := by
    have hfit : ∀ m, 1 ≤ m ∧ m ≤ 12 → DomFits .gregorian y m [29] := fun m hm =>
      domFits_gregorian y hm fun t ht => by
        rw [List.mem_singleton.mp ht]
        decide
    -- the 29th of January
    have hjan : domOf (echsScaleNdim .gregorian y 1) 29 = some 29 := by
      have hnd : echsScaleNdim .gregorian y 1 = 31 := by simp [echsScaleNdim, ndimGreg, gregMdays]
      rw [hnd]
      rfl
    rw [filter29_fill]
    exact List.ne_nil_of_mem (((adds_fillYlyYmdAllM hfit 0).mem .nil codeSet_nil _).mpr
      (Or.inl ⟨1, by decide, 29, List.mem_singleton_self _, 29, hjan, rfl, rfl⟩))

/-- Three days, of which one is a 29th. -/
theorem filters_of_fit_filter29 : Filters filter29 {}
    [.pack 2000 2 28 255 0 0 0, .pack 2000 2 29 255 0 0 0, .pack 2001 2 28 255 0 0 0] := by
  have hqueries : ∀ x ∈ ([.pack 2000 2 28 255 0 0 0, .pack 2000 2 29 255 0 0 0,
      .pack 2001 2 28 255 0 0 0] : List Instant), Query x := by
    intro x hx
    simp only [List.mem_cons, List.not_mem_nil, or_false] at hx
    rcases hx with rfl | rfl | rfl
    · exact ⟨by decide, by decide, by decide⟩
    · exact ⟨by decide, by decide, by decide⟩
    · exact ⟨by decide, by decide, by decide⟩
  refine filters_of_fit filter29_plain.filterRule hqueries (by decide)
    (filter29_plain.runFit hqueries ?_ fun _ he => nomatch he)
  refine .cons ?_ (.cons ?_ (List.pairwise_singleton _ _))
  · intro y hy
    simp only [List.mem_cons, List.not_mem_nil, or_false] at hy
    rcases hy with rfl | rfl
    · exact ⟨rfl, rfl, rfl, rfl⟩
    · exact ⟨rfl, rfl, rfl, rfl⟩
  · intro y hy
    rw [List.mem_singleton.mp hy]
    exact ⟨rfl, rfl, rfl, rfl⟩

/-- The filter `BYMONTHDAY=15;UNTIL=20000430`. -/
def filter15 : Rrulsp := snarfRrule "BYMONTHDAY=15;UNTIL=20000430".toList

/-- On the 15th of January 2000, all day, the list is filled with four dates. -/
theorem filter15_january : Answers filter15 {} (.pack 2000 1 15 255 0 0 0) true
    ⟨[.pack 2000 1 15 255 0 0 0, .pack 2000 2 15 255 0 0 0, .pack 2000 3 15 255 0 0 0,
      .pack 2000 4 15 255 0 0 0], 4, 0⟩ :=
  ⟨2, by decide +kernel⟩

/-- On the 15th of February at nine o'clock the entry of that date is passed over. -/
theorem filter15_february : Answers filter15
    ⟨[.pack 2000 1 15 255 0 0 0, .pack 2000 2 15 255 0 0 0, .pack 2000 3 15 255 0 0 0,
      .pack 2000 4 15 255 0 0 0], 4, 0⟩ (.pack 2000 2 15 9 0 0 echsAllSec) false
    ⟨[.pack 2000 1 15 255 0 0 0, .pack 2000 2 15 255 0 0 0, .pack 2000 3 15 255 0 0 0,
      .pack 2000 4 15 255 0 0 0], 4, 2⟩ :=
  ⟨2, by decide +kernel⟩

/-- **A date of the rule is not let through at another time of day.** -/
theorem not_filters : ¬ ∀ (s : List Char) (xs : List Instant), (∀ x ∈ xs, Query x) →
    (xs.Pairwise fun x y => echsInstantLtP y x = false) → Filters (snarfRrule s) {} xs := by
  intro h
  obtain ⟨b, s, ha, -, b', s', ha', hb', -⟩ := h "BYMONTHDAY=15;UNTIL=20000430".toList
    [.pack 2000 1 15 255 0 0 0, .pack 2000 2 15 9 0 0 echsAllSec] (by
      intro x hx
      rcases List.mem_pair.mp hx with rfl | rfl
      · exact ⟨by decide, by decide, by decide⟩
      · exact ⟨by decide, by decide, by decide⟩) (by decide)
  have hs := (filter15_january.unique ha).2
  rw [← hs] at ha'
  rw [← (filter15_february.unique ha').1] at hb'
  have hdate : IsRuleDate filter15 ⟨2000, 2, 15⟩ :=
    ⟨⟨2000, by decide, by decide, by decide +kernel⟩, by decide⟩
  exact absurd (hb'.mpr hdate) (by decide)

end Echse
