/-
The loop over times of day goes through all of them, one after another.

A pass at the end of the seconds is the same as one at their start in the next minute, and
so on up.  So what the loop visits is put together from its end.
-/
import Echse.EnumLoop

namespace Echse

/-- The three lists have something in them and are counted in bytes. -/
structure Enum.Listed (e : Enum) : Prop where
  hours : e.H ≠ []
  minutes : e.M ≠ []
  seconds : e.S ≠ []
  nH : e.H.length < 256
  nM : e.M.length < 256
  nS : e.S.length < 256

/-- The combinations of places in the lists that a form names, the last place varying first. -/
def Enum.places (e : Enum) : EnumForm → List (List Nat)
  | .three => (List.range e.H.length).flatMap fun h =>
      (List.range e.M.length).flatMap fun m => (List.range e.S.length).map fun s => [h, m, s]
  | .two => (List.range e.M.length).flatMap fun m => (List.range e.S.length).map fun s => [m, s]
  | .one => (List.range e.S.length).map fun s => [s]

/-- The loop comes to an end and has visited these places. -/
def Visits (e : Enum) (k : EnumForm) (i : EnumIdx) (l : List (List Nat)) : Prop :=
  ∃ fuel, enumLoop e k fuel i = some l

section

variable {e : Enum} {k : EnumForm} {l : List (List Nat)} {s m h : Nat}

/-! ### Passes -/

/-- What the counters without a name are set to. -/
def EnumForm.autoM (k : EnumForm) (m : Nat) : Nat := if k = .one then enumAuto else m

def EnumForm.autoH (k : EnumForm) (h : Nat) : Nat := if k = .three then h else enumAuto

theorem enumIter_eq (k : EnumForm) (s m h : Nat) :
    enumIter k ⟨s, m, h⟩ = ⟨s + 1, k.autoM m, k.autoH h⟩ := by
  cases k <;> rfl

@[simp] theorem autoM_idem (k : EnumForm) (m : Nat) : k.autoM (k.autoM m) = k.autoM m := by
  cases k <;> rfl

@[simp] theorem autoH_idem (k : EnumForm) (h : Nat) : k.autoH (k.autoH h) = k.autoH h := by
  cases k <;> rfl

@[simp] theorem named_auto (k : EnumForm) (s m h : Nat) :
    k.named ⟨s, k.autoM m, k.autoH h⟩ = k.named ⟨s, m, h⟩ := by
  cases k <;> rfl

/-- A pass in the seconds. -/
theorem Visits.pass (hs : s < e.S.length) (hv : Visits e k ⟨s + 1, k.autoM m, k.autoH h⟩ l) :
    Visits e k ⟨s, m, h⟩ (k.named ⟨s, m, h⟩ :: l) := by
  obtain ⟨fuel, hloop⟩ := hv
  refine ⟨fuel + 1, ?_⟩
  have hcond : enumCond e ⟨s, m, h⟩ = (true, ⟨s, m, h⟩) := if_pos hs
  rw [enumLoop, hcond]
  dsimp only
  rw [if_pos rfl, enumIter_eq, hloop]
  rfl

/-- Passes whose conditions come to the same are the same. -/
theorem Visits.of_cond {i i' : EnumIdx} (hcond : enumCond e i = enumCond e i')
    (hv : Visits e k i' l) : Visits e k i l := by
  obtain ⟨fuel, hloop⟩ := hv
  cases fuel with
  | zero => cases hloop
  | succ fuel =>
      refine ⟨fuel + 1, ?_⟩
      rw [enumLoop] at hloop ⊢
      rw [hcond]
      exact hloop

theorem Visits.carryM (hS : e.S ≠ []) (hm : m + 1 < e.M.length)
    (hv : Visits e k ⟨0, m + 1, h⟩ l) : Visits e k ⟨e.S.length, m, h⟩ l := by
  refine hv.of_cond ?_
  have hstart : enumCond e ⟨0, m + 1, h⟩ = (true, ⟨0, m + 1, h⟩) := if_pos (List.length_pos_iff.mpr hS)
  rw [hstart, enumCond, if_neg (Nat.lt_irrefl _), enumCondM]
  exact if_pos hm

theorem Visits.carryH (hS : e.S ≠ []) (hm : e.M.length ≤ m + 1) (hh : h + 1 < e.H.length)
    (hv : Visits e k ⟨0, 0, h + 1⟩ l) : Visits e k ⟨e.S.length, m, h⟩ l := by
  refine hv.of_cond ?_
  have hstart : enumCond e ⟨0, 0, h + 1⟩ = (true, ⟨0, 0, h + 1⟩) := if_pos (List.length_pos_iff.mpr hS)
  rw [hstart, enumCond, if_neg (Nat.lt_irrefl _), enumCondM]
  dsimp only
  rw [if_neg (Nat.not_lt.mpr hm), enumCondH]
  exact if_pos hh

theorem Visits.stop (hm : e.M.length ≤ m + 1) (hh : e.H.length ≤ h + 1) :
    Visits e k ⟨e.S.length, m, h⟩ [] := by
  refine ⟨1, ?_⟩
  have hcond : enumCond e ⟨e.S.length, m, h⟩ = (false, enumInit) := by
    rw [enumCond, if_neg (Nat.lt_irrefl _), enumCondM]
    dsimp only
    rw [if_neg (Nat.not_lt.mpr hm), enumCondH]
    exact if_neg (Nat.not_lt.mpr hh)
  rw [enumLoop, hcond]
  rfl

/-! ### Rows of them -/

/-- The seconds from `s` on. -/
theorem Visits.seconds (hs : s < e.S.length)
    (hv : Visits e k ⟨e.S.length, k.autoM m, k.autoH h⟩ l) :
    Visits e k ⟨s, m, h⟩
      ((List.range' s (e.S.length - s)).map (fun s => k.named ⟨s, m, h⟩) ++ l) := by
  obtain ⟨n, hn⟩ : ∃ n, e.S.length - s = n + 1 := ⟨e.S.length - s - 1, by omega⟩
  rw [hn]
  induction n generalizing s m h with
  | zero =>
      have hlast : s + 1 = e.S.length := by omega
      exact Visits.pass hs (hlast ▸ hv)
  | succ n ih =>
      rw [List.range'_succ, List.map_cons, List.cons_append]
      refine Visits.pass hs ?_
      have hrest := ih (m := k.autoM m) (h := k.autoH h) (show s + 1 < e.S.length by omega)
        (by rw [autoM_idem, autoH_idem]; exact hv) (by omega)
      simpa only [named_auto] using hrest

/-- All the seconds. -/
theorem Visits.minute (hS : e.S ≠ []) (hv : Visits e k ⟨e.S.length, k.autoM m, k.autoH h⟩ l) :
    Visits e k ⟨0, m, h⟩ ((List.range e.S.length).map (fun s => k.named ⟨s, m, h⟩) ++ l) := by
  rw [List.range_eq_range']
  exact Visits.seconds (List.length_pos_iff.mpr hS) hv

/-- The minutes from `m` on, where they have a name. -/
theorem Visits.minutes (hk : k ≠ .one) (hS : e.S ≠ []) (hm : m < e.M.length)
    (hv : Visits e k ⟨e.S.length, e.M.length - 1, k.autoH h⟩ l) :
    Visits e k ⟨0, m, h⟩ ((List.range' m (e.M.length - m)).flatMap (fun m =>
      (List.range e.S.length).map fun s => k.named ⟨s, m, h⟩) ++ l) := by
  obtain ⟨n, hn⟩ : ∃ n, e.M.length - m = n + 1 := ⟨e.M.length - m - 1, by omega⟩
  have hauto : ∀ m, k.autoM m = m := fun m => if_neg hk
  rw [hn]
  induction n generalizing m h with
  | zero =>
      have hlast : e.M.length - 1 = m := by omega
      rw [List.range'_one, List.flatMap_singleton]
      refine Visits.minute hS ?_
      rw [hauto, ← hlast]
      exact hv
  | succ n ih =>
      rw [List.range'_succ, List.flatMap_cons, List.append_assoc]
      refine Visits.minute hS ?_
      rw [hauto]
      refine Visits.carryM hS (by omega) ?_
      have hrest := ih (h := k.autoH h) (show m + 1 < e.M.length by omega)
        (by rw [autoH_idem]; exact hv) (by omega)
      have hnamed : ∀ s m, k.named ⟨s, m, k.autoH h⟩ = k.named ⟨s, m, h⟩ := fun s m => by
        conv_lhs => rw [← hauto m]
        rw [named_auto]
      simpa only [hnamed] using hrest

/-- All the minutes. -/
theorem Visits.hour (hk : k ≠ .one) (hM : e.M ≠ []) (hS : e.S ≠ [])
    (hv : Visits e k ⟨e.S.length, e.M.length - 1, k.autoH h⟩ l) :
    Visits e k ⟨0, 0, h⟩ ((List.range e.M.length).flatMap (fun m =>
      (List.range e.S.length).map fun s => k.named ⟨s, m, h⟩) ++ l) := by
  rw [List.range_eq_range' (n := e.M.length)]
  exact Visits.minutes hk hS (List.length_pos_iff.mpr hM) hv

/-- The hours from `h` on, where they have a name. -/
theorem Visits.hours (hM : e.M ≠ []) (hS : e.S ≠ []) (hh : h < e.H.length) :
    Visits e .three ⟨0, 0, h⟩ ((List.range' h (e.H.length - h)).flatMap fun h =>
      (List.range e.M.length).flatMap fun m =>
        (List.range e.S.length).map fun s => [h, m, s]) := by
  obtain ⟨n, hn⟩ : ∃ n, e.H.length - h = n + 1 := ⟨e.H.length - h - 1, by omega⟩
  rw [hn]
  induction n generalizing h with
  | zero =>
      have hend := Visits.hour (k := .three) (h := h) (by decide) hM hS
        (Visits.stop (by omega) (show e.H.length ≤ h + 1 by omega))
      rw [List.append_nil] at hend
      rw [List.range'_one, List.flatMap_singleton]
      exact hend
  | succ n ih =>
      rw [List.range'_succ, List.flatMap_cons]
      have hrest := Visits.carryH (m := e.M.length - 1) hS (by omega) (by omega)
        (ih (h := h + 1) (by omega) (by omega))
      exact Visits.hour (by decide) hM hS hrest

end

/-- **The loop over times of day** visits the combinations of places one after another and comes
to an end, in each of its forms. -/
theorem enumLoop_visits (e : Enum) (he : e.Listed) (k : EnumForm) :
    ∃ fuel, enumLoop e k fuel enumInit = some (e.places k) := by
  have hH := he.nH
  have hM := he.nM
  have hstop : ∀ {m}, e.M.length ≤ m + 1 → Visits e k ⟨e.S.length, m, enumAuto⟩ [] := fun hm =>
    Visits.stop hm (hH.le.trans (by decide))
  cases k with
  | three =>
      have hall := Visits.hours he.minutes he.seconds (List.length_pos_iff.mpr he.hours)
      rw [Nat.sub_zero, ← List.range_eq_range'] at hall
      exact hall
  | two =>
      have hall := Visits.hour (k := .two) (h := 0) (by decide) he.minutes he.seconds
        (hstop (by omega))
      rw [List.append_nil] at hall
      exact hall
  | one =>
      have hall := Visits.minute (k := .one) (m := 0) (h := 0) he.seconds
        (hstop (hM.le.trans (by decide)))
      rw [List.append_nil] at hall
      exact hall

theorem enumLoop_visits_office : ∃ fuel, enumLoop ⟨[9, 17], [0], [0, 30]⟩ .three fuel enumInit =
    some [[0, 0, 0], [0, 0, 1], [1, 0, 0], [1, 0, 1]] :=
  enumLoop_visits ⟨[9, 17], [0], [0, 30]⟩
    ⟨by decide, by decide, by decide, by decide, by decide, by decide⟩ .three

/-! ### Times at the places -/

theorem map_range_getD {α : Type} (xs : List Nat) (f : Nat → α) :
    ((List.range xs.length).map fun i => f (xs.getD i 0)) = xs.map f := by
  refine List.ext_getElem (by simp only [List.length_map, List.length_range]) fun i _ hi => ?_
  rw [List.length_map] at hi
  rw [List.getElem_map, List.getElem_map, List.getElem_range, List.getD_eq_getElem _ _ hi]

theorem flatMap_range_getD {α : Type} (xs : List Nat) (f : Nat → List α) :
    ((List.range xs.length).flatMap fun i => f (xs.getD i 0)) = xs.flatMap f := by
  rw [List.flatMap_def, map_range_getD, ← List.flatMap_def]

/-- On a date the expanders look at the times that are at the places of the loop. -/
theorem times_places (e : Enum) (y m d ms : Nat) :
    (e.places .three).map (fun p => Instant.pack y m d (e.H.getD (p.getD 0 0) 0)
      (e.M.getD (p.getD 1 0) 0) (e.S.getD (p.getD 2 0) 0) ms) = e.times y m d ms := by
  rw [Enum.places, List.map_flatMap, Enum.times, ← flatMap_range_getD e.H]
  refine List.flatMap_congr fun h _ => ?_
  rw [List.map_flatMap, ← flatMap_range_getD e.M]
  refine List.flatMap_congr fun m' _ => ?_
  rw [List.map_map, ← map_range_getD e.S]
  rfl

theorem times2_places (e : Enum) (y m d H ms : Nat) :
    (e.places .two).map (fun p => Instant.pack y m d H (e.M.getD (p.getD 0 0) 0)
      (e.S.getD (p.getD 1 0) 0) ms) = e.times2 y m d H ms := by
  rw [Enum.places, List.map_flatMap, Enum.times2, ← flatMap_range_getD e.M]
  refine List.flatMap_congr fun m' _ => ?_
  rw [List.map_map, ← map_range_getD e.S]
  rfl

theorem times1_places (e : Enum) (y m d H M ms : Nat) :
    (e.places .one).map (fun p => Instant.pack y m d H M (e.S.getD (p.getD 0 0) 0) ms) =
      e.times1 y m d H M ms := by
  rw [Enum.places, List.map_map, Enum.times1, ← map_range_getD e.S]
  rfl

end Echse
