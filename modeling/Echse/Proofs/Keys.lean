/-
The order of instants, and of the times of a day.

The comparisons look at the word of an instant with the all-day and all-second marks
moved to the front.  That is a number with the date in its upper and the time in its
lower half.
-/
import Echse.Expand
import Echse.Proofs.Ranges

namespace Echse

/-! ### Keys -/

/-- The number that instants are compared by. -/
def Instant.key (i : Instant) : Nat := (bumped i).u

theorem pack_self (i : Instant) : .pack i.y i.m i.d i.H i.M i.S i.ms = i := by
  obtain ⟨y, m, d, H, M, S, ms, h1, h2, h3, h4, h5, h6, h7⟩ := i
  simp only [Instant.pack, Instant.mk.injEq]
  exact ⟨Nat.mod_eq_of_lt h1, Nat.mod_eq_of_lt h2, Nat.mod_eq_of_lt h3, Nat.mod_eq_of_lt h4,
    Nat.mod_eq_of_lt h5, Nat.mod_eq_of_lt h6, Nat.mod_eq_of_lt h7⟩

theorem Instant.u_inj {x y : Instant} (h : x.u = y.u) : x = y := by
  obtain ⟨y1, m1, d1, H1, M1, S1, ms1, h1⟩ := x
  obtain ⟨y2, m2, d2, H2, M2, S2, ms2, h2⟩ := y
  unfold Instant.u at h
  dsimp only at h h1 h2
  simp only [Instant.mk.injEq]
  omega

theorem Instant.key_inj {x y : Instant} (h : x.key = y.key) : x = y := by
  have hb : bumped x = bumped y := Instant.u_inj h
  obtain ⟨y1, m1, d1, H1, M1, S1, ms1, h1⟩ := x
  obtain ⟨y2, m2, d2, H2, M2, S2, ms2, h2⟩ := y
  simp only [bumped, Instant.pack, Instant.mk.injEq] at hb h1 h2 ⊢
  omega

theorem ltP_iff (x y : Instant) : echsInstantLtP x y = true ↔ x.key < y.key := by
  simp [echsInstantLtP, Instant.key]

theorem ltP_false_iff (x y : Instant) : echsInstantLtP x y = false ↔ y.key ≤ x.key := by
  rw [← Bool.not_eq_true, ltP_iff]
  omega

/-- A date. -/
structure Date where
  y : Nat
  m : Nat
  d : Nat
deriving DecidableEq, Repr

/-- The upper half of a key. -/
def Date.key (t : Date) : Nat := (t.y * 256 + t.m) * 256 + t.d

/-- The fields of a date fit those of an instant. -/
structure Date.Fits (t : Date) : Prop where
  y : t.y < 65536
  m : t.m < 256
  d : t.d < 256

def Instant.date (i : Instant) : Date := ⟨i.y, i.m, i.d⟩

/-- The lower half of a key. -/
def timeKey (H M S ms : Nat) : Nat := (((H + 1) % 256 * 256 + M) * 64 + S) * 1024 + (ms + 1) % 1024

theorem timeKey_lt {M S : Nat} (H ms : Nat) (hM : M < 256) (hS : S < 64) :
    timeKey H M S ms < 4294967296 := by
  unfold timeKey
  omega

theorem key_eq (i : Instant) : i.key = i.date.key * 4294967296 + timeKey i.H i.M i.S i.ms := by
  have h := i.fits
  unfold Instant.key bumped Instant.u Instant.pack Instant.date Date.key timeKey
  dsimp only
  omega

/-- The time half of an instant's key. -/
theorem key_bounds (i : Instant) :
    i.date.key * 4294967296 ≤ i.key ∧ i.key < (i.date.key + 1) * 4294967296 := by
  have h := timeKey_lt i.H i.ms i.fits.2.2.2.2.1 i.fits.2.2.2.2.2.1
  have hk := key_eq i
  omega

theorem date_pack {t : Date} (h : t.Fits) (H M S ms : Nat) :
    (Instant.pack t.y t.m t.d H M S ms).date = t := by
  obtain ⟨hy, hm, hd⟩ := h
  unfold Instant.pack Instant.date
  dsimp only
  rw [Nat.mod_eq_of_lt hy, Nat.mod_eq_of_lt hm, Nat.mod_eq_of_lt hd]

theorem key_pack {t : Date} (h : t.Fits) {M S : Nat} (H : Nat) (hM : M < 256) (hS : S < 64)
    (ms : Nat) :
    (Instant.pack t.y t.m t.d H M S ms).key = t.key * 4294967296 + timeKey H M S ms := by
  rw [key_eq, date_pack h]
  unfold Instant.pack timeKey
  dsimp only
  rw [Nat.mod_eq_of_lt hM, Nat.mod_eq_of_lt hS]
  omega

/-- Dates are in the order of their keys. -/
theorem Date.key_lt_iff {s t : Date} (hs : s.Fits) (ht : t.Fits) :
    s.key < t.key ↔ s.y < t.y ∨ (s.y = t.y ∧ (s.m < t.m ∨ (s.m = t.m ∧ s.d < t.d))) := by
  obtain ⟨-, hm, hd⟩ := hs
  obtain ⟨-, hm', hd'⟩ := ht
  unfold Date.key
  omega

/-! ### Times of a day -/

/-- The times of a day come in ascending order. -/
structure Enum.Sorted (e : Enum) : Prop where
  H : e.H.Pairwise fun a b => (a + 1) % 256 < (b + 1) % 256
  M : e.M.Pairwise (· < ·)
  S : e.S.Pairwise (· < ·)
  M_lt : ∀ x ∈ e.M, x < 256
  S_lt : ∀ x ∈ e.S, x < 64

/-- The values a list names, or the one given in their place, are in order. -/
theorem sorted_or_single {xs : List Nat} {x n : Nat} {R : Nat → Nat → Prop} (hxs : xs.Pairwise R)
    (hlt : ∀ y ∈ xs, y < n) (hx : x < n) :
    (if xs.isEmpty then [x] else xs).Pairwise R ∧
      ∀ y ∈ (if xs.isEmpty then [x] else xs), y < n := by
  split
  · simpa using hx
  · exact ⟨hxs, hlt⟩

theorem bui31List_of_set {P : Nat → Prop} {bi : Nat} (h : UintSet 32 P bi) :
    (bui31List bi).Pairwise (· < ·) ∧ ∀ x ∈ bui31List bi, P x := h.list le_rfl

theorem bui63List_of_set {P : Nat → Prop} {bi : Nat} (h : UintSet 64 P bi) :
    (bui63List bi).Pairwise (· < ·) ∧ ∀ x ∈ bui63List bi, P x := h.list le_rfl

/-- **The times a rule names come in ascending order**, unless it names 25 hours. -/
theorem makeEnum_sorted {rr : Rrulsp} (hr : rr.Ranged) (h25 : (bui31List rr.H).length ≠ 25)
    (proto : Instant) : (makeEnum proto rr).Sorted := by
  obtain ⟨-, -, -, hpH, hpM, hpS, -⟩ := proto.fits
  obtain ⟨hH, hH24⟩ := bui31List_of_set hr.H
  obtain ⟨hM, hM60⟩ := bui63List_of_set hr.M
  obtain ⟨hS, hS60⟩ := bui63List_of_set hr.S
  have hHs : (bui31List rr.H).Pairwise fun a b => (a + 1) % 256 < (b + 1) % 256 := by
    refine hH.imp_of_mem fun ha hb hab => ?_
    have := hH24 _ ha
    have := hH24 _ hb
    omega
  have h1 := sorted_or_single (x := proto.H) (n := 256) hHs
    (fun y hy => by have := hH24 y hy; omega) hpH
  have h2 := sorted_or_single (x := proto.M) (n := 256) hM
    (fun y hy => by have := hM60 y hy; omega) hpM
  have h3 := sorted_or_single (x := proto.S) (n := 64) hS
    (fun y hy => by have := hS60 y hy; omega) hpS
  refine ⟨?_, h2.1, h3.1, h2.2, h3.2⟩
  unfold makeEnum
  dsimp only
  rw [if_neg]
  · exact h1.1
  · split
    · simp
    · exact h25

theorem timeKey_lt_timeKey (ms : Nat) {H M S a b c : Nat} (hM : M < 256) (hS : S < 64)
    (h : (H + 1) % 256 < (a + 1) % 256 ∨
      (H = a ∧ (M < b ∨ (M = b ∧ S < c)))) : timeKey H M S ms < timeKey a b c ms := by
  unfold timeKey
  rcases h with h | ⟨rfl, h | ⟨rfl, h⟩⟩
  · omega
  · omega
  · omega

section Times

variable {e : Enum} {t : Date} {ms : Nat}

theorem Enum.Sorted.times1 (he : e.Sorted) (ht : t.Fits) (H : Nat) {M : Nat} (hM : M < 256) :
    (e.times1 t.y t.m t.d H M ms).Pairwise (Instant.key · < Instant.key ·) := by
  unfold Enum.times1
  rw [List.pairwise_map]
  refine he.S.imp_of_mem fun ha hb hab => ?_
  have ha' := he.S_lt _ ha
  rw [key_pack ht H hM ha', key_pack ht H hM (he.S_lt _ hb)]
  have := timeKey_lt_timeKey ms (H := H) (a := H) hM ha' (Or.inr ⟨rfl, Or.inr ⟨rfl, hab⟩⟩)
  omega

theorem Enum.times2_eq (y m d H : Nat) :
    e.times2 y m d H ms = e.M.flatMap fun M => e.times1 y m d H M ms := rfl

theorem Enum.times_eq (y m d : Nat) :
    e.times y m d ms = e.H.flatMap fun H => e.times2 y m d H ms := rfl

theorem Enum.Sorted.times2 (he : e.Sorted) (ht : t.Fits) (H : Nat) :
    (e.times2 t.y t.m t.d H ms).Pairwise (Instant.key · < Instant.key ·) := by
  rw [Enum.times2_eq, List.pairwise_flatMap]
  refine ⟨fun M hM => he.times1 ht H (he.M_lt M hM), he.M.imp_of_mem ?_⟩
  intro a b ha hb hab x hx y hy
  obtain ⟨S, hS, rfl⟩ := List.mem_map.mp hx
  obtain ⟨S', hS', rfl⟩ := List.mem_map.mp hy
  rw [key_pack ht H (he.M_lt a ha) (he.S_lt S hS), key_pack ht H (he.M_lt b hb) (he.S_lt S' hS')]
  have := timeKey_lt_timeKey ms (H := H) (a := H) (c := S') (he.M_lt a ha) (he.S_lt S hS)
    (Or.inr ⟨rfl, Or.inl hab⟩)
  omega

theorem Enum.Sorted.times (he : e.Sorted) (ht : t.Fits) :
    (e.times t.y t.m t.d ms).Pairwise (Instant.key · < Instant.key ·) := by
  rw [Enum.times_eq, List.pairwise_flatMap]
  refine ⟨fun H _ => he.times2 ht H, he.H.imp_of_mem ?_⟩
  intro a b ha hb hab x hx y hy
  obtain ⟨M, hM, hx⟩ := List.mem_flatMap.mp hx
  obtain ⟨S, hS, rfl⟩ := List.mem_map.mp hx
  obtain ⟨M', hM', hy⟩ := List.mem_flatMap.mp hy
  obtain ⟨S', hS', rfl⟩ := List.mem_map.mp hy
  rw [key_pack ht a (he.M_lt M hM) (he.S_lt S hS),
    key_pack ht b (he.M_lt M' hM') (he.S_lt S' hS')]
  have := timeKey_lt_timeKey ms (b := M') (c := S') (he.M_lt M hM) (he.S_lt S hS)
    (Or.inl hab)
  omega

/-- What is between the hours, minutes and seconds of an instant on a date. -/
theorem Enum.date_times (ht : t.Fits) {x : Instant} (hx : x ∈ e.times t.y t.m t.d ms) :
    x.date = t := by
  obtain ⟨H, -, hx⟩ := List.mem_flatMap.mp hx
  obtain ⟨M, -, hx⟩ := List.mem_flatMap.mp hx
  obtain ⟨S, -, rfl⟩ := List.mem_map.mp hx
  exact date_pack ht H M S ms

/-- **The instants of ascending dates ascend.** -/
theorem Enum.Sorted.dates (he : e.Sorted) {ts : List Date} (hts : ts.Pairwise (Date.key · < Date.key ·))
    (hfits : ∀ t ∈ ts, t.Fits) :
    (ts.flatMap fun t => e.times t.y t.m t.d ms).Pairwise (Instant.key · < Instant.key ·) := by
  rw [List.pairwise_flatMap]
  refine ⟨fun t ht => he.times (hfits t ht), hts.imp_of_mem ?_⟩
  intro a b ha hb hab x hx y hy
  have hx' := (key_bounds x).2
  have hy' := (key_bounds y).1
  rw [Enum.date_times (hfits a ha) hx] at hx'
  rw [Enum.date_times (hfits b hb) hy] at hy'
  omega

end Times

end Echse
