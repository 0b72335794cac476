/-
Looking offsets up in a zone file.

The search finds the last transition that is not after a time.  The range it is in is
cached, and the next search begins at it.  A search that finds nothing caches all of time,
though, and so does the first one where it only finds transition 0, which it leaves out.
-/
import Echse.Tzraw
import Echse.Refill

namespace Echse

/-! ### Transitions -/

/-- The number of the last transition not after `t`, or -1. -/
def Zif.last (z : Zif) (t : Int) : Int := (z.trs.countP (· ≤ t) : Nat) - 1

/-- The offset of `t`, looked up without a cache. -/
def Zif.uncached (z : Zif) (t : Int) : Int := (z.zrng t (z.last t)).offs

/-- Transition `i` is the last one not after `t`. -/
structure Zif.IsLast (z : Zif) (t : Int) (i : Nat) : Prop where
  lt : i < z.ntrans
  le : z.trans i ≤ t
  next : i + 1 < z.ntrans → t < z.trans (i + 1 : Nat)

section

variable {z : Zif}

theorem trans_of_lt {i : Nat} (h : i < z.ntrans) : z.trans i = z.trs.get ⟨i, h⟩ := by
  have h0 : z.ntrans ≠ 0 := by omega
  rw [Zif.trans, if_neg (by omega), if_neg (by omega)]
  exact List.getD_eq_getElem _ _ h

/-- Past the table there is its last transition. -/
theorem trans_of_ge {i : Nat} (h0 : 0 < z.ntrans) (h : z.ntrans ≤ i) :
    z.trans i = z.trans (z.ntrans - 1 : Nat) := by
  rw [Zif.trans, if_neg (by omega), if_pos (by omega), trans_of_lt (by omega)]
  exact List.getD_eq_getElem _ _ _

theorem trans_lt (hz : z.trs.Pairwise (· < ·)) {i j : Nat} (hij : i < j) (hj : j < z.ntrans) :
    z.trans i < z.trans j := by
  rw [trans_of_lt hj, trans_of_lt (hij.trans hj)]
  exact List.pairwise_iff_getElem.1 hz i j _ hj hij

theorem trans_le (hz : z.trs.Pairwise (· < ·)) {i j : Nat} (hij : i ≤ j) (hi : i < z.ntrans) :
    z.trans i ≤ z.trans j := by
  have hin {k : Nat} (hik : i ≤ k) (hk : k < z.ntrans) : z.trans i ≤ z.trans k := by
    rcases Nat.lt_or_ge i k with hlt | hge
    · exact (trans_lt hz hlt hk).le
    · rw [show k = i by omega]
  rcases Nat.lt_or_ge j z.ntrans with hj | hj
  · exact hin hij hj
  · rw [trans_of_ge (by omega) hj]
    exact hin (by omega) (by omega)

/-- The transitions up to a time are those that are counted. -/
theorem last_eq (hz : z.trs.Pairwise (· < ·)) {t : Int} {n : Nat} (hn : n ≤ z.ntrans)
    (hlo : 0 < n → z.trans (n - 1 : Nat) ≤ t) (hhi : n < z.ntrans → t < z.trans n) :
    z.last t = n - 1 := by
  have hle : (z.trs.take n).countP (· ≤ t) = n := by
    rw [List.countP_eq_length.2, List.length_take]
    · exact Nat.min_eq_left hn
    intro a ha
    obtain ⟨j, hj, rfl⟩ := List.mem_take_iff_getElem.1 ha
    have hle := trans_le hz (show j ≤ n - 1 by omega) (by unfold Zif.ntrans; omega)
    rw [trans_of_lt (show j < z.ntrans by unfold Zif.ntrans; omega)] at hle
    exact decide_eq_true (Int.le_trans hle (hlo (by omega)))
  have hgt : (z.trs.drop n).countP (· ≤ t) = 0 := by
    rw [List.countP_eq_zero]
    intro a ha
    obtain ⟨j, hj, rfl⟩ := List.mem_drop_iff_getElem.1 ha
    have hlen : z.ntrans = z.trs.length := rfl
    have hnext := hhi (by omega)
    have hle := trans_le hz (show n ≤ n + j by omega) (by omega)
    rw [trans_of_lt (show n + j < z.ntrans by omega), List.get_eq_getElem] at hle
    dsimp only at hle
    simp only [decide_eq_true_eq]
    omega
  rw [Zif.last, ← List.take_append_drop n z.trs, List.countP_append, hle, hgt]
  omega

theorem Zif.IsLast.last_eq (hz : z.trs.Pairwise (· < ·)) {t : Int} {i : Nat}
    (h : z.IsLast t i) : z.last t = i := by
  rw [Echse.last_eq hz h.lt (fun _ => h.le) h.next]
  omega

/-! ### The search -/

/-- The loop ends at the last transition, given one before the range's end. -/
theorem findTrnoLoop_spec (hz : z.trs.Pairwise (· < ·)) {t : Int} (fuel min max : Nat)
    (hmax : max ≤ z.ntrans) (hlo : z.trans min ≤ t) (hhi : t < z.trans max) (hmm : min < max)
    (hf : max - min ≤ fuel) :
    ∃ i : Nat, findTrnoLoop z t fuel min max = some (i : Int) ∧ z.IsLast t i := by
  induction fuel generalizing min max with
  | zero => omega
  | succ fuel ih =>
      rw [findTrnoLoop]
      generalize hthis : (min + max) / 2 = this
      by_cases hin : z.trans this ≤ t ∧ t < z.trans (this + 1 : Nat)
      · rw [if_pos hin]
        exact ⟨this, rfl, by omega, hin.1, fun _ => hin.2⟩
      · rw [if_neg hin]
        have hstep := trans_le hz (Nat.le_succ this) (by omega)
        by_cases hup : z.trans (this + 1 : Nat) ≤ t
        · rw [if_pos hup]
          -- the range would not get smaller if its end came next
          have hne : this ≠ min := by
            rintro rfl
            rw [show max = this + 1 by omega] at hhi
            omega
          exact ih this max hmax (Int.le_trans hstep hup) hhi (by omega) (by omega)
        · have hlt : t < z.trans this := by omega
          rw [if_neg hup, if_pos hlt]
          have hne : this ≠ min := by
            rintro rfl
            omega
          exact ih min this (by omega) hlo hlt (by omega) (by omega)

/-- **The search finds the last transition**, where the one the range begins with is not
after the time, and one it ends with is after it or the time is past all of them. -/
theorem findTrno_spec (hz : z.trs.Pairwise (· < ·)) {t : Int} {fuel min max : Nat}
    (hmm : min ≤ max) (hmax : max ≤ z.ntrans) (h0 : max ≠ 0) (hlo : z.trans min ≤ t)
    (hhi : t < z.trans max ∨ (max = z.ntrans ∧ t ≠ z.trans (z.ntrans - 1 : Nat)))
    (hf : z.ntrans ≤ fuel) :
    ∃ i : Nat, findTrno fuel z t min max = some (i : Int) ∧ z.IsLast t i := by
  rw [findTrno, if_neg h0, if_neg (by omega)]
  by_cases hpast : z.trans max < t
  · rw [if_pos hpast]
    obtain rfl : max = z.ntrans := by
      rcases hhi with h | h
      · omega
      · exact h.1
    rw [trans_of_ge (by omega) le_rfl] at hpast
    exact ⟨z.ntrans - 1, by rw [show ((z.ntrans - 1 : Nat) : Int) = (z.ntrans : Int) - 1 by omega],
      by omega, by omega, by omega⟩
  · rw [if_neg hpast]
    have hlt : t < z.trans max := by
      rcases hhi with h | ⟨rfl, hne⟩
      · exact h
      · rw [trans_of_ge (by omega) le_rfl] at hpast ⊢
        omega
    have hne : min ≠ max := by
      rintro rfl
      omega
    exact findTrnoLoop_spec hz fuel min max hmax hlo hlt (by omega) (by omega)

/-- The range that begins with transition `i`. -/
def Zif.rng (z : Zif) (i : Nat) : Zrng where
  prev := z.trans i
  next := if i + 1 < z.ntrans then z.trans (i + 1 : Nat) else intMax
  offs := int24 (z.troffs (i % 256 : Nat))
  trno := i % 256

theorem Zif.IsLast.zrng_eq {t : Int} {i : Nat} (h : z.IsLast t i) : z.zrng t i = z.rng i := by
  have hle := h.le
  rw [Zif.zrng]
  dsimp only
  rw [if_neg (by omega), if_neg (by omega), Int.toNat_natCast, Zif.rng]
  simp only [← Nat.cast_add_one, Nat.cast_lt]

theorem Zif.IsLast.uncached_eq (hz : z.trs.Pairwise (· < ·)) {t : Int} {i : Nat}
    (h : z.IsLast t i) : z.uncached t = (z.rng i).offs := by
  rw [Zif.uncached, h.last_eq hz, h.zrng_eq]

/-! ### The cache -/

/-- The cache is as it was at first, or it has the range of a transition. -/
inductive Zif.Cached (z : Zif) : Zrng → Prop
  | zero : z.Cached .zero
  | rng {i : Nat} (h : i < z.ntrans) (h256 : i < 256) : z.Cached (z.rng i)

/-- The time is in the cached range. -/
def Hit (c : Zrng) (t : Int) : Prop := c.prev ≤ t ∧ t < c.next

/-- A query that does not go wrong: there is one transition at most, or the time is in the
cached range, or the part of the table to be searched has a transition that is not after
it, and its number fits a byte. -/
def Fine (z : Zif) (c : Zrng) (t : Int) : Prop :=
  z.ntrans ≤ 1 ∨ Hit c t ∨
    ((c.next ≤ t → z.trans (c.trno + 1 : Nat) ≤ t) ∧
      (t < c.next → c.trno ≠ 0 ∧ z.trans (0 : Nat) ≤ t) ∧
      (256 < z.ntrans → t < z.trans (256 : Nat)))

/-- The search comes to an end if there is one: it does not for the last transition. -/
def Ends (z : Zif) (c : Zrng) (t : Int) : Prop := Hit c t ∨ z.trs.getLast? ≠ some t

instance (c : Zrng) (t : Int) : Decidable (Hit c t) := inferInstanceAs (Decidable (_ ∧ _))

instance (z : Zif) (c : Zrng) (t : Int) : Decidable (Fine z c t) :=
  inferInstanceAs (Decidable (_ ∨ _ ∨ _))

instance (z : Zif) (c : Zrng) (t : Int) : Decidable (Ends z c t) :=
  inferInstanceAs (Decidable (_ ∨ _))

/-- Every query of a run is fine. -/
def FineRun (fuel : Nat) (z : Zif) : Zrng → List Int → Prop
  | _, [] => True
  | c, t :: ts => Fine z c t ∧ Ends z c t ∧ ∀ r, offs fuel z c t = some r → FineRun fuel z r.2 ts

instance decidableFineRun (fuel : Nat) (z : Zif) :
    ∀ (ts : List Int) (c : Zrng), Decidable (FineRun fuel z c ts)
  | [], _ => .isTrue trivial
  | t :: ts, c =>
      match h : offs fuel z c t with
      | none => decidable_of_iff (Fine z c t ∧ Ends z c t)
          ⟨fun hf => ⟨hf.1, hf.2, fun r hr => by rw [h] at hr; cases hr⟩,
            fun hf => ⟨hf.1, hf.2.1⟩⟩
      | some r =>
          have : Decidable (FineRun fuel z r.2 ts) := decidableFineRun fuel z ts r.2
          decidable_of_iff (Fine z c t ∧ Ends z c t ∧ FineRun fuel z r.2 ts)
            ⟨fun hf => ⟨hf.1, hf.2.1, fun q hq => by
              rw [h] at hq
              cases hq
              exact hf.2.2⟩, fun hf => ⟨hf.1, hf.2.1, hf.2.2 r h⟩⟩

theorem ne_of_getLast? {t : Int} (h0 : 0 < z.ntrans) (h : z.trs.getLast? ≠ some t) :
    t ≠ z.trans (z.ntrans - 1 : Nat) := by
  rintro rfl
  apply h
  rw [trans_of_lt (by omega), List.getLast?_eq_getElem?]
  exact List.getElem?_eq_getElem _

/-- A hit in the range of a transition is a time that this is the last transition for. -/
theorem isLast_of_hit {i : Nat} (h : i < z.ntrans) {t : Int} (ht : Hit (z.rng i) t) :
    z.IsLast t i := by
  obtain ⟨hlo, hhi⟩ := ht
  refine ⟨h, hlo, fun hn => ?_⟩
  rwa [Zif.rng, if_pos hn] at hhi

/-- **A miss that is fine** finds the range. -/
theorem offs_miss (hz : z.trs.Pairwise (· < ·)) (hcz : z.cz ≠ .utc) {fuel : Nat}
    (hf : z.ntrans ≤ fuel) (h2 : 2 ≤ z.ntrans) {c : Zrng} (hc : z.Cached c) {t : Int}
    (hmiss : ¬ Hit c t) (hfine : Fine z c t) (hends : Ends z c t) :
    ∃ i < 256, z.IsLast t i ∧ offs fuel z c t = some ((z.rng i).offs, z.rng i) := by
  obtain ⟨hup, hdown, h256⟩ := (hfine.resolve_left (by omega)).resolve_left hmiss
  have hne := ne_of_getLast? (by omega) (hends.resolve_left hmiss)
  have htrno : c.trno < z.ntrans := by
    cases hc with
    | zero => exact (show 0 < z.ntrans by omega)
    | rng h h256 => exact lt_of_le_of_lt (Nat.mod_le _ _) h
  obtain ⟨i, hi, hoffs⟩ : ∃ i : Nat, z.IsLast t i ∧
      offs fuel z c t = some ((z.rng i).offs, z.rng i) := by
    rw [offs, if_neg hcz, if_neg (show ¬(c.prev ≤ t ∧ t < c.next) from hmiss)]
    by_cases hn : c.next ≤ t
    · obtain ⟨i, hfind, hi⟩ := findTrno_spec hz (show c.trno + 1 ≤ z.ntrans from htrno) le_rfl (by omega)
        (hup hn) (.inr ⟨rfl, hne⟩) hf
      refine ⟨i, hi, ?_⟩
      simp only [if_pos hn, findZrng, hfind, Option.map_some, hi.zrng_eq]
    · obtain ⟨htr0, h0⟩ := hdown (by omega)
      have hprev : t < c.prev := by
        unfold Hit at hmiss
        omega
      have hlt : t < z.trans c.trno := by
        cases hc with
        | zero => exact absurd rfl htr0
        | rng h h256 =>
            have hmod : (z.rng _).trno = _ := Nat.mod_eq_of_lt h256
            rwa [hmod]
      obtain ⟨i, hfind, hi⟩ := findTrno_spec hz (Nat.zero_le c.trno) htrno.le htr0 h0
        (.inl hlt) hf
      refine ⟨i, hi, ?_⟩
      simp only [if_neg hn, if_pos hprev, findZrng, hfind, Option.map_some, hi.zrng_eq]
  refine ⟨i, ?_, hi, hoffs⟩
  by_contra hge
  have hlt := h256 (by have := hi.lt; omega)
  have hle := trans_le hz (show 256 ≤ i by omega) (by have := hi.lt; omega)
  have := hi.le
  omega

/-- Before the second transition there is one offset. -/
theorem zrng_first {t n : Int} (hn : n = -1 ∨ n = 0) :
    (z.zrng t n).offs = int24 (z.troffs 0) ∧ (z.zrng t n).trno = 0 := by
  rw [Zif.zrng]
  rcases hn with rfl | rfl
  · split <;> simp
  · split <;> simp

/-- **A query where there is one transition at most.** -/
theorem offs_few (hcz : z.cz ≠ .utc) (h1 : z.ntrans ≤ 1) (fuel : Nat) {c : Zrng}
    (hc : c.trno = 0 ∧ (c = .zero ∨ c.offs = int24 (z.troffs 0))) {t : Int} (hends : Ends z c t) :
    ∃ c', offs fuel z c t = some (int24 (z.troffs 0), c') ∧
      c'.trno = 0 ∧ c'.offs = int24 (z.troffs 0) := by
  obtain ⟨hno, hoffs⟩ := hc
  rw [offs, if_neg hcz]
  by_cases hhit : Hit c t
  · rw [if_pos (show c.prev ≤ t ∧ t < c.next from hhit)]
    rcases hoffs with rfl | hoffs
    · exact absurd hhit (fun h => absurd (lt_of_le_of_lt h.1 h.2) (lt_irrefl (0 : Int)))
    · exact ⟨c, by rw [hoffs], hno, hoffs⟩
  · rw [if_neg (show ¬(c.prev ≤ t ∧ t < c.next) from hhit), hno]
    have hnil (n : Int) (hn : n = -1 ∨ n = 0) : ∃ c',
        some ((z.zrng t n).offs, z.zrng t n) = some (int24 (z.troffs 0), c') ∧
          c'.trno = 0 ∧ c'.offs = int24 (z.troffs 0) :=
      ⟨_, by rw [(zrng_first hn).1], (zrng_first hn).2, (zrng_first hn).1⟩
    have hnone : findZrng fuel z t 0 0 = some (z.zrng t (-1)) := rfl
    by_cases hnext : c.next ≤ t
    · simp only [if_pos hnext, Nat.zero_add]
      rw [findZrng, findTrno]
      by_cases h0 : z.ntrans = 0
      · rw [if_pos h0]
        exact hnil _ (.inl rfl)
      · rw [if_neg h0]
        have hn1 : z.ntrans = 1 := by omega
        have hne := ne_of_getLast? (by omega) (hends.resolve_left hhit)
        rw [← trans_of_ge (by omega) le_rfl, hn1] at hne
        rw [hn1]
        by_cases hlt : t < z.trans (1 : Nat)
        · rw [if_pos hlt]
          exact hnil _ (.inl rfl)
        · rw [if_neg hlt, if_pos (by omega)]
          exact hnil _ (.inr rfl)
    · simp only [if_neg hnext, hnone, ite_self]
      exact hnil _ (.inl rfl)

/-- What the cache may be in a run. -/
def Zif.CacheOk (z : Zif) (c : Zrng) : Prop :=
  if z.ntrans ≤ 1 then c.trno = 0 ∧ (c = .zero ∨ c.offs = int24 (z.troffs 0)) else z.Cached c

/-- **A fine query** is answered as without a cache. -/
theorem offs_fine (hz : z.trs.Pairwise (· < ·)) (hcz : z.cz ≠ .utc) {fuel : Nat}
    (hf : z.ntrans ≤ fuel) {c : Zrng} (hc : z.CacheOk c) {t : Int} (hfine : Fine z c t)
    (hends : Ends z c t) :
    ∃ c', offs fuel z c t = some (z.uncached t, c') ∧ z.CacheOk c' := by
  unfold Zif.CacheOk at *
  by_cases h1 : z.ntrans ≤ 1
  · rw [if_pos h1] at hc
    obtain ⟨c', hoffs, hno, ho⟩ := offs_few hcz h1 fuel hc hends
    have hcount : z.trs.countP (· ≤ t) ≤ 1 := List.countP_le_length.trans h1
    have hun : z.uncached t = int24 (z.troffs 0) :=
      (zrng_first (by unfold Zif.last; omega)).1
    simp only [hun, if_pos h1]
    exact ⟨c', hoffs, hno, .inr ho⟩
  · rw [if_neg h1] at hc
    simp only [if_neg h1]
    by_cases hhit : Hit c t
    · refine ⟨c, ?_, hc⟩
      rw [offs, if_neg hcz, if_pos (show c.prev ≤ t ∧ t < c.next from hhit)]
      cases hc with
      | zero => exact absurd hhit (fun h => absurd (lt_of_le_of_lt h.1 h.2) (lt_irrefl (0 : Int)))
      | rng h h256 => rw [(isLast_of_hit h hhit).uncached_eq hz]
    · obtain ⟨i, h256, hi, hoffs⟩ := offs_miss hz hcz hf (by omega) hc hhit hfine hends
      exact ⟨z.rng i, by rw [hi.uncached_eq hz, hoffs], .rng hi.lt h256⟩

/-- **The cache is transparent** in every run whose queries are fine. -/
theorem offsRun_fine (hz : z.trs.Pairwise (· < ·)) (hcz : z.cz ≠ .utc) {fuel : Nat}
    (hf : z.ntrans ≤ fuel) (ts : List Int) (h : FineRun fuel z .zero ts) :
    offsRun fuel z .zero ts = some (ts.map z.uncached) := by
  have hrun : ∀ c, z.CacheOk c → FineRun fuel z c ts →
      offsRun fuel z c ts = some (ts.map z.uncached) := by
    clear h
    induction ts with
    | nil => exact fun c _ _ => rfl
    | cons t ts ih =>
        rintro c hc ⟨hfine, hends, hnext⟩
        obtain ⟨c', hoffs, hc'⟩ := offs_fine hz hcz hf hc hfine hends
        rw [offsRun, hoffs, Option.bind_eq_bind, Option.bind_some, ih c' hc' (hnext _ hoffs)]
        rfl
  refine hrun .zero ?_ h
  unfold Zif.CacheOk
  split
  · exact ⟨rfl, .inl rfl⟩
  · exact .zero

/-- **What is looked up without a cache** is what `zif_find_zrng` finds. -/
theorem zifFindZrng_eq (hz : z.trs.Pairwise (· < ·)) {fuel : Nat} (hf : z.ntrans ≤ fuel)
    {t : Int} (ht : z.trs.getLast? ≠ some t) :
    zifFindZrng fuel z t = some (z.zrng t (z.last t)) := by
  rw [zifFindZrng, findZrng]
  by_cases h0 : z.ntrans = 0
  · have hnil : z.trs = [] := List.length_eq_zero_iff.1 h0
    rw [findTrno, if_pos h0, Zif.last, hnil]
    rfl
  · by_cases hlo : z.trans (0 : Nat) ≤ t
    · obtain ⟨i, hfind, hi⟩ := findTrno_spec hz (Nat.zero_le _) le_rfl h0 hlo
        (.inr ⟨rfl, ne_of_getLast? (by omega) ht⟩) hf
      rw [hfind, hi.last_eq hz]
      rfl
    · have hnone : z.last t = -1 := last_eq hz (Nat.zero_le _) (by omega) (fun _ => by omega)
      rw [findTrno, if_neg h0, if_pos (by omega), hnone]
      rfl

/-- **A search that finds nothing** answers all that comes after it. -/
theorem offsRun_poisoned (hcz : z.cz ≠ .utc) (fuel : Nat) {t : Int} (ht : intMin ≤ t)
    (ts : List Int) (hts : ∀ s ∈ ts, intMin ≤ s ∧ s < intMax) :
    offsRun fuel z (z.zrng t (-1)) ts = some (ts.map fun _ => int24 (z.troffs 0)) := by
  have hprev : z.trans (-1) = intMin := by
    rw [Zif.trans, if_pos (.inr (by decide))]
  have hc : z.zrng t (-1) = ⟨intMin, intMax, int24 (z.troffs 0), 0⟩ := by
    rw [Zif.zrng]
    dsimp only
    rw [hprev, if_neg (by omega), if_pos (by decide)]
  rw [hc]
  induction ts with
  | nil => rfl
  | cons s ts ih =>
      have hs := hts s List.mem_cons_self
      have ih := ih fun s hs => hts s (List.mem_cons_of_mem _ hs)
      rw [offsRun, offs, if_neg hcz, if_pos hs]
      simp only [Option.bind_eq_bind, Option.bind_some, ih, List.map_cons]

/-- A zone with an hour of summer time. -/
def summerZone : Zif := ⟨[0, 1000, 2000], [0, 1, 0], [0, 3600], .unk⟩

/-- A query in the summer and one before it. -/
theorem offsRun_fine_summer :
    offsRun 3 summerZone .zero [1500, 500] = some ([1500, 500].map summerZone.uncached) :=
  offsRun_fine (by decide) (by decide) (by decide) _ (by decide)

/-- After a query before 1970 there is no summer. -/
theorem offsRun_forgets_summer :
    ¬ ∀ (z : Zif) (fuel : Nat) (ts : List Int), z.trs.Pairwise (· < ·) → z.cz ≠ .utc →
      z.ntrans ≤ fuel → (∀ t ∈ ts, z.trs.getLast? ≠ some t) →
        offsRun fuel z .zero ts = some (ts.map z.uncached) := fun h =>
  absurd (h summerZone 3 [-1, 1500] (by decide) (by decide) (by decide) (by decide))
    (by decide)

/-! ### Searching the whole table -/

/-- What is expected of a search of the whole table: it ends, and at the last transition that is
not after the time, which is -1 if they all are. -/
def Zif.Searched (z : Zif) (t : Int) : Prop :=
  ∃ fuel i, findTrno fuel z t 0 z.ntrans = some i ∧ -1 ≤ i ∧ i < z.ntrans ∧
    ∀ j (hj : j < z.trs.length), z.trs[j] ≤ t ↔ (j : Int) ≤ i

theorem Zif.IsLast.le_iff {z : Zif} (hz : z.trs.Pairwise (· < ·)) {t : Int} {i j : Nat}
    (h : z.IsLast t i) (hj : j < z.trs.length) : z.trs[j] ≤ t ↔ (j : Int) ≤ i := by
  have hle := h.le
  have hget : z.trans j = z.trs[j] := trans_of_lt hj
  rw [← hget, Nat.cast_le]
  rcases Nat.lt_or_ge i j with hij | hij
  · have hin : i + 1 < z.ntrans := Nat.lt_of_le_of_lt hij hj
    have hnext := h.next hin
    have hup := trans_le hz (show i + 1 ≤ j from hij) hin
    exact iff_of_false (by omega) (by omega)
  · have hdown := trans_le hz hij hj
    exact iff_of_true (by omega) hij

/-- A time that is not before any transition is searched for at the end, again and again. -/
theorem findTrnoLoop_never {z : Zif} {t : Int} (h : ∀ i : Nat, z.trans i ≤ t) (fuel min max : Nat) :
    findTrnoLoop z t fuel min max = none := by
  induction fuel generalizing min with
  | zero => rfl
  | succ fuel ih =>
      have hnext := h ((min + max) / 2 + 1)
      rw [findTrnoLoop, if_neg (by omega), if_pos hnext]
      exact ih _

theorem findTrno_never {z : Zif} (hz : z.trs.Pairwise (· < ·)) {t : Int}
    (hlast : z.trs.getLast? = some t) (fuel : Nat) : findTrno fuel z t 0 z.ntrans = none := by
  have hne : z.trs ≠ [] := by
    intro hnil
    rw [hnil] at hlast
    cases hlast
  have h0 : 0 < z.ntrans := List.length_pos_iff.mpr hne
  have hend : z.trans (z.ntrans - 1 : Nat) = t := by
    rw [List.getLast?_eq_some_getLast hne, List.getLast_eq_getElem] at hlast
    rw [trans_of_lt (by omega)]
    exact Option.some.inj hlast
  have hall : ∀ i : Nat, z.trans i ≤ t := by
    intro i
    rcases Nat.lt_or_ge i z.ntrans with hi | hi
    · exact hend ▸ trans_le hz (by omega) hi
    · exact (trans_of_ge h0 hi).trans hend |>.le
  have hfirst := hall 0
  have hpast := (trans_of_ge h0 le_rfl).trans hend
  rw [findTrno, if_neg (by omega), if_neg (by omega), if_neg (by omega)]
  exact findTrnoLoop_never hall fuel 0 z.ntrans

/-- **The search of a table ends** where it should if and only if the time is not that of the
last transition. -/
theorem searched_iff (z : Zif) (t : Int) (hz : z.trs.Pairwise (· < ·)) :
    z.Searched t ↔ z.trs.getLast? ≠ some t := by
  constructor
  · rintro ⟨fuel, i, hfind, -⟩ hlast
    rw [findTrno_never hz hlast fuel] at hfind
    cases hfind
  · intro hne
    by_cases h0 : z.ntrans = 0
    · have hnone : ∀ j, ¬ j < z.trs.length := fun j hj => Nat.not_lt_zero j (h0 ▸ hj)
      refine ⟨0, -1, ?_, by omega, by omega, fun j hj => absurd hj (hnone j)⟩
      rw [findTrno, if_pos h0]
    · by_cases hbefore : t < z.trans (0 : Nat)
      · refine ⟨0, -1, ?_, by omega, by omega, fun j hj => iff_of_false ?_ (by omega)⟩
        · rw [findTrno, if_neg h0, if_pos hbefore]
        · have hle := trans_le hz (Nat.zero_le j) (by omega)
          rw [trans_of_lt hj, List.get_eq_getElem] at hle
          dsimp only at hle
          omega
      · have hlast : t ≠ z.trans (z.ntrans - 1 : Nat) := by
          rintro rfl
          refine hne ?_
          rw [trans_of_lt (by omega), List.getLast?_eq_getElem?]
          exact List.getElem?_eq_getElem _
        obtain ⟨i, hfind, hi⟩ := findTrno_spec hz (Nat.zero_le _) le_rfl h0
          (Int.not_lt.mp hbefore) (.inr ⟨rfl, hlast⟩) le_rfl
        exact ⟨z.ntrans, i, hfind, by omega, by have := hi.lt; omega, fun j hj => hi.le_iff hz hj⟩

theorem searched_summer : summerZone.Searched 1500 :=
  (searched_iff summerZone 1500 (by decide)).mpr (by decide)

/-- The end of summer time is searched for without end. -/
theorem searched_endless : ¬ ∀ (z : Zif) (t : Int), z.trs.Pairwise (· < ·) → z.Searched t := by
  intro hall
  obtain ⟨fuel, i, hfind, -⟩ := hall summerZone 2000 (by decide)
  rw [findTrno_never (by decide) rfl] at hfind
  cases hfind

/-! ### Local times -/

/-- The offset of the last transition not after `t`, and of the first one before that. -/
def Zif.lookup (z : Zif) (t : Int) : Int := z.troffs (max (z.last t) 0)

/-- A day either side of any time, the offset changes once at most; it is less than a day. -/
def OneChange (o : Int → Int) : Prop :=
  ∀ l, ∃ T a b : Int, (-86400 < a ∧ a < 86400) ∧ (-86400 < b ∧ b < 86400) ∧
    ∀ t, l - 86400 < t → t < l + 86400 → o t = if t < T then a else b

/-- `zif_utc_time` looks twice at most. -/
theorem zifUtcTimeLoop_eq (o : Int → Int) (t : Int) {fuel : Nat} (hf : 2 ≤ fuel) :
    zifUtcTimeLoop o t fuel 0 (-1) = some (zifUtcTime o t) := by
  obtain ⟨n, rfl⟩ : ∃ n, fuel = n + 2 := ⟨fuel - 2, by omega⟩
  rw [zifUtcTimeLoop, zifUtcTime, Int.sub_zero]
  by_cases h0 : o t = 0
  · rw [if_neg (by simp [h0]), if_pos h0, h0, Int.sub_zero]
  · rw [if_pos ⟨h0, by decide⟩, if_neg h0, zifUtcTimeLoop, if_neg (by simp)]

theorem zifUtcTime_eq (o : Int → Int) (t : Int) : zifUtcTime o t = t - o (t - o t) := by
  rw [zifUtcTime]
  split
  · rename_i h0
    rw [h0, Int.sub_zero, h0, Int.sub_zero]
  · rfl

/-- Two looks are enough to find a time back. -/
theorem local_of_oneChange {o : Int → Int} (ho : OneChange o) (v : Int) :
    zifLocalTime o (zifUtcTime o (v + o v)) = v + o v := by
  generalize hl : v + o v = l
  have hov : -86400 < o v ∧ o v < 86400 := by
    obtain ⟨T, a, b, ha, hb, hat⟩ := ho v
    rw [hat v (by omega) (by omega)]
    split
    · exact ha
    · exact hb
  obtain ⟨T, a, b, ha, hb, hat⟩ := ho l
  have hv := hat v (by omega) (by omega)
  have hll := hat l (by omega) (by omega)
  have hla := hat (l - a) (by omega) (by omega)
  have hlb := hat (l - b) (by omega) (by omega)
  rw [zifLocalTime, zifUtcTime_eq]
  -- the first look is made on one side of the change, at `l` itself
  by_cases hlT : l < T
  · rw [if_pos hlT] at hll
    rw [hll, hla]
    by_cases haT : l - a < T
    · rw [if_pos haT] at hla ⊢
      omega
    · rw [if_neg haT] at hla ⊢
      rw [hlb]
      split at hv <;> split <;> omega
  · rw [if_neg hlT] at hll
    rw [hll, hlb]
    by_cases hbT : l - b < T
    · rw [if_pos hbT] at hlb ⊢
      rw [hla]
      split at hv <;> split <;> omega
    · rw [if_neg hbT] at hlb ⊢
      omega

/-- How many transitions there are up to a time. -/
theorem exists_upto (z : Zif) (t : Int) :
    ∃ n ≤ z.ntrans, (0 < n → z.trans (n - 1 : Nat) ≤ t) ∧ (n < z.ntrans → t < z.trans n) := by
  have hex : ∃ n, n = z.ntrans ∨ t < z.trans n := ⟨_, .inl rfl⟩
  refine ⟨Nat.find hex, Nat.find_min' hex (.inl rfl), fun hpos => ?_, fun hlt => ?_⟩
  · have := Nat.find_min hex (show Nat.find hex - 1 < Nat.find hex by omega)
    omega
  · exact (Nat.find_spec hex).resolve_left hlt.ne

/-- Transitions that are more than two days apart. -/
def Zif.Spaced (z : Zif) : Prop := z.trs.Pairwise fun s t => s + 172800 < t

theorem Zif.Spaced.lt (h : z.Spaced) : z.trs.Pairwise (· < ·) :=
  List.Pairwise.imp (fun h => by omega) h

theorem troffs_range (h : ∀ x ∈ z.tda, -86400 < x ∧ x < 86400) (n : Int) :
    -86400 < z.troffs n ∧ z.troffs n < 86400 := by
  rw [Zif.troffs, List.getD_eq_getElem?_getD]
  cases hx : z.tda[z.type n]? with
  | none => exact ⟨by decide, by decide⟩
  | some x => exact h x (List.mem_of_getElem? hx)

/-- Around any time there is one transition at most. -/
theorem oneChange_lookup (hz : z.Spaced) (ho : ∀ x ∈ z.tda, -86400 < x ∧ x < 86400) :
    OneChange z.lookup := by
  intro l
  obtain ⟨n, hn, hlo, hhi⟩ := exists_upto z (l - 86400)
  -- transition `n` is the next one, if there is one in these days
  refine ⟨if n < z.ntrans then z.trans n else l + 86400, z.troffs (max ((n : Int) - 1) 0),
    z.troffs n, troffs_range ho _, troffs_range ho _, fun t ht ht' => ?_⟩
  by_cases hlt : t < if n < z.ntrans then z.trans n else l + 86400
  · rw [if_pos hlt, Zif.lookup, last_eq hz.lt hn (fun h => by have := hlo h; omega)
      (fun h => by rwa [if_pos h] at hlt)]
  · rw [if_neg hlt]
    have hn' : n < z.ntrans := by
      by_contra hge
      rw [if_neg hge] at hlt
      omega
    rw [if_pos hn'] at hlt
    have hnext : n + 1 < z.ntrans → t < z.trans (n + 1 : Nat) := by
      intro h1
      have hgap := List.pairwise_iff_getElem.1 hz n (n + 1) hn' h1 (Nat.lt_succ_self n)
      have hln := hhi hn'
      rw [trans_of_lt h1, List.get_eq_getElem]
      rw [trans_of_lt hn', List.get_eq_getElem] at hln
      dsimp only at hln ⊢
      omega
    have hlast : z.last t = n := by
      rw [last_eq hz.lt (show n + 1 ≤ z.ntrans from hn') (fun _ => by
        rw [Nat.add_sub_cancel]
        omega) hnext]
      omega
    rw [Zif.lookup, hlast, max_eq_left (by omega)]

end

end Echse
