/-
The two tables of strings, that of `intern.c` and that of `tzob.c`: their rows of slots, and the
pools that the strings are pasted into.

A row has nine slots in every stack, and the rows come home in the last one.  So a search along
a row ends, and it is the first slot that will do which it ends at, whatever the number of
stacks that there are.  A pool is the strings one after another, each padded with zeros, so that
a string is found again where the ones before it end.
-/
import Mathlib.Data.List.GetD
import Mathlib.Data.List.Nodup
import Mathlib.Data.List.TakeWhile
import Echse.Obarray
import Echse.Lib.Probing

namespace Echse

/-! ### The row of a hash -/

/-- The slot of the `n`-th probe, nine in a stack. -/
def zoneSeq (hx : UInt32) (n : Nat) : Nat :=
  if n / 9 = 0 then hx.toNat >>> (3 * (n % 9)) &&& 0xff
  else (2 ^ (2 * (n / 9) + 6) ||| hx.toNat >>> (3 * (n % 9))) &&& (2 ^ (2 * (n / 9) + 8) - 1)

/-- The slots of a stack are its own. -/
theorem zoneSeq_lt (hx : UInt32) (n : Nat) : zoneSeq hx n < 2 ^ (2 * (n / 9) + 8) := by
  unfold zoneSeq
  split
  · rename_i h
    rw [h]
    exact Nat.and_lt_two_pow _ (show 0xff < 2 ^ 8 by decide)
  · rw [Nat.and_two_pow_sub_one_eq_mod]
    exact Nat.mod_lt _ (Nat.two_pow_pos _)

theorem le_zoneSeq (hx : UInt32) {n : Nat} (h : n / 9 ≠ 0) : 2 ^ (2 * (n / 9) + 6) ≤ zoneSeq hx n := by
  rw [zoneSeq, if_neg h, Nat.and_two_pow_sub_one_eq_mod]
  refine Nat.ge_two_pow_of_testBit ?_
  rw [Nat.testBit_mod_two_pow, Nat.testBit_or, Nat.testBit_two_pow_self]
  simp

/-- In the last stack the bits of the hash are below that of the stack. -/
theorem zoneSeq_last (hx : UInt32) {n : Nat} (h : n / 9 = 13) :
    zoneSeq hx n = 4294967296 + hx.toNat >>> (3 * (n % 9)) := by
  have hlt : hx.toNat >>> (3 * (n % 9)) < 2 ^ 32 :=
    Nat.lt_of_le_of_lt (Nat.shiftRight_le _ _) hx.toNat_lt
  have hor := Nat.two_pow_add_eq_or_of_lt hlt 1
  rw [Nat.mul_one] at hor
  rw [zoneSeq, if_neg (by omega), h, ← hor, Nat.and_two_pow_sub_one_eq_mod, Nat.mod_eq_of_lt]
  omega

/-- **The rows come home**: in the last stack a slot is shared with larger hashes only. -/
theorem zoneSeq_home : Probing.HomeRow (fun y x : UInt32 => x.toNat < y.toNat) zoneSeq 117 := by
  intro x y n heq hne
  have hx := zoneSeq_last x (n := 117) rfl
  have hlevel : n / 9 = 13 := by
    have hlt := zoneSeq_lt y n
    have hxlt := x.toNat_lt
    have hshift : x.toNat >>> (3 * (117 % 9)) = x.toNat := rfl
    rw [heq, hx, hshift] at hlt
    rcases Nat.lt_trichotomy (n / 9) 13 with h | h | h
    · have hpow : 2 ^ (2 * (n / 9) + 8) ≤ 2 ^ 32 := Nat.pow_le_pow_right (by decide) (by omega)
      omega
    · exact h
    · have hge := le_zoneSeq y (n := n) (by omega)
      have hpow : 2 ^ 34 ≤ 2 ^ (2 * (n / 9) + 6) := Nat.pow_le_pow_right (by decide) (by omega)
      rw [heq, hx, hshift] at hge
      omega
  rw [zoneSeq_last y hlevel, hx, show x.toNat >>> (3 * (117 % 9)) = x.toNat from rfl] at heq
  have hval : y.toNat >>> (3 * (n % 9)) = x.toNat := by omega
  have hle := Nat.shiftRight_le y.toNat (3 * (n % 9))
  have hne' : y.toNat ≠ x.toNat := fun h => hne (UInt32.toNat_inj.mp h)
  have hmod : n % 9 ≠ 0 := by
    intro h0
    rw [h0, Nat.mul_zero, Nat.shiftRight_zero] at hval
    exact hne' hval
  exact ⟨by omega, by omega⟩

theorem wellFounded_above : WellFounded (fun y x : UInt32 => x.toNat < y.toNat) := by
  refine Subrelation.wf ?_ (measure fun y : UInt32 => 4294967296 - y.toNat).wf
  intro y x h
  have hy := y.toNat_lt
  show 4294967296 - y.toNat < 4294967296 - x.toNat
  omega

/-! ### Searching -/

/-- The first probe of a row that is as it should be. -/
def FirstProbe (hx : UInt32) (p : Nat → Bool) (n : Nat) : Prop :=
  p (zoneSeq hx n) = true ∧ ∀ i < n, p (zoneSeq hx i) = false

/-- The probes of a stack, as the loops make them. -/
def StackProbes (hx : UInt32) (off : Nat → Nat) (l : Nat) : Prop :=
  ∀ j < 9, off (hx.toNat >>> (3 * j)) = zoneSeq hx (9 * l + j)

theorem stackProbes_zero (hx : UInt32) : StackProbes hx (fun k => k &&& 0xff) 0 := by
  intro j hj
  rw [zoneSeq, if_pos (by omega), show (9 * 0 + j) % 9 = j by omega]

theorem stackProbes (hx : UInt32) {l : Nat} (hl : l ≠ 0) :
    StackProbes hx (fun k => (2 ^ (2 * l + 6) ||| k) &&& (2 ^ (2 * l + 8) - 1)) l := by
  intro j hj
  rw [zoneSeq, show (9 * l + j) / 9 = l by omega, if_neg hl, show (9 * l + j) % 9 = j by omega]

variable {hx : UInt32} {p : Nat → Bool} {off : Nat → Nat} {l n : Nat}

/-- A stack that the row stops in. -/
theorem probe_eq_some (hoff : StackProbes hx off l) (hn : FirstProbe hx p n) (hl : n / 9 = l) :
    probe hx off p = some (zoneSeq hx n) := by
  have hthis := hoff (n % 9) (Nat.mod_lt _ (by decide))
  rw [show 9 * l + n % 9 = n by omega] at hthis
  have hfind : (List.range 9).find? (p ∘ fun j => off (hx.toNat >>> (3 * j))) = some (n % 9) := by
    rw [List.find?_range_eq_some]
    refine ⟨?_, List.mem_range.mpr (Nat.mod_lt _ (by decide)), fun j hj => ?_⟩
    · rw [Function.comp_apply, hthis]
      exact hn.1
    · rw [Function.comp_apply, hoff j (by omega), hn.2 _ (by omega)]
      rfl
  rw [probe, List.find?_map, hfind, Option.map_some, hthis]

/-- A stack that the row goes past. -/
theorem probe_eq_none (hoff : StackProbes hx off l) (hn : FirstProbe hx p n) (hl : l < n / 9) :
    probe hx off p = none := by
  rw [probe, List.find?_map, Option.map_eq_none_iff, List.find?_range_eq_none]
  intro j hj
  rw [Function.comp_apply, hoff j hj, hn.2 _ (by omega)]
  rfl

theorem stack_next (l : Nat) : 2 ^ (2 * l + 6) <<< 2 = 2 ^ (2 * (l + 1) + 6) ∧
    (2 ^ (2 * l + 8) - 1) <<< 2 ||| 3 = 2 ^ (2 * (l + 1) + 8) - 1 := by
  have hpos := Nat.two_pow_pos (2 * l + 8)
  rw [← Nat.shiftLeft_add_eq_or_of_lt (show 3 < 2 ^ 2 by decide), Nat.shiftLeft_eq, Nat.shiftLeft_eq]
  rw [show 2 ^ (2 * (l + 1) + 6) = 2 ^ (2 * l + 6) * 2 ^ 2 by rw [← Nat.pow_add]; ring_nf,
    show 2 ^ (2 * (l + 1) + 8) = 2 ^ (2 * l + 8) * 2 ^ 2 by rw [← Nat.pow_add]; ring_nf]
  exact ⟨rfl, by omega⟩

/-- The loop of `obint_name` gets to the stack that the row stops in. -/
theorem nameLoop_eq {zstk : Nat} (hn : FirstProbe hx p n) (hz : zoneSeq hx n < zstk) :
    ∀ fuel l, l ≠ 0 → l ≤ n / 9 → n / 9 < l + fuel →
      nameLoop zstk hx p fuel (2 ^ (2 * l + 6)) (2 ^ (2 * l + 8) - 1) = some (zoneSeq hx n) := by
  intro fuel
  induction fuel with
  | zero =>
      intro l hl hle hlt
      omega
  | succ fuel ih =>
      intro l hl hle hlt
      have hfrom := le_zoneSeq hx (n := n) (by omega)
      have hpow : 2 ^ (2 * l + 6) ≤ 2 ^ (2 * (n / 9) + 6) := Nat.pow_le_pow_right (by decide) (by omega)
      rw [nameLoop, if_neg (by omega)]
      rcases Nat.lt_or_eq_of_le hle with hpast | hhere
      · rw [probe_eq_none (stackProbes hx hl) hn hpast]
        obtain ⟨hi, hm⟩ := stack_next l
        dsimp only
        rw [hi, hm]
        exact ih (l + 1) (by omega) (by omega) (by omega)
      · rw [probe_eq_some (stackProbes hx hl) hn hhere.symm]

/-- Where no slot will do, it does not find one. -/
theorem nameLoop_none (hp : ∀ off, p off = false) (zstk fuel i m : Nat) :
    nameLoop zstk hx p fuel i m = none := by
  induction fuel generalizing i m with
  | zero => rfl
  | succ fuel ih =>
      have hprobe : probe hx (fun k => (i ||| k) &&& m) p = none := by
        rw [probe, List.find?_eq_none]
        intro off _
        rw [hp off]
        decide
      rw [nameLoop, hprobe]
      dsimp only
      rw [ih]
      split
      · rfl
      · rfl

/-- How many slots there are. -/
def Stacked (z : Nat) : Prop := ∃ t, z = 2 ^ (2 * t + 8)

/-- The loop of `intern` gets there too, and makes the slots for it. -/
theorem internLoop_eq {fuel zstk : Nat} (hst : Stacked zstk) (hl : l ≠ 0)
    (hn : FirstProbe hx p n) (hle : l ≤ n / 9) (hlt : n / 9 < l + fuel) :
    ∃ z, Stacked z ∧ zstk ≤ z ∧ zoneSeq hx n < z ∧
      internLoop hx p fuel (2 ^ (2 * l + 6)) (2 ^ (2 * l + 8) - 1) zstk = (some (zoneSeq hx n), z) := by
  induction fuel generalizing l zstk with
  | zero => omega
  | succ fuel ih =>
      obtain ⟨z, hz, hzle, hzl, hst'⟩ : ∃ z, Stacked z ∧ zstk ≤ z ∧ 2 ^ (2 * l + 8) ≤ z ∧
          (if zstk ≤ 2 ^ (2 * l + 6) then 2 ^ (2 * l + 6) <<< 2 else zstk) = z := by
        by_cases hgrow : zstk ≤ 2 ^ (2 * l + 6)
        · refine ⟨2 ^ (2 * l + 8), ⟨l, rfl⟩, ?_, le_rfl, ?_⟩
          · exact hgrow.trans (Nat.pow_le_pow_right (by decide) (by omega))
          · rw [if_pos hgrow, Nat.shiftLeft_eq, ← Nat.pow_add]
        · obtain ⟨t, ht⟩ := hst
          refine ⟨zstk, ⟨t, ht⟩, le_rfl, ?_, if_neg hgrow⟩
          rw [ht] at hgrow ⊢
          have hexp := (Nat.pow_lt_pow_iff_right (by decide)).mp (Nat.not_le.mp hgrow)
          exact Nat.pow_le_pow_right (by decide) (by omega)
      rw [internLoop, hst']
      rcases Nat.lt_or_eq_of_le hle with hpast | hhere
      · rw [probe_eq_none (stackProbes hx hl) hn hpast]
        obtain ⟨hi, hm⟩ := stack_next l
        dsimp only
        rw [hi, hm]
        obtain ⟨z', hz', hzle', hzlt, heq⟩ := @ih (l + 1) z hz (by omega) (by omega) (by omega)
        exact ⟨z', hz', hzle.trans hzle', hzlt, heq⟩
      · rw [probe_eq_some (stackProbes hx hl) hn hhere.symm]
        have hslot := zoneSeq_lt hx n
        rw [← hhere] at hslot
        exact ⟨z, hz, hzle, by omega, rfl⟩

/-! ### What is in the slots -/

/-- Which hash is in a slot, 0 being none. -/
def hashOcc (f : Nat → UInt32) (p : Nat) : Option UInt32 := if f p = 0 then none else some (f p)

variable {f : Nat → UInt32} {k : UInt32} {q : Nat}

theorem hashOcc_eq_none : hashOcc f q = none ↔ f q = 0 := by
  unfold hashOcc
  split
  · exact iff_of_true rfl ‹_›
  · exact iff_of_false (Option.some_ne_none _) ‹_›

theorem hashOcc_eq_some (hk : k ≠ 0) : hashOcc f q = some k ↔ f q = k := by
  unfold hashOcc
  split
  · rename_i h
    rw [h]
    exact iff_of_false (fun hc => Option.some_ne_none _ hc.symm) hk.symm
  · exact Option.some_inj

theorem hashOcc_ne_zero : hashOcc f q ≠ some 0 := by
  unfold hashOcc
  split
  · exact Option.some_ne_none _ ∘ Eq.symm
  · rename_i h
    exact fun hc => h (Option.some.inj hc)

/-- A slot that has the hash, or nothing. -/
theorem takes_iff : (f q == k || f q == 0) = true ↔ hashOcc f q = none ∨ hashOcc f q = some k := by
  rw [hashOcc_eq_none, Bool.or_eq_true, beq_iff_eq, beq_iff_eq, or_comm]
  by_cases hk : k = 0
  · subst hk
    simp [hashOcc_ne_zero]
  · rw [hashOcc_eq_some hk]

/-- What the loops look for is what the row hits. -/
theorem firstProbe_iff_hit :
    FirstProbe k (fun off => f off == k || f off == 0) n ↔ Probing.Hit zoneSeq (hashOcc f) k n := by
  unfold FirstProbe Probing.Hit
  rw [takes_iff]
  refine and_congr_right fun _ => forall₂_congr fun i _ => ?_
  rw [← Bool.not_eq_true, takes_iff, not_or]

theorem hashOcc_update {s : UInt32} (hs : s ≠ 0) (off : Nat) :
    hashOcc (Function.update f off s) = Function.update (hashOcc f) off (some s) := by
  funext p
  by_cases hp : p = off
  · subst hp
    rw [Function.update_self, hashOcc_eq_some hs, Function.update_self]
  · rw [Function.update_of_ne hp, hashOcc, hashOcc, Function.update_of_ne hp]

/-- A table of slots with a hash in each of them: it has the entries `E` and no others, all of
them in slots that there are, and where they have been put by probing. -/
structure Slots {σ : Type} (hxOf : σ → UInt32) (tab : Nat → σ) (z : Nat) (E : σ → Prop) : Prop where
  filled : ∀ s, E s → ∃ p < z, tab p = s
  only : ∀ p, hxOf (tab p) ≠ 0 → E (tab p)
  fine : Probing.Fine zoneSeq (hashOcc fun p => hxOf (tab p))

section

variable {σ : Type} {hxOf : σ → UInt32} {tab : Nat → σ} {z : Nat} {E : σ → Prop}

/-- Every row hits, in the last stack at the latest. -/
theorem Slots.exists_hit (h : Slots hxOf tab z E) (k : UInt32) :
    ∃ n, n / 9 ≤ 13 ∧ FirstProbe k (fun off => hxOf (tab off) == k || hxOf (tab off) == 0) n := by
  obtain ⟨n, hn, hhit⟩ := h.fine.exists_hit wellFounded_above zoneSeq_home k
  exact ⟨n, by omega, firstProbe_iff_hit.mpr hhit⟩

/-- An entry is where its row hits. -/
theorem Slots.at_hit (h : Slots hxOf tab z E) {s : σ} (hs : E s) (hnz : hxOf s ≠ 0) {n : Nat}
    (hn : FirstProbe (hxOf s) (fun off => hxOf (tab off) == hxOf s || hxOf (tab off) == 0) n) :
    zoneSeq (hxOf s) n < z ∧ tab (zoneSeq (hxOf s) n) = s := by
  obtain ⟨p, hp, heq⟩ := h.filled s hs
  have hocc : hashOcc (fun p => hxOf (tab p)) p = some (hxOf s) := by
    rw [hashOcc_eq_some hnz, heq]
  rw [h.fine.hit_of_mem hocc (firstProbe_iff_hit.mp hn)]
  exact ⟨hp, heq⟩

/-- More slots do no harm. -/
theorem Slots.grow (h : Slots hxOf tab z E) {z' : Nat} (hle : z ≤ z') : Slots hxOf tab z' E where
  filled := fun s hs => by
    obtain ⟨p, hp, heq⟩ := h.filled s hs
    exact ⟨p, Nat.lt_of_lt_of_le hp hle, heq⟩
  only := h.only
  fine := h.fine

/-- A new entry is put into the free slot that its row hits. -/
theorem Slots.insert (h : Slots hxOf tab z E) {s : σ} (hnz : hxOf s ≠ 0) {n : Nat}
    (hn : FirstProbe (hxOf s) (fun off => hxOf (tab off) == hxOf s || hxOf (tab off) == 0) n)
    (hfree : hxOf (tab (zoneSeq (hxOf s) n)) = 0) (hlt : zoneSeq (hxOf s) n < z) (hE : ∀ s, E s → hxOf s ≠ 0) :
    Slots hxOf (Function.update tab (zoneSeq (hxOf s) n) s) z fun s' => E s' ∨ s' = s := by
  have hhit := firstProbe_iff_hit.mp hn
  have habsent : Probing.Absent (hashOcc fun p => hxOf (tab p)) (hxOf s) := by
    intro p hp
    have hplace := h.fine.hit_of_mem hp hhit
    rw [hashOcc_eq_some hnz, ← hplace, hfree] at hp
    exact hnz hp.symm
  refine ⟨?_, ?_, ?_⟩
  · rintro s' (hs | rfl)
    · obtain ⟨p, hp, heq⟩ := h.filled s' hs
      have hne : p ≠ zoneSeq (hxOf s) n := by
        rintro rfl
        rw [heq] at hfree
        exact hE s' hs hfree
      exact ⟨p, hp, by rw [Function.update_of_ne hne, heq]⟩
    · exact ⟨_, hlt, Function.update_self ..⟩
  · intro p hp
    by_cases hne : p = zoneSeq (hxOf s) n
    · subst hne
      exact Or.inr (Function.update_self ..)
    · rw [Function.update_of_ne hne] at hp ⊢
      exact Or.inl (h.only p hp)
  · have hfun : (fun p => hxOf (Function.update tab (zoneSeq (hxOf s) n) s p)) =
        Function.update (fun p => hxOf (tab p)) (zoneSeq (hxOf s) n) (hxOf s) :=
      Function.comp_update hxOf tab _ s
    rw [hfun, hashOcc_update hnz]
    exact h.fine.insert habsent hhit

end

/-! ### The pool of strings -/

/-- A name as it is pasted. -/
def zoneText (str : List Char) : List Char :=
  str ++ List.replicate (zonePad str.length - str.length) '\x00'

def poolText (names : List (List Char)) : List Char := names.flatMap zoneText

theorem lt_zonePad (n : Nat) : n < zonePad n := by
  unfold zonePad
  omega

theorem zonePad_le {n : Nat} (h : n < 256) : zonePad n ≤ 256 := by
  unfold zonePad
  omega

theorem zoneText_length (str : List Char) : (zoneText str).length = zonePad str.length := by
  have hlt := lt_zonePad str.length
  rw [zoneText, List.length_append, List.length_replicate]
  omega

@[simp] theorem poolText_append (names names' : List (List Char)) :
    poolText (names ++ names') = poolText names ++ poolText names' := List.flatMap_append

@[simp] theorem poolText_singleton (str : List Char) : poolText [str] = zoneText str := by
  simp [poolText]

theorem cStr_append_nul (str rest : List Char) : cStr (str ++ '\x00' :: rest) = cStr str := by
  induction str with
  | nil => rfl
  | cons c str ih =>
      by_cases hc : c = '\x00'
      · simp [cStr, hc]
      · rw [cStr, cStr, List.cons_append, List.takeWhile_cons_of_pos (by simpa using hc),
          List.takeWhile_cons_of_pos (by simpa using hc)]
        exact congrArg (c :: ·) ih

theorem nul_notMem_cStr (s : List Char) : '\x00' ∉ cStr s := by
  intro hmem
  have hall := List.all_eq_true.mp (List.all_takeWhile (p := fun c => decide (c ≠ '\x00')) (l := s))
  simpa using hall _ hmem

theorem cStr_of_notMem {s : List Char} (h : '\x00' ∉ s) : cStr s = s := by
  refine List.takeWhile_eq_self_iff.mpr fun c hc => ?_
  exact decide_eq_true fun he => h (he ▸ hc)

/-- A name is read up to its end, or up to a zero of its own. -/
theorem cStr_zoneText (str rest : List Char) : cStr (zoneText str ++ rest) = cStr str := by
  have hlt := lt_zonePad str.length
  obtain ⟨k, hk⟩ : ∃ k, zonePad str.length - str.length = k + 1 :=
    ⟨zonePad str.length - str.length - 1, by omega⟩
  rw [zoneText, hk, List.replicate_succ, List.append_assoc, List.cons_append]
  exact cStr_append_nul str _

/-- The pool holds the names one after another, and zeros. -/
structure PoolFine (obs : List Char) (obn : Nat) (names : List (List Char)) : Prop where
  text : ∃ r, obs = poolText names ++ List.replicate r '\x00'
  len : obs.length = 0 ∨ 1024 ≤ obs.length
  fill : obn = (poolText names).length

variable {obs : List Char} {obn : Nat} {names : List (List Char)}

/-- The pool after it has grown, if it has to. -/
theorem PoolFine.grown (h : PoolFine obs obn names) {pad : Nat} (h0 : 0 < pad) (hpad : pad ≤ 256) :
    ∃ r, pad ≤ r ∧ 1024 ≤ (poolText names).length + r ∧
      (if obs.length ≤ obn + pad then
        obs ++ List.replicate ((if obs.length = 0 then 1024 else obs.length * 2) - obs.length) '\x00'
      else obs) = poolText names ++ List.replicate r '\x00' := by
  obtain ⟨⟨r, htext⟩, hlen, hobn⟩ := h
  have hobz : obs.length = (poolText names).length + r := by
    rw [htext, List.length_append, List.length_replicate]
  by_cases hgrow : obs.length ≤ obn + pad
  · rw [if_pos hgrow]
    refine ⟨r + ((if obs.length = 0 then 1024 else obs.length * 2) - obs.length), ?_, ?_, ?_⟩
    · split <;> omega
    · split <;> omega
    · rw [htext, List.append_assoc, List.replicate_append_replicate]
  · rw [if_neg hgrow]
    exact ⟨r, by omega, by omega, htext⟩

/-- **Pasting a name** puts it behind the others. -/
theorem PoolFine.paste (h : PoolFine obs obn names) {str : List Char} (hstr : str.length < 256) :
    PoolFine (pasteObs obs obn str) (obn + zonePad str.length) (names ++ [str]) := by
  have hlt := lt_zonePad str.length
  obtain ⟨r, hr, hlen, hobs⟩ := h.grown (by omega) (zonePad_le hstr)
  have hpaste : pasteObs obs obn str =
      poolText (names ++ [str]) ++ List.replicate (r - zonePad str.length) '\x00' := by
    simp only [pasteObs]
    rw [hobs, h.fill, List.take_left, List.drop_length_add_append, List.drop_replicate,
      poolText_append, poolText_singleton, zoneText, List.append_assoc, List.append_assoc,
      List.append_assoc, List.replicate_append_replicate,
      show zonePad str.length - str.length + (r - zonePad str.length) = r - str.length by omega]
  refine ⟨⟨_, hpaste⟩, ?_, ?_⟩
  · rw [hpaste, poolText_append, poolText_singleton, List.length_append, List.length_append,
      zoneText_length, List.length_replicate]
    omega
  · rw [poolText_append, poolText_singleton, List.length_append, zoneText_length, ← h.fill]

/-- The memory at a place of the pool. -/
theorem PoolFine.drop (h : PoolFine obs obn names) {i : Nat} (hi : i < names.length) :
    ∃ r, obs.drop (poolText (names.take i)).length = zoneText (names.getD i []) ++ r := by
  obtain ⟨r, htext⟩ := h.text
  have hsplit : names = names.take i ++ ([names.getD i []] ++ names.drop (i + 1)) := by
    rw [List.getD_eq_getElem _ _ hi, List.singleton_append, List.cons_getElem_drop_succ,
      List.take_append_drop]
  have hpool : poolText names = poolText (names.take i) ++
      (zoneText (names.getD i []) ++ poolText (names.drop (i + 1))) := by
    rw [← poolText_singleton, ← poolText_append, ← poolText_append, ← hsplit]
  rw [htext, hpool, List.append_assoc, List.drop_append_length, List.append_assoc]
  exact ⟨_, rfl⟩

/-! ### Names in the order of their calls -/

/-- The names after another call. -/
def addName (names : List (List Char)) (str : List Char) : List (List Char) :=
  if str ∈ names then names else names ++ [str]

/-- The distinct names of a sequence of calls, in the order in which they come. -/
def namesOf (calls : List (List Char)) : List (List Char) := calls.foldl addName []

/-- The handle of a name by its place. -/
def handleIn (names : List (List Char)) (str : List Char) : Nat :=
  if str ∈ names ∧ names.idxOf str < 64 then names.idxOf str + 1 else 0

theorem namesOf_concat (calls : List (List Char)) (str : List Char) :
    namesOf (calls ++ [str]) = addName (namesOf calls) str := by
  rw [namesOf, List.foldl_append]
  rfl

theorem addName_grows (names : List (List Char)) (str : List Char) : names <+: addName names str := by
  unfold addName
  split
  · exact List.prefix_rfl
  · exact List.prefix_append _ _

theorem mem_addName {names : List (List Char)} {str s : List Char} :
    s ∈ addName names str ↔ s ∈ names ∨ s = str := by
  unfold addName
  split
  · rename_i h
    exact ⟨Or.inl, fun hs => hs.elim id fun he => he ▸ h⟩
  · rw [List.mem_append, List.mem_singleton]

theorem mem_namesOf {calls : List (List Char)} {s : List Char} : s ∈ namesOf calls ↔ s ∈ calls := by
  induction calls using List.reverseRecOn with
  | nil => rfl
  | append_singleton calls str ih =>
      rw [namesOf_concat, mem_addName, ih, List.mem_append, List.mem_singleton]

theorem nodup_namesOf (calls : List (List Char)) : (namesOf calls).Nodup := by
  induction calls using List.reverseRecOn with
  | nil => exact List.nodup_nil
  | append_singleton calls str ih =>
      rw [namesOf_concat, addName]
      split
      · exact ih
      · rename_i hnew
        exact List.nodup_append.mpr ⟨ih, List.nodup_singleton str, fun a ha b hb hab =>
          hnew (List.mem_singleton.mp hb ▸ hab ▸ ha)⟩

theorem namesOf_grows (calls more : List (List Char)) : namesOf calls <+: namesOf (calls ++ more) := by
  induction more using List.reverseRecOn with
  | nil => rw [List.append_nil]
  | append_singleton more str ih =>
      rw [← List.append_assoc, namesOf_concat]
      exact ih.trans (addName_grows _ _)

theorem length_namesOf (calls : List (List Char)) : (namesOf calls).length = calls.dedup.length := by
  refine List.Perm.length_eq ((List.perm_ext_iff_of_nodup (nodup_namesOf calls)
    (List.nodup_dedup calls)).mpr fun s => ?_)
  rw [mem_namesOf, List.mem_dedup]

theorem namesOf_filter (p : List Char → Bool) (calls : List (List Char)) :
    namesOf (calls.filter p) = (namesOf calls).filter p := by
  induction calls using List.reverseRecOn with
  | nil => rfl
  | append_singleton calls str ih =>
      rw [namesOf_concat, List.filter_append, addName]
      by_cases hp : p str = true
      · rw [List.filter_cons_of_pos hp, List.filter_nil, namesOf_concat, ih, addName]
        by_cases hmem : str ∈ namesOf calls
        · rw [if_pos hmem, if_pos (List.mem_filter.mpr ⟨hmem, hp⟩)]
        · rw [if_neg hmem, if_neg fun h => hmem (List.mem_filter.mp h).1, List.filter_append,
            List.filter_cons_of_pos hp, List.filter_nil]
      · rw [List.filter_cons_of_neg hp, List.filter_nil, List.append_nil, ih]
        split
        · rfl
        · rw [List.filter_append, List.filter_cons_of_neg hp, List.filter_nil, List.append_nil]

end Echse
