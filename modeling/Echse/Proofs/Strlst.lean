/-
String lists and the room in their pools.

How big a pool is is worked out right as long as its last string has not filled it up to the
last byte.  Then it is taken to be twice as big, so that the next string, if it is shorter than
all that is there, is written past the end.
-/
import Echse.Strlst

namespace Echse

open Blocks (filled)

/-! ### Sizes -/

theorem ilogCeilExp_size {n : Nat} (h : n < 2 ^ 63) : ilogCeilExp n = 2 ^ (n ||| 15).size := by
  have hbig : n ||| 15 < 2 ^ 63 := Nat.or_lt_two_pow h (by decide)
  have hsmear := (((((Blocks.smeared_one (n ||| 15)).step).step).step).step).step.step.eq
    (hbig.trans (by decide))
  have hpos := Nat.one_le_two_pow (n := (n ||| 15).size)
  have hle : 2 ^ (n ||| 15).size ≤ 2 ^ 63 :=
    Nat.pow_le_pow_right (by decide) (Nat.size_le.mpr hbig)
  rw [ilogCeilExp, hsmear, Nat.sub_add_cancel hpos, Nat.mod_eq_of_lt (hle.trans_lt (by decide))]

/-- The size is the least power of 2 that is more than `n`, and 16 at least. -/
theorem ilogCeilExp_eq {n k : Nat} (h : n < 2 ^ 63) (hk : 4 ≤ k) (hlt : n < 2 ^ k)
    (hle : k = 4 ∨ 2 ^ (k - 1) ≤ n) : ilogCeilExp n = 2 ^ k := by
  rw [ilogCeilExp_size h]
  congr 1
  have hup : n ||| 15 < 2 ^ k :=
    Nat.or_lt_two_pow hlt (Nat.lt_of_lt_of_le (by decide) (Nat.pow_le_pow_right (by decide) hk))
  refine Nat.le_antisymm (Nat.size_le.mpr hup) ?_
  have hbit : 2 ^ (k - 1) ≤ n ||| 15 := by
    rcases hle with rfl | hle
    · exact le_trans (by decide) Nat.right_le_or
    · exact hle.trans Nat.left_le_or
  have hsize := Nat.lt_size.mpr hbit
  omega

theorem ilogCeilExp_spec {n : Nat} (h : n < 2 ^ 63) :
    ∃ k, ilogCeilExp n = 2 ^ k ∧ 4 ≤ k ∧ n < 2 ^ k ∧ (k = 4 ∨ 2 ^ (k - 1) ≤ n) := by
  by_cases hsmall : n < 16
  · exact ⟨4, ilogCeilExp_eq h le_rfl hsmall (Or.inl rfl), le_rfl, hsmall, Or.inl rfl⟩
  · have h4 : 4 < n.size := Nat.lt_size.mpr (Nat.not_lt.mp hsmall)
    have hlt : n < 2 ^ n.size := Nat.lt_size_self n
    have hge : 2 ^ (n.size - 1) ≤ n := Nat.lt_size.mp (by omega)
    exact ⟨n.size, ilogCeilExp_eq h h4.le hlt (Or.inr hge), h4.le, hlt, Or.inr hge⟩

theorem lt_ilogCeilExp {n : Nat} (h : n < 2 ^ 63) : n < ilogCeilExp n := by
  obtain ⟨k, hk, -, hlt, -⟩ := ilogCeilExp_spec h
  exact hk ▸ hlt

theorem le_ilogCeilExp {n : Nat} (h : n < 2 ^ 63) : 16 ≤ ilogCeilExp n := by
  obtain ⟨k, hk, h4, -⟩ := ilogCeilExp_spec h
  exact hk ▸ Nat.pow_le_pow_right (n := 2) (by decide) h4

/-- Up to the size it stays the same. -/
theorem ilogCeilExp_within {n n' : Nat} (hle : n ≤ n') (hlt : n' < ilogCeilExp n)
    (h : n' < 2 ^ 63) : ilogCeilExp n' = ilogCeilExp n := by
  obtain ⟨k, hk, h4, -, hlow⟩ := ilogCeilExp_spec (hle.trans_lt h)
  rw [hk] at hlt ⊢
  exact ilogCeilExp_eq h h4 hlt (hlow.imp_right fun hlow => hlow.trans hle)

/-- And then it is twice as much. -/
theorem ilogCeilExp_at {n : Nat} (h : ilogCeilExp n < 2 ^ 63) (hn : n < 2 ^ 63) :
    ilogCeilExp (ilogCeilExp n) = 2 * ilogCeilExp n := by
  obtain ⟨k, hk, h4, -, -⟩ := ilogCeilExp_spec hn
  rw [hk] at h ⊢
  rw [ilogCeilExp_eq h (k := k + 1) (by omega) (Nat.pow_lt_pow_right (by decide) (Nat.lt_succ_self k))
    (Or.inr le_rfl), Nat.pow_succ']

/-! ### Pools -/

/-- The bytes of a pool. -/
def poolBytes (strs : List (List Char)) : List Char := strs.flatMap (· ++ ['\x00'])

/-- The last string has filled the pool that has been there for the ones before. -/
def FullPool (strs : List (List Char)) : Prop :=
  strs.dropLast ≠ [] ∧ ilogCeilExp (poolBytes strs.dropLast).length = (poolBytes strs).length

instance (strs : List (List Char)) : Decidable (FullPool strs) :=
  inferInstanceAs (Decidable (_ ∧ _))

/-- How big the pool is. -/
def poolSize (strs : List (List Char)) : Nat :=
  if FullPool strs then (poolBytes strs).length else ilogCeilExp (poolBytes strs).length

/-- The pointers to the strings of a pool. -/
def strPtrs (at_ : Int) (strs : List (List Char)) : List Int :=
  (List.range strs.length).map fun k => at_ + (poolBytes (strs.take k)).length

/-- The list that has the strings. -/
structure StrlstFine (st : Strlst) (strs : List (List Char)) : Prop where
  some_ : strs ≠ []
  i : st.i = (poolBytes strs).length
  nl : st.nl = strs.length
  pool : st.s = filled (poolBytes strs) (poolSize strs)
  l : st.l = filled ((strPtrs st.at_ strs).map some ++ [none]) (ilogCeilExp strs.length)

section

variable {st : Strlst} {sl : Option Strlst} {strs : List (List Char)} {s : List Char} {nuS : Int}

theorem poolBytes_concat (strs : List (List Char)) (s : List Char) :
    poolBytes (strs ++ [s]) = poolBytes strs ++ s ++ ['\x00'] := by
  rw [poolBytes, List.flatMap_append, List.flatMap_singleton, List.append_assoc, poolBytes]

theorem length_poolBytes_concat (strs : List (List Char)) (s : List Char) :
    (poolBytes (strs ++ [s])).length = (poolBytes strs).length + s.length + 1 := by
  rw [poolBytes_concat, List.length_append, List.length_append, List.length_singleton]

theorem length_le_poolBytes (strs : List (List Char)) : strs.length ≤ (poolBytes strs).length := by
  induction strs using List.reverseRecOn with
  | nil => exact le_rfl
  | append_singleton strs s ih =>
      rw [length_poolBytes_concat, List.length_append, List.length_singleton]
      omega

theorem length_le_poolSize (h : (poolBytes strs).length < 2 ^ 63) :
    (poolBytes strs).length ≤ poolSize strs := by
  rw [poolSize]
  split
  · exact le_rfl
  · exact (lt_ilogCeilExp h).le

@[simp] theorem length_strPtrs (at_ : Int) (strs : List (List Char)) :
    (strPtrs at_ strs).length = strs.length := by
  rw [strPtrs, List.length_map, List.length_range]

theorem strPtrs_concat (at_ : Int) (strs : List (List Char)) (s : List Char) :
    strPtrs at_ (strs ++ [s]) = strPtrs at_ strs ++ [at_ + (poolBytes strs).length] := by
  rw [strPtrs, List.length_append, List.length_singleton, List.range_succ, List.map_append,
    List.map_singleton, List.take_left]
  congr 1
  refine List.map_congr_left fun k hk => ?_
  rw [List.take_append_of_le_length (List.mem_range.mp hk).le]

theorem strPtrs_add (at_ d : Int) (strs : List (List Char)) :
    (strPtrs at_ strs).map (· + d) = strPtrs (at_ + d) strs := by
  rw [strPtrs, strPtrs, List.map_map]
  refine List.map_congr_left fun k _ => ?_
  exact Int.add_right_comm ..

theorem adjustPtrs_filled (d : Int) (ps : List Int) (rest : List (Option (Option Int))) :
    adjustPtrs d (ps.map (some ∘ some) ++ some none :: rest) =
      some ((ps.map (· + d)).map (some ∘ some) ++ some none :: rest) := by
  induction ps with
  | nil => rfl
  | cons p ps ih =>
      rw [List.map_cons, List.cons_append]
      show (adjustPtrs d _).map _ = _
      rw [ih]
      rfl

/-! ### One call -/

theorem fullPool_concat (strs : List (List Char)) (s : List Char) : FullPool (strs ++ [s]) ↔
    strs ≠ [] ∧ ilogCeilExp (poolBytes strs).length = (poolBytes (strs ++ [s])).length := by
  rw [FullPool, List.dropLast_concat]

/-- The list has room for one string more. -/
structure StrlstRoomy (res : Strlst) (strs : List (List Char)) (s : List Char) : Prop where
  i : res.i = (poolBytes strs).length
  nl : res.nl = strs.length
  pool : res.s = filled (poolBytes strs) (poolSize (strs ++ [s]))
  l : (strs = [] ∧ res.l = filled [] 16) ∨
    res.l = filled ((strPtrs res.at_ strs).map some ++ [none]) (ilogCeilExp strs.length)

theorem strlstRoom_none (nuS : Int) (s : List Char) :
    ∃ res, strlstRoom nuS none s.length = some res ∧ StrlstRoomy res [] s := by
  refine ⟨_, rfl, rfl, rfl, ?_, Or.inl ⟨rfl, rfl⟩⟩
  have hsize : poolSize ([] ++ [s]) = ilogCeilExp (s.length + 1) := by
    rw [poolSize, if_neg fun h => ((fullPool_concat [] s).mp h).1 rfl, length_poolBytes_concat]
    exact congrArg (fun n => ilogCeilExp (n + 1)) (Nat.zero_add _)
  rw [hsize]
  rfl

/-- The pool is as big as it is taken to be, or the string does not fit in there either. -/
theorem StrlstFine.room (h : StrlstFine st strs) (nuS : Int)
    (hbytes : (poolBytes (strs ++ [s])).length < 2 ^ 63)
    (hfull : ¬ (FullPool strs ∧ s.length < (poolBytes strs).length)) :
    ∃ res, strlstRoom nuS (some st) s.length = some res ∧ StrlstRoomy res strs s := by
  have hlen := length_poolBytes_concat strs s
  have hgrown := fullPool_concat strs s
  rw [hlen] at hgrown
  rw [strlstRoom, h.i]
  have hwas : (poolBytes strs).length < 2 ^ 63 := by omega
  by_cases hz : ilogCeilExp (poolBytes strs).length < (poolBytes strs).length + s.length + 1
  · have hsize : poolSize (strs ++ [s]) =
        ilogCeilExp ((poolBytes strs).length + s.length + 1) := by
      rw [poolSize, if_neg fun hf => absurd (hgrown.mp hf).2 hz.ne, hlen]
    have hin := length_le_poolSize hwas
    have hnew := (lt_ilogCeilExp (hlen ▸ hbytes)).le
    rw [if_pos hz, h.l, filled, List.map_append, List.append_assoc, List.map_singleton,
      List.singleton_append, List.map_map, adjustPtrs_filled, strPtrs_add]
    refine ⟨_, rfl, rfl, h.nl, ?_, Or.inr ?_⟩
    · dsimp only
      rw [h.pool, hsize, Blocks.resize_filled hin (by omega)]
    · dsimp only
      have hat : st.at_ + (nuS - st.at_) = nuS := by omega
      rw [hat, filled, List.map_append, List.append_assoc, List.map_singleton,
        List.singleton_append, List.map_map, List.length_append, List.length_append,
        List.length_map, List.length_map, length_strPtrs, length_strPtrs]
  · rw [if_neg hz]
    have hnot : ¬ FullPool strs := by
      intro hf
      have hprev : (poolBytes strs.dropLast).length < 2 ^ 63 := by
        have hsplit := length_poolBytes_concat strs.dropLast (strs.getLast h.some_)
        rw [List.dropLast_append_getLast] at hsplit
        omega
      have hat := ilogCeilExp_at (hf.2 ▸ hwas) hprev
      rw [hf.2] at hat
      exact hfull ⟨hf, by omega⟩
    refine ⟨st, rfl, h.i, h.nl, ?_, Or.inr h.l⟩
    rw [h.pool, poolSize, if_neg hnot, poolSize, hlen]
    by_cases hfill : ilogCeilExp (poolBytes strs).length = (poolBytes strs).length + s.length + 1
    · rw [if_pos (hgrown.mpr ⟨h.some_, hfill⟩), hfill]
    · have hsame : ilogCeilExp ((poolBytes strs).length + s.length + 1) =
          ilogCeilExp (poolBytes strs).length :=
        ilogCeilExp_within (by omega) (by omega) (by omega)
      rw [if_neg fun hf => hfill (hgrown.mp hf).2, hsame]

/-- The list of pointers has room for one more and `NULL`. -/
theorem strlst_resize (n : Nat) (h : n + 1 < 2 ^ 63) : n + 1 < ilogCeilExp (n + 1) ∧
    (if ilogCeilExp n ≤ n + 1 then 2 * ilogCeilExp n else ilogCeilExp n) = ilogCeilExp (n + 1) := by
  have hn := lt_ilogCeilExp (show n < 2 ^ 63 by omega)
  refine ⟨lt_ilogCeilExp h, ?_⟩
  split
  · have heq : ilogCeilExp n = n + 1 := by omega
    rw [← ilogCeilExp_at (heq ▸ h) (by omega), heq]
  · exact (ilogCeilExp_within (Nat.le_succ n) (by omega) h).symm

/-- The pointer to the string is put in. -/
theorem StrlstRoomy.put {res : Strlst} (h : StrlstRoomy res strs s) (hn : strs.length + 1 < 2 ^ 63) :
    Blocks.put (if ilogCeilExp strs.length ≤ strs.length + 1 then
        Blocks.resize res.l (2 * ilogCeilExp strs.length) else res.l) strs.length
        (some (res.at_ + res.i)) =
      some (filled ((strPtrs res.at_ (strs ++ [s])).map some) (ilogCeilExp (strs.length + 1))) := by
  rw [strPtrs_concat, List.map_append, List.map_singleton, h.i]
  rcases h.l with ⟨rfl, hl⟩ | hl
  · rw [hl]
    rfl
  · obtain ⟨hin, hsize⟩ := strlst_resize strs.length hn
    have hwas := lt_ilogCeilExp (show strs.length < 2 ^ 63 by omega)
    have hlen : ((strPtrs res.at_ strs).map some ++ [none]).length = strs.length + 1 := by
      rw [List.length_append, List.length_map, length_strPtrs, List.length_singleton]
    have hgrown : (if ilogCeilExp strs.length ≤ strs.length + 1 then
          Blocks.resize res.l (2 * ilogCeilExp strs.length) else res.l) =
        filled ((strPtrs res.at_ strs).map some ++ [none]) (ilogCeilExp (strs.length + 1)) := by
      rw [← hsize, hl]
      split
      · exact Blocks.resize_filled (by omega) (by omega)
      · rfl
    have hput := @Blocks.put_filled_last _ ((strPtrs res.at_ strs).map some)
      (ilogCeilExp (strs.length + 1)) none (by rw [List.length_map, length_strPtrs]; omega)
      (some (res.at_ + (poolBytes strs).length))
    rw [List.length_map, length_strPtrs] at hput
    rw [hgrown, hput]

/-- The string is put in. -/
theorem StrlstRoomy.add {res : Strlst} (h : StrlstRoomy res strs s)
    (hbytes : (poolBytes (strs ++ [s])).length < 2 ^ 63)
    (hroom : strlstRoom nuS sl s.length = some res) :
    ∃ st, strlstAddn nuS sl s = some st ∧ StrlstFine st (strs ++ [s]) := by
  have hlen := length_poolBytes_concat strs s
  have hfits := length_le_poolSize hbytes
  have hmany := length_le_poolBytes (strs ++ [s])
  rw [List.length_append, List.length_singleton] at hmany
  have hfirst := h.put (by omega)
  have hsecond := @Blocks.put_filled _ ((strPtrs res.at_ (strs ++ [s])).map some)
    (ilogCeilExp (strs.length + 1)) (by
      rw [List.length_map, length_strPtrs, List.length_append, List.length_singleton]
      exact (strlst_resize strs.length (by omega)).1) (none : Option Int)
  rw [List.length_map, length_strPtrs, List.length_append, List.length_singleton] at hsecond
  have hpaste := @Blocks.paste_filled _ (poolBytes strs) s (poolSize (strs ++ [s])) (by omega)
  have hzero := @Blocks.put_filled _ (poolBytes strs ++ s) (poolSize (strs ++ [s]))
    (by rw [List.length_append]; omega) '\x00'
  rw [List.length_append] at hzero
  rw [h.i] at hfirst
  simp only [strlstAddn, hroom, Option.bind_eq_bind, Option.bind_some, h.nl, h.i, hfirst, hsecond,
    h.pool, hpaste, hzero]
  refine ⟨_, rfl, List.append_ne_nil_of_right_ne_nil _ (List.cons_ne_nil _ _), ?_, ?_, ?_, ?_⟩
  · exact hlen.symm
  · rw [List.length_append, List.length_singleton]
  · dsimp only
    rw [poolBytes_concat]
  · dsimp only
    rw [List.length_append, List.length_singleton]

/-- A pool that is full is written to past its end. -/
theorem StrlstFine.outside (h : StrlstFine st strs)
    (hbytes : (poolBytes (strs ++ [s])).length < 2 ^ 63) (hfull : FullPool strs)
    (hshort : s.length < (poolBytes strs).length) : strlstAddn nuS (some st) s = none := by
  have hlen := length_poolBytes_concat strs s
  have hprev : (poolBytes strs.dropLast).length < 2 ^ 63 := by
    have hsplit := length_poolBytes_concat strs.dropLast (strs.getLast h.some_)
    rw [List.dropLast_append_getLast] at hsplit
    omega
  have htwice := ilogCeilExp_at (hfull.2 ▸ show (poolBytes strs).length < 2 ^ 63 by omega) hprev
  rw [hfull.2] at htwice
  have hroom : strlstRoom nuS (some st) s.length = some st := by
    rw [strlstRoom, h.i, htwice, if_neg (by omega)]
  have hsize : st.s.length = (poolBytes strs).length := by
    rw [h.pool, poolSize, if_pos hfull, Blocks.length_filled le_rfl]
  have hout : (Blocks.paste st.s st.i s).bind (fun pool =>
      Blocks.put pool (st.i + s.length) '\x00') = none := by
    by_cases h0 : s.length = 0
    · rw [List.eq_nil_of_length_eq_zero h0, h.i, ← hsize, Blocks.paste, if_pos (by simp),
        Option.bind_some]
      exact Blocks.put_outside (by simp) _
    · rw [Blocks.paste_outside (by rw [h.i]; omega), Option.bind_none]
  simp only [strlstAddn, hroom, Option.bind_eq_bind, Option.bind_some, ← Option.bind_assoc, hout,
    Option.bind_none, Option.bind_fun_none]

/-! ### Sequences of calls -/

/-- Some string is written past the end: it comes after strings of which the last has filled the
pool, and is shorter than they are together. -/
def Overruns (strs : List (List Char)) : Prop :=
  ∃ pre s post, strs = pre ++ s :: post ∧ FullPool pre ∧ s.length < (poolBytes pre).length

theorem not_overruns_nil : ¬ Overruns [] := by
  rintro ⟨pre, s, post, heq, -⟩
  exact absurd heq.symm (List.append_ne_nil_of_right_ne_nil _ (List.cons_ne_nil _ _))

theorem overruns_concat (strs : List (List Char)) (s : List Char) : Overruns (strs ++ [s]) ↔
    Overruns strs ∨ (FullPool strs ∧ s.length < (poolBytes strs).length) := by
  constructor
  · rintro ⟨pre, s', post, heq, hfull⟩
    rcases post.eq_nil_or_concat with rfl | ⟨post, s'', rfl⟩
    · obtain ⟨rfl, hs⟩ := List.append_inj' heq rfl
      obtain rfl := List.singleton_inj.mp hs
      exact Or.inr hfull
    · rw [List.concat_eq_append, ← List.cons_append, ← List.append_assoc] at heq
      exact Or.inl ⟨pre, s', post, (List.append_inj' heq rfl).1, hfull⟩
  · rintro (⟨pre, s', post, rfl, hfull⟩ | hfull)
    · exact ⟨pre, s', post ++ [s], by rw [List.append_assoc, List.cons_append], hfull⟩
    · exact ⟨strs, s, [], rfl, hfull⟩

theorem strlstRun_concat (sl : Option Strlst) (calls : List (Int × List Char)) (nuS : Int)
    (s : List Char) : strlstRun sl (calls ++ [(nuS, s)]) =
      (strlstRun sl calls).bind fun sl => (strlstAddn nuS sl s).map some := by
  induction calls generalizing sl with
  | nil =>
      rw [List.nil_append, strlstRun, strlstRun, Option.bind_some]
      cases strlstAddn nuS sl s <;> rfl
  | cons c calls ih =>
      obtain ⟨nuS', s'⟩ := c
      rw [List.cons_append, strlstRun, strlstRun]
      cases strlstAddn nuS' sl s' with
      | none => rfl
      | some res => exact ih (some res)

/-- What there is after the calls. -/
def StrlstHas : Option Strlst → List (List Char) → Prop
  | none, strs => strs = []
  | some st, strs => StrlstFine st strs

/-- One call more. -/
theorem StrlstHas.step (h : StrlstHas sl strs) (nuS : Int)
    (hbytes : (poolBytes (strs ++ [s])).length < 2 ^ 63)
    (hfull : ¬ (FullPool strs ∧ s.length < (poolBytes strs).length)) :
    ∃ st, strlstAddn nuS sl s = some st ∧ StrlstHas (some st) (strs ++ [s]) := by
  cases sl with
  | none =>
      obtain rfl : strs = [] := h
      obtain ⟨res, hroom, hres⟩ := strlstRoom_none nuS s
      exact hres.add hbytes hroom
  | some st =>
      obtain ⟨res, hroom, hres⟩ := StrlstFine.room h nuS hbytes hfull
      exact hres.add hbytes hroom

/-- The calls up to one that writes outside. -/
theorem strlstRun_spec (calls : List (Int × List Char))
    (hbytes : (poolBytes (calls.map Prod.snd)).length < 2 ^ 63) :
    (¬ Overruns (calls.map Prod.snd) →
        ∃ sl, strlstRun none calls = some sl ∧ StrlstHas sl (calls.map Prod.snd)) ∧
      (Overruns (calls.map Prod.snd) → strlstRun none calls = none) := by
  induction calls using List.reverseRecOn with
  | nil =>
      exact ⟨fun _ => ⟨none, rfl, rfl⟩, fun h => absurd h not_overruns_nil⟩
  | append_singleton calls c ih =>
      obtain ⟨nuS, s⟩ := c
      rw [List.map_append, List.map_singleton] at hbytes ⊢
      dsimp only at hbytes ⊢
      have hlen := length_poolBytes_concat (calls.map Prod.snd) s
      obtain ⟨hfine, hbad⟩ := ih (by omega)
      rw [strlstRun_concat, overruns_concat, not_or]
      refine ⟨?_, fun hover => ?_⟩
      · rintro ⟨hnot, hfull⟩
        obtain ⟨sl, hrun, hhas⟩ := hfine hnot
        obtain ⟨st, hadd, hst⟩ := hhas.step nuS hbytes hfull
        exact ⟨some st, by rw [hrun, Option.bind_some, hadd, Option.map_some], hst⟩
      · by_cases hnot : Overruns (calls.map Prod.snd)
        · rw [hbad hnot, Option.bind_none]
        · obtain ⟨hfull, hshort⟩ := hover.resolve_left hnot
          obtain ⟨sl, hrun, hhas⟩ := hfine hnot
          rw [hrun, Option.bind_some]
          cases sl with
          | none =>
              rw [show calls.map Prod.snd = [] from hhas] at hfull
              exact absurd rfl hfull.1
          | some st => rw [StrlstFine.outside hhas hbytes hfull hshort, Option.map_none]

/-! ### What is in the list -/

/-- The pointers are to the strings, each with a zero behind it, and then there is `NULL`. -/
def Strlst.Lists (st : Strlst) (strs : List (List Char)) : Prop :=
  st.l[strs.length]? = some (some none) ∧ ∀ k (hk : k < strs.length), ∃ a : Nat,
    st.l[k]? = some (some (some (st.at_ + a))) ∧
      (st.s.drop a).take (strs[k].length + 1) = (strs[k] ++ ['\x00']).map some

theorem StrlstFine.lists (h : StrlstFine st strs) : st.Lists strs := by
  have hlen : ((strPtrs st.at_ strs).map some ++ [none]).length = strs.length + 1 := by
    rw [List.length_append, List.length_map, length_strPtrs, List.length_singleton]
  refine ⟨?_, fun k hk => ⟨(poolBytes (strs.take k)).length, ?_, ?_⟩⟩
  · rw [h.l, Blocks.getElem?_filled (by omega), List.getElem_append_right
      (by rw [List.length_map, length_strPtrs])]
    simp only [List.length_map, length_strPtrs, Nat.sub_self, List.getElem_cons_zero]
  · rw [h.l, Blocks.getElem?_filled (by omega), List.getElem_append_left
      (by rw [List.length_map, length_strPtrs]; exact hk)]
    simp only [strPtrs, List.getElem_map, List.getElem_range]
  · have hsplit : poolBytes strs = poolBytes (strs.take k) ++
        ((strs[k] ++ ['\x00']) ++ poolBytes (strs.drop (k + 1))) := by
      conv_lhs => rw [← List.take_append_drop k strs, ← List.cons_getElem_drop_succ (h := hk)]
      rw [poolBytes, List.flatMap_append, List.flatMap_cons]
      rfl
    have hin : (poolBytes (strs.take k)).length + (strs[k].length + 1) ≤ (poolBytes strs).length := by
      rw [hsplit, List.length_append, List.length_append, List.length_append, List.length_singleton]
      omega
    have hz : (strs[k] ++ ['\x00']).length = strs[k].length + 1 := List.length_append ..
    rw [h.pool, Blocks.take_drop_filled hin, hsplit, List.drop_left, ← hz, List.take_left]

/-- What is expected of string lists: nothing is written outside of the pools, and the list has
the strings that have been added. -/
def StrlstRight (calls : List (Int × List Char)) : Prop :=
  ∃ sl, strlstRun none calls = some sl ∧ match sl with
    | none => calls = []
    | some st => st.Lists (calls.map Prod.snd)

end

/-- **A string list** is as it should be if and only if no string overruns a pool that is full. -/
theorem strlst_right_iff (calls : List (Int × List Char))
    (hbytes : (poolBytes (calls.map Prod.snd)).length < 2 ^ 63) :
    StrlstRight calls ↔ ¬ Overruns (calls.map Prod.snd) := by
  obtain ⟨hfine, hbad⟩ := strlstRun_spec calls hbytes
  constructor
  · rintro ⟨sl, hrun, -⟩ hover
    rw [hbad hover] at hrun
    cases hrun
  · intro hnot
    obtain ⟨sl, hrun, hhas⟩ := hfine hnot
    refine ⟨sl, hrun, ?_⟩
    cases sl with
    | none => exact List.map_eq_nil_iff.mp hhas
    | some st => exact StrlstFine.lists hhas

/-- Three people with addresses of seven bytes. -/
def sevenBytes : List (Int × List Char) :=
  [(4096, "a@b.org".toList), (4096, "c@d.org".toList), (4096, "e@f.org".toList)]

theorem strlst_right_seven : StrlstRight (sevenBytes.take 2) :=
  (strlst_right_iff (sevenBytes.take 2) (by decide +kernel)).mpr (by
    have hsplit : (sevenBytes.take 2).map Prod.snd = ([] ++ ["a@b.org".toList]) ++ ["c@d.org".toList] :=
      rfl
    rw [hsplit, overruns_concat, overruns_concat, not_or, not_or]
    exact ⟨⟨not_overruns_nil, by decide +kernel⟩, by decide +kernel⟩)

/-- The third one comes after 16 bytes and is written past the end. -/
theorem strlst_wrong_seven : ¬ ∀ calls : List (Int × List Char),
    (poolBytes (calls.map Prod.snd)).length < 2 ^ 63 → StrlstRight calls := by
  intro hall
  have hbytes : (poolBytes (sevenBytes.map Prod.snd)).length < 2 ^ 63 := by decide +kernel
  have hover : Overruns (sevenBytes.map Prod.snd) :=
    ⟨["a@b.org".toList, "c@d.org".toList], "e@f.org".toList, [], rfl, by decide +kernel,
      by decide +kernel⟩
  obtain ⟨sl, hrun, -⟩ := hall sevenBytes hbytes
  rw [(strlstRun_spec sevenBytes hbytes).2 hover] at hrun
  cases hrun

end Echse
