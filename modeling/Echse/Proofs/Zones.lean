/-
Zone names and their handles.

The table of `tzob.c` is a probing table whose rows come home in the last stack, so that the
names behind it are a list and a handle is the place of a name in it.  Equal names have equal
handles and distinct ones distinct handles.  On the way back `make_size` shifts by less than
`make_tzob` does, so that only the first three names are found again.
-/
import Mathlib.Data.List.GetD
import Mathlib.Data.List.Nodup
import Echse.Zones
import Echse.Proofs.Stacks

namespace Echse

/-! ### Handles -/

/-- `ECHS_DMASK`, the bits of a date that a handle may have. -/
def echsDmask : Nat := 0xf0c0

theorem makeTzob_spec : ∀ x < 64, makeTzob x &&& echsDmask = makeTzob x ∧ (x ≠ 0 → makeTzob x ≠ 0) ∧
    makeSize (makeTzob x) < 64 ∧ (makeSize (makeTzob x) = x ↔ x ≤ 3) := by
  decide

theorem makeTzob_inj : ∀ x < 64, ∀ y < 64, makeTzob x = makeTzob y → x = y := by
  decide

/-! ### The table and the names -/

variable {hx : UInt32} {p : Nat → Bool} {l n : Nat}

/-- The loop of `echs_tzob` is that of `intern`. -/
theorem tzobLoop_eq (fuel i m : Nat) (st : Tzobs) : tzobLoop hx fuel i m st =
    ((internLoop hx (st.takes hx) fuel i m st.zstk).1,
      { st with zstk := (internLoop hx (st.takes hx) fuel i m st.zstk).2 }) := by
  induction fuel generalizing i m st with
  | zero => rfl
  | succ fuel ih =>
      have htakes (z : Nat) : Tzobs.takes { st with zstk := z } hx = st.takes hx := rfl
      rw [tzobLoop, internLoop]
      by_cases hgrow : st.zstk ≤ i
      · rw [if_pos hgrow, if_pos hgrow, htakes]
        cases probe hx (fun k => (i ||| k) &&& m) (st.takes hx) with
        | none => exact ih _ _ _
        | some off => rfl
      · rw [if_neg hgrow, if_neg hgrow]
        cases probe hx (fun k => (i ||| k) &&& m) (st.takes hx) with
        | none => exact ih _ _ _
        | some off => rfl

/-- The loop of `echs_zone` is that of `obint_name`. -/
theorem zoneLoop_eq (st : Tzobs) (fuel i m : Nat) :
    zoneLoop st hx fuel i m = nameLoop st.zstk hx (st.has hx) fuel i m := by
  induction fuel generalizing i m with
  | zero => rfl
  | succ fuel ih =>
      rw [zoneLoop, nameLoop]
      by_cases hend : st.zstk ≤ i
      · rw [if_pos hend, if_pos hend]
      · rw [if_neg hend, if_neg hend]
        cases probe hx (fun k => (i ||| k) &&& m) (st.has hx) with
        | none => exact ih _ _
        | some off => rfl

/-- Which hash is in a slot. -/
def sstkOcc (st : Tzobs) : Nat → Option UInt32 := hashOcc fun off => (st.sstk off).hx

theorem sstkOcc_eq_none {st : Tzobs} {p : Nat} : sstkOcc st p = none ↔ (st.sstk p).hx = 0 :=
  hashOcc_eq_none

theorem sstkOcc_eq_some {st : Tzobs} {p : Nat} {k : UInt32} (hk : k ≠ 0) :
    sstkOcc st p = some k ↔ (st.sstk p).hx = k :=
  hashOcc_eq_some hk

section

variable (hash : List Char → UInt32)

/-- The search of `echs_tzob`, and what it does to the number of slots. -/
theorem echsTzob_eq {st : Tzobs} {str : List Char} (hstr : str ≠ []) (hlen : str.length < 256)
    (hst : st.zstk = 0 ∨ Stacked st.zstk) (hn : FirstProbe (hash str) (st.takes (hash str)) n)
    (hlast : n / 9 ≤ 13) :
    ∃ z, Stacked z ∧ st.zstk ≤ z ∧ zoneSeq (hash str) n < z ∧
      echsTzob hash st str = tzobAt { st with zstk := z } str (hash str) (zoneSeq (hash str) n) := by
  have hbother : ¬ (str.length = 0 ∨ 256 ≤ str.length) := by
    rw [List.length_eq_zero_iff]
    exact not_or.mpr ⟨hstr, by omega⟩
  obtain ⟨z, hz, hzle, hz0⟩ : ∃ z, Stacked z ∧ st.zstk ≤ z ∧
      (if st.zstk = 0 then { st with zstk := 1024 } else st) = { st with zstk := z } := by
    by_cases h0 : st.zstk = 0
    · exact ⟨1024, ⟨1, rfl⟩, by omega, if_pos h0⟩
    · exact ⟨st.zstk, hst.resolve_left h0, le_rfl, if_neg h0⟩
  simp only [echsTzob]
  rw [if_neg hbother, hz0]
  have htakes : Tzobs.takes { st with zstk := z } (hash str) = st.takes (hash str) := rfl
  rw [htakes]
  by_cases hfirst : n / 9 = 0
  · rw [probe_eq_some (stackProbes_zero (hash str)) hn hfirst]
    refine ⟨z, hz, hzle, ?_, rfl⟩
    obtain ⟨t, rfl⟩ := hz
    have hslot := zoneSeq_lt (hash str) n
    rw [hfirst] at hslot
    exact Nat.lt_of_lt_of_le hslot (Nat.pow_le_pow_right (by decide) (by omega))
  · rw [probe_eq_none (stackProbes_zero (hash str)) hn (by omega)]
    obtain ⟨z', hz', hzle', hslot, hloop⟩ := @internLoop_eq _ _ 1 _ zoneStacks z hz (by decide) hn
      (by omega) (by unfold zoneStacks; omega)
    refine ⟨z', hz', hzle.trans hzle', hslot, ?_⟩
    rw [tzobLoop_eq, htakes, show (256 : Nat) = 2 ^ (2 * 1 + 6) from rfl,
      show (0x3ff : Nat) = 2 ^ (2 * 1 + 8) - 1 from rfl, hloop]

/-- The slot of the `i`-th name. -/
def zoneSlot (names : List (List Char)) (i : Nat) : Sstk :=
  ⟨(poolText (names.take i)).length, makeTzob (i + 1), hash (names.getD i [])⟩

/-- **The state stands for a list of names**, in the order in which they have come. -/
structure Interned (st : Tzobs) (names : List (List Char)) : Prop where
  nodup : names.Nodup
  few : names.length < 64
  nonzero : ∀ str ∈ names, hash str ≠ 0
  pool : PoolFine st.obs st.obn names
  hxa : st.hxa = names.map hash ++ List.replicate (64 - names.length) 0
  hxn : st.hxn = names.length
  stacked : st.zstk = 0 ∨ Stacked st.zstk
  filled : ∀ i < names.length, ∃ p < st.zstk, st.sstk p = zoneSlot hash names i
  only : ∀ p, (st.sstk p).hx ≠ 0 → ∃ i < names.length, st.sstk p = zoneSlot hash names i
  fine : Probing.Fine zoneSeq (sstkOcc st)

theorem interned_init : Interned hash Tzobs.init [] where
  nodup := List.nodup_nil
  few := by decide
  nonzero := fun _ h => absurd h List.not_mem_nil
  pool := ⟨⟨0, rfl⟩, Or.inl rfl, rfl⟩
  hxa := rfl
  hxn := rfl
  stacked := Or.inl rfl
  filled := fun i h => absurd h (Nat.not_lt_zero i)
  only := fun _ h => absurd rfl h
  fine := Probing.fine_empty

variable {hash} {st : Tzobs} {names : List (List Char)} {str : List Char}

/-- More slots do no harm. -/
theorem Interned.grow (h : Interned hash st names) {z : Nat} (hz : Stacked z) (hle : st.zstk ≤ z) :
    Interned hash { st with zstk := z } names where
  nodup := h.nodup
  few := h.few
  nonzero := h.nonzero
  pool := h.pool
  hxa := h.hxa
  hxn := h.hxn
  stacked := Or.inr hz
  filled := fun i hi => by
    obtain ⟨p, hp, heq⟩ := h.filled i hi
    exact ⟨p, Nat.lt_of_lt_of_le hp hle, heq⟩
  only := h.only
  fine := h.fine

theorem zoneSlot_append (names : List (List Char)) (str : List Char) {i : Nat} (hi : i < names.length) :
    zoneSlot hash (names ++ [str]) i = zoneSlot hash names i := by
  unfold zoneSlot
  rw [List.take_append_of_le_length (by omega), List.getD_append _ _ _ _ hi]

theorem zoneSlot_last (names : List (List Char)) (str : List Char) :
    zoneSlot hash (names ++ [str]) names.length =
      ⟨(poolText names).length, makeTzob (names.length + 1), hash str⟩ := by
  unfold zoneSlot
  rw [List.take_left, List.getD_append_right _ _ _ _ le_rfl, Nat.sub_self]
  rfl

/-- A name that is there gets the handle of its place. -/
theorem Interned.step_mem (h : Interned hash st names) (hmem : str ∈ names) (hne : str ≠ [])
    (hlen : str.length < 256) :
    (echsTzob hash st str).1 = makeTzob (names.idxOf str + 1) ∧
      Interned hash (echsTzob hash st str).2 names := by
  have hidx := List.idxOf_lt_length_iff.mpr hmem
  have hnz := h.nonzero str hmem
  obtain ⟨p, -, hp⟩ := h.filled _ hidx
  have hname : names.getD (names.idxOf str) [] = str := by
    rw [List.getD_eq_getElem _ _ hidx, List.getElem_idxOf hidx]
  have hslot : (st.sstk p).hx = hash str := by
    rw [hp, zoneSlot, hname]
  obtain ⟨n, hn, hhit⟩ := h.fine.exists_hit wellFounded_above zoneSeq_home (hash str)
  have hplace := h.fine.hit_of_mem ((sstkOcc_eq_some hnz).mpr hslot) hhit
  obtain ⟨z, hz, hzle, -, heq⟩ := echsTzob_eq hash hne hlen h.stacked
    (firstProbe_iff_hit.mpr hhit) (by omega)
  have hthere : ({ st with zstk := z } : Tzobs).sstk (zoneSeq (hash str) n) =
      zoneSlot hash names (names.idxOf str) := by
    rw [hplace]
    exact hp
  rw [heq, tzobAt, hthere, zoneSlot, hname, if_pos rfl]
  exact ⟨rfl, h.grow hz hzle⟩

/-- What filling a slot comes to. -/
theorem tzobAt_new {hx : UInt32} {off : Nat} (hfree : (st.sstk off).hx ≠ hx)
    (hroom : ¬ st.hxa.length ≤ st.hxn) :
    tzobAt st str hx off = (makeTzob (st.hxn + 1),
      { sstk := Function.update st.sstk off ⟨(bangZone st str).1, makeTzob (st.hxn + 1), hx⟩
        zstk := st.zstk
        nstk := st.nstk + 1
        obs := (bangZone st str).2.obs
        obn := (bangZone st str).2.obn
        hxa := st.hxa.set st.hxn hx
        hxn := st.hxn + 1 }) := by
  have hbang : bangTzob (bangZone st str).2 hx = (makeTzob (st.hxn + 1),
      { (bangZone st str).2 with hxa := st.hxa.set st.hxn hx, hxn := st.hxn + 1 }) := if_neg hroom
  rw [tzobAt, if_neg hfree]
  dsimp only
  rw [hbang]
  rfl

theorem sstkOcc_update (st st' : Tzobs) {off : Nat} {s : Sstk} (hs : s.hx ≠ 0)
    (h : st'.sstk = Function.update st.sstk off s) :
    sstkOcc st' = Function.update (sstkOcc st) off (some s.hx) := by
  have hfun : (fun p => (st'.sstk p).hx) = Function.update (fun p => (st.sstk p).hx) off s.hx := by
    rw [h]
    exact Function.comp_update Sstk.hx st.sstk off s
  rw [sstkOcc, hfun, hashOcc_update hs]
  rfl

/-- A name that is not there goes into the slot that its row hits. -/
theorem Interned.fill (h : Interned hash st names) (hnew : str ∉ names) (hlen : str.length < 256)
    (hnz : hash str ≠ 0) (hfew : names.length + 1 < 64) (hst : Stacked st.zstk)
    (habsent : Probing.Absent (sstkOcc st) (hash str))
    (hhit : Probing.Hit zoneSeq (sstkOcc st) (hash str) n) (hlt : zoneSeq (hash str) n < st.zstk) :
    (tzobAt st str (hash str) (zoneSeq (hash str) n)).1 = makeTzob (names.length + 1) ∧
      Interned hash (tzobAt st str (hash str) (zoneSeq (hash str) n)).2 (names ++ [str]) := by
  have hfree := sstkOcc_eq_none.mp (habsent.hit hhit)
  have hroom : ¬ st.hxa.length ≤ st.hxn := by
    rw [h.hxa, h.hxn, List.length_append, List.length_map, List.length_replicate]
    omega
  have hof : (bangZone st str).1 = (poolText names).length := h.pool.fill
  have hpool : PoolFine (bangZone st str).2.obs (bangZone st str).2.obn (names ++ [str]) := h.pool.paste hlen
  have hslot : (⟨(bangZone st str).1, makeTzob (names.length + 1), hash str⟩ : Sstk) =
      zoneSlot hash (names ++ [str]) names.length := by
    rw [zoneSlot_last, hof]
  have hhx : (zoneSlot hash (names ++ [str]) names.length).hx = hash str := by
    rw [zoneSlot_last]
  rw [tzobAt_new (by rw [hfree]; exact hnz.symm) hroom, h.hxn, hslot]
  refine ⟨rfl, ?_, ?_, ?_, hpool, ?_, ?_, Or.inr hst, ?_, ?_, ?_⟩
  · exact List.nodup_append.mpr ⟨h.nodup, List.nodup_singleton str, fun a ha b hb hab =>
      hnew (List.mem_singleton.mp hb ▸ hab ▸ ha)⟩
  · rw [List.length_append]
    exact hfew
  · intro s hs
    rcases List.mem_append.mp hs with hs | hs
    · exact h.nonzero s hs
    · exact List.mem_singleton.mp hs ▸ hnz
  · show st.hxa.set names.length (hash str) = _
    rw [h.hxa, List.set_append_right _ _ (by rw [List.length_map]), List.length_map, Nat.sub_self,
      List.map_append, List.length_append, List.append_assoc,
      show 64 - names.length = 64 - (names.length + [str].length) + 1 by
        rw [List.length_singleton]; omega, List.replicate_succ, List.set_cons_zero]
    rfl
  · rw [List.length_append]
    rfl
  · intro i hi
    rw [List.length_append, List.length_singleton] at hi
    rcases Nat.lt_succ_iff_lt_or_eq.mp hi with hi | rfl
    · obtain ⟨p, hp, hpeq⟩ := h.filled i hi
      refine ⟨p, hp, ?_⟩
      have hpn : p ≠ zoneSeq (hash str) n := by
        rintro rfl
        rw [hpeq, zoneSlot, List.getD_eq_getElem _ _ hi] at hfree
        exact h.nonzero _ (List.getElem_mem hi) hfree
      rw [zoneSlot_append names str hi, ← hpeq]
      exact Function.update_of_ne hpn _ _
    · exact ⟨_, hlt, Function.update_self ..⟩
  · intro p hp
    by_cases hpn : p = zoneSeq (hash str) n
    · subst hpn
      refine ⟨names.length, ?_, Function.update_self ..⟩
      rw [List.length_append, List.length_singleton]
      omega
    · dsimp only at hp ⊢
      rw [Function.update_of_ne hpn] at hp ⊢
      obtain ⟨i, hi, hpeq⟩ := h.only p hp
      refine ⟨i, ?_, ?_⟩
      · rw [List.length_append]
        omega
      · rw [zoneSlot_append names str hi, hpeq]
  · rw [sstkOcc_update st _ (s := zoneSlot hash (names ++ [str]) names.length) (by rw [hhx]; exact hnz) rfl,
      hhx]
    exact h.fine.insert habsent hhit

/-- A name that is not there gets the next handle. -/
theorem Interned.step_new (h : Interned hash st names) (hnew : str ∉ names) (hne : str ≠ [])
    (hlen : str.length < 256) (hnz : hash str ≠ 0) (hdist : ∀ s ∈ names, hash s ≠ hash str)
    (hfew : names.length + 1 < 64) :
    (echsTzob hash st str).1 = makeTzob (names.length + 1) ∧
      Interned hash (echsTzob hash st str).2 (names ++ [str]) := by
  have habsent : Probing.Absent (sstkOcc st) (hash str) := by
    intro p hp
    have hx := (sstkOcc_eq_some hnz).mp hp
    obtain ⟨i, hi, heq⟩ := h.only p (by rw [hx]; exact hnz)
    rw [heq, zoneSlot, List.getD_eq_getElem _ _ hi] at hx
    exact hdist _ (List.getElem_mem hi) hx
  obtain ⟨n, hn, hhit⟩ := h.fine.exists_hit wellFounded_above zoneSeq_home (hash str)
  obtain ⟨z, hz, hzle, hlt, heq⟩ := echsTzob_eq hash hne hlen h.stacked
    (firstProbe_iff_hit.mpr hhit) (by omega)
  rw [heq]
  exact (h.grow hz hzle).fill hnew hlen hnz hfew hz habsent hhit hlt

/-! ### Back to the names -/

theorem has_iff {p : Nat} {k : UInt32} (hk : k ≠ 0) : st.has k p = true ↔ sstkOcc st p = some k := by
  rw [sstkOcc_eq_some hk, Tzobs.has, beq_iff_eq]

/-- The search of `echs_zone`. -/
theorem echsZone_found {z : Nat} (hz : z ≠ 0) {hx : UInt32} (hretr : retrTzob st z = hx) (hnz : hx ≠ 0)
    (hn : FirstProbe hx (st.has hx) n) (hlast : n / 9 ≤ 13) (hslot : zoneSeq hx n < st.zstk) :
    echsZone st z = some (cStr (st.obs.drop (st.sstk (zoneSeq hx n)).of)) := by
  simp only [echsZone]
  rw [if_neg hz, hretr, if_neg hnz]
  by_cases hfirst : n / 9 = 0
  · rw [probe_eq_some (stackProbes_zero hx) hn hfirst]
    rfl
  · rw [probe_eq_none (stackProbes_zero hx) hn (by omega)]
    have hloop := nameLoop_eq hn hslot zoneStacks 1 (by decide) (by omega) (by unfold zoneStacks; omega)
    dsimp only
    rw [zoneLoop_eq, show (256 : Nat) = 2 ^ (2 * 1 + 6) from rfl, show (0x3ff : Nat) = 2 ^ (2 * 1 + 8) - 1 from rfl,
      hloop]
    rfl

/-- The name at a place of the pool. -/
theorem Interned.cStr_drop (h : Interned hash st names) {i : Nat} (hi : i < names.length) :
    cStr (st.obs.drop (poolText (names.take i)).length) = cStr (names.getD i []) := by
  obtain ⟨r, hr⟩ := h.pool.drop hi
  rw [hr, cStr_zoneText]

/-- **What `echs_zone` returns** is the name at the place that `make_size` reads. -/
theorem Interned.zone_eq (h : Interned hash st names) {z : Nat} (hz : z ≠ 0)
    (hsize : makeSize z < 64) :
    echsZone st z = if makeSize z = 0 then none else (names[makeSize z - 1]?).map cStr := by
  have hlen : st.hxa.length = 64 := by
    have hfew := h.few
    rw [h.hxa, List.length_append, List.length_map, List.length_replicate]
    omega
  have hretr : retrTzob st z = if makeSize z = 0 then 0 else st.hxa.getD (makeSize z - 1) 0 := by
    rw [retrTzob, hlen, if_neg (by omega)]
  by_cases h0 : makeSize z = 0
  · rw [if_pos h0] at hretr ⊢
    simp [echsZone, hz, hretr]
  · rw [if_neg h0] at hretr ⊢
    generalize makeSize z - 1 = i at *
    by_cases hi : i < names.length
    · have hhx : st.hxa.getD i 0 = hash (names.getD i []) := by
        rw [h.hxa, List.getD_append _ _ _ _ (by rw [List.length_map]; exact hi),
          List.getD_eq_getElem _ _ (by rw [List.length_map]; exact hi), List.getElem_map,
          List.getD_eq_getElem _ _ hi]
      rw [hhx] at hretr
      have hnz : hash (names.getD i []) ≠ 0 := by
        rw [List.getD_eq_getElem _ _ hi]
        exact h.nonzero _ (List.getElem_mem hi)
      obtain ⟨p, hp, hslot⟩ := h.filled i hi
      have hocc : sstkOcc st p = some (hash (names.getD i [])) := by
        rw [sstkOcc_eq_some hnz, hslot, zoneSlot]
      obtain ⟨n, hn, hhit⟩ := h.fine.exists_hit wellFounded_above zoneSeq_home (hash (names.getD i []))
      have hplace := h.fine.hit_of_mem hocc hhit
      have hfirst : FirstProbe (hash (names.getD i [])) (st.has (hash (names.getD i []))) n := by
        refine ⟨(has_iff hnz).mpr (hplace ▸ hocc), fun j hj => ?_⟩
        rw [← Bool.not_eq_true, has_iff hnz]
        exact (hhit.2 j hj).2
      rw [echsZone_found hz hretr hnz hfirst (by omega) (hplace ▸ hp), hplace, hslot, zoneSlot,
        h.cStr_drop hi, List.getElem?_eq_getElem hi, List.getD_eq_getElem _ _ hi]
      rfl
    · have hzero : st.hxa.getD i 0 = 0 := by
        rw [h.hxa, List.getD_append_right _ _ _ _ (by rw [List.length_map]; omega),
          List.getD_eq_getElem?_getD,
          List.getElem?_getD_replicate_default_eq]
      rw [hzero] at hretr
      rw [List.getElem?_eq_none (by omega)]
      simp [echsZone, hz, hretr]

end

/-! ### Sequences of calls -/

section

variable (hash : List Char → UInt32)

/-- The state after a sequence of calls. -/
def tzobRun (calls : List (List Char)) : Tzobs :=
  calls.foldl (fun st str => (echsTzob hash st str).2) Tzobs.init

/-- What a call returns, after others. -/
def tzobHandle (calls : List (List Char)) (str : List Char) : Nat :=
  (echsTzob hash (tzobRun hash calls) str).1

/-- The calls that count: fewer than 64 distinct names, none empty or too long, their hashes
distinct and not 0. -/
structure ZoneCalls (calls : List (List Char)) : Prop where
  name : ∀ str ∈ calls, str ≠ [] ∧ str.length < 256 ∧ hash str ≠ 0
  distinct : ∀ s ∈ calls, ∀ s' ∈ calls, hash s = hash s' → s = s'
  few : calls.dedup.length < 64

variable {hash}

theorem ZoneCalls.left {calls more : List (List Char)} (h : ZoneCalls hash (calls ++ more)) :
    ZoneCalls hash calls where
  name := fun s hs => h.name s (List.mem_append_left _ hs)
  distinct := fun s hs s' hs' => h.distinct s (List.mem_append_left _ hs) s' (List.mem_append_left _ hs')
  few := by
    have hfew := h.few
    rw [← length_namesOf] at hfew ⊢
    exact Nat.lt_of_le_of_lt (namesOf_grows calls more).length_le hfew

/-- One call more: the handle is the place of the name, and the state stands for the names. -/
theorem ZoneCalls.step {calls : List (List Char)} {str : List Char}
    (h : ZoneCalls hash (calls ++ [str])) (hst : Interned hash (tzobRun hash calls) (namesOf calls)) :
    tzobHandle hash calls str = makeTzob ((namesOf (calls ++ [str])).idxOf str + 1) ∧
      Interned hash (tzobRun hash (calls ++ [str])) (namesOf (calls ++ [str])) := by
  obtain ⟨hne, hlen, hnz⟩ := h.name str (by simp)
  have hrun : tzobRun hash (calls ++ [str]) = (echsTzob hash (tzobRun hash calls) str).2 := by
    rw [tzobRun, List.foldl_append]
    rfl
  have hfew := h.few
  rw [← length_namesOf] at hfew
  rw [hrun, tzobHandle]
  rw [namesOf_concat, addName] at hfew ⊢
  by_cases hmem : str ∈ namesOf calls
  · rw [if_pos hmem] at hfew ⊢
    exact hst.step_mem hmem hne hlen
  · rw [if_neg hmem] at hfew ⊢
    rw [List.idxOf_append_of_notMem hmem, List.idxOf_cons_self, Nat.add_zero]
    rw [List.length_append, List.length_singleton] at hfew
    refine hst.step_new hmem hne hlen hnz (fun s hs heq => hmem ?_) hfew
    have hs' := mem_namesOf.mp hs
    exact h.distinct s (List.mem_append_left _ hs') str (by simp) heq ▸ hs

/-- **After any calls the state stands for their names.** -/
theorem ZoneCalls.interned {calls : List (List Char)} (h : ZoneCalls hash calls) :
    Interned hash (tzobRun hash calls) (namesOf calls) := by
  induction calls using List.reverseRecOn with
  | nil => exact interned_init hash
  | append_singleton calls str ih => exact (h.step (ih h.left)).2

/-- **A handle is the place of the name among all of them.** -/
theorem ZoneCalls.handle_eq {pre post : List (List Char)} {str : List Char}
    (h : ZoneCalls hash (pre ++ str :: post)) :
    tzobHandle hash pre str = makeTzob ((namesOf (pre ++ str :: post)).idxOf str + 1) := by
  rw [List.append_cons] at h ⊢
  obtain ⟨more, hmore⟩ := namesOf_grows (pre ++ [str]) post
  have hmem : str ∈ namesOf (pre ++ [str]) := mem_namesOf.mpr (by simp)
  rw [← hmore, List.idxOf_append_of_mem hmem]
  exact (h.left.step h.left.left.interned).1

variable (hash) in
/-- What is expected of zone handles over a sequence of calls: names and handles correspond,
a handle fits where an instant keeps it, and at any later time it leads to the name. -/
def Interns (calls : List (List Char)) : Prop :=
  ∀ pre str post, calls = pre ++ str :: post →
    (∀ pre' str' post', calls = pre' ++ str' :: post' →
      (tzobHandle hash pre str = tzobHandle hash pre' str' ↔ str = str')) ∧
    tzobHandle hash pre str &&& echsDmask = tzobHandle hash pre str ∧
    ∀ later rest, post = later ++ rest →
      echsZone (tzobRun hash (pre ++ str :: later)) (tzobHandle hash pre str) = some str

theorem ZoneCalls.idx_lt {calls : List (List Char)} (h : ZoneCalls hash calls) {str : List Char}
    (hstr : str ∈ calls) : (namesOf calls).idxOf str + 1 < 64 := by
  have hlt := List.idxOf_lt_length_iff.mpr (mem_namesOf.mpr hstr)
  have hfew := h.few
  rw [← length_namesOf] at hfew
  omega

/-- Handles correspond to names. -/
theorem ZoneCalls.handle_inj {calls pre post pre' post' : List (List Char)} {str str' : List Char}
    (h : ZoneCalls hash calls) (heq : calls = pre ++ str :: post)
    (heq' : calls = pre' ++ str' :: post') :
    tzobHandle hash pre str = tzobHandle hash pre' str' ↔ str = str' := by
  have hstr : str ∈ calls := by simp [heq]
  have hstr' : str' ∈ calls := by simp [heq']
  have hhandle := (heq ▸ h : ZoneCalls hash (pre ++ str :: post)).handle_eq
  have hhandle' := (heq' ▸ h : ZoneCalls hash (pre' ++ str' :: post')).handle_eq
  rw [← heq] at hhandle
  rw [← heq'] at hhandle'
  rw [hhandle, hhandle']
  refine ⟨fun he => ?_, fun he => by rw [he]⟩
  have hidx := makeTzob_inj _ (h.idx_lt hstr) _ (h.idx_lt hstr') he
  exact (List.idxOf_inj (mem_namesOf.mpr hstr)).mp (Nat.succ.inj hidx)

/-- What a handle leads to later. -/
theorem ZoneCalls.zone_eq {pre later rest : List (List Char)} {str : List Char}
    (h : ZoneCalls hash (pre ++ str :: (later ++ rest))) :
    echsZone (tzobRun hash (pre ++ str :: later)) (tzobHandle hash pre str) =
      if makeSize (tzobHandle hash pre str) = 0 then none
      else ((namesOf (pre ++ str :: later))[makeSize (tzobHandle hash pre str) - 1]?).map cStr := by
  have hstr : str ∈ pre ++ str :: (later ++ rest) := by simp
  have hsplit : pre ++ str :: (later ++ rest) = pre ++ str :: later ++ rest := by simp
  have hspec := makeTzob_spec _ (h.idx_lt hstr)
  rw [← h.handle_eq] at hspec
  rw [hsplit] at h
  exact h.left.interned.zone_eq (hspec.2.1 (Nat.succ_ne_zero _)) hspec.2.2.1

/-- A name comes back as a string, which has no zeros. -/
theorem Interns.nul_notMem {calls : List (List Char)} (h : ZoneCalls hash calls)
    (hi : Interns hash calls) : ∀ str ∈ calls, '\x00' ∉ str := by
  intro str hstr
  obtain ⟨pre, post, rfl⟩ := List.append_of_mem hstr
  have hback := (hi pre str post rfl).2.2 [] post rfl
  rw [@ZoneCalls.zone_eq _ pre [] post str h] at hback
  split at hback
  · cases hback
  · obtain ⟨s, -, hs⟩ := Option.map_eq_some_iff.mp hback
    exact hs ▸ nul_notMem_cStr s

/-- The fourth name does not come back. -/
theorem Interns.le_three {calls : List (List Char)} (h : ZoneCalls hash calls)
    (hi : Interns hash calls) : calls.dedup.length ≤ 3 := by
  by_contra hgt
  rw [← length_namesOf, Nat.not_le] at hgt
  have hmem : (namesOf calls)[3] ∈ calls := mem_namesOf.mp (List.getElem_mem hgt)
  obtain ⟨pre, post, hsplit⟩ := List.append_of_mem hmem
  have hnul := hi.nul_notMem h
  have hhandle := (hsplit ▸ h : ZoneCalls hash (pre ++ (namesOf calls)[3] :: post)).handle_eq
  rw [← hsplit, (nodup_namesOf calls).idxOf_getElem] at hhandle
  have hback := (hi pre _ post hsplit).2.2 post [] (List.append_nil _).symm
  have hnil : ZoneCalls hash (pre ++ (namesOf calls)[3] :: (post ++ [])) := by
    rw [List.append_nil, ← hsplit]
    exact h
  rw [hnil.zone_eq, hhandle, ← hsplit] at hback
  have hsize : makeSize (makeTzob (3 + 1)) = 16 := rfl
  rw [hsize, if_neg (by decide)] at hback
  obtain ⟨s, hs, hcs⟩ := Option.map_eq_some_iff.mp hback
  obtain ⟨hlt, hget⟩ := List.getElem?_eq_some_iff.mp hs
  rw [cStr_of_notMem (hnul s (mem_namesOf.mp (hget ▸ List.getElem_mem hlt))), ← hget] at hcs
  exact absurd ((nodup_namesOf calls).getElem_inj_iff.mp hcs) (by decide)

/-- Names without zeros come back as long as there are three of them. -/
theorem ZoneCalls.back {pre later rest : List (List Char)} {str : List Char}
    (h : ZoneCalls hash (pre ++ str :: (later ++ rest)))
    (hle : (pre ++ str :: (later ++ rest)).dedup.length ≤ 3) (hnul : '\x00' ∉ str) :
    echsZone (tzobRun hash (pre ++ str :: later)) (tzobHandle hash pre str) = some str := by
  have hstr : str ∈ namesOf (pre ++ str :: later) := mem_namesOf.mpr (by simp)
  have hsplit : pre ++ str :: (later ++ rest) = pre ++ str :: later ++ rest := by simp
  have hle' : (namesOf (pre ++ str :: later)).length ≤ 3 := by
    rw [← length_namesOf, hsplit] at hle
    exact (namesOf_grows _ rest).length_le.trans hle
  have hlt := List.idxOf_lt_length_iff.mpr hstr
  have hzone := h.zone_eq
  rw [hsplit] at h
  have hsize := (makeTzob_spec _ (h.left.idx_lt (by simp))).2.2.2.mpr
    (show (namesOf (pre ++ str :: later)).idxOf str + 1 ≤ 3 by omega)
  rw [h.left.handle_eq] at hzone ⊢
  rw [hzone, hsize, if_neg (Nat.succ_ne_zero _), Nat.add_sub_cancel, List.getElem?_idxOf hstr,
    Option.map_some, cStr_of_notMem hnul]

/-- **Zone names are interned** as they should be if and only if there are no more than three
of them, all without zeros. -/
theorem interns_iff {calls : List (List Char)} (h : ZoneCalls hash calls) :
    Interns hash calls ↔ calls.dedup.length ≤ 3 ∧ ∀ str ∈ calls, '\x00' ∉ str := by
  constructor
  · exact fun hi => ⟨hi.le_three h, hi.nul_notMem h⟩
  · rintro ⟨hle, hnul⟩ pre str post heq
    refine ⟨fun pre' str' post' heq' => h.handle_inj heq heq', ?_, ?_⟩
    · have hidx := h.idx_lt (show str ∈ calls by simp [heq])
      subst heq
      rw [h.handle_eq]
      exact (makeTzob_spec _ hidx).1
    · rintro later rest rfl
      subst heq
      exact h.back hle (hnul str (by simp))

end

/-- The zones of four cities. -/
def cityZones : List (List Char) :=
  ["Europe/Berlin".toList, "Asia/Tokyo".toList, "America/New_York".toList, "Europe/London".toList]

theorem zoneCalls_cityZones : ZoneCalls hash cityZones := by
  refine ⟨?_, ?_, ?_⟩ <;> decide

theorem interns_three : Interns hash (cityZones.take 3) :=
  (interns_iff (show ZoneCalls hash (cityZones.take 3) by
    refine ⟨?_, ?_, ?_⟩ <;> decide)).mpr (by decide)

/-- The fourth zone has a handle, but no name. -/
theorem interns_four : ¬ ∀ calls, ZoneCalls hash calls → Interns hash calls := by
  intro hall
  have hback := (hall cityZones zoneCalls_cityZones (cityZones.take 3) "Europe/London".toList []
    rfl).2.2 [] [] rfl
  exact absurd hback (by decide)

end Echse
