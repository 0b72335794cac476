/-
The table of interned strings stands for the list of them.

Whatever strings are interned, what the table gives back is what the list of the strings does:
`intern` adds to both, and `obint_name` finds in both.  The slot of a string stays where it is
when the table grows, and its place in the pool is a multiple of 4 that fits the word it is
packed into, as there are no more strings than hashes.
-/
import Echse.Proofs.Stacks

namespace Echse

/-! ### Places in the pool -/

theorem packObint_unpack {obn len : Nat} (h4 : 4 ∣ obn) (hobn : obn < 2 ^ 58) (hlen : len < 256) :
    (packObint obn len >>> 8) <<< 2 = obn := by
  have hword : obn >>> 2 < 2 ^ 56 := by
    rw [Nat.shiftRight_eq_div_pow]
    omega
  have hshift : ((obn >>> 2) <<< 8) % 2 ^ 64 = (obn >>> 2) <<< 8 := by
    rw [Nat.shiftLeft_eq]
    omega
  have hor : (obn >>> 2) <<< 8 ||| len = (obn >>> 2) * 256 + len := by
    rw [← Nat.shiftLeft_add_eq_or_of_lt (by omega), Nat.shiftLeft_eq]
  unfold packObint
  rw [hshift, hor, Nat.shiftRight_eq_div_pow, Nat.shiftLeft_eq]
  rw [Nat.shiftRight_eq_div_pow] at hword ⊢
  omega

theorem poolText_dvd (names : List (List Char)) : 4 ∣ (poolText names).length := by
  induction names with
  | nil => exact Nat.dvd_zero 4
  | cons s names ih =>
      have hsplit : poolText (s :: names) = zoneText s ++ poolText names := rfl
      rw [hsplit, List.length_append, zoneText_length, zonePad]
      omega

theorem poolText_le {names : List (List Char)} (h : ∀ s ∈ names, s.length < 256) :
    (poolText names).length ≤ 256 * names.length := by
  induction names with
  | nil => exact Nat.zero_le _
  | cons s names ih =>
      have hsplit : poolText (s :: names) = zoneText s ++ poolText names := rfl
      have hs := zonePad_le (h s List.mem_cons_self)
      have hrest := ih fun t ht => h t (List.mem_cons_of_mem s ht)
      rw [hsplit, List.length_append, zoneText_length, List.length_cons]
      omega

/-! ### The strings that the table has -/

section

variable (hash : List Char → UInt32)

/-- The slot of a string that comes after others in the pool. -/
def obSlot (pre : List (List Char)) (s : List Char) : ObSlot :=
  ⟨packObint (poolText pre).length s.length, hash s⟩

/-- **The table and the pool stand for a list of strings.** -/
structure Stands (st : Obints) (strs : List (List Char)) : Prop where
  short : ∀ s ∈ strs, s ≠ [] ∧ s.length < 256 ∧ hash s ≠ 0
  distinct : (strs.map hash).Nodup
  pool : PoolFine st.obs st.obn strs
  start : strs = [] → st.obs = []
  stacked : st.zstk = 0 ∨ Stacked st.zstk
  slots : Slots ObSlot.hx st.sstk st.zstk fun slot =>
    ∃ pre s post, strs = pre ++ s :: post ∧ slot = obSlot hash pre s

theorem stands_init : Stands hash Obints.init [] where
  short := fun _ h => absurd h List.not_mem_nil
  distinct := List.nodup_nil
  pool := ⟨⟨0, rfl⟩, Or.inl rfl, rfl⟩
  start := fun _ => rfl
  stacked := Or.inl rfl
  slots := ⟨fun s hs => by obtain ⟨pre, t, post, h, -⟩ := hs; simp at h, fun _ h => absurd rfl h,
    Probing.fine_empty⟩

variable {hash} {st : Obints} {strs : List (List Char)} {str : List Char}

/-- A slot has the hash of a string. -/
theorem Stands.hash_of_slot (h : Stands hash st strs) {p : Nat} (hp : (st.sstk p).hx ≠ 0) :
    ∃ s ∈ strs, hash s = (st.sstk p).hx := by
  obtain ⟨pre, s, post, hsplit, hslot⟩ := h.slots.only p hp
  refine ⟨s, by simp [hsplit], ?_⟩
  rw [hslot, obSlot]

/-- There are no more strings than hashes. -/
theorem Stands.length_le (h : Stands hash st strs) : strs.length ≤ 2 ^ 32 := by
  have hnodup : ((strs.map hash).map UInt32.toNat).Nodup :=
    h.distinct.map fun a b hab => UInt32.toNat_inj.mp hab
  have hsub : (strs.map hash).map UInt32.toNat ⊆ List.range (2 ^ 32) := by
    intro n hn
    obtain ⟨k, -, rfl⟩ := List.mem_map.mp hn
    exact List.mem_range.mpr k.toNat_lt
  have hle := (hnodup.subperm hsub).length_le
  simpa using hle

/-- The search of `intern`, and what it does to the number of slots. -/
theorem Stands.intern_eq (h : Stands hash st strs) (h0 : str ≠ []) (hlen : str.length < 256) :
    ∃ z n, Stacked z ∧ st.zstk ≤ z ∧ zoneSeq (hash str) n < z ∧
      FirstProbe (hash str) (st.takes (hash str)) n ∧
      st.intern hash str = Obints.internAt { st with zstk := z } str (hash str) (zoneSeq (hash str) n) := by
  obtain ⟨n, hlast, hprobe⟩ := h.slots.exists_hit (hash str)
  have hn : FirstProbe (hash str) (st.takes (hash str)) n := hprobe
  have hbother : ¬ (str.length = 0 ∨ 256 ≤ str.length) := by
    rw [List.length_eq_zero_iff]
    exact not_or.mpr ⟨h0, by omega⟩
  obtain ⟨z, hz, hzle, hz0⟩ : ∃ z, Stacked z ∧ st.zstk ≤ z ∧
      (if st.zstk = 0 then { st with zstk := 1024 } else st) = { st with zstk := z } := by
    by_cases hzero : st.zstk = 0
    · exact ⟨1024, ⟨1, rfl⟩, by omega, if_pos hzero⟩
    · exact ⟨st.zstk, h.stacked.resolve_left hzero, le_rfl, if_neg hzero⟩
  have htakes : Obints.takes { st with zstk := z } (hash str) = st.takes (hash str) := rfl
  unfold Obints.intern
  rw [if_neg hbother]
  dsimp only
  rw [hz0, htakes]
  by_cases hfirst : n / 9 = 0
  · refine ⟨z, n, hz, hzle, ?_, hn, ?_⟩
    · obtain ⟨t, rfl⟩ := hz
      have hslot := zoneSeq_lt (hash str) n
      rw [hfirst] at hslot
      exact Nat.lt_of_lt_of_le hslot (Nat.pow_le_pow_right (by decide) (by omega))
    · rw [probe_eq_some (stackProbes_zero (hash str)) hn hfirst]
  · obtain ⟨z', hz', hzle', hslot, hloop⟩ := @internLoop_eq _ _ 1 _ zoneStacks z hz (by decide) hn
      (by omega) (by unfold zoneStacks; omega)
    refine ⟨z', n, hz', hzle.trans hzle', hslot, hn, ?_⟩
    rw [probe_eq_none (stackProbes_zero (hash str)) hn (by omega)]
    dsimp only
    rw [show (256 : Nat) = 2 ^ (2 * 1 + 6) from rfl, show (0x3ff : Nat) = 2 ^ (2 * 1 + 8) - 1 from rfl,
      hloop]

/-- A string of a known hash is not put in. -/
theorem internObs_of_mem {s : List Char} (hs : s ∈ strs) (hhash : hash s = hash str) :
    internObs hash strs str = strs := by
  unfold internObs Echse.intern
  split
  · exact if_pos (Or.inl rfl)
  · exact if_pos (Or.inr (List.any_eq_true.mpr ⟨s, hs, decide_eq_true (congrArg UInt32.toNat hhash)⟩))

theorem internObs_of_zero (h : hash str = 0) : internObs hash strs str = strs := by
  have hzero : Echse.intern hash str = 0 := by
    unfold Echse.intern obint
    rw [h]
    split <;> rfl
  exact if_pos (Or.inl hzero)

theorem intern_of_short (h0 : str ≠ []) (hlen : str.length < 256) :
    Echse.intern hash str = (hash str).toNat := by
  refine if_neg (not_or.mpr ⟨?_, Nat.not_le.mpr hlen⟩)
  rwa [List.length_eq_zero_iff]

theorem internObs_new (h0 : str ≠ []) (hlen : str.length < 256) (hnz : hash str ≠ 0)
    (hnew : ∀ s ∈ strs, hash s ≠ hash str) : internObs hash strs str = strs ++ [str] := by
  unfold internObs
  rw [intern_of_short h0 hlen]
  refine if_neg (not_or.mpr ⟨fun h => hnz (UInt32.toNat_inj.mp h), ?_⟩)
  intro hany
  obtain ⟨s, hs, heq⟩ := List.any_eq_true.mp hany
  exact hnew s hs (UInt32.toNat_inj.mp (of_decide_eq_true heq))

/-- Filling a slot adds the string. -/
theorem Stands.fill (h : Stands hash st strs) (h0 : str ≠ []) (hlen : str.length < 256)
    (hnz : hash str ≠ 0) (hst : Stacked st.zstk) {n : Nat} (hn : FirstProbe (hash str) (st.takes (hash str)) n)
    (hlt : zoneSeq (hash str) n < st.zstk) (hfree : (st.sstk (zoneSeq (hash str) n)).hx = 0)
    (hnew : ∀ s ∈ strs, hash s ≠ hash str) :
    Stands hash (st.internAt str (hash str) (zoneSeq (hash str) n)).2 (strs ++ [str]) := by
  have hslot : packObint st.obn str.length = packObint (poolText strs).length str.length := by
    rw [h.pool.fill]
  have hne : (st.sstk (zoneSeq (hash str) n)).hx ≠ hash str := by
    rw [hfree]
    exact hnz.symm
  have hslots := @Slots.insert ObSlot ObSlot.hx _ _ _ h.slots (obSlot hash strs str) hnz n hn hfree hlt (by
    rintro s ⟨pre, t, post, hsplit, rfl⟩
    exact (h.short t (by simp [hsplit])).2.2)
  unfold Obints.internAt makeObint
  rw [if_neg hne]
  dsimp only
  rw [hslot]
  refine ⟨?_, ?_, h.pool.paste hlen, ?_, Or.inr hst, ?_⟩
  · intro s hs
    rcases List.mem_append.mp hs with hs | hs
    · exact h.short s hs
    · rw [List.mem_singleton.mp hs]
      exact ⟨h0, hlen, hnz⟩
  · rw [List.map_append, List.nodup_append]
    refine ⟨h.distinct, List.nodup_singleton _, ?_⟩
    intro a ha b hb hab
    obtain ⟨s, hs, rfl⟩ := List.mem_map.mp ha
    rw [List.map_singleton, List.mem_singleton] at hb
    exact hnew s hs (hab.trans hb)
  · intro hnil
    simp at hnil
  · refine ⟨?_, ?_, hslots.fine⟩
    · rintro s ⟨pre, t, post, hsplit, rfl⟩
      refine hslots.filled _ ?_
      rcases List.eq_nil_or_concat post with rfl | ⟨post, u, rfl⟩
      · obtain ⟨rfl, rfl⟩ := List.append_inj' hsplit rfl |>.imp id List.singleton_inj.mp
        exact Or.inr rfl
      · have hlast : strs ++ [str] = (pre ++ t :: post) ++ [u] := by rw [hsplit]; simp
        exact Or.inl ⟨pre, t, post, (List.append_inj' hlast rfl).1, rfl⟩
    · intro p hp
      rcases hslots.only p hp with ⟨pre, t, post, hsplit, heq⟩ | heq
      · exact ⟨pre, t, post ++ [str], by rw [hsplit]; simp, heq⟩
      · exact ⟨strs, str, [], rfl, heq⟩

/-- **`intern` does to the table what it does to the list.** -/
theorem Stands.intern (h : Stands hash st strs) (str : List Char) :
    (st.intern hash str).1 = Echse.intern hash str ∧
      Stands hash (st.intern hash str).2 (internObs hash strs str) := by
  by_cases hbother : str.length = 0 ∨ 256 ≤ str.length
  · have hzero : Echse.intern hash str = 0 := if_pos hbother
    have hsame : internObs hash strs str = strs := if_pos (Or.inl hzero)
    have hst : st.intern hash str = (0, st) := if_pos hbother
    rw [hst, hzero, hsame]
    exact ⟨rfl, h⟩
  · obtain ⟨h0, hlen⟩ := not_or.mp hbother
    rw [List.length_eq_zero_iff] at h0
    have hlen := Nat.lt_of_not_le hlen
    obtain ⟨z, n, hz, hzle, hlt, hn, heq⟩ := h.intern_eq h0 hlen
    have hgrown : Stands hash { st with zstk := z } strs :=
      ⟨h.short, h.distinct, h.pool, h.start, Or.inr hz, h.slots.grow hzle⟩
    rw [heq, intern_of_short h0 hlen]
    by_cases hthere : (st.sstk (zoneSeq (hash str) n)).hx = hash str
    · have hsame : internObs hash strs str = strs := by
        by_cases hnz : hash str = 0
        · exact internObs_of_zero hnz
        · obtain ⟨s, hs, hhash⟩ := h.hash_of_slot (by rw [hthere]; exact hnz)
          exact internObs_of_mem hs (hhash.trans hthere)
      have hat : Obints.internAt { st with zstk := z } str (hash str) (zoneSeq (hash str) n) =
          ((hash str).toNat, { st with zstk := z }) := if_pos hthere
      rw [hat, hsame]
      exact ⟨rfl, hgrown⟩
    · -- the slot that the row stops at is free, and so no other has the hash
      have hfree : (st.sstk (zoneSeq (hash str) n)).hx = 0 := by
        have htakes := hn.1
        unfold Obints.takes at htakes
        rw [Bool.or_eq_true, beq_iff_eq, beq_iff_eq] at htakes
        exact htakes.resolve_left hthere
      have hnz : hash str ≠ 0 := fun hzero => hthere (hfree.trans hzero.symm)
      have hnew : ∀ s ∈ strs, hash s ≠ hash str := by
        intro s hs hhash
        obtain ⟨pre, post, hsplit⟩ := List.append_of_mem hs
        have hns : FirstProbe (hash s) (st.takes (hash s)) n := by rw [hhash]; exact hn
        have hhit := (h.slots.at_hit (s := obSlot hash pre s) ⟨pre, s, post, hsplit, rfl⟩
          (h.short s hs).2.2 hns).2
        have hslot : (st.sstk (zoneSeq (hash s) n)).hx = hash s := congrArg ObSlot.hx hhit
        rw [hhash] at hslot
        exact hthere hslot
      rw [internObs_new h0 hlen hnz hnew]
      refine ⟨?_, hgrown.fill h0 hlen hnz hz hn hlt hfree hnew⟩
      unfold Obints.internAt
      rw [if_neg hthere]

/-! ### Back to the strings -/

theorem nul_notMem_autoUid (hx : Nat) : '\x00' ∉ autoUid hx := by
  have hdigit : ∀ m < 16, u2h m ≠ '\x00' := by decide
  intro hmem
  unfold autoUid at hmem
  rw [List.mem_append, List.mem_append] at hmem
  rcases hmem with (hmem | hmem) | hmem
  · revert hmem
    decide
  · obtain ⟨j, -, hj⟩ := List.mem_map.mp hmem
    exact hdigit _ (Nat.mod_lt _ (by decide)) hj
  · revert hmem
    decide

/-- The memory at the place that the slot of a string keeps is the string and a zero. -/
theorem Stands.text (h : Stands hash st strs) {pre post : List (List Char)} {s : List Char}
    (hsplit : strs = pre ++ s :: post) :
    ∃ r, st.obs.drop (((obSlot hash pre s).ob >>> 8) <<< 2) = s ++ '\x00' :: r := by
  have hshort := (h.short s (by simp [hsplit])).2.1
  have hpre : (poolText pre).length < 2 ^ 58 := by
    have hle := poolText_le (show ∀ t ∈ pre, t.length < 256 from
      fun t ht => (h.short t (by simp [hsplit, ht])).2.1)
    have hlen := h.length_le
    rw [hsplit, List.length_append] at hlen
    omega
  have hi : pre.length < strs.length := by simp [hsplit]
  obtain ⟨r, hr⟩ := h.pool.drop hi
  have htake : strs.take pre.length = pre := by rw [hsplit, List.take_left]
  have hget : strs.getD pre.length [] = s := by
    rw [hsplit, List.getD_append_right _ _ _ _ le_rfl, Nat.sub_self]
    rfl
  rw [htake, hget] at hr
  obtain ⟨k, hk⟩ : ∃ k, zonePad s.length - s.length = k + 1 :=
    ⟨zonePad s.length - s.length - 1, by have := lt_zonePad s.length; omega⟩
  rw [obSlot, packObint_unpack (poolText_dvd pre) hpre hshort, hr, zoneText, hk, List.replicate_succ,
    List.append_assoc, List.cons_append]
  exact ⟨_, rfl⟩

/-- The search of `obint_name`. -/
def Obints.nameSlot (st : Obints) (hx : UInt32) : Option Nat :=
  if st.zstk = 0 then none
  else
    match probe hx (fun k => k &&& 0xff) fun off => (st.sstk off).hx == hx with
    | some off => some off
    | none => nameLoop st.zstk hx (fun off => (st.sstk off).hx == hx) zoneStacks 256 0x3ff

theorem Stands.nameSlot_mem (h : Stands hash st strs) {pre post : List (List Char)} {s : List Char}
    (hsplit : strs = pre ++ s :: post) :
    ∃ off, st.nameSlot (hash s) = some off ∧ st.sstk off = obSlot hash pre s := by
  have hnz := (h.short s (by simp [hsplit])).2.2
  obtain ⟨n, hlast, hn⟩ := h.slots.exists_hit (hash s)
  obtain ⟨hlt, hslot⟩ := h.slots.at_hit (s := obSlot hash pre s) ⟨pre, s, post, hsplit, rfl⟩ hnz hn
  have hat : (st.sstk (zoneSeq (hash s) n)).hx = hash s := congrArg ObSlot.hx hslot
  have hfirst : FirstProbe (hash s) (fun off => (st.sstk off).hx == hash s) n := by
    refine ⟨beq_iff_eq.mpr hat, ?_⟩
    intro i hi
    have hmiss := hn.2 i hi
    rw [Bool.or_eq_false_iff] at hmiss
    exact hmiss.1
  have hlt' : zoneSeq (hash s) n < st.zstk := hlt
  refine ⟨zoneSeq (hash s) n, ?_, hslot⟩
  unfold Obints.nameSlot
  rw [if_neg (by omega)]
  by_cases hzero : n / 9 = 0
  · rw [probe_eq_some (stackProbes_zero (hash s)) hfirst hzero]
  · have hloop := nameLoop_eq hfirst hlt' zoneStacks 1 (by decide) (by omega) (by unfold zoneStacks; omega)
    rw [probe_eq_none (stackProbes_zero (hash s)) hfirst (by omega)]
    exact hloop

theorem Stands.nameSlot_none {hx : UInt32} (hnone : ∀ off, (st.sstk off).hx ≠ hx) :
    st.nameSlot hx = none := by
  have hp : ∀ off, ((st.sstk off).hx == hx) = false := fun off => beq_eq_false_iff_ne.mpr (hnone off)
  have hprobe : probe hx (fun k => k &&& 0xff) (fun off => (st.sstk off).hx == hx) = none := by
    rw [probe, List.find?_eq_none]
    intro off _
    rw [hp off]
    decide
  unfold Obints.nameSlot
  rw [hprobe, nameLoop_none hp]
  split <;> rfl

/-- `obint_name`, of an id that is a hash. -/
theorem obintName_of_hash (st : Obints) {hx : UInt32} (h0 : hx ≠ 0) : st.obintName hx.toNat =
    match st.nameSlot hx with
    | some off => some (st.obs.drop (((st.sstk off).ob >>> 8) <<< 2))
    | none => some (autoUid hx.toNat ++ ['\x00']) := by
  have hne : hx.toNat ≠ 0 := fun h => h0 (UInt32.toNat_inj.mp h)
  have hhas : (fun off => (st.sstk off).hx.toNat == hx.toNat) = fun off => (st.sstk off).hx == hx := by
    funext off
    rw [Bool.eq_iff_iff, beq_iff_eq, beq_iff_eq, UInt32.toNat_inj]
  have hname : st.obintName hx.toNat = _ := if_neg hne
  simp only [hhas, UInt32.ofNat_toNat] at hname
  exact hname

/-- Of any other it is made up. -/
theorem obintName_of_large (st : Obints) {hx : Nat} (h : 2 ^ 32 ≤ hx) :
    st.obintName hx = some (autoUid hx ++ ['\x00']) := by
  have hhas : ∀ off, ((st.sstk off).hx.toNat == hx) = false := by
    intro off
    have hlt := (st.sstk off).hx.toNat_lt
    exact beq_eq_false_iff_ne.mpr (by omega)
  have hprobe : probe (.ofNat hx) (fun k => k &&& 0xff) (fun off => (st.sstk off).hx.toNat == hx) = none := by
    rw [probe, List.find?_eq_none]
    intro off _
    rw [hhas off]
    decide
  unfold Obints.obintName
  rw [if_neg (by omega)]
  dsimp only
  rw [hprobe, nameLoop_none hhas]
  by_cases hz : st.zstk = 0
  · rw [if_pos hz]
  · rw [if_neg hz]

/-- **`obint_name` finds in the table what is in the list.** -/
theorem Stands.obintName (h : Stands hash st strs) (hx : Nat) :
    (st.obintName hx).map cStr = Echse.obintName hash strs hx := by
  by_cases h0 : hx = 0
  · subst h0
    cases strs with
    | nil =>
        unfold Obints.obintName
        rw [if_pos rfl, if_pos (h.start rfl)]
        rfl
    | cons s strs =>
        obtain ⟨r, hr⟩ := h.pool.text
        have hobs : st.obs = zoneText s ++ (poolText strs ++ List.replicate r '\x00') := by
          rw [hr, ← List.append_assoc]
          rfl
        have hne : st.obs ≠ [] := by
          rw [hobs]
          refine List.append_ne_nil_of_left_ne_nil (List.ne_nil_of_length_pos ?_) _
          rw [zoneText_length]
          exact Nat.zero_lt_of_lt (lt_zonePad s.length)
        unfold Obints.obintName
        rw [if_pos rfl, if_neg hne, Option.map_some, hobs, cStr_zoneText]
        rfl
  have hauto : cStr (autoUid hx ++ ['\x00']) = autoUid hx := by
    rw [cStr_append_nul, cStr_of_notMem (nul_notMem_autoUid hx)]
  unfold Echse.obintName
  rw [if_neg h0]
  by_cases hlarge : 2 ^ 32 ≤ hx
  · have hfind : strs.find? (fun s => obint hash s = hx) = none := by
      rw [List.find?_eq_none]
      intro s _ heq
      have hlt := (hash s).toNat_lt
      have hobint : (hash s).toNat = hx := of_decide_eq_true heq
      omega
    rw [obintName_of_large st hlarge, hfind, Option.map_some, hauto]
    rfl
  · obtain ⟨k, rfl⟩ : ∃ k : UInt32, hx = k.toNat :=
      ⟨.ofNat hx, (UInt32.toNat_ofNat_of_lt' (Nat.lt_of_not_le hlarge)).symm⟩
    have hk : k ≠ 0 := fun hz => h0 (by rw [hz]; rfl)
    rw [obintName_of_hash st hk]
    cases hfind : strs.find? (fun s => obint hash s = k.toNat) with
    | none =>
        have hnone : ∀ off, (st.sstk off).hx ≠ k := by
          intro off heq
          obtain ⟨s, hs, hhash⟩ := h.hash_of_slot (by rw [heq]; exact hk)
          have hmiss := List.find?_eq_none.mp hfind s hs
          exact hmiss (decide_eq_true (by rw [obint, hhash, heq]))
        rw [Stands.nameSlot_none hnone]
        exact congrArg some hauto
    | some s =>
        obtain ⟨pre, post, hsplit⟩ := List.append_of_mem (List.mem_of_find?_eq_some hfind)
        have hsome : decide (obint hash s = k.toNat) = true :=
          List.find?_some (p := fun s => decide (obint hash s = k.toNat)) hfind
        have hhash : hash s = k := UInt32.toNat_inj.mp (of_decide_eq_true hsome)
        obtain ⟨off, hoff, hslot⟩ := h.nameSlot_mem hsplit
        obtain ⟨r, hr⟩ := h.text hsplit
        rw [hhash] at hoff
        rw [hoff]
        dsimp only
        rw [hslot, hr, Option.map_some, cStr_append_nul]
        rfl

/-! ### Sequences of calls -/

variable (hash)

/-- The table after some calls. -/
def internRun (calls : List (List Char)) : Obints :=
  calls.foldl (fun st str => (st.intern hash str).2) .init

/-- What a call returns, after others. -/
def internId (calls : List (List Char)) (str : List Char) : Nat :=
  ((internRun hash calls).intern hash str).1

/-- **After any calls the table stands for the strings of the list.** -/
theorem internRun_stands (calls : List (List Char)) :
    Stands hash (internRun hash calls) (calls.foldl (internObs hash) []) := by
  induction calls using List.reverseRecOn with
  | nil => exact stands_init hash
  | append_singleton calls str ih =>
      rw [internRun, List.foldl_append, List.foldl_append]
      exact (ih.intern str).2

/-- The calls that count: strings neither empty nor too long, their hashes distinct and not 0. -/
structure InternCalls (calls : List (List Char)) : Prop where
  short : ∀ str ∈ calls, str ≠ [] ∧ str.length < 256 ∧ hash str ≠ 0
  distinct : ∀ s ∈ calls, ∀ t ∈ calls, hash s = hash t → s = t

variable {hash} {calls pre later : List (List Char)}

theorem InternCalls.left (h : InternCalls hash (calls ++ later)) : InternCalls hash calls where
  short := fun str hstr => h.short str (List.mem_append_left later hstr)
  distinct := fun s hs t ht => h.distinct s (List.mem_append_left later hs) t (List.mem_append_left later ht)

/-- What a call returns is the hash, whatever the calls before. -/
theorem InternCalls.id_eq (h : InternCalls hash calls) (hstr : str ∈ calls) (pre : List (List Char)) :
    internId hash pre str = (hash str).toNat := by
  obtain ⟨h0, hlen, -⟩ := h.short str hstr
  rw [internId, ((internRun_stands hash pre).intern str).1, intern_of_short h0 hlen]

/-- The list gets the strings of the calls and no others. -/
theorem InternCalls.mem_strs (h : InternCalls hash calls) :
    ∀ s, s ∈ calls.foldl (internObs hash) [] ↔ s ∈ calls := by
  induction calls using List.reverseRecOn with
  | nil => exact fun s => Iff.rfl
  | append_singleton calls str ih =>
      intro s
      have ih := ih h.left
      obtain ⟨h0, hlen, hnz⟩ := h.short str (by simp)
      rw [List.foldl_append, List.foldl_cons, List.foldl_nil, List.mem_append, List.mem_singleton]
      by_cases hknown : ∃ t ∈ calls.foldl (internObs hash) [], hash t = hash str
      · obtain ⟨t, ht, hhash⟩ := hknown
        have hcalls := (ih t).mp ht
        have hsame : t = str := h.distinct t (by simp [hcalls]) str (by simp) hhash
        rw [internObs_of_mem ht hhash, ih s]
        refine ⟨Or.inl, fun hs => hs.elim id fun heq => ?_⟩
        rw [heq, ← hsame]
        exact hcalls
      · have hnew : ∀ t ∈ calls.foldl (internObs hash) [], hash t ≠ hash str :=
          fun t ht hhash => hknown ⟨t, ht, hhash⟩
        rw [internObs_new h0 hlen hnz hnew, List.mem_append, List.mem_singleton, ih s]

/-- The memory behind the hash of a string is the string and a zero. -/
theorem InternCalls.name (h : InternCalls hash calls) (hstr : str ∈ calls) :
    ∃ r, (internRun hash calls).obintName (hash str).toNat = some (str ++ '\x00' :: r) := by
  have hstands := internRun_stands hash calls
  obtain ⟨pre, post, hsplit⟩ := List.append_of_mem ((h.mem_strs str).mpr hstr)
  obtain ⟨off, hoff, hslot⟩ := hstands.nameSlot_mem hsplit
  obtain ⟨r, hr⟩ := hstands.text hsplit
  refine ⟨r, ?_⟩
  rw [obintName_of_hash _ (h.short str hstr).2.2, hoff]
  dsimp only
  rw [hslot, hr]

/-- **Strings come back from their ids** at any later time, and the ids are the same if and only
if the strings are. -/
theorem internId_back (h : InternCalls hash calls) {post : List (List Char)}
    (hsplit : calls = pre ++ str :: post) :
    (∀ pre' str' post', calls = pre' ++ str' :: post' →
      (internId hash pre str = internId hash pre' str' ↔ str = str')) ∧
    ∀ later rest, post = later ++ rest →
      ∃ r, (internRun hash (pre ++ str :: later)).obintName (internId hash pre str) =
          some (str ++ '\x00' :: r) ∧
        ('\x00' ∉ str → cStr (str ++ '\x00' :: r) = str) := by
  have hstr : str ∈ calls := by simp [hsplit]
  rw [h.id_eq hstr]
  constructor
  · intro pre' str' post' hsplit'
    have hstr' : str' ∈ calls := by simp [hsplit']
    rw [h.id_eq hstr', UInt32.toNat_inj]
    exact ⟨h.distinct str hstr str' hstr', congrArg hash⟩
  · intro later rest hpost
    have hwhole : calls = (pre ++ str :: later) ++ rest := by rw [hsplit, hpost]; simp
    have hlater : InternCalls hash (pre ++ str :: later) := (hwhole ▸ h).left
    obtain ⟨r, hr⟩ := hlater.name (show str ∈ pre ++ str :: later by simp)
    refine ⟨r, hr, fun hnul => ?_⟩
    rw [cStr_append_nul, cStr_of_notMem hnul]

end

/-- Three calls, two of them for the same string. -/
theorem internId_back_thrice :
    ∃ r, (internRun hash ["echse".toList, "uid@echse".toList, "echse".toList]).obintName
        (internId hash ["echse".toList] "uid@echse".toList) = some ("uid@echse".toList ++ '\x00' :: r) ∧
      ('\x00' ∉ "uid@echse".toList → cStr ("uid@echse".toList ++ '\x00' :: r) = "uid@echse".toList) := by
  have hcalls : InternCalls hash ["echse".toList, "uid@echse".toList, "echse".toList] :=
    ⟨by decide, by decide⟩
  have hsplit : ["echse".toList, "uid@echse".toList, "echse".toList] =
      ["echse".toList] ++ "uid@echse".toList :: ["echse".toList] := rfl
  exact (internId_back hcalls hsplit).2 ["echse".toList] [] rfl

end Echse
