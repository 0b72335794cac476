/-
What the cache of zone files returns.

The slots in use are the first ones, and each has the file of its handle, still open and in no
other slot.  Handle 0 is that of UTC but looks like a free slot, so as long as there is one that
is what is found for it.
-/
import Echse.ZifCache

namespace Echse

section

variable (tz : Tzobs) (zifOpen : List Char → Option Zif)

/-- The file of a handle's zone. -/
def zoneFile (zob : Nat) : Option Zif := (echsZone tz zob).bind zifOpen

/-- The handles other than 0 that have been asked for and have a file. -/
def zonesFiled (zobs : List Nat) : List Nat :=
  zobs.filter fun zob => zob ≠ 0 ∧ (zoneFile tz zifOpen zob).isSome

/-- The first `k` slots are in use. -/
structure MfuFine (st : ZifCache) (k : Nat) (zobs : List Nat) : Prop where
  le : k ≤ 16
  used : ∀ i < k, i < 15 → (st.tmfu i).z ≠ 0
  free : ∀ i, k ≤ i → (st.tmfu i).z = 0 ∧ st.zmfu i = none
  file : ∀ i < k, ∃ f, st.zmfu i = some f ∧ zoneFile tz zifOpen (st.tmfu i).z = some f.zif
  /-- A file in the cache is open. -/
  opened : ∀ i f, st.zmfu i = some f → f.id < st.opened ∧ f.id ∉ st.closed
  closed : ∀ n ∈ st.closed, n < st.opened
  once : ∀ i j f g, st.zmfu i = some f → st.zmfu j = some g → f.id = g.id → i = j
  apart : ∀ i < k, ∀ j < k, (st.tmfu i).z = (st.tmfu j).z → i = j
  /-- As long as there are free slots nothing has been thrown out. -/
  few : k < 16 → ∀ zob, zob ∈ zonesFiled tz zifOpen zobs ↔ ∃ i < k, (st.tmfu i).z = zob
  many : k = 16 → 16 ≤ (zonesFiled tz zifOpen zobs).dedup.length

variable {tz zifOpen} {st : ZifCache} {k : Nat} {zobs : List Nat} {zob : Nat}

theorem mfuFine_init : MfuFine tz zifOpen .init 0 [] where
  le := Nat.zero_le _
  used := fun _ hi => absurd hi (Nat.not_lt_zero _)
  free := fun _ _ => ⟨rfl, rfl⟩
  file := fun _ hi => absurd hi (Nat.not_lt_zero _)
  opened := fun _ _ h => nomatch h
  closed := fun _ h => nomatch h
  once := fun _ _ _ _ h => nomatch h
  apart := fun _ hi => absurd hi (Nat.not_lt_zero _)
  few := fun _ _ => iff_of_false List.not_mem_nil fun ⟨_, hi, _⟩ => absurd hi (Nat.not_lt_zero _)
  many := fun h => nomatch h

/-! ### Searching -/

/-- Where the loop ends: in the first slot that has the handle, or is free, or is the last. -/
theorem mfuLoop_spec (tmfu : Nat → MfuSlot) (zob : Nat) (fuel i : Nat) :
    ∃ j, i ≤ j ∧ j ≤ i + fuel ∧ (∀ n, i ≤ n → n < j → (tmfu n).z ≠ 0 ∧ (tmfu n).z ≠ zob) ∧
      ((mfuLoop tmfu zob fuel i = (j, true) ∧ j < i + fuel ∧ (tmfu j).z = zob ∧ zob ≠ 0) ∨
        (mfuLoop tmfu zob fuel i = (j, false) ∧ (j = i + fuel ∨ (tmfu j).z = 0))) := by
  induction fuel generalizing i with
  | zero =>
      exact ⟨i, le_rfl, le_rfl, fun n hle hlt => by omega, Or.inr ⟨rfl, Or.inl rfl⟩⟩
  | succ fuel ih =>
      rw [mfuLoop]
      by_cases h0 : (tmfu i).z = 0
      · rw [if_pos h0]
        exact ⟨i, le_rfl, by omega, fun n hle hlt => by omega, Or.inr ⟨rfl, Or.inr h0⟩⟩
      · rw [if_neg h0]
        by_cases hz : (tmfu i).z = zob
        · rw [if_pos hz]
          exact ⟨i, le_rfl, by omega, fun n hle hlt => by omega,
            Or.inl ⟨rfl, by omega, hz, hz ▸ h0⟩⟩
        · rw [if_neg hz]
          obtain ⟨j, hij, hj, hbefore, hend⟩ := ih (i + 1)
          refine ⟨j, by omega, by omega, fun n hle hlt => ?_, ?_⟩
          · rcases Nat.eq_or_lt_of_le hle with rfl | hn
            · exact ⟨h0, hz⟩
            · exact hbefore n hn hlt
          · rcases hend with ⟨heq, hlt, hfound⟩ | ⟨heq, hstop⟩
            · exact Or.inl ⟨heq, by omega, hfound⟩
            · exact Or.inr ⟨heq, hstop.imp_left fun h => by omega⟩

/-- The search, where the first `k` slots are in use. -/
theorem MfuFine.loop (h : MfuFine tz zifOpen st k zobs) (zob : Nat) :
    (∃ i, mfuLoop st.tmfu zob 15 0 = (i, true) ∧ i < k ∧ i < 15 ∧ (st.tmfu i).z = zob ∧ zob ≠ 0) ∨
      (mfuLoop st.tmfu zob 15 0 = (min k 15, false) ∧
        ∀ n < min k 15, (st.tmfu n).z ≠ zob) := by
  obtain ⟨j, -, hj, hbefore, ⟨heq, hlt, hz, h0⟩ | ⟨heq, hstop⟩⟩ := mfuLoop_spec st.tmfu zob 15 0
  · refine Or.inl ⟨j, heq, ?_, by omega, hz, h0⟩
    by_contra hk
    exact h0 (hz ▸ (h.free j (by omega)).1)
  · have hmin : j = min k 15 := by
      have hup : j ≤ k := by
        by_contra hk
        exact (hbefore k (Nat.zero_le _) (by omega)).1 (h.free k le_rfl).1
      rcases hstop with hj15 | h0
      · omega
      · have hk : ¬ (j < k ∧ j < 15) := fun hk => h.used j hk.1 hk.2 h0
        omega
    subst hmin
    exact Or.inr ⟨heq, fun n hn => (hbefore n (Nat.zero_le _) hn).2⟩

/-! ### Hits -/

/-- The handles and files change places together. -/
theorem MfuFine.perm (h : MfuFine tz zifOpen st k zobs) {st' : ZifCache} (σ : Equiv.Perm Nat)
    (hin : ∀ i, σ i < k ↔ i < k) (hlast : ∀ i, σ i < 15 ↔ i < 15)
    (hz : ∀ i, (st'.tmfu i).z = (st.tmfu (σ i)).z) (hf : ∀ i, st'.zmfu i = st.zmfu (σ i))
    (ho : st'.opened = st.opened) (hc : st'.closed = st.closed) :
    MfuFine tz zifOpen st' k zobs where
  le := h.le
  used := fun i hi hlt => by
    rw [hz]
    exact h.used _ ((hin i).mpr hi) ((hlast i).mpr hlt)
  free := fun i hi => by
    have hout : k ≤ σ i := Nat.le_of_not_lt fun hlt => absurd ((hin i).mp hlt) (by omega)
    rw [hz, hf]
    exact h.free _ hout
  file := fun i hi => by
    rw [hz, hf]
    exact h.file _ ((hin i).mpr hi)
  opened := fun i f hif => by
    rw [ho, hc]
    exact h.opened _ f (hf i ▸ hif)
  closed := by
    rw [ho, hc]
    exact h.closed
  once := fun i j f g hif hjg hid =>
    σ.injective (h.once _ _ f g (hf i ▸ hif) (hf j ▸ hjg) hid)
  apart := fun i hi j hj heq => by
    rw [hz, hz] at heq
    exact σ.injective (h.apart _ ((hin i).mpr hi) _ ((hin j).mpr hj) heq)
  few := fun hk zob => by
    rw [h.few hk zob]
    constructor
    · rintro ⟨i, hi, hzi⟩
      refine ⟨σ.symm i, (hin _).mp (by rw [Equiv.apply_symm_apply]; exact hi), ?_⟩
      rw [hz, Equiv.apply_symm_apply, hzi]
    · rintro ⟨i, hi, hzi⟩
      exact ⟨σ i, (hin i).mpr hi, hz i ▸ hzi⟩
  many := h.many

theorem swap_lt {a b n : Nat} (ha : a < n) (hb : b < n) (i : Nat) : Equiv.swap a b i < n ↔ i < n := by
  rw [Equiv.swap_apply_def]
  split
  · omega
  · split <;> omega

/-- A hit. -/
theorem MfuFine.hit (h : MfuFine tz zifOpen st k zobs) {i : Nat} (hi : i < k) (hi15 : i < 15) :
    MfuFine tz zifOpen (mfuHit st i).2 k zobs ∧ (mfuHit st i).1 = st.zmfu i ∧
      ∃ j, (mfuHit st i).2.zmfu j = st.zmfu i := by
  rw [mfuHit]
  by_cases h0 : i = 0
  · rw [if_pos h0]
    exact ⟨h, rfl, i, rfl⟩
  · rw [if_neg h0]
    dsimp only
    have hz : ∀ (s : MfuSlot) (n : Nat), s.z = (st.tmfu i).z →
        ((Function.update st.tmfu i s) n).z = (st.tmfu n).z := by
      intro s n hs
      by_cases hn : n = i
      · rw [hn, Function.update_self, hs]
      · rw [Function.update_of_ne hn]
    split
    · have hfile : (st.zmfu ∘ Equiv.swap (i - 1) i) (i - 1) = st.zmfu i := by
        rw [Function.comp_apply, Equiv.swap_apply_left]
      exact ⟨h.perm (Equiv.swap (i - 1) i) (swap_lt (by omega) hi) (swap_lt (by omega) hi15)
        (fun n => hz _ _ rfl) (fun n => rfl) rfl rfl, hfile, i - 1, hfile⟩
    · exact ⟨h.perm (Equiv.refl Nat) (fun _ => Iff.rfl) (fun _ => Iff.rfl) (fun n => hz _ n rfl)
        (fun _ => rfl) rfl rfl, rfl, i, rfl⟩

/-! ### Requests -/

theorem mem_zonesFiled {z : Nat} : z ∈ zonesFiled tz zifOpen zobs ↔
    z ∈ zobs ∧ z ≠ 0 ∧ (zoneFile tz zifOpen z).isSome := by
  rw [zonesFiled, List.mem_filter, decide_eq_true_iff]

theorem zonesFiled_append (zobs more : List Nat) : zonesFiled tz zifOpen (zobs ++ more) =
    zonesFiled tz zifOpen zobs ++ zonesFiled tz zifOpen more := List.filter_append ..

theorem length_dedup_le {xs ys : List Nat} (h : ∀ x ∈ xs, x ∈ ys) :
    xs.dedup.length ≤ ys.dedup.length :=
  ((List.nodup_dedup xs).subperm fun x hx =>
    List.mem_dedup.mpr (h x (List.mem_dedup.mp hx))).length_le

/-- Handles that are in different slots are as many different ones. -/
theorem le_length_dedup {zs : Nat → Nat} {xs : List Nat} (hinj : ∀ i < k, ∀ j < k, zs i = zs j → i = j)
    (hin : ∀ i < k, zs i ∈ xs) : k ≤ xs.dedup.length := by
  have hnodup : ((List.range k).map zs).Nodup := by
    refine List.Nodup.map_on (fun i hi j hj heq => ?_) List.nodup_range
    exact hinj i (List.mem_range.mp hi) j (List.mem_range.mp hj) heq
  have hsub := hnodup.subperm fun x hx => by
    obtain ⟨i, hi, rfl⟩ := List.mem_map.mp hx
    exact List.mem_dedup.mpr (hin i (List.mem_range.mp hi))
  have hlen := hsub.length_le
  rwa [List.length_map, List.length_range] at hlen

/-- There are no free slots once 16 files have been asked for. -/
theorem MfuFine.full_iff (h : MfuFine tz zifOpen st k zobs) :
    k = 16 ↔ 16 ≤ (zonesFiled tz zifOpen zobs).dedup.length := by
  refine ⟨h.many, fun hmany => ?_⟩
  by_contra hk
  have hle := h.le
  have hfew := h.few (by omega)
  have hlen : (zonesFiled tz zifOpen zobs).dedup.length ≤
      ((List.range k).map fun i => (st.tmfu i).z).dedup.length := by
    refine length_dedup_le fun zob hzob => ?_
    obtain ⟨i, hi, rfl⟩ := (hfew zob).mp hzob
    exact List.mem_map.mpr ⟨i, List.mem_range.mpr hi, rfl⟩
  have hrange := (List.dedup_sublist ((List.range k).map fun i => (st.tmfu i).z)).length_le
  rw [List.length_map, List.length_range] at hrange
  omega

/-- A request that does not change the cache. -/
theorem MfuFine.keep (h : MfuFine tz zifOpen st k zobs) (hkeep : k < 16 → zob ≠ 0 →
    (zoneFile tz zifOpen zob).isSome → ∃ i < k, (st.tmfu i).z = zob) :
    MfuFine tz zifOpen st k (zobs ++ [zob]) where
  le := h.le
  used := h.used
  free := h.free
  file := h.file
  opened := h.opened
  closed := h.closed
  once := h.once
  apart := h.apart
  few := fun hk z => by
    rw [zonesFiled_append, List.mem_append, h.few hk z, or_iff_left_iff_imp]
    intro hz
    obtain ⟨hmem, h0, hfile⟩ := mem_zonesFiled.mp hz
    obtain rfl := List.mem_singleton.mp hmem
    exact hkeep hk h0 hfile
  many := fun hk => by
    rw [zonesFiled_append]
    exact (h.many hk).trans (length_dedup_le fun z hz => List.mem_append_left _ hz)

/-- The cache after a file has been opened into slot `i`. -/
def mfuOpened (st : ZifCache) (zob i : Nat) (zif : Zif) : ZifCache where
  tmfu := Function.update st.tmfu i ⟨zob, 1⟩
  zmfu := Function.update st.zmfu i (some ⟨st.opened, zif⟩)
  opened := st.opened + 1
  closed := (st.zmfu i).elim st.closed fun old => old.id :: st.closed

theorem mfuMiss_some {i : Nat} {zif : Zif} (hne : (st.tmfu i).z ≠ zob)
    (hfile : zoneFile tz zifOpen zob = some zif) :
    mfuMiss tz zifOpen st zob i = (some ⟨st.opened, zif⟩, mfuOpened st zob i zif) := by
  rw [zoneFile] at hfile
  rw [mfuMiss, if_neg hne, hfile]
  rfl

/-- The file of the last slot makes room, or a free slot is filled. -/
theorem MfuFine.open (h : MfuFine tz zifOpen st k zobs) {zif : Zif}
    (hfile : zoneFile tz zifOpen zob = some zif) (hnew : ∀ n < min k 15, (st.tmfu n).z ≠ zob)
    (h0 : k < 16 → zob ≠ 0) :
    MfuFine tz zifOpen (mfuOpened st zob (min k 15) zif) (min k 15 + 1) (zobs ++ [zob]) := by
  have hle := h.le
  have hz : ∀ n, n ≠ min k 15 → ((mfuOpened st zob (min k 15) zif).tmfu n) = st.tmfu n :=
    fun n hn => Function.update_of_ne hn ..
  have hzat : ((mfuOpened st zob (min k 15) zif).tmfu (min k 15)) = ⟨zob, 1⟩ :=
    Function.update_self ..
  have hf : ∀ n, n ≠ min k 15 → ((mfuOpened st zob (min k 15) zif).zmfu n) = st.zmfu n :=
    fun n hn => Function.update_of_ne hn ..
  have hfat : ((mfuOpened st zob (min k 15) zif).zmfu (min k 15)) = some ⟨st.opened, zif⟩ :=
    Function.update_self ..
  have hclosed : ∀ n ∈ (mfuOpened st zob (min k 15) zif).closed,
      n ∈ st.closed ∨ ∃ old, st.zmfu (min k 15) = some old ∧ n = old.id := by
    intro n hn
    rw [mfuOpened] at hn
    dsimp only at hn
    cases hold : st.zmfu (min k 15) with
    | none =>
        rw [hold] at hn
        exact Or.inl hn
    | some old =>
        rw [hold] at hn
        rcases List.mem_cons.mp hn with rfl | hn
        · exact Or.inr ⟨old, rfl, rfl⟩
        · exact Or.inl hn
  have hapart : ∀ i < min k 15 + 1, ∀ j < min k 15 + 1,
      ((mfuOpened st zob (min k 15) zif).tmfu i).z = ((mfuOpened st zob (min k 15) zif).tmfu j).z →
        i = j := by
    intro i hi j hj heq
    by_cases hil : i = min k 15
    · by_cases hjl : j = min k 15
      · rw [hil, hjl]
      · rw [hil, hzat, hz j hjl] at heq
        exact absurd heq.symm (hnew j (by omega))
    · by_cases hjl : j = min k 15
      · rw [hjl, hzat, hz i hil] at heq
        exact absurd heq (hnew i (by omega))
      · rw [hz i hil, hz j hjl] at heq
        exact h.apart i (by omega) j (by omega) heq
  refine ⟨by omega, fun i hi hi15 => ?_, fun i hi => ?_, fun i hi => ?_, fun i f hif => ?_,
    fun n hn => ?_, fun i j f g hif hjg hid => ?_, hapart, fun hk z => ?_, fun hk => ?_⟩
  · by_cases hil : i = min k 15
    · rw [hil, hzat]
      exact h0 (by omega)
    · rw [hz i hil]
      exact h.used i (by omega) hi15
  · rw [hz i (by omega), hf i (by omega)]
    exact h.free i (by omega)
  · by_cases hil : i = min k 15
    · rw [hil, hzat, hfat]
      exact ⟨_, rfl, hfile⟩
    · rw [hz i hil, hf i hil]
      exact h.file i (by omega)
  · by_cases hil : i = min k 15
    · rw [hil, hfat] at hif
      obtain rfl := Option.some.inj hif
      refine ⟨Nat.lt_succ_self _, fun hc => ?_⟩
      rcases hclosed _ hc with hc | ⟨old, hold, hid⟩
      · exact absurd (h.closed _ hc) (Nat.lt_irrefl _)
      · have hlt := (h.opened _ _ hold).1
        dsimp only at hid
        omega
    · rw [hf i hil] at hif
      obtain ⟨hlt, hopen⟩ := h.opened i f hif
      refine ⟨Nat.lt_succ_of_lt hlt, fun hc => ?_⟩
      rcases hclosed _ hc with hc | ⟨old, hold, hid⟩
      · exact hopen hc
      · exact hil (h.once i _ f old hif hold hid)
  · rcases hclosed n hn with hc | ⟨old, hold, rfl⟩
    · exact Nat.lt_succ_of_lt (h.closed n hc)
    · exact Nat.lt_succ_of_lt (h.opened _ _ hold).1
  · by_cases hil : i = min k 15
    · by_cases hjl : j = min k 15
      · rw [hil, hjl]
      · rw [hil, hfat] at hif
        rw [hf j hjl] at hjg
        have hlt := (h.opened j g hjg).1
        rw [← hid, ← Option.some.inj hif] at hlt
        exact absurd hlt (Nat.lt_irrefl _)
    · by_cases hjl : j = min k 15
      · rw [hjl, hfat] at hjg
        rw [hf i hil] at hif
        have hlt := (h.opened i f hif).1
        rw [hid, ← Option.some.inj hjg] at hlt
        exact absurd hlt (Nat.lt_irrefl _)
      · rw [hf i hil] at hif
        rw [hf j hjl] at hjg
        exact h.once i j f g hif hjg hid
  · -- there are free slots, and this was the first of them
    have hmin : min k 15 = k := by omega
    rw [zonesFiled_append, List.mem_append, h.few (by omega) z]
    constructor
    · rintro (⟨i, hi, rfl⟩ | hz')
      · exact ⟨i, by omega, by rw [hz i (by omega)]⟩
      · obtain ⟨hmem, -⟩ := mem_zonesFiled.mp hz'
        obtain rfl := List.mem_singleton.mp hmem
        exact ⟨min k 15, by omega, by rw [hzat]⟩
    · rintro ⟨i, hi, rfl⟩
      by_cases hil : i = min k 15
      · rw [hil, hzat]
        refine Or.inr (mem_zonesFiled.mpr ⟨List.mem_singleton.mpr rfl, h0 (by omega), ?_⟩)
        rw [hfile]
        rfl
      · exact Or.inl ⟨i, by omega, by rw [hz i hil]⟩
  · rw [zonesFiled_append]
    by_cases hfull : k = 16
    · exact (h.many hfull).trans (length_dedup_le fun z hz => List.mem_append_left _ hz)
    · have hmin : min k 15 = k := by omega
      refine hk ▸ le_length_dedup hapart fun i hi => List.mem_append.mpr ?_
      by_cases hil : i = min k 15
      · rw [hil, hzat]
        refine Or.inr (mem_zonesFiled.mpr ⟨List.mem_singleton.mpr rfl, h0 (by omega), ?_⟩)
        rw [hfile]
        rfl
      · rw [hz i hil]
        exact Or.inl ((h.few (by omega) _).mpr ⟨i, by omega, rfl⟩)

/-- What comes of one request: the file of the handle, unless that is 0 and there are free
slots. -/
theorem MfuFine.step (h : MfuFine tz zifOpen st k zobs) (zob : Nat) :
    (∃ k', MfuFine tz zifOpen (tzobZif tz zifOpen st zob).2 k' (zobs ++ [zob])) ∧
      (∀ f, (tzobZif tz zifOpen st zob).1 = some f →
        ∃ i, (tzobZif tz zifOpen st zob).2.zmfu i = some f) ∧
      (tzobZif tz zifOpen st zob).1.map OpenZif.zif =
        if zob = 0 ∧ k < 16 then none else zoneFile tz zifOpen zob := by
  have hle := h.le
  rw [tzobZif]
  rcases h.loop zob with ⟨i, hloop, hik, hi15, hz, h0⟩ | ⟨hloop, hnew⟩
  · rw [hloop]
    dsimp only
    rw [if_pos rfl]
    obtain ⟨hfine, hres, j, hj⟩ := h.hit hik hi15
    obtain ⟨f, hf, hfile⟩ := h.file i hik
    have hkeep : k < 16 → zob ≠ 0 → (zoneFile tz zifOpen zob).isSome →
        ∃ n < k, ((mfuHit st i).2.tmfu n).z = zob := fun hk _ _ =>
      (hfine.few hk zob).mp ((h.few hk zob).mpr ⟨i, hik, hz⟩)
    refine ⟨⟨k, hfine.keep hkeep⟩, fun g hg => ⟨j, hj.trans (hres.symm.trans hg)⟩, ?_⟩
    rw [hres, hf, if_neg fun hc => h0 hc.1, ← hz, hfile]
    rfl
  · rw [hloop]
    dsimp only
    rw [if_neg Bool.false_ne_true]
    by_cases hz : (st.tmfu (min k 15)).z = zob
    · rw [mfuMiss, if_pos hz]
      dsimp only
      by_cases hfull : k = 16
      · obtain ⟨f, hf, hfile⟩ := h.file (min k 15) (by omega)
        refine ⟨⟨k, h.keep fun hk => by omega⟩, fun g hg => ⟨_, hg⟩, ?_⟩
        rw [hf, if_neg fun hc => absurd hc.2 (by omega), ← hz, hfile]
        rfl
      · -- a free slot is taken for that of handle 0
        obtain ⟨hz0, hnone⟩ := h.free (min k 15) (by omega)
        have h0 : zob = 0 := hz.symm.trans hz0
        refine ⟨⟨k, h.keep fun _ hne => absurd h0 hne⟩, fun g hg => ⟨_, hg⟩, ?_⟩
        rw [hnone, if_pos ⟨h0, by omega⟩]
        rfl
    · cases hfile : zoneFile tz zifOpen zob with
      | none =>
          have hmiss : mfuMiss tz zifOpen st zob (min k 15) = (none, st) := by
            rw [zoneFile] at hfile
            rw [mfuMiss, if_neg hz, hfile]
          rw [hmiss]
          refine ⟨⟨k, h.keep fun _ _ hsome => ?_⟩, fun g hg => (nomatch hg), ?_⟩
          · rw [hfile] at hsome
            exact absurd hsome Bool.false_ne_true
          · rw [ite_self]
            rfl
      | some zif =>
          have h0 : k < 16 → zob ≠ 0 := fun hk heq =>
            hz ((h.free (min k 15) (by omega)).1.trans heq.symm)
          rw [mfuMiss_some hz hfile]
          refine ⟨⟨_, h.open hfile hnew h0⟩, fun g hg => ⟨min k 15, ?_⟩, ?_⟩
          · exact (Function.update_self ..).trans hg
          · rw [if_neg fun hc => h0 hc.2 hc.1]
            rfl

end

/-! ### Runs -/

section

variable (tz : Tzobs) (zifOpen : List Char → Option Zif)

theorem tzobZifs_concat (zobs : List Nat) (zob : Nat) : tzobZifs tz zifOpen (zobs ++ [zob]) =
    (tzobZif tz zifOpen (tzobZifs tz zifOpen zobs) zob).2 := by
  rw [tzobZifs, List.foldl_append]
  rfl

theorem exists_mfuFine (zobs : List Nat) :
    ∃ k, MfuFine tz zifOpen (tzobZifs tz zifOpen zobs) k zobs := by
  induction zobs using List.reverseRecOn with
  | nil => exact ⟨0, mfuFine_init⟩
  | append_singleton zobs zob ih =>
      obtain ⟨k, h⟩ := ih
      rw [tzobZifs_concat]
      exact (h.step zob).1

/-- What is expected of the cache over a sequence of requests: what is returned is the file of the
handle, if there is one, and it is open, and so are all the files in the cache. -/
def ZifsRight (zobs : List Nat) : Prop :=
  ∀ pre zob post, zobs = pre ++ zob :: post →
    (tzobZif tz zifOpen (tzobZifs tz zifOpen pre) zob).1.map OpenZif.zif = zoneFile tz zifOpen zob ∧
    (∀ f, (tzobZif tz zifOpen (tzobZifs tz zifOpen pre) zob).1 = some f →
      f.id ∉ (tzobZif tz zifOpen (tzobZifs tz zifOpen pre) zob).2.closed) ∧
    ∀ i f, (tzobZif tz zifOpen (tzobZifs tz zifOpen pre) zob).2.zmfu i = some f →
      f.id ∉ (tzobZif tz zifOpen (tzobZifs tz zifOpen pre) zob).2.closed

/-- **The cache of zone files** is as it should be if and only if whenever UTC is asked for there
is no file for it, or there have been 16 other zones' files. -/
theorem zifs_right_iff (zobs : List Nat) : ZifsRight tz zifOpen zobs ↔
    ∀ pre post, zobs = pre ++ 0 :: post →
      zoneFile tz zifOpen 0 = none ∨ 16 ≤ (zonesFiled tz zifOpen pre).dedup.length := by
  constructor
  · rintro hright pre post heq
    obtain ⟨k, h⟩ := exists_mfuFine tz zifOpen pre
    obtain ⟨hfile, -⟩ := hright pre 0 post heq
    rw [(h.step 0).2.2] at hfile
    by_cases hk : k = 16
    · exact Or.inr (h.full_iff.mp hk)
    · have hle := h.le
      rw [if_pos ⟨rfl, by omega⟩] at hfile
      exact Or.inl hfile.symm
  · intro hutc pre zob post heq
    obtain ⟨k, h⟩ := exists_mfuFine tz zifOpen pre
    obtain ⟨⟨k', h'⟩, hcached, hfile⟩ := h.step zob
    have hopen : ∀ i f, (tzobZif tz zifOpen (tzobZifs tz zifOpen pre) zob).2.zmfu i = some f →
        f.id ∉ (tzobZif tz zifOpen (tzobZifs tz zifOpen pre) zob).2.closed := fun i f hf =>
      (h'.opened i f hf).2
    refine ⟨?_, fun f hf => ?_, hopen⟩
    · rw [hfile]
      split
      · rename_i hzero
        obtain ⟨rfl, hk⟩ := hzero
        rcases hutc pre post heq with hnone | hmany
        · exact hnone.symm
        · have := h.full_iff.mpr hmany
          omega
      · rfl
    · obtain ⟨i, hi⟩ := hcached f hf
      exact hopen i f hi

end

/-- UTC has a file, but it is not what is returned. -/
theorem zifs_wrong_utc : ¬ ∀ (tz : Tzobs) (zifOpen : List Char → Option Zif) (zobs : List Nat),
    ZifsRight tz zifOpen zobs := by
  intro hall
  have hfile := (hall .init (fun _ => some ⟨[], [], [0], .utc⟩) [0] [] 0 [] rfl).1
  cases hfile

end Echse
