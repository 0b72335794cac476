/-
The table of tasks.

Its size is a power of two, and an id is kept where its low bits say.  Two ids that
collide are told apart by a table that looks at one more bit than they have in common;
and as that keeps apart what was apart, no other two collide in it.
-/
import Echse.TaskPool

namespace Echse

/-- Every entry is at its place. -/
structure TableOk (ht : List TMap) : Prop where
  len : ∃ k, ht.length = 2 ^ k
  home : ∀ k, (htAt ht k).oid ≠ 0 → htSlot ht.length (htAt ht k).oid = k
  lt : ∀ k, (htAt ht k).oid < 2 ^ 64
  task : ∀ k, (htAt ht k).oid = 0 ↔ (htAt ht k).t = none

theorem htSlot_pow (k oid : Nat) : htSlot (2 ^ k) oid = oid % 2 ^ k :=
  Nat.and_two_pow_sub_one_eq_mod oid k

theorem htAt_replicate (z k : Nat) : htAt (List.replicate z .empty) k = .empty := by
  unfold htAt
  rw [List.getD_eq_getElem?_getD, List.getElem?_replicate]
  split <;> rfl

theorem tableOk_ini : TableOk TaskPool.ini.taskHt := by
  have h : ∀ k, htAt TaskPool.ini.taskHt k = .empty := htAt_replicate 16
  refine ⟨⟨4, rfl⟩, fun k hk => ?_, fun k => ?_, fun k => ?_⟩
  · rw [h k] at hk
    exact absurd rfl hk
  · rw [h k]
    decide
  · rw [h k]
    decide

theorem htAt_set (ht : List TMap) {k : Nat} (hk : k < ht.length) (m : TMap) (j : Nat) :
    htAt (ht.set k m) j = if j = k then m else htAt ht j := by
  unfold htAt
  rw [List.getD_eq_getElem?_getD, List.getD_eq_getElem?_getD, List.getElem?_set]
  by_cases h : j = k
  · rw [if_pos h.symm, if_pos h, if_pos hk]
    rfl
  · rw [if_neg (Ne.symm h), if_neg h]

theorem htAt_of_ge {ht : List TMap} {k : Nat} (h : ht.length ≤ k) : htAt ht k = .empty := by
  unfold htAt
  rw [List.getD_eq_getElem?_getD, List.getElem?_eq_none h]
  rfl

theorem htAt_eq_getElem {ht : List TMap} {k : Nat} (h : k < ht.length) : htAt ht k = ht[k] := by
  unfold htAt
  rw [List.getD_eq_getElem?_getD, List.getElem?_eq_getElem h]
  rfl

namespace TableOk

variable {ht : List TMap} (h : TableOk ht)
include h

theorem slot_lt (oid : Nat) : htSlot ht.length oid < ht.length := by
  obtain ⟨k, hk⟩ := h.len
  rw [hk, htSlot_pow]
  exact Nat.mod_lt _ (Nat.two_pow_pos k)

/-- Taking an entry out. -/
theorem erase (k : Nat) : TableOk (ht.set k .empty) := by
  by_cases hk : k < ht.length
  · obtain ⟨j, hj⟩ := h.len
    refine ⟨⟨j, by rw [List.length_set, hj]⟩, fun i hi => ?_, fun i => ?_, fun i => ?_⟩
    · rw [htAt_set ht hk] at hi ⊢
      rw [List.length_set]
      by_cases hik : i = k
      · rw [if_pos hik] at hi
        exact absurd rfl hi
      · rw [if_neg hik] at hi ⊢
        exact h.home i hi
    · rw [htAt_set ht hk]
      split
      · decide
      · exact h.lt i
    · rw [htAt_set ht hk]
      split
      · exact ⟨fun _ => rfl, fun _ => rfl⟩
      · exact h.task i
  · rw [List.set_eq_of_length_le (by omega)]
    exact h

/-- Putting an entry in, at its place. -/
theorem insert {oid : Nat} (i : Nat) (h0 : oid ≠ 0) (hlt : oid < 2 ^ 64) :
    TableOk (ht.set (htSlot ht.length oid) ⟨oid, some i⟩) := by
  have hk := h.slot_lt oid
  obtain ⟨j, hj⟩ := h.len
  refine ⟨⟨j, by rw [List.length_set, hj]⟩, fun k hi => ?_, fun k => ?_, fun k => ?_⟩
  · rw [htAt_set ht hk] at hi ⊢
    rw [List.length_set]
    by_cases hik : k = htSlot ht.length oid
    · rw [if_pos hik]
      exact hik.symm
    · rw [if_neg hik] at hi ⊢
      exact h.home k hi
  · rw [htAt_set ht hk]
    split
    · exact hlt
    · exact h.lt k
  · rw [htAt_set ht hk]
    split
    · exact ⟨fun hc => absurd hc h0, fun hc => (nomatch hc)⟩
    · exact h.task k

end TableOk

/-! ### Looking up -/

/-- What `get_task` finds. -/
theorem getTask_iff {p : TaskPool} (h : TableOk p.taskHt) {oid i : Nat} :
    getTask p oid = some i ↔
      oid ≠ 0 ∧ htAt p.taskHt (htSlot p.taskHt.length oid) = ⟨oid, some i⟩ := by
  have hlt := h.slot_lt oid
  unfold getTask getTaskSlot
  dsimp only
  by_cases hs : (htAt p.taskHt (htSlot p.taskHt.length oid)).oid = oid
  · rw [if_pos ⟨hlt, hs⟩]
    dsimp only
    by_cases h0 : oid = 0
    · rw [if_pos (hs.trans h0)]
      exact ⟨fun hc => (nomatch hc), fun hc => absurd h0 hc.1⟩
    · rw [if_neg (fun hc => h0 (hs.symm.trans hc))]
      constructor
      · intro ht
        refine ⟨h0, ?_⟩
        have hm : htAt p.taskHt (htSlot p.taskHt.length oid) =
          ⟨(htAt p.taskHt (htSlot p.taskHt.length oid)).oid,
            (htAt p.taskHt (htSlot p.taskHt.length oid)).t⟩ := rfl
        rw [hm, hs, ht]
      · intro hm
        rw [hm.2]
  · rw [if_neg (fun hc => hs hc.2)]
    constructor
    · intro hc
      cases hc
    · intro hm
      rw [hm.2] at hs
      exact absurd rfl hs

/-- It finds what the table has, wherever that is. -/
theorem getTask_iff_entry {p : TaskPool} (h : TableOk p.taskHt) {oid i : Nat} :
    getTask p oid = some i ↔ oid ≠ 0 ∧ ∃ k, htAt p.taskHt k = ⟨oid, some i⟩ := by
  rw [getTask_iff h]
  refine and_congr_right fun h0 => ⟨fun hk => ⟨_, hk⟩, fun ⟨k, hk⟩ => ?_⟩
  have hhome := h.home k (by rw [hk]; exact h0)
  rw [hk] at hhome
  rw [hhome, hk]

/-! ### Growing -/

/-- One entry on its way to another table. -/
def rehash (z : Nat) (nut : List TMap) (m : TMap) : List TMap :=
  if m.oid ≠ 0 then nut.set (htSlot z m.oid) m else nut

theorem htResize_eq (ht : List TMap) (z : Nat) :
    htResize ht z = ht.foldl (rehash z) (List.replicate z .empty) := rfl

theorem rehash_length (z : Nat) (nut : List TMap) (m : TMap) :
    (rehash z nut m).length = nut.length := by
  unfold rehash
  split
  · exact List.length_set
  · rfl

theorem foldl_rehash_length (z : Nat) (l : List TMap) :
    ∀ nut, (l.foldl (rehash z) nut).length = nut.length := by
  induction l with
  | nil => intro nut; rfl
  | cons m l ih =>
      intro nut
      rw [List.foldl_cons, ih, rehash_length]

/-- A place that no entry goes to is left as it was. -/
theorem foldl_rehash_of_ne (z k : Nat) (l : List TMap) :
    (∀ m ∈ l, m.oid ≠ 0 → htSlot z m.oid ≠ k) →
      ∀ nut, htAt (l.foldl (rehash z) nut) k = htAt nut k := by
  induction l with
  | nil => intro _ nut; rfl
  | cons m l ih =>
      intro h nut
      rw [List.foldl_cons, ih fun m' hm' => h m' (List.mem_cons_of_mem _ hm')]
      unfold rehash
      split
      · rename_i hm
        have hne := h m (List.mem_cons_self ..) hm
        by_cases hlt : htSlot z m.oid < nut.length
        · rw [htAt_set nut hlt, if_neg (Ne.symm hne)]
        · rw [List.set_eq_of_length_le (by omega)]
      · rfl

/-- An entry that no other goes to the place of gets there. -/
theorem foldl_rehash_of_mem (z : Nat) (l : List TMap) :
    (l.Pairwise fun m m' => m.oid ≠ 0 → m'.oid ≠ 0 → htSlot z m.oid ≠ htSlot z m'.oid) →
      ∀ m ∈ l, m.oid ≠ 0 → ∀ nut : List TMap, htSlot z m.oid < nut.length →
        htAt (l.foldl (rehash z) nut) (htSlot z m.oid) = m := by
  induction l with
  | nil => intro _ m hm; cases hm
  | cons m' l ih =>
      intro hp m hm h0 nut hlt
      obtain ⟨hp', hp⟩ := List.pairwise_cons.mp hp
      rw [List.foldl_cons]
      rcases List.mem_cons.mp hm with rfl | hm
      · rw [foldl_rehash_of_ne z _ l fun x hx hx0 => Ne.symm (hp' x hx h0 hx0)]
        unfold rehash
        rw [if_pos h0, htAt_set nut hlt, if_pos rfl]
      · exact ih hp m hm h0 _ (by rw [rehash_length]; exact hlt)

/-- The lowest bit of a word that is not 0. -/
theorem ctzll_spec {n : Nat} (h0 : n ≠ 0) (hlt : n < 2 ^ 64) :
    n.testBit (ctzll n) = true ∧ ∀ i < ctzll n, n.testBit i = false := by
  obtain ⟨i, hi⟩ := Nat.exists_testBit_of_ne_zero h0
  have hi64 : i < 64 := by
    by_contra hc
    have hle : (2 : Nat) ^ 64 ≤ 2 ^ i := Nat.pow_le_pow_right (by decide) (by omega)
    rw [Nat.testBit_lt_two_pow (Nat.lt_of_lt_of_le hlt hle)] at hi
    cases hi
  unfold ctzll
  cases hf : (List.range 64).find? n.testBit with
  | none =>
      have hnone := List.find?_eq_none.mp hf i (List.mem_range.mpr hi64)
      rw [hi] at hnone
      exact absurd rfl hnone
  | some j =>
      obtain ⟨hj, -, hmin⟩ := List.find?_range_eq_some.mp hf
      exact ⟨hj, fun k hk => by simpa using hmin k hk⟩

/-- Ids that a larger table does not tell apart collide in a smaller one. -/
theorem htSlot_mono {k k' a b : Nat} (h : k ≤ k') (hab : htSlot (2 ^ k') a = htSlot (2 ^ k') b) :
    htSlot (2 ^ k) a = htSlot (2 ^ k) b := by
  rw [htSlot_pow, htSlot_pow] at hab ⊢
  have hd : 2 ^ k ∣ 2 ^ k' := Nat.pow_dvd_pow 2 h
  rw [← Nat.mod_mod_of_dvd a hd, ← Nat.mod_mod_of_dvd b hd, hab]

theorem mem_of_htAt {ht : List TMap} {i : Nat} (h0 : (htAt ht i).oid ≠ 0) : htAt ht i ∈ ht := by
  by_cases hi : i < ht.length
  · rw [htAt_eq_getElem hi]
    exact List.getElem_mem hi
  · rw [htAt_of_ge (by omega)] at h0
    exact absurd rfl h0

theorem exists_htAt {ht : List TMap} {m : TMap} (h : m ∈ ht) : ∃ i, htAt ht i = m := by
  obtain ⟨i, hi, rfl⟩ := List.getElem_of_mem h
  exact ⟨i, htAt_eq_getElem hi⟩

section Resize

variable {ht : List TMap} (h : TableOk ht) {k k' : Nat} (hlen : ht.length = 2 ^ k) (hk : k ≤ k')
include h hlen hk

/-- No two entries collide in a larger table. -/
theorem pairwise_apart : ht.Pairwise fun m m' => m.oid ≠ 0 → m'.oid ≠ 0 →
    htSlot (2 ^ k') m.oid ≠ htSlot (2 ^ k') m'.oid := by
  rw [List.pairwise_iff_getElem]
  intro i j hi hj hij h0 h0' hc
  rw [← htAt_eq_getElem hi] at h0 hc
  rw [← htAt_eq_getElem hj] at h0' hc
  have hs := htSlot_mono hk hc
  rw [← hlen, h.home i h0, h.home j h0'] at hs
  omega

theorem htResize_of_mem {i : Nat} (h0 : (htAt ht i).oid ≠ 0) :
    htAt (htResize ht (2 ^ k')) (htSlot (2 ^ k') (htAt ht i).oid) = htAt ht i := by
  rw [htResize_eq]
  refine foldl_rehash_of_mem _ _ (pairwise_apart h hlen hk) _ (mem_of_htAt h0) h0 _ ?_
  rw [List.length_replicate, htSlot_pow]
  exact Nat.mod_lt _ (Nat.two_pow_pos k')

omit h hlen hk in
theorem htResize_of_ne {j : Nat}
    (hj : ∀ i, (htAt ht i).oid ≠ 0 → htSlot (2 ^ k') (htAt ht i).oid ≠ j) :
    htAt (htResize ht (2 ^ k')) j = .empty := by
  rw [htResize_eq, foldl_rehash_of_ne, htAt_replicate]
  intro m hm h0
  obtain ⟨i, rfl⟩ := exists_htAt hm
  exact hj i h0

/-- A place of the larger table holds an entry of the old one, or none. -/
theorem htResize_cases (j : Nat) :
    (∃ i, (htAt ht i).oid ≠ 0 ∧ htSlot (2 ^ k') (htAt ht i).oid = j ∧
      htAt (htResize ht (2 ^ k')) j = htAt ht i) ∨
    htAt (htResize ht (2 ^ k')) j = .empty := by
  by_cases hj : ∃ i, (htAt ht i).oid ≠ 0 ∧ htSlot (2 ^ k') (htAt ht i).oid = j
  · obtain ⟨i, h0, rfl⟩ := hj
    exact Or.inl ⟨i, h0, rfl, htResize_of_mem h hlen hk h0⟩
  · exact Or.inr (htResize_of_ne fun i h0 hc => hj ⟨i, h0, hc⟩)

theorem htResize_ok : TableOk (htResize ht (2 ^ k')) := by
  have hz : (htResize ht (2 ^ k')).length = 2 ^ k' := by
    rw [htResize_eq, foldl_rehash_length, List.length_replicate]
  refine ⟨⟨k', hz⟩, fun j h0 => ?_, fun j => ?_, fun j => ?_⟩
  · rw [hz]
    rcases htResize_cases h hlen hk j with ⟨i, -, hs, hm⟩ | hm
    · rw [hm, hs]
    · rw [hm] at h0
      exact absurd rfl h0
  · rcases htResize_cases h hlen hk j with ⟨i, -, -, hm⟩ | hm
    · rw [hm]
      exact h.lt i
    · rw [hm]
      decide
  · rcases htResize_cases h hlen hk j with ⟨i, -, -, hm⟩ | hm
    · rw [hm]
      exact h.task i
    · rw [hm]
      decide

theorem htResize_mem {m : TMap} (h0 : m.oid ≠ 0) :
    (∃ j, htAt (htResize ht (2 ^ k')) j = m) ↔ ∃ i, htAt ht i = m := by
  constructor
  · rintro ⟨j, rfl⟩
    rcases htResize_cases h hlen hk j with ⟨i, -, -, hm⟩ | hm
    · exact ⟨i, hm.symm⟩
    · rw [hm] at h0
      exact absurd rfl h0
  · rintro ⟨i, rfl⟩
    exact ⟨_, htResize_of_mem h hlen hk h0⟩

end Resize

/-- Ids that collide differ in a bit that the table does not look at. -/
theorem le_ctzll {k a b : Nat} (ha : a < 2 ^ 64) (hb : b < 2 ^ 64) (hne : a ≠ b)
    (hsame : a % 2 ^ k = b % 2 ^ k) : k ≤ ctzll (a ^^^ b) := by
  have hx0 : a ^^^ b ≠ 0 := fun hc => hne (Nat.xor_eq_zero_iff.mp hc)
  obtain ⟨hbit, -⟩ := ctzll_spec hx0 (Nat.xor_lt_two_pow ha hb)
  generalize ctzll (a ^^^ b) = j at *
  by_contra hc
  have hj := congrArg (Nat.testBit · j) hsame
  simp only [Nat.testBit_mod_two_pow] at hj
  rw [Nat.testBit_xor] at hbit
  have hjk : j < k := by omega
  simp [hjk] at hj
  simp [hj] at hbit

/-- **What `put_task_slot` finds for an id that is not in the table**: an empty place, in
a table that has all the entries there were. -/
theorem putTaskSlot_spec {mem : Nat → Bool} {ht ht' : List TMap} {oid slot : Nat}
    (h : TableOk ht) (hlt : oid < 2 ^ 64)
    (hnew : (htAt ht (htSlot ht.length oid)).oid ≠ oid)
    (hp : putTaskSlot mem ht oid = some (ht', slot)) :
    TableOk ht' ∧ slot = htSlot ht'.length oid ∧ htAt ht' slot = .empty ∧
      ∀ m : TMap, m.oid ≠ 0 → ((∃ j, htAt ht' j = m) ↔ ∃ i, htAt ht i = m) := by
  obtain ⟨k, hlen⟩ := h.len
  unfold putTaskSlot at hp
  dsimp only at hp
  generalize hm : htAt ht (htSlot ht.length oid) = m at hp hnew
  by_cases hz : m.oid = 0
  · rw [if_pos hz] at hp
    obtain ⟨rfl, rfl⟩ := Prod.mk.inj (Option.some.inj hp)
    refine ⟨h, rfl, ?_, fun _ _ => Iff.rfl⟩
    have ht := (h.task (htSlot ht.length oid)).mp (by rw [hm]; exact hz)
    rw [hm] at ht ⊢
    obtain ⟨o, t⟩ := m
    obtain rfl : o = 0 := hz
    obtain rfl : t = none := ht
    rfl
  · rw [if_neg hz, if_neg hnew] at hp
    split at hp
    · obtain ⟨rfl, rfl⟩ := Prod.mk.inj (Option.some.inj hp)
      have hmlt : m.oid < 2 ^ 64 := hm ▸ h.lt _
      have hx0 : m.oid ^^^ oid ≠ 0 := fun hc => hnew (Nat.xor_eq_zero_iff.mp hc)
      obtain ⟨hbit, -⟩ := ctzll_spec hx0 (Nat.xor_lt_two_pow hmlt hlt)
      -- the colliding ids have the low bits in common
      have hsame : m.oid % 2 ^ k = oid % 2 ^ k := by
        have hh := h.home _ (by rw [hm]; exact hz)
        rw [hm, hlen, htSlot_pow, htSlot_pow] at hh
        exact hh
      have hkj := le_ctzll hmlt hlt hnew hsame
      generalize ctzll (m.oid ^^^ oid) = j at *
      have hk : k ≤ j + 1 := by omega
      have hok := htResize_ok h hlen hk
      have hz' : (htResize ht (2 ^ (j + 1))).length = 2 ^ (j + 1) := by
        rw [htResize_eq, foldl_rehash_length, List.length_replicate]
      refine ⟨hok, by rw [hz'], ?_, fun _ hm0 => htResize_mem h hlen hk hm0⟩
      refine htResize_of_ne fun i hi0 hc => ?_
      -- an entry that goes to this place has been in the place of `m`
      have hs := htSlot_mono hk hc
      rw [← hlen, h.home i hi0] at hs
      subst hs
      rw [hm] at hc
      have hb := congrArg (Nat.testBit · j) hc
      simp only [htSlot_pow, Nat.testBit_mod_two_pow] at hb
      rw [Nat.testBit_xor] at hbit
      simp at hb
      simp [hb] at hbit
    · cases hp

/-- **No assertion of `put_task_slot` fires** for ids with a clear top bit. -/
theorem putTaskSlot_asserts {ht : List TMap} {oid : Nat} (h : TableOk ht) (hlt : oid < 2 ^ 63)
    (hnew : (htAt ht (htSlot ht.length oid)).oid ≠ oid)
    (hold : ∀ k, (htAt ht k).oid < 2 ^ 63) : putTaskSlotAsserts ht oid = true := by
  obtain ⟨k, hlen⟩ := h.len
  have hold' := hold (htSlot ht.length oid)
  unfold putTaskSlotAsserts
  dsimp only
  by_cases hz : (htAt ht (htSlot ht.length oid)).oid = 0
  · rw [if_pos hz]
  rw [if_neg hz, if_neg hnew]
  have hx0 : (htAt ht (htSlot ht.length oid)).oid ^^^ oid ≠ 0 :=
    fun hc => hnew (Nat.xor_eq_zero_iff.mp hc)
  obtain ⟨hbit, -⟩ := ctzll_spec hx0 (Nat.xor_lt_two_pow (by omega) (by omega))
  have hshift : ctzll ((htAt ht (htSlot ht.length oid)).oid ^^^ oid) < 63 := by
    by_contra hc
    have hpow := Nat.pow_le_pow_right (show 0 < 2 by decide) (Nat.le_of_not_lt hc)
    rw [Nat.testBit_lt_two_pow (Nat.lt_of_lt_of_le (Nat.xor_lt_two_pow hold' hlt) hpow)] at hbit
    exact absurd hbit (by decide)
  have hlarger : k ≤ ctzll ((htAt ht (htSlot ht.length oid)).oid ^^^ oid) := by
    refine le_ctzll (by omega) (by omega) hnew ?_
    have hhome := h.home _ hz
    generalize (htAt ht (htSlot ht.length oid)).oid = o at hhome ⊢
    rwa [hlen, htSlot_pow, htSlot_pow] at hhome
  have hput : putTaskSlot (fun _ => true) ht oid =
      some (htResize ht (2 ^ (ctzll ((htAt ht (htSlot ht.length oid)).oid ^^^ oid) + 1)),
        htSlot (2 ^ (ctzll ((htAt ht (htSlot ht.length oid)).oid ^^^ oid) + 1)) oid) := by
    unfold putTaskSlot
    dsimp only
    rw [if_neg hz, if_neg hnew, if_pos rfl]
  obtain ⟨-, -, hempty, -⟩ := putTaskSlot_spec h (by omega) hnew hput
  generalize ctzll ((htAt ht (htSlot ht.length oid)).oid ^^^ oid) = j at *
  have hgrow : ht.length < 2 ^ (j + 1) := by
    rw [hlen]
    exact Nat.pow_lt_pow_right (by decide) (by omega)
  simp only [Bool.and_eq_true, decide_eq_true_eq, beq_iff_eq]
  exact ⟨⟨by omega, hgrow⟩, by rw [hempty]; rfl⟩

end Echse
