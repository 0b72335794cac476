/-
How large the table of `echse.c` gets, and what becomes of its tasks.

The table is doubled while two ids share a slot, and only then.  So in the end its size is the
least power of two under which no two ids do, whatever the order in which they come, and that is
what there has to be memory for.
-/
import Echse.Proofs.Unroll

namespace Echse.Unroll

variable {strm : Nat → Option Nat} {calloc realloc : Nat → Bool} {st st' : Unroll}
  {ins all : List (Nat × Nat)} {c : Nat × Nat} {j k : Nat}

/-! ### Ids that are apart -/

/-- No two ids share a slot in a table of 2 to the `k`. -/
def Apart (ins : List (Nat × Nat)) (k : Nat) : Prop :=
  ∀ c ∈ ins, ∀ c' ∈ ins, c.1 ≠ 0 → c'.1 ≠ 0 → c.1 % 2 ^ k = c'.1 % 2 ^ k → c.1 = c'.1

theorem Apart.mono (hjk : j ≤ k) (h : Apart ins j) : Apart ins k := by
  intro c hc c' hc' h0 h0' heq
  apply h c hc c' hc' h0 h0'
  rw [← Nat.mod_mod_of_dvd c.1 (pow_dvd_pow 2 hjk), heq, Nat.mod_mod_of_dvd _ (pow_dvd_pow 2 hjk)]

theorem Apart.subset (hsub : ins ⊆ all) (h : Apart all k) : Apart ins k := by
  intro c hc c' hc'
  exact h c (hsub hc) c' (hsub hc')

/-- A task without an id needs no slot. -/
theorem apart_concat_zero (h0 : c.1 = 0) : Apart (ins ++ [c]) k ↔ Apart ins k := by
  constructor
  · exact Apart.subset (List.subset_append_left ins [c])
  · intro h a ha b hb ha0 hb0
    have hin : ∀ d ∈ ins ++ [c], d.1 ≠ 0 → d ∈ ins := by
      intro d hd hd0
      rcases List.mem_append.mp hd with hd | hd
      · exact hd
      · exact absurd (List.mem_singleton.mp hd ▸ h0) hd0
    exact h a (hin a ha ha0) b (hin b hb hb0) ha0 hb0

/-- The table has the ids of `ins`, and is no larger than the ids of `all` need it to be. -/
structure Sized (calloc : Nat → Bool) (ht : List TMap) (ins all : List (Nat × Nat)) (k : Nat) :
    Prop where
  ok : TableOk ht
  len : ht.length = 2 ^ k
  two : 2 ≤ k
  ids : ∀ oid, oid ≠ 0 → ((∃ i, (htAt ht i).oid = oid) ↔ ∃ c ∈ ins, c.1 = oid)
  least : ∀ j, 2 ≤ j → Apart all j → k ≤ j
  mem : ∀ j, 2 ≤ j → j ≤ k → callocHt calloc (2 ^ j) = true

/-- The entry of an id is in its slot. -/
theorem Sized.entry (h : Sized calloc st.taskHt ins all k) (hc : c ∈ ins) (h0 : c.1 ≠ 0) :
    (htAt st.taskHt (c.1 % 2 ^ k)).oid = c.1 := by
  obtain ⟨i, hi⟩ := (h.ids c.1 h0).mpr ⟨c, hc, rfl⟩
  have hhome := h.ok.home i (by rw [hi]; exact h0)
  rw [hi, h.len, htSlot_pow] at hhome
  rw [hhome, hi]

theorem Sized.apart (h : Sized calloc st.taskHt ins all k) : Apart ins k := by
  intro c hc c' hc' h0 h0' heq
  rw [← h.entry hc h0, heq, h.entry hc' h0']

/-- An id whose slot is free, or has it, is apart from the others. -/
theorem Sized.apart_concat (h : Sized calloc st.taskHt ins all k)
    (hslot : (htAt st.taskHt (c.1 % 2 ^ k)).oid = 0 ∨ (htAt st.taskHt (c.1 % 2 ^ k)).oid = c.1) :
    Apart (ins ++ [c]) k := by
  have hnew : ∀ c' ∈ ins, c'.1 ≠ 0 → c'.1 % 2 ^ k = c.1 % 2 ^ k → c'.1 = c.1 := by
    intro c' hc' h0' heq
    have hentry := h.entry hc' h0'
    rw [heq] at hentry
    rcases hslot with hz | hsame
    · exact absurd (hentry.symm.trans hz) h0'
    · exact hentry.symm.trans hsame
  intro a ha b hb ha0 hb0 heq
  rcases List.mem_append.mp ha with hain | hac <;> rcases List.mem_append.mp hb with hbin | hbc
  · exact h.apart a hain b hbin ha0 hb0 heq
  · obtain rfl := List.mem_singleton.mp hbc
    exact hnew a hain ha0 heq
  · obtain rfl := List.mem_singleton.mp hac
    exact (hnew b hbin hb0 heq.symm).symm
  · rw [List.mem_singleton.mp hac, List.mem_singleton.mp hbc]

/-- A slot that another id has keeps them together. -/
theorem Sized.not_apart (h : Sized calloc st.taskHt ins all k) (hc0 : c.1 ≠ 0)
    (h0 : (htAt st.taskHt (c.1 % 2 ^ k)).oid ≠ 0)
    (hne : (htAt st.taskHt (c.1 % 2 ^ k)).oid ≠ c.1) : ¬ Apart (ins ++ [c]) k := by
  intro hapart
  obtain ⟨c', hc', hoid⟩ := (h.ids _ h0).mp ⟨_, rfl⟩
  have hhome := h.ok.home _ h0
  rw [h.len, htSlot_pow, ← hoid] at hhome
  apply hne
  rw [← hoid]
  exact hapart c' (List.mem_append_left _ hc') c (List.mem_append_right _ List.mem_cons_self)
    (hoid ▸ h0) hc0 hhome

/-! ### Growing -/

variable (strm) in
/-- With memory the table grows. -/
theorem reszTaskHt_some (h : TableOk st.taskHt) (hlen : st.taskHt.length = 2 ^ k)
    (hmem : callocHt calloc (2 ^ (k + 1)) = true) :
    ∃ st', reszTaskHt strm calloc st = some st' := by
  have hnuz : st.taskHt.length * 2 = 2 ^ (k + 1) := by rw [hlen, pow_succ]
  have hz : (List.replicate (2 ^ (k + 1)) TMap.empty).length = 2 ^ (k + 1) :=
    List.length_replicate
  rw [reszTaskHt, hnuz, if_pos hmem, moveTasks_eq]
  · exact ⟨_, rfl⟩
  · dsimp only
    rw [hz]
    exact pairwise_apart h hlen (Nat.le_succ k)
  · intro m _ _
    dsimp only
    rw [hz, htAt_replicate, htSlot_pow]
    exact ⟨rfl, Nat.mod_lt _ (Nat.two_pow_pos _)⟩

/-- Without memory it does not. -/
theorem reszTaskHt_mem (hlen : st.taskHt.length = 2 ^ k)
    (hr : reszTaskHt strm calloc st = some st') : callocHt calloc (2 ^ (k + 1)) = true := by
  have hnuz : st.taskHt.length * 2 = 2 ^ (k + 1) := by rw [hlen, pow_succ]
  rw [reszTaskHt, hnuz] at hr
  split at hr
  · assumption
  · cases hr

/-- A table that is too small is twice as large afterwards. -/
theorem Sized.grow (h : Sized calloc st.taskHt ins all k) (hsmall : ¬ Apart all k)
    (hr : reszTaskHt strm calloc st = some st') : Sized calloc st'.taskHt ins all (k + 1) := by
  obtain ⟨hok, -, hsame, hlen⟩ := reszTaskHt_spec h.ok hr
  refine ⟨hok, ?_, Nat.le_succ_of_le h.two, ?_, ?_, ?_⟩
  · rw [hlen, h.len, pow_succ]
  · intro oid h0
    rw [← h.ids oid h0]
    constructor
    · rintro ⟨i, rfl⟩
      obtain ⟨i', hi'⟩ := (hsame _ h0).mp ⟨i, rfl⟩
      exact ⟨i', congrArg TMap.oid hi'⟩
    · rintro ⟨i, rfl⟩
      obtain ⟨i', hi'⟩ := (hsame _ h0).mpr ⟨i, rfl⟩
      exact ⟨i', congrArg TMap.oid hi'⟩
  · intro j hj hapart
    have hle := h.least j hj hapart
    refine Nat.lt_of_le_of_ne hle ?_
    rintro rfl
    exact hsmall hapart
  · intro j hj hle
    rcases Nat.lt_or_eq_of_le hle with hlt | rfl
    · exact h.mem j hj (Nat.le_of_lt_succ hlt)
    · exact reszTaskHt_mem h.len hr

variable (strm) in
/-- What `put_task_slot` does with an id. -/
theorem Sized.place (h : Sized calloc st.taskHt ins (ins ++ [c]) k) (hc0 : c.1 ≠ 0) :
    (∃ st' slot, putTaskSlot strm st c.1 16 = (st', some slot) ∧ st'.taskHt = st.taskHt ∧
        Apart (ins ++ [c]) k) ∨
      putTaskSlot strm st c.1 16 = (st, none) ∧ ¬ Apart (ins ++ [c]) k := by
  have hslot : htSlot st.taskHt.length c.1 = c.1 % 2 ^ k := by rw [h.len, htSlot_pow]
  rw [putTaskSlot_eq, hslot]
  by_cases h0 : (htAt st.taskHt (c.1 % 2 ^ k)).oid = 0
  · rw [if_pos h0]
    exact Or.inl ⟨_, _, rfl, rfl, h.apart_concat (Or.inl h0)⟩
  · rw [if_neg h0]
    by_cases hne : (htAt st.taskHt (c.1 % 2 ^ k)).oid ≠ c.1
    · rw [if_pos hne]
      exact Or.inr ⟨rfl, h.not_apart hc0 h0 hne⟩
    · rw [if_neg hne]
      refine Or.inl ⟨_, _, rfl, ?_, h.apart_concat (Or.inr (not_not.mp hne))⟩
      cases (htAt st.taskHt (c.1 % 2 ^ k)).t <;> rfl

/-- The table that a task finds its place in. -/
theorem Sized.again (fuel : Nat) (hc0 : c.1 ≠ 0) :
    ∀ {st : Unroll} {k slot : Nat}, Sized calloc st.taskHt ins (ins ++ [c]) k →
      putTaskAgain strm calloc fuel st c.1 = some (st', slot) →
      ∃ k', Sized calloc st'.taskHt ins (ins ++ [c]) k' := by
  induction fuel with
  | zero => intro st k slot _ hp; cases hp
  | succ fuel ih =>
      intro st k slot h hp
      rw [putTaskAgain_succ] at hp
      rcases h.place strm hc0 with ⟨st₁, slot₁, hs, hht, -⟩ | ⟨hs, hsmall⟩
      · rw [hs] at hp
        obtain ⟨rfl, -⟩ := Prod.mk.inj (Option.some.inj hp)
        exact ⟨k, hht ▸ h⟩
      · rw [hs] at hp
        obtain ⟨st₂, hresz, hagain⟩ := Option.bind_eq_some_iff.mp hp
        exact ih (h.grow hsmall hresz) hagain

variable (strm) in
/-- With memory for a table that keeps all apart there is a place. -/
theorem Sized.again_some {b : Nat} (fuel : Nat) (hc0 : c.1 ≠ 0) (hb : Apart (ins ++ [c]) b)
    (hmem : ∀ j, 2 ≤ j → j ≤ b → callocHt calloc (2 ^ j) = true) :
    ∀ {st : Unroll} {k : Nat}, Sized calloc st.taskHt ins (ins ++ [c]) k → k ≤ b →
      b < k + fuel → ∃ r, putTaskAgain strm calloc fuel st c.1 = some r := by
  induction fuel with
  | zero => intro st k _ hle hlt; omega
  | succ fuel ih =>
      intro st k h hle hlt
      rw [putTaskAgain_succ]
      rcases h.place strm hc0 with ⟨st₁, slot₁, hs, -, -⟩ | ⟨hs, hsmall⟩
      · rw [hs]
        exact ⟨_, rfl⟩
      · have hkb : k + 1 ≤ b := by
          refine Nat.lt_of_le_of_ne hle ?_
          rintro rfl
          exact hsmall hb
        have hroom := hmem (k + 1) (Nat.le_succ_of_le h.two) hkb
        obtain ⟨st₂, hresz⟩ := reszTaskHt_some strm h.ok h.len hroom
        rw [hs]
        dsimp only
        rw [hresz, Option.bind_some]
        exact ih (h.grow hsmall hresz) hkb (by omega)

/-! ### Runs -/

theorem addStrm_taskHt (st : Unroll) (s : Option Nat) :
    (addStrm realloc st s).taskHt = st.taskHt := by
  unfold addStrm
  split
  · dsimp only
    split
    · split <;> rfl
    · split <;> rfl
  · rfl

/-- The table that there is at first, when none of the tasks had an id. -/
theorem sized_ini (hzero : ∀ c ∈ ins, c.1 = 0) (hmem : callocHt calloc 4 = true) :
    Sized calloc (List.replicate 4 .empty) ins all 2 where
  ok := tableOk_replicate 2
  len := List.length_replicate
  two := le_rfl
  ids := by
    intro oid h0
    constructor
    · rintro ⟨i, rfl⟩
      rw [htAt_replicate] at h0
      exact absurd rfl h0
    · rintro ⟨c, hc, rfl⟩
      exact absurd (hzero c hc) h0
  least := fun j hj _ => hj
  mem := by
    intro j hj hle
    obtain rfl := Nat.le_antisymm hle hj
    exact hmem

/-- The table after some tasks: there is none before the first id. -/
def Tabled (calloc : Nat → Bool) (ht : List TMap) (ins : List (Nat × Nat)) : Prop :=
  (ht = [] ∧ ∀ c ∈ ins, c.1 = 0) ∨ (∃ c ∈ ins, c.1 ≠ 0) ∧ ∃ k, Sized calloc ht ins ins k

/-- More ids need no smaller table. -/
theorem Sized.toConcat (h : Sized calloc st.taskHt ins ins k) :
    Sized calloc st.taskHt ins (ins ++ [c]) k where
  ok := h.ok
  len := h.len
  two := h.two
  ids := h.ids
  least := fun j hj hapart => h.least j hj (hapart.subset (List.subset_append_left ins [c]))
  mem := h.mem

/-- The table that `put_task` starts with. -/
theorem Tabled.ini (h : Tabled calloc st.taskHt ins) (hi : iniTaskHt calloc st = some st') :
    ∃ k, Sized calloc st'.taskHt ins (ins ++ [c]) k := by
  rw [iniTaskHt] at hi
  rcases h with ⟨hnil, hzero⟩ | ⟨-, k, h⟩
  · rw [hnil, List.length_nil, if_pos rfl] at hi
    split at hi
    · rename_i hmem
      obtain rfl := Option.some.inj hi
      exact ⟨2, sized_ini hzero hmem⟩
    · cases hi
  · have hlen : st.taskHt.length ≠ 0 := by
      rw [h.len]
      exact (Nat.two_pow_pos k).ne'
    rw [if_neg hlen] at hi
    obtain rfl := Option.some.inj hi
    exact ⟨k, h.toConcat⟩

theorem Tabled.zero (h : Tabled calloc st.taskHt ins) (h0 : c.1 = 0) :
    Tabled calloc st.taskHt (ins ++ [c]) := by
  rcases h with ⟨hnil, hzero⟩ | ⟨⟨d, hd, hd0⟩, k, h⟩
  · refine Or.inl ⟨hnil, ?_⟩
    intro d hd
    rcases List.mem_append.mp hd with hd | hd
    · exact hzero d hd
    · exact List.mem_singleton.mp hd ▸ h0
  · refine Or.inr ⟨⟨d, List.mem_append_left _ hd, hd0⟩, k, h.ok, h.len, h.two, ?_, ?_, h.mem⟩
    · intro oid hoid
      rw [h.ids oid hoid]
      constructor
      · rintro ⟨d, hd, heq⟩
        exact ⟨d, List.mem_append_left _ hd, heq⟩
      · rintro ⟨d, hd, heq⟩
        rcases List.mem_append.mp hd with hd | hd
        · exact ⟨d, hd, heq⟩
        · rw [List.mem_singleton.mp hd] at heq
          exact absurd (heq.symm.trans h0) hoid
    · intro j hj hapart
      exact h.least j hj ((apart_concat_zero h0).mp hapart)

/-- One task more. -/
theorem Tabled.step (h : Tabled calloc st.taskHt ins) (hlt : c.1 < 2 ^ 64)
    (hi : inject strm calloc realloc st c = some st') : Tabled calloc st'.taskHt (ins ++ [c]) := by
  rw [inject] at hi
  by_cases h0 : c.1 = 0
  · rw [if_pos h0] at hi
    obtain rfl := Option.some.inj hi
    exact h.zero h0
  · rw [if_neg h0, putTask] at hi
    obtain ⟨st₁, hini, hi⟩ := Option.bind_eq_some_iff.mp hi
    obtain ⟨⟨st₂, slot⟩, hagain, rfl⟩ := Option.map_eq_some_iff.mp hi
    obtain ⟨k₁, h₁⟩ := h.ini (c := c) hini
    obtain ⟨k, h₂⟩ := h₁.again 64 h0 hagain
    have hp := putTaskAgain_placed 64 h₁.ok hagain
    have hslot : (htAt st₂.taskHt (c.1 % 2 ^ k)).oid = 0 ∨
        (htAt st₂.taskHt (c.1 % 2 ^ k)).oid = c.1 := by
      have hhome := hp.home
      rw [h₂.len, htSlot_pow] at hhome
      rcases hp.old with ⟨hz, -⟩ | ⟨t, ht, -⟩
      · exact Or.inl (hhome ▸ hz)
      · exact Or.inr (hhome ▸ congrArg TMap.oid ht)
    refine Or.inr ⟨⟨c, List.mem_append_right _ List.mem_cons_self, h0⟩, k, ?_⟩
    rw [addStrm_taskHt]
    refine ⟨hp.table h0 hlt c.2, ?_, h₂.two, ?_, h₂.least, h₂.mem⟩
    · rw [List.length_set, h₂.len]
    · intro oid hoid
      constructor
      · rintro ⟨i, rfl⟩
        rcases (hp.entries c.2 hoid).mp ⟨i, rfl⟩ with hm | ⟨-, i', hi'⟩
        · exact ⟨c, List.mem_append_right _ List.mem_cons_self, by rw [hm]⟩
        · obtain ⟨d, hd, heq⟩ := (h₁.ids _ hoid).mp ⟨i', congrArg TMap.oid hi'⟩
          exact ⟨d, List.mem_append_left _ hd, heq⟩
      · rintro ⟨d, hd, rfl⟩
        by_cases heq : d.1 = c.1
        · obtain ⟨i, hi⟩ := (hp.entries c.2 (m := ⟨c.1, some c.2⟩) h0).mpr (Or.inl rfl)
          exact ⟨i, (congrArg TMap.oid hi).trans heq.symm⟩
        · rcases List.mem_append.mp hd with hd | hd
          · obtain ⟨i, hi⟩ := (h₁.ids d.1 hoid).mpr ⟨d, hd, rfl⟩
            have hm := (hp.entries c.2 (m := htAt st₁.taskHt i) (by rw [hi]; exact hoid)).mpr
              (Or.inr ⟨by rw [hi]; exact heq, i, rfl⟩)
            obtain ⟨i', hi'⟩ := hm
            exact ⟨i', by rw [hi', hi]⟩
          · exact absurd (congrArg Prod.fst (List.mem_singleton.mp hd)) heq

theorem Tabled.run (hlt : ∀ c ∈ ins, c.1 < 2 ^ 64)
    (hrun : injectAll strm calloc realloc ins = some st) : Tabled calloc st.taskHt ins := by
  induction ins using List.reverseRecOn generalizing st with
  | nil =>
      obtain rfl := Option.some.inj hrun
      exact Or.inl ⟨rfl, fun c hc => (nomatch hc)⟩
  | append_singleton ins c ih =>
      rw [injectAll, List.foldlM_append] at hrun
      obtain ⟨st₁, hst₁, hlast⟩ := Option.bind_eq_some_iff.mp hrun
      obtain ⟨st₂, hst₂, hnil⟩ := Option.bind_eq_some_iff.mp hlast
      obtain rfl := Option.some.inj hnil
      have htabled := ih (fun c hc => hlt c (List.mem_append_left _ hc)) hst₁
      exact htabled.step (hlt c (List.mem_append_right _ List.mem_cons_self)) hst₂

variable (strm realloc) in
/-- With memory for a table that keeps all apart every task is taken in. -/
theorem Tabled.step_some {b : Nat} (h : Tabled calloc st.taskHt ins) (hb : 2 ≤ b)
    (hapart : Apart (ins ++ [c]) b)
    (hmem : ∀ j, 2 ≤ j → j ≤ b → callocHt calloc (2 ^ j) = true) :
    ∃ st', inject strm calloc realloc st c = some st' := by
  rw [inject]
  by_cases h0 : c.1 = 0
  · rw [if_pos h0]
    exact ⟨_, rfl⟩
  · have hini : ∃ st₁, iniTaskHt calloc st = some st₁ := by
      rw [iniTaskHt]
      split
      · have hfour : callocHt calloc 4 = true := hmem 2 le_rfl hb
        rw [if_pos hfour]
        exact ⟨_, rfl⟩
      · exact ⟨_, rfl⟩
    obtain ⟨st₁, hini⟩ := hini
    obtain ⟨k, h₁⟩ := h.ini (c := c) hini
    have hroom : b < 60 := by
      have hbyte := hmem b hb le_rfl
      rw [callocHt, Bool.and_eq_true, decide_eq_true_iff] at hbyte
      by_contra hge
      have hpow : 2 ^ 60 ≤ 2 ^ b := Nat.pow_le_pow_right (by decide) (not_lt.mp hge)
      omega
    obtain ⟨r, hr⟩ := h₁.again_some strm 64 h0 hapart hmem (h₁.least b hb hapart) (by omega)
    rw [if_neg h0, putTask, hini, Option.bind_some, hr]
    exact ⟨_, rfl⟩

theorem injectAll_some {b : Nat} (hlt : ∀ c ∈ ins, c.1 < 2 ^ 64) (hb : 2 ≤ b)
    (hapart : Apart ins b) (hmem : ∀ j, 2 ≤ j → j ≤ b → callocHt calloc (2 ^ j) = true) :
    ∃ st, injectAll strm calloc realloc ins = some st := by
  induction ins using List.reverseRecOn with
  | nil => exact ⟨_, rfl⟩
  | append_singleton ins c ih =>
      have hlt' : ∀ c ∈ ins, c.1 < 2 ^ 64 := fun c hc => hlt c (List.mem_append_left _ hc)
      obtain ⟨st, hst⟩ := ih hlt' (hapart.subset (List.subset_append_left ins [c]))
      obtain ⟨st', hst'⟩ := (Tabled.run hlt' hst).step_some strm realloc hb
        hapart hmem
      refine ⟨st', ?_⟩
      rw [injectAll] at hst
      rw [injectAll, List.foldlM_append, hst]
      simp [hst']

/-- **The table is no larger than the ids need it to be**: its size is the least power of two, from
4 on, under which no two ids share a slot.  All tasks are taken in if and only if there is memory
for a table of that size, and those before it. -/
theorem injectAll_size (hlt : ∀ c ∈ ins, c.1 < 2 ^ 64) (hid : ∃ c ∈ ins, c.1 ≠ 0) {b : Nat}
    (hb : 2 ≤ b) (hapart : Apart ins b) (hleast : ∀ j, 2 ≤ j → Apart ins j → b ≤ j) :
    ((∃ st, injectAll strm calloc realloc ins = some st) ↔
        ∀ j, 2 ≤ j → j ≤ b → callocHt calloc (2 ^ j) = true) ∧
      ∀ st, injectAll strm calloc realloc ins = some st → st.taskHt.length = 2 ^ b := by
  have hsize : ∀ st, injectAll strm calloc realloc ins = some st →
      Sized calloc st.taskHt ins ins b := by
    intro st hst
    rcases Tabled.run hlt hst with ⟨-, hzero⟩ | ⟨-, k, h⟩
    · obtain ⟨c, hc, h0⟩ := hid
      exact absurd (hzero c hc) h0
    · have hkb : k = b := Nat.le_antisymm (h.least b hb hapart) (hleast k h.two h.apart)
      exact hkb ▸ h
  refine ⟨⟨?_, injectAll_some hlt hb hapart⟩, ?_⟩
  · rintro ⟨st, hst⟩
    exact (hsize st hst).mem
  · intro st hst
    exact (hsize st hst).len

/-- Ids 1 and 17 need a table of 32. -/
theorem injectAll_size_collision :
    ((∃ st, injectAll some (fun _ => true) (fun _ => true) [(1, 10), (17, 11)] = some st) ↔
        ∀ j, 2 ≤ j → j ≤ 5 → callocHt (fun _ => true) (2 ^ j) = true) ∧
      ∀ st, injectAll some (fun _ => true) (fun _ => true) [(1, 10), (17, 11)] = some st →
        st.taskHt.length = 2 ^ 5 := by
  have hsmall : ∀ j, j < 5 → ¬ Apart [(1, 10), (17, 11)] j := by
    unfold Apart
    decide
  refine injectAll_size (by decide) (by decide) (by decide) (by unfold Apart; decide) ?_
  intro j _ hapart
  by_contra hlt
  exact hsmall j (not_le.mp hlt) hapart

/-! ### The end -/

end Echse.Unroll
