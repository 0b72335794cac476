/-
The tasks and the streams of a run.

The tasks that are there are those put last under their ids, in the order in which they were
put.  The table has them and nothing else, wherever growing has moved them; and the array of
streams has theirs in that order, among the holes that replaced tasks have left.
-/
import Mathlib.Data.List.ReduceOption
import Echse.Proofs.TaskTable
import Echse.Unroll

namespace Echse.Unroll

/-! ### Holes -/

theorem remStrm_split {pre post : List (Option Nat)} {s : Option Nat} (h : s ∉ pre) :
    (remStrm (pre ++ s :: post) s).reduceOption = pre.reduceOption ++ post.reduceOption := by
  have hidx : (pre ++ s :: post).idxOf? s = some pre.length := by
    rw [List.idxOf?_eq_some_iff]
    refine ⟨by simp, by rw [List.getElem_append_right le_rfl]; simp, fun j hj hc => h ?_⟩
    rw [List.getElem_append_left hj] at hc
    exact hc ▸ List.getElem_mem hj
  rw [remStrm, hidx]
  dsimp only
  split
  · rename_i hlast
    rw [List.length_append, List.length_cons] at hlast
    obtain rfl : post = [] := List.eq_nil_of_length_eq_zero (by omega)
    rw [List.dropLast_concat]
    exact (List.append_nil _).symm
  · rw [List.set_append_right _ _ le_rfl, Nat.sub_self, List.set_cons_zero,
      List.reduceOption_append, List.reduceOption_cons_of_none]

theorem remStrm_of_not_mem {strms : List (Option Nat)} {s : Option Nat} (h : s ∉ strms) :
    remStrm strms s = strms := by
  rw [remStrm, List.idxOf?_eq_none_iff.mpr h]

/-- One stream less. -/
theorem remStrm_some (strms : List (Option Nat)) (s : Nat) :
    (remStrm strms (some s)).reduceOption = strms.reduceOption.erase s := by
  by_cases hs : some s ∈ strms
  · obtain ⟨pre, post, rfl, hpre⟩ := List.eq_append_cons_of_mem hs
    have hpre' : s ∉ pre.reduceOption := fun hc => hpre (List.reduceOption_mem_iff.mp hc)
    rw [remStrm_split hpre, List.reduceOption_append, List.reduceOption_cons_of_some,
      List.erase_append_right _ hpre', List.erase_cons_head]
  · have hs' : s ∉ strms.reduceOption := fun hc => hs (List.reduceOption_mem_iff.mp hc)
    rw [remStrm_of_not_mem hs, List.erase_of_not_mem hs']

/-- A hole more or less is none. -/
theorem remStrm_none (strms : List (Option Nat)) :
    (remStrm strms none).reduceOption = strms.reduceOption := by
  by_cases hs : none ∈ strms
  · obtain ⟨pre, post, rfl, hpre⟩ := List.eq_append_cons_of_mem hs
    rw [remStrm_split hpre, List.reduceOption_append, List.reduceOption_cons_of_none]
  · rw [remStrm_of_not_mem hs]

/-- The array while it is condensed: up to `j` there is what is left of the elements up to `i`,
and from `i` on there is what has been there. -/
structure Condensed (strms : List (Option Nat)) (i : Nat) (st : List (Option Nat) × Nat) :
    Prop where
  len : st.1.length = strms.length
  le : st.2 ≤ i
  ahead : st.1.drop i = strms.drop i
  kept : st.1.take st.2 = (strms.take i).filter Option.isSome

theorem Condensed.step {strms : List (Option Nat)} {i : Nat} {st : List (Option Nat) × Nat}
    (h : Condensed strms i st) (hi : i < strms.length) :
    Condensed strms (i + 1) (condStep st i) := by
  have hle := h.le
  have hi' : i < st.1.length := by rw [h.len]; exact hi
  have hahead : st.1[i] :: st.1.drop (i + 1) = strms[i] :: strms.drop (i + 1) := by
    rw [List.getElem_cons_drop, List.getElem_cons_drop, h.ahead]
  obtain ⟨hat, hleft⟩ := List.cons.inj hahead
  have hj : st.2 < st.1.length := by omega
  rw [condStep, List.getD_eq_getElem _ _ hi', hat]
  refine ⟨List.length_set.trans h.len, ?_, ?_, ?_⟩
  · dsimp only
    split <;> omega
  · rw [List.drop_set_of_lt (by omega), hleft]
  · rw [List.take_succ_eq_append_getElem hi, List.filter_append, ← h.kept]
    dsimp only
    cases hs : strms[i] with
    | none =>
        rw [if_neg (not_not.mpr rfl), List.take_set_of_le le_rfl]
        exact (List.append_nil _).symm
    | some s =>
        rw [if_pos (Option.some_ne_none s), List.take_succ_eq_append_getElem
          (hj.trans_eq List.length_set.symm), List.getElem_set_self, List.take_set_of_le le_rfl]
        rfl

theorem Condensed.run {strms : List (Option Nat)} {i : Nat} {st : List (Option Nat) × Nat}
    (h : Condensed strms i st) :
    ∀ n, i + n ≤ strms.length →
      Condensed strms (i + n) ((List.range' i n).foldl condStep st) := by
  intro n
  induction n with
  | zero => exact fun _ => h
  | succ n ih =>
      intro hn
      rw [List.range'_concat, List.foldl_append, Nat.one_mul]
      exact (ih (by omega)).step (by omega)

/-- Condensing takes the holes out. -/
theorem condenseStrms_eq (strms : List (Option Nat)) :
    condenseStrms strms = strms.filter Option.isSome := by
  by_cases hs : none ∈ strms
  · obtain ⟨pre, post, rfl, hpre⟩ := List.eq_append_cons_of_mem hs
    have hkept : pre.filter Option.isSome = pre := List.filter_eq_self.mpr fun s hs => by
      cases s with
      | none => exact absurd hs hpre
      | some s => rfl
    have hidx : (pre ++ none :: post).idxOf none = pre.length := by
      rw [List.idxOf_append_of_notMem hpre, List.idxOf_cons_self, Nat.add_zero]
    have hlen : (pre ++ none :: post).length = pre.length + 1 + post.length := by
      rw [List.length_append, List.length_cons]
      omega
    have hfirst : Condensed (pre ++ none :: post) (pre.length + 1)
        (pre ++ none :: post, pre.length) := by
      refine ⟨rfl, Nat.le_succ _, rfl, ?_⟩
      have htake : (pre ++ none :: post).take (pre.length + 1) = pre ++ [none] := by
        rw [List.take_append, List.take_of_length_le (Nat.le_succ _), Nat.add_sub_cancel_left]
        rfl
      rw [htake, List.filter_append, hkept, List.take_left]
      exact (List.append_nil _).symm
    have hrun := hfirst.run post.length (by rw [hlen])
    rw [condenseStrms, hidx, hlen, Nat.add_sub_cancel_left, hrun.kept, ← hlen, List.take_length]
  · rw [condenseStrms, List.idxOf_of_notMem hs, Nat.sub_eq_zero_of_le (Nat.le_succ _)]
    refine (List.take_length).trans (List.filter_eq_self.mpr fun s hs' => ?_).symm
    cases s with
    | none => exact absurd hs' hs
    | some s => rfl

/-! ### Places -/

variable {strm : Nat → Option Nat} {calloc realloc : Nat → Bool} {st st' : Unroll}

/-- Retries change nothing: the slot is free, or has the task, or is another's for good. -/
theorem putTaskSlot_eq (st : Unroll) (oid i : Nat) :
    putTaskSlot strm st oid (i + 1) =
      if (htAt st.taskHt (htSlot st.taskHt.length oid)).oid = 0 then
        (st, some (htSlot st.taskHt.length oid))
      else if (htAt st.taskHt (htSlot st.taskHt.length oid)).oid ≠ oid then (st, none)
      else (((htAt st.taskHt (htSlot st.taskHt.length oid)).t.map (freeOld strm st)).getD st,
        some (htSlot st.taskHt.length oid)) := by
  induction i with
  | zero => rfl
  | succ i ih =>
      rw [putTaskSlot]
      by_cases h0 : (htAt st.taskHt (htSlot st.taskHt.length oid)).oid = 0
      · rw [if_pos h0, if_pos h0]
      · rw [if_neg h0, if_neg h0]
        by_cases hne : (htAt st.taskHt (htSlot st.taskHt.length oid)).oid ≠ oid
        · rw [if_pos hne, if_pos hne, ih, if_neg h0, if_pos hne]
        · rw [if_neg hne, if_neg hne]

theorem putTaskSlot_free {oid : Nat} (i : Nat)
    (h : (htAt st.taskHt (htSlot st.taskHt.length oid)).oid = 0) :
    putTaskSlot strm st oid (i + 1) = (st, some (htSlot st.taskHt.length oid)) := by
  rw [putTaskSlot_eq, if_pos h]

/-- Tasks that are apart in the new table all find their places, which are free. -/
theorem moveTasks_eq (olt : List TMap) :
    ∀ st : Unroll, (olt.Pairwise fun m m' => m.oid ≠ 0 → m'.oid ≠ 0 →
        htSlot st.taskHt.length m.oid ≠ htSlot st.taskHt.length m'.oid) →
      (∀ m ∈ olt, m.oid ≠ 0 →
        (htAt st.taskHt (htSlot st.taskHt.length m.oid)).oid = 0 ∧
          htSlot st.taskHt.length m.oid < st.taskHt.length) →
      moveTasks strm st olt =
        some { st with taskHt := olt.foldl (rehash st.taskHt.length) st.taskHt } := by
  induction olt with
  | nil => intro st _ _; rfl
  | cons m olt ih =>
      intro st hp hfree
      obtain ⟨hm, hp⟩ := List.pairwise_cons.mp hp
      rw [moveTasks, List.foldl_cons]
      by_cases h0 : m.oid = 0
      · rw [if_pos h0, ih st hp fun m' hm' => hfree m' (List.mem_cons_of_mem _ hm'), rehash,
          if_neg (not_not.mpr h0)]
      · obtain ⟨hslot, hlt⟩ := hfree m List.mem_cons_self h0
        rw [if_neg h0, putTaskSlot_free 15 hslot]
        dsimp only
        have hlen : (st.taskHt.set (htSlot st.taskHt.length m.oid) m).length = st.taskHt.length :=
          List.length_set
        rw [ih]
        · dsimp only
          rw [hlen, rehash, if_pos h0]
        · dsimp only
          rw [hlen]
          exact hp
        · dsimp only
          intro m' hm' h0'
          rw [hlen, htAt_set _ hlt, if_neg (hm m' hm' h0 h0').symm]
          exact hfree m' (List.mem_cons_of_mem _ hm') h0'

/-- The same tasks in both tables. -/
def SameTasks (ht ht' : List TMap) : Prop :=
  ∀ m : TMap, m.oid ≠ 0 → ((∃ j, htAt ht' j = m) ↔ ∃ i, htAt ht i = m)

/-- Growing never starts over: it moves every task, and frees none. -/
theorem reszTaskHt_spec (h : TableOk st.taskHt) (hr : reszTaskHt strm calloc st = some st') :
    TableOk st'.taskHt ∧ st' = { st with taskHt := st'.taskHt } ∧
      SameTasks st.taskHt st'.taskHt ∧ st'.taskHt.length = st.taskHt.length * 2 := by
  obtain ⟨k, hlen⟩ := h.len
  have hnuz : st.taskHt.length * 2 = 2 ^ (k + 1) := by rw [hlen, pow_succ]
  rw [reszTaskHt, hnuz] at hr
  split at hr
  · have hz : (List.replicate (2 ^ (k + 1)) TMap.empty).length = 2 ^ (k + 1) :=
      List.length_replicate
    rw [moveTasks_eq] at hr
    · dsimp only at hr
      rw [hz, ← htResize_eq] at hr
      obtain rfl := Option.some.inj hr
      exact ⟨htResize_ok h hlen (Nat.le_succ k), rfl,
        fun m h0 => htResize_mem h hlen (Nat.le_succ k) h0, by
          rw [hnuz, htResize_eq, foldl_rehash_length, hz]⟩
    · dsimp only
      rw [hz]
      exact pairwise_apart h hlen (Nat.le_succ k)
    · dsimp only
      intro m _ _
      rw [hz, htAt_replicate, htSlot_pow]
      exact ⟨rfl, Nat.mod_lt _ (Nat.two_pow_pos _)⟩
  · cases hr

/-- There is a place for the task, which is free or has the task that is replaced. -/
structure Placed (strm : Nat → Option Nat) (st : Unroll) (oid : Nat) (st' : Unroll) (slot : Nat) :
    Prop where
  ok : TableOk st'.taskHt
  home : slot = htSlot st'.taskHt.length oid
  same : SameTasks st.taskHt st'.taskHt
  old : (htAt st'.taskHt slot).oid = 0 ∧ st' = { st with taskHt := st'.taskHt } ∨
    ∃ t, htAt st'.taskHt slot = ⟨oid, some t⟩ ∧
      st' = { freeOld strm st t with taskHt := st'.taskHt }

theorem Placed.of_same {st₁ : Unroll} {oid slot : Nat} (h : Placed strm st₁ oid st' slot)
    (hst : st₁ = { st with taskHt := st₁.taskHt }) (hsame : SameTasks st.taskHt st₁.taskHt) :
    Placed strm st oid st' slot := by
  refine ⟨h.ok, h.home, fun m h0 => (h.same m h0).trans (hsame m h0), ?_⟩
  rw [hst] at h
  exact h.old

theorem putTaskSlot_placed (h : TableOk st.taskHt) {oid slot : Nat}
    (hp : putTaskSlot strm st oid 16 = (st', some slot)) : Placed strm st oid st' slot := by
  rw [putTaskSlot_eq] at hp
  by_cases h0 : (htAt st.taskHt (htSlot st.taskHt.length oid)).oid = 0
  · rw [if_pos h0] at hp
    obtain ⟨rfl, hslot⟩ := Prod.mk.inj hp
    obtain rfl := Option.some.inj hslot
    exact ⟨h, rfl, fun m _ => Iff.rfl, Or.inl ⟨h0, rfl⟩⟩
  · rw [if_neg h0] at hp
    by_cases hne : (htAt st.taskHt (htSlot st.taskHt.length oid)).oid ≠ oid
    · rw [if_pos hne] at hp
      cases (Prod.mk.inj hp).2
    · rw [if_neg hne] at hp
      obtain ⟨t, ht⟩ := Option.ne_none_iff_exists'.mp (mt (h.task _).mpr h0)
      rw [ht] at hp
      obtain ⟨rfl, hslot⟩ := Prod.mk.inj hp
      obtain rfl := Option.some.inj hslot
      have hm : htAt st.taskHt (htSlot st.taskHt.length oid) = ⟨oid, some t⟩ :=
        congrArg₂ TMap.mk (not_not.mp hne) ht
      exact ⟨h, rfl, fun m _ => Iff.rfl, Or.inr ⟨t, hm, rfl⟩⟩

/-- A table that cannot have the task is the same table. -/
theorem putTaskSlot_none {oid : Nat} (hp : putTaskSlot strm st oid 16 = (st', none)) : st' = st := by
  rw [putTaskSlot_eq] at hp
  split at hp
  · cases (Prod.mk.inj hp).2
  · split at hp
    · exact (Prod.mk.inj hp).1.symm
    · cases (Prod.mk.inj hp).2

theorem putTaskAgain_succ (fuel : Nat) (st : Unroll) (oid : Nat) :
    putTaskAgain strm calloc (fuel + 1) st oid = match putTaskSlot strm st oid 16 with
      | (st, some slot) => some (st, slot)
      | (st, none) =>
          (reszTaskHt strm calloc st).bind fun st => putTaskAgain strm calloc fuel st oid := rfl

theorem putTaskAgain_placed (fuel : Nat) :
    ∀ {st : Unroll} {oid slot : Nat}, TableOk st.taskHt →
      putTaskAgain strm calloc fuel st oid = some (st', slot) → Placed strm st oid st' slot := by
  induction fuel with
  | zero => intro st oid slot _ hp; cases hp
  | succ fuel ih =>
      intro st oid slot h hp
      rw [putTaskAgain_succ] at hp
      rcases hs : putTaskSlot strm st oid 16 with ⟨st₁, _ | slot₁⟩
      · -- the table has to grow
        rw [hs] at hp
        obtain rfl := putTaskSlot_none hs
        obtain ⟨st₂, hresz, hagain⟩ := Option.bind_eq_some_iff.mp hp
        obtain ⟨hok, hst, hsame, -⟩ := reszTaskHt_spec h hresz
        exact (ih hok hagain).of_same hst hsame
      · rw [hs] at hp
        obtain ⟨rfl, rfl⟩ := Prod.mk.inj (Option.some.inj hp)
        exact putTaskSlot_placed h hs

/-- A table of 2 to the 59th elements cannot grow, so the fuel is never short. -/
theorem putTaskAgain_enough (n : Nat) :
    ∀ {st : Unroll} {oid k : Nat}, TableOk st.taskHt → st.taskHt.length = 2 ^ k → 59 ≤ k + n →
      putTaskAgain strm calloc (n + 2) st oid = putTaskAgain strm calloc (n + 1) st oid := by
  induction n with
  | zero =>
      intro st oid k _ hlen hk
      rw [putTaskAgain_succ, putTaskAgain_succ]
      rcases hs : putTaskSlot strm st oid 16 with ⟨st₁, _ | slot⟩
      · obtain rfl := putTaskSlot_none hs
        have hle : 2 ^ 59 ≤ 2 ^ k := Nat.pow_le_pow_right (by decide) hk
        have hresz : reszTaskHt strm calloc st₁ = none := by
          rw [reszTaskHt, if_neg]
          rw [callocHt, hlen, Bool.and_eq_true, decide_eq_true_iff]
          omega
        dsimp only
        rw [hresz, Option.bind_none, Option.bind_none]
      · rfl
  | succ n ih =>
      intro st oid k h hlen hk
      rw [putTaskAgain_succ, putTaskAgain_succ]
      rcases hs : putTaskSlot strm st oid 16 with ⟨st₁, _ | slot⟩
      · obtain rfl := putTaskSlot_none hs
        dsimp only
        refine Option.bind_congr fun st₂ hresz => ?_
        obtain ⟨hok, -, -, hlen₂⟩ := reszTaskHt_spec h hresz
        exact ih hok (hlen₂.trans (by rw [hlen, pow_succ])) (by omega)
      · rfl

/-! ### What is there -/

/-- One more task: it replaces the one with its id, and comes last. -/
def putIn (cur : List (Nat × Nat)) (ins : Nat × Nat) : List (Nat × Nat) :=
  if ins.1 = 0 then cur else cur.filter (fun c => c.1 ≠ ins.1) ++ [ins]

/-- The tasks that are there, with their ids. -/
def tasksOf (ins : List (Nat × Nat)) : List (Nat × Nat) := ins.foldl putIn []

/-- The last task under an id. -/
def lastPut (ins : List (Nat × Nat)) (oid : Nat) : Option Nat :=
  (ins.reverse.find? fun c => c.1 = oid).map Prod.snd

variable (strm) in
/-- Their streams. -/
def streamsOf (cur : List (Nat × Nat)) : List Nat := cur.filterMap fun c => strm c.2

variable {ins cur : List (Nat × Nat)} {oid t : Nat}

theorem tasksOf_concat (ins : List (Nat × Nat)) (c : Nat × Nat) :
    tasksOf (ins ++ [c]) = putIn (tasksOf ins) c := by
  rw [tasksOf, List.foldl_append]
  rfl

theorem lastPut_concat (ins : List (Nat × Nat)) (c : Nat × Nat) (oid : Nat) :
    lastPut (ins ++ [c]) oid = if c.1 = oid then some c.2 else lastPut ins oid := by
  rw [lastPut, List.reverse_concat, List.find?_cons]
  by_cases hc : c.1 = oid
  · rw [if_pos hc, decide_eq_true hc]
    rfl
  · rw [if_neg hc, decide_eq_false hc]
    rfl

theorem mem_tasksOf : (oid, t) ∈ tasksOf ins ↔ oid ≠ 0 ∧ lastPut ins oid = some t := by
  induction ins using List.reverseRecOn with
  | nil => exact ⟨fun hc => (nomatch hc), fun hc => (nomatch hc.2)⟩
  | append_singleton ins c ih =>
      rw [tasksOf_concat, lastPut_concat, putIn]
      by_cases hc : c.1 = oid
      · rw [if_pos hc]
        by_cases h0 : c.1 = 0
        · rw [if_pos h0, ih]
          exact ⟨fun h => absurd (hc.symm.trans h0) h.1, fun h => absurd (hc.symm.trans h0) h.1⟩
        · rw [if_neg h0, List.mem_append, List.mem_singleton, List.mem_filter, ← hc]
          constructor
          · rintro (⟨-, hne⟩ | heq)
            · exact absurd rfl (of_decide_eq_true hne)
            · exact ⟨h0, congrArg (some ·.2) heq.symm⟩
          · rintro ⟨-, ht⟩
            exact Or.inr (Prod.ext rfl (Option.some.inj ht).symm)
      · rw [if_neg hc, ← ih]
        split
        · rfl
        · rw [List.mem_append, List.mem_singleton, List.mem_filter]
          constructor
          · rintro (⟨hmem, -⟩ | rfl)
            · exact hmem
            · exact absurd rfl hc
          · exact fun hmem => Or.inl ⟨hmem, decide_eq_true (Ne.symm hc)⟩

theorem tasksOf_keys (ins : List (Nat × Nat)) : ((tasksOf ins).map Prod.fst).Nodup := by
  induction ins using List.reverseRecOn with
  | nil => exact List.nodup_nil
  | append_singleton ins c ih =>
      rw [tasksOf_concat, putIn]
      split
      · exact ih
      · have hnew : c.1 ∉ ((tasksOf ins).filter fun c' => c'.1 ≠ c.1).map Prod.fst := by
          intro hmem
          obtain ⟨c', hc', heq⟩ := List.mem_map.mp hmem
          exact of_decide_eq_true (List.mem_filter.mp hc').2 heq
        rw [List.map_append, List.map_singleton, ← List.concat_eq_append]
        exact List.Nodup.concat hnew (ih.sublist (List.filter_sublist.map _))

/-- The tasks but for the one with an id. -/
theorem filter_split {cur : List (Nat × Nat)} (hkeys : (cur.map Prod.fst).Nodup)
    (hmem : (oid, t) ∈ cur) : ∃ pre post, cur = pre ++ (oid, t) :: post ∧
      cur.filter (fun c => c.1 ≠ oid) = pre ++ post := by
  obtain ⟨pre, post, rfl⟩ := List.append_of_mem hmem
  rw [List.map_append, List.map_cons, List.nodup_middle, List.nodup_cons, ← List.map_append] at hkeys
  have hall : (pre ++ post).filter (fun c => c.1 ≠ oid) = pre ++ post := by
    refine List.filter_eq_self.mpr fun c hc => decide_eq_true fun heq => hkeys.1 ?_
    exact List.mem_map.mpr ⟨c, hc, heq⟩
  refine ⟨pre, post, rfl, ?_⟩
  rw [List.filter_append, List.filter_cons_of_neg (by simp), ← List.filter_append, hall]

/-- A task's stream is taken out with the task. -/
theorem streamsOf_filter {cur : List (Nat × Nat)} (hkeys : (cur.map Prod.fst).Nodup)
    (hstreams : (streamsOf strm cur).Nodup) (hmem : (oid, t) ∈ cur) {strms : List (Option Nat)}
    (h : strms.reduceOption = streamsOf strm cur) :
    (remStrm strms (strm t)).reduceOption =
      streamsOf strm (cur.filter fun c => c.1 ≠ oid) := by
  obtain ⟨pre, post, rfl, hfilter⟩ := filter_split hkeys hmem
  rw [hfilter]
  have hwith : streamsOf strm (pre ++ (oid, t) :: post) =
      streamsOf strm pre ++ ((strm t).toList ++ streamsOf strm post) := by
    rw [streamsOf, List.filterMap_append, List.filterMap_cons]
    cases strm t <;> rfl
  have hwithout : streamsOf strm (pre ++ post) = streamsOf strm pre ++ streamsOf strm post :=
    List.filterMap_append
  rw [hwithout]
  rw [hwith] at h hstreams
  cases hs : strm t with
  | none => rw [remStrm_none, h, hs]; rfl
  | some s =>
      rw [hs] at h hstreams
      have hpre : s ∉ streamsOf strm pre := fun hc =>
        List.disjoint_of_nodup_append hstreams hc List.mem_cons_self
      rw [remStrm_some, h, List.erase_append_right _ hpre]
      exact congrArg _ (List.erase_cons_head s _)

/-! ### Runs -/

variable (strm) in
/-- A new task's stream is none of those that are there. -/
def Fresh (ins : List (Nat × Nat)) : Prop :=
  ∀ pre c post, ins = pre ++ c :: post → ∀ s, strm c.2 = some s → s ∉ streamsOf strm (tasksOf pre)

theorem tasksOf_subset (ins : List (Nat × Nat)) : tasksOf ins ⊆ ins := by
  intro c hc
  obtain ⟨-, hlast⟩ := mem_tasksOf.mp (show (c.1, c.2) ∈ tasksOf ins from hc)
  obtain ⟨c', hfind, ht⟩ := Option.map_eq_some_iff.mp hlast
  have hoid : c'.1 = c.1 := by simpa using List.find?_some hfind
  have heq : c' = c := Prod.ext hoid ht
  exact heq ▸ List.mem_reverse.mp (List.mem_of_find?_eq_some hfind)

/-- Streams that are all different are new at any time. -/
theorem fresh_of_nodup (h : (streamsOf strm ins).Nodup) : Fresh strm ins := by
  rintro pre c post rfl s hs hmem
  rw [streamsOf, List.filterMap_append, List.filterMap_cons, hs] at h
  have hpre : s ∈ pre.filterMap fun c => strm c.2 := by
    obtain ⟨c', hc', hs'⟩ := List.mem_filterMap.mp hmem
    exact List.mem_filterMap.mpr ⟨c', tasksOf_subset pre hc', hs'⟩
  exact List.disjoint_of_nodup_append h hpre List.mem_cons_self

/-- What is there after some tasks. -/
structure Held (strm : Nat → Option Nat) (st : Unroll) (ins : List (Nat × Nat)) : Prop where
  table : TableOk st.taskHt ∨ st.taskHt = []
  entries : ∀ oid t, oid ≠ 0 → ((∃ k, htAt st.taskHt k = ⟨oid, some t⟩) ↔ (oid, t) ∈ tasksOf ins)
  streams : st.strms.reduceOption = streamsOf strm (tasksOf ins)
  apart : (streamsOf strm (tasksOf ins)).Nodup
  freed : (st.freed ++ (tasksOf ins).map Prod.snd).Perm (ins.map Prod.snd)

theorem Held.init : Held strm .init [] := by
  refine ⟨Or.inr rfl, fun oid t h0 => ?_, rfl, List.nodup_nil, List.Perm.refl _⟩
  constructor
  · rintro ⟨k, hk⟩
    exact absurd (congrArg TMap.oid hk).symm h0
  · exact fun hc => (nomatch hc)

theorem tableOk_replicate (k : Nat) : TableOk (List.replicate (2 ^ k) .empty) := by
  refine ⟨⟨k, List.length_replicate⟩, fun j hj => ?_, fun j => ?_, fun j => ?_⟩
  · rw [htAt_replicate] at hj
    exact absurd rfl hj
  · rw [htAt_replicate]
    exact Nat.two_pow_pos 64
  · rw [htAt_replicate]
    exact ⟨fun _ => rfl, fun _ => rfl⟩

theorem iniTaskHt_spec (h : TableOk st.taskHt ∨ st.taskHt = [])
    (hi : iniTaskHt calloc st = some st') :
    TableOk st'.taskHt ∧ st' = { st with taskHt := st'.taskHt } ∧
      SameTasks st.taskHt st'.taskHt := by
  rw [iniTaskHt] at hi
  split at hi
  · rename_i hlen
    split at hi
    · obtain rfl := Option.some.inj hi
      refine ⟨tableOk_replicate 2, rfl, fun m h0 => ?_⟩
      rw [List.eq_nil_of_length_eq_zero hlen]
      constructor
      · rintro ⟨k, rfl⟩
        exact absurd (congrArg TMap.oid (htAt_replicate 4 k)) h0
      · rintro ⟨k, rfl⟩
        exact absurd rfl h0
    · cases hi
  · rename_i hlen
    obtain rfl := Option.some.inj hi
    exact ⟨h.resolve_right fun hc => hlen (congrArg List.length hc), rfl, fun m _ => Iff.rfl⟩

theorem addStrm_eq (hrealloc : ∀ n, realloc n = true) (st : Unroll) (s : Option Nat) :
    ∃ z, addStrm realloc st s = { st with strms := st.strms ++ [s], zstrms := z } := by
  rw [addStrm]
  split
  · rw [if_pos (hrealloc _)]
    exact ⟨_, rfl⟩
  · exact ⟨_, rfl⟩

/-- The entries once the task is in its place. -/
theorem Placed.entries {slot : Nat} (h : Placed strm st oid st' slot) (t : Nat) {m : TMap}
    (hm : m.oid ≠ 0) :
    (∃ k, htAt (st'.taskHt.set slot ⟨oid, some t⟩) k = m) ↔
      m = ⟨oid, some t⟩ ∨ m.oid ≠ oid ∧ ∃ i, htAt st.taskHt i = m := by
  have hlt : slot < st'.taskHt.length := by
    rw [h.home]
    exact h.ok.slot_lt oid
  have hslot : (htAt st'.taskHt slot).oid = 0 ∨ (htAt st'.taskHt slot).oid = oid := by
    rcases h.old with ⟨h0, -⟩ | ⟨t, ht, -⟩
    · exact Or.inl h0
    · exact Or.inr (congrArg TMap.oid ht)
  rw [← h.same m hm]
  constructor
  · rintro ⟨k, rfl⟩
    rw [htAt_set _ hlt] at hm ⊢
    by_cases hk : k = slot
    · exact Or.inl (if_pos hk)
    · rw [if_neg hk] at hm ⊢
      refine Or.inr ⟨fun hc => hk ?_, k, rfl⟩
      rw [← h.ok.home k hm, hc, ← h.home]
  · rintro (rfl | ⟨hne, k, rfl⟩)
    · exact ⟨slot, (htAt_set _ hlt _ _).trans (if_pos rfl)⟩
    · refine ⟨k, (htAt_set _ hlt _ _).trans (if_neg fun hk => ?_)⟩
      rw [hk] at hm hne
      exact hslot.elim hm hne

theorem Placed.table {slot : Nat} (h : Placed strm st oid st' slot) (h0 : oid ≠ 0)
    (hlt : oid < 2 ^ 64) (t : Nat) : TableOk (st'.taskHt.set slot ⟨oid, some t⟩) := by
  rw [h.home]
  exact h.ok.insert t h0 hlt

/-- Once the old task is gone. -/
theorem Held.without {slot : Nat} (h : Held strm st ins) (hp : Placed strm st oid st' slot)
    (h0 : oid ≠ 0) :
    st'.strms.reduceOption = streamsOf strm ((tasksOf ins).filter fun c => c.1 ≠ oid) ∧
      (st'.freed ++ ((tasksOf ins).filter fun c => c.1 ≠ oid).map Prod.snd).Perm
        (st.freed ++ (tasksOf ins).map Prod.snd) := by
  rcases hp.old with ⟨hfree, hst⟩ | ⟨t, hold, hst⟩
  · have hnone : (tasksOf ins).filter (fun c => c.1 ≠ oid) = tasksOf ins := by
      refine List.filter_eq_self.mpr fun c hc => decide_eq_true fun heq => ?_
      have hm := (h.entries c.1 c.2 (heq ▸ h0)).mpr hc
      obtain ⟨k, hk⟩ := (hp.same ⟨c.1, some c.2⟩ (heq ▸ h0)).mpr hm
      have hhome := hp.ok.home k (by rw [hk]; exact heq ▸ h0)
      rw [hk, heq, ← hp.home] at hhome
      rw [hhome, hk] at hfree
      exact h0 (heq.symm.trans hfree)
    rw [hnone, hst]
    exact ⟨h.streams, List.Perm.refl _⟩
  · have hmem : (oid, t) ∈ tasksOf ins :=
      (h.entries oid t h0).mp ((hp.same ⟨oid, some t⟩ h0).mp ⟨slot, hold⟩)
    have hstreams := streamsOf_filter (tasksOf_keys ins) h.apart hmem h.streams
    refine ⟨by rw [hst]; exact hstreams, ?_⟩
    obtain ⟨pre, post, hcur, hfilter⟩ := filter_split (tasksOf_keys ins) hmem
    have hfreed : st'.freed = st.freed ++ [t] := by rw [hst]; rfl
    rw [hfilter, hcur, hfreed, List.map_append, List.map_append, List.map_cons, List.append_assoc]
    have hmiddle : (t :: (pre.map Prod.snd ++ post.map Prod.snd)).Perm
        (pre.map Prod.snd ++ t :: post.map Prod.snd) := List.perm_middle.symm
    exact hmiddle.append_left st.freed

/-- One task more. -/
theorem Held.step (hrealloc : ∀ n, realloc n = true) {c : Nat × Nat} (h : Held strm st ins)
    (hlt : c.1 < 2 ^ 64) (hfresh : ∀ s, strm c.2 = some s → s ∉ streamsOf strm (tasksOf ins))
    (hi : inject strm calloc realloc st c = some st') : Held strm st' (ins ++ [c]) := by
  rw [inject] at hi
  by_cases h0 : c.1 = 0
  · rw [if_pos h0] at hi
    obtain rfl := Option.some.inj hi
    have hcur : tasksOf (ins ++ [c]) = tasksOf ins := (tasksOf_concat ins c).trans (if_pos h0)
    refine ⟨h.table, ?_, ?_, ?_, ?_⟩
    · rw [hcur]
      exact h.entries
    · rw [hcur]
      exact h.streams
    · rw [hcur]
      exact h.apart
    · rw [hcur, List.map_append, List.append_assoc]
      refine (List.perm_append_comm.append_left _).trans ?_
      rw [← List.append_assoc]
      exact h.freed.append_right _
  · rw [if_neg h0, putTask] at hi
    obtain ⟨st₁, hini, hi⟩ := Option.bind_eq_some_iff.mp hi
    obtain ⟨⟨st₂, slot⟩, hagain, hi⟩ := Option.map_eq_some_iff.mp hi
    obtain ⟨hok, hst₁, hsame⟩ := iniTaskHt_spec h.table hini
    have hp : Placed strm st c.1 st₂ slot := (putTaskAgain_placed 64 hok hagain).of_same hst₁ hsame
    obtain ⟨hstrms, hfreed⟩ := h.without hp h0
    obtain ⟨z, hz⟩ := addStrm_eq hrealloc
      { st₂ with taskHt := st₂.taskHt.set slot ⟨c.1, some c.2⟩ } (strm c.2)
    rw [hz] at hi
    have hcur : tasksOf (ins ++ [c]) = (tasksOf ins).filter (fun c' => c'.1 ≠ c.1) ++ [c] :=
      (tasksOf_concat ins c).trans (if_neg h0)
    have hnew : streamsOf strm (tasksOf (ins ++ [c])) =
        streamsOf strm ((tasksOf ins).filter fun c' => c'.1 ≠ c.1) ++ (strm c.2).toList := by
      rw [hcur, streamsOf, List.filterMap_append, List.filterMap_cons]
      cases strm c.2 <;> rfl
    subst hi
    refine ⟨Or.inl (hp.table h0 hlt c.2), fun oid t h0' => ?_, ?_, ?_, ?_⟩
    · rw [hp.entries c.2 h0', h.entries oid t h0', hcur, List.mem_append, List.mem_filter,
        List.mem_singleton, or_comm]
      refine or_congr ?_ ?_
      · rw [decide_eq_true_iff, and_comm]
      · rw [TMap.mk.injEq, Option.some.injEq, Prod.ext_iff]
    · dsimp only
      rw [← List.concat_eq_append, List.reduceOption_concat, hstrms, hnew]
    · rw [hnew]
      have hleft : (streamsOf strm ((tasksOf ins).filter fun c' => c'.1 ≠ c.1)).Sublist
          (streamsOf strm (tasksOf ins)) := List.filter_sublist.filterMap _
      cases hs : strm c.2 with
      | none => exact (List.append_nil _).symm ▸ h.apart.sublist hleft
      | some s =>
          have hnodup := (h.apart.sublist hleft).concat fun hc => hfresh s hs (hleft.subset hc)
          rw [List.concat_eq_append] at hnodup
          exact hnodup
    · dsimp only
      rw [hcur, List.map_append, List.map_append, ← List.append_assoc]
      exact (hfreed.trans h.freed).append_right _

/-- All of them. -/
theorem Held.run (hrealloc : ∀ n, realloc n = true) (hlt : ∀ c ∈ ins, c.1 < 2 ^ 64)
    (hfresh : Fresh strm ins) (hrun : injectAll strm calloc realloc ins = some st) :
    Held strm st ins := by
  induction ins using List.reverseRecOn generalizing st with
  | nil =>
      obtain rfl := Option.some.inj hrun
      exact Held.init
  | append_singleton ins c ih =>
      rw [injectAll, List.foldlM_append] at hrun
      obtain ⟨st₁, hst₁, hlast⟩ := Option.bind_eq_some_iff.mp hrun
      obtain ⟨st₂, hst₂, hnil⟩ := Option.bind_eq_some_iff.mp hlast
      obtain rfl := Option.some.inj hnil
      have hheld := ih (fun c hc => hlt c (List.mem_append_left _ hc))
        (fun pre c' post heq => hfresh pre c' (post ++ [c])
          (by rw [heq, List.append_assoc, List.cons_append])) hst₁
      exact hheld.step hrealloc (hlt c (List.mem_append_right _ (List.mem_singleton_self c)))
        (hfresh ins c [] rfl) hst₂

/-! ### Looking at it -/

/-- What `get_task` finds. -/
theorem getTask_table (h : TableOk st.taskHt) (oid t : Nat) :
    getTask st oid = some t ↔ oid ≠ 0 ∧ ∃ k, htAt st.taskHt k = ⟨oid, some t⟩ := by
  have hlt := h.slot_lt oid
  have hpool : getTask st oid = Echse.getTask ⟨st.taskHt, fun _ => .zero, 0, none, 0, 0⟩ oid := by
    rw [getTask, if_neg (by omega), Echse.getTask, getTaskSlot, Echse.getTaskSlot]
    by_cases hs : (htAt st.taskHt (htSlot st.taskHt.length oid)).oid = oid
    · rw [if_pos hs, if_pos ⟨hlt, hs⟩]
      dsimp only
      rw [if_neg (not_le.mpr hlt)]
    · rw [if_neg hs, if_neg fun hc => hs hc.2]
  rw [hpool]
  exact getTask_iff_entry h

theorem Held.getTask_eq (h : Held strm st ins) (oid : Nat) :
    getTask st oid = if oid = 0 then none else lastPut ins oid := by
  have hfound : ∀ t, getTask st oid = some t ↔ oid ≠ 0 ∧ ∃ k, htAt st.taskHt k = ⟨oid, some t⟩ := by
    intro t
    rcases h.table with hok | hnil
    · exact getTask_table hok oid t
    · rw [getTask, hnil, if_pos List.length_nil]
      refine ⟨fun hc => (nomatch hc), ?_⟩
      rintro ⟨h0, k, hk⟩
      exact absurd (congrArg TMap.oid hk).symm h0
  refine Option.ext fun t => (hfound t).trans ?_
  by_cases h0 : oid = 0
  · rw [if_pos h0]
    exact ⟨fun hc => absurd h0 hc.1, fun hc => (nomatch hc)⟩
  · rw [if_neg h0, h.entries oid t h0, mem_tasksOf, and_iff_right h0, and_iff_right h0]

theorem Held.table_perm (h : Held strm st ins) :
    (st.taskHt.filter fun m => m.oid ≠ 0).Perm
      ((tasksOf ins).map fun c => ⟨c.1, some c.2⟩) := by
  rcases h.table with hok | hnil
  · have hinj : Function.Injective fun c : Nat × Nat => TMap.mk c.1 (some c.2) := by
      intro c c' heq
      obtain ⟨hoid, ht⟩ := TMap.mk.inj heq
      exact Prod.ext hoid (Option.some.inj ht)
    obtain ⟨k, hlen⟩ := hok.len
    have hnodup : (st.taskHt.filter fun m => m.oid ≠ 0).Nodup := by
      refine List.pairwise_filter.mpr ((pairwise_apart hok hlen le_rfl).imp ?_)
      intro m m' hne hm hm' heq
      exact hne (of_decide_eq_true hm) (of_decide_eq_true hm') (by rw [heq])
    rw [List.perm_ext_iff_of_nodup hnodup ((tasksOf_keys ins).of_map.map hinj)]
    intro m
    rw [List.mem_filter, decide_eq_true_iff, List.mem_map]
    constructor
    · rintro ⟨hm, h0⟩
      obtain ⟨i, rfl⟩ := exists_htAt hm
      obtain ⟨t, ht⟩ := Option.ne_none_iff_exists'.mp (mt (hok.task i).mpr h0)
      have heq : htAt st.taskHt i = ⟨(htAt st.taskHt i).oid, some t⟩ := congrArg (TMap.mk _) ht
      exact ⟨(_, t), (h.entries _ t h0).mp ⟨i, heq⟩, heq.symm⟩
    · rintro ⟨c, hc, rfl⟩
      have h0 : c.1 ≠ 0 := (mem_tasksOf.mp hc).1
      obtain ⟨i, hi⟩ := (h.entries c.1 c.2 h0).mpr hc
      exact ⟨hi ▸ mem_of_htAt (by rw [hi]; exact h0), h0⟩
  · have hcur : tasksOf ins = [] := by
      refine List.eq_nil_iff_forall_not_mem.mpr fun c hc => ?_
      have h0 : c.1 ≠ 0 := (mem_tasksOf.mp hc).1
      obtain ⟨k, hk⟩ := (h.entries c.1 c.2 h0).mpr hc
      rw [hnil] at hk
      exact h0 (congrArg TMap.oid hk).symm
    rw [hnil, hcur]
    exact List.Perm.refl _

theorem filter_isSome (strms : List (Option Nat)) :
    strms.filter Option.isSome = strms.reduceOption.map some := by
  induction strms with
  | nil => rfl
  | cons s strms ih =>
      cases s with
      | none => exact ih
      | some s => exact congrArg (some s :: ·) ih

end Echse.Unroll
