/-
State names and their handles.

A name that has a slot to itself and a hash other than 0 takes the next handle, so the
handles are places in the list of those names.  The last handle that is given out is 64,
though, which has neither a name nor a bit of a set, and a name whose hash is 0 is found in
its empty slot and gets none.
-/
import Echse.Intern
import Echse.State
import Echse.Proofs.Stacks

namespace Echse

/-- What `add_state` bothers with. -/
def IsStateName (str : List Char) : Prop := str ≠ [] ∧ str.length < 256

instance (str : List Char) : Decidable (IsStateName str) := inferInstanceAs (Decidable (_ ∧ _))

section

variable (hash : List Char → UInt32)

/-- The state after a sequence of calls. -/
def stateRun (calls : List (List Char)) : States :=
  calls.foldl (fun st str => (addState hash st str).2) .init

/-- What a call returns, after others. -/
def stateOf (calls : List (List Char)) (str : List Char) : Nat :=
  (addState hash (stateRun hash calls) str).1

/-- No two names of the calls share a slot. -/
def OwnSlots (calls : List (List Char)) : Prop :=
  ∀ s ∈ calls, ∀ s' ∈ calls, IsStateName s → IsStateName s' →
    (hash s).toNat % 128 = (hash s').toNat % 128 → s = s'

/-- The names that take a handle, in the order in which they come. -/
def takers (calls : List (List Char)) : List (List Char) :=
  namesOf (calls.filter fun str => IsStateName str ∧ hash str ≠ 0)

/-- The state that stands for the names that have come. -/
structure Stated (st : States) (names : List (List Char)) : Prop where
  sti : st.sti = (names.take 64).length
  pool : PoolFine st.sts (poolText (names.take 64)).length (names.take 64)
  sto : ∀ k < 64, k ≤ names.length → st.sto k = (poolText (names.take k)).length
  free : ∀ off, (∀ s ∈ names, (hash s).toNat % 128 ≠ off) → st.sstk off = ⟨0, 0⟩
  slot : ∀ s ∈ names, st.sstk ((hash s).toNat % 128) =
    ⟨if names.idxOf s < 64 then names.idxOf s + 1 else 0, hash s⟩

variable {hash} {st : States} {names : List (List Char)} {str : List Char}

theorem stated_init : Stated hash .init [] where
  sti := rfl
  pool := ⟨⟨0, rfl⟩, Or.inl rfl, rfl⟩
  sto := fun _ _ hk => by
    rw [List.take_nil]
    rfl
  free := fun _ _ => rfl
  slot := fun _ hs => absurd hs List.not_mem_nil

/-! ### One call -/

theorem addState_short (h : ¬ IsStateName str) (st : States) : addState hash st str = (0, st) := by
  refine if_pos ?_
  by_cases h0 : str = []
  · exact Or.inl (h0 ▸ rfl)
  · exact Or.inr (Nat.le_of_not_lt fun hlt => h ⟨h0, hlt⟩)

theorem addState_name (h : IsStateName str) (st : States) : addState hash st str =
    if (st.sstk ((hash str).toNat % 128)).hx = hash str then
      ((st.sstk ((hash str).toNat % 128)).st, st)
    else if (st.sstk ((hash str).toNat % 128)).hx = 0 then
      ((makeState st str).1, { (makeState st str).2 with
        sstk := Function.update (makeState st str).2.sstk ((hash str).toNat % 128)
          ⟨(makeState st str).1, hash str⟩
        nstk := (makeState st str).2.nstk + 1 })
    else (0, st) := by
  have hlen : 0 < str.length := List.length_pos_iff.mpr h.1
  have hshort := h.2
  exact if_neg (by omega)

/-- A name that is there is found. -/
theorem Stated.add_mem (h : Stated hash st names) (hn : IsStateName str) (hmem : str ∈ names) :
    addState hash st str = (handleIn names str, st) := by
  rw [addState_name hn, h.slot str hmem, if_pos rfl, handleIn]
  simp only [hmem, true_and]

/-- A name whose hash is 0 is found in an empty slot. -/
theorem Stated.add_zero (h : Stated hash st names) (hn : IsStateName str) (h0 : hash str = 0)
    (hown : ∀ s ∈ names, (hash s).toNat % 128 ≠ (hash str).toNat % 128) :
    addState hash st str = (0, st) := by
  rw [addState_name hn, h.free _ hown, if_pos h0.symm]

theorem handleIn_concat (hnew : str ∉ names) :
    handleIn (names ++ [str]) str = if names.length < 64 then names.length + 1 else 0 := by
  have hidx : (names ++ [str]).idxOf str = names.length := by
    rw [List.idxOf_append_of_notMem hnew, List.idxOf_cons_self, Nat.add_zero]
  rw [handleIn, hidx]
  simp

/-- A new name takes a handle. -/
theorem Stated.makeState (h : Stated hash st names) (hn : IsStateName str) (hnew : str ∉ names) :
    (makeState st str).1 = handleIn (names ++ [str]) str ∧
      (makeState st str).2.sstk = st.sstk ∧
      (makeState st str).2.sti = ((names ++ [str]).take 64).length ∧
      PoolFine (makeState st str).2.sts (poolText ((names ++ [str]).take 64)).length
        ((names ++ [str]).take 64) ∧
      ∀ k < 64, k ≤ names.length + 1 →
        (makeState st str).2.sto k = (poolText ((names ++ [str]).take k)).length := by
  have hsti := h.sti
  rw [List.length_take] at hsti
  rw [handleIn_concat hnew, Echse.makeState]
  by_cases hfull : 64 ≤ names.length
  · -- the old names have them all
    have htake : ∀ k ≤ 64, (names ++ [str]).take k = names.take k := fun k hk =>
      List.take_append_of_le_length (by omega)
    rw [if_pos (by omega), if_neg (by omega), htake 64 le_rfl]
    refine ⟨rfl, rfl, h.sti, h.pool, fun k hk _ => ?_⟩
    rw [htake k (by omega)]
    exact h.sto k hk (by omega)
  · have hwhole : names.take 64 = names := List.take_of_length_le (by omega)
    have hwhole' : (names ++ [str]).take 64 = names ++ [str] :=
      List.take_of_length_le (by rw [List.length_append, List.length_singleton]; omega)
    have hlen : st.sti = names.length := by omega
    have hat := h.sto names.length (by omega) le_rfl
    rw [List.take_length] at hat
    have hpool := h.pool
    rw [hwhole] at hpool
    have hpaste := hpool.paste hn.2
    rw [if_neg (by omega), if_pos (by omega), hwhole', hlen]
    refine ⟨rfl, rfl, ?_, ?_, fun k hk hle => ?_⟩
    · rw [List.length_append, List.length_singleton]
    · have hfill : (poolText names).length + zonePad str.length =
          (poolText (names ++ [str])).length := by
        rw [poolText_append, poolText_singleton, List.length_append, zoneText_length]
      rw [hfill] at hpaste
      dsimp only
      rw [hat]
      exact hpaste
    · dsimp only
      by_cases hlast : k = names.length + 1
      · subst hlast
        rw [if_pos hk, Function.update_self, hat,
          List.take_of_length_le (l := names ++ [str])
            (by rw [List.length_append, List.length_singleton]),
          poolText_append, poolText_singleton, List.length_append, zoneText_length]
      · have hkeep : (if names.length + 1 < 64 then
            Function.update st.sto (names.length + 1) (st.sto names.length + zonePad str.length)
            else st.sto) k = st.sto k := by
          split
          · exact Function.update_of_ne hlast ..
          · rfl
        rw [hkeep, List.take_append_of_le_length (by omega)]
        exact h.sto k hk (by omega)

/-- A new name is put in. -/
theorem Stated.add_new (h : Stated hash st names) (hn : IsStateName str) (hnew : str ∉ names)
    (h0 : hash str ≠ 0) (hown : ∀ s ∈ names, (hash s).toNat % 128 ≠ (hash str).toNat % 128) :
    (addState hash st str).1 = handleIn (names ++ [str]) str ∧
      Stated hash (addState hash st str).2 (names ++ [str]) := by
  obtain ⟨hhandle, hsstk, hsti, hpool, hsto⟩ := h.makeState hn hnew
  have hlen : (names ++ [str]).length = names.length + 1 := by
    rw [List.length_append, List.length_singleton]
  rw [addState_name hn, h.free _ hown, if_neg (fun heq => h0 heq.symm), if_pos rfl]
  refine ⟨hhandle, hsti, hpool, fun k hk hle => hsto k hk (by omega), fun off hoff => ?_,
    fun s hs => ?_⟩
  · dsimp only
    rw [Function.update_of_ne (fun heq => hoff str (by simp) heq.symm), hsstk]
    exact h.free off fun s hs => hoff s (List.mem_append_left _ hs)
  · dsimp only
    rcases List.mem_append.mp hs with hs' | hs'
    · rw [Function.update_of_ne (hown s hs'), hsstk, List.idxOf_append_of_mem hs']
      exact h.slot s hs'
    · obtain rfl := List.mem_singleton.mp hs'
      have hidx : (names ++ [s]).idxOf s = names.length := by
        rw [List.idxOf_append_of_notMem hnew, List.idxOf_cons_self, Nat.add_zero]
      rw [Function.update_self, hhandle, handleIn_concat hnew, hidx]

/-! ### Sequences of calls -/

variable {calls more pre post : List (List Char)}

theorem mem_takers : str ∈ takers hash calls ↔ str ∈ calls ∧ IsStateName str ∧ hash str ≠ 0 := by
  rw [takers, mem_namesOf, List.mem_filter, decide_eq_true_iff]

theorem takers_grows (calls more : List (List Char)) :
    takers hash calls <+: takers hash (calls ++ more) := by
  rw [takers, takers, List.filter_append]
  exact namesOf_grows _ _

theorem takers_concat (h : IsStateName str ∧ hash str ≠ 0) :
    takers hash (calls ++ [str]) = addName (takers hash calls) str := by
  have hone : [str].filter (fun str => IsStateName str ∧ hash str ≠ 0) = [str] :=
    List.filter_cons_of_pos (decide_eq_true h)
  rw [takers, List.filter_append, hone, namesOf_concat, takers]

theorem takers_concat_not (h : ¬ (IsStateName str ∧ hash str ≠ 0)) :
    takers hash (calls ++ [str]) = takers hash calls := by
  have hnone : [str].filter (fun str => IsStateName str ∧ hash str ≠ 0) = [] :=
    List.filter_cons_of_neg fun hd => h (of_decide_eq_true hd)
  rw [takers, List.filter_append, hnone, List.append_nil, takers]

theorem handleIn_grows (hmem : str ∈ names) (more : List (List Char)) :
    handleIn (names ++ more) str = handleIn names str := by
  rw [handleIn, handleIn, List.idxOf_append_of_mem hmem]
  simp only [List.mem_append, hmem, true_or]

theorem handleIn_of_notMem (h : str ∉ names) : handleIn names str = 0 :=
  if_neg fun hmem => h hmem.1

theorem OwnSlots.left (h : OwnSlots hash (calls ++ more)) : OwnSlots hash calls :=
  fun s hs s' hs' => h s (List.mem_append_left _ hs) s' (List.mem_append_left _ hs')

/-- The slot of a new name is its own. -/
theorem OwnSlots.own (h : OwnSlots hash (calls ++ [str])) (hn : IsStateName str)
    (hnew : str ∉ takers hash calls) :
    ∀ s ∈ takers hash calls, (hash s).toNat % 128 ≠ (hash str).toNat % 128 := by
  intro s hs heq
  obtain ⟨hs', hname, -⟩ := mem_takers.mp hs
  exact hnew (h s (by simp [hs']) str (by simp) hname hn heq ▸ hs)

/-- One call more. -/
theorem OwnSlots.step (h : OwnSlots hash (calls ++ [str])) (hst : Stated hash st (takers hash calls)) :
    (addState hash st str).1 = handleIn (takers hash (calls ++ [str])) str ∧
      Stated hash (addState hash st str).2 (takers hash (calls ++ [str])) := by
  by_cases hn : IsStateName str
  · by_cases h0 : hash str = 0
    · have hnot : str ∉ takers hash calls := fun hmem => (mem_takers.mp hmem).2.2 h0
      rw [takers_concat_not fun hx => hx.2 h0, handleIn_of_notMem hnot,
        hst.add_zero hn h0 (h.own hn hnot)]
      exact ⟨rfl, hst⟩
    · rw [takers_concat ⟨hn, h0⟩, addName]
      by_cases hmem : str ∈ takers hash calls
      · rw [if_pos hmem, hst.add_mem hn hmem]
        exact ⟨rfl, hst⟩
      · rw [if_neg hmem]
        exact hst.add_new hn hmem h0 (h.own hn hmem)
  · rw [takers_concat_not fun hx => hn hx.1, addState_short hn,
      handleIn_of_notMem fun hmem => hn (mem_takers.mp hmem).2.1]
    exact ⟨rfl, hst⟩

theorem OwnSlots.stated (h : OwnSlots hash calls) :
    Stated hash (stateRun hash calls) (takers hash calls) := by
  induction calls using List.reverseRecOn with
  | nil => exact stated_init
  | append_singleton calls str ih =>
      rw [stateRun, List.foldl_append]
      exact (h.step (ih h.left)).2

/-- A handle is a place among the names that have taken one. -/
theorem OwnSlots.stateOf_eq (h : OwnSlots hash calls) (heq : calls = pre ++ str :: post) :
    stateOf hash pre str = handleIn (takers hash calls) str := by
  rw [List.append_cons] at heq
  subst heq
  have hstep := (h.left.step h.left.left.stated).1
  obtain ⟨more, hmore⟩ := @takers_grows hash (pre ++ [str]) post
  rw [stateOf, hstep, ← hmore]
  by_cases hn : IsStateName str ∧ hash str ≠ 0
  · exact (handleIn_grows (mem_takers.mpr ⟨by simp, hn⟩) more).symm
  · have hnot : ∀ calls, str ∉ takers hash calls := fun calls hmem => hn (mem_takers.mp hmem).2
    rw [hmore, handleIn_of_notMem (hnot _), handleIn_of_notMem (hnot _)]

/-! ### Handles -/

theorem handleIn_pos (h : handleIn names str ≠ 0) :
    str ∈ names ∧ handleIn names str = names.idxOf str + 1 ∧ names.idxOf str < 64 := by
  rw [handleIn] at h ⊢
  split at h
  · rename_i hin
    rw [if_pos hin]
    exact ⟨hin.1, rfl, hin.2⟩
  · exact absurd rfl h

theorem handleIn_inj {str' : List Char} (h : handleIn names str = handleIn names str')
    (h0 : handleIn names str ≠ 0) : str = str' := by
  obtain ⟨hmem, heq, -⟩ := handleIn_pos h0
  obtain ⟨-, heq', -⟩ := handleIn_pos (h ▸ h0)
  exact (List.idxOf_inj hmem).mp (by omega)

theorem handleIn_getElem (hnodup : names.Nodup) {i : Nat} (hi : i < names.length) (hlt : i < 64) :
    handleIn names names[i] = i + 1 := by
  have hidx := hnodup.idxOf_getElem i hi
  rw [handleIn, hidx, if_pos ⟨List.getElem_mem hi, hlt⟩]

theorem nodup_takers (calls : List (List Char)) : (takers hash calls).Nodup := nodup_namesOf _

/-- What the name of a handle is at any time. -/
theorem Stated.stateName_eq (h : Stated hash st names) (h0 : handleIn names str ≠ 0)
    (hlt : handleIn names str < 64) : stateName st (handleIn names str) = some (cStr str) := by
  obtain ⟨hmem, heq, -⟩ := handleIn_pos h0
  have hidx := List.idxOf_lt_length_iff.mpr hmem
  have hin : names.idxOf str < (names.take 64).length := by
    rw [List.length_take]
    omega
  obtain ⟨r, hr⟩ := h.pool.drop hin
  have hget : (names.take 64).getD (names.idxOf str) [] = str := by
    rw [List.getD_eq_getElem _ _ hin, List.getElem_take, List.getElem_idxOf]
  rw [List.take_take, Nat.min_eq_left (by omega), hget] at hr
  rw [stateName, if_neg (by omega), heq, Nat.add_sub_cancel,
    h.sto _ (by omega) hidx.le, hr, cStr_zoneText]

/-- A handle of less than 64 is a bit of a set. -/
theorem stsetAddState_has (set : BitVec 64) {s : Nat} (hs : s < 64) :
    ∃ set', stsetAddState set s = some set' ∧ ∀ s' < 64,
      stsetHasStateP set' s' = some (decide (s' = s) || set.getLsbD s') := by
  refine ⟨set ||| 1#64 <<< s, if_pos hs, fun s' hs' => ?_⟩
  have hbit : (1#64 <<< s).getLsbD s' = decide (s' = s) := by
    have hat : decide (s' = s) = (!decide (s' < s) && decide (s' - s = 0)) := by
      rw [← decide_not, ← Bool.decide_and, decide_eq_decide]
      omega
    rw [BitVec.getLsbD_shiftLeft, BitVec.getLsbD_one, hat]
    simp [hs']
  rw [stsetHasStateP, if_pos hs', BitVec.getLsbD_ushiftRight, BitVec.getLsbD_or, Nat.add_zero, hbit,
    Bool.or_comm]

/-! ### What is expected of them -/

variable (hash) in
/-- What is expected of states over a sequence of calls: a name has the same handle every time,
a handle is up to 63 and has one name, which it leads to at any later time and with which it is
a bit of a set, and there is none (0) for a name if and only if others have them all. -/
def StatesRight (calls : List (List Char)) : Prop :=
  ∀ pre str post, calls = pre ++ str :: post → IsStateName str →
    stateOf hash pre str ≤ 63 ∧
    (∀ pre' str' post', calls = pre' ++ str' :: post' → IsStateName str' →
      (str = str' → stateOf hash pre str = stateOf hash pre' str') ∧
      (stateOf hash pre str = stateOf hash pre' str' → stateOf hash pre str ≠ 0 → str = str')) ∧
    (stateOf hash pre str = 0 ↔ ∀ s, 1 ≤ s → s ≤ 63 → ∃ pre' str' post',
      pre = pre' ++ str' :: post' ∧ str' ≠ str ∧ stateOf hash pre' str' = s) ∧
    (stateOf hash pre str ≠ 0 → ∀ later rest, post = later ++ rest →
      stateName (stateRun hash (pre ++ str :: later)) (stateOf hash pre str) = some str) ∧
    ∀ set, ∃ set', stsetAddState set (stateOf hash pre str) = some set' ∧ ∀ s < 64,
      stsetHasStateP set' s = some (decide (s = stateOf hash pre str) || set.getLsbD s)

/-- The names that are to have handles. -/
def stateNames (calls : List (List Char)) : List (List Char) :=
  namesOf (calls.filter fun str => IsStateName str)

theorem takers_eq (calls : List (List Char)) :
    takers hash calls = (stateNames calls).filter fun str => hash str ≠ 0 := by
  rw [stateNames, ← namesOf_filter, List.filter_filter, takers]
  simp only [Bool.decide_and, Bool.and_comm]

theorem mem_stateNames : str ∈ stateNames calls ↔ str ∈ calls ∧ IsStateName str := by
  rw [stateNames, mem_namesOf, List.mem_filter, decide_eq_true_iff]

theorem stateNames_grows (calls more : List (List Char)) :
    stateNames calls <+: stateNames (calls ++ more) := by
  rw [stateNames, stateNames, List.filter_append]
  exact namesOf_grows _ _

variable (hash) in
/-- The first 63 names can be hashed and are strings, any others cannot. -/
def HashedUp (calls : List (List Char)) : Prop :=
  (∀ s ∈ (stateNames calls).take 63, hash s ≠ 0 ∧ '\x00' ∉ s) ∧
    ∀ s ∈ (stateNames calls).drop 63, hash s = 0

/-- The handles then go to the first 63 names. -/
theorem HashedUp.takers_eq (h : HashedUp hash calls) :
    takers hash calls = (stateNames calls).take 63 := by
  conv_lhs => rw [Echse.takers_eq, ← List.take_append_drop 63 (stateNames calls)]
  have hall := List.filter_eq_self.mpr fun s hs => decide_eq_true (h.1 s hs).1
  have hnone := List.filter_eq_nil_iff.mpr fun s hs hd =>
    of_decide_eq_true (p := hash s ≠ 0) hd (h.2 s hs)
  rw [List.filter_append, hall, hnone, List.append_nil]

/-- A name without a handle comes after 63 others. -/
theorem HashedUp.others (h : HashedUp hash (pre ++ str :: post)) (hn : IsStateName str)
    (hnot : str ∉ takers hash (pre ++ str :: post)) :
    63 ≤ (stateNames pre).length ∧ str ∉ (stateNames pre).take 63 := by
  rw [h.takers_eq, List.append_cons] at hnot
  have hgrow := stateNames_grows (pre ++ [str]) post
  have hone : [str].filter (fun str => IsStateName str) = [str] :=
    List.filter_cons_of_pos (decide_eq_true hn)
  have hadd : stateNames (pre ++ [str]) = addName (stateNames pre) str := by
    rw [stateNames, List.filter_append, hone, namesOf_concat, stateNames]
  have hout : str ∉ (stateNames (pre ++ [str])).take 63 := fun hin =>
    hnot ((hgrow.take 63).subset hin)
  rw [hadd] at hout
  refine ⟨Nat.le_of_not_lt fun hlt => hout ?_, fun hin =>
    hout (((addName_grows _ str).take 63).subset hin)⟩
  have hlen : (addName (stateNames pre) str).length ≤ 63 := by
    rw [addName]
    split
    · omega
    · rw [List.length_append, List.length_singleton]
      omega
  rw [List.take_of_length_le hlen]
  exact mem_addName.mpr (Or.inr rfl)

/-- Then the 63 others have all the handles. -/
theorem HashedUp.given (hown : OwnSlots hash (pre ++ str :: post))
    (h : HashedUp hash (pre ++ str :: post)) (hn : IsStateName str)
    (hnot : str ∉ takers hash (pre ++ str :: post)) {s : Nat} (h1 : 1 ≤ s) (h63 : s ≤ 63) :
    ∃ pre' str' post', pre = pre' ++ str' :: post' ∧ str' ≠ str ∧ stateOf hash pre' str' = s := by
  obtain ⟨hmany, hout⟩ := h.others hn hnot
  have hgrow := (stateNames_grows pre (str :: post)).take 63
  rw [← h.takers_eq] at hgrow
  have hs : s - 1 < ((stateNames pre).take 63).length := by
    rw [List.length_take]
    omega
  have hidx := hs.trans_le hgrow.length_le
  have hplace := handleIn_getElem (nodup_takers _) hidx (by omega)
  rw [← hgrow.getElem hs] at hplace
  have hmem := List.getElem_mem hs
  generalize ((stateNames pre).take 63)[s - 1] = str' at hplace hmem
  obtain ⟨pre', post', rfl⟩ := List.append_of_mem (mem_stateNames.mp (List.mem_of_mem_take hmem)).1
  refine ⟨pre', str', post', rfl, fun hsame => hout (hsame ▸ hmem), ?_⟩
  rw [hown.stateOf_eq (List.append_assoc ..), hplace]
  omega

/-- The name of a handle later. -/
theorem OwnSlots.name {later rest : List (List Char)}
    (h : OwnSlots hash (pre ++ str :: (later ++ rest))) (h0 : stateOf hash pre str ≠ 0)
    (hle : stateOf hash pre str ≤ 63) :
    stateName (stateRun hash (pre ++ str :: later)) (stateOf hash pre str) = some (cStr str) := by
  have hsplit : pre ++ str :: (later ++ rest) = pre ++ str :: later ++ rest := by simp
  rw [hsplit] at h
  have hhandle : stateOf hash pre str = handleIn (takers hash (pre ++ str :: later)) str :=
    h.left.stateOf_eq rfl
  rw [hhandle] at h0 hle ⊢
  exact h.left.stated.stateName_eq h0 (by omega)

theorem OwnSlots.handle_inj (h : OwnSlots hash calls) {pre' post' : List (List Char)}
    {str' : List Char} (heq : calls = pre ++ str :: post) (heq' : calls = pre' ++ str' :: post')
    (hsame : stateOf hash pre str = stateOf hash pre' str') (h0 : stateOf hash pre str ≠ 0) :
    str = str' := by
  rw [h.stateOf_eq heq] at hsame h0
  rw [h.stateOf_eq heq'] at hsame
  exact handleIn_inj hsame h0

theorem HashedUp.right (hown : OwnSlots hash calls) (h : HashedUp hash calls) :
    StatesRight hash calls := by
  intro pre str post heq hn
  have hstate := hown.stateOf_eq heq
  have hlen : (takers hash calls).length ≤ 63 := by
    rw [h.takers_eq, List.length_take]
    exact Nat.min_le_left ..
  have hidx : str ∈ takers hash calls → (takers hash calls).idxOf str < 63 := fun hmem =>
    (List.idxOf_lt_length_iff.mpr hmem).trans_le hlen
  have hle : stateOf hash pre str ≤ 63 := by
    by_cases h0 : stateOf hash pre str = 0
    · omega
    · obtain ⟨hmem, hplace, -⟩ := handleIn_pos (hstate ▸ h0)
      have := hidx hmem
      omega
  refine ⟨hle, fun pre' str' post' heq' _ => ⟨?_, hown.handle_inj heq heq'⟩,
    ⟨fun h0 s h1 h63 => ?_, fun hgone => ?_⟩, ?_, fun set => stsetAddState_has set (by omega)⟩
  · rintro rfl
    rw [hstate, hown.stateOf_eq heq']
  · have hnot : str ∉ takers hash calls := fun hmem => by
      have := hidx hmem
      rw [hstate, handleIn, if_pos ⟨hmem, by omega⟩] at h0
      exact absurd h0 (Nat.succ_ne_zero _)
    subst heq
    exact h.given hown hn hnot h1 h63
  · -- a handle of one's own is not one of others
    by_contra h0
    obtain ⟨pre', str', post', hsplit, hne, hsame⟩ :=
      hgone (stateOf hash pre str) (Nat.one_le_iff_ne_zero.mpr h0) hle
    have heq' : calls = pre' ++ str' :: (post' ++ str :: post) := by rw [heq, hsplit]; simp
    exact hne (hown.handle_inj heq heq' hsame.symm h0).symm
  · rintro h0 later rest rfl
    have hmem := (handleIn_pos (hstate ▸ h0)).1
    rw [h.takers_eq] at hmem
    subst heq
    rw [hown.name h0 hle, cStr_of_notMem (h.1 str hmem).2]

/-! ### And what that takes -/

theorem StatesRight.takers_le (hown : OwnSlots hash calls) (h : StatesRight hash calls) :
    (takers hash calls).length ≤ 63 := by
  by_contra hgt
  have hlt : 63 < (takers hash calls).length := by omega
  have hmem := List.getElem_mem hlt
  have hget := handleIn_getElem (@nodup_takers hash calls) hlt (by omega)
  generalize (takers hash calls)[63] = str at hmem hget
  obtain ⟨hcall, hn, -⟩ := mem_takers.mp hmem
  obtain ⟨pre, post, rfl⟩ := List.append_of_mem hcall
  have hle := (h pre str post rfl hn).1
  rw [hown.stateOf_eq rfl, hget] at hle
  omega

/-- A name without a handle has had to come after 63 others. -/
theorem StatesRight.taken (hown : OwnSlots hash calls) (h : StatesRight hash calls)
    (hmem : str ∈ (stateNames calls).take 63) : hash str ≠ 0 := by
  intro h0
  obtain ⟨hcall, hn⟩ := mem_stateNames.mp (List.mem_of_mem_take hmem)
  obtain ⟨pre, post, rfl, hfirst⟩ := List.eq_append_cons_of_mem hcall
  have hnone : stateOf hash pre str = 0 := by
    rw [hown.stateOf_eq rfl, handleIn_of_notMem fun ht => (mem_takers.mp ht).2.2 h0]
  obtain ⟨pre', str', post', rfl, -, hlast⟩ :=
    (h pre str post rfl hn).2.2.1.mp hnone 63 (by omega) le_rfl
  have hbefore := hown.left.stateOf_eq rfl
  rw [hlast] at hbefore
  obtain ⟨htaker, hplace, -⟩ := handleIn_pos (hbefore ▸ (by omega : (63 : Nat) ≠ 0))
  have hlt := List.idxOf_lt_length_iff.mpr htaker
  have hfew : (takers hash (pre' ++ str' :: post')).length ≤
      (stateNames (pre' ++ str' :: post')).length := by
    rw [takers_eq]
    exact List.length_filter_le ..
  have hgrow := (stateNames_grows (pre' ++ str' :: post') (str :: post)).take 63
  have hwhole := hgrow.eq_of_length (by
    have := (stateNames_grows (pre' ++ str' :: post') (str :: post)).length_le
    rw [List.length_take, List.length_take]
    omega)
  rw [← hwhole] at hmem
  exact hfirst (mem_stateNames.mp (List.mem_of_mem_take hmem)).1

theorem StatesRight.hashedUp (hown : OwnSlots hash calls) (h : StatesRight hash calls) :
    HashedUp hash calls := by
  have hlen := h.takers_le hown
  refine ⟨fun s hs => ⟨h.taken hown hs, ?_⟩, fun s hs => ?_⟩
  · obtain ⟨hcall, hn⟩ := mem_stateNames.mp (List.mem_of_mem_take hs)
    have hmem := mem_takers.mpr ⟨hcall, hn, h.taken hown hs⟩
    have hidx := List.idxOf_lt_length_iff.mpr hmem
    obtain ⟨pre, post, rfl⟩ := List.append_of_mem hcall
    obtain ⟨hle, -, -, hname, -⟩ := h pre s post rfl hn
    have h0 : stateOf hash pre s ≠ 0 := by
      rw [hown.stateOf_eq rfl, handleIn, if_pos ⟨hmem, by omega⟩]
      exact Nat.succ_ne_zero _
    have hback := hname h0 [] post rfl
    have hsame : stateName (stateRun hash (pre ++ [s])) (stateOf hash pre s) = some (cStr s) :=
      hown.name h0 hle
    rw [hsame] at hback
    exact Option.some.inj hback ▸ nul_notMem_cStr s
  · by_contra h0
    have htake : ((stateNames calls).take 63).filter (fun str => hash str ≠ 0) =
        (stateNames calls).take 63 :=
      List.filter_eq_self.mpr fun s hs => decide_eq_true (h.taken hown hs)
    have hdrop : 0 < (((stateNames calls).drop 63).filter fun str => hash str ≠ 0).length :=
      List.length_pos_of_mem (List.mem_filter.mpr ⟨hs, decide_eq_true h0⟩)
    have hpos := List.length_pos_of_mem hs
    rw [List.length_drop] at hpos
    rw [takers_eq, ← List.take_append_drop 63 (stateNames calls), List.filter_append, htake,
      List.length_append, List.length_take] at hlen
    omega

variable (hash) in
/-- **States have handles** as they should if and only if the first 63 names are strings whose
hash is not 0 and there is at most a name of hash 0 after them. -/
theorem states_right_iff (calls : List (List Char)) (h : OwnSlots hash calls) :
    StatesRight hash calls ↔ HashedUp hash calls :=
  ⟨fun hr => hr.hashedUp h, fun hup => hup.right h⟩

end

/-- 64 names that have slots of their own. -/
def numberedStates : List (List Char) :=
  [0, 2, 3, 4, 5, 6, 7, 8, 9, 10, 11, 12, 14, 16, 17, 18, 19, 20, 21, 22, 23, 24, 26, 28, 29, 31,
    32, 33, 34, 35, 36, 37, 38, 39, 41, 42, 43, 44, 47, 49, 50, 51, 52, 53, 55, 57, 58, 59, 60, 62,
    66, 67, 68, 71, 72, 73, 74, 75, 77, 79, 80, 81, 82, 84].map (Nat.toDigits 10)

theorem ownSlots_numberedStates : OwnSlots hash numberedStates := by
  have hnodup : (numberedStates.map fun s => (hash s).toNat % 128).Nodup := by decide +kernel
  exact fun s hs s' hs' _ _ heq => List.inj_on_of_nodup_map hnodup hs hs' heq

theorem states_right_63 : StatesRight hash (numberedStates.take 63) :=
  (states_right_iff hash (numberedStates.take 63) fun s hs s' hs' =>
    ownSlots_numberedStates s (List.mem_of_mem_take hs) s' (List.mem_of_mem_take hs')).mpr
    ⟨by decide +kernel, by decide +kernel⟩

/-- The 64th name has a handle that is not one. -/
theorem states_wrong_64 : ¬ ∀ calls, OwnSlots hash calls → StatesRight hash calls := by
  intro hall
  have hlen := (hall numberedStates ownSlots_numberedStates).takers_le ownSlots_numberedStates
  have hmany : (takers hash numberedStates).length = 64 := by decide +kernel
  omega

end Echse
