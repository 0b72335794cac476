/-
What the queue files list after a checkpoint.

`chkpnt` goes one of two ways.  With fewer than 16 changes noted it writes the files of
those users and is right.  With 16 it writes the files of the users it comes across in
the table, and misses those who have no task left.

Whether a request gets a fresh file is up to the trie.  It is right as long as no
change comes after a checkpoint of earlier ones and none is dropped for want of a node;
`queue_fresh` is about the runs in which that is so.
-/
import Echse.Chkpnt
import Echse.Lib.Runs
import Mathlib.Tactic

namespace Echse

open Runs

/-- The tasks of `u` in the table that still have events. -/
def tasksOf (u : Nat) (tab : List Row) : List Nat := (tab.filter (listed u)).map (·.oid)

/-- The users that `chkpnta` comes across in the table. -/
def users (tab : List Row) : Finset Nat :=
  ((tab.filter fun r => r.oid != 0 && r.owner != notAUid).map (·.owner)).toFinset

theorem mem_users {u : Nat} {tab : List Row} :
    u ∈ users tab ↔ u ≠ notAUid ∧ ∃ r ∈ tab, r.oid ≠ 0 ∧ r.owner = u := by
  unfold users
  simp only [List.mem_toFinset, List.mem_map, List.mem_filter, Bool.and_eq_true, bne_iff_ne]
  constructor
  · rintro ⟨r, ⟨hr, h0, hn⟩, rfl⟩
    exact ⟨hn, r, hr, h0, rfl⟩
  · rintro ⟨hn, r, hr, h0, rfl⟩
    exact ⟨r, ⟨hr, h0, hn⟩, rfl⟩

/-! ### The scan of all users -/

theorem tasksOf_cons (u : Nat) (r : Row) (tab : List Row) :
    tasksOf u (r :: tab) =
      (if r.oid ≠ 0 ∧ r.owner = u then icalified r else []) ++ tasksOf u tab := by
  unfold tasksOf icalified
  by_cases h : r.oid ≠ 0 ∧ r.owner = u
  · by_cases hl : r.live = true
    · rw [if_pos h, if_pos hl, List.filter_cons_of_pos (by simp [listed, h.1, h.2, hl])]
      rfl
    · rw [if_pos h, if_neg hl, List.filter_cons_of_neg (by simp [listed, hl])]
      rfl
  · rw [if_neg h, List.filter_cons_of_neg]
    · rfl
    · simp only [listed, Bool.and_eq_true, bne_iff_ne, beq_iff_eq]
      exact fun hc => h hc.1

/-- A row that counts for a user. -/
def Row.Counts (r : Row) : Prop := r.oid ≠ 0 ∧ r.owner ≠ notAUid

theorem users_cons_of_counts {r : Row} (h : r.Counts) (tab : List Row) :
    users (r :: tab) = insert r.owner (users tab) := by
  unfold users
  rw [List.filter_cons_of_pos (by simp [h.1, h.2]), List.map_cons, List.toFinset_cons]

theorem users_cons_of_not {r : Row} (h : ¬ r.Counts) (tab : List Row) :
    users (r :: tab) = users tab := by
  unfold users
  rw [List.filter_cons_of_neg]
  simp only [Bool.and_eq_true, bne_iff_ne]
  exact h

/-- What is written to the file of `u` among those open. -/
def fileOf (u : Nat) (snds : List Seen) : Option (List Nat) := (snds.find? (·.u == u)).map (·.out)

/-- The users whose files are open. -/
def seenUsers (snds : List Seen) : List Nat := snds.map (·.u)

theorem fileOf_cons (u : Nat) (s : Seen) (snds : List Seen) :
    fileOf u (s :: snds) = if s.u = u then some s.out else fileOf u snds := by
  unfold fileOf
  by_cases h : s.u = u
  · simp [h]
  · simp [h]

theorem fileOf_append (u : Nat) (snds : List Seen) (s : Seen) :
    fileOf u (snds ++ [s]) =
      match fileOf u snds with
      | some out => some out
      | none => if s.u = u then some s.out else none := by
  induction snds with
  | nil => exact fileOf_cons u s []
  | cons t snds ih =>
      rw [List.cons_append, fileOf_cons, fileOf_cons, ih]
      by_cases h : t.u = u
      · simp [h]
      · simp [h]

theorem fileOf_seenWrite (u : Nat) (r : Row) (snds : List Seen) :
    fileOf u (seenWrite r snds) =
      (fileOf u snds).map (· ++ (if r.owner = u then icalified r else [])) := by
  induction snds with
  | nil => rfl
  | cons s snds ih =>
      have hcons : seenWrite r (s :: snds) =
          (if s.u = r.owner then { s with out := s.out ++ icalified r } else s) ::
            seenWrite r snds := rfl
      rw [hcons, fileOf_cons, fileOf_cons, ih]
      by_cases hs : s.u = r.owner
      · rw [if_pos hs]
        by_cases hu : s.u = u
        · rw [if_pos hu, if_pos hu, if_pos (hs.symm.trans hu)]
          rfl
        · rw [if_neg hu, if_neg hu]
      · rw [if_neg hs]
        by_cases hu : s.u = u
        · have hvu : ¬ r.owner = u := fun h => hs (hu.trans h.symm)
          rw [if_pos hu, if_pos hu, if_neg hvu]
          simp
        · rw [if_neg hu, if_neg hu]

theorem seenUsers_seenWrite (r : Row) (snds : List Seen) :
    seenUsers (seenWrite r snds) = seenUsers snds := by
  unfold seenUsers seenWrite
  rw [List.map_map]
  refine List.map_congr_left fun s _ => ?_
  show (if s.u = r.owner then _ else s : Seen).u = s.u
  split <;> rfl

theorem any_user_iff {snds : List Seen} {u : Nat} :
    snds.any (·.u == u) = true ↔ u ∈ seenUsers snds := by
  simp only [seenUsers, List.any_eq_true, beq_iff_eq, List.mem_map]

theorem fileOf_eq_none {u : Nat} {snds : List Seen} :
    fileOf u snds = none ↔ u ∉ seenUsers snds := by
  unfold fileOf seenUsers
  rw [Option.map_eq_none_iff, List.find?_eq_none]
  simp only [beq_iff_eq, List.mem_map, not_exists, not_and]

/-- A new user is noted once. -/
theorem seenUsers_append {r : Row} {snds : List Seen} (hnd : (seenUsers snds).Nodup)
    (hnew : r.owner ∉ seenUsers snds) :
    (seenUsers (snds ++ [⟨r.owner, icalified r⟩])).Nodup := by
  unfold seenUsers at *
  rw [List.map_append, List.nodup_append]
  refine ⟨hnd, by simp, ?_⟩
  intro a ha b hb
  obtain rfl : b = r.owner := by simpa using hb
  exact fun hc => hnew (hc ▸ ha)

/-- One row of the scan. -/
theorem chkpntaScan_cons (r : Row) (tab : List Row) (snds : List Seen) :
    (¬ r.Counts ∧ chkpntaScan (r :: tab) snds = chkpntaScan tab snds) ∨
    (r.Counts ∧ r.owner ∈ seenUsers snds ∧
      chkpntaScan (r :: tab) snds = chkpntaScan tab (seenWrite r snds)) ∨
    (r.Counts ∧ r.owner ∉ seenUsers snds ∧ snds.length < nChkpnts ∧
      chkpntaScan (r :: tab) snds = chkpntaScan tab (snds ++ [⟨r.owner, icalified r⟩])) ∨
    (r.Counts ∧ r.owner ∉ seenUsers snds ∧ ¬ snds.length < nChkpnts ∧
      chkpntaScan (r :: tab) snds = none) := by
  rw [chkpntaScan]
  by_cases h0 : r.oid = 0
  · exact Or.inl ⟨fun hc => hc.1 h0, if_pos h0⟩
  rw [if_neg h0]
  by_cases hno : r.owner = notAUid
  · exact Or.inl ⟨fun hc => hc.2 hno, if_pos hno⟩
  rw [if_neg hno]
  by_cases hseen : snds.any (·.u == r.owner) = true
  · exact Or.inr (Or.inl ⟨⟨h0, hno⟩, any_user_iff.mp hseen, if_pos hseen⟩)
  rw [if_neg hseen]
  have hnew : r.owner ∉ seenUsers snds := fun hc => hseen (any_user_iff.mpr hc)
  by_cases hroom : snds.length < nChkpnts
  · exact Or.inr (Or.inr (Or.inl ⟨⟨h0, hno⟩, hnew, hroom, if_pos hroom⟩))
  · exact Or.inr (Or.inr (Or.inr ⟨⟨h0, hno⟩, hnew, hroom, if_neg hroom⟩))

/-- What the file of `u` lists after the scan of `tab`, if it listed `old`. -/
def scanned (u : Nat) (tab : List Row) (old : Option (List Nat)) : Option (List Nat) :=
  match old with
  | some l => some (l ++ tasksOf u tab)
  | none => if u ∈ users tab then some (tasksOf u tab) else none

/-- The files written are those of the users seen, with their tasks. -/
theorem chkpntaScan_files : ∀ (tab : List Row) {snds out : List Seen},
    chkpntaScan tab snds = some out → (seenUsers snds).Nodup → notAUid ∉ seenUsers snds →
      (seenUsers out).Nodup ∧ ∀ u, fileOf u out = scanned u tab (fileOf u snds) := by
  intro tab
  induction tab with
  | nil =>
      intro snds out h hnd hna
      obtain rfl : snds = out := by simpa [chkpntaScan] using h
      refine ⟨hnd, fun u => ?_⟩
      cases fileOf u snds with
      | none => simp [scanned, users]
      | some l => simp [scanned, tasksOf]
  | cons r tab ih =>
      intro snds out h hnd hna
      rcases chkpntaScan_cons r tab snds with ⟨hc, hs⟩ | ⟨hc, hmem, hs⟩ | ⟨hc, hnew, -, hs⟩ |
        ⟨-, -, -, hs⟩
      · -- skipped
        rw [hs] at h
        obtain ⟨hnd', hf⟩ := ih h hnd hna
        refine ⟨hnd', fun u => ?_⟩
        rw [hf u]
        unfold scanned
        rw [users_cons_of_not hc]
        by_cases hun : u = notAUid
        · have hnone : fileOf u snds = none := fileOf_eq_none.mpr (hun ▸ hna)
          have hnot : u ∉ users tab := fun hm => (mem_users.mp hm).1 hun
          rw [hnone]
          simp [hnot]
        · have hnc : ¬ (r.oid ≠ 0 ∧ r.owner = u) := fun hcu => hc ⟨hcu.1, hcu.2 ▸ hun⟩
          rw [tasksOf_cons, if_neg hnc, List.nil_append]
      · -- seen him
        rw [hs] at h
        obtain ⟨hnd', hf⟩ := ih h (by rwa [seenUsers_seenWrite]) (by rwa [seenUsers_seenWrite])
        refine ⟨hnd', fun u => ?_⟩
        rw [hf u, fileOf_seenWrite]
        unfold scanned
        rw [users_cons_of_counts hc, tasksOf_cons]
        cases hfu : fileOf u snds with
        | some l => simp [hc.1]
        | none =>
            have hne : ¬ r.owner = u := by
              rintro rfl
              exact fileOf_eq_none.mp hfu hmem
            simp [hne, Ne.symm hne]
      · -- a new one
        rw [hs] at h
        have hna' : notAUid ∉ seenUsers (snds ++ [⟨r.owner, icalified r⟩]) := by
          unfold seenUsers
          rw [List.map_append, List.mem_append]
          rintro (hm | hm)
          · exact hna hm
          · have heq : notAUid = r.owner := by simpa using hm
            exact hc.2 heq.symm
        obtain ⟨hnd', hf⟩ := ih h (seenUsers_append hnd hnew) hna'
        refine ⟨hnd', fun u => ?_⟩
        rw [hf u, fileOf_append]
        unfold scanned
        rw [users_cons_of_counts hc, tasksOf_cons]
        cases hfu : fileOf u snds with
        | some l =>
            have hne : ¬ r.owner = u := by
              rintro rfl
              have hn := fileOf_eq_none.mpr hnew
              rw [hfu] at hn
              cases hn
            simp [hne]
        | none =>
            by_cases hu : r.owner = u
            · simp [hu, hc.1]
            · simp [hu, Ne.symm hu]
      · -- the nodes would be reallocated
        rw [hs] at h
        cases h

theorem seenUsers_card {snds : List Seen} (hnd : (seenUsers snds).Nodup) :
    (seenUsers snds).toFinset.card = snds.length := by
  rw [List.toFinset_card_of_nodup hnd]
  exact List.length_map _

/-- The scan goes through if there are no more than 16 users. -/
theorem chkpntaScan_isSome : ∀ (tab : List Row) {snds : List Seen},
    (seenUsers snds).Nodup → snds.length ≤ nChkpnts →
      ((chkpntaScan tab snds).isSome = true ↔
        ((seenUsers snds).toFinset ∪ users tab).card ≤ nChkpnts) := by
  intro tab
  induction tab with
  | nil =>
      intro snds hnd hlen
      have hu : users [] = ∅ := rfl
      simp [chkpntaScan, hu, seenUsers_card hnd, hlen]
  | cons r tab ih =>
      intro snds hnd hlen
      rcases chkpntaScan_cons r tab snds with ⟨hc, hs⟩ | ⟨hc, hmem, hs⟩ | ⟨hc, hnew, hroom, hs⟩ |
        ⟨hc, hnew, hroom, hs⟩
      · rw [hs, ih hnd hlen, users_cons_of_not hc]
      · have hlen' : (seenWrite r snds).length ≤ nChkpnts := by
          unfold seenWrite
          rwa [List.length_map]
        have hin : r.owner ∈ (seenUsers snds).toFinset ∪ users tab :=
          Finset.mem_union_left _ (List.mem_toFinset.mpr hmem)
        rw [hs, ih (by rwa [seenUsers_seenWrite]) hlen', seenUsers_seenWrite,
          users_cons_of_counts hc, Finset.union_insert, Finset.insert_eq_of_mem hin]
      · have hset : (seenUsers (snds ++ [⟨r.owner, icalified r⟩])).toFinset ∪ users tab =
            (seenUsers snds).toFinset ∪ insert r.owner (users tab) := by
          unfold seenUsers
          ext x
          simp only [List.map_append, List.toFinset_append, Finset.mem_union, List.map_cons,
            List.map_nil, List.mem_toFinset, List.mem_cons, List.not_mem_nil, or_false,
            Finset.mem_insert]
          tauto
        rw [hs, ih (seenUsers_append hnd hnew) (by simpa using hroom), hset,
          users_cons_of_counts hc]
      · rw [hs, users_cons_of_counts hc]
        have hsub : insert r.owner (seenUsers snds).toFinset ⊆
            (seenUsers snds).toFinset ∪ insert r.owner (users tab) := by
          intro x hx
          rcases Finset.mem_insert.mp hx with rfl | hx
          · exact Finset.mem_union_right _ (Finset.mem_insert_self _ _)
          · exact Finset.mem_union_left _ hx
        have hcard := Finset.card_le_card hsub
        have hnot : r.owner ∉ (seenUsers snds).toFinset := by
          rwa [List.mem_toFinset]
        rw [Finset.card_insert_of_notMem hnot, seenUsers_card hnd] at hcard
        constructor
        · intro h
          cases h
        · intro h
          omega

/-- Writing the files out, one after the other. -/
theorem writeOut_apply : ∀ (snds : List Seen) (fs : QueueFiles) (v : Nat),
    (seenUsers snds).Nodup →
      (snds.foldl (fun (fs : QueueFiles) s => Function.update fs s.u (some s.out)) fs) v =
        match fileOf v snds with
        | some out => some out
        | none => fs v := by
  intro snds
  induction snds with
  | nil => intro fs v _; rfl
  | cons s snds ih =>
      intro fs v hnd
      obtain ⟨hs, hnd'⟩ := List.nodup_cons.mp hnd
      rw [List.foldl_cons, ih _ v hnd', fileOf_cons]
      by_cases hv : s.u = v
      · subst hv
        rw [fileOf_eq_none.mpr hs, if_pos rfl]
        simp
      · rw [if_neg hv]
        cases fileOf v snds with
        | some out => rfl
        | none => exact Function.update_of_ne (Ne.symm hv) _ _

/-- **`chkpnta` rewrites the files of the users in the table and leaves the others.** -/
theorem chkpnta_spec (tab : List Row) (fs : QueueFiles) :
    chkpnta tab fs =
      if (users tab).card ≤ nChkpnts then
        some fun u => if u ∈ users tab then some (tasksOf u tab) else fs u
      else none := by
  have hsome := @chkpntaScan_isSome tab [] List.nodup_nil (Nat.zero_le _)
  have hempty : (seenUsers []).toFinset ∪ users tab = users tab := by
    simp [seenUsers]
  rw [hempty] at hsome
  unfold chkpnta
  cases hscan : chkpntaScan tab [] with
  | none =>
      rw [hscan] at hsome
      have hcard : ¬ (users tab).card ≤ nChkpnts := fun hc => by simpa using hsome.mpr hc
      rw [if_neg hcard]
      rfl
  | some out =>
      rw [hscan] at hsome
      rw [if_pos (hsome.mp rfl)]
      obtain ⟨hnd, hf⟩ := chkpntaScan_files tab hscan List.nodup_nil (by simp [seenUsers])
      show some _ = some _
      congr 1
      funext u
      show (out.foldl (fun (fs : QueueFiles) s => Function.update fs s.u (some s.out)) fs) u = _
      rw [writeOut_apply out fs u hnd, hf u]
      have hnil : scanned u tab (fileOf u []) =
          if u ∈ users tab then some (tasksOf u tab) else none := rfl
      rw [hnil]
      by_cases hu : u ∈ users tab
      · simp [hu]
      · simp [hu]

/-! ### Noting changes -/

/-- The users noted since the last checkpoint. -/
def Chkpnts.noted (c : Chkpnts) : List Nat := (List.range c.ichkpnts).map c.key

theorem noted_length (c : Chkpnts) : c.noted.length = c.ichkpnts := by
  simp [Chkpnts.noted]

theorem noted_addChkpnt (c : Chkpnts) (u : Nat) :
    (addChkpnt c u).noted = if c.ichkpnts < nChkpnts then c.noted ++ [u] else c.noted := by
  unfold addChkpnt
  by_cases h : c.ichkpnts < nChkpnts
  · rw [if_pos h, if_pos h]
    unfold Chkpnts.noted
    dsimp only
    rw [List.range_succ, List.map_append]
    congr 1
    · refine List.map_congr_left fun i hi => ?_
      have : i ≠ c.ichkpnts := Nat.ne_of_lt (List.mem_range.mp hi)
      exact Function.update_of_ne this _ _
    · simp
  · rw [if_neg h, if_neg h]

theorem ichkpnts_addChkpnt_le {c : Chkpnts} (u : Nat) (h : c.ichkpnts ≤ nChkpnts) :
    (addChkpnt c u).ichkpnts ≤ nChkpnts := by
  unfold addChkpnt
  split
  · assumption
  · exact h

/-- Of the changes the first 16 are noted. -/
theorem noted_foldl : ∀ (us : List Nat) (c : Chkpnts), c.ichkpnts ≤ nChkpnts →
    (us.foldl addChkpnt c).noted = c.noted ++ us.take (nChkpnts - c.ichkpnts) := by
  intro us
  induction us with
  | nil => intro c _; simp
  | cons u us ih =>
      intro c hc
      rw [List.foldl_cons, ih _ (ichkpnts_addChkpnt_le u hc), noted_addChkpnt]
      have hlen : (addChkpnt c u).ichkpnts = if c.ichkpnts < nChkpnts then c.ichkpnts + 1
          else c.ichkpnts := by
        unfold addChkpnt
        split <;> rfl
      rw [hlen]
      by_cases h : c.ichkpnts < nChkpnts
      · have hsub : nChkpnts - c.ichkpnts = (nChkpnts - (c.ichkpnts + 1)) + 1 := by omega
        rw [if_pos h, if_pos h, hsub, List.take_succ_cons, List.append_assoc]
        rfl
      · have hsub : nChkpnts - c.ichkpnts = 0 := by omega
        rw [if_neg h, if_neg h, hsub]
        simp

theorem chkpnt1_foldl (tab : List Row) : ∀ (us : List Nat) (fs : QueueFiles) (v : Nat),
    (us.foldl (fun fs u => chkpnt1 tab u fs) fs) v =
      if v ∈ us then some (tasksOf v tab) else fs v := by
  intro us
  induction us with
  | nil => intro fs v; simp
  | cons u us ih =>
      intro fs v
      rw [List.foldl_cons, ih]
      by_cases hv : v ∈ us
      · rw [if_pos hv, if_pos (List.mem_cons_of_mem _ hv)]
      · rw [if_neg hv]
        by_cases hu : v = u
        · subst hu
          rw [if_pos (List.mem_cons_self ..)]
          exact Function.update_self ..
        · rw [if_neg (by simp [hu, hv])]
          exact Function.update_of_ne hu _ _

/-- **What a checkpoint writes**: the files of the users noted, or with 16 of them those
of the users in the table. -/
theorem chkpnt_spec (tab : List Row) (c : Chkpnts) (fs : QueueFiles) :
    chkpnt tab c fs =
      if c.ichkpnts < nChkpnts then
        some ({ c with ichkpnts := 0 }, fun u => if u ∈ c.noted then some (tasksOf u tab) else fs u)
      else if (users tab).card ≤ nChkpnts then
        some ({ c with ichkpnts := 0 },
          fun u => if u ∈ users tab then some (tasksOf u tab) else fs u)
      else none := by
  unfold chkpnt
  by_cases h : c.ichkpnts < nChkpnts
  · rw [if_neg (Nat.not_le.mpr h), if_pos h]
    congr 2
    funext u
    have hmap : (List.range c.ichkpnts).foldl (fun fs i => chkpnt1 tab (c.key i) fs) fs =
        c.noted.foldl (fun fs u => chkpnt1 tab u fs) fs := by
      unfold Chkpnts.noted
      rw [List.foldl_map]
    rw [hmap, chkpnt1_foldl]
  · rw [if_pos (Nat.not_lt.mp h), if_neg h, chkpnta_spec]
    split <;> rfl

/-! ### Completeness -/

/-- A change of tasks: the user who gets noted for it, and the table afterwards. -/
structure TaskChange where
  u : Nat
  tab : List Row

/-- The table after some changes. -/
def tableAfter (tab : List Row) (chs : List TaskChange) : List Row :=
  chs.foldl (fun _ ch => ch.tab) tab

/-- The checkpoint slots after some changes. -/
def notedAfter (c : Chkpnts) (chs : List TaskChange) : Chkpnts :=
  chs.foldl (fun c ch => addChkpnt c ch.u) c

/-- Every user with a change has a file that lists his tasks, and every other file is as
it was or lists its user's tasks. -/
def CheckpointComplete (tab : List Row) (chs : List TaskChange) (fs fs' : QueueFiles) : Prop :=
  (∀ ch ∈ chs, fs' ch.u = some (tasksOf ch.u tab)) ∧
    ∀ v, fs' v = fs v ∨ fs' v = some (tasksOf v tab)

/-- **A checkpoint is complete if and only if fewer than 16 changes came before it, or
there are no more than 16 users in the table and each user with a change is one of them
or has a file that is right already.** -/
theorem chkpnt_complete_iff (c : Chkpnts) (tab : List Row) (chs : List TaskChange)
    (fs : QueueFiles) :
    (∃ c' fs', chkpnt (tableAfter tab chs) (notedAfter { c with ichkpnts := 0 } chs) fs =
        some (c', fs') ∧ CheckpointComplete (tableAfter tab chs) chs fs fs') ↔
      chs.length < nChkpnts ∨
        ((users (tableAfter tab chs)).card ≤ nChkpnts ∧
          ∀ ch ∈ chs, ch.u ∈ users (tableAfter tab chs) ∨
            fs ch.u = some (tasksOf ch.u (tableAfter tab chs))) := by
  generalize tableAfter tab chs = tab'
  have hnoted : (notedAfter { c with ichkpnts := 0 } chs).noted =
      (chs.map (·.u)).take nChkpnts := by
    have hfold : notedAfter { c with ichkpnts := 0 } chs =
        (chs.map (·.u)).foldl addChkpnt { c with ichkpnts := 0 } := by
      rw [List.foldl_map]
      rfl
    rw [hfold, noted_foldl _ _ (Nat.zero_le _)]
    rfl
  have hlen : (notedAfter { c with ichkpnts := 0 } chs).ichkpnts = min nChkpnts chs.length := by
    rw [← noted_length, hnoted, List.length_take, List.length_map]
  rw [chkpnt_spec, hlen, hnoted]
  by_cases h : chs.length < nChkpnts
  · have hmin : min nChkpnts chs.length < nChkpnts := lt_of_le_of_lt (min_le_right _ _) h
    have hall : (chs.map (·.u)).take nChkpnts = chs.map (·.u) :=
      List.take_of_length_le (by rw [List.length_map]; exact h.le)
    rw [if_pos hmin, hall]
    refine ⟨fun _ => Or.inl h, fun _ => ⟨_, _, rfl, ?_, ?_⟩⟩
    · intro ch hch
      exact if_pos (List.mem_map.mpr ⟨ch, hch, rfl⟩)
    · intro v
      by_cases hv : v ∈ chs.map (·.u)
      · exact Or.inr (if_pos hv)
      · exact Or.inl (if_neg hv)
  · have hmin : ¬ min nChkpnts chs.length < nChkpnts := by omega
    rw [if_neg hmin]
    by_cases hcard : (users tab').card ≤ nChkpnts
    · rw [if_pos hcard]
      constructor
      · rintro ⟨c', fs', heq, hu, -⟩
        refine Or.inr ⟨hcard, fun ch hch => ?_⟩
        obtain ⟨-, rfl⟩ := Prod.mk.inj (Option.some.inj heq)
        by_cases hin : ch.u ∈ users tab'
        · exact Or.inl hin
        · refine Or.inr ?_
          exact (if_neg hin).symm.trans (hu ch hch)
      · rintro (hc | ⟨-, hc⟩)
        · exact absurd hc h
        refine ⟨_, _, rfl, ?_, ?_⟩
        · intro ch hch
          by_cases hin : ch.u ∈ users tab'
          · exact if_pos hin
          · exact (if_neg hin).trans ((hc ch hch).resolve_left hin)
        · intro v
          by_cases hv : v ∈ users tab'
          · exact Or.inr (if_pos hv)
          · exact Or.inl (if_neg hv)
    · rw [if_neg hcard]
      constructor
      · rintro ⟨c', fs', heq, -⟩
        cases heq
      · rintro (hc | ⟨hc, -⟩)
        · exact absurd hc h
        · exact absurd hc hcard

/-- User 1000 updates his only task and cancels it, eight times over. -/
def updateCancel : List TaskChange :=
  (List.replicate 8 [⟨1000, [⟨7, 1000, true⟩]⟩, ⟨1000, []⟩]).flatten

/-- His file goes on listing the task it listed before. -/
theorem chkpnt_leaves_stale :
    ¬ ∃ c' fs', chkpnt (tableAfter [⟨7, 1000, true⟩] updateCancel)
        (notedAfter { Chkpnts.ini with ichkpnts := 0 } updateCancel)
        (Function.update (fun _ => none) 1000 (some [7])) = some (c', fs') ∧
      CheckpointComplete (tableAfter [⟨7, 1000, true⟩] updateCancel) updateCancel
        (Function.update (fun _ => none) 1000 (some [7])) fs' := by
  rintro ⟨c', fs', heq, hu, -⟩
  have hnew := hu ⟨1000, []⟩ (by simp [updateCancel])
  have hold : (chkpnt (tableAfter [⟨7, 1000, true⟩] updateCancel)
      (notedAfter { Chkpnts.ini with ichkpnts := 0 } updateCancel)
      (Function.update (fun _ => none) 1000 (some [7]))).map (fun r => r.2 1000) =
        some (some [7]) := by decide
  rw [heq] at hold
  have h7 : fs' 1000 = some [7] := Option.some.inj hold
  rw [h7] at hnew
  revert hnew
  decide

/-! ### Fresh answers -/

/-- The tasks of `u` in the table. -/
def inTable (u : Nat) (tab : List Row) : List Nat :=
  (tab.filter fun r => r.oid != 0 && r.owner == u).map (·.oid)

/-- All tasks in the table have events, so that `chkpnt1` lists them. -/
def AllLive (tab : List Row) : Prop := ∀ r ∈ tab, r.oid ≠ 0 → r.live = true

theorem tasksOf_eq_inTable {tab : List Row} (h : AllLive tab) (u : Nat) :
    tasksOf u tab = inTable u tab := by
  unfold tasksOf inTable
  congr 1
  refine List.filter_congr fun r hr => ?_
  by_cases h0 : r.oid = 0
  · simp [listed, h0]
  · simp [listed, h r hr h0]

/-- The file of `u`, if there is one, lists the tasks of `u` in the table. -/
def Queues.Right (q : Queues) (u : Nat) : Prop :=
  ∀ l, q.files u = some l → l.Perm (inTable u q.tab)

/-- A request is answered from a file that lists the user's tasks. -/
def AnswersFresh (_ : Option Queues) (a : QueueAct) (t : Option Queues) : Prop :=
  ∀ u, a = .request u → ∃ q, t = some q ∧ q.Right u

/-- A checkpoint reaches every user noted: fewer than 16 changes are noted, or at most
16 users are in the table and those noted are among them or have files that are
right. -/
def Queues.Reaches (q : Queues) : Prop :=
  q.chk.ichkpnts < nChkpnts ∨
    ((users q.tab).card ≤ nChkpnts ∧ ∀ u ∈ q.chk.noted, u ∈ users q.tab ∨ q.Right u)

/-- A change of `u` is noted: in a node that is not in the trie yet, or all nodes are
taken and one of them is for `u`. -/
def Queues.Notes (q : Queues) (u : Nat) : Prop :=
  ∀ nodes, q.chk.chkpntr = some nodes →
    (q.chk.ichkpnts < nChkpnts ∧ q.chk.ichkpnts ∉ nodes) ∨
      (¬ q.chk.ichkpnts < nChkpnts ∧ ∃ i ∈ nodes, q.chk.key i = u)

/-- The actions that the checkpoint slots are up to. -/
def WithinSlots (s : Option Queues) (a : QueueAct) : Prop :=
  ∀ q, s = some q →
    match a with
    | .change u tab => q.Notes u ∧ AllLive tab
    | .timer => q.Reaches
    | .request u => chkpntedp q.chk u = some true → q.Reaches

/-- What holds while the slots are up to it. -/
structure Queues.Inv (q : Queues) : Prop where
  live : AllLive q.tab
  few : q.chk.ichkpnts ≤ nChkpnts
  /-- The trie is whole, its nodes are nodes, and whoever has a file that is not right
  is in it with a change that is noted. -/
  trie : ∃ nodes, q.chk.chkpntr = some nodes ∧ (∀ i ∈ nodes, i < nChkpnts) ∧
    ∀ u, q.Right u ∨ ∃ i ∈ nodes, i < q.chk.ichkpnts ∧ q.chk.key i = u

/-- The tasks of another user stay the same. -/
theorem inTable_perm {u v : Nat} {tab tab' : List Row} (h : (notOf u tab).isPerm (notOf u tab'))
    (hv : v ≠ u) : (inTable v tab).Perm (inTable v tab') := by
  have hsub : ∀ t : List Row, inTable v t = ((notOf u t).filter (·.owner == v)).map (·.oid) := by
    intro t
    unfold inTable notOf
    rw [List.filter_filter]
    congr 1
    refine List.filter_congr fun r _ => ?_
    by_cases ho : r.owner = v
    · simp [ho, hv]
    · have hb : (r.owner == v) = false := beq_eq_false_iff_ne.mpr ho
      simp [hb]
  rw [hsub tab, hsub tab']
  exact ((List.isPerm_iff.mp h).filter _).map _

theorem mem_noted {c : Chkpnts} {u : Nat} : u ∈ c.noted ↔ ∃ i < c.ichkpnts, c.key i = u := by
  simp [Chkpnts.noted, List.mem_map]

/-- A checkpoint that reaches all makes every file right. -/
theorem Queues.Inv.checkpoint {q : Queues} (inv : q.Inv) (hr : q.Reaches) :
    ∃ r, chkpnt q.tab q.chk q.files = some r ∧
      Queues.Inv { q with chk := r.1, files := r.2 } ∧
      ∀ u, Queues.Right { q with chk := r.1, files := r.2 } u := by
  obtain ⟨nodes, htrie, hnodes, hright⟩ := inv.trie
  have hdone : ∀ (fs : QueueFiles), (∀ u, Queues.Right { q with files := fs } u) →
      Queues.Inv { q with chk := { q.chk with ichkpnts := 0 }, files := fs } := by
    intro fs hfs
    exact ⟨inv.live, Nat.zero_le _, nodes, htrie, hnodes, fun u => Or.inl (hfs u)⟩
  -- a file that is written is right, and so is one that was and is not
  have hwrite : ∀ (us : Nat → Prop) [DecidablePred us],
      (∀ u, us u ∨ q.Right u) → ∀ u, Queues.Right
        { q with files := fun u => if us u then some (tasksOf u q.tab) else q.files u } u := by
    intro us _ hus u l hl
    dsimp only at hl
    by_cases hu : us u
    · rw [if_pos hu] at hl
      obtain rfl := Option.some.inj hl
      rw [tasksOf_eq_inTable inv.live]
    · rw [if_neg hu] at hl
      exact (hus u).resolve_left hu l hl
  rw [chkpnt_spec]
  by_cases h : q.chk.ichkpnts < nChkpnts
  · rw [if_pos h]
    have hfs := hwrite (fun u => u ∈ q.chk.noted) (by
      intro u
      rcases hright u with hu | ⟨i, -, hi, hk⟩
      · exact Or.inr hu
      · exact Or.inl (mem_noted.mpr ⟨i, hi, hk⟩))
    exact ⟨_, rfl, hdone _ hfs, hfs⟩
  · obtain ⟨hcard, hnoted⟩ := hr.resolve_left h
    rw [if_neg h, if_pos hcard]
    have hfs := hwrite (fun u => u ∈ users q.tab) (by
      intro u
      rcases hright u with hu | ⟨i, -, hi, hk⟩
      · exact Or.inr hu
      · exact hnoted u (mem_noted.mpr ⟨i, hi, hk⟩))
    exact ⟨_, rfl, hdone _ hfs, hfs⟩

/-- A change that is noted keeps the invariant. -/
theorem Queues.Inv.change {q : Queues} (inv : q.Inv) {u : Nat} {tab : List Row} (hn : q.Notes u)
    (hl : AllLive tab) (hp : (notOf u q.tab).isPerm (notOf u tab)) :
    Queues.Inv { q with tab := tab, chk := addChkpnt q.chk u } := by
  obtain ⟨nodes, htrie, hnodes, hright⟩ := inv.trie
  have hother : ∀ v, v ≠ u → q.Right v →
      Queues.Right { q with tab := tab, chk := addChkpnt q.chk u } v := by
    intro v hv hr l hfl
    exact (hr l hfl).trans (inTable_perm hp hv)
  refine ⟨hl, ichkpnts_addChkpnt_le u inv.few, ?_⟩
  rcases hn nodes htrie with ⟨h16, hnew⟩ | ⟨h16, i, hi, hk⟩
  · have hadd : addChkpnt q.chk u =
        ⟨Function.update q.chk.key q.chk.ichkpnts u, q.chk.ichkpnts + 1,
          some (q.chk.ichkpnts :: nodes)⟩ := by
      unfold addChkpnt
      rw [if_pos h16, htrie]
      simp [hnew]
    rw [hadd]
    refine ⟨_, rfl, ?_, ?_⟩
    · intro i hi
      rcases List.mem_cons.mp hi with rfl | hi
      · exact h16
      · exact hnodes i hi
    · intro v
      by_cases hv : v = u
      · exact Or.inr ⟨q.chk.ichkpnts, List.mem_cons_self .., Nat.lt_succ_self _,
          by rw [hv]; exact Function.update_self ..⟩
      · rcases hright v with hr | ⟨i, hi, hlt, hk⟩
        · refine Or.inl ?_
          rw [← hadd]
          exact hother v hv hr
        · refine Or.inr ⟨i, List.mem_cons_of_mem _ hi, Nat.lt_succ_of_lt hlt, ?_⟩
          show Function.update q.chk.key q.chk.ichkpnts u i = v
          rw [Function.update_of_ne (Nat.ne_of_lt hlt)]
          exact hk
  · have hadd : addChkpnt q.chk u = q.chk := by
      unfold addChkpnt
      rw [if_neg h16]
    rw [hadd] at hother ⊢
    refine ⟨nodes, htrie, hnodes, fun v => ?_⟩
    by_cases hv : v = u
    · refine Or.inr ⟨i, hi, lt_of_lt_of_le (hnodes i hi) (Nat.not_lt.mp h16), by rw [hv]; exact hk⟩
    · rcases hright v with hr | hd
      · exact Or.inl (hother v hv hr)
      · exact Or.inr hd

/-- An action within the slots keeps the invariant, and a request is answered fresh. -/
theorem queueStep_fresh {s t : Option Queues} {a : QueueAct}
    (hinv : ∃ q, s = some q ∧ q.Inv) (hc : WithinSlots s a) (hs : queueStep s a = some t) :
    (∃ q, t = some q ∧ q.Inv) ∧ AnswersFresh s a t := by
  obtain ⟨q, rfl, inv⟩ := hinv
  have hq := hc q rfl
  cases a with
  | change u tab =>
      obtain ⟨hn, hl⟩ := hq
      simp only [queueStep, Option.ite_none_right_eq_some, Option.some.injEq] at hs
      obtain ⟨hp, rfl⟩ := hs
      exact ⟨⟨_, rfl, inv.change hn hl hp⟩, fun v hv => by cases hv⟩
  | timer =>
      obtain ⟨r, hr, hinv', -⟩ := inv.checkpoint hq
      simp only [queueStep, hr, Option.map_some, Option.some.injEq] at hs
      subst hs
      exact ⟨⟨_, rfl, hinv'⟩, fun v hv => by cases hv⟩
  | request u =>
      obtain ⟨nodes, htrie, hnodes, hright⟩ := inv.trie
      have hnoted : chkpntedp q.chk u = some (nodes.any fun i => q.chk.key i == u) := by
        unfold chkpntedp
        rw [htrie]
        rfl
      by_cases hin : (nodes.any fun i => q.chk.key i == u) = true
      · rw [hin] at hnoted
        obtain ⟨r, hr, hinv', hright'⟩ := inv.checkpoint (hq hnoted)
        have hreq : queueRequest q.tab q.chk q.files u = some (r.1, r.2, r.2 u) := by
          simp [queueRequest, hnoted, hr]
        simp only [queueStep, hreq, Option.map_some, Option.some.injEq] at hs
        subst hs
        refine ⟨⟨_, rfl, hinv'⟩, fun v hv => ?_⟩
        exact ⟨_, rfl, hright' v⟩
      · rw [Bool.not_eq_true] at hin
        rw [hin] at hnoted
        have hreq : queueRequest q.tab q.chk q.files u = some (q.chk, q.files, q.files u) := by
          simp [queueRequest, hnoted]
        simp only [queueStep, hreq, Option.map_some, Option.some.injEq] at hs
        subst hs
        refine ⟨⟨_, rfl, inv⟩, fun v hv => ⟨_, rfl, ?_⟩⟩
        obtain rfl : u = v := by cases hv; rfl
        rcases hright u with hr | ⟨i, hi, -, hk⟩
        · exact hr
        · have : (nodes.any fun i => q.chk.key i == u) = true :=
            List.any_eq_true.mpr ⟨i, hi, by simpa using hk⟩
          rw [hin] at this
          cases this

/-- The queues as `echsd` finds them: nothing noted, and the files right. -/
structure Queues.Start (q : Queues) : Prop where
  live : AllLive q.tab
  ini : q.chk = Chkpnts.ini
  right : ∀ u, q.Right u

theorem Queues.Start.inv {q : Queues} (h : q.Start) : q.Inv := by
  refine ⟨h.live, by rw [h.ini]; exact Nat.zero_le _, [], by rw [h.ini]; rfl, by simp, ?_⟩
  exact fun u => Or.inl (h.right u)

/-- **In every run whose actions the checkpoint slots are up to, every queue request is
answered from a file that lists exactly the user's tasks in the table.** -/
theorem queue_fresh (q : Queues) (h : q.Start) (as : List QueueAct)
    (hc : Before queueStep WithinSlots (some q) as) :
    Along queueStep AnswersFresh (some q) as :=
  along_of_inv (fun s => ∃ q, s = some q ∧ q.Inv)
    (fun _ _ _ hi hc hs => queueStep_fresh hi hc hs) as (some q) ⟨q, rfl, h.inv⟩ hc

/-- The queues of a fresh `echsd`. -/
def noQueues : Queues := ⟨[], Chkpnts.ini, fun _ => none⟩

theorem noQueues_start : noQueues.Start :=
  ⟨by simp [AllLive, noQueues], rfl, by simp [Queues.Right, noQueues]⟩

/-- User 1 schedules a task and asks for his queue. -/
theorem queue_fresh_once : noQueues.Start ∧
    Before queueStep WithinSlots (some noQueues) [.change 1 [⟨5, 1, true⟩], .request 1] ∧
      Along queueStep AnswersFresh (some noQueues) [.change 1 [⟨5, 1, true⟩], .request 1] := by
  have hbefore :
      Before queueStep WithinSlots (some noQueues) [.change 1 [⟨5, 1, true⟩], .request 1] := by
    intro t ht
    have ht' : t = some { noQueues with
        tab := [⟨5, 1, true⟩], chk := addChkpnt Chkpnts.ini 1 } := (Option.some.inj ht).symm
    subst ht'
    refine ⟨?_, fun t _ => ⟨?_, trivial⟩⟩
    · rintro q hq
      obtain rfl := Option.some.inj hq
      refine ⟨?_, by simp [AllLive]⟩
      intro nodes hn
      obtain rfl := Option.some.inj hn
      exact Or.inl ⟨by decide, by simp⟩
    · rintro q hq
      obtain rfl := Option.some.inj hq
      exact fun _ => Or.inl (by decide)
  exact ⟨noQueues_start, hbefore, queue_fresh noQueues noQueues_start _ hbefore⟩

/-- User 17 has a task and a file that lists it; then 16 others and he schedule a task
each. -/
def seventeen : List QueueAct :=
  (List.range 17).map fun n => .change (n + 1)
    (⟨1, 17, true⟩ :: (List.range (n + 1)).map fun i => ⟨i + 2, i + 1, true⟩)

def seventeenStart : Queues :=
  ⟨[⟨1, 17, true⟩], Chkpnts.ini, Function.update (fun _ => none) 17 (some [1])⟩

theorem seventeenStart_start : seventeenStart.Start := by
  refine ⟨by simp [AllLive, seventeenStart], rfl, ?_⟩
  intro u l hl
  by_cases hu : u = 17
  · subst hu
    obtain rfl : [1] = l := Option.some.inj hl
    decide
  · have hnone : seventeenStart.files u = none := by
      simp [seventeenStart, hu]
    rw [hnone] at hl
    cases hl

/-- His change is not noted, and he is answered from the old file. -/
theorem queue_stale : seventeenStart.Start ∧
    ¬ Along queueStep AnswersFresh (some seventeenStart) (seventeen ++ [.request 17]) := by
  refine ⟨seventeenStart_start, fun h => ?_⟩
  generalize hq : (some seventeenStart : Option Queues) = q0 at h
  have hrun : ((run queueStep q0 seventeen).bind (queueStep · (.request 17))).map
      (fun t => t.map fun q => (q.files 17, inTable 17 q.tab)) =
        some (some (some [1], [1, 18])) := by
    subst hq
    decide
  obtain ⟨t, ht, hmap⟩ := Option.map_eq_some_iff.mp hrun
  obtain ⟨s, hs, hst⟩ := Option.bind_eq_some_iff.mp ht
  obtain ⟨q, rfl, hright⟩ := along_at seventeen [] _ h hs hst 17 rfl
  obtain ⟨hf, htab⟩ := Prod.mk.inj (Option.some.inj hmap)
  have hperm := hright [1] hf
  rw [htab] at hperm
  exact absurd hperm.length_eq (by decide)

end Echse
