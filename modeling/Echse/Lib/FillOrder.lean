/-
The items a run of a fill loop looks at, in their order.

A run stores some of the items it looks at and leaves their order alone.  So if the
items of each position are sorted, and come before those of the positions after it, then
so is what is stored (`along_sorted`, `passes_stores`).  And if a second loop is left
where the first goes on, but only from some item on, then it stores the first part of
what the first one stores (`passes_cut`).
-/
import Echse.Lib.FillRuns

namespace FillLoop

namespace Loop

variable {σ α β : Type} (L : Loop σ α β)

/-- The items of a position that is not stepped over. -/
def items (p : σ) : List α := if L.hop p then [] else (L.groups p).flatMap fun g => g.getD []

/-- What `f` gives at the positions a run is at in its first `n` passes. -/
def along {γ : Type} (f : σ → List γ) (room : Option Nat) (s : State σ β) : Nat → List γ
  | 0 => []
  | n + 1 => along f room s n ++
      if (L.passes room n s).stop = none then f (L.passes room n s).pos else []

/-- The items a run looks at, or could, in its first `n` passes. -/
def seen (room : Option Nat) (s : State σ β) (n : Nat) : List α := L.along L.items room s n

variable {L}

section Along

variable {γ δ : Type} {f : σ → List γ} {room : Option Nat} {s : State σ β}

theorem along_succ_of_none {n : Nat} (h : (L.passes room n s).stop = none) :
    L.along f room s (n + 1) = L.along f room s n ++ f (L.passes room n s).pos := by
  simp [along, h]

theorem along_succ_of_stop {n : Nat} (h : (L.passes room n s).stop ≠ none) :
    L.along f room s (n + 1) = L.along f room s n := by
  simp [along, h]

theorem prefix_along {m n : Nat} (h : m ≤ n) : L.along f room s m <+: L.along f room s n := by
  induction n, h using Nat.le_induction with
  | base => exact List.prefix_rfl
  | succ n _ ih => exact ih.trans (List.prefix_append _ _)

theorem mem_along {n : Nat} {x : γ} (h : x ∈ L.along f room s n) :
    ∃ i < n, (L.passes room i s).stop = none ∧ x ∈ f (L.passes room i s).pos := by
  induction n with
  | zero => cases h
  | succ n ih =>
      by_cases hs : (L.passes room n s).stop = none
      · rw [along_succ_of_none hs] at h
        rcases List.mem_append.mp h with h | h
        · obtain ⟨i, hi, hx⟩ := ih h
          exact ⟨i, by omega, hx⟩
        · exact ⟨n, Nat.lt_succ_self n, hs, h⟩
      · rw [along_succ_of_stop hs] at h
        obtain ⟨i, hi, hx⟩ := ih h
        exact ⟨i, by omega, hx⟩

theorem along_flatMap {g : γ → List δ} {h : σ → List δ} {n : Nat}
    (hfg : ∀ i < n, (L.passes room i s).stop = none →
      h (L.passes room i s).pos = (f (L.passes room i s).pos).flatMap g) :
    L.along h room s n = (L.along f room s n).flatMap g := by
  induction n with
  | zero => rfl
  | succ n ih =>
      have hn := ih fun i hi => hfg i (by omega)
      by_cases hs : (L.passes room n s).stop = none
      · rw [along_succ_of_none hs, along_succ_of_none hs, List.flatMap_append, hn,
          hfg n (Nat.lt_succ_self n) hs]
      · rw [along_succ_of_stop hs, along_succ_of_stop hs, hn]

end Along

theorem seen_succ_of_none {room : Option Nat} {s : State σ β} {n : Nat}
    (h : (L.passes room n s).stop = none) :
    L.seen room s (n + 1) = L.seen room s n ++ L.items (L.passes room n s).pos :=
  along_succ_of_none h

theorem seen_succ_of_stop {room : Option Nat} {s : State σ β} {n : Nat}
    (h : (L.passes room n s).stop ≠ none) : L.seen room s (n + 1) = L.seen room s n :=
  along_succ_of_stop h

theorem prefix_seen (room : Option Nat) (s : State σ β) {m n : Nat} (h : m ≤ n) :
    L.seen room s m <+: L.seen room s n := prefix_along h

/-! ### Steps -/

theorem advance_next {s : State σ β} (h : (L.advance s).stop = none) :
    s.stop = none ∧ L.next s.pos = some (L.advance s).pos := by
  unfold advance at h ⊢
  cases hn : L.next s.pos with
  | none => simp [hn] at h
  | some q => simpa [hn] using h

/-- A pass that does not stop goes to the next position. -/
theorem pass_next {room : Option Nat} {s : State σ β} (h : (L.pass room s).stop = none) :
    s.stop = none ∧ L.next s.pos = some (L.pass room s).pos := by
  by_cases hs : s.stop = none
  · refine ⟨hs, ?_⟩
    cases hh : L.hop s.pos with
    | true =>
        rw [pass_hop room hs hh] at h ⊢
        exact (advance_next h).2
    | false =>
        cases hf : full room s.out with
        | true => rw [pass_full hs hh hf] at h; cases h
        | false =>
            cases ht : L.tick s.tries with
            | none => rw [pass_tired hs hh hf ht] at h; cases h
            | some t =>
                rw [pass_body hs hh hf ht] at h ⊢
                unfold body at h ⊢
                dsimp only at h ⊢
                split at h
                · cases h
                · cases h
                · exact (advance_next h).2
  · rw [pass_of_stop room hs] at h
    exact absurd h hs

theorem stop_of_passes {room : Option Nat} {s : State σ β} {m n : Nat} (hmn : m ≤ n)
    (h : (L.passes room n s).stop = none) : (L.passes room m s).stop = none := by
  by_contra hne
  rw [passes_of_stop_le room hmn hne] at h
  exact hne h

/-! ### What is stored -/

theorem taken_sublist (xs : List α) : (L.taken xs).Sublist xs := by
  induction xs with
  | nil => exact List.Sublist.refl _
  | cons x xs ih =>
      unfold taken
      split
      · exact ih.cons_cons x
      · exact ih.cons x
      · exact List.nil_sublist _
      · exact List.nil_sublist _

theorem fillGroups_stores (room : Option Nat) (p : σ) (gs : List (Option (List α))) :
    ∀ out : List β, ∃ zs : List α, (L.fillGroups room p gs out).1 = out ++ zs.map (L.entry p) ∧
      zs.Sublist (gs.flatMap fun g => g.getD []) ∧ ∀ z ∈ zs, L.judge z = .emit := by
  induction gs with
  | nil => intro out; exact ⟨[], by simp [fillGroups], List.nil_sublist _, by simp⟩
  | cons g gs ih =>
      intro out
      by_cases hf : full room out = true
      · exact ⟨[], by simp [fillGroups_of_full hf], List.nil_sublist _, by simp⟩
      · have hf : full room out = false := by simpa using hf
        cases g with
        | none => exact ⟨[], by simp [fillGroups_trap hf], List.nil_sublist _, by simp⟩
        | some xs =>
            rw [fillGroups_some hf]
            split
            · obtain ⟨zs, hout, hsub, hemit⟩ := ih (out ++ (L.taken xs).map (L.entry p))
              refine ⟨L.taken xs ++ zs, by rw [hout]; simp, ?_, ?_⟩
              · simpa using (taken_sublist xs).append hsub
              · intro z hz
                rcases List.mem_append.mp hz with hz | hz
                · exact (mem_taken hz).2
                · exact hemit z hz
            · refine ⟨L.taken xs, rfl, ?_, fun z hz => (mem_taken hz).2⟩
              simpa using (taken_sublist xs).trans (List.sublist_append_left ..)

/-- The entries that stored items have made, each at its position. -/
def entries (L : Loop σ α β) (ys : List (σ × α)) : List β := ys.map fun y => L.entry y.1 y.2

@[simp] theorem entries_nil : L.entries [] = [] := rfl

theorem entries_append (ys zs : List (σ × α)) :
    L.entries (ys ++ zs) = L.entries ys ++ L.entries zs := List.map_append

theorem entries_at (p : σ) (zs : List α) : L.entries (zs.map (p, ·)) = zs.map (L.entry p) := by
  simp [entries]

theorem pass_stores (room : Option Nat) (s : State σ β) :
    ∃ zs : List α, (L.pass room s).out = s.out ++ zs.map (L.entry s.pos) ∧
      zs.Sublist (if s.stop = none then L.items s.pos else []) ∧ ∀ z ∈ zs, L.judge z = .emit := by
  have hnone : (L.pass room s).out = s.out → ∃ zs : List α,
      (L.pass room s).out = s.out ++ zs.map (L.entry s.pos) ∧
        zs.Sublist (if s.stop = none then L.items s.pos else []) ∧
          ∀ z ∈ zs, L.judge z = .emit :=
    fun h => ⟨[], by simp [h], List.nil_sublist _, by simp⟩
  by_cases hs : s.stop = none
  · cases hh : L.hop s.pos with
    | true => exact hnone (by rw [pass_hop room hs hh, advance_out])
    | false =>
        cases hf : full room s.out with
        | true => exact hnone (by rw [pass_full hs hh hf])
        | false =>
            cases ht : L.tick s.tries with
            | none => exact hnone (by rw [pass_tired hs hh hf ht])
            | some t =>
                rw [pass_body hs hh hf ht, body_out, if_pos hs]
                simpa [items, hh] using fillGroups_stores (L := L) room s.pos (L.groups s.pos) s.out
  · exact hnone (by rw [pass_of_stop room hs])

/-- **A run stores what it emits of the items it has seen, in their order.** -/
theorem passes_stores (room : Option Nat) (s : State σ β) (n : Nat) :
    ∃ ys : List (σ × α), (L.passes room n s).out = s.out ++ L.entries ys ∧
      (ys.map Prod.snd).Sublist (L.seen room s n) ∧ ∀ y ∈ ys, L.judge y.2 = .emit := by
  induction n with
  | zero => exact ⟨[], by simp [passes], List.nil_sublist _, by simp⟩
  | succ n ih =>
      obtain ⟨ys, hout, hsub, hemit⟩ := ih
      obtain ⟨zs, hout', hsub', hemit'⟩ := pass_stores (L := L) room (L.passes room n s)
      refine ⟨ys ++ zs.map ((L.passes room n s).pos, ·), ?_, ?_, ?_⟩
      · rw [passes_succ, hout', hout, entries_append, entries_at, List.append_assoc]
      · rw [List.map_append, List.map_map]
        refine hsub.append ?_
        simpa using hsub'
      · intro y hy
        rcases List.mem_append.mp hy with hy | hy
        · exact hemit y hy
        · obtain ⟨z, hz, rfl⟩ := List.mem_map.mp hy
          exact hemit' z hz

/-! ### Sorted runs

A position is a rung: all its items rank from `lo` of it up, and below `lo` of the next.
-/

/-- **If what every position gives is sorted and below what the next gives, then all that
a run comes by is sorted.**  `I` holds of the positions a run comes to as long as they
meet `C`. -/
theorem along_sorted {γ : Type} {f : σ → List γ} {I C : σ → Prop} {key : γ → Nat}
    {lo : σ → Nat} (hnext : ∀ p q, I p → C p → L.next p = some q → I q ∧ lo p ≤ lo q)
    (hrung : ∀ p, I p → C p → (f p).Pairwise (key · < key ·) ∧
      ∀ x ∈ f p, lo p ≤ key x ∧ ∀ q, L.next p = some q → key x < lo q)
    {room : Option Nat} {s : State σ β} (h0 : I s.pos) (n : Nat)
    (hC : ∀ i < n, (L.passes room i s).stop = none → C (L.passes room i s).pos) :
    (L.along f room s n).Pairwise (key · < key ·) ∧
      (∀ x ∈ L.along f room s n, lo s.pos ≤ key x) ∧
      ((L.passes room n s).stop = none → I (L.passes room n s).pos ∧
        lo s.pos ≤ lo (L.passes room n s).pos ∧
          ∀ x ∈ L.along f room s n, key x < lo (L.passes room n s).pos) := by
  induction n with
  | zero => exact ⟨List.Pairwise.nil, by simp [along], fun _ => ⟨h0, le_rfl, by simp [along]⟩⟩
  | succ n ih =>
      obtain ⟨hsort, hlow, hgo⟩ := ih fun i hi => hC i (by omega)
      by_cases hs : (L.passes room n s).stop = none
      · obtain ⟨hI, hle, hhigh⟩ := hgo hs
        have hCn := hC n (Nat.lt_succ_self n) hs
        obtain ⟨hsort', hbnd⟩ := hrung _ hI hCn
        rw [along_succ_of_none hs]
        refine ⟨?_, ?_, fun hs' => ?_⟩
        · refine List.pairwise_append.mpr ⟨hsort, hsort', fun x hx y hy => ?_⟩
          exact (hhigh x hx).trans_le (hbnd y hy).1
        · intro x hx
          rcases List.mem_append.mp hx with hx | hx
          · exact hlow x hx
          · exact hle.trans (hbnd x hx).1
        · rw [passes_succ] at hs' ⊢
          have hq := (pass_next hs').2
          obtain ⟨hI', hle'⟩ := hnext _ _ hI hCn hq
          refine ⟨hI', hle.trans hle', fun x hx => ?_⟩
          rcases List.mem_append.mp hx with hx | hx
          · exact (hhigh x hx).trans_le hle'
          · exact (hbnd x hx).2 _ hq
      · rw [along_succ_of_stop hs]
        refine ⟨hsort, hlow, fun hs' => ?_⟩
        rw [passes_succ, pass_of_stop room hs] at hs'
        exact absurd hs' hs

/-! ### A loop that is left earlier

The second loop judges as the first, but from some item on it is left.
-/

/-- The loop with other verdicts. -/
def rejudge (L : Loop σ α β) (judge : α → Verdict) : Loop σ α β := { L with judge := judge }

/-- `judge` is left at the items that are `cut` and would be stored, and else does what
`L` does or is left as well, for items that are `cut`. -/
structure Cuts (L : Loop σ α β) (judge : α → Verdict) (cut : α → Prop) : Prop where
  no_fin : ∀ x, L.judge x ≠ .fin
  stored : ∀ x, L.judge x = .emit → cut x → judge x = .fin
  same : ∀ x, judge x = L.judge x ∨ (judge x = .fin ∧ cut x)

section Cut

variable {judge : α → Verdict} {cut : α → Prop}

theorem taken_cut (hc : L.Cuts judge cut) (xs : List α)
    (hup : xs.Pairwise fun x y => cut x → cut y) :
    ((L.rejudge judge).sig xs = L.sig xs ∧
        (L.rejudge judge).taken xs = L.taken xs ∧
          ∀ x ∈ L.taken xs, ¬ cut x) ∨
      ((L.rejudge judge).sig xs = .fin ∧ (∃ x ∈ xs, cut x) ∧
        ∃ zs, L.taken xs = (L.rejudge judge).taken xs ++ zs ∧
          (∀ x ∈ (L.rejudge judge).taken xs, ¬ cut x) ∧
            ∀ z ∈ zs, cut z) := by
  induction xs with
  | nil => exact Or.inl ⟨rfl, rfl, by simp [taken]⟩
  | cons x xs ih =>
      obtain ⟨hx, hxs⟩ := List.pairwise_cons.mp hup
      -- where the second loop is left, all that the first still takes is cut
      have hleft : judge x = .fin → cut x →
          ((L.rejudge judge).sig (x :: xs) = .fin ∧
            (∃ y ∈ x :: xs, cut y) ∧
            ∃ zs, L.taken (x :: xs) = (L.rejudge judge).taken (x :: xs) ++ zs ∧
              (∀ y ∈ (L.rejudge judge).taken (x :: xs), ¬ cut y) ∧
                ∀ z ∈ zs, cut z) := by
        intro hj hcut
        have htaken : (L.rejudge judge).taken (x :: xs) = [] := by
          simp [taken, rejudge, hj]
        refine ⟨by simp [sig, rejudge, hj], ⟨x, List.mem_cons_self, hcut⟩, L.taken (x :: xs), ?_, ?_, ?_⟩
        · rw [htaken]; rfl
        · rw [htaken]; simp
        · intro z hz
          rcases List.mem_cons.mp (mem_taken hz).1 with rfl | hz
          · exact hcut
          · exact hx z hz hcut
      rcases hc.same x with hj | ⟨hj, hcut⟩
      · cases hL : L.judge x with
        | fin => exact absurd hL (hc.no_fin x)
        | skip =>
            rw [hL] at hj
            exact Or.inl ⟨by simp [sig, rejudge, hj, hL], by simp [taken, rejudge, hj, hL], by simp [taken, hL]⟩
        | drop =>
            rw [hL] at hj
            rcases ih hxs with ⟨h1, h2, h3⟩ | ⟨h1, ⟨y, hy, hcy⟩, zs, h2, h3, h4⟩
            · exact Or.inl ⟨by simpa [sig, rejudge, hj, hL] using h1, by simpa [taken, rejudge, hj, hL] using h2,
                by simpa [taken, hL] using h3⟩
            · exact Or.inr ⟨by simpa [sig, rejudge, hj] using h1, ⟨y, List.mem_cons_of_mem _ hy, hcy⟩, zs,
                by simpa [taken, rejudge, hj, hL] using h2, by simpa [taken, rejudge, hj] using h3, h4⟩
        | emit =>
            rw [hL] at hj
            have hno : ¬ cut x := by
              intro hcut
              rw [hc.stored x hL hcut] at hj
              cases hj
            rcases ih hxs with ⟨h1, h2, h3⟩ | ⟨h1, ⟨y, hy, hcy⟩, zs, h2, h3, h4⟩
            · refine Or.inl ⟨by simpa [sig, rejudge, hj, hL] using h1, by simpa [taken, rejudge, hj, hL] using h2, ?_⟩
              intro y hy
              rw [show L.taken (x :: xs) = x :: L.taken xs by simp [taken, hL]] at hy
              rcases List.mem_cons.mp hy with rfl | hy
              · exact hno
              · exact h3 y hy
            · refine Or.inr ⟨by simpa [sig, rejudge, hj] using h1, ⟨y, List.mem_cons_of_mem _ hy, hcy⟩, zs,
                by simpa [taken, rejudge, hj, hL] using h2, ?_, h4⟩
              intro y hy
              rw [show (L.rejudge judge).taken (x :: xs)
                = x :: (L.rejudge judge).taken xs by simp [taken, rejudge, hj]] at hy
              rcases List.mem_cons.mp hy with rfl | hy
              · exact hno
              · exact h3 y hy
      · exact Or.inr (hleft hj hcut)

/-- What is stored of the groups of a position, with and without the cut. -/
theorem fillGroups_cut (hc : L.Cuts judge cut) (room : Option Nat) (p : σ)
    (gs : List (Option (List α))) :
    (gs.flatMap fun g => g.getD []).Pairwise (fun x y => cut x → cut y) → ∀ out : List β,
      ∃ ys zs : List α, ((L.rejudge judge).fillGroups room p gs out).1 = out ++ ys.map (L.entry p) ∧
        (L.fillGroups room p gs out).1 = out ++ (ys ++ zs).map (L.entry p) ∧
        (∀ y ∈ ys ++ zs, y ∈ gs.flatMap fun g => g.getD []) ∧
        (∀ y ∈ ys, ¬ cut y) ∧ (∀ z ∈ zs, cut z) ∧
        (((L.rejudge judge).fillGroups room p gs out = L.fillGroups room p gs out ∧ zs = []) ∨
          (((L.rejudge judge).fillGroups room p gs out).2 = .fin ∧
            ∃ x ∈ gs.flatMap fun g => g.getD [], cut x)) := by
  induction gs with
  | nil =>
      intro _ out
      exact ⟨[], [], by simp [fillGroups], by simp [fillGroups], by simp, by simp, by simp,
        Or.inl ⟨rfl, rfl⟩⟩
  | cons g gs ih =>
      intro hup out
      rw [List.flatMap_cons] at hup ⊢
      obtain ⟨hg, hgs, hcross⟩ := List.pairwise_append.mp hup
      by_cases hf : full room out = true
      · exact ⟨[], [], by simp [fillGroups_of_full hf], by simp [fillGroups_of_full hf], by simp,
          by simp, by simp, Or.inl ⟨by rw [fillGroups_of_full hf, fillGroups_of_full hf], rfl⟩⟩
      have hf : full room out = false := by simpa using hf
      cases g with
      | none =>
          exact ⟨[], [], by simp [fillGroups_trap hf], by simp [fillGroups_trap hf], by simp,
            by simp, by simp, Or.inl ⟨by rw [fillGroups_trap hf, fillGroups_trap hf], rfl⟩⟩
      | some xs =>
          change xs.Pairwise _ at hg
          rw [show (some xs).getD [] = xs from rfl] at hcross ⊢
          rw [fillGroups_some hf, fillGroups_some hf]
          have hleft : ∀ {y : α} {vs : List α}, y ∈ L.taken xs →
              y ∈ xs ++ gs.flatMap fun g => g.getD [] :=
            fun hy => List.mem_append_left _ (mem_taken hy).1
          rcases taken_cut hc xs hg with ⟨hsig, htaken, hno⟩ | ⟨hsig, ⟨c, hcx, hcut⟩, zs, htaken, hno, hzs⟩
          · -- the group is the same for both
            rw [hsig, htaken]
            split
            · obtain ⟨ys, zs, hout', hout, hmem, hys, hzs, hrel⟩ :=
                ih hgs (out ++ (L.taken xs).map (L.entry p))
              refine ⟨L.taken xs ++ ys, zs, hout'.trans (by simp), by rw [hout]; simp,
                fun y hy => ?_, fun y hy => ?_, hzs, ?_⟩
              · rw [List.append_assoc] at hy
                rcases List.mem_append.mp hy with hy | hy
                · exact List.mem_append_left _ (mem_taken hy).1
                · exact List.mem_append_right _ (hmem y hy)
              · rcases List.mem_append.mp hy with hy | hy
                · exact hno y hy
                · exact hys y hy
              · rcases hrel with hrel | ⟨hfin, c, hc', hcut⟩
                · exact Or.inl hrel
                · exact Or.inr ⟨hfin, c, List.mem_append_right _ hc', hcut⟩
            · exact ⟨L.taken xs, [], rfl, by simp,
                fun y hy => List.mem_append_left _ (mem_taken (by simpa using hy)).1, hno,
                by simp, Or.inl ⟨rfl, rfl⟩⟩
          · -- the second loop is left here, and all that follows is cut
            rw [if_neg (by rw [hsig]; simp)]
            split
            · obtain ⟨ws, hout, hsub, -⟩ :=
                fillGroups_stores (L := L) room p gs (out ++ (L.taken xs).map (L.entry p))
              refine ⟨(L.rejudge judge).taken xs, zs ++ ws, rfl, ?_, fun y hy => ?_, hno,
                fun z hz => ?_, Or.inr ⟨hsig, c, List.mem_append_left _ hcx, hcut⟩⟩
              · rw [hout, htaken]; simp
              · rw [← List.append_assoc, ← htaken] at hy
                rcases List.mem_append.mp hy with hy | hy
                · exact List.mem_append_left _ (mem_taken hy).1
                · exact List.mem_append_right _ (hsub.subset hy)
              · rcases List.mem_append.mp hz with hz | hz
                · exact hzs z hz
                · exact hcross c hcx z (hsub.subset hz) hcut
            · refine ⟨(L.rejudge judge).taken xs, zs, rfl, by rw [htaken], fun y hy => ?_, hno, hzs,
                Or.inr ⟨hsig, c, List.mem_append_left _ hcx, hcut⟩⟩
              rw [← htaken] at hy
              exact List.mem_append_left _ (mem_taken hy).1

/-- One pass with and without the cut, from the same state. -/
theorem pass_cut (hc : L.Cuts judge cut) (room : Option Nat) {s : State σ β}
    (hs : s.stop = none) (hup : (L.items s.pos).Pairwise fun x y => cut x → cut y) :
    ∃ ys zs : List α, ((L.rejudge judge).pass room s).out = s.out ++ ys.map (L.entry s.pos) ∧
      (L.pass room s).out = s.out ++ (ys ++ zs).map (L.entry s.pos) ∧
      (∀ y ∈ ys ++ zs, y ∈ L.items s.pos) ∧ (∀ y ∈ ys, ¬ cut y) ∧ (∀ z ∈ zs, cut z) ∧
      (((L.rejudge judge).pass room s = L.pass room s ∧ zs = []) ∨
        (((L.rejudge judge).pass room s).stop = some .done ∧ ∃ x ∈ L.items s.pos, cut x)) := by
  have hidle : (L.rejudge judge).pass room s = L.pass room s → (L.pass room s).out = s.out →
      ∃ ys zs : List α, ((L.rejudge judge).pass room s).out = s.out ++ ys.map (L.entry s.pos) ∧
        (L.pass room s).out = s.out ++ (ys ++ zs).map (L.entry s.pos) ∧
        (∀ y ∈ ys ++ zs, y ∈ L.items s.pos) ∧ (∀ y ∈ ys, ¬ cut y) ∧ (∀ z ∈ zs, cut z) ∧
        (((L.rejudge judge).pass room s = L.pass room s ∧ zs = []) ∨
          (((L.rejudge judge).pass room s).stop = some .done ∧ ∃ x ∈ L.items s.pos, cut x)) :=
    fun heq hout => ⟨[], [], by rw [heq, hout]; simp, by rw [hout]; simp, by simp, by simp, by simp,
      Or.inl ⟨heq, rfl⟩⟩
  cases hh : L.hop s.pos with
  | true =>
      have hh' : (L.rejudge judge).hop s.pos = true := hh
      refine hidle ?_ (by rw [pass_hop room hs hh, advance_out])
      rw [pass_hop room hs hh, pass_hop room hs hh']
      rfl
  | false =>
      have hh' : (L.rejudge judge).hop s.pos = false := hh
      cases hf : full room s.out with
      | true =>
          exact hidle (by rw [pass_full hs hh hf, pass_full hs hh' hf]) (by rw [pass_full hs hh hf])
      | false =>
          have htick : (L.rejudge judge).tick s.tries = L.tick s.tries := rfl
          cases ht : L.tick s.tries with
          | none =>
              exact hidle (by rw [pass_tired hs hh hf ht, pass_tired hs hh' hf (htick.trans ht)])
                (by rw [pass_tired hs hh hf ht])
          | some t =>
              have hitems : L.items s.pos = (L.groups s.pos).flatMap fun g => g.getD [] := by
                simp [items, hh]
              rw [hitems] at hup ⊢
              rw [pass_body hs hh hf ht, pass_body hs hh' hf (htick.trans ht), body_out, body_out]
              obtain ⟨ys, zs, hout', hout, hmem, hys, hzs, hrel⟩ :=
                fillGroups_cut hc room s.pos (L.groups s.pos) hup s.out
              refine ⟨ys, zs, hout', hout, hmem, hys, hzs, ?_⟩
              unfold body
              rw [show (L.rejudge judge).groups = L.groups from rfl]
              rcases hrel with ⟨heq, hz⟩ | ⟨hfin, hcut⟩
              · refine Or.inl ⟨?_, hz⟩
                rw [heq]
                rfl
              · refine Or.inr ⟨?_, hcut⟩
                dsimp only
                rw [hfin]

/-- **With the cut a run stores the first part of what it stores without it**: what is
not cut, and the rest is. -/
theorem passes_cut (hc : L.Cuts judge cut) (room : Option Nat) (s : State σ β) (n : Nat)
    (hup : (L.seen room s n).Pairwise fun x y => cut x → cut y) :
    ∃ ys zs : List (σ × α),
      ((L.rejudge judge).passes room n s).out = s.out ++ L.entries ys ∧
      (L.passes room n s).out = s.out ++ L.entries (ys ++ zs) ∧
      (∀ y ∈ ys ++ zs, y.2 ∈ L.seen room s n) ∧ (∀ y ∈ ys, ¬ cut y.2) ∧ (∀ z ∈ zs, cut z.2) ∧
      (((L.rejudge judge).passes room n s = L.passes room n s ∧ zs = []) ∨
        (((L.rejudge judge).passes room n s).stop = some .done ∧
          ∃ x ∈ L.seen room s n, cut x)) := by
  induction n with
  | zero =>
      exact ⟨[], [], by simp [passes], by simp [passes], by simp, by simp, by simp,
        Or.inl ⟨rfl, rfl⟩⟩
  | succ n ih =>
      have hpre := prefix_seen (L := L) room s (Nat.le_succ n)
      obtain ⟨ys, zs, hout', hout, hmem, hys, hzs, hrel⟩ := ih (hup.sublist hpre.sublist)
      rw [passes_succ, passes_succ]
      by_cases hs : (L.passes room n s).stop = none
      · rw [seen_succ_of_none hs] at hup ⊢
        obtain ⟨-, hupn, hcross⟩ := List.pairwise_append.mp hup
        set p := (L.passes room n s).pos with hp
        have hat : ∀ {xs : List α}, (∀ x ∈ xs, x ∈ L.items p) → ∀ {e : σ × α},
            e ∈ ys ++ zs ∨ e ∈ xs.map (p, ·) → e.2 ∈ L.seen room s n ++ L.items p := by
          rintro xs hxs e (he | he)
          · exact List.mem_append_left _ (hmem e he)
          · obtain ⟨x, hx, rfl⟩ := List.mem_map.mp he
            exact List.mem_append_right _ (hxs x hx)
        rcases hrel with ⟨heq, rfl⟩ | ⟨hstop, c, hcs, hcut⟩
        · obtain ⟨vs, us, hv', hv, hvmem, hvs, hus, hrel'⟩ := pass_cut hc room hs hupn
          refine ⟨ys ++ vs.map (p, ·), us.map (p, ·), ?_, ?_, fun y hy => ?_, fun y hy => ?_,
            fun z hz => ?_, ?_⟩
          · rw [heq, hv', hout, List.append_nil, entries_append, entries_at, List.append_assoc]
          · rw [hv, hout, List.append_nil, List.append_assoc ys, entries_append, ← List.map_append,
              entries_at, List.append_assoc]
          · rw [List.append_assoc, ← List.map_append] at hy
            refine hat hvmem (List.mem_append.mp ?_)
            simpa using hy
          · rcases List.mem_append.mp hy with hy | hy
            · exact hys y hy
            · obtain ⟨x, hx, rfl⟩ := List.mem_map.mp hy
              exact hvs x hx
          · obtain ⟨x, hx, rfl⟩ := List.mem_map.mp hz
            exact hus x hx
          · rw [heq]
            rcases hrel' with ⟨heq', rfl⟩ | ⟨hfin, c, hcs, hcut⟩
            · exact Or.inl ⟨heq', rfl⟩
            · exact Or.inr ⟨hfin, c, List.mem_append_right _ hcs, hcut⟩
        · -- the second loop has been left, what the first goes on with is cut
          obtain ⟨ws, hw, hsub, -⟩ := pass_stores (L := L) room (L.passes room n s)
          rw [if_pos hs] at hsub
          have hdone : ((L.rejudge judge).passes room n s).stop ≠ none := by rw [hstop]; simp
          rw [pass_of_stop room hdone]
          refine ⟨ys, zs ++ ws.map (p, ·), hout', ?_, fun y hy => ?_, hys, fun z hz => ?_,
            Or.inr ⟨hstop, c, List.mem_append_left _ hcs, hcut⟩⟩
          · rw [hw, hout, ← List.append_assoc ys, entries_append (ys ++ zs), entries_at,
              List.append_assoc]
          · rw [← List.append_assoc] at hy
            exact hat (fun x hx => hsub.subset hx) (List.mem_append.mp hy)
          · rcases List.mem_append.mp hz with hz | hz
            · exact hzs z hz
            · obtain ⟨x, hx, rfl⟩ := List.mem_map.mp hz
              exact hcross c hcs x (hsub.subset hx) hcut
      · rw [pass_of_stop room hs, seen_succ_of_stop hs]
        refine ⟨ys, zs, ?_, hout, hmem, hys, hzs, ?_⟩
        all_goals
          rcases hrel with ⟨heq, hz⟩ | ⟨hstop, hcut⟩
        · rw [heq] at hout' ⊢
          rw [pass_of_stop room hs]
          exact hout'
        · rw [pass_of_stop room (by rw [hstop]; simp)]
          exact hout'
        · exact Or.inl ⟨by rw [heq, pass_of_stop room hs], hz⟩
        · exact Or.inr ⟨by rw [pass_of_stop room (by rw [hstop]; simp)]; exact hstop, hcut⟩

end Cut

end Loop

end FillLoop
