/-
Buffers of any size: what the parser gives does not depend on how a text is cut, as long as
the cuts are safe.

The parser stops where a buffer ends, and it stops early: at a line that is empty or too
long, at the end of a calendar, and at a component without an instruction.  The rest of the
buffer is then given up.  So every text before a cut has to be one that is read to its end.
`Reads` says so of a text, and gives the instructions, the state and the line that is still
open; the parser after some buffers is `held` of these.
-/
import Echse.Proofs.Lines

namespace Echse

open IcalParser

section

variable {α β τ : Type} {x : Snarfers α β τ}

/-! ### Texts -/

/-- From `c` the complete lines of a text are read, none of them being empty or too long,
nor the end of it all, nor of a component without an instruction.  The instructions, what
`c` becomes, and the rest of the text. -/
inductive Reads (x : Snarfers α β τ) :
    IcalCtx α β → List Char → List (EchsInstruc τ) → IcalCtx α β → List Char → Prop
  | done {c s} (h : Open s) : Reads x c s [] c s
  | null {c s l r c₁ is c₂ t} (hc : chop s = some (l, r)) (hr : r ≠ [])
      (hl : unescape l ≠ [] ∧ (unescape l).length < stashSize)
      (hp : c.procLine x (unescape l) [] = (.null, c₁)) (h : Reads x c₁ r is c₂ t) :
      Reads x c s is c₂ t
  | ve {c s l r v c₁ is c₂ t} (hc : chop s = some (l, r)) (hr : r ≠ [])
      (hl : unescape l ≠ [] ∧ (unescape l).length < stashSize)
      (hp : c.procLine x (unescape l) [] = (.ve v, c₁))
      (hv : (icalInstruc x c₁.globve.meth v).v ≠ .unk) (h : Reads x c₁ r is c₂ t) :
      Reads x c s (icalInstruc x c₁.globve.meth v :: is) c₂ t

theorem Reads.isOpen {c c' : IcalCtx α β} {s t : List Char} {is : List (EchsInstruc τ)}
    (h : Reads x c s is c' t) : Open t := by
  induction h with
  | done h => exact h
  | null _ _ _ _ _ ih => exact ih
  | ve _ _ _ _ _ _ ih => exact ih

/-- Reading more of the text goes on with the rest. -/
theorem Reads.append {c c' : IcalCtx α β} {s t : List Char} {is : List (EchsInstruc τ)}
    (h : Reads x c s is c' t) {b t₂ : List Char} {is₂ : List (EchsInstruc τ)}
    {c₂ : IcalCtx α β} (h₂ : Reads x c (s ++ b) is₂ c₂ t₂) :
    ∃ is', is₂ = is ++ is' ∧ Reads x c' (t ++ b) is' c₂ t₂ := by
  induction h generalizing is₂ with
  | done _ => exact ⟨is₂, rfl, h₂⟩
  | @null c s l r c₁ is c' t hc hr hl hp _ ih =>
      have hcb := chop_append_some b hc (.inl hr)
      have hrb : r ++ b ≠ [] := by simp [hr]
      cases h₂ with
      | done ho => exact absurd (ho _ _ hcb) hrb
      | null hc' _ _ hp' h₂ =>
          obtain ⟨rfl, rfl⟩ : l = _ ∧ r ++ b = _ := by simpa [hcb] using hc'
          obtain rfl : c₁ = _ := by simpa [hp] using hp'
          exact ih h₂
      | ve hc' _ _ hp' _ _ =>
          obtain ⟨rfl, rfl⟩ : l = _ ∧ r ++ b = _ := by simpa [hcb] using hc'
          simp [hp] at hp'
  | @ve c s l r v c₁ is c' t hc hr hl hp hv _ ih =>
      have hcb := chop_append_some b hc (.inl hr)
      have hrb : r ++ b ≠ [] := by simp [hr]
      cases h₂ with
      | done ho => exact absurd (ho _ _ hcb) hrb
      | null hc' _ _ hp' h₂ =>
          obtain ⟨rfl, rfl⟩ : l = _ ∧ r ++ b = _ := by simpa [hcb] using hc'
          simp [hp] at hp'
      | ve hc' _ _ hp' _ h₂ =>
          obtain ⟨rfl, rfl⟩ : l = _ ∧ r ++ b = _ := by simpa [hcb] using hc'
          obtain ⟨rfl, rfl⟩ : v = _ ∧ c₁ = _ := by simpa [hp] using hp'
          obtain ⟨is', rfl, h'⟩ := ih h₂
          exact ⟨is', rfl, h'⟩

/-- There is one way to read a text. -/
theorem Reads.unique {c c₁ c₂ : IcalCtx α β} {s t₁ t₂ : List Char}
    {is₁ is₂ : List (EchsInstruc τ)} (h₁ : Reads x c s is₁ c₁ t₁) (h₂ : Reads x c s is₂ c₂ t₂) :
    is₁ = is₂ ∧ c₁ = c₂ ∧ t₁ = t₂ := by
  obtain ⟨is', rfl, h⟩ := h₁.append (b := []) (by rwa [List.append_nil])
  rw [List.append_nil] at h
  cases h with
  | done _ => exact ⟨(List.append_nil _).symm, rfl, rfl⟩
  | null hc hr _ _ _ => exact absurd (h₁.isOpen _ _ hc) hr
  | ve hc hr _ _ _ _ => exact absurd (h₁.isOpen _ _ hc) hr

/-- **Pulling from a buffer** gives the instructions of its lines, and goes on with the rest. -/
theorem Reads.pulled {c c' : IcalCtx α β} {s t : List Char} {is : List (EchsInstruc τ)}
    (h : Reads x c s is c' t) (b : List Char) :
    pullAll x (some (held c [] (s ++ b))) =
      (is ++ (pullAll x (some (held c' [] (t ++ b)))).1,
        (pullAll x (some (held c' [] (t ++ b)))).2) := by
  induction h with
  | done _ => rfl
  | @null c s l r c₁ is c' t hc hr hl hp _ ih =>
      have hpull := pull_held_line x c open_nil (joinOk_nil (s ++ b))
        (chop_append_some b hc (.inl hr)) (by simp [hr]) hl.2
      rw [if_neg hl.1, hp] at hpull
      rw [← ih]
      refine pullAll_congr x ?_
      rw [echsEvicalPull, echsEvicalPull, hpull]
  | @ve c s l r v c₁ is c' t hc hr hl hp hv _ ih =>
      have hpull := pull_held_line x c open_nil (joinOk_nil (s ++ b))
        (chop_append_some b hc (.inl hr)) (by simp [hr]) hl.2
      rw [if_neg hl.1, hp] at hpull
      have hi : echsEvicalPull x (some (held c [] (s ++ b))) =
          (icalInstruc x c₁.globve.meth v, some (held c₁ [] (r ++ b))) := by
        rw [echsEvicalPull, hpull]
        rfl
      rw [pullAll_eq, hi, if_neg hv, ih]
      rfl

/-! ### Cuts -/

/-- A cut before buffer `b`, where `s` is what the lines complete so far leave of the text
and `a` is the buffer before. -/
structure CutOk (a s b : List Char) : Prop where
  /-- The stash has had the room for its part of `a`. -/
  kept : (unescape (s.take (s.length - a.length))).length + min s.length a.length < stashSize
  join : JoinOk s b
  /-- The stash has the room for the line that `b` completes. -/
  fits : ∀ l r, chop (s ++ b) = some (l, r) → r ≠ [] → (unescape l).length < stashSize

/-- The cut before the last buffer, if all of it belongs to a line which `s` starts and which
ends where the text does: that line has the room it needs without the cut, and the byte after
the cut is no blank. -/
def LastOk (s b : List Char) : Prop :=
  Open (s ++ b) → chop (s ++ b) ≠ none → unescape (s ++ b) ≠ [] → blankAt s = false →
    b.length + (unescape s).length < stashSize →
    (s ++ b).length < stashSize ∧ blankAt b = false

/-- The cuts after the text `w` and buffer `a`, each of them preceded by a text that can be
read. -/
def CutsOk (x : Snarfers α β τ) : List Char → List Char → List (List Char) → Prop
  | _, _, [] => True
  | w, a, b :: bs =>
      (∃ is c s, Reads x (.fresh x) (w ++ a) is c s ∧ CutOk a s b ∧ (bs = [] → LastOk s b)) ∧
      CutsOk x (w ++ a) b bs

theorem pull_held_merge (c : IcalCtx α β) {s b l r : List Char} (hs : Open s) (hj : JoinOk s b)
    (hc : chop (s ++ b) = some (l, r)) (hr : r ≠ []) (hf : (unescape l).length < stashSize) :
    (held c s b).pull x = (held c [] (s ++ b)).pull x := by
  rw [pull_held_line x c hs hj hc hr hf]
  exact (pull_held_line x c open_nil (joinOk_nil (s ++ b)) hc hr hf).symm

theorem Reads.length_le {c c' : IcalCtx α β} {s t : List Char} {is : List (EchsInstruc τ)}
    (h : Reads x c s is c' t) : t.length ≤ s.length ∧ (s ≠ [] → t ≠ []) := by
  induction h with
  | done _ => exact ⟨le_rfl, id⟩
  | null hc hr _ _ _ ih => exact ⟨ih.1.trans (length_of_chop hc).le, fun _ => ih.2 hr⟩
  | ve hc hr _ _ _ _ ih => exact ⟨ih.1.trans (length_of_chop hc).le, fun _ => ih.2 hr⟩

/-- The rest of a text starts with a blank only if no line of it is complete. -/
theorem Reads.of_blank {c c' : IcalCtx α β} {s t : List Char} {is : List (EchsInstruc τ)}
    (h : Reads x c s is c' t) (ht : blankAt t = true) (hs : blankAt s = false) : False := by
  induction h with
  | done _ => simp [ht] at hs
  | null hc _ _ _ _ ih => exact ih ht (chop_eq _ _ _ hc).2.2
  | ve hc _ _ _ _ _ ih => exact ih ht (chop_eq _ _ _ hc).2.2

theorem pullAll_null {p q : IcalParser α β} (h : p.pull x = (.null, q)) :
    pullAll x (some p) = ([], some q) := by
  rw [pullAll_eq, echsEvicalPull, h]
  rfl

/-- **A buffer in between**: the parser gives the instructions of the lines it completes, and
holds the rest. -/
theorem Reads.between {c c' : IcalCtx α β} {s b t : List Char} {is : List (EchsInstruc τ)}
    (h : Reads x c (s ++ b) is c' t) (hs : Open s) (hj : JoinOk s b) (hb : b ≠ [])
    (hk : (unescape (t.take (t.length - b.length))).length + min t.length b.length < stashSize) :
    ∃ buf, Open buf ∧ pullAll x (some (held c s b)) =
      (is, some (held c' t buf)) := by
  by_cases ho : Open (s ++ b)
  · obtain ⟨rfl, rfl, rfl⟩ := h.unique (.done ho)
    have hk : b.length + (unescape s).length < stashSize := by
      simpa [List.length_append, Nat.add_comm] using hk
    have hp := pull_held_open x c' hs hj hb ho
    rw [if_pos hk] at hp
    exact ⟨b, (hj.of_open hs hb ho).2.2.1, pullAll_null hp⟩
  · obtain ⟨l, r, hc, hr⟩ : ∃ l r, chop (s ++ b) = some (l, r) ∧ r ≠ [] := by
      simpa [Open] using ho
    have hf : (unescape l).length < stashSize ∧ t.length ≤ r.length := by
      cases h with
      | done h => exact absurd h ho
      | null hc' _ hl _ h =>
          obtain ⟨rfl, rfl⟩ : l = _ ∧ r = _ := by simpa [hc] using hc'
          exact ⟨hl.2, h.length_le.1⟩
      | ve hc' _ hl _ _ h =>
          obtain ⟨rfl, rfl⟩ : l = _ ∧ r = _ := by simpa [hc] using hc'
          exact ⟨hl.2, h.length_le.1⟩
    have hm : pullAll x (some (held c s b)) =
        pullAll x (some (held c [] (s ++ b))) := by
      refine pullAll_congr x ?_
      rw [echsEvicalPull, echsEvicalPull, pull_held_merge c hs hj hc hr hf.1]
    have ht : t.length ≤ b.length := hf.2.trans (hj.rest_le hs hc)
    have hlt : t.length + (unescape []).length < stashSize := by
      simpa [Nat.sub_eq_zero_of_le ht, Nat.min_eq_left ht, unescape] using hk
    have hp := pull_held_open x c' open_nil (joinOk_nil t) (h.length_le.2 (by simp [hb]))
      (by simpa using h.isOpen)
    rw [if_pos hlt, List.nil_append] at hp
    have hr := h.pulled []
    rw [List.append_nil, List.append_nil, ← hm, pullAll_null hp, List.append_nil] at hr
    exact ⟨t, h.isOpen, hr⟩

/-! ### The last pull -/

/-- The instruction of a line that is complete because the text ends after it. -/
def lineInstruc (x : Snarfers α β τ) (c : IcalCtx α β) (s : List Char) : EchsInstruc τ :=
  match c.procLine x (unescape s) [] with
  | (.ve v, c') => icalInstruc x c'.globve.meth v
  | _ => .unk

theorem chopMore_open (n : Nat) {p : IcalParser α β} (ho : Open p.buf) :
    (p.chopMore x (n + 1)).1 = .null := by
  rw [chopMore]
  rcases hc : chop p.buf with _ | ⟨l, _ | ⟨d, r⟩⟩
  · rfl
  · rfl
  · simpa using ho _ _ hc

theorem echsEvicalPull_null {p : IcalParser α β} (h : (p.pull x).1 = .null) :
    (echsEvicalPull x (some p)).1 = .unk := by
  rw [echsEvicalPull]
  rcases hp : p.pull x with ⟨res, q⟩
  obtain rfl : res = .null := by simpa [hp] using h
  rfl

theorem lastPull_held (c : IcalCtx α β) (s : List Char) {b : List Char} (ho : Open b) :
    echsEvicalLastPull x (some (held c s b)) =
      if chop s ≠ none ∧ unescape s ≠ [] ∧ blankAt b = false then lineInstruc x c s
      else .unk := by
  rw [echsEvicalLastPull]
  split
  · rename_i h
    rw [lineInstruc, echsEvicalPull, pull, if_pos (by simp [held, h]),
      if_neg (by simp [held, h.2.2])]
    dsimp only [held, proc]
    rcases c.procLine x (unescape s) [] with ⟨_ | _ | v, c'⟩
    · dsimp only
      rcases hq : chopMore x (b.length + 1) ⟨c', b, [], []⟩ with ⟨res, q⟩
      obtain rfl : res = .null := by
        rw [← chopMore_open (x := x) (p := ⟨c', b, [], []⟩) b.length ho, hq]
      rfl
    · rfl
    · rfl
  · rename_i h
    refine echsEvicalPull_null ?_
    rw [pull]
    split
    · rename_i hm
      have hb : blankAt b = true := by
        by_contra hb
        refine h ⟨fun hs => ?_, hm.1, by simpa using hb⟩
        simp [held, hs] at hm
      dsimp only [held]
      rw [if_pos hb]
      exact chopMore_open (p := ⟨c, b, unescape s, []⟩) b.length ho
    · exact chopMore_open b.length ho

theorem lineInstruc_unk (x : Snarfers α β τ) {c : IcalCtx α β} (h : c.st = .unk)
    (s : List Char) : lineInstruc x c s = .unk := by
  rw [lineInstruc, IcalCtx.procLine]
  dsimp only
  split
  · rename_i v c' hp
    split at hp
    · rw [h] at hp
      simp only [IcalCtx.procUnk] at hp
      split at hp
      · split at hp <;> simp at hp
      · simp at hp
    · simp at hp
  · rfl

/-- Where no line is complete before a blank, none has been read. -/
theorem Reads.blank {c c' : IcalCtx α β} {s t : List Char} {is : List (EchsInstruc τ)}
    (h : Reads x c s is c' t) (ht : blankAt t = true) : c' = c := by
  cases h with
  | done _ => rfl
  | null hc _ _ _ h => exact (h.of_blank ht (chop_eq _ _ _ hc).2.2).elim
  | ve hc _ _ _ _ h => exact (h.of_blank ht (chop_eq _ _ _ hc).2.2).elim

theorem blankAt_append {s : List Char} (b : List Char) (h : s ≠ []) :
    blankAt (s ++ b) = blankAt s := by
  obtain ⟨c, s, rfl⟩ := List.exists_cons_of_ne_nil h
  rfl

/-- **The last buffer**: the cut before it makes no difference. -/
theorem icalRun_last {c : IcalCtx α β} {s b : List Char} (hs : Open s) (hne : s ≠ [])
    (hst : blankAt s = true → c.st = .unk) (hb : b ≠ []) {a : List Char} (hc : CutOk a s b)
    (hl : LastOk s b) (buf : List Char) :
    icalRun x (some (held c s buf)) [b] = icalRun x (some (held c [] buf)) [s ++ b] := by
  have hpush : ∀ u d, echsEvicalPush x (some (held c u buf)) d = some (held c u d) :=
    fun _ _ => rfl
  simp only [icalRun, hpush]
  by_cases ho : Open (s ++ b)
  · obtain ⟨-, -, hob, -⟩ := hc.join.of_open hs hb ho
    have hp₁ := pull_held_open x c hs hc.join hb ho
    have hp₂ := pull_held_open x c open_nil (joinOk_nil (s ++ b)) (by simp [hb]) ho
    rw [pullAll_null hp₁, pullAll_null hp₂, lastPull_held c _ hob, lastPull_held c _ ho]
    rw [List.nil_append, blankAt_append b hne]
    have hlen : (s ++ b).length + (unescape []).length < stashSize →
        b.length + (unescape s).length < stashSize := by
      intro h
      have := length_unescape s
      rw [List.length_append] at h
      omega
    by_cases hbs : blankAt s = true
    · simp [lineInstruc_unk x (hst hbs)]
    · by_cases h₁ : b.length + (unescape s).length < stashSize
      · by_cases h₂ : chop (s ++ b) ≠ none ∧ unescape (s ++ b) ≠ []
        · have h₃ := hl ho h₂.1 h₂.2 (by simpa using hbs) h₁
          have h₄ : (s ++ b).length + (unescape []).length < stashSize := h₃.1
          simp only [if_pos h₁, if_pos h₄, h₃.2, hbs]
          rfl
        · have h₅ : ∀ p : Prop, ¬ (chop (s ++ b) ≠ none ∧ unescape (s ++ b) ≠ [] ∧ p) :=
            fun p h => h₂ ⟨h.1, h.2.1⟩
          rw [if_pos h₁, if_neg (h₅ _)]
          split <;> simp [h₅, chop]
      · rw [if_neg h₁, if_neg (fun h => h₁ (hlen h))]
        simp [chop]
  · obtain ⟨l, r, hcl, hr⟩ : ∃ l r, chop (s ++ b) = some (l, r) ∧ r ≠ [] := by
      simpa [Open] using ho
    have hm : pullAll x (some (held c s b)) = pullAll x (some (held c [] (s ++ b))) := by
      refine pullAll_congr x ?_
      rw [echsEvicalPull, echsEvicalPull,
        pull_held_merge c hs hc.join hcl hr (hc.fits l r hcl hr)]
    rw [hm]

theorem push_fresh {b : List Char} (h : b ≠ []) :
    echsEvicalPush x none b = some (held (.fresh x) [] b) := by
  rw [echsEvicalPush, if_neg h]
  rfl

theorem icalRun_cons (p : Option (IcalParser α β)) (b : List Char) (bs : List (List Char)) :
    icalRun x p (b :: bs) = (pullAll x (echsEvicalPush x p b)).1 ++
      icalRun x (pullAll x (echsEvicalPush x p b)).2 bs := rfl

/-- A text in one buffer, part of which is read first. -/
theorem Reads.whole {w s b : List Char} {is : List (EchsInstruc τ)} {c : IcalCtx α β}
    (h : Reads x (.fresh x) w is c s) (hb : b ≠ []) (buf : List Char) :
    icalRun x none [w ++ b] = is ++ icalRun x (some (held c [] buf)) [s ++ b] := by
  rw [icalRun_cons, icalRun_cons, push_fresh (by simp [hb]), h.pulled b, List.append_assoc]
  rfl

/-- The buffers after the first, from the second on. -/
theorem icalRun_held {w a : List Char} {bs : List (List Char)} (hbs : bs ≠ [])
    (hw : w ++ a ≠ []) (hne : ∀ b ∈ bs, b ≠ []) (hc : CutsOk x w a bs)
    {is : List (EchsInstruc τ)} {c : IcalCtx α β} {s : List Char}
    (hr : Reads x (.fresh x) (w ++ a) is c s) (buf : List Char) :
    is ++ icalRun x (some (held c s buf)) bs = icalRun x none [w ++ a ++ bs.flatten] := by
  induction bs generalizing w a is c s buf with
  | nil => exact absurd rfl hbs
  | cons b bs ih =>
      obtain ⟨⟨is', c', s', hr', hcut, hlast⟩, hrest⟩ := hc
      obtain ⟨rfl, rfl, rfl⟩ := hr.unique hr'
      have hb : b ≠ [] := hne b List.mem_cons_self
      rcases bs with _ | ⟨b', bs⟩
      · have hst : blankAt s = true → c.st = .unk := fun h => by rw [hr.blank h]; rfl
        rw [icalRun_last hr.isOpen (hr.length_le.2 hw) hst hb hcut (hlast rfl)]
        rw [show [b].flatten = b by simp, hr.whole hb buf]
      · obtain ⟨⟨is₂, c₂, s₂, hr₂, hcut₂, -⟩, -⟩ := id hrest
        obtain ⟨is', rfl, h'⟩ := hr.append hr₂
        obtain ⟨buf', -, hp⟩ := h'.between hr.isOpen hcut.join hb hcut₂.kept
        have hw' : w ++ a ++ b ≠ [] := by simp [hb]
        rw [icalRun_cons,
          show echsEvicalPush x (some (held c s buf)) b = some (held c s b) from rfl, hp,
          ← List.append_assoc,
          ih (by simp) hw' (fun b hb => hne b (List.mem_cons_of_mem _ hb)) hrest hr₂ buf',
          List.flatten_cons (l := b), List.append_assoc (w ++ a)]

end

/-! ### Safe and unsafe cuts -/

/-- The snarfers for what has but a `UID`, a short one. -/
def uidSnarfers : Snarfers Unit Unit (ProtoTask Unit) where
  zeroTask := ()
  zeroVevent := ()
  snarfPro ve _ _ _ := ve
  snarfFld ve fld _ vp z :=
    match fld with
    | .uid =>
        { ve with t := { ve.t with
            oid := (vp.take z).foldl (fun n (c : Char) => n * 256 + c.toNat) 0 } }
    | _ => ve
  makeTask ve := ve.t

/-- **Where the cuts are safe, the parser gives the instructions of the whole text.** -/
theorem icalRun_chunks {α β τ : Type} (x : Snarfers α β τ) (b : List Char) (bs : List (List Char))
    (hne : ∀ a ∈ b :: bs, a ≠ []) (h : CutsOk x [] b bs) :
    icalRun x none (b :: bs) = icalRun x none [(b :: bs).flatten] := by
  have hb : b ≠ [] := hne b List.mem_cons_self
  rcases bs with _ | ⟨b', bs⟩
  · simp
  · obtain ⟨⟨is, c, s, hr, hcut, -⟩, -⟩ := id h
    obtain ⟨buf, -, hp⟩ := hr.between open_nil (joinOk_nil b) hb hcut.kept
    rw [icalRun_cons, push_fresh hb, hp, icalRun_held (by simp) (by simpa using hb)
      (fun b hb => hne b (List.mem_cons_of_mem _ hb)) h hr buf]
    rfl

/-- A cut in the middle of a keyword. -/
theorem icalRun_chunks_keyword :
    icalRun uidSnarfers none
        ["BEGIN:VCALENDAR\nBEGIN:VEV".toList, "ENT\nUID:a\nEND:VEVENT\n".toList] =
      icalRun uidSnarfers none
        [["BEGIN:VCALENDAR\nBEGIN:VEV".toList, "ENT\nUID:a\nEND:VEVENT\n".toList].flatten] := by
  have hc : chop ("BEGIN:VEV".toList ++ "ENT\nUID:a\nEND:VEVENT\n".toList) =
      some ("BEGIN:VEVENT\n".toList, "UID:a\nEND:VEVENT\n".toList) := by decide +kernel
  have hs : chop "BEGIN:VEV".toList = none := by decide +kernel
  refine icalRun_chunks uidSnarfers _ _ (by decide +kernel) ⟨⟨[], { IcalCtx.fresh uidSnarfers with
    st := .vcal }, "BEGIN:VEV".toList, ?_, ⟨?_, ?_, ?_⟩, ?_⟩, trivial⟩
  · exact .null (l := "BEGIN:VCALENDAR\n".toList) (r := "BEGIN:VEV".toList)
      (by decide +kernel) (by decide +kernel) (by decide +kernel) (by decide +kernel)
      (.done fun l r h => absurd (hs.symm.trans h) (by simp))
  · decide +kernel
  · rw [JoinOk, if_neg fun h => h.1 hs]
    decide +kernel
  · rintro l r h -
    obtain ⟨rfl, -⟩ := Prod.mk.inj (Option.some.inj (hc.symm.trans h))
    decide +kernel
  · intro _ ho
    exact absurd (ho _ _ hc) (by decide +kernel)

/-- A calendar that starts with an empty line, cut after it. -/
def emptyLine : List (List Char) :=
  ["BEGIN:VCALENDAR\n\n".toList,
   "BEGIN:VEVENT\nUID:a\nEND:VEVENT\nBEGIN:VEVENT\nUID:b\nEND:VEVENT\nEND:VCALENDAR\n".toList]

/-- In two buffers there are two tasks; in one the second is lost. -/
theorem cut_matters :
    (icalRun uidSnarfers none emptyLine).map (·.t.map ProtoTask.oid) = [some 97, some 98] ∧
      (icalRun uidSnarfers none [emptyLine.flatten]).map (·.t.map ProtoTask.oid) =
        [some 97] := by
  decide +kernel

end Echse
