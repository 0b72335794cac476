/-
A line in two buffers: what the parser makes of the one that a buffer starts and the next
goes on with.

The parser that has stowed the text `s` is `held`.  A cut after `s` is safe if it is at the
end of a line, or if the byte after it is not one that `esccpy` would have dropped because
of the byte before it.
-/
import Echse.Parser

namespace Echse

/-! ### Escapes and line ends -/

theorem unescape_cons (c : Char) (s : List Char) :
    unescape (c :: s) = if c = '\r' then unescape s else if c = '\n' then unescape s.tail
      else if c = '\\' then '\\' :: unescape s.tail else c :: unescape s := by
  rcases s with _ | ⟨d, s⟩ <;> split_ifs <;> simp_all [unescape]

/-- The text ends where the next byte is to be dropped. -/
def pending : List Char → Bool
  | [] => false
  | [c] => c == '\n' || c == '\\'
  | c :: d :: s => if c = '\n' ∨ c = '\\' then pending s else pending (d :: s)

theorem unescape_append (s b : List Char) (h : pending s = false) :
    unescape (s ++ b) = unescape s ++ unescape b := by
  induction s using pending.induct with
  | case1 => rfl
  | case2 c =>
      have hc : c ≠ '\n' ∧ c ≠ '\\' := by simpa [pending] using h
      by_cases hr : c = '\r' <;> simp [unescape_cons, hc, hr, unescape]
  | case3 c d s hc ih =>
      rw [pending, if_pos hc] at h
      rcases hc with rfl | rfl <;> simp [unescape_cons, ih h]
  | case4 c d s hc ih =>
      rw [pending, if_neg hc] at h
      have hc : c ≠ '\n' ∧ c ≠ '\\' := by simpa using hc
      simp only [List.cons_append] at ih ⊢
      by_cases hr : c = '\r' <;> rw [unescape_cons, unescape_cons c] <;> simp [hc, hr, ih h]

theorem length_unescape (s : List Char) : (unescape s).length ≤ s.length := by
  induction s using pending.induct with
  | case1 => simp [unescape]
  | case2 c => rw [unescape_cons]; split_ifs <;> simp [unescape]
  | case3 c d s hc ih =>
      rcases hc with rfl | rfl
      · simp [unescape_cons]
        omega
      · simp [unescape_cons]
        omega
  | case4 c d s hc ih =>
      have hc : c ≠ '\n' ∧ c ≠ '\\' := by simpa using hc
      rw [unescape_cons]; split_ifs <;> simp_all; omega

theorem chop_eq (s l r : List Char) (h : chop s = some (l, r)) :
    s = l ++ r ∧ l ≠ [] ∧ blankAt r = false := by
  induction s generalizing l with
  | nil => simp [chop] at h
  | cons c s ih =>
      rw [chop] at h
      split at h
      · rename_i hc
        obtain ⟨rfl, rfl⟩ : [c] = l ∧ s = r := by simpa using h
        exact ⟨rfl, by simp, hc.2⟩
      · obtain ⟨⟨l', r'⟩, hl, he⟩ := Option.map_eq_some_iff.mp h
        obtain ⟨rfl, rfl⟩ : c :: l' = l ∧ r' = r := by simpa using he
        obtain ⟨rfl, -, hb⟩ := ih l' hl
        exact ⟨rfl, by simp, hb⟩

/-- What is left of the buffer holds no complete line. -/
def Open (s : List Char) : Prop := ∀ l r, chop s = some (l, r) → r = []

theorem chop_append_some {s l r : List Char} (b : List Char) (h : chop s = some (l, r))
    (hr : r ≠ [] ∨ blankAt b = false) : chop (s ++ b) = some (l, r ++ b) := by
  induction s generalizing l with
  | nil => simp [chop] at h
  | cons c s ih =>
      rw [chop] at h
      rw [List.cons_append, chop]
      split at h
      · rename_i hc
        obtain ⟨rfl, rfl⟩ : [c] = l ∧ s = r := by simpa using h
        have hb : blankAt (s ++ b) = false := by
          rcases s with _ | ⟨d, s⟩
          · rcases hr with hr | hr
            · exact absurd rfl hr
            · exact hr
          · exact hc.2
        rw [if_pos ⟨hc.1, hb⟩]
      · rename_i hc
        obtain ⟨⟨l', r'⟩, hl, he⟩ := Option.map_eq_some_iff.mp h
        obtain ⟨rfl, rfl⟩ : c :: l' = l ∧ r' = r := by simpa using he
        have hc' : ¬ (c = '\n' ∧ blankAt (s ++ b) = false) := by
          rintro ⟨hn, hb⟩
          rcases s with _ | ⟨d, s⟩
          · simp [chop] at hl
          · exact hc ⟨hn, hb⟩
        rw [if_neg hc', ih hl]
        rfl

theorem chop_append_open {s : List Char} (b : List Char) (h : Open s)
    (hb : chop s = none ∨ blankAt b = true) :
    chop (s ++ b) = (chop b).map fun (l, r) => (s ++ l, r) := by
  induction s with
  | nil => simp
  | cons c s ih =>
      by_cases hc : c = '\n' ∧ blankAt s = false
      · -- the line ends where the buffer does, so a blank has to follow
        have he : chop (c :: s) = some ([c], s) := by rw [chop, if_pos hc]
        obtain rfl : s = [] := h _ _ he
        have hb : blankAt b = true := hb.resolve_left (by simp [he])
        rw [List.singleton_append, chop, if_neg (by simp [hb])]
        rfl
      · have he : chop (c :: s) = (chop s).map fun (l, r) => (c :: l, r) := by
          rw [chop, if_neg hc]
        have hc' : ¬ (c = '\n' ∧ blankAt (s ++ b) = false) := by
          rcases s with _ | ⟨d, s⟩
          · exact fun hn => hc ⟨hn.1, rfl⟩
          · exact hc
        have hs : Open s := fun l r hl => h (c :: l) r (by rw [he, hl]; rfl)
        have hb : chop s = none ∨ blankAt b = true := by simpa [he] using hb
        rw [List.cons_append, chop, if_neg hc', ih hs hb, Option.map_map]
        rfl

/-! ### Lines across a cut -/

theorem length_of_chop {s l r : List Char} (h : chop s = some (l, r)) : r.length < s.length := by
  obtain ⟨rfl, hl, -⟩ := chop_eq _ _ _ h
  have := List.length_pos_iff.mpr hl
  rw [List.length_append]
  omega

theorem open_nil : Open [] := fun l r h => by simp [chop] at h

/-- The cut between `s` and `b` is at the end of a line that is not empty, or it splits
neither a fold nor an escape. -/
def JoinOk (s b : List Char) : Prop :=
  if chop s ≠ none ∧ blankAt b = false then unescape s ≠ [] else pending s = false

/-- The two kinds of cut. -/
theorem JoinOk.cases {s b : List Char} (hs : Open s) (hj : JoinOk s b) :
    (chop s = some (s, []) ∧ blankAt b = false ∧ unescape s ≠ []) ∨
    ((chop s = none ∨ blankAt b = true) ∧ pending s = false ∧
      chop (s ++ b) = (chop b).map fun (l, r) => (s ++ l, r)) := by
  by_cases he : chop s ≠ none ∧ blankAt b = false
  · obtain ⟨⟨l, r⟩, hc⟩ := Option.ne_none_iff_exists'.mp he.1
    obtain rfl := hs _ _ hc
    obtain rfl : s = l := by simpa using (chop_eq _ _ _ hc).1
    exact .inl ⟨hc, he.2, by simpa only [JoinOk, if_pos he] using hj⟩
  · have hb : chop s = none ∨ blankAt b = true := by
      by_cases h0 : chop s = none
      · exact .inl h0
      · exact .inr (by simpa using fun h => he ⟨h0, h⟩)
    exact .inr ⟨hb, by simpa only [JoinOk, if_neg he] using hj, chop_append_open b hs hb⟩

/-- A buffer that completes no line goes on with the one before. -/
theorem JoinOk.of_open {s b : List Char} (hs : Open s) (hj : JoinOk s b) (hb : b ≠ [])
    (ho : Open (s ++ b)) :
    (chop s = none ∨ blankAt b = true) ∧ pending s = false ∧ Open b ∧
      (chop (s ++ b) = none ↔ chop b = none) := by
  rcases hj.cases hs with ⟨hc, hb', -⟩ | ⟨h, hp, hc⟩
  · exact absurd (by simpa using ho _ _ (chop_append_some b hc (.inr hb'))) hb
  · exact ⟨h, hp, fun l r hb => ho (s ++ l) r (by rw [hc, hb]; rfl), by simp [hc]⟩

theorem joinOk_nil (b : List Char) : JoinOk [] b := by simp [JoinOk, chop, pending]

theorem JoinOk.rest_le {s b l r : List Char} (hs : Open s) (hj : JoinOk s b)
    (hc : chop (s ++ b) = some (l, r)) : r.length ≤ b.length := by
  rcases hj.cases hs with ⟨hs', hb, -⟩ | ⟨-, -, hcb⟩
  · obtain ⟨-, rfl⟩ : s = l ∧ b = r := by
      simpa [chop_append_some b hs' (.inr hb)] using hc
    exact le_rfl
  · rw [hcb] at hc
    obtain ⟨⟨l', r'⟩, hc', h⟩ := Option.map_eq_some_iff.mp hc
    obtain ⟨-, rfl⟩ : s ++ l' = l ∧ r' = r := by simpa using h
    exact (length_of_chop hc').le

/-! ### Pulls -/

section

variable {α β τ : Type} (x : Snarfers α β τ)

namespace IcalParser

/-- The parser with text `s` in its stash, the newline at its end marked, before
buffer `b`. -/
def held (c : IcalCtx α β) (s b : List Char) : IcalParser α β :=
  ⟨c, b, unescape s, if chop s = none then [] else ['\x01']⟩

theorem append_buf (p : IcalParser α β) (l : List Char) : (p.append l).buf = p.buf := by
  rw [append]
  split <;> rfl

theorem proc_snd {p q : IcalParser α β} {res : IcalRes α β} (h : proc x p = (res, q)) :
    q.buf = p.buf ∧ q.stash = [] := by
  obtain ⟨-, rfl⟩ : _ ∧ _ := by simpa only [proc, Prod.mk.injEq] using h
  exact ⟨rfl, rfl⟩

/-- The loop may go on for longer than the buffer is. -/
theorem chopMore_fuel (n m : Nat) (p : IcalParser α β) (hn : p.buf.length < n)
    (hm : p.buf.length < m) : p.chopMore x n = p.chopMore x m := by
  induction n generalizing m p with
  | zero => omega
  | succ n ih =>
      obtain ⟨m, rfl⟩ : ∃ m', m = m' + 1 := ⟨m - 1, by omega⟩
      rw [chopMore, chopMore]
      rcases hc : chop p.buf with _ | ⟨l, _ | ⟨c, r⟩⟩
      · rfl
      · rfl
      · have hlt : (c :: r).length < p.buf.length := length_of_chop hc
        dsimp only
        split
        · rfl
        · rcases hp : proc x (({ p with buf := c :: r } : IcalParser α β).append l) with ⟨res, q⟩
          have hq : q.buf = c :: r := by rw [(proc_snd x hp).1, append_buf]
          cases res with
          | null => exact ih m q (by rw [hq]; omega) (by rw [hq]; omega)
          | eop => rfl
          | ve v => rfl

/-- The bytes after the stash do not matter once more are to be copied. -/
theorem chopMore_tail (n : Nat) (c : IcalCtx α β) (b s t t' : List Char) :
    chopMore x (n + 1) (⟨c, b, s, t⟩ : IcalParser α β) = chopMore x (n + 1) ⟨c, b, s, t'⟩ := by
  simp only [chopMore, stow, append]
  cases esccpy (stashSize - s.length) b <;> rcases chop b with _ | ⟨l, _ | ⟨d, r⟩⟩ <;> rfl

/-- Unless the line in the stash has turned out complete, the buffer goes on with it. -/
theorem pull_held_join (c : IcalCtx α β) {s b : List Char}
    (h : chop s = none ∨ blankAt b = true) :
    (held c s b).pull x = chopMore x (b.length + 1) ⟨c, b, unescape s, []⟩ := by
  rw [pull]
  split
  · rename_i hm
    have hb : blankAt b = true := by
      refine h.resolve_left fun hs => ?_
      simp [held, hs] at hm
    dsimp only [held]
    rw [if_pos hb]
  · exact chopMore_tail x ..

/-- **The first line of a buffer**, with what the stash holds of it. -/
theorem pull_held_line (c : IcalCtx α β) {s b l r : List Char} (hs : Open s) (hj : JoinOk s b)
    (hc : chop (s ++ b) = some (l, r)) (hr : r ≠ []) (hf : (unescape l).length < stashSize) :
    (held c s b).pull x =
      if unescape l = [] then (.null, held c [] r)
      else match c.procLine x (unescape l) [] with
        | (.null, c') => (held c' [] r).pull x
        | (res, c') => (res, held c' [] r) := by
  rcases hj.cases hs with ⟨hs', hb, hne⟩ | ⟨hb, hp, hcb⟩
  · -- the line ends where the buffer before does
    obtain ⟨rfl, rfl⟩ : s = l ∧ b = r := by
      simpa [chop_append_some b hs' (.inr hb)] using hc
    rw [pull, if_pos (by simp [held, hne, hs']), if_neg (by simp [held, hb]), if_neg hne]
    dsimp only [held, proc]
    rcases c.procLine x (unescape s) [] with ⟨_ | _ | v, c'⟩
    · simp [pull, unescape, chop]
    · simp [unescape, chop]
    · simp [unescape, chop]
  · rw [hcb] at hc
    obtain ⟨⟨l', r'⟩, hc', h⟩ := Option.map_eq_some_iff.mp hc
    obtain ⟨rfl, rfl⟩ : s ++ l' = l ∧ r' = r := by simpa using h
    obtain ⟨d, r, rfl⟩ := List.exists_cons_of_ne_nil hr
    rw [unescape_append _ _ hp] at hf ⊢
    rw [List.length_append] at hf
    have hcpy : esccpy (stashSize - (unescape s).length) l' = some (unescape l') := by
      rw [esccpy, if_pos (by omega)]
    have hlt : (d :: r).length < b.length := length_of_chop hc'
    rw [pull_held_join x c hb, chopMore]
    simp only [hc', append, hcpy, proc]
    split
    · rename_i hn
      simpa [held, unescape, chop] using hn
    · rcases c.procLine x (unescape s ++ unescape l') [] with ⟨_ | _ | v, c'⟩
      · dsimp only
        rw [chopMore_fuel x b.length ((d :: r).length + 1) _ hlt (by simp)]
        simp [held, pull, unescape, chop]
      · simp [held, unescape, chop]
      · simp [held, unescape, chop]

/-- **A buffer that completes no line** goes to the stash, if there is room. -/
theorem pull_held_open (c : IcalCtx α β) {s b : List Char} (hs : Open s) (hj : JoinOk s b)
    (hb : b ≠ []) (ho : Open (s ++ b)) :
    (held c s b).pull x =
      (.null, held c (if b.length + (unescape s).length < stashSize then s ++ b else []) b) := by
  obtain ⟨hbl, hp, hob, hcb⟩ := hj.of_open hs hb ho
  have hob : chop b = none ∨ ∃ l, chop b = some (l, []) := by
    rcases hc : chop b with _ | ⟨l, r⟩
    · exact .inl rfl
    · exact .inr ⟨l, by rw [hob _ _ hc]⟩
  have hcpy : b.length + (unescape s).length < stashSize →
      esccpy (stashSize - (unescape s).length) b = some (unescape b) := by
    intro h
    have := length_unescape b
    rw [esccpy, if_pos (by omega)]
  rw [pull_held_join x c hbl, chopMore]
  by_cases h : b.length + (unescape s).length < stashSize
  · have hlen : ¬ stashSize - (unescape s).length ≤ b.length := by omega
    rcases hob with hc | ⟨l, hc⟩ <;>
      simp [hc, stow, append, hlen, h, hcpy h, held, hcb, unescape_append _ _ hp]
  · have hlen : stashSize - (unescape s).length ≤ b.length := by omega
    rcases hob with hc | ⟨l, hc⟩ <;> simp [hc, stow, hlen, h, held, unescape, chop]

/-- A component costs a line of the buffer, unless it was in the stash. -/
theorem chopMore_ve (n : Nat) (p q : IcalParser α β) (v : IcalVevent α β)
    (h : p.chopMore x n = (.ve v, q)) : q.stash = [] ∧ q.buf.length < p.buf.length := by
  induction n generalizing p with
  | zero => simp [chopMore] at h
  | succ n ih =>
      rw [chopMore] at h
      rcases hc : chop p.buf with _ | ⟨l, _ | ⟨c, r⟩⟩
      · simp [hc] at h
      · simp [hc] at h
      · have hlt : (c :: r).length < p.buf.length := length_of_chop hc
        simp only [hc] at h
        split at h
        · simp at h
        · rcases hp : proc x (({ p with buf := c :: r } : IcalParser α β).append l) with ⟨res, p'⟩
          have hq : p'.buf = c :: r ∧ p'.stash = [] := by
            rw [(proc_snd x hp).1, append_buf]
            exact ⟨rfl, (proc_snd x hp).2⟩
          rw [hp] at h
          cases res with
          | null =>
              obtain ⟨hs, hb⟩ := ih p' h
              exact ⟨hs, by rw [hq.1] at hb; omega⟩
          | eop => simp at h
          | ve v' =>
              obtain ⟨-, rfl⟩ : v' = v ∧ p' = q := by simpa using h
              exact ⟨hq.2, by rw [hq.1]; exact hlt⟩

/-- The pulls that a parser is good for, at most. -/
def toPull (p : IcalParser α β) : Nat := p.buf.length + if p.stash = [] then 0 else 1

theorem toPull_lt {p q : IcalParser α β} {v : IcalVevent α β} (h : p.pull x = (.ve v, q)) :
    q.toPull < p.toPull := by
  rw [pull] at h
  split at h
  · rename_i hs
    have hp : p.toPull = p.buf.length + 1 := by rw [toPull, if_neg hs.1]
    dsimp only at h
    split at h
    · obtain ⟨h0, hlt⟩ := chopMore_ve x _ _ _ _ h
      rw [toPull, if_pos h0, hp]
      exact Nat.lt_succ_of_lt hlt
    · rcases hq : proc x { p with tail := [] } with ⟨res, p'⟩
      obtain ⟨hb, hs'⟩ := proc_snd x hq
      rw [hq] at h
      cases res with
      | null =>
          obtain ⟨h0, hlt⟩ := chopMore_ve x _ _ _ _ h
          rw [hb] at hlt
          rw [toPull, if_pos h0, hp]
          exact Nat.lt_succ_of_lt hlt
      | eop => simp at h
      | ve v' =>
          obtain ⟨-, rfl⟩ : v' = v ∧ p' = q := by simpa using h
          rw [toPull, if_pos hs', hb, hp]
          exact Nat.lt_succ_self _
  · obtain ⟨h0, hlt⟩ := chopMore_ve x _ _ _ _ h
    rw [toPull, if_pos h0]
    exact Nat.lt_of_lt_of_le hlt (Nat.le_add_right ..)

end IcalParser

/-- Pulls left, also after the parser has been freed. -/
def toPull (p : Option (IcalParser α β)) : Nat := p.elim 0 IcalParser.toPull

theorem toPull_pull (p : Option (IcalParser α β)) (h : (echsEvicalPull x p).1.v ≠ .unk) :
    toPull (echsEvicalPull x p).2 < toPull p := by
  rcases p with _ | p
  · simp [echsEvicalPull, EchsInstruc.unk] at h
  · rw [echsEvicalPull] at h ⊢
    rcases hp : p.pull x with ⟨_ | _ | v, q⟩
    · simp [hp, EchsInstruc.unk] at h
    · simp [hp, EchsInstruc.unk] at h
    · exact IcalParser.toPull_lt x hp

/-- More pulls than that make no difference. -/
theorem pullUntil_fuel (n m : Nat) (p : Option (IcalParser α β)) (hn : toPull p < n)
    (hm : toPull p < m) : pullUntil x n p = pullUntil x m p := by
  induction n generalizing m p with
  | zero => omega
  | succ n ih =>
      obtain ⟨m, rfl⟩ : ∃ m', m = m' + 1 := ⟨m - 1, by omega⟩
      rw [pullUntil, pullUntil]
      dsimp only
      split
      · rfl
      · rename_i hv
        have hlt := toPull_pull x p hv
        rw [ih m _ (by omega) (by omega)]

theorem pullAll_eq (p : Option (IcalParser α β)) :
    pullAll x p =
      if (echsEvicalPull x p).1.v = .unk then ([], (echsEvicalPull x p).2)
      else ((echsEvicalPull x p).1 :: (pullAll x (echsEvicalPull x p).2).1,
        (pullAll x (echsEvicalPull x p).2).2) := by
  have hle : ∀ q : Option (IcalParser α β),
      toPull q < (q.elim 0 fun (p : IcalParser α β) => p.buf.length) + 2 := by
    rintro (_ | q)
    · exact Nat.zero_lt_two
    · simp only [toPull, Option.elim, IcalParser.toPull]
      split <;> omega
  rw [pullAll, pullUntil]
  dsimp only
  split
  · rfl
  · rename_i hv
    have hlt := toPull_pull x p hv
    have hp := hle p
    rw [pullUntil_fuel x _ _ _ (by omega) (hle _), pullAll]

/-- Parsers that answer the next pull alike are pulled alike. -/
theorem pullAll_congr {p q : Option (IcalParser α β)}
    (h : echsEvicalPull x p = echsEvicalPull x q) : pullAll x p = pullAll x q := by
  rw [pullAll_eq x p, pullAll_eq x q, h]

end

end Echse
