/-
What descriptors receive.

What a descriptor has been sent and what is in the buffer for it is what has been written to it.
Flushes move the border between the two.  Only a text that is formatted a second time is
another one, if it comes out differently for the arguments that are left.
-/
import Mathlib.Tactic
import Echse.Fdprnt

namespace Echse

section

variable {φ α : Type} (vsnprintf : φ → List α → Option (List Char × List α))

/-- The text that a call has to say. -/
def FdCall.piece : FdCall φ α → List Char
  | .write str => str
  | .putc c => [c]
  | .printf fmt vap => ((vsnprintf fmt vap).map Prod.fst).getD []
  | .bang _ => []
  | .flush => []

/-- The descriptor after a call. -/
def FdCall.fdAfter (fd : Int) : FdCall φ α → Int
  | .bang fd => fd
  | _ => fd

/-- The descriptor after some calls. -/
def fdAfter (calls : List (FdCall φ α)) : Int := calls.foldl FdCall.fdAfter 0

/-- The pieces for each descriptor, one after another. -/
def fdPieces (calls : List (FdCall φ α)) : Int → List Char :=
  (calls.foldl (fun (s : Int × (Int → List Char)) c =>
    (c.fdAfter s.1, Function.update s.2 (c.fdAfter s.1) (s.2 (c.fdAfter s.1) ++ c.piece vsnprintf)))
    (0, fun _ => [])).2

/-- A call whose piece can be made and is shorter than the buffer. -/
def FdCall.Short : FdCall φ α → Prop
  | .write str => str.length < fdBufz
  | .printf fmt vap => ∃ s rest, vsnprintf fmt vap = some (s, rest) ∧ s.length < fdBufz
  | _ => True

/-- A second formatting, with the arguments that are left, puts the text `s` in an empty buffer: it
is the same text, or there is none to put and the other one is too long. -/
def PutsAgain (fmt : φ) (rest : List α) (s : List Char) : Prop :=
  ∃ s' rest', vsnprintf fmt rest = some (s', rest') ∧ (s' = s ∨ s = [] ∧ fdBufz < s'.length)

/-- What a descriptor has been sent, and what is on its way there. -/
def FdAux.said (st : FdAux) (d : Int) : List Char := st.out d ++ if d = st.fd then st.buf else []

variable {vsnprintf} {st : FdAux} {calls : List (FdCall φ α)} {c : FdCall φ α}

theorem fdAfter_concat (calls : List (FdCall φ α)) (c : FdCall φ α) :
    fdAfter (calls ++ [c]) = c.fdAfter (fdAfter calls) := by
  rw [fdAfter, List.foldl_append]
  rfl

theorem fdPieces_concat (calls : List (FdCall φ α)) (c : FdCall φ α) :
    fdPieces vsnprintf (calls ++ [c]) = Function.update (fdPieces vsnprintf calls)
      (fdAfter (calls ++ [c])) (fdPieces vsnprintf calls (fdAfter (calls ++ [c])) ++
        c.piece vsnprintf) := by
  have hfst : ∀ (calls : List (FdCall φ α)) (s : Int × (Int → List Char)),
      (calls.foldl (fun (s : Int × (Int → List Char)) c => (c.fdAfter s.1,
        Function.update s.2 (c.fdAfter s.1) (s.2 (c.fdAfter s.1) ++ c.piece vsnprintf))) s).1 =
        calls.foldl FdCall.fdAfter s.1 := by
    intro calls
    induction calls with
    | nil => exact fun s => rfl
    | cons c calls ih => exact fun s => ih _
  rw [fdPieces, List.foldl_append, List.foldl_cons, List.foldl_nil, hfst, ← fdAfter,
    fdAfter_concat]
  rfl

/-! ### Calls -/

theorem said_flush (st : FdAux) (d : Int) : (fdflush st).said d = st.said d := by
  rw [FdAux.said, FdAux.said, fdflush]
  dsimp only
  by_cases hd : d = st.fd
  · rw [if_pos hd, if_pos hd, hd, Function.update_self, List.append_nil]
  · rw [if_neg hd, if_neg hd, Function.update_of_ne hd]

theorem out_flush (st : FdAux) (d : Int) : (fdflush st).out d = st.said d := by
  rw [← said_flush, FdAux.said]
  have hbuf : (if d = (fdflush st).fd then (fdflush st).buf else []) = [] := ite_self []
  rw [hbuf, List.append_nil]

/-- More in the buffer. -/
theorem said_more (st : FdAux) (s : List Char) (d : Int) :
    ({ st with buf := st.buf ++ s } : FdAux).said d = st.said d ++ if d = st.fd then s else [] := by
  rw [FdAux.said, FdAux.said]
  dsimp only
  split
  · rw [List.append_assoc]
  · rw [List.append_nil, List.append_nil]

/-- A flush that there may be, and then more in the buffer. -/
theorem said_flushed (p : Prop) [Decidable p] (st : FdAux) (s : List Char) (d : Int) :
    ({ (if p then fdflush st else st) with buf := (if p then fdflush st else st).buf ++ s } :
      FdAux).said d = st.said d ++ if d = st.fd then s else [] := by
  rw [said_more]
  split
  · rw [said_flush]
    rfl
  · rfl

theorem snText_short {n : Nat} {s : List Char} (h : s.length < n) : snText n s = s := if_pos h

theorem said_bang (st : FdAux) (fd d : Int) : (fdbang st fd).said d = st.said d := by
  rw [fdbang]
  by_cases hc : st.buf ≠ [] ∧ st.fd ≠ fd
  · rw [if_pos hc, FdAux.said]
    dsimp only
    have hbuf : (if d = fd then (fdflush st).buf else []) = [] := ite_self []
    rw [hbuf, List.append_nil, out_flush]
  · rw [if_neg hc, FdAux.said, FdAux.said]
    dsimp only
    rcases not_and_or.mp hc with hb | hf
    · rw [not_not.mp hb, ite_self, ite_self]
    · rw [not_not.mp hf]

/-- The text that `fdprintf` puts in the buffer. -/
theorem fdprintf_said {fmt : φ} {vap rest : List α} {s : List Char}
    (hs : vsnprintf fmt vap = some (s, rest)) (hshort : s.length < fdBufz)
    (h : fdBufz ≤ s.length + st.buf.length → PutsAgain vsnprintf fmt rest s) :
    ∃ st', fdprintf vsnprintf st fmt vap = some st' ∧ st'.fd = st.fd ∧
      st'.buf.length ≤ fdBufz ∧ ∀ d, st'.said d = st.said d ++ if d = st.fd then s else [] := by
  rw [fdprintf, hs]
  dsimp only
  by_cases hfull : fdBufz ≤ s.length + st.buf.length
  · obtain ⟨s', rest', hagain, hs'⟩ := h hfull
    have hnil : (fdflush st).buf = [] := rfl
    rw [if_pos hfull, hagain]
    dsimp only
    rw [hnil, List.length_nil, Nat.add_zero, Nat.sub_zero]
    rcases hs' with rfl | ⟨rfl, hlong⟩
    · rw [if_neg (by omega), snText_short hshort]
      refine ⟨_, rfl, rfl, hshort.le, fun d => ?_⟩
      have hmore := said_more (fdflush st) s' d
      rw [hnil, said_flush] at hmore
      exact hmore
    · -- nothing is put, and there is nothing to put
      rw [if_pos hlong]
      refine ⟨_, rfl, rfl, Nat.zero_le _, fun d => ?_⟩
      rw [said_flush, ite_self, List.append_nil]
  · rw [if_neg hfull, snText_short (by omega)]
    refine ⟨_, rfl, rfl, ?_, fun d => said_more st s d⟩
    rw [List.length_append]
    omega

/-- One call: its piece is for the descriptor that is there after it. -/
theorem fdCall_said (hc : c.Short vsnprintf) (hbuf : st.buf.length ≤ fdBufz)
    (h : ∀ fmt vap s rest, c = .printf fmt vap → vsnprintf fmt vap = some (s, rest) →
      fdBufz ≤ s.length + st.buf.length → PutsAgain vsnprintf fmt rest s) :
    ∃ st', fdCall vsnprintf st c = some st' ∧ st'.fd = c.fdAfter st.fd ∧
      st'.buf.length ≤ fdBufz ∧
      ∀ d, st'.said d = st.said d ++ if d = st'.fd then c.piece vsnprintf else [] := by
  cases c with
  | bang fd =>
      refine ⟨_, rfl, rfl, ?_, fun d => ?_⟩
      · rw [fdbang]
        split
        · exact Nat.zero_le _
        · exact hbuf
      · rw [FdCall.piece, ite_self, List.append_nil, said_bang]
  | write str =>
      have hshort : str.length < fdBufz := hc
      have hlen : ¬ fdBufz < str.length := by omega
      have hfd : (fdwrite st str).fd = st.fd := by
        rw [fdwrite, if_neg hlen]
        dsimp only
        split <;> rfl
      refine ⟨_, rfl, hfd, ?_, fun d => ?_⟩
      · rw [fdwrite, if_neg hlen]
        dsimp only
        rw [List.length_append]
        split
        · exact (Nat.zero_add _).le.trans hshort.le
        · omega
      · rw [hfd, fdwrite, if_neg hlen]
        exact said_flushed _ st str d
  | putc c =>
      have hfd : (fdputc st c).fd = st.fd := by
        rw [fdputc]
        dsimp only
        split <;> rfl
      refine ⟨_, rfl, hfd, ?_, fun d => ?_⟩
      · rw [fdputc]
        dsimp only
        rw [List.length_append, List.length_singleton]
        split
        · exact (show 0 + 1 ≤ fdBufz by decide)
        · omega
      · rw [hfd]
        exact said_flushed _ st [c] d
  | printf fmt vap =>
      obtain ⟨s, rest, hs, hshort⟩ := hc
      obtain ⟨st', hst, hfd, hlen, hsaid⟩ :=
        fdprintf_said hs hshort (h fmt vap s rest rfl hs)
      have hpiece : (FdCall.printf fmt vap).piece vsnprintf = s := by
        rw [FdCall.piece, hs]
        rfl
      exact ⟨st', hst, hfd, hlen, fun d => by rw [hsaid, hpiece, hfd]⟩
  | flush =>
      refine ⟨_, rfl, rfl, Nat.zero_le _, fun d => ?_⟩
      rw [FdCall.piece, ite_self, List.append_nil, said_flush]

/-! ### Sequences of calls -/

variable (vsnprintf) in
/-- What is expected at any time: a flush now would have every descriptor receive the pieces that
have been written to it. -/
def FdRight (calls : List (FdCall φ α)) : Prop :=
  ∀ pre post, calls = pre ++ post → ∃ st, fdCalls vsnprintf pre = some st ∧
    ∀ d, (fdflush st).out d = fdPieces vsnprintf pre d

variable (vsnprintf) in
/-- Where a text does not fit behind what is in the buffer, the arguments that it has left put it
there again. -/
def FormatsAgain (calls : List (FdCall φ α)) : Prop :=
  ∀ pre fmt vap post s rest st, calls = pre ++ .printf fmt vap :: post →
    vsnprintf fmt vap = some (s, rest) → fdCalls vsnprintf pre = some st →
    fdBufz ≤ s.length + st.buf.length → PutsAgain vsnprintf fmt rest s

/-- The state after some calls that have all gone well. -/
structure FdFine (vsnprintf : φ → List α → Option (List Char × List α)) (st : FdAux)
    (calls : List (FdCall φ α)) : Prop where
  fd : st.fd = fdAfter calls
  buf : st.buf.length ≤ fdBufz
  said : ∀ d, st.said d = fdPieces vsnprintf calls d

theorem fdCalls_concat (calls : List (FdCall φ α)) (c : FdCall φ α) :
    fdCalls vsnprintf (calls ++ [c]) =
      (fdCalls vsnprintf calls).bind fun st => fdCall vsnprintf st c := by
  rw [fdCalls, List.foldlM_append]
  cases h : calls.foldlM (fdCall vsnprintf) .init with
  | none => rw [fdCalls, h]; rfl
  | some st =>
      rw [fdCalls, h, Option.bind_some, Option.bind_eq_bind, Option.bind_some, List.foldlM_cons,
        Option.bind_eq_bind]
      exact Option.bind_fun_some _

theorem FdFine.step (h : FdFine vsnprintf st calls) (hc : c.Short vsnprintf)
    (hagain : ∀ fmt vap s rest, c = .printf fmt vap → vsnprintf fmt vap = some (s, rest) →
      fdBufz ≤ s.length + st.buf.length → PutsAgain vsnprintf fmt rest s) :
    ∃ st', fdCall vsnprintf st c = some st' ∧ FdFine vsnprintf st' (calls ++ [c]) := by
  obtain ⟨st', hst, hfd, hbuf, hsaid⟩ := fdCall_said hc h.buf hagain
  have hfd' : st'.fd = fdAfter (calls ++ [c]) := by rw [hfd, h.fd, fdAfter_concat]
  refine ⟨st', hst, hfd', hbuf, fun d => ?_⟩
  rw [hsaid, h.said, fdPieces_concat, ← hfd']
  by_cases hd : d = st'.fd
  · rw [if_pos hd, hd, Function.update_self]
  · rw [if_neg hd, Function.update_of_ne hd, List.append_nil]

theorem FormatsAgain.left {more : List (FdCall φ α)} (h : FormatsAgain vsnprintf (calls ++ more)) :
    FormatsAgain vsnprintf calls := by
  intro pre fmt vap post s rest st heq
  exact h pre fmt vap (post ++ more) s rest st (by rw [heq, List.append_assoc, List.cons_append])

/-- All the calls. -/
theorem FormatsAgain.fine (hshort : ∀ c ∈ calls, c.Short vsnprintf)
    (h : FormatsAgain vsnprintf calls) :
    ∃ st, fdCalls vsnprintf calls = some st ∧ FdFine vsnprintf st calls := by
  induction calls using List.reverseRecOn with
  | nil =>
      refine ⟨.init, rfl, rfl, Nat.zero_le _, fun d => ?_⟩
      rw [FdAux.said]
      exact ite_self []
  | append_singleton calls c ih =>
      obtain ⟨st, hst, hfine⟩ := ih (fun c hc => hshort c (List.mem_append_left _ hc)) h.left
      obtain ⟨st', hst', hfine'⟩ := hfine.step (hshort c (by simp)) (by
        rintro fmt vap s rest rfl hs
        exact h calls fmt vap [] s rest st rfl hs hst)
      exact ⟨st', by rw [fdCalls_concat, hst, Option.bind_some, hst'], hfine'⟩

/-- A text that comes out differently is what the descriptor receives. -/
theorem FdFine.again (h : FdFine vsnprintf st calls) {fmt : φ} {vap rest : List α} {s : List Char}
    (hs : vsnprintf fmt vap = some (s, rest)) (hfull : fdBufz ≤ s.length + st.buf.length)
    {st' : FdAux} (hst : fdprintf vsnprintf st fmt vap = some st')
    (hout : ∀ d, (fdflush st').out d = fdPieces vsnprintf (calls ++ [.printf fmt vap]) d)
    (hshort : s.length < fdBufz) : PutsAgain vsnprintf fmt rest s := by
  have hpiece : (FdCall.printf fmt vap).piece vsnprintf = s := by
    rw [FdCall.piece, hs]
    rfl
  have hpieces := hout st.fd
  have hafter : fdAfter (calls ++ [FdCall.printf fmt vap]) = st.fd := by
    rw [fdAfter_concat, h.fd]
    rfl
  rw [fdPieces_concat, hafter, Function.update_self, hpiece, ← h.said, ← out_flush] at hpieces
  rw [fdprintf, hs] at hst
  dsimp only at hst
  rw [if_pos hfull] at hst
  cases hagain : vsnprintf fmt rest with
  | none =>
      rw [hagain] at hst
      cases hst
  | some r =>
      obtain ⟨s', rest'⟩ := r
      rw [hagain] at hst
      dsimp only at hst
      have hnil : (fdflush st).buf = [] := rfl
      rw [hnil, List.length_nil, Nat.add_zero, Nat.sub_zero, List.nil_append] at hst
      refine ⟨s', rest', hagain, ?_⟩
      split at hst
      · -- nothing has been put at all
        rename_i hlong
        obtain rfl := Option.some.inj hst
        rw [out_flush, said_flush, ← out_flush] at hpieces
        exact Or.inr ⟨List.append_cancel_left (hpieces.symm.trans (List.append_nil _).symm), hlong⟩
      · obtain rfl := Option.some.inj hst
        rw [out_flush, FdAux.said] at hpieces
        dsimp only at hpieces
        have hfd : st.fd = (fdflush st).fd := rfl
        rw [if_pos hfd] at hpieces
        have hsn := List.append_cancel_left hpieces
        refine Or.inl ?_
        rw [snText] at hsn
        split at hsn
        · exact hsn
        · -- a full buffer is no short text
          rename_i hfits hlen
          have hlength := congrArg List.length hsn
          rw [List.length_append, List.length_take, List.length_singleton] at hlength
          omega

theorem FdRight.left {more : List (FdCall φ α)} (h : FdRight vsnprintf (calls ++ more)) :
    FdRight vsnprintf calls := by
  intro pre post heq
  exact h pre (post ++ more) (by rw [heq, List.append_assoc])

theorem FdRight.formatsAgain (h : FdRight vsnprintf calls)
    (hshort : ∀ c ∈ calls, c.Short vsnprintf) : FormatsAgain vsnprintf calls := by
  induction calls using List.reverseRecOn with
  | nil =>
      intro pre fmt vap post s rest st heq
      exact absurd heq.symm (List.append_ne_nil_of_right_ne_nil _ (List.cons_ne_nil _ _))
  | append_singleton calls c ih =>
      have hshort' : ∀ c ∈ calls, c.Short vsnprintf :=
        fun c hc => hshort c (List.mem_append_left _ hc)
      have hleft := ih h.left hshort'
      intro pre fmt vap post s rest st heq hs hst hfull
      rcases List.eq_nil_or_concat' post with rfl | ⟨post, c', rfl⟩
      · -- the last of the calls
        obtain ⟨rfl, hc⟩ := List.append_inj' heq rfl
        obtain rfl := List.singleton_inj.mp hc
        obtain ⟨st', hst', hfine⟩ := hleft.fine hshort'
        obtain rfl := Option.some.inj (hst'.symm.trans hst)
        obtain ⟨st'', hst'', hout⟩ := h _ [] (List.append_nil _).symm
        rw [fdCalls_concat, hst, Option.bind_some] at hst''
        obtain ⟨s', rest', hs', hlen⟩ := hshort _ (List.mem_append_right _ (List.mem_singleton_self _))
        obtain ⟨rfl, -⟩ := Prod.mk.inj (Option.some.inj (hs.symm.trans hs'))
        exact hfine.again hs hfull hst'' hout hlen
      · rw [← List.cons_append, ← List.append_assoc] at heq
        exact hleft pre fmt vap post s rest st (List.append_inj' heq rfl).1 hs hst hfull

/-- The descriptors receive what is written to them, if and only if every text that does not fit
comes out the same with the arguments that it has left. -/
theorem fd_right_iff (hshort : ∀ c ∈ calls, c.Short vsnprintf) :
    FdRight vsnprintf calls ↔ FormatsAgain vsnprintf calls := by
  refine ⟨fun h => h.formatsAgain hshort, fun h pre post heq => ?_⟩
  subst heq
  obtain ⟨st, hst, hfine⟩ :=
    h.left.fine (fun c hc => hshort c (List.mem_append_left _ hc))
  exact ⟨st, hst, fun d => by rw [out_flush, hfine.said]⟩

end

/-! ### Formats of strings -/

/-- `vsnprintf` for formats of `%s` (here `none`) and characters. -/
def strFmt : List (Option Char) → List (List Char) → Option (List Char × List (List Char))
  | [], vap => some ([], vap)
  | some c :: fmt, vap => (strFmt fmt vap).map fun r => (c :: r.1, r.2)
  | none :: _, [] => none
  | none :: fmt, s :: vap => (strFmt fmt vap).map fun r => (s ++ r.1, r.2)

/-- `UID:%s`, and a newline. -/
def uidFmt : List (Option Char) := [some 'U', some 'I', some 'D', some ':', none, some '\n']

/-- Two descriptors, a piece that fits behind what there is, and one that does not. -/
theorem fd_right_iff_two :
    FdRight strFmt [.bang 1, .write ['a'], .printf uidFmt [['b']], .bang 2, .flush, .putc 'c'] ↔
      FormatsAgain strFmt
        [.bang 1, .write ['a'], .printf uidFmt [['b']], .bang 2, .flush, .putc 'c'] := by
  refine fd_right_iff fun c hc => ?_
  simp only [List.mem_cons, List.not_mem_nil, or_false] at hc
  rcases hc with rfl | rfl | rfl | rfl | rfl | rfl
  · trivial
  · exact (show 1 < fdBufz by decide)
  · exact ⟨_, _, rfl, by decide⟩
  · trivial
  · trivial
  · trivial

/-- The buffer is full but for six bytes, and the line has as many: there is no string left to
format it with again. -/
theorem fd_wrong :
    (∀ c ∈ [FdCall.write (List.replicate 4090 'x'), .printf uidFmt [['a']]], c.Short strFmt) ∧
      ¬ FdRight strFmt [.write (List.replicate 4090 'x'), .printf uidFmt [['a']]] := by
  have hlen : (List.replicate 4090 'x').length = 4090 := List.length_replicate
  have hshort : ∀ c ∈ [FdCall.write (List.replicate 4090 'x'), .printf uidFmt [['a']]],
      c.Short strFmt := by
    intro c hc
    simp only [List.mem_cons, List.not_mem_nil, or_false] at hc
    rcases hc with rfl | rfl
    · exact hlen.trans_lt (by decide)
    · exact ⟨_, _, rfl, by decide⟩
  refine ⟨hshort, fun h => ?_⟩
  have hbuf : (fdwrite .init (List.replicate 4090 'x')).buf = List.replicate 4090 'x' := by
    rw [fdwrite, hlen, if_neg (by decide), if_neg (by decide)]
    rfl
  obtain ⟨s', rest', hs', -⟩ := h.formatsAgain hshort [.write (List.replicate 4090 'x')] uidFmt
    [['a']] [] ['U', 'I', 'D', ':', 'a', '\n'] [] _ rfl rfl rfl (by rw [hbuf, hlen]; decide)
  exact Option.some_ne_none _ hs'.symm

end Echse
