/-
Where the output of a job goes.

In the rows without pipes the job writes to its files itself, each through one descriptor,
and what is mailed is one of them.  In the others both streams go through pipes to the mail
descriptor and are teed from there.  The loop is broken once the job has exited, whether or
not the pipes have been read to the end, and it is up to the loop which of the two pipes is
read first.  So the rows with pipes route the output if nothing is left in a pipe in the
end, and keep the order in which it was written if the job writes to one stream only while
the pipe of the other is empty.
-/
import Echse.Echsx
import Echse.Lib.Streams
import Mathlib.Tactic

namespace Echse.Echsx

open Streams

/-! ### Writing -/

/-- A regular file. -/
def Inode.isReg : Inode → Bool
  | .tmpl | .file _ => true
  | _ => false

theorem pipeOf_ne_of_isReg {i : Inode} (h : i.isReg = true) (s : Stream) : pipeOf s ≠ i := by
  rintro rfl
  cases s <;> simp [pipeOf, Inode.isReg] at h

theorem pipeOf_inj {s s' : Stream} : pipeOf s = pipeOf s' ↔ s = s' := by
  cases s <;> cases s' <;> simp [pipeOf]

namespace Kern

theorem overwrite_end (c b : List Char) : overwrite c c.length b = c ++ b := by
  simp [overwrite]

/-- `b` at the end of the file `i`, which `fd` refers to. -/
def append (k : Kern) (fd : Int) (i : Inode) (b : List Char) : Kern :=
  { k with files := Function.update k.files i (k.files i ++ b),
           off := Function.update k.off fd (k.files i ++ b).length }

theorem write_end {k : Kern} {fd : Int} {i : Inode} (hi : k.ino fd = some i)
    (hr : i.isReg = true) (ho : k.off fd = (k.files i).length) (b : List Char) :
    k.write fd b = k.append fd i b := by
  cases i with
  | tmpl => simp [write, append, hi, ho, overwrite_end]
  | file n => simp [write, append, hi, ho, overwrite_end]
  | _ => simp [Inode.isReg] at hr

theorem write_null {k : Kern} {fd : Int} (hi : k.ino fd = some .null) (b : List Char) :
    k.write fd b = k := by
  simp [write, hi]

theorem write_pipe {k : Kern} {fd : Int} {s : Stream} (hi : k.ino fd = some (pipeOf s))
    (b : List Char) :
    k.write fd b =
      { k with files := Function.update k.files (pipeOf s) (k.files (pipeOf s) ++ b) } := by
  cases s <;> simp [write, hi, pipeOf]

@[simp]
theorem write_ino (k : Kern) (fd : Int) (b : List Char) (fd' : Int) :
    (k.write fd b).ino fd' = k.ino fd' := by
  rw [write]
  split <;> rfl

@[simp]
theorem append_ino (k : Kern) (fd : Int) (i : Inode) (b : List Char) (fd' : Int) :
    (k.append fd i b).ino fd' = k.ino fd' := rfl

theorem append_files (k : Kern) (fd : Int) (i : Inode) (b : List Char) :
    (k.append fd i b).files = Function.update k.files i (k.files i ++ b) := rfl

theorem append_off (k : Kern) (fd : Int) (i : Inode) (b : List Char) :
    (k.append fd i b).off = Function.update k.off fd (k.files i ++ b).length := rfl

theorem append_append (k : Kern) (fd : Int) (i : Inode) (b c : List Char) :
    (k.append fd i b).append fd i c = k.append fd i (b ++ c) := by
  simp [append]

theorem append_nil {k : Kern} {fd : Int} {i : Inode} (ho : k.off fd = (k.files i).length) :
    k.append fd i [] = k := by
  simp [append, ← ho]

end Kern

/-! ### The job and what it writes -/

/-- What the job writes in an event. -/
def RunEvent.wrote : RunEvent → List (Stream × Char)
  | .job s b => tag s b
  | _ => []

theorem RunEvent.wrote_of_quiet {e : RunEvent} (h : ∀ s b, e ≠ .job s b) : e.wrote = [] := by
  cases e <;> simp_all [wrote]

/-- What the job writes, each byte with its stream. -/
def writes (es : List RunEvent) : List (Stream × Char) := es.flatMap RunEvent.wrote

theorem writes_concat (es : List RunEvent) (e : RunEvent) :
    writes (es ++ [e]) = writes es ++ e.wrote := by
  simp [writes]

/-! ### The rows without pipes -/

/-- The job writes to files, one descriptor for each of them. -/
structure Direct (x : EchsxTask) (k : Kern) (dest : Stream → Inode) : Prop where
  pip : ∀ s, x.pip s < 0
  ino : ∀ s, k.ino (x.fd s) = some (dest s)
  reg : ∀ s, dest s = .null ∨ (dest s).isReg = true
  shared : ∀ s s', dest s = dest s' → dest s ≠ .null → x.fd s = x.fd s'

/-- Every file has the bytes of the streams that go to it. -/
def Filled (x : EchsxTask) (k : Kern) (dest : Stream → Inode) (m : List (Stream × Char)) : Prop :=
  ∀ s, dest s ≠ .null → k.files (dest s) = pick (fun s' => dest s' == dest s) m ∧
    k.off (x.fd s) = (k.files (dest s)).length

theorem Filled.write {x : EchsxTask} {k : Kern} {dest : Stream → Inode}
    {m : List (Stream × Char)} (hd : Direct x k dest) (h : Filled x k dest m) (s : Stream)
    (b : List Char) : Filled x (k.write (x.fd s) b) dest (m ++ tag s b) := by
  intro s' hs'
  by_cases hn : dest s = .null
  · rw [Kern.write_null (by rw [hd.ino, hn])]
    have hne : (dest s == dest s') = false := by simpa [hn] using Ne.symm hs'
    simpa [hne] using h s' hs'
  · obtain ⟨hf, ho⟩ := h s hn
    rw [Kern.write_end (hd.ino s) ((hd.reg s).resolve_left hn) ho, Kern.append_files,
      Kern.append_off]
    by_cases he : dest s' = dest s
    · rw [hd.shared s' s he hs', he]
      simp [hf]
    · have hfd : x.fd s' ≠ x.fd s := by
        intro hx
        have := (hd.ino s').symm.trans (hx ▸ hd.ino s)
        exact he (Option.some.inj this)
      rw [Function.update_of_ne he, Function.update_of_ne hfd]
      have hne : (dest s == dest s') = false := by simpa using Ne.symm he
      simpa [hne] using h s' hs'

theorem direct_write {x : EchsxTask} {k : Kern} {dest : Stream → Inode} (hd : Direct x k dest)
    (fd : Int) (b : List Char) : Direct x (k.write fd b) dest :=
  ⟨hd.pip, fun s => by rw [Kern.write_ino, hd.ino], hd.reg, hd.shared⟩

/-- No watcher is active and the files are filled. -/
structure DirectRun (x : EchsxTask) (dest : Stream → Inode) (m : List (Stream × Char))
    (r : JobRun) : Prop where
  direct : Direct x r.k dest
  filled : Filled x r.k dest m
  idle : ∀ s, r.watch s = false

theorem DirectRun.step {w : World} {x : EchsxTask} {dest : Stream → Inode}
    {m : List (Stream × Char)} {r r' : JobRun} {e : RunEvent} (h : DirectRun x dest m r)
    (hs : runStep w x r e = some r') : DirectRun x dest (m ++ e.wrote) r' := by
  cases e with
  | job s b =>
      obtain ⟨-, rfl⟩ : r.running = true ∧ _ = r' := by simpa [runStep] using hs
      exact ⟨direct_write h.direct _ _, h.filled.write h.direct s b, h.idle⟩
  | exit =>
      obtain ⟨-, rfl⟩ : r.running = true ∧ _ = r' := by simpa [runStep] using hs
      rw [RunEvent.wrote_of_quiet (by simp), List.append_nil]
      exact ⟨h.direct, h.filled, h.idle⟩
  | data s nsp => simp [runStep, h.idle s] at hs
  | chld =>
      obtain ⟨-, rfl⟩ : (r.running = false ∧ r.brk = false) ∧ _ = r' := by
        simpa [runStep] using hs
      rw [RunEvent.wrote_of_quiet (by simp), List.append_nil]
      exact ⟨h.direct, h.filled, h.idle⟩

/-! ### The rows with pipes -/

/-- The job writes to pipes, and both go to the mail descriptor and may be teed. -/
structure Piped (x : EchsxTask) (k : Kern) (mi : Inode) (ti : Stream → Inode) : Prop where
  fd : ∀ s, k.ino (x.fd s) = some (pipeOf s)
  pip : ∀ s, k.ino (x.pip s) = some (pipeOf s)
  mfd : k.ino x.mfd = some mi
  mreg : mi.isReg = true
  tee : ∀ s, 0 ≤ x.tee s → k.ino (x.tee s) = some (ti s) ∧ (ti s).isReg = true ∧ ti s ≠ mi
  tees : 0 ≤ x.tee .out → 0 ≤ x.tee .err → ti .out ≠ ti .err

theorem Piped.of_ino {x : EchsxTask} {k k' : Kern} {mi : Inode} {ti : Stream → Inode}
    (h : Piped x k mi ti) (hk : ∀ fd, k'.ino fd = k.ino fd) : Piped x k' mi ti :=
  ⟨fun s => by rw [hk, h.fd], fun s => by rw [hk, h.pip], by rw [hk, h.mfd], h.mreg,
    fun s hs => by rw [hk]; exact h.tee s hs, h.tees⟩

theorem Piped.tee_ne_mfd {x : EchsxTask} {k : Kern} {mi : Inode} {ti : Stream → Inode}
    (h : Piped x k mi ti) {s : Stream} (hs : 0 ≤ x.tee s) : x.tee s ≠ x.mfd := by
  intro he
  obtain ⟨hi, -, hne⟩ := h.tee s hs
  exact hne (Option.some.inj (hi.symm.trans (he ▸ h.mfd)))

theorem Piped.tee_ne {x : EchsxTask} {k : Kern} {mi : Inode} {ti : Stream → Inode}
    (h : Piped x k mi ti) {s s' : Stream} (hs : 0 ≤ x.tee s) (hs' : 0 ≤ x.tee s')
    (hne : s ≠ s') : ti s ≠ ti s' ∧ x.tee s ≠ x.tee s' := by
  have ht : ti s ≠ ti s' := by
    cases s <;> cases s' <;> first | exact absurd rfl hne | exact h.tees ‹_› ‹_› |
      exact (h.tees ‹_› ‹_›).symm
  refine ⟨ht, fun he => ht ?_⟩
  exact Option.some.inj ((h.tee s hs).1.symm.trans (he ▸ (h.tee s' hs').1))

/-- What has been moved is in the mail file, what has been moved of a teed stream in the
file of its tee, and the pipes hold the rest of what was written. -/
structure Moved (x : EchsxTask) (k : Kern) (mi : Inode) (ti : Stream → Inode)
    (W m : List (Stream × Char)) : Prop where
  mail : k.files mi = m.map Prod.snd ∧ k.off x.mfd = (k.files mi).length
  tee : ∀ s, 0 ≤ x.tee s →
    k.files (ti s) = pick (· == s) m ∧ k.off (x.tee s) = (k.files (ti s)).length
  pend : ∀ s, pick (· == s) W = pick (· == s) m ++ k.files (pipeOf s)

theorem Moved.write {x : EchsxTask} {k : Kern} {mi : Inode} {ti : Stream → Inode}
    {W m : List (Stream × Char)} (hp : Piped x k mi ti) (h : Moved x k mi ti W m) (s : Stream)
    (b : List Char) : Moved x (k.write (x.fd s) b) mi ti (W ++ tag s b) m := by
  rw [Kern.write_pipe (hp.fd s)]
  have hmi := pipeOf_ne_of_isReg hp.mreg s
  refine ⟨?_, fun s' hs' => ?_, fun s' => ?_⟩
  · simpa [Function.update_of_ne hmi.symm] using h.mail
  · have hti := pipeOf_ne_of_isReg (hp.tee s' hs').2.1 s
    simpa [Function.update_of_ne hti.symm] using h.tee s' hs'
  · by_cases he : s' = s
    · subst he
      simp [h.pend s']
    · have hne : pipeOf s' ≠ pipeOf s := fun h => he (pipeOf_inj.mp h)
      have hf : (s == s') = false := by simpa using Ne.symm he
      simp [Function.update_of_ne hne, hf, h.pend s']

theorem take_append_drop_length (n : Nat) (l : List Char) :
    l.take n ++ l.drop (l.take n).length = l := by
  rcases le_total n l.length with h | h
  · rw [List.length_take_of_le h, List.take_append_drop]
  · rw [List.take_of_length_le h, List.drop_length, List.append_nil]

/-- The loop around `sendfile` sends the rest of the file. -/
theorem sendNsp_eq {w : World} (hw : ∀ off n, 0 < n → 0 < w.sendfile off n) {k : Kern}
    {ofd mfd : Int} {mi ti : Inode} {nsp : Nat} (hm : k.ino mfd = some mi)
    (hi : k.ino ofd = some ti) (hr : ti.isReg = true) (hne : ti ≠ mi)
    (ho : k.off ofd = (k.files ti).length) {fuel mfo tots : Nat} (hf : nsp ≤ fuel + tots)
    (hl : (k.files mi).length + tots = mfo + nsp) (ht : tots ≤ nsp) :
    sendNsp w ofd mfd nsp fuel mfo tots k = k.append ofd ti ((k.files mi).drop mfo) := by
  induction fuel generalizing mfo tots k with
  | zero =>
      have hd : (k.files mi).drop mfo = [] := List.drop_eq_nil_of_le (by omega)
      rw [sendNsp, hd, Kern.append_nil ho]
  | succ fuel ih =>
      rw [sendNsp]
      split
      · rename_i hlt
        have hc : k.content mfd = k.files mi := by rw [Kern.content, hm]
        have hpos := hw mfo nsp (by omega)
        simp only [hc]
        set b := ((k.files mi).drop mfo).take (w.sendfile mfo nsp)
        have hb : b.length = min (w.sendfile mfo nsp) (nsp - tots) := by
          rw [List.length_take, List.length_drop]
          congr 1
          omega
        rw [Kern.write_end hi hr ho]
        have hmi : (k.append ofd ti b).files mi = k.files mi :=
          Function.update_of_ne hne.symm _ _
        have ih' := @ih (k.append ofd ti b) hm hi (by simp [Kern.append_off, Kern.append_files])
          (mfo + b.length) (tots + b.length) (by omega) (by rw [hmi]; omega) (by omega)
        rw [ih', hmi, Kern.append_append, ← List.drop_drop, take_append_drop_length]
      · have hd : (k.files mi).drop mfo = [] := List.drop_eq_nil_of_le (by omega)
        rw [hd, Kern.append_nil ho]

/-- `n` bytes are taken from a pipe. -/
def taken (k : Kern) (s : Stream) (n : Nat) : Kern :=
  { k with files := Function.update k.files (pipeOf s) ((k.files (pipeOf s)).drop n) }

/-- The kernel after `splice`: the bytes are in the mail file. -/
def spliced (x : EchsxTask) (k : Kern) (mi : Inode) (s : Stream) (n : Nat) : Kern :=
  (taken k s n).append x.mfd mi ((k.files (pipeOf s)).take n)

theorem spliced_files {x : EchsxTask} {k : Kern} {mi : Inode} (hm : mi.isReg = true)
    (s : Stream) (n : Nat) (i : Inode) :
    (spliced x k mi s n).files i =
      if i = mi then k.files mi ++ (k.files (pipeOf s)).take n
      else if i = pipeOf s then (k.files (pipeOf s)).drop n else k.files i := by
  have hne := pipeOf_ne_of_isReg hm s
  simp only [spliced, taken, Kern.append_files, Function.update_apply, if_neg hne.symm]

theorem spliced_off {x : EchsxTask} {k : Kern} {mi : Inode} (hm : mi.isReg = true)
    (s : Stream) (n : Nat) (fd : Int) :
    (spliced x k mi s n).off fd =
      if fd = x.mfd then (k.files mi ++ (k.files (pipeOf s)).take n).length else k.off fd := by
  have hne := pipeOf_ne_of_isReg hm s
  simp only [spliced, taken, Kern.append_off, Function.update_apply, if_neg hne.symm]

/-- `data_cb` puts what it moves into the mail file, and into the file of the tee. -/
theorem dataCb_eq {w : World} (hw : ∀ off n, 0 < n → 0 < w.sendfile off n) {x : EchsxTask}
    {k : Kern} {mi : Inode} {ti : Stream → Inode} {W m : List (Stream × Char)}
    (hp : Piped x k mi ti) (h : Moved x k mi ti W m) {s : Stream} {n : Nat}
    (hn : n ≤ (k.files (pipeOf s)).length) :
    dataCb w k (x.pip s) x.mfd (x.tee s) n =
      if 0 ≤ x.tee s then
        (spliced x k mi s n).append (x.tee s) (ti s) ((k.files (pipeOf s)).take n)
      else spliced x k mi s n := by
  have hne := pipeOf_ne_of_isReg hp.mreg s
  have hsp : k.splice (x.pip s) x.mfd n = spliced x k mi s n := by
    simp only [Kern.splice, hp.pip s]
    refine Kern.write_end (k := taken k s n) hp.mfd hp.mreg ?_ _
    simpa [taken, Function.update_of_ne hne.symm] using h.mail.2
  have hb : ((k.files (pipeOf s)).take n).length = n := List.length_take_of_le hn
  rw [dataCb, hsp]
  refine if_ctx_congr Iff.rfl (fun ht => ?_) fun _ => rfl
  obtain ⟨hi, hr, hti⟩ := hp.tee s ht
  have hoff : (spliced x k mi s n).off x.mfd - n = (k.files mi).length := by
    rw [spliced_off hp.mreg, if_pos rfl, List.length_append, hb]
    omega
  have hto : (spliced x k mi s n).off (x.tee s) = ((spliced x k mi s n).files (ti s)).length := by
    rw [spliced_off hp.mreg, if_neg (hp.tee_ne_mfd ht), spliced_files hp.mreg, if_neg hti,
      if_neg (pipeOf_ne_of_isReg hr s).symm, (h.tee s ht).2]
  have hmf : (spliced x k mi s n).files mi = k.files mi ++ (k.files (pipeOf s)).take n := by
    rw [spliced_files hp.mreg, if_pos rfl]
  rw [hoff, sendNsp_eq (k := spliced x k mi s n) hw hp.mfd hi hr hti hto (by omega) (by rw [hmf, List.length_append, hb]; omega)
    (by omega), hmf, List.drop_left]

/-- The pipes after `data_cb`. -/
theorem dataCb_pipe {w : World} (hw : ∀ off n, 0 < n → 0 < w.sendfile off n) {x : EchsxTask}
    {k : Kern} {mi : Inode} {ti : Stream → Inode} {W m : List (Stream × Char)}
    (hp : Piped x k mi ti) (h : Moved x k mi ti W m) {s : Stream} {n : Nat}
    (hn : n ≤ (k.files (pipeOf s)).length) (s' : Stream) :
    (dataCb w k (x.pip s) x.mfd (x.tee s) n).files (pipeOf s') =
      if s' = s then (k.files (pipeOf s)).drop n else k.files (pipeOf s') := by
  have hm := pipeOf_ne_of_isReg hp.mreg s'
  rw [dataCb_eq hw hp h hn]
  split
  · rename_i ht
    rw [Kern.append_files, Function.update_of_ne (pipeOf_ne_of_isReg (hp.tee s ht).2.1 s'),
      spliced_files hp.mreg, if_neg hm]
    exact if_congr pipeOf_inj rfl rfl
  · rw [spliced_files hp.mreg, if_neg hm]
    exact if_congr pipeOf_inj rfl rfl

theorem Moved.data {w : World} (hw : ∀ off n, 0 < n → 0 < w.sendfile off n) {x : EchsxTask}
    {k : Kern} {mi : Inode} {ti : Stream → Inode} {W m : List (Stream × Char)}
    (hp : Piped x k mi ti) (h : Moved x k mi ti W m) {s : Stream} {n : Nat}
    (hn : n ≤ (k.files (pipeOf s)).length) :
    Moved x (dataCb w k (x.pip s) x.mfd (x.tee s) n) mi ti W
      (m ++ tag s ((k.files (pipeOf s)).take n)) := by
  have hpend : ∀ s', pick (· == s') W =
      pick (· == s') (m ++ tag s ((k.files (pipeOf s)).take n)) ++
        (dataCb w k (x.pip s) x.mfd (x.tee s) n).files (pipeOf s') := by
    intro s'
    rw [dataCb_pipe hw hp h hn, h.pend s', pick_append, pick_tag]
    by_cases he : s' = s
    · subst he
      simp [List.take_append_drop]
    · have hf : (s == s') = false := by simpa using Ne.symm he
      simp [he, hf]
  refine ⟨?_, fun s' hs' => ?_, hpend⟩
  · have hmail : (m ++ tag s ((k.files (pipeOf s)).take n)).map Prod.snd =
        k.files mi ++ (k.files (pipeOf s)).take n := by
      simp [h.mail.1, tag, Function.comp_def]
    rw [dataCb_eq hw hp h hn, hmail]
    split
    · rename_i ht
      rw [Kern.append_files, Kern.append_off, Function.update_of_ne (hp.tee s ht).2.2.symm,
        Function.update_of_ne (hp.tee_ne_mfd ht).symm, spliced_files hp.mreg, if_pos rfl,
        spliced_off hp.mreg, if_pos rfl]
      exact ⟨rfl, rfl⟩
    · rw [spliced_files hp.mreg, if_pos rfl, spliced_off hp.mreg, if_pos rfl]
      exact ⟨rfl, rfl⟩
  · obtain ⟨-, hr, hti⟩ := hp.tee s' hs'
    obtain ⟨hf, ho⟩ := h.tee s' hs'
    have hfs : (spliced x k mi s n).files (ti s') = k.files (ti s') := by
      rw [spliced_files hp.mreg, if_neg hti, if_neg (pipeOf_ne_of_isReg hr s).symm]
    have hos : (spliced x k mi s n).off (x.tee s') = k.off (x.tee s') := by
      rw [spliced_off hp.mreg, if_neg (hp.tee_ne_mfd hs')]
    rw [dataCb_eq hw hp h hn, pick_append, pick_tag]
    by_cases he : s' = s
    · subst he
      rw [if_pos hs', Kern.append_files, Kern.append_off, Function.update_self,
        Function.update_self, hfs, hf]
      simp
    · have hse : (s == s') = false := by simpa using Ne.symm he
      simp only [hse, Bool.false_eq_true, if_false, List.append_nil]
      split
      · rename_i ht
        obtain ⟨h₁, h₂⟩ := hp.tee_ne hs' ht he
        rw [Kern.append_files, Kern.append_off, Function.update_of_ne h₁,
          Function.update_of_ne h₂, hfs, hos]
        exact ⟨hf, ho⟩
      · rw [hfs, hos]
        exact ⟨hf, ho⟩

def Stream.other : Stream → Stream
  | .out => .err
  | .err => .out

/-- The job writes to a stream only while the pipe of the other is empty. -/
def Paced (r : JobRun) : RunEvent → Prop
  | .job s _ => r.k.files (pipeOf s.other) = []
  | _ => True

instance (r : JobRun) : ∀ e, Decidable (Paced r e)
  | .job s _ => inferInstanceAs (Decidable (r.k.files (pipeOf s.other) = []))
  | .exit | .data _ _ | .chld => .isTrue trivial

/-- What was written is what has been moved and then what is in a pipe, and that is one
pipe at the most. -/
structure InOrder (k : Kern) (W m : List (Stream × Char)) : Prop where
  order : W = m ++ tag .out (k.files .opip) ++ tag .err (k.files .epip)
  one : k.files .opip = [] ∨ k.files .epip = []

/-- Moving the bytes of a pipe keeps them in order. -/
theorem InOrder.data {k k' : Kern} {W m : List (Stream × Char)} (h : InOrder k W m)
    {s : Stream} {n : Nat} (hn : n ≠ 0) (hl : n ≤ (k.files (pipeOf s)).length)
    (hk : ∀ s', k'.files (pipeOf s') =
      if s' = s then (k.files (pipeOf s)).drop n else k.files (pipeOf s')) :
    InOrder k' W (m ++ tag s ((k.files (pipeOf s)).take n)) := by
  have ho := hk .out
  have he := hk .err
  cases s with
  | out =>
      simp only [pipeOf, if_true, reduceCtorEq, if_false] at ho he
      refine ⟨?_, h.one.imp (fun h => by rw [ho, h, List.drop_nil]) fun h => he.trans h⟩
      rw [ho, he, pipeOf, List.append_assoc m, ← tag_append, List.take_append_drop, h.order]
  | err =>
      simp only [pipeOf, if_true, reduceCtorEq, if_false] at ho he
      have hne : k.files .epip ≠ [] := by
        intro h0
        simp only [pipeOf, h0, List.length_nil] at hl
        omega
      have h0 : k.files .opip = [] := h.one.resolve_right hne
      refine ⟨?_, .inl (ho.trans h0)⟩
      rw [ho, he, pipeOf, h0, tag_nil, List.append_nil, List.append_assoc m, ← tag_append,
        List.take_append_drop, h.order, h0, tag_nil, List.append_nil]

structure PipedRun (x : EchsxTask) (mi : Inode) (ti : Stream → Inode)
    (W m : List (Stream × Char)) (r : JobRun) : Prop where
  piped : Piped x r.k mi ti
  moved : Moved x r.k mi ti W m

theorem dataCb_ino (w : World) (k : Kern) (cfd mailfd filefd : Int) (n : Nat) (fd : Int) :
    (dataCb w k cfd mailfd filefd n).ino fd = k.ino fd := by
  have hs : ∀ fuel mfo tots k, (sendNsp w filefd mailfd n fuel mfo tots k).ino fd = k.ino fd := by
    intro fuel
    induction fuel with
    | zero => intros; rfl
    | succ fuel ih =>
        intro mfo tots k
        rw [sendNsp]
        split
        · rw [ih, Kern.write_ino]
        · rfl
  have hsp : (k.splice cfd mailfd n).ino fd = k.ino fd := by
    rw [Kern.splice]
    split
    · rfl
    · exact Kern.write_ino _ _ _ _
  rw [dataCb]
  split
  · rw [hs, hsp]
  · exact hsp

/-- One event moves on what was written and moved, in order if it is paced. -/
theorem PipedRun.step {w : World} (hw : ∀ off n, 0 < n → 0 < w.sendfile off n) {x : EchsxTask}
    {mi : Inode} {ti : Stream → Inode} {W m : List (Stream × Char)} {r r' : JobRun}
    {e : RunEvent} (h : PipedRun x mi ti W m r) (hs : runStep w x r e = some r') :
    ∃ m', PipedRun x mi ti (W ++ e.wrote) m' r' ∧
      (Paced r e → InOrder r.k W m → InOrder r'.k (W ++ e.wrote) m') := by
  have quiet : r'.k = r.k → (∀ s b, e ≠ .job s b) →
      ∃ m', PipedRun x mi ti (W ++ e.wrote) m' r' ∧
        (Paced r e → InOrder r.k W m → InOrder r'.k (W ++ e.wrote) m') := by
    intro hk he
    rw [RunEvent.wrote_of_quiet he, List.append_nil]
    exact ⟨m, ⟨hk ▸ h.piped, hk ▸ h.moved⟩, fun _ ho => hk ▸ ho⟩
  cases e with
  | job s b =>
      obtain ⟨-, rfl⟩ : r.running = true ∧ _ = r' := by simpa [runStep] using hs
      refine ⟨m, ⟨h.piped.of_ino fun _ => Kern.write_ino _ _ _ _, h.moved.write h.piped s b⟩, ?_⟩
      rintro hp ⟨ho, -⟩
      rw [Kern.write_pipe (h.piped.fd s)]
      cases s with
      | out =>
          have he : r.k.files .epip = [] := hp
          refine ⟨?_, .inr (by simpa [pipeOf] using he)⟩
          simp [ho, pipeOf, he, RunEvent.wrote, tag_append]
      | err =>
          have he : r.k.files .opip = [] := hp
          refine ⟨?_, .inl (by simpa [pipeOf] using he)⟩
          simp [ho, pipeOf, he, RunEvent.wrote, tag_append]
  | exit =>
      obtain ⟨-, rfl⟩ : r.running = true ∧ _ = r' := by simpa [runStep] using hs
      exact quiet rfl (by simp)
  | chld =>
      obtain ⟨-, rfl⟩ : (r.running = false ∧ r.brk = false) ∧ _ = r' := by
        simpa [runStep] using hs
      exact quiet rfl (by simp)
  | data s n =>
      have hc : r.k.content (x.pip s) = r.k.files (pipeOf s) := by
        rw [Kern.content, h.piped.pip s]
      simp only [runStep, hc] at hs
      split_ifs at hs with h₁ h₂ h₃
      · push Not at h₁
        obtain rfl := Option.some.inj hs
        have hn : n ≤ (r.k.files (pipeOf s)).length := by omega
        refine ⟨_, ⟨h.piped.of_ino fun fd => dataCb_ino _ _ _ _ _ _ _,
          by simpa [RunEvent.wrote] using h.moved.data hw h.piped hn⟩, ?_⟩
        rintro - ho
        rw [RunEvent.wrote_of_quiet (by simp), List.append_nil]
        exact ho.data h₂ hn (dataCb_pipe hw h.piped h.moved hn)
      · obtain rfl := Option.some.inj hs
        exact quiet rfl (by simp)

/-! ### The rows -/

/-- All opens and writes succeed; `sendfile` sends something. -/
structure World.AllSucceed (w : World) : Prop where
  opens : ∀ fn, w.opens fn = true
  chdirs : ∀ wd, w.chdirs wd = true
  pipes : w.pipes = true
  sends : ∀ off n, 0 < n → 0 < w.sendfile off n

/-- The file of a stream, if it is set. -/
def fileOf (t : FullTask) : Stream → Option String
  | .out => t.more.out
  | .err => t.more.err

@[simp] theorem fileOf_out (t : FullTask) : fileOf t .out = t.more.out := rfl
@[simp] theorem fileOf_err (t : FullTask) : fileOf t .err = t.more.err := rfl

def mailFlag (t : FullTask) : Stream → Bool
  | .out => t.more.mailout
  | .err => t.more.mailerr

@[simp] theorem mailFlag_out (t : FullTask) : mailFlag t .out = t.more.mailout := rfl
@[simp] theorem mailFlag_err (t : FullTask) : mailFlag t .err = t.more.mailerr := rfl

@[simp]
theorem Stream.forall {p : Stream → Prop} : (∀ s, p s) ↔ p .out ∧ p .err :=
  ⟨fun h => ⟨h .out, h .err⟩, fun h s => by cases s <;> [exact h.1; exact h.2]⟩

@[simp]
theorem Stream.exists {p : Stream → Prop} : (∃ s, p s) ↔ p .out ∨ p .err :=
  ⟨fun ⟨s, h⟩ => by cases s <;> [exact .inl h; exact .inr h], fun h => h.elim (⟨_, ·⟩) (⟨_, ·⟩)⟩

@[simp] theorem inode_null (w : World) : w.inode .null = .null := rfl
@[simp] theorem inode_tmpl (w : World) : w.inode .tmpl = .tmpl := rfl
@[simp] theorem inode_name (w : World) (fn : String) : w.inode (.name fn) = .file (w.ino fn) := rfl
@[simp] theorem isReg_tmpl : Inode.isReg .tmpl = true := rfl
@[simp] theorem isReg_file (i : Nat) : Inode.isReg (.file i) = true := rfl

/-- The output and the error file are one name or two files. -/
def NoAlias (w : World) (t : FullTask) : Prop :=
  ∀ fn fn', t.more.out = some fn → t.more.err = some fn' → w.ino fn = w.ino fn' → fn = fn'

/-- Where a stream goes in the rows without pipes. -/
def dest (w : World) (t : FullTask) (s : Stream) : Inode :=
  match fileOf t s with
  | some fn => .file (w.ino fn)
  | none => if mailFlag t s then .tmpl else .null

/-- The rows without pipes. -/
structure RowDirect (w : World) (t : FullTask) (x : EchsxTask) (k : Kern) : Prop where
  direct : Direct x k (dest w t)
  empty : ∀ s, dest w t s ≠ .null → k.files (dest w t s) = []
  off : ∀ fd, k.off fd = 0
  /-- What is mailed has the streams that are flagged. -/
  mfn : match x.mfn with
    | none => ∀ s, mailFlag t s = false
    | some fn => (w.inode fn).isReg = true ∧ (∃ s, mailFlag t s = true) ∧
        ∀ s, mailFlag t s = true ↔ dest w t s = w.inode fn

/-- The file of the mail descriptor in the rows with pipes. -/
def mailIno (w : World) (t : FullTask) : Inode :=
  if sameFile t then .file (w.ino (t.more.out.getD "")) else .tmpl

/-- The file of a tee. -/
def teeIno (w : World) (t : FullTask) (s : Stream) : Inode :=
  if sameFile t then .tmpl else .file (w.ino ((fileOf t s).getD ""))

/-- Whether a stream is teed. -/
def teed (t : FullTask) (s : Stream) : Bool :=
  if sameFile t then mailFlag t s else (fileOf t s).isSome

/-- The rows with pipes. -/
structure RowPiped (w : World) (t : FullTask) (x : EchsxTask) (k : Kern) : Prop where
  piped : Piped x k (mailIno w t) (teeIno w t)
  tees : ∀ s, 0 ≤ x.tee s ↔ teed t s = true
  empty : k.files (mailIno w t) = [] ∧ (∀ s, 0 ≤ x.tee s → k.files (teeIno w t s) = []) ∧
    ∀ s, k.files (pipeOf s) = []
  off : ∀ fd, k.off fd = 0
  mfn : x.mfn = some .tmpl
  flags : if sameFile t then t.more.mailerr = !t.more.mailout
    else t.more.mailout = true ∧ t.more.mailerr = true

/-- Every descriptor is at the start of its file. -/
def rewound (f : Inode → List Char) (l : List Inode) : Kern := ⟨f, l, fun _ => 0⟩

theorem openat_rewound {w : World} (hw : w.AllSucceed) (f : Inode → List Char) (l : List Inode)
    (fn : FileName) :
    (rewound f l).openat w fn true =
      (rewound (Function.update f (w.inode fn) []) (l ++ [w.inode fn]), (l.length : Int)) := by
  simp [Kern.openat, hw.opens, Kern.install, rewound]

theorem pipe_rewound (f : Inode → List Char) (l : List Inode) (i : Inode) :
    (rewound f l).pipe i =
      (rewound (Function.update f i []) (l ++ [i, i]), (l.length : Int), (l.length + 1 : Int)) := by
  simp [Kern.pipe, Kern.install, rewound]

theorem ino_rewound (f : Inode → List Char) (l : List Inode) (n : Nat) :
    (rewound f l).ino n = l[n]? := by
  simp [Kern.ino, rewound]

/-- What is there before the output is prepared. -/
def ready (w : World) (t : FullTask) (disk : Nat → List Char) : Kern :=
  rewound (Kern.start disk).files [.null, w.inode (t.more.in_.elim .null .name)]

theorem prepTask_eq {w : World} (hw : w.AllSucceed) (t : FullTask) (disk : Nat → List Char) :
    prepTask w t (.start disk) = prepOut w t (ready w t disk) 0 (.ini 1) := by
  simp [prepTask, Kern.openat, hw.opens, hw.chdirs, Kern.install, Kern.start, ready, rewound,
    World.inode]

theorem dest_reg (w : World) (t : FullTask) (s : Stream) :
    dest w t s = .null ∨ (dest w t s).isReg = true := by
  rw [dest]
  split
  · exact .inr rfl
  · split
    · exact .inr rfl
    · exact .inl rfl

/-- A row without pipes, by the descriptors of the job. -/
theorem rowDirect_of {w : World} {t : FullTask} {x : EchsxTask} {f : Inode → List Char}
    {l : List Inode} (a b : Nat) (hp : x.opip = -1 ∧ x.epip = -1) (hfd : x.ofd = a ∧ x.efd = b)
    (hl : l[a]? = some (dest w t .out) ∧ l[b]? = some (dest w t .err))
    (hs : dest w t .out = dest w t .err → dest w t .out ≠ .null → a = b)
    (hf : (dest w t .out ≠ .null → f (dest w t .out) = []) ∧
      (dest w t .err ≠ .null → f (dest w t .err) = []))
    (hm : match x.mfn with
      | none => ∀ s, mailFlag t s = false
      | some fn => (w.inode fn).isReg = true ∧ (∃ s, mailFlag t s = true) ∧
          ∀ s, mailFlag t s = true ↔ dest w t s = w.inode fn) :
    RowDirect w t x (rewound f l) := by
  refine ⟨⟨fun s => ?_, fun s => ?_, dest_reg w t, fun s s' h hn => ?_⟩, fun s => ?_,
    fun _ => rfl, hm⟩
  · cases s <;> simp [EchsxTask.pip, hp]
  · cases s with
    | out => rw [EchsxTask.fd, hfd.1, ino_rewound, hl.1]
    | err => rw [EchsxTask.fd, hfd.2, ino_rewound, hl.2]
  · cases s <;> cases s'
    · rfl
    · rw [EchsxTask.fd, EchsxTask.fd, hfd.1, hfd.2, hs h hn]
    · rw [EchsxTask.fd, EchsxTask.fd, hfd.1, hfd.2, hs h.symm (h ▸ hn)]
    · rfl
  · cases s <;> [exact hf.1; exact hf.2]

def IsDirect (w : World) (t : FullTask) (r : Option (EchsxTask × Kern)) : Prop :=
  ∃ x k, r = some (x, k) ∧ RowDirect w t x k

theorem prepTmp_row {w : World} (hw : w.AllSucceed) {t : FullTask} (disk : Nat → List Char)
    (ho : t.more.out = none) (he : t.more.err = none)
    (hm : t.more.mailout = true ∨ t.more.mailerr = true) :
    IsDirect w t (prepTmp w t (ready w t disk) 0 (.ini 1)) := by
  cases h₁ : t.more.mailout <;> cases h₂ : t.more.mailerr
  · simp [h₁, h₂] at hm
  all_goals simp [IsDirect, prepTmp, ready, openat_rewound hw, h₁, h₂, EchsxTask.ini]
  · -- R3
    refine rowDirect_of 0 2 ⟨rfl, rfl⟩ ⟨rfl, rfl⟩ ?_ ?_ ?_ ?_ <;> simp [dest, ho, he, h₁, h₂]
  · -- R2
    refine rowDirect_of 2 0 ⟨rfl, rfl⟩ ⟨rfl, rfl⟩ ?_ ?_ ?_ ?_ <;> simp [dest, ho, he, h₁, h₂]
  · -- R1
    refine rowDirect_of 2 2 ⟨rfl, rfl⟩ ⟨rfl, rfl⟩ ?_ ?_ ?_ ?_ <;> simp [dest, ho, he, h₁, h₂]

theorem prepNoMail_row {w : World} (hw : w.AllSucceed) {t : FullTask} (ha : NoAlias w t)
    (disk : Nat → List Char) (hf : t.more.out ≠ none ∨ t.more.err ≠ none)
    (hm : t.more.mailout = false ∧ t.more.mailerr = false) :
    IsDirect w t (some (prepNoMail w t (ready w t disk) 0 (.ini 1))) := by
  rcases ho : t.more.out with _ | fo <;> rcases he : t.more.err with _ | fe
  · simp [ho, he] at hf
  · -- R8
    simp [IsDirect, prepNoMail, ready, openat_rewound hw, openSet, sameFile, postset, ho, he,
      EchsxTask.ini]
    refine rowDirect_of 0 2 ⟨rfl, rfl⟩ ⟨rfl, rfl⟩ ?_ ?_ ?_ ?_ <;> simp [dest, ho, he, hm]
  · -- R12
    simp [IsDirect, prepNoMail, ready, openat_rewound hw, openSet, sameFile, postset, ho, he,
      EchsxTask.ini]
    refine rowDirect_of 2 0 ⟨rfl, rfl⟩ ⟨rfl, rfl⟩ ?_ ?_ ?_ ?_ <;> simp [dest, ho, he, hm]
  · by_cases hf : fo = fe
    · -- R16
      subst hf
      simp [IsDirect, prepNoMail, ready, openat_rewound hw, openSet, sameFile, postset, ho, he,
        EchsxTask.ini]
      refine rowDirect_of 2 2 ⟨rfl, rfl⟩ ⟨rfl, rfl⟩ ?_ ?_ ?_ ?_ <;> simp [dest, ho, he, hm]
    · -- R20
      have hi : w.ino fo ≠ w.ino fe := fun h => hf (ha fo fe ho he h)
      simp [IsDirect, prepNoMail, ready, openat_rewound hw, openSet, sameFile, postset, ho, he,
        hf, EchsxTask.ini]
      refine rowDirect_of 2 3 ⟨rfl, rfl⟩ ⟨rfl, rfl⟩ ?_ ?_ ?_ ?_ <;> simp [dest, ho, he, hm, hi]

/-- R13. -/
theorem prepSame_row {w : World} (hw : w.AllSucceed) {t : FullTask} (disk : Nat → List Char)
    {fn : String} (ho : t.more.out = some fn) (he : t.more.err = some fn)
    (hm : t.more.mailout = true ∧ t.more.mailerr = true) :
    IsDirect w t (some (prepSame w t (ready w t disk) (.ini 1))) := by
  simp [IsDirect, prepSame, ready, openat_rewound hw, openSet, ho, EchsxTask.ini]
  refine rowDirect_of 2 2 ⟨rfl, rfl⟩ ⟨rfl, rfl⟩ ?_ ?_ ?_ ?_ <;> simp [dest, ho, he, hm]

theorem prepPipeless_row {w : World} (hw : w.AllSucceed) {t : FullTask} (ha : NoAlias w t)
    (disk : Nat → List Char) (hf : t.more.out ≠ none ∨ t.more.err ≠ none)
    (hs : sameFile t = false) (hm : t.more.mailerr = !t.more.mailout) :
    IsDirect w t (some (prepPipeless w t (ready w t disk) 0 (.ini 1))) := by
  rcases ho : t.more.out with _ | fo <;> rcases he : t.more.err with _ | fe <;>
    cases h₁ : t.more.mailout
  · simp [ho, he] at hf
  · simp [ho, he] at hf
  · -- R7
    simp [IsDirect, prepPipeless, ready, openat_rewound hw, openSet, postset, ho, he, h₁,
      EchsxTask.ini]
    refine rowDirect_of 0 2 ⟨rfl, rfl⟩ ⟨rfl, rfl⟩ ?_ ?_ ?_ ?_ <;> simp [dest, ho, he, hm, h₁]
  · -- R6
    simp [IsDirect, prepPipeless, ready, openat_rewound hw, openSet, postset, ho, he, h₁,
      EchsxTask.ini]
    refine rowDirect_of 2 3 ⟨rfl, rfl⟩ ⟨rfl, rfl⟩ ?_ ?_ ?_ ?_ <;> simp [dest, ho, he, hm, h₁]
  · -- R11
    simp [IsDirect, prepPipeless, ready, openat_rewound hw, postset, ho, he, h₁,
      EchsxTask.ini]
    refine rowDirect_of 3 2 ⟨rfl, rfl⟩ ⟨rfl, rfl⟩ ?_ ?_ ?_ ?_ <;> simp [dest, ho, he, hm, h₁]
  · -- R10
    simp [IsDirect, prepPipeless, ready, openat_rewound hw, postset, ho, he, h₁,
      EchsxTask.ini]
    refine rowDirect_of 2 0 ⟨rfl, rfl⟩ ⟨rfl, rfl⟩ ?_ ?_ ?_ ?_ <;> simp [dest, ho, he, hm, h₁]
  · -- R19
    have hi : w.ino fo ≠ w.ino fe := by
      intro h
      simp [sameFile, ho, he, ha fo fe ho he h] at hs
    simp [IsDirect, prepPipeless, ready, openat_rewound hw, postset, ho, he, h₁,
      EchsxTask.ini]
    refine rowDirect_of 2 3 ⟨rfl, rfl⟩ ⟨rfl, rfl⟩ ?_ ?_ ?_ ?_ <;>
      simp [dest, ho, he, hm, h₁, hi]
  · -- R18
    have hi : w.ino fo ≠ w.ino fe := by
      intro h
      simp [sameFile, ho, he, ha fo fe ho he h] at hs
    simp [IsDirect, prepPipeless, ready, openat_rewound hw, postset, ho, he, h₁,
      EchsxTask.ini]
    refine rowDirect_of 2 3 ⟨rfl, rfl⟩ ⟨rfl, rfl⟩ ?_ ?_ ?_ ?_ <;>
      simp [dest, ho, he, hm, h₁, hi, Ne.symm hi]

/-- A row with pipes, by the descriptors. -/
theorem rowPiped_of {w : World} {t : FullTask} {x : EchsxTask} {f : Inode → List Char}
    {l : List Inode} (m : Nat) (n : Stream → Nat)
    (hp : x.opip = 2 ∧ x.ofd = 3 ∧ x.epip = 4 ∧ x.efd = 5 ∧ x.mfd = m ∧ x.mfn = some .tmpl)
    (hl : l[2]? = some .opip ∧ l[3]? = some .opip ∧ l[4]? = some .epip ∧ l[5]? = some .epip ∧
      l[m]? = some (mailIno w t))
    (ht : ∀ s, if teed t s = true then
      x.tee s = n s ∧ l[n s]? = some (teeIno w t s) ∧ teeIno w t s ≠ mailIno w t ∧
        f (teeIno w t s) = []
      else x.tee s = -1)
    (hne : teed t .out = true → teed t .err = true → teeIno w t .out ≠ teeIno w t .err)
    (hf : f (mailIno w t) = [] ∧ f .opip = [] ∧ f .epip = [])
    (hm : if sameFile t then t.more.mailerr = !t.more.mailout
      else t.more.mailout = true ∧ t.more.mailerr = true) :
    RowPiped w t x (rewound f l) := by
  obtain ⟨h₁, h₂, h₃, h₄, h₅, h₆⟩ := hp
  obtain ⟨g₁, g₂, g₃, g₄, g₅⟩ := hl
  have htee : ∀ s, 0 ≤ x.tee s ↔ teed t s = true := by
    intro s
    have := ht s
    split at this
    · rename_i h
      simp [h, this.1]
    · rename_i h
      simp [h, this]
  have hsome : ∀ s, 0 ≤ x.tee s → x.tee s = n s ∧ l[n s]? = some (teeIno w t s) ∧
      teeIno w t s ≠ mailIno w t ∧ f (teeIno w t s) = [] := fun s hs => by
    simpa [(htee s).mp hs] using ht s
  have hreg : ∀ s, (teeIno w t s).isReg = true := by
    intro s
    rw [teeIno]
    split <;> rfl
  refine ⟨⟨fun s => ?_, fun s => ?_, ?_, ?_, fun s hs => ?_, fun h h' => ?_⟩, htee,
    ⟨hf.1, fun s hs => ?_, fun s => ?_⟩, fun _ => rfl, h₆, hm⟩
  · cases s with
    | out => rw [EchsxTask.fd, h₂]; exact (ino_rewound f l 3).trans g₂
    | err => rw [EchsxTask.fd, h₄]; exact (ino_rewound f l 5).trans g₄
  · cases s with
    | out => rw [EchsxTask.pip, h₁]; exact (ino_rewound f l 2).trans g₁
    | err => rw [EchsxTask.pip, h₃]; exact (ino_rewound f l 4).trans g₃
  · rw [h₅, ino_rewound, g₅]
  · rw [mailIno]
    split <;> rfl
  · obtain ⟨hn, hi, hne, -⟩ := hsome s hs
    exact ⟨by rw [hn, ino_rewound, hi], hreg s, hne⟩
  · exact hne ((htee _).mp h) ((htee _).mp h')
  · exact (hsome s hs).2.2.2
  · cases s <;> [exact hf.2.1; exact hf.2.2]

def IsPiped (w : World) (t : FullTask) (r : Option (EchsxTask × Kern)) : Prop :=
  ∃ x k, r = some (x, k) ∧ RowPiped w t x k

theorem prepPipes_row {w : World} (hw : w.AllSucceed) {t : FullTask} (ha : NoAlias w t)
    (disk : Nat → List Char) (hf : t.more.out ≠ none ∨ t.more.err ≠ none)
    (hm : if sameFile t then t.more.mailerr = !t.more.mailout
      else t.more.mailout = true ∧ t.more.mailerr = true) :
    IsPiped w t (prepPipes w t (ready w t disk) (.ini 1)) := by
  rcases ho : t.more.out with _ | fo <;> rcases he : t.more.err with _ | fe
  · simp [ho, he] at hf
  · -- R5
    have hs : sameFile t = false := by simp [sameFile, ho]
    simp only [hs, Bool.false_eq_true, if_false] at hm
    simp [IsPiped, prepPipes, hw.pipes, ready, pipe_rewound, openat_rewound hw, openSet, hs, ho,
      he, EchsxTask.ini]
    refine rowPiped_of 6 (fun _ => 7) ⟨rfl, rfl, rfl, rfl, rfl, rfl⟩ ?_ ?_ ?_ ?_ ?_ <;>
      simp [teed, mailIno, teeIno, EchsxTask.tee, hs, ho, he, hm]
  · -- R9
    have hs : sameFile t = false := by simp [sameFile, ho, he]
    simp only [hs, Bool.false_eq_true, if_false] at hm
    simp [IsPiped, prepPipes, hw.pipes, ready, pipe_rewound, openat_rewound hw, openSet, hs, ho,
      he, EchsxTask.ini]
    refine rowPiped_of 6 (fun _ => 7) ⟨rfl, rfl, rfl, rfl, rfl, rfl⟩ ?_ ?_ ?_ ?_ ?_ <;>
      simp [teed, mailIno, teeIno, EchsxTask.tee, hs, ho, he, hm]
  · by_cases hq : fo = fe
    · subst hq
      have hs : sameFile t = true := by simp [sameFile, ho, he]
      simp only [hs, if_true] at hm
      cases h₁ : t.more.mailout
      · -- R15
        simp [IsPiped, prepPipes, hw.pipes, ready, pipe_rewound, openat_rewound hw, openSet, hs,
          ho, h₁, EchsxTask.ini]
        refine rowPiped_of 7 (fun _ => 6) ⟨rfl, rfl, rfl, rfl, rfl, rfl⟩ ?_ ?_ ?_ ?_ ?_ <;>
          simp [teed, mailIno, teeIno, EchsxTask.tee, hs, ho, hm, h₁]
      · -- R14
        simp [IsPiped, prepPipes, hw.pipes, ready, pipe_rewound, openat_rewound hw, openSet, hs,
          ho, h₁, EchsxTask.ini]
        refine rowPiped_of 7 (fun _ => 6) ⟨rfl, rfl, rfl, rfl, rfl, rfl⟩ ?_ ?_ ?_ ?_ ?_ <;>
          simp [teed, mailIno, teeIno, EchsxTask.tee, hs, ho, hm, h₁]
    · -- R17
      have hs : sameFile t = false := by simp [sameFile, ho, he, hq]
      have hi : w.ino fo ≠ w.ino fe := fun h => hq (ha fo fe ho he h)
      simp only [hs, Bool.false_eq_true, if_false] at hm
      simp [IsPiped, prepPipes, hw.pipes, ready, pipe_rewound, openat_rewound hw, openSet, hs, ho,
        he, EchsxTask.ini]
      refine rowPiped_of 6 (fun | .out => 7 | .err => 8) ⟨rfl, rfl, rfl, rfl, rfl, rfl⟩
        ?_ ?_ ?_ ?_ ?_ <;> simp [teed, mailIno, teeIno, EchsxTask.tee, hs, ho, he, hm, hi]

/-- The files are opened in one of the rows. -/
theorem prepTask_row {w : World} (hw : w.AllSucceed) {t : FullTask} (ha : NoAlias w t)
    (disk : Nat → List Char) :
    IsDirect w t (prepTask w t (.start disk)) ∨ IsPiped w t (prepTask w t (.start disk)) := by
  rw [prepTask_eq hw, prepOut]
  split_ifs with h₁ h₂ h₃ h₄ h₅
  · -- R4
    obtain ⟨ho, he, hm, hn⟩ := h₁
    rw [Bool.not_eq_true] at hm hn
    refine .inl ⟨_, _, rfl, ?_⟩
    rw [ready]
    refine rowDirect_of 0 0 ⟨rfl, rfl⟩ ⟨rfl, rfl⟩ ?_ ?_ ?_ ?_ <;>
      simp [dest, EchsxTask.ini, ho, he, hm, hn]
  · refine .inl (prepTmp_row hw disk h₂.1 h₂.2 ?_)
    by_contra hn
    exact h₁ ⟨h₂.1, h₂.2, by simpa using hn⟩
  · exact .inl (prepNoMail_row hw ha disk (by tauto) (by simpa using h₃))
  · obtain ⟨hm, hn, hs⟩ := h₄
    obtain ⟨fn, ho⟩ : ∃ fn, t.more.out = some fn := by
      simp only [sameFile, Bool.and_eq_true, Option.isSome_iff_exists] at hs
      exact hs.1
    have he : t.more.err = some fn := by
      simp only [sameFile, ho, Option.isSome_some, Bool.true_and, beq_iff_eq] at hs
      exact hs.symm
    exact .inl (prepSame_row hw disk ho he ⟨hm, hn⟩)
  · refine .inl (prepPipeless_row hw ha disk (by tauto) (by simpa using h₅.2) ?_)
    cases h : t.more.mailout <;> cases h' : t.more.mailerr <;> simp_all
  · refine .inr (prepPipes_row hw ha disk (by tauto) ?_)
    cases h : t.more.mailout <;> cases h' : t.more.mailerr <;> cases h'' : sameFile t <;> simp_all

/-! ### The routing -/

/-- The stream is directed to a file of that inode. -/
def directedTo (w : World) (t : FullTask) (i : Nat) (s : Stream) : Bool :=
  (fileOf t s).map w.ino == some i

/-- Every named file has the bytes of the streams directed to it, and the mail body those
of the streams whose flag is set, as they stand in `m`. -/
structure Routed (w : World) (t : FullTask) (k : Kern) (body : Option (List Char))
    (m : List (Stream × Char)) : Prop where
  files : ∀ s fn, fileOf t s = some fn →
    k.files (.file (w.ino fn)) = pick (directedTo w t (w.ino fn)) m
  mail : ∀ b, body = some b → b = pick (mailFlag t) m

theorem xsplice_eq {w : World} (hw : ∀ off n, 0 < n → 0 < w.sendfile off n) (src : List Char)
    (fuel tots : Nat) (hf : src.length ≤ fuel + tots) :
    xsplice w src src.length fuel tots = src.drop tots := by
  induction fuel generalizing tots with
  | zero => rw [xsplice, List.drop_eq_nil_of_le (by omega)]
  | succ fuel ih =>
      rw [xsplice]
      split
      · rename_i hlt
        have hpos := hw tots (src.length - tots) (by omega)
        have hb : 0 < ((src.drop tots).take (w.sendfile tots (src.length - tots))).length := by
          rw [List.length_take, List.length_drop]
          omega
        simp only
        rw [ih _ (by omega), ← List.drop_drop, take_append_drop_length]
      · rw [List.drop_eq_nil_of_le (by omega)]

/-- What is mailed. -/
theorem mailTask_body {w : World} (hw : w.AllSucceed) {t : FullTask} {x : EchsxTask} {k : Kern}
    {b : List Char} (h : mailTask w t x k = some b) :
    b = x.mfn.elim [] fun fn => k.files (w.inode fn) := by
  rw [mailTask] at h
  split_ifs at h
  rcases hx : x.mfn with _ | fn
  · rw [hx] at h
    exact (Option.some.inj h).symm
  · rw [hx] at h
    simp only [hw.opens, if_true] at h
    rw [xsplice_eq hw.sends _ _ _ (by omega)] at h
    exact (Option.some.inj h).symm

theorem directedTo_eq (w : World) (t : FullTask) (i : Nat) (s : Stream) :
    directedTo w t i s = (dest w t s == .file i) := by
  rw [directedTo, dest]
  rcases fileOf t s with _ | fn
  · cases mailFlag t s <;> rfl
  · simp

/-- In the rows without pipes. -/
theorem RowDirect.routed {w : World} (hw : w.AllSucceed) {t : FullTask} {x : EchsxTask}
    {k k' : Kern} {m : List (Stream × Char)} (h : RowDirect w t x k)
    (hf : Filled x k' (dest w t) m) : Routed w t k' (mailTask w t x k') m := by
  constructor
  · intro s fn hs
    have hd : dest w t s = .file (w.ino fn) := by rw [dest, hs]
    rw [← hd, (hf s (by simp [hd])).1, hd]
    exact pick_congr fun e _ => (directedTo_eq w t _ _).symm
  · intro b hb
    obtain rfl := mailTask_body hw hb
    have hm := h.mfn
    rcases hx : x.mfn with _ | fn
    · rw [hx] at hm
      rw [pick_congr (q := fun _ => false) fun e _ => hm e.1]
      simp [pick]
    · rw [hx] at hm
      obtain ⟨hr, ⟨s, hs⟩, hm⟩ := hm
      have hd := (hm s).mp hs
      have hn : dest w t s ≠ .null := by
        rintro h0
        rw [← hd, h0] at hr
        simp [Inode.isReg] at hr
      rw [Option.elim_some, ← hd, (hf s hn).1, hd]
      exact pick_congr fun e _ => by rw [Bool.eq_iff_iff, hm e.1, beq_iff_eq]

/-- Two streams that are directed to one file have it under one name. -/
theorem sameFile_of {w : World} {t : FullTask} (ha : NoAlias w t) {s s' : Stream} {fn : String}
    (hs : fileOf t s = some fn) (hi : (fileOf t s').map w.ino = some (w.ino fn))
    (hne : s' ≠ s) : sameFile t = true := by
  obtain ⟨fn', hs', hi'⟩ := Option.map_eq_some_iff.mp hi
  cases s <;> cases s'
  · exact absurd rfl hne
  · have := ha fn fn' hs hs' hi'.symm
    simp_all [sameFile]
  · have := ha fn' fn hs' hs hi'
    simp_all [sameFile]
  · exact absurd rfl hne

/-- In the rows with pipes. -/
theorem RowPiped.routed {w : World} (hw : w.AllSucceed) {t : FullTask} (ha : NoAlias w t)
    {x : EchsxTask} {k k' : Kern} {W m : List (Stream × Char)} (h : RowPiped w t x k)
    (hf : Moved x k' (mailIno w t) (teeIno w t) W m) :
    Routed w t k' (mailTask w t x k') m := by
  have hfl := h.flags
  by_cases hq : sameFile t = true
  · -- both streams go to the file, and the one that is flagged is teed
    obtain ⟨fn, ho, he⟩ : ∃ fn, t.more.out = some fn ∧ t.more.err = some fn := by
      simp only [sameFile, Bool.and_eq_true, Option.isSome_iff_exists, beq_iff_eq] at hq
      obtain ⟨⟨fn, ho⟩, he⟩ := hq
      exact ⟨fn, ho, he ▸ ho⟩
    rw [if_pos hq] at hfl
    constructor
    · intro s fn' hs
      obtain rfl : fn' = fn := by
        cases s
        · exact Option.some.inj (hs.symm.trans ho)
        · exact Option.some.inj (hs.symm.trans he)
      have hmi : mailIno w t = .file (w.ino fn') := by rw [mailIno, if_pos hq, ho]; rfl
      rw [← hmi, hf.mail.1, pick_all]
      simp [directedTo, ho, he]
    · intro b hb
      obtain rfl := mailTask_body hw hb
      have hti : ∀ s, teeIno w t s = .tmpl := fun s => by rw [teeIno, if_pos hq]
      have hflag : ∀ s, mailFlag t s = true →
          k'.files .tmpl = pick (mailFlag t) m := by
        intro s hs
        have ht := (h.tees s).mpr (by rw [teed, if_pos hq, hs])
        rw [← hti s, (hf.tee s ht).1]
        refine pick_congr fun e _ => ?_
        rcases e with ⟨s', c⟩
        cases s <;> cases s' <;> simp_all
      rw [h.mfn, Option.elim_some, inode_tmpl]
      cases hm : t.more.mailout
      · exact hflag .err (by simp [hfl, hm])
      · exact hflag .out (by simpa using hm)
  · -- both streams are mailed, and those with a file are teed
    have hn : sameFile t = false := by simpa using hq
    simp only [hn, Bool.false_eq_true, if_false] at hfl
    constructor
    · intro s fn hs
      have hti : teeIno w t s = .file (w.ino fn) := by rw [teeIno, if_neg hq, hs]; rfl
      have ht := (h.tees s).mpr (by rw [teed, if_neg hq, hs]; rfl)
      rw [← hti, (hf.tee s ht).1]
      refine pick_congr fun e _ => ?_
      rw [Bool.eq_iff_iff, beq_iff_eq, directedTo, beq_iff_eq]
      constructor
      · rintro rfl
        rw [hs]
        rfl
      · intro hi
        by_contra hne
        refine hq (sameFile_of ha hs hi hne)
    · intro b hb
      obtain rfl := mailTask_body hw hb
      have hmi : mailIno w t = .tmpl := by rw [mailIno, if_neg hq]
      rw [h.mfn, Option.elim_some, inode_tmpl, ← hmi, hf.mail.1, pick_all]
      simpa using hfl

open Runs

theorem RowDirect.run {w : World} (hw : w.AllSucceed) {t : FullTask} {x : EchsxTask} {k : Kern}
    {es : List RunEvent} {r : JobRun} (h : RowDirect w t x k)
    (hr : run (runStep w x) (.start x k) es = some r) :
    Routed w t r.k (mailTask w t x r.k) (writes es) := by
  have hi : DirectRun x (dest w t) (writes []) (.start x k) := by
    refine ⟨h.direct, fun s hs => ?_, fun s => ?_⟩
    · exact ⟨h.empty s hs, by rw [JobRun.start, h.off, h.empty s hs]; rfl⟩
    · simpa [JobRun.start] using h.direct.pip s
  have hrun : DirectRun x (dest w t) (writes ([] ++ es)) r :=
    history_run (C := fun _ _ => True) (I := fun es r => DirectRun x (dest w t) (writes es) r)
      (fun _ _ e _ hi _ hs => by rw [writes_concat]; exact hi.step hs) es [] _ hi
      (before_of_forall (fun _ _ => trivial) _ _) hr
  exact h.routed hw hrun.filled

theorem RowPiped.run {w : World} (hw : w.AllSucceed) {t : FullTask} (ha : NoAlias w t)
    {x : EchsxTask} {k : Kern} {es : List RunEvent} {r : JobRun} (h : RowPiped w t x k)
    (hr : run (runStep w x) (.start x k) es = some r) (hd : ∀ s, r.k.files (pipeOf s) = []) :
    (∃ m, Interleaved m (writes es) ∧ Routed w t r.k (mailTask w t x r.k) m) ∧
      (Before (runStep w x) Paced (.start x k) es →
        Routed w t r.k (mailTask w t x r.k) (writes es)) := by
  have h0 : PipedRun x (mailIno w t) (teeIno w t) (writes []) [] (.start x k) := by
    refine ⟨h.piped, ⟨⟨h.empty.1, ?_⟩, fun s hs => ⟨h.empty.2.1 s hs, ?_⟩, fun s => ?_⟩⟩
    · rw [JobRun.start, h.off, h.empty.1]
      rfl
    · rw [JobRun.start, h.off, h.empty.2.1 s hs]
      rfl
    · exact (h.empty.2.2 s).symm
  constructor
  · obtain ⟨m, hm⟩ := history_run (C := fun _ _ => True)
      (I := fun es r => ∃ m, PipedRun x (mailIno w t) (teeIno w t) (writes es) m r)
      (fun es r e r' ⟨m, hm⟩ _ hs => by
        obtain ⟨m', hm', -⟩ := hm.step hw.sends hs
        exact ⟨m', by rwa [writes_concat]⟩) es [] _ ⟨[], h0⟩
      (before_of_forall (fun _ _ => trivial) _ _) hr
    refine ⟨m, fun s => ?_, h.routed hw ha hm.moved⟩
    have := hm.moved.pend s
    rw [hd s, List.append_nil] at this
    exact this.symm
  · intro hb
    have hp := h.empty.2.2
    obtain ⟨m, hm, ho⟩ := history_run (C := Paced)
      (I := fun es r => ∃ m, PipedRun x (mailIno w t) (teeIno w t) (writes es) m r ∧
        InOrder r.k (writes es) m)
      (fun es r e r' ⟨m, hm, ho⟩ hc hs => by
        obtain ⟨m', hm', ho'⟩ := hm.step hw.sends hs
        exact ⟨m', by rwa [writes_concat], by rw [writes_concat]; exact ho' hc ho⟩) es [] _
      ⟨[], h0, ⟨by rw [JobRun.start, show k.files .opip = [] from hp .out,
        show k.files .epip = [] from hp .err]; rfl, .inl (hp .out)⟩⟩ hb hr
    have hout : r.k.files .opip = [] := hd .out
    have herr : r.k.files .epip = [] := hd .err
    have hW : writes es = m := by simpa [hout, herr] using ho.order
    rw [hW]
    exact h.routed hw ha hm.moved

/-- **Every run routes the output if nothing is left in a pipe in the end**, the bytes of
each stream in order, and all of them in the order in which they were written if the job
writes to a stream only while the pipe of the other is empty. -/
theorem runTask_routes {w : World} (hw : w.AllSucceed) {t : FullTask} (ha : NoAlias w t)
    {disk : Nat → List Char} {x : EchsxTask} {k k' : Kern} {es : List RunEvent}
    (hp : prepTask w t (.start disk) = some (x, k)) (hr : runTask w x k es = some k')
    (hd : ∀ s, k'.files (pipeOf s) = []) :
    (∃ m, Interleaved m (writes es) ∧ Routed w t k' (mailTask w t x k') m) ∧
      (Before (runStep w x) Paced (.start x k) es →
        Routed w t k' (mailTask w t x k') (writes es)) := by
  obtain ⟨r, hrun, hk⟩ := Option.bind_eq_some_iff.mp hr
  obtain ⟨-, rfl⟩ : r.brk = true ∧ r.k = k' := by simpa using hk
  rcases prepTask_row hw ha disk with ⟨x', k', hx, hrow⟩ | ⟨x', k', hx, hrow⟩ <;>
    obtain ⟨rfl, rfl⟩ : x' = x ∧ k' = k := by simpa using hx.symm.trans hp
  · have h := hrow.run hw hrun
    exact ⟨⟨writes es, Interleaved.refl _, h⟩, fun _ => h⟩
  · exact hrow.run hw ha hrun hd

/-- Everything succeeds, and names of different length are different files. -/
def easyWorld : World where
  ino := String.length
  tmpl := "/tmp/echs"
  opens _ := true
  chdirs _ := true
  pipes := true
  sendfile _ n := n

theorem easyWorld_succeeds : easyWorld.AllSucceed :=
  ⟨fun _ => rfl, fun _ => rfl, rfl, fun _ _ h => h⟩

/-- A task with two files whose output is all mailed. -/
def mailedTask : FullTask :=
  ⟨1, .null, 0, 0, ⟨.null, .null, none, none⟩,
    { TaskSlots.zero with cmd := some "job", org := some "op", att := ["op"], out := some "o",
                          err := some "er", mailout := true, mailerr := true }⟩

theorem mailedTask_noAlias : NoAlias easyWorld mailedTask := by
  rintro _ _ ⟨⟩ ⟨⟩ h
  exact absurd h (by decide)

/-- One byte to each stream, read as it comes. -/
def pacedRun : List RunEvent :=
  [.job .out ['a'], .data .out 1, .job .err ['b'], .data .err 1, .exit, .data .out 0,
    .data .err 0, .chld]

theorem runTask_routes_mailed :
    ∃ x k k', prepTask easyWorld mailedTask (.start fun _ => []) = some (x, k) ∧
      runTask easyWorld x k pacedRun = some k' ∧
      Routed easyWorld mailedTask k' (mailTask easyWorld mailedTask x k')
        [(.out, 'a'), (.err, 'b')] := by
  have hrun : ((prepTask easyWorld mailedTask (.start fun _ => [])).bind fun p =>
      (runTask easyWorld p.1 p.2 pacedRun).map fun k =>
        (decide (Before (runStep easyWorld p.1) Paced (.start p.1 p.2) pacedRun),
          k.files .opip, k.files .epip)) = some (true, [], []) := by
    decide
  obtain ⟨⟨x, k⟩, hp, hrun⟩ := Option.bind_eq_some_iff.mp hrun
  obtain ⟨k', hr, hk⟩ := Option.map_eq_some_iff.mp hrun
  simp only [Prod.mk.injEq, decide_eq_true_eq] at hk
  have h := (runTask_routes easyWorld_succeeds mailedTask_noAlias hp hr
    (Stream.forall.mpr hk.2)).2 hk.1
  exact ⟨x, k, k', hp, hr, h⟩

/-- What the job has written to stderr right before it exits is lost where the loop only
learns of the exit and of the other pipe. -/
theorem runTask_loses :
    ∃ x k k', prepTask easyWorld mailedTask (.start fun _ => []) = some (x, k) ∧
      runTask easyWorld x k [.job .out ['a'], .job .err ['b'], .exit, .data .out 1, .chld] =
        some k' ∧
      ¬∃ m, Interleaved m [(.out, 'a'), (.err, 'b')] ∧
        Routed easyWorld mailedTask k' (mailTask easyWorld mailedTask x k') m := by
  have hrun : ((prepTask easyWorld mailedTask (.start fun _ => [])).bind fun p =>
      (runTask easyWorld p.1 p.2
        [.job .out ['a'], .job .err ['b'], .exit, .data .out 1, .chld]).map fun k =>
          k.files (.file (easyWorld.ino "er"))) = some [] := by
    decide
  obtain ⟨⟨x, k⟩, hp, hrun⟩ := Option.bind_eq_some_iff.mp hrun
  obtain ⟨k', hr, hk⟩ := Option.map_eq_some_iff.mp hrun
  refine ⟨x, k, k', hp, hr, ?_⟩
  rintro ⟨m, hm, hroute⟩
  have hf := hroute.files .err "er" rfl
  have hd : directedTo easyWorld mailedTask (easyWorld.ino "er") = (· == .err) := by
    funext s
    cases s <;> decide
  rw [hd, hm .err, hk] at hf
  exact absurd hf (by decide)

end Echse.Echsx
