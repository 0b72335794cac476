/-
Runs of a fill loop.

What a pass stores is only ever appended, so a run is a growing list.  The facts here
are about that list for any loop: how long it can get, how a run with a bounded buffer
relates to the run with an unlimited one, and when a run stops.

The bounded run is the unlimited one up to the pass that fills the buffer, and in that
pass it leaves off between two groups (`bounded_or_full`).
-/
import Echse.Lib.FillLoop
import Mathlib.Tactic

namespace FillLoop

namespace Loop

variable {σ α β : Type} {L : Loop σ α β}

/-! ### What a group stores -/

/-- The items of a group that are stored. -/
def taken (L : Loop σ α β) : List α → List α
  | [] => []
  | x :: xs =>
      match L.judge x with
      | .emit => x :: taken L xs
      | .drop => taken L xs
      | .skip => []
      | .fin => []

/-- How the processing of a group ends. -/
def sig (L : Loop σ α β) : List α → Sig
  | [] => .cont
  | x :: xs =>
      match L.judge x with
      | .emit => sig L xs
      | .drop => sig L xs
      | .skip => .skip
      | .fin => .fin

theorem fillGroup_eq (p : σ) (xs : List α) :
    ∀ out : List β, L.fillGroup p xs out = (out ++ (L.taken xs).map (L.entry p), L.sig xs) := by
  induction xs with
  | nil => intro out; simp [fillGroup, taken, sig]
  | cons x xs ih =>
      intro out
      cases h : L.judge x <;> simp [fillGroup, taken, sig, h, ih]

theorem fillGroups_nil (room : Option Nat) (p : σ) (out : List β) :
    L.fillGroups room p [] out = (out, .cont) := rfl

theorem fillGroups_of_full {room : Option Nat} {out : List β} (h : full room out = true)
    (p : σ) (gs : List (Option (List α))) : L.fillGroups room p gs out = (out, .cont) := by
  cases gs <;> simp [fillGroups, h]

theorem fillGroups_trap {room : Option Nat} {out : List β} (h : full room out = false)
    (p : σ) (gs : List (Option (List α))) :
    L.fillGroups room p (none :: gs) out = (out, .trap) := by
  simp [fillGroups, h]

theorem fillGroups_some {room : Option Nat} {out : List β} (h : full room out = false)
    (p : σ) (xs : List α) (gs : List (Option (List α))) :
    L.fillGroups room p (some xs :: gs) out =
      if L.sig xs = .cont then
        L.fillGroups room p gs (out ++ (L.taken xs).map (L.entry p))
      else (out ++ (L.taken xs).map (L.entry p), L.sig xs) := by
  simp [fillGroups, h, fillGroup_eq]

theorem prefix_fillGroups (room : Option Nat) (p : σ) (gs : List (Option (List α))) :
    ∀ out : List β, out <+: (L.fillGroups room p gs out).1 := by
  induction gs with
  | nil => intro out; simp [fillGroups]
  | cons g gs ih =>
      intro out
      by_cases hf : full room out = true
      · rw [fillGroups_of_full hf]
      · have hf : full room out = false := by simpa using hf
        cases g with
        | none => rw [fillGroups_trap hf]
        | some xs =>
            rw [fillGroups_some hf]
            split
            · exact (List.prefix_append _ _).trans (ih _)
            · exact List.prefix_append _ _

/-! ### Passes -/

theorem pass_of_stop {s : State σ β} (room : Option Nat) (h : s.stop ≠ none) :
    L.pass room s = s := by
  unfold pass
  cases hs : s.stop with
  | none => exact absurd hs h
  | some _ => rfl

theorem pass_hop {s : State σ β} (room : Option Nat) (h : s.stop = none)
    (hh : L.hop s.pos = true) : L.pass room s = L.advance s := by
  simp [pass, h, hh]

theorem pass_full {s : State σ β} {room : Option Nat} (h : s.stop = none)
    (hh : L.hop s.pos = false) (hf : full room s.out = true) :
    L.pass room s = { s with stop := some .done } := by
  simp [pass, h, hh, hf]

theorem pass_tired {s : State σ β} {room : Option Nat} (h : s.stop = none)
    (hh : L.hop s.pos = false) (hf : full room s.out = false) (ht : L.tick s.tries = none) :
    L.pass room s = { s with stop := some .done } := by
  simp [pass, h, hh, hf, ht]

theorem pass_body {s : State σ β} {room : Option Nat} {t : Nat} (h : s.stop = none)
    (hh : L.hop s.pos = false) (hf : full room s.out = false) (ht : L.tick s.tries = some t) :
    L.pass room s = L.body room t s := by
  simp [pass, h, hh, hf, ht]

@[simp] theorem advance_out (s : State σ β) : (L.advance s).out = s.out := by
  unfold advance
  split <;> rfl

@[simp] theorem advance_tries (s : State σ β) : (L.advance s).tries = s.tries := by
  unfold advance
  split <;> rfl

theorem body_out (room : Option Nat) (t : Nat) (s : State σ β) :
    (L.body room t s).out = (L.fillGroups room s.pos (L.groups s.pos) s.out).1 := by
  unfold body
  dsimp only
  split <;> simp

/-- A pass only appends. -/
theorem prefix_pass (room : Option Nat) (s : State σ β) : s.out <+: (L.pass room s).out := by
  unfold pass
  split
  · exact List.prefix_rfl
  · split
    · simp
    · split
      · exact List.prefix_rfl
      · split
        · exact List.prefix_rfl
        · rw [body_out]; exact prefix_fillGroups ..

theorem passes_zero (room : Option Nat) (s : State σ β) : L.passes room 0 s = s := rfl

theorem passes_succ' (room : Option Nat) (n : Nat) (s : State σ β) :
    L.passes room (n + 1) s = L.passes room n (L.pass room s) := rfl

theorem passes_add (room : Option Nat) (m n : Nat) :
    ∀ s : State σ β, L.passes room (m + n) s = L.passes room n (L.passes room m s) := by
  induction m with
  | zero => intro s; simp [passes]
  | succ m ih => intro s; rw [Nat.succ_add, passes_succ', passes_succ', ih]

theorem passes_succ (room : Option Nat) (n : Nat) (s : State σ β) :
    L.passes room (n + 1) s = L.pass room (L.passes room n s) := by
  rw [passes_add]
  rfl

theorem passes_of_stop {s : State σ β} (room : Option Nat) (h : s.stop ≠ none) (n : Nat) :
    L.passes room n s = s := by
  induction n with
  | zero => rfl
  | succ n ih => rw [passes_succ, ih, pass_of_stop room h]

/-- Once stopped, a run stays as it is. -/
theorem passes_of_stop_le {s : State σ β} (room : Option Nat) {m n : Nat} (hmn : m ≤ n)
    (h : (L.passes room m s).stop ≠ none) : L.passes room n s = L.passes room m s := by
  obtain ⟨k, rfl⟩ := Nat.exists_eq_add_of_le hmn
  rw [passes_add, passes_of_stop room h]

theorem prefix_passes (room : Option Nat) (s : State σ β) {m n : Nat} (hmn : m ≤ n) :
    (L.passes room m s).out <+: (L.passes room n s).out := by
  induction n, hmn using Nat.le_induction with
  | base => exact List.prefix_rfl
  | succ n _ ih => rw [passes_succ]; exact ih.trans (prefix_pass room _)

/-! ### What is in the list

Everything stored comes from an item that was judged worth it, at a position the loop
was at.  `Q` is what is known of those positions.
-/

theorem mem_taken {x : α} {xs : List α} (h : x ∈ L.taken xs) :
    x ∈ xs ∧ L.judge x = .emit := by
  induction xs with
  | nil => simp [taken] at h
  | cons y ys ih =>
      unfold taken at h
      split at h
      · rename_i hj
        rcases List.mem_cons.mp h with rfl | h
        · exact ⟨List.mem_cons_self, hj⟩
        · exact ⟨List.mem_cons_of_mem _ (ih h).1, (ih h).2⟩
      · exact ⟨List.mem_cons_of_mem _ (ih h).1, (ih h).2⟩
      · simp at h
      · simp at h

theorem taken_length_le (xs : List α) : (L.taken xs).length ≤ xs.length := by
  induction xs with
  | nil => simp [taken]
  | cons x xs ih =>
      unfold taken
      split <;> simp <;> omega

/-- An item the loop stores at a position. -/
def Stores (L : Loop σ α β) (p : σ) (x : α) : Prop :=
  ∃ xs, some xs ∈ L.groups p ∧ x ∈ xs ∧ L.judge x = .emit

theorem fillGroups_mem {room : Option Nat} {p : σ} {gs : List (Option (List α))} {e : β} :
    ∀ {out : List β}, e ∈ (L.fillGroups room p gs out).1 →
      e ∈ out ∨ ∃ xs, some xs ∈ gs ∧ ∃ x ∈ xs, L.judge x = .emit ∧ e = L.entry p x := by
  induction gs with
  | nil => intro out h; exact Or.inl h
  | cons g gs ih =>
      intro out h
      by_cases hf : full room out = true
      · rw [fillGroups_of_full hf] at h
        exact Or.inl h
      · have hf : full room out = false := by simpa using hf
        cases g with
        | none => rw [fillGroups_trap hf] at h; exact Or.inl h
        | some xs =>
            have hgrp : e ∈ out ++ (L.taken xs).map (L.entry p) →
                e ∈ out ∨ ∃ ys, some ys ∈ some xs :: gs ∧
                  ∃ x ∈ ys, L.judge x = .emit ∧ e = L.entry p x := by
              intro h
              rcases List.mem_append.mp h with h | h
              · exact Or.inl h
              · obtain ⟨x, hx, rfl⟩ := List.mem_map.mp h
                exact Or.inr ⟨xs, List.mem_cons_self, x, (mem_taken hx).1, (mem_taken hx).2, rfl⟩
            rw [fillGroups_some hf] at h
            split at h
            · rcases ih h with h | ⟨ys, hys, h⟩
              · exact hgrp h
              · exact Or.inr ⟨ys, List.mem_cons_of_mem _ hys, h⟩
            · exact hgrp h

theorem advance_pos {Q : σ → Prop} (hnext : ∀ p q, Q p → L.next p = some q → Q q)
    {s : State σ β} (h : Q s.pos) : Q (L.advance s).pos := by
  unfold advance
  split
  · exact h
  · rename_i q hq
    exact hnext _ _ h hq

/-- A pass keeps what every step keeps of the position. -/
theorem pass_pos {Q : σ → Prop} (hnext : ∀ p q, Q p → L.next p = some q → Q q)
    (room : Option Nat) {s : State σ β} (h : Q s.pos) : Q (L.pass room s).pos := by
  unfold pass
  split
  · exact h
  · split
    · exact advance_pos hnext h
    · split
      · exact h
      · split
        · exact h
        · unfold body
          dsimp only
          split
          · exact h
          · exact h
          · exact advance_pos hnext h

theorem passes_pos {Q : σ → Prop} (hnext : ∀ p q, Q p → L.next p = some q → Q q)
    (room : Option Nat) (n : Nat) {s : State σ β} (h : Q s.pos) :
    Q (L.passes room n s).pos := by
  induction n with
  | zero => exact h
  | succ n ih => rw [passes_succ]; exact pass_pos hnext room ih

theorem pass_mem {room : Option Nat} {s : State σ β} {e : β} (h : e ∈ (L.pass room s).out) :
    e ∈ s.out ∨ ∃ x, L.Stores s.pos x ∧ e = L.entry s.pos x := by
  unfold pass at h
  split at h
  · exact Or.inl h
  · split at h
    · exact Or.inl (by simpa using h)
    · split at h
      · exact Or.inl h
      · split at h
        · exact Or.inl h
        · rw [body_out] at h
          rcases fillGroups_mem h with h | ⟨xs, hxs, x, hx, hj, rfl⟩
          · exact Or.inl h
          · exact Or.inr ⟨x, ⟨xs, hxs, hx, hj⟩, rfl⟩

/-- **What holds of every entry the loop can make holds of everything stored.** -/
theorem passes_mem {Q : σ → Prop} {P : β → Prop}
    (hnext : ∀ p q, Q p → L.next p = some q → Q q)
    (hentry : ∀ p x, Q p → L.Stores p x → P (L.entry p x))
    (room : Option Nat) (n : Nat) {s : State σ β} (hpos : Q s.pos) (hout : ∀ e ∈ s.out, P e) :
    ∀ e ∈ (L.passes room n s).out, P e := by
  induction n with
  | zero => exact hout
  | succ n ih =>
      intro e he
      rw [passes_succ] at he
      rcases pass_mem he with he | ⟨x, hx, rfl⟩
      · exact ih e he
      · exact hentry _ _ (passes_pos hnext room n hpos) hx

/-! ### How long the list gets

`fits limit` says of the groups of a position that each one the loop comes to has room
below `limit` for everything it stores.
-/

def fits (L : Loop σ α β) (limit : Nat) (room : Option Nat) :
    Nat → List (Option (List α)) → Prop
  | _, [] => True
  | _, none :: _ => True
  | res, some xs :: gs =>
      (∀ n, room = some n → res < n) →
        res + (L.taken xs).length ≤ limit ∧
          (L.sig xs = .cont → fits L limit room (res + (L.taken xs).length) gs)

theorem full_false_iff {room : Option Nat} {out : List β} :
    full room out = false ↔ ∀ n, room = some n → out.length < n := by
  cases room <;> simp [full]

theorem fillGroups_le_iff (limit : Nat) (room : Option Nat) (p : σ)
    (gs : List (Option (List α))) :
    ∀ out : List β, out.length ≤ limit →
      ((L.fillGroups room p gs out).1.length ≤ limit ↔ L.fits limit room out.length gs) := by
  induction gs with
  | nil => intro out h; simpa [fillGroups, fits] using h
  | cons g gs ih =>
      intro out h
      by_cases hf : full room out = true
      · rw [fillGroups_of_full hf]
        have hno : ¬ ∀ n, room = some n → out.length < n := by
          rw [← full_false_iff]; simp [hf]
        cases g with
        | none => simpa [fits] using h
        | some xs => simp only [fits, hno, false_implies, iff_true]; exact h
      · have hf : full room out = false := by simpa using hf
        have hyes := full_false_iff.mp hf
        cases g with
        | none => rw [fillGroups_trap hf]; simpa [fits] using h
        | some xs =>
            rw [fillGroups_some hf]
            simp only [fits]
            have hlen : (out ++ (L.taken xs).map (L.entry p)).length
                = out.length + (L.taken xs).length := by simp
            have hpre := prefix_fillGroups (L := L) room p gs (out ++ (L.taken xs).map (L.entry p))
            split
            · rename_i hs
              constructor
              · intro hle _
                have hle' : out.length + (L.taken xs).length ≤ limit := by
                  rw [← hlen]; exact hpre.length_le.trans hle
                refine ⟨hle', fun _ => ?_⟩
                have := (ih (out ++ (L.taken xs).map (L.entry p)) (by rw [hlen]; exact hle')).mp hle
                rwa [hlen] at this
              · intro hfit
                obtain ⟨hle', hrest⟩ := hfit hyes
                refine (ih _ (by rw [hlen]; exact hle')).mpr ?_
                rw [hlen]
                exact hrest hs
            · rename_i hs
              simp only [hlen]
              constructor
              · intro hle _
                exact ⟨hle, fun hc => absurd hc hs⟩
              · intro hfit
                exact (hfit hyes).1

/-- The groups of the pass a state is about to make fit below `limit`. -/
def passFits (L : Loop σ α β) (limit : Nat) (room : Option Nat) (s : State σ β) : Prop :=
  s.stop = none → L.hop s.pos = false → full room s.out = false → L.tick s.tries ≠ none →
    L.fits limit room s.out.length (L.groups s.pos)

theorem pass_le_iff {limit : Nat} {room : Option Nat} {s : State σ β}
    (h : s.out.length ≤ limit) :
    (L.pass room s).out.length ≤ limit ↔ L.passFits limit room s := by
  unfold passFits
  by_cases hstop : s.stop = none
  · cases hh : L.hop s.pos with
    | true => simp [pass_hop room hstop hh, hstop, h]
    | false =>
        cases hf : full room s.out with
        | true => simp [pass_full hstop hh hf, hstop, h]
        | false =>
            cases ht : L.tick s.tries with
            | none => simp [pass_tired hstop hh hf ht, hstop, h]
            | some t =>
                simp only [pass_body hstop hh hf ht, body_out, hstop, ne_eq, reduceCtorEq,
                  not_false_eq_true, forall_const]
                exact fillGroups_le_iff limit room s.pos _ s.out h
  · rw [pass_of_stop room hstop]
    simp [hstop, h]

/-- **A run stays below a limit exactly if every pass of it fits.** -/
theorem passes_le_iff {limit : Nat} {room : Option Nat} {s : State σ β}
    (h : s.out.length ≤ limit) :
    (∀ n, (L.passes room n s).out.length ≤ limit)
      ↔ ∀ n, L.passFits limit room (L.passes room n s) := by
  constructor
  · intro hall n
    refine (pass_le_iff (hall n)).mp ?_
    rw [← passes_succ]
    exact hall (n + 1)
  · intro hfit n
    induction n with
    | zero => exact h
    | succ n ih => rw [passes_succ]; exact (pass_le_iff ih).mpr (hfit n)

/-- Where a position has at most one item a group, everything fits. -/
theorem fits_of_single {limit n : Nat} (h : n ≤ limit) {gs : List (Option (List α))}
    (hgs : ∀ xs, some xs ∈ gs → xs.length ≤ 1) :
    ∀ res : Nat, res ≤ limit → L.fits limit (some n) res gs := by
  induction gs with
  | nil => intro res _; trivial
  | cons g gs ih =>
      intro res hres
      cases g with
      | none => trivial
      | some xs =>
          intro hroom
          have hlt := hroom n rfl
          have hlen : (L.taken xs).length ≤ 1 :=
            (taken_length_le xs).trans (hgs xs List.mem_cons_self)
          exact ⟨by omega, fun _ =>
            ih (fun ys hys => hgs ys (List.mem_cons_of_mem _ hys)) _ (by omega)⟩

/-! ### Bounded and unlimited runs -/

theorem fillGroups_room (n : Nat) (p : σ) (gs : List (Option (List α))) :
    ∀ out : List β,
      L.fillGroups (some n) p gs out = L.fillGroups none p gs out ∨
        (n ≤ (L.fillGroups (some n) p gs out).1.length ∧
          (L.fillGroups (some n) p gs out).2 = .cont ∧
          (L.fillGroups (some n) p gs out).1 <+: (L.fillGroups none p gs out).1) := by
  induction gs with
  | nil => intro out; exact Or.inl rfl
  | cons g gs ih =>
      intro out
      by_cases hf : full (some n) out = true
      · refine Or.inr ?_
        rw [fillGroups_of_full hf]
        exact ⟨by simpa [full] using hf, rfl, prefix_fillGroups ..⟩
      · have hf : full (some n) out = false := by simpa using hf
        cases g with
        | none => exact Or.inl (by rw [fillGroups_trap hf, fillGroups_trap rfl])
        | some xs =>
            rw [fillGroups_some hf, fillGroups_some (show full none out = false from rfl)]
            split
            · exact ih _
            · exact Or.inl rfl

/-- A pass with a bounded buffer does what the unlimited one does, or leaves off in
between with the buffer full. -/
theorem pass_room (n : Nat) (s : State σ β) :
    L.pass (some n) s = L.pass none s ∨
      (n ≤ (L.pass (some n) s).out.length ∧ (L.pass (some n) s).out <+: (L.pass none s).out) := by
  by_cases hstop : s.stop = none
  · cases hh : L.hop s.pos with
    | true => exact Or.inl (by rw [pass_hop _ hstop hh, pass_hop _ hstop hh])
    | false =>
        cases hf : full (some n) s.out with
        | true =>
            refine Or.inr ?_
            rw [pass_full hstop hh hf]
            exact ⟨by simpa [full] using hf, show s.out <+: _ from prefix_pass none s⟩
        | false =>
            cases ht : L.tick s.tries with
            | none =>
                exact Or.inl (by rw [pass_tired hstop hh hf ht, pass_tired hstop hh rfl ht])
            | some t =>
                rw [pass_body hstop hh hf ht,
                  pass_body hstop hh (show full none s.out = false from rfl) ht]
                rcases fillGroups_room (L := L) n s.pos (L.groups s.pos) s.out with he | hr
                · exact Or.inl (by unfold body; rw [he])
                · refine Or.inr ?_
                  rw [body_out, body_out]
                  exact ⟨hr.1, hr.2.2⟩
  · exact Or.inl (by rw [pass_of_stop _ hstop, pass_of_stop _ hstop])

/-- **The bounded run is the unlimited one until its buffer is full**, and a prefix of
it from then on. -/
theorem bounded_or_full (n : Nat) (s : State σ β) (k : Nat) :
    L.passes (some n) k s = L.passes none k s ∨
      (n ≤ (L.passes (some n) k s).out.length ∧
        (L.passes (some n) k s).out <+: (L.passes none k s).out) := by
  induction k with
  | zero => exact Or.inl rfl
  | succ k ih =>
      rw [passes_succ, passes_succ]
      rcases ih with he | ⟨hlen, hpre⟩
      · rw [he]; exact pass_room n _
      · refine Or.inr ⟨hlen.trans (prefix_pass (L := L) (some n) _).length_le, ?_⟩
        -- a full buffer takes nothing more
        have hout : (L.pass (some n) (L.passes (some n) k s)).out
            = (L.passes (some n) k s).out := by
          set b := L.passes (some n) k s
          have hf : full (some n) b.out = true := by simpa [full] using hlen
          by_cases hstop : b.stop = none
          · cases hh : L.hop b.pos with
            | true => rw [pass_hop _ hstop hh]; simp
            | false => rw [pass_full hstop hh hf]
          · rw [pass_of_stop _ hstop]
        rw [hout]
        exact hpre.trans (prefix_pass ..)

theorem prefix_bounded (n : Nat) (s : State σ β) (k : Nat) :
    (L.passes (some n) k s).out <+: (L.passes none k s).out := by
  rcases bounded_or_full (L := L) n s k with he | h
  · rw [he]
  · exact h.2

theorem bounded_eq_of_lt {n : Nat} {s : State σ β} {k : Nat}
    (h : (L.passes none k s).out.length < n) : L.passes (some n) k s = L.passes none k s := by
  rcases bounded_or_full (L := L) n s k with he | ⟨hlen, hpre⟩
  · exact he
  · have := hpre.length_le
    omega

/-! ### Halting -/

/-- The run stops after some number of passes. -/
def Halts (L : Loop σ α β) (room : Option Nat) (s : State σ β) : Prop :=
  ∃ n, (L.passes room n s).stop ≠ none

theorem halts_of_full {n : Nat} {s : State σ β} (hop : ∀ p, L.hop p = false) {k : Nat}
    (h : n ≤ (L.passes (some n) k s).out.length) : L.Halts (some n) s := by
  refine ⟨k + 1, ?_⟩
  rw [passes_succ]
  set b := L.passes (some n) k s
  by_cases hstop : b.stop = none
  · rw [pass_full hstop (hop _) (by simpa [full] using h)]
    simp
  · rw [pass_of_stop _ hstop]
    exact hstop

/-- **A loop without hops stops exactly if the unlimited run stops or stores enough.** -/
theorem halts_iff {n : Nat} {s : State σ β} (hop : ∀ p, L.hop p = false) :
    L.Halts (some n) s ↔
      ∃ k, (L.passes none k s).stop ≠ none ∨ n ≤ (L.passes none k s).out.length := by
  constructor
  · rintro ⟨k, hk⟩
    rcases bounded_or_full (L := L) n s k with he | ⟨hlen, hpre⟩
    · exact ⟨k, Or.inl (by rw [← he]; exact hk)⟩
    · exact ⟨k, Or.inr (hlen.trans hpre.length_le)⟩
  · rintro ⟨k, hk⟩
    rcases bounded_or_full (L := L) n s k with he | ⟨hlen, -⟩
    · rcases hk with hstop | hlen
      · exact ⟨k, by rw [he]; exact hstop⟩
      · exact halts_of_full hop (by rw [he]; exact hlen)
    · exact halts_of_full hop hlen

/-- From this position the loop comes to one it does not step over, or to one that has
no next. -/
inductive Lands (L : Loop σ α β) : σ → Prop
  | here {p : σ} (h : L.hop p = false) : Lands L p
  | trap {p : σ} (h : L.next p = none) : Lands L p
  | hop {p q : σ} (h : L.next p = some q) (hq : Lands L q) : Lands L p

/-- Passes over hops lead to a body position or end the run, and store nothing. -/
theorem passes_of_lands (room : Option Nat) {p : σ} (h : L.Lands p) :
    ∀ s : State σ β, s.pos = p → s.stop = none →
      ∃ k, (L.passes room k s).stop ≠ none ∨
        ((L.passes room k s).stop = none ∧ L.hop (L.passes room k s).pos = false ∧
          (L.passes room k s).out = s.out ∧ (L.passes room k s).tries = s.tries) := by
  induction h with
  | @here p h =>
      intro s hp hstop
      exact ⟨0, Or.inr ⟨hstop, by rw [passes_zero, hp]; exact h, rfl, rfl⟩⟩
  | @trap p h =>
      intro s hp hstop
      cases hh : L.hop p with
      | false => exact ⟨0, Or.inr ⟨hstop, by rw [passes_zero, hp]; exact hh, rfl, rfl⟩⟩
      | true =>
          refine ⟨1, Or.inl ?_⟩
          rw [passes_succ, passes_zero, pass_hop _ hstop (by rw [hp]; exact hh)]
          simp [advance, hp, h]
  | @hop p q h _ ih =>
      intro s hp hstop
      cases hh : L.hop p with
      | false => exact ⟨0, Or.inr ⟨hstop, by rw [passes_zero, hp]; exact hh, rfl, rfl⟩⟩
      | true =>
          have hadv : L.pass room s = { s with pos := q } := by
            rw [pass_hop _ hstop (by rw [hp]; exact hh)]
            simp [advance, hp, h]
          obtain ⟨k, hk⟩ := ih { s with pos := q } rfl hstop
          refine ⟨k + 1, ?_⟩
          rw [passes_succ', hadv]
          exact hk

/-- What bounds a run with a counter: the slots left, each worth a reload, and the
counter. -/
def budget (r n : Nat) (s : State σ β) : Nat := (n - s.out.length) * (r + 1) + s.tries

/-- The body position of a counting loop costs something of the budget. -/
theorem body_budget {r n t : Nat} (hr : L.reload = some r) {s : State σ β}
    (hf : full (some n) s.out = false) (ht : L.tick s.tries = some t) :
    budget r n (L.body (some n) t s) < budget r n s ∨ (L.body (some n) t s).stop ≠ none := by
  have hlt : s.out.length < n := full_false_iff.mp hf n rfl
  have hpre := prefix_fillGroups (L := L) (some n) s.pos (L.groups s.pos) s.out
  have htick : 1 < s.tries ∧ t = s.tries - 1 := by
    unfold tick at ht
    rw [hr] at ht
    simp only at ht
    split at ht
    · simp at ht
    · simp only [Option.some.injEq] at ht
      omega
  unfold body
  dsimp only
  set r' := L.fillGroups (some n) s.pos (L.groups s.pos) s.out with hr'
  have hle := hpre.length_le
  split
  · exact Or.inr (by simp)
  · exact Or.inr (by simp)
  · refine Or.inl ?_
    simp only [budget, advance_out, advance_tries, retry, hr]
    by_cases hstored : s.out.length < r'.1.length
    · -- something was stored: a slot is gone, and a slot is worth more than the reload
      simp only [hstored, decide_true, if_true]
      have hstep : (n - r'.1.length + 1) * (r + 1) ≤ (n - s.out.length) * (r + 1) :=
        Nat.mul_le_mul_right _ (by omega)
      have hexp : (n - r'.1.length + 1) * (r + 1)
          = (n - r'.1.length) * (r + 1) + (r + 1) := by ring
      omega
    · simp only [hstored, decide_false, Bool.false_eq_true, if_false]
      have heq : r'.1.length = s.out.length := by omega
      rw [heq]
      omega

/-- **A counting loop without hops stops within its budget.** -/
theorem stop_of_budget {r : Nat} (hr : L.reload = some r) (hop : ∀ p, L.hop p = false) (n : Nat) :
    ∀ (b : Nat) (s : State σ β), budget r n s ≤ b → (L.passes (some n) (b + 1) s).stop ≠ none := by
  intro b
  induction b with
  | zero =>
      intro s hb
      rw [passes_succ, passes_zero]
      by_cases hstop : s.stop = none
      · cases hf : full (some n) s.out with
        | true =>
            rw [pass_full hstop (hop _) hf]
            simp
        | false =>
            have htick : L.tick s.tries = none := by
              unfold budget at hb
              unfold tick
              rw [hr]
              exact if_pos (by omega)
            rw [pass_tired hstop (hop _) hf htick]
            simp
      · rw [pass_of_stop _ hstop]
        exact hstop
  | succ b ih =>
      intro s hb
      rw [passes_succ']
      have hkeep : (L.pass (some n) s).stop ≠ none →
          (L.passes (some n) (b + 1) (L.pass (some n) s)).stop ≠ none := fun h => by
        rw [passes_of_stop _ h]
        exact h
      by_cases hstop : s.stop = none
      · cases hf : full (some n) s.out with
        | true =>
            refine hkeep ?_
            rw [pass_full hstop (hop _) hf]
            simp
        | false =>
            cases ht : L.tick s.tries with
            | none =>
                refine hkeep ?_
                rw [pass_tired hstop (hop _) hf ht]
                simp
            | some t =>
                rw [pass_body hstop (hop _) hf ht] at hkeep ⊢
                rcases body_budget (L := L) hr hf ht with hlt | hst
                · exact ih _ (by omega)
                · exact hkeep hst
      · refine hkeep ?_
        rw [pass_of_stop _ hstop]
        exact hstop

/-- **A counting loop stops if its hops always land.**  `Q` holds of the positions the
loop can be at. -/
theorem halts_of_reload {r : Nat} (hr : L.reload = some r) {Q : σ → Prop}
    (hland : ∀ p, Q p → L.Lands p) (hnext : ∀ p q, Q p → L.next p = some q → Q q) (n : Nat) :
    ∀ (b : Nat) (s : State σ β), budget r n s ≤ b → Q s.pos → s.stop = none →
      L.Halts (some n) s := by
  have hkeep : ∀ (k : Nat) (s : State σ β), Q s.pos → Q (L.passes (some n) k s).pos :=
    fun k _ h => passes_pos hnext (some n) k h
  intro b
  induction b with
  | zero =>
      intro s hb hQ hstop
      obtain ⟨k, hk⟩ := passes_of_lands (some n) (hland _ hQ) s rfl hstop
      rcases hk with hk | ⟨hs, hh, hout, htr⟩
      · exact ⟨k, hk⟩
      · -- nothing is left: the counter has run out, or the buffer is full
        refine ⟨k + 1, ?_⟩
        rw [passes_succ]
        set s' := L.passes (some n) k s
        have hb' : budget r n s' = 0 := by unfold budget at hb ⊢; rw [hout, htr]; omega
        cases hf : full (some n) s'.out with
        | true => rw [pass_full hs hh hf]; simp
        | false =>
            have htick : L.tick s'.tries = none := by
              unfold tick
              rw [hr]
              simp only [budget] at hb'
              simp
              omega
            rw [pass_tired hs hh hf htick]
            simp
  | succ b ih =>
      intro s hb hQ hstop
      obtain ⟨k, hk⟩ := passes_of_lands (some n) (hland _ hQ) s rfl hstop
      rcases hk with hk | ⟨hs, hh, hout, htr⟩
      · exact ⟨k, hk⟩
      · have hQ' : Q (L.passes (some n) (k + 1) s).pos := hkeep (k + 1) s hQ
        have hsucc := passes_succ (L := L) (some n) k s
        set s' := L.passes (some n) k s
        have hb' : budget r n s' ≤ b + 1 := by unfold budget at hb ⊢; rw [hout, htr]; exact hb
        cases hf : full (some n) s'.out with
        | true => exact ⟨k + 1, by rw [hsucc, pass_full hs hh hf]; simp⟩
        | false =>
            cases ht : L.tick s'.tries with
            | none => exact ⟨k + 1, by rw [hsucc, pass_tired hs hh hf ht]; simp⟩
            | some t =>
                rw [pass_body hs hh hf ht] at hsucc
                rcases body_budget (L := L) hr hf ht with hlt | hst
                · by_cases hstop' : (L.body (some n) t s').stop = none
                  · rw [hsucc] at hQ'
                    obtain ⟨j, hj⟩ := ih (L.body (some n) t s') (by omega) hQ' hstop'
                    refine ⟨k + 1 + j, ?_⟩
                    rw [passes_add, hsucc]
                    exact hj
                  · exact ⟨k + 1, by rw [hsucc]; exact hstop'⟩
                · exact ⟨k + 1, by rw [hsucc]; exact hst⟩

end Loop

end FillLoop
