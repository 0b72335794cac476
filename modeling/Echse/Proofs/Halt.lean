/-
When the expanders return.

`rrul_fill_yly` and `rrul_fill_mly` count the passes that have stored nothing, the other
loops do not.  So yearly rules always come to an end; monthly rules do if the search for
the next listed month does, which steps by INTERVAL; and the others come to an end only
by what they find, a date past UNTIL or enough events.
-/
import Echse.Expand
import Echse.Proofs.Snarf
import Echse.Lib.FillOrbit

namespace Echse

open FillLoop (Loop)

namespace Expander

/-- The expander returns to its caller. -/
def Returns (X : Expander) : Prop := ∃ n, (X.after n).stop = some .done

/-- The run never comes to a division by a month length of 0 nor to a month past the
end of the month tables. -/
def Defined (X : Expander) : Prop := ∀ n, (X.after n).stop ≠ some .trap

theorem returns_of_done {X : Expander} (h : X.start = .error .done) : X.Returns :=
  ⟨0, by simp [after, Loop.passes, init, h]⟩

theorem defined_of_returns {X : Expander} (h : X.Returns) : X.Defined := by
  intro n hn
  exact (Loop.returns_iff.mp h).1 ⟨n, hn⟩

theorem not_defined_of_trap {X : Expander} (h : X.start = .error .trap) : ¬ X.Defined := by
  intro hd
  exact hd 0 (by simp [after, Loop.passes, init, h])

theorem returns_ok_iff {X : Expander} {p : Pos} (h : X.start = .ok p) :
    X.Returns ↔ X.loop.Returns (some X.room) (X.loop.start p) := by
  unfold Returns after init Loop.Returns
  rw [h]

theorem defined_ok_iff {X : Expander} {p : Pos} (h : X.start = .ok p) :
    X.Defined ↔ ¬ X.loop.Traps (some X.room) (X.loop.start p) := by
  unfold Defined after init Loop.Traps
  rw [h]
  exact not_exists.symm

/-- What the run needs to come to an end, given a start. -/
theorem returns_iff_of {X : Expander} {C : Pos → Prop}
    (h : ∀ p, X.start = .ok p → (X.loop.Returns (some X.room) (X.loop.start p) ↔
      ¬ X.loop.Traps (some X.room) (X.loop.start p) ∧ C p)) :
    X.Returns ↔ X.Defined ∧ ∀ p, X.start = .ok p → C p := by
  cases hs : X.start with
  | ok p =>
      rw [returns_ok_iff hs, defined_ok_iff hs, h p hs]
      simp
  | error w =>
      cases w with
      | done =>
          have hret := returns_of_done hs
          simp [hret, defined_of_returns hret]
      | trap =>
          have hno := not_defined_of_trap hs
          simp only [hno, false_and, iff_false]
          exact fun hret => hno (defined_of_returns hret)

end Expander

/-! ### Yearly

No date is out of reach of the tables, and the counter sees to the rest.
-/

theorem none_not_mem_candGroups (e : Enum) (ms y : Nat) (c : Cands) :
    none ∉ candGroups e ms y c := by
  simp [candGroups]

/-- **A yearly rule always comes to an end.** -/
theorem rrulFillYly_returns (tgt : Instant) (nti : Nat) (rr : Rrulsp) :
    (rrulFillYly tgt nti rr).Returns := by
  set X := rrulFillYly tgt nti rr
  cases hs : X.start with
  | error w =>
      have hw : w = .done := by
        change (if _ then _ else _) = _ at hs
        split at hs
        · exact (Except.error.inj hs).symm
        · cases hs
      exact Expander.returns_of_done (hw ▸ hs)
  | ok p =>
      rw [Expander.returns_ok_iff hs, Loop.returns_iff]
      constructor
      · refine Loop.not_traps (Q := fun _ => True) (fun _ _ _ _ => trivial) ?_ ?_ _ trivial ?_
        · intro q _
          change none ∉ candGroups _ _ _ _
          exact none_not_mem_candGroups _ _ _ _
        · intro q _ h
          cases h
        · simp [Loop.start]
      · exact Loop.halts_of_reload (r := 64) rfl (Q := fun _ => True)
          (fun _ _ => Loop.Lands.here rfl) (fun _ _ _ _ => trivial) _ _ _ le_rfl trivial rfl

/-! ### Monthly

Months repeat after twelve steps, so a loop that has come to a listed month comes to one
again.  Only an INTERVAL that overflows `m` breaks this, and there `m` goes down to a
negative number, where the search has no result.
-/

section Monthly

variable {proto : Instant} {nti : Nat} {rr : Rrulsp}

theorem mly_hop_eq {p q : Pos} (h : p.m = q.m) :
    (mlyLoop proto nti rr).hop p = (mlyLoop proto nti rr).hop q := by
  change (_ && !bui31HasBit rr.mon p.m) = (_ && !bui31HasBit rr.mon q.m)
  rw [h]

/-- The month a step leads to, as far as the search goes on. -/
theorem mly_next_m (hmon : bui31HasBits rr.mon = true) {p q : Pos}
    (h : (mlyLoop proto nti rr).next p = some q) :
    u32 (p.m + rr.inter) < 2147483648 ∧
      q.m = if 12 < u32 (p.m + rr.inter) then (u32 (p.m + rr.inter) - 1) % 12 + 1
        else u32 (p.m + rr.inter) := by
  change (if bui31HasBits rr.mon && 2147483648 ≤ (mlyStep rr.inter p).m then none
    else some (mlyStep rr.inter p)) = some q at h
  rw [hmon] at h
  by_cases hbig : 2147483648 ≤ (mlyStep rr.inter p).m
  · simp [hbig] at h
  · simp only [hbig, decide_false, Bool.and_false, Bool.false_eq_true, if_false,
      Option.some.injEq] at h
    rw [← h]
    unfold mlyStep at hbig ⊢
    dsimp only at hbig ⊢
    split
    · rename_i hm
      refine ⟨hm.2, ?_⟩
      rw [if_pos hm.1]
    · rename_i hm
      rw [if_neg hm] at hbig
      dsimp only at hbig
      refine ⟨by omega, ?_⟩
      dsimp only
      rw [if_neg (by omega)]

theorem mly_next_le (hmon : bui31HasBits rr.mon = true) {p q : Pos}
    (h : (mlyLoop proto nti rr).next p = some q) : q.m ≤ 12 := by
  obtain ⟨-, hq⟩ := mly_next_m hmon h
  split at hq <;> omega

/-- From a month some steps before a listed one. -/
theorem mly_lands_before (hmon : bui31HasBits rr.mon = true)
    (hinter : rr.inter % 4294967296 < 2147483648) {r : Pos}
    (hr : (mlyLoop proto nti rr).hop r = false) (hr12 : 1 ≤ r.m ∧ r.m ≤ 12) (j : Nat) :
    ∀ p : Pos, 1 ≤ p.m → p.m ≤ 12 → (p.m + j * (rr.inter % 4294967296)) % 12 = r.m % 12 →
      (mlyLoop proto nti rr).Lands p := by
  induction j with
  | zero =>
      intro p h1 h12 hmod
      exact Loop.Lands.here ((mly_hop_eq (by omega)).trans hr)
  | succ j ih =>
      intro p h1 h12 hmod
      cases hn : (mlyLoop proto nti rr).next p with
      | none => exact Loop.Lands.trap hn
      | some q =>
          obtain ⟨hlt, hq⟩ := mly_next_m hmon hn
          have hu : u32 (p.m + rr.inter) = p.m + rr.inter % 4294967296 := by
            unfold u32 at hlt ⊢
            omega
          rw [hu] at hq
          have hmul : (j + 1) * (rr.inter % 4294967296)
              = j * (rr.inter % 4294967296) + rr.inter % 4294967296 := by ring
          rw [hmul] at hmod
          generalize rr.inter % 4294967296 = inter at hq hmod ih hlt
          generalize hji : j * inter = ji at hmod ih
          refine Loop.Lands.hop hn (ih q ?_ ?_ ?_)
          · split at hq <;> omega
          · split at hq <;> omega
          · split at hq <;> omega

/-- Where a step goes back, it does so until it cannot be taken. -/
theorem mly_lands_back (hmon : bui31HasBits rr.mon = true)
    (hinter : 2147483648 ≤ rr.inter % 4294967296) (m : Nat) :
    ∀ p : Pos, p.m = m → p.m ≤ 12 → (mlyLoop proto nti rr).Lands p := by
  induction m using Nat.strong_induction_on with
  | _ m ih =>
      intro p hp h12
      cases hn : (mlyLoop proto nti rr).next p with
      | none => exact Loop.Lands.trap hn
      | some q =>
          obtain ⟨hlt, hq⟩ := mly_next_m hmon hn
          have hback : u32 (p.m + rr.inter) < p.m := by
            unfold u32 at hlt ⊢
            omega
          rw [if_neg (by omega)] at hq
          exact Loop.Lands.hop hn (ih q.m (by omega) q rfl (by omega))

/-- What holds of the months the search comes to. -/
def MlyAt (proto : Instant) (nti : Nat) (rr : Rrulsp) (p : Pos) : Prop :=
  p.m ≤ 12 ∧ (rr.inter % 4294967296 < 2147483648 → 1 ≤ p.m) ∧ (mlyLoop proto nti rr).Lands p

theorem mlyAt_next (hmon : bui31HasBits rr.mon = true) {p q : Pos} (h : MlyAt proto nti rr p)
    (hn : (mlyLoop proto nti rr).next p = some q) : MlyAt proto nti rr q := by
  obtain ⟨h12, h1, hlands⟩ := h
  obtain ⟨hlt, hq⟩ := mly_next_m hmon hn
  have hq12 := mly_next_le hmon hn
  have hq1 : rr.inter % 4294967296 < 2147483648 → 1 ≤ q.m := by
    intro hinter
    have := h1 hinter
    have hu : u32 (p.m + rr.inter) = p.m + rr.inter % 4294967296 := by
      unfold u32
      omega
    rw [hu] at hq
    split at hq <;> omega
  refine ⟨hq12, hq1, ?_⟩
  by_cases hinter : rr.inter % 4294967296 < 2147483648
  · cases hlands with
    | hop hn' hq' =>
        rw [hn] at hn'
        cases hn'
        exact hq'
    | trap hn' => rw [hn] at hn'; cases hn'
    | here hh =>
        -- eleven more steps from the next month lead to this one again
        refine mly_lands_before hmon hinter hh ⟨h1 hinter, h12⟩ 11 q (hq1 hinter) hq12 ?_
        have hu : u32 (p.m + rr.inter) = p.m + rr.inter % 4294967296 := by
          unfold u32 at hlt ⊢
          omega
        rw [hu] at hq
        split at hq <;> omega
  · exact mly_lands_back hmon (by omega) q.m q rfl hq12

theorem mly_halts_of_at (room : Nat) {p : Pos} (hmon : bui31HasBits rr.mon = true)
    (h : MlyAt proto nti rr p) :
    (mlyLoop proto nti rr).Halts (some room) ((mlyLoop proto nti rr).start p) :=
  Loop.halts_of_reload (r := 64) rfl (Q := MlyAt proto nti rr) (fun _ h => h.2.2)
    (fun _ _ h hn => mlyAt_next hmon h hn) room _ _ le_rfl h rfl

theorem mly_halts {room : Nat} {p : Pos} (hp : 1 ≤ p.m ∧ p.m < 2147483648)
    (h : (mlyLoop proto nti rr).LandsFrom p) :
    (mlyLoop proto nti rr).Halts (some room) ((mlyLoop proto nti rr).start p) := by
  cases hmon : bui31HasBits rr.mon with
  | false =>
      refine Loop.halts_of_reload (r := 64) rfl (Q := fun _ => True) (fun q _ => ?_)
        (fun _ _ _ _ => trivial) room _ _ le_rfl trivial rfl
      exact Loop.Lands.here (by change (bui31HasBits rr.mon && _) = false; rw [hmon]; rfl)
  | true =>
      have hlands := Loop.lands_of_landsFrom h
      by_cases h12 : p.m ≤ 12
      · exact mly_halts_of_at room hmon ⟨h12, fun _ => hp.1, hlands⟩
      · cases hh : (mlyLoop proto nti rr).hop p with
        | true =>
            -- the first step leads into the year
            cases hlands with
            | here hh' => rw [hh] at hh'; cases hh'
            | trap hn =>
                refine ⟨1, ?_⟩
                rw [Loop.passes_succ, Loop.passes_zero, Loop.pass_hop _ rfl hh]
                have hpos : ((mlyLoop proto nti rr).start p).pos = p := rfl
                simp [Loop.advance, hpos, hn]
            | @hop _ q hn hq =>
                have hat : MlyAt proto nti rr q := by
                  obtain ⟨hlt, hqm⟩ := mly_next_m hmon hn
                  refine ⟨mly_next_le hmon hn, fun hinter => ?_, hq⟩
                  unfold u32 at hlt hqm
                  split at hqm <;> omega
                obtain ⟨k, hk⟩ := mly_halts_of_at room hmon hat
                refine ⟨k + 1, ?_⟩
                rw [Loop.passes_succ', Loop.pass_hop _ rfl hh]
                have hadv : (mlyLoop proto nti rr).advance ((mlyLoop proto nti rr).start p)
                    = (mlyLoop proto nti rr).start q := by
                  have hpos : ((mlyLoop proto nti rr).start p).pos = p := rfl
                  simp only [Loop.advance, hpos, hn]
                  rfl
                rw [hadv]
                exact hk
        | false =>
            -- there is no such month to look up
            refine ⟨1, ?_⟩
            rw [Loop.passes_succ, Loop.passes_zero]
            cases hf : Loop.full (some room) ((mlyLoop proto nti rr).start p).out with
            | true => rw [Loop.pass_full rfl hh hf]; simp
            | false =>
                rw [Loop.pass_body rfl hh hf (t := 63) rfl]
                have hgroups : (mlyLoop proto nti rr).groups p = [none] := by
                  change (if p.m = 0 ∨ 12 < p.m then _ else _) = _
                  rw [if_pos (by omega)]
                have hpos : ((mlyLoop proto nti rr).start p).pos = p := rfl
                unfold Loop.body
                dsimp only
                rw [hpos, hgroups, Loop.fillGroups_trap hf]
                simp

end Monthly

theorem mlyStart_m_range (proto : Instant) {sh : Int}
    (h : IsInt sh) :
    1 ≤ (mlyStart proto sh).m ∧ (mlyStart proto sh).m < 2147483648 := by
  have hm := proto.fits.2.1
  unfold IsInt at h
  have hb : (echsShiftBvalue sh).natAbs < 16384 := by
    unfold echsShiftBvalue shiftLow
    split <;> omega
  have h75 := Int.natAbs_tdiv_le_natAbs (echsShiftBvalue sh * 7) 5
  have h30 := fun tmp : Int => Int.natAbs_tdiv_le_natAbs (tmp - 1) 30
  unfold mlyStart echsShiftDvalue
  dsimp only
  generalize Int.tdiv (echsShiftBvalue sh * 7) 5 = b at h75 ⊢
  specialize h30 (sh / 65536 + b)
  generalize Int.tdiv (sh / 65536 + b - 1) 30 = t at h30 ⊢
  have hbm : (echsShiftBvalue sh * 7).natAbs < 114688 := by omega
  constructor
  · split <;> omega
  · split_ifs <;> omega

theorem rrulFillMly_start {tgt : Instant} {nti : Nat} {rr : Rrulsp} {p : Pos}
    (h : (rrulFillMly tgt nti rr).start = .ok p) : p = mlyStart (protoOf tgt rr) rr.shift := by
  change (if _ then _ else _) = _ at h
  split at h
  · cases h
  · split at h
    · cases h
    · split at h
      · split at h
        · cases h
        · split at h
          · exact (Except.ok.inj h).symm
          · cases h
      · exact (Except.ok.inj h).symm

/-- **A monthly rule comes to an end exactly if, short of a trap, the search for a listed
month does.** -/
theorem rrulFillMly_returns_iff (tgt : Instant) (nti : Nat) {rr : Rrulsp} (hrr : rr.Typed) :
    (rrulFillMly tgt nti rr).Returns ↔ (rrulFillMly tgt nti rr).Defined ∧
      ∀ p, (rrulFillMly tgt nti rr).start = .ok p → (rrulFillMly tgt nti rr).loop.LandsFrom p := by
  refine Expander.returns_iff_of fun p hp => ?_
  constructor
  · intro hret
    refine ⟨(Loop.returns_iff.mp hret).1, ?_⟩
    obtain ⟨n, hn⟩ := hret
    exact Loop.landsFrom_of_returns n _ rfl hn
  · rintro ⟨hno, hlands⟩
    refine Loop.returns_iff.mpr ⟨hno, mly_halts ?_ hlands⟩
    rw [rrulFillMly_start hp]
    exact mlyStart_m_range _ hrr.shift

/-! ### The loops without a counter -/

/-- The expanders that do not count fruitless passes. -/
def untiring : List (Instant → Nat → Rrulsp → Expander) :=
  [rrulFillWly, rrulFillDly, rrulFillHly, rrulFillMinly, rrulFillSly]

theorem plain_of_mem_untiring {f : Instant → Nat → Rrulsp → Expander} (hf : f ∈ untiring)
    (tgt : Instant) (nti : Nat) (rr : Rrulsp) : (f tgt nti rr).loop.Plain := by
  simp only [untiring, List.mem_cons, List.not_mem_nil, or_false] at hf
  rcases hf with rfl | rfl | rfl | rfl | rfl
  · exact ⟨fun _ => rfl, rfl⟩
  · unfold rrulFillDly
    dsimp only
    split <;> exact ⟨fun _ => rfl, rfl⟩
  · exact ⟨fun _ => rfl, rfl⟩
  · exact ⟨fun _ => rfl, rfl⟩
  · exact ⟨fun _ => rfl, rfl⟩

/-- **They come to an end exactly if, short of a trap, one of the dates they go through is
past UNTIL or the dates have enough events to fill the buffer.** -/
theorem untiring_returns_iff (tgt : Instant) (nti : Nat) (rr : Rrulsp) :
    ∀ f ∈ untiring, (f tgt nti rr).Returns ↔ (f tgt nti rr).Defined ∧
      ∀ p, (f tgt nti rr).start = .ok p →
        (f tgt nti rr).loop.Finishes p ∨ (f tgt nti rr).loop.Supplies p (f tgt nti rr).room :=
  fun _ hf => Expander.returns_iff_of fun p _ =>
    Loop.returns_plain_iff (plain_of_mem_untiring hf tgt nti rr) _ p

/-! ### All of them -/

end Echse
