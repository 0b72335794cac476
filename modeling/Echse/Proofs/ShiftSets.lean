/-
`shift` on a set of candidates.

Days and then business days are moved by.  In between the three buckets are merged into one, which
is no loss if the other two are empty.
-/
import Echse.Proofs.Shifts

namespace Echse

open Gregorian (dayNo Valid yearStart weekday)

/-! ### Merging with nothing -/

/-- A set of codes as assigning makes it, whose bits have the mark. -/
def Marked : Bitints → Prop
  | .native _ => True
  | .bits b => b % 2 = 1

theorem marked_ass {c : Bitints} (h : Marked c) {x : Int} (hc : CodeSet c) (hx : 1 ≤ x) :
    Marked (assBi383 c x) := by
  have hkeep : ∀ {b : Nat} {z : Int}, b.testBit 0 = true → 1 ≤ z →
      (assBs 12 b z).testBit 0 = true := by
    intro b z hb hz
    rw [testBit_assBs hz, hb]
    rfl
  cases c with
  | native xs =>
      unfold assBi383 assBints
      dsimp only
      split
      · trivial
      · have hfold : ∀ (ys : List Int) (b : Nat), (∀ z ∈ ys, 1 ≤ z) → b.testBit 0 = true →
            (ys.foldl (assBs 12) b).testBit 0 = true := by
          intro ys b hys hb
          rw [testBit_foldl_assBs hys]
          exact Or.inl hb
        have hbit := hkeep (hfold xs 1 (fun z hz => (hc.2.2 z hz).1) rfl) hx
        rw [Nat.testBit_zero, decide_eq_true_eq] at hbit
        exact hbit
  | bits b =>
      have hb : b.testBit 0 = true := by
        rw [Nat.testBit_zero]
        exact decide_eq_true h
      have hbit := hkeep hb hx
      rw [Nat.testBit_zero, decide_eq_true_eq] at hbit
      exact hbit

theorem length_words (bi : Bitints) (h : ∀ xs, bi = .native xs → xs.length ≤ 12) :
    bi.words.length = 24 := by
  cases bi with
  | native xs =>
      have hlen := h xs rfl
      simp [Bitints.words]
      omega
  | bits b => simp [Bitints.words]

theorem words_nil : Bitints.nil.words = List.replicate 24 0 := rfl

theorem zipWith_xor_zero (ws : List Nat) : ∀ n, ws.length ≤ n →
    List.zipWith Nat.xor ws (List.replicate n 0) = ws := by
  induction ws with
  | nil => exact fun n _ => by simp
  | cons w ws ih =>
      intro n hn
      obtain ⟨n, rfl⟩ : ∃ k, n = k + 1 := ⟨n - 1, by simp at hn; omega⟩
      rw [List.replicate_succ, List.zipWith_cons_cons, ih n (by simpa using hn)]
      exact congrArg (· :: ws) (Nat.xor_zero w)

/-- The words of a number make it up again. -/
theorem ofWords_digits (n b : Nat) (hb : b < 2 ^ (32 * n)) :
    ((List.range n).map fun k => b >>> (32 * k) % 2 ^ 32).foldr
      (fun w acc => acc * 2 ^ 32 + w) 0 = b := by
  induction n generalizing b with
  | zero =>
      simp at hb
      simp [hb]
  | succ n ih =>
      have htail : (List.range (n + 1)).map (fun k => b >>> (32 * k) % 2 ^ 32) =
          b % 2 ^ 32 :: (List.range n).map fun k => (b >>> 32) >>> (32 * k) % 2 ^ 32 := by
        rw [List.range_succ_eq_map, List.map_cons, List.map_map]
        congr 1
        refine List.map_congr_left fun k _ => ?_
        show b >>> (32 * (k + 1)) % 2 ^ 32 = _
        rw [← Nat.shiftRight_add, Nat.mul_succ, Nat.add_comm 32]
      have hlt : b >>> 32 < 2 ^ (32 * n) := by
        rw [Nat.shiftRight_eq_div_pow]
        refine Nat.div_lt_of_lt_mul ?_
        rwa [← Nat.pow_add, Nat.add_comm, ← Nat.mul_succ]
      rw [htail, List.foldr_cons, ih _ hlt, Nat.shiftRight_eq_div_pow]
      exact Nat.div_add_mod' b (2 ^ 32)

/-- A set of codes is what its words say. -/
theorem ofWords_words {c : Bitints} (h : CodeSet c) (hm : Marked c) : .ofWords c.words = c := by
  cases c with
  | native xs =>
      obtain ⟨hlen, -, hrange⟩ := h
      have hback : (xs.map (wordOfInt 32)).map (intOfWord 32) = xs := by
        rw [List.map_map]
        refine (List.map_congr_left fun x hx => ?_).trans (List.map_id xs)
        have := hrange x hx
        exact intOfWord_wordOfInt (by decide) (by norm_num; omega) (by norm_num; omega)
      have hdrop : (Bitints.native xs).words.drop 12 =
          xs.map (wordOfInt 32) ++ List.replicate (12 - xs.length) 0 := by
        unfold Bitints.words
        exact List.drop_left' (by simp)
      have hhead : (Bitints.native xs).words.headD 0 = 2 * xs.length := rfl
      unfold Bitints.ofWords
      rw [hhead, if_neg (by omega), hdrop, Nat.mul_div_cancel_left _ (by decide),
        List.take_left' (by simp), hback]
  | bits b =>
      have hlt : ∀ n, 384 ≤ n → b < 2 ^ n := by
        refine fun n hn => Nat.lt_pow_two_of_testBit b fun i hi => ?_
        by_contra hbit
        have := h i (by simpa using hbit)
        omega
      have hhead : (Bitints.bits b).words.headD 0 = b % 2 ^ 32 := rfl
      have hodd : b % 2 ^ 32 % 2 = 1 := by
        rw [Nat.mod_mod_of_dvd b (dvd_pow_self 2 (by decide))]
        exact hm
      unfold Bitints.ofWords
      rw [hhead, if_pos hodd]
      exact congrArg Bitints.bits (ofWords_digits 24 b (hlt _ (by decide)))

theorem xor_nil {c : Bitints} (h : CodeSet c) (hm : Marked c) : c.xor .nil = c := by
  have hlen := length_words c fun xs hxs => by
    subst hxs
    exact h.1
  unfold Bitints.xor
  rw [words_nil, zipWith_xor_zero _ 24 hlen.le, ofWords_words h hm]

/-! ### One bucket -/

theorem foldl_put_this {xs : List Int} (yr : Int → Nat) (code : Int → Int) (y : Nat)
    (hyr : ∀ c ∈ xs, yr c = y) : ∀ r : Cands,
      xs.foldl (fun r c => r.put y (yr c) (code c)) r =
        { r with this := xs.foldl (fun b c => assBi383 b (code c)) r.this } := by
  induction xs with
  | nil => exact fun r => rfl
  | cons c xs ih =>
      intro r
      have hput : r.put y (yr c) (code c) = { r with this := assBi383 r.this (code c) } :=
        if_pos (hyr c List.mem_cons_self)
      rw [List.foldl_cons, hput, ih fun c hc => hyr c (List.mem_cons_of_mem _ hc)]
      rfl

theorem marked_foldl {xs : List Int} (code : Int → Int)
    (hcode : ∀ c ∈ xs, 1 ≤ code c ∧ code c ≤ 383) : ∀ {b : Bitints}, CodeSet b → Marked b →
      CodeSet (xs.foldl (fun b c => assBi383 b (code c)) b) ∧
        Marked (xs.foldl (fun b c => assBi383 b (code c)) b) := by
  induction xs with
  | nil => exact fun h hm => ⟨h, hm⟩
  | cons c xs ih =>
      intro b h hm
      obtain ⟨h1, h383⟩ := hcode c List.mem_cons_self
      exact ih (fun c hc => hcode c (List.mem_cons_of_mem _ hc)) (h.ass h1 h383)
        (marked_ass hm h h1)

theorem inReach_of_year {y : Nat} (hy : 1901 ≤ y ∧ y ≤ 2099) {n : Int}
    (hn : (yearStart y : Int) < n ∧ n ≤ yearStart (y + 1)) : InReach y n := by
  have hlo := yearStart_mono (a := y - 1) (b := y) (by omega)
  have hhi := yearStart_mono (a := y + 1) (b := y + 2) (by omega)
  have h1901 := yearStart_mono (a := 1901) (b := y) hy.1
  have h2100 := yearStart_mono (a := y + 1) (b := 2100) (by omega)
  have hnum := Gregorian.before_year 1901
  have hnum' := Gregorian.before_year 2100
  unfold InReach yearStart at *
  exact ⟨by omega, (fourthYears_iff n).mpr (by omega)⟩

/-- Candidates that stay in their year stay in their bucket. -/
theorem shiftBy_this {y : Nat} (hy : 1901 ≤ y ∧ y ≤ 2099) {C : Bitints} (hC : DateSet y C)
    {off : Int → Int} (hoff : ∀ c ∈ bi383List C, -2000 ≤ off c ∧ off c ≤ 2000)
    (hstay : ∀ n, MovedBy y C off n → (yearStart y : Int) < n ∧ n ≤ yearStart (y + 1)) :
    ∃ T, shiftBy off C y = .single T ∧ CodeSet T ∧ Marked T ∧ Filled T y (MovedBy y C off) := by
  have hreach : ∀ n, MovedBy y C off n → InReach y n := fun n hn => inReach_of_year hy (hstay n hn)
  have hexact := (shiftBy_exact hy hC hoff hreach).this
  have hfold : shiftBy off C y = (bi383List C).foldl (fun r c => r.put y (landing off y c).1
      (packCand (landing off y c).2.1.toNat (landing off y c).2.2)) ⟨.nil, .nil, .nil⟩ := rfl
  have hland : ∀ c ∈ bi383List C, (landing off y c).1 = y ∧
      1 ≤ packCand (landing off y c).2.1.toNat (landing off y c).2.2 ∧
      packCand (landing off y c).2.1.toNat (landing off y c).2.2 ≤ 383 := by
    intro c hc
    obtain ⟨m, d, hv, rfl⟩ := hC.dates c hc
    have hmoved : MovedBy y C off (dayNo y m d + off (codeOf m d)) := ⟨m, d, hv, hc, rfl⟩
    obtain ⟨Y, M, D, hland, hl⟩ := landing_spec hy hv (hoff _ hc)
    obtain ⟨hv', hno, -, -⟩ := lands_in_reach hy hv (hreach _ hmoved) hl
    have hin := hstay _ hmoved
    rw [← hno] at hin
    obtain ⟨h1, h2⟩ := year_of_range hv' (a := y) (b := y) (by omega) (by omega)
    have hcode := codeOf_range hl.month (d := D) (by have := hl.range; omega)
    rw [hland]
    dsimp only
    rw [Int.toNat_natCast, packCand_eq hcode.1 hcode.2]
    exact ⟨by omega, hcode⟩
  have hone := foldl_put_this (fun c => (landing off y c).1)
    (fun c => packCand (landing off y c).2.1.toNat (landing off y c).2.2) y
    (fun c hc => (hland c hc).1) ⟨.nil, .nil, .nil⟩
  have hsets := marked_foldl (fun c => packCand (landing off y c).2.1.toNat (landing off y c).2.2)
    (fun c hc => (hland c hc).2) codeSet_nil trivial
  rw [hfold, hone] at hexact ⊢
  exact ⟨_, rfl, hsets.1, hsets.2, hexact⟩

/-! ### The whole of it -/

/-- The day that day `n0` is to be moved to: by days, and by business days if there are any. -/
def MovedTo (sh : Int) (n0 : Nat) (n : Int) : Prop :=
  if echsShiftBdayP sh = true then
    ∃ k, BdaysAway (weekday (n0 + echsShiftDvalue sh).toNat) (echsShiftBvalue sh)
      (echsShiftNegP sh) (echsShiftInvP sh) k ∧ n = n0 + echsShiftDvalue sh + k
  else n = n0 + echsShiftDvalue sh

/-- The days a set of candidates is to be moved to. -/
def ShiftedDays (y : Nat) (C : Bitints) (sh : Int) (n : Int) : Prop :=
  ∃ m d : Nat, Valid y m d ∧ codeOf m d ∈ bi383List C ∧ MovedTo sh (dayNo y m d) n

/-- `shift` turns a set into exactly the days moved to, each in its bucket. -/
def ShiftExact (y : Nat) (C : Bitints) (sh : Int) : Prop :=
  Bucketed (shift (.single C) y sh) y (ShiftedDays y C sh)

/-- A day that `shift` moves as it should. -/
structure DaySound (y : Nat) (sh : Int) (n0 : Nat) : Prop where
  /-- Moving by days before business days does not leave the year. -/
  stays : echsShiftBdayP sh = true → echsShiftDvalue sh ≠ 0 →
    (yearStart y : Int) < n0 + echsShiftDvalue sh ∧ n0 + echsShiftDvalue sh ≤ yearStart (y + 1)
  /-- There are not too many business days to go back. -/
  near : echsShiftBdayP sh = true → BdaysNear (weekday (n0 + echsShiftDvalue sh).toNat)
    (echsShiftBvalue sh) (echsShiftNegP sh) (echsShiftInvP sh)
  /-- There is a bucket for the day, and its year is a leap year if the fourth. -/
  reach : ∀ n, MovedTo sh n0 n → InReach y n

/-- All the candidates are moved as they should be. -/
def MovesSound (y : Nat) (C : Bitints) (sh : Int) : Prop :=
  ∀ m d : Nat, Valid y m d → codeOf m d ∈ bi383List C → DaySound y sh (dayNo y m d)

theorem bucketed_single {y : Nat} {T : Bitints} {S : Int → Prop} (hT : Filled T y S)
    (hS : ∀ n, S n → (yearStart y : Int) < n ∧ n ≤ yearStart (y + 1)) (hy : 1 ≤ y) :
    Bucketed (.single T) y S := by
  have hempty : ∀ a, a ≠ y → Filled .nil a S := by
    intro a ha z
    refine iff_of_false (fun h => by cases h) ?_
    rintro ⟨m, d, hv, hs, -⟩
    have hin := hS _ hs
    obtain ⟨h1, h2⟩ := year_of_range hv (a := y) (b := y) (by omega) (by omega)
    omega
  refine ⟨hT, hempty _ (by omega), hempty _ (by omega), fun n hn => ?_⟩
  have hin := hS n hn
  have hlo := yearStart_mono (a := y - 1) (b := y) (by omega)
  have hhi := yearStart_mono (a := y + 1) (b := y + 2) (by omega)
  omega

theorem filled_dates {y : Nat} {C : Bitints} (hC : DateSet y C) :
    Filled C y (MovedBy y C fun _ => 0) := by
  intro z
  constructor
  · intro hz
    obtain ⟨m, d, hv, rfl⟩ := hC.dates z hz
    exact ⟨m, d, hv, ⟨m, d, hv, hz, (Int.add_zero _).symm⟩, rfl⟩
  · rintro ⟨m, d, hv, ⟨m', d', hv', hc, hno⟩, rfl⟩
    obtain ⟨-, rfl, rfl⟩ := Gregorian.dayNo_inj hv hv' (by simpa using hno)
    exact hc

theorem movedBy_zero {y : Nat} {C : Bitints} {n : Int} (h : MovedBy y C (fun _ => 0) n) :
    (yearStart y : Int) < n ∧ n ≤ yearStart (y + 1) := by
  obtain ⟨m, d, hv, -, rfl⟩ := h
  have hin := valid_year hv
  dsimp only
  omega

/-- A movement by days only. -/
theorem shift_days {y : Nat} (hy : 1901 ≤ y ∧ y ≤ 2099) {C : Bitints} (hC : DateSet y C) {sh : Int}
    (hd : -366 ≤ echsShiftDvalue sh ∧ echsShiftDvalue sh ≤ 366) (hb : ¬ echsShiftBdayP sh = true) :
    ShiftExact y C sh ↔ MovesSound y C sh := by
  have hto : ∀ n0 n, MovedTo sh n0 n ↔ n = n0 + echsShiftDvalue sh := by
    intro n0 n
    unfold MovedTo
    rw [if_neg hb]
  have hsound : MovesSound y C sh ↔
      ∀ n, MovedBy y C (fun _ => echsShiftDvalue sh) n → InReach y n := by
    constructor
    · rintro h n ⟨m, d, hv, hc, hn⟩
      exact (h m d hv hc).reach n ((hto _ _).mpr hn)
    · intro h m d hv hc
      refine ⟨fun hyes => absurd hyes hb, fun hyes => absurd hyes hb, fun n hn => ?_⟩
      exact h n ⟨m, d, hv, hc, (hto _ _).mp hn⟩
  have hdays : ShiftedDays y C sh = MovedBy y C fun _ => echsShiftDvalue sh := by
    funext n
    unfold ShiftedDays MovedBy
    simp only [hto]
  rw [hsound]
  unfold ShiftExact
  rw [hdays]
  by_cases h0 : echsShiftDvalue sh = 0
  · have hsh : sh = 0 := by
      unfold echsShiftBdayP shiftLow at hb
      unfold echsShiftDvalue at h0
      simp at hb
      omega
    rw [h0]
    refine iff_of_true ?_ fun n hn => inReach_of_year hy (movedBy_zero hn)
    unfold shift
    rw [if_pos hsh]
    exact bucketed_single (filled_dates hC) (fun n => movedBy_zero) (by omega)
  · have hsh : sh ≠ 0 := by
      rintro rfl
      exact h0 rfl
    have hshift : shift (.single C) y sh = shiftBy (fun _ => echsShiftDvalue sh) C y := by
      unfold shift
      rw [if_neg hsh]
      dsimp only
      rw [if_neg hb, if_pos h0, shiftDays_eq]
      rfl
    rw [hshift]
    exact shiftDays_iff hy hC (by omega)

theorem BdaysAway.unique {w : Nat} {b : Int} {back inv : Bool} {n m : Int}
    (h : BdaysAway w b back inv n) (h' : BdaysAway w b back inv m) : n = m := by
  obtain ⟨k, hk, rfl⟩ := h
  obtain ⟨k', hk', rfl⟩ := h'
  rw [hk.unique hk']

theorem bdayOffs_range {w : Nat} (hw : w ≤ 7) {b : Int} (hb : b.natAbs ≤ 366) (neg inv : Bool) :
    -2000 ≤ bdayOffs w b neg inv ∧ bdayOffs w b neg inv ≤ 2000 := by
  have hrest : ∀ (v : Nat) (x : Int), x.natAbs ≤ 367 →
      -1900 ≤ bdayRest v x ∧ bdayRest v x ≤ 1900 := by
    intro v x hx
    have hdiv : (Int.tdiv x 5).natAbs ≤ 73 := by
      rw [Int.natAbs_tdiv]
      show x.natAbs / 5 ≤ 73
      omega
    have hmod : (Int.tmod x 5).natAbs ≤ 4 := by
      rw [Int.natAbs_tmod]
      show x.natAbs % 5 ≤ 4
      omega
    unfold bdayRest
    dsimp only
    have h5 := Nat.mod_lt (u32OfInt ((v : Int) + 384 + x)) (show 0 < 5 by decide)
    have h7 := Nat.mod_lt (u32OfInt ((v : Int) + 384 + (Int.tdiv x 5 * 7 + Int.tmod x 5)))
      (show 0 < 7 by decide)
    generalize Int.tdiv x 5 = q, Int.tmod x 5 = t at *
    split <;> omega
  by_cases hsat : w < wdaySat
  · rw [bdayOffs_bday hsat]
    have := hrest w b (by omega)
    omega
  · rw [bdayOffs_weekend hsat]
    have := hrest (if neg then wdayFri else wdayMon)
      (if b ≠ 0 ∧ inv = false then if neg then b + 1 else b - 1 else b) (by
        split
        · split <;> omega
        · omega)
    cases neg <;> simp only [if_true, Bool.false_eq_true, if_false] at this ⊢ <;> omega

/-- The candidates that the business days are counted from. -/
theorem exists_days_set {y : Nat} (hy : 1901 ≤ y ∧ y ≤ 2099) {C : Bitints} (hC : DateSet y C)
    {sh : Int} (hd : -366 ≤ echsShiftDvalue sh ∧ echsShiftDvalue sh ≤ 366)
    (hbday : echsShiftBdayP sh = true) (hs : MovesSound y C sh) :
    ∃ T, shift (.single C) y sh = shiftBdays T y sh ∧ CodeSet T ∧
      Filled T y (MovedBy y C fun _ => echsShiftDvalue sh) := by
  have hsh : sh ≠ 0 := by
    rintro rfl
    exact absurd hbday (by decide)
  unfold shift
  rw [if_neg hsh]
  dsimp only
  rw [if_pos hbday]
  by_cases h0 : echsShiftDvalue sh = 0
  · rw [if_neg (not_not.mpr h0), if_neg (not_not.mpr h0), h0]
    exact ⟨C, rfl, hC.codes, filled_dates hC⟩
  · have hstay : ∀ n, MovedBy y C (fun _ => echsShiftDvalue sh) n →
        (yearStart y : Int) < n ∧ n ≤ yearStart (y + 1) := by
      rintro n ⟨m, d, hv, hc, rfl⟩
      exact (hs m d hv hc).stays hbday h0
    obtain ⟨T, hT, hcodes, hmark, hfill⟩ := shiftBy_this hy hC (fun _ _ => by omega) hstay
    refine ⟨T, ?_, hcodes, hfill⟩
    rw [if_pos h0, if_pos h0, shiftDays_eq, show (Cands.single C).this = C from rfl, hT]
    unfold Cands.single
    dsimp only
    rw [xor_nil hcodes hmark, xor_nil hcodes hmark]

/-- Days and then business days. -/
theorem shift_bdays {y : Nat} (hy : 1901 ≤ y ∧ y ≤ 2099) {C : Bitints} (hC : DateSet y C) {sh : Int}
    (hd : -366 ≤ echsShiftDvalue sh ∧ echsShiftDvalue sh ≤ 366)
    (hb : (echsShiftBvalue sh).natAbs ≤ 366) (hbday : echsShiftBdayP sh = true)
    (hs : MovesSound y C sh) : ShiftExact y C sh := by
  obtain ⟨T, hshift, hcodes, hfill⟩ := exists_days_set hy hC hd hbday hs
  have hT : DateSet y T := ⟨hcodes, fun x hx => by
    obtain ⟨m, d, hv, -, hcode⟩ := (hfill x).mp hx
    exact ⟨m, d, hv, hcode⟩⟩
  have h31 : ∀ {m d : Nat}, Valid y m d → 1 ≤ d ∧ d ≤ 31 := fun {m d} hv =>
    ⟨hv.2.2.1, hv.2.2.2.trans (Gregorian.monthDays_range y m).2⟩
  have hmem : ∀ m d : Nat, Valid y m d → (codeOf m d ∈ bi383List T ↔
      MovedBy y C (fun _ => echsShiftDvalue sh) (dayNo y m d)) := by
    intro m d hv
    rw [hfill]
    constructor
    · rintro ⟨m', d', hv', hmoved, hcode⟩
      obtain ⟨rfl, rfl⟩ := codeOf_inj (h31 hv) (h31 hv') hcode
      exact hmoved
    · exact fun hmoved => ⟨m, d, hv, hmoved, rfl⟩
  -- the weekday is known in the year
  have hwday : ∀ m d : Nat, Valid y m d →
      ymdGetWday y (unpackCand (codeOf m d)).m (unpackCand (codeOf m d)).d =
        weekday (dayNo y m d) := by
    intro m d hv
    rw [unpackCand_codeOf ⟨hv.1, hv.2.1⟩ (h31 hv)]
    have h31 := (h31 hv).2
    exact wdayGreg_eq (by omega) (by omega) hv.1 hv.2.1 (by dsimp only; omega)
  have hdays : ∀ n, MovedBy y T (fun c => bdayOffs
      (ymdGetWday y (unpackCand c).m (unpackCand c).d) (echsShiftBvalue sh) (echsShiftNegP sh)
      (echsShiftInvP sh)) n ↔ ShiftedDays y C sh n := by
    have hoff : ∀ {m d m' d' : Nat}, Valid y m d → Valid y m' d' → codeOf m' d' ∈ bi383List C →
        (dayNo y m d : Int) = dayNo y m' d' + echsShiftDvalue sh →
        BdaysAway (weekday (dayNo y m d)) (echsShiftBvalue sh) (echsShiftNegP sh)
          (echsShiftInvP sh) (bdayOffs (ymdGetWday y (unpackCand (codeOf m d)).m
            (unpackCand (codeOf m d)).d) (echsShiftBvalue sh) (echsShiftNegP sh)
            (echsShiftInvP sh)) := by
      intro m d m' d' hv hv' hc hno
      have hnear := (hs m' d' hv' hc).near hbday
      rw [← hno, Int.toNat_natCast] at hnear
      rw [hwday m d hv]
      unfold weekday at hnear ⊢
      exact (bdaysAway_bdayOffs (by omega) (by omega) hb (echsShiftBvalue_sign sh) _).mpr hnear
    intro n
    constructor
    · rintro ⟨m, d, hv, hc, rfl⟩
      obtain ⟨m', d', hv', hc', hno⟩ := (hmem m d hv).mp hc
      refine ⟨m', d', hv', hc', ?_⟩
      unfold MovedTo
      rw [if_pos hbday, ← hno, Int.toNat_natCast]
      exact ⟨_, hoff hv hv' hc' hno, rfl⟩
    · rintro ⟨m', d', hv', hc', hto⟩
      unfold MovedTo at hto
      rw [if_pos hbday] at hto
      obtain ⟨k, hk, rfl⟩ := hto
      obtain ⟨m, d, hv, hno⟩ : ∃ m d : Nat, Valid y m d ∧
          (dayNo y m d : Int) = dayNo y m' d' + echsShiftDvalue sh := by
        by_cases h0 : echsShiftDvalue sh = 0
        · exact ⟨m', d', hv', by omega⟩
        · have hin := (hs m' d' hv' hc').stays hbday h0
          obtain ⟨g, hg, hno⟩ := exists_date (dayNo y m' d' + echsShiftDvalue sh - 1).toNat
          have hgy := year_of_range hg (a := y) (b := y) (by omega) (by omega)
          obtain rfl : g.y = y := by omega
          exact ⟨g.m, g.d, hg, by omega⟩
      refine ⟨m, d, hv, (hmem m d hv).mpr ⟨m', d', hv', hc', hno⟩, ?_⟩
      rw [← hno, Int.toNat_natCast] at hk
      rw [← hno]
      exact congrArg _ (hk.unique (hoff hv hv' hc' hno))
  have hsame : MovedBy y T (fun c => bdayOffs
      (ymdGetWday y (unpackCand c).m (unpackCand c).d) (echsShiftBvalue sh) (echsShiftNegP sh)
      (echsShiftInvP sh)) = ShiftedDays y C sh := funext fun n => propext (hdays n)
  unfold ShiftExact
  rw [hshift, shiftBdays_eq, ← hsame]
  refine shiftBy_exact hy hT (fun c hc => ?_) fun n hn => ?_
  · exact bdayOffs_range (ymdGetWday_range _ _ _).2 hb _ _
  · obtain ⟨m, d, hv, hc, hto⟩ := (hdays n).mp hn
    exact (hs m d hv hc).reach n hto

/-! ### One candidate -/

/-- Too far back the code is four days early or three late. -/
theorem bdayRest_far {w k : Nat} (hw : IsBday w) (hk : k ≤ 366) (hfar : 274 + w < k) :
    bdayRest w (-(k : Int)) = -((bdaySteps (5 - w + k) - bdaySteps (5 - w) : Nat) : Int) - 4 ∨
      bdayRest w (-(k : Int)) = -((bdaySteps (5 - w + k) - bdaySteps (5 - w) : Nat) : Int) + 3 := by
  unfold IsBday wdayMon wdayFri at hw
  have hdiv : Int.tdiv (-(k : Int)) 5 = -((k / 5 : Nat) : Int) := Int.neg_tdiv k 5
  have hmod : Int.tmod (-(k : Int)) 5 = -((k % 5 : Nat) : Int) := Int.neg_tmod k 5
  have h5 : u32OfInt ((w : Int) + 384 + -(k : Int)) = w + 384 - k := by
    unfold u32OfInt wordOfInt
    omega
  have hno : ¬ (0 < -((k / 5 : Nat) : Int) * 7 + -((k % 5 : Nat) : Int)) := by omega
  unfold bdayRest bdaySteps
  simp only [hdiv, hmod, h5, hno, false_and, if_false]
  have h7 : u32OfInt ((w : Int) + 384 + (-((k / 5 : Nat) : Int) * 7 + -((k % 5 : Nat) : Int))) =
      if k / 5 * 7 + k % 5 ≤ w + 384 then w + 384 - (k / 5 * 7 + k % 5)
      else 4294967296 + (w + 384) - (k / 5 * 7 + k % 5) := by
    unfold u32OfInt wordOfInt
    split <;> omega
  rw [h7]
  split <;> omega

/-- How far the code is off. -/
theorem bdayOffs_err {w : Nat} (h1 : 1 ≤ w) (h7 : w ≤ 7) {sh : Int}
    (hb : (echsShiftBvalue sh).natAbs ≤ 366) :
    ∃ k, BdaysAway w (echsShiftBvalue sh) (echsShiftNegP sh) (echsShiftInvP sh) k ∧
      (bdayOffs w (echsShiftBvalue sh) (echsShiftNegP sh) (echsShiftInvP sh) = k ∨
        bdayOffs w (echsShiftBvalue sh) (echsShiftNegP sh) (echsShiftInvP sh) = k - 4 ∨
        bdayOffs w (echsShiftBvalue sh) (echsShiftNegP sh) (echsShiftInvP sh) = k + 3) := by
  have hexact := bdaysAway_bdayOffs h1 h7 hb (echsShiftBvalue_sign sh) (echsShiftInvP sh)
  have hsign := echsShiftBvalue_sign sh
  revert hb hsign hexact
  generalize echsShiftBvalue sh = b, echsShiftNegP sh = neg, echsShiftInvP sh = inv
  intro hb hexact hsign
  by_cases hnear : BdaysNear w b neg inv
  · exact ⟨_, hexact.mpr hnear, Or.inl rfl⟩
  · unfold BdaysNear at hnear
    push Not at hnear
    obtain ⟨rfl, hfar⟩ := hnear
    rw [if_pos rfl] at hsign
    generalize hk : b.natAbs = k at hb hsign
    by_cases hbday : IsBday w
    · have hlt : w < wdaySat := Nat.lt_succ_of_le hbday.2
      rw [if_pos hlt] at hfar
      refine ⟨-((bdaySteps (5 - w + k) - bdaySteps (5 - w) : Nat) : Int),
        ⟨_, by rw [hk]; exact bdayWalk_bday hbday k true inv, rfl⟩, Or.inr ?_⟩
      rw [bdayOffs_bday hlt, hsign]
      have hfar' : 274 + w < k := by
        rw [hsign] at hfar
        omega
      exact bdayRest_far hbday hb hfar'
    · have hge : ¬ w < wdaySat := fun h => hbday ⟨h1, Nat.le_of_lt_succ h⟩
      have hw : w = 6 ∨ w = 7 := by
        unfold wdaySat at hge
        omega
      rw [if_neg hge] at hfar
      refine ⟨-((weekendDays true w + bdaySteps (if inv = true then k else k - 1) : Nat) : Int),
        ⟨_, by rw [hk]; exact bdayWalk_weekend hw k true inv, rfl⟩, Or.inr ?_⟩
      rw [bdayOffs_weekend hge]
      generalize hk' : (if inv = true then k else k - 1) = k'
      have hrest : (if b ≠ 0 ∧ inv = false then if true = true then b + 1 else b - 1 else b) =
          -(k' : Int) := by
        rw [hsign, ← hk']
        cases inv with
        | true => simp
        | false =>
            simp
            omega
      have hfar' : 274 + wdayFri < k' := by
        rw [hsign] at hfar
        rw [← hk']
        unfold wdayFri
        cases inv with
        | true =>
            simp at hfar ⊢
            omega
        | false =>
            simp at hfar ⊢
            split at hfar <;> omega
      have hle : k' ≤ 366 := by
        rw [← hk']
        split <;> omega
      have herr := bdayRest_far (w := wdayFri) (by decide) hle hfar'
      have hsteps : bdaySteps (5 - wdayFri + k') - bdaySteps (5 - wdayFri) = bdaySteps k' := by
        rw [show 5 - wdayFri = 0 from rfl, Nat.zero_add]
        rfl
      rw [hsteps] at herr
      rw [hrest]
      unfold weekendDays
      simp only [if_true]
      omega

theorem Bucketed.filled {r : Cands} {y : Nat} {S : Int → Prop} (h : Bucketed r y S) (hy : 1 ≤ y)
    {a : Nat} (h1 : y - 1 ≤ a) (h2 : a ≤ y + 1) : Filled (r.bucket y a) a S := by
  have ha : a = y ∨ a = y - 1 ∨ a = y + 1 := by omega
  unfold Cands.bucket
  rcases ha with rfl | rfl | rfl
  · rw [if_pos rfl]
    exact h.this
  · rw [if_neg (by omega), if_neg (by omega)]
    exact h.prev
  · rw [if_neg (by omega), if_pos (by omega)]
    exact h.next

/-- The same day of another year is far away. -/
theorem codeNo_gap {a b m d : Nat} (hm : 1 ≤ m ∧ m ≤ 12) (h : a < b) :
    codeNo a m d + 364 ≤ codeNo b m d := by
  have hstep : codeNo a m d + 364 ≤ codeNo (a + 1) m d := by
    rw [codeNo_eq a hm, codeNo_eq (a + 1) hm]
    have ha := leap4_le a
    have hb := leap4_le (a + 1)
    obtain ⟨h1, h12⟩ := hm
    interval_cases m <;> simp only [Gregorian.yearDaysBefore] <;> omega
  exact hstep.trans (codeNo_mono h)

/-- **One candidate** that business days move right is in reach and not too far back. -/
theorem shift_single {y : Nat} (hy : 1901 ≤ y ∧ y ≤ 2099) {C : Bitints} (hC : DateSet y C)
    {m d : Nat} (hv : Valid y m d) (hone : ∀ x, x ∈ bi383List C ↔ x = codeOf m d) {sh : Int}
    (hd : echsShiftDvalue sh = 0) (hb : (echsShiftBvalue sh).natAbs ≤ 366)
    (hbday : echsShiftBdayP sh = true) (hr : ShiftExact y C sh) : MovesSound y C sh := by
  have h31 := (Gregorian.monthDays_range y m).2
  have hsh : sh ≠ 0 := by
    rintro rfl
    exact absurd hbday (by decide)
  have hshift : shift (.single C) y sh = shiftBdays C y sh := by
    unfold shift
    rw [if_neg hsh]
    dsimp only
    rw [if_pos hbday, if_neg (not_not.mpr hd), if_neg (not_not.mpr hd)]
    rfl
  -- where the one candidate is to go, and how far it goes
  obtain ⟨k, hk, herr⟩ := bdayOffs_err (w := weekday (dayNo y m d)) (by unfold weekday; omega)
    (by unfold weekday; omega) hb
  have hw : 1 ≤ weekday (dayNo y m d) ∧ weekday (dayNo y m d) ≤ 7 := by
    unfold weekday
    omega
  have hexact := bdaysAway_bdayOffs hw.1 hw.2 hb (echsShiftBvalue_sign sh) (echsShiftInvP sh)
  have hmoved : ∀ n, MovedTo sh (dayNo y m d) n ↔ n = dayNo y m d + k := by
    intro n
    unfold MovedTo
    rw [if_pos hbday, hd, Int.add_zero, Int.toNat_natCast]
    constructor
    · rintro ⟨k', hk', rfl⟩
      rw [hk.unique hk']
    · rintro rfl
      exact ⟨k, hk, rfl⟩
  have hday : ShiftedDays y C sh (dayNo y m d + k) :=
    ⟨m, d, hv, (hone _).mpr rfl, (hmoved _).mpr rfl⟩
  have hall := hr.all _ hday
  obtain ⟨g, hg, hno⟩ := exists_date (dayNo y m d + k - 1).toNat
  have hgn : (dayNo g.y g.m g.d : Int) = dayNo y m d + k := by omega
  obtain ⟨hlo, hhi⟩ := year_of_range hg (a := y - 1) (b := y + 1) (by omega) (by
    rw [show y + 1 + 1 = y + 2 from rfl]
    omega)
  -- so it is in the bucket, and there is no other candidate for it to be there
  have hcode := (hr.filled (by omega) hlo hhi (codeOf g.m g.d)).mpr ⟨g.m, g.d, hg, hgn ▸ hday, rfl⟩
  rw [hshift, shiftBdays_eq, (shiftBy_spec hy hC fun c _ =>
    bdayOffs_range (ymdGetWday_range _ _ _).2 hb _ _).2] at hcode
  obtain ⟨Y', M', D', ⟨m', d', hv', hc', hl⟩, hbucket, heq⟩ := hcode
  obtain ⟨rfl, rfl⟩ := codeOf_inj ⟨hg.2.2.1, hg.2.2.2.trans (Gregorian.monthDays_range g.y g.m).2⟩
    hl.range heq
  obtain ⟨rfl, rfl⟩ := codeOf_inj ⟨hv'.2.2.1, hv'.2.2.2.trans (Gregorian.monthDays_range y m').2⟩
    ⟨hv.2.2.1, hv.2.2.2.trans h31⟩ ((hone _).mp hc')
  have hland := hl.no
  rw [codeNo_cand hy hv] at hland
  have hwday : ymdGetWday y m' d' = weekday (dayNo y m' d') :=
    wdayGreg_eq (by omega) (by omega) hv.1 hv.2.1 (by have := hv.2.2.2; omega)
  dsimp only at hland
  rw [unpackCand_codeOf ⟨hv.1, hv.2.1⟩ ⟨hv.2.2.1, hv.2.2.2.trans h31⟩, hwday] at hland
  have hapart := codeNo_dayNo (y := g.y) (by omega) ⟨hg.1, hg.2.1⟩ g.d
  -- another year would be too far away
  obtain rfl : Y' = g.y := by
    rcases Nat.lt_trichotomy Y' g.y with hlt | heq | hlt
    · have := codeNo_gap (d := g.d) ⟨hg.1, hg.2.1⟩ hlt
      split at hapart <;> split at hapart <;> omega
    · exact heq
    · have := codeNo_gap (d := g.d) ⟨hg.1, hg.2.1⟩ hlt
      split at hapart <;> split at hapart <;> omega
  -- and a leap day is less than the code is ever off
  have hoff : bdayOffs (weekday (dayNo y m' d')) (echsShiftBvalue sh) (echsShiftNegP sh)
      (echsShiftInvP sh) = k := by
    split at hapart <;> split at hapart <;> omega
  have hfour : FourthYears (dayNo g.y g.m g.d) := by
    refine fourthYears_of_valid (by omega) hg (fun h => ?_) fun h => ?_
    · by_contra hm
      rw [if_pos ⟨h, by omega⟩, if_neg (by omega)] at hapart
      omega
    · by_contra hm
      rw [if_neg (by omega), if_pos ⟨h, by omega⟩] at hapart
      omega
  intro m d hvm hc
  obtain ⟨rfl, rfl⟩ := codeOf_inj ⟨hvm.2.2.1, hvm.2.2.2.trans (Gregorian.monthDays_range y m).2⟩
    ⟨hv.2.2.1, hv.2.2.2.trans h31⟩ ((hone _).mp hc)
  refine ⟨fun _ hne => absurd hd hne, fun _ => ?_, fun n hn => ?_⟩
  · rw [hd, Int.add_zero, Int.toNat_natCast]
    rw [hoff] at hexact
    exact hexact.mp hk
  · obtain rfl := (hmoved n).mp hn
    exact ⟨hall, hgn ▸ hfour⟩

/-! ### Sets -/

/-- **What `shift` makes of a set** of candidates is right if every candidate is moved right; and
for movements by days, or of one candidate by business days, only if. -/
theorem shift_exact {y : Nat} (hy : 1901 ≤ y ∧ y ≤ 2099) {C : Bitints} (hC : DateSet y C) {sh : Int}
    (hd : -366 ≤ echsShiftDvalue sh ∧ echsShiftDvalue sh ≤ 366)
    (hb : (echsShiftBvalue sh).natAbs ≤ 366) :
    (MovesSound y C sh → ShiftExact y C sh) ∧
      (echsShiftBdayP sh = false ∨ (echsShiftDvalue sh = 0 ∧
          ∃ m d : Nat, Valid y m d ∧ ∀ x, x ∈ bi383List C ↔ x = codeOf m d) →
        (ShiftExact y C sh ↔ MovesSound y C sh)) := by
  have hback : MovesSound y C sh → ShiftExact y C sh := by
    intro hs
    by_cases hbday : echsShiftBdayP sh = true
    · exact shift_bdays hy hC hd hb hbday hs
    · exact (shift_days hy hC hd hbday).mpr hs
  refine ⟨hback, ?_⟩
  rintro (hno | ⟨h0, m, d, hv, hone⟩)
  · exact shift_days hy hC hd (by simp [hno])
  · by_cases hbday : echsShiftBdayP sh = true
    · exact ⟨shift_single hy hC hv hone h0 hb hbday, hback⟩
    · exact shift_days hy hC hd hbday

/-- A single candidate. -/
theorem dateSet_single {y m d : Nat} (hv : Valid y m d) : DateSet y (.native [codeOf m d]) := by
  have hcode := codeOf_range ⟨hv.1, hv.2.1⟩ (d := d) (by
    have := (Gregorian.monthDays_range y m).2
    have := hv.2.2
    omega)
  have hlist : bi383List (.native [codeOf m d]) = [codeOf m d] :=
    bi383List_native (by simp)
  refine ⟨⟨by simp, by simp, fun x hx => ?_⟩, fun x hx => ?_⟩
  · obtain rfl := List.mem_singleton.mp hx
    exact hcode
  · rw [hlist, List.mem_singleton] at hx
    exact ⟨m, d, hv, hx⟩

/-- A day on from the end of 2024. -/
theorem shift_exact_new_year : ShiftExact 2024 (.native [383]) 65536 := by
  have hC : DateSet 2024 (.native [383]) := dateSet_single (m := 12) (d := 31) (by decide)
  refine (shift_exact (by decide) hC (by decide) (by decide)).1 ?_
  intro m d hv hc
  rw [bi383List_native (by decide), List.mem_singleton] at hc
  obtain ⟨rfl, rfl⟩ := codeOf_inj ⟨hv.2.2.1, hv.2.2.2.trans (Gregorian.monthDays_range _ m).2⟩
    (by decide) (show codeOf m d = codeOf 12 (31 : Nat) from hc)
  refine ⟨fun h => absurd h (by decide), fun h => absurd h (by decide), fun n hn => ?_⟩
  obtain rfl : n = dayNo 2024 12 31 + 1 := hn
  have hno : dayNo 2024 12 31 = 739617 :=
    Gregorian.dayNo_closed 2024 (m := 12) (by decide) (by decide) 31
  have h2023 := Gregorian.before_year (2024 - 1)
  have h2026 := Gregorian.before_year (2024 + 2)
  unfold InReach yearStart
  rw [fourthYears_iff]
  omega

/-- A day and a business day on from the last of 2021, a Friday, is the third of January, but it is
moved to the fourth of January 2021. -/
theorem shift_merges_years :
    ¬ ∀ (y : Nat) (C : Bitints) (sh : Int), 1901 ≤ y ∧ y ≤ 2099 → DateSet y C →
      -366 ≤ echsShiftDvalue sh ∧ echsShiftDvalue sh ≤ 366 →
      (echsShiftBvalue sh).natAbs ≤ 366 → ShiftExact y C sh := by
  intro h
  have hC : DateSet 2021 (.native [383]) := dateSet_single (m := 12) (d := 31) (by decide)
  have hr := h 2021 (.native [383]) 65540 (by decide) hC (by decide) (by decide)
  have hday : ShiftedDays 2021 (.native [383]) 65540 (dayNo 2022 1 3) := by
    have hno : dayNo 2021 12 31 = 738521 :=
      Gregorian.dayNo_closed 2021 (m := 12) (by decide) (by decide) 31
    have hno' : dayNo 2022 1 3 = 738524 :=
      Gregorian.dayNo_closed 2022 (m := 1) (by decide) (by decide) 3
    refine ⟨12, 31, by decide, by decide, ?_⟩
    rw [hno, hno']
    exact ⟨2, ⟨2, bdayWalk_weekend (Or.inl rfl) 1 false false, rfl⟩, rfl⟩
  have hin := (hr.next 3).mpr ⟨1, 3, by decide, hday, rfl⟩
  exact absurd hin (by decide)

end Echse
