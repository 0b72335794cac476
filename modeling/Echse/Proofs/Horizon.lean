/-
How far ahead an open-ended rule is followed.

`rrul_fill_yly` and `rrul_fill_mly` give up after 63 periods in a row without an event.  By then
a rule for years has seen the whole cycle of the calendar, so it ends where there is nothing left
to come; only Easter keeps to no such cycle.  A rule for months sees few years in as many
passes, and what it has not seen may come later.
-/
import Echse.Lib.FillTired
import Echse.Proofs.Cycle

namespace Echse

open FillLoop (Loop)

/-- A rule that only the calendar ends, with dates on the Gregorian scale. -/
structure Rrulsp.Open (rr : Rrulsp) : Prop where
  scale : rr.scale = .gregorian
  until_ : rr.until_ = echsMaxInstant
  count : rr.count = -1
  shift : rr.shift = 0
  pos : bi383HasBits rr.pos = false

/-! ### What a position yields -/

section Yield

theorem makeEnum_times (proto : Instant) (rr : Rrulsp) (y m d ms : Nat) :
    (makeEnum proto rr).times y m d ms ≠ [] := by
  have hor : ∀ (xs : List Nat) (x : Nat), (if xs.isEmpty then [x] else xs) ≠ [] := by
    intro xs x
    cases xs <;> simp
  obtain ⟨H, hH⟩ : ∃ H, H ∈ (makeEnum proto rr).H := by
    refine List.exists_mem_of_ne_nil _ ?_
    have hH := hor (bui31List rr.H) proto.H
    unfold makeEnum
    dsimp only
    generalize (if (bui31List rr.H).isEmpty then [proto.H] else bui31List rr.H) = hs at hH ⊢
    split
    · intro hnil
      have hlen := congrArg List.length (List.append_eq_nil_iff.mp hnil).1
      rw [List.length_take, List.length_nil] at hlen
      omega
    · exact hH
  obtain ⟨M, hM⟩ : ∃ M, M ∈ (makeEnum proto rr).M := List.exists_mem_of_ne_nil _ (hor _ _)
  obtain ⟨S, hS⟩ : ∃ S, S ∈ (makeEnum proto rr).S := List.exists_mem_of_ne_nil _ (hor _ _)
  refine List.ne_nil_of_mem (a := Instant.pack y m d H M S ms) ?_
  unfold Enum.times
  exact List.mem_flatMap.mpr ⟨H, hH, List.mem_flatMap.mpr ⟨M, hM, List.mem_map_of_mem hS⟩⟩

theorem on_date {e : Enum} {ms : Nat} {t : Date} {x : Instant} (h : x ∈ e.on ms t) :
    x.y = t.y % 65536 ∧ x.m = t.m % 256 := by
  unfold Enum.on Enum.times at h
  obtain ⟨H, -, h⟩ := List.mem_flatMap.mp h
  obtain ⟨M, -, h⟩ := List.mem_flatMap.mp h
  obtain ⟨S, -, rfl⟩ := List.mem_map.mp h
  exact ⟨rfl, rfl⟩

/-- No date of these years is past the last instant. -/
theorem not_late {x : Instant} (h : x.y < 65535) : echsInstantLtP echsMaxInstant x = false := by
  rw [ltP_false_iff]
  have hx := (key_bounds x).2
  have hmax := (key_bounds echsMaxInstant).1
  have hdate : echsMaxInstant.date.key = 4294967295 := by decide
  have hfits := x.fits
  unfold Date.key Instant.date at hx
  dsimp only at hx
  omega

/-- An instant of a later month is not early. -/
theorem not_early {x y : Instant} (h : y.y * 256 + y.m < x.y * 256 + x.m) :
    echsInstantLtP x y = false := by
  rw [ltP_false_iff]
  have hx := (key_bounds x).1
  have hy := (key_bounds y).2
  have hfits := y.fits
  unfold Date.key Instant.date at hx hy
  dsimp only at hx hy
  omega

variable {L : Loop Pos Instant Slot} {e : Enum} {ms : Nat} {proto : Instant} {p : Pos} {c : Bitints}

/-- **What the candidates of a year come to**: all their times that are not before the start. -/
theorem yield_single (hjudge : L.judge = judgeUntil echsMaxInstant proto)
    (hgroups : L.groups p = candGroups e ms p.y (.single c)) (hy : p.y ≤ 2099) :
    (L.gather (L.groups p)).2 = .cont ∧
      ∀ x, x ∈ L.yield p ↔ ∃ yd ∈ bi383List c,
        x ∈ e.on ms ⟨p.y, u32OfInt yd / 32 + 1, u32OfInt yd % 32⟩ ∧ echsInstantLtP x proto = false := by
  have hsome : L.groups p = ((candDates p.y (.single c)).map (e.on ms)).map some := by
    rw [hgroups, candGroups_eq, List.map_map]
    rfl
  have hmem : ∀ x, x ∈ ((candDates p.y (.single c)).map (e.on ms)).flatten ↔ ∃ yd ∈ bi383List c,
      x ∈ e.on ms ⟨p.y, u32OfInt yd / 32 + 1, u32OfInt yd % 32⟩ := by
    intro x
    rw [candDates_eq (by omega), List.map_map, List.mem_flatten]
    simp
  have hjudge' : ∀ x ∈ ((candDates p.y (.single c)).map (e.on ms)).flatten,
      L.judge x = if echsInstantLtP x proto then .drop else .emit := by
    intro x hx
    obtain ⟨yd, -, hx⟩ := (hmem x).mp hx
    have hxy : x.y = p.y % 65536 := (on_date hx).1
    rw [hjudge]
    unfold judgeUntil
    rw [not_late (by omega)]
    rfl
  have hcalm : ∀ x ∈ ((candDates p.y (.single c)).map (e.on ms)).flatten,
      L.judge x = .emit ∨ L.judge x = .drop := by
    intro x hx
    rw [hjudge' x hx]
    split
    · exact Or.inr rfl
    · exact Or.inl rfl
  obtain ⟨hcont, htaken⟩ := Loop.gather_calm hcalm
  refine ⟨by rw [hsome]; exact hcont, fun x => ?_⟩
  unfold Loop.yield
  rw [hsome, htaken]
  constructor
  · rintro ⟨hx, hemit⟩
    obtain ⟨yd, hyd, hon⟩ := (hmem x).mp hx
    refine ⟨yd, hyd, hon, ?_⟩
    rw [hjudge' x hx] at hemit
    cases hlt : echsInstantLtP x proto with
    | false => rfl
    | true =>
        rw [hlt] at hemit
        cases hemit
  · rintro ⟨yd, hyd, hon, hlt⟩
    have hx := (hmem x).mpr ⟨yd, hyd, hon⟩
    exact ⟨hx, by rw [hjudge' x hx, hlt]; rfl⟩

end Yield

/-! ### Years -/

section Yearly

variable {tgt : Instant} {nti : Nat} {rr : Rrulsp}

/-- The generators of a yearly rule yield a date in a year. -/
def YearYields (tgt : Instant) (nti : Nat) (rr : Rrulsp) (y : Nat) : Prop :=
  bi383List (ylyFill rr (ylyParts (protoOf tgt rr) nti rr) y) ≠ []

instance (tgt : Instant) (nti : Nat) (rr : Rrulsp) (y : Nat) : Decidable (YearYields tgt nti rr y) :=
  inferInstanceAs (Decidable (_ ≠ _))

/-- **What the horizon should promise of a yearly rule**: where fewer events are returned than there
is room for, no later year that INTERVAL leads to has a date up to 2099. -/
def YearsKept (tgt : Instant) (nti : Nat) (rr : Rrulsp) : Prop :=
  ∀ n, ((rrulFillYly tgt nti rr).after n).stop = some .done →
    ((rrulFillYly tgt nti rr).events n).length < nti →
    ∀ y, (protoOf tgt rr).y < y → y ≤ 2099 → y ≡ (protoOf tgt rr).y [MOD rr.inter] →
      (∀ x ∈ (rrulFillYly tgt nti rr).events n, x.y < y) → ¬ YearYields tgt nti rr y

/-- Easter comes to every year, and nothing else of the rule says which years to take: the offsets
do not lead out of the year, and neither months nor month days are listed. -/
def EasterFree (rr : Rrulsp) : Prop :=
  bi383HasBits rr.easter = true → bui31HasBits rr.mon = false ∧ bi31HasBits rr.dom = false ∧
    ∀ t ∈ bi383List rr.easter, -80 ≤ t ∧ t ≤ 249

/-- A set that a code has been put in is not empty. -/
theorem bi383List_ass {c : Bitints} {x : Int} (h1 : 1 ≤ x) (h383 : x ≤ 383) :
    bi383List (assBi383 c x) ≠ [] := by
  have hnext : (bi383Next (assBi383 c x) 0).2 ≠ 0 := by
    have hbits : ∀ {b : Nat}, b.testBit x.toNat = true → (bi383Next (.bits b) 0).2 ≠ 0 := by
      intro b hb
      unfold bi383Next bintsNext
      dsimp only
      split
      · decide
      · rw [if_pos rfl, if_pos (by decide)]
        cases hn : nextBit b 1 (32 * 12) with
        | some p => exact Nat.succ_ne_zero p
        | none =>
            have := nextBit_none hn x.toNat (by omega) (by omega)
            rw [hb] at this
            cases this
    have hset : ∀ b : Nat, (assBs 12 b x).testBit x.toNat = true := fun b =>
      (testBit_assBs_iff 12).mpr (Or.inr (if_pos (by omega)).symm)
    unfold assBi383 assBints
    split
    · split
      · rename_i xs _
        unfold bi383Next bintsNext
        dsimp only
        cases hx : (assInt x xs)[0]? with
        | some z => exact one_ne_zero
        | none =>
            have hmem := (mem_assInt x xs x).mpr (Or.inl rfl)
            rw [List.getElem?_eq_none_iff, Nat.le_zero, List.length_eq_zero_iff] at hx
            rw [hx] at hmem
            cases hmem
      · exact hbits (hset _)
    · exact hbits (hset _)
  unfold bi383List drain
  rw [if_neg hnext]
  exact List.cons_ne_nil _ _

set_option maxRecDepth 2000 in
/-- Easter is from the 22nd of March to the 25th of April. -/
theorem easterGetYday_range {y : Nat} (hy : 1901 ≤ y ∧ y ≤ 2099) :
    81 ≤ easterGetYday y ∧ easterGetYday y ≤ 116 := by
  have hall : ∀ k < 199, 81 ≤ easterGetYday (1901 + k) ∧ easterGetYday (1901 + k) ≤ 116 := by decide
  have := hall (y - 1901) (by omega)
  rwa [show 1901 + (y - 1901) = y by omega] at this

/-- Offsets from Easter that stay in the year give a date in each, unless the mask takes them all. -/
theorem fillYlyEastr_ne_nil {y : Nat} (hy : 1901 ≤ y ∧ y ≤ 2099) {mon : Nat} {dom : Bitint}
    (hmon : bui31HasBits mon = false) (hdom : bi31HasBits dom = false) (mask : Nat) {s : Bitints}
    (hs : ∀ t ∈ bi383List s, -80 ≤ t ∧ t ≤ 249) (hsome : ∃ t ∈ bi383List s, eastrMasked mask t = false)
    (c : Bitints) : bi383List (fillYlyEastr c y s mon dom mask) ≠ [] := by
  have hday := easterGetYday_range hy
  -- an offset that is not masked puts in a code
  have hcode : ∀ t ∈ bi383List s, ∃ x, 1 ≤ x ∧ x ≤ 383 ∧
      ∀ c, (if easterGetYday y = 0 then c
        else if u32OfInt ((easterGetYday y : Int) + t) = 0 ∨
            366 < u32OfInt ((easterGetYday y : Int) + t) then c
        else if (ydToMd y (u32OfInt ((easterGetYday y : Int) + t) : Nat)).m = 0 then c
        else if (!mdMatchP (ydToMd y (u32OfInt ((easterGetYday y : Int) + t) : Nat)) mon dom) = true then c
        else assBi383 c (packCand (ydToMd y (u32OfInt ((easterGetYday y : Int) + t) : Nat)).m
          (ydToMd y (u32OfInt ((easterGetYday y : Int) + t) : Nat)).d)) = assBi383 c x := by
    intro t ht
    have hrange := hs t ht
    obtain ⟨k, hk, h1, h365⟩ : ∃ k : Nat, (easterGetYday y : Int) + t = k ∧ 1 ≤ k ∧ k ≤ 365 :=
      ⟨((easterGetYday y : Int) + t).toNat, by omega, by omega, by omega⟩
    obtain ⟨m1, m12, d1, d2, -, -⟩ := ydToMd_spec (y := y) h1 (by omega)
    have hnd := (ndimGreg_range y m1 m12).2
    obtain ⟨hc1, hc2⟩ := codeOf_range ⟨m1, m12⟩ (d := (ydToMd y k).d) ⟨by omega, by omega⟩
    refine ⟨_, hc1, hc2, fun c => ?_⟩
    rw [hk, u32OfInt_ofNat (by omega), if_neg (by omega), if_neg (by omega), if_neg (by omega), if_neg,
      packCand_eq hc1 hc2]
    unfold mdMatchP
    rw [hmon, hdom]
    exact Bool.false_ne_true
  unfold fillYlyEastr
  generalize bi383List s = ts at hs hsome hcode ⊢
  clear hs
  have hor : bi383List c ≠ [] ∨ ∃ t ∈ ts, eastrMasked mask t = false := Or.inr hsome
  clear hsome
  induction ts generalizing c with
  | nil => simpa using hor
  | cons t ts ih =>
      rw [List.foldl_cons]
      refine ih _ (fun t' ht' => hcode t' (List.mem_cons_of_mem _ ht')) ?_
      obtain ⟨x, hx1, hx2, hx⟩ := hcode t List.mem_cons_self
      cases hmask : eastrMasked mask t with
      | false =>
          refine Or.inl ?_
          dsimp only
          rw [if_neg (by decide), hx]
          exact bi383List_ass hx1 hx2
      | true =>
          dsimp only
          rw [if_pos rfl]
          refine hor.imp_right ?_
          rintro ⟨t', ht', hno⟩
          rcases List.mem_cons.mp ht' with rfl | ht'
          · rw [hmask] at hno
            cases hno
          · exact ⟨t', ht', hno⟩

theorem fillYlyEastr_masked {y : Nat} {mon : Nat} {dom : Bitint} {mask : Nat} {s : Bitints}
    (hall : ∀ t ∈ bi383List s, eastrMasked mask t = true) (c : Bitints) :
    fillYlyEastr c y s mon dom mask = c := by
  unfold fillYlyEastr
  generalize bi383List s = ts at hall ⊢
  induction ts generalizing c with
  | nil => rfl
  | cons t ts ih =>
      rw [List.foldl_cons, hall t List.mem_cons_self]
      exact ih c fun t' ht' => hall t' (List.mem_cons_of_mem _ ht')

/-- The days that a yearly rule lists are near ones. -/
theorem ylyParts_near (hr : rr.Ranged) (proto : Instant) (nti : Nat) :
    ∀ t ∈ (ylyParts proto nti rr).d, -31 ≤ t := by
  intro t ht
  unfold ylyParts at ht
  dsimp only at ht
  split at ht
  · rw [List.mem_singleton.mp ht]
    omega
  · exact (mem_bi31List_dom hr t (List.mem_of_mem_take ht)).2.1

/-- **Alike years have the same candidates** but for those that go by Easter. -/
theorem ylyFill_alike {y z : Nat} (h : AlikeYears y z) (hscale : rr.scale = .gregorian) {p : Parts}
    (hp : ∀ t ∈ p.d, -31 ≤ t) :
    (bi383HasBits rr.easter = false → ylyFill rr p y = ylyFill rr p z) ∧
      (bi383HasBits rr.easter = true → ∃ c,
        ylyFill rr p y = fillYlyEastr c y rr.easter rr.mon rr.dom p.wdMask ∧
          ylyFill rr p z = fillYlyEastr c z rr.easter rr.mon rr.dom p.wdMask) := by
  unfold ylyFill
  simp only [hscale, h.fillYlyYwd_eq, h.fillYlyYcw_eq, h.fillYlyYd_eq, h.fillYlyYdAll_eq,
    h.fillYlyMdAll_eq, fillYlyYmcw, h.fillMlyYmcw_eq, fillYlyYmdAllD, h.fillMlyYmdAllD_eq,
    h.fillYlyYmdAllM_eq _ hp, h.fillYlyYmd_eq _ _ hp]
  constructor
  · intro he
    simp only [he, Bool.false_eq_true, and_false, if_false]
  · intro he
    simp only [he, and_self, if_true]
    exact ⟨_, rfl, rfl⟩

/-- **Whether a year has dates only depends on where in the cycle it is.** -/
theorem yearYields_alike (hr : rr.Ranged) (hscale : rr.scale = .gregorian) (he : EasterFree rr)
    {y z : Nat} (hy : 1901 ≤ y ∧ y ≤ 2099) (hz : 1901 ≤ z ∧ z ≤ 2099) (hyz : y % 28 = z % 28) :
    YearYields tgt nti rr y → YearYields tgt nti rr z := by
  obtain ⟨hfree, heastr⟩ := ylyFill_alike (AlikeYears.of_range hy hz hyz) hscale
    (ylyParts_near hr (protoOf tgt rr) nti)
  unfold YearYields
  cases hb : bi383HasBits rr.easter with
  | false =>
      rw [hfree hb]
      exact id
  | true =>
      obtain ⟨hmon, hdom, hs⟩ := he hb
      obtain ⟨c, hcy, hcz⟩ := heastr hb
      rw [hcy, hcz]
      by_cases hsome : ∃ t ∈ bi383List rr.easter,
          eastrMasked (ylyParts (protoOf tgt rr) nti rr).wdMask t = false
      · exact fun _ => fillYlyEastr_ne_nil hz hmon hdom _ hs hsome c
      · have hall : ∀ t ∈ bi383List rr.easter,
            eastrMasked (ylyParts (protoOf tgt rr) nti rr).wdMask t = true := by
          intro t ht
          by_contra hno
          exact hsome ⟨t, ht, by simpa using hno⟩
        rw [fillYlyEastr_masked hall, fillYlyEastr_masked hall]
        exact id

variable (nti) in
/-- The years a loop comes to. -/
theorem yly_orbit (proto : Instant) {y i : Nat} (h : y + i * rr.inter < 4294967296) :
    (ylyLoop proto nti rr).orbit { y := y } i = some { y := y + i * rr.inter } := by
  induction i with
  | zero => rw [Nat.zero_mul]; rfl
  | succ i ih =>
      rw [Nat.succ_mul] at h ⊢
      rw [Loop.orbit_succ, ih (by omega)]
      change some ({ y := u32 (y + i * rr.inter + rr.inter) } : Pos) = _
      rw [u32_of_lt (by omega), Nat.add_assoc]

/-- Without set positions and shifts the candidates are what the generators yield. -/
theorem ylyCands_open (ho : rr.Open) (p : Parts) (y : Nat) :
    ylyCands rr p y = .single (ylyFill rr p y) := by
  unfold ylyCands clrPoss shift
  rw [ho.pos, ho.shift]
  rfl

variable (tgt nti) in
theorem ylyLoop_yield (ho : rr.Open) {p : Pos} (hy : p.y ≤ 2099) :
    ((ylyLoop (protoOf tgt rr) nti rr).gather ((ylyLoop (protoOf tgt rr) nti rr).groups p)).2 = .cont ∧
      ∀ x, x ∈ (ylyLoop (protoOf tgt rr) nti rr).yield p ↔
        ∃ yd ∈ bi383List (ylyFill rr (ylyParts (protoOf tgt rr) nti rr) p.y),
          x ∈ (makeEnum (protoOf tgt rr) rr).on (protoOf tgt rr).ms
            ⟨p.y, u32OfInt yd / 32 + 1, u32OfInt yd % 32⟩ ∧
          echsInstantLtP x (protoOf tgt rr) = false := by
  refine yield_single ?_ ?_ hy
  · change judgeUntil rr.until_ _ = _
    rw [ho.until_]
  · change candGroups _ _ _ (ylyCands _ _ _) = _
    rw [ylyCands_open ho]

theorem fruitful_year (ho : rr.Open) {i : Nat} (hy : (protoOf tgt rr).y + i * rr.inter ≤ 2099) :
    ((ylyLoop (protoOf tgt rr) nti rr).Fruitful { y := (protoOf tgt rr).y } i →
        YearYields tgt nti rr ((protoOf tgt rr).y + i * rr.inter)) ∧
      (0 < i * rr.inter → YearYields tgt nti rr ((protoOf tgt rr).y + i * rr.inter) →
        (ylyLoop (protoOf tgt rr) nti rr).Fruitful { y := (protoOf tgt rr).y } i) := by
  have horbit : (ylyLoop (protoOf tgt rr) nti rr).orbit { y := (protoOf tgt rr).y } i =
      some { y := (protoOf tgt rr).y + i * rr.inter } := yly_orbit nti _ (by omega)
  have hyield := (ylyLoop_yield tgt nti ho
    (p := { y := (protoOf tgt rr).y + i * rr.inter }) hy).2
  constructor
  · rintro ⟨q, hq, -, hne⟩
    rw [horbit] at hq
    cases hq
    obtain ⟨x, hx⟩ := List.exists_mem_of_ne_nil _ hne
    obtain ⟨yd, hyd, -⟩ := (hyield x).mp hx
    exact List.ne_nil_of_mem hyd
  · intro hlater hyields
    refine ⟨_, horbit, rfl, ?_⟩
    obtain ⟨yd, hyd⟩ := List.exists_mem_of_ne_nil _ hyields
    obtain ⟨x, hx⟩ := List.exists_mem_of_ne_nil _ (makeEnum_times (protoOf tgt rr) rr
      ((protoOf tgt rr).y + i * rr.inter) (u32OfInt yd / 32 + 1) (u32OfInt yd % 32) (protoOf tgt rr).ms)
    refine List.ne_nil_of_mem ((hyield x).mpr ⟨yd, hyd, hx, not_early ?_⟩)
    have hdate := (on_date (t := ⟨_, _, _⟩) hx).1
    have hm := (protoOf tgt rr).fits.2.1
    dsimp only at hdate
    omega

variable (nti) in
theorem clampCount_open (hcount : rr.count = -1) (hnti : nti < 4294967296) :
    clampCount rr nti = nti ∧ countGone rr nti = false := by
  have hu : u32OfInt (-1) = 4294967295 := by decide
  unfold clampCount countGone
  rw [hcount, hu, if_neg (by omega)]
  exact ⟨rfl, by simp⟩

/-- **An open-ended yearly rule ends where it has no dates left**, as far as the calendar goes. -/
theorem years_kept (ho : rr.Open) (hr : rr.Ranged) (hnti : nti < 4294967296)
    (hy0 : 1901 ≤ (protoOf tgt rr).y) (he : EasterFree rr) : YearsKept tgt nti rr := by
  intro n hdone hlen y hlt hle hmod hlater hyields
  obtain ⟨hroom, hgone⟩ := clampCount_open nti ho.count hnti
  set y0 := (protoOf tgt rr).y with hy0def
  set L := ylyLoop (protoOf tgt rr) nti rr with hL
  have hafter : (rrulFillYly tgt nti rr).after n =
      L.passes (some nti) n (L.start { y := y0 }) := by
    unfold Expander.after Expander.init rrulFillYly ylyStartYear
    rw [hgone, hroom, ho.shift]
    rfl
  unfold Expander.events at hlen hlater
  rw [hafter] at hdone hlen hlater
  rw [List.length_map] at hlen
  have hrun : L.passes (some nti) n (L.start { y := y0 }) = L.passes none n (L.start { y := y0 }) := by
    rcases Loop.bounded_or_full (L := L) nti (L.start { y := y0 }) n with h | h
    · exact h
    · omega
  rw [hrun] at hdone hlater
  -- the year is `j` steps away
  obtain ⟨j, hj⟩ := (Nat.modEq_iff_dvd' hlt.le).mp hmod.symm
  have hyj : y = y0 + j * rr.inter := by
    rw [Nat.mul_comm] at hj
    omega
  have hinter : 0 < rr.inter := by
    rcases Nat.eq_zero_or_pos rr.inter with h0 | hpos
    · rw [h0, Nat.mul_zero] at hyj
      omega
    · exact hpos
  have hin : ∀ i ≤ j, y0 + i * rr.inter ≤ 2099 := by
    intro i hi
    have := Nat.mul_le_mul_right rr.inter hi
    omega
  have hpos : ∀ i, 0 < i → 0 < i * rr.inter := fun i hi => Nat.mul_pos hi hinter
  have hfj : L.Fruitful { y := y0 } j := by
    refine (fruitful_year ho (hin j le_rfl)).2 (by omega) ?_
    rw [← hy0def, ← hyj]
    exact hyields
  obtain ⟨n', hjn, htry, hn'⟩ := Loop.not_left_before (r := 64) rfl hdone (j := j)
    (fun i hi q hq => by
      rw [yly_orbit _ _ (by have := hin i hi; omega)] at hq
      cases hq
      rw [(ylyLoop_yield _ _ ho (hin i hi)).1]
      decide)
    (fun i hi hf hmany => by
      have hfar := Loop.worked_le (L := L) (p := { y := y0 }) (Nat.zero_le i)
      refine ⟨i - 28, by omega, ?_, ?_⟩
      · have := Loop.worked_le (L := L) (p := { y := y0 }) (Nat.sub_le i 28)
        omega
      · have hback : i * rr.inter = (i - 28) * rr.inter + 28 * rr.inter := by
          rw [← Nat.add_mul]
          congr 1
          omega
        have hi' := hin i hi
        refine (fruitful_year ho (hin _ (by omega))).2 (hpos _ (by omega)) ?_
        refine yearYields_alike hr ho.scale he ⟨by omega, hi'⟩ ⟨by omega, hin _ (by omega)⟩ ?_
          ((fruitful_year ho hi').1 hf)
        omega)
    hfj
  -- so the year has been seen, and what it has was stored
  obtain ⟨q, hq, hhop, hne⟩ := hfj
  obtain ⟨x, hx⟩ := List.exists_mem_of_ne_nil _ hne
  have hstored := htry.stored j hjn q hq hhop x hx
  have hmem := (Loop.prefix_passes (L := L) none (L.start { y := y0 }) hn'.le).subset hstored
  have hxy := hlater _ (List.mem_map_of_mem hmem)
  rw [yly_orbit _ _ (by omega)] at hq
  cases hq
  obtain ⟨yd, -, hon, -⟩ := ((ylyLoop_yield _ _ ho (hin j le_rfl)).2 x).mp hx
  have hdate := (on_date (t := ⟨_, _, _⟩) hon).1
  have hev : (L.entry { y := y0 + j * rr.inter } x).ev.y = y := by
    change (echsInstantAttachScale x rr.scale).y = y
    rw [ho.scale]
    unfold echsInstantAttachScale Instant.pack Scale.num
    dsimp only at hdate ⊢
    omega
  omega

end Yearly

end Echse
