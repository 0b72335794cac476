/-
The parts of a rule, as `send_rrul` writes them and `snarf_rrule` reads them.

Each part that is written is one turn of the reader, which puts into the rule what `reread`
says.  The sets are read into empty ones, and the weekdays need that no comma of the parts
after them comes before something like a weekday.
-/
import Echse.Proofs.RrulSets

namespace Echse

/-! ### Parts that may not be written -/

theorem EndsPart.opt {t : List Char} (h : EndsPart t) (c : Prop) [Decidable c] (key : String)
    (val : List Char) : EndsPart ((if c then Echse.sendPart key val else []) ++ t) := by
  split
  · exact .sendPart key val t
  · exact h

theorem EndsPart.list {t : List Char} (h : EndsPart t) {α : Type} (key : String) (has : Bool)
    (next : Nat → α × Nat) (fuel : Nat) (fmt : α → List Char) :
    EndsPart (sendBy key has next fuel fmt ++ t) := h.opt _ _ _

theorem Quiet.opt {t : List Char} (h : Quiet t) (c : Prop) [Decidable c] (key : String)
    {val : List Char} (hk : ',' ∉ key.toList) (hv : c → Quiet (val ++ t)) : Quiet ((if c then sendPart key val else []) ++ t) := by
  split
  · rename_i hc
    have hkey : ',' ∉ ';' :: key.toList ++ ['='] := by simp [hk]
    have := (hv hc).append hkey
    simpa [sendPart] using this
  · exact h

/-- A part that may not be written, where the reader makes `rr'` of it. -/
theorem readRest_opt {c : Prop} [Decidable c] {key : String} {val t : List Char}
    (hk : ';' ∉ key.toList ∧ '=' ∉ key.toList) (ht : EndsPart t) {rr rr' : Rrulsp}
    (hv : c → ';' ∉ val) (hp : c → readPart key val t rr = some rr') (hn : ¬ c → rr' = rr) :
    readRest ((if c then sendPart key val else []) ++ t) rr = readRest t rr' := by
  split
  · rename_i hc
    rw [readRest_part hk (hv hc) ht, hp hc, Option.bind_some]
  · rename_i hc
    rw [hn hc, List.nil_append]

/-! ### Sets -/

theorem mem_digit {c : Char} (h : c ∈ [';', ',']) : c.isDigit = false := by
  fin_cases h <;> rfl

theorem not_mem_fmtD {c : Char} (z : Int) (hc : c.isDigit = false) (hm : c ≠ '-') :
    c ∉ fmtD z := by
  rw [fmtD]
  split
  · simp [hm, not_mem_fmtU _ hc]
  · exact not_mem_fmtU _ hc

/-- What iterating over a narrow set writes is a machine word. -/
theorem sendVals_bui_lt {bi : Nat} (h : bi < 2 ^ 32) : ∀ v ∈ sendVals (bui31Next bi) 33, v < 2 ^ 32 := by
  intro v hv
  by_cases h0 : bi = 0
  · rw [h0, has_sendVals_zero] at hv
    omega
  · rw [mem_sendVals_bui h h0, buiHasBit] at hv
    split at hv
    · have : bi >>> 1 = v := by simpa using hv
      rw [Nat.shiftRight_one] at this
      omega
    · by_contra hge
      have hlt : bi < 2 ^ (v + 1) := h.trans_le (Nat.pow_le_pow_right (by decide) (by omega))
      rw [Nat.testBit_lt_two_pow hlt] at hv
      cases hv

theorem sendVals_ne_nil {α : Type} (next : Nat → α × Nat) (fuel : Nat) :
    sendVals next fuel ≠ [] := List.cons_ne_nil _ _

/-- Unsigned values are read back. -/
theorem snarfUints_sendVals {w : Nat} {ok : Nat → Bool} {bi : Nat} (h : bi < 2 ^ 32)
    {t : List Char} (ht : EndsPart t) :
    snarfUints ok (assBui w) (sendList fmtU (sendVals (bui31Next bi) 33) ++ t) 0 =
      rereadUints w ok true bi := by
  have hf := length_sendList fmtU (sendVals (bui31Next bi) 33)
  rw [snarfUints, snarfList_sendList (f := id) _
    (fun v hv s hs => strtoul_fmtU ((sendVals_bui_lt h v hv).trans (by decide)) hs)
    (sendVals_ne_nil _ _) ht (hf.trans (by rw [List.length_append]; omega)), List.map_id]
  rfl

theorem sendVals_bi_long {w : Nat} (hw : 1 < w ∧ w ≤ 64) {P : Int → Prop} {bi : Bitint}
    (h : IntSet w P bi) (hP : ∀ x, P x → x ≠ 0 ∧ -(w : Int) < x ∧ x < w) {fuel : Nat}
    (hf : 2 * w ≤ fuel + 1) : ∀ v ∈ sendVals (biNext w bi) fuel, IsLong v := by
  intro v hv
  by_cases hpos : bi.pos = 0
  · rw [sendVals_bi_neg h (fun x hx => (hP x hx).1) hpos, List.mem_singleton] at hv
    rw [hv]
    exact ⟨by decide, by decide⟩
  · rw [mem_sendVals_bi hw.1 h hP hpos hf] at hv
    obtain ⟨-, h1, h2⟩ := hP v (h.mem v hv)
    exact ⟨by omega, by omega⟩

/-- Signed values are read back. -/
theorem snarfInts_sendVals {w fuel : Nat} {lim : Int} {bi : Bitint} (hb : biHasBits bi = true)
    (hl : ∀ v ∈ sendVals (biNext w bi) fuel, IsLong v) {t : List Char} (ht : EndsPart t) :
    snarfInts lim (assBi w) (sendList fmtD (sendVals (biNext w bi) fuel) ++ t) ⟨0, 0⟩ =
      rereadInts w fuel lim bi := by
  have hf := length_sendList fmtD (sendVals (biNext w bi) fuel)
  rw [snarfInts, snarfList_sendList (f := id) _ (fun v hv s hs => strtol_fmtD (hl v hv) hs)
    (sendVals_ne_nil _ _) ht (hf.trans (by rw [List.length_append]; omega)), List.map_id,
    rereadInts, if_pos hb]

/-- The values of a wide set are read back. -/
theorem snarfList_sendBints {n fuel : Nat} {ok : Int → Prop} [DecidablePred ok] {bi : Bitints}
    (hb : bintsHasBits bi = true) (hl : ∀ v ∈ sendVals (bintsNext n bi) fuel, IsLong v)
    {t : List Char} (ht : EndsPart t) {m : Nat}
    (hm : (sendList fmtD (sendVals (bintsNext n bi) fuel) ++ t).length < m) :
    snarfList strtol (fun s v => if ok v then assBints n s v else s) m
        (sendList fmtD (sendVals (bintsNext n bi) fuel) ++ t) .nil =
      rereadBints n fuel ok bi := by
  have hf := length_sendList fmtD (sendVals (bintsNext n bi) fuel)
  rw [List.length_append] at hm
  rw [snarfList_sendList (f := id) _ (fun v hv s hs => strtol_fmtD (hl v hv) hs)
    (sendVals_ne_nil _ _) ht (hf.trans (by omega)), List.map_id, rereadBints, if_pos hb]

/-! ### The rule that is read -/

/-- Whether `COUNT` comes right after the scale. -/
def countNext (rr : Rrulsp) : Bool :=
  !bui31HasBits rr.mon && (!bi63HasBits rr.wk && (!bi383HasBits rr.doy && (!bi31HasBits rr.dom &&
    (!bi383HasBits rr.easter && (!bi447HasBits rr.dow && (!bui31HasBits rr.H &&
      (!bui31HasBits (rr.M % 2 ^ 32) && (!bui63HasBits rr.S && (!bi383HasBits rr.pos &&
        (rr.shift == 0 && decide (0 ≤ rr.count)))))))))))

/-- The scale that is read: the `C` of a count makes the type civil, and the `C` of a type
is looked for one character too far. -/
def rereadScale (count : Bool) : Scale → Scale
  | .hijriIA | .hijriIC => if count then .hijriIC else .hijriIA
  | .hijriIIA | .hijriIIC => if count then .hijriIIC else .hijriIIA
  | sc => sc

instance : DecidablePred IsCd := fun x =>
  inferInstanceAs (Decidable (-53 ≤ x / 8 ∧ x / 8 ≤ 53 ∧ 1 ≤ x % 8))

/-- What a rule is read back as, unless its count is 0. -/
def reread (rr : Rrulsp) : Rrulsp where
  freq := rr.freq
  scale := rereadScale (countNext rr) rr.scale
  count := if 0 ≤ rr.count then rr.count else -1
  inter := if 1 < rr.inter then rr.inter else 1
  until_ :=
    if rr.until_.u < 2 ^ 64 - 1 then
      if rr.until_.H = echsAllDay then rr.until_
      else .pack rr.until_.y rr.until_.m rr.until_.d rr.until_.H rr.until_.M rr.until_.S echsAllSec
    else echsMaxInstant
  shift := rereadShift rr.shift
  dom := rereadInts 32 66 31 rr.dom
  doy := rereadBints 12 769 (fun v => v ≠ 0 ∧ -366 ≤ v ∧ v ≤ 366) rr.doy
  dow := rereadBints 14 897 IsCd rr.dow
  mon := rereadUints 32 (fun v => v ≠ 0 && v ≤ 12) (bui31HasBits rr.mon) rr.mon
  wk := rereadInts 64 130 53 rr.wk
  H := rereadUints 32 (· ≤ 24) (bui31HasBits rr.H) rr.H
  M := rereadUints 64 (· < 60) (bui31HasBits (rr.M % 2 ^ 32)) (rr.M % 2 ^ 32)
  S := rereadUints 64 (· ≤ 60) (bui63HasBits rr.S) (rr.S % 2 ^ 32)
  easter := rereadBints 12 769 (fun v => -366 ≤ v ∧ v ≤ 366) rr.easter

section Parts

variable {rr r : Rrulsp} {t : List Char}

theorem readRest_inter (ht : EndsPart t) (h : rr.Typed) (h1 : r.inter = 1) :
    readRest ((if 1 < rr.inter then sendPart "INTERVAL" (fmtU rr.inter) else []) ++ t) r =
      readRest t { r with inter := (reread rr).inter } := by
  refine readRest_opt (by decide) ht (fun _ => not_mem_fmtU _ (by decide)) (fun hc => ?_)
    fun hc => ?_
  · have hlt := h.inter
    have hr := strtol_fmtU (n := rr.inter) ⟨by omega, by omega⟩ ht.stops
    have hk : evrrulKey "INTERVAL".toList = some .inter := by decide
    have hu : u32OfInt rr.inter = rr.inter := by
      rw [u32OfInt, wordOfInt]
      omega
    simp only [readPart, hk, snarfPart, hr, reread, if_pos hc, hu]
    rw [if_neg (by omega)]
  · have hi : (reread rr).inter = r.inter := by rw [reread, if_neg hc, h1]
    rw [hi]

/-- A part with unsigned values. -/
theorem readRest_uints {key : String} {k : RrulKey} {w : Nat} {ok : Nat → Bool} {has : Bool}
    {bi : Nat} {g : Nat → Rrulsp} (hk : evrrulKey key.toList = some k)
    (hkey : ';' ∉ key.toList ∧ '=' ∉ key.toList) (hlt : bi < 2 ^ 32) (ht : EndsPart t)
    (hg : ∀ kv, snarfPart k kv (g 0) = some (g (snarfUints ok (assBui w) kv 0))) :
    readRest (sendBy key has (bui31Next bi) 33 fmtU ++ t) (g 0) =
      readRest t (g (rereadUints w ok has bi)) := by
  refine readRest_opt hkey ht (fun _ => not_mem_sendList (by decide) fun _ _ =>
    not_mem_fmtU _ (by decide)) (fun hc => ?_) fun hc => ?_
  · rw [readPart, hk]
    dsimp only
    rw [hg, snarfUints_sendVals hlt ht, hc]
  · rw [rereadUints, if_neg hc]

/-- A part with signed values. -/
theorem readRest_ints {key : String} {k : RrulKey} {w fuel : Nat} {lim : Int} {bi : Bitint}
    {g : Bitint → Rrulsp} (hk : evrrulKey key.toList = some k)
    (hkey : ';' ∉ key.toList ∧ '=' ∉ key.toList)
    (hl : ∀ v ∈ sendVals (biNext w bi) fuel, IsLong v) (ht : EndsPart t)
    (hg : ∀ kv, snarfPart k kv (g ⟨0, 0⟩) = some (g (snarfInts lim (assBi w) kv ⟨0, 0⟩))) :
    readRest (sendBy key (biHasBits bi) (biNext w bi) fuel fmtD ++ t) (g ⟨0, 0⟩) =
      readRest t (g (rereadInts w fuel lim bi)) := by
  refine readRest_opt hkey ht (fun _ => not_mem_sendList (by decide) fun _ _ =>
    not_mem_fmtD _ (by decide) (by decide)) (fun hc => ?_) fun hc => ?_
  · rw [readPart, hk]
    dsimp only
    rw [hg, snarfInts_sendVals hc hl ht]
  · rw [rereadInts, if_neg hc]

/-- A part with the values of a wide set. -/
theorem readRest_bints {key : String} {k : RrulKey} {n fuel : Nat} {ok : Int → Prop}
    [DecidablePred ok] {bi : Bitints} {g : Bitints → Rrulsp} (hk : evrrulKey key.toList = some k)
    (hkey : ';' ∉ key.toList ∧ '=' ∉ key.toList)
    (hl : bintsHasBits bi = true → ∀ v ∈ sendVals (bintsNext n bi) fuel, IsLong v)
    (ht : EndsPart t)
    (hg : ∀ kv, snarfPart k kv (g .nil) = some (g (snarfList strtol
      (fun s v => if ok v then assBints n s v else s) (kv.length + 1) kv .nil))) :
    readRest (sendBy key (bintsHasBits bi) (bintsNext n bi) fuel fmtD ++ t) (g .nil) =
      readRest t (g (rereadBints n fuel ok bi)) := by
  refine readRest_opt hkey ht (fun _ => not_mem_sendList (by decide) fun _ _ =>
    not_mem_fmtD _ (by decide) (by decide)) (fun hc => ?_) fun hc => ?_
  · rw [readPart, hk]
    dsimp only
    rw [hg, snarfList_sendBints hc (hl hc) ht (Nat.lt_succ_self _)]
  · rw [rereadBints, if_neg hc]

theorem readRest_mon (ht : EndsPart t) (h : rr.Ranged) (h0 : r.mon = 0) :
    readRest (sendBy "BYMONTH" (bui31HasBits rr.mon) (bui31Next rr.mon) 33 fmtU ++ t) r =
      readRest t { r with mon := (reread rr).mon } := by
  have hr : r = { r with mon := 0 } := by rw [← h0]
  rw [hr]
  exact readRest_uints (k := .byMon) (g := fun s => { r with mon := s }) (by decide)
    (by decide) h.mon.lt ht fun _ => rfl

theorem readRest_H (ht : EndsPart t) (h : rr.Ranged) (h0 : r.H = 0) :
    readRest (sendBy "BYHOUR" (bui31HasBits rr.H) (bui31Next rr.H) 33 fmtU ++ t) r =
      readRest t { r with H := (reread rr).H } := by
  have hr : r = { r with H := 0 } := by rw [← h0]
  rw [hr]
  exact readRest_uints (k := .byHour) (g := fun s => { r with H := s }) (by decide)
    (by decide) h.H.lt ht fun _ => rfl

theorem readRest_M (ht : EndsPart t) (h0 : r.M = 0) :
    readRest (sendBy "BYMINUTE" (bui31HasBits (rr.M % 2 ^ 32)) (bui31Next (rr.M % 2 ^ 32)) 33
        fmtU ++ t) r =
      readRest t { r with M := (reread rr).M } := by
  have hr : r = { r with M := 0 } := by rw [← h0]
  rw [hr]
  exact readRest_uints (k := .byMin) (g := fun s => { r with M := s }) (by decide) (by decide)
    (Nat.mod_lt _ (by decide)) ht fun _ => rfl

theorem readRest_S (ht : EndsPart t) (h0 : r.S = 0) :
    readRest (sendBy "BYSECOND" (bui63HasBits rr.S) (bui31Next (rr.S % 2 ^ 32)) 33 fmtU ++ t) r =
      readRest t { r with S := (reread rr).S } := by
  have hr : r = { r with S := 0 } := by rw [← h0]
  rw [hr]
  exact readRest_uints (k := .bySec) (g := fun s => { r with S := s }) (by decide) (by decide)
    (Nat.mod_lt _ (by decide)) ht fun _ => rfl

theorem readRest_wk (ht : EndsPart t) (h : rr.Ranged) (h0 : r.wk = ⟨0, 0⟩) :
    readRest (sendBy "BYWEEKNO" (bi63HasBits rr.wk) (bi63Next rr.wk) 130 fmtD ++ t) r =
      readRest t { r with wk := (reread rr).wk } := by
  have hr : r = { r with wk := ⟨0, 0⟩ } := by rw [← h0]
  rw [hr]
  exact readRest_ints (k := .byWeek) (g := fun s => { r with wk := s }) (by decide) (by decide)
    (sendVals_bi_long (by decide) h.wk (fun x hx => ⟨hx.1, by omega, by omega⟩) (by decide)) ht
    fun _ => rfl

theorem readRest_dom (ht : EndsPart t) (h : rr.Ranged) (h0 : r.dom = ⟨0, 0⟩) :
    readRest (sendBy "BYMONTHDAY" (bi31HasBits rr.dom) (bi31Next rr.dom) 66 fmtD ++ t) r =
      readRest t { r with dom := (reread rr).dom } := by
  have hr : r = { r with dom := ⟨0, 0⟩ } := by rw [← h0]
  rw [hr]
  exact readRest_ints (k := .byMday) (g := fun s => { r with dom := s }) (by decide) (by decide)
    (sendVals_bi_long (by decide) h.dom (fun x hx => ⟨hx.1, by omega, by omega⟩) (by decide)) ht
    fun _ => rfl

/-- The values of a wide set are machine words. -/
theorem sendVals_bints_ok {n fuel : Nat} {P : Int → Prop} {bi : Bitints} (hn : 0 < n)
    (h : WideSet n P bi) (hP : ∀ x, P x → -(32 * n : Int) < x ∧ x < 32 * n - 1)
    (hv : Nonvoid n bi) (hf : 64 * n ≤ fuel + 1) (hb : bintsHasBits bi = true) :
    ∀ v ∈ sendVals (bintsNext n bi) fuel, P v := by
  intro v hm
  rw [mem_sendVals_bints hn h hP hv hb hf] at hm
  exact h.sat hn hm

theorem readRest_doy (ht : EndsPart t) (h : rr.Ranged) (hl : rr.Legible) (h0 : r.doy = .nil) :
    readRest (sendBy "BYYEARDAY" (bi383HasBits rr.doy) (bi383Next rr.doy) 769 fmtD ++ t) r =
      readRest t { r with doy := (reread rr).doy } := by
  have hr : r = { r with doy := .nil } := by rw [← h0]
  rw [hr]
  refine readRest_bints (k := .byYday) (g := fun s => { r with doy := s }) (by decide) (by decide)
    (fun hb v hv => ?_) ht fun _ => rfl
  obtain ⟨-, h1, h2⟩ := sendVals_bints_ok (n := 12) (by decide) h.doy
    (fun x hx => ⟨by omega, by omega⟩) hl.doy (by decide) hb v hv
  exact ⟨by omega, by omega⟩

theorem readRest_easter (ht : EndsPart t) (h : rr.Ranged) (hl : rr.Legible)
    (h0 : r.easter = .nil) :
    readRest (sendBy "BYEASTER" (bi383HasBits rr.easter) (bi383Next rr.easter) 769 fmtD ++ t) r =
      readRest t { r with easter := (reread rr).easter } := by
  have hr : r = { r with easter := .nil } := by rw [← h0]
  rw [hr]
  refine readRest_bints (k := .byEaster) (g := fun s => { r with easter := s }) (by decide) (by decide)
    (fun hb v hv => ?_) ht fun _ => rfl
  obtain ⟨h1, h2⟩ := sendVals_bints_ok (n := 12) (by decide) h.easter
    (fun x hx => ⟨by omega, by omega⟩) hl.easter (by decide) hb v hv
  exact ⟨by omega, by omega⟩

/-- The positions are written with a keyword that there is not. -/
theorem readRest_pos (ht : EndsPart t) :
    readRest (sendBy "BYPOS" (bi383HasBits rr.pos) (bi383Next rr.pos) 769 fmtD ++ t) r =
      readRest t r := by
  have hk : evrrulKey "BYPOS".toList = none := by decide
  refine readRest_opt (by decide) ht (fun _ => not_mem_sendList (by decide) fun _ _ =>
    not_mem_fmtD _ (by decide) (by decide)) (fun _ => ?_) fun _ => rfl
  rw [readPart, hk]

/-! ### Weekdays -/

theorem not_mem_sendCd {cd : Cd} (h : 1 ≤ cd.dow ∧ cd.dow ≤ 7) : ';' ∉ sendCd cd := by
  obtain ⟨-, -, -, -, hw⟩ := snarfWday_name h []
  rw [sendCd, List.mem_append, not_or]
  refine ⟨?_, hw⟩
  split
  · exact not_mem_fmtD _ (by decide) (by decide)
  · simp

theorem readRest_dow (ht : EndsPart t) (hq : Quiet t) (h : rr.Ranged) (hl : rr.Legible)
    (h0 : r.dow = .nil) :
    readRest (sendBy "BYDAY" (bi447HasBits rr.dow) (bi447Next rr.dow) 897
        (fun x => sendCd (unpackCd x)) ++ t) r =
      readRest t { r with dow := (reread rr).dow } := by
  have hvs : bintsHasBits rr.dow = true → ∀ v ∈ sendVals (bi447Next rr.dow) 897, IsCd v :=
    fun hb => sendVals_bints_ok (by decide) h.dow (fun x hx => isCd_lt hx) hl.dow (by decide) hb
  have hcd : ∀ v, IsCd v → 1 ≤ (unpackCd v).dow ∧ (unpackCd v).dow ≤ 7 := by
    rintro v ⟨-, -, h8⟩
    rw [unpackCd]
    dsimp only
    omega
  refine readRest_opt (by decide) ht (fun hb => not_mem_sendList (by decide) fun v hv =>
    not_mem_sendCd (hcd v (hvs hb v hv))) (fun hb => ?_) fun hb => ?_
  · have hk : evrrulKey "BYDAY".toList = some .byWday := by decide
    have hf := length_sendList (fun x => sendCd (unpackCd x)) (sendVals (bi447Next rr.dow) 897)
    have hd : (reread rr).dow = (sendVals (bi447Next rr.dow) 897).foldl assBi447 .nil := by
      refine (if_pos hb).trans (List.foldl_ext _ _ _ fun s v hv => ?_)
      exact if_pos (hvs hb v hv)
    rw [readPart, hk, hd]
    dsimp only
    rw [snarfPart, h0, snarfWdays_sendList (hvs hb) (sendVals_ne_nil _ _) hq
      (hf.trans (by rw [List.length_append]; omega))]
  · have hd : (reread rr).dow = r.dow := by
      rw [h0]
      exact if_neg hb
    rw [hd]

/-! ### The others -/

theorem not_mem_ui32tpstr {c : Char} (hc : c.isDigit = false) (d pad : Nat) :
    c ∉ ui32tpstr d pad := by
  induction pad generalizing d with
  | zero => simp [ui32tpstr]
  | succ pad ih =>
      rw [ui32tpstr]
      split
      · simp
      · rw [List.mem_append, not_or]
        refine ⟨ih _, ?_⟩
        have hd : d % 10 < 10 := Nat.mod_lt _ (by decide)
        rw [List.mem_singleton]
        rintro rfl
        generalize d % 10 = k at hc hd
        interval_cases k <;> simp at hc

theorem not_mem_dtStrfIcal {c : Char} (hc : c.isDigit = false) (hT : c ≠ 'T' ∧ c ≠ 'Z')
    (i : Instant) : c ∉ dtStrfIcal i := by
  have hn := not_mem_ui32tpstr hc
  rw [dtStrfIcal]
  split <;> simp [hn, hT]

theorem readRest_until (h : rr.Legible) (h0 : r.until_ = echsMaxInstant) :
    readRest ((if rr.until_.u < 2 ^ 64 - 1 then sendPart "UNTIL" (dtStrfIcal rr.until_) else []) ++
        []) r = some { r with until_ := (reread rr).until_ } := by
  refine (readRest_opt (by decide) endsPart_nil (fun _ => not_mem_dtStrfIcal (by decide)
    (by decide) _) (fun hc => ?_) fun hc => ?_).trans (readRest_nil _)
  · have hs : Stampable rr.until_ := h.until_.resolve_left fun hm => by
      rw [hm] at hc
      exact absurd hc (by decide)
    have hk : evrrulKey "UNTIL".toList = some .until_ := by decide
    rw [readPart, hk]
    dsimp only
    rw [snarfPart, List.append_nil, dtStrp_dtStrfIcal hs]
    simp only [reread, if_pos hc]
  · have hu : (reread rr).until_ = r.until_ := by
      rw [h0]
      exact if_neg hc
    rw [hu]

/-- **A count that is not 0 is read back.** -/
theorem readRest_count (ht : EndsPart t) (h : rr.Typed) (hz : rr.count ≠ 0) (h0 : r.count = -1) :
    readRest ((if 0 ≤ rr.count then sendPart "COUNT" (fmtU (rr.count.toNat + 0)) else []) ++ t) r =
      readRest t { r with count := (reread rr).count } := by
  refine readRest_opt (by decide) ht (fun _ => not_mem_fmtU _ (by decide)) (fun hc => ?_)
    fun hc => ?_
  · obtain ⟨h1, h2⟩ := h.count
    have hr := strtol_fmtU (n := rr.count.toNat) ⟨by omega, by omega⟩ ht.stops
    have hk : evrrulKey "COUNT".toList = some .count := by decide
    have hn : (rr.count.toNat : Int) = rr.count := by omega
    have hi : (reread rr).count = rr.count := if_pos hc
    rw [readPart, hk]
    dsimp only
    rw [snarfPart, Nat.add_zero, hr]
    dsimp only
    rw [hn, if_neg hz, intOfLong_eq h.count, hi]
  · have hi : (reread rr).count = r.count := by
      rw [h0]
      exact if_neg hc
    rw [hi]

/-- A count of 0 is no rule. -/
theorem readRest_count_zero (ht : EndsPart t) (hz : rr.count = 0) :
    readRest ((if 0 ≤ rr.count then sendPart "COUNT" (fmtU (rr.count.toNat + 0)) else []) ++ t) r =
      none := by
  have hr := strtol_fmtU (n := 0) ⟨by decide, by decide⟩ ht.stops
  have hk : evrrulKey "COUNT".toList = some .count := by decide
  rw [hz, if_pos le_rfl, readRest_part (by decide) (not_mem_fmtU _ (by decide)) ht, readPart, hk]
  dsimp only
  rw [snarfPart]
  simp only [Int.toNat_zero, Nat.add_zero, hr]
  rfl

theorem not_mem_sendShift (sh : Int) : ';' ∉ sendShift sh := by
  have hu : ∀ n, ';' ∉ fmtU n := fun n => not_mem_fmtU n (by decide)
  have hd : ∀ z, ';' ∉ fmtD z := fun z => not_mem_fmtD z (by decide) (by decide)
  rw [sendShift_eq, List.mem_append, not_or]
  refine ⟨?_, ?_⟩
  · split
    · exact hd _
    · simp
  · split
    · rw [List.mem_append, not_or, sendBdays]
      refine ⟨by split <;> simp, ?_⟩
      cases echsShiftNegP sh <;> simp [hu]
    · simp

theorem readRest_shift (ht : EndsPart t) (h : rr.Typed) (h0 : r.shift = 0) :
    readRest ((if rr.shift ≠ 0 then sendPart "SHIFT" (sendShift rr.shift) else []) ++ t) r =
      readRest t { r with shift := (reread rr).shift } := by
  refine readRest_opt (by decide) ht (fun _ => not_mem_sendShift _) (fun hc => ?_) fun hc => ?_
  · have hk : evrrulKey "SHIFT".toList = some .shift := by decide
    rw [readPart, hk]
    dsimp only
    rw [snarfPart, snarfShift_sendShift h.shift hc ht]
    rfl
  · have hz : rr.shift = 0 := by simpa using hc
    have hi : (reread rr).shift = r.shift := by
      rw [h0, reread, hz]
      rfl
    rw [hi]

/-! ### The first part, and the scale -/

theorem sendFreq_eq {f : Freq} (hf : f ≠ .none) :
    ∃ val, sendFreq f = "FREQ".toList ++ '=' :: val ∧ ';' ∉ val ∧
      ∀ t, snarfFreq (val ++ t) = f := by
  cases f with
  | none => exact absurd rfl hf
  | yearly => exact ⟨"YEARLY".toList, rfl, by decide, fun t => by simp [snarfFreq]⟩
  | monthly => exact ⟨"MONTHLY".toList, rfl, by decide, fun t => by simp [snarfFreq]⟩
  | weekly => exact ⟨"WEEKLY".toList, rfl, by decide, fun t => by simp [snarfFreq]⟩
  | daily => exact ⟨"DAILY".toList, rfl, by decide, fun t => by simp [snarfFreq]⟩
  | hourly => exact ⟨"HOURLY".toList, rfl, by decide, fun t => by simp [snarfFreq]⟩
  | minutely => exact ⟨"MINUTELY".toList, rfl, by decide, fun t => by simp [snarfFreq]⟩
  | secondly => exact ⟨"SECONDLY".toList, rfl, by decide, fun t => by simp [snarfFreq]⟩

/-- What comes after the scale: nothing, or a keyword, which starts with a `C` or not. -/
def ScaleEnd (count : Bool) (t : List Char) : Prop :=
  (t = [] ∧ count = false) ∨
    ∃ a b s, t = ';' :: a :: b :: s ∧ a ≠ 'V' ∧ b ≠ 'C' ∧ (a == 'C') = count

theorem scaleEnd_nil : ScaleEnd false [] := .inl ⟨rfl, rfl⟩

theorem ScaleEnd.opt {count : Bool} {t : List Char} (h : ScaleEnd count t) (c : Prop)
    [Decidable c] (key : String) {a b : Char} {ks : List Char} (hk : key.toList = a :: b :: ks)
    (ha : a ≠ 'V') (hb : b ≠ 'C') (val : List Char) :
    ScaleEnd (if c then a == 'C' else count) ((if c then sendPart key val else []) ++ t) := by
  split
  · exact .inr ⟨a, b, ks ++ '=' :: (val ++ t), by simp [sendPart, hk], ha, hb, rfl⟩
  · exact h

/-- A list has no part in the scale. -/
theorem ScaleEnd.list {count : Bool} {t : List Char} (h : ScaleEnd count t) (key : String)
    {ks : List Char} (hk : key.toList = 'B' :: 'Y' :: ks) {α : Type} (has : Bool)
    (next : Nat → α × Nat) (fuel : Nat) (fmt : α → List Char) :
    ScaleEnd (!has && count) (sendBy key has next fuel fmt ++ t) := by
  have hs := h.opt (has = true) key hk (by decide) (by decide) (sendList fmt (sendVals next fuel))
  cases has
  · exact hs
  · exact hs

/-- **The scale is read with the first letter of the next keyword.** -/
theorem snarfScale_sendScale {count : Bool} {t : List Char} (h : ScaleEnd count t) {sc : Scale}
    (hsc : sc ≠ .gregorian) :
    ∃ val, sendScale sc = sendPart "SCALE" val ∧ ';' ∉ val ∧
      snarfScale (val ++ t) = rereadScale count sc := by
  rcases h with ⟨rfl, rfl⟩ | ⟨a, b, s, rfl, ha, hb, rfl⟩
  · cases sc with
    | gregorian => exact absurd rfl hsc
    | _ => exact ⟨_, rfl, by decide, by decide⟩
  · cases sc with
    | gregorian => exact absurd rfl hsc
    | _ =>
        refine ⟨_, rfl, by decide, ?_⟩
        by_cases hc : a = 'C' <;>
          simp [snarfScale, snarfHijri, charAt, rereadScale, ha, hb, hc, Scale.ofNum]

theorem readRest_scale (ht : EndsPart t) (hs : ScaleEnd (countNext rr) t)
    (h0 : r.scale = .gregorian) :
    readRest (sendScale rr.scale ++ t) r = readRest t { r with scale := (reread rr).scale } := by
  by_cases hg : rr.scale = .gregorian
  · have hi : (reread rr).scale = r.scale := by rw [h0, reread, hg]; rfl
    rw [hi, hg]
    rfl
  · obtain ⟨val, hval, hsc, hread⟩ := snarfScale_sendScale hs hg
    have hk : evrrulKey "SCALE".toList = some .scale := by decide
    rw [hval, readRest_part (by decide) hsc ht, readPart, hk]
    dsimp only
    rw [snarfPart, hread]
    rfl

end Parts

/-! ### No comma before a weekday -/

section Quiet

variable {t : List Char}

theorem quiet_uints (key : String) (hk : ',' ∉ key.toList) (has : Bool) {bi : Nat}
    (hlt : bi < 2 ^ 32) (ht : EndsPart t) (hq : Quiet t) :
    Quiet (sendBy key has (bui31Next bi) 33 fmtU ++ t) := by
  refine hq.opt _ key hk fun _ => ?_
  refine quiet_sendList (f := fun n : Nat => (n : Int)) (fun v hv s hs => ?_)
    (fun v _ => not_mem_fmtU v (by decide)) ht hq
  have := sendVals_bui_lt hlt v hv
  exact strtol_fmtU ⟨by omega, by omega⟩ hs

theorem quiet_bints (key : String) (hk : ',' ∉ key.toList) {n fuel : Nat} {bi : Bitints}
    (hl : bintsHasBits bi = true → ∀ v ∈ sendVals (bintsNext n bi) fuel, IsLong v)
    (ht : EndsPart t) (hq : Quiet t) :
    Quiet (sendBy key (bintsHasBits bi) (bintsNext n bi) fuel fmtD ++ t) := by
  refine hq.opt _ key hk fun hb => ?_
  exact quiet_sendList (f := id) (fun v hv s hs => strtol_fmtD (hl hb v hv) hs)
    (fun v _ => not_mem_fmtD v (by decide) (by decide)) ht hq

/-- The business days of a shift are no weekday either. -/
theorem quiet_sendShift (sh : Int) (hq : Quiet t) : Quiet (sendShift sh ++ t) := by
  have hu : ∀ n, ',' ∉ fmtU n := fun n => not_mem_fmtU n (by decide)
  have hd : ∀ z, ',' ∉ fmtD z := fun z => not_mem_fmtD z (by decide) (by decide)
  have hb : ∀ neg inv n, ',' ∉ sendBdays neg inv n := by
    intro neg inv n
    cases neg <;> simp [sendBdays, hu]
  have habs : echsShiftAbsval sh < 16384 := by
    rw [echsShiftAbsval, shiftLow]
    omega
  rw [sendShift_eq, List.append_assoc]
  refine Quiet.append ?_ ?_
  · split
    · rw [List.append_assoc]
      split
      · rw [List.singleton_append]
        refine Quiet.comma ?_ ?_
        · rw [strtol_sendBdays habs]
          refine hq.append (u := 'B' :: if echsShiftInvP sh = true ∧ echsShiftAbsval sh ≠ 0 then
            [if echsShiftNegP sh then '-' else '+'] else []) ?_
          cases echsShiftNegP sh <;> split <;> decide
        · rw [strtol_sendBdays habs]
          rfl
      · exact hq.append (hb _ _ _)
    · exact hq
  · split
    · exact hd _
    · simp

end Quiet

end Echse
