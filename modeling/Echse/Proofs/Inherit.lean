/-
What a component inherits from its calendar.

Every slot is what the lines of the component give it, else what those of the calendar
give it, but for the four slots of `run_as`: as a component ends these are copied from the
calendar all at once if the component has no user to run as.  The group, the directory and
the shell that it may have are then lost.
-/
import Echse.SnarfFld
import Echse.Proofs.Calendars

namespace Echse

/-! ### What the lines give -/

/-- The value that a line gives to a field, if it is one of that field and can be read. -/
def lineVal {β : Type} (f : IcalFld) (val : List Char → Nat → Option β) (l : List Char) :
    Option β :=
  (parseLine l).bind fun (f', _, vp, z) => if f' = f ∧ z ≠ 0 then val vp z else none

/-- The values that lines give to a field. -/
def given {β : Type} (f : IcalFld) (val : List Char → Nat → Option β)
    (ls : List (List Char)) : List β := ls.filterMap (lineVal f val)

def givenOwner : List (List Char) → List NumMapStr :=
  given .owner fun vp z => some (nameOrNum vp z)

def givenUmask : List (List Char) → List Nat := given .umask umaskVal

def givenMaxSimul : List (List Char) → List (Fin 64) := given .maxSimul maxSimulVal

def givenSuid : List (List Char) → List NumMapStr :=
  given .suid fun vp z => some (nameOrNum vp z)

def givenSgid : List (List Char) → List NumMapStr :=
  given .sgid fun vp z => some (nameOrNum vp z)

def givenWd : List (List Char) → List String := given .loc fun vp z => some (strndup vp z)

def givenSh : List (List Char) → List String := given .shell fun vp z => some (strndup vp z)

/-- The last value of the component, else the last one of the calendar. -/
def inForce {β : Type} (cal comp : List β) : Option β := comp.getLast?.or cal.getLast?

/-- Every slot has the value that the component gives, else the one that the calendar gives,
else it is unset.  Of a directory and a shell the first one counts. -/
structure Inherits (cal comp : List (List Char)) (t : FullTask) : Prop where
  owner : t.owner = (inForce (givenOwner cal) (givenOwner comp)).getD .null
  umsk : t.umsk = (inForce (givenUmask cal) (givenUmask comp)).elim 1023 (· - 1)
  maxSimul : t.maxSimul.val =
    (inForce (givenMaxSimul cal) (givenMaxSimul comp)).elim 63 fun n => n.val - 1
  suid : t.runAs.u = (inForce (givenSuid cal) (givenSuid comp)).getD .null
  sgid : t.runAs.g = (inForce (givenSgid cal) (givenSgid comp)).getD .null
  wd : t.runAs.wd = (givenWd comp).head?
  sh : t.runAs.sh = (givenSh comp).head?

/-- There is a user to run as, or nothing of the component gets lost. -/
def KeepsRunAs (cal comp : List (List Char)) : Prop :=
  givenSuid comp ≠ [] ∨ givenSuid cal ≠ [] ∨
    (givenWd comp = [] ∧ givenSh comp = [] ∧
      ((givenSgid comp).getLast? = none ∨ (givenSgid comp).getLast? = (givenSgid cal).getLast?))

/-! ### Folds over lines -/

section

variable {σ α β : Type} {step : σ → α → σ}

theorem foldl_getLast (get : σ → β) (val : α → Option β)
    (h : ∀ s a, get (step s a) = (val a).getD (get s)) (l : List α) (s : σ) :
    get (l.foldl step s) = (l.filterMap val).getLast?.getD (get s) := by
  induction l using List.reverseRecOn with
  | nil => rfl
  | append_singleton l a ih =>
      rw [List.foldl_append, List.foldl_cons, List.foldl_nil, h, ih, List.filterMap_append]
      rcases ha : val a with _ | v <;> simp [ha]

theorem foldl_head (get : σ → Option β) (val : α → Option β)
    (h : ∀ s a, get (step s a) = (get s).or (val a)) (l : List α) (s : σ) :
    get (l.foldl step s) = (get s).or (l.filterMap val).head? := by
  induction l generalizing s with
  | nil => simp
  | cons a l ih =>
      rw [List.foldl_cons, ih, h, List.filterMap_cons, Option.or_assoc]
      rcases ha : val a with _ | v <;> simp

theorem foldl_const (get : σ → β) (h : ∀ s a, get (step s a) = get s) (l : List α) (s : σ) :
    get (l.foldl step s) = get s := by
  induction l generalizing s with
  | nil => rfl
  | cons a l ih => rw [List.foldl_cons, ih, h]

end

section

variable {ρ : Type} (e : FldEnv ρ)

/-- The last of the lines that `snarf_fld` takes a slot from counts. -/
theorem flds_last {β : Type} (get : Vevent ρ → β) (f : IcalFld)
    (val : List Char → Nat → Option β)
    (h : ∀ ve f' eof vp z, z ≠ 0 → get (snarfFld e ve f' eof vp z) =
      (if f' = f then val vp z else none).getD (get ve)) (ls : List (List Char))
    (ve : Vevent ρ) : get (ls.foldl (applyFld (evicalSnarfers e)) ve) =
      (given f val ls).getLast?.getD (get ve) := by
  refine foldl_getLast get (lineVal f val) (fun ve l => ?_) ls ve
  rw [applyFld, lineVal]
  rcases parseLine l with _ | ⟨f', eof, vp, z⟩
  · rfl
  · by_cases hz : z = 0
    · simp [hz, evicalSnarfers, snarfFld]
    · simpa [hz, evicalSnarfers] using h ve f' eof vp z hz

/-- The first of the lines that `snarf_fld` takes a slot from counts. -/
theorem flds_first {β : Type} (get : Vevent ρ → Option β) (f : IcalFld)
    (val : List Char → Nat → Option β)
    (h : ∀ ve f' eof vp z, z ≠ 0 → get (snarfFld e ve f' eof vp z) =
      (get ve).or (if f' = f then val vp z else none)) (ls : List (List Char))
    (ve : Vevent ρ) : get (ls.foldl (applyFld (evicalSnarfers e)) ve) =
      (get ve).or (given f val ls).head? := by
  refine foldl_head get (lineVal f val) (fun ve l => ?_) ls ve
  rw [applyFld, lineVal]
  rcases parseLine l with _ | ⟨f', eof, vp, z⟩
  · simp
  · by_cases hz : z = 0
    · simp [hz, evicalSnarfers, snarfFld]
    · simpa [hz, evicalSnarfers] using h ve f' eof vp z hz

/-- The last of the lines that `snarf_pro` takes a slot from counts. -/
theorem pros_last {β : Type} (get : Vevent ρ → β) (f : IcalFld)
    (val : List Char → Nat → Option β)
    (h : ∀ ve f' vp z, z ≠ 0 → get (snarfPro e ve f' vp z) =
      (if f' = f then val vp z else none).getD (get ve)) (ls : List (List Char))
    (ve : Vevent ρ) : get (ls.foldl (applyPro (evicalSnarfers e)) ve) =
      (given f val ls).getLast?.getD (get ve) := by
  refine foldl_getLast get (lineVal f val) (fun ve l => ?_) ls ve
  rw [applyPro, lineVal]
  rcases parseLine l with _ | ⟨f', eof, vp, z⟩
  · rfl
  · by_cases hz : z = 0
    · simp [hz, evicalSnarfers, snarfPro]
    · simpa [hz, evicalSnarfers] using h ve f' vp z hz

theorem firstWins_eq (old : Option String) (new : String) :
    firstWins old new = old.or (some new) := by
  cases old <;> rfl

/-! ### The slots in a component -/

variable (ls : List (List Char)) (ve : Vevent ρ)

theorem flds_owner : (ls.foldl (applyFld (evicalSnarfers e)) ve).t.owner =
    (givenOwner ls).getLast?.getD ve.t.owner := by
  refine flds_last e (fun ve => ve.t.owner) _ _ (fun ve f eof vp z hz => ?_) ls ve
  cases f <;>
    simp [snarfFld, hz, Vevent.setT, Vevent.setMore, Vevent.setRunAs, apply_ite IcalVevent.t]

theorem flds_umsk : (ls.foldl (applyFld (evicalSnarfers e)) ve).t.umsk =
    (givenUmask ls).getLast?.getD ve.t.umsk := by
  refine flds_last e (fun ve => ve.t.umsk) _ _ (fun ve f eof vp z hz => ?_) ls ve
  cases f <;>
    simp [snarfFld, hz, Vevent.setT, Vevent.setMore, Vevent.setRunAs, apply_ite IcalVevent.t]

theorem flds_maxSimul : (ls.foldl (applyFld (evicalSnarfers e)) ve).t.maxSimul =
    (givenMaxSimul ls).getLast?.getD ve.t.maxSimul := by
  refine flds_last e (fun ve => ve.t.maxSimul) _ _ (fun ve f eof vp z hz => ?_) ls ve
  cases f <;>
    simp [snarfFld, hz, Vevent.setT, Vevent.setMore, Vevent.setRunAs, apply_ite IcalVevent.t]

theorem flds_suid : (ls.foldl (applyFld (evicalSnarfers e)) ve).t.runAs.u =
    (givenSuid ls).getLast?.getD ve.t.runAs.u := by
  refine flds_last e (fun ve => ve.t.runAs.u) _ _ (fun ve f eof vp z hz => ?_) ls ve
  cases f <;>
    simp [snarfFld, hz, Vevent.setT, Vevent.setMore, Vevent.setRunAs, apply_ite IcalVevent.t]

theorem flds_sgid : (ls.foldl (applyFld (evicalSnarfers e)) ve).t.runAs.g =
    (givenSgid ls).getLast?.getD ve.t.runAs.g := by
  refine flds_last e (fun ve => ve.t.runAs.g) _ _ (fun ve f eof vp z hz => ?_) ls ve
  cases f <;>
    simp [snarfFld, hz, Vevent.setT, Vevent.setMore, Vevent.setRunAs, apply_ite IcalVevent.t]

theorem flds_wd : (ls.foldl (applyFld (evicalSnarfers e)) ve).t.runAs.wd =
    ve.t.runAs.wd.or (givenWd ls).head? := by
  refine flds_first e (fun ve => ve.t.runAs.wd) _ _ (fun ve f eof vp z hz => ?_) ls ve
  cases f <;>
    simp [snarfFld, hz, Vevent.setT, Vevent.setMore, Vevent.setRunAs, apply_ite IcalVevent.t,
      firstWins_eq]

theorem flds_sh : (ls.foldl (applyFld (evicalSnarfers e)) ve).t.runAs.sh =
    ve.t.runAs.sh.or (givenSh ls).head? := by
  refine flds_first e (fun ve => ve.t.runAs.sh) _ _ (fun ve f eof vp z hz => ?_) ls ve
  cases f <;>
    simp [snarfFld, hz, Vevent.setT, Vevent.setMore, Vevent.setRunAs, apply_ite IcalVevent.t,
      firstWins_eq]

/-! ### The slots of a calendar -/

theorem pros_owner : (ls.foldl (applyPro (evicalSnarfers e)) ve).t.owner =
    (givenOwner ls).getLast?.getD ve.t.owner := by
  refine pros_last e (fun ve => ve.t.owner) _ _ (fun ve f vp z hz => ?_) ls ve
  cases f <;> simp [snarfPro, snarfFld, hz, Vevent.setT, Vevent.setRunAs]

theorem pros_umsk : (ls.foldl (applyPro (evicalSnarfers e)) ve).t.umsk =
    (givenUmask ls).getLast?.getD ve.t.umsk := by
  refine pros_last e (fun ve => ve.t.umsk) _ _ (fun ve f vp z hz => ?_) ls ve
  cases f <;> simp [snarfPro, snarfFld, hz, Vevent.setT, Vevent.setRunAs]

theorem pros_maxSimul : (ls.foldl (applyPro (evicalSnarfers e)) ve).t.maxSimul =
    (givenMaxSimul ls).getLast?.getD ve.t.maxSimul := by
  refine pros_last e (fun ve => ve.t.maxSimul) _ _ (fun ve f vp z hz => ?_) ls ve
  cases f <;> simp [snarfPro, snarfFld, hz, Vevent.setT, Vevent.setRunAs]

theorem pros_suid : (ls.foldl (applyPro (evicalSnarfers e)) ve).t.runAs.u =
    (givenSuid ls).getLast?.getD ve.t.runAs.u := by
  refine pros_last e (fun ve => ve.t.runAs.u) _ _ (fun ve f vp z hz => ?_) ls ve
  cases f <;> simp [snarfPro, snarfFld, hz, Vevent.setT, Vevent.setRunAs]

theorem pros_sgid : (ls.foldl (applyPro (evicalSnarfers e)) ve).t.runAs.g =
    (givenSgid ls).getLast?.getD ve.t.runAs.g := by
  refine pros_last e (fun ve => ve.t.runAs.g) _ _ (fun ve f vp z hz => ?_) ls ve
  cases f <;> simp [snarfPro, snarfFld, hz, Vevent.setT, Vevent.setRunAs]

/-- The slots that a calendar has no say in. -/
def slotsKept (ve : Vevent ρ) : Option String × Option String × TaskSlots × Nat :=
  (ve.t.runAs.wd, ve.t.runAs.sh, ve.t.more, ve.t.oid)

theorem pros_rest : (ls.foldl (applyPro (evicalSnarfers e)) ve).t.runAs.wd = ve.t.runAs.wd ∧
    (ls.foldl (applyPro (evicalSnarfers e)) ve).t.runAs.sh = ve.t.runAs.sh ∧
    (ls.foldl (applyPro (evicalSnarfers e)) ve).t.more = ve.t.more ∧
    (ls.foldl (applyPro (evicalSnarfers e)) ve).t.oid = ve.t.oid := by
  have hl : ∀ (ve : Vevent ρ) l, slotsKept (applyPro (evicalSnarfers e) ve l) = slotsKept ve := by
    intro ve l
    rw [applyPro]
    rcases parseLine l with _ | ⟨f, eof, vp, z⟩
    · rfl
    · by_cases hz : z = 0
      · simp [hz, evicalSnarfers, snarfPro]
      · cases f <;> simp [evicalSnarfers, snarfPro, snarfFld, hz, Vevent.setT, Vevent.setRunAs,
          slotsKept]
  simpa [slotsKept] using foldl_const slotsKept hl ls ve

/-! ### Values that are given are set -/

theorem nameOrNum_ne_null (vp : List Char) (z : Nat) : nameOrNum vp z ≠ .null := by
  simp only [nameOrNum]
  split <;> simp [nummapstrBangNum]

theorem umaskVal_range {vp : List Char} {z n : Nat} (h : umaskVal vp z = some n) :
    0 < n ∧ n ≤ 512 := by
  simp only [umaskVal] at h
  split_ifs at h with h₁ h₂
  have : (strtolBase 8 vp).1.toNat + 1 = n := Option.some.inj h
  omega

theorem maxSimulVal_ne_zero {vp : List Char} {z : Nat} {n : Fin 64}
    (h : maxSimulVal vp z = some n) : n ≠ 0 := by
  simp only [maxSimulVal] at h
  split_ifs at h with h₁ h₂
  obtain rfl := Option.some.inj h
  intro h0
  have := congrArg Fin.val h0
  simp only [Fin.ofNat, Fin.val_zero] at this
  omega

theorem given_forall {β : Type} {f : IcalFld} {val : List Char → Nat → Option β}
    {p : β → Prop} (h : ∀ vp z b, val vp z = some b → p b) {ls : List (List Char)} {b : β}
    (hb : b ∈ given f val ls) : p b := by
  obtain ⟨l, -, hl⟩ := List.mem_filterMap.mp hb
  obtain ⟨⟨f', eof, vp, z⟩, -, hv⟩ := Option.bind_eq_some_iff.mp hl
  simp only at hv
  split_ifs at hv
  exact h vp z b hv

/-- What the two assignments, at `BEGIN` and at `END`, come to. -/
theorem inForce_getD {β : Type} [DecidableEq β] (unset : β) {cal comp : List β}
    (h : unset ∉ comp) :
    (if comp.getLast?.getD (cal.getLast?.getD unset) = unset then cal.getLast?.getD unset
      else comp.getLast?.getD (cal.getLast?.getD unset)) = (inForce cal comp).getD unset := by
  rw [inForce]
  rcases hc : comp.getLast? with _ | b
  · rcases cal.getLast? <;> simp
  · have hb : b ≠ unset := fun hb => h (hb ▸ List.mem_of_getLast? hc)
    simp [hb]

theorem inForce_forall {β : Type} {p : β → Prop} {cal comp : List β} (hc : ∀ b ∈ cal, p b)
    (hk : ∀ b ∈ comp, p b) {b : β} (hb : inForce cal comp = some b) : p b := by
  rw [inForce] at hb
  rcases h : comp.getLast? with _ | b'
  · rw [h, Option.none_or] at hb
    exact hc b (List.mem_of_getLast? hb)
  · rw [h, Option.some_or] at hb
    obtain rfl := Option.some.inj hb
    exact hk _ (List.mem_of_getLast? h)

/-! ### A component -/

theorem runAs_eq {r : RunAs} {u g : NumMapStr} {wd sh : Option String} (hu : r.u = u)
    (hg : r.g = g) (hw : r.wd = wd) (hs : r.sh = sh) : r = ⟨u, g, wd, sh⟩ := by
  rcases r with ⟨_, _, _, _⟩
  cases hu
  cases hg
  cases hw
  cases hs
  rfl

section

variable (cal comp : List (List Char))

/-- What the lines of a calendar are read to. -/
def globOf : Vevent ρ := cal.foldl (applyPro (evicalSnarfers e)) (.zero (evicalSnarfers e))

/-- What the lines of a component are read to, before it ends. -/
def ownOf : Vevent ρ := comp.foldl (applyFld (evicalSnarfers e))
  { IcalVevent.zero (evicalSnarfers e) with t := (globOf e cal).t, cal := (globOf e cal).cal }

theorem inherit_owner : (IcalCtx.inherit_ (ownOf e cal comp) (globOf e cal)).t.owner =
    (inForce (givenOwner cal) (givenOwner comp)).getD .null := by
  have hn : NumMapStr.null ∉ givenOwner comp := fun h =>
    given_forall (p := (· ≠ NumMapStr.null))
      (fun vp z b hb => Option.some.inj hb ▸ nameOrNum_ne_null vp z) h rfl
  rw [← @inForce_getD _ _ _ (givenOwner cal) _ hn]
  simp only [IcalCtx.inherit_, ownOf, globOf, flds_owner, pros_owner]
  rfl

theorem inherit_umsk : (IcalCtx.inherit_ (ownOf e cal comp) (globOf e cal)).t.umsk =
    (inForce (givenUmask cal) (givenUmask comp)).getD 0 := by
  have hn : 0 ∉ givenUmask comp := fun h =>
    given_forall (p := (· ≠ 0)) (fun vp z b hb => (umaskVal_range hb).1.ne') h rfl
  rw [← @inForce_getD _ _ _ (givenUmask cal) _ hn]
  simp only [IcalCtx.inherit_, ownOf, globOf, flds_umsk, pros_umsk]
  rfl

theorem inherit_maxSimul : (IcalCtx.inherit_ (ownOf e cal comp) (globOf e cal)).t.maxSimul =
    (inForce (givenMaxSimul cal) (givenMaxSimul comp)).getD 0 := by
  have hn : 0 ∉ givenMaxSimul comp := fun h =>
    given_forall (p := (· ≠ 0)) (fun vp z b hb => maxSimulVal_ne_zero hb) h rfl
  rw [← @inForce_getD _ _ _ (givenMaxSimul cal) _ hn]
  simp only [IcalCtx.inherit_, ownOf, globOf, flds_maxSimul, pros_maxSimul]
  rfl

theorem glob_runAs : (globOf e cal).t.runAs =
    ⟨(givenSuid cal).getLast?.getD .null, (givenSgid cal).getLast?.getD .null, none, none⟩ := by
  obtain ⟨hwd, hsh, -, -⟩ := pros_rest e cal (.zero (evicalSnarfers e))
  exact runAs_eq (pros_suid e cal _) (pros_sgid e cal _) hwd hsh

theorem own_runAs : (ownOf e cal comp).t.runAs =
    ⟨(inForce (givenSuid cal) (givenSuid comp)).getD .null,
      (inForce (givenSgid cal) (givenSgid comp)).getD .null, (givenWd comp).head?,
      (givenSh comp).head?⟩ := by
  have hg := glob_runAs e cal
  have hor : ∀ (a b : Option NumMapStr), a.getD (b.getD .null) = (a.or b).getD .null := by
    intro a b
    cases a <;> rfl
  refine runAs_eq ?_ ?_ ?_ ?_
  · rw [ownOf, flds_suid, hg, hor, inForce]
  · rw [ownOf, flds_sgid, hg, hor, inForce]
  · rw [ownOf, flds_wd, hg, Option.none_or]
  · rw [ownOf, flds_sh, hg, Option.none_or]

/-- As a component without a user ends, it gets the `run_as` of the calendar. -/
theorem inherit_runAs : (IcalCtx.inherit_ (ownOf e cal comp) (globOf e cal)).t.runAs =
    if (inForce (givenSuid cal) (givenSuid comp)).getD .null = .null then (globOf e cal).t.runAs
    else (ownOf e cal comp).t.runAs := by
  simp only [IcalCtx.inherit_, own_runAs]

theorem inForce_suid_null : (inForce (givenSuid cal) (givenSuid comp)).getD .null = .null ↔
    givenSuid cal = [] ∧ givenSuid comp = [] := by
  have hn : ∀ ls, NumMapStr.null ∉ givenSuid ls := fun ls h =>
    given_forall (p := (· ≠ NumMapStr.null))
      (fun vp z b hb => Option.some.inj hb ▸ nameOrNum_ne_null vp z) h rfl
  constructor
  · intro h
    rcases ho : inForce (givenSuid cal) (givenSuid comp) with _ | b
    · simpa [inForce, and_comm] using ho
    · rw [ho, Option.getD_some] at h
      exact absurd h (inForce_forall (p := (· ≠ NumMapStr.null))
        (fun b hb h0 => hn _ (h0 ▸ hb)) (fun b hb h0 => hn _ (h0 ▸ hb)) ho)
  · rintro ⟨h₁, h₂⟩
    rw [h₁, h₂]
    rfl

theorem keepsRunAs_of_none {cal comp : List (List Char)}
    (h : givenSuid cal = [] ∧ givenSuid comp = []) : KeepsRunAs cal comp ↔
      givenWd comp = [] ∧ givenSh comp = [] ∧
        ((givenSgid comp).getLast? = none ∨
          (givenSgid comp).getLast? = (givenSgid cal).getLast?) := by
  simp [KeepsRunAs, h]

/-- A component inherits exactly if there is a user or nothing gets lost. -/
theorem inherits_iff :
    Inherits cal comp (makeFullTask e (IcalCtx.inherit_ (ownOf e cal comp) (globOf e cal))) ↔
      KeepsRunAs cal comp := by
  have hu : ∀ n, (inForce (givenUmask cal) (givenUmask comp)) = some n → 0 < n ∧ n ≤ 512 :=
    fun n => inForce_forall (fun b => given_forall (fun vp z b => umaskVal_range))
      (fun b => given_forall (fun vp z b => umaskVal_range))
  have hm : ∀ n, (inForce (givenMaxSimul cal) (givenMaxSimul comp)) = some n → n ≠ 0 :=
    fun n => inForce_forall (fun b => given_forall (fun vp z b => maxSimulVal_ne_zero))
      (fun b => given_forall (fun vp z b => maxSimulVal_ne_zero))
  have humsk : ((inForce (givenUmask cal) (givenUmask comp)).getD 0 + 1023) % 1024 =
      (inForce (givenUmask cal) (givenUmask comp)).elim 1023 (· - 1) := by
    rcases ho : inForce (givenUmask cal) (givenUmask comp) with _ | n
    · rfl
    · have := hu n ho
      simp only [Option.getD_some, Option.elim_some]
      omega
  have hsim : (bakeMaxSimul ((inForce (givenMaxSimul cal) (givenMaxSimul comp)).getD 0)).val =
      (inForce (givenMaxSimul cal) (givenMaxSimul comp)).elim 63 fun n => n.val - 1 := by
    rcases ho : inForce (givenMaxSimul cal) (givenMaxSimul comp) with _ | n
    · rfl
    · have h0 : n.val ≠ 0 := fun h => hm n ho (Fin.ext h)
      simp only [bakeMaxSimul, Option.getD_some, Option.elim_some, Fin.sub_def, Fin.val_one]
      have := n.isLt
      omega
  have hrun : (makeFullTask e (IcalCtx.inherit_ (ownOf e cal comp) (globOf e cal))).runAs =
      if givenSuid cal = [] ∧ givenSuid comp = [] then (globOf e cal).t.runAs
      else (ownOf e cal comp).t.runAs := by
    rw [makeFullTask, inherit_runAs]
    exact if_congr (inForce_suid_null cal comp) rfl rfl
  by_cases hn : givenSuid cal = [] ∧ givenSuid comp = []
  · rw [if_pos hn, glob_runAs, hn.1] at hrun
    rw [keepsRunAs_of_none hn]
    constructor
    · rintro ⟨-, -, -, -, hg, hw, hs⟩
      rw [hrun] at hg hw hs
      refine ⟨List.head?_eq_none_iff.mp hw.symm, List.head?_eq_none_iff.mp hs.symm, ?_⟩
      rcases hc : (givenSgid comp).getLast? with _ | b
      · exact .inl rfl
      · have hb : b ≠ .null := given_forall (p := (· ≠ NumMapStr.null))
          (fun vp z b hb => Option.some.inj hb ▸ nameOrNum_ne_null vp z)
          (List.mem_of_getLast? hc)
        rw [inForce, hc, Option.some_or, Option.getD_some] at hg
        rcases hcal : (givenSgid cal).getLast? with _ | b'
        · rw [hcal] at hg
          exact absurd hg.symm hb
        · rw [hcal, Option.getD_some] at hg
          exact .inr (congrArg some hg.symm)
    · rintro ⟨hw, hs, hg⟩
      refine ⟨inherit_owner e cal comp, ?_, ?_, ?_, ?_, ?_, ?_⟩
      · rw [makeFullTask, inherit_umsk, humsk]
      · rw [makeFullTask, inherit_maxSimul, hsim]
      · rw [hrun, (inForce_suid_null cal comp).mpr hn]
        rfl
      · rw [hrun, inForce]
        rcases hg with hg | hg <;> rw [hg]
        · rfl
        · rw [Option.or_self]
      · rw [hrun, hw]
        rfl
      · rw [hrun, hs]
        rfl
  · rw [if_neg hn, own_runAs] at hrun
    have hk : KeepsRunAs cal comp := by
      rcases not_and_or.mp hn with h | h
      · exact .inr (.inl h)
      · exact .inl h
    refine iff_of_true ⟨?_, ?_, ?_, ?_, ?_, ?_, ?_⟩ hk
    · exact inherit_owner e cal comp
    · rw [makeFullTask, inherit_umsk, humsk]
    · rw [makeFullTask, inherit_maxSimul, hsim]
    all_goals rw [hrun]

end

/-! ### Calendars -/

/-- **In every calendar the tasks inherit exactly if each of its components has a user to
run as, its own or the calendar's, or nothing to lose.**  There is one task for every
component, in order, and only its own lines and those of the calendar matter to it. -/
theorem calendar_inherits_iff (v g : Vevent ρ) (cal : Calendar) :
    (procLines (evicalSnarfers e) ⟨.unk, v, g⟩ cal.text).1.length = cal.comps.length ∧
      (List.Forall₂ (fun k v => Inherits cal.lines k.lines (makeFullTask e v)) cal.comps
        (procLines (evicalSnarfers e) ⟨.unk, v, g⟩ cal.text).1 ↔
          ∀ k ∈ cal.comps, KeepsRunAs cal.lines k.lines) := by
  obtain ⟨v', h⟩ := procLines_calendar (evicalSnarfers e) ⟨.unk, v, g⟩ rfl cal
  rw [h]
  refine ⟨List.length_map _, ?_⟩
  rw [List.forall₂_map_right_iff, List.forall₂_same]
  exact forall₂_congr fun k _ => inherits_iff e cal.lines k.lines

end

/-- An environment in which nothing is read to anything. -/
def blankEnv : FldEnv Unit where
  intern _ := 1
  obint _ := 1
  snarfDt _ _ _ := echsNulInstant
  zeroRules := ()
  snarfRules _ _ _ _ _ := ()
  toUtc i := i
  diff _ _ := 0

/-- A component with a shell. -/
def shellComp : Comp where
  kind := .vevent
  lines := ["X-ECHS-SHELL:/bin/zsh".toList]
  props := by
    rintro _ (_ | ⟨_, ⟨⟩⟩) r hr
    obtain rfl := Option.some.inj hr
    exact ⟨by decide, by decide⟩

/-- A shell is lost without a user. -/
theorem calendar_loses_shell :
    ¬List.Forall₂ (fun k v => Inherits [] k.lines (makeFullTask blankEnv v)) [shellComp]
      (procLines (evicalSnarfers blankEnv) (.fresh (evicalSnarfers blankEnv))
        (⟨[], [shellComp], by simp⟩ : Calendar).text).1 := by
  intro h
  have hk := (inherits_iff blankEnv [] shellComp.lines).mp (by
    obtain ⟨v, hv⟩ := procLines_calendar (evicalSnarfers blankEnv)
      (.fresh (evicalSnarfers blankEnv)) rfl ⟨[], [shellComp], by simp⟩
    rw [hv] at h
    exact (List.forall₂_cons.mp h).1)
  have hsh : givenSh shellComp.lines = ["/bin/zsh"] := by decide
  have hsu : givenSuid shellComp.lines = [] := by decide
  rw [keepsRunAs_of_none ⟨rfl, hsu⟩, hsh] at hk
  exact absurd hk.2.1 (by decide)

end Echse
