/-
Which arguments `cmd_list` puts into its requests.

Every argument goes into a request, and none goes into two.  What is checked of the version is
that there is room for it before an argument is added, not after, so a request can be filled up
to a byte before the end, and then its version is cut off.  An argument that does so is the only
thing that goes wrong.
-/
import Echse.Echsq

namespace Echse

/-! ### Requests as they should be -/

/-- The user in a request. -/
def userText : Option UInt32 → List Char
  | none => []
  | some u => "u/".toList ++ fmtU u.toNat ++ "/".toList

def headText (argi : CmdList) : List Char :=
  listVerb ++ userText argi.user ++ if argi.nextFlag then listSche else listQueu

/-- Arguments after the first. -/
def moreTuids (args : List (List Char)) : List Char := args.flatMap ("&tuid=".toList ++ ·)

/-- The arguments in a request. -/
def tuidsText : List (List Char) → List Char
  | [] => []
  | a :: args => "?tuid=".toList ++ a ++ moreTuids args

/-- A request for some arguments. -/
def requestText (argi : CmdList) (args : List (List Char)) : List Char :=
  headText argi ++ tuidsText args ++ listVers

/-- The buffer has room for a request and the zero after it. -/
def FitsBuf (req : List Char) : Prop := req.length < listBufz

/-- **The requests are as they should be**: each argument is in one of them, in order, and they
all fit and are complete. -/
def Batched (argi : CmdList) (args : List (List Char)) : Prop :=
  ∃ groups : List (List (List Char)), groups.flatten = args ∧
    cmdList argi (args.length + 1) args = some (groups.map (requestText argi), true) ∧
    ∀ g ∈ groups, FitsBuf (requestText argi g)

/-- With `h` bytes before its arguments and `bix` bytes so far, no request gets an argument that
it has room for without a version only. -/
def VersRoom (h : Nat) : Nat → List (List Char) → Prop
  | _, [] => True
  | bix, a :: args =>
      if bix + (6 + a.length) < listBufz then
        bix + (6 + a.length) + listVers.length < listBufz ∧ VersRoom h (bix + (6 + a.length)) args
      else VersRoom h (h + (6 + a.length)) args

/-! ### Lengths -/

theorem fmtU_length (u : UInt32) : (fmtU u.toNat).length ≤ 10 := by
  have hlt := u.toNat_lt
  exact (Nat.length_toDigits_le_iff (by decide) (by decide)).mpr (by omega)

theorem userText_length (user : Option UInt32) : (userText user).length ≤ 13 := by
  cases user with
  | none => exact Nat.zero_le _
  | some u =>
      have hdigits := fmtU_length u
      rw [userText, List.length_append, List.length_append]
      have hu : "u/".toList.length = 2 := rfl
      have hslash : "/".toList.length = 1 := rfl
      omega

theorem moreTuids_length (args : List (List Char)) :
    (moreTuids args).length = (args.map fun a => 6 + a.length).sum := by
  rw [moreTuids, List.length_flatMap]
  congr 1
  refine List.map_congr_left fun a _ => ?_
  rw [List.length_append]
  rfl

theorem tuidsText_cons (a : List Char) (args : List (List Char)) :
    tuidsText (a :: args) = "?tuid=".toList ++ a ++ moreTuids args := by
  unfold tuidsText
  rfl

theorem tuidsText_length (args : List (List Char)) :
    (tuidsText args).length = (args.map fun a => 6 + a.length).sum := by
  cases args with
  | nil => rfl
  | cons a args =>
      have hfirst : "?tuid=".toList.length = 6 := rfl
      rw [tuidsText_cons, List.length_append, List.length_append, moreTuids_length, hfirst, List.map_cons,
        List.sum_cons]

variable {argi : CmdList}

theorem headText_length : (headText argi).length ≤ 23 := by
  have huser := userText_length argi.user
  have hverb : listVerb.length = 5 := rfl
  have hrou : (if argi.nextFlag then listSche else listQueu).length = 5 := by
    split
    · rfl
    · rfl
  rw [headText, List.length_append, List.length_append]
  omega

/-! ### Filling a request -/

theorem bufCopy_short {buf src : List Char} (h : buf.length + src.length < listBufz) :
    bufCopy buf src = buf ++ src := by
  rw [bufCopy, xstrlncpy, if_neg (by omega), if_neg (by omega)]

theorem chkBix_short {buf : List Char} (h : buf.length < listBufz) : chkBix buf = some buf :=
  if_neg (Nat.not_le.mpr h)

theorem listHead_eq : listHead argi = some (headText argi) := by
  have huser := userText_length argi.user
  have hverb : listVerb.length = 5 := rfl
  have hz : listBufz = 4096 := rfl
  have hrou : (if argi.nextFlag then listSche else listQueu).length = 5 := by
    split
    · rfl
    · rfl
  have hstart : chkBix (bufCopy [] listVerb) = some listVerb := rfl
  have hmid : bufUser listVerb argi.user = some (listVerb ++ userText argi.user) := by
    cases hu : argi.user with
    | none => rfl
    | some u =>
        rw [hu, userText] at huser
        exact chkBix_short (by rw [List.length_append]; omega)
  have hlen : (listVerb ++ userText argi.user).length ≤ 18 := by
    rw [List.length_append]
    omega
  unfold listHead
  rw [hstart, Option.bind_eq_bind, Option.bind_some, hmid, Option.bind_some, bufCopy_short (by omega)]
  exact chkBix_short (by rw [List.length_append]; omega)

/-- The loop takes as many arguments as there is room for without the version.  Where it stops
there is room for the version if and only if there is at every step. -/
theorem listArgs_spec (h : Nat) (args : List (List Char)) {buf : List Char}
    (hbuf : buf.length + listVers.length < listBufz)
    (hfit : ∀ a ∈ args, h + (6 + a.length) + listVers.length < listBufz) :
    ∃ taken left, args = taken ++ left ∧ listArgs buf args = (buf ++ moreTuids taken, left) ∧
      (buf ++ moreTuids taken).length < listBufz ∧
      (VersRoom h buf.length args ↔
        (buf ++ moreTuids taken).length + listVers.length < listBufz ∧ VersRoom h h left) := by
  induction args generalizing buf with
  | nil =>
      refine ⟨[], [], rfl, ?_, ?_, ?_⟩
      · rw [listArgs, moreTuids, List.flatMap_nil, List.append_nil]
      · rw [moreTuids, List.flatMap_nil, List.append_nil]
        omega
      · rw [moreTuids, List.flatMap_nil, List.append_nil]
        exact iff_of_true trivial ⟨hbuf, trivial⟩
  | cons a args ih =>
      have hn : ("&tuid=".toList ++ a).length = 6 + a.length := by
        rw [List.length_append]
        rfl
      have ha := hfit a List.mem_cons_self
      have hrest : ∀ b ∈ args, h + (6 + b.length) + listVers.length < listBufz :=
        fun b hb => hfit b (List.mem_cons_of_mem a hb)
      by_cases hroom : listBufz ≤ buf.length + (6 + a.length)
      · -- he is the first of the next request, and there he fits
        refine ⟨[], a :: args, rfl, ?_, ?_, ?_⟩
        · rw [listArgs, moreTuids, List.flatMap_nil, List.append_nil, hn, if_pos hroom]
        · rw [moreTuids, List.flatMap_nil, List.append_nil]
          omega
        · rw [moreTuids, List.flatMap_nil, List.append_nil, VersRoom, if_neg (Nat.not_lt.mpr hroom),
            VersRoom, if_pos (by omega)]
          exact ⟨fun hr => ⟨hbuf, ha, hr⟩, fun hr => hr.2.2⟩
      · have hstep : listArgs buf (a :: args) = listArgs (buf ++ ("&tuid=".toList ++ a)) args := by
          rw [listArgs, hn, if_neg hroom, if_neg (Nat.not_le.mpr hbuf)]
        have hlen : (buf ++ ("&tuid=".toList ++ a)).length = buf.length + (6 + a.length) := by
          rw [List.length_append, hn]
        have hmore : ∀ taken, buf ++ moreTuids (a :: taken) =
            buf ++ ("&tuid=".toList ++ a) ++ moreTuids taken := by
          intro taken
          rw [moreTuids, List.flatMap_cons, ← moreTuids, List.append_assoc buf]
        rw [VersRoom, if_pos (Nat.lt_of_not_le hroom), hstep, ← hlen]
        by_cases hvers : (buf ++ ("&tuid=".toList ++ a)).length + listVers.length < listBufz
        · obtain ⟨taken, left, hsplit, heq, hlt, hiff⟩ := ih hvers hrest
          refine ⟨a :: taken, left, by rw [hsplit, List.cons_append], ?_, ?_, ?_⟩
          · rw [heq, hmore]
          · rw [hmore]
            exact hlt
          · rw [hmore, ← hiff]
            exact and_iff_right hvers
        · -- the version will be cut off, and the loop stops here
          refine ⟨[a], args, rfl, ?_, ?_, ?_⟩
          · rw [hmore, moreTuids, List.flatMap_nil, List.append_nil]
            cases args with
            | nil => rfl
            | cons b args =>
                rw [listArgs, if_pos (Nat.le_of_not_lt hvers), ite_self]
          · rw [hmore, moreTuids, List.flatMap_nil, List.append_nil, hlen]
            omega
          · rw [hmore, moreTuids, List.flatMap_nil, List.append_nil]
            exact iff_of_false (fun hr => hvers hr.1) fun hr => hvers hr.1

/-- What is in the buffer before the version. -/
def lineText (argi : CmdList) (args : List (List Char)) : List Char := headText argi ++ tuidsText args

theorem lineText_length (args : List (List Char)) :
    (lineText argi args).length = (headText argi).length + (args.map fun a => 6 + a.length).sum := by
  rw [lineText, List.length_append, tuidsText_length]

theorem requestText_length (args : List (List Char)) :
    (requestText argi args).length = (lineText argi args).length + listVers.length :=
  List.length_append

/-- One request: it gets the first argument, and others. -/
theorem listMore_spec {a : List Char} {args : List (List Char)}
    (hfit : ∀ b ∈ a :: args, (headText argi).length + (6 + b.length) + listVers.length < listBufz) :
    ∃ taken left, args = taken ++ left ∧
      listMore argi (a :: args) = some (bufCopy (lineText argi (a :: taken)) listVers, left) ∧
      (lineText argi (a :: taken)).length < listBufz ∧
      (VersRoom (headText argi).length (headText argi).length (a :: args) ↔
        (lineText argi (a :: taken)).length + listVers.length < listBufz ∧
          VersRoom (headText argi).length (headText argi).length left) := by
  have ha := hfit a List.mem_cons_self
  have hlen : (headText argi ++ ("?tuid=".toList ++ a)).length = (headText argi).length + (6 + a.length) := by
    rw [List.length_append, List.length_append]
    rfl
  have hline : ∀ taken, lineText argi (a :: taken) =
      headText argi ++ ("?tuid=".toList ++ a) ++ moreTuids taken := by
    intro taken
    rw [lineText, tuidsText_cons, List.append_assoc (headText argi)]
  obtain ⟨taken, left, hsplit, heq, hlt, hiff⟩ := @listArgs_spec (headText argi).length args
    (headText argi ++ ("?tuid=".toList ++ a)) (by omega) fun b hb => hfit b (List.mem_cons_of_mem a hb)
  refine ⟨taken, left, hsplit, ?_, ?_, ?_⟩
  · have hprint : bufPrint (headText argi) ("?tuid=".toList ++ a) =
        some (headText argi ++ ("?tuid=".toList ++ a)) := chkBix_short (by omega)
    rw [hline, listMore, listHead_eq, Option.bind_eq_bind, Option.bind_some]
    dsimp only
    rw [hprint, Option.bind_some, heq]
  · rw [hline]
    exact hlt
  · rw [hline, ← hiff, hlen, VersRoom, if_pos (by omega)]
    exact and_iff_right ha

/-- **All the arguments go into requests**, if only into ones that have no room for the
version. -/
theorem cmdList_spec (fuel : Nat) {args : List (List Char)} (hfuel : args.length < fuel)
    (hfit : ∀ b ∈ args, (headText argi).length + (6 + b.length) + listVers.length < listBufz) :
    ∃ groups : List (List (List Char)), groups.flatten = args ∧
      cmdList argi fuel args = some (groups.map fun g => bufCopy (lineText argi g) listVers, true) ∧
      (∀ g ∈ groups, (lineText argi g).length < listBufz) ∧
      (VersRoom (headText argi).length (headText argi).length args ↔
        ∀ g ∈ groups, (lineText argi g).length + listVers.length < listBufz) := by
  induction fuel generalizing args with
  | zero => omega
  | succ fuel ih =>
      cases args with
      | nil =>
          have hhead := @headText_length argi
          have hline : lineText argi [] = headText argi := List.append_nil _
          have hmore : listMore argi [] = some (bufCopy (headText argi) listVers, []) := by
            rw [listMore, listHead_eq]
            rfl
          refine ⟨[[]], rfl, ?_, ?_, ?_⟩
          · rw [cmdList, hmore, List.map_singleton, hline]
          · intro g hg
            rw [List.mem_singleton.mp hg, hline]
            exact Nat.lt_of_le_of_lt hhead (by decide)
          · refine iff_of_true trivial fun g hg => ?_
            have hvers : listVers.length = 13 := rfl
            have hz : listBufz = 4096 := rfl
            rw [List.mem_singleton.mp hg, hline]
            omega
      | cons a args =>
          obtain ⟨taken, left, hsplit, hmore, hlt, hiff⟩ := listMore_spec hfit
          rw [cmdList, hmore]
          cases left with
          | nil =>
              refine ⟨[a :: taken], by rw [hsplit]; simp, rfl, ?_, ?_⟩
              · intro g hg
                rw [List.mem_singleton.mp hg]
                exact hlt
              · rw [hiff]
                refine ⟨fun hr g hg => ?_, fun hr => ⟨hr _ (List.mem_singleton_self _), trivial⟩⟩
                rw [List.mem_singleton.mp hg]
                exact hr.1
          | cons b left =>
              have hleft : (b :: left).length < fuel := by
                have hlength := congrArg List.length hsplit
                rw [List.length_append] at hlength
                rw [List.length_cons] at hfuel
                omega
              obtain ⟨groups, hflat, heq, hlts, hiffs⟩ := ih hleft fun c hc =>
                hfit c (List.mem_cons_of_mem a (by rw [hsplit]; exact List.mem_append_right taken hc))
              refine ⟨(a :: taken) :: groups, ?_, ?_, ?_, ?_⟩
              · rw [List.flatten_cons, hflat, hsplit, List.cons_append]
              · dsimp only
                rw [heq]
                rfl
              · exact List.forall_mem_cons.mpr ⟨hlt, hlts⟩
              · rw [hiff, hiffs, List.forall_mem_cons]

/-! ### Complete requests -/

/-- Terms that come to as much as their bounds are their bounds. -/
theorem eq_of_sum_le {α : Type} {f g : α → Nat} {l : List α} (hle : ∀ a ∈ l, f a ≤ g a)
    (hsum : (l.map g).sum ≤ (l.map f).sum) : ∀ a ∈ l, f a = g a := by
  induction l with
  | nil => exact fun a ha => absurd ha List.not_mem_nil
  | cons b l ih =>
      rw [List.map_cons, List.map_cons, List.sum_cons, List.sum_cons] at hsum
      have hb := hle b List.mem_cons_self
      have hrest : ∀ a ∈ l, f a ≤ g a := fun a ha => hle a (List.mem_cons_of_mem b ha)
      have hsums := List.sum_le_sum hrest
      exact List.forall_mem_cons.mpr ⟨by omega, ih hrest (by omega)⟩

theorem bufCopy_length_le {buf : List Char} (h : buf.length < listBufz) :
    (bufCopy buf listVers).length ≤ buf.length + listVers.length := by
  rw [bufCopy, List.length_append, xstrlncpy, if_neg (by omega)]
  by_cases hcut : listBufz - buf.length < listVers.length
  · rw [if_pos hcut, List.length_take]
    omega
  · rw [if_neg hcut]

/-- The requests of groups are as long as the groups and the arguments are many. -/
theorem requests_length (groups : List (List (List Char))) :
    (groups.map fun g => (requestText argi g).length).sum =
      groups.length * ((headText argi).length + listVers.length) +
        (groups.flatten.map fun a => 6 + a.length).sum := by
  induction groups with
  | nil => simp
  | cons g groups ih =>
      rw [List.map_cons, List.sum_cons, ih, requestText_length, lineText_length, List.length_cons,
        List.flatten_cons, List.map_append, List.sum_append, Nat.succ_mul]
      omega

/-- Every argument has room in a request of its own. -/
def FitAlone (argi : CmdList) (args : List (List Char)) : Prop :=
  ∀ a ∈ args, FitsBuf (requestText argi [a])

instance (argi : CmdList) (args : List (List Char)) : Decidable (FitAlone argi args) :=
  inferInstanceAs (Decidable (∀ a ∈ args, (requestText argi [a]).length < listBufz))

theorem FitAlone.lengths {args : List (List Char)} (h : FitAlone argi args) :
    ∀ a ∈ args, (headText argi).length + (6 + a.length) + listVers.length < listBufz := by
  intro a ha
  have hone := h a ha
  rw [FitsBuf, requestText_length, lineText_length, List.map_singleton, List.sum_singleton] at hone
  exact hone

theorem batched_of_versRoom {args : List (List Char)} (hfit : FitAlone argi args)
    (hroom : VersRoom (headText argi).length (headText argi).length args) : Batched argi args := by
  obtain ⟨groups, hflat, heq, -, hiff⟩ := cmdList_spec (args.length + 1) (Nat.lt_succ_self _) hfit.lengths
  have hvers := hiff.mp hroom
  refine ⟨groups, hflat, ?_, fun g hg => ?_⟩
  · rw [heq]
    congr 2
    refine List.map_congr_left fun g hg => ?_
    exact bufCopy_short (hvers g hg)
  · rw [FitsBuf, requestText_length]
    exact hvers g hg

/-- Not a byte of the requests is missing, as their bytes are those of the arguments. -/
theorem Batched.versRoom {args : List (List Char)} (hfit : FitAlone argi args) (h : Batched argi args) :
    VersRoom (headText argi).length (headText argi).length args := by
  obtain ⟨groups, hflat, heq, hlt, hiff⟩ := cmdList_spec (args.length + 1) (Nat.lt_succ_self _) hfit.lengths
  obtain ⟨groups', hflat', heq', hfits⟩ := h
  have hreqs : (groups.map fun g => bufCopy (lineText argi g) listVers) =
      groups'.map (requestText argi) := by
    rw [heq] at heq'
    exact congrArg Prod.fst (Option.some.inj heq')
  have hcount : groups.length = groups'.length := by
    have hlens := congrArg List.length hreqs
    rwa [List.length_map, List.length_map] at hlens
  have hbytes : (groups.map fun g => (bufCopy (lineText argi g) listVers).length) =
      groups'.map fun g => (requestText argi g).length := by
    have hlens := congrArg (List.map List.length) hreqs
    rwa [List.map_map, List.map_map] at hlens
  have hsum : (groups.map fun g => (requestText argi g).length).sum ≤
      (groups.map fun g => (bufCopy (lineText argi g) listVers).length).sum := by
    rw [hbytes, requests_length, requests_length, hflat, hflat', hcount]
  have hfull := eq_of_sum_le (fun g hg => by
    rw [requestText_length]
    exact bufCopy_length_le (hlt g hg)) hsum
  refine hiff.mpr fun g hg => ?_
  have hmem : bufCopy (lineText argi g) listVers ∈ groups'.map (requestText argi) := by
    rw [← hreqs]
    exact List.mem_map.mpr ⟨g, hg, rfl⟩
  obtain ⟨g', hg', hreq⟩ := List.mem_map.mp hmem
  have hfits' := hfits g' hg'
  rw [FitsBuf, hreq, hfull g hg, requestText_length] at hfits'
  exact hfits'

/-- **The requests are as they should be if and only if** none of them gets an argument that it
has room for without a version only. -/
theorem batched_iff_versRoom (argi : CmdList) (args : List (List Char)) (hfit : FitAlone argi args) :
    Batched argi args ↔ VersRoom (headText argi).length (headText argi).length args :=
  ⟨fun h => h.versRoom hfit, batched_of_versRoom hfit⟩

theorem batched_iff_versRoom_two :
    Batched ⟨some 1000, true⟩ ["a@echse".toList, "b@echse".toList] ↔
      VersRoom 17 17 ["a@echse".toList, "b@echse".toList] :=
  batched_iff_versRoom ⟨some 1000, true⟩ _ (by decide)

/-- Sixteen arguments of 249 bytes leave six bytes for the version. -/
theorem not_batched : ¬ ∀ argi args, FitAlone argi args → Batched argi args := by
  intro hall
  have hhead : (headText ⟨none, false⟩).length = 10 := rfl
  have hz : listBufz = 4096 := rfl
  have hvers : listVers.length = 13 := rfl
  have hfit : FitAlone ⟨none, false⟩ (List.replicate 16 (List.replicate 249 'a')) := by
    intro a ha
    rw [FitsBuf, List.eq_of_mem_replicate ha, requestText_length, lineText_length, List.map_singleton,
      List.sum_singleton, List.length_replicate, hhead, hz, hvers]
    decide
  have hlong : (List.replicate 249 'a').length = 249 := List.length_replicate ..
  generalize List.replicate 249 'a' = a at hfit hlong
  generalize hargs : List.replicate 16 a = args at hfit
  have hroom := (hall _ _ hfit).versRoom hfit
  rw [hhead, ← hargs] at hroom
  simp [VersRoom, List.replicate_succ, hlong, hz, hvers] at hroom

end Echse
