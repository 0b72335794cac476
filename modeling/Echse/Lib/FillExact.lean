/-
What a plain loop stores, item by item.

The items of all positions together make one listing.  If every position stores its own
part of the listing as far as it is not late, and is the last one if something in it is
late, then the loop stores the listing up to the first late item, or as much of that as
fills the buffer.
-/
import Echse.Lib.FillOrbit
import Mathlib.Data.List.TakeWhile

namespace FillLoop

/-- A buffer with room for `room` holds a listing, or is full with the beginning of it. -/
def Fills {β : Type} (room : Nat) (out listing : List β) : Prop :=
  out <+: listing ∧ (out = listing ∨ room ≤ out.length)

theorem Fills.map {β γ : Type} {room : Nat} {out listing : List β} (h : Fills room out listing)
    (f : β → γ) : Fills room (out.map f) (listing.map f) := by
  refine ⟨h.1.map f, ?_⟩
  rw [List.length_map]
  exact h.2.imp_left (congrArg (List.map f))

theorem takeWhile_append_of_any {α : Type} {p : α → Bool} {xs : List α}
    (h : ∃ x ∈ xs, p x = false) (ys : List α) : (xs ++ ys).takeWhile p = xs.takeWhile p := by
  rw [List.takeWhile_append, if_neg]
  intro heq
  obtain ⟨x, hx, hp⟩ := h
  have hall := List.takeWhile_eq_self_iff.mp ((List.takeWhile_prefix p).eq_of_length heq)
  rw [hall x hx] at hp
  cases hp

namespace Loop

variable {σ α β : Type} {L : Loop σ α β}

/-! ### Groups -/

/-- Groups that can all be computed are processed like one. -/
theorem gather_somes (gs : List (List α)) :
    L.gather (gs.map some) = (L.taken gs.flatten, L.sig gs.flatten) := by
  have happ : ∀ xs ys : List α, L.taken (xs ++ ys) =
      (if L.sig xs = .cont then L.taken xs ++ L.taken ys else L.taken xs) ∧
      L.sig (xs ++ ys) = if L.sig xs = .cont then L.sig ys else L.sig xs := by
    intro xs ys
    induction xs with
    | nil => simp [taken, sig]
    | cons x xs ih =>
        cases hj : L.judge x with
        | emit =>
            simp only [List.cons_append, taken, sig, hj]
            rw [ih.1, ih.2]
            split <;> simp
        | drop => simpa only [List.cons_append, taken, sig, hj] using ih
        | skip => simp [taken, sig, hj]
        | fin => simp [taken, sig, hj]
  induction gs with
  | nil => rfl
  | cons g gs ih =>
      rw [List.map_cons, List.flatten_cons, gather, ih, (happ _ _).1, (happ _ _).2]
      split <;> rfl

/-- Items are passed over if they are too early, and the first late one is the last. -/
theorem taken_sifted {before late : α → Bool}
    (hjudge : ∀ x, L.judge x = if before x then .drop else if late x then .fin else .emit)
    (xs : List α) :
    L.taken xs = (xs.filter fun x => !before x).takeWhile (fun x => !late x) ∧
      (L.sig xs = .fin ↔ ∃ x ∈ xs.filter fun x => !before x, late x = true) := by
  induction xs with
  | nil => simp [taken, sig]
  | cons x xs ih =>
      unfold taken sig
      rw [hjudge]
      cases hb : before x with
      | true => simpa [hb] using ih
      | false => cases hl : late x <;> simp [hb, hl, ih]

/-- The same where the first item that is not to be kept ends the position. -/
theorem taken_limited {before late keep : α → Bool}
    (hjudge : ∀ x, L.judge x =
      if before x then .drop else if late x then .fin else if !keep x then .skip else .emit)
    (xs : List α) :
    L.taken xs = ((xs.filter fun x => !before x).takeWhile keep).takeWhile (fun x => !late x) ∧
      ((∃ x ∈ (xs.filter fun x => !before x).takeWhile keep, late x = true) → L.sig xs = .fin) ∧
      (L.sig xs = .fin → ∃ x ∈ xs, late x = true) := by
  induction xs with
  | nil => simp [taken, sig]
  | cons x xs ih =>
      unfold taken sig
      rw [hjudge]
      cases hb : before x with
      | true =>
          obtain ⟨h1, h2, h3⟩ := ih
          simpa [hb] using ⟨h1, by simpa using h2, fun h => Or.inr (h3 h)⟩
      | false =>
          cases hl : late x with
          | true => cases hk : keep x <;> simp [hb, hl, hk]
          | false =>
              cases hk : keep x with
              | true =>
                  obtain ⟨h1, h2, h3⟩ := ih
                  simpa [hb, hl, hk] using ⟨h1, by simpa using h2, h3⟩
              | false => simp [hb, hl, hk]

/-! ### Chunks

What a group stores is a chunk.  A buffer is filled chunk by chunk, so it is full with a
whole number of them.
-/

/-- The chunks of a position. -/
def chunks (L : Loop σ α β) : List (Option (List α)) → List (List α)
  | [] => []
  | none :: _ => []
  | some xs :: gs => L.taken xs :: if L.sig xs = .cont then chunks L gs else []

theorem gather_eq_chunks (gs : List (Option (List α))) : (L.gather gs).1 = (L.chunks gs).flatten := by
  induction gs with
  | nil => rfl
  | cons g gs ih =>
      cases g with
      | none => rfl
      | some xs =>
          unfold gather chunks
          split <;> simp [ih]

/-- Fill a buffer with chunks until it is full. -/
def fillUp {γ : Type} (n : Nat) : List (List γ) → List γ → List γ
  | [], out => out
  | c :: cs, out => if n ≤ out.length then out else fillUp n cs (out ++ c)

theorem fillUp_of_full {γ : Type} {n : Nat} {out : List γ} (h : n ≤ out.length) (cs : List (List γ)) :
    fillUp n cs out = out := by
  cases cs with
  | nil => rfl
  | cons c cs => rw [fillUp, if_pos h]

theorem fillUp_append {γ : Type} (n : Nat) (cs ds : List (List γ)) :
    ∀ out : List γ, fillUp n (cs ++ ds) out = fillUp n ds (fillUp n cs out) := by
  induction cs with
  | nil => intro out; rfl
  | cons c cs ih =>
      intro out
      rw [List.cons_append, fillUp, fillUp]
      split
      · rename_i h
        exact (fillUp_of_full h ds).symm
      · exact ih _

theorem fillUp_map {γ δ : Type} (f : γ → δ) (n : Nat) (cs : List (List γ)) :
    ∀ out : List γ, fillUp n (cs.map (List.map f)) (out.map f) = (fillUp n cs out).map f := by
  induction cs with
  | nil => intro out; rfl
  | cons c cs ih =>
      intro out
      rw [List.map_cons, fillUp, fillUp, List.length_map]
      split
      · rfl
      · rw [← List.map_append, ih]

theorem fillUp_fills {γ : Type} (n : Nat) (cs : List (List γ)) :
    ∀ out : List γ, Fills n (fillUp n cs out) (out ++ cs.flatten) := by
  induction cs with
  | nil => intro out; simp [fillUp, Fills]
  | cons c cs ih =>
      intro out
      rw [fillUp]
      split
      · rename_i h
        exact ⟨List.prefix_append _ _, Or.inr h⟩
      · rw [List.flatten_cons, ← List.append_assoc]
        exact ih _

theorem fillGroups_room_eq (n : Nat) (p : σ) (gs : List (Option (List α))) :
    ∀ out : List β, (L.fillGroups (some n) p gs out).1 =
      fillUp n ((L.chunks gs).map (List.map (L.entry p))) out := by
  induction gs with
  | nil => intro out; rfl
  | cons g gs ih =>
      intro out
      by_cases hf : full (some n) out = true
      · rw [fillGroups_of_full hf, fillUp_of_full (by simpa [full] using hf)]
      · have hf' : full (some n) out = false := by simpa using hf
        cases g with
        | none => rw [fillGroups_trap hf']; rfl
        | some xs =>
            have hlt : ¬ n ≤ out.length := by simpa [full] using hf
            rw [fillGroups_some hf', chunks, List.map_cons, fillUp, if_neg hlt]
            by_cases hs : L.sig xs = .cont
            · rw [if_pos hs, if_pos hs]
              exact ih _
            · rw [if_neg hs, if_neg hs]
              rfl

/-- The chunks of the positions that an unlimited run comes to in `k` passes. -/
def chunksUpTo (L : Loop σ α β) (p : σ) : Nat → List (List α)
  | 0 => []
  | k + 1 => chunksUpTo L p k ++
      if (L.passes none k (L.start p)).stop = none then
        L.chunks (L.groups (L.passes none k (L.start p)).pos)
      else []

/-- **A bounded run fills its buffer with the chunks** of the unlimited one. -/
theorem passes_chunks (hplain : L.Plain) {e : α → β} (hentry : ∀ q x, L.entry q x = e x) (n : Nat)
    (p : σ) (k : Nat) :
    (L.passes none k (L.start p)).out = (L.chunksUpTo p k).flatten.map e ∧
      (L.passes (some n) k (L.start p)).out = (fillUp n (L.chunksUpTo p k) []).map e := by
  have hentry' : ∀ q, L.entry q = e := fun q => funext (hentry q)
  induction k with
  | zero => exact ⟨rfl, rfl⟩
  | succ k ih =>
      obtain ⟨hout, hroom⟩ := ih
      have hnone : (L.passes none (k + 1) (L.start p)).out =
          (L.chunksUpTo p (k + 1)).flatten.map e := by
        rw [passes_succ, chunksUpTo, List.flatten_append, List.map_append, ← hout]
        by_cases hno : (L.passes none k (L.start p)).stop = none
        · rw [if_pos hno, pass_body hno (hplain.1 _) rfl (tick_of_plain hplain _), body_none_out,
            hentry']
          unfold yield
          rw [gather_eq_chunks]
        · rw [if_neg hno, pass_of_stop _ hno]
          simp
      refine ⟨hnone, ?_⟩
      rw [passes_succ, chunksUpTo, fillUp_append]
      by_cases hfull : n ≤ (fillUp n (L.chunksUpTo p k) []).length
      · -- a full buffer takes nothing more
        rw [fillUp_of_full hfull, ← hroom]
        have hf : full (some n) (L.passes (some n) k (L.start p)).out = true := by
          rw [hroom]
          simpa [full] using hfull
        by_cases hno : (L.passes (some n) k (L.start p)).stop = none
        · rw [pass_full hno (hplain.1 _) hf]
        · rw [pass_of_stop _ hno]
      · have hf : full (some n) (L.passes (some n) k (L.start p)).out = false := by
          rw [hroom]
          simpa [full] using hfull
        have hsame : L.passes (some n) k (L.start p) = L.passes none k (L.start p) := by
          rcases bounded_or_full (L := L) n (L.start p) k with he | ⟨hlen, -⟩
          · exact he
          · rw [hroom, List.length_map] at hlen
            exact absurd hlen hfull
        by_cases hno : (L.passes none k (L.start p)).stop = none
        · rw [if_pos hno, pass_body (by rw [hsame]; exact hno) (hplain.1 _) hf
            (tick_of_plain hplain _), body_out, fillGroups_room_eq, hroom, hsame, hentry', fillUp_map]
        · rw [if_neg hno, pass_of_stop _ (by rw [hsame]; exact hno), hroom]
          rfl

/-! ### Listings -/

/-- The items of the first `k` positions, up to the first late one. -/
def listing (items : Nat → List α) (late : α → Bool) (k : Nat) : List α :=
  ((List.range k).flatMap items).takeWhile fun x => !late x

theorem listing_succ (items : Nat → List α) (late : α → Bool) (k : Nat) :
    listing items late (k + 1) =
      if ∀ i < k, ∀ x ∈ items i, late x = false then
        listing items late k ++ (items k).takeWhile fun x => !late x
      else listing items late k := by
  unfold listing
  rw [List.range_succ, List.flatMap_append, List.flatMap_singleton]
  split
  · rename_i h
    have hall : ∀ x ∈ (List.range k).flatMap items, (!late x) = true := by
      intro x hx
      obtain ⟨i, hi, hx⟩ := List.mem_flatMap.mp hx
      rw [h i (List.mem_range.mp hi) x hx]
      rfl
    rw [List.takeWhile_append_of_pos hall, List.takeWhile_eq_self_iff.mpr hall]
  · rename_i h
    simp only [not_forall] at h
    obtain ⟨i, hi, x, hx, hlate⟩ := h
    refine takeWhile_append_of_any ⟨x, List.mem_flatMap.mpr ⟨i, List.mem_range.mpr hi, hx⟩, ?_⟩ _
    simpa using hlate

/-- A position stores a list of items up to the first late one. -/
structure StoresUpTo (L : Loop σ α β) (late : α → Bool) (q : σ) (items : List α) : Prop where
  taken : (L.gather (L.groups q)).1 = items.takeWhile fun x => !late x
  trap : (L.gather (L.groups q)).2 ≠ .trap

/-- A position that ends the loop exactly if an item of it is late. -/
def EndsLate (L : Loop σ α β) (late : α → Bool) (q : σ) (items : List α) : Prop :=
  (L.gather (L.groups q)).2 = .fin ↔ ∃ x ∈ items, late x = true

/-- A judge that drops some items and ends at a late one stores the rest up to there. -/
theorem stores_sifted {before late : α → Bool}
    (hjudge : ∀ x, L.judge x = if before x then .drop else if late x then .fin else .emit) {q : σ}
    {gs : List (List α)} (hgroups : L.groups q = gs.map some) :
    L.StoresUpTo late q (gs.flatten.filter fun x => !before x) ∧
      L.EndsLate late q (gs.flatten.filter fun x => !before x) := by
  have hgather := gather_somes (L := L) gs
  rw [← hgroups] at hgather
  obtain ⟨h1, h2⟩ := taken_sifted hjudge gs.flatten
  unfold EndsLate
  rw [hgather]
  exact ⟨⟨by rw [hgather]; exact h1, by rw [hgather]; exact sig_ne_trap _⟩, h2⟩

variable {late : α → Bool} {items : Nat → List α} {p : σ}

theorem takeWhile_of_late {xs : List α} (h : ∀ x ∈ xs, late x = true) :
    xs.takeWhile (fun x => !late x) = [] := by
  cases xs with
  | nil => rfl
  | cons x xs => simp [h x List.mem_cons_self]

/-- What a run without a limit has come by.  If it is over, or something was late, then
nothing is missing from what is still to come. -/
theorem chunksUpTo_listing (hplain : L.Plain) (n : Nat)
    (h : ∀ i < n, ∃ q, L.orbit p i = some q ∧ L.StoresUpTo late q (items i) ∧
      (L.EndsLate late q (items i) ∨ ∀ j < n, i < j → ∀ x ∈ items j, late x = true)) (k : Nat)
    (hk : k ≤ n) :
    (L.chunksUpTo p k).flatten = listing items late k ∧
      ((L.passes none k (L.start p)).stop ≠ none → (∃ i < k, ∃ x ∈ items i, late x = true) ∨
        ∀ j < n, k ≤ j → ∀ x ∈ items j, late x = true) ∧
      ((L.passes none k (L.start p)).stop = none → (∃ i < k, ∃ x ∈ items i, late x = true) →
        ∀ j < n, k ≤ j → ∀ x ∈ items j, late x = true) := by
  induction k with
  | zero => simp [passes, start, listing, chunksUpTo]
  | succ k ih =>
      obtain ⟨hout, hover, hlate⟩ := ih (by omega)
      obtain ⟨q, hq, hst, hend⟩ := h k (by omega)
      rw [passes_succ, chunksUpTo, List.flatten_append, hout]
      by_cases hbefore : ∃ i < k, ∃ x ∈ items i, late x = true
      · have hlist : listing items late (k + 1) = listing items late k := by
          rw [listing_succ, if_neg]
          intro hno
          obtain ⟨i, hi, x, hx, hl⟩ := hbefore
          rw [hno i hi x hx] at hl
          cases hl
        have hsucc : ∃ i < k + 1, ∃ x ∈ items i, late x = true := by
          obtain ⟨i, hi, hx⟩ := hbefore
          exact ⟨i, by omega, hx⟩
        rw [hlist]
        by_cases hno : (L.passes none k (L.start p)).stop = none
        · -- what comes now is late
          have hpos : some q = some (L.passes none k (L.start p)).pos :=
            hq.symm.trans ((passes_none hplain.1 (L.start p) k).2 hno).2
          have hall := hlate hno hbefore
          refine ⟨?_, fun _ => Or.inl hsucc, fun _ _ j hj hkj => hall j hj (by omega)⟩
          rw [if_pos hno, ← Option.some.inj hpos, ← gather_eq_chunks, hst.taken,
            takeWhile_of_late (hall k (by omega) le_rfl), List.append_nil]
        · rw [if_neg hno, pass_of_stop _ hno]
          exact ⟨by simp, fun _ => Or.inl hsucc, fun h => absurd h hno⟩
      · have hlist : listing items late (k + 1) =
            listing items late k ++ (items k).takeWhile fun x => !late x := by
          rw [listing_succ, if_pos]
          intro i hi x hx
          exact Bool.eq_false_iff.mpr fun hl => hbefore ⟨i, hi, x, hx, hl⟩
        rw [hlist]
        by_cases hno : (L.passes none k (L.start p)).stop = none
        · have hpos : some q = some (L.passes none k (L.start p)).pos :=
            hq.symm.trans ((passes_none hplain.1 (L.start p) k).2 hno).2
          have hq' := Option.some.inj hpos
          rw [if_pos hno, pass_body hno (hplain.1 _) rfl (tick_of_plain hplain _), ← hq',
            ← gather_eq_chunks, hst.taken]
          refine ⟨rfl, ?_, ?_⟩
          · intro hover'
            rcases hend with hend | hend
            · rw [Ne, (body_none_stop hno).1, not_not, ← hq'] at hover'
              rcases hover' with hfin | htrap | hnext
              · exact Or.inl ⟨k, by omega, hend.mp hfin⟩
              · exact absurd htrap hst.trap
              · -- there is no next position, so this is the last one asked for
                refine Or.inr fun j hj hkj => ?_
                obtain ⟨r, hr, -⟩ := h (k + 1) (by omega)
                rw [orbit_succ, hq] at hr
                rw [show L.next q = some r from hr] at hnext
                cases hnext
            · exact Or.inr fun j hj hkj => hend j hj (by omega)
          · intro hgo hsome
            rcases hend with hend | hend
            · rw [(body_none_stop hno).1, ← hq'] at hgo
              obtain ⟨i, hi, x, hx, hl⟩ := hsome
              rcases Nat.lt_succ_iff_lt_or_eq.mp hi with hi | rfl
              · exact absurd ⟨i, hi, x, hx, hl⟩ hbefore
              · exact absurd (Or.inl (hend.mpr ⟨x, hx, hl⟩)) hgo
            · exact fun j hj hkj => hend j hj (by omega)
        · -- the run was over, and nothing is missing
          have hall := (hover hno).resolve_left hbefore
          rw [if_neg hno, pass_of_stop _ hno, takeWhile_of_late (hall k (by omega) le_rfl)]
          exact ⟨by simp, fun _ => Or.inr fun j hj hkj => hall j hj (by omega), fun h => absurd h hno⟩

/-- **A plain loop stores the listing of its positions**, as far as there is room. -/
theorem passes_listing (hplain : L.Plain) {e : α → β} (hentry : ∀ q x, L.entry q x = e x)
    (room n : Nat)
    (h : ∀ i < n, ∃ q, L.orbit p i = some q ∧ L.StoresUpTo late q (items i) ∧
      (L.EndsLate late q (items i) ∨ ∀ j < n, i < j → ∀ x ∈ items j, late x = true)) :
    Fills room (L.passes (some room) n (L.start p)).out ((listing items late n).map e) := by
  rw [(passes_chunks hplain hentry room p n).2, ← (chunksUpTo_listing hplain n h n le_rfl).1]
  exact (fillUp_fills room (L.chunksUpTo p n) []).map e

/-! ### Where the buffer is full

Where items of a chunk have one key, and items of a later chunk a greater one, the chunks can
be told from the listing.
-/

/-- Chunks in the order of a key. -/
structure Keyed (key : α → Nat) (cs : List (List α)) : Prop where
  same : ∀ c ∈ cs, ∀ x ∈ c, ∀ y ∈ c, key x = key y
  apart : cs.Pairwise fun c d => ∀ x ∈ c, ∀ y ∈ d, key x < key y

/-- The beginning of a listing that fills a buffer, with all items of the last one's key. -/
def fillBuffer (key : α → Nat) (n : Nat) (xs : List α) : List α :=
  xs.take n ++ (xs.drop n).takeWhile fun y => (xs.take n).getLast?.any fun x => key x == key y

variable {key : α → Nat}

theorem fillUp_keyed (n : Nat) (cs : List (List α)) :
    ∀ out : List α, Keyed key cs → (∀ x ∈ out, ∀ c ∈ cs, ∀ y ∈ c, key x < key y) → out.length < n →
      fillUp n cs out = fillBuffer key n (out ++ cs.flatten) := by
  induction cs with
  | nil =>
      intro out _ _ hlt
      simp [fillUp, fillBuffer, List.take_of_length_le hlt.le, List.drop_of_length_le hlt.le]
  | cons c cs ih =>
      intro out hkey hout hlt
      obtain ⟨hapart, hrest⟩ := List.pairwise_cons.mp hkey.apart
      have hkey' : Keyed key cs := ⟨fun d hd => hkey.same d (List.mem_cons_of_mem _ hd), hrest⟩
      rw [fillUp, if_neg (by omega), List.flatten_cons, ← List.append_assoc]
      by_cases hfull : (out ++ c).length < n
      · refine ih (out ++ c) hkey' (fun x hx d hd => ?_) hfull
        rcases List.mem_append.mp hx with hx | hx
        · exact hout x hx d (List.mem_cons_of_mem _ hd)
        · exact hapart d hd x hx
      · have hn : n ≤ (out ++ c).length := Nat.not_lt.mp hfull
        rw [fillUp_of_full hn]
        -- the last item that fits is one of this chunk
        obtain ⟨z, hz, hlast⟩ : ∃ z ∈ c, ((out ++ c).take n).getLast? = some z := by
          have htake : (out ++ c).take n = out ++ c.take (n - out.length) := by
            rw [List.take_append, List.take_of_length_le hlt.le]
          have hne : c.take (n - out.length) ≠ [] := by
            rw [List.length_append] at hn
            intro hnil
            have hlen := congrArg List.length hnil
            rw [List.length_take, List.length_nil] at hlen
            omega
          refine ⟨(c.take (n - out.length)).getLast hne, List.mem_of_mem_take (List.getLast_mem hne), ?_⟩
          rw [htake, List.getLast?_append_of_ne_nil _ hne, List.getLast?_eq_some_getLast hne]
        unfold fillBuffer
        rw [List.take_append_of_le_length hn, List.drop_append_of_le_length hn, hlast]
        have hc : ∀ y ∈ (out ++ c).drop n, ((some z).any fun x => key x == key y) = true := by
          intro y hy
          have hy' : y ∈ c := by
            rw [List.drop_append, List.drop_of_length_le hlt.le, List.nil_append] at hy
            exact List.mem_of_mem_drop hy
          simpa using hkey.same c List.mem_cons_self z hz y hy'
        have hnil : (cs.flatten.takeWhile fun y => (some z).any fun x => key x == key y) = [] := by
          cases hf : cs.flatten with
          | nil => rfl
          | cons y ys =>
              obtain ⟨d, hd, hy⟩ := List.mem_flatten.mp (hf ▸ List.mem_cons_self : y ∈ cs.flatten)
              have := hapart d hd z hz y hy
              have hne : key z ≠ key y := by omega
              simp [hne]
        rw [List.takeWhile_append_of_pos hc, hnil, List.append_nil, List.take_append_drop]

theorem fillBuffer_of_keyed (n : Nat) {cs : List (List α)} (h : Keyed key cs) :
    fillUp n cs [] = fillBuffer key n cs.flatten := by
  cases n with
  | zero => simp [fillUp_of_full, fillBuffer]
  | succ n => exact fillUp_keyed (n + 1) cs [] h (by simp) (by simp)

theorem mem_chunks {gs : List (List α)} {c : List α} {x : α} (hc : c ∈ L.chunks (gs.map some))
    (hx : x ∈ c) : ∃ g ∈ gs, x ∈ g := by
  induction gs with
  | nil => cases hc
  | cons g gs ih =>
      rw [List.map_cons, chunks] at hc
      rcases List.mem_cons.mp hc with rfl | hc
      · exact ⟨g, List.mem_cons_self, (mem_taken hx).1⟩
      · split at hc
        · obtain ⟨g', hg', hx'⟩ := ih hc
          exact ⟨g', List.mem_cons_of_mem _ hg', hx'⟩
        · cases hc

theorem Keyed.chunks {gs : List (List α)} (h : Keyed key gs) : Keyed key (L.chunks (gs.map some)) := by
  induction gs with
  | nil => exact ⟨fun _ hc => (nomatch hc), List.Pairwise.nil⟩
  | cons g gs ih =>
      obtain ⟨hapart, hrest⟩ := List.pairwise_cons.mp h.apart
      have ih' := ih ⟨fun d hd => h.same d (List.mem_cons_of_mem _ hd), hrest⟩
      have hg : ∀ x ∈ L.taken g, ∀ y ∈ L.taken g, key x = key y := fun x hx y hy =>
        h.same g List.mem_cons_self x (mem_taken hx).1 y (mem_taken hy).1
      rw [List.map_cons, Loop.chunks]
      split
      · refine ⟨fun c hc => ?_, List.pairwise_cons.mpr ⟨fun c hc x hx y hy => ?_, ih'.apart⟩⟩
        · rcases List.mem_cons.mp hc with rfl | hc
          · exact hg
          · exact ih'.same c hc
        · obtain ⟨d, hd, hy'⟩ := mem_chunks hc hy
          exact hapart d hd x (mem_taken hx).1 y hy'
      · exact ⟨fun c hc => List.mem_singleton.mp hc ▸ hg, List.pairwise_singleton _ _⟩

/-- **What fills the buffer of a run** whose groups are in the order of a key. -/
theorem passes_buffer (hplain : L.Plain) {e : α → β} (hentry : ∀ q x, L.entry q x = e x)
    {gs : Nat → List (List α)} {n : Nat}
    (h : ∀ i < n, ∃ q, L.orbit p i = some q ∧ L.groups q = (gs i).map some ∧ Keyed key (gs i))
    (hapart : ∀ j < n, ∀ i < j, ∀ x ∈ (gs i).flatten, ∀ y ∈ (gs j).flatten, key x < key y)
    (room : Nat) :
    (L.passes (some room) n (L.start p)).out =
      (fillBuffer key room (L.chunksUpTo p n).flatten).map e := by
  have hkeyed : ∀ k ≤ n, Keyed key (L.chunksUpTo p k) ∧
      ∀ c ∈ L.chunksUpTo p k, ∀ x ∈ c, ∃ i < k, x ∈ (gs i).flatten := by
    intro k hk
    induction k with
    | zero => exact ⟨⟨fun _ hc => (nomatch hc), List.Pairwise.nil⟩, fun _ hc => (nomatch hc)⟩
    | succ k ih =>
        obtain ⟨hkey, hmem⟩ := ih (by omega)
        rw [chunksUpTo]
        by_cases hno : (L.passes none k (L.start p)).stop = none
        · obtain ⟨q, hq, hgroups, hgs⟩ := h k (by omega)
          have hpos : some q = some (L.passes none k (L.start p)).pos :=
            hq.symm.trans ((passes_none hplain.1 (L.start p) k).2 hno).2
          rw [if_pos hno, ← Option.some.inj hpos, hgroups]
          have hnew : ∀ c ∈ L.chunks ((gs k).map some), ∀ x ∈ c, x ∈ (gs k).flatten := by
            intro c hc x hx
            obtain ⟨g, hg, hx'⟩ := mem_chunks hc hx
            exact List.mem_flatten.mpr ⟨g, hg, hx'⟩
          refine ⟨⟨fun c hc => ?_, List.pairwise_append.mpr ⟨hkey.apart, hgs.chunks.apart,
            fun c hc d hd x hx y hy => ?_⟩⟩, fun c hc x hx => ?_⟩
          · rcases List.mem_append.mp hc with hc | hc
            · exact hkey.same c hc
            · exact hgs.chunks.same c hc
          · obtain ⟨i, hi, hx'⟩ := hmem c hc x hx
            exact hapart k (by omega) i hi x hx' y (hnew d hd y hy)
          · rcases List.mem_append.mp hc with hc | hc
            · obtain ⟨i, hi, hx'⟩ := hmem c hc x hx
              exact ⟨i, by omega, hx'⟩
            · exact ⟨k, by omega, hnew c hc x hx⟩
        · rw [if_neg hno, List.append_nil]
          refine ⟨hkey, fun c hc x hx => ?_⟩
          obtain ⟨i, hi, hx'⟩ := hmem c hc x hx
          exact ⟨i, by omega, hx'⟩
  rw [(passes_chunks hplain hentry room p n).2, fillBuffer_of_keyed room (hkeyed n le_rfl).1]

end Loop

end FillLoop
