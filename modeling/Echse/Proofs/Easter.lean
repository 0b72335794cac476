/-
Easter is where the calendar has it.

`easter_get_yday` folds the reckoning into a few sums in `unsigned int`: the moon's
corrections into one division, the two exceptions into another, and the days up to Sunday
into a remainder that counts back from a week later.
-/
import Echse.Lib.Computus
import Echse.Proofs.Cands

namespace Echse

open Computus (moon sunday ahead march)

/-- The exceptions as a division. -/
theorem easter_exceptions {h a : Nat} (hh : h < 30) (ha : a < 19) :
    h + (29578 - a - 32 * h) / 1024 =
      if h = 29 ∨ (h = 28 ∧ 11 ≤ a) then h + 27 else h + 28 := by
  split <;> omega

/-- A week after the full moon, and back to Sunday. -/
theorem easter_back (y : Nat) {e : Nat}
    (he : e = if moon y = 29 ∨ (moon y = 28 ∧ 11 ≤ y % 19) then moon y + 27 else moon y + 28) :
    e = march y + (y % 7 + (y / 4 - (y / 100 - y / 100 / 4)) + e + 2) % 7 := by
  have hsun := Computus.sunday_lt y
  have hahead := Computus.ahead_eq y
  have hadd := Computus.sunday_add y
  have hmarch : march y = 22 + moon y + sunday y - 7 * ahead y := rfl
  rw [show y + y / 4 - (y / 100 - y / 100 / 4) = y + (y / 4 - (y / 100 - y / 100 / 4)) by omega] at hadd
  generalize y / 4 - (y / 100 - y / 100 / 4) = q at hadd ⊢
  -- the remainder is what is left of the week
  have hrest : (y % 7 + q + (moon y + 28) + 2) % 7 = 6 - sunday y := by
    clear hahead hmarch he
    omega
  clear hadd
  generalize y % 7 + q = a at hrest ⊢
  by_cases hex : moon y = 29 ∨ (moon y = 28 ∧ 11 ≤ y % 19)
  · rw [if_pos hex] at he
    subst he
    by_cases h6 : sunday y = 6
    · rw [if_pos ⟨h6, hex⟩] at hahead
      omega
    · rw [if_neg fun h => h6 h.1] at hahead
      omega
  · rw [if_neg hex] at he
    rw [if_neg fun h => hex h.2] at hahead
    subst he
    omega

/-- **The day of the year of Easter**, the leap days counted by the rule of four. -/
theorem easterGetYday_eq {y : Nat} (hy : y < 4294967296) :
    easterGetYday y = march y + 59 + leap4 y := by
  unfold easterGetYday
  dsimp only
  have hcent : y / 4 / 25 = y / 100 := Nat.div_div_eq_div_mul ..
  have hd : u32 (3 * (y / 4 / 25 + 1)) / 4 = y / 100 - y / 100 / 4 := by
    rw [hcent, u32_of_lt (by omega)]
    omega
  have hc : u32 (8 * (y / 4 / 25 + 1) + 5) = 8 * (y / 100) + 13 := by
    rw [hcent, u32_of_lt (by omega)]
    omega
  have hmoonsum : 19 * ((y % 19 : Nat) : Int) - ((8 * (y / 100) + 13) / 25 : Nat) +
      (y / 100 - y / 100 / 4 : Nat) + 15 =
        (19 * (y % 19) + (y / 100 - y / 100 / 4) + 15 - (8 * (y / 100) + 13) / 25 : Nat) := by
    omega
  rw [hd, hc, hmoonsum, u32OfInt_ofNat (by omega), ← Computus.moon_eq]
  clear hd hc hmoonsum hcent
  have hmoon := Computus.moon_lt y
  have hsun := Computus.sunday_lt y
  have hrange := Computus.march_range y
  have hleap := leap4_le y
  -- the full moon, a week later
  have hexc : u32OfInt (29578 - ((y % 19 : Nat) : Int) - 32 * moon y) / 1024 =
      (29578 - y % 19 - 32 * moon y) / 1024 := by
    rw [show 29578 - ((y % 19 : Nat) : Int) - 32 * moon y =
      ((29578 - y % 19 - 32 * moon y : Nat) : Int) by omega, u32OfInt_ofNat (by omega)]
  rw [hexc, easter_exceptions hmoon (by omega)]
  generalize hweek : (if moon y = 29 ∨ moon y = 28 ∧ 11 ≤ y % 19 then moon y + 27
    else moon y + 28) = e
  have hlt : e ≤ 57 := by
    rw [← hweek]
    split <;> omega
  rw [u32_of_lt (n := e) (by omega)]
  -- and back to Sunday
  have hback : ((y % 7 : Nat) : Int) + (y / 4 : Nat) - (y / 100 - y / 100 / 4 : Nat) + e + 2 =
      (y % 7 + (y / 4 - (y / 100 - y / 100 / 4)) + e + 2 : Nat) := by
    omega
  rw [hback, u32OfInt_ofNat (by omega)]
  have hsunday := easter_back y hweek.symm
  clear hback hexc hweek
  generalize (y % 7 + (y / 4 - (y / 100 - y / 100 / 4)) + e + 2) % 7 = back at hsunday ⊢
  rw [show (e : Int) - (back : Nat) = (march y : Int) by omega, u32OfInt_ofNat (by omega), u32_of_lt (by split <;> omega)]
  rfl

/-- What the conversion makes of the days from the 22nd of March on. -/
def marchRight (leap y k : Nat) : Bool :=
  ydToMd y (k + 22 + 59 + leap : Nat) = if k < 10 then ⟨3, k + 22⟩ else ⟨4, k - 9⟩

theorem marchRight_all : ((List.range 35).all (marchRight 0 1)) = true ∧
    ((List.range 35).all (marchRight 1 4)) = true := by
  constructor <;> decide

theorem ydToMd_march {y e : Nat} (he : 22 ≤ e ∧ e ≤ 56) :
    ydToMd y (e + 59 + leap4 y : Nat) = if e ≤ 31 then ⟨3, e⟩ else ⟨4, e - 31⟩ := by
  have h : marchRight (leap4 y) (likeYear y) (e - 22) = true := by
    unfold leap4 likeYear
    split
    · exact List.all_eq_true.mp marchRight_all.2 _ (List.mem_range.mpr (by omega))
    · exact List.all_eq_true.mp marchRight_all.1 _ (List.mem_range.mpr (by omega))
  unfold marchRight at h
  rw [decide_eq_true_eq, show e - 22 + 22 = e by omega] at h
  rw [ydToMd_congr (likeYear_iff y), h]
  by_cases h31 : e ≤ 31
  · rw [if_pos h31, if_pos (by omega)]
  · rw [if_neg h31, if_neg (by omega), show e - 22 - 9 = e - 31 by omega]

/-- **The day of the year that the code goes by is that of Easter Sunday.** -/
theorem easter_date {y : Nat} (hy : 1583 ≤ y ∧ y < 4294967296) :
    ydToMd y (easterGetYday y) = ⟨(Computus.easter y).1, (Computus.easter y).2⟩ := by
  rw [easterGetYday_eq hy.2, ydToMd_march (Computus.march_range y), Computus.easter_eq]
  split <;> rfl

/-- The latest Easter there is. -/
theorem easter_date_2038 : ydToMd 2038 (easterGetYday 2038) = ⟨4, 25⟩ :=
  easter_date (y := 2038) (by decide)

end Echse
