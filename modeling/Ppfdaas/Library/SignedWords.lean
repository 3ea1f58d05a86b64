import Mathlib.Tactic

/-!
# Signed 64-bit words

Signed words as integers: conversions from and to unsigned words, and arithmetic
that stays within the range.
-/

namespace SignedWords

/-- As an unsigned word an integer is taken modulo `2 ^ 64`. -/
theorem toNat_toUInt64 (x : Int64) : (x.toUInt64.toNat : ℤ) = x.toInt % 2 ^ 64 := by
  have hnat : x.toInt = (x.toUInt64.toNat : ℤ).bmod (2 ^ 64) :=
    BitVec.toInt_eq_toNat_bmod _
  have hlt := x.toUInt64.toNat_lt
  rw [hnat, Int.bmod_def]
  split_ifs <;> omega

theorem toInt_toInt64 {x : UInt64} (h : x.toNat < 2 ^ 63) : x.toInt64.toInt = x.toNat := by
  have hnat : x.toInt64.toInt = (x.toNat : ℤ).bmod (2 ^ 64) := BitVec.toInt_eq_toNat_bmod _
  rw [hnat]
  exact Int.bmod_eq_of_le (by omega) (by omega)

theorem toInt_add_of_bounds {x y : Int64} (hlow : -2 ^ 63 ≤ x.toInt + y.toInt)
    (hhigh : x.toInt + y.toInt < 2 ^ 63) : (x + y).toInt = x.toInt + y.toInt := by
  rw [Int64.toInt_add]
  exact Int.bmod_eq_of_le (by omega) (by omega)

theorem toInt_sub_of_bounds {x y : Int64} (hlow : -2 ^ 63 ≤ x.toInt - y.toInt)
    (hhigh : x.toInt - y.toInt < 2 ^ 63) : (x - y).toInt = x.toInt - y.toInt := by
  rw [Int64.toInt_sub]
  exact Int.bmod_eq_of_le (by omega) (by omega)

theorem lt_zero_iff {x : Int64} : x < 0 ↔ x.toInt < 0 := Int64.lt_iff_toInt_lt

end SignedWords
