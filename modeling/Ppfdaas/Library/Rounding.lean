import Mathlib.Algebra.Order.Round
import Mathlib.Tactic

/-!
# Roundings to a neighbouring integer

What holds of every function that takes a number to its floor or to its
ceiling, and those of them that numeric code uses: to the nearest integer with
ties to even or away from zero, and towards zero.
-/

namespace Rounding

variable {K : Type*} [Field K] [LinearOrder K] [FloorRing K]

/-- A number goes no further than its floor or its ceiling. -/
structure IsRounding (r : K → ℤ) : Prop where
  floor_le : ∀ a, ⌊a⌋ ≤ r a
  le_ceil : ∀ a, r a ≤ ⌈a⌉

namespace IsRounding

variable {r : K → ℤ} (hr : IsRounding r) {a b : K} {m : ℤ}

include hr

theorem le_of_le (h : a ≤ m) : r a ≤ m := (hr.le_ceil a).trans (Int.ceil_le.mpr h)

theorem ge_of_ge (h : (m : K) ≤ a) : m ≤ r a := (Int.le_floor.mpr h).trans (hr.floor_le a)

theorem intCast (m : ℤ) : r m = m := (hr.le_of_le le_rfl).antisymm (hr.ge_of_ge le_rfl)

variable [IsStrictOrderedRing K]

theorem abs_le_ceil (h : |a| ≤ b) : |r a| ≤ ⌈b⌉ := by
  have hceil := Int.le_ceil b
  obtain ⟨hlow, hhigh⟩ := abs_le.mp h
  refine abs_le.mpr ⟨hr.ge_of_ge ?_, hr.le_of_le (hhigh.trans hceil)⟩
  push_cast
  exact (neg_le_neg hceil).trans hlow

theorem abs_sub_lt_one (a : K) : |(r a : K) - a| < 1 := by
  have hfloor : ((⌊a⌋ : ℤ) : K) ≤ r a := Int.cast_le.mpr (hr.floor_le a)
  have hceil : ((r a : ℤ) : K) ≤ ⌈a⌉ := Int.cast_le.mpr (hr.le_ceil a)
  have hlow := Int.lt_floor_add_one a
  have hhigh := Int.ceil_lt_add_one a
  rw [abs_lt]
  constructor
  · linarith
  · linarith

end IsRounding

variable [IsStrictOrderedRing K]

theorem floor_add_one_le_ceil {a : K} (h : 0 < Int.fract a) : ⌊a⌋ + 1 ≤ ⌈a⌉ := by
  rw [Int.add_one_le_iff, Int.lt_ceil, ← sub_pos]
  exact h

/-- To the nearest integer, ties to even. -/
def halfEven (a : K) : ℤ :=
  if Int.fract a < 1 / 2 then ⌊a⌋
  else if 1 / 2 < Int.fract a then ⌊a⌋ + 1
  else if ⌊a⌋ % 2 = 0 then ⌊a⌋
  else ⌊a⌋ + 1

theorem isRounding_halfEven : IsRounding (halfEven : K → ℤ) where
  floor_le a := by
    unfold halfEven
    split_ifs <;> omega
  le_ceil a := by
    have hfloor := Int.floor_le_ceil a
    by_cases hlt : Int.fract a < 1 / 2
    · rw [halfEven, if_pos hlt]
      exact hfloor
    · have hup := floor_add_one_le_ceil (one_half_pos.trans_le (not_lt.mp hlt))
      unfold halfEven
      split_ifs <;> omega

/-- To the nearest integer, ties away from zero. -/
def halfAway (a : K) : ℤ := if a < 0 then -⌊-a + 1 / 2⌋ else ⌊a + 1 / 2⌋

theorem abs_halfAway_sub_le (a : K) : |(halfAway a : K) - a| ≤ 1 / 2 := by
  rw [halfAway, abs_le]
  split_ifs
  · have hlow := Int.floor_le (-a + 1 / 2)
    have hhigh := Int.lt_floor_add_one (-a + 1 / 2)
    push_cast
    constructor <;> linarith
  · have hlow := Int.floor_le (a + 1 / 2)
    have hhigh := Int.lt_floor_add_one (a + 1 / 2)
    constructor <;> linarith

theorem abs_lt_abs_halfAway {a : K} (htie : |(halfAway a : K) - a| = 1 / 2) :
    |a| < |(halfAway a : K)| := by
  have hhalf : (0 : K) < 1 / 2 := one_half_pos
  rw [halfAway] at htie ⊢
  split_ifs at htie ⊢ with hneg
  · have hhigh := Int.lt_floor_add_one (-a + 1 / 2)
    push_cast at htie ⊢
    rw [abs_neg, abs_of_neg hneg]
    rcases (abs_eq hhalf.le).mp htie with h | h
    · linarith
    · exact (by linarith : -a < (⌊-a + 1 / 2⌋ : K)).trans_le (le_abs_self _)
  · have hhigh := Int.lt_floor_add_one (a + 1 / 2)
    rw [abs_of_nonneg (not_lt.mp hneg)]
    rcases (abs_eq hhalf.le).mp htie with h | h
    · exact (by linarith : a < (⌊a + 1 / 2⌋ : K)).trans_le (le_abs_self _)
    · linarith

/-- Towards zero. -/
def truncate (a : K) : ℤ := if 0 ≤ a then ⌊a⌋ else ⌈a⌉

theorem isRounding_truncate : IsRounding (truncate : K → ℤ) where
  floor_le a := by
    have hfloor := Int.floor_le_ceil a
    unfold truncate
    split_ifs <;> omega
  le_ceil a := by
    have hfloor := Int.floor_le_ceil a
    unfold truncate
    split_ifs <;> omega

theorem abs_truncate_le (a : K) : |(truncate a : K)| ≤ |a| := by
  rw [truncate]
  split_ifs with ha
  · have hnonneg : (0 : K) ≤ ⌊a⌋ := Int.cast_nonneg (Int.floor_nonneg.mpr ha)
    rw [abs_of_nonneg hnonneg, abs_of_nonneg ha]
    exact Int.floor_le a
  · have hneg : a ≤ 0 := le_of_not_ge ha
    have hceil : ((⌈a⌉ : ℤ) : K) ≤ 0 := by
      exact_mod_cast Int.ceil_le.mpr (by simpa using hneg)
    rw [abs_of_nonpos hceil, abs_of_nonpos hneg]
    exact neg_le_neg (Int.le_ceil a)

theorem truncate_mul_nonneg (a : K) : 0 ≤ (truncate a : K) * a := by
  rcases le_total 0 a with ha | ha
  · exact mul_nonneg (Int.cast_nonneg (isRounding_truncate.ge_of_ge (by simpa using ha))) ha
  · have hnonpos : truncate a ≤ 0 := isRounding_truncate.le_of_le (by simpa using ha)
    exact mul_nonneg_of_nonpos_of_nonpos (Int.cast_nonpos.mpr hnonpos) ha

end Rounding
