import Mathlib.Algebra.Order.BigOperators.Ring.Finset
import Mathlib.Tactic

/-!
# Weighted sums over a box

How far a weighted sum can get when each of its terms is only known up to a
bound: the sum of the bounds under the weights' absolute values, which a corner
of the box attains.  Two boxes add up to the box of the added bounds.
-/

namespace BoxSums

variable {ι R : Type*} [CommRing R] [LinearOrder R] [IsStrictOrderedRing R]
  {s : Finset ι} {w b x : ι → R}

theorem abs_sum_le (h : ∀ j ∈ s, |x j| ≤ b j) :
    |∑ j ∈ s, x j * w j| ≤ ∑ j ∈ s, |w j| * b j := by
  calc |∑ j ∈ s, x j * w j| ≤ ∑ j ∈ s, |x j * w j| := Finset.abs_sum_le_sum_abs _ s
    _ ≤ ∑ j ∈ s, |w j| * b j := by
        refine Finset.sum_le_sum fun j hj ↦ ?_
        rw [abs_mul, mul_comm]
        exact mul_le_mul_of_nonneg_left (h j hj) (abs_nonneg _)

/-- The corner of the box in which no term is negative. -/
def corner (w b : ι → R) (j : ι) : R := if 0 ≤ w j then b j else -b j

theorem abs_corner {j : ι} (hb : 0 ≤ b j) : |corner w b j| = b j := by
  unfold corner
  split_ifs
  · exact abs_of_nonneg hb
  · rw [abs_neg, abs_of_nonneg hb]

theorem sum_corner (s : Finset ι) (w b : ι → R) :
    ∑ j ∈ s, corner w b j * w j = ∑ j ∈ s, |w j| * b j := by
  refine Finset.sum_congr rfl fun j _ ↦ ?_
  unfold corner
  split_ifs with hw
  · rw [abs_of_nonneg hw, mul_comm]
  · rw [abs_of_neg (not_le.mp hw)]
    ring

/-- A bound that holds all over the box is one for its corners. -/
theorem forall_abs_sum_le_iff (hb : ∀ j ∈ s, 0 ≤ b j) (c m : R) :
    (∀ x : ι → R, (∀ j ∈ s, |x j| ≤ b j) → |∑ j ∈ s, x j * w j + c| ≤ m) ↔
      ∑ j ∈ s, |w j| * b j + |c| ≤ m := by
  constructor
  · intro h
    rcases le_total 0 c with hc | hc
    · have hcorner := h (corner w b) fun j hj ↦ (abs_corner (hb j hj)).le
      rw [sum_corner] at hcorner
      rw [abs_of_nonneg hc]
      exact (le_abs_self _).trans hcorner
    · have hcorner := h (fun j ↦ -corner w b j) fun j hj ↦ by
        rw [abs_neg, abs_corner (hb j hj)]
      simp only [neg_mul, Finset.sum_neg_distrib, sum_corner] at hcorner
      rw [abs_of_nonpos hc]
      have hneg := (neg_le_abs _).trans hcorner
      linarith
  · intro h x hx
    calc |∑ j ∈ s, x j * w j + c| ≤ |∑ j ∈ s, x j * w j| + |c| := abs_add_le _ _
      _ ≤ ∑ j ∈ s, |w j| * b j + |c| := add_le_add_left (abs_sum_le hx) _
      _ ≤ m := h

/-- What lies in the box of the added bounds is a sum from the two boxes. -/
theorem exists_add_of_abs_le {a₁ a₂ z : R} (h₁ : 0 ≤ a₁) (h₂ : 0 ≤ a₂) (h : |z| ≤ a₁ + a₂) :
    ∃ y₁ y₂, |y₁| ≤ a₁ ∧ |y₂| ≤ a₂ ∧ y₁ + y₂ = z := by
  obtain ⟨hlow, hhigh⟩ := abs_le.mp h
  refine ⟨max (-a₁) (min a₁ z), z - max (-a₁) (min a₁ z), ?_, ?_, add_sub_cancel _ _⟩
  · exact abs_le.mpr ⟨le_max_left _ _, max_le (by linarith) (min_le_left _ _)⟩
  · rw [abs_le]
    rcases le_total z (-a₁) with hz | hz
    · rw [max_eq_left ((min_le_right _ _).trans hz)]
      constructor <;> linarith
    · rcases le_total z a₁ with hz' | hz'
      · rw [min_eq_right hz', max_eq_right hz, sub_self]
        constructor <;> linarith
      · rw [min_eq_left hz', max_eq_right (by linarith)]
        constructor <;> linarith

end BoxSums
