import Mathlib.Algebra.BigOperators.Group.Finset.Basic
import Mathlib.Tactic

/-!
# Window sums by doubling

A vector over a cyclic index set is added to a rotated copy of itself; with
steps that double each time, every position ends up with the sum of the window
that starts there.
-/

namespace WindowSum

variable {ι R : Type*} [AddCommMonoid ι] [AddCommMonoid R]

/-- The entry `s` places further on comes to each position. -/
def rotate (s : ι) (v : ι → R) : ι → R := fun i ↦ v (i + s)

/-- Add to the accumulator its own rotation, once for each step. -/
def fold (steps : List ι) (v : ι → R) : ι → R :=
  steps.foldl (fun acc s ↦ acc + rotate s acc) v

/-- `k` steps that double from `d` on sum windows of `2 ^ k` entries. -/
theorem fold_doubling (d : ι) (k : ℕ) (v : ι → R) :
    fold ((List.range k).map fun j ↦ 2 ^ j • d) v =
      fun i ↦ ∑ j ∈ Finset.range (2 ^ k), v (i + j • d) := by
  induction k with
  | zero => simp [fold]
  | succ k ih =>
      funext i
      rw [fold, List.range_succ, List.map_append, List.foldl_append]
      change (fold ((List.range k).map fun j ↦ 2 ^ j • d) v +
        rotate (2 ^ k • d) (fold ((List.range k).map fun j ↦ 2 ^ j • d) v)) i = _
      rw [ih, pow_succ, mul_two, Finset.sum_range_add]
      simp [rotate, add_smul, add_assoc]

/-- Add to a vector its rotations by all the steps. -/
def spread (steps : List ι) (v : ι → R) : ι → R :=
  steps.foldl (fun acc s ↦ acc + rotate s v) v

/-- The multiples of `d` up to `k • d` sum `k + 1` entries that lie `d` apart. -/
theorem spread_multiples (d : ι) (k : ℕ) (v : ι → R) :
    spread ((List.range k).map fun j ↦ (j + 1) • d) v =
      fun i ↦ ∑ j ∈ Finset.range (k + 1), v (i + j • d) := by
  induction k with
  | zero => simp [spread]
  | succ k ih =>
      rw [spread, List.range_succ, List.map_append, List.foldl_append]
      change spread ((List.range k).map fun j ↦ (j + 1) • d) v + rotate ((k + 1) • d) v = _
      rw [ih]
      funext i
      rw [Finset.sum_range_succ _ (k + 1)]
      rfl

/-- Windows of windows that lie end to end are one window. -/
theorem sum_windows (d : ι) (k l : ℕ) (v : ι → R) (i : ι) :
    ∑ a ∈ Finset.range l, ∑ b ∈ Finset.range k, v (i + a • k • d + b • d) =
      ∑ j ∈ Finset.range (k * l), v (i + j • d) := by
  induction l with
  | zero => simp
  | succ l ih =>
      rw [Finset.sum_range_succ, ih, Nat.mul_succ, Finset.sum_range_add]
      refine congrArg _ (Finset.sum_congr rfl fun b _ ↦ congrArg v ?_)
      rw [← mul_nsmul, add_assoc, ← add_nsmul]

end WindowSum
