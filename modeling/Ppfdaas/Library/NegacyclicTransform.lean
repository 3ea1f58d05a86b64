import Mathlib.RingTheory.RootsOfUnity.PrimitiveRoots
import Mathlib.Tactic

/-!
# The negacyclic number-theoretic transform

A polynomial of degree below `n` is evaluated at the odd powers of a primitive
`2n`-th root of unity, the roots of `X ^ n + 1`; the values give it back.
-/

namespace NegacyclicTransform

variable {R : Type*} [CommRing R] {n : ℕ}

def transform (ψ : R) (a : Fin n → R) (j : Fin n) : R :=
  ∑ i : Fin n, a i * ψ ^ ((2 * j.val + 1) * i.val)

/-- `φ` is the inverse of the root, `ν` that of `n`. -/
def inverseTransform (φ ν : R) (b : Fin n → R) (i : Fin n) : R :=
  ν * ∑ j : Fin n, b j * φ ^ ((2 * j.val + 1) * i.val)

variable [IsDomain R] {ψ φ ν : R}

/-- The odd powers of another root of order dividing `2n` cancel. -/
theorem sum_odd_pow_eq_zero {x : R} (hne : x ^ 2 ≠ 1) (hone : x ^ (2 * n) = 1) :
    ∑ j : Fin n, x ^ (2 * j.val + 1) = 0 := by
  have hgeom : (x ^ 2 - 1) * ∑ j ∈ Finset.range n, (x ^ 2) ^ j = 0 := by
    rw [mul_geom_sum, ← pow_mul, hone, sub_self]
  have hzero : ∑ j ∈ Finset.range n, (x ^ 2) ^ j = 0 :=
    (mul_eq_zero.mp hgeom).resolve_left (sub_ne_zero.mpr hne)
  calc ∑ j : Fin n, x ^ (2 * j.val + 1) = ∑ j ∈ Finset.range n, x ^ (2 * j + 1) :=
        Fin.sum_univ_eq_sum_range (fun j ↦ x ^ (2 * j + 1)) n
    _ = (∑ j ∈ Finset.range n, (x ^ 2) ^ j) * x := by
        rw [Finset.sum_mul]
        exact Finset.sum_congr rfl fun j _ ↦ by rw [pow_succ, pow_mul]
    _ = 0 := by rw [hzero, zero_mul]

theorem sum_pow_mul_pow (hψ : IsPrimitiveRoot ψ (2 * n)) (hφ : ψ * φ = 1) (k i : Fin n) :
    ∑ j : Fin n, ψ ^ ((2 * j.val + 1) * k.val) * φ ^ ((2 * j.val + 1) * i.val) =
      if k = i then (n : R) else 0 := by
  have hterm : ∀ j : Fin n, ψ ^ ((2 * j.val + 1) * k.val) * φ ^ ((2 * j.val + 1) * i.val) =
      (ψ ^ k.val * φ ^ i.val) ^ (2 * j.val + 1) := by
    intro j
    rw [mul_pow, ← pow_mul, ← pow_mul, Nat.mul_comm k.val, Nat.mul_comm i.val]
  have hpow : ∀ m, ψ ^ m * φ ^ m = 1 := fun m ↦ by rw [← mul_pow, hφ, one_pow]
  simp only [hterm]
  split_ifs with h
  · subst h
    simp [hpow]
  · apply sum_odd_pow_eq_zero
    · intro hsquare
      have hshift : ψ ^ (2 * k.val) = ψ ^ (2 * i.val) := by
        calc ψ ^ (2 * k.val) = ψ ^ (2 * k.val) * (ψ ^ (2 * i.val) * φ ^ (2 * i.val)) := by
              rw [hpow, mul_one]
          _ = (ψ ^ k.val * φ ^ i.val) ^ 2 * ψ ^ (2 * i.val) := by ring
          _ = ψ ^ (2 * i.val) := by rw [hsquare, one_mul]
      have hindex := hψ.pow_inj (by omega) (by omega) hshift
      exact h (Fin.ext (by omega))
    · have hone : ψ ^ (2 * n) = 1 := hψ.pow_eq_one
      have hφone : φ ^ (2 * n) = 1 := by
        have hboth := hpow (2 * n)
        rwa [hone, one_mul] at hboth
      calc (ψ ^ k.val * φ ^ i.val) ^ (2 * n) = (ψ ^ (2 * n)) ^ k.val * (φ ^ (2 * n)) ^ i.val := by
            ring
        _ = 1 := by rw [hone, hφone, one_pow, one_pow, one_mul]

theorem inverseTransform_transform (hψ : IsPrimitiveRoot ψ (2 * n)) (hφ : ψ * φ = 1)
    (hν : ν * n = 1) (a : Fin n → R) : inverseTransform φ ν (transform ψ a) = a := by
  funext i
  have hswap : ∑ j : Fin n, transform ψ a j * φ ^ ((2 * j.val + 1) * i.val) =
      ∑ k : Fin n, a k * if k = i then (n : R) else 0 := by
    simp only [transform, Finset.sum_mul]
    rw [Finset.sum_comm]
    refine Finset.sum_congr rfl fun k _ ↦ ?_
    rw [← sum_pow_mul_pow hψ hφ k i, Finset.mul_sum]
    exact Finset.sum_congr rfl fun j _ ↦ mul_assoc _ _ _
  rw [inverseTransform, hswap]
  simp only [mul_ite, mul_zero, Finset.sum_ite_eq', Finset.mem_univ, if_true]
  rw [mul_comm (a i), ← mul_assoc, hν, one_mul]

end NegacyclicTransform
