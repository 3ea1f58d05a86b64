import Mathlib.RingTheory.AdjoinRoot
import Mathlib.Tactic

/-!
# The negacyclic product of coefficient vectors

Vectors of length `n` stand for the residues of polynomials modulo `X ^ n + 1`:
a term that runs over the top comes back at the bottom with its sign changed.
`toQuotient_mul` identifies the product with the one of the quotient ring.
-/

open Polynomial

namespace Negacyclic

variable {R : Type*} [CommRing R] {n : ℕ} [NeZero n]

/-- The product modulo `X ^ n + 1`.  The index `c - j` is taken modulo `n`, and
wraps around exactly when `j` is greater than `c`. -/
def mul (a b : Fin n → R) (c : Fin n) : R :=
  ∑ j, if j ≤ c then a (c - j) * b j else -(a (c - j) * b j)

/-- The quotient ring that the vectors stand for. -/
noncomputable abbrev Quotient (R : Type*) [CommRing R] (n : ℕ) : Type _ :=
  AdjoinRoot (X ^ n + 1 : R[X])

noncomputable def toQuotient (a : Fin n → R) : Quotient R n :=
  ∑ i : Fin n, AdjoinRoot.of (X ^ n + 1 : R[X]) (a i) * AdjoinRoot.root (X ^ n + 1 : R[X]) ^ (i : ℕ)

theorem single_mul (b : Fin n → R) : mul (Pi.single 0 1) b = b := by
  funext c
  rw [mul, Finset.sum_eq_single c]
  · simp
  · intro j _ hj
    have hne : c - j ≠ 0 := sub_ne_zero.mpr (Ne.symm hj)
    simp [hne]
  · simp

omit [NeZero n] in
/-- Against a factor that ends before `w`, the last coefficient of a window of
`w` entries is the convolution inside the window: nothing wraps around. -/
theorem mul_window {w base : ℕ} (a b : Fin n → R) (hw : 0 < w) (hbase : base + w ≤ n)
    (hzero : ∀ c : Fin n, w ≤ c.val → b c = 0) :
    mul a b ⟨base + (w - 1), by omega⟩ =
      ∑ j : Fin w, a ⟨base + j, by omega⟩ * b ⟨w - 1 - j, by omega⟩ := by
  symm
  refine Finset.sum_of_injOn (fun j ↦ ⟨w - 1 - j, by omega⟩) ?_
    (fun _ _ ↦ Finset.mem_coe.mpr (Finset.mem_univ _)) (fun c _ hc ↦ ?_) fun j _ ↦ ?_
  · intro i _ j _ hij
    have hval : w - 1 - i.val = w - 1 - j.val := congrArg Fin.val hij
    exact Fin.ext (by omega)
  · have hbeyond : w ≤ c.val := by
      by_contra hlow
      apply hc
      refine ⟨⟨w - 1 - c, by omega⟩, Finset.mem_coe.mpr (Finset.mem_univ _), ?_⟩
      exact Fin.ext (by simp only; omega)
    simp [hzero c hbeyond]
  · have hle : (⟨w - 1 - j, by omega⟩ : Fin n) ≤ ⟨base + (w - 1), by omega⟩ := by
      simp only [Fin.mk_le_mk]
      omega
    have hsub : (⟨base + (w - 1), by omega⟩ : Fin n) - ⟨w - 1 - j, by omega⟩ =
        ⟨base + j, by omega⟩ := by
      apply Fin.ext
      rw [Fin.sub_val_of_le hle]
      simp only
      omega
    rw [if_pos hle, hsub]

omit [NeZero n] in
theorem mul_smul_sub (k l : R) (a a' b : Fin n → R) (c : Fin n) :
    mul (fun i ↦ k * a i - l * a' i) b c = k * mul a b c - l * mul a' b c := by
  rw [mul, mul, mul, Finset.mul_sum, Finset.mul_sum, ← Finset.sum_sub_distrib]
  refine Finset.sum_congr rfl fun j _ ↦ ?_
  by_cases h : j ≤ c
  · simp only [if_pos h]
    ring
  · simp only [if_neg h]
    ring

omit [NeZero n] in
theorem mul_intCast (a b : Fin n → ℤ) (c : Fin n) :
    mul (fun i ↦ (a i : R)) (fun i ↦ (b i : R)) c = (mul a b c : ℤ) := by
  rw [mul, mul, Int.cast_sum]
  refine Finset.sum_congr rfl fun j _ ↦ ?_
  by_cases h : j ≤ c
  · rw [if_pos h, if_pos h, Int.cast_mul]
  · rw [if_neg h, if_neg h, Int.cast_neg, Int.cast_mul]

section Ordered

variable {K : Type*} [CommRing K] [LinearOrder K] [IsStrictOrderedRing K]

omit [NeZero n] in
/-- The product grows by the sum of the absolute values of one factor at most. -/
theorem abs_mul_le {a : Fin n → K} {A : K} (ha : ∀ i, |a i| ≤ A) (b : Fin n → K) (c : Fin n) :
    |mul a b c| ≤ A * ∑ j, |b j| := by
  rw [mul, Finset.mul_sum]
  refine (Finset.abs_sum_le_sum_abs _ _).trans (Finset.sum_le_sum fun j _ ↦ ?_)
  have hterm : |a (c - j) * b j| ≤ A * |b j| := by
    rw [abs_mul]
    exact mul_le_mul_of_nonneg_right (ha _) (abs_nonneg _)
  by_cases h : j ≤ c
  · rwa [if_pos h]
  · rwa [if_neg h, abs_neg]

omit [NeZero n] in
/-- A factor that ends before `w` contributes `w` terms. -/
theorem abs_mul_window_le {a b : Fin n → K} {A B : K} {w : ℕ} (ha : ∀ i, |a i| ≤ A) (hA : 0 ≤ A)
    (hb : ∀ j, |b j| ≤ B) (hB : 0 ≤ B) (hzero : ∀ j : Fin n, w ≤ j.val → b j = 0) (c : Fin n) :
    |mul a b c| ≤ A * (w * B) := by
  have hterm : ∀ j : Fin n, |b j| ≤ if j.val < w then B else 0 := fun j ↦ by
    by_cases hj : j.val < w
    · rw [if_pos hj]
      exact hb j
    · rw [if_neg hj, hzero j (not_lt.mp hj), abs_zero]
  have hcount : ((Finset.univ.filter fun j : Fin n ↦ j.val < w).card : K) ≤ w := by
    rw [Fin.card_filter_val_lt]
    exact_mod_cast min_le_right n w
  refine (abs_mul_le ha b c).trans (mul_le_mul_of_nonneg_left ?_ hA)
  calc ∑ j, |b j| ≤ ∑ j : Fin n, if j.val < w then B else 0 := Finset.sum_le_sum fun j _ ↦ hterm j
    _ = (Finset.univ.filter fun j : Fin n ↦ j.val < w).card * B := by
      rw [← Finset.sum_filter, Finset.sum_const, nsmul_eq_mul]
    _ ≤ w * B := mul_le_mul_of_nonneg_right hcount hB

end Ordered

omit [NeZero n] in
theorem toQuotient_add (a b : Fin n → R) :
    toQuotient (a + b) = toQuotient a + toQuotient b := by
  simp [toQuotient, add_mul, Finset.sum_add_distrib]

omit [NeZero n] in
theorem root_pow : AdjoinRoot.root (X ^ n + 1 : R[X]) ^ n = -1 := by
  have h := AdjoinRoot.eval₂_root (X ^ n + 1 : R[X])
  simp only [eval₂_add, eval₂_X_pow, eval₂_one] at h
  exact eq_neg_of_add_eq_zero_left h

omit [NeZero n] in
theorem val_of_le {i j c : Fin n} (hc : c = i + j) (h : j ≤ c) :
    (i : ℕ) + j = c := by
  subst hc
  have hadd := Fin.val_add i j
  have hle : (j : ℕ) ≤ ((i : ℕ) + j) % n := hadd ▸ h
  rw [hadd]
  have hi := i.isLt
  have hj := j.isLt
  by_cases hlt : (i : ℕ) + j < n
  · exact (Nat.mod_eq_of_lt hlt).symm
  · rw [Nat.mod_eq_sub_mod (Nat.le_of_not_lt hlt), Nat.mod_eq_of_lt (by omega)] at hle
    omega

omit [NeZero n] in
theorem val_of_lt {i j c : Fin n} (hc : c = i + j) (h : ¬ j ≤ c) :
    (i : ℕ) + j = c + n := by
  subst hc
  have hadd := Fin.val_add i j
  have hlt : ((i : ℕ) + j) % n < j := by
    rw [← hadd]
    exact Fin.not_le.mp h
  rw [hadd]
  have hi := i.isLt
  have hj := j.isLt
  by_cases hsum : (i : ℕ) + j < n
  · rw [Nat.mod_eq_of_lt hsum] at hlt
    omega
  · rw [Nat.mod_eq_sub_mod (Nat.le_of_not_lt hsum), Nat.mod_eq_of_lt (by omega)]
    omega

theorem toQuotient_mul (a b : Fin n → R) :
    toQuotient (mul a b) = toQuotient a * toQuotient b := by
  set x := AdjoinRoot.root (X ^ n + 1 : R[X])
  set of := AdjoinRoot.of (X ^ n + 1 : R[X])
  have hterm : ∀ i j c : Fin n, c = i + j →
      of (if j ≤ c then a (c - j) * b j else -(a (c - j) * b j)) * x ^ (c : ℕ) =
        of (a i) * x ^ (i : ℕ) * (of (b j) * x ^ (j : ℕ)) := by
    intro i j c hc
    have hsub : c - j = i := by rw [hc, add_sub_cancel_right]
    have hpow : x ^ (i : ℕ) * x ^ (j : ℕ) = x ^ ((i : ℕ) + j) := (pow_add x i j).symm
    rw [hsub]
    by_cases h : j ≤ c
    · rw [if_pos h, map_mul]
      calc of (a i) * of (b j) * x ^ (c : ℕ)
          = of (a i) * of (b j) * (x ^ (i : ℕ) * x ^ (j : ℕ)) := by
            rw [hpow, val_of_le hc h]
        _ = of (a i) * x ^ (i : ℕ) * (of (b j) * x ^ (j : ℕ)) := by ring
    · rw [if_neg h, map_neg, map_mul]
      calc -(of (a i) * of (b j)) * x ^ (c : ℕ)
          = of (a i) * of (b j) * (x ^ (c : ℕ) * x ^ n) := by rw [root_pow]; ring
        _ = of (a i) * of (b j) * (x ^ (i : ℕ) * x ^ (j : ℕ)) := by
            rw [hpow, val_of_lt hc h, pow_add]
        _ = of (a i) * x ^ (i : ℕ) * (of (b j) * x ^ (j : ℕ)) := by ring
  calc toQuotient (mul a b)
      = ∑ j, ∑ c, of (if j ≤ c then a (c - j) * b j else -(a (c - j) * b j)) * x ^ (c : ℕ) := by
        simp only [toQuotient, mul, map_sum, Finset.sum_mul]
        exact Finset.sum_comm
    _ = ∑ j, ∑ i, of (a i) * x ^ (i : ℕ) * (of (b j) * x ^ (j : ℕ)) := by
        refine Finset.sum_congr rfl fun j _ ↦ ?_
        refine (Fintype.sum_equiv (Equiv.addRight j) _ _ fun i ↦ ?_).symm
        exact (hterm i j (i + j) rfl).symm
    _ = toQuotient a * toQuotient b := by
        rw [Finset.sum_comm, toQuotient, toQuotient, Finset.sum_mul_sum]

end Negacyclic
