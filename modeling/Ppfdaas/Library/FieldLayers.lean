import Mathlib.FieldTheory.Finite.Basic
import Mathlib.LinearAlgebra.Matrix.Circulant
import Mathlib.Tactic

/-!
# Layers of a substitution-permutation network

Layers over a commutative ring, on states that are read as square grids where a
layer mixes, and when each of them is a bijection.  A cipher runs a list of
layers; what relates two ciphers layer by layer relates their runs.
-/

namespace FieldLayers

section Runs

variable {σ : Type*}

def run (layers : List (σ → σ)) (s : σ) : σ := layers.foldl (fun s layer ↦ layer s) s

theorem run_bijective {layers : List (σ → σ)} (h : ∀ f ∈ layers, Function.Bijective f) :
    Function.Bijective (run layers) := by
  induction layers with
  | nil => exact Function.bijective_id
  | cons f layers ih =>
      have htail := ih fun g hg ↦ h g (List.mem_cons_of_mem f hg)
      exact htail.comp (h f List.mem_cons_self)

end Runs

section Layers

variable {R : Type*} [CommRing R] {m n : ℕ}

/-- A state of `m * m` elements as `m` rows of `m`. -/
def grid : (Fin (m * m) → R) ≃ Matrix (Fin m) (Fin m) R where
  toFun x := .of fun row col ↦ x (finProdFinEquiv (row, col))
  invFun X := fun i ↦ X i.divNat i.modNat
  left_inv x := funext fun i ↦ congrArg x (finProdFinEquiv.apply_symm_apply i)
  right_inv X := by
    ext row col
    exact congrArg (fun rc : Fin m × Fin m ↦ X rc.1 rc.2)
      (finProdFinEquiv.symm_apply_apply (row, col))

/-- The circulant of `c` applied to the columns of the grid. -/
def mixColumns (c : Fin m → R) (x : Fin (m * m) → R) : Fin (m * m) → R :=
  grid.symm ((Matrix.circulant c).transpose * grid x)

/-- The circulant of `c` applied to the rows of the grid. -/
def mixRows (c : Fin m → R) (x : Fin (m * m) → R) : Fin (m * m) → R :=
  grid.symm (grid x * Matrix.circulant c)

/-- The index `k` rows further down, cyclically. -/
def below (i : Fin (m * m)) (k : Fin m) : Fin (m * m) := finProdFinEquiv (i.divNat + k, i.modNat)

/-- The index `k` columns further on, cyclically. -/
def beside (i : Fin (m * m)) (k : Fin m) : Fin (m * m) := finProdFinEquiv (i.divNat, i.modNat + k)

theorem below_val (i : Fin (m * m)) (k : Fin m) :
    (below i k).val = i % m + m * ((i / m + k) % m) := by
  simp only [below, finProdFinEquiv_apply_val, Fin.val_add, Fin.coe_divNat, Fin.coe_modNat]

theorem beside_val (i : Fin (m * m)) (k : Fin m) :
    (beside i k).val = (i % m + k) % m + m * (i / m) := by
  simp only [beside, finProdFinEquiv_apply_val, Fin.val_add, Fin.coe_divNat, Fin.coe_modNat]

theorem mixColumns_apply [NeZero m] (c : Fin m → R) (x : Fin (m * m) → R) (i : Fin (m * m)) :
    mixColumns c x i = ∑ k, c k * x (below i k) := by
  change ((Matrix.circulant c).transpose * grid x) i.divNat i.modNat = _
  rw [Matrix.mul_apply, ← Equiv.sum_comp (Equiv.addLeft i.divNat)]
  refine Finset.sum_congr rfl fun k _ ↦ ?_
  rw [Equiv.coe_addLeft, Matrix.transpose_apply, Matrix.circulant_apply, add_sub_cancel_left]
  rfl

theorem mixRows_apply [NeZero m] (c : Fin m → R) (x : Fin (m * m) → R) (i : Fin (m * m)) :
    mixRows c x i = ∑ k, c k * x (beside i k) := by
  change (grid x * Matrix.circulant c) i.divNat i.modNat = _
  rw [Matrix.mul_apply, ← Equiv.sum_comp (Equiv.addLeft i.modNat)]
  refine Finset.sum_congr rfl fun k _ ↦ ?_
  rw [Equiv.coe_addLeft, Matrix.circulant_apply, add_sub_cancel_left, mul_comm]
  rfl

section Inverse

variable [NeZero m] {c d : Fin m → R}

theorem circulant_inverse (hinv : (Matrix.circulant c).mulVec d = Pi.single 0 1) :
    Matrix.circulant c * Matrix.circulant d = 1 ∧
      Matrix.circulant d * Matrix.circulant c = 1 := by
  have hright : Matrix.circulant c * Matrix.circulant d = 1 := by
    rw [Matrix.circulant_mul, hinv, Matrix.circulant_single_one]
  exact ⟨hright, (Matrix.circulant_mul_comm d c).trans hright⟩

theorem mixRows_bijective (hinv : (Matrix.circulant c).mulVec d = Pi.single 0 1) :
    Function.Bijective (mixRows c) := by
  obtain ⟨hright, hleft⟩ := circulant_inverse hinv
  refine Function.bijective_iff_has_inverse.mpr ⟨mixRows d, ?_, ?_⟩
  · intro x
    rw [mixRows, mixRows, Equiv.apply_symm_apply, Matrix.mul_assoc, hright, Matrix.mul_one,
      Equiv.symm_apply_apply]
  · intro x
    rw [mixRows, mixRows, Equiv.apply_symm_apply, Matrix.mul_assoc, hleft, Matrix.mul_one,
      Equiv.symm_apply_apply]

theorem mixColumns_bijective (hinv : (Matrix.circulant c).mulVec d = Pi.single 0 1) :
    Function.Bijective (mixColumns c) := by
  obtain ⟨hright, hleft⟩ := circulant_inverse hinv
  refine Function.bijective_iff_has_inverse.mpr ⟨mixColumns d, ?_, ?_⟩
  · intro x
    rw [mixColumns, mixColumns, Equiv.apply_symm_apply, ← Matrix.mul_assoc,
      ← Matrix.transpose_mul, hright, Matrix.transpose_one, Matrix.one_mul,
      Equiv.symm_apply_apply]
  · intro x
    rw [mixColumns, mixColumns, Equiv.apply_symm_apply, ← Matrix.mul_assoc,
      ← Matrix.transpose_mul, hleft, Matrix.transpose_one, Matrix.one_mul,
      Equiv.symm_apply_apply]

end Inverse

def addKey (k x : Fin n → R) : Fin n → R := x + k

theorem addKey_bijective (k : Fin n → R) : Function.Bijective (addKey k) :=
  (Equiv.addRight k).bijective

def cube (x : Fin n → R) : Fin n → R := fun i ↦ x i ^ 3

/-- Every element but the first gets the square of the one before it added. -/
def feistel (x : Fin n → R) : Fin n → R := fun i ↦
  if i.val = 0 then x i else x i + x ⟨i - 1, i.val.sub_le 1 |>.trans_lt i.isLt⟩ ^ 2

theorem feistel_injective : Function.Injective (feistel : (Fin n → R) → Fin n → R) := by
  intro x y hxy
  have hentry : ∀ (k : ℕ) (hk : k < n), x ⟨k, hk⟩ = y ⟨k, hk⟩ := by
    intro k
    induction k with
    | zero =>
        intro hk
        have h := congrFun hxy ⟨0, hk⟩
        simpa [feistel] using h
    | succ k ih =>
        intro hk
        have h := congrFun hxy ⟨k + 1, hk⟩
        have hprev := ih (by omega)
        simpa [feistel, hprev] using h
  exact funext fun i ↦ hentry i i.isLt

theorem feistel_bijective [Finite R] : Function.Bijective (feistel : (Fin n → R) → Fin n → R) :=
  Finite.injective_iff_bijective.mp feistel_injective

end Layers

theorem cube_bijective {p n : ℕ} [Fact p.Prime] (hcoprime : (p - 1).Coprime 3) :
    Function.Bijective (cube : (Fin n → ZMod p) → Fin n → ZMod p) := by
  have hunits : (Nat.card (ZMod p)ˣ).Coprime 3 := by
    rwa [Nat.card_eq_fintype_card, ZMod.card_units]
  have hinj : Function.Injective fun a : ZMod p ↦ a ^ 3 := by
    intro a b hab
    simp only at hab
    rcases eq_or_ne a 0 with rfl | ha
    · rw [zero_pow (by decide)] at hab
      exact (pow_eq_zero_iff (by decide)).mp hab.symm |>.symm
    have hb : b ≠ 0 := by
      rintro rfl
      rw [zero_pow (by decide)] at hab
      exact ha ((pow_eq_zero_iff (by decide)).mp hab)
    have hpow : powCoprime hunits (Units.mk0 a ha) = powCoprime hunits (Units.mk0 b hb) :=
      Units.ext hab
    exact congrArg Units.val ((powCoprime hunits).injective hpow)
  apply Finite.injective_iff_bijective.mp
  intro x y hxy
  exact funext fun i ↦ hinj (congrFun hxy i)

end FieldLayers
