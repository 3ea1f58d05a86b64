import Mathlib.Data.ZMod.Basic
import Mathlib.Tactic

/-!
# Messages modulo `t` in phases modulo `q`

A message is scaled up by `q / t` and rounded; a phase is scaled back by
`t / q` and rounded.  All errors are counted in units of `1 / (2t)`, so that
every bound is one between integers.
-/

namespace ScaledPhase

/-- `m * q / t`, rounded. -/
def scaleUp (t q m : ℕ) : ℕ := (m * q + t / 2) / t

/-- `p * t / q`, rounded and reduced modulo `t`. -/
def scaleDown (t q p : ℕ) : ℕ := (2 * (p * t) + q) / (2 * q) % t

/-- The multiples of `t` in the modulus come out whole; what is rounded is the rest. -/
theorem scaleUp_split {t : ℕ} (ht : 0 < t) (d r m : ℕ) :
    scaleUp t (t * d + r) m = m * d + (m * r + t / 2) / t := by
  have hsplit : m * (t * d + r) + t / 2 = m * r + t / 2 + t * (m * d) := by ring
  rw [scaleUp, hsplit, Nat.add_mul_div_left _ _ ht, Nat.add_comm]

/-- The rounding error of an odd `t`, which leaves no ties. -/
theorem scaleUp_error {t : ℕ} (ht : Odd t) (q m : ℕ) :
    |2 * ((t : ℤ) * scaleUp t q m - q * m)| ≤ t - 1 := by
  obtain ⟨half, rfl⟩ := ht
  have hhalf : (2 * half + 1) / 2 = half := by omega
  have hlt : (m * q + half) % (2 * half + 1) < 2 * half + 1 := Nat.mod_lt _ (by omega)
  have hdiv := Nat.div_add_mod (m * q + half) (2 * half + 1)
  rw [scaleUp, hhalf, abs_le]
  generalize (m * q + half) / (2 * half + 1) = up at hdiv ⊢
  generalize (m * q + half) % (2 * half + 1) = rest at hdiv hlt
  have hsum : (2 * half + 1 : ℤ) * up + rest = m * q + half := by exact_mod_cast hdiv
  have hrest : (rest : ℤ) ≤ 2 * half := by exact_mod_cast Nat.lt_succ_iff.mp hlt
  have hcomm : (q : ℤ) * m = m * q := mul_comm _ _
  push_cast
  constructor
  · linarith
  · linarith [Int.natCast_nonneg rest]

/-- A phase that lies within `q / (2t)` of the scaled message `m` decrypts to `m`. -/
theorem scaleDown_of_close {t q p : ℕ} {m z : ℤ} (hphase : (p : ℤ) ≡ z [ZMOD q])
    (hclose : |2 * ((t : ℤ) * z - q * m)| < q) : (scaleDown t q p : ℤ) = m % t := by
  obtain ⟨k, hk⟩ := hphase.dvd
  obtain ⟨hlow, hhigh⟩ := abs_lt.mp hclose
  have hq : (0 : ℤ) < q := (abs_nonneg _).trans_lt hclose
  have hdiv : (2 * ((p : ℤ) * t) + q) / (2 * q) = m - k * t := by
    have hp : (p : ℤ) = z - q * k := by linarith
    rw [Int.ediv_eq_iff_of_pos (by linarith), hp]
    constructor <;> linarith
  have hcast : (((2 * (p * t) + q) / (2 * q) : ℕ) : ℤ) = m - k * t := by
    push_cast
    exact hdiv
  rw [scaleDown, Int.natCast_mod, hcast]
  exact Int.sub_mul_emod_self_right m k t

end ScaledPhase
