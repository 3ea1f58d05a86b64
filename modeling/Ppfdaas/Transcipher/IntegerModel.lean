import Mathlib.Algebra.BigOperators.Group.Finset.Basic
import Mathlib.Tactic

/-!
# The integer model of both homomorphic paths

What the bank has to read for a row: the integer score of the quantised row
and weights, centred modulo the plaintext modulus.
-/

namespace Ppfdaas.Transcipher

def cnpFeatures : ℕ := 256

/-- A quantised row, as it is read from `xq.i16`. -/
abbrev Row := Fin cnpFeatures → Int16

/-- The remainders are the truncated ones of `%` in Go. -/
def cnpCentre (v t : ℤ) : ℤ :=
  let v := v.tmod t
  let v := if v < 0 then v + t else v
  if v > t / 2 then v - t else v

def cnpSim (xq : Row) (wq : Fin cnpFeatures → ℤ) (biasQ t : ℤ) : ℤ :=
  cnpCentre (∑ j, (xq j).toInt * wq j + biasQ) t

/-- The Go idiom `((v % t) + t) % t`. -/
def goMod (v t : ℤ) : ℤ := (v.tmod t + t).tmod t

theorem tmod_modEq (v t : ℤ) : v.tmod t ≡ v [ZMOD t] := by
  rw [Int.tmod_def]
  exact Int.sub_mul_emod_self_left v t (v.tdiv t)

theorem tmod_add_eq {t : ℤ} (ht : 0 < t) (v : ℤ) :
    (if v.tmod t < 0 then v.tmod t + t else v.tmod t) = v % t := by
  have hlow := Int.lt_tmod_of_pos v ht
  have hhigh := Int.tmod_lt_of_pos v ht
  have hmod := tmod_modEq v t
  by_cases hneg : v.tmod t < 0
  · rw [if_pos hneg, ← hmod.eq, ← Int.add_emod_right, Int.emod_eq_of_lt] <;> linarith
  · rw [if_neg hneg, ← hmod.eq, Int.emod_eq_of_lt] <;> linarith

theorem goMod_eq {t : ℤ} (ht : 0 < t) (v : ℤ) : goMod v t = v % t := by
  have hlow := Int.lt_tmod_of_pos v ht
  have hnonneg : 0 ≤ v.tmod t + t := by linarith
  rw [goMod, Int.tmod_eq_emod_of_nonneg hnonneg, Int.add_emod_right]
  exact tmod_modEq v t

theorem cnpCentre_eq {t : ℤ} (ht : 0 < t) (v : ℤ) :
    cnpCentre v t = if v % t > t / 2 then v % t - t else v % t := by
  simp only [cnpCentre, tmod_add_eq ht]

theorem cnpCentre_congr {t : ℤ} (ht : 0 < t) {v v' : ℤ} (h : v ≡ v' [ZMOD t]) :
    cnpCentre v t = cnpCentre v' t := by
  rw [cnpCentre_eq ht, cnpCentre_eq ht, h]

end Ppfdaas.Transcipher
