import Mathlib.Tactic

/-!
# Centred residues

The representative of an integer modulo `t` that lies in `(-t/2, t/2]`.
-/

namespace CentredResidue

def centred (v t : ℤ) : ℤ := if v % t > t / 2 then v % t - t else v % t

theorem abs_centred_le {t : ℤ} (ht : 0 < t) (v : ℤ) : |centred v t| ≤ t / 2 := by
  have hlow := Int.emod_nonneg v ht.ne'
  have hhigh := Int.emod_lt_of_pos v ht
  rw [centred, abs_le]
  split_ifs <;> omega

theorem centred_modEq (v t : ℤ) : centred v t ≡ v [ZMOD t] := by
  rw [centred]
  split_ifs
  · exact (Int.sub_emod_right _ _).trans (Int.mod_modEq v t)
  · exact Int.mod_modEq v t

theorem centred_congr {v v' t : ℤ} (h : v ≡ v' [ZMOD t]) : centred v t = centred v' t := by
  rw [centred, centred, h]

/-- Whatever the parity of the modulus, integers below its half stay as they are. -/
theorem centred_eq_self {v t : ℤ} (h : 2 * |v| < t) : centred v t = v := by
  rw [centred]
  rcases le_or_gt 0 v with hv | hv
  · rw [abs_of_nonneg hv] at h
    rw [Int.emod_eq_of_lt hv (by omega), if_neg (by omega)]
  · rw [abs_of_neg hv] at h
    have hmod : v % t = v + t := by
      rw [← Int.add_emod_right, Int.emod_eq_of_lt (by omega) (by omega)]
    rw [hmod, if_pos (by omega), add_sub_cancel_right]

/-- An odd modulus leaves exactly the integers within its half as they are. -/
theorem centred_eq_self_iff {t : ℤ} (ht : 0 < t) (hodd : Odd t) (v : ℤ) :
    centred v t = v ↔ |v| ≤ t / 2 := by
  constructor
  · intro h
    rw [← h]
    exact abs_centred_le ht v
  · intro h
    obtain ⟨hlow, hhigh⟩ := abs_le.mp h
    obtain ⟨half, rfl⟩ := hodd
    have hhalf : (2 * half + 1) / 2 = half := by omega
    rw [hhalf] at hlow hhigh
    rw [centred, hhalf]
    rcases le_or_gt 0 v with hv | hv
    · rw [Int.emod_eq_of_lt hv (by omega), if_neg (by omega)]
    · have hmod : v % (2 * half + 1) = v + (2 * half + 1) := by
        rw [← Int.add_emod_right, Int.emod_eq_of_lt (by omega) (by omega)]
      rw [hmod, if_pos (by omega), add_sub_cancel_right]

/-- Centring a residue that is kept as a natural number. -/
theorem centred_toNat {q : ℕ} (hq : 0 < q) (v : ℤ) :
    (if (v % q).toNat > q / 2 then ((v % q).toNat : ℤ) - q else ((v % q).toNat : ℤ)) =
      centred v q := by
  have hcast : ((v % q).toNat : ℤ) = v % q :=
    Int.toNat_of_nonneg (Int.emod_nonneg _ (Int.natCast_ne_zero.mpr hq.ne'))
  have hcmp : (v % q).toNat > q / 2 ↔ v % q > (q : ℤ) / 2 := by
    rw [← hcast]
    omega
  rw [if_congr hcmp rfl rfl, hcast, centred]

end CentredResidue
