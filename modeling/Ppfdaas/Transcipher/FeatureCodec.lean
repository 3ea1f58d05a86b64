import Ppfdaas.Library.CentredResidue
import Ppfdaas.Library.Rounding
import Ppfdaas.Library.SignedWords
import Ppfdaas.Transcipher.IntegerModel

/-!
# Quantised features

`QuantizeFeatures` and `DequantizeFeatures` of `backend.go`, with floats as
exact rationals.  The conversion to `int64` is towards zero; what it gives
beyond the range is left to the machine and is a parameter.
-/

namespace Ppfdaas.Transcipher

open Rounding

/-- `float64(uint64(1) << scaleBits)`. -/
def scaleOf (scaleBits : ℕ) : ℚ := ((2 ^ scaleBits % 2 ^ 64 : ℕ) : ℚ)

section Features

variable (outOfRange : ℚ → Int64)

def floatToInt64 (x : ℚ) : Int64 :=
  if -2 ^ 63 ≤ truncate x ∧ truncate x < 2 ^ 63 then Int64.ofInt (truncate x) else outOfRange x

def quantizeFeature (scaleBits : ℕ) (t : UInt64) (f : ℚ) : UInt64 :=
  let v := floatToInt64 outOfRange (f * scaleOf scaleBits)
  (v % t.toInt64 + t.toInt64).toUInt64 % t

def quantizeFeatures (features : List ℚ) (scaleBits : ℕ) (t : UInt64) : List UInt64 :=
  features.map (quantizeFeature outOfRange scaleBits t)

def dequantizeFeature (scaleBits : ℕ) (t v : UInt64) : ℚ :=
  let s := if v > t / 2 then v.toInt64 - t.toInt64 else v.toInt64
  s.toInt / scaleOf scaleBits

def dequantizeFeatures (vals : List UInt64) (scaleBits : ℕ) (t : UInt64) : List ℚ :=
  vals.map (dequantizeFeature scaleBits t)

/-- The signed words of one pass of `QuantizeFeatures` are the exact integers. -/
structure NoOverflow (scaleBits : ℕ) (t : UInt64) (f : ℚ) : Prop where
  modulus : t.toInt64.toInt = t.toNat
  converted : (floatToInt64 outOfRange (f * scaleOf scaleBits)).toInt =
    truncate (f * scaleOf scaleBits)
  remainder : (floatToInt64 outOfRange (f * scaleOf scaleBits) % t.toInt64).toInt =
    (floatToInt64 outOfRange (f * scaleOf scaleBits)).toInt.tmod t.toInt64.toInt
  sum : (floatToInt64 outOfRange (f * scaleOf scaleBits) % t.toInt64 + t.toInt64).toInt =
    (floatToInt64 outOfRange (f * scaleOf scaleBits) % t.toInt64).toInt + t.toInt64.toInt

theorem scaleOf_eq {scaleBits : ℕ} (hs : scaleBits ≤ 52) : scaleOf scaleBits = 2 ^ scaleBits := by
  have hlt : 2 ^ scaleBits < 2 ^ 64 := Nat.pow_lt_pow_right (by decide) (by omega)
  rw [scaleOf, Nat.mod_eq_of_lt hlt]
  push_cast
  rfl

theorem toInt_floatToInt64 {x : ℚ} (hx : |x| < 2 ^ 63) :
    (floatToInt64 outOfRange x).toInt = truncate x := by
  have hlt : |(truncate x : ℚ)| < 2 ^ 63 := (abs_truncate_le x).trans_lt hx
  obtain ⟨hlow, hhigh⟩ := abs_lt.mp hlt
  have hlow : -2 ^ 63 ≤ truncate x := by exact_mod_cast hlow.le
  have hhigh : truncate x < 2 ^ 63 := by exact_mod_cast hhigh
  rw [floatToInt64, if_pos ⟨hlow, hhigh⟩, Int64.toInt_ofInt_of_le hlow hhigh]

variable {scaleBits : ℕ} {t : UInt64} (ht : 1 < t.toNat) (ht' : t.toNat < 2 ^ 62)
include ht ht'

theorem quantizeFeature_noOverflow {f : ℚ} (hf : |f * scaleOf scaleBits| < 2 ^ 63) :
    NoOverflow outOfRange scaleBits t f := by
  have hmod : t.toInt64.toInt = t.toNat := SignedWords.toInt_toInt64 (by omega)
  have hpos : 0 < t.toInt64.toInt := by omega
  refine ⟨hmod, toInt_floatToInt64 outOfRange hf, Int64.toInt_mod _ _, ?_⟩
  have hlow := Int.lt_tmod_of_pos (floatToInt64 outOfRange (f * scaleOf scaleBits)).toInt hpos
  have hhigh := Int.tmod_lt_of_pos (floatToInt64 outOfRange (f * scaleOf scaleBits)).toInt hpos
  rw [← Int64.toInt_mod] at hlow hhigh
  exact SignedWords.toInt_add_of_bounds (by omega) (by omega)

theorem quantizeFeature_toNat {f : ℚ} (hf : |f * scaleOf scaleBits| < 2 ^ 63) :
    ((quantizeFeature outOfRange scaleBits t f).toNat : ℤ) =
      truncate (f * scaleOf scaleBits) % t.toNat := by
  obtain ⟨hmod, hconv, hrem, hsum⟩ := quantizeFeature_noOverflow outOfRange ht ht' hf
  have hpos : (0 : ℤ) < t.toNat := by omega
  have hlow := Int.lt_tmod_of_pos (truncate (f * scaleOf scaleBits)) hpos
  have hhigh := Int.tmod_lt_of_pos (truncate (f * scaleOf scaleBits)) hpos
  rw [hconv, hmod] at hrem
  rw [hrem, hmod] at hsum
  have hwrap : ((truncate (f * scaleOf scaleBits)).tmod t.toNat + t.toNat) % 2 ^ 64 =
      (truncate (f * scaleOf scaleBits)).tmod t.toNat + t.toNat :=
    Int.emod_eq_of_lt (by omega) (by omega)
  rw [quantizeFeature, UInt64.toNat_mod, Int.natCast_mod, SignedWords.toNat_toUInt64, hsum, hwrap,
    Int.add_emod_right]
  exact tmod_modEq _ _

omit ht in
theorem dequantizeFeature_eq {v : UInt64} (hv : v < t) :
    dequantizeFeature scaleBits t v =
      (CentredResidue.centred v.toNat t.toNat : ℚ) / scaleOf scaleBits := by
  have hlt : v.toNat < t.toNat := hv
  have hword : v.toInt64.toInt = v.toNat := SignedWords.toInt_toInt64 (by omega)
  have hmod : t.toInt64.toInt = t.toNat := SignedWords.toInt_toInt64 (by omega)
  have hhalf : v > t / 2 ↔ (v.toNat : ℤ) > t.toNat / 2 := by
    rw [gt_iff_lt, UInt64.lt_iff_toNat_lt, UInt64.toNat_div]
    change t.toNat / 2 < v.toNat ↔ _
    omega
  rw [dequantizeFeature, CentredResidue.centred, Int.emod_eq_of_lt (by omega) (by omega)]
  by_cases h : v > t / 2
  · rw [if_pos h, if_pos (hhalf.mp h),
      SignedWords.toInt_sub_of_bounds (by omega) (by omega), hword, hmod]
  · rw [if_neg h, if_neg fun h' ↦ h (hhalf.mpr h'), hword]

theorem quantizeFeature_lt (f : ℚ) : quantizeFeature outOfRange scaleBits t f < t := by
  rw [UInt64.lt_iff_toNat_lt, quantizeFeature, UInt64.toNat_mod]
  exact Nat.mod_lt _ (by omega)

/-- What is read back is the truncation, which the modulus leaves as it is. -/
theorem dequantize_quantize {f : ℚ} (hf : |f * scaleOf scaleBits| < t.toNat / 2) :
    dequantizeFeature scaleBits t (quantizeFeature outOfRange scaleBits t f) =
      truncate (f * scaleOf scaleBits) / scaleOf scaleBits := by
  have hmodulus : (t.toNat : ℚ) < 2 ^ 62 := by exact_mod_cast ht'
  have hrange : |f * scaleOf scaleBits| < 2 ^ 63 := by linarith
  have hcentred : CentredResidue.centred (truncate (f * scaleOf scaleBits)) t.toNat =
      truncate (f * scaleOf scaleBits) := by
    refine CentredResidue.centred_eq_self ?_
    have hle := abs_truncate_le (f * scaleOf scaleBits)
    have hlt : 2 * |(truncate (f * scaleOf scaleBits) : ℚ)| < t.toNat := by linarith
    exact_mod_cast hlt
  rw [dequantizeFeature_eq ht' (quantizeFeature_lt outOfRange ht ht' f),
    quantizeFeature_toNat outOfRange ht ht' hrange,
    CentredResidue.centred_congr (Int.mod_modEq _ _), hcentred]

theorem quantize_dequantize (hs : scaleBits ≤ 52) {v : UInt64} (hv : v < t) :
    quantizeFeature outOfRange scaleBits t (dequantizeFeature scaleBits t v) = v := by
  have hlt : v.toNat < t.toNat := hv
  have hscale : scaleOf scaleBits ≠ 0 := by
    rw [scaleOf_eq hs]
    positivity
  have hscaled : dequantizeFeature scaleBits t v * scaleOf scaleBits =
      (CentredResidue.centred v.toNat t.toNat : ℤ) := by
    rw [dequantizeFeature_eq ht' hv, div_mul_cancel₀ _ hscale]
  have hrange : |dequantizeFeature scaleBits t v * scaleOf scaleBits| < 2 ^ 63 := by
    have hle := CentredResidue.abs_centred_le (t := t.toNat) (by omega) v.toNat
    rw [hscaled]
    exact_mod_cast (by omega : |CentredResidue.centred v.toNat t.toNat| < 2 ^ 63)
  have hvalue := quantizeFeature_toNat outOfRange ht ht' hrange
  rw [hscaled, isRounding_truncate.intCast, (CentredResidue.centred_modEq _ _).eq,
    Int.emod_eq_of_lt (by omega) (by omega)] at hvalue
  exact UInt64.toNat_inj.mp (by exact_mod_cast hvalue)

end Features

theorem truncate_scaled {scale : ℚ} (hscale : 0 < scale) (f : ℚ) :
    |truncate (f * scale) / scale - f| < 1 / scale ∧ |truncate (f * scale) / scale| ≤ |f| ∧
      0 ≤ truncate (f * scale) / scale * f := by
  have hf : f = f * scale / scale := by field_simp
  refine ⟨?_, ?_, ?_⟩
  · have hdiff : truncate (f * scale) / scale - f = (truncate (f * scale) - f * scale) / scale := by
      field_simp
    rw [hdiff, abs_div, abs_of_pos hscale]
    exact div_lt_div_of_pos_right (isRounding_truncate.abs_sub_lt_one _) hscale
  · rw [abs_div, abs_of_pos hscale, div_le_iff₀ hscale]
    calc |(truncate (f * scale) : ℚ)| ≤ |f * scale| := abs_truncate_le _
      _ = |f| * scale := by rw [abs_mul, abs_of_pos hscale]
  · have hmul : truncate (f * scale) / scale * f =
        truncate (f * scale) * (f * scale) / (scale * scale) := by
      field_simp
    rw [hmul]
    exact div_nonneg (truncate_mul_nonneg _) (mul_self_nonneg scale)

/-- Quantisation and its inverse, element by element. -/
theorem features_round_trip (outOfRange : ℚ → Int64) {t : UInt64} (ht : 1 < t.toNat)
    (ht' : t.toNat < 2 ^ 62) {scaleBits : ℕ} (hs : scaleBits ≤ 52) :
    (∀ features, List.Forall₂ (fun (f : ℚ) (v : UInt64) ↦ |f * 2 ^ scaleBits| < 2 ^ 63 →
      v < t ∧ NoOverflow outOfRange scaleBits t f) features
        (quantizeFeatures outOfRange features scaleBits t)) ∧
    (∀ features, List.Forall₂ (fun (f d : ℚ) ↦ |f * 2 ^ scaleBits| < t.toNat / 2 →
      d = truncate (f * 2 ^ scaleBits) / 2 ^ scaleBits ∧ |d - f| < 1 / 2 ^ scaleBits ∧
        |d| ≤ |f| ∧ 0 ≤ d * f) features
      (dequantizeFeatures (quantizeFeatures outOfRange features scaleBits t) scaleBits t)) ∧
    ∀ vals, List.Forall₂ (fun v v' : UInt64 ↦ v < t → v' = v) vals
      (quantizeFeatures outOfRange (dequantizeFeatures vals scaleBits t) scaleBits t) := by
  have hscale := scaleOf_eq hs
  refine ⟨fun features ↦ ?_, fun features ↦ ?_, fun vals ↦ ?_⟩
  · rw [quantizeFeatures, List.forall₂_map_right_iff, List.forall₂_same]
    intro f _ hf
    rw [← hscale] at hf
    exact ⟨quantizeFeature_lt outOfRange ht ht' f, quantizeFeature_noOverflow outOfRange ht ht' hf⟩
  · rw [dequantizeFeatures, quantizeFeatures, List.map_map, List.forall₂_map_right_iff,
      List.forall₂_same]
    intro f _ hf
    rw [← hscale] at hf ⊢
    rw [Function.comp_apply, dequantize_quantize outOfRange ht ht' hf]
    exact ⟨rfl, truncate_scaled (hscale ▸ by positivity) f⟩
  · rw [dequantizeFeatures, quantizeFeatures, List.map_map, List.forall₂_map_right_iff,
      List.forall₂_same]
    intro v _ hv
    exact quantize_dequantize outOfRange ht ht' hs hv

/-- On both sides of the half of an even modulus. -/
theorem features_round_trip_eight : (1 < (8 : UInt64).toNat ∧ (8 : UInt64).toNat < 2 ^ 62) ∧
    List.Forall₂ (fun v v' : UInt64 ↦ v < 8 → v' = v) [4, 5]
      (quantizeFeatures (fun _ ↦ 0) (dequantizeFeatures [4, 5] 10 8) 10 8) :=
  ⟨by decide, (features_round_trip (fun _ ↦ 0) (t := 8) (by decide) (by decide)
    (by decide : 10 ≤ 52)).2.2 [4, 5]⟩

end Ppfdaas.Transcipher
