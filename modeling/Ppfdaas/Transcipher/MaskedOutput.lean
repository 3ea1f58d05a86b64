import Mathlib.Data.FinEnum
import Ppfdaas.Library.DrawShift
import Ppfdaas.Transcipher.CnpRecovery
import Ppfdaas.Transcipher.UniformModT

/-!
# The masked output hides the weights

The mask of `cnpMaskRingT` from the bytes of `crypto/rand`, on the product of the
coefficient path: models that score a request alike give the same decryptions.
-/

namespace Ppfdaas.Transcipher

open DrawStream UniformSampling

namespace UniformModT

/-! ## The draws as words -/

def byteOf : ℕ → UInt32 → UInt8
  | 0, d => d.toUInt8
  | 1, d => (d >>> 8).toUInt8
  | 2, d => (d >>> 16).toUInt8
  | _, d => (d >>> 24).toUInt8

theorem uint32_byteOf (d : UInt32) :
    uint32 (byteOf 0 d) (byteOf 1 d) (byteOf 2 d) (byteOf 3 d) = d := by
  apply UInt32.toBitVec_inj.mp
  ext i hi
  simp only [uint32, byteOf, UInt32.toBitVec_or, UInt32.toBitVec_shiftLeft,
    UInt8.toBitVec_toUInt32, UInt32.toBitVec_toUInt8, UInt32.toBitVec_shiftRight]
  simp [BitVec.getElem_or, BitVec.getElem_shiftLeft]
  grind

/-- A reader that delivers the bytes of these words and never fails. -/
def wordsReader (words : ℕ → UInt32) : Reader where
  bytes j := byteOf (j % 4) (words (j / 4))
  err _ := none

theorem draws_wordsReader (words : ℕ → UInt32) : draws (wordsReader words) = words := by
  funext n
  have hmod : ∀ i < 4, (4 * n + i) % 4 = i := fun i hi ↦ by omega
  have hdiv : ∀ i < 4, (4 * n + i) / 4 = n := fun i hi ↦ by omega
  have hbyte : ∀ i < 4, (wordsReader words).bytes (4 * n + i) = byteOf i (words n) := fun i hi ↦ by
    simp only [wordsReader, hmod i hi, hdiv i hi]
  rw [draws, ← Nat.add_zero (4 * n), hbyte 0 (by decide), Nat.add_zero, hbyte 1 (by decide),
    hbyte 2 (by decide), hbyte 3 (by decide), uint32_byteOf]

def wordEquiv : UInt32 ≃ Fin (2 ^ 32) :=
  ⟨UInt32.toFin, UInt32.ofFin, fun _ ↦ rfl, fun _ ↦ rfl⟩

section Words

variable {t : ℕ} {words : ℕ → UInt32} {turns : ℕ} {dst : List UInt64} {s : Locals}

theorem toNat_modulus (hword : t ≤ 2 ^ 32) : (UInt64.ofNat t).toNat = t :=
  UInt64.toNat_ofNat_of_lt' (hword.trans_lt (by decide))

theorem modulus_ne_zero [NeZero t] (hword : t ≤ 2 ^ 32) : UInt64.ofNat t ≠ 0 := by
  intro h
  have hzero := congrArg UInt64.toNat h
  rw [toNat_modulus hword] at hzero
  exact NeZero.ne t hzero

theorem kept_wordResidue (hword : t ≤ 2 ^ 32) (n : ℕ) :
    kept (wordResidue wordEquiv t) words n =
      (kept (spec (UInt64.ofNat t)) words n).map fun (v : ℕ) ↦ (v : ZMod t) := by
  rw [kept, kept, List.map_filterMap]
  refine List.filterMap_congr fun r _ ↦ ?_
  rw [spec, toNat_modulus hword]
  rfl

variable [NeZero t]

/-- A call that returns has read what was needed. -/
theorem fills_needs (hword : t ≤ 2 ^ 32)
    (h : cnpUniformModT (wordsReader words) turns dst (UInt64.ofNat t) = .ok s) :
    ∃ k, s.delivered = 4 * k ∧ Needs (wordResidue wordEquiv t) words dst.length k ∧
      s.dst.map (fun v ↦ (v.toNat : ZMod t)) = kept (wordResidue wordEquiv t) words k := by
  obtain ⟨-, hlength, k, hdelivered, hvalues, hneeded⟩ :=
    (fillsWithAccepted (modulus_ne_zero hword) _ dst).filled h
  rw [draws_wordsReader] at hvalues hneeded
  have hkept : (kept (spec (UInt64.ofNat t)) words k).length = dst.length := by
    rw [← hvalues, List.length_map, hlength]
  refine ⟨k, hdelivered, ⟨?_, fun j hj ↦ ?_⟩, ?_⟩
  · change dst.length ≤ _
    rw [kept_wordResidue hword, List.length_map, hkept]
  · by_contra hlt
    have hj' : dst.length ≤ (kept (wordResidue wordEquiv t) words j).length := hj
    rw [kept_wordResidue hword, List.length_map] at hj'
    exact absurd hj' (hneeded j (not_le.mp hlt)).not_ge
  · rw [kept_wordResidue hword, ← hvalues, List.map_map]
    rfl

/-- With enough draws a call returns. -/
theorem fills_of_needs (hword : t ≤ 2 ^ 32) {k : ℕ}
    (h : Needs (wordResidue wordEquiv t) words dst.length k) (hk : k ≤ turns) :
    ∃ s, cnpUniformModT (wordsReader words) turns dst (UInt64.ofNat t) = .ok s ∧
      s.delivered = 4 * k ∧
      s.dst.map (fun v ↦ (v.toNat : ZMod t)) = kept (wordResidue wordEquiv t) words k := by
  have hlength : dst.length ≤
      (kept (spec (UInt64.ofNat t)) (draws (wordsReader words)) k).length := by
    have hmem : dst.length ≤ (kept (wordResidue wordEquiv t) words k).length := h.1
    rwa [kept_wordResidue hword, List.length_map, ← draws_wordsReader words] at hmem
  obtain ⟨s, hs⟩ := (fillsWithAccepted (modulus_ne_zero hword) (wordsReader words) dst).returns
    (fun _ ↦ rfl) hlength hk
  obtain ⟨k', hdelivered, hneeds, hvalues⟩ := fills_needs hword hs
  obtain rfl := hneeds.unique h
  exact ⟨s, hs, hdelivered, hvalues⟩

end Words

end UniformModT

namespace CnpCtx

open UniformModT

variable {x : CnpCtx}

/-- The coefficients that the bank reads. -/
def IsOutput (c : Fin x.N) : Prop := c % cnpFeatures = cnpFeatures - 1 ∧ c / cnpFeatures < x.lanes

instance : DecidablePred (IsOutput (x := x)) := fun _ ↦ inferInstanceAs (Decidable (_ ∧ _))

/-- What the bank decrypts of a product under a mask of drawn words, and the number
of words read, if the first `n` are enough. -/
def observed (ct : x.Phase) (biasQ : ℤ) {n : ℕ} (w : Fin n → UInt32) :
    Option ((Fin x.N → ZMod x.t) × ℕ) :=
  match cnpUniformModT (wordsReader (Shift.pad 0 w)) n (List.replicate x.N 0)
      (UInt64.ofNat x.t) with
  | .ok s =>
      if s.delivered ≤ 4 * n then
        let draws (c : Fin x.N) : ℕ := (s.dst.getD c 0).toNat
        let read := x.cnpDecryptRingT (ct + x.cnpMaskFV biasQ true draws)
        some (fun c ↦ (read c : ZMod x.t), s.delivered / 4)
      else none
  | .error _ => none

section Hiding

variable {noiseBound errorBound : ℤ} {k : Keystreams x.t noiseBound}
  (phases : KeystreamPhases x k errorBound) (data : Fin x.N → ℤ) (wq : Fin cnpFeatures → ℤ)

/-- The coefficients of the product of data, noise and weights. -/
def hiddenCoeffs (k : Keystreams x.t noiseBound) (data : Fin x.N → ℤ) (wq : Fin cnpFeatures → ℤ) :
    Fin x.N → ZMod x.t := fun c ↦
  (Negacyclic.mul (data + firstNoise k) (x.cnpWRev wq) c : ℤ)

/-- The score of a lane under the noise of the keystream. -/
def laneScore (k : Keystreams x.t noiseBound) (data : Fin x.N → ℤ) (wq : Fin cnpFeatures → ℤ)
    (biasQ : ℤ) (lane : Fin x.lanes) : ℤ :=
  ∑ j, (data (x.coeff lane j) + firstNoise k (x.coeff lane j)) * wq j + biasQ

variable {data wq}

/-- Where the bank reads, the bias is added; everywhere else, what was drawn. -/
theorem decrypt_mask (ht : Odd x.t) (hlanes : 0 < x.lanes)
    (hbound : 2 * x.t * ((∑ j, |wq j|) * (errorBound + 1) + x.t) ≤ x.q0) (biasQ : ℤ)
    (draws : Fin x.N → ℕ) (c : Fin x.N) :
    (x.cnpDecryptRingT (firstProduct phases wq data + x.cnpMaskFV biasQ true draws) c : ZMod x.t) =
      if IsOutput c then hiddenCoeffs k data wq c + biasQ
      else hiddenCoeffs k data wq c + draws c := by
  have hpos : (0 : ℤ) < x.t := by exact_mod_cast ht.pos
  have hread := (ZMod.intCast_eq_intCast_iff _ _ x.t).mpr
    (decrypt_masked phases biasQ ht hlanes hbound data true draws c)
  push_cast at hread
  have hmask : x.cnpMaskRingT biasQ true draws c =
      if IsOutput c then (goMod biasQ x.t).toNat else draws c := rfl
  rw [hread, hiddenCoeffs, hmask]
  by_cases hc : IsOutput c
  · have hbias : (((goMod biasQ x.t).toNat : ℕ) : ZMod x.t) = biasQ := by
      rw [goMod_eq hpos, ← Int.cast_natCast, Int.toNat_of_nonneg (Int.emod_nonneg _ hpos.ne')]
      exact (ZMod.intCast_eq_intCast_iff _ _ x.t).mpr (Int.mod_modEq _ _)
    rw [if_pos hc, if_pos hc, hbias]
  · rw [if_neg hc, if_neg hc]

theorem reads_observed (ht : Odd x.t) (hword : x.t ≤ 2 ^ 32) (hlanes : 0 < x.lanes)
    (hbound : 2 * x.t * ((∑ j, |wq j|) * (errorBound + 1) + x.t) ≤ x.q0) (biasQ : ℤ) {n : ℕ} :
    Reads (wordResidue wordEquiv x.t) 0 x.N
      (masked IsOutput (fun c ↦ hiddenCoeffs k data wq c + (biasQ : ZMod x.t))
        (hiddenCoeffs k data wq))
      (observed (n := n) (firstProduct phases wq data) biasQ) := by
  have : NeZero x.t := ⟨ht.pos.ne'⟩
  have hlength : (List.replicate x.N (0 : UInt64)).length = x.N := List.length_replicate
  -- The values of a filled buffer are the residues that were needed.
  have hread : ∀ (s : Locals) (l : List (ZMod x.t)), x.N ≤ l.length →
      s.dst.map (fun v ↦ (v.toNat : ZMod x.t)) = l → (fun c : Fin x.N ↦
        (x.cnpDecryptRingT (firstProduct phases wq data + x.cnpMaskFV biasQ true
          fun c ↦ (s.dst.getD c 0).toNat) c : ZMod x.t)) =
        masked IsOutput (fun c ↦ hiddenCoeffs k data wq c + (biasQ : ZMod x.t))
          (hiddenCoeffs k data wq) l := by
    rintro s _ hl rfl
    funext c
    rw [List.length_map] at hl
    have hc : c.val < s.dst.length := c.isLt.trans_le hl
    rw [decrypt_mask phases ht hlanes hbound, masked,
      List.getD_eq_getElem _ _ hc, List.getD_eq_getElem _ _ (by simpa using hc), List.getElem_map]
  intro w v j
  rw [observed]
  constructor
  · intro hobserved
    split at hobserved
    · next s hs =>
        obtain ⟨j', hdelivered, hneeds, hvalues⟩ := fills_needs hword hs
        rw [hlength] at hneeds
        split_ifs at hobserved with hle
        obtain ⟨rfl, rfl⟩ := Prod.mk.inj (Option.some.inj hobserved)
        rw [hdelivered, Nat.mul_div_cancel_left _ (by decide : 0 < 4)]
        exact ⟨by omega, hneeds, hread s _ hneeds.1 hvalues⟩
    · cases hobserved
  · rintro ⟨hj, hneeds, rfl⟩
    have hfill := hneeds
    rw [← hlength] at hfill
    obtain ⟨s, hs, hdelivered, hvalues⟩ := fills_of_needs hword hfill hj
    simp only [hs, hdelivered]
    rw [if_pos (by omega), Nat.mul_div_cancel_left _ (by decide : 0 < 4),
      hread s _ hneeds.1 hvalues]

end Hiding

/-! ## Two weights on a request of zeros -/

end CnpCtx

end Ppfdaas.Transcipher
