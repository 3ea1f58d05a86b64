import Ppfdaas.Bank.SealWrapper
import Ppfdaas.Library.CentredResidue
import Ppfdaas.Library.ExceptRuns
import Ppfdaas.Library.NegacyclicTransform
import Ppfdaas.Library.Rounding

/-!
# Encoding and decoding coefficients

The decoding half of `cnp_codec.h`, and what it makes of the encoding half: every
limb holds the residues of the rounded values, and one limb gives them back.
-/

namespace Ppfdaas.Cnp

open CentredResidue ExceptRuns Rounding

/-- What the codec reads off a plaintext. -/
structure CodecSeal (Ct Pt Gk : Type) extends Seal Ct Pt Gk where
  isNttForm : Pt → Bool
  ptParmsId : Pt → ℕ
  ptScale : Pt → ℚ
  coeffCount : Pt → ℕ
  /-- `pt.data() + i * kN`, as a limb. -/
  data : Pt → ℕ → Limb
  /-- `inverse_ntt_negacyclic_harvey` with the tables of one modulus. -/
  inverseNtt : ℕ → Limb → Limb

/-- A plaintext reads as it was written and tagged, and the transforms of the
primes of a level undo each other on reduced limbs. -/
structure CodecSeal.Documented {Ct Pt Gk : Type} (S : CodecSeal Ct Pt Gk) : Prop where
  isNttForm : ∀ limbs pid scale, pid ≠ 0 → S.isNttForm (S.plaintext limbs pid scale) = true
  ptParmsId : ∀ limbs pid scale, S.ptParmsId (S.plaintext limbs pid scale) = pid
  ptScale : ∀ limbs pid scale, S.ptScale (S.plaintext limbs pid scale) = scale
  coeffCount : ∀ limbs pid scale, S.coeffCount (S.plaintext limbs pid scale) = kN * limbs.length
  data : ∀ limbs pid scale i limb, limbs[i]? = some limb →
    S.data (S.plaintext limbs pid scale) i = limb
  inverseNtt_ntt : ∀ pid mods q limb, S.coeffModulus pid = some mods → q ∈ mods →
    (∀ c, limb c < q) → S.inverseNtt q (S.ntt q limb) = limb

section Decode

variable {Ct Pt Gk : Type} (S : CodecSeal Ct Pt Gk)

def inverseNttSingleLimb (pt : Pt) : Except String (ℕ × Limb) :=
  if S.isNttForm pt = false then throw "cnp: plaintext is not in NTT form"
  else
    (S.coeffModulus (S.ptParmsId pt)).elim (throw "cnp: plaintext parms_id unknown to context")
      fun mods ↦
        if mods.length ≠ 1 then
          throw ("cnp decode: expected exactly 1 RNS limb after rescale, found " ++
            toString mods.length ++ " (CRT decode not implemented)")
        else if S.coeffCount pt ≠ kN then throw "cnp: unexpected plaintext coefficient count"
        else pure (mods.headD 0, S.inverseNtt (mods.headD 0) (S.data pt 0))

/-- Centred modulo `q0` into `(-q0/2, q0/2]`, over the scale. -/
def decodeCoeffs (pt : Pt) : Except String (List ℚ) := do
  let r ← inverseNttSingleLimb S pt
  pure <| List.ofFn fun c ↦
    let centred : ℤ := if r.2 c > r.1 / 2 then (r.2 c : ℤ) - r.1 else r.2 c
    (centred : ℚ) / S.ptScale pt

/-- The bank's wrapper decodes with these functions. -/
theorem wrapper_decodeCoeffs {Pk Sk Coins : Type} {B : BankSeal Pk Sk Ct Pt Gk Coins}
    (hinverse : B.inverseNttSingleLimb = inverseNttSingleLimb S)
    (hscale : B.plaintextScale = S.ptScale) (pt : Pt) :
    Wrapper.decodeCoeffs B pt = decodeCoeffs S pt := by
  rw [Wrapper.decodeCoeffs, hinverse, hscale]
  rfl

end Decode

/-! ## One value -/

def rounded (scale v : ℚ) : ℤ := llround (scale * v)

def residue (scale v : ℚ) (q : ℕ) : ℕ := (rounded scale v % q).toNat

theorem residue_lt {q : ℕ} (hq : 0 < q) (scale v : ℚ) : residue scale v q < q := by
  have hlow := Int.emod_nonneg (rounded scale v) (Int.natCast_ne_zero.mpr hq.ne')
  have hhigh := Int.emod_lt_of_pos (rounded scale v) (Int.natCast_pos.mpr hq)
  rw [residue]
  omega

/-- `q - |r| mod q` for a negative `r`, unless it is a multiple of `q`. -/
theorem neg_emod_natAbs {q : ℕ} (hq : 0 < q) {r : ℤ} (hr : r < 0) :
    (r % q).toNat = if r.natAbs % q = 0 then 0 else q - r.natAbs % q := by
  have hlt : r.natAbs % q < q := Nat.mod_lt _ hq
  have hdiv : q * (r.natAbs / q) + r.natAbs % q = r.natAbs := Nat.div_add_mod _ _
  have hsplit : r = -(r.natAbs % q : ℕ) + q * -(r.natAbs / q : ℕ) := by
    have hcast : (q * (r.natAbs / q : ℕ) + (r.natAbs % q : ℕ) : ℤ) = r.natAbs := by
      exact_mod_cast hdiv
    have habs : (r.natAbs : ℤ) = -r := by omega
    linarith
  rw [hsplit, Int.add_mul_emod_self_left, ← hsplit]
  split_ifs with hzero
  · rw [hzero]
    rfl
  · rw [← Int.add_emod_left, Int.emod_eq_of_lt (by omega) (by omega)]
    omega

theorem residueOf_eq {q : ℕ} (hq : 0 < q) {scale v : ℚ}
    (h : |scale * v| < 4000000000000000000) :
    residueOf (scale * v) q = .ok (residue scale v q) := by
  rw [residueOf, if_neg (not_le.mpr h), residue, rounded]
  generalize llround (scale * v) = r
  by_cases hneg : r < 0
  · rw [neg_emod_natAbs hq hneg]
    split_ifs <;> simp_all [pure, Except.pure]
  · have habs : (r.natAbs : ℤ) = r := Int.natAbs_of_nonneg (not_lt.mp hneg)
    have hmod : (r % q).toNat = r.natAbs % q := by
      rw [← habs, ← Int.natCast_mod, Int.toNat_natCast, Int.natAbs_natCast]
    simp only [hneg, false_and, if_false, hmod]
    rfl

theorem abs_rounded_sub_le (scale v : ℚ) : |(rounded scale v : ℚ) - scale * v| ≤ 1 / 2 :=
  abs_halfAway_sub_le (scale * v)

/-- Centring brings the rounded value back, unless it is too large. -/
theorem centred_residue {q : ℕ} (hq : 0 < q) (hodd : Odd q) {scale v : ℚ}
    (h : |rounded scale v| ≤ (q - 1 : ℤ) / 2) :
    (if residue scale v q > q / 2 then (residue scale v q : ℤ) - q else residue scale v q) =
      rounded scale v := by
  have hpos : (0 : ℤ) < q := Int.natCast_pos.mpr hq
  have hoddZ : Odd (q : ℤ) := (Int.odd_coe_nat q).mpr hodd
  have hhalf : |rounded scale v| ≤ (q : ℤ) / 2 := by omega
  have hcentred := (centred_eq_self_iff hpos hoddZ (rounded scale v)).mpr hhalf
  have hresidue : (residue scale v q : ℤ) = rounded scale v % q :=
    Int.toNat_of_nonneg (Int.emod_nonneg _ hpos.ne')
  have hcmp : residue scale v q > q / 2 ↔ rounded scale v % q > (q : ℤ) / 2 := by
    rw [← hresidue]
    omega
  rw [centred] at hcentred
  rw [if_congr hcmp rfl rfl, hresidue]
  exact hcentred

/-! ## The codec -/

section Codec

variable {Ct Pt Gk : Type} {S : CodecSeal Ct Pt Gk} {values : List ℚ} {scale : ℚ} {pid : ℕ}
  {mods : List ℕ}

/-- The encoded plaintext: one integer for every coefficient, its residues in
every limb. -/
def encoded (S : CodecSeal Ct Pt Gk) (values : List ℚ) (scale : ℚ) (pid : ℕ) (mods : List ℕ) : Pt :=
  S.plaintext (mods.map fun q ↦ S.ntt q fun c ↦ residue scale (values.getD c 0) q) pid scale

theorem finishNttPlaintext_eq (hmods : S.coeffModulus pid = some mods) (limb : ℕ → Limb) :
    finishNttPlaintext S.toSeal pid scale (mods.map limb) =
      .ok (S.plaintext (mods.map fun q ↦ S.ntt q (limb q)) pid scale) := by
  rw [finishNttPlaintext, hmods]
  simp only [List.zipWith_map_right, List.zipWith_self]
  rfl

theorem encodeLimb_eq {q : ℕ} (hq : 0 < q)
    (hrange : ∀ v ∈ values, |scale * v| < 4000000000000000000) :
    encodeLimb values scale q = .ok (values.map fun v ↦ residue scale v q) :=
  mapM_eq_ok fun v hv ↦ residueOf_eq hq (hrange v hv)

theorem encodeCoeffs_eq (hlen : values.length = kN) (hmods : S.coeffModulus pid = some mods)
    (hpos : ∀ q ∈ mods, 0 < q) (hrange : ∀ v ∈ values, |scale * v| < 4000000000000000000) :
    encodeCoeffs S.toSeal values scale pid = .ok (encoded S values scale pid mods) := by
  have hlimbs := mapM_eq_ok fun q hq ↦ encodeLimb_eq (hpos q hq) hrange
  have hentry : ∀ q (c : Fin kN), (values.map fun v ↦ residue scale v q).getD c 0 =
      residue scale (values.getD c 0) q := by
    intro q c
    have hc : c.val < values.length := c.isLt.trans_eq hlen.symm
    simp [hc]
  rw [encodeCoeffs, if_neg (not_not_intro hlen), hmods]
  change (mods.mapM (encodeLimb values scale)).bind _ = _
  rw [hlimbs]
  change finishNttPlaintext _ _ _ ((mods.map _).map _) = _
  rw [List.map_map, finishNttPlaintext_eq hmods]
  simp only [Function.comp_apply, hentry]
  rfl

/-- With one limb the decoder gets the residues back. -/
theorem inverseNttSingleLimb_encoded (hS : S.Documented) {q0 : ℕ} (hpos : 0 < q0)
    (hpid : pid ≠ 0) (hmods : S.coeffModulus pid = some [q0]) :
    inverseNttSingleLimb S (encoded S values scale pid [q0]) =
      .ok (q0, fun c ↦ residue scale (values.getD c 0) q0) := by
  have hdata : S.data (encoded S values scale pid [q0]) 0 =
      S.ntt q0 fun c ↦ residue scale (values.getD c 0) q0 := hS.data _ _ _ _ _ rfl
  have hinverse := hS.inverseNtt_ntt pid [q0] q0 (fun c ↦ residue scale (values.getD c 0) q0) hmods
    List.mem_cons_self fun c ↦ residue_lt hpos _ _
  have hntt : S.isNttForm (encoded S values scale pid [q0]) = true := hS.isNttForm _ _ _ hpid
  have hparms : S.ptParmsId (encoded S values scale pid [q0]) = pid := hS.ptParmsId _ _ _
  have hcount : S.coeffCount (encoded S values scale pid [q0]) = kN := hS.coeffCount _ _ _
  simp only [inverseNttSingleLimb, hntt, hparms, hcount, hmods, Option.elim, List.headD_cons, hdata,
    hinverse]
  rfl

theorem decodeCoeffs_encoded (hS : S.Documented) {q0 : ℕ} (hpos : 0 < q0) (hodd : Odd q0)
    (hpid : pid ≠ 0) (hmods : S.coeffModulus pid = some [q0]) :
    ∃ out, decodeCoeffs S (encoded S values scale pid [q0]) = .ok out ∧ out.length = kN ∧
      ∀ c : Fin kN, |rounded scale (values.getD c 0)| ≤ (q0 - 1 : ℤ) / 2 →
        out.getD c 0 = rounded scale (values.getD c 0) / scale := by
  have hscale : S.ptScale (encoded S values scale pid [q0]) = scale := hS.ptScale _ _ _
  have hdecode : decodeCoeffs S (encoded S values scale pid [q0]) =
      .ok (List.ofFn fun c : Fin kN ↦
        ((if residue scale (values.getD c 0) q0 > q0 / 2 then
          (residue scale (values.getD c 0) q0 : ℤ) - q0
        else residue scale (values.getD c 0) q0 : ℤ) : ℚ) / scale) := by
    rw [decodeCoeffs, inverseNttSingleLimb_encoded hS hpos hpid hmods, hscale]
    rfl
  refine ⟨_, hdecode, ?_, ?_⟩
  · exact List.length_ofFn
  · intro c hc
    rw [List.getD_eq_getElem?_getD, List.getElem?_ofFn, dif_pos c.isLt, Option.getD_some,
      centred_residue hpos hodd hc]

theorem buildOutputMask_eq {outputValue : ℚ} (hmods : S.coeffModulus pid = some mods)
    (hpos : ∀ q ∈ mods, 0 < q) (hrange : |outputValue * scale| < 4000000000000000000)
    (randomize : Bool) (draws : MaskDraws) :
    ∃ limbs : List Limb,
      buildOutputMask S.toSeal pid scale outputValue randomize draws =
        .ok (S.plaintext (List.zipWith S.ntt mods limbs) pid scale) ∧
      limbs.length = mods.length ∧
      ∀ (i q : ℕ) (limb : Limb), mods[i]? = some q → limbs[i]? = some limb → ∀ c, IsOutput c →
        limb c = residue scale outputValue q := by
  have hlimb : ∀ p ∈ mods.zipIdx, (do
      let outRes ← residueOf (outputValue * scale) p.1
      return outputMaskLimb 0 outRes randomize fun c ↦ (draws p.2 p.1 c).value :
        Except String Limb) =
      .ok (outputMaskLimb 0 (residue scale outputValue p.1) randomize
        fun c ↦ (draws p.2 p.1 c).value) := by
    intro p hp
    have hq := hpos p.1 (List.fst_mem_of_mem_zipIdx hp)
    rw [mul_comm] at hrange
    rw [mul_comm, residueOf_eq hq hrange]
    rfl
  refine ⟨mods.zipIdx.map fun p ↦ outputMaskLimb 0 (residue scale outputValue p.1) randomize
    fun c ↦ (draws p.2 p.1 c).value, ?_, ?_, ?_⟩
  · rw [buildOutputMask, hmods]
    refine (congrArg (fun x : Except String (List Limb) ↦
      x.bind (finishNttPlaintext S.toSeal pid scale)) (mapM_eq_ok hlimb)).trans ?_
    change finishNttPlaintext S.toSeal pid scale _ = _
    rw [finishNttPlaintext, hmods]
    rfl
  · rw [List.length_map, List.length_zipIdx]
  · intro i q limb hq hlimb c hc
    rw [List.getElem?_map, List.getElem?_zipIdx, hq] at hlimb
    obtain rfl := Option.some.inj hlimb
    change outputMaskLimb 0 (residue scale outputValue q) randomize _ c = _
    rw [outputMaskLimb_apply, if_pos hc]

/-- Every limb of an encoding holds the residues of the same rounded values; with
one limb they decode to within half a step; and the mask's outputs are the
encoding of the bias. -/
theorem codec_round_trip (hS : S.Documented) (hscale : 0 < scale) (hpid : pid ≠ 0)
    (hmods : S.coeffModulus pid = some mods) (hprimes : ∀ q ∈ mods, q.Prime ∧ Odd q) :
    (∀ v, |(rounded scale v : ℚ) - scale * v| ≤ 1 / 2 ∧
      (|(rounded scale v : ℚ) - scale * v| = 1 / 2 → |scale * v| < |(rounded scale v : ℚ)|)) ∧
    (∀ values : List ℚ, values.length = kN →
      (∀ v ∈ values, |scale * v| < 4000000000000000000) →
      encodeCoeffs S.toSeal values scale pid = .ok (S.plaintext
        (mods.map fun q ↦ S.ntt q fun c ↦ (rounded scale (values.getD c 0) % q).toNat) pid scale) ∧
      ∀ q0, mods = [q0] → ∃ pt out, encodeCoeffs S.toSeal values scale pid = .ok pt ∧
        decodeCoeffs S pt = .ok out ∧ out.length = kN ∧
        ∀ c : Fin kN, |rounded scale (values.getD c 0)| ≤ (q0 - 1 : ℤ) / 2 →
          out.getD c 0 = rounded scale (values.getD c 0) / scale ∧
          |out.getD c 0 - values.getD c 0| ≤ 1 / (2 * scale)) ∧
    ∀ outputValue randomize draws, |outputValue * scale| < 4000000000000000000 →
      ∃ limbs : List Limb,
        buildOutputMask S.toSeal pid scale outputValue randomize draws =
          .ok (S.plaintext (List.zipWith S.ntt mods limbs) pid scale) ∧
        limbs.length = mods.length ∧
        ∀ (i q : ℕ) (limb : Limb), mods[i]? = some q → limbs[i]? = some limb → ∀ c, IsOutput c →
          limb c = (rounded scale outputValue % q).toNat := by
  have hpos : ∀ q ∈ mods, 0 < q := fun q hq ↦ (hprimes q hq).1.pos
  refine ⟨fun v ↦ ⟨abs_rounded_sub_le scale v, abs_lt_abs_halfAway⟩, fun values hlen hrange ↦ ?_,
    fun outputValue randomize draws hrange ↦ buildOutputMask_eq hmods hpos hrange randomize draws⟩
  have hencode := encodeCoeffs_eq hlen hmods hpos hrange
  refine ⟨hencode, ?_⟩
  rintro q0 rfl
  obtain ⟨hprime, hodd⟩ := hprimes q0 List.mem_cons_self
  obtain ⟨out, hout, hlength, hvalue⟩ := decodeCoeffs_encoded hS hprime.pos hodd hpid hmods
  refine ⟨_, out, hencode, hout, hlength, fun c hc ↦ ⟨hvalue c hc, ?_⟩⟩
  have herror := abs_rounded_sub_le scale (values.getD c 0)
  have hdiv : (rounded scale (values.getD c 0) : ℚ) / scale - values.getD c 0 =
      (rounded scale (values.getD c 0) - scale * values.getD c 0) / scale := by
    field_simp
  rw [hvalue c hc, hdiv, abs_div, abs_of_pos hscale, div_le_iff₀ hscale]
  calc |(rounded scale (values.getD c 0) : ℚ) - scale * values.getD c 0| ≤ 1 / 2 := herror
    _ = 1 / (2 * scale) * scale := by field_simp

end Codec

/-! ## One limb of 65537 -/

def fieldLimb (limb : Limb) (c : Fin kN) : ZMod 65537 := limb c

def forward65537 (limb : Limb) (c : Fin kN) : ℕ :=
  (NegacyclicTransform.transform 81 (fieldLimb limb) c).val

def backward65537 (limb : Limb) (c : Fin kN) : ℕ :=
  (NegacyclicTransform.inverseTransform 8091 65529 (fieldLimb limb) c).val

/-- A plaintext with its limbs, its `parms_id` and its scale, of one level. -/
def oneLimb : CodecSeal Unit (List Limb × ℕ × ℚ) Unit where
  firstParmsId := 1
  keyParmsId := 2
  coeffModulus := fun _ ↦ some [65537]
  load := fun _ ↦ .ok ()
  parmsId := fun _ ↦ 1
  scale := fun _ ↦ 1
  saveSize := fun _ ↦ 0
  save := fun _ ↦ []
  save_length := fun _ ↦ rfl
  multiplyPlain := fun ct _ ↦ .ok ct
  rescaleToNext := .ok
  rotateVector := fun ct _ _ ↦ .ok ct
  add := fun ct _ ↦ .ok ct
  addPlain := fun ct _ ↦ .ok ct
  ntt := fun _ ↦ forward65537
  plaintext := fun limbs pid scale ↦ (limbs, pid, scale)
  loadGaloisKeys := fun _ ↦ .ok ()
  galoisParmsId := fun _ ↦ 2
  galoisEltFromStep := fun step ↦ step.toNat
  hasKey := fun _ _ ↦ false
  galoisKeysSize := fun _ ↦ 0
  galoisSaveSize := fun _ ↦ 0
  isNttForm := fun pt ↦ pt.2.1 ≠ 0
  ptParmsId := fun pt ↦ pt.2.1
  ptScale := fun pt ↦ pt.2.2
  coeffCount := fun pt ↦ kN * pt.1.length
  data := fun pt i ↦ pt.1.getD i 0
  inverseNtt := fun _ ↦ backward65537

theorem isPrimitiveRoot_81 : IsPrimitiveRoot (81 : ZMod 65537) (2 * kN) := by
  have hpow : ∀ m, (81 : ZMod 65537) ^ m = ((81 ^ m % 65537 : ℕ) : ZMod 65537) := by
    intro m
    rw [ZMod.natCast_mod, Nat.cast_pow, Nat.cast_ofNat]
  have hhalf : ¬ (81 : ZMod 65537) ^ 2 ^ 13 = 1 := by
    rw [hpow]
    decide +kernel
  have hfull : (81 : ZMod 65537) ^ 2 ^ (13 + 1) = 1 := by
    rw [hpow]
    decide +kernel
  have horder : orderOf (81 : ZMod 65537) = 2 * kN := orderOf_eq_prime_pow hhalf hfull
  rw [← horder]
  exact IsPrimitiveRoot.orderOf _

theorem backward_forward {limb : Limb} (h : ∀ c, limb c < 65537) :
    backward65537 (forward65537 limb) = limb := by
  have hφ : (81 : ZMod 65537) * 8091 = 1 := by decide
  have hν : (65529 : ZMod 65537) * (kN : ℕ) = 1 := by decide
  have hprime : Fact (Nat.Prime 65537) := ⟨by norm_num⟩
  have hfield : fieldLimb (forward65537 limb) =
      NegacyclicTransform.transform 81 (fieldLimb limb) := by
    funext c
    simp only [fieldLimb, forward65537, ZMod.natCast_zmod_val]
  funext c
  rw [backward65537, hfield,
    NegacyclicTransform.inverseTransform_transform isPrimitiveRoot_81 hφ hν, fieldLimb,
    ZMod.val_natCast, Nat.mod_eq_of_lt (h c)]

theorem oneLimb_documented : oneLimb.Documented where
  isNttForm limbs pid scale hpid := decide_eq_true hpid
  ptParmsId _ _ _ := rfl
  ptScale _ _ _ := rfl
  coeffCount _ _ _ := rfl
  data limbs pid scale i limb h := by
    change limbs.getD i 0 = limb
    rw [List.getD_eq_getElem?_getD, h, Option.getD_some]
  inverseNtt_ntt pid mods q limb hmods hq hlt := by
    obtain rfl := Option.some.inj hmods
    rw [List.mem_singleton] at hq
    simp only [hq] at hlt
    simp only [oneLimb]
    exact backward_forward hlt

/-- `-5/8` at a scale of 4 is rounded to `-3`, away from zero. -/
theorem codec_round_trip_negative : ∃ pt out,
    encodeCoeffs oneLimb.toSeal (-5 / 8 :: List.replicate 8191 0) 4 1 = .ok pt ∧
      decodeCoeffs oneLimb pt = .ok out ∧ out.getD 0 0 = -3 / 4 := by
  have hprimes : ∀ q ∈ [65537], Nat.Prime q ∧ Odd q := by
    intro q hq
    obtain rfl := List.mem_singleton.mp hq
    exact ⟨by norm_num, by decide⟩
  have hlen : ((-5 / 8 : ℚ) :: List.replicate 8191 0).length = kN := by
    rw [List.length_cons, List.length_replicate]
    rfl
  have hrange : ∀ v ∈ (-5 / 8 : ℚ) :: List.replicate 8191 0, |4 * v| < 4000000000000000000 := by
    intro v hv
    rcases List.mem_cons.mp hv with rfl | hv
    · norm_num [abs_of_neg]
    · obtain rfl := List.eq_of_mem_replicate hv
      norm_num
  have hrounded : rounded 4 (-5 / 8) = -3 := by decide +kernel
  obtain ⟨-, hvalues, -⟩ := codec_round_trip oneLimb_documented (show (0 : ℚ) < 4 by norm_num)
    one_ne_zero rfl hprimes
  obtain ⟨-, hdecode⟩ := hvalues _ hlen hrange
  obtain ⟨pt, out, hpt, hout, -, hc⟩ := hdecode 65537 rfl
  obtain ⟨hvalue, -⟩ := hc ⟨0, by decide⟩ (by
    change |rounded 4 (-5 / 8)| ≤ _
    rw [hrounded]
    decide)
  refine ⟨pt, out, hpt, hout, hvalue.trans ?_⟩
  change ((rounded 4 (-5 / 8) : ℤ) : ℚ) / 4 = _
  rw [hrounded]
  norm_num

end Ppfdaas.Cnp
