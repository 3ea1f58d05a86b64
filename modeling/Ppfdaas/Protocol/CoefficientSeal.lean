import Ppfdaas.Library.ErrorBudget
import Ppfdaas.Scoring.CnpPipeline
import Ppfdaas.Vendor.CodecRoundTrip
import Ppfdaas.Vendor.ServiceRuns

/-!
# What the coefficient path relies on of CKKS

A ciphertext of two polynomials at the first level carries a polynomial: a fresh
one that of its plaintext, a product the negacyclic product, each up to an error.
After the rescaling one prime is left, the decryption shows residues, and a
plaintext adds to them exactly.  From that, the CNP branch leaves the scores at
the outputs.
-/

namespace Ppfdaas

open Cnp Wrapper ServerState ErrorBudget CentredResidue

/-- What `CarriesCoefficients` leaves open: the primes of the two levels, the
factor that the rescaling drops, the number of polynomials of a ciphertext, the
polynomial that it carries, the error of one operation, and the values up to
which it holds. -/
structure Coefficients (Sk Ct : Type) where
  mods : List ℕ
  q0 : ℕ
  secondParmsId : ℕ
  qLast : ℚ
  polys : Ct → ℕ
  carried : Sk → Ct → Fin kN → ℚ
  ε : ℚ
  cap : ℚ

/-- What an encoding at `gScale` stands for. -/
def roundedCoefficients (values : List ℚ) : Fin kN → ℚ := fun c ↦
  rounded gScale (values.getD c 0) / gScale

section Laws

variable {Pk Sk Ct Pt Gk Coins : Type} (B : BankSeal Pk Sk Ct Pt Gk Coins)
  (p : Coefficients Sk Ct)

/-- The owner of `sk` decrypts `ct` to the residues of `r`, at its scale. -/
def ShowsResidues (sk : Sk) (ct : Ct) (r : Fin kN → ℤ) : Prop :=
  ∃ pt raw, B.decrypt sk ct = .ok pt ∧ B.inverseNttSingleLimb pt = .ok (p.q0, raw) ∧
    B.plaintextScale pt = B.scale ct ∧ ∀ c, raw c = (r c % p.q0).toNat

/-- The ciphertexts that the CNP branch makes of encryptions under `pk`. -/
inductive CnpMade (pk : Pk) : Ct → Prop
  | encrypt {coins : Coins} {pt : Pt} {ct : Ct} (h : B.encrypt pk coins pt = .ok ct) :
      CnpMade pk ct
  | multiplyPlain {ct out : Ct} {pt : Pt} (hct : CnpMade pk ct)
      (h : B.multiplyPlain ct pt = .ok out) : CnpMade pk out
  | rescaleToNext {ct out : Ct} (hct : CnpMade pk ct) (h : B.rescaleToNext ct = .ok out) :
      CnpMade pk out
  | addPlain {ct out : Ct} {pt : Pt} (hct : CnpMade pk ct) (h : B.addPlain ct pt = .ok out) :
      CnpMade pk out

/-- SEAL's CKKS on coefficients, under one key pair.  A product with a
polynomial of zeros is refused as transparent. -/
structure CarriesCoefficients (pk : Pk) (sk : Sk) : Prop where
  first_modulus : B.coeffModulus B.firstParmsId = some p.mods
  first_pos : ∀ q ∈ p.mods, 0 < q
  second_modulus : B.coeffModulus p.secondParmsId = some [p.q0]
  q0_pos : 0 < p.q0
  q0_le : p.q0 ≤ 2 ^ 61
  qLast_pos : 0 < p.qLast
  cap_lt : gScale * p.cap < 4000000000000000000
  encrypt : ∀ {values pt} (coins : Coins), (∀ c, |coefficients values c| ≤ p.cap) →
    encodeCoeffs B.toSeal values gScale B.firstParmsId = .ok pt →
    ∃ ct, B.encrypt pk coins pt = .ok ct ∧ B.parmsId ct = B.firstParmsId ∧
      B.scale ct = gScale ∧ p.polys ct = 2 ∧ B.saveSize ct ≤ CT_BUF ∧
      ∀ c, |p.carried sk ct c - roundedCoefficients values c| ≤ p.ε
  load_save : ∀ {ct}, CnpMade B pk ct → B.load (B.save ct) = .ok ct
  saveSize_le : ∀ {ct}, CnpMade B pk ct → p.polys ct = 2 → B.parmsId ct = p.secondParmsId →
    B.saveSize ct ≤ CT_BUF
  multiplyPlain : ∀ {ct values pt}, CnpMade B pk ct → p.polys ct = 2 →
    B.parmsId ct = B.firstParmsId → B.scale ct = gScale →
    (∀ c, |coefficients values c| ≤ p.cap) → roundedCoefficients values ≠ 0 →
    encodeCoeffs B.toSeal values gScale B.firstParmsId = .ok pt →
    (∀ c, |Negacyclic.mul (p.carried sk ct) (roundedCoefficients values) c| ≤ p.cap) →
    ∃ out, B.multiplyPlain ct pt = .ok out ∧ p.polys out = 2 ∧
      B.parmsId out = B.firstParmsId ∧ B.scale out = gScale * gScale ∧ ∀ c, |p.carried sk out c -
        Negacyclic.mul (p.carried sk ct) (roundedCoefficients values) c| ≤ p.ε
  rescaleToNext : ∀ {ct}, CnpMade B pk ct → p.polys ct = 2 → B.parmsId ct = B.firstParmsId →
    B.scale ct = gScale * gScale → (∀ c, |p.carried sk ct c| ≤ p.cap + p.ε) →
    ∃ out r, B.rescaleToNext ct = .ok out ∧ p.polys out = 2 ∧
      B.parmsId out = p.secondParmsId ∧ B.scale out = gScale * gScale / p.qLast ∧
      ShowsResidues B p sk out r ∧
      ∀ c, |r c / (gScale * gScale / p.qLast) - p.carried sk ct c| ≤ p.ε
  addPlain : ∀ {ct r} {limb : Limb}, CnpMade B pk ct → p.polys ct = 2 →
    B.parmsId ct = p.secondParmsId → ShowsResidues B p sk ct r → (∀ c, limb c < p.q0) → ∃ out,
      B.addPlain ct (B.plaintext [B.ntt p.q0 limb] p.secondParmsId (B.scale ct)) = .ok out ∧
      p.polys out = 2 ∧ B.parmsId out = p.secondParmsId ∧
      B.scale out = B.scale ct ∧ ShowsResidues B p sk out fun c ↦ r c + limb c

/-- The members of a CNP server that the production build constructs, of a model
whose encoded weights are not all zero. -/
structure HoldsCnpModel (m : ServiceConstants Pt) (w : Fin 256 → ℚ) (b : ℚ) : Prop where
  mode : m.packingMode = .cnp
  masked : m.cnpMaskEnabled = true
  bias : m.bias = b
  nonzero : ∃ j, rounded gScale (w j) ≠ 0
  wrev : ∃ wrev, weightsToWrev (List.ofFn w) = .ok wrev ∧
    encodeCoeffs B.toSeal wrev gScale B.firstParmsId = .ok m.ptWrev

end Laws

/-! ## Errors -/

/-- Half a step of the encoding. -/
def stepError : ℚ := 1 / (2 * gScale)

def outputScale {Sk Ct : Type} (p : Coefficients Sk Ct) : ℚ := gScale * gScale / p.qLast

/-- How far a score may be off, for entries up to `M` and weights up to `W`. -/
def cnpError {Sk Ct : Type} (p : Coefficients Sk Ct) (M W : ℚ) : ℚ :=
  256 * (M * stepError + W * (p.ε + stepError) + (p.ε + stepError) * stepError) + 2 * p.ε +
    1 / (2 * outputScale p)

theorem gScale_pos : 0 < gScale := by norm_num [gScale]

theorem stepError_nonneg : 0 ≤ stepError := by norm_num [stepError, gScale]

theorem abs_rounded_div_le {scale : ℚ} (hscale : 0 < scale) (v : ℚ) :
    |rounded scale v / scale - v| ≤ 1 / (2 * scale) := by
  have hsplit : (rounded scale v : ℚ) / scale - v = (rounded scale v - scale * v) / scale := by
    field_simp
  rw [hsplit, abs_div, abs_of_pos hscale, div_le_iff₀ hscale]
  refine (abs_rounded_sub_le scale v).trans_eq ?_
  field_simp

theorem rounded_zero (scale : ℚ) : rounded scale 0 = 0 := by
  rw [rounded, mul_zero]
  decide +kernel

theorem roundedCoefficients_close (values : List ℚ) (c : Fin kN) :
    |roundedCoefficients values c - coefficients values c| ≤ stepError :=
  abs_rounded_div_le gScale_pos _

theorem roundedCoefficients_zero {values : List ℚ} {c : Fin kN}
    (h : coefficients values c = 0) : roundedCoefficients values c = 0 := by
  rw [coefficients] at h
  rw [roundedCoefficients, h, rounded_zero, Int.cast_zero, zero_div]

/-! ## The branch -/

section Branch

variable {Pk Sk Ct Pt Gk Coins : Type} {B : BankSeal Pk Sk Ct Pt Gk Coins}
  {p : Coefficients Sk Ct} {pk : Pk} {sk : Sk} {m : ServiceConstants Pt} {w : Fin 256 → ℚ} {b : ℚ}

/-- `B` with the parts of the codec that an encoding does not read. -/
def encodingSeal (B : BankSeal Pk Sk Ct Pt Gk Coins) : CodecSeal Ct Pt Gk where
  toSeal := B.toSeal
  isNttForm := fun _ ↦ true
  ptParmsId := fun _ ↦ 0
  ptScale := fun _ ↦ 0
  coeffCount := fun _ ↦ 0
  data := fun _ _ ↦ 0
  inverseNtt := fun _ limb ↦ limb

theorem encodeCoeffs_ok (h : CarriesCoefficients B p pk sk) {values : List ℚ}
    (hlength : values.length = kN) (hvalues : ∀ v ∈ values, |v| ≤ p.cap) :
    ∃ pt, encodeCoeffs B.toSeal values gScale B.firstParmsId = .ok pt :=
  ⟨_, encodeCoeffs_eq (S := encodingSeal B) hlength h.first_modulus h.first_pos fun v hv ↦ by
    rw [abs_mul, abs_of_pos gScale_pos]
    exact (mul_le_mul_of_nonneg_left (hvalues v hv) gScale_pos.le).trans_lt h.cap_lt⟩

theorem buildOutputMask_ok (h : CarriesCoefficients B p pk sk) {scale b : ℚ}
    (hrange : |scale * b| < 4000000000000000000) (draws : MaskDraws) :
    ∃ limb : Limb, buildOutputMask B.toSeal p.secondParmsId scale b true draws =
        .ok (B.plaintext [B.ntt p.q0 limb] p.secondParmsId scale) ∧
      (∀ c, limb c < p.q0) ∧ ∀ c, IsOutput c → limb c = (rounded scale b % p.q0).toNat := by
  have hres := residueOf_eq h.q0_pos hrange
  rw [mul_comm] at hres
  refine ⟨outputMaskLimb 0 (residue scale b p.q0) true fun c ↦ (draws 0 p.q0 c).value, ?_,
    fun c ↦ ?_, fun c hc ↦ ?_⟩
  · simp only [buildOutputMask, h.second_modulus, List.zipIdx_singleton, List.mapM_cons,
      List.mapM_nil, hres, bind, Except.bind, pure, Except.pure, finishNttPlaintext,
      List.zipWith_cons_cons, List.zipWith_nil_left]
  · rw [outputMaskLimb_apply, if_pos rfl]
    split_ifs
    · exact residue_lt h.q0_pos scale b
    · exact Nat.mod_lt _ h.q0_pos
  · rw [outputMaskLimb_apply, if_pos hc]
    rfl

theorem ShowsResidues.congr {ct : Ct} {r r' : Fin kN → ℤ} (h : ShowsResidues B p sk ct r)
    (hr : ∀ c, r c % p.q0 = r' c % p.q0) : ShowsResidues B p sk ct r' := by
  obtain ⟨pt, raw, hdecrypt, hinverse, hscale, hraw⟩ := h
  exact ⟨pt, raw, hdecrypt, hinverse, hscale, fun c ↦ by rw [hraw, hr]⟩

theorem outputScale_pos (h : CarriesCoefficients B p pk sk) : 0 < outputScale p :=
  div_pos (mul_pos gScale_pos gScale_pos) h.qLast_pos

/-- The scores, and a range of values in which the coefficients do not wrap
around the prime that is left. -/
structure CnpRange (p : Coefficients Sk Ct) (w : Fin 256 → ℚ) (b M W : ℚ) : Prop where
  error_nonneg : 0 ≤ p.ε
  entry_nonneg : 0 ≤ M
  entry_le : M ≤ p.cap
  weight_le : ∀ j, |w j| ≤ W
  weight_cap : W ≤ p.cap
  product_le : (M + (p.ε + stepError)) * (256 * (W + stepError)) ≤ p.cap
  score_lt : 2 * (outputScale p * (256 * (M * W) + |b| + cnpError p M W)) < p.q0

theorem CnpRange.weight_nonneg {M W : ℚ} (h : CnpRange p w b M W) : 0 ≤ W :=
  (abs_nonneg _).trans (h.weight_le 0)

/-- The reversed weights as they are encoded. -/
theorem wrev_rounded {M W : ℚ} (hrange : CnpRange p w b M W) {wrev : List ℚ}
    (hwrev : weightsToWrev (List.ofFn w) = .ok wrev) :
    (∀ c, |coefficients wrev c| ≤ W) ∧
    (∀ c, |roundedCoefficients wrev c| ≤ W + stepError) ∧
    (∀ c : Fin kN, kLane ≤ c.val → roundedCoefficients wrev c = 0) ∧
    ∀ j : Fin kLane, ∀ c : Fin kN, c.val = kLane - 1 - j →
      roundedCoefficients wrev c = rounded gScale (w j) / gScale := by
  obtain ⟨wrev', hwrev', hw, hzero⟩ := weightsToWrev_spec (R := ℚ) w
  obtain rfl := Except.ok.inj (hwrev'.symm.trans hwrev)
  have hle : ∀ c, |coefficients wrev' c| ≤ W := fun c ↦ by
    by_cases hc : c.val < kLane
    · have hback : c.val = kLane - 1 - (kLane - 1 - c.val) := by omega
      rw [hw ⟨kLane - 1 - c.val, by omega⟩ c hback]
      exact hrange.weight_le _
    · rw [hzero c (not_lt.mp hc), abs_zero]
      exact hrange.weight_nonneg
  refine ⟨hle, fun c ↦ ?_, fun c hc ↦ roundedCoefficients_zero (hzero c hc), fun j c hc ↦ ?_⟩
  · have hclose := roundedCoefficients_close wrev' c
    have hsplit : roundedCoefficients wrev' c = coefficients wrev' c +
        (roundedCoefficients wrev' c - coefficients wrev' c) := by ring
    rw [hsplit]
    exact (abs_add_le _ _).trans (add_le_add (hle c) hclose)
  · have hcoefficient := hw j c hc
    rw [coefficients] at hcoefficient
    rw [roundedCoefficients, hcoefficient]

theorem lane_lt {k j : ℕ} (hk : k < kMaxLanes) (hj : j < kLane) : kLane * k + j < kN := by
  simp only [kMaxLanes, kLane, kN] at hk hj ⊢
  omega

/-- A lane of the carried product. -/
theorem lane_product_close {M W δ : ℚ} (hrange : CnpRange p w b M W) {a : Fin kN → ℚ}
    {wrev poly : List ℚ} (hwrev : weightsToWrev (List.ofFn w) = .ok wrev)
    (ha : ∀ c, |a c - coefficients poly c| ≤ δ) (hpoly : ∀ c, |coefficients poly c| ≤ M)
    (entry : ℕ → ℚ) {k : ℕ} (hk : k < kMaxLanes)
    (hentry : ∀ j < kLane, ∀ c : Fin kN, c.val = kLane * k + j → coefficients poly c = entry j) :
    |Negacyclic.mul a (roundedCoefficients wrev) ⟨outputIndex k, outputIndex_lt hk⟩ -
        ∑ j : Fin 256, entry j * w j| ≤
      256 * (M * stepError + W * δ + δ * stepError) := by
  obtain ⟨-, -, hzero, hw⟩ := wrev_rounded hrange hwrev
  have hlane : ∀ j : Fin kLane, kLane * k + j.val < kN := fun j ↦ lane_lt hk j.isLt
  let x : Fin kLane → ℚ := fun j ↦ entry j
  let y : Fin kLane → ℚ := fun j ↦ a ⟨kLane * k + j, hlane j⟩
  let v : Fin kLane → ℚ := fun j ↦ rounded gScale (w j) / gScale
  have hproduct : Negacyclic.mul a (roundedCoefficients wrev) ⟨outputIndex k, outputIndex_lt hk⟩ =
      ∑ j, (y * v) j := by
    rw [mul_output a (roundedCoefficients wrev) v (fun j ↦ if hj : j < kLane then y ⟨j, hj⟩ else 0)
      hk (fun j hj c hc ↦ ?_) hw hzero]
    · exact Finset.sum_congr rfl fun j _ ↦ by rw [dif_pos j.isLt]; rfl
    · rw [dif_pos hj]
      exact congrArg a (Fin.ext hc)
  have hx : Tracks M δ x y := by
    have hcoefficient (j : Fin kLane) : x j = coefficients poly ⟨kLane * k + j, hlane j⟩ :=
      (hentry j j.isLt _ rfl).symm
    refine ⟨fun j ↦ ?_, fun j ↦ ?_⟩
    · rw [hcoefficient]
      exact hpoly _
    · rw [hcoefficient]
      exact ha _
  have hv : Tracks W stepError w v :=
    ⟨hrange.weight_le, fun j ↦ abs_rounded_div_le gScale_pos (w j)⟩
  have hsum := (hx.mul hv).sum_error
  have hcard : (Fintype.card (Fin kLane) : ℚ) = 256 := by
    rw [Fintype.card_fin]
    rfl
  rw [hcard] at hsum
  rw [hproduct]
  exact hsum

/-- A lane of the decryption, once its value is in range. -/
theorem decodeLane (h : CarriesCoefficients B p pk sk) {ct : Ct} {r : Fin kN → ℤ}
    (hmade : CnpMade B pk ct) (hshows : ShowsResidues B p sk ct r) {n : ℕ} (hpos : 1 ≤ n)
    (hle : n ≤ 32) (hrange : ∀ c, IsOutput c → 2 * |r c| < p.q0) :
    (holding (some (pk, sk))).decryptCnpBatch B (B.save ct) n =
      .ok ((List.range n).map fun k ↦
        if hk : k < kMaxLanes then (r ⟨outputIndex k, outputIndex_lt hk⟩ : ℚ) / B.scale ct
        else 0) := by
  obtain ⟨pt, raw, hdecrypt, hinverse, hscale, hraw⟩ := hshows
  have hmax : kMaxLanes = 32 := rfl
  have hn : ¬ (n < 1 ∨ 32 < n) := by omega
  have hlanes : ¬ (n < 1 ∨ kMaxLanes < n) := by omega
  simp only [holding, Wrapper.decryptCnpBatch, hn, if_false, h.load_save hmade, hdecrypt,
    Wrapper.decodeCoeffs, hinverse, decodeLaneOutputs, hlanes, hscale, hraw,
    centred_toNat h.q0_pos, bind, Except.bind, pure, Except.pure]
  refine congrArg Except.ok (List.map_congr_left fun k hk ↦ ?_)
  have hk32 : k < kMaxLanes := by
    have hlt := List.mem_range.mp hk
    omega
  have hcentred := centred_eq_self (hrange ⟨outputIndex k, outputIndex_lt hk32⟩ ⟨k, hk32, rfl⟩)
  rw [dif_pos hk32, ← hcentred]
  exact ofFn_getD (fun c ↦ (centred (r c) p.q0 : ℚ) / B.scale ct)
    ⟨outputIndex k, outputIndex_lt hk32⟩

end Branch

end Ppfdaas
