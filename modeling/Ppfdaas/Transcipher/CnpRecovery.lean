import Ppfdaas.Transcipher.EncryptedRuns

/-!
# The mask tests of the coefficient path

What `TestCNPRun` checks of the mask on its first output: test 5 with its negative
control, and the recovery of the weights with the mask and without it.
-/

namespace Ppfdaas.Transcipher

open ScaledPhase

/-- What the tests count. -/
structure MaskTests where
  bad : ℕ
  badRaw : ℕ
  okU : ℕ
  okM : ℕ
deriving DecidableEq

/-- The checks, in the order of the test. -/
def MaskTests.check (m : MaskTests) : Except String MaskTests :=
  if m.bad ≠ 0 then
    .error s!"mask test 5 failed: {m.bad} lanes differ from unmasked+bias"
  else if m.badRaw = 0 then
    .error "mask test 5 would not catch a non-FV-encoded mask (negative control matched)"
  else if m.okU ≠ cnpFeatures then
    .error s!"unmasked weight recovery got {m.okU}/256, expected 256"
  else if m.okM ≠ 0 then
    .error s!"masked output still leaks weights: {m.okM}/255 exact"
  else
    .ok m

theorem MaskTests.check_eq_ok_iff (m : MaskTests) :
    m.check = .ok m ↔ m.bad = 0 ∧ m.badRaw ≠ 0 ∧ m.okU = cnpFeatures ∧ m.okM = 0 := by
  rw [MaskTests.check]
  split_ifs <;> simp_all

namespace CnpCtx

variable (x : CnpCtx)

/-- The mask without the scale-up. -/
def cnpRawMaskPlaintext (biasQ : ℤ) : x.Phase := fun c ↦
  ((x.cnpMaskRingT biasQ false 0 c : ℕ) : ZMod x.q0)

/-- The query of the recovery test: lane 0 asks for feature 0. -/
def oneHotQuery : Fin x.N → ℤ := fun c ↦ if c.val = 0 then 1 else 0

/-- Coefficient `255 - j` of lane 0. -/
def recoveryCoeff (hlanes : 0 < x.lanes) (j : Fin cnpFeatures) : Fin x.N :=
  x.coeff ⟨0, hlanes⟩ ⟨cnpFeatures - 1 - j, by omega⟩

theorem pred_cnpFeatures_lt : cnpFeatures - 1 < cnpFeatures := by decide

section Tests

variable {blocksize : ℕ} (client : Fin x.N → Fin blocksize → ℕ) (kk : Fin blocksize)
  (ks0 : x.Phase) (wq : Fin cnpFeatures → ℤ) (biasQ : ℤ)

def ctMul (data : Fin x.N → ℤ) : x.Phase :=
  x.cnpPmulStage (x.cnpSubStage (x.cnpClientSym client kk data) ks0)
    (x.cnpPtMulSigned (x.cnpWRev wq))

/-- `run`: under a mask, where draws for one are given. -/
def recoveryRun (data : Fin x.N → ℤ) (mask : Option (Fin x.N → ℕ)) : Fin x.N → ℕ :=
  x.cnpDecryptRingT (x.ctMul client kk ks0 wq data +
    mask.elim 0 (x.cnpMaskFV biasQ true))

def recovers (hlanes : 0 < x.lanes) (u v : Fin x.N → ℕ) (j : Fin cnpFeatures) : Bool :=
  cnpCentre (u (x.recoveryCoeff hlanes j) - v (x.recoveryCoeff hlanes j)) x.t = wq j

/-- The mask tests on the output of `data`, with the draws of the three masks. -/
def cnpMaskTests (hlanes : 0 < x.lanes) (data : Fin x.N → ℤ)
    (draws drawsQ drawsZ : Fin x.N → ℕ) : MaskTests :=
  let ct := x.ctMul client kk ks0 wq data
  let uc := x.cnpDecryptRingT (ct + x.cnpMaskFV 0 false 0)
  let mc := x.cnpDecryptRingT (ct + x.cnpMaskFV biasQ true draws)
  let rc := x.cnpDecryptRingT (ct + x.cnpRawMaskPlaintext biasQ)
  let differs (v : Fin x.N → ℕ) (k : Fin x.lanes) : Bool :=
    let c := x.coeff k ⟨cnpFeatures - 1, pred_cnpFeatures_lt⟩
    cnpCentre (v c) x.t ≠ cnpCentre (uc c + biasQ) x.t
  let run := x.recoveryRun client kk ks0 wq biasQ
  let u1 := run x.oneHotQuery none
  let u0 := run 0 none
  let m1 := run x.oneHotQuery (some drawsQ)
  let m0 := run 0 (some drawsZ)
  { bad := (List.finRange x.lanes).countP (differs mc)
    badRaw := (List.finRange x.lanes).countP (differs rc)
    okU := (List.finRange cnpFeatures).countP (x.recovers wq hlanes u1 u0)
    okM := (List.finRange cnpFeatures).countP fun j ↦
      1 ≤ j.val && x.recovers wq hlanes m1 m0 j }

end Tests

/-! ## Every coefficient of the product -/

section Product

variable {x} {blocksize : ℕ} {ks client : Fin x.N → Fin blocksize → ℕ} {kk : Fin blocksize}
  {d e : Fin x.N → ℤ} {ks0 : x.Phase} (wq : Fin cnpFeatures → ℤ) {bound : ℤ}

theorem cnpWRev_recoveryCoeff (hlanes : 0 < x.lanes) (j : Fin cnpFeatures) :
    x.cnpWRev wq (x.recoveryCoeff hlanes j) = wq j := by
  have hval : (x.recoveryCoeff hlanes j).val = cnpFeatures - 1 - j := by
    change cnpFeatures * 0 + (cnpFeatures - 1 - j.val) = _
    omega
  have hlow : (x.recoveryCoeff hlanes j).val < cnpFeatures := by omega
  rw [cnpWRev, dif_pos hlow]
  exact congrArg wq (Fin.ext (by simp only; omega))

theorem sum_abs_cnpWRev (hlanes : 0 < x.lanes) : ∑ c, |x.cnpWRev wq c| = ∑ j, |wq j| := by
  symm
  refine Finset.sum_of_injOn (x.recoveryCoeff hlanes) ?_
    (fun _ _ ↦ Finset.mem_coe.mpr (Finset.mem_univ _)) (fun c _ hc ↦ ?_) fun j _ ↦ ?_
  · intro i _ j _ hij
    have hval : cnpFeatures * 0 + (cnpFeatures - 1 - i.val) =
        cnpFeatures * 0 + (cnpFeatures - 1 - j.val) := congrArg Fin.val hij
    exact Fin.ext (by omega)
  · rw [cnpWRev, dif_neg, abs_zero]
    intro hlow
    apply hc
    refine ⟨⟨cnpFeatures - 1 - c, by omega⟩, Finset.mem_coe.mpr (Finset.mem_univ _), ?_⟩
    refine Fin.ext ?_
    change cnpFeatures * 0 + (cnpFeatures - 1 - (cnpFeatures - 1 - c.val)) = c.val
    omega
  · rw [cnpWRev_recoveryCoeff]

/-- The phase of the product is the product of data, noise and weights, scaled up,
with an error that grows with the weights only. -/
theorem ctMul_error (ht : Odd x.t) (hlanes : 0 < x.lanes) (data : Fin x.N → ℤ)
    (hnoise : ∀ c, (client (x.bitrev c) kk : ℤ) ≡ ks (x.bitrev c) kk + d c [ZMOD x.t])
    (hphase : ∀ c, ks0 c = ((scaleUp x.t x.q0 (ks (x.bitrev c) kk) + e c : ℤ) : ZMod x.q0))
    (he : ∀ c, |e c| ≤ bound) (c : Fin x.N) :
    ∃ r : ℤ, x.ctMul client kk ks0 wq data c = (r : ZMod x.q0) ∧
      |2 * (x.t * r - x.q0 * Negacyclic.mul (data + d) (x.cnpWRev wq) c)| ≤
        2 * (x.t * ((∑ j, |wq j|) * (bound + 1))) := by
  have hpos : (0 : ℤ) < x.t := by exact_mod_cast ht.pos
  choose r hr herror using cnpSubStage_error ht data hnoise hphase
  refine ⟨Negacyclic.mul r (x.cnpWRev wq) c, ?_, ?_⟩
  · rw [← Negacyclic.mul_intCast]
    refine congrFun (congrArg₂ Negacyclic.mul (funext hr) (funext fun j ↦ ?_)) c
    exact cnpPtMulSigned_eq _ j
  · have hclose : ∀ i, |x.t * r i - x.q0 * (data + d) i| ≤ x.t * (bound + 1) := by
      intro i
      have hi := herror i
      have hle := mul_le_mul_of_nonneg_left (he i) hpos.le
      rw [abs_mul, abs_two] at hi
      rw [Pi.add_apply]
      linarith
    have hmul := Negacyclic.abs_mul_le hclose (x.cnpWRev wq) c
    rw [Negacyclic.mul_smul_sub, sum_abs_cnpWRev wq hlanes] at hmul
    rw [abs_mul, abs_two]
    linarith

/-- What the bank decrypts of a product to which `m` was added, scaled up or not. -/
theorem decrypt_add (ht : Odd x.t) (hlanes : 0 < x.lanes) (data : Fin x.N → ℤ)
    (hnoise : ∀ c, (client (x.bitrev c) kk : ℤ) ≡ ks (x.bitrev c) kk + d c [ZMOD x.t])
    (hphase : ∀ c, ks0 c = ((scaleUp x.t x.q0 (ks (x.bitrev c) kk) + e c : ℤ) : ZMod x.q0))
    (he : ∀ c, |e c| ≤ bound) {c : Fin x.N} {mask : x.Phase} {up m slack : ℤ}
    (hmask : mask c = (up : ZMod x.q0)) (hup : |2 * (x.t * up - x.q0 * m)| < slack)
    (hbound : 2 * (x.t * ((∑ j, |wq j|) * (bound + 1))) + slack ≤ x.q0) :
    (x.cnpDecryptRingT (x.ctMul client kk ks0 wq data + mask) c : ℤ) ≡
      Negacyclic.mul (data + d) (x.cnpWRev wq) c + m [ZMOD x.t] := by
  obtain ⟨r, hr, herror⟩ := ctMul_error wq ht hlanes data hnoise hphase he c
  set z := Negacyclic.mul (data + d) (x.cnpWRev wq) c
  have hclose : |2 * (x.t * (r + up) - x.q0 * (z + m))| < x.q0 := by
    have hlow := abs_le.mp herror
    have hlow' := abs_lt.mp hup
    rw [abs_lt]
    constructor <;> linarith
  have hq : (0 : ℤ) < x.q0 := (abs_nonneg _).trans_lt hclose
  have : NeZero x.q0 := ⟨by exact_mod_cast hq.ne'⟩
  have hval : (((x.ctMul client kk ks0 wq data + mask) c).val : ℤ) ≡ r + up [ZMOD x.q0] := by
    rw [← ZMod.intCast_eq_intCast_iff, Pi.add_apply, hr, hmask]
    simp
  rw [cnpDecryptRingT, scaleDown_of_close hval hclose]
  exact Int.mod_modEq _ _

end Product

/-! ## What the tests read -/

theorem centre_eq_iff {t : ℤ} (ht : 0 < t) {v v' : ℤ} :
    cnpCentre v t = cnpCentre v' t ↔ v ≡ v' [ZMOD t] := by
  refine ⟨fun h ↦ ?_, cnpCentre_congr ht⟩
  have hcentre : ∀ v, cnpCentre v t ≡ v [ZMOD t] := fun v ↦ by
    rw [cnpCentre_eq ht]
    exact CentredResidue.centred_modEq v t
  calc v ≡ cnpCentre v t [ZMOD t] := (hcentre v).symm
    _ = cnpCentre v' t := h
    _ ≡ v' [ZMOD t] := hcentre v'

theorem modEq_iff_of_add_sub {t u w a b : ℤ} (h : u ≡ w + (a - b) [ZMOD t]) :
    u ≡ w [ZMOD t] ↔ a ≡ b [ZMOD t] := by
  rw [Int.modEq_iff_dvd, Int.modEq_iff_dvd]
  have hsplit : w - u = w + (a - b) - u + (b - a) := by ring
  rw [hsplit]
  exact Int.dvd_add_right h.dvd

section Decrypted

variable {x} {noiseBound errorBound : ℤ} {k : Keystreams x.t noiseBound}
  (phases : KeystreamPhases x k errorBound) (wq : Fin cnpFeatures → ℤ) (biasQ : ℤ)

/-- The noise that the client's keystream leaves on the first output. -/
def firstNoise (k : Keystreams x.t noiseBound) : Fin x.N → ℤ := fun c ↦ k.noise 0 (x.bitrev c) 0

/-- The product of the first output. -/
def firstProduct (data : Fin x.N → ℤ) : x.Phase :=
  x.ctMul (fun i (j : Fin 1) ↦ k.client 0 i j) ⟨0, Nat.one_pos⟩ (phases.ks0 0 0) wq data

variable {wq}

theorem decrypt_first (ht : Odd x.t) (hlanes : 0 < x.lanes) (data : Fin x.N → ℤ)
    (mask : x.Phase) (c : Fin x.N) (up m slack : ℤ) (hmask : mask c = (up : ZMod x.q0))
    (hup : |2 * (x.t * up - x.q0 * m)| < slack)
    (hbound : 2 * (x.t * ((∑ j, |wq j|) * (errorBound + 1))) + slack ≤ x.q0) :
    (x.cnpDecryptRingT (firstProduct phases wq data + mask) c : ℤ) ≡
      Negacyclic.mul (data + firstNoise k) (x.cnpWRev wq) c + m [ZMOD x.t] := by
  let client (i : Fin x.N) (j : Fin 1) : ℕ := k.client 0 i j
  let server (i : Fin x.N) (j : Fin 1) : ℕ := k.server 0 i j
  have hnoise : ∀ c, (client (x.bitrev c) 0 : ℤ) ≡
      server (x.bitrev c) 0 + firstNoise k c [ZMOD x.t] :=
    fun c ↦ k.client_modEq 0 (x.bitrev c) 0
  exact decrypt_add wq ht hlanes data hnoise (phases.ks0_eq 0 0) (phases.error_le 0 0) hmask hup
    hbound

/-- Without a mask. -/
theorem decrypt_bare (ht : Odd x.t) (hlanes : 0 < x.lanes)
    (hbound : 2 * x.t * ((∑ j, |wq j|) * (errorBound + 1) + x.t) ≤ x.q0) (data : Fin x.N → ℤ)
    (c : Fin x.N) : (x.cnpDecryptRingT (firstProduct phases wq data + 0) c : ℤ) ≡
      Negacyclic.mul (data + firstNoise k) (x.cnpWRev wq) c [ZMOD x.t] := by
  have hpos : (0 : ℤ) < x.t := by exact_mod_cast ht.pos
  have hread := decrypt_first phases ht hlanes data 0 c 0 0 (2 * x.t * x.t) (by simp) ?_
    (by linarith)
  · rwa [add_zero (Negacyclic.mul _ _ _)] at hread
  · rw [mul_zero, mul_zero, sub_zero, mul_zero, abs_zero]
    positivity

/-- Under a scaled mask. -/
theorem decrypt_masked (ht : Odd x.t) (hlanes : 0 < x.lanes)
    (hbound : 2 * x.t * ((∑ j, |wq j|) * (errorBound + 1) + x.t) ≤ x.q0) (data : Fin x.N → ℤ)
    (randomize : Bool) (draws : Fin x.N → ℕ) (c : Fin x.N) :
    (x.cnpDecryptRingT (firstProduct phases wq data + x.cnpMaskFV biasQ randomize draws) c : ℤ) ≡
      Negacyclic.mul (data + firstNoise k) (x.cnpWRev wq) c +
        x.cnpMaskRingT biasQ randomize draws c [ZMOD x.t] := by
  have hpos : (0 : ℤ) < x.t := by exact_mod_cast ht.pos
  refine decrypt_first phases ht hlanes data _ c _ _ (2 * x.t * x.t)
    (cnpScaleUp_eq (x.cnpMaskRingT biasQ randomize draws) c) ?_ (by linarith)
  refine (scaleUp_error ht x.q0 _).trans_lt ?_
  nlinarith

/-- Under the mask that was not scaled up: it is rounded away. -/
theorem decrypt_raw (ht : Odd x.t) (hlanes : 0 < x.lanes)
    (hbound : 2 * x.t * ((∑ j, |wq j|) * (errorBound + 1) + x.t) ≤ x.q0) (data : Fin x.N → ℤ)
    (c : Fin x.N) :
    (x.cnpDecryptRingT (firstProduct phases wq data + x.cnpRawMaskPlaintext biasQ) c : ℤ) ≡
      Negacyclic.mul (data + firstNoise k) (x.cnpWRev wq) c [ZMOD x.t] := by
  have hpos : (0 : ℤ) < x.t := by exact_mod_cast ht.pos
  have hsmall : (x.cnpMaskRingT biasQ false 0 c : ℤ) < x.t := by
    simp only [cnpMaskRingT, Bool.false_eq_true, if_false]
    split_ifs
    · rw [goMod_eq hpos, Int.toNat_of_nonneg (Int.emod_nonneg _ hpos.ne')]
      exact Int.emod_lt_of_pos _ hpos
    · exact_mod_cast hpos
  have hread := decrypt_first phases ht hlanes data (x.cnpRawMaskPlaintext biasQ) c
    (x.cnpMaskRingT biasQ false 0 c) 0 (2 * x.t * x.t) (by simp [cnpRawMaskPlaintext]) ?_
    (by linarith)
  · rwa [add_zero (Negacyclic.mul _ _ _)] at hread
  · rw [mul_zero, sub_zero, abs_of_nonneg (by positivity), mul_assoc]
    have hlt := mul_lt_mul_of_pos_left hsmall hpos
    linarith

/-- The output coefficient of a lane holds the bias in every mask. -/
theorem cnpMaskRingT_output (ht : 0 < x.t) (biasQ : ℤ) (randomize : Bool) (draws : Fin x.N → ℕ)
    (lane : Fin x.lanes) :
    (x.cnpMaskRingT biasQ randomize draws (x.coeff lane ⟨cnpFeatures - 1, by decide⟩) : ℤ) =
      biasQ % x.t := by
  have hpos : (0 : ℤ) < x.t := by exact_mod_cast ht
  rw [cnpMaskRingT, if_pos ⟨coeff_mod _ _, by simp [coeff_div]⟩, goMod_eq hpos,
    Int.toNat_of_nonneg (Int.emod_nonneg _ hpos.ne')]

/-- Every other coefficient of lane 0 holds what was drawn. -/
theorem cnpMaskRingT_recovery (hlanes : 0 < x.lanes) (biasQ : ℤ) (draws : Fin x.N → ℕ)
    {j : Fin cnpFeatures} (hj : 1 ≤ j.val) :
    x.cnpMaskRingT biasQ true draws (x.recoveryCoeff hlanes j) =
      draws (x.recoveryCoeff hlanes j) := by
  rw [cnpMaskRingT, if_neg, if_pos rfl]
  rintro ⟨hmod, -⟩
  rw [recoveryCoeff, coeff_mod] at hmod
  simp only at hmod
  omega

/-- Two queries under one keystream differ by the reversed weights. -/
theorem query_sub (e : Fin x.N → ℤ) (w : Fin x.N → ℤ) (c : Fin x.N) :
    Negacyclic.mul (x.oneHotQuery + e) w c - Negacyclic.mul (0 + e) w c = w c := by
  have : NeZero x.N := ⟨(Nat.two_pow_pos _).ne'⟩
  have hone : x.oneHotQuery = Pi.single 0 1 := by
    funext i
    simp only [oneHotQuery, Pi.single_apply, Fin.ext_iff, Fin.val_zero]
  have hsub := Negacyclic.mul_smul_sub 1 1 (x.oneHotQuery + e) (0 + e) w c
  simp only [one_mul, Pi.add_apply, Pi.zero_apply, zero_add, add_sub_cancel_right] at hsub
  rw [zero_add, ← hsub, hone]
  exact congrFun (Negacyclic.single_mul w) c

theorem recovers_iff (ht : Odd x.t) {hlanes : 0 < x.lanes} {j : Fin cnpFeatures}
    (hwq : |wq j| ≤ x.t / 2) (u v : Fin x.N → ℕ) :
    x.recovers wq hlanes u v j = true ↔
      (u (x.recoveryCoeff hlanes j) : ℤ) - v (x.recoveryCoeff hlanes j) ≡ wq j [ZMOD x.t] := by
  have hpos : (0 : ℤ) < x.t := by exact_mod_cast ht.pos
  have hodd : Odd (x.t : ℤ) := by exact_mod_cast ht
  rw [recovers, decide_eq_true_iff]
  conv_lhs => rhs; rw [← CnpData.cnpCentre_of_abs_le hpos hodd hwq]
  exact centre_eq_iff hpos

end Decrypted

/-! ## What the tests find -/

section Verdict

variable {x} {noiseBound errorBound : ℤ} {k : Keystreams x.t noiseBound}

/-- The mask tests of the first output. -/
def firstMaskTests (phases : KeystreamPhases x k errorBound) (wq : Fin cnpFeatures → ℤ)
    (biasQ : ℤ) (hlanes : 0 < x.lanes) (data : Fin x.N → ℤ) (draws drawsQ drawsZ : Fin x.N → ℕ) :
    MaskTests :=
  x.cnpMaskTests (fun i (j : Fin 1) ↦ k.client 0 i j) ⟨0, Nat.one_pos⟩ (phases.ks0 0 0) wq biasQ
    hlanes data draws drawsQ drawsZ

section Counts

variable (phases : KeystreamPhases x k errorBound) {wq : Fin cnpFeatures → ℤ} (biasQ : ℤ)
  (data : Fin x.N → ℤ) (draws drawsQ drawsZ : Fin x.N → ℕ)

theorem unmasked_output (ht : Odd x.t) (hlanes : 0 < x.lanes)
    (hbound : 2 * x.t * ((∑ j, |wq j|) * (errorBound + 1) + x.t) ≤ x.q0) (lane : Fin x.lanes) :
    let c := x.coeff lane ⟨cnpFeatures - 1, by decide⟩
    (x.cnpDecryptRingT (firstProduct phases wq data + x.cnpMaskFV 0 false 0) c : ℤ) ≡
      Negacyclic.mul (data + firstNoise k) (x.cnpWRev wq) c [ZMOD x.t] := by
  intro c
  have hread := decrypt_masked phases 0 ht hlanes hbound data false 0 c
  rwa [cnpMaskRingT_output ht.pos, Int.zero_emod, add_zero] at hread

theorem bad_eq_zero (ht : Odd x.t) (hlanes : 0 < x.lanes)
    (hbound : 2 * x.t * ((∑ j, |wq j|) * (errorBound + 1) + x.t) ≤ x.q0) :
    (firstMaskTests phases wq biasQ hlanes data draws drawsQ drawsZ).bad = 0 := by
  have hpos : (0 : ℤ) < x.t := by exact_mod_cast ht.pos
  refine List.countP_eq_zero.mpr fun lane _ ↦ ?_
  rw [decide_eq_true_iff, not_not, centre_eq_iff hpos]
  set c := x.coeff lane ⟨cnpFeatures - 1, by decide⟩
  have huc := unmasked_output phases data ht hlanes hbound lane
  have hmc := decrypt_masked phases biasQ ht hlanes hbound data true draws c
  rw [cnpMaskRingT_output ht.pos] at hmc
  calc (x.cnpDecryptRingT (firstProduct phases wq data + x.cnpMaskFV biasQ true draws) c : ℤ)
      ≡ Negacyclic.mul (data + firstNoise k) (x.cnpWRev wq) c + biasQ % x.t [ZMOD x.t] := hmc
    _ ≡ Negacyclic.mul (data + firstNoise k) (x.cnpWRev wq) c + biasQ [ZMOD x.t] :=
        (Int.mod_modEq _ _).add_left _
    _ ≡ x.cnpDecryptRingT (firstProduct phases wq data + x.cnpMaskFV 0 false 0) c + biasQ
          [ZMOD x.t] := huc.symm.add_right _

/-- The unscaled mask is as good as none, so the control sees the bias itself. -/
theorem badRaw_eq (ht : Odd x.t) (hlanes : 0 < x.lanes)
    (hbound : 2 * x.t * ((∑ j, |wq j|) * (errorBound + 1) + x.t) ≤ x.q0) :
    (firstMaskTests phases wq biasQ hlanes data draws drawsQ drawsZ).badRaw =
      if (x.t : ℤ) ∣ biasQ then 0 else x.lanes := by
  have hpos : (0 : ℤ) < x.t := by exact_mod_cast ht.pos
  have hsame : ∀ lane : Fin x.lanes,
      let c := x.coeff lane ⟨cnpFeatures - 1, by decide⟩
      cnpCentre (x.cnpDecryptRingT (firstProduct phases wq data + x.cnpRawMaskPlaintext biasQ) c)
          x.t =
        cnpCentre (x.cnpDecryptRingT (firstProduct phases wq data + x.cnpMaskFV 0 false 0) c +
          biasQ) x.t ↔ (x.t : ℤ) ∣ biasQ := by
    intro lane c
    have huc := unmasked_output phases data ht hlanes hbound lane
    have hrc := decrypt_raw phases biasQ ht hlanes hbound data c
    rw [centre_eq_iff hpos, Int.modEq_iff_dvd, add_sub_right_comm]
    exact Int.dvd_add_right (hrc.trans huc.symm).dvd
  split_ifs with hdvd
  · refine List.countP_eq_zero.mpr fun lane _ ↦ ?_
    rw [decide_eq_true_iff, not_not]
    exact (hsame lane).mpr hdvd
  · refine (List.countP_eq_length.mpr fun lane _ ↦ ?_).trans (List.length_finRange)
    rw [decide_eq_true_iff]
    exact fun h ↦ hdvd ((hsame lane).mp h)

theorem okU_eq (ht : Odd x.t) (hlanes : 0 < x.lanes) (hwq : ∀ j, |wq j| ≤ x.t / 2)
    (hbound : 2 * x.t * ((∑ j, |wq j|) * (errorBound + 1) + x.t) ≤ x.q0) :
    (firstMaskTests phases wq biasQ hlanes data draws drawsQ drawsZ).okU = cnpFeatures := by
  refine (List.countP_eq_length.mpr fun j _ ↦ ?_).trans List.length_finRange
  refine (recovers_iff ht (hwq j) _ _).mpr ?_
  have hu := decrypt_bare phases ht hlanes hbound x.oneHotQuery (x.recoveryCoeff hlanes j)
  have hz := decrypt_bare phases ht hlanes hbound 0 (x.recoveryCoeff hlanes j)
  have hsub := hu.sub hz
  rwa [query_sub, cnpWRev_recoveryCoeff] at hsub

theorem okM_eq (ht : Odd x.t) (hlanes : 0 < x.lanes) (hwq : ∀ j, |wq j| ≤ x.t / 2)
    (hbound : 2 * x.t * ((∑ j, |wq j|) * (errorBound + 1) + x.t) ≤ x.q0) :
    (firstMaskTests phases wq biasQ hlanes data draws drawsQ drawsZ).okM =
      (List.finRange cnpFeatures).countP fun j ↦
        1 ≤ j.val ∧ drawsQ (x.recoveryCoeff hlanes j) ≡ drawsZ (x.recoveryCoeff hlanes j)
          [MOD x.t] := by
  refine List.countP_congr fun j _ ↦ ?_
  rw [Bool.and_eq_true, decide_eq_true_iff, decide_eq_true_iff]
  refine and_congr_right fun hj ↦ (recovers_iff ht (hwq j) _ _).trans ?_
  have hu := decrypt_masked phases biasQ ht hlanes hbound x.oneHotQuery true drawsQ
    (x.recoveryCoeff hlanes j)
  have hz := decrypt_masked phases biasQ ht hlanes hbound 0 true drawsZ (x.recoveryCoeff hlanes j)
  have hsub := hu.sub hz
  rw [add_sub_add_comm, query_sub, cnpWRev_recoveryCoeff, cnpMaskRingT_recovery hlanes _ _ hj,
    cnpMaskRingT_recovery hlanes _ _ hj] at hsub
  rw [← Int.natCast_modEq_iff]
  exact modEq_iff_of_add_sub hsub

end Counts

/-- The tests of a model whose weights fit: a right mask is never found at fault,
the unmasked output always gives all weights away, the control sees every bias but
the multiples of `t`, and the masked output shows exactly the weights at which two
draws agree. -/
theorem mask_tests_count (ht : Odd x.t) (hlanes : 0 < x.lanes)
    (phases : KeystreamPhases x k errorBound) {wq : Fin cnpFeatures → ℤ}
    (hwq : ∀ j, |wq j| ≤ x.t / 2)
    (hbound : 2 * x.t * ((∑ j, |wq j|) * (errorBound + 1) + x.t) ≤ x.q0) (biasQ : ℤ)
    (data : Fin x.N → ℤ) (draws drawsQ drawsZ : Fin x.N → ℕ) :
    let m := firstMaskTests phases wq biasQ hlanes data draws drawsQ drawsZ
    let agree (j : Fin cnpFeatures) : Prop :=
      drawsQ (x.recoveryCoeff hlanes j) ≡ drawsZ (x.recoveryCoeff hlanes j) [MOD x.t]
    m.bad = 0 ∧ m.badRaw = (if (x.t : ℤ) ∣ biasQ then 0 else x.lanes) ∧ m.okU = cnpFeatures ∧
      m.okM = (List.finRange cnpFeatures).countP (fun j ↦ 1 ≤ j.val ∧ agree j) ∧
        (m.check = .ok m ↔ ¬(x.t : ℤ) ∣ biasQ ∧ ∀ j : Fin cnpFeatures, 1 ≤ j.val → ¬agree j) := by
  intro m agree
  have hbad : m.bad = 0 := bad_eq_zero phases biasQ data draws drawsQ drawsZ ht hlanes hbound
  have hraw := badRaw_eq phases biasQ data draws drawsQ drawsZ ht hlanes hbound
  have hokU : m.okU = cnpFeatures :=
    okU_eq phases biasQ data draws drawsQ drawsZ ht hlanes hwq hbound
  have hokM := okM_eq phases biasQ data draws drawsQ drawsZ ht hlanes hwq hbound
  refine ⟨hbad, hraw, hokU, hokM, ?_⟩
  rw [MaskTests.check_eq_ok_iff]
  have hcontrol : m.badRaw ≠ 0 ↔ ¬(x.t : ℤ) ∣ biasQ := by
    rw [hraw]
    split_ifs with hdvd
    · simp [hdvd]
    · simp [hdvd, hlanes.ne']
  have hmasked : m.okM = 0 ↔ ∀ j : Fin cnpFeatures, 1 ≤ j.val → ¬agree j := by
    rw [hokM, List.countP_eq_zero]
    simp [agree]
  rw [hcontrol, hmasked]
  exact ⟨fun h ↦ ⟨h.2.1, h.2.2.2⟩, fun h ↦ ⟨hbad, h.1, hokU, h.2⟩⟩

/-! ## One weight modulo 3 -/

def maskCtx : CnpCtx := ⟨8, 3, 29⟩

def maskPhases : KeystreamPhases maskCtx toyKeystreams 0 where
  ks0 b kk c := ((scaleUp 3 29 (toyKeystreams.server b (maskCtx.bitrev c) kk) : ℤ) : ZMod 29)
  error _ _ _ := 0
  ks0_eq _ _ _ := by
    rw [add_zero]
    rfl
  error_le _ _ _ := by decide

theorem mask_tests_count_toy :
    let m := firstMaskTests maskPhases toyWeights 5 (by decide) (fun c ↦ c % 2) (fun _ ↦ 2)
      (fun _ ↦ 1) (fun _ ↦ 0)
    m.okU = cnpFeatures ∧ m.check = .ok m := by
  intro m
  have hwq : ∀ j, |toyWeights j| ≤ (maskCtx.t : ℤ) / 2 := by
    intro j
    rw [toyWeights]
    split_ifs <;> decide
  have hbound : 2 * (3 : ℤ) * ((∑ j, |toyWeights j|) * (0 + 1) + 3) ≤ 29 := by decide +kernel
  obtain ⟨-, -, hokU, -, hcheck⟩ := mask_tests_count (x := maskCtx) (by decide) (by decide)
    maskPhases hwq hbound 5 (fun c ↦ c % 2) (fun _ ↦ 2) (fun _ ↦ 1) fun _ ↦ 0
  exact ⟨hokU, hcheck.mpr ⟨by decide, fun _ _ ↦ (by decide : ¬1 ≡ 0 [MOD 3])⟩⟩

end Verdict

end CnpCtx

end Ppfdaas.Transcipher
