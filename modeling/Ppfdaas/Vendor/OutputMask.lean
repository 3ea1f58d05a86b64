import Ppfdaas.Library.Negacyclic
import Ppfdaas.Library.UniformSampling
import Ppfdaas.Vendor.InferenceService

/-!
# The CNP mask hides the model

The decrypted response is the phase of the product plus the mask, modulo the
one prime `q` that is left after the rescale.  Two models whose responses agree
at the output coefficients differ by a shift of the draws at all others, and
shifting an accepted draw by a residue permutes the accepted draws.
-/

namespace Ppfdaas

open Cnp ServerState UniformSampling

variable {Ct Pt Gk : Type}

/-! ## What the codec writes -/

theorem residueOf_lt {scaled : ℚ} {q r : ℕ} (hq : 0 < q) (h : residueOf scaled q = .ok r) :
    r < q := by
  unfold residueOf at h
  split_ifs at h with hrange
  have hmod := Nat.mod_lt (llround scaled).natAbs hq
  obtain rfl := Except.ok.inj h
  split_ifs with hneg
  · omega
  · exact hmod

def limbDraws {q : ℕ} (draws : Fin kN → AcceptedDraw q) : MaskDraws := fun _ q' c ↦
  if h : q' = q then h ▸ draws c else zeroDraws 0 q' c

/-- With one prime left, the mask is one limb, drawn in the coefficient domain
and transformed as a whole. -/
theorem buildOutputMask_single (S : Seal Ct Pt Gk) {pid q outRes : ℕ} {scale outputValue : ℚ}
    (hpid : S.coeffModulus pid = some [q]) (hres : residueOf (outputValue * scale) q = .ok outRes)
    (draws : Fin kN → AcceptedDraw q) :
    buildOutputMask S pid scale outputValue true (limbDraws draws) =
      .ok (S.plaintext [S.ntt q (outputMaskLimb 0 outRes true fun c ↦ (draws c).value)] pid
        scale) := by
  simp [buildOutputMask, hpid, hres, finishNttPlaintext, limbDraws, bind, Except.bind, pure,
    Except.pure]

/-! ## Decryption -/

/-- What the bank's decryption is taken to do on ciphertexts with the one prime
`q`: it returns a polynomial, and a plaintext added in NTT form shows up in it
as the polynomial it was transformed from. -/
structure Decryption (S : Seal Ct Pt Gk) (q : ℕ) where
  word : q < 2 ^ 64
  phase : Ct → Fin kN → ZMod q
  addPlain : ∀ (ct : Ct) (limb : Limb), S.coeffModulus (S.parmsId ct) = some [q] →
    (∀ c, limb c < q) →
    ∃ out, S.addPlain ct (S.plaintext [S.ntt q limb] (S.parmsId ct) (S.scale ct)) = .ok out ∧
      ∀ c, phase out c = phase ct c + limb c

section Mask

variable {S : Seal Ct Pt Gk} {q : ℕ} [NeZero q] (D : Decryption S q)

/-- What the server has of a query before the mask: the decrypted product has
the phase `phase`, and the bias rounds to `biasRes` at its scale. -/
structure PreMask (m : ServiceConstants Pt) (query : Ct) (phase : Fin kN → ZMod q)
    (biasRes : ℕ) : Prop where
  masked : m.cnpMaskEnabled = true
  product : ∃ prod, (do let ct ← S.multiplyPlain query m.ptWrev
                        S.rescaleToNext ct) = .ok prod ∧
    S.coeffModulus (S.parmsId prod) = some [q] ∧
    residueOf (m.bias * S.scale prod) q = .ok biasRes ∧ D.phase prod = phase

/-- The decrypted response of the CNP branch to a query, for given draws. -/
def response (m : ServiceConstants Pt) (query : Ct) (draws : Fin kN → AcceptedDraw q) :
    Except String (Fin kN → ZMod q) :=
  (cnpProduct S m (limbDraws draws) query).map D.phase

variable {D}

/-- The response, coefficient by coefficient: the bias at the outputs, a draw
everywhere else. -/
theorem response_eq {m : ServiceConstants Pt} {query : Ct} {phase : Fin kN → ZMod q}
    {biasRes : ℕ} (h : PreMask D m query phase biasRes) (draws : Fin kN → AcceptedDraw q) :
    response D m query draws = .ok fun c ↦
      phase c + if IsOutput c then (biasRes : ZMod q) else ((draws c).val : ZMod q) := by
  obtain ⟨prod, hprod, hpid, hres, rfl⟩ := h.product
  have hq : 0 < q := NeZero.pos q
  set limb := outputMaskLimb 0 biasRes true fun c ↦ (draws c).value with hlimb
  have hlimb_lt : ∀ c, limb c < q := by
    intro c
    rw [hlimb, outputMaskLimb_apply]
    by_cases hc : IsOutput c
    · simpa only [hc, if_true] using residueOf_lt hq hres
    · simp only [hc, if_false, if_true]
      exact Nat.mod_lt (draws c).val hq
  obtain ⟨out, hadd, hphase⟩ := D.addPlain prod limb hpid hlimb_lt
  have hproduct : cnpProduct S m (limbDraws draws) query = .ok out := by
    have hmask := buildOutputMask_single S hpid hres draws
    have hsplit : cnpProduct S m (limbDraws draws) query =
        (do let ct ← (do let ct ← S.multiplyPlain query m.ptWrev
                         S.rescaleToNext ct)
            let mask ← buildOutputMask S (S.parmsId ct) (S.scale ct) m.bias true
              (limbDraws draws)
            S.addPlain ct mask) := by
      simp [cnpProduct, h.masked]
    rw [hsplit, hprod]
    simp only [bind, Except.bind, hmask]
    exact hadd
  rw [response, hproduct, Except.map]
  refine congrArg Except.ok (funext fun c ↦ ?_)
  rw [hphase, hlimb, outputMaskLimb_apply]
  by_cases hout : IsOutput c
  · simp only [hout, if_true]
  · simp only [hout, if_false, if_true, AcceptedDraw.value, ZMod.natCast_mod]

/-! ## Two models -/

instance : Fintype (AcceptedDraw q) := inferInstanceAs (Fintype (Kept (2 ^ 64) q))

instance : Nonempty (AcceptedDraw q) := inferInstanceAs (Nonempty (Kept (2 ^ 64) q))

/-- The draws of one model turned into those of the other: each is shifted by
the difference of the phases at its coefficient. -/
def shiftDraws (hword : q < 2 ^ 64) (δ : Fin kN → ZMod q) :
    (Fin kN → AcceptedDraw q) ≃ (Fin kN → AcceptedDraw q) :=
  Equiv.piCongrRight fun c ↦ (shift hword.le (δ c) : Kept (2 ^ 64) q ≃ Kept (2 ^ 64) q)

theorem shiftDraws_residue (hword : q < 2 ^ 64) (δ : Fin kN → ZMod q)
    (draws : Fin kN → AcceptedDraw q) (c : Fin kN) :
    ((shiftDraws hword δ draws c).val : ZMod q) = (draws c).val + δ c :=
  shift_residue hword.le (δ c) (draws c)

/-- `r % q` of a uniform accepted draw has no bias. -/
theorem map_uniform_value (hword : q < 2 ^ 64) :
    (PMF.uniformOfFintype (AcceptedDraw q)).map (fun r ↦ (r.val : ZMod q)) =
      PMF.uniformOfFintype (ZMod q) :=
  map_uniform_residue (W := 2 ^ 64) hword.le

variable {m m' : ServiceConstants Pt} {query : Ct} {phase phase' : Fin kN → ZMod q}
  {biasRes biasRes' : ℕ}

theorem response_shiftDraws (h : PreMask D m query phase biasRes)
    (h' : PreMask D m' query phase' biasRes')
    (hout : ∀ c, IsOutput c → phase c + biasRes = phase' c + biasRes')
    (draws : Fin kN → AcceptedDraw q) :
    response D m query draws =
      response D m' query (shiftDraws D.word (fun c ↦ phase c - phase' c) draws) := by
  rw [response_eq h, response_eq h']
  refine congrArg Except.ok (funext fun c ↦ ?_)
  by_cases hc : IsOutput c
  · simpa only [hc, if_true] using hout c hc
  · simp only [hc, if_false, shiftDraws_residue]
    ring

theorem response_uniform (h : PreMask D m query phase biasRes) {c : Fin kN}
    (hc : ¬ IsOutput c) :
    (PMF.uniformOfFintype (Fin kN → AcceptedDraw q)).map
        (fun draws ↦ (response D m query draws).map (· c)) =
      (PMF.uniformOfFintype (ZMod q)).map .ok := by
  have hvalue : (fun draws ↦ (response D m query draws).map (· c)) =
      Except.ok ∘ Equiv.addLeft (phase c) ∘ (fun r : AcceptedDraw q ↦ (r.val : ZMod q)) ∘
        fun draws ↦ draws c := by
    funext draws
    simp only [response_eq h, Except.map, hc, if_false, Function.comp_apply,
      Equiv.coe_addLeft]
  rw [hvalue, ← PMF.map_comp, ← PMF.map_comp, ← PMF.map_comp, map_uniform_eval c,
    map_uniform_value D.word, map_uniform_equiv]

/-- Models with the same outputs cannot be told apart: a bijection of the draws
turns every response of the one into the same response of the other, so the
responses have one distribution, and off the outputs each coefficient is
uniform. -/
theorem mask_hides_model (h : PreMask D m query phase biasRes)
    (h' : PreMask D m' query phase' biasRes')
    (hout : ∀ c, IsOutput c → phase c + biasRes = phase' c + biasRes') :
    (∃ e : (Fin kN → AcceptedDraw q) ≃ (Fin kN → AcceptedDraw q),
      ∀ draws, response D m query draws = response D m' query (e draws)) ∧
    (PMF.uniformOfFintype (Fin kN → AcceptedDraw q)).map (response D m query) =
      (PMF.uniformOfFintype (Fin kN → AcceptedDraw q)).map (response D m' query) ∧
    ∀ c, ¬ IsOutput c →
      (PMF.uniformOfFintype (Fin kN → AcceptedDraw q)).map
          (fun draws ↦ (response D m query draws).map (· c)) =
        (PMF.uniformOfFintype (ZMod q)).map .ok := by
  refine ⟨⟨_, response_shiftDraws h h' hout⟩, ?_, fun c hc ↦ response_uniform h hc⟩
  exact map_uniform_congr _ (response_shiftDraws h h' hout)

end Mask

/-! ## Two models over exact polynomials -/

/-- SEAL on exact polynomials modulo `X ^ 8192 + 1` and 97, kept in coefficient
form. -/
def Seal.polynomials : Seal (Fin kN → ZMod 97) (Fin kN → ZMod 97) Unit where
  firstParmsId := 0
  keyParmsId := 1
  coeffModulus := fun _ ↦ some [97]
  load := fun _ ↦ .error "not serialized"
  parmsId := fun _ ↦ 0
  scale := fun _ ↦ 1
  saveSize := fun _ ↦ 0
  save := fun _ ↦ []
  save_length := fun _ ↦ rfl
  multiplyPlain := fun ct pt ↦ .ok (Negacyclic.mul ct pt)
  rescaleToNext := .ok
  rotateVector := fun ct _ _ ↦ .ok ct
  add := fun a b ↦ .ok (a + b)
  addPlain := fun ct pt ↦ .ok (ct + pt)
  ntt := fun _ limb ↦ limb
  plaintext := fun limbs _ _ c ↦ (limbs.map fun limb ↦ (limb c : ZMod 97)).sum
  loadGaloisKeys := fun _ ↦ .ok ()
  galoisParmsId := fun _ ↦ 1
  galoisEltFromStep := fun step ↦ step.toNat
  hasKey := fun _ _ ↦ true
  galoisKeysSize := fun _ ↦ 0
  galoisSaveSize := fun _ ↦ 0

theorem addPlain_polynomials (ct : Fin kN → ZMod 97) (limb : Limb) :
    Seal.polynomials.addPlain ct (Seal.polynomials.plaintext
      [Seal.polynomials.ntt 97 limb] 0 1) = .ok fun c ↦ ct c + limb c := by
  have hsum : ∀ c, ([limb].map fun l ↦ (l c : ZMod 97)).sum = limb c := fun c ↦ by
    rw [List.map_singleton, List.sum_singleton]
  exact congrArg Except.ok (funext fun c ↦ congrArg (ct c + ·) (hsum c))

def exactDecryption : Decryption Seal.polynomials 97 where
  word := by norm_num
  phase := id
  addPlain := fun ct limb _ _ ↦
    ⟨fun c ↦ ct c + limb c, addPlain_polynomials ct limb, fun _ ↦ rfl⟩

theorem phase_exactDecryption (ct : Fin kN → ZMod 97) : exactDecryption.phase ct = ct := rfl

def exactModel (wrev : Fin kN → ZMod 97) : ServiceConstants (Fin kN → ZMod 97) :=
  ⟨.cnp, 3, 0, 0, wrev, true⟩

theorem preMask_exactModel (wrev : Fin kN → ZMod 97) :
    PreMask exactDecryption (exactModel wrev) (Pi.single 0 1) wrev 3 where
  masked := rfl
  product := by
    refine ⟨Negacyclic.mul (Pi.single 0 1) wrev, rfl, rfl, ?_, ?_⟩
    · norm_num [Seal.polynomials, exactModel, residueOf, llround]
      rfl
    · rw [phase_exactDecryption, Negacyclic.single_mul]

/-- A weight that only shows at coefficient 5 stays hidden. -/
theorem mask_hides_fifth_coefficient :
    (PMF.uniformOfFintype (Fin kN → AcceptedDraw 97)).map
        (response exactDecryption (exactModel 0) (Pi.single 0 1)) =
      (PMF.uniformOfFintype (Fin kN → AcceptedDraw 97)).map
        (response exactDecryption (exactModel (Pi.single 5 1)) (Pi.single 0 1)) := by
  refine (mask_hides_model (preMask_exactModel 0) (preMask_exactModel (Pi.single 5 1)) ?_).2.1
  rintro c ⟨k, _, hk⟩
  have hne : c ≠ 5 := by
    rintro rfl
    have hfive : outputIndex k = 5 := hk
    simp only [outputIndex, kLane] at hfive
    omega
  simp [hne]

end Ppfdaas
