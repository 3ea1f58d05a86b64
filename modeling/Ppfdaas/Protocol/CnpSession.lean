import Ppfdaas.Protocol.CoefficientWords
import Ppfdaas.Protocol.Session

/-!
# Clients of a CNP server

No handshake: the server is ready at its start and holds no keys.  The scores of
every request come out within the error of one product and one rescaling,
whatever is drawn for the mask and whoever else is served meanwhile.
-/

namespace Ppfdaas

open Cnp Wrapper ServerState ProvisioningState BankClient Handshake ErrorBudget

section Session

variable {τ Pk Sk Ct Pt Gk Coins : Type} {B : BankSeal Pk Sk Ct Pt Gk Coins}
  {p : Coefficients Sk Ct} {pk : Pk} {sk : Sk} {m : ServiceConstants Pt} {w : Fin 256 → ℚ}
  {b M W : ℚ}

/-- What the scores depend on: the keys, the model, and the range of values. -/
structure CnpAccurate (B : BankSeal Pk Sk Ct Pt Gk Coins) (p : Coefficients Sk Ct) (pk : Pk)
    (sk : Sk) (m : ServiceConstants Pt) (w : Fin 256 → ℚ) (b M W : ℚ) : Prop where
  keys : CarriesCoefficients B p pk sk
  model : HoldsCnpModel B m w b
  range : CnpRange p w b M W

theorem cnpError_nonneg (h : CnpAccurate B p pk sk m w b M W) : 0 ≤ cnpError p M W := by
  have hstep := stepError_nonneg
  have hε := h.range.error_nonneg
  have hM := h.range.entry_nonneg
  have hW := h.range.weight_nonneg
  have hscale := outputScale_pos h.keys
  rw [cnpError]
  positivity

/-- A value in the lanes stays below half of the last prime. -/
theorem scaled_lt (h : CnpAccurate B p pk sk m w b M W) {v : ℚ}
    (hv : |v| ≤ 256 * (M * W) + |b| + cnpError p M W) : 2 * (outputScale p * |v|) < p.q0 := by
  have hscale := outputScale_pos h.keys
  have hle := mul_le_mul_of_nonneg_left hv hscale.le
  have hlt := h.range.score_lt
  linarith

/-! ## The branch of the server -/

/-- The product and the rescaling leave the scores without the bias. -/
theorem CnpAccurate.evaluate (h : CnpAccurate B p pk sk m w b M W) {poly : List ℚ} {ct : Ct}
    (hmade : CnpMade B pk ct) (hpolys : p.polys ct = 2) (hfirst : B.parmsId ct = B.firstParmsId)
    (hfresh : B.scale ct = gScale)
    (hct : ∀ c, |p.carried sk ct c - roundedCoefficients poly c| ≤ p.ε)
    (hpoly : ∀ c, |coefficients poly c| ≤ M) :
    ∃ ct₁ ct₂ r, B.multiplyPlain ct m.ptWrev = .ok ct₁ ∧ B.rescaleToNext ct₁ = .ok ct₂ ∧
      CnpMade B pk ct₂ ∧ p.polys ct₂ = 2 ∧ B.parmsId ct₂ = p.secondParmsId ∧
      B.scale ct₂ = outputScale p ∧ ShowsResidues B p sk ct₂ r ∧
      ∀ k (hk : k < kMaxLanes), |(r ⟨outputIndex k, outputIndex_lt hk⟩ : ℚ) / outputScale p -
        ∑ j : Fin 256, poly.getD (kLane * k + j) 0 * w j| ≤
          256 * (M * stepError + W * (p.ε + stepError) + (p.ε + stepError) * stepError) +
            2 * p.ε := by
  have hε := h.range.error_nonneg
  have hstep := stepError_nonneg
  have hM := h.range.entry_nonneg
  have hW := h.range.weight_nonneg
  obtain ⟨wrev, hwrev, hencode⟩ := h.model.wrev
  obtain ⟨hwle, hwrounded, hwzero, hwrev'⟩ := wrev_rounded h.range hwrev
  have hne : roundedCoefficients wrev ≠ 0 := by
    obtain ⟨j, hj⟩ := h.model.nonzero
    have hlt : kLane - 1 - j.val < kN := by
      simp only [kLane, kN]
      omega
    intro hzero
    have hcoefficient := hwrev' j ⟨kLane - 1 - j, hlt⟩ rfl
    rw [hzero, Pi.zero_apply, eq_comm, div_eq_zero_iff, Int.cast_eq_zero] at hcoefficient
    exact hcoefficient.elim hj gScale_pos.ne'
  have hclose : ∀ c, |p.carried sk ct c - coefficients poly c| ≤ p.ε + stepError := fun c ↦
    (abs_sub_le _ (roundedCoefficients poly c) _).trans
      (add_le_add (hct c) (roundedCoefficients_close poly c))
  have hproduct : ∀ c, |Negacyclic.mul (p.carried sk ct) (roundedCoefficients wrev) c| ≤ p.cap :=
    fun c ↦ by
      have hcarried : ∀ c, |p.carried sk ct c| ≤ M + (p.ε + stepError) := fun c ↦
        abs_le_of_close (hclose c) (hpoly c)
      have hwindow := Negacyclic.abs_mul_window_le hcarried (by positivity) hwrounded
        (by positivity) hwzero c
      exact hwindow.trans h.range.product_le
  obtain ⟨ct₁, hrun₁, hpolys₁, hfirst₁, hscale₁, hclose₁⟩ := h.keys.multiplyPlain hmade hpolys
    hfirst hfresh (fun c ↦ (hwle c).trans h.range.weight_cap) hne hencode hproduct
  have hmade₁ := CnpMade.multiplyPlain hmade hrun₁
  obtain ⟨ct₂, r, hrun₂, hpolys₂, hsecond, hscale₂, hshows, hclose₂⟩ :=
    h.keys.rescaleToNext hmade₁ hpolys₁ hfirst₁ hscale₁ fun c ↦
      abs_le_of_close (hclose₁ c) (hproduct c)
  refine ⟨ct₁, ct₂, r, hrun₁, hrun₂, .rescaleToNext hmade₁ hrun₂, hpolys₂, hsecond, hscale₂,
    hshows, fun k hk ↦ ?_⟩
  have hlane := lane_product_close h.range hwrev hclose hpoly
    (fun j ↦ poly.getD (kLane * k + j) 0) hk fun j _ c hc ↦ by rw [coefficients, hc]
  have h₁ := hclose₁ ⟨outputIndex k, outputIndex_lt hk⟩
  have h₂ := hclose₂ ⟨outputIndex k, outputIndex_lt hk⟩
  change |_ / outputScale p - _| ≤ _ at h₂
  rw [abs_le] at hlane h₁ h₂ ⊢
  constructor <;> linarith

/-- What shows at an output does not wrap around the prime that is left. -/
theorem CnpAccurate.output_lt (h : CnpAccurate B p pk sk m w b M W) {poly : List ℚ}
    (hpoly : ∀ c, |coefficients poly c| ≤ M) {k : ℕ} (hk : k < kMaxLanes) {v : ℤ}
    (hv : |(v : ℚ) / outputScale p - (∑ j : Fin 256, poly.getD (kLane * k + j) 0 * w j + b)| ≤
      cnpError p M W) : 2 * |v| < p.q0 := by
  have hscale := outputScale_pos h.keys
  have hentry : ∀ j : Fin 256, |poly.getD (kLane * k + j) 0 * w j| ≤ M * W := fun j ↦ by
    rw [abs_mul]
    exact mul_le_mul (hpoly ⟨_, lane_lt hk j.isLt⟩) (h.range.weight_le j) (abs_nonneg _)
      h.range.entry_nonneg
  have hsum : |∑ j : Fin 256, poly.getD (kLane * k + j) 0 * w j| ≤ 256 * (M * W) := by
    refine (Finset.abs_sum_le_sum_abs _ _).trans ?_
    refine (Finset.sum_le_sum fun j _ ↦ hentry j).trans_eq ?_
    rw [Finset.sum_const, Finset.card_univ, Fintype.card_fin, nsmul_eq_mul]
    norm_num
  have hscore := (abs_add_le (∑ j : Fin 256, poly.getD (kLane * k + j) 0 * w j) b).trans
    (add_le_add_left hsum |b|)
  have hlt := scaled_lt h (abs_le_of_close hv hscore)
  rw [abs_div, abs_of_pos hscale, mul_div_cancel₀ _ hscale.ne'] at hlt
  exact_mod_cast hlt

/-- From a fresh ciphertext to residues: the scores at the outputs, whatever the
mask holds elsewhere. -/
theorem CnpAccurate.product (h : CnpAccurate B p pk sk m w b M W) {poly : List ℚ} {ct : Ct}
    (hmade : CnpMade B pk ct) (hpolys : p.polys ct = 2) (hfirst : B.parmsId ct = B.firstParmsId)
    (hfresh : B.scale ct = gScale)
    (hct : ∀ c, |p.carried sk ct c - roundedCoefficients poly c| ≤ p.ε)
    (hpoly : ∀ c, |coefficients poly c| ≤ M) (draws : MaskDraws) :
    ∃ out r, cnpProduct B.toSeal m draws ct = .ok out ∧ CnpMade B pk out ∧
      B.saveSize out ≤ CT_BUF ∧ B.scale out = outputScale p ∧
      ShowsResidues B p sk out r ∧ (∀ c, IsOutput c → 2 * |r c| < p.q0) ∧
      ∀ k (hk : k < kMaxLanes), |(r ⟨outputIndex k, outputIndex_lt hk⟩ : ℚ) / outputScale p -
        (∑ j : Fin 256, poly.getD (kLane * k + j) 0 * w j + b)| ≤ cnpError p M W := by
  have hscale := outputScale_pos h.keys
  have hMW := mul_nonneg h.range.entry_nonneg h.range.weight_nonneg
  have herror := cnpError_nonneg h
  obtain ⟨ct₁, ct₂, r, hrun₁, hrun₂, hmade₂, hpolys₂, hsecond, hscale₂, hshows, hclose⟩ :=
    h.evaluate hmade hpolys hfirst hfresh hct hpoly
  -- The mask: the bias at the outputs, and the draws elsewhere.
  have hbias : |outputScale p * b| < 4000000000000000000 := by
    have hb : 2 * (outputScale p * |b|) < p.q0 := scaled_lt h (by linarith)
    have hq0 : (p.q0 : ℚ) ≤ 2 ^ 61 := by exact_mod_cast h.keys.q0_le
    rw [abs_mul, abs_of_pos hscale]
    linarith
  obtain ⟨limb, hmask, hlt, hlimb⟩ := buildOutputMask_ok h.keys hbias draws
  obtain ⟨out, hrun, hpolys', hsecond', hscale', hshows'⟩ :=
    h.keys.addPlain hmade₂ hpolys₂ hsecond hshows hlt
  let r' : Fin kN → ℤ := fun c ↦
    if IsOutput c then r c + rounded (outputScale p) b else r c + limb c
  have hr' : ∀ c, (r c + limb c) % p.q0 = r' c % p.q0 := fun c ↦ by
    by_cases hc : IsOutput c
    · have hcast : ((rounded (outputScale p) b % p.q0).toNat : ℤ) =
          rounded (outputScale p) b % p.q0 :=
        Int.toNat_of_nonneg (Int.emod_nonneg _ (Int.natCast_ne_zero.mpr h.keys.q0_pos.ne'))
      simp only [r', if_pos hc, hlimb c hc, hcast, Int.add_emod_emod]
    · simp only [r', if_neg hc]
  have hlanes : ∀ k (hk : k < kMaxLanes),
      |(r' ⟨outputIndex k, outputIndex_lt hk⟩ : ℚ) / outputScale p -
        (∑ j : Fin 256, poly.getD (kLane * k + j) 0 * w j + b)| ≤ cnpError p M W := by
    intro k hk
    have hvalue : (r' ⟨outputIndex k, outputIndex_lt hk⟩ : ℚ) =
        r ⟨outputIndex k, outputIndex_lt hk⟩ + rounded (outputScale p) b := by
      have hout : IsOutput ⟨outputIndex k, outputIndex_lt hk⟩ := ⟨k, hk, rfl⟩
      rw [← Int.cast_add]
      exact congrArg Int.cast (if_pos hout)
    have hlane := hclose k hk
    have hrounded := abs_rounded_div_le hscale b
    rw [hvalue, add_div, cnpError]
    rw [abs_le] at hlane hrounded ⊢
    constructor <;> linarith
  have hmade' := CnpMade.addPlain hmade₂ hrun
  refine ⟨out, r', ?_, hmade', h.keys.saveSize_le hmade' hpolys' hsecond', hscale'.trans hscale₂,
    hshows'.congr hr', ?_, hlanes⟩
  · rw [hscale₂] at hrun
    simp only [cnpProduct, hrun₁, hrun₂, hsecond, hscale₂, h.model.masked, h.model.bias, if_true,
      hmask, bind, Except.bind]
    exact hrun
  · rintro c ⟨k, hk, hindex⟩
    obtain rfl : c = ⟨outputIndex k, outputIndex_lt hk⟩ := Fin.ext hindex.symm
    exact h.output_lt hpoly hk (hlanes k hk)

/-! ## One request -/

theorem packLanes_bounded {rows : List ℚ} {n : ℕ} (hlength : rows.length = n * kLane)
    (hle : n ≤ kMaxLanes) (hM : 0 ≤ M) (hrows : ∀ v ∈ rows, |v| ≤ M) {poly : List ℚ}
    (hpack : packLanes rows n = .ok poly) : poly.length = kN ∧ ∀ v ∈ poly, |v| ≤ M := by
  unfold packLanes at hpack
  split_ifs at hpack
  obtain rfl := Except.ok.inj hpack
  have hfits : n * kLane ≤ kN := by
    simp only [kMaxLanes, kLane, kN] at hle ⊢
    omega
  refine ⟨?_, fun v hv ↦ ?_⟩
  · rw [List.length_append, List.length_take, List.length_replicate, hlength, Nat.min_self]
    omega
  · rcases List.mem_append.mp hv with hv | hv
    · exact hrows v (List.mem_of_mem_take hv)
    · rw [List.eq_of_mem_replicate hv, abs_zero]
      exact hM

theorem CnpAccurate.answers (h : CnpAccurate B p pk sk m w b M W) {ctx : EvalContext160 Gk}
    (hkeys : ctx.assertNoGaloisKeys B.toSeal = .ok ()) :
    Answers B m (holding (some (pk, sk))) .cnp w b (cnpError p M W) M ctx where
  mode := h.model.mode
  entry_nonneg := h.range.entry_nonneg
  request := by
    intro client args hcnp hshape hx
    obtain ⟨hfeat, hpos, hle⟩ : RightShape 32 args.batch := hshape
    have hlay := layOut_cnp hcnp hfeat hpos hle
    have hM := h.range.entry_nonneg
    have hrows := abs_ravel_le hx
    obtain ⟨poly, hpack, hentry⟩ := packLanes_spec hpos hle args.batch.entry
    obtain ⟨hlength, hvalues⟩ := packLanes_bounded (by simp [ravel, kLane]) hle hM hrows hpack
    have hpoly : ∀ c, |coefficients poly c| ≤ M := fun c ↦ by
      rw [coefficients, List.getD_eq_getElem _ _ (c.isLt.trans_eq hlength.symm)]
      exact hvalues _ (List.getElem_mem _)
    obtain ⟨pt, hpt⟩ := encodeCoeffs_ok h.keys hlength fun v hv ↦
      (hvalues v hv).trans h.range.entry_le
    obtain ⟨ct, hct, hfirst, hfresh, hpolys, hsize, hclose⟩ := h.keys.encrypt args.coins
      (fun c ↦ (hpoly c).trans h.range.entry_le) hpt
    have hshape : ¬ (args.batch.nTxns < 1 ∨ 32 < args.batch.nTxns) := by omega
    have hmade := CnpMade.encrypt hct
    refine ⟨client, _, B.save ct, ct, hlay, ?_, ?_, h.keys.load_save hmade, hfirst, fun draws ↦ ?_⟩
    · rw [encryptRequest, if_pos hcnp]
      simp only [holding, encryptCnpBatch, hshape, if_false, bind, Except.bind]
      have hpack' : packLanes (ravel args.batch.nTxns 256 args.batch.entry) args.batch.nTxns =
        .ok poly := hpack
      simp only [hpack', hpt, hct]
      rfl
    · rwa [B.save_length]
    · obtain ⟨out, r, hout, hmade', hfits, hscale, hshows, hrange, hlanes⟩ :=
        h.product hmade hpolys hfirst hfresh hclose hpoly draws
      have hread := (if_pos hcnp : client.decryptReply B (holding (some (pk, sk))) (B.save out)
        args.batch.nTxns = _).trans (decodeLane h.keys hmade' hshows hpos hle hrange)
      refine ⟨B.save out, _, ?_, (B.save_length out).trans_le hfits, hread, ?_, fun k hk ↦ ?_⟩
      · simp only [scoreResult, h.model.mode, if_true, hkeys, hout, bind, Except.bind]
        rfl
      · rw [List.length_map, List.length_range]
      · have hk32 : k < kMaxLanes := hk.trans_le hle
        have hlane := hlanes k hk32
        have hscore : ∑ j : Fin 256, poly.getD (kLane * k + j) 0 * w j + b =
            laneScore w b args.batch k := by
          refine congrArg (· + b) (Finset.sum_congr rfl fun j _ ↦ ?_)
          exact congrArg (· * w j) (hentry k j hk j.isLt ⟨_, lane_lt hk32 j.isLt⟩ rfl)
        rw [hscore] at hlane
        rw [List.getD_eq_getElem?_getD, List.getElem?_map, List.getElem?_range hk, Option.map_some,
          Option.getD_some, dif_pos hk32, hscale]
        exact hlane

/-! ## Any number of calls, and any interleaving -/

/-- The files of a CNP client: a key pair and nothing else. -/
structure CnpHonest (B : BankSeal Pk Sk Ct Pt Gk Coins) (pk : Pk) (sk : Sk)
    (args : InitArgs Coins) : Prop where
  packing : args.packing = .cnp
  channel : openChannel args = .ok ()
  keys : loadedKeys B args = some (pk, sk)
  noGaloisKeys : args.galoisKeysFile = none

theorem readyIn_new (noKeys : Gk) :
    ReadyIn ⟨noKeys, false⟩ 0 (ServerState.new .cnp noKeys : ServerState τ Ct Gk) :=
  ⟨rfl, rfl, rfl, rfl⟩

theorem assertNoGaloisKeys_new {noKeys : Gk} (h : B.galoisKeysSize noKeys = 0) :
    (⟨noKeys, false⟩ : EvalContext160 Gk).assertNoGaloisKeys B.toSeal = .ok () := by
  rw [EvalContext160.assertNoGaloisKeys, if_neg (by simp [h])]
  rfl

section Calls

variable [DecidableEq τ] (np : Numpy) (pick : BankMessage → τ × MaskDraws)

/-- A client with a key pair, alone with a fresh CNP server: the construction
returns without a handshake, and in every sequence of calls each batch of the
right shape is answered with its scores, whatever is drawn for the mask of each,
and nothing is written behind a buffer. -/
theorem honest_cnp_session (h : CnpAccurate B p pk sk m w b M W) {args : InitArgs Coins}
    (hargs : CnpHonest B pk sk args) (wrapper : Wrapper Pk Sk) {noKeys : Gk}
    (hnoKeys : B.galoisKeysSize noKeys = 0) :
    ∃ client s', (BankClient.init B np wrapper args).2.serve (attend B m pick)
        (ServerState.new .cnp noKeys) = (.ok client, s') ∧ ReadyIn ⟨noKeys, false⟩ 0 s' ∧
      ∀ calls : List (Turn τ Coins), (∀ call ∈ calls, InRange M call.1.batch) →
        let served := session B np m (BankClient.init B np wrapper args).1 client s' calls
        List.Forall₂ (Answered np .cnp w b (cnpError p M W)) (calls.map Prod.fst) served.1 ∧
          ReadyIn ⟨noKeys, false⟩ 0 served.2 := by
  have hanswers := h.answers (assertNoGaloisKeys_new hnoKeys)
  have hcnp : (BankClient.new args.packing : BankClient ℚ).packing = .cnp := hargs.packing
  have hwarmup : ∃ client s', ((BankClient.new args.packing).warmup B np
      (holding (some (pk, sk))) args).serve (attend B m pick) (ServerState.new .cnp noKeys) =
        (.ok client, s') ∧ client.packing = .cnp ∧ ReadyIn ⟨noKeys, false⟩ 0 s' :=
    hanswers.warmup hcnp args (readyIn_new noKeys)
  obtain ⟨client, s', hserve, hcnp', hs'⟩ := hwarmup
  rw [init_of_loadedKeys B np hargs.keys]
  refine ⟨client, s', ?_, hs', fun calls hcalls ↦ hanswers.session calls hcalls hcnp' hs'⟩
  simp only [afterInitSeal, hargs.channel, hargs.noGaloisKeys]
  exact hserve

end Calls

end Session

/-! ## One client of a server in 64-bit words -/

namespace CoefficientWords

def files (key : Bool) : InitArgs Unit where
  packing := .cnp
  publicKeyFile := .ok (OwnedWords.keyFile key)
  secretKeyFile := .ok (OwnedWords.keyFile key)
  galoisKeysFile := none
  useTls := false
  tlsFiles := (none, none, none)
  canaryCoins := ()
  warmupCoins := ()
  warmupId := "warmup"

theorem cnpAccurate (key : Bool) :
    CnpAccurate bank primes key key constants (fun _ ↦ 1) (1 / 2) 1 1 where
  keys := carriesCoefficients key
  model := holdsCnpModel
  range := cnpRange

theorem cnpHonest (key : Bool) : CnpHonest bank key key (files key) where
  packing := rfl
  channel := rfl
  keys := by cases key <;> rfl
  noGaloisKeys := rfl

end CoefficientWords

open CoefficientWords in
theorem honest_cnp_session_words :
    ∃ client s', (BankClient.init bank clearNumpy (.holding none) (files true)).2.serve
        (attend bank constants fun _ ↦ ((), zeroDraws)) (ServerState.new .cnp ()) =
        (.ok client, s') ∧ ReadyIn ⟨(), false⟩ 0 s' ∧
      ∀ calls : List (Turn Unit Unit), (∀ call ∈ calls, InRange 1 call.1.batch) →
        let served := session bank clearNumpy constants
          (BankClient.init bank clearNumpy (.holding none) (files true)).1 client s' calls
        List.Forall₂ (Answered clearNumpy .cnp (fun _ ↦ 1) (1 / 2) (cnpError primes 1 1))
            (calls.map Prod.fst) served.1 ∧
          ReadyIn ⟨(), false⟩ 0 served.2 :=
  honest_cnp_session clearNumpy _ (cnpAccurate true) (cnpHonest true) (.holding none) rfl

end Ppfdaas
