import Mathlib.Data.List.GetD
import Ppfdaas.Library.Negacyclic
import Ppfdaas.Scoring.SlotPipeline

/-!
# The CNP pipeline on exact values

A ciphertext is taken as the coefficient vector of its polynomial modulo
`X ^ 8192 + 1`.  Lane `k` of the product with the reversed weights comes out at
coefficient `256k + 255`, where nothing wraps around and the mask holds the
bias.
-/

namespace Ppfdaas

open Cnp

variable {R : Type} [CommRing R]

def coefficients (poly : List R) : Fin kN → R := fun c ↦ poly.getD c 0

/-- The CNP branch of `RunInference`: one product and one mask. -/
def cnpCircuit (w : List R) (b : R) (draws : Fin kN → R) (ct : Fin kN → R) :
    Except String (Fin kN → R) := do
  let wrev ← weightsToWrev w
  return Negacyclic.mul ct (coefficients wrev) + outputMaskLimb 0 b true draws

/-- `decrypt_cnp_batch` after the decryption. -/
def decryptCnpBatch (decoded : Fin kN → R) (nTxns : ℕ) : Except String (List R) :=
  if nTxns < 1 ∨ 32 < nTxns then throw "decrypt_cnp_batch: n_txns must be 1-32"
  else decodeLaneOutputs (List.ofFn decoded) nTxns

/-- One request of a client of a CNP server, from the batch to the raw scores. -/
def cnpPipeline (w : List R) (b : R) (draws : Fin kN → R) (client : BankClient R)
    (x : Batch R) : Except String (List R) := do
  let (_, flat) ← client.layOut x
  let poly ← packLanes flat x.nTxns
  let out ← cnpCircuit w b draws (coefficients poly)
  decryptCnpBatch out x.nTxns

/-! ## Where the encoders put their values -/

theorem getD_set (l : List R) {i : ℕ} (hi : i < l.length) (a : R) (c : ℕ) :
    (l.set i a).getD c 0 = if i = c then a else l.getD c 0 := by
  by_cases h : i = c
  · subst h
    simp [hi]
  · simp [h, List.getElem?_set_ne h]

theorem wrevLoop_getD (w : List R) {m : ℕ} (hm : m ≤ kLane) :
    let poly := (List.range m).foldl
      (fun (poly : List R) j ↦ poly.set (kLane - 1 - j) (w.getD j 0)) (List.replicate kN 0)
    poly.length = kN ∧ ∀ c, poly.getD c 0 =
      if c < kLane ∧ kLane - 1 - c < m then w.getD (kLane - 1 - c) 0 else 0 := by
  induction m with
  | zero => exact ⟨List.length_replicate, fun c ↦ by
      simp only [List.range_zero, List.foldl_nil, List.getD_eq_getElem?_getD,
        List.getElem?_getD_replicate_default_eq, Nat.not_lt_zero, and_false, if_false]⟩
  | succ m ih =>
      obtain ⟨hlength, hgetD⟩ := ih (by omega)
      rw [List.range_succ, List.foldl_append, List.foldl_cons, List.foldl_nil]
      refine ⟨List.length_set.trans hlength, fun c ↦ ?_⟩
      have hpos : kLane - 1 - m < kN := by
        simp only [kLane, kN]
        omega
      rw [getD_set _ (hlength.symm ▸ hpos), hgetD]
      by_cases hc : kLane - 1 - m = c
      · have hback : kLane - 1 - c = m := by omega
        rw [if_pos hc, hback, if_pos ⟨by omega, by omega⟩]
      · rw [if_neg hc]
        exact if_congr (by omega) rfl rfl

theorem weightsToWrev_spec (w : Fin kLane → R) :
    ∃ wrev, weightsToWrev (List.ofFn w) = .ok wrev ∧
      (∀ j : Fin kLane, ∀ c : Fin kN, c.val = kLane - 1 - j → coefficients wrev c = w j) ∧
      ∀ c : Fin kN, kLane ≤ c.val → coefficients wrev c = 0 := by
  have hlength : ¬ (List.ofFn w).length ≠ kLane := by simp
  obtain ⟨-, hgetD⟩ := wrevLoop_getD (List.ofFn w) (le_refl kLane)
  refine ⟨_, by rw [weightsToWrev, if_neg hlength], fun j c hc ↦ ?_, fun c hc ↦ ?_⟩
  · have hback : kLane - 1 - c.val = j := by omega
    rw [coefficients, hgetD, if_pos ⟨by omega, by omega⟩, hback, ofFn_getD]
  · rw [coefficients, hgetD, if_neg (by omega)]

/-- Row `k`, feature `j` stands at coefficient `256k + j`. -/
theorem packLanes_spec {n : ℕ} (hpos : 1 ≤ n) (hle : n ≤ kMaxLanes) (entry : ℕ → ℕ → R) :
    ∃ poly, packLanes (ravel n kLane entry) n = .ok poly ∧
      ∀ k j, k < n → j < kLane → ∀ c : Fin kN, c.val = kLane * k + j →
        coefficients poly c = entry k j := by
  have hrange : ¬ (n < 1 ∨ kMaxLanes < n) := by omega
  refine ⟨_, by rw [packLanes, if_neg hrange], fun k j hk hj c hc ↦ ?_⟩
  have hlength : (ravel n kLane entry).length = n * kLane := by simp [ravel]
  have hlt : kLane * k + j < n * kLane := by
    calc kLane * k + j < kLane * k + kLane := by omega
      _ = (k + 1) * kLane := by ring
      _ ≤ n * kLane := Nat.mul_le_mul_right kLane hk
  rw [coefficients, hc, List.take_of_length_le hlength.le, List.getD_append _ _ _ _ (by omega),
    ravel_getD entry hk hj]

/-! ## The product -/

/-- Coefficient `256k + 255` of the product is lane `k`'s dot product: the
weights end before any wrapped term could reach it. -/
theorem mul_output (x wrev : Fin kN → R) (w : Fin kLane → R) (entry : ℕ → R) {k : ℕ}
    (hk : k < kMaxLanes)
    (hx : ∀ j < kLane, ∀ c : Fin kN, c.val = kLane * k + j → x c = entry j)
    (hw : ∀ j : Fin kLane, ∀ c : Fin kN, c.val = kLane - 1 - j → wrev c = w j)
    (hzero : ∀ c : Fin kN, kLane ≤ c.val → wrev c = 0) :
    Negacyclic.mul x wrev ⟨outputIndex k, outputIndex_lt hk⟩ = ∑ j : Fin kLane, entry j * w j := by
  have hlane : kLane * k + kLane ≤ kN := by
    simp only [kMaxLanes, kLane, kN] at hk ⊢
    omega
  have hpos : 0 < kLane := by decide
  have hindex : (⟨outputIndex k, outputIndex_lt hk⟩ : Fin kN) =
      ⟨kLane * k + (kLane - 1), by omega⟩ := Fin.ext (by simp only [outputIndex, kLane])
  rw [hindex, Negacyclic.mul_window x wrev (by decide) hlane hzero]
  refine Finset.sum_congr rfl fun j _ ↦ ?_
  rw [hx j j.isLt _ rfl, hw j _ rfl]

/-! ## The scores -/

/-- Every lane of a CNP request comes out as its score, whatever was drawn for
the mask. -/
theorem cnpPipeline_score (w : Fin 256 → R) (b : R) (draws : Fin kN → R) {client : BankClient R}
    (hcnp : client.packing = .cnp) {x : Batch R} (hfeat : x.nFeat = 256) (hpos : 1 ≤ x.nTxns)
    (hle : x.nTxns ≤ 32) :
    cnpPipeline (List.ofFn w) b draws client x =
      .ok ((List.range x.nTxns).map (laneScore w b x)) := by
  have hlay := BankClient.layOut_cnp hcnp hfeat hpos hle
  have hmax : kMaxLanes = 32 := rfl
  obtain ⟨poly, hpack, hpoly⟩ : ∃ poly, packLanes (ravel x.nTxns 256 x.entry) x.nTxns = .ok poly ∧
      ∀ k j, k < x.nTxns → j < 256 → ∀ c : Fin kN, c.val = 256 * k + j →
        coefficients poly c = x.entry k j := packLanes_spec hpos hle x.entry
  obtain ⟨wrev, hwrev, hw, hzero⟩ : ∃ wrev, weightsToWrev (List.ofFn w) = .ok wrev ∧
      (∀ j : Fin 256, ∀ c : Fin kN, c.val = 255 - j → coefficients wrev c = w j) ∧
      ∀ c : Fin kN, 256 ≤ c.val → coefficients wrev c = 0 := weightsToWrev_spec w
  have hrange : ¬ (x.nTxns < 1 ∨ 32 < x.nTxns) := by omega
  have hlanes : ¬ (x.nTxns < 1 ∨ kMaxLanes < x.nTxns) := by omega
  have hcircuit : cnpCircuit (List.ofFn w) b draws (coefficients poly) =
      .ok (Negacyclic.mul (coefficients poly) (coefficients wrev) +
        outputMaskLimb 0 b true draws) := by
    rw [cnpCircuit, hwrev]
    rfl
  simp only [cnpPipeline, hlay, hpack, hcircuit, decryptCnpBatch, hrange, decodeLaneOutputs,
    hlanes, if_false, bind, Except.bind]
  refine congrArg Except.ok (List.map_congr_left fun k hk ↦ ?_)
  have hkn : k < x.nTxns := List.mem_range.mp hk
  have hk32 : k < kMaxLanes := by omega
  have hproduct := mul_output (coefficients poly) (coefficients wrev) w (x.entry k) hk32
    (fun j hj c hc ↦ hpoly k j hkn hj c hc) hw hzero
  have hmask := outputMaskLimb_apply 0 b true draws ⟨outputIndex k, outputIndex_lt hk32⟩
  rw [if_pos ⟨k, hk32, rfl⟩] at hmask
  have hread := ofFn_getD (Negacyclic.mul (coefficients poly) (coefficients wrev) +
    outputMaskLimb 0 b true draws) ⟨outputIndex k, outputIndex_lt hk32⟩
  simp only at hread
  rw [hread, Pi.add_apply, hproduct, hmask]
  rfl

/-- In the ring modulo `X ^ 8192 + 1` the circuit is one product and one sum. -/
theorem toQuotient_cnpCircuit (w : Fin 256 → R) (b : R) (draws ct : Fin kN → R) :
    ∃ wrev out, weightsToWrev (List.ofFn w) = .ok wrev ∧
      cnpCircuit (List.ofFn w) b draws ct = .ok out ∧
      Negacyclic.toQuotient out = Negacyclic.toQuotient ct *
        Negacyclic.toQuotient (coefficients wrev) +
        Negacyclic.toQuotient (outputMaskLimb 0 b true draws) := by
  obtain ⟨wrev, hwrev, -⟩ := weightsToWrev_spec w
  have hwrev' : weightsToWrev (List.ofFn w) = .ok wrev := hwrev
  refine ⟨wrev, _, hwrev', by rw [cnpCircuit, hwrev']; rfl, ?_⟩
  rw [Negacyclic.toQuotient_add, Negacyclic.toQuotient_mul]

/-! ## The two modes agree -/

theorem le_of_slotPipeline {w : List R} {b : R} {client : BankClient R}
    (hslot : client.packing = .slot) {x : Batch R} {scores : List R}
    (h : slotPipeline w b client x = .ok scores) : x.nTxns ≤ 16 := by
  cases hlay : client.layOut x with
  | error e => simp [slotPipeline, hlay, bind, Except.bind] at h
  | ok laidOut =>
      obtain ⟨-, -, hle⟩ := BankClient.shape_of_layOut hlay
      simpa [BankClient.maxLanes, hslot] using hle

/-- Both pipelines return the scores of every request they accept, and so the
same scores on the requests both accept, whatever was sent before and whatever
was drawn for the mask. -/
theorem pipelines_agree (w : Fin 256 → R) (b : R) (slotHistory cnpHistory : List (Batch R))
    (draws : Fin kN → R) (x : Batch R) (hfeat : x.nFeat = 256) (hpos : 1 ≤ x.nTxns) :
    let slotClient := (BankClient.new .slot).sendAll slotHistory
    let cnpClient := (BankClient.new .cnp).sendAll cnpHistory
    (x.nTxns ≤ 16 → slotPipeline (List.ofFn w) b slotClient x =
      .ok ((List.range x.nTxns).map (laneScore w b x))) ∧
    (x.nTxns ≤ 32 → cnpPipeline (List.ofFn w) b draws cnpClient x =
      .ok ((List.range x.nTxns).map (laneScore w b x))) ∧
    ∀ scores scores', slotPipeline (List.ofFn w) b slotClient x = .ok scores →
      cnpPipeline (List.ofFn w) b draws cnpClient x = .ok scores' → scores = scores' := by
  intro slotClient cnpClient
  have hslot : slotClient.packing = .slot := BankClient.sendAll_packing (.new .slot) slotHistory
  have hcnp : cnpClient.packing = .cnp := BankClient.sendAll_packing (.new .cnp) cnpHistory
  refine ⟨slotPipeline_score w b hslot hfeat hpos, cnpPipeline_score w b draws hcnp hfeat hpos, ?_⟩
  intro scores scores' hscores hscores'
  have hle := le_of_slotPipeline hslot hscores
  rw [slotPipeline_score w b hslot hfeat hpos hle] at hscores
  rw [cnpPipeline_score w b draws hcnp hfeat hpos (by omega)] at hscores'
  exact Except.ok.inj (hscores.symm.trans hscores')

/-- Two rows of ones and twos against unit weights, after a full batch. -/
theorem pipelines_agree_two_rows :
    let x : Batch ℤ := ⟨2, 256, fun i _ ↦ i + 1⟩
    slotPipeline (List.ofFn fun _ : Fin 256 ↦ 1) 5
        ((BankClient.new .slot).sendAll [⟨15, 256, fun _ _ ↦ 9⟩]) x = .ok [261, 517] ∧
      cnpPipeline (List.ofFn fun _ : Fin 256 ↦ 1) 5 (fun c ↦ (c.val : ℤ))
        ((BankClient.new .cnp).sendAll [⟨32, 256, fun _ _ ↦ 9⟩]) x = .ok [261, 517] := by
  intro x
  obtain ⟨hslot, hcnp, -⟩ := pipelines_agree (fun _ ↦ 1) 5 [⟨15, 256, fun _ _ ↦ 9⟩]
    [⟨32, 256, fun _ _ ↦ 9⟩] (fun c ↦ (c.val : ℤ)) x rfl (by decide)
  have hscores : (List.range x.nTxns).map (laneScore (fun _ ↦ 1) 5 x) = [261, 517] := by
    simp [x, laneScore, List.range_succ]
  exact ⟨(hslot (by decide)).trans (congrArg _ hscores),
    (hcnp (by decide)).trans (congrArg _ hscores)⟩

end Ppfdaas
