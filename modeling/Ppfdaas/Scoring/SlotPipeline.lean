import Ppfdaas.Bank.RequestPacking
import Ppfdaas.Library.WindowSum
import Ppfdaas.Vendor.ServiceRuns

/-!
# The SLOT pipeline on exact values

A ciphertext is taken as the vector of its 4096 slots: products and sums are
slot by slot, a rotation moves the slots cyclically to the left, and rescaling
changes no value.  The service's own SLOT circuit then runs on an instance of
the SEAL interface.
-/

namespace Ppfdaas

open ServerState

def kSlots : ℕ := 4096

/-- The slots of a ciphertext, numbered modulo 4096. -/
abbrev Slots (R : Type) := ZMod kSlots → R

instance : NeZero kSlots := ⟨by decide⟩

variable {R : Type} [CommRing R]

/-- SEAL on exact slot values.  Nothing here is ever serialized. -/
def Seal.slots (R : Type) [CommRing R] : Seal (Slots R) (Slots R) Unit where
  firstParmsId := 0
  keyParmsId := 1
  coeffModulus := fun _ ↦ none
  load := fun _ ↦ .error "not serialized"
  parmsId := fun _ ↦ 0
  scale := fun _ ↦ 1
  saveSize := fun _ ↦ 0
  save := fun _ ↦ []
  save_length := fun _ ↦ rfl
  multiplyPlain := fun ct pt ↦ .ok (ct * pt)
  rescaleToNext := .ok
  rotateVector := fun ct step _ ↦ .ok (WindowSum.rotate (step : ZMod kSlots) ct)
  add := fun a b ↦ .ok (a + b)
  addPlain := fun ct pt ↦ .ok (ct + pt)
  ntt := fun _ limb ↦ limb
  plaintext := fun _ _ _ ↦ 0
  loadGaloisKeys := fun _ ↦ .ok ()
  galoisParmsId := fun _ ↦ 1
  galoisEltFromStep := fun step ↦ step.toNat
  hasKey := fun _ _ ↦ true
  galoisKeysSize := fun _ ↦ 8
  galoisSaveSize := fun _ ↦ 0

/-- `load_weights_as_plaintext`: `tiled[k * 256 + j] = w[j]` for 16 lanes. -/
def tileWeights (w : List R) : Slots R := fun i ↦ w.getD (i.val % 256) 0

/-- `bias_vec[k * 256] = bias_`, zero elsewhere. -/
def biasVector (b : R) : Slots R := fun i ↦ if i.val % 256 = 0 then b else 0

def slotConstants (w : List R) (b : R) : ServiceConstants (Slots R) where
  packingMode := .slot
  bias := 0
  ptWeights := tileWeights w
  ptBias := biasVector b
  ptWrev := 0
  cnpMaskEnabled := true

/-- `encrypt_batch` up to the encryption. -/
def encryptBatch (features : List R) : Except String (Slots R) :=
  if features.length ≠ kSlots then throw "encrypt_batch: expected (4096,) float64"
  else .ok fun i ↦ features.getD i.val 0

/-- `decrypt_batch` after the decryption. -/
def decryptBatch (decoded : Slots R) (nTxns : ℕ) : Except String (List R) :=
  if nTxns < 1 ∨ 16 < nTxns then throw "decrypt_batch: n_txns must be 1-16"
  else .ok <| (List.range nTxns).map fun k ↦ decoded (k * 256 : ℕ)

/-- One request of a client of a SLOT server, from the batch to the raw scores. -/
def slotPipeline (w : List R) (b : R) (client : BankClient R) (x : Batch R) :
    Except String (List R) := do
  let (_, flat) ← client.layOut x
  let ct ← encryptBatch flat
  let acc ← slotCircuit (Seal.slots R) (slotConstants w b) () ct
  decryptBatch acc x.nTxns

/-! ## The fold -/

theorem pureTreeSum_slots (ct : Slots R) :
    pureTreeSum (Seal.slots R) () ct =
      .ok (WindowSum.fold (STEPS.map fun step ↦ (step : ZMod kSlots)) ct) := by
  have hsteps : ∀ (steps : List ℤ) (acc : Slots R),
      steps.foldlM (fun acc step ↦ do
        let tmp ← (Seal.slots R).rotateVector acc step ()
        (Seal.slots R).add acc tmp) acc =
      (.ok (WindowSum.fold (steps.map fun step ↦ (step : ZMod kSlots)) acc) :
        Except String (Slots R)) := by
    intro steps
    induction steps with
    | nil => exact fun _ ↦ rfl
    | cons step steps ih => exact fun acc ↦ ih _
  exact hsteps STEPS ct

/-- After the fold, slot `i` holds the sum of the 256 slots from `i` on. -/
theorem pureTreeSum_window (ct : Slots R) :
    pureTreeSum (Seal.slots R) () ct =
      .ok fun i ↦ ∑ j ∈ Finset.range 256, ct (i + j) := by
  have hsteps : (STEPS.map fun step ↦ (step : ZMod kSlots)) =
      (List.range 8).map fun j ↦ 2 ^ j • (1 : ZMod kSlots) := by
    decide
  rw [pureTreeSum_slots, hsteps, WindowSum.fold_doubling]
  simp

theorem slotCircuit_slots (w : List R) (b : R) (ct : Slots R) :
    slotCircuit (Seal.slots R) (slotConstants w b) () ct =
      .ok fun i ↦
        (∑ j ∈ Finset.range 256, ct (i + j) * tileWeights w (i + j)) + biasVector b i := by
  change (do
    let acc ← pureTreeSum (Seal.slots R) () (ct * tileWeights w)
    Except.ok (acc + biasVector b) : Except String (Slots R)) = _
  rw [pureTreeSum_window]
  rfl

/-! ## The scores -/

def laneScore (w : Fin 256 → R) (b : R) (x : Batch R) (k : ℕ) : R :=
  ∑ j : Fin 256, x.entry k j * w j + b

theorem lane_val {k j : ℕ} (hk : k < 16) (hj : j < 256) :
    ((k * 256 : ℕ) + (j : ZMod kSlots) : ZMod kSlots).val = 256 * k + j := by
  rw [← Nat.cast_add, ZMod.val_natCast_of_lt]
  · omega
  · simp only [kSlots]
    omega

/-- Every lane of a SLOT request comes out as its score, whatever the padding
buffer held before. -/
theorem slotPipeline_score (w : Fin 256 → R) (b : R) {client : BankClient R}
    (hslot : client.packing = .slot) {x : Batch R} (hfeat : x.nFeat = 256) (hpos : 1 ≤ x.nTxns)
    (hle : x.nTxns ≤ 16) :
    slotPipeline (List.ofFn w) b client x =
      .ok ((List.range x.nTxns).map (laneScore w b x)) := by
  obtain ⟨client', rows, hlay, hrows⟩ := BankClient.layOut_slot hslot hfeat hpos hle
  have hencrypt : encryptBatch (ravel 16 256 rows) =
      .ok fun i ↦ (ravel 16 256 rows).getD i.val 0 := by
    simp [encryptBatch, ravel, kSlots]
  have hrange : ¬ (x.nTxns < 1 ∨ 16 < x.nTxns) := by omega
  simp only [slotPipeline, hlay, hencrypt, slotCircuit_slots, decryptBatch, hrange, if_false,
    bind, Except.bind]
  refine congrArg Except.ok (List.map_congr_left fun k hk ↦ ?_)
  have hkn : k < x.nTxns := List.mem_range.mp hk
  have hk16 : k < 16 := by omega
  have hbias : biasVector b ((k * 256 : ℕ) : ZMod kSlots) = b := by
    have hval := lane_val (j := 0) hk16 (by omega)
    simp only [Nat.cast_zero, add_zero] at hval
    rw [biasVector, hval, Nat.mul_mod_right, if_pos rfl]
  rw [hbias, laneScore, ← Fin.sum_univ_eq_sum_range fun j ↦
    (ravel 16 256 rows).getD (((k * 256 : ℕ) : ZMod kSlots) + (j : ZMod kSlots)).val 0 *
      tileWeights (List.ofFn w) (((k * 256 : ℕ) : ZMod kSlots) + (j : ZMod kSlots))]
  refine congrArg (· + b) (Finset.sum_congr rfl fun j _ ↦ ?_)
  have hval := lane_val hk16 j.isLt
  rw [hval, ravel_getD rows hk16 j.isLt, hrows k j hkn, tileWeights, hval, Nat.mul_add_mod,
    Nat.mod_eq_of_lt j.isLt, ofFn_getD]

end Ppfdaas
