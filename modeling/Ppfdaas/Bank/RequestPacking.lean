import Ppfdaas.Vendor.CnpCodec
import Ppfdaas.Vendor.EvalContext

/-!
# How the bank lays out a request

The part of `BankClient.run_inference` before the encryption: the checks of the
shape, the padding buffer that is reused from call to call, and the row-major
buffer handed to the wrapper.
-/

namespace Ppfdaas

structure Batch (R : Type) where
  nTxns : ℕ
  nFeat : ℕ
  entry : ℕ → ℕ → R

/-- The entries of a `rows` by `cols` array in row-major order. -/
def ravel {R : Type} (rows cols : ℕ) (entry : ℕ → ℕ → R) : List R :=
  (List.range (rows * cols)).map fun i ↦ entry (i / cols) (i % cols)

theorem ravel_getD {R : Type} [Zero R] {rows cols i j : ℕ} (entry : ℕ → ℕ → R) (hi : i < rows)
    (hj : j < cols) : (ravel rows cols entry).getD (cols * i + j) 0 = entry i j := by
  have hlt : cols * i + j < rows * cols := by
    calc cols * i + j < cols * i + cols := by omega
      _ = (i + 1) * cols := by ring
      _ ≤ rows * cols := Nat.mul_le_mul_right cols hi
  have hdiv : (cols * i + j) / cols = i := by
    rw [Nat.mul_add_div (by omega), Nat.div_eq_of_lt hj, add_zero]
  have hmod : (cols * i + j) % cols = j := by
    rw [Nat.mul_add_mod, Nat.mod_eq_of_lt hj]
  simp [ravel, hlt, hdiv, hmod]

theorem ofFn_getD {R : Type} [Zero R] {n : ℕ} (w : Fin n → R) (j : Fin n) :
    (List.ofFn w).getD j 0 = w j := by
  simp

/-- The fields of a `BankClient` that a request uses. -/
structure BankClient (R : Type) where
  packing : PackingMode160
  padBuffer : ℕ → ℕ → R

namespace BankClient

variable {R : Type} [Zero R]

/-- `__init__`: the padding buffer is `np.zeros((max_lanes, 256))`. -/
def new (packing : PackingMode160) : BankClient R := ⟨packing, fun _ _ ↦ 0⟩

def maxLanes (client : BankClient R) : ℕ := if client.packing = .cnp then 32 else 16

/-- `_pad_buffer[:n_txns] = X` and then `_pad_buffer[n_txns:] = 0.0`. -/
def fillPadBuffer (client : BankClient R) (x : Batch R) : BankClient R :=
  let filled := fun i j ↦ if i < x.nTxns then x.entry i j else client.padBuffer i j
  { client with padBuffer := fun i j ↦ if i < x.nTxns then filled i j else 0 }

def layOut (client : BankClient R) (x : Batch R) : Except String (BankClient R × List R) :=
  if x.nFeat ≠ 256 then throw ("Expected 256 features, got " ++ toString x.nFeat)
  else if x.nTxns < 1 ∨ client.maxLanes < x.nTxns then
    throw ("n_txns must be 1-" ++ toString client.maxLanes)
  else if client.packing = .cnp then .ok (client, ravel x.nTxns 256 x.entry)
  else if x.nTxns < 16 then
    let client := client.fillPadBuffer x
    .ok (client, ravel 16 256 client.padBuffer)
  else .ok (client, ravel x.nTxns 256 x.entry)

/-- The client after the requests of a history; a rejected one changes nothing. -/
def sendAll (client : BankClient R) (history : List (Batch R)) : BankClient R :=
  history.foldl (fun client x ↦
    match client.layOut x with
    | .ok (client, _) => client
    | .error _ => client) client

@[simp] theorem layOut_packing {client client' : BankClient R} {x : Batch R} {flat : List R}
    (h : client.layOut x = .ok (client', flat)) : client'.packing = client.packing := by
  unfold layOut at h
  split_ifs at h
  all_goals
    obtain ⟨rfl, rfl⟩ := Prod.mk.inj (Except.ok.inj h)
    rfl

theorem sendAll_packing (client : BankClient R) (history : List (Batch R)) :
    (client.sendAll history).packing = client.packing := by
  induction history generalizing client with
  | nil => rfl
  | cons x history ih =>
      rw [sendAll, List.foldl_cons]
      cases hlay : client.layOut x with
      | error e => exact ih client
      | ok next => exact (ih next.1).trans (layOut_packing hlay)

/-- A SLOT request is laid out in 16 rows, the rows of the batch first and no
row of an earlier batch among them. -/
theorem layOut_slot {client : BankClient R} (hslot : client.packing = .slot) {x : Batch R}
    (hfeat : x.nFeat = 256) (hpos : 1 ≤ x.nTxns) (hle : x.nTxns ≤ 16) :
    ∃ client' rows, client.layOut x = .ok (client', ravel 16 256 rows) ∧
      ∀ i j, i < x.nTxns → rows i j = x.entry i j := by
  have hrange : ¬ (x.nTxns < 1 ∨ client.maxLanes < x.nTxns) := by
    simp only [maxLanes, hslot, reduceCtorEq, if_false]
    omega
  by_cases hfull : x.nTxns < 16
  · refine ⟨client.fillPadBuffer x, (client.fillPadBuffer x).padBuffer, ?_, fun i j hi ↦ ?_⟩
    · simp only [layOut, hfeat, hrange, hslot, hfull, ne_eq, not_true_eq_false, if_false,
        reduceCtorEq, if_true]
    · simp [fillPadBuffer, hi]
  · have hn : x.nTxns = 16 := by omega
    refine ⟨client, x.entry, ?_, fun _ _ _ ↦ rfl⟩
    simp only [layOut, hfeat, hrange, hslot, hfull, ne_eq, not_true_eq_false, if_false,
      reduceCtorEq]
    rw [hn]

theorem layOut_cnp {client : BankClient R} (hcnp : client.packing = .cnp) {x : Batch R}
    (hfeat : x.nFeat = 256) (hpos : 1 ≤ x.nTxns) (hle : x.nTxns ≤ 32) :
    client.layOut x = .ok (client, ravel x.nTxns 256 x.entry) := by
  have hrange : ¬ (x.nTxns < 1 ∨ client.maxLanes < x.nTxns) := by
    simp only [maxLanes, hcnp, if_true]
    omega
  simp only [layOut, hfeat, hrange, hcnp, ne_eq, not_true_eq_false, if_false, if_true]

theorem shape_of_layOut {client client' : BankClient R} {x : Batch R} {flat : List R}
    (h : client.layOut x = .ok (client', flat)) :
    x.nFeat = 256 ∧ 1 ≤ x.nTxns ∧ x.nTxns ≤ client.maxLanes := by
  unfold layOut at h
  by_cases hfeat : x.nFeat = 256
  · by_cases hrange : x.nTxns < 1 ∨ client.maxLanes < x.nTxns
    · rw [if_neg (not_not_intro hfeat), if_pos hrange] at h
      cases h
    · exact ⟨hfeat, by omega, by omega⟩
  · rw [if_pos hfeat] at h
    cases h

end BankClient
end Ppfdaas
