import Mathlib.Data.Rat.Defs
import Mathlib.Tactic

/-!
# What the service uses of SEAL

SEAL is not part of the repository.  The operations the service calls are the
fields of `Seal`, over arbitrary types of ciphertexts, plaintexts and Galois
keys; a thrown exception is an `Except` error carrying `what()`.
-/

namespace Ppfdaas

abbrev Bytes := List UInt8

/-- The ring dimension: `set_poly_modulus_degree(8192)`. -/
def kN : ℕ := 8192

instance : NeZero kN := ⟨by decide⟩

/-- One RNS limb: a residue for every coefficient. -/
abbrev Limb := Fin kN → ℕ

structure Seal (Ct Pt Gk : Type) where
  firstParmsId : ℕ
  keyParmsId : ℕ
  coeffModulus : ℕ → Option (List ℕ)
  load : Bytes → Except String Ct
  parmsId : Ct → ℕ
  scale : Ct → ℚ
  saveSize : Ct → ℕ
  save : Ct → Bytes
  save_length : ∀ ct, (save ct).length = saveSize ct
  multiplyPlain : Ct → Pt → Except String Ct
  rescaleToNext : Ct → Except String Ct
  rotateVector : Ct → ℤ → Gk → Except String Ct
  add : Ct → Ct → Except String Ct
  addPlain : Ct → Pt → Except String Ct
  /-- `ntt_negacyclic_harvey` with the tables of one modulus. -/
  ntt : ℕ → Limb → Limb
  /-- A plaintext from its limbs, tagged with its `parms_id` and scale. -/
  plaintext : List Limb → ℕ → ℚ → Pt
  loadGaloisKeys : Bytes → Except String Gk
  galoisParmsId : Gk → ℕ
  galoisEltFromStep : ℤ → ℕ
  hasKey : Gk → ℕ → Bool
  galoisKeysSize : Gk → ℕ
  galoisSaveSize : Gk → ℕ

/-- An instance in the clear: a ciphertext is its owner's number and a value,
written in two bytes; a key set is its owner's number.  A rotation under
another owner's keys spoils the value, as key switching does. -/
def Seal.clear : Seal (UInt8 × ℕ) ℕ UInt8 where
  firstParmsId := 0
  keyParmsId := 1
  coeffModulus := fun _ ↦ some [97]
  load
    | [owner, low, high] => .ok (owner, low.toNat + 256 * high.toNat)
    | _ => .error "unexpected size"
  parmsId := fun _ ↦ 0
  scale := fun _ ↦ 1
  saveSize := fun _ ↦ 3
  save := fun (owner, value) ↦ [owner, UInt8.ofNat value, UInt8.ofNat (value / 256)]
  save_length := fun _ ↦ rfl
  multiplyPlain := fun (owner, value) w ↦ .ok (owner, value * w)
  rescaleToNext := .ok
  rotateVector := fun (owner, value) _ keys ↦
    .ok (owner, if keys = owner then value else value + 1)
  add := fun (owner, a) (_, b) ↦ .ok (owner, a + b)
  addPlain := fun (owner, value) b ↦ .ok (owner, value + b)
  ntt := fun _ limb ↦ limb
  plaintext := fun limbs _ _ ↦ (limbs.map fun limb ↦ limb ⟨255, by decide⟩).sum
  loadGaloisKeys
    | [owner] => .ok owner
    | _ => .error "unexpected size"
  galoisParmsId := fun _ ↦ 1
  galoisEltFromStep := fun step ↦ step.toNat
  hasKey := fun keys _ ↦ keys ≠ 0
  galoisKeysSize := fun keys ↦ if keys = 0 then 0 else 8
  galoisSaveSize := fun _ ↦ 1

end Ppfdaas
