import Ppfdaas.Vendor.CnpCodec

/-!
# The wrapper module of the bank

`seal_wrapper_160.cpp`: the key handles are globals of the extension module.
What it uses of SEAL beside `Seal` are the fields of `BankSeal`; doubles are
exact rationals.
-/

namespace Ppfdaas

structure BankSeal (Pk Sk Ct Pt Gk Coins : Type) extends Seal Ct Pt Gk where
  loadPublicKey : Bytes → Except String Pk
  loadSecretKey : Bytes → Except String Sk
  encode : List ℚ → ℚ → Except String Pt
  decode : Pt → Except String (List ℚ)
  encrypt : Pk → Coins → Pt → Except String Ct
  decrypt : Sk → Ct → Except String Pt
  /-- The checks and the inverse NTT of `cnp::inverse_ntt_single_limb`, with `q0`. -/
  inverseNttSingleLimb : Pt → Except String (ℕ × Limb)
  plaintextScale : Pt → ℚ

/-- A plaintext carries hundredths, a decryption under a foreign key is off. -/
def clearBank : BankSeal UInt8 UInt8 (UInt8 × ℕ) ℕ UInt8 Unit where
  toSeal := .clear
  loadPublicKey := Seal.clear.loadGaloisKeys
  loadSecretKey := Seal.clear.loadGaloisKeys
  encode := fun values _ ↦ .ok ⌊100 * values.headD 0⌋.toNat
  decode := fun pt ↦ .ok (List.replicate 4096 ((pt : ℚ) / 100))
  encrypt := fun pk _ pt ↦ .ok (pk, pt)
  decrypt := fun sk (owner, value) ↦ .ok (if sk = owner then value else value + 1)
  inverseNttSingleLimb := fun pt ↦ .ok (97, fun _ ↦ pt)
  plaintextScale := fun _ ↦ 100

/-- `g_encryptor` and `g_decryptor`. -/
structure Wrapper (Pk Sk : Type) where
  gEncryptor : Option Pk
  gDecryptor : Option Sk

namespace Wrapper

def gScale : ℚ := 2 ^ 40

/-- The module with the given keys loaded; it is imported with none. -/
def holding {Pk Sk : Type} : Option (Pk × Sk) → Wrapper Pk Sk
  | none => ⟨none, none⟩
  | some (pk, sk) => ⟨some pk, some sk⟩

section Seal

variable {Pk Sk Ct Pt Gk Coins : Type} (B : BankSeal Pk Sk Ct Pt Gk Coins)

def loadKeys (pkBytes skBytes : Bytes) : Except String (Pk × Sk) := do
  let pk ← B.loadPublicKey pkBytes
  let sk ← B.loadSecretKey skBytes
  pure (pk, sk)

/-- `init_seal`: the handles are replaced when both keys have been loaded. -/
def initSeal (w : Wrapper Pk Sk) (pkBytes skBytes : Bytes) : Wrapper Pk Sk × Except String Unit :=
  match loadKeys B pkBytes skBytes with
  | .error e => (w, .error e)
  | .ok keys => (holding (some keys), .ok ())

def encryptBatch (w : Wrapper Pk Sk) (coins : Coins) (features : List ℚ) : Except String Bytes :=
  match w.gEncryptor with
  | none => throw "call init_seal() first"
  | some pk =>
      if features.length ≠ 4096 then throw "encrypt_batch: expected (4096,) float64"
      else do
        let pt ← B.encode features gScale
        let ct ← B.encrypt pk coins pt
        pure (B.save ct)

def decryptBatch (w : Wrapper Pk Sk) (ctBytes : Bytes) (nTxns : ℕ) : Except String (List ℚ) :=
  match w.gDecryptor with
  | none => throw "call init_seal() first"
  | some sk =>
      if nTxns < 1 ∨ 16 < nTxns then throw "decrypt_batch: n_txns must be 1-16"
      else do
        let ct ← B.load ctBytes
        let pt ← B.decrypt sk ct
        let decoded ← B.decode pt
        pure ((List.range nTxns).map fun k ↦ decoded.getD (k * 256) 0)

def encryptCnpBatch (w : Wrapper Pk Sk) (coins : Coins) (features : List ℚ) (nLanes : ℕ) :
    Except String Bytes :=
  match w.gEncryptor with
  | none => throw "call init_seal() first"
  | some pk =>
      if nLanes < 1 ∨ 32 < nLanes then
        throw "encrypt_cnp_batch: expected (n_lanes<=32, 256) float64"
      else do
        let poly ← Cnp.packLanes features nLanes
        let pt ← Cnp.encodeCoeffs B.toSeal poly gScale B.firstParmsId
        let ct ← B.encrypt pk coins pt
        pure (B.save ct)

/-- `cnp::decode_coeffs`: centred modulo `q0`, over the scale. -/
def decodeCoeffs (pt : Pt) : Except String (List ℚ) := do
  let (q0, raw) ← B.inverseNttSingleLimb pt
  pure <| List.ofFn fun c ↦
    let centred : ℤ := if raw c > q0 / 2 then (raw c : ℤ) - q0 else raw c
    (centred : ℚ) / B.plaintextScale pt

def decryptCnpBatch (w : Wrapper Pk Sk) (ctBytes : Bytes) (nTxns : ℕ) :
    Except String (List ℚ) :=
  match w.gDecryptor with
  | none => throw "call init_seal() first"
  | some sk =>
      if nTxns < 1 ∨ 32 < nTxns then throw "decrypt_cnp_batch: n_txns must be 1-32"
      else do
        let ct ← B.load ctBytes
        let pt ← B.decrypt sk ct
        let all ← decodeCoeffs B pt
        Cnp.decodeLaneOutputs all nTxns

end Seal

end Wrapper

end Ppfdaas
