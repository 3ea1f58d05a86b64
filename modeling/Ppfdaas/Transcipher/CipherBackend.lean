import Ppfdaas.Transcipher.ShakePrf

/-!
# The envelope of both ciphers

`Encrypt` of `HERA16` and of `Rubato128L` are one text but for the sizes and
the keystream: mask modulo `t`, serialise, seal with AES-128-GCM.  SHA-256 and
the sealing are parameters.
-/

namespace Ppfdaas.Transcipher

def ErrInvalidKey : String := "cipher: invalid key length"

def ErrInvalidNonce : String := "cipher: invalid nonce length"

/-- `fmt.Errorf("%w: want %d elements, got %d", ...)`. -/
def wrongLength (err : String) (want got : ℕ) : Fault :=
  .err (err ++ ": want " ++ toString want ++ " elements, got " ++ toString got)

def putUint32 (v : UInt32) : List UInt8 :=
  [v.toUInt8, (v >>> 8).toUInt8, (v >>> 16).toUInt8, (v >>> 24).toUInt8]

def putUint64BE (v : UInt64) : List UInt8 :=
  [(v >>> 56).toUInt8, (v >>> 48).toUInt8, (v >>> 40).toUInt8, (v >>> 32).toUInt8,
    (v >>> 24).toUInt8, (v >>> 16).toUInt8, (v >>> 8).toUInt8, v.toUInt8]

def packElems (elems : List UInt64) : List UInt8 :=
  elems.flatMap fun v ↦ putUint32 v.toUInt32

/-- A run of the Go code, over the state of the Gaussian sampler. -/
abbrev Go (Sampler : Type) := StateT Sampler (Except Fault)

theorem Go.bind_ok {Sampler α β : Type} {x : Go Sampler α} {f : α → Go Sampler β}
    {sampler : Sampler} {r : β × Sampler} (h : (x >>= f) sampler = .ok r) :
    ∃ a sampler', x sampler = .ok (a, sampler') ∧ f a sampler' = .ok r := by
  cases hx : x sampler with
  | error fault => simp [bind, StateT.bind, Except.bind, hx] at h
  | ok p => exact ⟨p.1, p.2, rfl, by simpa [bind, StateT.bind, Except.bind, hx] using h⟩

/-- The block loop of `keystream`: blocks are appended, the last one cut to
what is missing.  Every pass appends an element, so `n` passes are enough. -/
def keystreamLoop {Sampler : Type} {outputSize : ℕ}
    (encryptBlock : UInt64 → Go Sampler (Vector UInt64 outputSize)) (n : ℕ) :
    (passes : ℕ) → List UInt64 → UInt64 → Go Sampler (List UInt64)
  | passes, ks, blockIdx =>
      if n ≤ ks.length then pure (ks.take n) else
        match passes with
        | 0 => throw .running
        | passes + 1 => do
            let blk ← encryptBlock blockIdx
            keystreamLoop encryptBlock n passes
              (ks ++ blk.toList.take (min outputSize (n - ks.length))) (blockIdx + 1)

/-- What the backends call outside the repository. -/
structure Primitives (Sampler : Type) where
  shake256 : List UInt8 → ℕ → UInt8
  sha256 : List UInt8 → Vector UInt8 32
  /-- Ciphertext and tag under an AES key and a GCM nonce. -/
  gcmSeal : (aesKey gcmNonce plaintext : List UInt8) → List UInt8
  /-- `GaussianSampler.AGN`, at the modulus, deviation and bound it is called with. -/
  agn : Vector UInt64 64 → Sampler → Vector UInt64 64 × Sampler

/-- The arguments of one `gcm.Seal`. -/
structure Sealing where
  aesKey : List UInt8
  gcmNonce : List UInt8
  raw : List UInt8
  deriving DecidableEq

section Encrypt

variable {Sampler : Type} (P : Primitives Sampler)

/-- `aes.NewCipher` takes keys of 16, 24 and 32 bytes. -/
def newCipher (aesKey : List UInt8) : Go Sampler Unit :=
  if aesKey.length = 16 ∨ aesKey.length = 24 ∨ aesKey.length = 32 then pure ()
  else throw (.err ("crypto/aes: invalid key size " ++ toString aesKey.length))

/-- `Encrypt` up to its `gcm.Seal`: the length checks, the masked and
serialised elements, the AES key and the GCM nonce. -/
def sealing (keyElems nonceElems : ℕ) (modulus : UInt64)
    (keystream : Vector UInt64 keyElems → List UInt64 → ℕ → Go Sampler (List UInt64))
    (aeadKey : List UInt64 → List UInt8) (key nonce plaintext : List UInt64) :
    Go Sampler Sealing :=
  if hkey : key.length = keyElems then
    if nonce.length = nonceElems then do
      let ks ← keystream ⟨key.toArray, hkey⟩ nonce plaintext.length
      let ct := List.zipWith (fun p k ↦ (p + k) % modulus) plaintext ks
      let raw := ct.flatMap fun v ↦ putUint32 v.toUInt32
      let aesKey := aeadKey key
      let noncePacked := packElems nonce
      newCipher aesKey
      pure ⟨aesKey, noncePacked.take 12, raw⟩
    else throw (wrongLength ErrInvalidNonce nonceElems nonce.length)
  else throw (wrongLength ErrInvalidKey keyElems key.length)

/-- What `Encrypt` returns: the nonce, then the sealed bytes, one element each. -/
def Sealing.output (s : Sealing) : List UInt64 :=
  (s.gcmNonce ++ P.gcmSeal s.aesKey s.gcmNonce s.raw).map UInt8.toUInt64

end Encrypt

end Ppfdaas.Transcipher
