import Ppfdaas.Transcipher.CipherBackend

/-!
# Rubato-128L

`rubato.go`, the plaintext path.  The Gaussian sampler is one object of the
process, so its state is threaded through every block.
-/

namespace Ppfdaas.Transcipher

def RubatoRounds : ℕ := 2

def RubatoModulus : UInt64 := 0x1fc0001

abbrev RubatoState := Vector UInt64 64

/-- `[5, 3, 4, 3, 6, 2, 1, 1]` against eight entries. -/
def rubatoTaps (entry : ℕ → UInt64) : UInt64 :=
  (5 * entry 0 + 3 * entry 1 + 4 * entry 2 + 3 * entry 3 + 6 * entry 4 + 2 * entry 5 +
    entry 6 + entry 7) % RubatoModulus

/-- MixColumns, then MixRows, on the state as a grid of eight rows. -/
def rubatoLinLayer64 (state : RubatoState) : RubatoState :=
  let buf : RubatoState := Vector.ofFn fun i : Fin 64 ↦
    rubatoTaps fun k ↦ state[(i.val / 8 + k) % 8 * 8 + i.val % 8]
  Vector.ofFn fun i : Fin 64 ↦
    have hrow : i.val / 8 ≤ 7 := by omega
    rubatoTaps fun k ↦ buf[i.val / 8 * 8 + (i.val % 8 + k) % 8]

/-- `state[i] += state[i-1]^2` with the old values. -/
def rubatoFeistel (buf : RubatoState) : RubatoState :=
  Vector.ofFn fun i : Fin 64 ↦
    if i.val = 0 then buf[0] else (buf[i] + buf[i.val - 1] * buf[i.val - 1]) % RubatoModulus

def rubatoAddRoundKey (rk state : RubatoState) : RubatoState :=
  Vector.zipWith (fun s k ↦ (s + k) % RubatoModulus) state rk

def blockCounterBytes (blockIdx : UInt64) : List UInt8 := putUint64BE blockIdx

def rubatoXof (nonce : List UInt64) (blockIdx : UInt64) : ShakeHash :=
  (newShake256.write (packElems nonce)).write (blockCounterBytes blockIdx)

/-- The body of `encryptBlock` up to the noise. -/
def rubatoRounds (rks : Vector RubatoState (RubatoRounds + 1)) (state : RubatoState) :
    RubatoState :=
  let state := rubatoAddRoundKey rks[0] state
  let state := rubatoAddRoundKey rks[1] (rubatoFeistel (rubatoLinLayer64 state))
  rubatoLinLayer64 (rubatoFeistel (rubatoLinLayer64 state))

namespace Rubato128L

variable {Sampler : Type} (P : Primitives Sampler) (tries : ℕ)

/-- `noiseAGN`, and nothing at `sigma = 0`. -/
def noiseAGN (noisy : Bool) (state : RubatoState) : Go Sampler RubatoState := fun sampler ↦
  .ok (if noisy then P.agn state sampler else (state, sampler))

/-- `noisy` is the source's `sigma > 0`. -/
def encryptBlock (noisy : Bool) (key : RubatoState) (nonce : List UInt64) (blockIdx : UInt64) :
    Go Sampler (Vector UInt64 60) := do
  let rks ← (roundKeys P.shake256 tries RubatoRounds key RubatoModulus).run'
    (rubatoXof nonce blockIdx)
  let state ← noiseAGN P noisy
    (rubatoRounds rks (Vector.ofFn fun i ↦ UInt64.ofNat (i + 1)))
  pure ((rubatoAddRoundKey rks[2] state).take 60)

def keystream (noisy : Bool) (key : RubatoState) (nonce : List UInt64) (n : ℕ) :
    Go Sampler (List UInt64) :=
  keystreamLoop (encryptBlock P tries noisy key nonce) n n [] 0

def rubatoAEADKey (key : List UInt64) : List UInt8 :=
  (P.sha256 (packElems key)).toList.take 16

def sealing (key nonce plaintext : List UInt64) : Go Sampler Sealing :=
  Transcipher.sealing 64 16 RubatoModulus (keystream P tries true) (rubatoAEADKey P)
    key nonce plaintext

def Encrypt (key nonce plaintext : List UInt64) : Go Sampler (List UInt64) := do
  let s ← sealing P tries key nonce plaintext
  pure (s.output P)

def EvalKeyExpansion (key nonce : List UInt64) :
    Except Fault (Vector RubatoState (RubatoRounds + 1)) :=
  if hkey : key.length = 64 then
    if nonce.length = 16 then
      (roundKeys P.shake256 tries RubatoRounds ⟨key.toArray, hkey⟩ RubatoModulus).run'
        (rubatoXof nonce 0)
    else .error (.err (ErrInvalidNonce ++ ": want 16, got " ++ toString nonce.length))
  else .error (.err (ErrInvalidKey ++ ": want 64, got " ++ toString key.length))

end Rubato128L

end Ppfdaas.Transcipher
