import Ppfdaas.Transcipher.CipherBackend

/-!
# HERA-16

`hera.go`, the plaintext path.
-/

namespace Ppfdaas.Transcipher

def HeraRounds : ℕ := 5

def HeraModulus : UInt64 := 0x1fc0001

abbrev HeraState := Vector UInt64 16

/-- `[2, 3, 1, 1]` against four entries. -/
def heraTaps (a b c d : UInt64) : UInt64 := (2 * a + 3 * b + c + d) % HeraModulus

/-- MixColumns, then MixRows, on the state as a grid of four rows. -/
def heraLinLayer (state : HeraState) : HeraState :=
  let buf : HeraState := Vector.ofFn fun i : Fin 16 ↦
    heraTaps state[i] state[(i.val + 4) % 16] state[(i.val + 8) % 16] state[(i.val + 12) % 16]
  Vector.ofFn fun i : Fin 16 ↦
    let row := 4 * (i.val / 4)
    have hrow : row ≤ 12 := by omega
    heraTaps buf[row + i.val % 4] buf[row + (i.val + 1) % 4] buf[row + (i.val + 2) % 4]
      buf[row + (i.val + 3) % 4]

def mulMod (a b : UInt64) : UInt64 := (a * b) % HeraModulus

def heraCube (state : HeraState) : HeraState := state.map fun x ↦ mulMod (mulMod x x) x

def heraAddRoundKey (rk state : HeraState) : HeraState :=
  Vector.zipWith (fun s k ↦ (s + k) % HeraModulus) state rk

/-- The body of `encryptBlock` from the round keys and an initial state. -/
def heraRounds (rks : Vector HeraState (HeraRounds + 1)) (state : HeraState) : HeraState :=
  let state := heraAddRoundKey rks[0] state
  let state := heraAddRoundKey rks[1] (heraCube (heraLinLayer state))
  let state := heraAddRoundKey rks[2] (heraCube (heraLinLayer state))
  let state := heraAddRoundKey rks[3] (heraCube (heraLinLayer state))
  let state := heraAddRoundKey rks[4] (heraCube (heraLinLayer state))
  heraAddRoundKey rks[5] (heraLinLayer (heraCube (heraLinLayer state)))

/-- The XOF of a block: the nonce, and the block index from the second block on. -/
def heraXof (nonce : List UInt64) (blockIdx : UInt64) : ShakeHash :=
  let xof := newShake256.write (packElems nonce)
  if blockIdx ≠ 0 then xof.write (putUint64BE blockIdx) else xof

namespace HERA16

variable {Sampler : Type} (P : Primitives Sampler) (tries : ℕ)

def encryptBlock (key : HeraState) (nonce : List UInt64) (blockIdx : UInt64) :
    Go Sampler HeraState := do
  let rks ← (roundKeys P.shake256 tries HeraRounds key HeraModulus).run'
    (heraXof nonce blockIdx)
  pure (heraRounds rks (Vector.ofFn fun i ↦ UInt64.ofNat (i + 1)))

def keystream (key : HeraState) (nonce : List UInt64) (n : ℕ) : Go Sampler (List UInt64) :=
  keystreamLoop (encryptBlock P tries key nonce) n n [] 0

def heraAEADKey (key : List UInt64) : List UInt8 :=
  (P.sha256 (packElems key)).toList.take 16

def sealing (key nonce plaintext : List UInt64) : Go Sampler Sealing :=
  Transcipher.sealing 16 16 HeraModulus (keystream P tries) (heraAEADKey P) key nonce plaintext

def Encrypt (key nonce plaintext : List UInt64) : Go Sampler (List UInt64) := do
  let s ← sealing P tries key nonce plaintext
  pure (s.output P)

def EvalKeyExpansion (key nonce : List UInt64) :
    Except Fault (Vector HeraState (HeraRounds + 1)) :=
  if hkey : key.length = 16 then
    if nonce.length = 16 then
      (roundKeys P.shake256 tries HeraRounds ⟨key.toArray, hkey⟩ HeraModulus).run'
        (newShake256.write (packElems nonce))
    else .error (.err (ErrInvalidNonce ++ ": want 16, got " ++ toString nonce.length))
  else .error (.err (ErrInvalidKey ++ ": want 16, got " ++ toString key.length))

end HERA16

end Ppfdaas.Transcipher
