import Mathlib.Tactic

/-!
# The SHAKE256-seeded round keys

`shakeprf.go`, shared by both ciphers.  SHAKE256 itself is a parameter: byte
`i` of its output on a byte string.
-/

namespace Ppfdaas.Transcipher

/-- How a call of the Go code can fail to return a value: with an error, in a
run-time panic, or by running on after the tries a loop is given. -/
inductive Fault
  | err (text : String)
  | indexOutOfRange
  | running
  deriving DecidableEq, Repr

/-- `sha3.ShakeHash`: what was written, and how far the output was read. -/
structure ShakeHash where
  absorbed : List UInt8
  squeezed : ℕ
  deriving DecidableEq

def newShake256 : ShakeHash := ⟨[], 0⟩

def ShakeHash.write (xof : ShakeHash) (p : List UInt8) : ShakeHash :=
  { xof with absorbed := xof.absorbed ++ p }

abbrev Sampling := StateT ShakeHash (Except Fault)

section Shake

variable (shake256 : List UInt8 → ℕ → UInt8)

/-- `io.ReadFull`, which never fails on an XOF. -/
def readFull (n : ℕ) : Sampling (List UInt8) := fun xof ↦
  .ok ((List.range n).map fun i ↦ shake256 xof.absorbed (xof.squeezed + i),
    { xof with squeezed := xof.squeezed + n })

/-- `bits.Len64(q - 2)`. -/
def bitLen (q : UInt64) : ℕ := (q - 2).toNat.size

def byteLen (q : UInt64) : ℕ := (bitLen q + 7) / 8

/-- `uint8((1 << b) - 1)`, with `b` between one and eight. -/
def topMask (q : UInt64) : UInt8 :=
  let b := bitLen q % 8
  UInt8.ofNat (2 ^ (if b = 0 then 8 else b) - 1)

/-- `bytes[byteLen-1] &= mask`: out of range on an empty buffer. -/
def maskTop (mask : UInt8) (bytes : List UInt8) : Except Fault (List UInt8) :=
  match bytes.getLast? with
  | none => .error .indexOutOfRange
  | some top => .ok (bytes.dropLast ++ [top &&& mask])

def littleEndian (bytes : List UInt8) : UInt64 :=
  bytes.zipIdx.foldl (fun res (byte, i) ↦ res + byte.toUInt64 <<< UInt64.ofNat (8 * i)) 0

/-- `sampleZqx`: candidates are drawn until one is below `q`. -/
def sampleZqx (q : UInt64) : (tries : ℕ) → Sampling UInt64
  | 0 => throw .running
  | tries + 1 => do
      let bytes ← readFull shake256 (byteLen q)
      let bytes ← maskTop (topMask q) bytes
      let res := littleEndian bytes
      if res < q then pure res else sampleZqx q tries

/-- `roundKeys`: `rks[r][i] = sampleZqx(xof, plainModulus) * key[i] % plainModulus`. -/
def roundKeys (tries numRound : ℕ) {blockSize : ℕ} (key : Vector UInt64 blockSize)
    (plainModulus : UInt64) : Sampling (Vector (Vector UInt64 blockSize) (numRound + 1)) :=
  Vector.ofFnM fun _ ↦ Vector.ofFnM fun i ↦ do
    let s ← sampleZqx shake256 plainModulus tries
    pure (s * key[i] % plainModulus)

end Shake

end Ppfdaas.Transcipher
