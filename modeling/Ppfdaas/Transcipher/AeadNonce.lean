import Ppfdaas.Library.FixedWidth
import Ppfdaas.Transcipher.Hera
import Ppfdaas.Transcipher.Rubato

/-!
# The nonces of the AES-GCM envelope

The GCM nonce is the first twelve bytes of the packed cipher nonce, that is
its first three elements out of sixteen.
-/

namespace Ppfdaas.Transcipher

theorem putUint32_injective : Function.Injective putUint32 := by
  intro v w h
  simp only [putUint32, List.cons.injEq, and_true] at h
  obtain ⟨h0, h1, h2, h3⟩ := h
  have b0 := congrArg UInt8.toNat h0
  have b1 := congrArg UInt8.toNat h1
  have b2 := congrArg UInt8.toNat h2
  have b3 := congrArg UInt8.toNat h3
  simp [Nat.shiftRight_eq_div_pow] at b0 b1 b2 b3
  have hv := v.toNat_lt
  have hw := w.toNat_lt
  apply UInt32.toNat_inj.mp
  omega

theorem toUInt32_inj {v w : UInt64} (hv : v.toNat < 2 ^ 32) (hw : w.toNat < 2 ^ 32)
    (h : v.toUInt32 = w.toUInt32) : v = w := by
  have hmod := congrArg UInt32.toNat h
  simp only [UInt64.toNat_toUInt32] at hmod
  apply UInt64.toNat_inj.mp
  omega

theorem length_putUint32 (v : UInt64) : (putUint32 v.toUInt32).length = 4 := rfl

theorem packElems_inj {l l' : List UInt64} (hl : ∀ v ∈ l, v.toNat < 2 ^ 32)
    (hl' : ∀ v ∈ l', v.toNat < 2 ^ 32) (h : packElems l = packElems l') : l = l' := by
  apply FixedWidth.flatMap_inj length_putUint32 (by decide) _ hl hl' h
  intro v w hv hw hcode
  exact toUInt32_inj hv hw (putUint32_injective hcode)

theorem take_packElems (l : List UInt64) (m : ℕ) :
    (packElems l).take (4 * m) = packElems (l.take m) :=
  FixedWidth.take_flatMap length_putUint32 l m

/-! ## The arguments of the sealing -/

inductive Backend
  | hera16
  | rubato128L
  deriving DecidableEq

namespace Backend

def KeySize : Backend → ℕ
  | hera16 => 16
  | rubato128L => 64

def NonceSize : Backend → ℕ := fun _ ↦ 16

def Modulus : Backend → UInt64
  | hera16 => HeraModulus
  | rubato128L => RubatoModulus

variable {Sampler : Type} (P : Primitives Sampler) (tries : ℕ)

def aeadKey : Backend → List UInt64 → List UInt8
  | hera16 => HERA16.heraAEADKey P
  | rubato128L => Rubato128L.rubatoAEADKey P

def sealing : Backend → (key nonce plaintext : List UInt64) → Go Sampler Sealing
  | hera16 => HERA16.sealing P tries
  | rubato128L => Rubato128L.sealing P tries

def Encrypt : Backend → (key nonce plaintext : List UInt64) → Go Sampler (List UInt64)
  | hera16 => HERA16.Encrypt P tries
  | rubato128L => Rubato128L.Encrypt P tries

end Backend

section Sealing

variable {Sampler : Type} {P : Primitives Sampler} {tries : ℕ} {sampler sampler' : Sampler}
  {s : Sealing}

theorem sealing_ok {keyElems nonceElems : ℕ} {modulus : UInt64}
    {keystream : Vector UInt64 keyElems → List UInt64 → ℕ → Go Sampler (List UInt64)}
    {aeadKey : List UInt64 → List UInt8} {key nonce plaintext : List UInt64}
    (h : sealing keyElems nonceElems modulus keystream aeadKey key nonce plaintext sampler =
      .ok (s, sampler')) :
    s.aesKey = aeadKey key ∧ s.gcmNonce = (packElems nonce).take 12 := by
  unfold sealing at h
  split at h
  case isFalse => cases h
  case isTrue hkey =>
    split at h
    case isFalse => cases h
    case isTrue hnonce =>
      obtain ⟨ks, sampler₁, -, hrest⟩ := Go.bind_ok h
      obtain ⟨-, sampler₂, -, hpure⟩ := Go.bind_ok hrest
      obtain rfl : _ = s := congrArg Prod.fst (Except.ok.inj hpure)
      exact ⟨rfl, rfl⟩

namespace Backend

theorem sealing_ok (b : Backend) {key nonce plaintext : List UInt64}
    (h : b.sealing P tries key nonce plaintext sampler = .ok (s, sampler')) :
    s.aesKey = b.aeadKey P key ∧ s.gcmNonce = packElems (nonce.take 3) := by
  rw [← take_packElems]
  cases b with
  | hera16 => exact Transcipher.sealing_ok h
  | rubato128L => exact Transcipher.sealing_ok h

/-- Two sealings share neither the GCM nonce nor, a fortiori, the pair of AES
key and GCM nonce. -/
def Fresh (s s' : Sealing) : Prop :=
  s.gcmNonce ≠ s'.gcmNonce ∧ (s.aesKey, s.gcmNonce) ≠ (s'.aesKey, s'.gcmNonce)

theorem Modulus_le (b : Backend) {v : UInt64} (hv : v < b.Modulus) : v.toNat < 2 ^ 32 := by
  have hlt : v.toNat < b.Modulus.toNat := hv
  have hmod : b.Modulus.toNat ≤ 2 ^ 32 := by cases b <;> decide
  omega

/-- Two calls under one key seal freshly exactly when their nonces differ in
one of the first three elements; a difference in the other thirteen is lost. -/
theorem fresh_iff_take_ne (b : Backend) {key nonce nonce' plaintext plaintext' : List UInt64}
    {s' : Sealing} {sampler₁ sampler₁' : Sampler}
    (h : b.sealing P tries key nonce plaintext sampler = .ok (s, sampler'))
    (h' : b.sealing P tries key nonce' plaintext' sampler₁ = .ok (s', sampler₁'))
    (hnonce : ∀ v ∈ nonce, v < b.Modulus) (hnonce' : ∀ v ∈ nonce', v < b.Modulus) :
    Fresh s s' ↔ nonce.take 3 ≠ nonce'.take 3 := by
  obtain ⟨-, hgcm⟩ := b.sealing_ok h
  obtain ⟨-, hgcm'⟩ := b.sealing_ok h'
  have hlt : ∀ v ∈ nonce.take 3, v.toNat < 2 ^ 32 := fun v hv ↦
    b.Modulus_le (hnonce v (List.mem_of_mem_take hv))
  have hlt' : ∀ v ∈ nonce'.take 3, v.toNat < 2 ^ 32 := fun v hv ↦
    b.Modulus_le (hnonce' v (List.mem_of_mem_take hv))
  unfold Fresh
  rw [hgcm, hgcm']
  constructor
  · rintro ⟨hfresh, -⟩ htake
    exact hfresh (congrArg packElems htake)
  · intro htake
    have hpack : packElems (nonce.take 3) ≠ packElems (nonce'.take 3) := fun hpack ↦
      htake (packElems_inj hlt hlt' hpack)
    exact ⟨hpack, fun hpair ↦ hpack (congrArg Prod.snd hpair)⟩

end Backend

end Sealing

/-! ## Calls with the zero key -/

/-- SHA-256 at 64 and at 256 zero bytes, the packed zero keys of both ciphers. -/
def zeroDigests (bytes : List UInt8) : Vector UInt8 32 :=
  if bytes.length = 64 then
    #v[245, 165, 253, 66, 209, 106, 32, 48, 39, 152, 239, 110, 211, 9, 151, 155, 67, 0, 61, 35,
      32, 217, 240, 232, 234, 152, 49, 169, 39, 89, 251, 75]
  else
    #v[83, 65, 230, 178, 100, 105, 121, 167, 14, 87, 101, 48, 7, 161, 243, 16, 22, 148, 33, 236,
      155, 221, 159, 26, 86, 72, 247, 90, 222, 0, 90, 241]

def zeroPrimitives : Primitives Unit where
  shake256 := fun _ _ ↦ 0
  sha256 := zeroDigests
  gcmSeal := fun _ _ _ ↦ []
  agn := fun state sampler ↦ (state, sampler)

namespace Backend

/-- A call with the zero key and an empty plaintext, which takes no keystream. -/
def zeroCall (b : Backend) (nonce : List UInt64) : Except Fault (Sealing × Unit) :=
  b.sealing zeroPrimitives 0 (List.replicate b.KeySize 0) nonce [] ()

def zeroSealing (b : Backend) : Sealing :=
  ⟨b.aeadKey zeroPrimitives (List.replicate b.KeySize 0), List.replicate 12 0, []⟩

def unitNonce (i : ℕ) : List UInt64 := (List.replicate 16 0).set i 1

theorem unitNonce_lt (b : Backend) (i : ℕ) : ∀ v ∈ unitNonce i, v < b.Modulus := by
  intro v hv
  rcases List.mem_or_eq_of_mem_set hv with hzero | rfl
  · obtain rfl := List.eq_of_mem_replicate hzero
    cases b <;> decide
  · cases b <;> decide

theorem fresh_iff_take_ne_first :
    Fresh hera16.zeroSealing { hera16.zeroSealing with gcmNonce := 1 :: List.replicate 11 0 } ↔
      (unitNonce 3).take 3 ≠ (unitNonce 0).take 3 := by
  have h : hera16.zeroCall (unitNonce 3) = .ok (hera16.zeroSealing, ()) := by decide +kernel
  have h' : hera16.zeroCall (unitNonce 0) =
      .ok ({ hera16.zeroSealing with gcmNonce := 1 :: List.replicate 11 0 }, ()) := by
    decide +kernel
  exact fresh_iff_take_ne hera16 h h' (hera16.unitNonce_lt 3) (hera16.unitNonce_lt 0)

/-- Different nonces with the same first three elements: one AES key, one GCM nonce. -/
theorem gcm_nonce_reused :
    (hera16.zeroCall (unitNonce 3) = .ok (hera16.zeroSealing, ()) ∧
      hera16.zeroCall (unitNonce 4) = .ok (hera16.zeroSealing, ()) ∧
      ¬ Fresh hera16.zeroSealing hera16.zeroSealing) ∧
    (rubato128L.zeroCall (unitNonce 3) = .ok (rubato128L.zeroSealing, ()) ∧
      rubato128L.zeroCall (unitNonce 4) = .ok (rubato128L.zeroSealing, ()) ∧
      ¬ Fresh rubato128L.zeroSealing rubato128L.zeroSealing) ∧
    unitNonce 3 ≠ unitNonce 4 := by
  have hself : ∀ s : Sealing, ¬ Fresh s s := fun s h ↦ h.1 rfl
  refine ⟨⟨by decide +kernel, by decide +kernel, hself _⟩, ⟨by decide +kernel, by decide +kernel,
    hself _⟩, by decide⟩

end Backend

end Ppfdaas.Transcipher
