import Mathlib.Data.UInt
import Ppfdaas.Library.CentredResidue
import Ppfdaas.Library.SignedWords
import Ppfdaas.Transcipher.CnpOnline
import Ppfdaas.Transcipher.FvSlots
import Ppfdaas.Transcipher.RnsScaleUp

/-!
# The signed lift of the weights, limb by limb

`cnpPtMulSigned` before its NTT, on the polynomials of `cnpWRev` and of
`slotWeightPoly`.  It adds a prime once, so a limb is the residue only of
what lies within one prime of zero.
-/

namespace Ppfdaas.Transcipher.Rns

open CentredResidue ExceptRuns SignedWords

variable {N : ℕ}

/-! ## The signed polynomials -/

/-- `w_rev(X)` as the length-`N` vector. -/
def cnpWRev (wq : Fin cnpFeatures → Int64) (c : Fin N) : Int64 :=
  if h : c.val < cnpFeatures then wq (Fin.rev ⟨c, h⟩) else 0

/-- The coefficients of the encoded weights, centred; the encoder is lattigo's. -/
def slotWeightPoly (encodeUintRingT : (Fin N → ℕ) → Fin N → ℕ) (t : ℕ) (g : SlotGroup N)
    (c : Fin g.G) (wq : Fin cnpFeatures → ℤ) (i : Fin N) : Int64 :=
  Int64.ofInt (cnpCentre (encodeUintRingT (fun s ↦ Transcipher.slotWeightPoly t g c wq s) i) t)

/-! ## The lift -/

def liftWord (q : UInt64) (v : Int64) : UInt64 :=
  if v < 0 then (q.toInt64 + v).toUInt64 else v.toUInt64

/-- The rows of the plaintext before `NTTLazyLvl` and `MFormLvl`. -/
def cnpPtMulSigned (Qi : List UInt64) (level : ℕ) (w : Fin N → Int64) :
    Except Panic (List (Fin N → UInt64)) := do
  let modulus ← ringAt Qi level
  pure (modulus.map fun q c ↦ liftWord q (w c))

/-- The word is the residue of `v`, in `[0, q)`. -/
def Canonical (q : UInt64) (v : Int64) (word : UInt64) : Prop :=
  word < q ∧ (word.toNat : ℤ) ≡ v.toInt [ZMOD q.toNat]

theorem canonical_iff {q : UInt64} (hq : 0 < q.toNat) (v : Int64) (word : UInt64) :
    Canonical q v word ↔ (word.toNat : ℤ) = v.toInt % q.toNat := by
  rw [Canonical, UInt64.lt_iff_toNat_lt, Int.ModEq]
  constructor
  · rintro ⟨hlt, hmod⟩
    rw [← hmod, Int.emod_eq_of_lt (by omega) (by omega)]
  · intro h
    have hpos : (0 : ℤ) < q.toNat := by omega
    have hlt := Int.emod_lt_of_pos v.toInt hpos
    rw [h, Int.emod_emod]
    exact ⟨by omega, rfl⟩

/-- One prime is added at most, and taken off never. -/
theorem canonical_liftWord_iff {q : UInt64} (hpos : 0 < q.toNat) (hq : q.toNat < 2 ^ 63)
    (v : Int64) : Canonical q v (liftWord q v) ↔
      -(q.toNat : ℤ) ≤ v.toInt ∧ v.toInt < q.toNat := by
  have hlow := v.le_toInt
  have hhigh := v.toInt_lt
  have hq64 : q.toInt64.toInt = q.toNat := toInt_toInt64 (by omega)
  rw [canonical_iff hpos, liftWord]
  by_cases hneg : v < 0
  · have hv := lt_zero_iff.mp hneg
    rw [if_pos hneg, toNat_toUInt64, toInt_add_of_bounds (by omega) (by omega), hq64]
    constructor
    · intro h
      have hlt := Int.emod_lt_of_pos v.toInt (show (0 : ℤ) < q.toNat by omega)
      by_contra hout
      have hwrap : ((q.toNat : ℤ) + v.toInt) % 2 ^ 64 = q.toNat + v.toInt + 2 ^ 64 := by omega
      omega
    · rintro ⟨hge, -⟩
      rw [Int.emod_eq_of_lt (by omega) (by omega), ← Int.add_emod_left,
        Int.emod_eq_of_lt (by omega) (by omega)]
  · have hv := not_lt.mp (lt_zero_iff.not.mp hneg)
    rw [if_neg hneg, toNat_toUInt64, Int.emod_eq_of_lt (by omega) (by omega)]
    constructor
    · intro h
      have hlt := Int.emod_lt_of_pos v.toInt (show (0 : ℤ) < q.toNat by omega)
      omega
    · rintro ⟨-, hlt⟩
      exact (Int.emod_eq_of_lt hv hlt).symm

/-- Every limb holds the residues of the polynomial, and so all of them the same
integers, exactly when no coefficient is more than one prime away from zero. -/
theorem signed_lift_canonical_iff {Qi : List UInt64}
    (hQi : ∀ q ∈ Qi, 0 < q.toNat ∧ q.toNat < 2 ^ 63) {level : ℕ} (hlevel : level < Qi.length)
    (w : Fin N → Int64) :
    ∃ rows, cnpPtMulSigned Qi level w = .ok rows ∧ rows.length = level + 1 ∧
      ((∀ li ≤ level, ∀ c, Canonical (Qi.getD li 0) (w c) (rows.getD li 0 c)) ↔
        ∀ li ≤ level, ∀ c, -((Qi.getD li 0).toNat : ℤ) ≤ (w c).toInt ∧
          (w c).toInt < (Qi.getD li 0).toNat) := by
  have hring : ringAt Qi level = .ok (Qi.take (level + 1)) := if_pos hlevel
  refine ⟨(Qi.take (level + 1)).map fun q c ↦ liftWord q (w c), ?_, ?_, ?_⟩
  · rw [cnpPtMulSigned, hring]
    rfl
  · rw [List.length_map, List.length_take]
    omega
  · refine forall_congr' fun li ↦ forall_congr' fun hli ↦ forall_congr' fun c ↦ ?_
    obtain ⟨hpos, hq⟩ := hQi _ (getD_mem (hli.trans_lt hlevel))
    rw [getD_map_take (fun q c ↦ liftWord q (w c)) hlevel hli]
    exact canonical_liftWord_iff hpos hq (w c)

/-! ## The phases of level 0 -/

section Phases

variable {x : CnpCtx} {q0 : UInt64} (hq0 : q0.toNat = x.q0)

include hq0

/-- A canonical limb is the lifted coefficient of the phase. -/
theorem liftWord_phase (hq : q0.toNat < 2 ^ 63) {w : Fin x.N → Int64} {c : Fin x.N}
    (hlow : -(q0.toNat : ℤ) ≤ (w c).toInt) (hhigh : (w c).toInt < q0.toNat) :
    ((liftWord q0 (w c)).toNat : ZMod x.q0) = x.cnpPtMulSigned (fun c ↦ (w c).toInt) c := by
  have hpos : 0 < q0.toNat := by omega
  obtain ⟨-, hmod⟩ := (canonical_liftWord_iff hpos hq (w c)).mpr ⟨hlow, hhigh⟩
  rw [hq0] at hmod
  have hcast := (ZMod.intCast_eq_intCast_iff _ _ _).mpr hmod
  rw [Int.cast_natCast] at hcast
  rw [hcast, CnpCtx.cnpPtMulSigned]
  split_ifs <;> simp

/-- The scaled-up word is that coefficient of the phase. -/
theorem limb_phase {R : RingOps} (hR : R.Documented) {Qi : List UInt64}
    (hQi : ∀ q ∈ Qi, Odd q.toNat ∧ q.toNat < 2 ^ 62) {t : UInt64} (ht : t.toNat = x.t)
    (ht32 : t.toNat < 2 ^ 32) {s : SlotScaler} (hs : s.Built R (q0 :: Qi) t 0)
    (hodd : Odd q0.toNat) (hq : q0.toNat < 2 ^ 62) {sym : Fin x.N → UInt64} {i : Fin x.N}
    (hsym : sym i < t) :
    ((s.limb R (sym i) 0).toNat : ZMod x.q0) = x.cnpScaleUp (fun i ↦ (sym i).toNat) i := by
  have hchain : ∀ q ∈ q0 :: Qi, Odd q.toNat ∧ q.toNat < 2 ^ 62 := by
    intro q hmem
    rcases List.mem_cons.mp hmem with rfl | hmem
    · exact ⟨hodd, hq⟩
    · exact hQi q hmem
  have hlevel : 0 < (q0 :: Qi).length := Nat.succ_pos _
  have hlimb := (toNat_limb hR ht32 hchain hlevel hs hsym le_rfl).2
  rw [modulusAt_zero hlevel] at hlimb
  rw [hlimb, CnpCtx.cnpScaleUp, ← ht, ← hq0]
  rfl

end Phases

/-! ## The two producers -/

theorem abs_cnpCentre_le {t : ℤ} (ht : 0 < t) (v : ℤ) : |cnpCentre v t| ≤ t / 2 := by
  rw [cnpCentre_eq ht]
  exact abs_centred_le ht v

/-- Weights of the slot path are as large as the plaintext modulus allows, and fit
under primes that are larger than its half. -/
theorem slotWeightPoly_le {t : ℕ} (ht : 0 < t) (ht32 : t < 2 ^ 32)
    (encodeUintRingT : (Fin N → ℕ) → Fin N → ℕ) (g : SlotGroup N) (c : Fin g.G)
    (wq : Fin cnpFeatures → ℤ) (i : Fin N) :
    |(slotWeightPoly encodeUintRingT t g c wq i).toInt| ≤ t / 2 := by
  have hbound := abs_cnpCentre_le (t := (t : ℤ)) (by omega)
    (encodeUintRingT (fun s ↦ Transcipher.slotWeightPoly t g c wq s) i)
  obtain ⟨hlow, hhigh⟩ := abs_le.mp hbound
  rw [slotWeightPoly, Int64.toInt_ofInt_of_le (by omega) (by omega)]
  exact hbound

/-! ## A prime smaller than the weights -/

/-- The exponents of the roots that the slots stand for: the powers of five, and
in the second row their inverses. -/
def slotExponent (N j : ℕ) : ℕ :=
  if j < N / 2 then 5 ^ j % (2 * N) else 2 * N - 5 ^ (j - N / 2) % (2 * N)

/-- The value of a polynomial in each slot, for a primitive root `ζ` modulo `t`. -/
def slotValues (t ζ : ℕ) (coeffs : Fin N → ℕ) (j : Fin N) : ℕ :=
  (∑ i, coeffs i * ζ ^ (i.val * slotExponent N j % (2 * N))) % t

/-- The inverse transform; `inv` is the inverse of `N`. -/
def encodeSlotValues (t ζ inv : ℕ) (values : Fin N → ℕ) (i : Fin N) : ℕ :=
  inv * (∑ j, values j * ζ ^ ((2 * N - i.val * slotExponent N j % (2 * N)) % (2 * N))) % t

/-- HERA's weights on the ring of degree 32: the first is `2`, the others zero. -/
def firstWeight : Fin cnpFeatures → ℤ := fun j ↦ if j.val = 0 then 2 else 0

def encode32 : (Fin 32 → ℕ) → Fin 32 → ℕ := encodeSlotValues 33292289 13675570 32251905

theorem heraGroup_pos : 0 < heraGroup.G := by decide

def firstWeightPoly : Fin 32 → Int64 :=
  slotWeightPoly encode32 33292289 heraGroup ⟨0, heraGroup_pos⟩ firstWeight

/-- The encoder gives back the slots of the weights. -/
theorem slotValues_encode32 : ∀ j : Fin 32,
    slotValues 33292289 13675570 (encode32 fun s ↦ Transcipher.slotWeightPoly 33292289 heraGroup
      ⟨0, heraGroup_pos⟩ firstWeight s) j =
        Transcipher.slotWeightPoly 33292289 heraGroup ⟨0, heraGroup_pos⟩ firstWeight j := by
  decide +kernel

theorem firstWeightPoly_zero : firstWeightPoly 0 = -4161536 := by decide +kernel

/-- In the chain's 22-bit prime one of the weights leaves the limb. -/
theorem signed_lift_small_prime :
    (∀ j : Fin 32, slotValues 33292289 13675570 (encode32 fun s ↦
      Transcipher.slotWeightPoly 33292289 heraGroup ⟨0, heraGroup_pos⟩ firstWeight s) j =
        Transcipher.slotWeightPoly 33292289 heraGroup ⟨0, heraGroup_pos⟩ firstWeight j) ∧
    ∃ rows, cnpPtMulSigned [1152921504606584833, 0x2a0001] 1 firstWeightPoly = .ok rows ∧
      rows.getD 1 0 0 = 18446744073708142593 ∧
      ¬ Canonical 0x2a0001 (firstWeightPoly 0) (rows.getD 1 0 0) := by
  have hword : liftWord 0x2a0001 (firstWeightPoly 0) = 18446744073708142593 := by
    rw [firstWeightPoly_zero]
    decide
  refine ⟨slotValues_encode32, [fun c ↦ liftWord 1152921504606584833 (firstWeightPoly c),
    fun c ↦ liftWord 0x2a0001 (firstWeightPoly c)], rfl, hword, ?_⟩
  rintro ⟨hlt, -⟩
  have hout : ¬ (18446744073708142593 : UInt64) < 0x2a0001 := by decide
  exact hout (hword ▸ hlt)

/-- Under the first prime alone the same weights are fine. -/
theorem signed_lift_canonical_iff_level_zero :
    ∃ rows, cnpPtMulSigned [1152921504606584833, 0x2a0001] 0 firstWeightPoly = .ok rows ∧
      ∀ c, Canonical 1152921504606584833 (firstWeightPoly c) (rows.getD 0 0 c) := by
  have hQi : ∀ q ∈ ([1152921504606584833, 0x2a0001] : List UInt64),
      0 < q.toNat ∧ q.toNat < 2 ^ 63 := by
    rw [List.forall_mem_cons, List.forall_mem_singleton]
    exact ⟨by decide, by decide⟩
  have hlevel : 0 < ([1152921504606584833, 0x2a0001] : List UInt64).length := by decide
  obtain ⟨rows, hrows, -, hiff⟩ := signed_lift_canonical_iff hQi hlevel firstWeightPoly
  refine ⟨rows, hrows, fun c ↦ hiff.mpr (fun li hli c ↦ ?_) 0 le_rfl c⟩
  obtain rfl := Nat.le_zero.mp hli
  have hprime : (([1152921504606584833, 0x2a0001] : List UInt64).getD 0 0).toNat =
      1152921504606584833 := rfl
  have hbound : |(firstWeightPoly c).toInt| ≤ ((33292289 : ℕ) : ℤ) / 2 :=
    slotWeightPoly_le (by decide) (by decide) encode32 heraGroup ⟨0, heraGroup_pos⟩ firstWeight c
  obtain ⟨hlow, hhigh⟩ := abs_le.mp hbound
  rw [hprime]
  constructor <;> omega

end Ppfdaas.Transcipher.Rns
