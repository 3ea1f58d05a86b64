import Mathlib.Algebra.Order.BigOperators.Group.Finset
import Ppfdaas.Library.Negacyclic
import Ppfdaas.Library.ScaledPhase
import Ppfdaas.Transcipher.IntegerModel

/-!
# The coefficient path of the transciphered pipeline

`rtf_cnp_test.go` at level 0 with the exact scale-up.  A ciphertext is taken as
its phase modulo `q0` and `X ^ N + 1`.
-/

namespace Ppfdaas.Transcipher

open ScaledPhase

/-- The parameters: `2 ^ logN` coefficients, the plaintext modulus and the prime
of level 0. -/
structure CnpCtx where
  logN : ℕ
  t : ℕ
  q0 : ℕ

namespace CnpCtx

variable (x : CnpCtx)

def N : ℕ := 2 ^ x.logN

def lanes : ℕ := x.N / cnpFeatures

abbrev Phase := Fin x.N → ZMod x.q0

/-- `utils.BitReverse64`: the lowest `bitLen` bits in reverse order. -/
def bitReverse64 (index bitLen : ℕ) : ℕ :=
  (List.range bitLen).foldl (fun reversed i ↦ 2 * reversed + index / 2 ^ i % 2) 0

theorem bitReverse64_lt (index bitLen : ℕ) : bitReverse64 index bitLen < 2 ^ bitLen := by
  induction bitLen with
  | zero => simp [bitReverse64]
  | succ bitLen ih =>
      rw [bitReverse64, List.range_succ, List.foldl_append]
      have hbit : index / 2 ^ bitLen % 2 < 2 := Nat.mod_lt _ (by decide)
      simp only [List.foldl_cons, List.foldl_nil, pow_succ]
      change 2 * bitReverse64 index bitLen + _ < _
      omega

def bitrev (c : Fin x.N) : Fin x.N := ⟨bitReverse64 c x.logN, bitReverse64_lt c x.logN⟩

def coeff (k : Fin x.lanes) (j : Fin cnpFeatures) : Fin x.N :=
  ⟨cnpFeatures * k + j, by
    have hk := k.isLt
    have hj := j.isLt
    have hle : cnpFeatures * x.lanes ≤ x.N := Nat.mul_div_le x.N cnpFeatures
    calc cnpFeatures * k + j < cnpFeatures * (k + 1) := by rw [Nat.mul_succ]; omega
      _ ≤ cnpFeatures * x.lanes := Nat.mul_le_mul_left _ hk
      _ ≤ x.N := hle⟩

/-! ## The client -/

/-- Row `firstRow + k` in lane `k`; the lanes after the last row stay zero. -/
def cnpDataVec (rows : List Row) (firstRow : ℕ) : Fin x.N → ℤ := fun c ↦
  if c / cnpFeatures < x.lanes then
    match rows[firstRow + c / cnpFeatures]? with
    | some row => (row ⟨c % cnpFeatures, Nat.mod_lt _ (by decide)⟩).toInt
    | none => 0
  else 0

section Client

variable {blocksize : ℕ} (ks : Fin x.N → Fin blocksize → ℕ) (kk : Fin blocksize)

def cnpClientSym (data : Fin x.N → ℤ) : Fin x.N → ℕ := fun i ↦
  let v := (data i + ks (x.bitrev i) kk).tmod x.t
  (if v < 0 then v + x.t else v).toNat

end Client

/-! ## The server -/

/-- `round(m * q0 / t)`, by the 128-bit product and quotient. -/
def cnpScaleUp (sym : Fin x.N → ℕ) : x.Phase := fun i ↦
  ((scaleUp x.t x.q0 (sym i) % x.q0 : ℕ) : ZMod x.q0)

def cnpSubStage (sym : Fin x.N → ℕ) (ks0 : x.Phase) : x.Phase := x.cnpScaleUp sym - ks0

/-- `w_rev(X)`: weight `j` at coefficient `255 - j`. -/
def cnpWRev (wq : Fin cnpFeatures → ℤ) : Fin x.N → ℤ := fun c ↦
  if h : c.val < cnpFeatures then wq ⟨cnpFeatures - 1 - c, by omega⟩ else 0

def cnpPtMulSigned (w : Fin x.N → ℤ) : x.Phase := fun c ↦
  ((if w c < 0 then x.q0 + w c else w c : ℤ) : ZMod x.q0)

def cnpPmulStage (ct ptMul : x.Phase) : x.Phase := Negacyclic.mul ct ptMul

/-- The mask: what was drawn, and the bias at every `256k + 255`. -/
def cnpMaskRingT (biasQ : ℤ) (randomize : Bool) (draws : Fin x.N → ℕ) : Fin x.N → ℕ := fun c ↦
  if c % cnpFeatures = cnpFeatures - 1 ∧ c / cnpFeatures < x.lanes then (goMod biasQ x.t).toNat
  else if randomize then draws c else 0

def cnpMaskFV (biasQ : ℤ) (randomize : Bool) (draws : Fin x.N → ℕ) : x.Phase :=
  x.cnpScaleUp (x.cnpMaskRingT biasQ randomize draws)

/-- The online server: scale-up and subtraction, product, mask. -/
def cnpOnline (sym : Fin x.N → ℕ) (ks0 : x.Phase) (wq : Fin cnpFeatures → ℤ) (biasQ : ℤ)
    (randomize : Bool) (draws : Fin x.N → ℕ) : x.Phase :=
  x.cnpPmulStage (x.cnpSubStage sym ks0) (x.cnpPtMulSigned (x.cnpWRev wq)) +
    x.cnpMaskFV biasQ randomize draws

/-! ## The bank -/

def cnpDecryptRingT (ct : x.Phase) : Fin x.N → ℕ := fun c ↦ scaleDown x.t x.q0 (ct c).val

def cnpBankRead (ct : x.Phase) : Fin x.lanes → ℤ := fun k ↦
  cnpCentre (x.cnpDecryptRingT ct (x.coeff k ⟨cnpFeatures - 1, by decide⟩)) x.t

/-! ## What each stage holds -/

section Stages

variable {x}

theorem coeff_div (k : Fin x.lanes) (j : Fin cnpFeatures) :
    (x.coeff k j).val / cnpFeatures = k := by
  rw [coeff, Nat.mul_add_div (by decide), Nat.div_eq_of_lt j.isLt, Nat.add_zero]

theorem coeff_mod (k : Fin x.lanes) (j : Fin cnpFeatures) :
    (x.coeff k j).val % cnpFeatures = j := by
  rw [coeff, Nat.mul_add_mod, Nat.mod_eq_of_lt j.isLt]

theorem cnpDataVec_coeff (rows : List Row) (firstRow : ℕ) (k : Fin x.lanes) (j : Fin cnpFeatures) :
    x.cnpDataVec rows firstRow (x.coeff k j) =
      (rows[firstRow + k]?).elim 0 fun row ↦ (row j).toInt := by
  simp only [cnpDataVec, coeff_div, coeff_mod, k.isLt, if_true]
  cases rows[firstRow + k.val]? <;> rfl

theorem cnpClientSym_eq (ht : 0 < x.t) {blocksize : ℕ} (ks : Fin x.N → Fin blocksize → ℕ)
    (kk : Fin blocksize) (data : Fin x.N → ℤ) (i : Fin x.N) :
    (x.cnpClientSym ks kk data i : ℤ) = (data i + ks (x.bitrev i) kk) % x.t := by
  have hpos : (0 : ℤ) < x.t := by exact_mod_cast ht
  simp only [cnpClientSym, tmod_add_eq hpos]
  exact Int.toNat_of_nonneg (Int.emod_nonneg _ hpos.ne')

theorem cnpPtMulSigned_eq (w : Fin x.N → ℤ) (c : Fin x.N) :
    x.cnpPtMulSigned w c = ((w c : ℤ) : ZMod x.q0) := by
  by_cases h : w c < 0 <;> simp [cnpPtMulSigned, h]

theorem cnpScaleUp_eq (sym : Fin x.N → ℕ) (c : Fin x.N) :
    x.cnpScaleUp sym c = ((scaleUp x.t x.q0 (sym c) : ℤ) : ZMod x.q0) := by
  simp [cnpScaleUp]

/-- After the subtraction the phase is the data and the client's noise, scaled
up, with one rounding error on each side and the error of the keystream. -/
theorem cnpSubStage_error (ht : Odd x.t) {blocksize : ℕ} {ks client : Fin x.N → Fin blocksize → ℕ}
    {kk : Fin blocksize} {d e : Fin x.N → ℤ} {ks0 : x.Phase} (data : Fin x.N → ℤ)
    (hnoise : ∀ c, (client (x.bitrev c) kk : ℤ) ≡ ks (x.bitrev c) kk + d c [ZMOD x.t])
    (hphase : ∀ c, ks0 c = ((scaleUp x.t x.q0 (ks (x.bitrev c) kk) + e c : ℤ) : ZMod x.q0))
    (c : Fin x.N) :
    ∃ r : ℤ, x.cnpSubStage (x.cnpClientSym client kk data) ks0 c = (r : ZMod x.q0) ∧
      |2 * (x.t * r - x.q0 * (data c + d c))| ≤ 2 * (x.t * (|e c| + 1)) := by
  have hsym := cnpClientSym_eq ht.pos client kk data c
  set sym := x.cnpClientSym client kk data c with hdef
  set key := ks (x.bitrev c) kk
  -- The masked element is the sum without its multiple of `t`.
  obtain ⟨u, hu⟩ : ∃ u : ℤ, (sym : ℤ) = data c + d c + key + x.t * u := by
    have hmod : (sym : ℤ) ≡ data c + d c + key [ZMOD x.t] := by
      calc (sym : ℤ) = (data c + client (x.bitrev c) kk) % x.t := hsym
        _ ≡ data c + client (x.bitrev c) kk [ZMOD x.t] := Int.mod_modEq _ _
        _ ≡ data c + (key + d c) [ZMOD x.t] := (hnoise c).add_left _
        _ = data c + d c + key := by ring
    obtain ⟨u, hu⟩ := hmod.symm.dvd
    exact ⟨u, by linarith⟩
  refine ⟨scaleUp x.t x.q0 sym - scaleUp x.t x.q0 key - e c - x.q0 * u, ?_, ?_⟩
  · rw [cnpSubStage, Pi.sub_apply, cnpScaleUp_eq, hphase, ← hdef]
    push_cast
    simp only [ZMod.natCast_self, zero_mul, sub_zero]
    ring
  · have hup := abs_le.mp (scaleUp_error ht x.q0 sym)
    have hkey := abs_le.mp (scaleUp_error ht x.q0 key)
    have hpos : (0 : ℤ) < x.t := by exact_mod_cast ht.pos
    have hlow : -(x.t * |e c|) ≤ x.t * e c := by
      rw [← mul_neg]
      exact mul_le_mul_of_nonneg_left (neg_abs_le _) hpos.le
    have hhigh : x.t * e c ≤ x.t * |e c| := mul_le_mul_of_nonneg_left (le_abs_self _) hpos.le
    rw [abs_le]
    constructor <;> rw [hu] at hup <;> linarith

theorem cnpPmulStage_output (ct : x.Phase) (wq : Fin cnpFeatures → ℤ) (k : Fin x.lanes) :
    x.cnpPmulStage ct (x.cnpPtMulSigned (x.cnpWRev wq)) (x.coeff k ⟨cnpFeatures - 1, by decide⟩) =
      ∑ j, ct (x.coeff k j) * (wq j : ZMod x.q0) := by
  have hlast := (x.coeff k ⟨cnpFeatures - 1, by decide⟩).isLt
  have hbase : cnpFeatures * k.val + cnpFeatures ≤ x.N := by
    simp only [coeff] at hlast
    have hpos : 0 < cnpFeatures := by decide
    omega
  have hzero : ∀ c : Fin x.N, cnpFeatures ≤ c.val → x.cnpPtMulSigned (x.cnpWRev wq) c = 0 := by
    intro c hc
    rw [cnpPtMulSigned_eq, cnpWRev, dif_neg (Nat.not_lt.mpr hc), Int.cast_zero]
  refine (Negacyclic.mul_window ct _ (by decide) hbase hzero).trans ?_
  refine Finset.sum_congr rfl fun j _ ↦ ?_
  have hj := j.isLt
  have hlow : cnpFeatures - 1 - j.val < cnpFeatures := by omega
  have hback : (⟨cnpFeatures - 1 - (cnpFeatures - 1 - j.val), by omega⟩ : Fin cnpFeatures) = j :=
    Fin.ext (by simp only; omega)
  rw [cnpPtMulSigned_eq, cnpWRev, dif_pos hlow, hback]
  rfl

theorem cnpMaskFV_output (ht : 0 < x.t) (biasQ : ℤ) (randomize : Bool) (draws : Fin x.N → ℕ)
    (k : Fin x.lanes) :
    x.cnpMaskFV biasQ randomize draws (x.coeff k ⟨cnpFeatures - 1, by decide⟩) =
      ((scaleUp x.t x.q0 (biasQ % x.t).toNat : ℤ) : ZMod x.q0) := by
  have hpos : (0 : ℤ) < x.t := by exact_mod_cast ht
  rw [cnpMaskFV, cnpScaleUp_eq, cnpMaskRingT, if_pos ⟨coeff_mod _ _, by simp [coeff_div]⟩,
    goMod_eq hpos]

end Stages

/-! ## What the bank reads -/

section Bank

variable {x} {blocksize : ℕ} {ks client : Fin x.N → Fin blocksize → ℕ} {kk : Fin blocksize}
  {d e : Fin x.N → ℤ} {ks0 : x.Phase}

/-- Lane by lane the bank reads the score of the data and the noise. -/
theorem cnpBankRead_noise (ht : Odd x.t) (data : Fin x.N → ℤ) (wq : Fin cnpFeatures → ℤ)
    (hnoise : ∀ c, (client (x.bitrev c) kk : ℤ) ≡ ks (x.bitrev c) kk + d c [ZMOD x.t])
    (hphase : ∀ c, ks0 c = ((scaleUp x.t x.q0 (ks (x.bitrev c) kk) + e c : ℤ) : ZMod x.q0))
    {bound : ℤ} (he : ∀ c, |e c| ≤ bound)
    (hbound : 2 * x.t * ((∑ j, |wq j|) * (bound + 1) + 1) ≤ x.q0) (biasQ : ℤ) (randomize : Bool)
    (draws : Fin x.N → ℕ) (k : Fin x.lanes) :
    x.cnpBankRead (x.cnpOnline (x.cnpClientSym client kk data) ks0 wq biasQ randomize draws) k =
      cnpCentre (∑ j, (data (x.coeff k j) + d (x.coeff k j)) * wq j + biasQ) x.t := by
  have hpos : (0 : ℤ) < x.t := by exact_mod_cast ht.pos
  choose r hr herror using cnpSubStage_error ht data hnoise hphase
  set mask : ℤ := ((scaleUp x.t x.q0 (biasQ % x.t).toNat : ℕ) : ℤ)
  set score : ℤ := ∑ j, (data (x.coeff k j) + d (x.coeff k j)) * wq j
  have houtput : x.cnpOnline (x.cnpClientSym client kk data) ks0 wq biasQ randomize draws
      (x.coeff k ⟨cnpFeatures - 1, by decide⟩) =
        ((∑ j, r (x.coeff k j) * wq j + mask : ℤ) : ZMod x.q0) := by
    rw [cnpOnline, Pi.add_apply, cnpPmulStage_output, cnpMaskFV_output ht.pos]
    simp only [hr, mask]
    push_cast
    rfl
  -- The errors of a lane add up with the weights, and the mask adds its own.
  have hlane : |2 * (x.t * (∑ j, r (x.coeff k j) * wq j) - x.q0 * score)| ≤
      2 * (x.t * ((∑ j, |wq j|) * (bound + 1))) := by
    have hsum : 2 * (x.t * (∑ j, r (x.coeff k j) * wq j) - x.q0 * score) =
        ∑ j, 2 * (x.t * r (x.coeff k j) - x.q0 * (data (x.coeff k j) + d (x.coeff k j))) *
          wq j := by
      simp only [score, Finset.mul_sum, ← Finset.sum_sub_distrib]
      exact Finset.sum_congr rfl fun j _ ↦ by ring
    calc |2 * (x.t * (∑ j, r (x.coeff k j) * wq j) - x.q0 * score)|
        ≤ ∑ j, |2 * (x.t * r (x.coeff k j) -
            x.q0 * (data (x.coeff k j) + d (x.coeff k j))) * wq j| := by
          rw [hsum]
          exact Finset.abs_sum_le_sum_abs _ _
      _ ≤ ∑ j, 2 * (x.t * (bound + 1)) * |wq j| := by
          refine Finset.sum_le_sum fun j _ ↦ ?_
          rw [abs_mul]
          refine mul_le_mul_of_nonneg_right ((herror _).trans ?_) (abs_nonneg _)
          have hle := mul_le_mul_of_nonneg_left (he (x.coeff k j)) hpos.le
          linarith
      _ = 2 * (x.t * ((∑ j, |wq j|) * (bound + 1))) := by
          rw [← Finset.mul_sum]
          ring
  have hmask := scaleUp_error ht x.q0 (biasQ % x.t).toNat
  have hbias : ((biasQ % x.t).toNat : ℤ) = biasQ % x.t :=
    Int.toNat_of_nonneg (Int.emod_nonneg _ hpos.ne')
  have hclose : |2 * (x.t * (∑ j, r (x.coeff k j) * wq j + mask) -
      x.q0 * (score + biasQ % x.t))| < x.q0 := by
    rw [hbias] at hmask
    have hlow := abs_le.mp hlane
    have hlow' := abs_le.mp hmask
    rw [abs_lt]
    constructor <;> linarith
  have hq : (0 : ℤ) < x.q0 := (abs_nonneg _).trans_lt hclose
  have : NeZero x.q0 := ⟨by exact_mod_cast hq.ne'⟩
  have hval : (((x.cnpOnline (x.cnpClientSym client kk data) ks0 wq biasQ randomize draws
      (x.coeff k ⟨cnpFeatures - 1, by decide⟩)).val : ℕ) : ℤ) ≡
        ∑ j, r (x.coeff k j) * wq j + mask [ZMOD x.q0] := by
    rw [← ZMod.intCast_eq_intCast_iff, ← houtput]
    simp
  rw [cnpBankRead, cnpDecryptRingT, scaleDown_of_close hval hclose]
  apply cnpCentre_congr hpos
  exact (Int.mod_modEq _ _).trans ((Int.mod_modEq biasQ x.t).add_left score)

/-- With the keystream of the server every filled lane reads its integer score
and every empty lane the centred bias; a noisy keystream shifts the data by the
noise, and nothing else. -/
theorem cnpBankRead_online (ht : Odd x.t) (rows : List Row) (firstRow : ℕ)
    (wq : Fin cnpFeatures → ℤ)
    (hphase : ∀ c, ks0 c = ((scaleUp x.t x.q0 (ks (x.bitrev c) kk) + e c : ℤ) : ZMod x.q0))
    {bound : ℤ} (he : ∀ c, |e c| ≤ bound)
    (hbound : 2 * x.t * ((∑ j, |wq j|) * (bound + 1) + 1) ≤ x.q0) (biasQ : ℤ) (randomize : Bool)
    (draws : Fin x.N → ℕ) :
    let read (client : Fin x.N → Fin blocksize → ℕ) (k : Fin x.lanes) : ℤ :=
      x.cnpBankRead (x.cnpOnline (x.cnpClientSym client kk (x.cnpDataVec rows firstRow)) ks0 wq
        biasQ randomize draws) k
    (∀ (k : Fin x.lanes) (h : firstRow + k < rows.length),
      read ks k = cnpSim rows[firstRow + k] wq biasQ x.t) ∧
    (∀ k : Fin x.lanes, rows.length ≤ firstRow + k → read ks k = cnpCentre biasQ x.t) ∧
    ∀ (client : Fin x.N → Fin blocksize → ℕ) (d : Fin x.N → ℤ),
      (∀ c, (client (x.bitrev c) kk : ℤ) ≡ ks (x.bitrev c) kk + d c [ZMOD x.t]) →
      ∀ (k : Fin x.lanes) (h : firstRow + k < rows.length), read client k =
        cnpCentre (∑ j, wq j * ((rows[firstRow + k] j).toInt + d (x.coeff k j)) + biasQ) x.t := by
  intro read
  have hexact : ∀ c,
      (ks (x.bitrev c) kk : ℤ) ≡ ks (x.bitrev c) kk + (0 : Fin x.N → ℤ) c [ZMOD x.t] := by
    intro c
    rw [Pi.zero_apply, add_zero]
  have hread : ∀ k, read ks k = _ := cnpBankRead_noise ht (x.cnpDataVec rows firstRow) wq hexact
    hphase he hbound biasQ randomize draws
  refine ⟨?_, ?_, ?_⟩
  · intro k h
    rw [hread]
    simp only [cnpDataVec_coeff, List.getElem?_eq_getElem h, Option.elim_some, Pi.zero_apply,
      add_zero]
    rfl
  · intro k h
    rw [hread]
    simp only [cnpDataVec_coeff, List.getElem?_eq_none h, Option.elim_none, Pi.zero_apply,
      add_zero, zero_mul, Finset.sum_const_zero, zero_add]
  · intro client d hnoise k h
    have hnoisy := cnpBankRead_noise ht (x.cnpDataVec rows firstRow) wq hnoise hphase he hbound
      biasQ randomize draws k
    simp only [cnpDataVec_coeff, List.getElem?_eq_getElem h, Option.elim_some] at hnoisy
    simp only [mul_comm (wq _)]
    exact hnoisy

end Bank

/-! ## One lane modulo 3 -/

def toyCtx : CnpCtx := ⟨8, 3, 13⟩

def toyRow : Row := fun j ↦ if j.val = 0 then 2 else 0

def toyWeights : Fin cnpFeatures → ℤ := fun j ↦ if j.val = 0 then 1 else 0

def toyKeystream : Fin toyCtx.N → Fin 1 → ℕ := fun c _ ↦ c % 3

def toyPhase : toyCtx.Phase := fun c ↦
  ((scaleUp 3 13 (toyKeystream (toyCtx.bitrev c) 0) : ℤ) : ZMod 13)

theorem cnpBankRead_online_toy :
    toyCtx.cnpBankRead (toyCtx.cnpOnline (toyCtx.cnpClientSym toyKeystream 0
      (toyCtx.cnpDataVec [toyRow] 0)) toyPhase toyWeights 5 true fun c ↦ c % 3)
        ⟨0, by decide⟩ = 1 := by
  have hphase : ∀ c, toyPhase c = ((scaleUp 3 13 (toyKeystream (toyCtx.bitrev c) 0) +
      (0 : Fin toyCtx.N → ℤ) c : ℤ) : ZMod 13) := fun c ↦ by
    rw [Pi.zero_apply, add_zero]
    rfl
  have hbound : 2 * (3 : ℤ) * ((∑ j, |toyWeights j|) * (0 + 1) + 1) ≤ 13 := by decide +kernel
  have hread := cnpBankRead_online (x := toyCtx) (by decide) [toyRow] 0 toyWeights hphase
    (fun c ↦ by simp) hbound 5 true (fun c ↦ c % 3)
  have hlane := hread.1 ⟨0, by decide⟩ (by decide)
  exact hlane.trans (by decide +kernel)

end CnpCtx

end Ppfdaas.Transcipher
