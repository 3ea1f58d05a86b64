import Ppfdaas.Protocol.CoefficientSeal
import Ppfdaas.Protocol.OwnedWords

/-!
# Coefficients in 64-bit words

An instance of the coefficient scheme without a secret: the values of a ciphertext
are its coefficients, as multiples of `2 ^ -40`.  A plaintext keeps its residues;
the first limb is what the operations read.  Under the key of another owner every
residue is zero.
-/

namespace Ppfdaas.CoefficientWords

open Cnp Wrapper ServerState CentredResidue ErrorBudget
open OwnedWords hiding Words word load_save

def q0 : ℕ := 2 ^ 60 - 1

abbrev Words := OwnedWords.Words 8

structure Plain where
  limbs : List Limb
  parmsId : ℕ
  scale : ℚ

def Plain.first (pt : Plain) : Limb := pt.limbs.headD 0

def Plain.value (pt : Plain) : Fin kN → ℚ := fun c ↦ centred (pt.first c) q0 / pt.scale

def word (ct : Words) : Fin kN → ℤ := fun c ↦ OwnedWords.word ct c.val

def value (ct : Words) : Fin kN → ℚ := fun c ↦ word ct c / gScale

def storeWords (owner header : ℤ) (values : Fin kN → ℤ) : Words :=
  place owner header (List.ofFn values)

def store (owner header : ℤ) (v : Fin kN → ℚ) : Words :=
  storeWords owner header fun c ↦ rounded gScale (v c)

/-- The headers: fresh, product and rescaled. -/
def scaleOf (header : ℤ) : ℚ :=
  if header = 0 then gScale else if header = 1 then gScale * gScale else gScale * gScale / 2 ^ 40

def levelOf (header : ℤ) : ℕ := if header = 0 ∨ header = 1 then 0 else 1

def bank : BankSeal Bool Bool Words Plain Unit Unit where
  firstParmsId := 0
  keyParmsId := 2
  coeffModulus := fun pid ↦ [[q0, 2 ^ 40], [q0]][pid]?
  load := fun bytes ↦ .ok (OwnedWords.load bytes)
  parmsId := fun ct ↦ levelOf (header ct)
  scale := fun ct ↦ scaleOf (header ct)
  saveSize := fun ct ↦ (OwnedWords.save ct).length
  save := OwnedWords.save
  save_length := fun _ ↦ rfl
  multiplyPlain := fun ct pt ↦
    if header ct ≠ 0 then .error "scale out of bounds"
    else if pt.value = 0 then .error "result ciphertext is transparent"
    else .ok (store (owner ct) 1 (Negacyclic.mul (value ct) pt.value))
  rescaleToNext := fun ct ↦
    if header ct = 1 then .ok (store (owner ct) 2 (value ct))
    else .error "end of modulus switching chain reached"
  rotateVector := fun _ _ _ ↦ .error "Galois key not present"
  add := fun a b ↦
    .ok (store (if owner a = owner b then owner a else 2) (header a) (value a + value b))
  addPlain := fun ct pt ↦
    .ok (storeWords (owner ct) (header ct) fun c ↦ centred (word ct c + pt.first c) q0)
  ntt := fun _ limb ↦ limb
  plaintext := Plain.mk
  loadGaloisKeys := fun _ ↦ .error "unexpected size"
  galoisParmsId := fun _ ↦ 2
  galoisEltFromStep := fun step ↦ step.toNat
  hasKey := fun _ _ ↦ false
  galoisKeysSize := fun _ ↦ 0
  galoisSaveSize := fun _ ↦ 0
  loadPublicKey := loadKey
  loadSecretKey := loadKey
  encode := fun _ _ ↦ .error "not in slot packing"
  decode := fun _ ↦ .error "not in slot packing"
  encrypt := fun key _ pt ↦ .ok (store (ownerWord key) 0 pt.value)
  decrypt := fun key ct ↦
    let residues := if owner ct = ownerWord key then fun c ↦ (word ct c % q0).toNat else fun _ ↦ 0
    .ok ⟨[residues], levelOf (header ct), scaleOf (header ct)⟩
  inverseNttSingleLimb := fun pt ↦ .ok (q0, pt.first)
  plaintextScale := Plain.scale

def primes : Coefficients Bool Words where
  mods := [q0, 2 ^ 40]
  q0 := q0
  secondParmsId := 1
  qLast := 2 ^ 40
  polys := fun _ ↦ 2
  carried := fun _ ↦ value
  ε := stepError
  cap := 262144

theorem q0_pos : 0 < q0 := by norm_num [q0]

theorem first_pos : ∀ q ∈ [q0, 2 ^ 40], 0 < q := by
  simp only [List.mem_cons, List.not_mem_nil, or_false]
  rintro q (rfl | rfl)
  · exact q0_pos
  · norm_num

theorem outputScale_primes : gScale * gScale / primes.qLast = gScale := by
  norm_num [gScale, primes]

theorem abs_centred_lt (v : ℤ) : |centred v q0| < 9223372036854775808 := by
  refine (abs_centred_le (Int.natCast_pos.mpr q0_pos) v).trans_lt ?_
  norm_num [q0]

theorem toNat_emod_inj {q : ℕ} (hq : 0 < q) {v u : ℤ} (h : (v % q).toNat = (u % q).toNat) :
    v % q = u % q := by
  have hne : (q : ℤ) ≠ 0 := Int.natCast_ne_zero.mpr hq.ne'
  have hv := Int.toNat_of_nonneg (Int.emod_nonneg v hne)
  have hu := Int.toNat_of_nonneg (Int.emod_nonneg u hne)
  rw [← hv, ← hu, h]

theorem abs_rounded_le {v bound : ℚ} (hv : |v| ≤ bound) :
    |(rounded gScale v : ℚ)| ≤ gScale * bound + 1 / 2 := by
  refine abs_le_of_close (abs_rounded_sub_le gScale v) ?_
  rw [abs_mul, abs_of_pos gScale_pos]
  exact mul_le_mul_of_nonneg_left hv gScale_pos.le

theorem length_store (owner₀ header₀ : ℤ) (v : Fin kN → ℤ) :
    (storeWords owner₀ header₀ v).val.length = kN + 2 :=
  (length_place owner₀ header₀ _).trans (by rw [List.length_ofFn])

theorem word_store (owner₀ header₀ : ℤ) {v : Fin kN → ℤ} {c : Fin kN}
    (hv : |v c| < 9223372036854775808) : word (storeWords owner₀ header₀ v) c = v c := by
  have hget : (List.ofFn v)[c.val]? = some (v c) := by
    rw [List.getElem?_ofFn, dif_pos c.isLt]
  have hfits : (v c).bmod (256 ^ 8) = v c := by
    obtain ⟨hlow, hhigh⟩ := abs_lt.mp hv
    exact Int.bmod_eq_of_le (by norm_num; omega) (by norm_num; omega)
  exact (word_place owner₀ header₀ hget).trans hfits

/-- What is stored is half a step off. -/
theorem value_store (owner₀ header₀ : ℤ) {v : Fin kN → ℚ} {c : Fin kN} (hv : |v c| ≤ 262145) :
    |value (store owner₀ header₀ v) c - v c| ≤ stepError := by
  have hfits : |rounded gScale (v c)| < 9223372036854775808 := by
    have hlt : |(rounded gScale (v c) : ℚ)| < 9223372036854775808 := by
      refine (abs_rounded_le hv).trans_lt ?_
      norm_num [gScale]
    exact_mod_cast hlt
  have hword : word (store owner₀ header₀ v) c = rounded gScale (v c) :=
    word_store owner₀ header₀ (v := fun c ↦ rounded gScale (v c)) hfits
  rw [value, hword]
  exact abs_rounded_div_le gScale_pos (v c)

theorem encodeCoeffs_bank {values : List ℚ} (hlength : values.length = kN)
    (hvalues : ∀ c, |coefficients values c| ≤ 262144) :
    encodeCoeffs bank.toSeal values gScale 0 =
      .ok (encoded (encodingSeal bank) values gScale 0 [q0, 2 ^ 40]) := by
  have hmods : (encodingSeal bank).coeffModulus 0 = some [q0, 2 ^ 40] := rfl
  refine encodeCoeffs_eq hlength hmods first_pos fun v hv ↦ ?_
  obtain ⟨i, hi, rfl⟩ := List.mem_iff_getElem.mp hv
  have hvalue := hvalues ⟨i, hi.trans_eq hlength⟩
  rw [coefficients, List.getD_eq_getElem _ _ hi] at hvalue
  rw [abs_mul, abs_of_pos gScale_pos]
  refine (mul_le_mul_of_nonneg_left hvalue gScale_pos.le).trans_lt ?_
  norm_num [gScale]

/-- An encoding keeps the rounded values, which the first limb can hold. -/
theorem value_encoded {values : List ℚ} {pt : Plain}
    (hvalues : ∀ c, |coefficients values c| ≤ 262144)
    (hencode : encodeCoeffs bank.toSeal values gScale bank.firstParmsId = .ok pt) :
    pt.value = roundedCoefficients values := by
  have hlength : values.length = kN := by
    by_contra hne
    rw [encodeCoeffs, if_pos hne] at hencode
    cases hencode
  obtain rfl := Except.ok.inj (hencode.symm.trans (encodeCoeffs_bank hlength hvalues))
  funext c
  have hfits : 2 * |rounded gScale (values.getD c 0)| < q0 := by
    have hle := abs_rounded_le (hvalues c)
    have hlt : 2 * |(rounded gScale (values.getD c 0) : ℚ)| < (q0 : ℚ) := by
      norm_num [q0, gScale] at hle ⊢
      exact (mul_le_mul_of_nonneg_left hle zero_le_two).trans_lt (by norm_num)
    exact_mod_cast hlt
  have hcast : ((rounded gScale (values.getD c 0) % q0).toNat : ℤ) =
      rounded gScale (values.getD c 0) % q0 :=
    Int.toNat_of_nonneg (Int.emod_nonneg _ (Int.natCast_ne_zero.mpr q0_pos.ne'))
  have hcentred : centred ((rounded gScale (values.getD c 0) % q0).toNat : ℤ) q0 =
      rounded gScale (values.getD c 0) := by
    rw [hcast, centred_congr (Int.mod_modEq _ _), centred_eq_self hfits]
  exact congrArg (fun v : ℤ ↦ (v : ℚ) / gScale) hcentred

theorem load_save (ct : Words) : bank.load (bank.save ct) = .ok ct :=
  congrArg Except.ok (OwnedWords.load_save (by decide) ct)

theorem saveSize_le {ct : Words} (h : ct.val.length = kN + 2) : bank.saveSize ct ≤ CT_BUF := by
  refine (length_save ct).trans_le ?_
  rw [h]
  decide

/-! ## Ciphertexts of one owner -/

section Owner

variable {key : Bool} {ct : Words}

/-- What the branch makes stays with its owner, and has 8192 coefficients. -/
theorem made_owner (h : CnpMade bank key ct) :
    owner ct = ownerWord key ∧ ct.val.length = kN + 2 := by
  induction h with
  | encrypt h =>
      obtain rfl := Except.ok.inj h
      exact ⟨owner_place (bmod_ownerWord (by decide) key) _ _, length_store _ _ _⟩
  | @multiplyPlain ct out pt _ h ih =>
      change (if header ct ≠ 0 then _ else if pt.value = 0 then _ else _) = _ at h
      split_ifs at h
      obtain rfl := Except.ok.inj h
      exact ⟨(owner_place (bmod_getD ct 0) _ _).trans ih.1, length_store _ _ _⟩
  | @rescaleToNext ct out _ h ih =>
      change (if header ct = 1 then _ else _) = _ at h
      split_ifs at h
      obtain rfl := Except.ok.inj h
      exact ⟨(owner_place (bmod_getD ct 0) _ _).trans ih.1, length_store _ _ _⟩
  | @addPlain ct out pt _ h ih =>
      obtain rfl := Except.ok.inj h
      exact ⟨(owner_place (bmod_getD ct 0) _ _).trans ih.1, length_store _ _ _⟩

theorem decrypt_owner (h : owner ct = ownerWord key) : bank.decrypt key ct =
    .ok ⟨[fun c ↦ (word ct c % q0).toNat], levelOf (header ct), scaleOf (header ct)⟩ :=
  congrArg (fun residues ↦ Except.ok (Plain.mk [residues] _ _)) (if_pos h)

theorem showsResidues (h : owner ct = ownerWord key) :
    ShowsResidues bank primes key ct (word ct) :=
  ⟨_, _, decrypt_owner h, rfl, rfl, fun _ ↦ rfl⟩

theorem header_of_scale (hlevel : bank.parmsId ct = bank.firstParmsId) :
    header ct = 0 ∧ bank.scale ct = gScale ∨
      header ct = 1 ∧ bank.scale ct = gScale * gScale := by
  have hheader : header ct = 0 ∨ header ct = 1 := by
    by_contra hne
    have hone : levelOf (header ct) = 1 := if_neg hne
    exact absurd (hone.symm.trans hlevel) one_ne_zero
  have hscale : bank.scale ct = scaleOf (header ct) := rfl
  rcases hheader with h | h
  · exact .inl ⟨h, by rw [hscale, h, scaleOf, if_pos rfl]⟩
  · exact .inr ⟨h, by rw [hscale, h, scaleOf, if_neg one_ne_zero, if_pos rfl]⟩

theorem gScale_ne_square : gScale ≠ gScale * gScale := by norm_num [gScale]

theorem header_of_fresh (hlevel : bank.parmsId ct = bank.firstParmsId)
    (hscale : bank.scale ct = gScale) : header ct = 0 := by
  rcases header_of_scale hlevel with ⟨h, -⟩ | ⟨-, h⟩
  · exact h
  · exact absurd (hscale.symm.trans h) gScale_ne_square

theorem header_of_product (hlevel : bank.parmsId ct = bank.firstParmsId)
    (hscale : bank.scale ct = gScale * gScale) : header ct = 1 := by
  rcases header_of_scale hlevel with ⟨-, h⟩ | ⟨h, -⟩
  · exact absurd (h.symm.trans hscale) gScale_ne_square
  · exact h

/-- Words kept below half of the prime show what they were before. -/
theorem word_store_centred (owner₀ header₀ : ℤ) (v : Fin kN → ℤ) (c : Fin kN) :
    word (storeWords owner₀ header₀ fun c ↦ centred (v c) q0) c % q0 = v c % q0 := by
  rw [word_store owner₀ header₀ (v := fun c ↦ centred (v c) q0) (abs_centred_lt _)]
  exact centred_modEq _ _

end Owner

theorem carriesCoefficients (key : Bool) : CarriesCoefficients bank primes key key where
  first_modulus := rfl
  first_pos := first_pos
  second_modulus := rfl
  q0_pos := q0_pos
  q0_le := by norm_num [primes, q0]
  qLast_pos := by norm_num [primes]
  cap_lt := by norm_num [primes, gScale]
  encrypt := by
    intro values pt coins hvalues hencode
    have hpt := value_encoded hvalues hencode
    refine ⟨_, rfl, rfl, rfl, rfl, saveSize_le (length_store _ _ _), fun c ↦ ?_⟩
    rw [← hpt]
    have hrange : |coefficients values c| ≤ 262144 := hvalues c
    have hhalf : stepError ≤ 1 := by norm_num [stepError, gScale]
    refine value_store _ _ ?_
    rw [hpt]
    exact (abs_le_of_close (roundedCoefficients_close values c) hrange).trans
      (by linarith)
  load_save := fun {ct} _ ↦ load_save ct
  saveSize_le := fun hmade _ _ ↦ saveSize_le (made_owner hmade).2
  multiplyPlain := by
    intro ct values pt _ _ hlevel hscale hvalues hne hencode hproduct
    have hpt := value_encoded hvalues hencode
    have hzero := header_of_fresh hlevel hscale
    have hok : bank.multiplyPlain ct pt =
        .ok (store (owner ct) 1 (Negacyclic.mul (value ct) pt.value)) :=
      (if_neg (not_not_intro hzero)).trans (if_neg fun h ↦ hne (hpt.symm.trans h))
    refine ⟨_, hok, rfl, rfl, rfl, fun c ↦ ?_⟩
    rw [← hpt]
    refine value_store _ _ ?_
    rw [hpt]
    exact (hproduct c).trans (by norm_num [primes])
  rescaleToNext := by
    intro ct hmade _ hlevel hscale hrange
    have hok : bank.rescaleToNext ct = .ok (store (owner ct) 2 (value ct)) :=
      if_pos (header_of_product hlevel hscale)
    have howner := (made_owner (.rescaleToNext hmade hok)).1
    refine ⟨_, _, hok, rfl, rfl, rfl, showsResidues howner, fun c ↦ ?_⟩
    rw [outputScale_primes]
    refine value_store _ _ ((hrange c).trans ?_)
    norm_num [primes, stepError, gScale]
  addPlain := by
    intro ct r limb hmade _ hlevel hshows _
    obtain ⟨pt, raw, hdecrypt, hinverse, -, hraw⟩ := hshows
    obtain rfl := Except.ok.inj ((decrypt_owner (made_owner hmade).1).symm.trans hdecrypt)
    obtain ⟨-, rfl⟩ := Prod.ext_iff.mp (Except.ok.inj hinverse)
    have hheader := header_place (owner ct) (bmod_getD ct 1)
      (List.ofFn fun c ↦ centred (word ct c + limb c) q0)
    have hok : bank.addPlain ct ⟨[limb], 1, bank.scale ct⟩ =
        .ok (storeWords (owner ct) (header ct) fun c ↦ centred (word ct c + limb c) q0) := rfl
    have howner := (made_owner (.addPlain hmade hok)).1
    refine ⟨_, hok, rfl, (congrArg levelOf hheader).trans hlevel, congrArg scaleOf hheader,
      (showsResidues howner).congr fun c ↦ ?_⟩
    have hresidue : word ct c % q0 = r c % q0 :=
      toNat_emod_inj q0_pos (hraw c)
    calc word (storeWords (owner ct) (header ct) fun c ↦
          centred (word ct c + limb c) q0) c % (q0 : ℤ)
        = (word ct c + limb c) % q0 := word_store_centred _ _ (fun c ↦ word ct c + limb c) c
      _ = (r c + limb c) % q0 := Int.ModEq.add_right _ hresidue

/-! ## A model of weights one, and a bias of one half -/

theorem length_weightsToWrev {w wrev : List ℚ} (h : weightsToWrev w = .ok wrev) :
    wrev.length = kN := by
  unfold weightsToWrev at h
  split_ifs at h
  obtain rfl := Except.ok.inj h
  exact (wrevLoop_getD w le_rfl).1

def wrev : List ℚ := (weightsToWrev (List.ofFn fun _ : Fin 256 ↦ (1 : ℚ))).toOption.getD []

def constants : ServiceConstants Plain where
  packingMode := .cnp
  bias := 1 / 2
  ptWeights := ⟨[], 0, 0⟩
  ptBias := ⟨[], 0, 0⟩
  ptWrev := encoded (encodingSeal bank) wrev gScale 0 [q0, 2 ^ 40]
  cnpMaskEnabled := true

theorem cnpRange : CnpRange primes (fun _ ↦ 1) (1 / 2) 1 1 where
  error_nonneg := stepError_nonneg
  entry_nonneg := zero_le_one
  entry_le := by norm_num [primes]
  weight_le := fun _ ↦ by rw [abs_one]
  weight_cap := by norm_num [primes]
  product_le := by norm_num [primes, stepError, gScale]
  score_lt := by
    norm_num [cnpError, outputScale, primes, stepError, gScale, q0, abs_of_pos]

theorem rounded_one_ne_zero : rounded gScale 1 ≠ 0 := by
  intro hzero
  have hclose := abs_rounded_sub_le gScale 1
  rw [hzero] at hclose
  norm_num [gScale] at hclose

theorem holdsCnpModel : HoldsCnpModel bank constants (fun _ ↦ 1) (1 / 2) where
  mode := rfl
  masked := rfl
  bias := rfl
  nonzero := ⟨0, rounded_one_ne_zero⟩
  wrev := by
    obtain ⟨wrev', hwrev, -⟩ := weightsToWrev_spec fun _ : Fin kLane ↦ (1 : ℚ)
    have hwrev' : wrev = wrev' := congrArg (fun out ↦ out.toOption.getD []) hwrev
    obtain ⟨hrange, -⟩ := wrev_rounded cnpRange hwrev
    refine ⟨wrev', hwrev, ?_⟩
    rw [constants, hwrev']
    exact encodeCoeffs_bank (length_weightsToWrev hwrev) fun c ↦
      (hrange c).trans (by norm_num)

end Ppfdaas.CoefficientWords
