import Ppfdaas.Protocol.ApproximateSeal
import Ppfdaas.Protocol.OwnedWords

/-!
# Slots in fixed point

An instance of the scheme without a secret: the values of a ciphertext are its
slots, as 32-bit multiples of `2 ^ -20`.  Every operation rounds its exact result,
so the laws of `Approximates` hold with half a unit.  A rotation under the keys of
another owner leaves a ciphertext that nobody reads.
-/

namespace Ppfdaas.FixedPoint

open ErrorBudget ServerState Wrapper
open OwnedWords hiding Words load_save

def unit : ℚ := 2 ^ 20

abbrev Words := OwnedWords.Words 4

structure Plain where
  second : Bool
  values : List ℚ

def value (ct : Words) : Slots ℚ := fun i ↦ word ct i.val / unit

def listOf (v : Slots ℚ) : List ℚ := List.ofFn fun i : Fin kSlots ↦ v (i.val : ZMod kSlots)

def store (owner header : ℤ) (v : Slots ℚ) : Words :=
  place owner header ((listOf v).map fun x ↦ round (x * unit))

/-- A plaintext that the first rescaling leaves behind has the scale of a product. -/
def qLast : ℚ := 2 ^ 40

/-- The headers: fresh, product and rescaled. -/
def scaleOf (header : ℤ) : ℚ :=
  if header = 0 then gScale else if header = 1 then gScale * gScale else gScale * gScale / qLast

def levelOf (header : ℤ) : ℕ := if header = 0 ∨ header = 1 then 0 else 1

def bank : BankSeal Bool Bool Words Plain Bool Unit where
  firstParmsId := 0
  keyParmsId := 2
  coeffModulus := fun _ ↦ none
  load := fun bytes ↦ .ok (OwnedWords.load bytes)
  parmsId := fun ct ↦ levelOf (header ct)
  scale := fun ct ↦ scaleOf (header ct)
  saveSize := fun ct ↦ (OwnedWords.save ct).length
  save := OwnedWords.save
  save_length := fun _ ↦ rfl
  multiplyPlain := fun ct pt ↦
    if header ct ≠ 0 then .error "scale out of bounds"
    else if pt.values.all (· = 0) then .error "result ciphertext is transparent"
    else .ok (store (owner ct) 1 (value ct * slotsOf pt.values))
  rescaleToNext := fun ct ↦
    if header ct = 1 then .ok (store (owner ct) 2 (value ct))
    else .error "end of modulus switching chain reached"
  rotateVector := fun ct step keys ↦
    .ok (store (if ownerWord keys = owner ct then owner ct else 2) (header ct)
      (WindowSum.rotate (step : ZMod kSlots) (value ct)))
  add := fun a b ↦
    .ok (store (if owner a = owner b then owner a else 2) (header a) (value a + value b))
  addPlain := fun ct pt ↦ .ok (store (owner ct) (header ct) (value ct + slotsOf pt.values))
  ntt := fun _ limb ↦ limb
  plaintext := fun _ _ _ ↦ ⟨true, []⟩
  loadGaloisKeys := loadKey
  galoisParmsId := fun _ ↦ 2
  galoisEltFromStep := fun step ↦ step.toNat
  hasKey := fun _ _ ↦ true
  galoisKeysSize := fun _ ↦ 8
  galoisSaveSize := fun _ ↦ 1
  loadPublicKey := loadKey
  loadSecretKey := loadKey
  encode := fun values _ ↦
    if values.all fun v ↦ |v| ≤ 1024 then .ok ⟨false, values⟩
    else .error "encoded values are too large"
  decode := fun pt ↦ .ok pt.values
  encrypt := fun key _ pt ↦ .ok (store (ownerWord key) 0 (slotsOf pt.values))
  decrypt := fun key ct ↦
    .ok ⟨false, if owner ct = ownerWord key then listOf (value ct) else List.replicate kSlots 0⟩
  inverseNttSingleLimb := fun _ ↦ .error "not in coefficient packing"
  plaintextScale := fun pt ↦ if pt.second then gScale * gScale / qLast else gScale

def precision : Precision Words Plain where
  polys := fun _ ↦ 2
  qLast := qLast
  secondParmsId := 1
  ptParmsId := fun pt ↦ if pt.second then 1 else 0
  ε := 1 / 2 ^ 21
  cap := 1024

theorem length_listOf (v : Slots ℚ) : (listOf v).length = kSlots := List.length_ofFn

theorem length_store (owner₀ header₀ : ℤ) (v : Slots ℚ) :
    (store owner₀ header₀ v).val.length = kSlots + 2 :=
  (length_place owner₀ header₀ _).trans (by rw [List.length_map, length_listOf])

/-- What is stored is half a unit off. -/
theorem value_store (owner₀ header₀ : ℤ) {v : Slots ℚ} (hv : ∀ i, |v i| ≤ 1024) (i : ZMod kSlots) :
    |value (store owner₀ header₀ v) i - v i| ≤ precision.ε := by
  have hunit : unit = 1048576 := by norm_num [unit]
  have hlist : ((listOf v).map fun x ↦ round (x * unit))[i.val]? = some (round (v i * unit)) := by
    rw [List.getElem?_map, listOf, List.getElem?_ofFn, dif_pos i.val_lt]
    exact congrArg (fun j ↦ some (round (v j * unit))) (ZMod.natCast_zmod_val i)
  have hread : value (store owner₀ header₀ v) i =
      ((round (v i * unit)).bmod (256 ^ 4) : ℤ) / unit := by
    rw [value, store, word_place owner₀ header₀ hlist]
  have hround := abs_sub_round (v i * unit)
  obtain ⟨hlow, hhigh⟩ := abs_le.mp (hv i)
  rw [hread]
  generalize round (v i * unit) = r at hround ⊢
  rw [hunit] at hround
  obtain ⟨hdown, hup⟩ := abs_le.mp hround
  have hfits : r.bmod (256 ^ 4) = r := by
    have hleft : -2147483648 ≤ r := by
      have hle : (-2147483648 : ℚ) ≤ r := by linarith
      exact_mod_cast hle
    have hright : r < 2147483648 := by
      have hlt : (r : ℚ) < 2147483648 := by linarith
      exact_mod_cast hlt
    exact Int.bmod_eq_of_le (by norm_num; exact hleft) (by norm_num; exact hright)
  have hsplit : (r : ℚ) / 1048576 - v i = -(v i * 1048576 - r) / 1048576 := by ring
  have hhalf : precision.ε = 1 / 2 / 1048576 := by norm_num [precision]
  rw [hfits, hunit, hsplit, abs_div, abs_neg, hhalf]
  gcongr
  exact le_abs_self _

theorem load_save (ct : Words) : bank.load (bank.save ct) = .ok ct :=
  congrArg Except.ok (OwnedWords.load_save (by decide) ct)

/-! ## Ciphertexts of one owner -/

section Owner

variable {key : Bool} {ct : Words} {d : Slots ℚ} {stage : Stage}

/-- What the circuit makes stays with its owner, and has 4096 slots. -/
theorem made_owner (h : Made bank key key ct) :
    owner ct = ownerWord key ∧ ct.val.length = kSlots + 2 := by
  induction h with
  | encrypt h =>
      obtain rfl := Except.ok.inj h
      exact ⟨owner_place (bmod_ownerWord (by decide) key) _ _, length_store _ _ _⟩
  | @multiplyPlain ct out pt _ h ih =>
      change (if header ct ≠ 0 then _ else if pt.values.all (· = 0) then _ else _) = _ at h
      split_ifs at h
      obtain rfl := Except.ok.inj h
      exact ⟨(owner_place (bmod_getD ct 0) _ _).trans ih.1, length_store _ _ _⟩
  | @rescaleToNext ct out _ h ih =>
      change (if header ct = 1 then _ else _) = _ at h
      split_ifs at h
      obtain rfl := Except.ok.inj h
      exact ⟨(owner_place (bmod_getD ct 0) _ _).trans ih.1, length_store _ _ _⟩
  | @rotateVector ct out step _ h ih =>
      obtain rfl := Except.ok.inj h
      rw [if_pos ih.1.symm]
      exact ⟨(owner_place (bmod_getD ct 0) _ _).trans ih.1, length_store _ _ _⟩
  | @add a b out _ _ h iha ihb =>
      obtain rfl := Except.ok.inj h
      rw [if_pos (iha.1.trans ihb.1.symm)]
      exact ⟨(owner_place (bmod_getD a 0) _ _).trans iha.1, length_store _ _ _⟩
  | @addPlain ct out pt _ h ih =>
      obtain rfl := Except.ok.inj h
      exact ⟨(owner_place (bmod_getD ct 0) _ _).trans ih.1, length_store _ _ _⟩

theorem header_of_first (h : bank.parmsId ct = bank.firstParmsId) :
    header ct = 0 ∨ header ct = 1 := by
  by_contra hne
  have hone : levelOf (header ct) = 1 := if_neg hne
  exact absurd (hone.symm.trans h) (by decide)

theorem gScale_ne_square : gScale ≠ gScale * gScale := by norm_num [gScale]

theorem header_of_fresh (hat : At bank precision key key .fresh ct) : header ct = 0 := by
  refine (header_of_first hat.parmsId).resolve_right fun hone ↦ gScale_ne_square ?_
  have hscale : scaleOf (header ct) = gScale := hat.scale
  rw [hone] at hscale
  exact hscale.symm

theorem header_of_product (hat : At bank precision key key .product ct) : header ct = 1 := by
  refine (header_of_first hat.parmsId).resolve_left fun hzero ↦ gScale_ne_square ?_
  have hscale : scaleOf (header ct) = gScale * gScale := hat.scale
  rw [hzero] at hscale
  exact hscale

end Owner

theorem saveSize_le {ct : Words} (h : ct.val.length = kSlots + 2) : bank.saveSize ct ≤ CT_BUF := by
  refine (length_save ct).trans_le ?_
  rw [h]
  decide

/-- Weights of one, and a bias of one half. -/
def constants : ServiceConstants Plain where
  packingMode := .slot
  bias := 1 / 2
  ptWeights := ⟨false, listOf (tileWeights (List.ofFn fun _ : Fin 256 ↦ 1))⟩
  ptBias := ⟨true, listOf (biasVector (1 / 2))⟩
  ptWrev := ⟨false, []⟩
  cnpMaskEnabled := true

end Ppfdaas.FixedPoint
