import Ppfdaas.Library.WriteLoop
import Ppfdaas.Scoring.SlotPipeline

/-!
# `PackingLayout`

The slot packing of the CKKS benchmark for any block width, and `vendor_eval`
on exact slot values with the fold that the layout describes.
-/

namespace Ppfdaas

open WindowSum WriteLoop

/-- `features`; the other default, `slots`, is `kSlots`. -/
def kPackedFeatures : ℕ := 256

/-- What the constructor throws on; its conditions are evaluated from the left. -/
def RefusesBlock (b : ℤ) : Prop :=
  b ≤ 0 ∨ b.toNat &&& (b.toNat - 1) ≠ 0 ∨ (kPackedFeatures : ℤ) < b ∨ (kSlots : ℤ) % b ≠ 0

instance (b : ℤ) : Decidable (RefusesBlock b) := inferInstanceAs (Decidable (_ ∨ _ ∨ _ ∨ _))

structure PackingLayout where
  block : ℕ
  accepted : ¬ RefusesBlock block

namespace PackingLayout

def make (b : ℤ) : Except String PackingLayout :=
  if h : RefusesBlock b then
    .error "PackingLayout: b must be a power of two dividing 256"
  else .ok ⟨b.toNat, by rwa [Int.toNat_of_nonneg (le_of_not_ge fun hle ↦ h (.inl hle))]⟩

variable (L : PackingLayout)

def txnsPerCt : ℕ := kSlots / L.block

def ctsPerBatch : ℕ := kPackedFeatures / L.block

/-- `while ((1 << r) < block) ++r`. -/
def foldRotationsFrom (block r : ℕ) : ℕ :=
  if 1 <<< r < block then foldRotationsFrom block (r + 1) else r
termination_by block - 1 <<< r
decreasing_by
  rw [Nat.shiftLeft_eq, Nat.shiftLeft_eq, pow_succ] at *
  have hpos := Nat.two_pow_pos r
  omega

def foldRotations : ℕ := foldRotationsFrom L.block 0

/-- The body of `for (int i = 1; i < block; i <<= 1)`, from a positive `i` on. -/
def foldStepsFrom (block i : ℕ) : List ℕ :=
  if 0 < i ∧ i < block then i :: foldStepsFrom block (i <<< 1) else []
termination_by block - i
decreasing_by
  rw [Nat.shiftLeft_eq]
  omega

def foldSteps : List ℕ := foldStepsFrom L.block 1

def scoreSlot (txn : ℕ) : ℕ := txn * L.block

/-- The ciphertext and the slot that feature `f` of transaction `t` goes to. -/
def place (t f : ℕ) : ℕ × ℕ := (f / L.block, t * L.block + f % L.block)

section Rows

variable {R : Type} [Zero R] [Add R] [Mul R]

def entry (rows : List (List R)) (t f : ℕ) : R := (rows.getD t []).getD f 0

/-- The assignments to `cts`, in the order of the loops. -/
def packWrites (rows : List (List R)) : List ((ℕ × ℕ) × R) :=
  (List.range L.txnsPerCt).flatMap fun t ↦
    (List.range kPackedFeatures).map fun f ↦ (L.place t f, entry rows t f)

/-- `cts` after the loops: `cts_per_batch()` vectors of `slots` entries. -/
def packed (rows : List (List R)) : List (List R) :=
  (List.range L.ctsPerBatch).map fun c ↦
    (List.range kSlots).map fun i ↦ writeAll (L.packWrites rows) (fun _ ↦ 0) (c, i)

def pack (rows : List (List R)) : Except String (List (List R)) :=
  if rows.length ≠ L.txnsPerCt then .error "pack: need exactly txns_per_ct() rows"
  else if rows.any fun row ↦ row.length ≠ kPackedFeatures then
    .error "pack: row length != features"
  else .ok (L.packed rows)

def expectedScores (x w : List (List R)) : List R :=
  (List.range L.txnsPerCt).map fun t ↦
    (List.range kPackedFeatures).foldl (fun out f ↦ out + entry x t f * entry w t f) 0

def readScores (decoded : List R) : List R :=
  (List.range L.txnsPerCt).map fun t ↦ decoded.getD (L.scoreSlot t) 0

end Rows

/-! ## `vendor_eval` -/

variable {R : Type} [CommRing R]

def encode (slots : List R) : Slots R := fun i ↦ slots.getD i.val 0

def decode (v : Slots R) : List R := (List.range kSlots).map fun i ↦ v (i : ℕ)

/-- The first part is moved into the total, the others are added to it. -/
def total (parts : List (Slots R)) : Slots R := parts.tail.foldl (· + ·) (parts.headD 0)

/-- `vendor_eval` with a reduction, on encoded ciphertexts and weights. -/
def vendorEval (reduce : Slots R → Slots R) (cts weights : List (List R)) : Slots R :=
  total (((cts.zip weights).map fun c ↦ encode c.1 * encode c.2).map reduce)

/-- The same with one reduction of the sum of the products. -/
def vendorEvalSum (reduce : Slots R → Slots R) (cts weights : List (List R)) : Slots R :=
  reduce (total ((cts.zip weights).map fun c ↦ encode c.1 * encode c.2))

/-- `acc = acc + rotate(acc, s)` for the steps of the layout. -/
def foldSlots (v : Slots R) : Slots R := fold (L.foldSteps.map fun (s : ℕ) ↦ (s : ZMod kSlots)) v

/-! ## The block -/

/-- The blocks that are accepted: 1, 2, 4 and so on up to 256. -/
theorem block_eq_two_pow : ∃ k ≤ 8, L.block = 2 ^ k := by
  have haccepted := L.accepted
  simp only [RefusesBlock, not_or, not_le, not_not, Int.toNat_natCast, not_lt] at haccepted
  obtain ⟨hpos, hand, hle, -⟩ := haccepted
  have hne : L.block ≠ 0 := by omega
  obtain ⟨k, hk⟩ := (Nat.and_sub_one_eq_zero_iff_isPowerOfTwo hne).mp hand
  refine ⟨k, ?_, hk⟩
  have h256 : 2 ^ k ≤ 2 ^ 8 := by
    rw [← hk]
    exact_mod_cast hle
  exact (Nat.pow_le_pow_iff_right (by norm_num)).mp h256

theorem block_pos : 0 < L.block := by
  obtain ⟨k, -, hk⟩ := L.block_eq_two_pow
  rw [hk]
  exact Nat.two_pow_pos k

theorem block_mul_ctsPerBatch : L.block * L.ctsPerBatch = kPackedFeatures := by
  obtain ⟨k, hle, hk⟩ := L.block_eq_two_pow
  have hdvd : L.block ∣ 2 ^ 8 := hk ▸ pow_dvd_pow 2 hle
  exact Nat.mul_div_cancel' hdvd

theorem block_mul_txnsPerCt : L.block * L.txnsPerCt = kSlots := by
  obtain ⟨k, hle, hk⟩ := L.block_eq_two_pow
  have hdvd : L.block ∣ 2 ^ 12 := hk ▸ pow_dvd_pow 2 (hle.trans (by norm_num))
  exact Nat.mul_div_cancel' hdvd

theorem foldRotationsFrom_two_pow (n r : ℕ) : foldRotationsFrom (2 ^ (r + n)) r = r + n := by
  induction n generalizing r with
  | zero =>
      rw [foldRotationsFrom, Nat.one_shiftLeft, add_zero, if_neg (lt_irrefl _)]
  | succ n ih =>
      have hlt : 1 <<< r < 2 ^ (r + (n + 1)) := by
        rw [Nat.one_shiftLeft]
        exact Nat.pow_lt_pow_right (by norm_num) (by omega)
      rw [foldRotationsFrom, if_pos hlt, show r + (n + 1) = r + 1 + n by omega, ih]

theorem foldStepsFrom_two_pow (n r : ℕ) :
    foldStepsFrom (2 ^ (r + n)) (2 ^ r) = (List.range n).map fun j ↦ 2 ^ (r + j) := by
  induction n generalizing r with
  | zero => rw [foldStepsFrom, if_neg (by simp)]; rfl
  | succ n ih =>
      have hlt : 2 ^ r < 2 ^ (r + (n + 1)) := Nat.pow_lt_pow_right (by norm_num) (by omega)
      have hnext : foldStepsFrom (2 ^ (r + (n + 1))) (2 ^ r <<< 1) =
          (List.range n).map fun j ↦ 2 ^ (r + 1 + j) := by
        rw [← ih, Nat.shiftLeft_eq, ← pow_add, show r + (n + 1) = r + 1 + n by omega]
      rw [foldStepsFrom, if_pos ⟨Nat.two_pow_pos r, hlt⟩, hnext, List.range_succ_eq_map,
        List.map_cons, List.map_map]
      simp only [add_zero, Function.comp_def, Nat.succ_eq_add_one, add_right_comm, add_assoc]

theorem length_foldSteps : L.foldSteps.length = L.foldRotations := by
  obtain ⟨k, -, hk⟩ := L.block_eq_two_pow
  have hsteps := foldStepsFrom_two_pow k 0
  have hrotations := foldRotationsFrom_two_pow k 0
  rw [zero_add, pow_zero] at hsteps
  rw [zero_add] at hrotations
  rw [foldSteps, foldRotations, hk, hsteps, hrotations, List.length_map, List.length_range]

/-- The fold sums the block that starts at each slot. -/
theorem foldSlots_apply (v : Slots R) (i : ZMod kSlots) :
    L.foldSlots v i = ∑ j ∈ Finset.range L.block, v (i + j) := by
  obtain ⟨k, -, hk⟩ := L.block_eq_two_pow
  have hsteps := foldStepsFrom_two_pow k 0
  rw [zero_add, pow_zero] at hsteps
  have hcast : (L.foldSteps.map fun (s : ℕ) ↦ (s : ZMod kSlots)) =
      (List.range k).map fun j ↦ 2 ^ j • (1 : ZMod kSlots) := by
    rw [foldSteps, hk, hsteps, List.map_map]
    refine List.map_congr_left fun j _ ↦ ?_
    simp
  rw [foldSlots, hcast, fold_doubling, hk]
  simp

/-! ## The places -/

theorem place_lt {t f : ℕ} (ht : t < L.txnsPerCt) (hf : f < kPackedFeatures) :
    (L.place t f).1 < L.ctsPerBatch ∧ (L.place t f).2 < kSlots := by
  have hmod : f % L.block < L.block := Nat.mod_lt _ L.block_pos
  refine ⟨?_, ?_⟩
  · rw [place, Nat.div_lt_iff_lt_mul L.block_pos, Nat.mul_comm, L.block_mul_ctsPerBatch]
    exact hf
  · calc t * L.block + f % L.block < t * L.block + L.block := Nat.add_lt_add_left hmod _
      _ = L.block * (t + 1) := by ring
      _ ≤ L.block * L.txnsPerCt := Nat.mul_le_mul_left _ ht
      _ = kSlots := L.block_mul_txnsPerCt

/-- A place gives back the transaction and the feature. -/
theorem place_inverse (t f : ℕ) : (L.place t f).2 / L.block = t ∧
    L.block * (L.place t f).1 + (L.place t f).2 % L.block = f := by
  have hmod : f % L.block < L.block := Nat.mod_lt _ L.block_pos
  refine ⟨?_, ?_⟩
  · rw [place, Nat.mul_comm, Nat.mul_add_div L.block_pos, Nat.div_eq_of_lt hmod, add_zero]
  · rw [place, Nat.mul_comm t, Nat.mul_add_mod, Nat.mod_mod, Nat.div_add_mod]

theorem place_injective {t t' f f' : ℕ} (h : L.place t f = L.place t' f') : t = t' ∧ f = f' := by
  obtain ⟨ht, hf⟩ := L.place_inverse t f
  obtain ⟨ht', hf'⟩ := L.place_inverse t' f'
  rw [h] at ht hf
  exact ⟨ht.symm.trans ht', hf.symm.trans hf'⟩

/-- Slot `j` of block `t` in ciphertext `c` is the place of one feature. -/
theorem place_block {t c j : ℕ} (hj : j < L.block) :
    L.place t (L.block * c + j) = (c, t * L.block + j) := by
  rw [place, Nat.mul_add_div L.block_pos, Nat.div_eq_of_lt hj, add_zero, Nat.mul_add_mod,
    Nat.mod_eq_of_lt hj]

theorem writeAll_packWrites (rows : List (List R)) {t f : ℕ} (ht : t < L.txnsPerCt)
    (hf : f < kPackedFeatures) :
    writeAll (L.packWrites rows) (fun _ ↦ 0) (L.place t f) = entry rows t f := by
  apply writeAll_of_mem
  · exact List.mem_flatMap.mpr ⟨t, List.mem_range.mpr ht,
      List.mem_map.mpr ⟨f, List.mem_range.mpr hf, rfl⟩⟩
  · intro write hwrite hplace
    obtain ⟨t', -, hwrite⟩ := List.mem_flatMap.mp hwrite
    obtain ⟨f', -, rfl⟩ := List.mem_map.mp hwrite
    obtain ⟨rfl, rfl⟩ := L.place_injective hplace
    rfl

/-- The slots of packed ciphertext `c`. -/
def packedSlots (rows : List (List R)) (c : ℕ) : Slots R := fun i ↦
  writeAll (L.packWrites rows) (fun _ ↦ 0) (c, i.val)

theorem packedSlots_block (rows : List (List R)) {t c j : ℕ} (ht : t < L.txnsPerCt)
    (hc : c < L.ctsPerBatch) (hj : j < L.block) :
    L.packedSlots rows c ((L.scoreSlot t : ℕ) + (j : ℕ)) = entry rows t (L.block * c + j) := by
  have hf : L.block * c + j < kPackedFeatures := by
    calc L.block * c + j < L.block * c + L.block := Nat.add_lt_add_left hj _
      _ = L.block * (c + 1) := by ring
      _ ≤ L.block * L.ctsPerBatch := Nat.mul_le_mul_left _ hc
      _ = kPackedFeatures := L.block_mul_ctsPerBatch
  have hplace := L.place_block (t := t) (c := c) hj
  have hlt : L.scoreSlot t + j < kSlots := by
    have h := (L.place_lt ht hf).2
    rwa [hplace] at h
  rw [packedSlots, ← Nat.cast_add, ZMod.val_natCast_of_lt hlt, scoreSlot, ← hplace,
    L.writeAll_packWrites rows ht hf]

theorem encode_packed (rows : List (List R)) (c : ℕ) :
    encode ((List.range kSlots).map fun i ↦
      writeAll (L.packWrites rows) (fun _ ↦ 0) (c, i)) = L.packedSlots rows c := by
  funext i
  have hlt : i.val < kSlots := ZMod.val_lt i
  rw [encode, List.getD_eq_getElem?_getD, List.getElem?_map, List.getElem?_range hlt]
  rfl

/-! ## The scores -/

theorem total_eq_sum (parts : List (Slots R)) : total parts = parts.sum := by
  cases parts with
  | nil => rfl
  | cons part parts => rw [total, List.sum_eq_foldl, List.foldl_cons, zero_add]; rfl

theorem foldl_add_range (f : ℕ → R) (n : ℕ) :
    (List.range n).foldl (fun out i ↦ out + f i) 0 = ∑ i ∈ Finset.range n, f i := by
  induction n with
  | zero => rfl
  | succ n ih =>
      rw [List.range_succ, List.foldl_append, ih, Finset.sum_range_succ]
      rfl

theorem sum_map_range (f : ℕ → Slots R) (n : ℕ) (i : ZMod kSlots) :
    ((List.range n).map f).sum i = ∑ c ∈ Finset.range n, f c i := by
  induction n with
  | zero => rfl
  | succ n ih =>
      rw [List.sum_range_succ, Pi.add_apply, ih, Finset.sum_range_succ]

section Scores

variable (x w : List (List R))

theorem zip_packed : ((L.packed x).zip (L.packed w)).map (fun c ↦ encode c.1 * encode c.2) =
    (List.range L.ctsPerBatch).map fun c ↦ L.packedSlots x c * L.packedSlots w c := by
  rw [packed, packed, List.zip_map', List.map_map]
  refine List.map_congr_left fun c _ ↦ ?_
  rw [Function.comp_apply, encode_packed, encode_packed]

/-- The products in the blocks of transaction `t`, over all ciphertexts. -/
theorem sum_blocks {t : ℕ} (ht : t < L.txnsPerCt) :
    ∑ c ∈ Finset.range L.ctsPerBatch, ∑ j ∈ Finset.range L.block,
        L.packedSlots x c ((L.scoreSlot t : ℕ) + (j : ℕ)) *
          L.packedSlots w c ((L.scoreSlot t : ℕ) + (j : ℕ)) =
      ∑ f ∈ Finset.range kPackedFeatures, entry x t f * entry w t f := by
  have hwindows := sum_windows 1 L.block L.ctsPerBatch (fun f ↦ entry x t f * entry w t f) 0
  simp only [zero_add, smul_eq_mul, mul_one] at hwindows
  rw [← L.block_mul_ctsPerBatch, ← hwindows]
  refine Finset.sum_congr rfl fun c hc ↦ Finset.sum_congr rfl fun j hj ↦ ?_
  rw [Finset.mem_range] at hc hj
  rw [L.packedSlots_block x ht hc hj, L.packedSlots_block w ht hc hj, Nat.mul_comm c]

theorem vendorEval_score {t : ℕ} (ht : t < L.txnsPerCt) :
    vendorEval L.foldSlots (L.packed x) (L.packed w) (L.scoreSlot t : ℕ) =
      ∑ f ∈ Finset.range kPackedFeatures, entry x t f * entry w t f := by
  rw [vendorEval, zip_packed, List.map_map, total_eq_sum, sum_map_range, ← L.sum_blocks x w ht]
  refine Finset.sum_congr rfl fun c _ ↦ ?_
  rw [Function.comp_apply, foldSlots_apply]
  rfl

theorem vendorEvalSum_score {t : ℕ} (ht : t < L.txnsPerCt) :
    vendorEvalSum L.foldSlots (L.packed x) (L.packed w) (L.scoreSlot t : ℕ) =
      ∑ f ∈ Finset.range kPackedFeatures, entry x t f * entry w t f := by
  rw [vendorEvalSum, zip_packed, total_eq_sum, foldSlots_apply, ← L.sum_blocks x w ht,
    Finset.sum_comm]
  refine Finset.sum_congr rfl fun j _ ↦ ?_
  rw [sum_map_range]
  rfl

/-- Reading the scores of decoded slots, none of them out of range. -/
theorem readScores_decode (v : Slots R) :
    L.readScores (decode v) = (List.range L.txnsPerCt).map fun t ↦ v (L.scoreSlot t : ℕ) := by
  refine List.map_congr_left fun t ht ↦ ?_
  have hlt : L.scoreSlot t < kSlots := by
    have h := (L.place_lt (List.mem_range.mp ht) (f := 0) (by decide)).2
    rwa [place, Nat.zero_mod, add_zero] at h
  rw [decode, List.getD_eq_getElem?_getD, List.getElem?_map, List.getElem?_range hlt]
  rfl

theorem readScores_eq_expectedScores {v : Slots R}
    (h : ∀ t < L.txnsPerCt, v (L.scoreSlot t : ℕ) =
      ∑ f ∈ Finset.range kPackedFeatures, entry x t f * entry w t f) :
    L.readScores (decode v) = L.expectedScores x w := by
  rw [readScores_decode, expectedScores]
  refine List.map_congr_left fun t ht ↦ ?_
  rw [h t (List.mem_range.mp ht), foldl_add_range]

end Scores

/-- The rows that `pack` takes. -/
def Fits (rows : List (List R)) : Prop :=
  rows.length = L.txnsPerCt ∧ ∀ row ∈ rows, row.length = kPackedFeatures

theorem pack_ok {rows : List (List R)} (h : L.Fits rows) : L.pack rows = .ok (L.packed rows) := by
  have hrows : ¬ (rows.any fun row ↦ row.length ≠ kPackedFeatures) = true := by
    rw [List.any_eq_true]
    rintro ⟨row, hrow, hne⟩
    exact of_decide_eq_true hne (h.2 row hrow)
  rw [pack, if_neg (not_not.mpr h.1), if_neg hrows]

theorem pack_rejects {rows : List (List R)} (h : ¬ L.Fits rows) : ∃ e, L.pack rows = .error e := by
  rw [pack]
  by_cases hlength : rows.length = L.txnsPerCt
  · have hrows : (rows.any fun row ↦ row.length ≠ kPackedFeatures) = true := by
      by_contra hall
      rw [List.any_eq_true] at hall
      refine h ⟨hlength, fun row hrow ↦ ?_⟩
      by_contra hne
      exact hall ⟨row, hrow, decide_eq_true hne⟩
    rw [if_neg (not_not.mpr hlength), if_pos hrows]
    exact ⟨_, rfl⟩
  · rw [if_pos hlength]
    exact ⟨_, rfl⟩

/-- For every block that the constructor accepts, the packed products folded and
added up, in either order, are the scores of the unpacked rows. -/
theorem fold_reads_expectedScores {b : ℤ} {L : PackingLayout} (hmake : make b = .ok L)
    {x w : List (List R)} (hx : L.Fits x) (hw : L.Fits w) :
    (L.block : ℤ) = b ∧
    (∃ cts weights, L.pack x = .ok cts ∧ L.pack w = .ok weights ∧
      L.readScores (decode (vendorEval L.foldSlots cts weights)) = L.expectedScores x w ∧
      L.readScores (decode (vendorEvalSum L.foldSlots cts weights)) = L.expectedScores x w) ∧
    (∀ t < L.txnsPerCt, ∀ f < kPackedFeatures,
      (L.place t f).1 < L.ctsPerBatch ∧ (L.place t f).2 < kSlots) ∧
    (∀ t t' f f', L.place t f = L.place t' f' → t = t' ∧ f = f') ∧
    L.foldSteps.length = L.foldRotations := by
  refine ⟨?_, ⟨_, _, L.pack_ok hx, L.pack_ok hw, ?_, ?_⟩, fun t ht f hf ↦ L.place_lt ht hf,
    fun _ _ _ _ h ↦ L.place_injective h, L.length_foldSteps⟩
  · unfold make at hmake
    split_ifs at hmake with hrefuse
    rw [RefusesBlock, not_or] at hrefuse
    rw [← Except.ok.inj hmake, Int.toNat_of_nonneg (not_le.mp hrefuse.1).le]
  · exact L.readScores_eq_expectedScores x w fun t ht ↦ L.vendorEval_score x w ht
  · exact L.readScores_eq_expectedScores x w fun t ht ↦ L.vendorEvalSum_score x w ht

/-- The only block that is run. -/
def deployed : PackingLayout := ⟨256, by decide⟩

/-- Its steps are the rotations of the service's own fold. -/
theorem foldSteps_deployed : (deployed.foldSteps.map fun (s : ℕ) ↦ (s : ℤ)) = STEPS := by
  have hsteps : foldStepsFrom 256 1 = _ := foldStepsFrom_two_pow 8 0
  rw [foldSteps, deployed, hsteps]
  decide

/-- Blocks of 64: a row goes to four ciphertexts. -/
def quarter : PackingLayout := ⟨64, by decide⟩

def rampRows (a : ℤ) : List (List ℤ) :=
  (List.range 64).map fun (t : ℕ) ↦ (List.range 256).map fun (f : ℕ) ↦ a * (256 * t + f) + 1

theorem fold_reads_expectedScores_ramp :
    quarter.readScores (decode (vendorEval quarter.foldSlots
        (quarter.packed (rampRows 1)) (quarter.packed (rampRows (-3))))) =
      quarter.expectedScores (rampRows 1) (rampRows (-3)) := by
  have hfits : ∀ a, quarter.Fits (rampRows a) := by
    refine fun a ↦ ⟨by rw [rampRows, List.length_map, List.length_range]; rfl, fun row hrow ↦ ?_⟩
    obtain ⟨t, -, rfl⟩ := List.mem_map.mp hrow
    rw [List.length_map, List.length_range, kPackedFeatures]
  have hmake : make 64 = .ok quarter := rfl
  obtain ⟨-, ⟨cts, weights, hcts, hweights, hscores, -⟩, -⟩ :=
    fold_reads_expectedScores hmake (hfits 1) (hfits (-3))
  rw [quarter.pack_ok (hfits _)] at hcts hweights
  obtain rfl := Except.ok.inj hcts
  obtain rfl := Except.ok.inj hweights
  exact hscores

end PackingLayout

end Ppfdaas
