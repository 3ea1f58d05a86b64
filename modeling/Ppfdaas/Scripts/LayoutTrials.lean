import Mathlib.Data.List.GetD
import Ppfdaas.Library.Kronecker
import Ppfdaas.Library.Negacyclic
import Ppfdaas.Scoring.WeightWriter
import Ppfdaas.Scripts.CnpGate

/-!
# The layout trials

The two products modulo `X ^ N + 1` that the gate compares: one multiplication
of long integers, cut into slots of 64 bits, and shifts and additions in int64.
-/

namespace Ppfdaas.CnpGate

open Kronecker WeightFile WeightWriter

/-! ## `negacyclic_mul_exact` -/

inductive ExactError
  | assertion
  | emptyMax
  | overflow
  | broadcast
  deriving DecidableEq, Repr

def amax (v : List ℤ) : Except ExactError ℤ := v.max?.elim (.error .emptyMax) .ok

def amin (v : List ℤ) : Except ExactError ℤ := v.min?.elim (.error .emptyMax) .ok

/-- The conditions of the assertion, in its order. -/
def checkRange (a b : List ℤ) : Except ExactError Unit := do
  if 256 < b.length then throw .assertion
  else
    let maxA ← amax a
    if 2 ^ 25 ≤ maxA then throw .assertion
    else
      let maxB ← amax b
      if 2 ^ 25 ≤ maxB then throw .assertion
      else
        let minA ← amin a
        if minA < 0 then throw .assertion
        else
          let minB ← amin b
          if minB < 0 then throw .assertion
          else pure ()

/-- `np.asarray(v, dtype="<u8")`. -/
def asUint64 (v : List ℤ) : List ℕ := v.map fun x ↦ (x % 2 ^ 64).toNat

/-- `int.from_bytes(v.tobytes(), "little")`. -/
def fromBytes (v : List ℕ) : ℕ := littleEndian (v.flatMap (pack 8))

def toBytes (value nbytes : ℕ) : Except ExactError Bytes :=
  if value < 256 ^ nbytes then .ok (pack nbytes value) else .error .overflow

/-- `np.frombuffer(buffer, dtype="<u8")` on whole elements. -/
def frombuffer (buffer : Bytes) : List ℕ :=
  (List.range (buffer.length / 8)).map fun s ↦ littleEndian ((buffer.drop (8 * s)).take 8)

/-- The slots `c` of the product. -/
def slots (a b : List ℤ) : Except ExactError (List ℕ) :=
  frombuffer <$> toBytes (fromBytes (asUint64 a) * fromBytes (asUint64 b))
    (8 * (a.length + b.length))

/-- `folded[:len(hi)] -= hi`. -/
def foldSlotsInto (lo hi : List ℤ) : Except ExactError (List ℤ) :=
  if hi.length ≤ lo.length then .ok (lo.mapIdx fun i v ↦ v - hi.getD i 0)
  else .error .broadcast

def negacyclic_mul_exact (a b : List ℤ) (N : ℕ) : Except ExactError (List ℤ × List ℤ) := do
  checkRange a b
  let c ← slots a b
  let c := c.map fun (v : ℕ) ↦ (v : ℤ)
  let folded ← foldSlotsInto (c.take N) (c.drop N)
  pure (folded, c.drop N)

/-! ## `naive_negacyclic` -/

/-- What int64 arithmetic makes of an integer. -/
def int64 (v : ℤ) : ℤ := v.bmod (2 ^ 64)

/-- `out[d:] += a[:N - d] * bd` and `out[:d] -= a[N - d:] * bd`. -/
def naiveStep (a : List ℤ) (N : ℕ) (out : List ℤ) (term : ℤ × ℕ) : List ℤ :=
  out.mapIdx fun i v ↦
    if term.2 ≤ i then int64 (v + int64 (a.getD (i - term.2) 0 * term.1))
    else int64 (v - int64 (a.getD (N - term.2 + i) 0 * term.1))

/-- For no more than `N` coefficients in `b`. -/
def naive_negacyclic (a b : List ℤ) (N : ℕ) : List ℤ :=
  b.zipIdx.foldl (naiveStep a N) (List.replicate N 0)

/-! ## The product as integers -/

/-- What coefficient `j` of `b` adds to coefficient `i`. -/
def foldTerm (a b : List ℤ) (N i j : ℕ) : ℤ :=
  if j ≤ i then a.getD (i - j) 0 * b.getD j 0 else -(a.getD (N - j + i) 0 * b.getD j 0)

/-- The operands of a trial. -/
structure Operands (a b : List ℤ) (N : ℕ) : Prop where
  length_a : a.length = N
  length_b : b.length ≤ N
  pos : 0 < b.length
  short : b.length ≤ 256
  range_a : ∀ v ∈ a, 0 ≤ v ∧ v < 2 ^ 25
  range_b : ∀ v ∈ b, 0 ≤ v ∧ v < 2 ^ 25

def exact (a b : List ℤ) (N i : ℕ) : ℤ := ∑ j ∈ Finset.range b.length, foldTerm a b N i j

theorem getD_range {v : List ℤ} (h : ∀ x ∈ v, 0 ≤ x ∧ x < 2 ^ 25) (i : ℕ) :
    0 ≤ v.getD i 0 ∧ v.getD i 0 < 2 ^ 25 := by
  rcases lt_or_ge i v.length with hi | hi
  · rw [List.getD_eq_getElem _ _ hi]
    exact h _ (List.getElem_mem hi)
  · rw [List.getD_eq_default _ _ hi]
    norm_num

namespace Operands

variable {a b : List ℤ} {N : ℕ} (h : Operands a b N)
include h

theorem abs_product_le (i j : ℕ) : |a.getD i 0 * b.getD j 0| ≤ 2 ^ 50 := by
  obtain ⟨ha, ha'⟩ := getD_range h.range_a i
  obtain ⟨hb, hb'⟩ := getD_range h.range_b j
  rw [abs_of_nonneg (mul_nonneg ha hb)]
  calc a.getD i 0 * b.getD j 0 ≤ 2 ^ 25 * 2 ^ 25 := mul_le_mul ha'.le hb'.le hb (by norm_num)
    _ = 2 ^ 50 := by norm_num

theorem abs_foldTerm_le (i j : ℕ) : |foldTerm a b N i j| ≤ 2 ^ 50 := by
  rw [foldTerm]
  split_ifs
  · exact h.abs_product_le _ _
  · rw [abs_neg]
    exact h.abs_product_le _ _

/-- No partial sum reaches `2 ^ 58`. -/
theorem abs_partial_le (i : ℕ) {d : ℕ} (hd : d ≤ b.length) :
    |∑ j ∈ Finset.range d, foldTerm a b N i j| ≤ 2 ^ 58 := by
  calc |∑ j ∈ Finset.range d, foldTerm a b N i j|
      ≤ ∑ j ∈ Finset.range d, |foldTerm a b N i j| := Finset.abs_sum_le_sum_abs _ _
    _ ≤ Finset.card (Finset.range d) • 2 ^ 50 :=
        Finset.sum_le_card_nsmul _ _ _ fun j _ ↦ h.abs_foldTerm_le i j
    _ = (d : ℤ) * 2 ^ 50 := by rw [Finset.card_range, nsmul_eq_mul]
    _ ≤ 256 * 2 ^ 50 := by
        have hle : (d : ℤ) ≤ 256 := by exact_mod_cast hd.trans h.short
        exact mul_le_mul_of_nonneg_right hle (by norm_num)
    _ = 2 ^ 58 := by norm_num

end Operands

theorem int64_of_abs_le {v : ℤ} (h : |v| ≤ 2 ^ 58) : int64 v = v := by
  rw [abs_le] at h
  exact Int.bmod_eq_of_le (by norm_num at h ⊢; omega) (by norm_num at h ⊢; omega)

/-- The shifts and additions, with `d` of them done. -/
theorem naive_take {a b : List ℤ} {N : ℕ} (h : Operands a b N) {d : ℕ} (hd : d ≤ b.length) :
    naive_negacyclic a (b.take d) N =
      (List.range N).map fun i ↦ ∑ j ∈ Finset.range d, foldTerm a b N i j := by
  induction d with
  | zero => simp [naive_negacyclic]
  | succ d ih =>
      have hlt : d < b.length := hd
      have htake : b.take (d + 1) = b.take d ++ [b.getD d 0] := by
        rw [List.take_add_one, List.getElem?_eq_getElem hlt, List.getD_eq_getElem _ _ hlt]
        rfl
      have hstep : naive_negacyclic a (b.take (d + 1)) N =
          naiveStep a N (naive_negacyclic a (b.take d) N) (b.getD d 0, d) := by
        rw [naive_negacyclic, htake, List.zipIdx_append, List.foldl_append, List.length_take,
          min_eq_left hlt.le, zero_add]
        rfl
      rw [hstep, ih hlt.le, naiveStep]
      apply List.ext_getElem
      · simp
      · intro i h₁ h₂
        have hprev := h.abs_partial_le i hlt.le
        have hnext := h.abs_partial_le i hd
        have hproduct : ∀ k, int64 (a.getD k 0 * b.getD d 0) = a.getD k 0 * b.getD d 0 :=
          fun k ↦ int64_of_abs_le ((h.abs_product_le k d).trans (by norm_num))
        rw [Finset.sum_range_succ, foldTerm] at hnext
        simp only [List.getElem_mapIdx, List.getElem_map, List.getElem_range, hproduct,
          Finset.sum_range_succ, foldTerm]
        split_ifs with hle
        · rw [if_pos hle] at hnext
          exact int64_of_abs_le hnext
        · rw [if_neg hle] at hnext
          rw [← sub_eq_add_neg] at hnext ⊢
          exact int64_of_abs_le hnext

theorem naive_eq_exact {a b : List ℤ} {N : ℕ} (h : Operands a b N) :
    naive_negacyclic a b N = (List.range N).map (exact a b N) := by
  have hall := naive_take h le_rfl
  rwa [List.take_length] at hall

/-! ## Bytes and slots -/

theorem littleEndian_append (x y : Bytes) :
    littleEndian (x ++ y) = littleEndian x + 256 ^ x.length * littleEndian y := by
  simp only [littleEndian, List.map_append, Nat.ofDigits_append, List.length_map]

theorem fromBytes_eq_ofDigits {l : List ℕ} (h : ∀ x ∈ l, x < 2 ^ 64) :
    fromBytes l = Nat.ofDigits (2 ^ 64) l := by
  induction l with
  | nil => rfl
  | cons x l ih =>
      have hx : x < 256 ^ 8 := h x List.mem_cons_self
      have hrest := ih fun y hy ↦ h y (List.mem_cons_of_mem x hy)
      rw [fromBytes] at hrest
      rw [fromBytes, List.flatMap_cons, littleEndian_append, length_pack, hrest, littleEndian_pack,
        Nat.mod_eq_of_lt hx, Nat.ofDigits_cons]
      norm_num

theorem drop_pack (k n value : ℕ) :
    (pack (n + k) value).drop k = pack n (value / 256 ^ k) := by
  induction k generalizing value with
  | zero => simp
  | succ k ih =>
      rw [← add_assoc, pack_succ, List.drop_succ_cons, ih, Nat.div_div_eq_div_mul, ← pow_succ']

theorem take_pack (k n value : ℕ) : (pack (k + n) value).take k = pack k value := by
  rw [pack, ← List.map_take, List.take_range, min_eq_left (Nat.le_add_right k n), pack]

/-- Cutting the bytes of a number into slots of 64 bits. -/
theorem frombuffer_pack (n value : ℕ) :
    frombuffer (pack (8 * n) value) =
      (List.range n).map fun s ↦ value / (2 ^ 64) ^ s % 2 ^ 64 := by
  rw [frombuffer, length_pack, Nat.mul_div_cancel_left _ (by norm_num)]
  refine List.map_congr_left fun s hs ↦ ?_
  obtain ⟨m, hm⟩ := Nat.exists_eq_add_of_lt (List.mem_range.mp hs)
  have hsplit : 8 * n = 8 + 8 * m + 8 * s := by omega
  have hbase : 256 ^ (8 * s) = (2 ^ 64) ^ s := by rw [pow_mul]; norm_num
  rw [hsplit, drop_pack, take_pack, littleEndian_pack, hbase]
  norm_num

theorem asUint64_getD (v : List ℤ) (i : ℕ) :
    (asUint64 v).getD i 0 = (v.getD i 0 % 2 ^ 64).toNat := by
  rw [asUint64, List.getD_eq_getElem?_getD, List.getElem?_map, List.getD_eq_getElem?_getD]
  cases v[i]? <;> rfl

/-- A coefficient of the product before the folding. -/
def unfolded (a b : List ℤ) (s : ℕ) : ℤ :=
  ∑ j ∈ Finset.range b.length, if j ≤ s then a.getD (s - j) 0 * b.getD j 0 else 0

section Slots

variable {a b : List ℤ} {N : ℕ} (h : Operands a b N)
include h

theorem Operands.slot_eq_unfolded (s : ℕ) :
    (convolve (asUint64 a) (asUint64 b) s : ℤ) = unfolded a b s := by
  have hcast : ∀ v : List ℤ, (∀ x ∈ v, 0 ≤ x ∧ x < 2 ^ 25) → ∀ i,
      ((asUint64 v).getD i 0 : ℤ) = v.getD i 0 := by
    intro v hv i
    obtain ⟨hnonneg, hlt⟩ := getD_range hv i
    rw [asUint64_getD, Int.emod_eq_of_lt hnonneg (hlt.trans (by norm_num)),
      Int.toNat_of_nonneg hnonneg]
  rw [convolve, unfolded, asUint64, List.length_map]
  push_cast
  refine Finset.sum_congr rfl fun j _ ↦ ?_
  split_ifs
  · rw [← hcast a h.range_a, ← hcast b h.range_b]
    rfl
  · rfl

theorem Operands.slot_lt (s : ℕ) : convolve (asUint64 a) (asUint64 b) s < 2 ^ 64 := by
  have hsmall : ∀ v : List ℤ, (∀ x ∈ v, 0 ≤ x ∧ x < 2 ^ 25) → ∀ i,
      (asUint64 v).getD i 0 ≤ 2 ^ 25 := by
    intro v hv i
    obtain ⟨hnonneg, hlt⟩ := getD_range hv i
    rw [asUint64_getD, Int.emod_eq_of_lt hnonneg (hlt.trans (by norm_num))]
    omega
  calc convolve (asUint64 a) (asUint64 b) s
      ≤ (asUint64 b).length * (2 ^ 25 * 2 ^ 25) :=
        convolve_le (hsmall a h.range_a) (hsmall b h.range_b) s
    _ ≤ 256 * (2 ^ 25 * 2 ^ 25) := by
        rw [asUint64, List.length_map]
        exact Nat.mul_le_mul_right _ h.short
    _ < 2 ^ 64 := by norm_num

/-- The slots are the coefficients of the product: nothing carries over. -/
theorem Operands.slots_ok :
    slots a b = .ok ((List.range (a.length + b.length)).map
      (convolve (asUint64 a) (asUint64 b))) := by
  have hdigit : ∀ v : List ℤ, ∀ x ∈ asUint64 v, x < 2 ^ 64 := by
    intro v x hx
    obtain ⟨y, -, rfl⟩ := List.mem_map.mp hx
    omega
  have hlength : ∀ v : List ℤ, (asUint64 v).length = v.length := fun v ↦ List.length_map _
  have hproduct := ofDigits_mul (2 ^ 64) (asUint64 a) (asUint64 b)
  have hbase : 256 ^ (8 * (a.length + b.length)) = (2 ^ 64) ^ (a.length + b.length) := by
    rw [pow_mul]
    norm_num
  have hfits : fromBytes (asUint64 a) * fromBytes (asUint64 b) <
      256 ^ (8 * (a.length + b.length)) := by
    rw [fromBytes_eq_ofDigits (hdigit a), fromBytes_eq_ofDigits (hdigit b), hbase, pow_add,
      ← hlength a, ← hlength b]
    exact Nat.mul_lt_mul'' (Nat.ofDigits_lt_base_pow_length (by norm_num) (hdigit a))
      (Nat.ofDigits_lt_base_pow_length (by norm_num) (hdigit b))
  rw [slots, toBytes, if_pos hfits]
  refine congrArg Except.ok ((frombuffer_pack _ _).trans ?_)
  refine List.map_congr_left fun s hs ↦ ?_
  rw [fromBytes_eq_ofDigits (hdigit a), fromBytes_eq_ofDigits (hdigit b)]
  exact mul_div_pow_mod _ h.slot_lt (by rwa [hlength, hlength, ← List.mem_range])

theorem Operands.checkRange_ok : checkRange a b = .ok () := by
  have hmax : ∀ v : List ℤ, v ≠ [] → (∀ x ∈ v, 0 ≤ x ∧ x < 2 ^ 25) →
      ∃ m, amax v = .ok m ∧ ¬ 2 ^ 25 ≤ m := by
    intro v hne hv
    obtain ⟨m, hm⟩ := Option.isSome_iff_exists.mp (List.isSome_max?_of_ne_nil hne)
    exact ⟨m, by rw [amax, hm]; rfl, not_le.mpr (hv m (List.max?_mem hm)).2⟩
  have hmin : ∀ v : List ℤ, v ≠ [] → (∀ x ∈ v, 0 ≤ x ∧ x < 2 ^ 25) →
      ∃ m, amin v = .ok m ∧ ¬ m < 0 := by
    intro v hne hv
    obtain ⟨m, hm⟩ := Option.isSome_iff_exists.mp (List.isSome_min?_of_ne_nil hne)
    exact ⟨m, by rw [amin, hm]; rfl, not_lt.mpr (hv m (List.min?_mem hm)).1⟩
  have hb : b ≠ [] := List.ne_nil_of_length_pos h.pos
  have ha : a ≠ [] := by
    refine List.ne_nil_of_length_pos ?_
    rw [h.length_a]
    exact h.pos.trans_le h.length_b
  obtain ⟨maxA, hmaxA, hlowA⟩ := hmax a ha h.range_a
  obtain ⟨maxB, hmaxB, hlowB⟩ := hmax b hb h.range_b
  obtain ⟨minA, hminA, hposA⟩ := hmin a ha h.range_a
  obtain ⟨minB, hminB, hposB⟩ := hmin b hb h.range_b
  rw [checkRange, if_neg (not_lt.mpr h.short), hmaxA]
  change (if 2 ^ 25 ≤ maxA then _ else _) = _
  rw [if_neg hlowA, hmaxB]
  change (if 2 ^ 25 ≤ maxB then _ else _) = _
  rw [if_neg hlowB, hminA]
  change (if minA < 0 then _ else _) = _
  rw [if_neg hposA, hminB]
  change (if minB < 0 then _ else _) = _
  rw [if_neg hposB]
  rfl

/-- Folding the upper part onto the lower one gives the negacyclic coefficients. -/
theorem Operands.unfolded_sub (i : ℕ) :
    unfolded a b i - unfolded a b (N + i) = exact a b N i := by
  rw [unfolded, unfolded, exact, ← Finset.sum_sub_distrib]
  refine Finset.sum_congr rfl fun j hj ↦ ?_
  have hj : j < N := (Finset.mem_range.mp hj).trans_le h.length_b
  rw [foldTerm, if_pos (show j ≤ N + i by omega)]
  by_cases hle : j ≤ i
  · rw [if_pos hle, if_pos hle, List.getD_eq_default a 0 (n := N + i - j)
      (by rw [h.length_a]; omega), zero_mul, sub_zero]
  · rw [if_neg hle, if_neg hle, zero_sub, show N + i - j = N - j + i by omega]

theorem Operands.mul_exact_ok : ∃ hi, negacyclic_mul_exact a b N =
    .ok ((List.range N).map (exact a b N), hi) := by
  set cut := ((List.range (a.length + b.length)).map
    (convolve (asUint64 a) (asUint64 b))).map fun (v : ℕ) ↦ (v : ℤ) with hcut
  have hslot : ∀ s, s < a.length + b.length → cut[s]? = some (unfolded a b s) := by
    intro s hs
    rw [hcut, List.map_map, List.getElem?_map, List.getElem?_range hs]
    exact congrArg some (h.slot_eq_unfolded s)
  have hlength : cut.length = N + b.length := by
    rw [hcut, List.length_map, List.length_map, List.length_range, h.length_a]
  have hle : (cut.drop N).length ≤ (cut.take N).length := by
    rw [List.length_drop, List.length_take, hlength]
    have := h.length_b
    omega
  have hfold : foldSlotsInto (cut.take N) (cut.drop N) =
      .ok ((List.range N).map (exact a b N)) := by
    rw [foldSlotsInto, if_pos hle]
    refine congrArg Except.ok (List.ext_getElem? fun i ↦ ?_)
    rw [List.getElem?_mapIdx, List.getElem?_map]
    rcases lt_or_ge i N with hi | hi
    · have hhigh : (cut.drop N).getD i 0 = unfolded a b (N + i) := by
        rw [List.getD_eq_getElem?_getD, List.getElem?_drop]
        rcases lt_or_ge i b.length with hib | hib
        · rw [hslot _ (by rw [h.length_a]; omega)]
          rfl
        · rw [List.getElem?_eq_none (by rw [hlength]; omega), unfolded]
          refine (Finset.sum_eq_zero fun j hj ↦ ?_).symm
          have hj := Finset.mem_range.mp hj
          rw [List.getD_eq_default a 0 (n := N + i - j) (by rw [h.length_a]; omega), zero_mul,
            ite_self]
      rw [List.getElem?_take_of_lt hi, hslot i (by rw [h.length_a]; omega), List.getElem?_range hi,
        hhigh]
      exact congrArg some (h.unfolded_sub i)
    · rw [List.getElem?_eq_none (by rw [List.length_take]; omega),
        List.getElem?_eq_none (by rw [List.length_range]; exact hi)]
      rfl
  refine ⟨cut.drop N, ?_⟩
  rw [negacyclic_mul_exact, h.checkRange_ok, h.slots_ok]
  change (foldSlotsInto (cut.take N) (cut.drop N)).bind (fun folded ↦ pure (folded, cut.drop N)) = _
  rw [hfold]
  rfl

end Slots

/-! ## The quotient ring -/

/-- The vector of the coefficients below `N`. -/
def coefficients (N : ℕ) (v : List ℤ) (i : Fin N) : ℤ := v.getD i 0

theorem exact_eq_mul {a b : List ℤ} {N : ℕ} (hb : b.length ≤ N) (i : Fin N) :
    exact a b N i = Negacyclic.mul (coefficients N a) (coefficients N b) i := by
  have hterm : ∀ j : Fin N, foldTerm a b N i j =
      if j ≤ i then coefficients N a (i - j) * coefficients N b j
      else -(coefficients N a (i - j) * coefficients N b j) := by
    intro j
    simp only [coefficients, foldTerm, Fin.le_def]
    split_ifs with hle
    · rw [Fin.sub_val_of_le hle]
    · rw [Fin.coe_sub_iff_lt.mpr (Fin.lt_def.mpr (not_le.mp hle)), show N + i.val - j.val =
        N - j.val + i.val by omega]
  have htail : ∀ j ∈ Finset.range N, j ∉ Finset.range b.length → foldTerm a b N i j = 0 := by
    intro j _ hj
    have hge : b.length ≤ j := by rwa [Finset.mem_range, not_lt] at hj
    rw [foldTerm, List.getD_eq_default b 0 hge]
    simp
  calc exact a b N i = ∑ j ∈ Finset.range N, foldTerm a b N i j :=
        Finset.sum_subset (Finset.range_subset_range.mpr hb) htail
    _ = ∑ j : Fin N, foldTerm a b N i j := (Finset.sum_range _)
    _ = Negacyclic.mul (coefficients N a) (coefficients N b) i :=
        Finset.sum_congr rfl fun j _ ↦ hterm j

theorem naive_eq_ofFn {a b : List ℤ} {N : ℕ} (h : Operands a b N) :
    naive_negacyclic a b N =
      List.ofFn (Negacyclic.mul (coefficients N a) (coefficients N b)) := by
  rw [naive_eq_exact h]
  apply List.ext_getElem
  · simp
  · intro i h₁ h₂
    rw [List.getElem_map, List.getElem_range, List.getElem_ofFn, ← exact_eq_mul h.length_b]

theorem coefficients_ofFn {N : ℕ} (v : Fin N → ℤ) : coefficients N (List.ofFn v) = v := by
  funext i
  simp [coefficients]

/-- With the weights reversed, the last coefficient of a block is its score. -/
theorem naive_dot {a w : List ℤ} {N L k : ℕ} (h : Operands a w.reverse N) (hN : N = 256 * L)
    (hw : w.length = 256) (hk : k < L) :
    (naive_negacyclic a w.reverse N).getD (256 * k + 255) 0 =
      ∑ j ∈ Finset.range 256, a.getD (256 * k + j) 0 * w.getD j 0 := by
  have hbase : 256 * k + 256 ≤ N := by omega
  have hzero : ∀ c : Fin N, 256 ≤ c.val → coefficients N w.reverse c = 0 := fun c hc ↦
    List.getD_eq_default _ _ (by rw [List.length_reverse, hw]; exact hc)
  have hwindow := Negacyclic.mul_window (coefficients N a) (coefficients N w.reverse)
    (show 0 < 256 by norm_num) hbase hzero
  have hget : (naive_negacyclic a w.reverse N).getD (256 * k + 255) 0 =
      Negacyclic.mul (coefficients N a) (coefficients N w.reverse)
        ⟨256 * k + (256 - 1), by omega⟩ := by
    rw [naive_eq_ofFn h]
    exact congrFun (coefficients_ofFn _) ⟨256 * k + 255, by omega⟩
  rw [hget, hwindow, Finset.sum_range]
  refine Finset.sum_congr rfl fun j _ ↦ ?_
  have hreverse : w.reverse.getD (256 - 1 - j) 0 = w.getD j 0 := by
    rw [List.getD_eq_getElem?_getD, List.getD_eq_getElem?_getD,
      List.getElem?_reverse (by rw [hw]; omega), hw]
    congr 2
    omega
  rw [coefficients, coefficients, hreverse]

/-- The two products are the one of the quotient ring, no slot and no partial sum
leaves its 64 bits, and every block has its score at its last coefficient. -/
theorem layout_products_agree {a b : List ℤ} {N : ℕ} (h : Operands a b N) :
    (∃ hi, negacyclic_mul_exact a b N = .ok (naive_negacyclic a b N, hi)) ∧
    naive_negacyclic a b N =
      List.ofFn (Negacyclic.mul (coefficients N a) (coefficients N b)) ∧
    Negacyclic.toQuotient (coefficients N (naive_negacyclic a b N)) =
      Negacyclic.toQuotient (coefficients N a) * Negacyclic.toQuotient (coefficients N b) ∧
    (∃ cut : List ℕ, slots a b = .ok cut ∧ ∀ s < a.length + b.length, ∃ v, cut[s]? = some v ∧
      (v : ℤ) = unfolded a b s ∧ v < 2 ^ 64) ∧
    (∀ d ≤ b.length, ∀ v ∈ naive_negacyclic a (b.take d) N, |v| ≤ 2 ^ 58) ∧
    ∀ L (w : List ℤ), N = 256 * L → b = w.reverse → w.length = 256 → ∀ k < L,
      (naive_negacyclic a b N).getD (256 * k + 255) 0 =
        ∑ j ∈ Finset.range 256, a.getD (256 * k + j) 0 * w.getD j 0 := by
  refine ⟨?_, naive_eq_ofFn h, ?_, ⟨_, h.slots_ok, fun s hs ↦ ⟨_, ?_, h.slot_eq_unfolded s,
    h.slot_lt s⟩⟩, fun d hd v hv ↦ ?_, ?_⟩
  · rw [naive_eq_exact h]
    exact h.mul_exact_ok
  · have : NeZero N := ⟨(h.pos.trans_le h.length_b).ne'⟩
    rw [naive_eq_ofFn h, coefficients_ofFn, Negacyclic.toQuotient_mul]
  · rw [List.getElem?_map, List.getElem?_range hs]
    rfl
  · rw [naive_take h hd] at hv
    obtain ⟨i, -, rfl⟩ := List.mem_map.mp hv
    exact h.abs_partial_le i hd
  · rintro L w hN rfl hw k hk
    exact naive_dot h hN hw hk

theorem layout_products_agree_two :
    ∃ hi, negacyclic_mul_exact [1, 2] [3, 4] 2 = .ok ([-5, 10], hi) := by
  have hnaive : naive_negacyclic [1, 2] [3, 4] 2 = [-5, 10] := by decide
  have hoperands : Operands [1, 2] [3, 4] 2 := by
    constructor <;> simp
  rw [← hnaive]
  exact (layout_products_agree hoperands).1

end Ppfdaas.CnpGate
