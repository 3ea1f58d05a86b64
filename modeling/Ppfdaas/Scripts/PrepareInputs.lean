import Ppfdaas.Scripts.CnpGate
import Ppfdaas.Transcipher.AeadNonce
import Ppfdaas.Transcipher.IntegerModel

/-!
# The inputs of both homomorphic paths

`prepare_inputs.py` quantises the test set and the weights and asserts a bound
on what a row can score.  The arrays are of int64, so their arithmetic wraps.
-/

namespace Ppfdaas.PrepareInputs

open BoxSums CnpGate ExceptRuns Transcipher

/-- `T`, as `HeraModulus` and `RubatoModulus`. -/
def T : ℤ := 0x1FC0001

def LX : ℕ := 8

def LW : ℕ := 6

def rhe (a : ℚ) : ℤ := round_half_even a

/-- The value of an int64 after wrapping. -/
def int64 (v : ℤ) : ℤ := v.bmod (2 ^ 64)

/-- `astype(np.int64)` of a whole number: what does not fit becomes the least int64. -/
def asInt64 (v : ℤ) : ℤ := if -2 ^ 63 ≤ v ∧ v < 2 ^ 63 then v else -2 ^ 63

def quantiseRow (x : Columns → ℚ) (j : Columns) : ℤ := asInt64 (rhe (x j * 2 ^ LX))

def quantiseWeights (w : Columns → ℚ) (j : Columns) : ℤ := asInt64 (rhe (w j * 2 ^ LW))

def quantiseBias (bias : ℚ) : ℤ := rhe (bias * 2 ^ (LX + LW))

/-- `xq @ wq + bq`, one row. -/
def score (wq : Columns → ℤ) (bq : ℤ) (xq : Columns → ℤ) : ℤ := ∑ j, xq j * wq j + bq

/-- `np.abs(wq).sum() * 2**LX + abs(bq)`. -/
def worstCase (wq : Columns → ℤ) (bq : ℤ) : ℤ :=
  int64 (int64 (int64 (∑ j, int64 |wq j|) * 2 ^ LX) + |bq|)

def SEED : ℕ := 20260617

/-- `np.flatnonzero(y == label)`. -/
def flatnonzero (y : List UInt8) (label : UInt8) : List ℕ := y.findIdxs (· = label)

/-- `rng.choice(nf, size, replace=False)` of the generator with that seed. -/
abbrev Choice := (seed : ℕ) → (nf : List ℕ) → (size : ℕ) → List ℕ

/-- All frauds and as many other rows as make 4096.  There must be no more frauds
than that, and enough others to draw from. -/
def stratify (choice : Choice) (y : List UInt8) : Except Raised (List ℕ) :=
  let fr := flatnonzero y 1
  let nf := flatnonzero y 0
  if fr.length ≤ 4096 ∧ 4096 - fr.length ≤ nf.length then
    pure (fr ++ choice SEED nf (4096 - fr.length)).mergeSort
  else throw .sample

structure Prepared where
  xq : List (Columns → ℤ)
  wq : Columns → ℤ
  y : List UInt8
  bias_q : ℤ
  expected : List ℤ
  pick : List ℕ
  worst_case_bound : ℤ
  t_half : ℤ
  frauds : ℕ

/-- Adding the bias to an array raises when it is no int64.  Nothing compares the
number of labels with the number of rows. -/
def main (choice : Choice) (X : List (Columns → ℚ)) (y : List UInt8) (w : Columns → ℚ) (bias : ℚ) :
    Except Raised Prepared := do
  let xq := X.map quantiseRow
  let wq := quantiseWeights w
  let bq := quantiseBias bias
  let most ← maximum (xq.map fun x ↦ Finset.univ.sup' Finset.univ_nonempty fun j ↦ int64 |x j|)
  if most ≤ 2 ^ LX then
    if |bq| < 2 ^ 63 then
      let exp := xq.map fun x ↦ center (int64 (score wq bq x)) T
      let bound := worstCase wq bq
      if bound < T / 2 then
        let pick ← stratify choice y
        pure ⟨xq, wq, y, bq, exp, pick, bound, T / 2, (flatnonzero y 1).length⟩
      else throw .assertion
    else throw .overflow
  else throw .assertion

/-- The bound of the noise that a client's keystream carries and the server's does not. -/
def keystreamNoise : Backend → ℤ
  | .hera16 => 0
  | .rubato128L => RUBATO_BOUND

def NeverWraps (b : Backend) (wq : Columns → ℤ) (bq : ℤ) : Prop :=
  ∀ xq d : Columns → ℤ, (∀ j, |xq j| ≤ 2 ^ LX) → (∀ j, |d j| ≤ keystreamNoise b) →
    center (score wq bq fun j ↦ xq j + d j) T = score wq bq fun j ↦ xq j + d j

theorem keystreamNoise_nonneg (b : Backend) : 0 ≤ keystreamNoise b := by
  cases b with
  | hera16 => exact le_rfl
  | rubato128L => exact (by decide : (0 : ℤ) ≤ 9).trans RUBATO_BOUND_eq.ge

theorem center_T_eq_self_iff (v : ℤ) : center v T = v ↔ |v| ≤ T / 2 :=
  center_eq_self_iff (by decide) (by decide) v

/-- How far the scores of all rows with all noises reach. -/
theorem neverWraps_iff (b : Backend) (wq : Columns → ℤ) (bq : ℤ) :
    NeverWraps b wq bq ↔ (∑ j, |wq j|) * (2 ^ LX + keystreamNoise b) + |bq| ≤ T / 2 := by
  have hnoise := keystreamNoise_nonneg b
  rw [Finset.sum_mul, ← forall_abs_sum_le_iff (fun _ _ ↦ add_nonneg (by positivity) hnoise)]
  constructor
  · intro h x hx
    choose xq d hxq hd hsum using fun j ↦
      exists_add_of_abs_le (by positivity) hnoise (hx j (Finset.mem_univ j))
    have hexact := (center_T_eq_self_iff _).mp (h xq d hxq hd)
    simpa only [score, hsum] using hexact
  · intro h xq d hxq hd
    refine (center_T_eq_self_iff _).mpr (h _ fun j _ ↦ ?_)
    exact (abs_add_le _ _).trans (add_le_add (hxq j) (hd j))

theorem int64_eq_self {v : ℤ} (h : |v| < 2 ^ 63) : int64 v = v := by
  obtain ⟨hlow, hhigh⟩ := abs_lt.mp h
  exact Int.bmod_eq_of_le (by omega) (by omega)

theorem worstCase_of_lt {wq : Columns → ℤ} {bq : ℤ}
    (h : (∑ j, |wq j|) * 2 ^ LX + |bq| < 2 ^ 63) :
    worstCase wq bq = (∑ j, |wq j|) * 2 ^ LX + |bq| := by
  have hbq := abs_nonneg bq
  have hsum : 0 ≤ ∑ j, |wq j| := Finset.sum_nonneg fun j _ ↦ abs_nonneg _
  have hLX : (2 : ℤ) ^ LX = 256 := by decide
  rw [hLX] at h
  have hterm : ∀ j, int64 |wq j| = |wq j| := by
    intro j
    have hle := Finset.single_le_sum (fun j _ ↦ abs_nonneg (wq j)) (Finset.mem_univ j)
    exact int64_eq_self (by rw [abs_abs]; omega)
  simp only [worstCase, hterm, hLX]
  have htotal : int64 (∑ j, |wq j|) = ∑ j, |wq j| :=
    int64_eq_self (abs_lt.mpr ⟨by omega, by omega⟩)
  have hscaled : int64 ((∑ j, |wq j|) * 256) = (∑ j, |wq j|) * 256 :=
    int64_eq_self (abs_lt.mpr ⟨by omega, by omega⟩)
  rw [htotal, hscaled]
  exact int64_eq_self (abs_lt.mpr ⟨by omega, by omega⟩)

theorem maximum_le {v : List ℤ} {b : ℤ} (hne : v ≠ []) (h : ∀ a ∈ v, a ≤ b) :
    ∃ m ≤ b, maximum v = .ok m := by
  obtain ⟨m, hm⟩ := Option.isSome_iff_exists.mp (List.isSome_max?_of_ne_nil hne)
  refine ⟨m, h m (List.max?_mem hm), ?_⟩
  rw [maximum, hm]
  rfl

section Main

variable {choice : Choice} {X : List (Columns → ℚ)} {y : List UInt8} {w : Columns → ℚ} {bias : ℚ}
  {out : Prepared}

/-- What all the checks have let through. -/
theorem main_ok (h : main choice X y w bias = .ok out) :
    (∃ most ≤ 2 ^ LX, maximum ((X.map quantiseRow).map fun x ↦
      Finset.univ.sup' Finset.univ_nonempty fun j ↦ int64 |x j|) = .ok most) ∧
    worstCase (quantiseWeights w) (quantiseBias bias) < T / 2 ∧
    ∃ pick, stratify choice y = .ok pick ∧
      out = { xq := X.map quantiseRow
              wq := quantiseWeights w
              y := y
              bias_q := quantiseBias bias
              expected := (X.map quantiseRow).map fun x ↦
                center (int64 (score (quantiseWeights w) (quantiseBias bias) x)) T
              pick := pick
              worst_case_bound := worstCase (quantiseWeights w) (quantiseBias bias)
              t_half := T / 2
              frauds := (flatnonzero y 1).length } := by
  obtain ⟨most, hmost, h⟩ := bind_ok h
  obtain ⟨hle, h⟩ := ite_throw_ok h
  obtain ⟨-, h⟩ := ite_throw_ok h
  obtain ⟨hbound, h⟩ := ite_throw_ok h
  obtain ⟨pick, hpick, h⟩ := bind_ok h
  exact ⟨⟨most, hle, hmost⟩, hbound, pick, hpick, (Except.ok.inj h).symm⟩

/-- The check leaves out the noise.  What it accepts never wraps exactly when the
bound holds with the noise added, which for HERA is what was checked. -/
theorem range_check_sound_iff (h : main choice X y w bias = .ok out) :
    (∀ b, NeverWraps b out.wq out.bias_q ↔
      (∑ j, |quantiseWeights w j|) * (2 ^ LX + keystreamNoise b) + |quantiseBias bias| ≤ T / 2) ∧
    ((∑ j, |quantiseWeights w j|) * 2 ^ LX + |quantiseBias bias| < 2 ^ 63 →
      NeverWraps .hera16 out.wq out.bias_q) := by
  obtain ⟨-, hcheck, pick, -, rfl⟩ := main_ok h
  refine ⟨fun b ↦ neverWraps_iff b _ _, fun hlt ↦ (neverWraps_iff _ _ _).mpr ?_⟩
  rw [worstCase_of_lt hlt] at hcheck
  rw [keystreamNoise, add_zero]
  exact hcheck.le

theorem abs_quantiseRow {x : Columns → ℚ} {j : Columns} (h : |rhe (x j * 2 ^ LX)| < 2 ^ 63) :
    quantiseRow x j = rhe (x j * 2 ^ LX) ∧ int64 |quantiseRow x j| = |quantiseRow x j| := by
  obtain ⟨hlow, hhigh⟩ := abs_lt.mp h
  have hvalue : quantiseRow x j = rhe (x j * 2 ^ LX) := if_pos ⟨hlow.le, hhigh⟩
  rw [hvalue]
  exact ⟨rfl, int64_eq_self (by rwa [abs_abs])⟩

/-- Rows within the range, enough labels of both kinds and a sum within the bound. -/
theorem main_returns (hne : X ≠ []) (hX : ∀ x ∈ X, ∀ j, |rhe (x j * 2 ^ LX)| ≤ 2 ^ LX)
    (hbias : |quantiseBias bias| < 2 ^ 63)
    (hbound : worstCase (quantiseWeights w) (quantiseBias bias) < T / 2)
    (hfrauds : y.countP (· = 1) ≤ 4096) (hothers : 4096 ≤ y.countP (· = 1) + y.countP (· = 0)) :
    ∃ out, main choice X y w bias = .ok out := by
  obtain ⟨most, hle, hmost⟩ : ∃ m ≤ (2 : ℤ) ^ LX, maximum ((X.map quantiseRow).map fun x ↦
      Finset.univ.sup' Finset.univ_nonempty fun j ↦ int64 |x j|) = .ok m := by
    refine maximum_le (by simpa using hne) ?_
    simp only [List.map_map, List.mem_map, Function.comp_apply]
    rintro _ ⟨x, hx, rfl⟩
    refine Finset.sup'_le _ _ fun j _ ↦ ?_
    have hLX : (2 : ℤ) ^ LX < 2 ^ 63 := by decide
    obtain ⟨hvalue, hint64⟩ := abs_quantiseRow ((hX x hx j).trans_lt hLX)
    rw [hint64, hvalue]
    exact hX x hx j
  have hlabels : (flatnonzero y 1).length ≤ 4096 ∧
      4096 - (flatnonzero y 1).length ≤ (flatnonzero y 0).length := by
    simp only [flatnonzero, List.length_findIdxs]
    omega
  have hpick : stratify choice y = .ok _ := if_pos hlabels
  unfold main
  simp only [hmost, bind, Except.bind, if_pos hle, if_pos hbias, if_pos hbound, hpick]
  exact ⟨_, rfl⟩

end Main

/-! ## 4100 rows -/

/-- Every entry of a row is another multiple of `1 / 256`. -/
def rampRow (i : ℕ) (j : Columns) : ℚ := ((i + j) % 256 + 1 : ℕ) / 256

def rampRows : List (Columns → ℚ) := (List.range 4100).map rampRow

/-- 100 frauds. -/
def rampLabels : List UInt8 := List.replicate 100 1 ++ List.replicate 4000 0

/-- A generator that draws the first rows. -/
def firstRows : Choice := fun _ nf size ↦ nf.take size

/-- All the weights are `253 / 64`: the bound is met, by less than the noise adds. -/
def heavyWeights : Columns → ℚ := fun _ ↦ 253 / 64

theorem rhe_intCast (v : ℤ) : rhe v = v := Rounding.isRounding_halfEven.intCast v

theorem quantiseWeights_heavy : quantiseWeights heavyWeights = fun _ ↦ 253 := by
  funext j
  have harg : (253 / 64 : ℚ) * 2 ^ LW = (253 : ℤ) := by norm_num [LW]
  rw [quantiseWeights, heavyWeights, harg, rhe_intCast]
  decide

theorem quantiseBias_zero : quantiseBias 0 = 0 := by
  rw [quantiseBias, zero_mul]
  exact rhe_intCast 0

theorem rhe_rampRow (i : ℕ) (j : Columns) :
    rhe (rampRow i j * 2 ^ LX) = ((i + j) % 256 + 1 : ℕ) := by
  have harg : rampRow i j * 2 ^ LX = (((i + j) % 256 + 1 : ℕ) : ℤ) := by
    rw [rampRow, LX, Int.cast_natCast]
    exact div_mul_cancel₀ _ (by norm_num)
  rw [harg, rhe_intCast]

theorem abs_rhe_rampRows_le : ∀ x ∈ rampRows, ∀ j, |rhe (x j * 2 ^ LX)| ≤ 2 ^ LX := by
  intro x hx j
  obtain ⟨i, -, rfl⟩ := List.mem_map.mp hx
  have hlt := Nat.mod_lt (i + j) (by decide : 256 > 0)
  have hLX : (2 : ℤ) ^ LX = 256 := by decide
  rw [rhe_rampRow, Nat.abs_cast, hLX]
  omega

theorem countP_rampLabels : rampLabels.countP (· = 1) = 100 ∧ rampLabels.countP (· = 0) = 4000 := by
  constructor <;> rw [rampLabels, List.countP_append, List.countP_replicate, List.countP_replicate]
    <;> rfl

theorem main_heavy : ∃ out, main firstRows rampRows rampLabels heavyWeights 0 = .ok out := by
  refine main_returns ?_ abs_rhe_rampRows_le ?_ ?_ ?_ ?_
  · simp [rampRows]
  · rw [quantiseBias_zero]
    decide
  · rw [quantiseWeights_heavy, quantiseBias_zero]
    decide +kernel
  · rw [countP_rampLabels.1]
    decide
  · rw [countP_rampLabels.1, countP_rampLabels.2]
    decide

theorem range_check_sound_iff_heavy : ∃ out,
    main firstRows rampRows rampLabels heavyWeights 0 = .ok out ∧
      NeverWraps .hera16 out.wq out.bias_q := by
  obtain ⟨out, hout⟩ := main_heavy
  refine ⟨out, hout, (range_check_sound_iff hout).2 ?_⟩
  rw [quantiseWeights_heavy, quantiseBias_zero]
  decide +kernel

/-- A row of `256`s and noise of `9` everywhere: the bank reads a score of the other sign. -/
theorem range_check_unsound_rubato : ∃ out,
    main firstRows rampRows rampLabels heavyWeights 0 = .ok out ∧
    score out.wq out.bias_q (fun _ ↦ 256 + 9) = 17163520 ∧
    center (score out.wq out.bias_q fun _ ↦ 256 + 9) T = -16128769 ∧
    ¬ NeverWraps .rubato128L out.wq out.bias_q := by
  obtain ⟨out, hout⟩ := main_heavy
  have hscore : score out.wq out.bias_q (fun _ ↦ 256 + 9) = 17163520 := by
    obtain ⟨-, -, _, -, rfl⟩ := main_ok hout
    dsimp only
    rw [quantiseWeights_heavy, quantiseBias_zero]
    decide +kernel
  have hcenter : center (score out.wq out.bias_q fun _ ↦ 256 + 9) T = -16128769 := by
    rw [hscore]
    decide
  refine ⟨out, hout, hscore, hcenter, fun h ↦ ?_⟩
  have hexact := h (fun _ ↦ 256) (fun _ ↦ 9) (fun _ ↦ le_of_eq (by decide)) fun _ ↦ by
    rw [keystreamNoise, RUBATO_BOUND_eq]
    exact le_of_eq (by decide)
  rw [hcenter, hscore] at hexact
  exact absurd hexact (by decide)

end Ppfdaas.PrepareInputs
