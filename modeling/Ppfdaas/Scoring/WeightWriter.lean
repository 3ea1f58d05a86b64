import Ppfdaas.Library.FixedWidth
import Ppfdaas.Scoring.WeightFile

/-!
# Writing the weight files

`write_model_weights_bin` and `write_degree2_weights_bin` on a path that can be
opened, as the contents of the file before and after, and the loader of the
degree-2 file.  An array has the type `float64`, its elements taken as 64 bits.
-/

namespace Ppfdaas.WeightWriter

open WeightFile WriteLoop

/-! ## `struct.pack` and `tobytes` -/

def pack (width value : ℕ) : Bytes :=
  (List.range width).map fun i ↦ UInt8.ofNat (value / 256 ^ i)

def packDouble (bits : UInt64) : Bytes := pack 8 bits.toNat

def tobytes (data : List UInt64) : Bytes := data.flatMap packDouble

/-- `np.isfinite`: the exponent is not all ones. -/
def isfinite (bits : UInt64) : Bool := (bits >>> 52) &&& 0x7ff != 0x7ff

/-! ## The writers -/

structure NdArray where
  shape : List ℕ
  data : List UInt64
  size_eq : data.length = shape.prod

def vector (w : List UInt64) : NdArray := ⟨[w.length], w, List.prod_singleton.symm⟩

/-- A tuple as an f-string shows it. -/
def tupleText (shape : List ℕ) : String :=
  if shape.length = 1 then "(" ++ toString (shape.headD 0) ++ ",)"
  else "(" ++ ", ".intercalate (shape.map fun n ↦ toString n) ++ ")"

inductive WriteError
  | value (text : String)
  | runtime (text : String)
  deriving DecidableEq, Repr

/-- The numbers and words in which the two writers differ. -/
structure Format where
  n : ℕ
  expected : ℕ
  shapeText : String
  finiteText : String
  bugText : String
  tag : String

/-- The line that is printed or the error, and the file at the path. -/
def Format.write (f : Format) (weights : NdArray) (bias : UInt64) (path : String)
    (file : Option Bytes) : Except WriteError String × Option Bytes :=
  if weights.shape.length ≠ 1 ∨ weights.shape.headD 0 ≠ f.n then
    (.error (.value (f.shapeText ++ tupleText weights.shape)), file)
  else if ¬ weights.data.all isfinite ∨ ¬ isfinite bias then
    (.error (.value f.finiteText), file)
  else
    let contents := pack 4 f.n ++ packDouble bias ++ tobytes weights.data
    let written := contents.length
    if written ≠ f.expected then
      (.error (.runtime (f.bugText ++ toString f.expected ++ " bytes, wrote " ++
        toString written)), some contents)
    else
      (.ok (f.tag ++ toString written ++ " bytes → " ++ path), some contents)

def modelFormat : Format where
  n := 256
  expected := 2060
  shapeText := "weights must be 1D(256,); got "
  finiteText := "NaN or Inf in weights/bias — check linearization"
  bugText := "BUG: expected "
  tag := "[serialize_weights] "

def degree2Format : Format where
  n := 512
  expected := 4108
  shapeText := "Expected (512,), got "
  finiteText := "NaN/Inf in degree-2 weights"
  bugText := "Expected "
  tag := "[serialize_d2] "

def writeModelWeightsBin (weights : NdArray) (bias : UInt64) (path : String)
    (file : Option Bytes) : Except WriteError String × Option Bytes :=
  modelFormat.write weights bias path file

def writeDegree2WeightsBin (weights : NdArray) (bias : UInt64) (path : String)
    (file : Option Bytes) : Except WriteError String × Option Bytes :=
  degree2Format.write weights bias path file

/-! ## `weight_loader_degree2.cpp` -/

def degree2Loader : Loader where
  n := 512
  size := 4108
  openText := "weight_loader_d2: cannot open '"
  sizeText := "weight_loader_d2: expected 4108 bytes, got "
  countText := "weight_loader_d2: n="
  countTail := " expected 512"

/-- The writes `tiled[k * 512 + j] = w[j]`, in the order of the loops. -/
def tileWritesD2 {α : Type} [Zero α] (w : List α) : List (ℕ × α) := rowWrites 16 512 w

/-- `std::vector<double> tiled(8192)` after the loops. -/
def tileD2 {α : Type} [Zero α] (w : List α) : List α :=
  (List.range 8192).map (writeAll (tileWritesD2 w) fun _ ↦ 0)

/-- The variables `w`, `bias` and `tiled` before the encoding, which takes the
last of them only. -/
def loadDegree2WeightsAsPlaintext (path : String) (file : Option Bytes) :
    Except LoadError ((List UInt64 × UInt64) × List UInt64) :=
  (degree2Loader.read path file).map fun r ↦ (r, tileD2 r.1)

/-! ## Reading back what was packed -/

theorem length_pack (width value : ℕ) : (pack width value).length = width := by
  rw [pack, List.length_map, List.length_range]

theorem pack_succ (width value : ℕ) :
    pack (width + 1) value = UInt8.ofNat value :: pack width (value / 256) := by
  simp only [pack, List.range_succ_eq_map, List.map_cons, List.map_map, pow_zero, Nat.div_one,
    Function.comp_def, Nat.pow_succ', Nat.div_div_eq_div_mul]

theorem littleEndian_pack (width value : ℕ) :
    littleEndian (pack width value) = value % 256 ^ width := by
  induction width generalizing value with
  | zero => simp [pack, littleEndian, Nat.mod_one]
  | succ width ih =>
      have hbyte : (UInt8.ofNat value).toNat = value % 256 := UInt8.toNat_ofNat'
      have hrest : Nat.ofDigits 256 ((pack width (value / 256)).map UInt8.toNat) =
          value / 256 % 256 ^ width := ih (value / 256)
      rw [pack_succ, littleEndian, List.map_cons, Nat.ofDigits_cons, hrest, hbyte, Nat.pow_succ',
        Nat.mod_mul]

theorem double_packDouble (bits : UInt64) : double (packDouble bits) = bits := by
  have hlt : bits.toNat < 256 ^ 8 := bits.toNat_lt
  rw [double, packDouble, littleEndian_pack, Nat.mod_eq_of_lt hlt, UInt64.ofNat_toNat]

theorem length_packDouble (bits : UInt64) : (packDouble bits).length = 8 :=
  length_pack 8 bits.toNat

theorem length_tobytes (data : List UInt64) : (tobytes data).length = 8 * data.length :=
  FixedWidth.length_flatMap length_packDouble data

theorem doubles_tobytes (data : List UInt64) : doubles (tobytes data) = data := by
  apply List.ext_getElem
  · rw [length_doubles, length_tobytes, Nat.mul_div_cancel_left _ (by decide)]
  · intro i h₁ h₂
    have hword : ((tobytes data).drop (8 * i)).take 8 = packDouble data[i] := by
      rw [tobytes, FixedWidth.drop_flatMap length_packDouble, List.drop_eq_getElem_cons h₂,
        List.flatMap_cons, List.take_left' (length_packDouble _)]
    simp only [doubles, List.getElem_map, List.getElem_range, hword, double_packDouble]

/-! ## The round trip -/

/-- What the writers check before they open the file. -/
def Format.Accepts (f : Format) (weights : NdArray) (bias : UInt64) : Prop :=
  weights.shape = [f.n] ∧ (∀ bits ∈ weights.data, isfinite bits) ∧ isfinite bias

def Format.contents (f : Format) (weights : NdArray) (bias : UInt64) : Bytes :=
  pack 4 f.n ++ packDouble bias ++ tobytes weights.data

section Write

variable (f : Format) {weights : NdArray} {bias : UInt64}

theorem Format.length_contents (h : f.Accepts weights bias) :
    (f.contents weights bias).length = 12 + 8 * f.n := by
  have hdata : weights.data.length = f.n := by
    rw [weights.size_eq, h.1, List.prod_singleton]
  rw [Format.contents, List.length_append, List.length_append, length_tobytes, hdata,
    length_packDouble, length_pack]

theorem Format.write_ok (hexpected : f.expected = 12 + 8 * f.n) (h : f.Accepts weights bias)
    (path : String) (file : Option Bytes) :
    f.write weights bias path file =
      (.ok (f.tag ++ toString f.expected ++ " bytes → " ++ path),
        some (f.contents weights bias)) := by
  have hlength := f.length_contents h
  rw [← hexpected, Format.contents] at hlength
  obtain ⟨hshape, hdata, hbias⟩ := h
  have hvector : ¬ (weights.shape.length ≠ 1 ∨ weights.shape.headD 0 ≠ f.n) := by simp [hshape]
  have hfinite : ¬ (¬ weights.data.all isfinite ∨ ¬ isfinite bias) := by
    simp only [not_or, not_not]
    exact ⟨List.all_eq_true.mpr hdata, hbias⟩
  rw [Format.write, if_neg hvector, if_neg hfinite]
  simp only [hlength, ne_eq, not_true_eq_false, if_false]
  rfl

theorem Format.write_rejects (h : ¬ f.Accepts weights bias) (path : String)
    (file : Option Bytes) :
    ∃ text, f.write weights bias path file = (.error (.value text), file) := by
  rw [Format.write]
  by_cases hvector : weights.shape.length ≠ 1 ∨ weights.shape.headD 0 ≠ f.n
  · exact ⟨_, if_pos hvector⟩
  · have hshape : weights.shape = [f.n] := by
      rw [not_or, not_not, not_not, List.length_eq_one_iff] at hvector
      obtain ⟨⟨n, hn⟩, hhead⟩ := hvector
      rw [hn, List.headD_cons] at hhead
      rw [hn, hhead]
    have hfinite : ¬ weights.data.all isfinite ∨ ¬ isfinite bias := by
      by_contra hall
      rw [not_or, not_not, not_not] at hall
      exact h ⟨hshape, List.all_eq_true.mp hall.1, hall.2⟩
    rw [if_neg hvector, if_pos hfinite]
    exact ⟨_, rfl⟩

end Write

/-- Weights and bias that a writer takes. -/
structure FiniteModel (n : ℕ) where
  weights : List UInt64
  bias : UInt64
  length_eq : weights.length = n
  weights_finite : ∀ bits ∈ weights, isfinite bits
  bias_finite : isfinite bias

theorem FiniteModel.accepts {f : Format} (m : FiniteModel f.n) :
    f.Accepts (vector m.weights) m.bias :=
  ⟨congrArg (fun n ↦ [n]) m.length_eq, m.weights_finite, m.bias_finite⟩

/-- A loader that checks the numbers of the format reads back the model. -/
theorem Format.read_contents (f : Format) (l : Loader) (hn : l.n = f.n)
    (hsize : l.size = 12 + 8 * l.n) (hsmall : f.n < 256 ^ 4) (m : FiniteModel f.n)
    (path : String) :
    l.read path (some (f.contents (vector m.weights) m.bias)) = .ok (m.weights, m.bias) := by
  have hlength := f.length_contents m.accepts
  have hcount : (pack 4 f.n).length = 4 := length_pack 4 f.n
  have hbias : (packDouble m.bias).length = 8 := length_packDouble m.bias
  have hdata : (tobytes m.weights).length = 8 * f.n := by rw [length_tobytes, m.length_eq]
  have hheader : (f.contents (vector m.weights) m.bias).take 4 = pack 4 f.n := by
    rw [Format.contents, List.append_assoc, List.take_left' hcount]
  have htail : (f.contents (vector m.weights) m.bias).drop 4 =
      packDouble m.bias ++ tobytes m.weights := by
    rw [Format.contents, List.append_assoc, List.drop_left' hcount]
    rfl
  have hweights : (f.contents (vector m.weights) m.bias).drop 12 = tobytes m.weights := by
    rw [show 12 = 4 + 8 from rfl, ← List.drop_drop, htail, List.drop_left' hbias]
  rw [l.read_ok path hsize (by rw [hlength, hsize, hn])
    (by rw [header, hheader, littleEndian_pack, Nat.mod_eq_of_lt hsmall, hn]), hweights, htail,
    List.take_left' hbias, double_packDouble, hn, List.take_of_length_le hdata.le, doubles_tobytes]

/-- `tiled` holds the weights in each of its sixteen rows, every entry written
once and in order by `writes`. -/
def Tiled {α : Type} (n : ℕ) (writes : List (ℕ × α)) (w tiled : List α) : Prop :=
  tiled.length = 16 * n ∧ writes.map Prod.fst = List.range (16 * n) ∧
    ∀ k < 16, ∀ j < n, tiled[n * k + j]? = w[j]?

theorem tiled_tileRows {α : Type} [Zero α] {n : ℕ} {w : List α} (hw : w.length = n) :
    Tiled n (rowWrites 16 n w) w (tileRows 16 n w) := by
  refine ⟨by rw [tileRows, List.length_map, List.length_range], rowWrites_indices 16, ?_⟩
  intro k hk j hj
  rw [Nat.mul_comm, tileRows_getElem hk hj, List.getD_eq_getElem?_getD,
    List.getElem?_eq_getElem (by omega), Option.getD_some]

/-- What the writers write, the loaders take, with the bias and the weights bit
for bit; what they refuse leaves the file as it was. -/
theorem weight_files_round_trip (path : String) (file : Option Bytes) :
    (∀ m : FiniteModel 256, ∃ line contents tiled,
      writeModelWeightsBin (vector m.weights) m.bias path file = (.ok line, some contents) ∧
      loadRawWeights path (some contents) = .ok (m.weights, m.bias) ∧
      loadWeightsAsPlaintext path (some contents) = .ok (tiled, m.bias) ∧
      Tiled 256 (tileWrites m.weights) m.weights tiled) ∧
    (∀ m : FiniteModel 512, ∃ line contents tiled,
      writeDegree2WeightsBin (vector m.weights) m.bias path file = (.ok line, some contents) ∧
      loadDegree2WeightsAsPlaintext path (some contents) = .ok ((m.weights, m.bias), tiled) ∧
      Tiled 512 (tileWritesD2 m.weights) m.weights tiled) ∧
    ∀ weights : NdArray, ∀ bias : UInt64,
      (¬ modelFormat.Accepts weights bias →
        ∃ text, writeModelWeightsBin weights bias path file = (.error (.value text), file)) ∧
      (¬ degree2Format.Accepts weights bias →
        ∃ text, writeDegree2WeightsBin weights bias path file = (.error (.value text), file)) := by
  refine ⟨fun m ↦ ?_, fun m ↦ ?_, fun weights bias ↦ ⟨fun h ↦ ?_, fun h ↦ ?_⟩⟩
  · have hread : readFile path (some (modelFormat.contents (vector m.weights) m.bias)) =
        .ok (m.weights, m.bias) :=
      modelFormat.read_contents weightLoader rfl rfl (by decide) m path
    refine ⟨_, _, tile m.weights,
      modelFormat.write_ok rfl (FiniteModel.accepts (f := modelFormat) m) path file, hread, ?_,
      tiled_tileRows m.length_eq⟩
    rw [loadWeightsAsPlaintext, hread]
    rfl
  · have hread : degree2Loader.read path
        (some (degree2Format.contents (vector m.weights) m.bias)) = .ok (m.weights, m.bias) :=
      degree2Format.read_contents degree2Loader rfl rfl (by decide) m path
    refine ⟨_, _, tileD2 m.weights,
      degree2Format.write_ok rfl (FiniteModel.accepts (f := degree2Format) m) path file, ?_,
      tiled_tileRows m.length_eq⟩
    rw [loadDegree2WeightsAsPlaintext, hread]
    rfl
  · exact modelFormat.write_rejects h path file
  · exact degree2Format.write_rejects h path file

/-- Doubles between 1 and 1.125. -/
def rampDouble (j : ℕ) : UInt64 := UInt64.ofNat (0x3ff0000000000000 + 2 ^ 40 * (j + 1))

theorem isfinite_rampDouble : ∀ j < 512, isfinite (rampDouble j) := by decide +kernel

def rampModel (n : ℕ) (h : n ≤ 512) : FiniteModel n where
  weights := (List.range n).map rampDouble
  bias := 0xbff8000000000000
  length_eq := by rw [List.length_map, List.length_range]
  weights_finite _ hmem := by
    obtain ⟨j, hj, rfl⟩ := List.mem_map.mp hmem
    exact isfinite_rampDouble j ((List.mem_range.mp hj).trans_le h)
  bias_finite := by decide

theorem weight_files_round_trip_ramp :
    let m := rampModel 256 (by decide)
    (∃ line contents tiled,
      writeModelWeightsBin (vector m.weights) m.bias "model_weights.bin" none =
        (.ok line, some contents) ∧
      loadRawWeights "model_weights.bin" (some contents) = .ok (m.weights, m.bias) ∧
      loadWeightsAsPlaintext "model_weights.bin" (some contents) = .ok (tiled, m.bias) ∧
      Tiled 256 (tileWrites m.weights) m.weights tiled) ∧
    ∃ text, writeDegree2WeightsBin (vector m.weights) m.bias "model_weights.bin" none =
      (.error (.value text), none) := by
  intro m
  obtain ⟨hmodel, -, hreject⟩ := weight_files_round_trip "model_weights.bin" none
  have hshort : ¬ degree2Format.Accepts (vector m.weights) m.bias := by
    rintro ⟨hshape, -⟩
    have hlength : m.weights.length = 512 := List.singleton_inj.mp hshape
    exact absurd (m.length_eq.symm.trans hlength) (by decide)
  exact ⟨hmodel m, (hreject (vector m.weights) m.bias).2 hshort⟩

end Ppfdaas.WeightWriter
