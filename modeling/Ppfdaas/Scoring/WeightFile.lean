import Mathlib.Data.Nat.Digits.Defs
import Mathlib.Data.UInt
import Ppfdaas.Library.ExceptRuns
import Ppfdaas.Library.WriteLoop
import Ppfdaas.Scoring.SlotPipeline

/-!
# The readers of `model_weights.bin`

`weight_loader.cpp`, `load_model_weights` of `parity_gate.py` and
`load_and_verify` of `serialize_weights.py` on the bytes of the file, `none`
where it cannot be opened.  A double is taken as its 64 bits.
-/

namespace Ppfdaas.WeightFile

open WriteLoop

abbrev Bytes := List UInt8

inductive LoadError
  | runtime (text : String)
  | os (text : String)
  | struct (text : String)
  | value (text : String)
  | assertion
  deriving DecidableEq, Repr

def littleEndian (bytes : Bytes) : ℕ := Nat.ofDigits 256 (bytes.map UInt8.toNat)

def double (bytes : Bytes) : UInt64 := UInt64.ofNat (littleEndian bytes)

/-- A buffer of doubles, a last short one left out. -/
def doubles (bytes : Bytes) : List UInt64 :=
  (List.range (bytes.length / 8)).map fun i ↦ double ((bytes.drop (8 * i)).take 8)

/-! ## `weight_loader.cpp` -/

structure Ifstream where
  contents : Bytes
  pos : ℕ
  failed : Bool

/-- `f.read` into a buffer: what is missing in the file leaves the buffer as it
was, and a stream that has failed reads nothing more. -/
def Ifstream.read (f : Ifstream) (buffer : Bytes) : Bytes × Ifstream :=
  let got := if f.failed then [] else (f.contents.drop f.pos).take buffer.length
  (got ++ buffer.drop got.length,
    { f with pos := f.pos + got.length, failed := decide (got.length < buffer.length) })

def expectedN : ℕ := 256

def expectedSize : ℕ := 2060

/-- What the two C++ loaders check, and the words of their errors. -/
structure Loader where
  n : ℕ
  size : ℕ
  openText : String
  sizeText : String
  countText : String
  countTail : String

def Loader.read (l : Loader) (path : String) (file : Option Bytes) :
    Except LoadError (List UInt64 × UInt64) :=
  file.elim (.error (.runtime (l.openText ++ path ++ "'"))) fun contents ↦
    if contents.length ≠ l.size then
      .error (.runtime (l.sizeText ++ toString contents.length))
    else
      let header := Ifstream.read ⟨contents, 0, false⟩ (List.replicate 4 0)
      let bias := header.2.read (List.replicate 8 0)
      let n := littleEndian header.1
      if n ≠ l.n then
        .error (.runtime (l.countText ++ toString n ++ l.countTail))
      else
        let weights := bias.2.read (List.replicate (8 * n) 0)
        .ok (doubles weights.1, double bias.1)

/-- What both functions of the loader do before they use the weights. -/
def readFile (path : String) (file : Option Bytes) : Except LoadError (List UInt64 × UInt64) :=
  file.elim (.error (.runtime ("weight_loader: cannot open '" ++ path ++ "'"))) fun contents ↦
    if contents.length ≠ expectedSize then
      .error (.runtime ("weight_loader: expected 2060 bytes, got " ++ toString contents.length))
    else
      let header := Ifstream.read ⟨contents, 0, false⟩ (List.replicate 4 0)
      let bias := header.2.read (List.replicate 8 0)
      let n := littleEndian header.1
      if n ≠ expectedN then
        .error (.runtime ("weight_loader: n=" ++ toString n ++ " expected 256"))
      else
        let weights := bias.2.read (List.replicate (8 * n) 0)
        .ok (doubles weights.1, double bias.1)

/-- `readFile` as a `Loader`. -/
def weightLoader : Loader where
  n := 256
  size := 2060
  openText := "weight_loader: cannot open '"
  sizeText := "weight_loader: expected 2060 bytes, got "
  countText := "weight_loader: n="
  countTail := " expected 256"

/-- `load_raw_weights`: the weights and the bias it stores in its arguments. -/
def loadRawWeights (path : String) (file : Option Bytes) :
    Except LoadError (List UInt64 × UInt64) :=
  readFile path file

/-- The writes `tiled[k * n + j] = w[j]` of `rows` rounds. -/
def rowWrites {α : Type} [Zero α] (rows n : ℕ) (w : List α) : List (ℕ × α) :=
  (List.range rows).flatMap fun k ↦ (List.range n).map fun j ↦ (k * n + j, w.getD j 0)

/-- A buffer of `rows * n` entries after the loops. -/
def tileRows {α : Type} [Zero α] (rows n : ℕ) (w : List α) : List α :=
  (List.range (rows * n)).map (writeAll (rowWrites rows n w) fun _ ↦ 0)

/-- The writes `tiled[k * 256 + j] = w[j]`, in the order of the loops. -/
def tileWrites {α : Type} [Zero α] (w : List α) : List (ℕ × α) :=
  (List.range 16).flatMap fun k ↦ (List.range 256).map fun j ↦ (k * 256 + j, w.getD j 0)

/-- `std::vector<double> tiled(4096)` after the loops. -/
def tile {α : Type} [Zero α] (w : List α) : List α :=
  (List.range 4096).map (writeAll (tileWrites w) fun _ ↦ 0)

/-- `load_weights_as_plaintext` up to the encoding. -/
def loadWeightsAsPlaintext (path : String) (file : Option Bytes) :
    Except LoadError (List UInt64 × UInt64) :=
  (readFile path file).map fun r ↦ (tile r.1, r.2)

/-! ## `parity_gate.py` -/

def unpackFrom (size : ℕ) (raw : Bytes) (offset : ℕ) : Except LoadError Bytes :=
  if offset + size ≤ raw.length then .ok ((raw.drop offset).take size)
  else .error (.struct ("unpack_from requires a buffer of at least " ++ toString (offset + size) ++
    " bytes for unpacking " ++ toString size ++ " bytes at offset " ++ toString offset ++
    " (actual buffer size is " ++ toString raw.length ++ ")"))

def loadModelWeights (path : String) (file : Option Bytes) :
    Except LoadError (List UInt64 × UInt64) :=
  file.elim (.error (.os path)) fun raw ↦
    if raw.length ≠ 2060 then
      .error (.runtime (path ++ ": model_weights.bin must be exactly 2060 bytes, got " ++
        toString raw.length))
    else do
      let nFeatures ← littleEndian <$> unpackFrom 4 raw 0
      if nFeatures ≠ 256 then
        throw (.runtime (path ++ ": expected n_features=256, got " ++ toString nFeatures))
      else
        let bias ← double <$> unpackFrom 8 raw 4
        let weights ← doubles <$> unpackFrom (256 * 8) raw 12
        pure (weights, bias)

/-! ## `serialize_weights.py` -/

def nFeatures : ℕ := 256

def unpack (size : ℕ) (buffer : Bytes) : Except LoadError Bytes :=
  if buffer.length = size then .ok buffer
  else .error (.struct ("unpack requires a buffer of " ++ toString size ++ " bytes"))

/-- What `np.frombuffer(buffer, dtype='<f8')` does. -/
structure IsFrombuffer (frombuffer : Bytes → Except LoadError (List UInt64)) : Prop where
  whole : ∀ buffer : Bytes, 8 ∣ buffer.length → frombuffer buffer = .ok (doubles buffer)
  short_last : ∀ buffer : Bytes, ¬ 8 ∣ buffer.length → ∃ e, frombuffer buffer = .error e

/-- `f.read` returns what is left where that is less than asked for. -/
def loadAndVerify (frombuffer : Bytes → Except LoadError (List UInt64)) (path : String)
    (file : Option Bytes) : Except LoadError (List UInt64 × UInt64) :=
  file.elim (.error (.os path)) fun contents ↦ do
    let n ← littleEndian <$> unpack 4 (contents.take 4)
    let bias ← double <$> unpack 8 ((contents.drop 4).take 8)
    let w ← frombuffer ((contents.drop 12).take (n * 8))
    if n ≠ nFeatures then throw .assertion else pure (w, bias)

/-! ## The meaning of a file -/

def header (contents : Bytes) : ℕ := littleEndian (contents.take 4)

def model (contents : Bytes) : List UInt64 × UInt64 :=
  (doubles ((contents.drop 12).take 2048), double ((contents.drop 4).take 8))

/-- What the readers that check the size accept. -/
def WellFormed (contents : Bytes) : Prop := contents.length = 2060 ∧ header contents = 256

/-- What `load_and_verify` accepts. -/
def Verified (contents : Bytes) : Prop :=
  12 ≤ contents.length ∧ header contents = 256 ∧ 8 ∣ min 2048 (contents.length - 12)

def Rejects {α : Type} (r : Except LoadError α) : Prop := ∃ e, r = .error e

theorem Ifstream.read_whole {f : Ifstream} {buffer : Bytes} (hok : f.failed = false)
    (hlen : f.pos + buffer.length ≤ f.contents.length) :
    f.read buffer = ((f.contents.drop f.pos).take buffer.length,
      { f with pos := f.pos + buffer.length }) := by
  have hgot : ((f.contents.drop f.pos).take buffer.length).length = buffer.length := by
    rw [List.length_take, List.length_drop]
    omega
  simp [Ifstream.read, hok, hgot]

section Readers

variable (path : String) {contents : Bytes}

theorem Loader.read_ok (l : Loader) (hsize : l.size = 12 + 8 * l.n)
    (hlen : contents.length = l.size) (hheader : header contents = l.n) :
    l.read path (some contents) =
      .ok (doubles ((contents.drop 12).take (8 * l.n)), double ((contents.drop 4).take 8)) := by
  rw [hsize] at hlen
  have hn : Ifstream.read ⟨contents, 0, false⟩ (List.replicate 4 0) =
      (contents.take 4, ⟨contents, 4, false⟩) :=
    Ifstream.read_whole rfl (by rw [List.length_replicate]; dsimp only; omega)
  have hbias : Ifstream.read ⟨contents, 4, false⟩ (List.replicate 8 0) =
      ((contents.drop 4).take 8, ⟨contents, 12, false⟩) :=
    Ifstream.read_whole rfl (by rw [List.length_replicate]; dsimp only; omega)
  have hweights : Ifstream.read ⟨contents, 12, false⟩ (List.replicate (8 * l.n) 0) =
      ((contents.drop 12).take (8 * l.n), ⟨contents, 12 + 8 * l.n, false⟩) := by
    rw [Ifstream.read_whole rfl (by rw [List.length_replicate, hlen]), List.length_replicate]
  rw [header] at hheader
  simp only [Loader.read, Option.elim_some, hn, hbias, hheader, hweights, hlen, hsize, ne_eq,
    not_true_eq_false, if_false]

theorem readFile_ok (h : WellFormed contents) :
    readFile path (some contents) = .ok (model contents) :=
  weightLoader.read_ok path rfl h.1 h.2

theorem readFile_rejects (h : ¬ WellFormed contents) :
    Rejects (readFile path (some contents)) := by
  rw [readFile, Option.elim_some]
  by_cases hlen : contents.length = expectedSize
  · have hn : Ifstream.read ⟨contents, 0, false⟩ (List.replicate 4 0) =
        (contents.take 4, ⟨contents, 4, false⟩) :=
      Ifstream.read_whole rfl (by simp [hlen, expectedSize])
    have hheader : littleEndian (contents.take 4) ≠ expectedN := fun heq ↦ h ⟨hlen, heq⟩
    rw [if_neg (not_not.mpr hlen), hn, if_pos hheader]
    exact ⟨_, rfl⟩
  · rw [if_pos hlen]
    exact ⟨_, rfl⟩

theorem unpackFrom_ok {size offset : ℕ} (h : offset + size ≤ contents.length) :
    unpackFrom size contents offset = .ok ((contents.drop offset).take size) := if_pos h

theorem loadModelWeights_ok (h : WellFormed contents) :
    loadModelWeights path (some contents) = .ok (model contents) := by
  obtain ⟨hlen, hheader⟩ := h
  have hn : unpackFrom 4 contents 0 = .ok (contents.take 4) := unpackFrom_ok (by omega)
  have hbias : unpackFrom 8 contents 4 = .ok ((contents.drop 4).take 8) :=
    unpackFrom_ok (by omega)
  have hweights : unpackFrom (256 * 8) contents 12 = .ok ((contents.drop 12).take (256 * 8)) :=
    unpackFrom_ok (by omega)
  rw [loadModelWeights, Option.elim_some, if_neg (not_not.mpr hlen), hn, hbias, hweights]
  change (if header contents ≠ 256 then _ else _) = _
  rw [if_neg (not_not.mpr hheader)]
  rfl

theorem loadModelWeights_rejects (h : ¬ WellFormed contents) :
    Rejects (loadModelWeights path (some contents)) := by
  rw [loadModelWeights, Option.elim_some]
  by_cases hlen : contents.length = 2060
  · have hn : unpackFrom 4 contents 0 = .ok (contents.take 4) := unpackFrom_ok (by omega)
    have hheader : header contents ≠ 256 := fun heq ↦ h ⟨hlen, heq⟩
    rw [if_neg (not_not.mpr hlen), hn]
    change Rejects (if header contents ≠ 256 then _ else _)
    rw [if_pos hheader]
    exact ⟨_, rfl⟩
  · rw [if_pos hlen]
    exact ⟨_, rfl⟩

/-! ## `load_and_verify` -/

theorem unpack_ok {size : ℕ} {buffer : Bytes} (h : buffer.length = size) :
    unpack size buffer = .ok buffer := if_pos h

theorem map_unpack_ok {α : Type} {f : Bytes → α} {size : ℕ} {buffer : Bytes} {a : α}
    (h : f <$> unpack size buffer = .ok a) : buffer.length = size ∧ f buffer = a := by
  obtain ⟨read, hread, rfl⟩ := ExceptRuns.map_ok h
  obtain ⟨hsize, hbuffer⟩ := ExceptRuns.ite_throw_ok hread
  exact ⟨hsize, by rw [Except.ok.inj hbuffer]⟩

variable {frombuffer : Bytes → Except LoadError (List UInt64)}

theorem loadAndVerify_ok (hnumpy : IsFrombuffer frombuffer) (h : Verified contents) :
    loadAndVerify frombuffer path (some contents) = .ok (model contents) := by
  obtain ⟨hlen, hheader, h8⟩ := h
  have hn : unpack 4 (contents.take 4) = .ok (contents.take 4) :=
    unpack_ok (by rw [List.length_take]; omega)
  have hbias : unpack 8 ((contents.drop 4).take 8) = .ok ((contents.drop 4).take 8) :=
    unpack_ok (by rw [List.length_take, List.length_drop]; omega)
  have hweights : frombuffer ((contents.drop 12).take (header contents * 8)) =
      .ok (doubles ((contents.drop 12).take 2048)) := by
    rw [hheader]
    refine hnumpy.whole _ ?_
    rwa [List.length_take, List.length_drop]
  rw [loadAndVerify, Option.elim_some, hn, hbias]
  change (frombuffer ((contents.drop 12).take (header contents * 8))).bind (fun w ↦
    if header contents ≠ nFeatures then throw .assertion else pure (w, _)) = _
  rw [hweights]
  have hn256 : header contents = nFeatures := hheader
  change (if header contents ≠ nFeatures then _ else _) = _
  rw [if_neg (not_not.mpr hn256)]
  rfl

theorem verified_of_ok (hnumpy : IsFrombuffer frombuffer) {r : List UInt64 × UInt64}
    (h : loadAndVerify frombuffer path (some contents) = .ok r) : Verified contents := by
  rw [loadAndVerify, Option.elim_some] at h
  obtain ⟨n, hn, h⟩ := ExceptRuns.bind_ok h
  obtain ⟨bias, hbias, h⟩ := ExceptRuns.bind_ok h
  obtain ⟨w, hw, h⟩ := ExceptRuns.bind_ok h
  have hn256 : n = nFeatures := by
    by_contra hne
    rw [if_pos hne] at h
    exact absurd h nofun
  obtain ⟨-, hheader⟩ := map_unpack_ok hn
  obtain ⟨hlen, -⟩ := map_unpack_ok hbias
  rw [List.length_take, List.length_drop] at hlen
  refine ⟨by omega, hheader.trans hn256, ?_⟩
  by_contra h8
  rw [hn256] at hw
  obtain ⟨e, he⟩ := hnumpy.short_last ((contents.drop 12).take (nFeatures * 8))
    (by rw [List.length_take, List.length_drop]; exact h8)
  rw [he] at hw
  exact absurd hw nofun

theorem loadAndVerify_rejects (hnumpy : IsFrombuffer frombuffer) (h : ¬ Verified contents) :
    Rejects (loadAndVerify frombuffer path (some contents)) := by
  cases hrun : loadAndVerify frombuffer path (some contents) with
  | error e => exact ⟨e, rfl⟩
  | ok r => exact absurd (verified_of_ok path hnumpy hrun) h

end Readers

/-! ## The tiled weights -/

section Tiling

variable {α : Type} [Zero α] {w : List α}

variable {rows n k j : ℕ}

theorem mem_rowWrites (hk : k < rows) (hj : j < n) :
    (k * n + j, w.getD j 0) ∈ rowWrites rows n w :=
  List.mem_flatMap.mpr ⟨k, List.mem_range.mpr hk,
    List.mem_map.mpr ⟨j, List.mem_range.mpr hj, rfl⟩⟩

theorem rowWrites_agree (hj : j < n) :
    ∀ write ∈ rowWrites rows n w, write.1 = k * n + j → write.2 = w.getD j 0 := by
  intro write hwrite hindex
  obtain ⟨k', -, hwrite⟩ := List.mem_flatMap.mp hwrite
  obtain ⟨j', hj', rfl⟩ := List.mem_map.mp hwrite
  have hcolumn : ∀ {k j : ℕ}, j < n → (k * n + j) % n = j := by
    intro k j hj
    rw [Nat.mul_comm, Nat.mul_add_mod, Nat.mod_eq_of_lt hj]
  obtain rfl : j' = j := by
    rw [← hcolumn (List.mem_range.mp hj'), ← hcolumn hj]
    exact congrArg (· % n) hindex
  rfl

theorem tileRows_getElem (hk : k < rows) (hj : j < n) :
    (tileRows rows n w)[k * n + j]? = some (w.getD j 0) := by
  have hlt : k * n + j < rows * n :=
    calc k * n + j < k * n + n := Nat.add_lt_add_left hj _
      _ = (k + 1) * n := (Nat.succ_mul k n).symm
      _ ≤ rows * n := Nat.mul_le_mul_right n hk
  rw [tileRows, List.getElem?_map, List.getElem?_range hlt, Option.map_some,
    writeAll_of_mem (mem_rowWrites hk hj) (rowWrites_agree hj)]

/-- The loops write every entry of the buffer, each once and in order. -/
theorem rowWrites_indices (rows : ℕ) :
    (rowWrites rows n w).map Prod.fst = List.range (rows * n) := by
  induction rows with
  | zero => simp [rowWrites]
  | succ rows ih =>
      rw [rowWrites] at ih
      rw [rowWrites, List.range_succ, List.flatMap_append, List.map_append, ih, Nat.succ_mul,
        List.range_add]
      simp [Function.comp_def]

theorem tile_getElem (hk : k < 16) (hj : j < 256) :
    (tile w)[256 * k + j]? = some (w.getD j 0) := by
  rw [Nat.mul_comm]
  exact tileRows_getElem hk hj

/-- The slots of the weights are the tiled buffer. -/
theorem tileWeights_eq_tile {R : Type} [CommRing R] (w : List R) (i : ZMod kSlots) :
    tileWeights w i = (tile w).getD i.val 0 := by
  have hlt : i.val < 4096 := ZMod.val_lt i
  have hsplit : 256 * (i.val / 256) + i.val % 256 = i.val := Nat.div_add_mod _ _
  have htile : (tile w)[i.val]? = some (w.getD (i.val % 256) 0) := by
    rw [← tile_getElem (w := w) (k := i.val / 256) (by omega) (Nat.mod_lt _ (by decide)), hsplit]
  rw [tileWeights, List.getD_eq_getElem?_getD (l := tile w), htile, Option.getD_some]

end Tiling

/-! ## The four readers -/

/-- Either all readers reject the file, or all return the same bias and the same
256 weights, the loader of the SLOT service sixteen times. -/
def ReadersAgree (frombuffer : Bytes → Except LoadError (List UInt64)) (path : String)
    (contents : Bytes) : Prop :=
  (Rejects (loadRawWeights path (some contents)) ∧
    Rejects (loadWeightsAsPlaintext path (some contents)) ∧
    Rejects (loadModelWeights path (some contents)) ∧
    Rejects (loadAndVerify frombuffer path (some contents))) ∨
  ∃ weights : List UInt64, ∃ bias : UInt64, weights.length = 256 ∧
    loadRawWeights path (some contents) = .ok (weights, bias) ∧
    loadModelWeights path (some contents) = .ok (weights, bias) ∧
    loadAndVerify frombuffer path (some contents) = .ok (weights, bias) ∧
    ∃ tiled, loadWeightsAsPlaintext path (some contents) = .ok (tiled, bias) ∧
      tiled.length = 4096 ∧ ∀ k < 16, ∀ j < 256, tiled[256 * k + j]? = weights[j]?

theorem length_doubles (buffer : Bytes) : (doubles buffer).length = buffer.length / 8 := by
  simp [doubles]

theorem loadWeightsAsPlaintext_ok {path : String} {contents : Bytes} (h : WellFormed contents) :
    loadWeightsAsPlaintext path (some contents) =
      .ok (tile (model contents).1, (model contents).2) := by
  rw [loadWeightsAsPlaintext, readFile_ok path h]
  rfl

theorem loadWeightsAsPlaintext_rejects {path : String} {contents : Bytes}
    (h : ¬ WellFormed contents) : Rejects (loadWeightsAsPlaintext path (some contents)) := by
  obtain ⟨e, he⟩ := readFile_rejects path h
  rw [loadWeightsAsPlaintext, he]
  exact ⟨e, rfl⟩

theorem readersAgree_of_wellFormed {frombuffer : Bytes → Except LoadError (List UInt64)}
    (hnumpy : IsFrombuffer frombuffer) (path : String) {contents : Bytes}
    (h : WellFormed contents) : ReadersAgree frombuffer path contents := by
  have hlength : (model contents).1.length = 256 := by
    rw [model, length_doubles, List.length_take, List.length_drop, h.1]
    rfl
  have hverified : Verified contents := ⟨by rw [h.1]; decide, h.2, by rw [h.1]; decide⟩
  refine .inr ⟨_, _, hlength, readFile_ok path h, loadModelWeights_ok path h,
    loadAndVerify_ok path hnumpy hverified, _, loadWeightsAsPlaintext_ok h, ?_, ?_⟩
  · simp [tile]
  · intro k hk j hj
    rw [tile_getElem hk hj, List.getD_eq_getElem?_getD, List.getElem?_eq_getElem (by omega),
      Option.getD_some]

theorem readersAgree_iff_verified {frombuffer : Bytes → Except LoadError (List UInt64)}
    (hnumpy : IsFrombuffer frombuffer) (path : String) (contents : Bytes) :
    ReadersAgree frombuffer path contents ↔ (Verified contents → WellFormed contents) := by
  constructor
  · rintro (⟨-, -, -, e, he⟩ | ⟨weights, bias, -, hraw, -⟩) hverified
    · rw [loadAndVerify_ok path hnumpy hverified] at he
      exact absurd he nofun
    · by_contra h
      obtain ⟨e, he⟩ := readFile_rejects path h
      rw [loadRawWeights, he] at hraw
      exact absurd hraw nofun
  · intro h
    by_cases hformed : WellFormed contents
    · exact readersAgree_of_wellFormed hnumpy path hformed
    · exact .inl ⟨readFile_rejects path hformed, loadWeightsAsPlaintext_rejects hformed,
        loadModelWeights_rejects path hformed,
        loadAndVerify_rejects path hnumpy fun hverified ↦ hformed (h hverified)⟩

/-- The files on which the readers agree: of the size that is checked, or refused
by `load_and_verify` for what it does check. -/
theorem readers_agree_iff {frombuffer : Bytes → Except LoadError (List UInt64)}
    (hnumpy : IsFrombuffer frombuffer) (path : String) (contents : Bytes) :
    ReadersAgree frombuffer path contents ↔
      contents.length = 2060 ∨ contents.length < 12 ∨ header contents ≠ 256 ∨
        contents.length < 2060 ∧ ¬ 8 ∣ contents.length - 12 := by
  rw [readersAgree_iff_verified hnumpy]
  constructor
  · intro h
    by_contra! hnot
    obtain ⟨hsize, hlen, hheader, h8⟩ := hnot
    refine hsize (h ⟨hlen, hheader, ?_⟩).1
    rcases lt_or_ge contents.length 2060 with hlt | hge
    · rw [Nat.min_eq_right (by omega)]
      exact h8 hlt
    · rw [Nat.min_eq_left (by omega)]
      decide
  · rintro h ⟨hlen, hheader, h8⟩
    refine ⟨?_, hheader⟩
    rcases h with hsize | hshort | hother | ⟨hlt, hnot⟩
    · exact hsize
    · exact absurd hlen (not_le.mpr hshort)
    · exact absurd hheader hother
    · rw [Nat.min_eq_right (by omega)] at h8
      exact absurd h8 hnot

/-- `np.frombuffer` with its error for a last short element. -/
def numpyFrombuffer (buffer : Bytes) : Except LoadError (List UInt64) :=
  if 8 ∣ buffer.length then .ok (doubles buffer)
  else .error (.value "buffer size must be a multiple of element size")

theorem isFrombuffer_numpy : IsFrombuffer numpyFrombuffer where
  whole _ h := if_pos h
  short_last _ h := ⟨_, if_neg h⟩

/-- The bias and the weights are the 257 doubles that follow 1. -/
def rampFile : Bytes :=
  [0, 1, 0, 0] ++ (List.range 257).flatMap fun i ↦
    [UInt8.ofNat (i + 1), UInt8.ofNat ((i + 1) / 256), 0, 0, 0, 0, 0xf0, 0x3f]

/-- The file cut after its first weight. -/
def cutFile : Bytes := rampFile.take 20

theorem readers_agree_ramp : ReadersAgree numpyFrombuffer "model_weights.bin" rampFile :=
  (readers_agree_iff isFrombuffer_numpy "model_weights.bin" rampFile).mpr
    (.inl (by decide +kernel))

/-- `load_and_verify` returns one weight where the others refuse the file. -/
theorem readers_disagree_cut : ¬ ReadersAgree numpyFrombuffer "model_weights.bin" cutFile := by
  rw [readersAgree_iff_verified isFrombuffer_numpy]
  intro h
  have hsize := (h ⟨by decide +kernel, by decide +kernel, by decide +kernel⟩).1
  exact absurd hsize (by decide +kernel)

end Ppfdaas.WeightFile
