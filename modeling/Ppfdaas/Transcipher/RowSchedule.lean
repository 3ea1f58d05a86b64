import Mathlib.Data.List.GetD
import Ppfdaas.Scoring.WeightWriter
import Ppfdaas.Transcipher.CnpOnline
import Ppfdaas.Transcipher.SlotLayout

/-!
# The row schedules of the encrypted evaluation

The correctness loops of `TestCNPRun` and `TestSlotRun`, with the evaluation of
one ciphertext as a parameter, and the two files that they leave to `score.py`.
-/

namespace Ppfdaas.Transcipher

open WeightFile WeightWriter

/-- The fields of `cnpData` that the loops read. -/
structure CnpData where
  rows : List ℕ
  xq : ℕ → Row
  wq : Fin cnpFeatures → ℤ
  biasQ : ℤ
  t : ℤ

def int32 (v : ℤ) : ℤ := v.bmod (2 ^ 32)

def int64 (v : ℤ) : ℤ := v.bmod (2 ^ 64)

/-- A keystream ciphertext that was subtracted, and the first of the rows in the
upload that it was subtracted from. -/
structure Use where
  batch : ℕ
  element : ℕ
  first : ℕ

def Use.key (u : Use) : ℕ × ℕ := (u.batch, u.element)

/-- The variables of a correctness loop.  `used` lists the keystream ciphertexts
that were subtracted, and `fatal` is the text of a run that has stopped. -/
structure Decoded where
  decRows : List ℤ
  decVals : List ℤ
  mismatches : ℕ
  maxAbsInt : ℤ
  cryptCalls : ℕ
  used : List Use
  fatal : Option String

def Decoded.start (cryptCalls : ℕ) : Decoded := ⟨[], [], 0, 0, cryptCalls, [], none⟩

namespace CnpData

variable (d : CnpData)

/-- What the loops do with the value that lane `k` has for row `first + k`. -/
def decode (r : ℕ) (val : ℤ) (s : Decoded) : Decoded :=
  let row := d.rows.getD r 0
  let diff := val - cnpSim (d.xq row) d.wq d.biasQ d.t
  { s with
    mismatches := if diff ≠ 0 then s.mismatches + 1 else s.mismatches
    maxAbsInt := if |diff| > s.maxAbsInt then |diff| else s.maxAbsInt
    decRows := s.decRows ++ [int32 row]
    decVals := s.decVals ++ [val] }

/-- The loop over the lanes, which breaks at the end of the rows. -/
def decodeLanes {lanes : ℕ} (first : ℕ) (vals : Fin lanes → ℤ) (s : Decoded) : Decoded :=
  ((List.finRange lanes).takeWhile fun (k : Fin lanes) ↦ first + k.val < d.rows.length).foldl
    (fun s (k : Fin lanes) ↦ d.decode (first + k.val) (vals k) s) s

/-- `HERA must be bit-exact`. -/
def checkHera (cipher : String) (text : ℕ → String) (s : Decoded) : Decoded :=
  if cipher = "hera" ∧ 0 < s.mismatches then { s with fatal := some (text s.mismatches) } else s

/-! ## `TestCNPRun` -/

/-- `cnpDataVec` for any number of lanes. -/
def dataVec (lanes firstRow : ℕ) : ℕ → ℤ := fun c ↦
  if c / cnpFeatures < lanes then
    (d.rows[firstRow + c / cnpFeatures]?).elim 0 fun r ↦
      (d.xq r ⟨c % cnpFeatures, Nat.mod_lt _ (by decide)⟩).toInt
  else 0

variable (cipher : String) (lanes : ℕ)

/-- What the server and the bank make of an upload under element `kk` of a batch. -/
abbrev CnpEvaluate (lanes : ℕ) := (batch kk : ℕ) → (data : ℕ → ℤ) → Fin lanes → ℤ

def cnpStep (evaluate : CnpEvaluate lanes) (s : Decoded) (o : ℕ) : Decoded :=
  if s.fatal.isSome then s
  else
    let outputs := cryptOutputs cipher
    let b := o / outputs
    let kk := o % outputs
    let cryptCalls := if b + 1 > s.cryptCalls then b + 1 else s.cryptCalls
    -- the current keystream is that of the last call
    let batch := cryptCalls - 1
    let first := o * lanes
    let vals := evaluate batch kk (d.dataVec lanes first)
    let s := d.decodeLanes first vals
      { s with cryptCalls := cryptCalls, used := s.used ++ [⟨batch, kk, first⟩] }
    checkHera cipher (fun mismatches ↦ "HERA bit-exactness violated: " ++ toString mismatches ++
      " rows differ from the integer simulation (output ct " ++ toString o ++ ")") s

def nCts : ℕ := (d.rows.length + lanes - 1) / lanes

def cnpRun (evaluate : CnpEvaluate lanes) : Decoded :=
  (List.range (d.nCts lanes)).foldl (d.cnpStep cipher lanes evaluate) (Decoded.start 1)

/-! ## `TestSlotRun` -/

def slotRowsFor {N : ℕ} (g : SlotGroup N) (first : ℕ) : Fin g.lanes → Option Row := fun l ↦
  if first + l.val < d.rows.length then some (d.xq (d.rows.getD (first + l.val) 0)) else none

/-- What the server and the bank make of the uploads of a group under a batch. -/
abbrev SlotEvaluate (N : ℕ) :=
  (batch : ℕ) → (g : SlotGroup N) → (Fin g.lanes → Option Row) → Fin g.lanes → ℤ

variable {N : ℕ} (evaluate : SlotEvaluate N)

/-- One group and its index; the state holds the cursor.  A `break` leaves nothing
to do for the groups that follow. -/
def slotGroupStep (b : ℕ) (s : ℕ × Decoded) (group : SlotGroup N × ℕ) : ℕ × Decoded :=
  if s.2.fatal.isSome ∨ d.rows.length ≤ s.1 then s
  else
    let g := group.1
    let vals := evaluate b g (d.slotRowsFor g s.1)
    let s' := d.decodeLanes s.1 vals
      { s.2 with used := s.2.used ++ (List.range g.G).map fun c ↦ ⟨b, g.base + c, s.1⟩ }
    (s.1 + g.lanes, checkHera cipher (fun mismatches ↦ "HERA bit-exactness violated: " ++
      toString mismatches ++ " rows differ from the integer simulation (batch " ++ toString b ++
      ", group " ++ toString group.2 ++ ")") s')

/-- One batch: a fresh keystream, and the groups. -/
def slotBatch (groups : List (SlotGroup N)) (b : ℕ) (s : ℕ × Decoded) : ℕ × Decoded :=
  groups.zipIdx.foldl (d.slotGroupStep cipher evaluate b)
    (s.1, { s.2 with cryptCalls := s.2.cryptCalls + 1 })

/-- The loop over the batches, `none` where the fuel runs out. -/
def slotLoop (groups : List (SlotGroup N)) : ℕ → ℕ → ℕ × Decoded → Option Decoded
  | 0, _, _ => none
  | fuel + 1, b, s =>
      if s.2.fatal.isNone ∧ s.1 < d.rows.length then
        slotLoop groups fuel (b + 1) (d.slotBatch cipher evaluate groups b s)
      else some s.2

def slotRun (groups : List (SlotGroup N)) (fuel : ℕ) : Option Decoded :=
  d.slotLoop cipher evaluate groups fuel 0 (0, Decoded.start 0)

end CnpData

/-! ## The files -/

/-- Little-endian words of a signed type, as `binary.LittleEndian` puts them. -/
def putWords (width : ℕ) (values : List ℤ) : Bytes :=
  values.flatMap fun v ↦ pack width (v % 256 ^ width).toNat

/-- `np.fromfile` of a signed little-endian type. -/
def fromfile (width : ℕ) (bytes : Bytes) : List ℤ :=
  (List.range (bytes.length / width)).map fun i ↦
    (WeightFile.littleEndian ((bytes.drop (width * i)).take width) : ℤ).bmod (256 ^ width)

/-- `rows.i32` and `dec.i64`. -/
def Decoded.files (s : Decoded) : Bytes × Bytes := (putWords 4 s.decRows, putWords 8 s.decVals)

/-- `rows` and `dec` in `score.py`, where its assertion holds. -/
def scoreReads (files : Bytes × Bytes) : Option (List ℤ × List ℤ) :=
  let rows := fromfile 4 files.1
  let dec := fromfile 8 files.2
  if rows.length = dec.length ∧ 0 < rows.length then some (rows, dec) else none

/-! ## The lanes of one ciphertext -/

theorem takeWhile_range (p n m : ℕ) :
    (List.range' p n).takeWhile (fun i ↦ decide (i < m)) = (List.range' p n).take (m - p) := by
  induction n generalizing p with
  | zero => simp
  | succ n ih =>
      rw [List.range'_succ]
      by_cases h : p < m
      · have hsub : m - p = m - (p + 1) + 1 := by omega
        simp [h, ih, hsub]
      · have hsub : m - p = 0 := by omega
        simp [h, hsub]

theorem takeWhile_finRange (n first m : ℕ) :
    (List.finRange n).takeWhile (fun (k : Fin n) ↦ decide (first + k.val < m)) =
      (List.finRange n).take (m - first) := by
  apply List.map_injective_iff.mpr Fin.val_injective
  have hrange := takeWhile_range 0 n (m - first)
  rw [← List.range_eq_range', Nat.sub_zero, ← List.map_coe_finRange_eq_range, ← List.map_take,
    List.takeWhile_map] at hrange
  rw [← hrange]
  congr 2
  funext k
  simp only [Function.comp_apply, decide_eq_decide]
  omega

namespace CnpData

variable (d : CnpData)

/-- The first `n` rows are decoded, each with a value that `P` allows for it. -/
structure Aligned (P : ℕ → ℤ → Prop) (n : ℕ) (s : Decoded) : Prop where
  rows : s.decRows = (d.rows.take n).map fun (r : ℕ) ↦ int32 r
  length : s.decVals.length = min n d.rows.length
  value : ∀ i v, s.decVals[i]? = some v → P i v

/-- The `diff` of a value that was decoded for row `i`. -/
def diff (i : ℕ) (val : ℤ) : ℤ := val - cnpSim (d.xq (d.rows.getD i 0)) d.wq d.biasQ d.t

def diffs (s : Decoded) : List ℤ := s.decVals.mapIdx d.diff

def maxAbs (l : List ℤ) : ℤ := l.foldl (fun most v ↦ max most |v|) 0

/-- The counters are those of the values decoded so far. -/
structure Counted (s : Decoded) : Prop where
  mismatches : s.mismatches = (d.diffs s).countP fun v ↦ v ≠ 0
  maxAbsInt : s.maxAbsInt = maxAbs (d.diffs s)

/-- A run has been stopped exactly where HERA has missed a value. -/
structure Reported (cipher : String) (s : Decoded) : Prop extends d.Counted s where
  fatal : s.fatal.isSome ↔ cipher = "hera" ∧ 0 < s.mismatches

theorem reported_start (cipher : String) (cryptCalls : ℕ) :
    d.Reported cipher (Decoded.start cryptCalls) :=
  ⟨⟨rfl, rfl⟩, by simp [Decoded.start]⟩

variable {d} {P : ℕ → ℤ → Prop} {n : ℕ} {s s' : Decoded}

theorem Aligned.mono {Q : ℕ → ℤ → Prop} (h : d.Aligned P n s) (hPQ : ∀ i v, P i v → Q i v) :
    d.Aligned Q n s :=
  ⟨h.rows, h.length, fun i v hv ↦ hPQ i v (h.value i v hv)⟩

theorem Aligned.congr (h : d.Aligned P n s) (hrows : s'.decRows = s.decRows)
    (hvals : s'.decVals = s.decVals) : d.Aligned P n s' := by
  refine ⟨hrows.trans h.rows, ?_, ?_⟩
  · rw [hvals]
    exact h.length
  · rw [hvals]
    exact h.value

theorem aligned_start (cryptCalls : ℕ) : d.Aligned P 0 (Decoded.start cryptCalls) :=
  ⟨rfl, by simp [Decoded.start], fun i v h ↦ by simp [Decoded.start] at h⟩

theorem foldl_decode {lanes : ℕ} (first : ℕ) (vals : Fin lanes → ℤ) (l : List (Fin lanes))
    (s : Decoded) :
    let s' := l.foldl (fun s (k : Fin lanes) ↦ d.decode (first + k.val) (vals k) s) s
    s'.decRows = s.decRows ++ l.map (fun k ↦ int32 (d.rows.getD (first + k.val) 0 : ℕ)) ∧
      s'.decVals = s.decVals ++ l.map vals ∧ s'.cryptCalls = s.cryptCalls ∧ s'.used = s.used ∧
      s'.fatal = s.fatal := by
  induction l generalizing s with
  | nil => simp
  | cons k l ih =>
      obtain ⟨hrows, hvals, hrest⟩ := ih (d.decode (first + k.val) (vals k) s)
      refine ⟨?_, ?_, hrest⟩
      · simpa [decode] using hrows
      · simpa [decode] using hvals

variable (d) in
theorem rows_of_lanes (lanes first : ℕ) :
    ((List.finRange lanes).take (d.rows.length - first)).map
      (fun (k : Fin lanes) ↦ d.rows.getD (first + k.val) 0) =
        (d.rows.drop first).take lanes := by
  apply List.ext_getElem
  · simp [Nat.min_comm]
  · intro i h₁ h₂
    simp only [List.length_take, List.length_drop] at h₂
    simp only [List.getElem_map, List.getElem_take, List.getElem_finRange, List.getElem_drop]
    exact List.getD_eq_getElem _ _ (by simp only [Fin.val_cast]; omega)

/-- The lanes of one ciphertext add the rows that come next. -/
theorem Aligned.decodeLanes {lanes first : ℕ} {vals : Fin lanes → ℤ} (h : d.Aligned P first s)
    (hP : ∀ k : Fin lanes, first + k.val < d.rows.length → P (first + k) (vals k)) :
    d.Aligned P (first + lanes) (d.decodeLanes first vals s) ∧
      (d.decodeLanes first vals s).cryptCalls = s.cryptCalls ∧
      (d.decodeLanes first vals s).used = s.used ∧
      (d.decodeLanes first vals s).fatal = s.fatal := by
  rw [CnpData.decodeLanes, takeWhile_finRange]
  obtain ⟨hrows, hvals, hrest⟩ := foldl_decode first vals
    ((List.finRange lanes).take (d.rows.length - first)) s (d := d)
  refine ⟨⟨?_, ?_, fun i v hv ↦ ?_⟩, hrest⟩
  · rw [hrows, h.rows, List.take_add, List.map_append, ← d.rows_of_lanes, List.map_map]
    simp only [Function.comp_def]
  · have hlength := h.length
    simp only [hvals, List.length_append, List.length_map, List.length_take,
      List.length_finRange]
    omega
  · rw [hvals, List.getElem?_append] at hv
    split_ifs at hv with hold
    · exact h.value i v hv
    · simp only [List.getElem?_map, Option.map_eq_some_iff] at hv
      obtain ⟨k, hk, rfl⟩ := hv
      obtain ⟨hlt, hk⟩ := List.getElem?_eq_some_iff.mp hk
      simp only [List.length_take, List.length_finRange] at hlt
      rw [List.getElem_take, List.getElem_finRange] at hk
      have hlength := h.length
      have hval : k.val = i - s.decVals.length := by
        rw [← hk]
        rfl
      have hrow : first + k.val = i := by omega
      rw [← hrow]
      exact hP k (by omega)

theorem Aligned.checkHera {cipher : String} {text : ℕ → String} (h : d.Aligned P n s) :
    d.Aligned P n (checkHera cipher text s) := by
  rw [CnpData.checkHera]
  split_ifs
  · exact h.congr rfl rfl
  · exact h

theorem used_checkHera (cipher : String) (text : ℕ → String) (s : Decoded) :
    (checkHera cipher text s).used = s.used := by
  rw [checkHera]
  split_ifs <;> rfl

theorem cryptCalls_checkHera (cipher : String) (text : ℕ → String) (s : Decoded) :
    (checkHera cipher text s).cryptCalls = s.cryptCalls := by
  rw [checkHera]
  split_ifs <;> rfl

/-! ## The counters -/

variable {cipher : String}

theorem Counted.congr (h : d.Counted s) (hvals : s'.decVals = s.decVals)
    (hmismatches : s'.mismatches = s.mismatches) (hmax : s'.maxAbsInt = s.maxAbsInt) :
    d.Counted s' := by
  refine ⟨?_, ?_⟩
  · rw [hmismatches, h.mismatches, diffs, diffs, hvals]
  · rw [hmax, h.maxAbsInt, diffs, diffs, hvals]

theorem Counted.decode (h : d.Counted s) (val : ℤ) :
    d.Counted (d.decode s.decVals.length val s) := by
  have hdiffs : d.diffs (d.decode s.decVals.length val s) =
      d.diffs s ++ [d.diff s.decVals.length val] := List.mapIdx_concat
  refine ⟨?_, ?_⟩
  · rw [hdiffs, List.countP_append, ← h.mismatches, List.countP_singleton]
    simp only [CnpData.decode, diff]
    split_ifs <;> simp_all
  · rw [hdiffs, maxAbs, List.foldl_append, ← maxAbs, ← h.maxAbsInt]
    simp only [CnpData.decode, diff, List.foldl_cons, List.foldl_nil]
    split_ifs with hlt
    · exact (max_eq_right hlt.le).symm
    · exact (max_eq_left (not_lt.mp hlt)).symm

/-- The lanes of a ciphertext are decoded one after the other. -/
theorem Counted.foldl_decode {lanes first : ℕ} {vals : Fin lanes → ℤ} (l : List (Fin lanes))
    (h : d.Counted s) {a : ℕ} (hfirst : first + a = s.decVals.length)
    (hl : ∀ i (hi : i < l.length), (l.get ⟨i, hi⟩).val = a + i) :
    d.Counted (l.foldl (fun s (k : Fin lanes) ↦ d.decode (first + k.val) (vals k) s) s) := by
  induction l generalizing a s with
  | nil => exact h
  | cons k l ih =>
      have hk : k.val = a := hl 0 (Nat.succ_pos _)
      rw [List.foldl_cons, hk, hfirst]
      refine ih (h.decode (vals k)) (a := a + 1) ?_ fun i hi ↦ ?_
      · simp only [CnpData.decode, List.length_append, List.length_singleton]
        omega
      · have htail := hl (i + 1) (Nat.succ_lt_succ hi)
        rw [List.get_cons_succ] at htail
        omega

theorem Counted.decodeLanes {lanes first : ℕ} {vals : Fin lanes → ℤ} (h : d.Counted s)
    (hlength : s.decVals.length = min first d.rows.length) :
    d.Counted (d.decodeLanes first vals s) := by
  rw [CnpData.decodeLanes, takeWhile_finRange]
  rcases lt_or_ge first d.rows.length with hlt | hge
  · refine h.foldl_decode _ (a := 0) ?_ fun i hi ↦ ?_
    · rw [hlength, min_eq_left hlt.le, add_zero]
    · simp [List.getElem_take]
  · rw [Nat.sub_eq_zero_of_le hge]
    exact h

theorem Counted.reported (h : d.Counted s) (hfatal : s.fatal = none) (text : ℕ → String) :
    d.Reported cipher (checkHera cipher text s) := by
  rw [checkHera]
  split_ifs with hstop
  · exact ⟨h.congr rfl rfl rfl, by simp [hstop]⟩
  · exact ⟨h, by simp [hfatal, hstop]⟩

/-! ## One upload -/

/-- The state behind the first `n` rows, for values that depend on the keystream
ciphertexts used so far. -/
structure Decodes (d : CnpData) (cipher : String) (P : List Use → ℕ → ℤ → Prop) (n : ℕ)
    (s : Decoded) : Prop where
  aligned : d.Aligned (P s.used) n s
  reported : d.Reported cipher s

/-- One ciphertext, or those of one group: the rows that come next, under the
keystream ciphertexts that are added to the list. -/
theorem Decodes.upload {P : List Use → ℕ → ℤ → Prop} {lanes first : ℕ}
    (h : Decodes d cipher P first s) (hfatal : s.fatal = none)
    (hmono : ∀ {used used'}, used ⊆ used' → ∀ i v, P used i v → P used' i v) (cryptCalls : ℕ)
    (keys : List Use) {vals : Fin lanes → ℤ}
    (hvals : ∀ k : Fin lanes, first + k.val < d.rows.length →
      P (s.used ++ keys) (first + k) (vals k)) (text : ℕ → String) :
    let s' := checkHera cipher text (d.decodeLanes first vals
      { s with cryptCalls := cryptCalls, used := s.used ++ keys })
    Decodes d cipher P (first + lanes) s' ∧ s'.used = s.used ++ keys ∧
      s'.cryptCalls = cryptCalls := by
  intro s'
  have haligned : d.Aligned (P (s.used ++ keys)) first
      { s with cryptCalls := cryptCalls, used := s.used ++ keys } :=
    (h.aligned.mono (hmono (List.subset_append_left _ _))).congr rfl rfl
  have hcounted : d.Counted { s with cryptCalls := cryptCalls, used := s.used ++ keys } :=
    h.reported.toCounted.congr rfl rfl rfl
  obtain ⟨hlanes, hcalls, hused, hrunning⟩ := haligned.decodeLanes hvals
  have hused : s'.used = s.used ++ keys := (used_checkHera _ _ _).trans hused
  refine ⟨⟨?_, ?_⟩, hused, (cryptCalls_checkHera _ _ _).trans hcalls⟩
  · rw [hused]
    exact hlanes.checkHera
  · exact (hcounted.decodeLanes haligned.length).reported (hrunning.trans hfatal) text

/-- What a correctness loop has to leave: no keystream ciphertext used twice, every
decoded row with a value of its own, and all of them unless the run was stopped,
which is where HERA has missed a value. -/
structure Scheduled (d : CnpData) (cipher : String) (P : List Use → ℕ → ℤ → Prop) (s : Decoded) :
    Prop where
  used : (s.used.map Use.key).Nodup
  aligned : ∃ n, d.Aligned (P s.used) n s
  complete : s.fatal = none → d.Aligned (P s.used) d.rows.length s
  reported : d.Reported cipher s

theorem mem_diffs {v : ℤ} (h : v ∈ d.diffs s) : ∃ i u, s.decVals[i]? = some u ∧ v = d.diff i u := by
  obtain ⟨i, hi, rfl⟩ := List.mem_mapIdx.mp h
  exact ⟨i, s.decVals[i], List.getElem?_eq_getElem hi, rfl⟩

/-- A run that decodes nothing but the values of the integer model is not stopped. -/
theorem Scheduled.finished {P : List Use → ℕ → ℤ → Prop} (h : Scheduled d cipher P s)
    (hP : ∀ i v, P s.used i v → d.diff i v = 0) : s.mismatches = 0 ∧ s.fatal = none := by
  obtain ⟨n, haligned⟩ := h.aligned
  have hzero : s.mismatches = 0 := by
    rw [h.reported.mismatches, List.countP_eq_zero]
    intro v hv
    obtain ⟨i, u, hu, rfl⟩ := mem_diffs hv
    simp [hP i u (haligned.value i u hu)]
  refine ⟨hzero, ?_⟩
  rw [← Option.not_isSome_iff_eq_none, h.reported.fatal, hzero]
  exact fun hstop ↦ lt_irrefl 0 hstop.2

theorem Aligned.complete (h : d.Aligned P n s) (hn : d.rows.length ≤ n) :
    d.Aligned P d.rows.length s := by
  refine ⟨?_, ?_, h.value⟩
  · rw [h.rows, List.take_of_length_le hn, List.take_length]
  · rw [h.length, Nat.min_eq_right hn, Nat.min_self]

/-! ## `TestCNPRun` -/

section Cnp

variable (d) (cipher : String) {lanes : ℕ} (evaluate : CnpEvaluate lanes)

/-- A value that a ciphertext has in the lane where row `i` was put, under one of
the keystream ciphertexts. -/
def CnpValue (used : List Use) (i : ℕ) (v : ℤ) : Prop :=
  ∃ u ∈ used, ∃ k : Fin lanes, v = evaluate u.batch u.element (d.dataVec lanes u.first) k ∧
    u.first + k.val = i ∧ ∀ j : Fin cnpFeatures,
      d.dataVec lanes u.first (cnpFeatures * k + j) = ((d.xq (d.rows.getD i 0)) j).toInt

theorem dataVec_lane (first : ℕ) (k : Fin lanes) (hk : first + k.val < d.rows.length)
    (j : Fin cnpFeatures) :
    d.dataVec lanes first (cnpFeatures * k + j) =
      ((d.xq (d.rows.getD (first + k.val) 0)) j).toInt := by
  have hdiv : (cnpFeatures * k.val + j.val) / cnpFeatures = k := by
    rw [Nat.mul_add_div (by decide), Nat.div_eq_of_lt j.isLt, add_zero]
  have hmod : (cnpFeatures * k.val + j.val) % cnpFeatures = j := by
    rw [Nat.mul_add_mod, Nat.mod_eq_of_lt j.isLt]
  simp only [dataVec, hdiv, hmod, k.isLt, if_true, List.getElem?_eq_getElem hk, Option.elim_some,
    List.getD_eq_getElem _ _ hk]

/-- On the lanes of a ring it is the data vector of the pipeline. -/
theorem dataVec_eq_cnpDataVec (x : CnpCtx) (first : ℕ) (c : Fin x.N) :
    d.dataVec x.lanes first c = x.cnpDataVec (d.rows.map d.xq) first c := by
  simp only [dataVec, CnpCtx.cnpDataVec, List.getElem?_map]
  split_ifs
  · cases d.rows[first + c.val / cnpFeatures]? <;> rfl
  · rfl

/-- The state with `o` ciphertexts decoded. -/
structure CnpProgress (o : ℕ) (s : Decoded) : Prop where
  decodes : Decodes d cipher (d.CnpValue evaluate) (o * lanes) s
  calls : s.cryptCalls ≤ o / cryptOutputs cipher + 1
  used : s.used = (List.range o).map fun o ↦
    ⟨o / cryptOutputs cipher, o % cryptOutputs cipher, o * lanes⟩

variable {d cipher evaluate} {o : ℕ}

theorem CnpValue.mono {used used' : List Use} (h : used ⊆ used') (i : ℕ) (v : ℤ) :
    d.CnpValue evaluate used i v → d.CnpValue evaluate used' i v := by
  rintro ⟨u, hu, hvalue⟩
  exact ⟨u, h hu, hvalue⟩

/-- One ciphertext, under the next element of a keystream of its own batch. -/
theorem CnpProgress.step (h : CnpProgress d cipher evaluate o s) (hfatal : s.fatal = none) :
    CnpProgress d cipher evaluate (o + 1) (d.cnpStep cipher lanes evaluate s o) := by
  have hcalls : (if o / cryptOutputs cipher + 1 > s.cryptCalls then o / cryptOutputs cipher + 1
      else s.cryptCalls) = o / cryptOutputs cipher + 1 := by
    have hle := h.calls
    split_ifs <;> omega
  have hrunning : ¬ s.fatal.isSome = true := by simp [hfatal]
  rw [cnpStep, if_neg hrunning]
  simp only [hcalls, Nat.add_sub_cancel]
  let u : Use := ⟨o / cryptOutputs cipher, o % cryptOutputs cipher, o * lanes⟩
  have hvals : ∀ k : Fin lanes, o * lanes + k.val < d.rows.length →
      d.CnpValue evaluate (s.used ++ [u]) (o * lanes + k)
        (evaluate u.batch u.element (d.dataVec lanes u.first) k) :=
    fun k hk ↦ ⟨u, List.mem_append_right _ (List.mem_singleton_self u), k, rfl, rfl,
      d.dataVec_lane (o * lanes) k hk⟩
  obtain ⟨hdecodes, hused, hcryptCalls⟩ := h.decodes.upload hfatal CnpValue.mono
    (o / cryptOutputs cipher + 1) [u] hvals fun mismatches ↦ "HERA bit-exactness violated: " ++
      toString mismatches ++ " rows differ from the integer simulation (output ct " ++
        toString o ++ ")"
  rw [← Nat.succ_mul] at hdecodes
  refine ⟨hdecodes, ?_, ?_⟩
  · rw [hcryptCalls]
    exact Nat.add_le_add_right (Nat.div_le_div_right (Nat.le_succ o)) 1
  · rw [hused, h.used, List.range_succ, List.map_append]
    rfl

variable (d cipher evaluate) in
/-- After `o` rounds of the loop, that many ciphertexts are decoded or the run was stopped. -/
theorem cnpRun_take (o : ℕ) :
    let s := (List.range o).foldl (d.cnpStep cipher lanes evaluate) (Decoded.start 1)
    ∃ m, CnpProgress d cipher evaluate m s ∧ (s.fatal = none → m = o) := by
  induction o with
  | zero =>
      refine ⟨0, ⟨⟨?_, d.reported_start cipher 1⟩, ?_, rfl⟩, fun _ ↦ rfl⟩
      · rw [zero_mul]
        exact aligned_start 1
      · exact Nat.le_add_left 1 _
  | succ o ih =>
      obtain ⟨m, hprogress, hm⟩ := ih
      simp only [List.range_succ, List.foldl_append, List.foldl_cons, List.foldl_nil]
      cases hfatal : ((List.range o).foldl (d.cnpStep cipher lanes evaluate)
        (Decoded.start 1)).fatal with
      | none =>
          obtain rfl := hm hfatal
          exact ⟨m + 1, hprogress.step hfatal, fun _ ↦ rfl⟩
      | some text =>
          rw [cnpStep, hfatal, Option.isSome_some, if_pos rfl]
          refine ⟨m, hprogress, fun hnone ↦ ?_⟩
          rw [hfatal] at hnone
          cases hnone

theorem cryptOutputs_pos (cipher : String) : 0 < cryptOutputs cipher := by
  rw [cryptOutputs]
  split_ifs <;> decide

variable (d cipher evaluate) in
theorem scheduled_cnpRun (hlanes : 0 < lanes) :
    Scheduled d cipher (d.CnpValue evaluate) (d.cnpRun cipher lanes evaluate) := by
  obtain ⟨m, hprogress, hm⟩ := cnpRun_take d cipher evaluate (d.nCts lanes)
  refine ⟨?_, ⟨_, hprogress.decodes.aligned⟩, fun hfatal ↦ ?_, hprogress.decodes.reported⟩
  · rw [cnpRun, hprogress.used, List.map_map]
    refine List.nodup_range.map fun o o' heq ↦ ?_
    obtain ⟨hdiv, hmod⟩ : o / cryptOutputs cipher = o' / cryptOutputs cipher ∧
        o % cryptOutputs cipher = o' % cryptOutputs cipher := Prod.mk.inj heq
    rw [← Nat.div_add_mod o (cryptOutputs cipher), hdiv, hmod, Nat.div_add_mod]
  · obtain rfl := hm hfatal
    refine hprogress.decodes.aligned.complete ?_
    have hround := Nat.lt_div_mul_add hlanes (a := d.rows.length + lanes - 1)
    rw [nCts]
    omega

end Cnp

/-! ## `TestSlotRun` -/

section Slot

variable (d) (cipher : String) {N : ℕ} (groups : List (SlotGroup N)) (evaluate : SlotEvaluate N)

/-- A value that a group has in the lane where row `i` was put, under keystream
ciphertexts that are all among those used. -/
def SlotValue (used : List Use) (i : ℕ) (v : ℤ) : Prop :=
  ∃ batch, ∃ g ∈ groups, ∃ first, ∃ l : Fin g.lanes,
    v = evaluate batch g (d.slotRowsFor g first) l ∧ first + l.val = i ∧
      d.slotRowsFor g first l = some (d.xq (d.rows.getD i 0)) ∧
        ∀ c < g.G, ⟨batch, g.base + c, first⟩ ∈ used

/-- In batch `b`, with the ciphertexts below `base` used. -/
structure SlotProgress (b base : ℕ) (s : ℕ × Decoded) : Prop where
  decodes : Decodes d cipher (d.SlotValue groups evaluate) s.1 s.2
  nodup : (s.2.used.map Use.key).Nodup
  used : ∀ u ∈ s.2.used, u.batch < b ∨ u.batch = b ∧ u.element < base

variable {d cipher groups evaluate} {b base stop : ℕ} {s : ℕ × Decoded}

theorem SlotValue.mono {used used' : List Use} (h : used ⊆ used') (i : ℕ) (v : ℤ) :
    d.SlotValue groups evaluate used i v → d.SlotValue groups evaluate used' i v := by
  rintro ⟨batch, g, hg, first, l, hvalue, hfirst, hrow, hkeys⟩
  exact ⟨batch, g, hg, first, l, hvalue, hfirst, hrow, fun c hc ↦ h (hkeys c hc)⟩

/-- The keystream ciphertexts of a group are new, and no two of them are one. -/
theorem nodup_groupKeys {used : List Use} (hnodup : (used.map Use.key).Nodup)
    (hused : ∀ u ∈ used, u.batch < b ∨ u.batch = b ∧ u.element < base) (G first : ℕ) :
    let keys := (List.range G).map fun c ↦ (⟨b, base + c, first⟩ : Use)
    ((used ++ keys).map Use.key).Nodup ∧
      ∀ u ∈ used ++ keys, u.batch < b ∨ u.batch = b ∧ u.element < base + G := by
  intro keys
  have hkeys : ∀ u ∈ keys, u.batch = b ∧ base ≤ u.element ∧ u.element < base + G := by
    intro u hu
    obtain ⟨c, hc, rfl⟩ := List.mem_map.mp hu
    exact ⟨rfl, Nat.le_add_right _ _, Nat.add_lt_add_left (List.mem_range.mp hc) _⟩
  constructor
  · rw [List.map_append]
    refine hnodup.append ?_ fun p hp hkey ↦ ?_
    · rw [List.map_map]
      refine List.nodup_range.map fun c c' heq ↦ ?_
      exact Nat.add_left_cancel (Prod.mk.inj heq).2
    · obtain ⟨u, hu, rfl⟩ := List.mem_map.mp hp
      obtain ⟨u', hu', heq⟩ := List.mem_map.mp hkey
      obtain ⟨hbatch, helement⟩ := Prod.mk.inj heq
      obtain ⟨hb, hge, -⟩ := hkeys u' hu'
      rcases hused u hu with hlt | ⟨-, hlt⟩ <;> omega
  · intro u hu
    rcases List.mem_append.mp hu with hold | hkey
    · rcases hused u hold with hlt | ⟨heq, hlt⟩
      · exact .inl hlt
      · exact .inr ⟨heq, Nat.lt_add_right _ hlt⟩
    · obtain ⟨hb, -, hlt⟩ := hkeys u hkey
      exact .inr ⟨hb, hlt⟩

/-- One group, on keystream ciphertexts that no earlier group has used. -/
theorem SlotProgress.step (h : SlotProgress d cipher groups evaluate b base s) {g : SlotGroup N}
    (hg : g ∈ groups) (hbase : g.base = base) (i : ℕ) :
    SlotProgress d cipher groups evaluate b (base + g.G)
      (d.slotGroupStep cipher evaluate b s (g, i)) := by
  obtain ⟨cursor, s⟩ := s
  obtain ⟨hdecodes, hnodup, hused⟩ := h
  dsimp only at hdecodes hnodup hused
  rw [slotGroupStep]
  split_ifs with hskip
  · refine ⟨hdecodes, hnodup, fun u hu ↦ ?_⟩
    rcases hused u hu with hlt | ⟨heq, hlt⟩
    · exact .inl hlt
    · exact .inr ⟨heq, Nat.lt_add_right _ hlt⟩
  · obtain ⟨hfatal, -⟩ := not_or.mp hskip
    dsimp only
    set keys : List Use := (List.range g.G).map fun c ↦ ⟨b, g.base + c, cursor⟩
    have hvals : ∀ l : Fin g.lanes, cursor + l.val < d.rows.length →
        d.SlotValue groups evaluate (s.used ++ keys) (cursor + l)
          (evaluate b g (d.slotRowsFor g cursor) l) := by
      intro l hl
      refine ⟨b, g, hg, cursor, l, rfl, rfl, if_pos hl, fun c hc ↦ ?_⟩
      exact List.mem_append_right _ (List.mem_map_of_mem (List.mem_range.mpr hc))
    obtain ⟨hupload, hadded, -⟩ := hdecodes.upload (Option.not_isSome_iff_eq_none.mp hfatal)
      SlotValue.mono s.cryptCalls keys hvals fun mismatches ↦ "HERA bit-exactness violated: " ++
        toString mismatches ++ " rows differ from the integer simulation (batch " ++
          toString b ++ ", group " ++ toString i ++ ")"
    obtain ⟨hkeys, hbelow⟩ := nodup_groupKeys hnodup hused g.G cursor
    rw [← hbase] at hkeys hbelow ⊢
    refine ⟨hupload, ?_, ?_⟩
    · dsimp only
      rw [hadded]
      exact hkeys
    · dsimp only
      rw [hadded]
      exact hbelow

theorem SlotProgress.foldGroups (h : SlotProgress d cipher groups evaluate b base s)
    {rest : List (SlotGroup N)} (hrest : ∀ g ∈ rest, g ∈ groups)
    (hconsecutive : Consecutive base rest stop) (i : ℕ) :
    SlotProgress d cipher groups evaluate b stop
      ((rest.zipIdx i).foldl (d.slotGroupStep cipher evaluate b) s) := by
  induction rest generalizing base s i with
  | nil =>
      obtain rfl := hconsecutive
      exact h
  | cons g rest ih =>
      obtain ⟨hbase, htail⟩ := hconsecutive
      exact ih (h.step (hrest g List.mem_cons_self) hbase i)
        (fun g' hg' ↦ hrest g' (List.mem_cons_of_mem g hg')) htail (i + 1)

theorem cursor_groups_le (rest : List (SlotGroup N)) (i : ℕ) :
    s.1 ≤ ((rest.zipIdx i).foldl (d.slotGroupStep cipher evaluate b) s).1 := by
  induction rest generalizing s i with
  | nil => exact le_rfl
  | cons g rest ih =>
      have hstep : s.1 ≤ (d.slotGroupStep cipher evaluate b s (g, i)).1 := by
        rw [slotGroupStep]
        split_ifs
        · exact le_rfl
        · exact Nat.le_add_right _ _
      exact hstep.trans (ih (i + 1))

variable (cipher evaluate b) in
/-- A batch that starts before the end of the rows moves the cursor. -/
theorem cursor_slotBatch_lt (hgroups : groups ≠ []) (hlanes : ∀ g ∈ groups, 0 < g.lanes)
    (hfatal : s.2.fatal = none) (hcursor : s.1 < d.rows.length) :
    s.1 < (d.slotBatch cipher evaluate groups b s).1 := by
  obtain ⟨g, rest, rfl⟩ := List.exists_cons_of_ne_nil hgroups
  have hlt := hlanes g List.mem_cons_self
  have hrunning : ¬ (s.2.fatal.isSome = true ∨ d.rows.length ≤ s.1) := by simp [hfatal, hcursor]
  rw [slotBatch, List.zipIdx_cons, List.foldl_cons]
  refine lt_of_lt_of_le ?_ (cursor_groups_le rest 1)
  rw [slotGroupStep, if_neg hrunning]
  exact Nat.lt_add_of_pos_right hlt

/-- With fuel for the rows that are left the loop ends, on a schedule without gaps. -/
theorem scheduled_slotLoop (hgroups : groups ≠ []) (hlanes : ∀ g ∈ groups, 0 < g.lanes)
    (hconsecutive : Consecutive 0 groups stop) (fuel : ℕ)
    (h : SlotProgress d cipher groups evaluate b 0 s) (hfuel : d.rows.length - s.1 < fuel) :
    ∃ r, d.slotLoop cipher evaluate groups fuel b s = some r ∧
      Scheduled d cipher (d.SlotValue groups evaluate) r := by
  induction fuel generalizing b s with
  | zero => exact absurd hfuel (Nat.not_lt_zero _)
  | succ fuel ih =>
      rw [slotLoop]
      split_ifs with hrun
      · obtain ⟨hfatal, hcursor⟩ := hrun
        have hstart : SlotProgress d cipher groups evaluate b 0
            (s.1, { s.2 with cryptCalls := s.2.cryptCalls + 1 }) :=
          ⟨⟨h.decodes.aligned.congr rfl rfl, h.decodes.reported.toCounted.congr rfl rfl rfl,
            h.decodes.reported.fatal⟩, h.nodup, h.used⟩
        obtain ⟨hdecodes, hnodup, hused⟩ :=
          hstart.foldGroups (fun g hg ↦ hg) hconsecutive 0
        have hlt := cursor_slotBatch_lt cipher evaluate b hgroups hlanes
          (Option.isNone_iff_eq_none.mp hfatal) hcursor
        refine ih ⟨hdecodes, hnodup, fun u hu ↦ .inl ?_⟩ ?_
        · rcases hused u hu with hlt | ⟨heq, -⟩
          · exact Nat.lt_succ_of_lt hlt
          · exact Nat.lt_succ_of_le heq.le
        · omega
      · refine ⟨s.2, rfl, h.nodup, ⟨_, h.decodes.aligned⟩, fun hfatal ↦ ?_, h.decodes.reported⟩
        refine h.decodes.aligned.complete (not_lt.mp fun hcursor ↦ hrun ⟨?_, hcursor⟩)
        exact Option.isNone_iff_eq_none.mpr hfatal

theorem scheduled_slotRun {k : ℕ} (hk : 1 ≤ k) {cipher : String} {groups : List (SlotGroup (2 ^ k))}
    (hlayout : slotLayout cipher (2 ^ k) = .ok groups) (evaluate : SlotEvaluate (2 ^ k)) {fuel : ℕ}
    (hfuel : d.rows.length < fuel) :
    ∃ r, d.slotRun cipher evaluate groups fuel = some r ∧
      Scheduled d cipher (d.SlotValue groups evaluate) r := by
  have hconsecutive := consecutive_of_slotLayout hlayout
  have hgroups : groups ≠ [] := by
    rintro rfl
    exact (cryptOutputs_pos cipher).ne hconsecutive
  have hlanes : ∀ g ∈ groups, 0 < g.lanes := by
    intro g _
    rw [g.filled]
    have heven : 2 ∣ 2 ^ k := dvd_pow_self 2 (Nat.one_le_iff_ne_zero.mp hk)
    exact Nat.div_pos (Nat.le_of_dvd (Nat.two_pow_pos k) (g.S_dvd heven)) g.S_pos
  refine scheduled_slotLoop hgroups hlanes hconsecutive fuel
    ⟨⟨aligned_start 0, d.reported_start cipher 0⟩, List.nodup_nil,
      fun u hu ↦ absurd hu List.not_mem_nil⟩ ?_
  exact hfuel

end Slot

end CnpData

/-! ## What `score.py` reads -/

theorem fromfile_putWords {width : ℕ} (hwidth : 0 < width) (values : List ℤ) :
    fromfile width (putWords width values) = values.map fun v ↦ v.bmod (256 ^ width) := by
  have hword : ∀ v : ℤ, (pack width (v % 256 ^ width).toNat).length = width :=
    fun v ↦ length_pack width _
  have hbase : (0 : ℤ) < 256 ^ width := by positivity
  apply List.ext_getElem
  · rw [fromfile, List.length_map, List.length_range, putWords, FixedWidth.length_flatMap hword,
      Nat.mul_div_cancel_left _ hwidth, List.length_map]
  · intro i h₁ h₂
    rw [List.length_map] at h₂
    have hcut : ((putWords width values).drop (width * i)).take width =
        pack width (values[i] % 256 ^ width).toNat := by
      rw [putWords, FixedWidth.drop_flatMap hword, List.drop_eq_getElem_cons h₂,
        List.flatMap_cons, List.take_left' (hword _)]
    have hvalue : (WeightFile.littleEndian (pack width (values[i] % 256 ^ width).toNat) : ℤ) =
        values[i] % 256 ^ width := by
      rw [littleEndian_pack]
      push_cast
      rw [Int.toNat_of_nonneg (Int.emod_nonneg _ hbase.ne'), Int.emod_emod_of_dvd _ (dvd_refl _)]
    simp only [fromfile, List.getElem_map, List.getElem_range]
    rw [hcut, hvalue]
    exact_mod_cast Int.emod_bmod values[i] (256 ^ width)

/-- `rows` and `dec` are all the selected rows with their values, in order; the
assertion asks for one at least. -/
def ScoresAll (d : CnpData) (s : Decoded) : Prop :=
  s.decVals.length = d.rows.length ∧ scoreReads s.files =
    if 0 < d.rows.length then
      some (d.rows.map fun (r : ℕ) ↦ int32 r, s.decVals.map int64)
    else none

theorem CnpData.Scheduled.scoresAll {d : CnpData} {cipher : String}
    {P : List Use → ℕ → ℤ → Prop}
    {s : Decoded} (h : d.Scheduled cipher P s) (hfatal : s.fatal = none) : ScoresAll d s := by
  obtain ⟨hrows, hvals, -⟩ := h.complete hfatal
  rw [List.take_length] at hrows
  rw [min_self] at hvals
  have hrowsFile : fromfile 4 s.files.1 = d.rows.map fun (r : ℕ) ↦ int32 r := by
    have hword : (256 : ℕ) ^ 4 = 2 ^ 32 := by norm_num
    rw [Decoded.files, fromfile_putWords (by norm_num), hrows, List.map_map, hword]
    refine List.map_congr_left fun r _ ↦ ?_
    rw [Function.comp_apply, int32, Int.bmod_bmod]
  have hdecFile : fromfile 8 s.files.2 = s.decVals.map int64 := by
    have hword : (256 : ℕ) ^ 8 = 2 ^ 64 := by norm_num
    rw [Decoded.files, fromfile_putWords (by norm_num), hword]
    rfl
  refine ⟨hvals, ?_⟩
  simp only [scoreReads, hrowsFile, hdecFile, List.length_map, hvals, true_and]

/-- Both loops, for every number of rows, end on a schedule that decodes every row
once and in order and uses no keystream ciphertext twice; unless a HERA run is
stopped for a wrong value, its files hold all the rows. -/
theorem row_schedules (d : CnpData) (cipher : String) :
    (∀ lanes, 0 < lanes → ∀ evaluate : CnpData.CnpEvaluate lanes,
      let s := d.cnpRun cipher lanes evaluate
      d.Scheduled cipher (d.CnpValue evaluate) s ∧ (s.fatal = none → ScoresAll d s)) ∧
    ∀ k groups, 1 ≤ k → slotLayout cipher (2 ^ k) = .ok groups →
      ∀ (evaluate : CnpData.SlotEvaluate (2 ^ k)) (fuel : ℕ), d.rows.length < fuel →
        ∃ s, d.slotRun cipher evaluate groups fuel = some s ∧
          d.Scheduled cipher (d.SlotValue groups evaluate) s ∧
            (s.fatal = none → ScoresAll d s) := by
  refine ⟨fun lanes hlanes evaluate ↦ ?_, fun k groups hk hlayout evaluate fuel hfuel ↦ ?_⟩
  · have hscheduled := d.scheduled_cnpRun cipher evaluate hlanes
    exact ⟨hscheduled, hscheduled.scoresAll⟩
  · obtain ⟨s, hrun, hscheduled⟩ := CnpData.scheduled_slotRun hk hlayout evaluate hfuel
    exact ⟨s, hrun, hscheduled, hscheduled.scoresAll⟩

/-! ## Three rows, in two HERA lanes of a ring of degree 32 -/

namespace CnpData

def rampData : CnpData where
  rows := [2, 0, 1]
  xq r j := Int16.ofNat (r + j + 1)
  wq j := j + 1
  biasQ := 5
  t := 33292289

/-- The integer model on what was packed. -/
def rampCnp : CnpEvaluate 2 := fun _ _ data k ↦
  cnpCentre (∑ j : Fin cnpFeatures, data (cnpFeatures * k + j) * rampData.wq j + rampData.biasQ)
    rampData.t

def rampSlot : SlotEvaluate 32 := fun _ _ rows l ↦
  (rows l).elim 0 fun row ↦ cnpSim row rampData.wq rampData.biasQ rampData.t

theorem row_schedules_ramp :
    let cnp := rampData.cnpRun "hera" 2 rampCnp
    rampData.Scheduled "hera" (rampData.CnpValue rampCnp) cnp ∧ ScoresAll rampData cnp ∧
      ∃ slot, rampData.slotRun "hera" rampSlot [heraGroup] 4 = some slot ∧
        rampData.Scheduled "hera" (rampData.SlotValue [heraGroup] rampSlot) slot ∧
          ScoresAll rampData slot := by
  intro cnp
  obtain ⟨hcnp, hslot⟩ := row_schedules rampData "hera"
  have hlayout : slotLayout "hera" (2 ^ 5) = .ok [heraGroup] := rfl
  obtain ⟨hscheduled, hscored⟩ := hcnp 2 (by norm_num) rampCnp
  obtain ⟨slot, hrun, hscheduled', hscored'⟩ := hslot 5 [heraGroup] (by norm_num) hlayout rampSlot
    4 (by decide)
  refine ⟨hscheduled, hscored (hscheduled.finished ?_).2, slot, hrun, hscheduled',
    hscored' (hscheduled'.finished ?_).2⟩
  · rintro i v ⟨u, -, k, rfl, -, hdata⟩
    simp only [diff, cnpSim, rampCnp, hdata, sub_self]
  · rintro i v ⟨batch, g, -, first, l, rfl, -, hrow, -⟩
    simp only [diff, rampSlot, hrow, Option.elim_some, sub_self]

end CnpData

end Ppfdaas.Transcipher
