import Ppfdaas.Library.BoxSums
import Ppfdaas.Library.CentredResidue
import Ppfdaas.Library.ExceptRuns
import Ppfdaas.Library.Rounding

/-!
# The plaintext gate of coefficient-native packing

`sweep_cell` of `cnp_gate.py` over exact numbers: the quantised test set under
one pair of exponents, in one or two blocks, and the worst case that is meant to
cover every other row.
-/

namespace Ppfdaas.CnpGate

open BoxSums CentredResidue ExceptRuns Rounding

abbrev Columns := Fin 256

def RUBATO_SIGMA : ℚ := 1.6356633496458739795537788457309656607510203877762320964302959

/-- `int` drops the fraction. -/
def RUBATO_BOUND : ℤ := truncate (6 * RUBATO_SIGMA)

/-- Centre integers mod `t` into `(-t/2, t/2]`; `np.mod` has the sign of `t`. -/
def center (v t : ℤ) : ℤ := if v % t > t / 2 then v % t - t else v % t

def round_half_even (a : ℚ) : ℤ := halfEven a

inductive Raised where
  | assertion
  | emptyMax
  | overflow
  | sample

def maximum (v : List ℤ) : Except Raised ℤ := v.max?.elim (.error .emptyMax) .ok

/-- `sl`: the columns of each block. -/
def sl (blocks : ℕ) : List (Finset Columns) :=
  if blocks = 1 then [Finset.univ]
  else [Finset.univ.filter fun j ↦ j.val < 128, Finset.univ.filter fun j ↦ 128 ≤ j.val]

/-- `xq_[:, s] @ wq[s]`, one row. -/
def blockSum (wq : Columns → ℤ) (s : Finset Columns) (row : Columns → ℤ) : ℤ :=
  ∑ j ∈ s, row j * wq j

def quantise (d : ℚ) (v : Columns → ℚ) (j : Columns) : ℤ := round_half_even (v j * d)

/-- `xqmax_col`: the worst case of `|xq_j|`, guaranteed and not observed. -/
def xqmax_col (dx : ℚ) (xb : Columns → ℚ) (j : Columns) : ℤ := ⌈dx * xb j⌉

/-- `wc`: the worst-case integer bound of each output block. -/
def wc (wq xqmax_col : Columns → ℤ) (noise : ℤ) (sl : List (Finset Columns)) : List ℤ :=
  sl.map fun s ↦ ∑ j ∈ s, |wq j| * (xqmax_col j + noise)

structure Tally where
  tot : List ℤ
  smax : ℤ
  ovf : ℕ

/-- The body of the loop of `run`.  The sums are exact in float64, which the
assertion sees to. -/
def runBlock (t : ℤ) (wq : Columns → ℤ) (xq_ : List (Columns → ℤ)) (acc : Tally)
    (s : Finset Columns) : Except Raised Tally := do
  let sb := xq_.map (blockSum wq s)
  let m ← maximum (sb.map abs)
  if m < 2 ^ 53 then
    pure {
      tot := List.zipWith (· + ·) acc.tot (sb.map fun v ↦ center v t)
      smax := max acc.smax m
      ovf := acc.ovf + sb.countP fun v ↦ |v| > t / 2 }
  else throw .assertion

/-- The scores, the largest sum and the number of overflows. -/
def run (t : ℤ) (dx dw : ℚ) (wq : Columns → ℤ) (sl : List (Finset Columns))
    (xq_ : List (Columns → ℤ)) : Except Raised (List ℚ × ℤ × ℕ) := do
  let acc ← sl.foldlM (runBlock t wq xq_) ⟨List.replicate xq_.length 0, 0, 0⟩
  pure (acc.tot.map fun v : ℤ ↦ (v : ℚ) / (dx * dw), acc.smax, acc.ovf)

/-- What is kept of a cell.  The scores are there in place of the AUC that they
are turned into. -/
structure Cell where
  log2_dx : ℤ
  log2_dw : ℤ
  blocks : ℕ
  worst_case_bound : ℤ
  t_half : ℤ
  worst_case_safe : Bool
  sum_abs_wq : ℤ
  emp_max_abs_s : ℤ
  overflow_count : ℕ
  scores : List (List ℚ)

def clipNoise (normal : ℚ) : ℤ := max (-RUBATO_BOUND) (min (round_half_even normal) RUBATO_BOUND)

/-- A sampler gives each row of the test set its samples. -/
abbrev Sampler := ℕ → Columns → ℚ

def addNoise (xq : List (Columns → ℤ)) (normal : Sampler) : List (Columns → ℤ) :=
  xq.mapIdx fun i row j ↦ row j + clipNoise (normal i j)

/-- The rows of each run: the quantised ones, once for every seed of the noise.  A
seed is given by what it makes the sampler return. -/
def rounds (xq : List (Columns → ℤ)) (noise_seeds : Option (List Sampler)) :
    List (List (Columns → ℤ)) :=
  noise_seeds.elim [xq] fun seeds ↦ seeds.map (addNoise xq)

def noiseBound (noise_seeds : Option (List Sampler)) : ℤ :=
  if noise_seeds.isSome then RUBATO_BOUND else 0

def sweep_cell (X : List (Columns → ℚ)) (w : Columns → ℚ) (t lx lw : ℤ)
    (noise_seeds : Option (List Sampler)) (blocks : ℕ) (xbound : Option (Columns → ℚ)) :
    Except Raised Cell := do
  let dx : ℚ := 2 ^ lx
  let dw : ℚ := 2 ^ lw
  let xb := xbound.getD fun _ ↦ 1
  let xq := X.map (quantise dx)
  let wq := quantise dw w
  let wc := wc wq (xqmax_col dx xb) (noiseBound noise_seeds) (sl blocks)
  let wc_safe := wc.all fun v ↦ v ≤ t / 2
  let bound ← maximum wc
  let runs ← (rounds xq noise_seeds).mapM (run t dx dw wq (sl blocks))
  let smax ← maximum (runs.map fun r ↦ r.2.1)
  pure {
    log2_dx := lx
    log2_dw := lw
    blocks := blocks
    worst_case_bound := bound
    t_half := t / 2
    worst_case_safe := wc_safe
    sum_abs_wq := ∑ j, |wq j|
    emp_max_abs_s := smax
    overflow_count := (runs.map fun r ↦ r.2.2).sum
    scores := runs.map fun r ↦ r.1 }

/-! ## Centring and blocks -/

theorem center_eq_self_iff {t : ℤ} (ht : 0 < t) (hodd : Odd t) (v : ℤ) :
    center v t = v ↔ |v| ≤ t / 2 := centred_eq_self_iff ht hodd v

theorem sum_blockSum (wq row : Columns → ℤ) (blocks : ℕ) :
    ((sl blocks).map fun s ↦ blockSum wq s row).sum = ∑ j, row j * wq j := by
  unfold sl
  split_ifs
  · simp [blockSum]
  · have hnot : (Finset.univ.filter fun j : Columns ↦ 128 ≤ j.val) =
        Finset.univ.filter fun j : Columns ↦ ¬ j.val < 128 := by simp only [not_lt]
    simp only [blockSum, List.map_cons, List.map_nil, List.sum_cons, List.sum_nil, add_zero]
    rw [hnot, Finset.sum_filter_add_sum_filter_not]

theorem RUBATO_BOUND_eq : RUBATO_BOUND = 9 := by
  have hpos : (0 : ℚ) ≤ 6 * RUBATO_SIGMA := by norm_num [RUBATO_SIGMA]
  rw [RUBATO_BOUND, truncate, if_pos hpos, Int.floor_eq_iff]
  constructor <;> norm_num [RUBATO_SIGMA]

/-! ## `run` within the bound -/

section Exact

variable {t : ℤ} {wq : Columns → ℤ} {data : List (Columns → ℤ)}

def Within (t : ℤ) (wq : Columns → ℤ) (data : List (Columns → ℤ)) (s : Finset Columns) : Prop :=
  ∀ row ∈ data, |blockSum wq s row| ≤ t / 2

theorem runBlock_ok {s : Finset Columns} {acc acc' : Tally}
    (h : runBlock t wq data acc s = .ok acc') :
    acc'.tot = List.zipWith (· + ·) acc.tot (data.map fun row ↦ center (blockSum wq s row) t) ∧
      acc'.ovf = acc.ovf + (data.map (blockSum wq s)).countP fun v ↦ |v| > t / 2 := by
  obtain ⟨m, -, h⟩ := bind_ok h
  obtain ⟨-, h⟩ := ite_throw_ok h
  obtain rfl := Except.ok.inj h
  exact ⟨by simp [List.map_map, Function.comp_def], rfl⟩

theorem runBlock_returns {s : Finset Columns} (hdata : data ≠ []) (ht : t < 2 ^ 54)
    (hwithin : Within t wq data s) (acc : Tally) : ∃ acc', runBlock t wq data acc s = .ok acc' := by
  obtain ⟨row, hrow⟩ := List.exists_mem_of_ne_nil data hdata
  have hmem : |blockSum wq s row| ∈ (data.map (blockSum wq s)).map abs :=
    List.mem_map_of_mem (List.mem_map_of_mem hrow)
  cases hmax : ((data.map (blockSum wq s)).map abs).max? with
  | none => simp [List.max?_eq_none_iff.mp hmax] at hmem
  | some m =>
      have hm : m < 2 ^ 53 := by
        obtain ⟨v, hv, rfl⟩ := List.mem_map.mp (List.max?_mem hmax)
        obtain ⟨row', hrow', rfl⟩ := List.mem_map.mp hv
        have hle := hwithin row' hrow'
        omega
      exact ⟨_, by
        simp only [runBlock, maximum, hmax, Option.elim, bind, Except.bind, if_pos hm]
        rfl⟩

/-- Within the bound a block adds its exact sums, and nothing overflows. -/
theorem runBlock_exact (ht : 0 < t) (hodd : Odd t) {s : Finset Columns}
    (hwithin : Within t wq data s) {total : (Columns → ℤ) → ℤ} {acc acc' : Tally}
    (htot : acc.tot = data.map total) (hovf : acc.ovf = 0)
    (h : runBlock t wq data acc s = .ok acc') :
    acc'.tot = data.map (fun row ↦ total row + blockSum wq s row) ∧ acc'.ovf = 0 := by
  obtain ⟨htot', hovf'⟩ := runBlock_ok h
  have hexact : data.map (fun row ↦ center (blockSum wq s row) t) = data.map (blockSum wq s) :=
    List.map_congr_left fun row hrow ↦ (center_eq_self_iff ht hodd _).mpr (hwithin row hrow)
  have hcount : (data.map (blockSum wq s)).countP (fun v ↦ |v| > t / 2) = 0 := by
    rw [List.countP_eq_zero]
    intro v hv
    obtain ⟨row, hrow, rfl⟩ := List.mem_map.mp hv
    simpa using hwithin row hrow
  rw [htot, hexact, List.zipWith_map, List.zipWith_self] at htot'
  rw [hovf, hcount] at hovf'
  exact ⟨htot', hovf'⟩

theorem run_exact (ht : 0 < t) (hodd : Odd t) {dx dw : ℚ} {blocks : ℕ}
    (hwithin : ∀ s ∈ sl blocks, Within t wq data s) {out : List ℚ × ℤ × ℕ}
    (h : run t dx dw wq (sl blocks) data = .ok out) :
    out.1 = data.map (fun row ↦ ((∑ j, row j * wq j : ℤ) : ℚ) / (dx * dw)) ∧ out.2.2 = 0 := by
  obtain ⟨acc, hfold, hout⟩ := bind_ok h
  obtain rfl := Except.ok.inj hout
  obtain ⟨htot, hovf⟩ := foldlM_ok (P := fun done acc ↦
    acc.tot = data.map (fun row ↦ (done.map fun s ↦ blockSum wq s row).sum) ∧ acc.ovf = 0)
    (fun done s hs acc acc' hacc hstep ↦ by
      simpa using runBlock_exact ht hodd (hwithin s hs) hacc.1 hacc.2 hstep)
    ⟨by simp, rfl⟩ hfold
  refine ⟨?_, hovf⟩
  simp only [htot, List.map_map]
  refine List.map_congr_left fun row _ ↦ ?_
  rw [Function.comp_apply, sum_blockSum]

theorem run_returns (hdata : data ≠ []) (ht : t < 2 ^ 54) {dx dw : ℚ} {blocks : ℕ}
    (hwithin : ∀ s ∈ sl blocks, Within t wq data s) :
    ∃ out, run t dx dw wq (sl blocks) data = .ok out := by
  have hfold : ∃ acc, (sl blocks).foldlM (runBlock t wq data)
      ⟨List.replicate data.length 0, 0, 0⟩ = .ok acc :=
    foldlM_returns (fun s hs ↦ runBlock_returns hdata ht (hwithin s hs)) _
  obtain ⟨acc, hacc⟩ := hfold
  exact ⟨(acc.tot.map fun v : ℤ ↦ (v : ℚ) / (dx * dw), acc.smax, acc.ovf), by rw [run, hacc]; rfl⟩

end Exact

/-! ## The worst case -/

theorem abs_quantise_le {dx : ℚ} (hdx : 0 < dx) {x xb : Columns → ℚ} {j : Columns}
    (h : |x j| ≤ xb j) : |quantise dx x j| ≤ xqmax_col dx xb j := by
  apply isRounding_halfEven.abs_le_ceil
  rw [abs_mul, abs_of_pos hdx, mul_comm]
  exact mul_le_mul_of_nonneg_left h hdx.le

theorem worst_case_safe_of_ok {X : List (Columns → ℚ)} {w : Columns → ℚ} {t lx lw : ℤ}
    {noise_seeds : Option (List Sampler)} {blocks : ℕ} {xbound : Option (Columns → ℚ)}
    {cell : Cell} (h : sweep_cell X w t lx lw noise_seeds blocks xbound = .ok cell) :
    cell.worst_case_safe = (wc (quantise (2 ^ lw) w)
      (xqmax_col (2 ^ lx) (xbound.getD fun _ ↦ 1)) (noiseBound noise_seeds) (sl blocks)).all
        fun v ↦ v ≤ t / 2 := by
  obtain ⟨bound, -, h⟩ := bind_ok h
  obtain ⟨runs, -, h⟩ := bind_ok h
  obtain ⟨smax, -, h⟩ := bind_ok h
  obtain rfl := Except.ok.inj h
  rfl

/-- A row as far from the worst case as a cell allows for. -/
def Covered (dx : ℚ) (xb : Columns → ℚ) (noise : ℤ) (row : Columns → ℤ) : Prop :=
  ∀ j, |row j| ≤ xqmax_col dx xb j + noise

theorem within_of_covered {t noise : ℤ} {dx : ℚ} {xb : Columns → ℚ} {wq : Columns → ℤ}
    {blocks : ℕ} {data : List (Columns → ℤ)}
    (hsafe : ((wc wq (xqmax_col dx xb) noise (sl blocks)).all fun v ↦ v ≤ t / 2) = true)
    (hdata : ∀ row ∈ data, Covered dx xb noise row) : ∀ s ∈ sl blocks, Within t wq data s := by
  intro s hs row hrow
  rw [List.all_eq_true] at hsafe
  have hbound := hsafe _ (List.mem_map_of_mem hs)
  rw [decide_eq_true_iff] at hbound
  exact (abs_sum_le fun j _ ↦ hdata row hrow j).trans hbound

theorem covered_add {dx : ℚ} (hdx : 0 < dx) {xb x : Columns → ℚ} (hx : ∀ j, |x j| ≤ xb j)
    {noise : ℤ} {e : Columns → ℤ} (he : ∀ j, |e j| ≤ noise) :
    Covered dx xb noise fun j ↦ quantise dx x j + e j := fun j ↦
  (abs_add_le _ _).trans (add_le_add (abs_quantise_le hdx (hx j)) (he j))

/-- A cell that is safe in the worst case is so for every row within the bound,
whatever the noise: every block is centred to its exact sum. -/
theorem worst_case_safe_sound {X : List (Columns → ℚ)} {w : Columns → ℚ} {t lx lw : ℤ}
    {noise_seeds : Option (List Sampler)} {blocks : ℕ} {xbound : Option (Columns → ℚ)}
    {cell : Cell} (ht : 3 ≤ t) (hodd : Odd t)
    (h : sweep_cell X w t lx lw noise_seeds blocks xbound = .ok cell)
    (hsafe : cell.worst_case_safe = true) (rows : List ((Columns → ℚ) × (Columns → ℤ)))
    (hrows : ∀ r ∈ rows, ∀ j, |r.1 j| ≤ (xbound.getD fun _ ↦ 1) j)
    (hnoise : ∀ r ∈ rows, ∀ j, |r.2 j| ≤ noiseBound noise_seeds) :
    let wq := quantise (2 ^ lw) w
    let data := rows.map fun r j ↦ quantise (2 ^ lx) r.1 j + r.2 j
    (∀ row ∈ data, ∀ s ∈ sl blocks, |blockSum wq s row| ≤ t / 2 ∧
      center (blockSum wq s row) t = blockSum wq s row) ∧
    (∀ out, run t (2 ^ lx) (2 ^ lw) wq (sl blocks) data = .ok out →
      out.1 = data.map (fun row ↦ ((∑ j, row j * wq j : ℤ) : ℚ) / (2 ^ lx * 2 ^ lw)) ∧
        out.2.2 = 0) ∧
    (rows ≠ [] → t < 2 ^ 54 →
      ∃ out, run t (2 ^ lx) (2 ^ lw) wq (sl blocks) data = .ok out) := by
  intro wq data
  have hpos : 0 < t := by omega
  rw [worst_case_safe_of_ok h] at hsafe
  have hwithin : ∀ s ∈ sl blocks, Within t wq data s := by
    refine within_of_covered hsafe fun row hrow ↦ ?_
    obtain ⟨r, hr, rfl⟩ := List.mem_map.mp hrow
    exact covered_add (zpow_pos two_pos lx) (hrows r hr) (hnoise r hr)
  refine ⟨fun row hrow s hs ↦ ?_, fun out hout ↦ run_exact hpos hodd hwithin hout,
    fun hne ht54 ↦ run_returns ?_ ht54 hwithin⟩
  · exact ⟨hwithin s hs row hrow, (center_eq_self_iff hpos hodd _).mpr (hwithin s hs row hrow)⟩
  · exact fun hnil ↦ hne (List.map_eq_nil_iff.mp hnil)

theorem abs_clipNoise_le (normal : ℚ) : |clipNoise normal| ≤ RUBATO_BOUND := by
  have hbound := RUBATO_BOUND_eq
  exact abs_le.mpr ⟨le_max_left _ _, max_le (by omega) (min_le_right _ _)⟩

theorem maximum_returns {v : List ℤ} (h : v ≠ []) : ∃ m, maximum v = .ok m := by
  cases hmax : v.max? with
  | none => exact absurd (List.max?_eq_none_iff.mp hmax) h
  | some m => exact ⟨m, by rw [maximum, hmax]; rfl⟩

theorem covered_of_mem_rounds {X : List (Columns → ℚ)} {dx : ℚ} (hdx : 0 < dx)
    {xb : Columns → ℚ} {noise_seeds : Option (List Sampler)} (hrows : ∀ x ∈ X, ∀ j, |x j| ≤ xb j)
    {data : List (Columns → ℤ)} (hdata : data ∈ rounds (X.map (quantise dx)) noise_seeds) :
    data.length = X.length ∧ ∀ row ∈ data, Covered dx xb (noiseBound noise_seeds) row := by
  cases noise_seeds with
  | none =>
      obtain rfl := List.mem_singleton.mp hdata
      refine ⟨List.length_map _, fun row hrow j ↦ ?_⟩
      obtain ⟨x, hx, rfl⟩ := List.mem_map.mp hrow
      exact (abs_quantise_le hdx (hrows x hx j)).trans_eq (add_zero _).symm
  | some seeds =>
      obtain ⟨normal, -, rfl⟩ := List.mem_map.mp hdata
      refine ⟨by simp [addNoise], fun row hrow ↦ ?_⟩
      obtain ⟨i, hi, rfl⟩ := List.mem_mapIdx.mp hrow
      rw [List.getElem_map]
      exact covered_add hdx (hrows _ (List.getElem_mem _)) fun j ↦ abs_clipNoise_le _

theorem rounds_ne_nil (xq : List (Columns → ℤ)) {noise_seeds : Option (List Sampler)}
    (hseeds : noise_seeds ≠ some []) : rounds xq noise_seeds ≠ [] := by
  cases noise_seeds with
  | none => exact List.cons_ne_nil _ _
  | some seeds => simpa [rounds] using hseeds

/-- On a test set within the bound the cell is reported, without overflows. -/
theorem sweep_cell_of_safe {X : List (Columns → ℚ)} {w : Columns → ℚ} {t lx lw : ℤ}
    {noise_seeds : Option (List Sampler)} {blocks : ℕ} {xbound : Option (Columns → ℚ)}
    (ht : 3 ≤ t) (ht54 : t < 2 ^ 54) (hodd : Odd t) (hX : X ≠ [])
    (hrows : ∀ x ∈ X, ∀ j, |x j| ≤ (xbound.getD fun _ ↦ 1) j) (hseeds : noise_seeds ≠ some [])
    (hsafe : ((wc (quantise (2 ^ lw) w) (xqmax_col (2 ^ lx) (xbound.getD fun _ ↦ 1))
      (noiseBound noise_seeds) (sl blocks)).all fun v ↦ v ≤ t / 2) = true) :
    ∃ cell, sweep_cell X w t lx lw noise_seeds blocks xbound = .ok cell ∧
      cell.worst_case_safe = true ∧ cell.overflow_count = 0 := by
  have hdx : (0 : ℚ) < 2 ^ lx := zpow_pos two_pos lx
  have hblocks : sl blocks ≠ [] := by
    unfold sl
    split_ifs <;> simp
  obtain ⟨bound, hbound⟩ := maximum_returns (v := wc (quantise (2 ^ lw) w)
    (xqmax_col (2 ^ lx) (xbound.getD fun _ ↦ 1)) (noiseBound noise_seeds) (sl blocks))
    (by simpa [wc] using hblocks)
  have hwithin := fun data
      (hdata : data ∈ rounds (X.map (quantise (2 ^ lx))) noise_seeds) ↦
    within_of_covered hsafe (covered_of_mem_rounds hdx hrows hdata).2
  have hruns : ∃ runs, (rounds (X.map (quantise (2 ^ lx))) noise_seeds).mapM
      (run t (2 ^ lx) (2 ^ lw) (quantise (2 ^ lw) w) (sl blocks)) = .ok runs := by
    refine mapM_returns fun data hdata ↦ run_returns ?_ ht54 (hwithin data hdata)
    have hlength := (covered_of_mem_rounds hdx hrows hdata).1
    exact List.ne_nil_of_length_pos (hlength ▸ List.length_pos_of_ne_nil hX)
  obtain ⟨runs, hruns⟩ := hruns
  obtain ⟨hlength, hmem⟩ := mapM_ok hruns
  have hne : runs ≠ [] := by
    have hrounds := rounds_ne_nil (X.map (quantise (2 ^ lx))) hseeds
    exact List.ne_nil_of_length_pos (hlength ▸ List.length_pos_of_ne_nil hrounds)
  obtain ⟨smax, hsmax⟩ := maximum_returns (v := runs.map fun r ↦ r.2.1) (by simpa using hne)
  have hovf : (runs.map fun r ↦ r.2.2).sum = 0 := by
    rw [List.sum_eq_zero_iff]
    intro n hn
    obtain ⟨r, hr, rfl⟩ := List.mem_map.mp hn
    obtain ⟨data, hdata, hrun⟩ := hmem r hr
    exact (run_exact (by omega) hodd (hwithin data hdata) hrun).2
  refine ⟨⟨lx, lw, blocks, bound, t / 2, _, ∑ j, |quantise (2 ^ lw) w j|, smax,
    (runs.map fun r ↦ r.2.2).sum, runs.map fun r ↦ r.1⟩, ?_, hsafe, hovf⟩
  unfold sweep_cell
  simp only [hbound, hruns, hsmax, bind, Except.bind, pure, Except.pure]

theorem worst_case_safe_sound_two_blocks : ∃ cell,
    sweep_cell [fun _ ↦ 1] (fun _ ↦ 3 / 64) 33292289 8 6 (some [fun _ _ ↦ 1]) 2 none = .ok cell ∧
      cell.worst_case_safe = true ∧ ∀ row ∈ [fun j ↦ quantise (2 ^ (8 : ℤ)) (fun _ ↦ -1) j + -9],
        ∀ s ∈ sl 2, center (blockSum (quantise (2 ^ (6 : ℤ)) fun _ ↦ 3 / 64) s row) 33292289 =
          blockSum (quantise (2 ^ (6 : ℤ)) fun _ ↦ 3 / 64) s row := by
  have hwq : quantise (2 ^ (6 : ℤ)) (fun _ ↦ 3 / 64) = fun _ ↦ 3 := by
    funext j
    have harg : (3 / 64 : ℚ) * 2 ^ (6 : ℤ) = (3 : ℤ) := by norm_num
    rw [quantise, round_half_even, harg, isRounding_halfEven.intCast]
  have hxq : xqmax_col (2 ^ (8 : ℤ)) (fun _ ↦ 1) = fun _ ↦ 256 := by
    funext j
    have harg : (2 : ℚ) ^ (8 : ℤ) * 1 = (256 : ℤ) := by norm_num
    rw [xqmax_col, harg, Int.ceil_intCast]
  have hodd : Odd (33292289 : ℤ) := by decide
  have hsafe : ((wc (quantise (2 ^ (6 : ℤ)) fun _ ↦ 3 / 64) (xqmax_col (2 ^ (8 : ℤ)) fun _ ↦ 1)
      (noiseBound (some [fun _ _ ↦ 1])) (sl 2)).all fun v ↦ v ≤ 33292289 / 2) = true := by
    rw [hwq, hxq, noiseBound, RUBATO_BOUND_eq]
    decide +kernel
  have hreport : ∃ cell, sweep_cell [fun _ ↦ 1] (fun _ ↦ 3 / 64) 33292289 8 6
      (some [fun _ _ ↦ 1]) 2 none = .ok cell ∧ cell.worst_case_safe = true ∧
        cell.overflow_count = 0 :=
    sweep_cell_of_safe (by decide) (by decide) hodd (by simp) (by simp) (by simp) hsafe
  obtain ⟨cell, hcell, hflag, -⟩ := hreport
  have hsound := worst_case_safe_sound (by decide) hodd hcell hflag [(fun _ ↦ -1, fun _ ↦ -9)]
    (by simp) (by simp [noiseBound, RUBATO_BOUND_eq])
  exact ⟨cell, hcell, hflag, fun row hrow s hs ↦ (hsound.1 row hrow s hs).2⟩

end Ppfdaas.CnpGate
