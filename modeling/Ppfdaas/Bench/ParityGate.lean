import Ppfdaas.Bench.Packing

/-!
# The in-band parity gates

The running maximum of the errors of the lanes in `ckks_bench` and in
`run_circuit_hoisted`, on rational numbers and a NaN for which every `<` is
false.
-/

namespace Ppfdaas.ParityGate

inductive Double
  | nan
  | num (q : ℚ)
  deriving DecidableEq

namespace Double

instance : Zero Double := ⟨num 0⟩

/-- An operation whose result is NaN where an operand is. -/
def lift (op : ℚ → ℚ → ℚ) : Double → Double → Double
  | num p, num q => num (op p q)
  | _, _ => nan

instance : Add Double := ⟨lift (· + ·)⟩

instance : Sub Double := ⟨lift (· - ·)⟩

instance : Mul Double := ⟨lift (· * ·)⟩

def lt : Double → Double → Bool
  | num p, num q => decide (p < q)
  | _, _ => false

def fabs : Double → Double
  | num q => num |q|
  | nan => nan

/-- `std::max`: the first argument unless it is less than the second. -/
def stdMax (a b : Double) : Double := if lt a b then b else a

end Double

open Double PackingLayout

/-! ## The two gates -/

/-- `e = std::max(e, …)` from zero on. -/
def runningMax (errors : List Double) : Double := errors.foldl stdMax 0

/-- `max_abs_error` of `ckks_bench.cpp`, `expected` being that of the workload. -/
def maxAbsError (L : PackingLayout) (expected decoded : List Double) : Double :=
  let got := L.readScores decoded
  runningMax ((List.range got.length).map fun k ↦ fabs (got.getD k 0 - expected.getD k 0))

/-- What `parity_gate` records of a strategy, for any tolerance. -/
structure Parity where
  maxAbsError : Double
  passed : Bool

def parityGate (L : PackingLayout) (tolerance : ℚ) (expected decoded : List Double) : Parity :=
  let e := maxAbsError L expected decoded
  ⟨e, lt e (num tolerance)⟩

def allPassed (ps : List Parity) : Bool := ps.all Parity.passed

def kTolerance : ℚ := 1 / 1000

def kLanes : ℕ := 16

def kFeatures : ℕ := 256

/-- `expected` of lane `k` in `run_circuit_hoisted`. -/
def hoistedExpected (weights features : List Double) (k : ℕ) : Double :=
  (List.range kFeatures).foldl (fun expected j ↦
    expected + weights.getD (k * kFeatures + j) 0 * features.getD (k * kFeatures + j) 0) 0

/-- `timing.max_abs_error`. -/
def hoistedMaxAbsError (weights features decoded : List Double) : Double :=
  runningMax ((List.range kLanes).map fun k ↦
    fabs (decoded.getD (k * kFeatures) 0 - hoistedExpected weights features k))

/-! ## The running maximum -/

/-- A score that is a number within the tolerance of the expected one. -/
def Within (tol : ℚ) (got expected : Double) : Prop :=
  ∃ g e, got = num g ∧ expected = num e ∧ |g - e| < tol

/-- A score that is a number and misses the expected one. -/
def Off (tol : ℚ) (got expected : Double) : Prop :=
  ∃ g e, got = num g ∧ expected = num e ∧ tol ≤ |g - e|

def Undefined (got expected : Double) : Prop := got = nan ∨ expected = nan

theorem stdMax_nan (p : ℚ) : stdMax (num p) nan = num p := rfl

theorem stdMax_num (p q : ℚ) : stdMax (num p) (num q) = num (max p q) := by
  rcases lt_or_ge p q with h | h
  · rw [max_eq_right h.le, stdMax, lt, decide_eq_true h, if_pos rfl]
  · rw [max_eq_left h, stdMax, lt, decide_eq_false h.not_gt, if_neg Bool.false_ne_true]

/-- The maximum is a number again; an undefined error is dropped from it. -/
theorem foldl_stdMax_lt (errors : List Double) (p tol : ℚ) :
    lt (errors.foldl stdMax (num p)) (num tol) = true ↔
      p < tol ∧ ∀ q, num q ∈ errors → q < tol := by
  induction errors generalizing p with
  | nil => simp [lt]
  | cons error errors ih =>
      rw [List.foldl_cons]
      cases error with
      | nan => simp [stdMax_nan, ih]
      | num q =>
          rw [stdMax_num, ih, max_lt_iff]
          simp only [List.mem_cons, num.injEq, and_assoc, forall_eq_or_imp]

theorem runningMax_lt {tol : ℚ} (htol : 0 < tol) (errors : List Double) :
    lt (runningMax errors) (num tol) = true ↔ ∀ q, num q ∈ errors → q < tol :=
  (foldl_stdMax_lt errors 0 tol).trans (and_iff_right htol)

theorem fabs_sub_eq_num {got expected : Double} {q : ℚ} :
    fabs (got - expected) = num q ↔ ∃ g e, got = num g ∧ expected = num e ∧ |g - e| = q := by
  constructor
  · intro h
    cases got with
    | nan => exact absurd h nofun
    | num g =>
        cases expected with
        | nan => exact absurd h nofun
        | num e => exact ⟨g, e, rfl, rfl, num.inj h⟩
  · rintro ⟨g, e, rfl, rfl, rfl⟩
    rfl

/-- What the gate tests: no lane that has a number misses. -/
theorem lanes_lt_iff {tol : ℚ} (htol : 0 < tol) (n : ℕ) (got expected : ℕ → Double) :
    lt (runningMax ((List.range n).map fun k ↦ fabs (got k - expected k))) (num tol) = true ↔
      ∀ k < n, ¬ Off tol (got k) (expected k) := by
  rw [runningMax_lt htol]
  constructor
  · rintro h k hk ⟨g, e, hg, he, hle⟩
    have hmem : num |g - e| ∈ (List.range n).map fun k ↦ fabs (got k - expected k) :=
      List.mem_map.mpr ⟨k, List.mem_range.mpr hk, fabs_sub_eq_num.mpr ⟨g, e, hg, he, rfl⟩⟩
    exact absurd (h _ hmem) hle.not_gt
  · intro h q hq
    obtain ⟨k, hk, herror⟩ := List.mem_map.mp hq
    obtain ⟨g, e, hg, he, rfl⟩ := fabs_sub_eq_num.mp herror
    by_contra hge
    exact h k (List.mem_range.mp hk) ⟨g, e, hg, he, not_lt.mp hge⟩

theorem within_iff (tol : ℚ) (got expected : Double) :
    Within tol got expected ↔ ¬ Undefined got expected ∧ ¬ Off tol got expected := by
  constructor
  · rintro ⟨g, e, rfl, rfl, hlt⟩
    refine ⟨by rintro (h | h) <;> exact absurd h nofun, ?_⟩
    rintro ⟨g', e', hg, he, hle⟩
    rw [← num.inj hg, ← num.inj he] at hle
    exact hlt.not_ge hle
  · rintro ⟨hdefined, hoff⟩
    cases got with
    | nan => exact absurd (.inl rfl) hdefined
    | num g =>
        cases expected with
        | nan => exact absurd (.inr rfl) hdefined
        | num e =>
            refine ⟨g, e, rfl, rfl, ?_⟩
            by_contra hge
            exact hoff ⟨g, e, rfl, rfl, not_lt.mp hge⟩

/-- The gate says what it should unless an undefined score is all that is wrong. -/
theorem lanes_sound_iff {tol : ℚ} (htol : 0 < tol) (n : ℕ) (got expected : ℕ → Double) :
    (lt (runningMax ((List.range n).map fun k ↦ fabs (got k - expected k))) (num tol) = true ↔
        ∀ k < n, Within tol (got k) (expected k)) ↔
      (∀ k < n, ¬ Undefined (got k) (expected k)) ∨ ∃ k < n, Off tol (got k) (expected k) := by
  rw [lanes_lt_iff htol]
  constructor
  · intro h
    by_contra! hnot
    obtain ⟨⟨k, hk, hundefined⟩, hoff⟩ := hnot
    exact ((within_iff _ _ _).mp (h.mp hoff k hk)).1 hundefined
  · rintro (hdefined | ⟨k, hk, hoff⟩)
    · exact ⟨fun h k hk ↦ (within_iff _ _ _).mpr ⟨hdefined k hk, h k hk⟩,
        fun h k hk ↦ ((within_iff _ _ _).mp (h k hk)).2⟩
    · exact ⟨fun h ↦ absurd hoff (h k hk),
        fun h ↦ absurd hoff ((within_iff _ _ _).mp (h k hk)).2⟩

/-! ## The lanes -/

/-- The score of lane `k` in the deployed layout. -/
def laneGot (decoded : List Double) (k : ℕ) : Double := decoded.getD (k * 256) 0

theorem maxAbsError_deployed (expected decoded : List Double) :
    maxAbsError deployed expected decoded =
      runningMax ((List.range 16).map fun k ↦
        fabs (laneGot decoded k - expected.getD k 0)) := by
  have htxns : deployed.txnsPerCt = 16 := rfl
  have hlength : (deployed.readScores decoded).length = 16 := by
    rw [readScores, List.length_map, List.length_range, htxns]
  rw [maxAbsError, hlength]
  refine congrArg runningMax (List.map_congr_left fun k hk ↦ ?_)
  have hgot : (deployed.readScores decoded).getD k 0 = laneGot decoded k := by
    rw [readScores, List.getD_eq_getElem?_getD, List.getElem?_map, htxns,
      List.getElem?_range (List.mem_range.mp hk)]
    rfl
  rw [hgot]

/-- A gate says of 16 lanes whether each is a number within the tolerance. -/
def Sound (tol : ℚ) (passed : Bool) (got expected : ℕ → Double) : Prop :=
  passed = true ↔ ∀ k < 16, Within tol (got k) (expected k)

/-- No lane is undefined, or one that is defined misses anyway. -/
def Decides (tol : ℚ) (got expected : ℕ → Double) : Prop :=
  (∀ k < 16, ¬ Undefined (got k) (expected k)) ∨ ∃ k < 16, Off tol (got k) (expected k)

/-- The gates are right on these inputs and no others. -/
theorem parity_gates_sound_iff {tol : ℚ} (htol : 0 < tol)
    (expected weights features decoded : List Double) :
    (Sound tol (parityGate deployed tol expected decoded).passed (laneGot decoded)
        (fun k ↦ expected.getD k 0) ↔
      Decides tol (laneGot decoded) fun k ↦ expected.getD k 0) ∧
    (Sound tol (lt (hoistedMaxAbsError weights features decoded) (num tol)) (laneGot decoded)
        (hoistedExpected weights features) ↔
      Decides tol (laneGot decoded) (hoistedExpected weights features)) := by
  refine ⟨?_, lanes_sound_iff htol 16 (laneGot decoded) (hoistedExpected weights features)⟩
  rw [Sound, parityGate, maxAbsError_deployed]
  exact lanes_sound_iff htol 16 (laneGot decoded) fun k ↦ expected.getD k 0

/-- The scores of a decryption whose first lane came out undefined. -/
def nanScores : List Double := nan :: List.replicate 4095 0

theorem kTolerance_pos : 0 < kTolerance := by norm_num [kTolerance]

def ramp (n : ℕ) : List Double := (List.range n).map fun (i : ℕ) ↦ num (i + 1)

theorem getD_ramp (n i : ℕ) : ∃ q, (ramp n).getD i 0 = num q := by
  rw [List.getD_eq_getElem?_getD, ramp, List.getElem?_map]
  cases (List.range n)[i]? with
  | none => exact ⟨0, rfl⟩
  | some i => exact ⟨i + 1, rfl⟩

theorem hoistedExpected_ramp (m n k : ℕ) : ∃ q, hoistedExpected (ramp m) (ramp n) k = num q := by
  refine List.foldlRecOn (motive := fun d ↦ ∃ q, d = num q) _ _ ⟨0, rfl⟩ ?_
  rintro _ ⟨p, rfl⟩ j -
  obtain ⟨w, hw⟩ := getD_ramp m (k * kFeatures + j)
  obtain ⟨x, hx⟩ := getD_ramp n (k * kFeatures + j)
  rw [hw, hx]
  exact ⟨p + w * x, rfl⟩

theorem parity_gates_sound_iff_ramp :
    Sound kTolerance (parityGate deployed kTolerance (ramp 16) (ramp 4096)).passed
        (laneGot (ramp 4096)) (fun k ↦ (ramp 16).getD k 0) ∧
      Sound kTolerance
        (lt (hoistedMaxAbsError (ramp 4096) (ramp 4096) (ramp 4096)) (num kTolerance))
        (laneGot (ramp 4096)) (hoistedExpected (ramp 4096) (ramp 4096)) := by
  obtain ⟨hckks, hhoisted⟩ :=
    parity_gates_sound_iff kTolerance_pos (ramp 16) (ramp 4096) (ramp 4096) (ramp 4096)
  have hdefined : ∀ k, ∀ e, (∃ q, e = num q) → ¬ Undefined (laneGot (ramp 4096) k) e := by
    rintro k _ ⟨e, rfl⟩ (hgot | hexpected)
    · obtain ⟨g, hg⟩ := getD_ramp 4096 (k * 256)
      rw [laneGot, hg] at hgot
      exact absurd hgot nofun
    · exact absurd hexpected nofun
  exact ⟨hckks.mpr (.inl fun k _ ↦ hdefined k _ (getD_ramp 16 k)),
    hhoisted.mpr (.inl fun k _ ↦ hdefined k _ (hoistedExpected_ramp 4096 4096 k))⟩

theorem getD_replicate_zero (n i : ℕ) : (List.replicate n (0 : Double)).getD i 0 = 0 := by
  rw [List.getD_eq_getElem?_getD, List.getElem?_replicate]
  split_ifs <;> rfl

theorem laneGot_nanScores_succ (k : ℕ) : laneGot nanScores (k + 1) = 0 := by
  rw [laneGot, nanScores, show (k + 1) * 256 = (k * 256 + 255) + 1 by ring, List.getD_cons_succ,
    getD_replicate_zero]

theorem hoistedExpected_zero (m n k : ℕ) :
    hoistedExpected (List.replicate m 0) (List.replicate n 0) k = 0 := by
  have hstep : (0 : Double) + 0 * 0 = 0 := congrArg num (by norm_num)
  simp only [hoistedExpected, getD_replicate_zero]
  generalize List.range kFeatures = indices
  induction indices with
  | nil => rfl
  | cons j indices ih => rw [List.foldl_cons, hstep, ih]

/-- An undefined first score and zeros elsewhere are let through. -/
theorem nanScores_not_off {expected : ℕ → Double} (hexpected : ∀ k, expected k = 0) (k : ℕ) :
    ¬ Off kTolerance (laneGot nanScores k) (expected k) := by
  rintro ⟨g, e, hg, he, hle⟩
  rw [hexpected] at he
  cases k with
  | zero => exact absurd hg nofun
  | succ k =>
      rw [laneGot_nanScores_succ] at hg
      rw [← num.inj hg, ← num.inj he, sub_zero, abs_zero] at hle
      exact hle.not_gt kTolerance_pos

theorem nanScores_not_sound {passed : Bool} (hpassed : passed = true) (expected : ℕ → Double) :
    ¬ Sound kTolerance passed (laneGot nanScores) expected := by
  intro h
  obtain ⟨g, e, hg, -⟩ := h.mp hpassed 0 (by norm_num)
  exact absurd hg nofun

theorem parity_gates_pass_nan :
    (allPassed [parityGate deployed kTolerance (List.replicate 16 0) nanScores] = true ∧
      ¬ Sound kTolerance (parityGate deployed kTolerance (List.replicate 16 0) nanScores).passed
        (laneGot nanScores) fun k ↦ (List.replicate 16 0).getD k 0) ∧
    (lt (hoistedMaxAbsError (List.replicate 4096 0) (List.replicate 4096 0) nanScores)
        (num kTolerance) = true ∧
      ¬ Sound kTolerance
        (lt (hoistedMaxAbsError (List.replicate 4096 0) (List.replicate 4096 0) nanScores)
          (num kTolerance))
        (laneGot nanScores)
        (hoistedExpected (List.replicate 4096 0) (List.replicate 4096 0))) := by
  have hckks : (parityGate deployed kTolerance (List.replicate 16 0) nanScores).passed = true := by
    rw [parityGate, maxAbsError_deployed]
    exact (lanes_lt_iff kTolerance_pos 16 _ _).mpr fun k _ ↦
      nanScores_not_off (getD_replicate_zero 16) k
  have hhoisted : lt (hoistedMaxAbsError (List.replicate 4096 0) (List.replicate 4096 0) nanScores)
      (num kTolerance) = true :=
    (lanes_lt_iff kTolerance_pos 16 (laneGot nanScores) _).mpr fun k _ ↦
      nanScores_not_off (hoistedExpected_zero 4096 4096) k
  have hall : allPassed [parityGate deployed kTolerance (List.replicate 16 0) nanScores] = true :=
    List.all_eq_true.mpr (List.forall_mem_singleton.mpr hckks)
  exact ⟨⟨hall, nanScores_not_sound hckks _⟩, hhoisted, nanScores_not_sound hhoisted _⟩

end Ppfdaas.ParityGate
