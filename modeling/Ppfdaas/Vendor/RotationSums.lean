import Ppfdaas.Library.WindowSum
import Ppfdaas.Vendor.EvalContext

/-!
# The reductions by rotation

`rotation_hoisting.cpp`, its degree-2 variant, and the reduction of
`RunCircuitHoisted`, over any monad that can throw.
-/

namespace Ppfdaas

section Reductions

variable {m : Type → Type} [Monad m] [MonadExceptOf String m] {Ct : Type}
  (rotate : Ct → ℤ → m Ct) (add : Ct → Ct → m Ct)

/-- The indices of `for (int j = 1; j < bound; ++j)`. -/
def loopFromOne (bound : ℤ) : List ℤ := (List.range (bound - 1).toNat).map fun (j : ℕ) ↦ (j : ℤ) + 1

def BSGS_ROTATION_STEPS : List ℤ :=
  [1, 2, 3, 4, 5, 6, 7, 8, 9, 10, 11, 12, 13, 14, 15,
    16, 32, 48, 64, 80, 96, 112, 128, 144, 160, 176, 192, 208, 224, 240]

/-- The key check of `bsgs_reduction`. -/
def checkBsgsElts (hasKey : ℕ → Bool) (eltFromStep : ℤ → ℕ) : List ℤ → m Unit
  | [] => pure ()
  | step :: steps =>
      if hasKey (eltFromStep step) then checkBsgsElts hasKey eltFromStep steps
      else throw ("bsgs_reduction: Galois keys are missing the key for BSGS rotation step " ++
        toString step ++ " (Galois element " ++ toString (eltFromStep step) ++
        "). bsgs_reduction requires the BSGS_ROTATION_STEPS key set (30 steps); the deployed " ++
        "server provisions only the sequential fold's 8-step ROTATION_STEPS set. " ++
        "Reprovisioning with BSGS_ROTATION_STEPS is required -- see docs/spec.md §4.")

/-- A layer of independent rotations: all of one source, then all added to it. -/
def rotationLayer (source : Ct) (steps : List ℤ) : m Ct := do
  let rotated ← steps.mapM (rotate source)
  rotated.foldlM add source

/-- `bsgs_reduction`; the result is moved into `ct_out`. -/
def bsgsReduction (hasKey : ℕ → Bool) (eltFromStep : ℤ → ℕ) (ctIn : Ct)
    (nFeatures babyStep giantStep : ℤ) : m Ct :=
  if nFeatures ≠ 256 then throw "bsgs_reduction: n_features must be 256"
  else if babyStep * giantStep ≠ nFeatures then
    throw "bsgs_reduction: baby_step * giant_step must equal n_features"
  else do
    checkBsgsElts hasKey eltFromStep BSGS_ROTATION_STEPS
    let babyAcc ← rotationLayer rotate add ctIn (loopFromOne babyStep)
    rotationLayer rotate add babyAcc ((loopFromOne giantStep).map fun i ↦ i * babyStep)

/-- `naive_tree_sum`: each rotation acts on the original. -/
def naiveTreeSum (ct : Ct) (nFeatures : ℤ) : m Ct :=
  if nFeatures ≠ 256 then throw "naive_tree_sum: n_features must be 256"
  else (loopFromOne nFeatures).foldlM (fun acc step ↦ do
    let rotated ← rotate ct step
    add acc rotated) ct

def STEPS_D2 : List ℤ := [1, 2, 4, 8, 16, 32, 64, 128, 256]

def hoistedTreeSumDegree2 (ct : Ct) (nFeatures : ℤ) : m Ct :=
  if nFeatures ≠ 512 then throw "hoisted_tree_sum_degree2: n_features must be 512"
  else STEPS_D2.foldlM (fun acc step ↦ do
    let tmp ← rotate acc step
    add acc tmp) ct

def kBabySteps : List ℤ := [1, 2, 3, 4, 5, 6, 7, 8, 9, 10, 11, 12, 13, 14, 15]

def kGiantSteps : List ℤ := [16, 32, 48, 64, 80, 96, 112, 128, 144, 160, 176, 192, 208, 224, 240]

/-- Both layers of `RunCircuitHoisted`, after the product. -/
def runCircuitHoisted (ctMul : Ct) : m Ct := do
  let babyAcc ← rotationLayer rotate add ctMul kBabySteps
  rotationLayer rotate add babyAcc kGiantSteps

end Reductions

theorem checkBsgsElts_ok {m : Type → Type} [Monad m] [MonadExceptOf String m]
    {hasKey : ℕ → Bool} {eltFromStep : ℤ → ℕ} {steps : List ℤ}
    (h : ∀ step ∈ steps, hasKey (eltFromStep step) = true) :
    (checkBsgsElts hasKey eltFromStep steps : m Unit) = pure () := by
  induction steps with
  | nil => rfl
  | cons step steps ih =>
      rw [checkBsgsElts, if_pos (h step List.mem_cons_self)]
      exact ih fun s hs ↦ h s (List.mem_cons_of_mem step hs)

/-! ## On slot vectors -/

section Slots

variable {R : Type} [CommRing R] {n : ℕ}

/-- `rotate_vector` on slots: cyclically to the left. -/
def slotRotate (v : ZMod n → R) (step : ℤ) : Except String (ZMod n → R) :=
  .ok (WindowSum.rotate (step : ZMod n) v)

def slotAdd (v w : ZMod n → R) : Except String (ZMod n → R) := .ok (v + w)

def windows (width : ℕ) (v : ZMod n → R) : ZMod n → R :=
  fun i ↦ ∑ j ∈ Finset.range width, v (i + j)

theorem rotationLayer_slots (v : ZMod n → R) (steps : List ℤ) :
    rotationLayer slotRotate slotAdd v steps =
      .ok (WindowSum.spread (steps.map fun (step : ℤ) ↦ (step : ZMod n)) v) := by
  have hrotated : steps.mapM (slotRotate v) =
      .ok (steps.map fun (step : ℤ) ↦ WindowSum.rotate (step : ZMod n) v) :=
    List.mapM_pure
  have hsum : ∀ rotated : List (ZMod n → R),
      rotated.foldlM slotAdd v = .ok (rotated.foldl (· + ·) v) := fun _ ↦ List.foldlM_pure
  rw [rotationLayer, hrotated]
  refine (hsum _).trans (congrArg Except.ok ?_)
  rw [WindowSum.spread, List.foldl_map, List.foldl_map]

theorem spread_loopFromOne {bound : ℤ} (hbound : 0 < bound) (d : ℤ) (v : ZMod n → R) :
    WindowSum.spread (((loopFromOne bound).map fun i ↦ i * d).map
        fun (step : ℤ) ↦ (step : ZMod n)) v =
      fun i ↦ ∑ j ∈ Finset.range bound.toNat, v (i + j • (d : ZMod n)) := by
  have hsteps : ((loopFromOne bound).map fun i ↦ i * d).map (fun (step : ℤ) ↦ (step : ZMod n)) =
      (List.range (bound - 1).toNat).map fun j ↦ (j + 1) • (d : ZMod n) := by
    rw [loopFromOne, List.map_map, List.map_map]
    refine List.map_congr_left fun j _ ↦ ?_
    simp [nsmul_eq_mul]
  have hcount : (bound - 1).toNat + 1 = bound.toNat := by omega
  rw [hsteps, WindowSum.spread_multiples, hcount]

theorem windows_of_windows {baby giant : ℤ} (hbaby : 0 < baby) (hproduct : baby * giant = 256)
    (v : ZMod n → R) (i : ZMod n) :
    ∑ j ∈ Finset.range giant.toNat, windows baby.toNat v (i + j • (baby : ZMod n)) =
      windows 256 v i := by
  have hgiant : 0 < giant := by
    apply pos_of_mul_pos_right _ hbaby.le
    rw [hproduct]
    decide
  have hcast : (baby : ZMod n) = baby.toNat • (1 : ZMod n) := by
    rw [nsmul_one, ← Int.cast_natCast, Int.toNat_of_nonneg hbaby.le]
  have hcount : baby.toNat * giant.toNat = 256 := by
    zify
    rw [Int.toNat_of_nonneg hbaby.le, Int.toNat_of_nonneg hgiant.le, hproduct]
  have hsum := WindowSum.sum_windows (1 : ZMod n) baby.toNat giant.toNat v i
  simpa only [windows, hcast, hcount, nsmul_one] using hsum

theorem spread_bsgs {baby giant : ℤ} (hbaby : 0 < baby) (hgiant : 0 < giant)
    (hproduct : baby * giant = 256) (v : ZMod n → R) :
    WindowSum.spread (((loopFromOne giant).map fun i ↦ i * baby).map
        fun (step : ℤ) ↦ (step : ZMod n))
      (WindowSum.spread ((loopFromOne baby).map fun (step : ℤ) ↦ (step : ZMod n)) v) =
      windows 256 v := by
  have hone : (loopFromOne baby).map (fun i ↦ i * (1 : ℤ)) = loopFromOne baby := by simp
  have hlayer := spread_loopFromOne hbaby 1 v
  rw [hone] at hlayer
  rw [hlayer, spread_loopFromOne hgiant]
  funext i
  simpa only [Int.cast_one, nsmul_one, windows] using windows_of_windows hbaby hproduct v i

theorem bsgsReduction_slots {hasKey : ℕ → Bool} {eltFromStep : ℤ → ℕ}
    (hkeys : ∀ step ∈ BSGS_ROTATION_STEPS, hasKey (eltFromStep step) = true) {baby giant : ℤ}
    (hbaby : 0 < baby) (hgiant : 0 < giant) (hproduct : baby * giant = 256) (v : ZMod n → R) :
    bsgsReduction slotRotate slotAdd hasKey eltFromStep v 256 baby giant =
      .ok (windows 256 v) := by
  rw [bsgsReduction, if_neg (not_not.mpr rfl), if_neg (not_not.mpr hproduct),
    checkBsgsElts_ok hkeys, rotationLayer_slots, ← spread_bsgs hbaby hgiant hproduct]
  exact rotationLayer_slots _ _

theorem doubling_slots (k : ℕ) {steps : List ℤ} (hsteps : steps = (List.range k).map fun j ↦ 2 ^ j)
    (v : ZMod n → R) :
    steps.foldlM (fun acc step ↦ do
      let tmp ← slotRotate acc step
      slotAdd acc tmp) v = .ok (windows (2 ^ k) v) := by
  have hfold : ∀ (steps : List ℤ) (acc : ZMod n → R), steps.foldlM (fun acc step ↦ do
      let tmp ← slotRotate acc step
      slotAdd acc tmp) acc =
        .ok (WindowSum.fold (steps.map fun (step : ℤ) ↦ (step : ZMod n)) acc) := by
    intro steps
    induction steps with
    | nil => exact fun _ ↦ rfl
    | cons step steps ih => exact fun acc ↦ ih _
  have hcast : steps.map (fun (step : ℤ) ↦ (step : ZMod n)) =
      (List.range k).map fun j ↦ 2 ^ j • (1 : ZMod n) := by
    rw [hsteps, List.map_map]
    exact List.map_congr_left fun j _ ↦ by simp
  rw [hfold, hcast, WindowSum.fold_doubling]
  simp only [nsmul_one]
  rfl

theorem naiveTreeSum_slots (v : ZMod n → R) :
    naiveTreeSum slotRotate slotAdd v 256 = .ok (windows 256 v) := by
  have hfold : ∀ (steps : List ℤ) (acc : ZMod n → R), steps.foldlM (fun acc step ↦ do
      let rotated ← slotRotate v step
      slotAdd acc rotated) acc =
        .ok (steps.foldl (fun acc (step : ℤ) ↦ acc + WindowSum.rotate (step : ZMod n) v) acc) :=
    fun _ _ ↦ List.foldlM_pure
  have hone : (loopFromOne 256).map (fun i ↦ i * (1 : ℤ)) = loopFromOne 256 := by simp
  have hlayer := spread_loopFromOne (n := n) (show (0 : ℤ) < 256 by decide) 1 v
  rw [hone, WindowSum.spread, List.foldl_map] at hlayer
  rw [naiveTreeSum, if_neg (not_not.mpr rfl), hfold, hlayer]
  simp only [Int.cast_one, nsmul_one]
  rfl

/-- All the reductions sum the same windows, at every slot. -/
theorem reductions_agree (v : ZMod n → R) (eltFromStep : ℤ → ℕ) (hasKey : ℕ → Bool)
    (hkeys : ∀ step ∈ BSGS_ROTATION_STEPS, hasKey (eltFromStep step) = true) :
    hoistedTreeSum slotRotate slotAdd v 256 = .ok (windows 256 v) ∧
    (∀ baby giant : ℤ, 0 < baby → 0 < giant → baby * giant = 256 →
      bsgsReduction slotRotate slotAdd hasKey eltFromStep v 256 baby giant =
        .ok (windows 256 v)) ∧
    naiveTreeSum slotRotate slotAdd v 256 = .ok (windows 256 v) ∧
    hoistedTreeSumDegree2 slotRotate slotAdd v 512 = .ok (windows 512 v) ∧
    runCircuitHoisted slotRotate slotAdd v =
      bsgsReduction slotRotate slotAdd hasKey eltFromStep v 256 16 16 := by
  refine ⟨?_, ?_, naiveTreeSum_slots v, ?_, ?_⟩
  · exact doubling_slots 8 (by decide) v
  · intro baby giant hbaby hgiant hproduct
    exact bsgsReduction_slots hkeys hbaby hgiant hproduct v
  · exact doubling_slots 9 (by decide) v
  · have hbaby : loopFromOne 16 = kBabySteps := by decide
    have hgiant : kBabySteps.map (fun i ↦ i * 16) = kGiantSteps := by decide
    rw [bsgsReduction, if_neg (by decide), if_neg (by decide), checkBsgsElts_ok hkeys, hbaby,
      hgiant, pure_bind, runCircuitHoisted]

/-- The ramp over 512 slots, in eight baby and 32 giant steps. -/
theorem reductions_agree_ramp :
    let ramp : ZMod 512 → ℤ := fun i ↦ i.val
    bsgsReduction slotRotate slotAdd (fun _ ↦ true) Int.toNat ramp 256 8 32 =
      .ok (windows 256 ramp) ∧ windows 256 ramp 0 = 32640 := by
  intro ramp
  have hagree := reductions_agree ramp Int.toNat (fun _ ↦ true) fun _ _ ↦ rfl
  constructor
  · exact hagree.2.1 8 32 (by decide) (by decide) (by decide)
  · have hval : ∀ j ∈ Finset.range 256, ramp (0 + (j : ZMod 512)) = (j : ℤ) := by
      intro j hj
      have hlt : j < 512 := (Finset.mem_range.mp hj).trans (by decide)
      simp only [ramp, zero_add, ZMod.val_natCast_of_lt hlt]
    calc windows 256 ramp 0 = ∑ j ∈ Finset.range 256, (j : ℤ) := Finset.sum_congr rfl hval
      _ = ((∑ j ∈ Finset.range 256, j : ℕ) : ℤ) := (Nat.cast_sum _ _).symm
      _ = 32640 := by rw [Finset.sum_range_id]; rfl

end Slots

end Ppfdaas
