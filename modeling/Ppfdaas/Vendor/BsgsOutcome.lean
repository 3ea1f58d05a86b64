import Ppfdaas.Vendor.RotationSums

/-!
# How `bsgs_reduction` can end

The reduction with its effects: which rotations were issued, and what the output
ciphertext holds.  A rotation whose key is missing is made up of those of the
step's non-adjacent form, and throws when one of their keys is missing too.
-/

namespace Ppfdaas

/-- The signed powers of two of the non-adjacent form, from `weight` on. -/
def nafLoop : (fuel : ℕ) → (weight value : ℤ) → List ℤ
  | 0, _, _ => []
  | fuel + 1, weight, value =>
      if value = 0 then [] else
        let digit := if value % 2 = 1 then 2 - value % 4 else 0
        let rest := nafLoop fuel (2 * weight) ((value - digit) / 2)
        if digit = 0 then rest else digit * weight :: rest

def naf (step : ℤ) : List ℤ := nafLoop (step.natAbs + 1) step.sign step.natAbs

section Outcome

variable {Ct Pt Gk : Type} (S : Seal Ct Pt Gk)

/-- The keys at hand are enough for a rotation by `step`. -/
def Seal.Rotatable (gk : Gk) (step : ℤ) : Prop :=
  S.hasKey gk (S.galoisEltFromStep step) = true ∨
    ∀ p ∈ naf step, S.hasKey gk (S.galoisEltFromStep p) = true

instance (gk : Gk) (step : ℤ) : Decidable (S.Rotatable gk step) :=
  inferInstanceAs (Decidable (_ ∨ _))

/-- What is assumed of SEAL: its operations on the slots of valid ciphertexts of
two polynomials, which is what `bsgs_reduction` is handed after the rescale, and
when a rotation throws.  A rotation refuses any other size. -/
structure Seal.SlotOps {R : Type} [CommRing R] {n : ℕ} (slots : Ct → ZMod n → R) : Prop where
  rotate_ok : ∀ ct step gk, S.Rotatable gk step → ∃ ct', S.rotateVector ct step gk = .ok ct' ∧
    slots ct' = WindowSum.rotate (step : ZMod n) (slots ct)
  rotate_error : ∀ ct step gk, ¬ S.Rotatable gk step → ∃ e, S.rotateVector ct step gk = .error e
  add_ok : ∀ a b, ∃ ct', S.add a b = .ok ct' ∧ slots ct' = slots a + slots b

/-- The rotations issued so far, and the output ciphertext. -/
structure BsgsRun (Ct : Type) where
  issued : List ℤ
  ctOut : Ct

abbrev BsgsM (Ct : Type) := ExceptT String (StateM (BsgsRun Ct))

def issue (gk : Gk) (ct : Ct) (step : ℤ) : BsgsM Ct Ct := fun run ↦
  (S.rotateVector ct step gk, { run with issued := run.issued ++ [step] })

def addInplace (a b : Ct) : BsgsM Ct Ct := fun run ↦ (S.add a b, run)

/-- `bsgs_reduction` with `ct_out` as it is after the call. -/
def bsgsInto (gk : Gk) (ctIn : Ct) (nFeatures babyStep giantStep : ℤ) : BsgsM Ct Unit := do
  let acc ← bsgsReduction (issue S gk) (addInplace S) (S.hasKey gk) S.galoisEltFromStep ctIn
    nFeatures babyStep giantStep
  modify fun run ↦ { run with ctOut := acc }

def usedSteps (babyStep giantStep : ℤ) : List ℤ :=
  loopFromOne babyStep ++ (loopFromOne giantStep).map fun i ↦ i * babyStep

/-- The call threw before the first rotation and left `ct_out` alone, or it
completed with the window sums. -/
def AllOrNothing {R : Type} [CommRing R] {n : ℕ} (slots : Ct → ZMod n → R) (ctIn : Ct)
    (before : BsgsRun Ct) (outcome : Except String Unit × BsgsRun Ct) : Prop :=
  (∃ e, outcome = (.error e, before)) ∨
    outcome.1 = .ok () ∧ slots outcome.2.ctOut = windows 256 (slots ctIn)

/-! ## One layer -/

section Steps

variable {α β : Type} {x : BsgsM Ct α} {f : α → BsgsM Ct β} {run run' : BsgsRun Ct}

theorem BsgsM.bind_ok {a : α} (h : x run = (.ok a, run')) : (x >>= f) run = f a run' := by
  change (ExceptT.bindCont f (x run).1) (x run).2 = _
  rw [h]
  rfl

theorem BsgsM.bind_error {e : String} (h : x run = (.error e, run')) :
    (x >>= f) run = (.error e, run') := by
  change (ExceptT.bindCont f (x run).1) (x run).2 = _
  rw [h]
  rfl

end Steps

section Layers

variable {S} {R : Type} [CommRing R] {n : ℕ} {slots : Ct → ZMod n → R} {gk : Gk}

theorem mapM_issue_ok (ops : S.SlotOps slots) (ct : Ct) {steps : List ℤ}
    (h : ∀ step ∈ steps, S.Rotatable gk step) (run : BsgsRun Ct) :
    ∃ rotated, steps.mapM (issue S gk ct) run =
        (.ok rotated, { run with issued := run.issued ++ steps }) ∧
      rotated.map slots =
        steps.map fun (step : ℤ) ↦ WindowSum.rotate (step : ZMod n) (slots ct) := by
  induction steps generalizing run with
  | nil => exact ⟨[], by rw [List.append_nil]; rfl, rfl⟩
  | cons step steps ih =>
      obtain ⟨ct', hrotate, hslots⟩ := ops.rotate_ok ct step gk (h step List.mem_cons_self)
      obtain ⟨rotated, hrest, hrested⟩ := ih (fun s hs ↦ h s (List.mem_cons_of_mem step hs))
        { run with issued := run.issued ++ [step] }
      have hfirst : issue S gk ct step run =
          (.ok ct', { run with issued := run.issued ++ [step] }) := by rw [issue, hrotate]
      refine ⟨ct' :: rotated, ?_, ?_⟩
      · rw [List.mapM_cons, BsgsM.bind_ok hfirst, BsgsM.bind_ok hrest, List.append_assoc]
        rfl
      · rw [List.map_cons, List.map_cons, hslots, hrested]

theorem mapM_issue_error (ops : S.SlotOps slots) (ct : Ct) {steps : List ℤ}
    (h : ∃ step ∈ steps, ¬ S.Rotatable gk step) (run : BsgsRun Ct) :
    ∃ e step more, steps.mapM (issue S gk ct) run =
      (.error e, { run with issued := run.issued ++ step :: more }) := by
  induction steps generalizing run with
  | nil =>
      obtain ⟨step, hstep, -⟩ := h
      exact absurd hstep List.not_mem_nil
  | cons step steps ih =>
      rw [List.mapM_cons]
      by_cases hfirst : S.Rotatable gk step
      · obtain ⟨ct', hrotate, -⟩ := ops.rotate_ok ct step gk hfirst
        have hissue : issue S gk ct step run =
            (.ok ct', { run with issued := run.issued ++ [step] }) := by rw [issue, hrotate]
        have hlater : ∃ s ∈ steps, ¬ S.Rotatable gk s := by
          obtain ⟨s, hs, hmissing⟩ := h
          rcases List.mem_cons.mp hs with rfl | hs
          · exact absurd hfirst hmissing
          · exact ⟨s, hs, hmissing⟩
        obtain ⟨e, step', more, hrest⟩ := ih hlater { run with issued := run.issued ++ [step] }
        refine ⟨e, step, step' :: more, ?_⟩
        rw [BsgsM.bind_ok hissue, BsgsM.bind_error hrest, List.append_assoc]
        rfl
      · obtain ⟨e, hrotate⟩ := ops.rotate_error ct step gk hfirst
        have hissue : issue S gk ct step run =
            (.error e, { run with issued := run.issued ++ [step] }) := by rw [issue, hrotate]
        exact ⟨e, step, [], BsgsM.bind_error hissue⟩

theorem foldlM_addInplace (ops : S.SlotOps slots) (rotated : List Ct) (acc : Ct)
    (run : BsgsRun Ct) :
    ∃ ct', rotated.foldlM (addInplace S) acc run = (.ok ct', run) ∧
      slots ct' = (rotated.map slots).foldl (· + ·) (slots acc) := by
  induction rotated generalizing acc with
  | nil => exact ⟨acc, rfl, rfl⟩
  | cons ct rotated ih =>
      obtain ⟨sum, hadd, hsum⟩ := ops.add_ok acc ct
      have hfirst : addInplace S acc ct run = (.ok sum, run) := by rw [addInplace, hadd]
      obtain ⟨ct', hrest, hslots⟩ := ih sum
      refine ⟨ct', ?_, ?_⟩
      · rw [List.foldlM_cons, BsgsM.bind_ok hfirst, hrest]
      · rw [hslots, hsum, List.map_cons, List.foldl_cons]

theorem rotationLayer_ok (ops : S.SlotOps slots) (ct : Ct) {steps : List ℤ}
    (h : ∀ step ∈ steps, S.Rotatable gk step) (run : BsgsRun Ct) :
    ∃ ct', rotationLayer (issue S gk) (addInplace S) ct steps run =
        (.ok ct', { run with issued := run.issued ++ steps }) ∧
      slots ct' = WindowSum.spread (steps.map fun (step : ℤ) ↦ (step : ZMod n)) (slots ct) := by
  obtain ⟨rotated, hrotated, hslots⟩ := mapM_issue_ok ops ct h run
  obtain ⟨ct', hsum, hsummed⟩ := foldlM_addInplace ops rotated ct
    { run with issued := run.issued ++ steps }
  refine ⟨ct', ?_, ?_⟩
  · rw [rotationLayer, BsgsM.bind_ok hrotated, hsum]
  · rw [hsummed, hslots, WindowSum.spread, List.foldl_map, List.foldl_map]

theorem rotationLayer_error (ops : S.SlotOps slots) (ct : Ct) {steps : List ℤ}
    (h : ∃ step ∈ steps, ¬ S.Rotatable gk step) (run : BsgsRun Ct) :
    ∃ e step more, rotationLayer (issue S gk) (addInplace S) ct steps run =
      (.error e, { run with issued := run.issued ++ step :: more }) := by
  obtain ⟨e, step, more, hrotated⟩ := mapM_issue_error ops ct h run
  exact ⟨e, step, more, BsgsM.bind_error hrotated⟩

end Layers

/-! ## The whole call -/

section Call

variable {S} {R : Type} [CommRing R] {n : ℕ} {slots : Ct → ZMod n → R} {gk : Gk}
  {babyStep giantStep : ℤ}

theorem checkBsgsElts_error {steps : List ℤ}
    (h : ∃ step ∈ steps, S.hasKey gk (S.galoisEltFromStep step) = false) (run : BsgsRun Ct) :
    ∃ e, (checkBsgsElts (S.hasKey gk) S.galoisEltFromStep steps : BsgsM Ct Unit) run =
      (.error e, run) := by
  induction steps with
  | nil =>
      obtain ⟨step, hstep, -⟩ := h
      exact absurd hstep List.not_mem_nil
  | cons step steps ih =>
      rw [checkBsgsElts]
      by_cases hkey : S.hasKey gk (S.galoisEltFromStep step) = true
      · rw [if_pos hkey]
        apply ih
        obtain ⟨s, hs, hmissing⟩ := h
        rcases List.mem_cons.mp hs with rfl | hs
        · rw [hkey] at hmissing
          exact absurd hmissing (by decide)
        · exact ⟨s, hs, hmissing⟩
      · rw [if_neg hkey]
        exact ⟨_, rfl⟩

theorem bsgsInto_eq (hproduct : babyStep * giantStep = 256) (ctIn : Ct) :
    bsgsInto S gk ctIn 256 babyStep giantStep = (do
      checkBsgsElts (S.hasKey gk) S.galoisEltFromStep BSGS_ROTATION_STEPS
      let babyAcc ← rotationLayer (issue S gk) (addInplace S) ctIn (loopFromOne babyStep)
      let acc ← rotationLayer (issue S gk) (addInplace S) babyAcc
        ((loopFromOne giantStep).map fun i ↦ i * babyStep)
      modify fun run ↦ { run with ctOut := acc }) := by
  rw [bsgsInto, bsgsReduction, if_neg (not_not.mpr rfl), if_neg (not_not.mpr hproduct)]
  simp only [bind_assoc]

theorem bsgsInto_missing (hproduct : babyStep * giantStep = 256)
    (h : ∃ step ∈ BSGS_ROTATION_STEPS, S.hasKey gk (S.galoisEltFromStep step) = false) (ctIn : Ct)
    (run : BsgsRun Ct) :
    ∃ e, bsgsInto S gk ctIn 256 babyStep giantStep run = (.error e, run) := by
  obtain ⟨e, hcheck⟩ := checkBsgsElts_error h run
  rw [bsgsInto_eq hproduct]
  exact ⟨e, BsgsM.bind_error hcheck⟩

theorem bsgsInto_ok (ops : S.SlotOps slots) (hproduct : babyStep * giantStep = 256)
    (hkeys : ∀ step ∈ BSGS_ROTATION_STEPS, S.hasKey gk (S.galoisEltFromStep step) = true)
    (hused : ∀ step ∈ usedSteps babyStep giantStep, S.Rotatable gk step) (ctIn : Ct)
    (run : BsgsRun Ct) :
    ∃ ct', bsgsInto S gk ctIn 256 babyStep giantStep run =
        (.ok (), ⟨run.issued ++ usedSteps babyStep giantStep, ct'⟩) ∧
      slots ct' = WindowSum.spread
        (((loopFromOne giantStep).map fun i ↦ i * babyStep).map fun (step : ℤ) ↦ (step : ZMod n))
        (WindowSum.spread ((loopFromOne babyStep).map fun (step : ℤ) ↦ (step : ZMod n))
          (slots ctIn)) := by
  obtain ⟨babyAcc, hbaby, hslots⟩ := rotationLayer_ok ops ctIn
    (fun step hstep ↦ hused step (List.mem_append_left _ hstep)) run
  obtain ⟨ct', hgiant, hslots'⟩ := rotationLayer_ok ops babyAcc
    (fun step hstep ↦ hused step (List.mem_append_right _ hstep))
    { run with issued := run.issued ++ loopFromOne babyStep }
  refine ⟨ct', ?_, by rw [hslots', hslots]⟩
  rw [bsgsInto_eq hproduct, checkBsgsElts_ok hkeys, pure_bind, BsgsM.bind_ok hbaby,
    BsgsM.bind_ok hgiant, usedSteps, ← List.append_assoc]
  rfl

theorem bsgsInto_error (ops : S.SlotOps slots) (hproduct : babyStep * giantStep = 256)
    (hkeys : ∀ step ∈ BSGS_ROTATION_STEPS, S.hasKey gk (S.galoisEltFromStep step) = true)
    (hused : ∃ step ∈ usedSteps babyStep giantStep, ¬ S.Rotatable gk step) (ctIn : Ct)
    (run : BsgsRun Ct) :
    ∃ e step more, bsgsInto S gk ctIn 256 babyStep giantStep run =
      (.error e, { run with issued := run.issued ++ step :: more }) := by
  rw [bsgsInto_eq hproduct, checkBsgsElts_ok hkeys, pure_bind]
  by_cases hbaby : ∀ step ∈ loopFromOne babyStep, S.Rotatable gk step
  · obtain ⟨babyAcc, hlayer, -⟩ := rotationLayer_ok ops ctIn hbaby run
    have hgiant : ∃ step ∈ (loopFromOne giantStep).map fun i ↦ i * babyStep,
        ¬ S.Rotatable gk step := by
      obtain ⟨step, hstep, hmissing⟩ := hused
      rcases List.mem_append.mp hstep with hstep | hstep
      · exact absurd (hbaby step hstep) hmissing
      · exact ⟨step, hstep, hmissing⟩
    obtain ⟨e, step, more, herror⟩ := rotationLayer_error ops babyAcc hgiant
      { run with issued := run.issued ++ loopFromOne babyStep }
    rw [BsgsM.bind_ok hlayer, BsgsM.bind_error herror, List.append_assoc]
    cases hsteps : loopFromOne babyStep with
    | nil => exact ⟨e, step, more, rfl⟩
    | cons first rest => exact ⟨e, first, rest ++ step :: more, rfl⟩
  · push Not at hbaby
    obtain ⟨e, step, more, herror⟩ := rotationLayer_error ops ctIn hbaby run
    exact ⟨e, step, more, BsgsM.bind_error herror⟩

/-- A rotation that cannot be made is met after others were. -/
theorem not_allOrNothing_of_used (ops : S.SlotOps slots) (hproduct : babyStep * giantStep = 256)
    (hkeys : ∀ step ∈ BSGS_ROTATION_STEPS, S.hasKey gk (S.galoisEltFromStep step) = true)
    (hused : ∃ step ∈ usedSteps babyStep giantStep, ¬ S.Rotatable gk step) (ctIn : Ct)
    (run : BsgsRun Ct) :
    ¬ AllOrNothing slots ctIn run (bsgsInto S gk ctIn 256 babyStep giantStep run) := by
  obtain ⟨e, step, more, hrun⟩ := bsgsInto_error ops hproduct hkeys hused ctIn run
  rw [hrun]
  rintro (⟨e', heq⟩ | ⟨hok, -⟩)
  · have hissued := congrArg (fun outcome ↦ outcome.2.issued) heq
    exact absurd (List.append_right_eq_self.mp hissued) (List.cons_ne_nil step more)
  · exact absurd hok nofun

/-- With negative factors both loops are empty, and the output is the input. -/
theorem allOrNothing_of_neg (ops : S.SlotOps slots) (hproduct : babyStep * giantStep = 256)
    (hkeys : ∀ step ∈ BSGS_ROTATION_STEPS, S.hasKey gk (S.galoisEltFromStep step) = true)
    (hneg : babyStep < 0) (ctIn : Ct) (run : BsgsRun Ct) :
    AllOrNothing slots ctIn run (bsgsInto S gk ctIn 256 babyStep giantStep run) ↔
      slots ctIn = windows 256 (slots ctIn) := by
  have hgiant : giantStep < 0 := by
    by_contra hge
    have hle := mul_nonpos_of_nonpos_of_nonneg hneg.le (not_lt.mp hge)
    rw [hproduct] at hle
    exact absurd hle (by decide)
  have hempty : ∀ bound : ℤ, bound < 0 → loopFromOne bound = [] := by
    intro bound hbound
    rw [loopFromOne, Int.toNat_of_nonpos (by omega)]
    rfl
  have hnone : ∀ step ∈ usedSteps babyStep giantStep, S.Rotatable gk step := by
    rw [usedSteps, hempty _ hneg, hempty _ hgiant]
    exact fun step hstep ↦ absurd hstep List.not_mem_nil
  obtain ⟨ct', hrun, hslots⟩ := bsgsInto_ok ops hproduct hkeys hnone ctIn run
  rw [hempty _ hneg, hempty _ hgiant] at hslots
  rw [hrun]
  constructor
  · rintro (⟨e, heq⟩ | ⟨-, hwindows⟩)
    · cases congrArg Prod.fst heq
    · exact hslots.symm.trans hwindows
  · intro hwindows
    exact Or.inr ⟨rfl, hslots.trans hwindows⟩

/-- A call ends all or nothing exactly when the fixed key check refuses it, when
its factors are positive and every step they use can be rotated, or when its
factors are negative and there was nothing to sum. -/
theorem bsgsInto_allOrNothing (ops : S.SlotOps slots) (hproduct : babyStep * giantStep = 256)
    (gk : Gk) (ctIn : Ct) (run : BsgsRun Ct) :
    AllOrNothing slots ctIn run (bsgsInto S gk ctIn 256 babyStep giantStep run) ↔
      (∃ step ∈ BSGS_ROTATION_STEPS, S.hasKey gk (S.galoisEltFromStep step) = false) ∨
      (0 < babyStep ∧ ∀ step ∈ usedSteps babyStep giantStep, S.Rotatable gk step) ∨
      (babyStep < 0 ∧ slots ctIn = windows 256 (slots ctIn)) := by
  by_cases hmissing : ∃ step ∈ BSGS_ROTATION_STEPS,
      S.hasKey gk (S.galoisEltFromStep step) = false
  · obtain ⟨e, hrun⟩ := bsgsInto_missing hproduct hmissing ctIn run
    exact ⟨fun _ ↦ Or.inl hmissing, fun _ ↦ Or.inl ⟨e, hrun⟩⟩
  have hkeys : ∀ step ∈ BSGS_ROTATION_STEPS, S.hasKey gk (S.galoisEltFromStep step) = true := by
    intro step hstep
    by_contra hkey
    exact hmissing ⟨step, hstep, Bool.eq_false_of_not_eq_true hkey⟩
  rcases lt_trichotomy 0 babyStep with hpos | rfl | hneg
  · by_cases hused : ∀ step ∈ usedSteps babyStep giantStep, S.Rotatable gk step
    · have hgiant : 0 < giantStep := by
        apply pos_of_mul_pos_right _ hpos.le
        rw [hproduct]
        decide
      obtain ⟨ct', hrun, hslots⟩ := bsgsInto_ok ops hproduct hkeys hused ctIn run
      refine ⟨fun _ ↦ Or.inr (Or.inl ⟨hpos, hused⟩), fun _ ↦ Or.inr ?_⟩
      rw [hrun]
      exact ⟨rfl, hslots.trans (spread_bsgs hpos hgiant hproduct (slots ctIn))⟩
    · constructor
      · intro h
        push Not at hused
        exact absurd h (not_allOrNothing_of_used ops hproduct hkeys hused ctIn run)
      · rintro (h | ⟨-, h⟩ | ⟨h, -⟩)
        · exact absurd h hmissing
        · exact absurd h hused
        · exact absurd h hpos.not_gt
  · rw [zero_mul] at hproduct
    exact absurd hproduct (by decide)
  · rw [allOrNothing_of_neg ops hproduct hkeys hneg]
    constructor
    · exact fun hwindows ↦ Or.inr (Or.inr ⟨hneg, hwindows⟩)
    · rintro (h | ⟨h, -⟩ | ⟨-, hwindows⟩)
      · exact absurd h hmissing
      · exact absurd h hneg.not_gt
      · exact hwindows

end Call

end Outcome

/-! ## With the keys of the 30 steps -/

/-- The Galois element of a step, for ring dimension 8192. -/
def galoisElt (step : ℤ) : ℕ := 3 ^ (step % 4096).toNat % 16384

/-- SEAL on exact slots, with keys for a list of Galois elements. -/
def Seal.keyed : Seal (ZMod 4096 → ℤ) Unit (List ℕ) where
  firstParmsId := 0
  keyParmsId := 1
  coeffModulus := fun _ ↦ none
  load := fun _ ↦ .error "not serialized"
  parmsId := fun _ ↦ 0
  scale := fun _ ↦ 1
  saveSize := fun _ ↦ 0
  save := fun _ ↦ []
  save_length := fun _ ↦ rfl
  multiplyPlain := fun ct _ ↦ .ok ct
  rescaleToNext := .ok
  rotateVector := fun ct step keys ↦
    if galoisElt step ∈ keys ∨ ∀ p ∈ naf step, galoisElt p ∈ keys then
      .ok (WindowSum.rotate (step : ZMod 4096) ct)
    else .error "Galois key not present"
  add := fun a b ↦ .ok (a + b)
  addPlain := fun ct _ ↦ .ok ct
  ntt := fun _ limb ↦ limb
  plaintext := fun _ _ _ ↦ ()
  loadGaloisKeys := fun _ ↦ .error "not serialized"
  galoisParmsId := fun _ ↦ 1
  galoisEltFromStep := galoisElt
  hasKey := fun keys elt ↦ elt ∈ keys
  galoisKeysSize := List.length
  galoisSaveSize := fun _ ↦ 0

theorem Seal.keyed_slotOps : Seal.keyed.SlotOps fun ct ↦ ct where
  rotate_ok ct step gk h := by
    refine ⟨_, if_pos ?_, rfl⟩
    simpa [Seal.Rotatable, Seal.keyed] using h
  rotate_error ct step gk h := by
    refine ⟨_, if_neg ?_⟩
    simpa [Seal.Rotatable, Seal.keyed] using h
  add_ok a b := ⟨_, rfl, rfl⟩

def bsgsKeys : List ℕ := BSGS_ROTATION_STEPS.map galoisElt

def impulse : ZMod 4096 → ℤ := fun i ↦ if i = 0 then 1 else 0

theorem bsgsInto_allOrNothing_square :
    AllOrNothing (fun ct ↦ ct) impulse ⟨[], 0⟩
      (bsgsInto Seal.keyed bsgsKeys impulse 256 16 16 ⟨[], 0⟩) :=
  (bsgsInto_allOrNothing Seal.keyed_slotOps (by decide) bsgsKeys impulse ⟨[], 0⟩).mpr
    (Or.inr (Or.inl ⟨by decide, by decide +kernel⟩))

/-- Step 24 has no key and needs one for -8; negative factors sum nothing. -/
theorem bsgsInto_not_allOrNothing :
    ¬ AllOrNothing (fun ct ↦ ct) impulse ⟨[], 0⟩
        (bsgsInto Seal.keyed bsgsKeys impulse 256 8 32 ⟨[], 0⟩) ∧
      ¬ AllOrNothing (fun ct ↦ ct) impulse ⟨[], 0⟩
        (bsgsInto Seal.keyed bsgsKeys impulse 256 (-16) (-16) ⟨[], 0⟩) := by
  have hkeys : ∀ step ∈ BSGS_ROTATION_STEPS,
      Seal.keyed.hasKey bsgsKeys (Seal.keyed.galoisEltFromStep step) = true := by decide +kernel
  constructor
  · exact not_allOrNothing_of_used Seal.keyed_slotOps (by decide) hkeys
      ⟨24, by decide, by decide +kernel⟩ impulse _
  · rw [allOrNothing_of_neg Seal.keyed_slotOps (by decide) hkeys (by decide)]
    intro hwindows
    exact absurd (congrFun hwindows (-1)) (by decide +kernel)

end Ppfdaas
