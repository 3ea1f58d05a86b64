import Ppfdaas.Vendor.Seal

/-!
# The evaluation-only context and the rotation fold

The Galois-key side of `eval_context_160.{h,cpp}` and `hoisted_tree_sum` of
`rotation_hoisting.cpp`.  The fold is written over any monad that can throw,
since a handler that runs it reads the installed keys again at every rotation.
-/

namespace Ppfdaas

/-- `ppfdaas::PackingMode`; a proto3 enum field can carry any other number. -/
inductive PackingMode where
  | slot
  | cnp
  | unrecognized (value : ℤ)
  deriving DecidableEq, Repr

def PackingMode.name : PackingMode → String
  | slot => "SLOT"
  | cnp => "CNP"
  | unrecognized _ => ""

inductive PackingMode160 where
  | slot
  | cnp
  deriving DecidableEq, Repr

/-- The mutable fields of `EvalContext160`. -/
structure EvalContext160 (Gk : Type) where
  galoisKeys : Gk
  galoisKeysLoaded : Bool

namespace EvalContext160

variable {Ct Pt Gk : Type} (S : Seal Ct Pt Gk)

def ROTATION_STEPS : List ℤ := [1, 2, 4, 8, 16, 32, 64, 128]

/-- The eager check of rung (a)-2, in the order of the schedule. -/
def checkRequiredElts (candidate : Gk) : List ℤ → Except String Unit
  | [] => return ()
  | step :: steps =>
      if S.hasKey candidate (S.galoisEltFromStep step) then checkRequiredElts candidate steps
      else throw ("EvalContext160: Galois keys are missing the key for rotation step " ++
        toString step ++ " (Galois element " ++ toString (S.galoisEltFromStep step) ++
        "), which hoisted_tree_sum requires")

/-- `load_and_validate_galois_keys` up to the assignment of the candidate. -/
def validateGaloisKeys (mode : PackingMode160) (input : Bytes) : Except String Gk :=
  if mode = .cnp then
    throw ("EvalContext160: Galois keys must never be loaded in CNP mode (the CNP circuit " ++
      "performs no rotations)")
  else
    match S.loadGaloisKeys input with
    | .error e => throw ("EvalContext160: failed to deserialize Galois keys: " ++ e)
    | .ok candidate =>
        if S.galoisParmsId candidate ≠ S.keyParmsId then
          throw ("EvalContext160: Galois key parms_id does not match this server's encryption " ++
            "parameters -- the keys were generated for a different parameter set")
        else do
          checkRequiredElts S candidate ROTATION_STEPS
          return candidate

/-- The two assignments that end `load_and_validate_galois_keys`. -/
def install (_ctx : EvalContext160 Gk) (candidate : Gk) : EvalContext160 Gk :=
  ⟨candidate, true⟩

/-- `load_and_validate_galois_keys`: what it throws, if anything, and the
context it leaves. -/
def loadAndValidateGaloisKeys (ctx : EvalContext160 Gk) (mode : PackingMode160) (input : Bytes) :
    Except String Unit × EvalContext160 Gk :=
  match validateGaloisKeys S mode input with
  | .ok candidate => (.ok (), ctx.install candidate)
  | .error e => (.error e, ctx)

def galoisKeyBytes (ctx : EvalContext160 Gk) : ℕ :=
  if ctx.galoisKeysLoaded then S.galoisSaveSize ctx.galoisKeys else 0

def assertNoGaloisKeys (ctx : EvalContext160 Gk) : Except String Unit :=
  if ctx.galoisKeysLoaded ∨ S.galoisKeysSize ctx.galoisKeys ≠ 0 then
    throw "EvalContext160: CNP invariant violated -- Galois keys are present"
  else return ()

end EvalContext160

/-! ## The rotation fold -/

def STEPS : List ℤ := [1, 2, 4, 8, 16, 32, 64, 128]

/-- `hoisted_tree_sum`: each rotation acts on the accumulator. -/
def hoistedTreeSum {m : Type → Type} [Monad m] [MonadExceptOf String m] {Ct : Type}
    (rotate : Ct → ℤ → m Ct) (add : Ct → Ct → m Ct) (ct : Ct) (nFeatures : ℤ) : m Ct :=
  if nFeatures ≠ 256 then throw "hoisted_tree_sum: n_features must be 256"
  else STEPS.foldlM (fun acc step ↦ do
    let tmp ← rotate acc step
    add acc tmp) ct

end Ppfdaas
