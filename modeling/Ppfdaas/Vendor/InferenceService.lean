import Ppfdaas.Library.Interleaving
import Ppfdaas.Library.RawBuffer
import Ppfdaas.Vendor.CnpCodec
import Ppfdaas.Vendor.EvalContext
import Ppfdaas.Vendor.ProvisioningState

/-!
# The inference service

The handlers of `FraudInferenceServiceImpl160` as programs over the members of
the service: every access to shared memory (a read of the state, a locked
transition, a counter, the installed Galois keys, a thread's buffers) is one
action.  Run alone, a handler is the sequential RPC.  `history` is a ghost
log: actions append to it and no action reads it.  Real time is left out.
-/

namespace Ppfdaas

open Interleaving ProvisioningState

/-! ## Messages -/

inductive InferenceStatus where
  | ok
  | errNoiseBudgetExhausted
  | errMalformedCiphertext
  | errParamMismatch
  | errTimeout
  | errInternal
  | errNotProvisioned
  deriving DecidableEq, Repr

structure InferenceRequest where
  ciphertext : Bytes
  requestId : String
  institutionId : String
  nTransactions : ℤ
  packingMode : PackingMode
  deriving DecidableEq

structure InferenceResponse where
  status : InferenceStatus
  resultCiphertext : Bytes
  requestId : String
  errorMessage : String
  deriving DecidableEq

/-- A call of one of the RPCs.  `draws` are the mask draws that the fresh
generator of a CNP request will yield. -/
inductive Rpc where
  | provisionGaloisKeys (galoisKeys : Bytes)
  | canaryCheck (ciphertext : Bytes)
  | canaryConfirm (passed : Bool) (message : String)
  | getProvisioningStatus
  | canaryCheckTranscipher (symCiphertext nonce : Bytes)
  | runInference (req : InferenceRequest) (draws : Cnp.MaskDraws)

inductive GrpcCode where
  | failedPrecondition
  | invalidArgument
  deriving DecidableEq, Repr

/-- What the caller receives; `refused` is a call that ended with a gRPC error. -/
inductive Reply where
  | provision (state : ProvisioningState) (message : String)
  | canary (state : ProvisioningState) (resultCiphertext : Bytes) (message : String)
  | confirm (state : ProvisioningState) (message : String)
  | status (state : ProvisioningState) (detail : String) (packingMode : PackingMode)
      (galoisKeyBytes rotationCalls : ℕ)
  | transcipher (state : ProvisioningState) (pendingImpl : Bool) (message : String)
  | inference (resp : InferenceResponse)
  | refused (code : GrpcCode) (message : String)
  deriving DecidableEq

/-! ## The members of the service -/

structure ServiceConstants (Pt : Type) where
  packingMode : PackingMode160
  bias : ℚ
  ptWeights : Pt
  ptBias : Pt
  ptWrev : Pt
  cnpMaskEnabled : Bool

def ServiceConstants.clear (mode : PackingMode160) : ServiceConstants ℕ :=
  ⟨mode, 0, 1, 0, 1, true⟩

def CT_BUF : ℕ := 320 * 1024

/-- The two `static thread_local` buffers of a worker thread; the vector is
empty until it is resized to `CT_BUF` bytes. -/
structure ThreadLocals (Ct : Type) where
  accBuf : Option Ct
  ctBuf : RawBuffer UInt8
  size_le : ctBuf.size ≤ CT_BUF

def ThreadLocals.unused (Ct : Type) : ThreadLocals Ct := ⟨none, .empty, Nat.zero_le CT_BUF⟩

/-- Entries of the ghost log. -/
inductive Event (τ Gk : Type) where
  | passedGate (thread : τ) (galoisKeys : Bytes)
  | keysAssigned (thread : τ) (keys : Gk)
  | provisioned (thread : τ) (keys : Gk)
  | canaryRotation (thread : τ) (step : ℤ) (keys : Gk)
  | canaryReturned (thread : τ)
  | confirmed (thread : τ)
  | inferenceRotation (thread : τ) (step : ℤ) (keys : Gk)
  deriving DecidableEq

/-- A rotation of a longer log is the newest entry or was logged before. -/
theorem Event.rotation_cons {τ Gk : Type} {e : Event τ Gk} {history : List (Event τ Gk)} {t : τ}
    {step : ℤ} {keys : Gk} (h : .canaryRotation t step keys ∈ e :: history ∨
      .inferenceRotation t step keys ∈ e :: history) :
    (e = .canaryRotation t step keys ∨ e = .inferenceRotation t step keys) ∨
      .canaryRotation t step keys ∈ history ∨ .inferenceRotation t step keys ∈ history := by
  rw [List.mem_cons, List.mem_cons] at h
  rcases h with (heq | hmem) | (heq | hmem)
  · exact .inl (.inl heq.symm)
  · exact .inr (.inl hmem)
  · exact .inl (.inr heq.symm)
  · exact .inr (.inr hmem)

/-- `overran` says that bytes were written behind a thread's buffer.  The C++
program has no defined behaviour from then on; the model goes on as if nobody
else used those bytes. -/
structure ServerState (τ Ct Gk : Type) where
  ctx : EvalContext160 Gk
  sm : ProvisioningStateMachine
  rotationCalls : ℕ
  locals : τ → ThreadLocals Ct
  overran : Bool
  history : List (Event τ Gk)

namespace ServerState

variable {τ Ct Pt Gk : Type}

/-- The members after the constructor; a CNP server drives its machine to
`PROV_READY` there. -/
def new (mode : PackingMode160) (noKeys : Gk) : ServerState τ Ct Gk where
  ctx := ⟨noKeys, false⟩
  sm :=
    if mode = .cnp then
      ((ProvisioningStateMachine.new.onStructuralResult true
        "CNP mode: no Galois keys to provision").2.onCanaryResult true
        "CNP mode: no rotation canary (no Galois keys); ready at startup").2
    else .new
  rotationCalls := 0
  locals := fun _ ↦ .unused Ct
  overran := false
  history := []

abbrev Step (τ Ct Gk α : Type) := Prog (ServerState τ Ct Gk) α

def currentState : Step τ Ct Gk ProvisioningState := .read fun s ↦ s.sm.state

def lastMessage : Step τ Ct Gk String := .read fun s ↦ s.sm.lastMessage

/-- The state check of `ProvisionGaloisKeys`; a call that passes it is logged. -/
def provisioningGate (t : τ) (galoisKeys : Bytes) : Step τ Ct Gk ProvisioningState :=
  .atomically fun s ↦
    (s.sm.state, { s with
      history :=
        if s.sm.state = awaitingKeys then .passedGate t galoisKeys :: s.history else s.history })

def installGaloisKeys (t : τ) (candidate : Gk) : Step τ Ct Gk Unit :=
  .modify fun s ↦ { s with
    ctx := s.ctx.install candidate
    history := .keysAssigned t candidate :: s.history }

/-- `on_structural_result`, with the keys the result is about. -/
def onStructuralResult (t : τ) (candidate : Option Gk) (message : String) :
    Step τ Ct Gk Bool :=
  .atomically fun s ↦
    let (done, sm) := s.sm.onStructuralResult candidate.isSome message
    (done, { s with
      sm := sm
      history :=
        match done, candidate with
        | true, some keys => .provisioned t keys :: s.history
        | _, _ => s.history })

def onCanaryResult (t : τ) (passed : Bool) (message : String) : Step τ Ct Gk Bool :=
  .atomically fun s ↦
    let (done, sm) := s.sm.onCanaryResult passed message
    (done, { s with
      sm := sm
      history := if done ∧ passed then .confirmed t :: s.history else s.history })

def forceFault (message : String) : Step τ Ct Gk Unit :=
  .modify fun s ↦ { s with sm := s.sm.forceFault message }

/-- `record_request_and_maybe_trip`: two atomic increments, then the locked
part. -/
def recordRequestAndMaybeTrip (checksPassed : Bool) (reasonIfTripped : String) :
    Step τ Ct Gk Bool := do
  .modify fun s ↦ { s with sm := s.sm.incrTotalRequests }
  if checksPassed then
    return false
  let mismatches ← .atomically fun s ↦
    (s.sm.incrMismatchCount.mismatchCount, { s with sm := s.sm.incrMismatchCount })
  if mismatches < ProvisioningStateMachine.kMaxContinuousMismatches then
    return false
  .atomically fun s ↦
    let (tripped, sm) := s.sm.maybeTrip reasonIfTripped
    (tripped, { s with sm := sm })

/-! ## The thread-local buffers -/

section Locals

variable [DecidableEq τ]

def setLocals (s : ServerState τ Ct Gk) (t : τ) (l : ThreadLocals Ct) : ServerState τ Ct Gk :=
  { s with locals := Function.update s.locals t l }

/-- `if (tl_ct_buf.size() < CT_BUF) tl_ct_buf.resize(CT_BUF)`. -/
def resizeCtBuf (t : τ) : Step τ Ct Gk Unit :=
  .modify fun s ↦
    let l := s.locals t
    if l.ctBuf.size < CT_BUF then
      s.setLocals t { l with ctBuf := l.ctBuf.resize CT_BUF 0, size_le := le_rfl }
    else s

def setAccBuf (t : τ) (acc : Ct) : Step τ Ct Gk Unit :=
  .modify fun s ↦ s.setLocals t { s.locals t with accBuf := some acc }

def accBuf (t : τ) : Step τ Ct Gk (Option Ct) := .read fun s ↦ (s.locals t).accBuf

/-- `save` of `outSize` bytes from `tl_ct_buf.data()` on.  As in the source no
bound is checked: more bytes than the vector holds go behind it. -/
def writeCtBuf (t : τ) (outSize : ℕ) (bytes : Bytes) : Step τ Ct Gk Unit :=
  .modify fun s ↦
    let l := s.locals t
    { s.setLocals t { l with ctBuf := l.ctBuf.write bytes, size_le := l.size_le } with
      overran := s.overran || decide (l.ctBuf.size < outSize) }

def readCtBuf (t : τ) (outSize : ℕ) : Step τ Ct Gk Bytes :=
  .read fun s ↦ (s.locals t).ctBuf.read outSize

end Locals

/-! ## Evaluation steps -/

section Evaluation

variable (S : Seal Ct Pt Gk)

def attempt {α : Type} (x : Except String α) : ExceptT String (Prog (ServerState τ Ct Gk)) α :=
  ExceptT.mk (pure x)

/-- One rotation of the fold: count it, then rotate under the keys that are
installed now. -/
def rotate (event : ℤ → Gk → Event τ Gk) (acc : Ct) (step : ℤ) :
    ExceptT String (Prog (ServerState τ Ct Gk)) Ct :=
  ExceptT.mk do
    .modify fun s ↦ { s with rotationCalls := incr64 s.rotationCalls }
    .atomically fun s ↦
      (S.rotateVector acc step s.ctx.galoisKeys,
        { s with history := event step s.ctx.galoisKeys :: s.history })

/-- `hoisted_tree_sum` on the installed keys. -/
def treeSum (event : ℤ → Gk → Event τ Gk) (ct : Ct) :
    ExceptT String (Prog (ServerState τ Ct Gk)) Ct :=
  hoistedTreeSum (rotate S event) (fun a b ↦ attempt (S.add a b)) ct 256

variable [DecidableEq τ]

/-- `save_size`, `save` into `tl_ct_buf`, and the copy into the response. -/
def saveOut (t : τ) (ct : Ct) : ExceptT String (Prog (ServerState τ Ct Gk)) Bytes :=
  ExceptT.mk do
    let outSize := S.saveSize ct
    writeCtBuf t outSize (S.save ct)
    let bytes ← readCtBuf t outSize
    return .ok bytes

/-- `tl_acc_buf` as an argument of SEAL: a default-constructed one is refused. -/
def loadAccBuf (t : τ) : ExceptT String (Prog (ServerState τ Ct Gk)) Ct :=
  ExceptT.mk do
    match ← accBuf t with
    | none => return .error "encrypted is not valid for encryption parameters"
    | some acc => return .ok acc

def storeAccBuf (t : τ) (acc : Ct) : ExceptT String (Prog (ServerState τ Ct Gk)) Unit :=
  ExceptT.mk do
    setAccBuf t acc
    return .ok ()

/-- The `try` block of the SLOT branch. -/
def slotBlock (m : ServiceConstants Pt) (t : τ) (ct : Ct) :
    ExceptT String (Prog (ServerState τ Ct Gk)) Bytes := do
  let ct ← attempt (S.multiplyPlain ct m.ptWeights)
  let ct ← attempt (S.rescaleToNext ct)
  let sum ← treeSum S (.inferenceRotation t) ct
  storeAccBuf t sum
  let acc ← loadAccBuf t
  let acc ← attempt (S.addPlain acc m.ptBias)
  storeAccBuf t acc
  let acc ← loadAccBuf t
  saveOut S t acc

/-- The product and the mask of the CNP branch, on local values. -/
def cnpProduct (m : ServiceConstants Pt) (draws : Cnp.MaskDraws) (ct : Ct) :
    Except String Ct := do
  let ct ← S.multiplyPlain ct m.ptWrev
  let ct ← S.rescaleToNext ct
  let mask ← Cnp.buildOutputMask S (S.parmsId ct) (S.scale ct)
    (if m.cnpMaskEnabled then m.bias else 0) m.cnpMaskEnabled draws
  S.addPlain ct mask

/-- The `try` block of the CNP branch. -/
def cnpBlock (m : ServiceConstants Pt) (t : τ) (draws : Cnp.MaskDraws) (ct : Ct) :
    ExceptT String (Prog (ServerState τ Ct Gk)) Bytes := do
  ExceptT.mk (.read fun s ↦ s.ctx.assertNoGaloisKeys S)
  let rotBefore ← ExceptT.mk (.read fun s ↦ .ok s.rotationCalls)
  let ct ← attempt (cnpProduct S m draws ct)
  let rotAfter ← ExceptT.mk (.read fun s ↦ .ok s.rotationCalls)
  if rotAfter ≠ rotBefore then
    throw "CNP invariant violated: a rotation was issued"
  saveOut S t ct

end Evaluation

/-! ## The handlers -/

section Handlers

variable (S : Seal Ct Pt Gk) (m : ServiceConstants Pt)

def provisionGaloisKeys (t : τ) (galoisKeys : Bytes) : Step τ Ct Gk Reply := do
  if m.packingMode = .cnp then
    return .refused .failedPrecondition
      ("ProvisionGaloisKeys refused: server is in CNP packing mode " ++
        "(PPFD_PACKING=cnp) and never loads Galois keys")
  let state ← provisioningGate t galoisKeys
  if state ≠ awaitingKeys then
    let respState ← currentState
    let current ← currentState
    return .provision respState
      ("ProvisionGaloisKeys is only accepted in PROV_AWAITING_KEYS; current state is " ++
        current.name ++ ". Re-provisioning requires a server restart.")
  match EvalContext160.validateGaloisKeys S m.packingMode galoisKeys with
  | .ok candidate =>
      installGaloisKeys t candidate
      let message := "structural validation passed (parms_id matches; all required Galois " ++
        "elements present); awaiting canary handshake"
      let _ ← onStructuralResult t (some candidate) message
      let respState ← currentState
      return .provision respState message
  | .error e =>
      let message := "structural validation FAILED: " ++ e
      let _ ← onStructuralResult t none message
      let respState ← currentState
      return .provision respState message

/-- The `try` block of `CanaryCheck`. -/
def canaryBlock (t : τ) (ciphertext : Bytes) :
    ExceptT String (Prog (ServerState τ Ct Gk)) Bytes := do
  let ct ← attempt (S.load ciphertext)
  if S.parmsId ct ≠ S.firstParmsId then
    throw "canary ciphertext parms_id mismatch"
  let acc ← treeSum S (.canaryRotation t) ct
  return S.save acc

def canaryCheck (t : τ) (ciphertext : Bytes) : Step τ Ct Gk Reply := do
  if m.packingMode = .cnp then
    return .refused .failedPrecondition
      ("CanaryCheck refused: server is in CNP packing mode " ++
        "(PPFD_PACKING=cnp); the rotation canary does not apply")
  let state ← currentState
  if state ≠ validating then
    let respState ← currentState
    let current ← currentState
    return .canary respState []
      ("CanaryCheck is only accepted in PROV_VALIDATING; current state is " ++ current.name)
  if ciphertext.length > CT_BUF then
    forceFault ("CanaryCheck: ciphertext exceeds " ++ toString CT_BUF ++ " byte max")
    let respState ← currentState
    let message ← lastMessage
    return .canary respState [] message
  match ← (canaryBlock S t ciphertext).run with
  | .ok result =>
      let respState ← .atomically fun s ↦
        (s.sm.state, { s with history := .canaryReturned t :: s.history })
      return .canary respState result "canary rotation applied; awaiting CanaryConfirm from bank"
  | .error e =>
      forceFault ("CanaryCheck failed: " ++ e)
      let respState ← currentState
      let message ← lastMessage
      return .canary respState [] message

def canaryConfirm (t : τ) (passed : Bool) (message : String) : Step τ Ct Gk Reply := do
  let state ← currentState
  if state ≠ validating then
    let respState ← currentState
    let current ← currentState
    return .confirm respState
      ("CanaryConfirm is only accepted in PROV_VALIDATING; current state is " ++ current.name)
  let detail :=
    if passed then
      "bank confirmed canary decrypted correctly -- Galois keys are consistent " ++
        "with the bank's secret key"
    else "bank reported canary decryption MISMATCH (" ++ message ++
      ") -- Galois keys are NOT consistent with the bank's secret key (Bug B)"
  let _ ← onCanaryResult t passed detail
  let respState ← currentState
  return .confirm respState detail

def getProvisioningStatus : Step τ Ct Gk Reply := do
  let state ← currentState
  let detail ← lastMessage
  let bytes ← .read fun s ↦ s.ctx.galoisKeyBytes S
  let rotations ← .read fun s ↦ s.rotationCalls
  return .status state detail (if m.packingMode = .cnp then .cnp else .slot) bytes rotations

def canaryCheckTranscipher : Step τ Ct Gk Reply := do
  let state ← currentState
  return .transcipher state true
    ("PENDING: CanaryCheckTranscipher vendor-side BFV evaluation requires " ++
      "the KAIST ckks_fv FV->CKKS scheme bridge, which is not in standard " ++
      "Lattigo v6.2.0. See tools/transciphering/README.md and docs/spec.md §8.6. " ++
      "The existing CKKS inference path (Phases 0-6) is unaffected.")

def failed (req : InferenceRequest) (status : InferenceStatus) (message : String) : Reply :=
  .inference ⟨status, [], req.requestId, message⟩

variable [DecidableEq τ]

/-- `RunInference` after the per-request checks. -/
def score (t : τ) (req : InferenceRequest) (draws : Cnp.MaskDraws) (ct : Ct) :
    Step τ Ct Gk Reply := do
  resizeCtBuf t
  let result ←
    if m.packingMode = .cnp then (cnpBlock S m t draws ct).run else (slotBlock S m t ct).run
  match result with
  | .ok bytes => return .inference ⟨.ok, bytes, req.requestId, ""⟩
  | .error e => return failed req .errInternal e

def runInference (t : τ) (req : InferenceRequest) (draws : Cnp.MaskDraws) :
    Step τ Ct Gk Reply := do
  let serverMode : PackingMode := if m.packingMode = .cnp then .cnp else .slot
  if req.packingMode ≠ serverMode then
    return .refused .failedPrecondition
      ("packing_mode mismatch: request is " ++ req.packingMode.name ++
        " but this server runs " ++ serverMode.name ++
        " (fixed per process by PPFD_PACKING)")
  if serverMode = .cnp ∧ (req.nTransactions < 1 ∨ req.nTransactions > Cnp.kMaxLanes) then
    return .refused .invalidArgument
      ("CNP mode accepts 1..32 transactions per request, got " ++ toString req.nTransactions)
  let state ← currentState
  if state ≠ ready then
    let current ← currentState
    return failed req .errNotProvisioned
      ("server is not provisioned (state=" ++ current.name ++
        "); inference is refused until the provisioning handshake completes")
  if req.ciphertext.length > CT_BUF then
    let _ ← recordRequestAndMaybeTrip false "RunInference: oversized ciphertext"
    return failed req .errMalformedCiphertext "Ciphertext exceeds 320 KB max"
  match S.load req.ciphertext with
  | .error e =>
      let _ ← recordRequestAndMaybeTrip false "RunInference: malformed ciphertext"
      return failed req .errMalformedCiphertext e
  | .ok ct =>
      if S.parmsId ct ≠ S.firstParmsId then
        let _ ← recordRequestAndMaybeTrip false
          ("PROV_FAULT: repeated parms_id mismatches on RunInference -- " ++
            "continuous validation (§1.5 rung c) tripped")
        return failed req .errParamMismatch "parms_id mismatch: client/server SEAL params differ"
      let _ ← recordRequestAndMaybeTrip true ""
      score S m t req draws ct

def handle (t : τ) : Rpc → Step τ Ct Gk Reply
  | .provisionGaloisKeys galoisKeys => provisionGaloisKeys S m t galoisKeys
  | .canaryCheck ciphertext => canaryCheck S m t ciphertext
  | .canaryConfirm passed message => canaryConfirm t passed message
  | .getProvisioningStatus => getProvisioningStatus S m
  | .canaryCheckTranscipher _ _ => canaryCheckTranscipher
  | .runInference req draws => runInference S m t req draws

end Handlers

end ServerState
end Ppfdaas
