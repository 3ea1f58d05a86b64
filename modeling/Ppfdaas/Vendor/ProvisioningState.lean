import Mathlib.Tactic

/-!
# The fail-closed provisioning state machine

`ProvisioningStateMachine` of `provisioning_state.h`, each method taken as one
step on the object.  The locks and atomic accesses inside a method are the
subject of `StateMachineThreads`.
-/

namespace Ppfdaas

/-- `ppfdaas::ProvisioningState` of `inference.proto`. -/
inductive ProvisioningState where
  | init
  | awaitingKeys
  | validating
  | ready
  | fault
  deriving DecidableEq, Repr

namespace ProvisioningState

def name : ProvisioningState → String
  | init => "PROV_INIT"
  | awaitingKeys => "PROV_AWAITING_KEYS"
  | validating => "PROV_VALIDATING"
  | ready => "PROV_READY"
  | fault => "PROV_FAULT"

/-- The arrows of the documented diagram that start after construction. -/
inductive Edge : ProvisioningState → ProvisioningState → Prop
  | provisioned : Edge awaitingKeys validating
  | confirmed : Edge validating ready
  | rejected : Edge awaitingKeys fault
  | mismatched : Edge validating fault
  | tripped : Edge ready fault

theorem Edge.source_ne_fault {a b : ProvisioningState} (h : Edge a b) : a ≠ fault := by
  cases h <;> simp

theorem Edge.target_ne_init {a b : ProvisioningState} (h : Edge a b) : b ≠ init := by
  cases h <;> simp

/-- Every state a constructed machine can be in is `PROV_FAULT` or has an
arrow to it. -/
theorem eq_fault_or_edge {s : ProvisioningState} (h : s ≠ init) : fault = s ∨ Edge s fault := by
  cases s with
  | init => exact absurd rfl h
  | awaitingKeys => exact .inr .rejected
  | validating => exact .inr .mismatched
  | ready => exact .inr .tripped
  | fault => exact .inl rfl

end ProvisioningState

/-- `++` on a `std::atomic<uint64_t>`. -/
def incr64 (n : ℕ) : ℕ := (n + 1) % 2 ^ 64

/-- The fields of `ProvisioningStateMachine`; the counters are 64-bit. -/
structure ProvisioningStateMachine where
  state : ProvisioningState
  totalRequests : ℕ
  mismatchCount : ℕ
  lastMessage : String
  deriving DecidableEq, Repr

namespace ProvisioningStateMachine

open ProvisioningState

def kMaxContinuousMismatches : ℕ := 3

/-- The constructor: `PROV_INIT` is left before anyone can see it. -/
def new : ProvisioningStateMachine := ⟨awaitingKeys, 0, 0, ""⟩

/-- Rung (a).  The message is replaced before the state is looked at. -/
def onStructuralResult (sm : ProvisioningStateMachine) (ok : Bool) (message : String) :
    Bool × ProvisioningStateMachine :=
  let sm := { sm with lastMessage := message }
  if sm.state ≠ awaitingKeys then (false, sm)
  else (true, { sm with state := if ok then validating else fault })

/-- Rung (b). -/
def onCanaryResult (sm : ProvisioningStateMachine) (passed : Bool) (message : String) :
    Bool × ProvisioningStateMachine :=
  let sm := { sm with lastMessage := message }
  if sm.state ≠ validating then (false, sm)
  else (true, { sm with state := if passed then ready else fault })

def incrTotalRequests (sm : ProvisioningStateMachine) : ProvisioningStateMachine :=
  { sm with totalRequests := incr64 sm.totalRequests }

def incrMismatchCount (sm : ProvisioningStateMachine) : ProvisioningStateMachine :=
  { sm with mismatchCount := incr64 sm.mismatchCount }

/-- The locked part of `record_request_and_maybe_trip`. -/
def maybeTrip (sm : ProvisioningStateMachine) (reasonIfTripped : String) :
    Bool × ProvisioningStateMachine :=
  if sm.state = ready then (true, { sm with state := fault, lastMessage := reasonIfTripped })
  else (false, sm)

/-- Rung (c). -/
def recordRequestAndMaybeTrip (sm : ProvisioningStateMachine) (checksPassed : Bool)
    (reasonIfTripped : String) : Bool × ProvisioningStateMachine :=
  let sm := sm.incrTotalRequests
  if checksPassed then (false, sm)
  else
    let sm := sm.incrMismatchCount
    if sm.mismatchCount < kMaxContinuousMismatches then (false, sm)
    else sm.maybeTrip reasonIfTripped

def forceFault (sm : ProvisioningStateMachine) (message : String) : ProvisioningStateMachine :=
  { sm with state := fault, lastMessage := message }

/-! ## What one call can do -/

section Spec

variable (sm : ProvisioningStateMachine)

theorem onStructuralResult_of_awaitingKeys (h : sm.state = awaitingKeys) (ok : Bool)
    (message : String) :
    sm.onStructuralResult ok message =
      (true, { sm with state := if ok then validating else fault, lastMessage := message }) := by
  simp [onStructuralResult, h]

theorem onStructuralResult_of_ne (h : sm.state ≠ awaitingKeys) (ok : Bool) (message : String) :
    sm.onStructuralResult ok message = (false, { sm with lastMessage := message }) := by
  simp [onStructuralResult, h]

theorem onCanaryResult_of_validating (h : sm.state = validating) (passed : Bool)
    (message : String) :
    sm.onCanaryResult passed message =
      (true, { sm with state := if passed then ready else fault, lastMessage := message }) := by
  simp [onCanaryResult, h]

theorem onCanaryResult_of_ne (h : sm.state ≠ validating) (passed : Bool) (message : String) :
    sm.onCanaryResult passed message = (false, { sm with lastMessage := message }) := by
  simp [onCanaryResult, h]

theorem recordRequestAndMaybeTrip_passed (reason : String) :
    sm.recordRequestAndMaybeTrip true reason = (false, sm.incrTotalRequests) := rfl

theorem recordRequestAndMaybeTrip_failed (reason : String) :
    sm.recordRequestAndMaybeTrip false reason =
      if incr64 sm.mismatchCount < kMaxContinuousMismatches then
        (false, sm.incrTotalRequests.incrMismatchCount)
      else sm.incrTotalRequests.incrMismatchCount.maybeTrip reason := rfl

theorem recordRequestAndMaybeTrip_state_of_ready (h : sm.state = ready) (checksPassed : Bool)
    (reason : String) :
    (sm.recordRequestAndMaybeTrip checksPassed reason).2.state = sm.state ∨
      (sm.state = ready ∧
        (sm.recordRequestAndMaybeTrip checksPassed reason).2.state = fault) := by
  cases checksPassed with
  | true => exact .inl rfl
  | false =>
      rw [recordRequestAndMaybeTrip_failed]
      by_cases hcount : incr64 sm.mismatchCount < kMaxContinuousMismatches
      · rw [if_pos hcount]
        exact .inl rfl
      · rw [if_neg hcount]
        have htrip : sm.incrTotalRequests.incrMismatchCount.state = ready := h
        exact .inr ⟨h, by simp [maybeTrip, htrip]⟩

end Spec

end ProvisioningStateMachine

end Ppfdaas
