import Ppfdaas.Library.ProgramActions
import Ppfdaas.Vendor.ServiceRuns

/-!
# What the handlers do to the service

Each handler is a tree of atomic actions.  An action reads, counts, moves bytes
or leaves a mark in the log; it rotates; it installs keys that passed the
structural check; or it is one call of the state machine.  `kinds` lists which
of these each RPC can do.
-/

namespace Ppfdaas

open Interleaving ProvisioningState

/-- A call of the state machine by a handler.  The counters of
`record_request_and_maybe_trip` are actions of their own; `maybeTrip` is its
locked part. -/
inductive MachineCall (Gk : Type) where
  | onStructuralResult (candidate : Option Gk) (message : String)
  | onCanaryResult (passed : Bool) (message : String)
  | maybeTrip (reasonIfTripped : String)
  | forceFault (message : String)

inductive ActionKind where
  | logs
  | rotates
  | installs
  | structural (ok : Bool)
  | canary
  | trips
  | forces
  deriving DecidableEq

namespace MachineCall

variable {τ Ct Gk : Type}

def message : MachineCall Gk → String
  | onStructuralResult _ message => message
  | onCanaryResult _ message => message
  | maybeTrip reasonIfTripped => reasonIfTripped
  | forceFault message => message

def kind : MachineCall Gk → ActionKind
  | onStructuralResult candidate _ => .structural candidate.isSome
  | onCanaryResult _ _ => .canary
  | maybeTrip _ => .trips
  | forceFault _ => .forces

def apply (call : MachineCall Gk) (sm : ProvisioningStateMachine) :
    Bool × ProvisioningStateMachine :=
  match call with
  | onStructuralResult candidate message => sm.onStructuralResult candidate.isSome message
  | onCanaryResult passed message => sm.onCanaryResult passed message
  | maybeTrip reasonIfTripped => sm.maybeTrip reasonIfTripped
  | forceFault message => (true, sm.forceFault message)

def program (t : τ) : MachineCall Gk → ServerState.Step τ Ct Gk Bool
  | onStructuralResult candidate message => ServerState.onStructuralResult t candidate message
  | onCanaryResult passed message => ServerState.onCanaryResult t passed message
  | maybeTrip reasonIfTripped => .atomically fun s ↦
      ((s.sm.maybeTrip reasonIfTripped).1, { s with sm := (s.sm.maybeTrip reasonIfTripped).2 })
  | forceFault message => .atomically fun s ↦ (true, { s with sm := s.sm.forceFault message })

def update (t : τ) (call : MachineCall Gk) (s : ServerState τ Ct Gk) : ServerState τ Ct Gk :=
  ((call.program t).run s).2

@[simp] theorem update_sm (t : τ) (call : MachineCall Gk) (s : ServerState τ Ct Gk) :
    (call.update t s).sm = (call.apply s.sm).2 := by
  cases call <;> rfl

@[simp] theorem update_ctx (t : τ) (call : MachineCall Gk) (s : ServerState τ Ct Gk) :
    (call.update t s).ctx = s.ctx := by
  cases call <;> rfl

/-- A call logs nothing or what it settled: the keys or the canary. -/
theorem update_history (t : τ) (call : MachineCall Gk) (s : ServerState τ Ct Gk) :
    (call.update t s).history = s.history ∨
      (∃ keys, (call.update t s).history = .provisioned t keys :: s.history) ∨
      (call.update t s).history = .confirmed t :: s.history := by
  cases call with
  | onStructuralResult candidate message =>
      simp only [update, program, ServerState.onStructuralResult, Prog.run_atomically]
      rcases (s.sm.onStructuralResult candidate.isSome message).1 with _ | _
      · exact .inl rfl
      · cases candidate with
        | none => exact .inl rfl
        | some keys => exact .inr (.inl ⟨keys, rfl⟩)
  | onCanaryResult passed message =>
      simp only [update, program, ServerState.onCanaryResult, Prog.run_atomically]
      split
      · exact .inr (.inr rfl)
      · exact .inl rfl
  | maybeTrip reasonIfTripped => exact .inl rfl
  | forceFault message => exact .inl rfl

end MachineCall

namespace ServerState

variable {τ Ct Pt Gk : Type}

/-- Log entries of calls that have passed a check or come to an end. -/
def Event.IsMark : Event τ Gk → Prop
  | .passedGate _ _ => True
  | .canaryReturned _ => True
  | _ => False

section Actions

variable (S : Seal Ct Pt Gk) (m : ServiceConstants Pt) (t : τ)

inductive Action : ActionKind → (ServerState τ Ct Gk → ServerState τ Ct Gk) → Prop
  | logs {u : ServerState τ Ct Gk → ServerState τ Ct Gk} (hctx : ∀ s, (u s).ctx = s.ctx)
      (hstate : ∀ s, (u s).sm.state = s.sm.state)
      (hmessage : ∀ s, (u s).sm.lastMessage = s.sm.lastMessage)
      (hhistory : ∀ s, (u s).history = s.history ∨
        ∃ e, Event.IsMark e ∧ (u s).history = e :: s.history) : Action .logs u
  | rotates {event : ℤ → Gk → Event τ Gk}
      (hevent : event = .canaryRotation t ∨ event = .inferenceRotation t) {step : ℤ}
      (hstep : step ∈ STEPS) :
      Action .rotates fun s ↦ { s with history := event step s.ctx.galoisKeys :: s.history }
  | installs {bytes : Bytes} {keys : Gk}
      (hvalid : EvalContext160.validateGaloisKeys S m.packingMode bytes = .ok keys) :
      Action .installs fun s ↦ { s with
        ctx := s.ctx.install keys
        history := .keysAssigned t keys :: s.history }
  | calls (call : MachineCall Gk) : Action call.kind (call.update t)

/-- The program's actions are of the listed kinds. -/
abbrev ActsOf (kinds : List ActionKind) {α : Type} (p : Step τ Ct Gk α) : Prop :=
  Acts (fun u ↦ ∃ kind ∈ kinds, Action S m t kind u) p

variable {S m t} {kinds kinds' : List ActionKind}

theorem ActsOf.mono {α : Type} {p : Step τ Ct Gk α} (h : ActsOf S m t kinds p)
    (hsub : kinds ⊆ kinds') : ActsOf S m t kinds' p := by
  apply Acts.mono h
  rintro u ⟨kind, hmem, hu⟩
  exact ⟨kind, hsub hmem, hu⟩

/-- Every handler may log. -/
theorem ActsOf.quiet {α : Type} {p : Step τ Ct Gk α} (h : ActsOf S m t [.logs] p) :
    ActsOf S m t (.logs :: kinds) p :=
  h.mono (by simp)

theorem acts_quiet {α : Type} {f : ServerState τ Ct Gk → α × ServerState τ Ct Gk}
    (hctx : ∀ s, (f s).2.ctx = s.ctx) (hstate : ∀ s, (f s).2.sm.state = s.sm.state)
    (hmessage : ∀ s, (f s).2.sm.lastMessage = s.sm.lastMessage)
    (hhistory : ∀ s, (f s).2.history = s.history) : ActsOf S m t [.logs] (.atomically f) :=
  .atomically ⟨.logs, by simp, .logs hctx hstate hmessage fun s ↦ .inl (hhistory s)⟩

theorem acts_read {α : Type} (f : ServerState τ Ct Gk → α) : ActsOf S m t [.logs] (.read f) :=
  acts_quiet (fun _ ↦ rfl) (fun _ ↦ rfl) (fun _ ↦ rfl) fun _ ↦ rfl

theorem acts_call (call : MachineCall Gk) :
    ActsOf S m t [call.kind] (call.program t : Step τ Ct Gk Bool) := by
  have hcall : ∃ kind ∈ [call.kind], Action S m t kind (call.update t) :=
    ⟨call.kind, by simp, .calls call⟩
  cases call <;> exact .atomically hcall

theorem acts_provisioningGate (bytes : Bytes) :
    ActsOf S m t [.logs] (provisioningGate t bytes : Step τ Ct Gk _) := by
  refine .atomically ⟨.logs, by simp, .logs (fun _ ↦ rfl) (fun _ ↦ rfl) (fun _ ↦ rfl) ?_⟩
  intro s
  by_cases hstate : s.sm.state = awaitingKeys
  · exact .inr ⟨.passedGate t bytes, trivial, by simp [hstate]⟩
  · exact .inl (by simp [hstate])

theorem acts_forceFault (message : String) :
    ActsOf S m t [.forces] (forceFault message : Step τ Ct Gk Unit) :=
  .atomically ⟨.forces, by simp, .calls (.forceFault message)⟩

theorem acts_recordRequestAndMaybeTrip (checksPassed : Bool) (reason : String) :
    ActsOf S m t [.logs, .trips]
      (recordRequestAndMaybeTrip checksPassed reason : Step τ Ct Gk Bool) := by
  apply Acts.bind
  · exact ActsOf.quiet (acts_quiet (fun _ ↦ rfl) (fun _ ↦ rfl) (fun _ ↦ rfl) fun _ ↦ rfl)
  intro _
  cases checksPassed with
  | true => exact .pure _
  | false =>
      apply Acts.bind
      · exact ActsOf.quiet (acts_quiet (fun _ ↦ rfl) (fun _ ↦ rfl) (fun _ ↦ rfl) fun _ ↦ rfl)
      intro mismatches
      by_cases hcount : mismatches < ProvisioningStateMachine.kMaxContinuousMismatches
      · simpa only [hcount, if_true] using Acts.pure _
      · simp only [hcount, if_false]
        exact (acts_call (.maybeTrip reason)).mono (by simp [MachineCall.kind])

end Actions

/-! ## The handlers -/

section Handlers

variable {S : Seal Ct Pt Gk} {m : ServiceConstants Pt} {t : τ}

theorem acts_attempt {α : Type} {kinds : List ActionKind} (x : Except String α) :
    ActsOf S m t kinds (attempt x : ExceptT String (Prog (ServerState τ Ct Gk)) α).run :=
  .pure x

theorem acts_rotate {event : ℤ → Gk → Event τ Gk}
    (hevent : event = .canaryRotation t ∨ event = .inferenceRotation t) (acc : Ct) {step : ℤ}
    (hstep : step ∈ STEPS) : ActsOf S m t [.logs, .rotates] (rotate S event acc step).run := by
  apply Acts.bind
  · exact ActsOf.mono (acts_quiet (fun _ ↦ rfl) (fun _ ↦ rfl) (fun _ ↦ rfl) fun _ ↦ rfl) (by simp)
  · intro _
    exact .atomically ⟨.rotates, by simp, .rotates hevent hstep⟩

theorem acts_treeSum {event : ℤ → Gk → Event τ Gk}
    (hevent : event = .canaryRotation t ∨ event = .inferenceRotation t) (ct : Ct) :
    ActsOf S m t [.logs, .rotates] (treeSum S event ct).run := by
  apply Acts.foldlM
  intro acc step hstep
  apply Acts.except_bind (acts_rotate hevent acc hstep)
  intro tmp
  exact acts_attempt (S.add acc tmp)

theorem acts_canaryBlock (ciphertext : Bytes) :
    ActsOf S m t [.logs, .rotates] (canaryBlock S t ciphertext).run := by
  apply Acts.except_bind (acts_attempt _)
  intro ct
  by_cases hparms : S.parmsId ct = S.firstParmsId
  · simp only [hparms, ne_eq, not_true_eq_false, if_false]
    exact Acts.except_bind (acts_treeSum (.inl rfl) ct) fun acc ↦ .pure _
  · simp only [hparms, ne_eq, not_false_eq_true, if_true]
    exact .pure _

section Buffers

variable [DecidableEq τ]

theorem acts_setLocals {α : Type} {f : ServerState τ Ct Gk → α × ServerState τ Ct Gk}
    (hf : ∀ s, (f s).2 = s ∨ ∃ l o, (f s).2 = { s.setLocals t l with overran := o }) :
    ActsOf S m t [.logs] (.atomically f) := by
  apply acts_quiet
  all_goals
    intro s
    rcases hf s with h | ⟨l, o, h⟩
    · rw [h]
    · rw [h]
      rfl

theorem acts_saveOut (ct : Ct) :
    ActsOf S m t [.logs]
      (saveOut S t ct : ExceptT String (Prog (ServerState τ Ct Gk)) Bytes).run := by
  apply Acts.bind
  · exact acts_setLocals fun _ ↦ .inr ⟨_, _, rfl⟩
  · intro _
    exact Acts.bind (acts_read _) fun bytes ↦ .pure _

theorem acts_storeAccBuf (acc : Ct) :
    ActsOf S m t [.logs]
      (storeAccBuf t acc : ExceptT String (Prog (ServerState τ Ct Gk)) Unit).run :=
  Acts.bind (acts_setLocals fun s ↦ .inr ⟨_, s.overran, rfl⟩) fun _ ↦ .pure _

omit [DecidableEq τ] in
theorem acts_loadAccBuf :
    ActsOf S m t [.logs] (loadAccBuf t : ExceptT String (Prog (ServerState τ Ct Gk)) Ct).run := by
  apply Acts.bind (acts_read _)
  intro found
  cases found <;> exact .pure _

theorem acts_slotBlock (ct : Ct) : ActsOf S m t [.logs, .rotates] (slotBlock S m t ct).run := by
  apply Acts.except_bind (acts_attempt _)
  intro prod
  apply Acts.except_bind (acts_attempt _)
  intro scaled
  apply Acts.except_bind (acts_treeSum (.inr rfl) scaled)
  intro sum
  apply Acts.except_bind (ActsOf.quiet (acts_storeAccBuf sum))
  intro _
  apply Acts.except_bind (ActsOf.quiet acts_loadAccBuf)
  intro acc
  apply Acts.except_bind (acts_attempt _)
  intro out
  apply Acts.except_bind (ActsOf.quiet (acts_storeAccBuf out))
  intro _
  exact Acts.except_bind (ActsOf.quiet acts_loadAccBuf) fun saved ↦
    ActsOf.quiet (acts_saveOut saved)

theorem acts_cnpBlock (draws : Cnp.MaskDraws) (ct : Ct) :
    ActsOf S m t [.logs] (cnpBlock S m t draws ct).run := by
  apply Acts.except_bind (acts_read _)
  intro _
  apply Acts.except_bind (acts_read _)
  intro before
  apply Acts.except_bind (acts_attempt _)
  intro out
  apply Acts.except_bind (acts_read _)
  intro after
  by_cases hsame : after = before
  · simp only [hsame, ne_eq, not_true_eq_false, if_false]
    exact acts_saveOut out
  · simp only [hsame, ne_eq, not_false_eq_true, if_true]
    exact .pure _

theorem acts_score (req : InferenceRequest) (draws : Cnp.MaskDraws) (ct : Ct) :
    ActsOf S m t [.logs, .rotates] (score S m t req draws ct) := by
  apply Acts.bind
  · apply ActsOf.quiet
    refine acts_setLocals fun s ↦ ?_
    by_cases hsize : (s.locals t).ctBuf.size < CT_BUF
    · simp only [hsize, if_true]
      exact .inr ⟨_, s.overran, rfl⟩
    · simp only [hsize, if_false]
      exact .inl trivial
  · intro _
    by_cases hmode : m.packingMode = .cnp
    · simp only [hmode, if_true]
      apply Acts.bind (ActsOf.quiet (acts_cnpBlock draws ct))
      intro result
      cases result <;> exact .pure _
    · simp only [hmode, if_false]
      apply Acts.bind (acts_slotBlock ct)
      intro result
      cases result <;> exact .pure _

end Buffers

/-- A call that finds the wrong state reads it again for its answer. -/
theorem acts_late {α : Type} {f : ProvisioningState → ProvisioningState → α} :
    ActsOf S m t [.logs] (do
      let respState ← (currentState : Step τ Ct Gk _)
      let current ← currentState
      return f respState current) :=
  Acts.bind (acts_read _) fun _ ↦ Acts.bind (acts_read _) fun _ ↦ .pure _

/-- `CanaryCheck` looks at the state first and rotates only when it was
`PROV_VALIDATING`. -/
theorem canaryCheck_gated (hmode : m.packingMode = .slot) (ciphertext : Bytes) :
    ∃ late rest : Step τ Ct Gk Reply,
      canaryCheck S m t ciphertext = (do
        let state ← currentState
        if state ≠ validating then late else rest) ∧
      ActsOf S m t [.logs] late ∧ ActsOf S m t [.logs, .rotates, .forces] rest := by
  simp only [canaryCheck, hmode, reduceCtorEq, if_false]
  have hfault : ∀ message : String, ActsOf S m t [.logs, .rotates, .forces] (do
      forceFault message
      let respState ← currentState
      let message ← lastMessage
      return .canary respState [] message : Step τ Ct Gk Reply) := by
    intro message
    apply Acts.bind ((acts_forceFault message).mono (by simp))
    intro _
    have hread : ActsOf S m t [.logs] (do
        let respState ← currentState
        let message ← lastMessage
        return .canary respState [] message : Step τ Ct Gk Reply) :=
      Acts.bind (acts_read _) fun _ ↦ Acts.bind (acts_read _) fun _ ↦ .pure _
    exact hread.mono (by simp)
  refine ⟨_, _, rfl, ?_, ?_⟩
  · exact acts_late
  by_cases hsize : ciphertext.length > CT_BUF
  · simp only [hsize, if_true]
    exact hfault _
  simp only [hsize, if_false]
  apply Acts.bind ((acts_canaryBlock ciphertext).mono (by simp))
  intro result
  cases result with
  | error e => exact hfault _
  | ok bytes =>
      refine Acts.bind (.atomically ⟨.logs, by simp, ?_⟩) fun _ ↦ .pure _
      exact .logs (fun _ ↦ rfl) (fun _ ↦ rfl) (fun _ ↦ rfl) fun s ↦
        .inr ⟨.canaryReturned t, trivial, rfl⟩

theorem acts_canaryCheck (ciphertext : Bytes) :
    ActsOf S m t [.logs, .rotates, .forces] (canaryCheck S m t ciphertext) := by
  cases hmode : m.packingMode with
  | cnp =>
      simp only [canaryCheck, hmode, if_true]
      exact .pure _
  | slot =>
      obtain ⟨late, rest, heq, hlate, hrest⟩ := canaryCheck_gated (S := S) (t := t) hmode ciphertext
      rw [heq]
      apply Acts.bind (ActsOf.mono (acts_read _) (by simp))
      intro state
      by_cases hstate : state = validating
      · simpa only [hstate, ne_eq, not_true_eq_false, if_false] using hrest
      · simpa only [hstate, ne_eq, not_false_eq_true, if_true] using hlate.mono (by simp)

/-- A `RunInference` that is not refused looks at the state first and goes on
only when it was `PROV_READY`. -/
theorem runInference_gated [DecidableEq τ] (req : InferenceRequest) (draws : Cnp.MaskDraws)
    (h : ¬ Refused m req) :
    ∃ late rest : Step τ Ct Gk Reply,
      runInference S m t req draws = (do
        let state ← currentState
        if state ≠ ready then late else rest) ∧
      ActsOf S m t [.logs] late ∧ ActsOf S m t [.logs, .rotates, .trips] rest := by
  obtain ⟨hserver, hlanes⟩ := serverMode_of_not_refused m h
  simp only [runInference, hserver, ne_eq, not_true_eq_false, if_false, hlanes]
  refine ⟨_, _, rfl, ?_, ?_⟩
  · exact Acts.bind (acts_read _) fun _ ↦ .pure _
  have hfailed : ∀ (reply : Reply) (reason : String), ActsOf S m t [.logs, .rotates, .trips] (do
      let _ ← recordRequestAndMaybeTrip false reason
      return reply : Step τ Ct Gk Reply) := by
    intro reply reason
    refine Acts.bind ((acts_recordRequestAndMaybeTrip false reason).mono ?_) fun _ ↦ .pure _
    simp
  by_cases hsize : req.ciphertext.length > CT_BUF
  · simp only [hsize, if_true]
    exact hfailed _ _
  simp only [hsize, if_false]
  cases hload : S.load req.ciphertext with
  | error e => exact hfailed _ _
  | ok ct =>
      by_cases hparms : S.parmsId ct = S.firstParmsId
      · simp only [hparms, not_true_eq_false, if_false]
        apply Acts.bind ((acts_recordRequestAndMaybeTrip true "").mono (by simp))
        intro _
        exact (acts_score req draws ct).mono (by simp)
      · simp only [hparms, not_false_eq_true, if_true]
        exact hfailed _ _

theorem acts_runInference [DecidableEq τ] (req : InferenceRequest) (draws : Cnp.MaskDraws) :
    ActsOf S m t [.logs, .rotates, .trips] (runInference S m t req draws) := by
  by_cases hrefused : Refused m req
  · obtain ⟨code, message, heq⟩ := runInference_eq_refused S m t req draws hrefused
    rw [heq]
    exact .pure _
  · obtain ⟨late, rest, heq, hlate, hrest⟩ :=
      runInference_gated (S := S) (t := t) req draws hrefused
    rw [heq]
    apply Acts.bind (ActsOf.mono (acts_read _) (by simp))
    intro state
    by_cases hstate : state = ready
    · simpa only [hstate, ne_eq, not_true_eq_false, if_false] using hrest
    · simpa only [hstate, ne_eq, not_false_eq_true, if_true] using hlate.mono (by simp)

theorem acts_provisionGaloisKeys (galoisKeys : Bytes) :
    ActsOf S m t [.logs, .installs, .structural true, .structural false]
      (provisionGaloisKeys S m t galoisKeys) := by
  by_cases hmode : m.packingMode = .cnp
  · simp only [provisionGaloisKeys, hmode, if_true]
    exact .pure _
  simp only [provisionGaloisKeys, hmode, if_false]
  apply Acts.bind (ActsOf.quiet (acts_provisioningGate galoisKeys))
  intro state
  by_cases hstate : state = awaitingKeys
  swap
  · simp only [hstate, ne_eq, not_false_eq_true, if_true]
    exact ActsOf.quiet acts_late
  simp only [hstate, ne_eq, not_true_eq_false, if_false]
  have hanswer : ∀ message : String,
      ActsOf S m t [.logs, .installs, .structural true, .structural false] (do
        let respState ← currentState
        return .provision respState message : Step τ Ct Gk Reply) :=
    fun message ↦ ActsOf.quiet (Acts.bind (acts_read _) fun _ ↦ .pure _)
  cases hvalid : EvalContext160.validateGaloisKeys S m.packingMode galoisKeys with
  | error e =>
      apply Acts.bind ((acts_call (.onStructuralResult none _)).mono (by simp [MachineCall.kind]))
      exact fun _ ↦ hanswer _
  | ok keys =>
      apply Acts.bind (.modify ⟨.installs, by simp, .installs hvalid⟩)
      intro _
      apply Acts.bind
        ((acts_call (.onStructuralResult (some keys) _)).mono (by simp [MachineCall.kind]))
      exact fun _ ↦ hanswer _

theorem acts_canaryConfirm (passed : Bool) (message : String) :
    ActsOf S m t [.logs, .canary] (canaryConfirm t passed message : Step τ Ct Gk Reply) := by
  apply Acts.bind (ActsOf.quiet (acts_read _))
  intro state
  by_cases hstate : state = validating
  · simp only [hstate, ne_eq, not_true_eq_false, if_false]
    apply Acts.bind ((acts_call (.onCanaryResult passed _)).mono (by simp [MachineCall.kind]))
    exact fun _ ↦ ActsOf.quiet (Acts.bind (acts_read _) fun _ ↦ .pure _)
  · simp only [hstate, ne_eq, not_false_eq_true, if_true]
    exact ActsOf.quiet acts_late

theorem acts_getProvisioningStatus :
    ActsOf S m t [.logs] (getProvisioningStatus S m : Step τ Ct Gk Reply) := by
  refine Acts.bind (acts_read _) fun _ ↦ Acts.bind (acts_read _) fun _ ↦ ?_
  exact Acts.bind (acts_read _) fun _ ↦ Acts.bind (acts_read _) fun _ ↦ .pure _

def kinds : Rpc → List ActionKind
  | .provisionGaloisKeys _ => [.logs, .installs, .structural true, .structural false]
  | .canaryCheck _ => [.logs, .rotates, .forces]
  | .canaryConfirm _ _ => [.logs, .canary]
  | .getProvisioningStatus => [.logs]
  | .canaryCheckTranscipher _ _ => [.logs]
  | .runInference _ _ => [.logs, .rotates, .trips]

theorem acts_handle [DecidableEq τ] (rpc : Rpc) : ActsOf S m t (kinds rpc) (handle S m t rpc) := by
  cases rpc with
  | provisionGaloisKeys galoisKeys => exact acts_provisionGaloisKeys galoisKeys
  | canaryCheck ciphertext => exact acts_canaryCheck ciphertext
  | canaryConfirm passed message => exact acts_canaryConfirm passed message
  | getProvisioningStatus => exact acts_getProvisioningStatus
  | canaryCheckTranscipher symCiphertext nonce => exact Acts.bind (acts_read _) fun _ ↦ .pure _
  | runInference req draws => exact acts_runInference req draws

end Handlers

end ServerState
end Ppfdaas
