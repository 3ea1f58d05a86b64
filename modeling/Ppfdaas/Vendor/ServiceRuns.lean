import Ppfdaas.Vendor.InferenceService

/-!
# Sequential runs of the service

What one RPC does when no other handler interferes: one equation for each
handler, and from them the list of everything a call can do to the state
machine and to the installed keys.
-/

namespace Ppfdaas.ServerState

open Interleaving ProvisioningState

variable {τ Ct Pt Gk : Type}

/-! ## The blocks of the handlers on local values -/

section Blocks

variable (S : Seal Ct Pt Gk) (m : ServiceConstants Pt)

/-- The fold on fixed keys, without shared memory. -/
def pureTreeSum (keys : Gk) (ct : Ct) : Except String Ct :=
  hoistedTreeSum (fun acc step ↦ S.rotateVector acc step keys) S.add ct 256

/-- What `CanaryCheck` computes under the given keys. -/
def canaryResult (keys : Gk) (ciphertext : Bytes) : Except String Bytes := do
  let ct ← S.load ciphertext
  if S.parmsId ct ≠ S.firstParmsId then
    throw "canary ciphertext parms_id mismatch"
  let acc ← pureTreeSum S keys ct
  return S.save acc

/-- The SLOT circuit: product, rescale, fold, bias. -/
def slotCircuit (keys : Gk) (ct : Ct) : Except String Ct := do
  let ct ← S.multiplyPlain ct m.ptWeights
  let ct ← S.rescaleToNext ct
  let acc ← pureTreeSum S keys ct
  S.addPlain acc m.ptBias

/-- Whether a saved result goes past the end of a buffer of `size` bytes. -/
def overruns (size : ℕ) : Except String Bytes → Bool
  | .ok bytes => decide (size < bytes.length)
  | .error _ => false

/-- What `RunInference` computes for an accepted ciphertext. -/
def scoreResult (ctx : EvalContext160 Gk) (draws : Cnp.MaskDraws) (ct : Ct) :
    Except String Bytes :=
  if m.packingMode = .cnp then do
    ctx.assertNoGaloisKeys S
    let ct ← cnpProduct S m draws ct
    return S.save ct
  else do
    let acc ← slotCircuit S m ctx.galoisKeys ct
    return S.save acc

@[simp] theorem run_attempt {α : Type} (x : Except String α) (s : ServerState τ Ct Gk) :
    Prog.run (attempt x : ExceptT String (Prog (ServerState τ Ct Gk)) α).run s = (x, s) := rfl

theorem run_rotate (event : ℤ → Gk → Event τ Gk) (acc : Ct) (step : ℤ) (s : ServerState τ Ct Gk) :
    Prog.run (rotate S event acc step).run s =
      (S.rotateVector acc step s.ctx.galoisKeys,
        { s with
          rotationCalls := incr64 s.rotationCalls
          history := event step s.ctx.galoisKeys :: s.history }) := rfl

/-- A handler's fold computes the pure one on the keys it finds, and leaves
everything but the rotation counter and the log alone. -/
theorem run_foldSteps (event : ℤ → Gk → Event τ Gk) (steps : List ℤ) (acc : Ct)
    (s : ServerState τ Ct Gk) :
    ∃ calls log,
      Prog.run (steps.foldlM (m := ExceptT String (Prog (ServerState τ Ct Gk)))
        (fun acc step ↦ do
          let tmp ← rotate S event acc step
          attempt (S.add acc tmp)) acc).run s =
        (steps.foldlM (fun acc step ↦ do
          let tmp ← S.rotateVector acc step s.ctx.galoisKeys
          S.add acc tmp) acc,
        { s with rotationCalls := calls, history := log }) := by
  induction steps generalizing acc s with
  | nil => exact ⟨s.rotationCalls, s.history, rfl⟩
  | cons step steps ih =>
      simp only [List.foldlM_cons, ExceptT.run_bind, Prog.run_bind, run_rotate]
      cases hrot : S.rotateVector acc step s.ctx.galoisKeys with
      | error e => exact ⟨_, _, rfl⟩
      | ok tmp =>
          simp only [run_attempt]
          cases hadd : S.add acc tmp with
          | error e =>
              simp only [bind, Except.bind, hadd]
              exact ⟨_, _, rfl⟩
          | ok sum =>
              obtain ⟨calls, log, h⟩ := ih sum { s with
                rotationCalls := incr64 s.rotationCalls
                history := event step s.ctx.galoisKeys :: s.history }
              refine ⟨calls, log, ?_⟩
              simpa [bind, Except.bind, hadd] using h

theorem run_treeSum (event : ℤ → Gk → Event τ Gk) (ct : Ct) (s : ServerState τ Ct Gk) :
    ∃ calls log, Prog.run (treeSum S event ct).run s =
      (pureTreeSum S s.ctx.galoisKeys ct, { s with rotationCalls := calls, history := log }) :=
  run_foldSteps S event STEPS ct s

theorem run_canaryBlock (t : τ) (ciphertext : Bytes) (s : ServerState τ Ct Gk) :
    ∃ calls log, Prog.run (canaryBlock S t ciphertext).run s =
      (canaryResult S s.ctx.galoisKeys ciphertext,
        { s with rotationCalls := calls, history := log }) := by
  simp only [canaryBlock, canaryResult, ExceptT.run_bind, Prog.run_bind, run_attempt]
  cases hload : S.load ciphertext with
  | error e => exact ⟨_, _, rfl⟩
  | ok ct =>
      by_cases hparms : S.parmsId ct = S.firstParmsId
      · obtain ⟨calls, log, h⟩ := run_treeSum S (.canaryRotation t) ct s
        refine ⟨calls, log, ?_⟩
        simp only [hparms, ne_eq, not_true_eq_false, if_false, ExceptT.run_bind, Prog.run_bind, h]
        cases hsum : pureTreeSum S s.ctx.galoisKeys ct <;> simp [bind, Except.bind, hparms, hsum]
        all_goals rfl
      · exact ⟨s.rotationCalls, s.history, by simp [bind, Except.bind, hparms]; rfl⟩

section Locals

variable [DecidableEq τ]

@[simp] theorem setLocals_self (s : ServerState τ Ct Gk) (t : τ) (l : ThreadLocals Ct) :
    (s.setLocals t l).locals t = l := Function.update_self ..

@[simp] theorem setLocals_ctx (s : ServerState τ Ct Gk) (t : τ) (l : ThreadLocals Ct) :
    (s.setLocals t l).ctx = s.ctx := rfl

@[simp] theorem setLocals_setLocals (s : ServerState τ Ct Gk) (t : τ) (l l' : ThreadLocals Ct) :
    (s.setLocals t l).setLocals t l' = s.setLocals t l' := by
  simp [setLocals]

@[simp] theorem run_storeAccBuf (t : τ) (acc : Ct) (s : ServerState τ Ct Gk) :
    Prog.run (storeAccBuf t acc).run s =
      (.ok (), s.setLocals t { s.locals t with accBuf := some acc }) := rfl

@[simp] theorem run_loadAccBuf (t : τ) (acc : Ct) (s : ServerState τ Ct Gk)
    (l : ThreadLocals Ct) (h : l.accBuf = some acc) :
    Prog.run (loadAccBuf t).run (s.setLocals t l) = (.ok acc, s.setLocals t l) := by
  simp [loadAccBuf, accBuf, h]

theorem run_saveOut (t : τ) (ct : Ct) (s : ServerState τ Ct Gk) :
    ∃ l, Prog.run (saveOut S t ct).run s = (.ok (S.save ct),
      { s.setLocals t l with
        overran := s.overran || overruns (s.locals t).ctBuf.size (.ok (S.save ct)) }) := by
  refine ⟨{ s.locals t with
    ctBuf := (s.locals t).ctBuf.write (S.save ct), size_le := (s.locals t).size_le }, ?_⟩
  have hread := (s.locals t).ctBuf.read_write (S.save ct)
  rw [S.save_length] at hread
  simp [saveOut, writeCtBuf, readCtBuf, overruns, S.save_length, hread]

end Locals

/-- The state after a scored request: the counter, the log and the buffers have
changed, and an overlong result has gone behind the buffer. -/
theorem run_slotBlock [DecidableEq τ] (hmode : m.packingMode ≠ .cnp) (t : τ)
    (draws : Cnp.MaskDraws) (ct : Ct) (s : ServerState τ Ct Gk) :
    ∃ calls log locals, Prog.run (slotBlock S m t ct).run s =
      (scoreResult S m s.ctx draws ct,
        { s with
          rotationCalls := calls
          history := log
          locals := locals
          overran := s.overran ||
            overruns (s.locals t).ctBuf.size (scoreResult S m s.ctx draws ct) }) := by
  simp only [slotBlock, scoreResult, hmode, if_false, slotCircuit, Prog.run_except_bind,
    run_attempt]
  cases hmul : S.multiplyPlain ct m.ptWeights with
  | error e => exact ⟨_, _, _, by simp [bind, Except.bind, overruns]; rfl⟩
  | ok prod =>
      cases hscale : S.rescaleToNext prod with
      | error e => exact ⟨_, _, _, by simp [bind, Except.bind, hscale, overruns]; rfl⟩
      | ok ct' =>
          obtain ⟨calls, log, hsum⟩ := run_treeSum S (.inferenceRotation t) ct' s
          cases hacc : pureTreeSum S s.ctx.galoisKeys ct' with
          | error e =>
              rw [hacc] at hsum
              exact ⟨calls, log, _, by simp [bind, Except.bind, hscale, hacc, hsum, overruns]; rfl⟩
          | ok acc =>
              rw [hacc] at hsum
              cases hadd : S.addPlain acc m.ptBias with
              | error e => exact ⟨calls, log, _, by
                  simp [bind, Except.bind, hscale, hacc, hsum, hadd, overruns]; rfl⟩
              | ok out =>
                  obtain ⟨l, hsave⟩ := run_saveOut S t out
                    ({ s with rotationCalls := calls, history := log }.setLocals t
                      { s.locals t with accBuf := some out })
                  exact ⟨calls, log, _, by
                    simp [bind, Except.bind, hscale, hacc, hsum, hadd, hsave]
                    exact ⟨rfl, rfl, rfl, rfl, rfl, rfl⟩⟩

theorem run_cnpBlock [DecidableEq τ] (hmode : m.packingMode = .cnp) (t : τ)
    (draws : Cnp.MaskDraws) (ct : Ct) (s : ServerState τ Ct Gk) :
    ∃ locals, Prog.run (cnpBlock S m t draws ct).run s =
      (scoreResult S m s.ctx draws ct,
        { s with
          locals := locals
          overran := s.overran ||
            overruns (s.locals t).ctBuf.size (scoreResult S m s.ctx draws ct) }) := by
  simp only [cnpBlock, scoreResult, hmode, if_true, Prog.run_except_bind, run_attempt]
  cases hkeys : s.ctx.assertNoGaloisKeys S with
  | error e => exact ⟨_, by simp [bind, Except.bind, hkeys, overruns]; rfl⟩
  | ok u =>
      cases hprod : cnpProduct S m draws ct with
      | error e => exact ⟨_, by simp [bind, Except.bind, hkeys, overruns]; rfl⟩
      | ok out =>
          obtain ⟨l, hsave⟩ := run_saveOut S t out s
          exact ⟨(s.setLocals t l).locals, by
            simp [bind, Except.bind, hkeys, hsave]
            exact ⟨rfl, rfl, rfl, rfl, rfl⟩⟩

end Blocks

/-! ## One equation for each handler -/

section Handlers

variable (S : Seal Ct Pt Gk) (m : ServiceConstants Pt)

@[simp] theorem run_currentState (s : ServerState τ Ct Gk) :
    (currentState : Step τ Ct Gk _).run s = (s.sm.state, s) := rfl

@[simp] theorem run_lastMessage (s : ServerState τ Ct Gk) :
    (lastMessage : Step τ Ct Gk _).run s = (s.sm.lastMessage, s) := rfl

@[simp] theorem run_forceFault (message : String) (s : ServerState τ Ct Gk) :
    (forceFault message : Step τ Ct Gk _).run s =
      ((), { s with sm := s.sm.forceFault message }) := rfl

theorem run_recordRequestAndMaybeTrip (checksPassed : Bool) (reason : String)
    (s : ServerState τ Ct Gk) :
    (recordRequestAndMaybeTrip checksPassed reason).run s =
      ((s.sm.recordRequestAndMaybeTrip checksPassed reason).1,
        { s with sm := (s.sm.recordRequestAndMaybeTrip checksPassed reason).2 }) := by
  cases checksPassed with
  | true => rfl
  | false =>
      by_cases hcount : s.sm.incrTotalRequests.incrMismatchCount.mismatchCount <
          ProvisioningStateMachine.kMaxContinuousMismatches <;>
        simp [recordRequestAndMaybeTrip, ProvisioningStateMachine.recordRequestAndMaybeTrip,
          hcount]

/-- The per-request checks of `RunInference`; an error carries the response's
status and text and the reason recorded with the failure. -/
def perRequestChecks (req : InferenceRequest) :
    Except (InferenceStatus × String × String) Ct :=
  if req.ciphertext.length > CT_BUF then
    .error (.errMalformedCiphertext, "Ciphertext exceeds 320 KB max",
      "RunInference: oversized ciphertext")
  else
    match S.load req.ciphertext with
    | .error e => .error (.errMalformedCiphertext, e, "RunInference: malformed ciphertext")
    | .ok ct =>
        if S.parmsId ct ≠ S.firstParmsId then
          .error (.errParamMismatch, "parms_id mismatch: client/server SEAL params differ",
            "PROV_FAULT: repeated parms_id mismatches on RunInference -- " ++
              "continuous validation (§1.5 rung c) tripped")
        else .ok ct

/-- The requests that `RunInference` refuses before it looks at the state. -/
def Refused (req : InferenceRequest) : Prop :=
  req.packingMode ≠ (if m.packingMode = .cnp then .cnp else .slot) ∨
    (m.packingMode = .cnp ∧ (req.nTransactions < 1 ∨ req.nTransactions > Cnp.kMaxLanes))

instance (req : InferenceRequest) : Decidable (Refused m req) := by
  unfold Refused
  infer_instance

/-- The reply for a ciphertext that passed the checks. -/
def scoreReply (req : InferenceRequest) (result : Except String Bytes) : Reply :=
  match result with
  | .ok bytes => .inference ⟨.ok, bytes, req.requestId, ""⟩
  | .error e => failed req .errInternal e

/-- A request that is not refused passes both gates. -/
theorem serverMode_of_not_refused {req : InferenceRequest} (h : ¬ Refused m req) :
    req.packingMode = (if m.packingMode = .cnp then .cnp else .slot) ∧
      ¬ ((if m.packingMode = .cnp then PackingMode.cnp else .slot) = .cnp ∧
        (req.nTransactions < 1 ∨ req.nTransactions > Cnp.kMaxLanes)) := by
  obtain ⟨hmode, hlanes⟩ := not_or.mp h
  refine ⟨not_not.mp hmode, ?_⟩
  by_cases hcnp : m.packingMode = .cnp
  · simpa [hcnp] using hlanes
  · simp [hcnp]

section RunInference

variable [DecidableEq τ]

theorem run_resizeCtBuf (t : τ) (s : ServerState τ Ct Gk) :
    ∃ l : ThreadLocals Ct, l.ctBuf.size = CT_BUF ∧
      (resizeCtBuf t).run s = ((), s.setLocals t l) := by
  by_cases h : (s.locals t).ctBuf.size < CT_BUF
  · refine ⟨{ s.locals t with ctBuf := (s.locals t).ctBuf.resize CT_BUF 0, size_le := le_rfl },
      rfl, ?_⟩
    simp [resizeCtBuf, h]
  · refine ⟨s.locals t, (s.locals t).size_le.antisymm (Nat.le_of_not_lt h), ?_⟩
    simp [resizeCtBuf, h, setLocals]

theorem run_score (t : τ) (req : InferenceRequest) (draws : Cnp.MaskDraws) (ct : Ct)
    (s : ServerState τ Ct Gk) :
    ∃ calls log locals, (score S m t req draws ct).run s =
      (scoreReply req (scoreResult S m s.ctx draws ct),
        { s with
          rotationCalls := calls
          history := log
          locals := locals
          overran := s.overran || overruns CT_BUF (scoreResult S m s.ctx draws ct) }) := by
  obtain ⟨l, hl, hresize⟩ := run_resizeCtBuf t s
  by_cases hmode : m.packingMode = .cnp
  · obtain ⟨locals, hblock⟩ := run_cnpBlock S m hmode t draws ct (s.setLocals t l)
    refine ⟨s.rotationCalls, s.history, locals, ?_⟩
    simp only [setLocals_self, setLocals_ctx, hl] at hblock
    simp only [score, Prog.run_bind, hresize, hmode, if_true, hblock]
    cases scoreResult S m s.ctx draws ct <;> rfl
  · obtain ⟨calls, log, locals, hblock⟩ := run_slotBlock S m hmode t draws ct (s.setLocals t l)
    refine ⟨calls, log, locals, ?_⟩
    simp only [setLocals_self, setLocals_ctx, hl] at hblock
    simp only [score, Prog.run_bind, hresize, hmode, if_false, hblock]
    cases scoreResult S m s.ctx draws ct <;> rfl

theorem runInference_eq_refused (t : τ) (req : InferenceRequest) (draws : Cnp.MaskDraws)
    (h : Refused m req) :
    ∃ code message, (runInference S m t req draws : Step τ Ct Gk Reply) =
      pure (.refused code message) := by
  by_cases hmode : req.packingMode = (if m.packingMode = .cnp then .cnp else .slot)
  · obtain ⟨hcnp, hlanes⟩ := h.resolve_left (not_not_intro hmode)
    simp only [runInference, hmode, hcnp, hlanes, ne_eq, not_true_eq_false, if_false, if_true,
      and_self]
    exact ⟨_, _, rfl⟩
  · simp only [runInference, ne_eq, hmode, not_false_eq_true, if_true]
    exact ⟨_, _, rfl⟩

theorem run_runInference_refused (t : τ) (req : InferenceRequest) (draws : Cnp.MaskDraws)
    (s : ServerState τ Ct Gk) (h : Refused m req) :
    ∃ code message, (runInference S m t req draws).run s = (.refused code message, s) := by
  obtain ⟨code, message, heq⟩ := runInference_eq_refused S m t req draws h
  exact ⟨code, message, by rw [heq]; rfl⟩

theorem run_runInference_accepted (t : τ) (req : InferenceRequest) (draws : Cnp.MaskDraws)
    (s : ServerState τ Ct Gk) (h : ¬ Refused m req) :
    (runInference S m t req draws).run s =
      if s.sm.state ≠ ready then
        (failed req .errNotProvisioned
          ("server is not provisioned (state=" ++ s.sm.state.name ++
            "); inference is refused until the provisioning handshake completes"), s)
      else
        match perRequestChecks S req with
        | .error (status, message, reason) =>
            (failed req status message,
              { s with sm := (s.sm.recordRequestAndMaybeTrip false reason).2 })
        | .ok ct => (score S m t req draws ct).run { s with sm := s.sm.incrTotalRequests } := by
  obtain ⟨hmode, hlanes⟩ := serverMode_of_not_refused m h
  simp only [runInference, hmode, ne_eq, not_true_eq_false, if_false, hlanes, Prog.run_bind,
    run_currentState]
  by_cases hstate : s.sm.state = ready
  · simp only [hstate, not_true_eq_false, if_false, perRequestChecks]
    by_cases hsize : req.ciphertext.length > CT_BUF
    · simp only [hsize, if_true, Prog.run_bind, run_recordRequestAndMaybeTrip]
      rfl
    · simp only [hsize, if_false]
      cases hload : S.load req.ciphertext with
      | error e =>
          simp only [Prog.run_bind, run_recordRequestAndMaybeTrip]
          rfl
      | ok ct =>
          by_cases hparms : S.parmsId ct = S.firstParmsId
          · simp only [hparms, ne_eq, not_true_eq_false, if_false, Prog.run_bind,
              run_recordRequestAndMaybeTrip,
              ProvisioningStateMachine.recordRequestAndMaybeTrip_passed]
          · simp only [hparms, ne_eq, not_false_eq_true, if_true, Prog.run_bind,
              run_recordRequestAndMaybeTrip]
            rfl
  · simp only [hstate, not_false_eq_true, if_true, Prog.run_bind, run_currentState]
    rfl

theorem run_runInference_scored (t : τ) (req : InferenceRequest) (draws : Cnp.MaskDraws)
    {s : ServerState τ Ct Gk} (h : ¬ Refused m req) (hready : s.sm.state = ready) {ct : Ct}
    (hchecks : perRequestChecks S req = .ok ct) :
    ((runInference S m t req draws).run s).1 =
      scoreReply req (scoreResult S m s.ctx draws ct) := by
  obtain ⟨calls, log, locals, hrun⟩ :=
    run_score S m t req draws ct { s with sm := s.sm.incrTotalRequests }
  rw [run_runInference_accepted S m t req draws s h, hchecks]
  simp only [hready, ne_eq, not_true_eq_false, if_false, hrun]

/-! ### Results that fit into the buffer -/

/-- The result of a request, if it has one, fits into the buffer. -/
def Fits (m : ServiceConstants Pt) (ctx : EvalContext160 Gk) (req : InferenceRequest)
    (draws : Cnp.MaskDraws) : Prop :=
  ∀ ct bytes, ¬ Refused m req → perRequestChecks S req = .ok ct →
    scoreResult S m ctx draws ct = .ok bytes → bytes.length ≤ CT_BUF

/-- What `RunInference` computes is a saved ciphertext. -/
theorem scoreResult_saved {ctx : EvalContext160 Gk} {draws : Cnp.MaskDraws} {ct : Ct}
    {bytes : Bytes} (h : scoreResult S m ctx draws ct = .ok bytes) : ∃ out, bytes = S.save out := by
  by_cases hmode : m.packingMode = .cnp
  · simp only [scoreResult, hmode, if_true, bind, Except.bind] at h
    split at h
    · simp at h
    · split at h
      · simp at h
      · exact ⟨_, (Except.ok.inj h).symm⟩
  · simp only [scoreResult, hmode, if_false, bind, Except.bind] at h
    split at h
    · simp at h
    · exact ⟨_, (Except.ok.inj h).symm⟩

theorem fits_of_saveSize (h : ∀ ct, S.saveSize ct ≤ CT_BUF) (ctx : EvalContext160 Gk)
    (req : InferenceRequest) (draws : Cnp.MaskDraws) : Fits S m ctx req draws := by
  intro ct bytes _ _ hscore
  obtain ⟨out, rfl⟩ := scoreResult_saved S m hscore
  exact (S.save_length out).le.trans (h out)

/-- The requests whose handler writes behind the buffer. -/
theorem overran_run_iff (t : τ) {s : ServerState τ Ct Gk}
    (hready : s.sm.state = ready) (hover : s.overran = false) (req : InferenceRequest)
    (draws : Cnp.MaskDraws) :
    ((runInference S m t req draws).run s).2.overran = true ↔ ¬ Fits S m s.ctx req draws := by
  by_cases hrefused : Refused m req
  · obtain ⟨code, message, hrun⟩ := run_runInference_refused S m t req draws s hrefused
    simp [hrun, hover, Fits, hrefused]
  rw [run_runInference_accepted S m t req draws s hrefused]
  simp only [hready, ne_eq, not_true_eq_false, if_false]
  cases hchecks : perRequestChecks S req with
  | error failure => simp [Fits, hchecks, hover]
  | ok ct =>
      obtain ⟨calls, log, locals, hrun⟩ :=
        run_score S m t req draws ct { s with sm := s.sm.incrTotalRequests }
      simp only [hrun]
      cases hscore : scoreResult S m s.ctx draws ct with
      | error e => simp [hover, overruns, Fits, hchecks, hscore]
      | ok bytes => simp [hover, overruns, Fits, hrefused, hchecks, hscore]

end RunInference

end Handlers

/-! ## Everything a call can do to a SLOT-mode server -/

/-- The effect of one RPC on the state machine and the installed keys, with
its reply. -/
inductive SlotStep (S : Seal Ct Pt Gk) (s s' : ServerState τ Ct Gk) : Rpc → Reply → Prop
  | provisionRejected (bytes : Bytes) (message : String) (hstate : s.sm.state ≠ awaitingKeys)
      (hsame : s' = s) :
      SlotStep S s s' (.provisionGaloisKeys bytes) (.provision s.sm.state message)
  | provisioned (bytes : Bytes) (keys : Gk) (message : String)
      (hstate : s.sm.state = awaitingKeys)
      (hvalid : EvalContext160.validateGaloisKeys S .slot bytes = .ok keys)
      (hstate' : s'.sm.state = validating) (hctx : s'.ctx = s.ctx.install keys)
      (hcount : s'.sm.mismatchCount = s.sm.mismatchCount) :
      SlotStep S s s' (.provisionGaloisKeys bytes) (.provision validating message)
  | provisionFailed (bytes : Bytes) (error message : String) (hstate : s.sm.state = awaitingKeys)
      (hinvalid : EvalContext160.validateGaloisKeys S .slot bytes = .error error)
      (hstate' : s'.sm.state = fault) (hctx : s'.ctx = s.ctx)
      (hcount : s'.sm.mismatchCount = s.sm.mismatchCount) :
      SlotStep S s s' (.provisionGaloisKeys bytes) (.provision fault message)
  | canaryRejected (ciphertext : Bytes) (message : String) (hstate : s.sm.state ≠ validating)
      (hsame : s' = s) :
      SlotStep S s s' (.canaryCheck ciphertext) (.canary s.sm.state [] message)
  | canaryReturned (ciphertext result : Bytes) (message : String)
      (hstate : s.sm.state = validating) (hsize : ciphertext.length ≤ CT_BUF)
      (hresult : canaryResult S s.ctx.galoisKeys ciphertext = .ok result)
      (hstate' : s'.sm.state = validating) (hctx : s'.ctx = s.ctx)
      (hcount : s'.sm.mismatchCount = s.sm.mismatchCount) :
      SlotStep S s s' (.canaryCheck ciphertext) (.canary validating result message)
  | canaryFailed (ciphertext : Bytes) (message : String) (hstate : s.sm.state = validating)
      (hfailed : CT_BUF < ciphertext.length ∨
        ∃ error, canaryResult S s.ctx.galoisKeys ciphertext = .error error)
      (hstate' : s'.sm.state = fault) (hctx : s'.ctx = s.ctx)
      (hcount : s'.sm.mismatchCount = s.sm.mismatchCount) :
      SlotStep S s s' (.canaryCheck ciphertext) (.canary fault [] message)
  | confirmRejected (passed : Bool) (note message : String) (hstate : s.sm.state ≠ validating)
      (hsame : s' = s) :
      SlotStep S s s' (.canaryConfirm passed note) (.confirm s.sm.state message)
  | confirmed (passed : Bool) (note message : String) (hstate : s.sm.state = validating)
      (hstate' : s'.sm.state = if passed then ready else fault) (hctx : s'.ctx = s.ctx)
      (hcount : s'.sm.mismatchCount = s.sm.mismatchCount) :
      SlotStep S s s' (.canaryConfirm passed note)
        (.confirm (if passed then ready else fault) message)
  | inference (req : InferenceRequest) (draws : Cnp.MaskDraws) (reply : Reply)
      (hready : ∀ resp, reply = .inference resp → resp.status = .ok → s.sm.state = ready)
      (hstate' : s'.sm.state = s.sm.state ∨ (s.sm.state = ready ∧ s'.sm.state = fault))
      (hctx : s'.ctx = s.ctx) (hidle : s.sm.state ≠ ready → s' = s) :
      SlotStep S s s' (.runInference req draws) reply
  | status (reply : Reply) (hsame : s' = s) : SlotStep S s s' .getProvisioningStatus reply
  | transcipher (symCiphertext nonce : Bytes) (reply : Reply) (hsame : s' = s) :
      SlotStep S s s' (.canaryCheckTranscipher symCiphertext nonce) reply

section SlotMode

variable (S : Seal Ct Pt Gk) {m : ServiceConstants Pt}

theorem slotStep_provision (hmode : m.packingMode = .slot) (t : τ) (bytes : Bytes)
    (s : ServerState τ Ct Gk) :
    SlotStep S s ((provisionGaloisKeys S m t bytes).run s).2 (.provisionGaloisKeys bytes)
      ((provisionGaloisKeys S m t bytes).run s).1 := by
  by_cases hstate : s.sm.state = awaitingKeys
  · cases hvalid : EvalContext160.validateGaloisKeys S .slot bytes with
    | ok keys =>
        simp only [provisionGaloisKeys, provisioningGate, hmode, hstate, hvalid, installGaloisKeys,
          onStructuralResult, Prog.run_bind, run_currentState, Prog.run_modify,
          Prog.run_atomically, ne_eq, not_true_eq_false, if_false, reduceCtorEq,
          Option.isSome_some,
          ProvisioningStateMachine.onStructuralResult_of_awaitingKeys _ hstate]
        exact .provisioned bytes keys _ hstate hvalid rfl rfl rfl
    | error e =>
        simp only [provisionGaloisKeys, provisioningGate, hmode, hstate, hvalid, onStructuralResult,
          Prog.run_bind, run_currentState, Prog.run_atomically, ne_eq, not_true_eq_false,
          if_false, reduceCtorEq, Option.isSome_none,
          ProvisioningStateMachine.onStructuralResult_of_awaitingKeys _ hstate]
        exact .provisionFailed bytes e _ hstate hvalid rfl rfl rfl
  · simp only [provisionGaloisKeys, provisioningGate, hmode, hstate, Prog.run_bind,
      Prog.run_atomically, run_currentState, ne_eq, not_false_eq_true, if_true, if_false,
      reduceCtorEq]
    exact .provisionRejected bytes _ hstate rfl

theorem slotStep_canaryCheck (hmode : m.packingMode = .slot) (t : τ) (ciphertext : Bytes)
    (s : ServerState τ Ct Gk) :
    SlotStep S s ((canaryCheck S m t ciphertext).run s).2 (.canaryCheck ciphertext)
      ((canaryCheck S m t ciphertext).run s).1 := by
  by_cases hstate : s.sm.state = validating
  · by_cases hsize : ciphertext.length > CT_BUF
    · simp only [canaryCheck, hmode, hstate, hsize, Prog.run_bind, run_currentState,
        run_forceFault, run_lastMessage, ne_eq, not_true_eq_false, if_true, if_false,
        reduceCtorEq]
      exact .canaryFailed ciphertext _ hstate (.inl hsize) rfl rfl rfl
    · obtain ⟨calls, log, hrun⟩ := run_canaryBlock S t ciphertext s
      cases hresult : canaryResult S s.ctx.galoisKeys ciphertext with
      | ok result =>
          simp only [canaryCheck, hmode, hstate, hsize, Prog.run_bind, run_currentState, ne_eq,
            not_true_eq_false, if_false, reduceCtorEq, hrun, hresult, Prog.run_atomically]
          exact .canaryReturned ciphertext result _ hstate (Nat.le_of_not_lt hsize) hresult hstate
            rfl rfl
      | error e =>
          simp only [canaryCheck, hmode, hstate, hsize, Prog.run_bind, run_currentState, ne_eq,
            not_true_eq_false, if_false, reduceCtorEq, hrun, hresult, run_forceFault,
            run_lastMessage]
          exact .canaryFailed ciphertext _ hstate (.inr ⟨e, hresult⟩) rfl rfl rfl
  · simp only [canaryCheck, hmode, hstate, Prog.run_bind, run_currentState, ne_eq,
      not_false_eq_true, if_true, if_false, reduceCtorEq]
    exact .canaryRejected ciphertext _ hstate rfl

theorem slotStep_canaryConfirm (t : τ) (passed : Bool) (note : String)
    (s : ServerState τ Ct Gk) :
    SlotStep S s ((canaryConfirm t passed note).run s).2 (.canaryConfirm passed note)
      ((canaryConfirm t passed note : Step τ Ct Gk Reply).run s).1 := by
  by_cases hstate : s.sm.state = validating
  · simp only [canaryConfirm, onCanaryResult, hstate, Prog.run_bind, run_currentState,
      Prog.run_atomically, ne_eq, not_true_eq_false, if_false,
      ProvisioningStateMachine.onCanaryResult_of_validating _ hstate]
    exact .confirmed passed note _ hstate rfl rfl rfl
  · simp only [canaryConfirm, hstate, Prog.run_bind, run_currentState, ne_eq,
      not_false_eq_true, if_true]
    exact .confirmRejected passed note _ hstate rfl

theorem slotStep_runInference [DecidableEq τ] (t : τ) (req : InferenceRequest)
    (draws : Cnp.MaskDraws) (s : ServerState τ Ct Gk) :
    SlotStep S s ((runInference S m t req draws).run s).2 (.runInference req draws)
      ((runInference S m t req draws).run s).1 := by
  by_cases hrefused : Refused m req
  · obtain ⟨code, message, hrun⟩ := run_runInference_refused S m t req draws s hrefused
    rw [hrun]
    exact .inference req draws _ (by simp) (.inl rfl) rfl fun _ ↦ rfl
  rw [run_runInference_accepted S m t req draws s hrefused]
  by_cases hstate : s.sm.state = ready
  · simp only [hstate, ne_eq, not_true_eq_false, if_false]
    cases hchecks : perRequestChecks S req with
    | error failure =>
        obtain ⟨status, message, reason⟩ := failure
        refine .inference req draws _ (fun _ _ _ ↦ hstate) ?_ rfl fun hne ↦ absurd hstate hne
        exact s.sm.recordRequestAndMaybeTrip_state_of_ready hstate false reason
    | ok ct =>
        obtain ⟨calls, log, locals, hrun⟩ :=
          run_score S m t req draws ct { s with sm := s.sm.incrTotalRequests }
        simp only [hrun]
        exact .inference req draws _ (fun _ _ _ ↦ hstate) (.inl rfl) rfl fun hne ↦ absurd hstate hne
  · simp only [hstate, ne_eq, not_false_eq_true, if_true]
    refine .inference req draws _ ?_ (.inl rfl) rfl fun _ ↦ rfl
    intro resp hresp hok
    simp only [failed, Reply.inference.injEq] at hresp
    subst hresp
    simp at hok

theorem slotStep_handle [DecidableEq τ] (hmode : m.packingMode = .slot) (t : τ) (rpc : Rpc)
    (s : ServerState τ Ct Gk) :
    SlotStep S s ((handle S m t rpc).run s).2 rpc ((handle S m t rpc).run s).1 := by
  cases rpc with
  | provisionGaloisKeys bytes => exact slotStep_provision S hmode t bytes s
  | canaryCheck ciphertext => exact slotStep_canaryCheck S hmode t ciphertext s
  | canaryConfirm passed note => exact slotStep_canaryConfirm S t passed note s
  | getProvisioningStatus => exact .status _ rfl
  | canaryCheckTranscipher symCiphertext nonce => exact .transcipher symCiphertext nonce _ rfl
  | runInference req draws => exact slotStep_runInference S t req draws s

end SlotMode

/-! ## Calls interleaved, and calls served one after another -/

section Sequences

variable [DecidableEq τ] (S : Seal Ct Pt Gk) (m : ServiceConstants Pt)

/-- The service at work: the calls of a schedule, interleaved from `s` on. -/
abbrev serve (s : ServerState τ Ct Gk) (schedule : List (Choice τ Rpc)) :
    Config (ServerState τ Ct Gk) τ Rpc Reply :=
  (Config.idle s).run (handle S m) schedule

/-- The server after a list of calls, each with the thread that serves it. -/
def serveAll (s : ServerState τ Ct Gk) (calls : List (τ × Rpc)) : ServerState τ Ct Gk :=
  calls.foldl (fun s call ↦ ((handle S m call.1 call.2).run s).2) s

@[simp] theorem serveAll_concat (s : ServerState τ Ct Gk) (calls : List (τ × Rpc)) (t : τ)
    (rpc : Rpc) :
    serveAll S m s (calls ++ [(t, rpc)]) = ((handle S m t rpc).run (serveAll S m s calls)).2 := by
  simp [serveAll]

abbrev after (noKeys : Gk) (calls : List (τ × Rpc)) : ServerState τ Ct Gk :=
  serveAll S m (new m.packingMode noKeys) calls

end Sequences

end Ppfdaas.ServerState
