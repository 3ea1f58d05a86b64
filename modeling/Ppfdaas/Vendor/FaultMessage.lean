import Ppfdaas.Vendor.HandlerActions

/-!
# The message of a fault

`GetProvisioningStatus` reports `last_message_`, and three of the four writers
of the state machine replace it before they look at the state.  A call that
comes too late is turned down and still leaves its message behind.
-/

namespace Ppfdaas

open Interleaving ProvisioningState

variable {τ Ct Pt Gk : Type}

namespace MachineCall

/-- The machine refuses the call, or is asked for a fault it already has. -/
def TurnedDown (sm : ProvisioningStateMachine) : MachineCall Gk → Prop
  | forceFault _ => sm.state = fault
  | call => (call.apply sm).1 = false

/-- The call comes in the state it is meant for, or brings the message that is
already there. -/
def Timely (sm : ProvisioningStateMachine) : MachineCall Gk → Prop
  | onStructuralResult _ message => sm.state = awaitingKeys ∨ sm.lastMessage = message
  | onCanaryResult _ message => sm.state = validating ∨ sm.lastMessage = message
  | maybeTrip _ => True
  | forceFault message => sm.state ≠ fault ∨ sm.lastMessage = message

/-- Replacing the message changes nothing only if it is the same. -/
theorem eq_setMessage_iff {sm : ProvisioningStateMachine} {message : String} :
    { sm with lastMessage := message } = sm ↔ sm.lastMessage = message := by
  constructor
  · intro h
    exact (congrArg ProvisioningStateMachine.lastMessage h).symm
  · rintro rfl
    rfl

theorem unchanged_iff_timely (sm : ProvisioningStateMachine) (call : MachineCall Gk) :
    (call.TurnedDown sm → (call.apply sm).2 = sm) ↔ call.Timely sm := by
  cases call with
  | onStructuralResult candidate message =>
      simp only [TurnedDown, Timely, apply]
      by_cases hstate : sm.state = awaitingKeys
      · simp [ProvisioningStateMachine.onStructuralResult_of_awaitingKeys _ hstate, hstate]
      · simp only [ProvisioningStateMachine.onStructuralResult_of_ne _ hstate, hstate, false_or,
          true_implies]
        exact eq_setMessage_iff
  | onCanaryResult passed message =>
      simp only [TurnedDown, Timely, apply]
      by_cases hstate : sm.state = validating
      · simp [ProvisioningStateMachine.onCanaryResult_of_validating _ hstate, hstate]
      · simp only [ProvisioningStateMachine.onCanaryResult_of_ne _ hstate, hstate, false_or,
          true_implies]
        exact eq_setMessage_iff
  | maybeTrip reason =>
      simp only [TurnedDown, Timely, apply, iff_true]
      intro hfalse
      by_cases hstate : sm.state = ready
      · simp [ProvisioningStateMachine.maybeTrip, hstate] at hfalse
      · simp [ProvisioningStateMachine.maybeTrip, hstate]
  | forceFault message =>
      simp only [TurnedDown, Timely, apply]
      by_cases hstate : sm.state = fault
      · have hforce : sm.forceFault message = { sm with lastMessage := message } := by
          simp [ProvisioningStateMachine.forceFault, ← hstate]
        rw [hforce, eq_setMessage_iff]
        simp [hstate]
      · simp [hstate]

theorem turnedDown_of_fault {sm : ProvisioningStateMachine} (h : sm.state = fault)
    (call : MachineCall Gk) : call.TurnedDown sm := by
  cases call with
  | onStructuralResult candidate message =>
      have hne : sm.state ≠ awaitingKeys := by simp [h]
      simp [TurnedDown, apply, ProvisioningStateMachine.onStructuralResult_of_ne _ hne]
  | onCanaryResult passed message =>
      have hne : sm.state ≠ validating := by simp [h]
      simp [TurnedDown, apply, ProvisioningStateMachine.onCanaryResult_of_ne _ hne]
  | maybeTrip reason => simp [TurnedDown, apply, ProvisioningStateMachine.maybeTrip, h]
  | forceFault message => exact h

theorem apply_fault {sm : ProvisioningStateMachine} (h : sm.state = fault)
    (call : MachineCall Gk) : (call.apply sm).2.state = fault := by
  cases call with
  | onStructuralResult candidate message =>
      have hne : sm.state ≠ awaitingKeys := by simp [h]
      simpa [apply, ProvisioningStateMachine.onStructuralResult_of_ne _ hne] using h
  | onCanaryResult passed message =>
      have hne : sm.state ≠ validating := by simp [h]
      simpa [apply, ProvisioningStateMachine.onCanaryResult_of_ne _ hne] using h
  | maybeTrip reason => simp [apply, ProvisioningStateMachine.maybeTrip, h]
  | forceFault message => rfl

/-- The call that leads to `PROV_FAULT` leaves its message there. -/
theorem lastMessage_of_faulted {sm : ProvisioningStateMachine} (h : sm.state ≠ fault)
    {call : MachineCall Gk} (hfault : (call.apply sm).2.state = fault) :
    (call.apply sm).2.lastMessage = call.message := by
  cases call with
  | onStructuralResult candidate message =>
      by_cases hstate : sm.state = awaitingKeys
      · simp [apply, ProvisioningStateMachine.onStructuralResult_of_awaitingKeys _ hstate,
          MachineCall.message]
      · simp [apply, ProvisioningStateMachine.onStructuralResult_of_ne _ hstate,
          MachineCall.message]
  | onCanaryResult passed message =>
      by_cases hstate : sm.state = validating
      · simp [apply, ProvisioningStateMachine.onCanaryResult_of_validating _ hstate,
          MachineCall.message]
      · simp [apply, ProvisioningStateMachine.onCanaryResult_of_ne _ hstate, MachineCall.message]
  | maybeTrip reason =>
      by_cases hstate : sm.state = ready
      · simp [apply, ProvisioningStateMachine.maybeTrip, hstate, MachineCall.message]
      · simp only [apply, ProvisioningStateMachine.maybeTrip, hstate, if_false] at hfault
        exact absurd hfault h
  | forceFault message => rfl

end MachineCall

namespace ServerState

variable {S : Seal Ct Pt Gk} {m : ServiceConstants Pt}

/-- The thread the scheduler picks does not come too late with a call of the
machine. -/
def TimelyStep (c : Config (ServerState τ Ct Gk) τ Rpc Reply) (x : Choice τ Rpc) : Prop :=
  ∀ t (call : MachineCall Gk), c.NextAct x t (call.update t) → call.Timely c.shared.sm

/-- An action leaves state and message alone or is a call of the machine. -/
theorem Action.quiet_or_call {t : τ} {kind : ActionKind}
    {u : ServerState τ Ct Gk → ServerState τ Ct Gk} (hu : Action S m t kind u) :
    (∀ s, (u s).sm.state = s.sm.state ∧ (u s).sm.lastMessage = s.sm.lastMessage) ∨
      ∃ call : MachineCall Gk, u = call.update t := by
  cases hu with
  | logs hctx hstate hmessage hhistory => exact .inl fun s ↦ ⟨hstate s, hmessage s⟩
  | rotates hevent => exact .inl fun _ ↦ ⟨rfl, rfl⟩
  | installs hvalid => exact .inl fun _ ↦ ⟨rfl, rfl⟩
  | calls call => exact .inr ⟨call, rfl⟩

section Pools

variable [DecidableEq τ]

abbrev HandlerActs (S : Seal Ct Pt Gk) (m : ServiceConstants Pt)
    (c : Config (ServerState τ Ct Gk) τ Rpc Reply) : Prop :=
  c.ActsIn fun t rpc u ↦ ∃ kind ∈ kinds rpc, Action S m t kind u

/-- What one step of a pool of handlers does to the machine. -/
theorem step_sm {c : Config (ServerState τ Ct Gk) τ Rpc Reply} (hc : HandlerActs S m c)
    (x : Choice τ Rpc) :
    ((c.step (handle S m) x).shared.sm.state = c.shared.sm.state ∧
      (c.step (handle S m) x).shared.sm.lastMessage = c.shared.sm.lastMessage) ∨
    ∃ t, ∃ call : MachineCall Gk, c.NextAct x t (call.update t) ∧
      (c.step (handle S m) x).shared.sm = (call.apply c.shared.sm).2 := by
  rcases c.step_shared (handle S m) x with hsame | ⟨t, u, hnext, hshared⟩
  · exact .inl (by rw [hsame]; exact ⟨rfl, rfl⟩)
  · obtain ⟨rpc, p, hrun, kind, hmem, hu⟩ := hc.nextAct hnext
    rcases hu.quiet_or_call with hquiet | ⟨call, rfl⟩
    · left
      rw [hshared]
      exact hquiet c.shared
    · right
      refine ⟨t, call, hnext, ?_⟩
      rw [hshared, MachineCall.update_sm]

theorem step_fault {c : Config (ServerState τ Ct Gk) τ Rpc Reply} (hc : HandlerActs S m c)
    (hfault : c.shared.sm.state = fault) (x : Choice τ Rpc) :
    (c.step (handle S m) x).shared.sm.state = fault := by
  rcases step_sm hc x with ⟨hstate, -⟩ | ⟨t, call, -, hsm⟩
  · exact hstate.trans hfault
  · rw [hsm]
    exact call.apply_fault hfault

theorem run_fault {c : Config (ServerState τ Ct Gk) τ Rpc Reply} (hc : HandlerActs S m c)
    (hfault : c.shared.sm.state = fault) (xs : List (Choice τ Rpc)) :
    (c.run (handle S m) xs).shared.sm.state = fault := by
  induction xs generalizing c with
  | nil => exact hfault
  | cons x xs ih => exact ih (hc.step (fun _ ↦ acts_handle) x) (step_fault hc hfault x)

theorem faulting_call {c : Config (ServerState τ Ct Gk) τ Rpc Reply} (hc : HandlerActs S m c)
    {x : Choice τ Rpc} (hbefore : c.shared.sm.state ≠ fault)
    (hafter : (c.step (handle S m) x).shared.sm.state = fault) :
    ∃ t, ∃ call : MachineCall Gk, c.NextAct x t (call.update t) ∧
      (c.step (handle S m) x).shared.sm.lastMessage = call.message := by
  rcases step_sm hc x with ⟨hstate, -⟩ | ⟨t, call, hnext, hsm⟩
  · exact absurd (hstate.symm.trans hafter) hbefore
  · refine ⟨t, call, hnext, ?_⟩
    rw [hsm] at hafter ⊢
    exact call.lastMessage_of_faulted hbefore hafter

/-- Whatever call the step to `PROV_FAULT` is, the message left is its message. -/
theorem lastMessage_of_nextAct {c : Config (ServerState τ Ct Gk) τ Rpc Reply} {x : Choice τ Rpc}
    {t : τ} {call : MachineCall Gk} (hnext : c.NextAct x t (call.update t))
    (hbefore : c.shared.sm.state ≠ fault)
    (hafter : (c.step (handle S m) x).shared.sm.state = fault) :
    (c.step (handle S m) x).shared.sm.lastMessage = call.message := by
  obtain ⟨rfl, rpc, e, n, hrun⟩ := hnext
  by_cases he : e c.shared
  · simp only [Config.step, hrun, he, if_true, MachineCall.update_sm] at hafter ⊢
    exact call.lastMessage_of_faulted hbefore hafter
  · simp only [Config.step, hrun, he] at hafter
    exact absurd hafter hbefore

/-- A timely step in `PROV_FAULT` leaves the message. -/
theorem step_message {c : Config (ServerState τ Ct Gk) τ Rpc Reply} (hc : HandlerActs S m c)
    (hfault : c.shared.sm.state = fault) {x : Choice τ Rpc} (hx : TimelyStep c x) :
    (c.step (handle S m) x).shared.sm.lastMessage = c.shared.sm.lastMessage := by
  rcases step_sm hc x with ⟨-, hmessage⟩ | ⟨t, call, hnext, hsm⟩
  · exact hmessage
  · have hsame := (call.unchanged_iff_timely c.shared.sm).mpr (hx t call hnext)
      (call.turnedDown_of_fault hfault)
    rw [hsm, hsame]

/-! ## Status reports -/

def FaultSays (message : String) (s : ServerState τ Ct Gk) : Prop :=
  s.sm.state = fault → s.sm.lastMessage = message

/-- The contract of a run whose fault has the given message. -/
def reporting (message : String) : Contract (ServerState τ Ct Gk) τ where
  inv := FaultSays message
  cond := fun s s' ↦ FaultSays message s' ∧ (s.sm.state = fault → s'.sm.state = fault)
  rely := fun _ s s' ↦ s.sm.state = fault → s'.sm.state = fault
  guar := fun _ s s' ↦ FaultSays message s' ∧ (s.sm.state = fault → s'.sm.state = fault)
  guar_rely := fun _ _ hguar ↦ hguar.2
  guar_inv := fun _ hguar ↦ hguar.1

def Reports (message : String) : Rpc → Reply → Prop
  | .getProvisioningStatus, .status .fault detail _ _ _ => detail = message
  | _, _ => True

omit [DecidableEq τ] in
theorem reporting_acts {message : String} {t : τ} {α : Type} {p : Step τ Ct Gk α}
    {A : (ServerState τ Ct Gk → ServerState τ Ct Gk) → Prop} (hp : Acts A p) :
    (reporting message).Triple t (fun _ ↦ True) p fun _ _ ↦ True :=
  hp.triple (Contract.stable_const True) fun _ _ _ _ _ hcond ↦ ⟨hcond, trivial⟩

omit [DecidableEq τ] in
theorem reports_getProvisioningStatus {message : String} {t : τ} :
    (reporting message).Triple t (fun _ : ServerState τ Ct Gk ↦ True)
      (getProvisioningStatus S m) fun reply _ ↦ Reports message .getProvisioningStatus reply := by
  have hstate : (reporting message).Triple t (fun _ ↦ True) (currentState : Step τ Ct Gk _)
      fun state s ↦ state = fault → s.sm.state = fault := by
    refine .read (Contract.stable_const True) (fun state s s' _ h hrely hfault ↦ ?_) ?_
    · exact hrely (h hfault)
    · exact fun s hinv _ ↦ ⟨⟨hinv, id⟩, id⟩
  refine .bind hstate fun state ↦ ?_
  have hdetail : (reporting message).Triple t (fun s ↦ state = fault → s.sm.state = fault)
      (lastMessage : Step τ Ct Gk _) fun detail _ ↦ state = fault → detail = message := by
    refine .read (fun s s' _ h hrely hfault ↦ hrely (h hfault)) (fun _ ↦ Contract.stable_const _) ?_
    exact fun s hinv h ↦ ⟨⟨hinv, id⟩, fun hfault ↦ hinv (h hfault)⟩
  refine .bind hdetail fun detail ↦ .lift fun hsays ↦ ?_
  have hread : ∀ {α : Type} (f : ServerState τ Ct Gk → α),
      (reporting message).Triple t (fun _ ↦ True) (.read f) fun _ _ ↦ True :=
    fun f ↦ .read (Contract.stable_const True) (fun _ ↦ Contract.stable_const True)
      fun s hinv _ ↦ ⟨⟨hinv, id⟩, trivial⟩
  refine .bind (hread _) fun bytes ↦ .bind (hread _) fun rotations ↦ ?_
  refine .done (Contract.stable_const True) fun s _ _ ↦ ?_
  cases state with
  | fault => exact hsays rfl
  | _ => trivial

theorem reports_handle {message : String} {t : τ} (rpc : Rpc) :
    (reporting message).Triple t (fun _ ↦ True) (handle S m t rpc)
      fun reply (_ : ServerState τ Ct Gk) ↦ Reports message rpc reply := by
  have hother : (∀ reply, Reports message rpc reply) →
      (reporting message).Triple t (fun _ ↦ True) (handle S m t rpc)
        fun reply (_ : ServerState τ Ct Gk) ↦ Reports message rpc reply := fun h ↦
    (reporting_acts (acts_handle (S := S) (m := m) rpc)).conseq (fun _ hs ↦ hs)
      fun reply _ _ _ ↦ h reply
  cases rpc with
  | getProvisioningStatus => exact reports_getProvisioningStatus
  | _ => exact hother fun _ ↦ trivial

theorem meets_before {message : String} {c : Config (ServerState τ Ct Gk) τ Rpc Reply}
    (hc : HandlerActs S m c) {xs : List (Choice τ Rpc)}
    (hend : (c.run (handle S m) xs).shared.sm.state ≠ fault) :
    Config.Meets (reporting (τ := τ) message).cond (handle S m) c xs := by
  induction xs generalizing c with
  | nil => trivial
  | cons x xs ih =>
      have hstep := hc.step (fun _ ↦ acts_handle) x
      refine ⟨⟨?_, fun hfault ↦ step_fault hc hfault x⟩, ih hstep hend⟩
      intro hfault
      exact absurd (run_fault hstep hfault xs) hend

/-- After it the message stays, as long as nobody comes too late. -/
theorem meets_after {message : String} {c : Config (ServerState τ Ct Gk) τ Rpc Reply}
    (hc : HandlerActs S m c) (hfault : c.shared.sm.state = fault)
    (hmessage : c.shared.sm.lastMessage = message) {xs : List (Choice τ Rpc)}
    (htimely : Config.Along TimelyStep (handle S m) c xs) :
    Config.Meets (reporting (τ := τ) message).cond (handle S m) c xs := by
  induction xs generalizing c with
  | nil => trivial
  | cons x xs ih =>
      have hfault' := step_fault hc hfault x
      have hmessage' := (step_message hc hfault htimely.1).trans hmessage
      exact ⟨⟨fun _ ↦ hmessage', fun _ ↦ hfault'⟩,
        ih (hc.step (fun _ ↦ acts_handle) x) hfault' hmessage' htimely.2⟩

end Pools

/-! ## Runs -/

section Runs

variable [DecidableEq τ] (S : Seal Ct Pt Gk) (m : ServiceConstants Pt) (noKeys : Gk)

/-- The calls of the machine in a run from the start of the service all come
in time. -/
abbrev TimelyRun (schedule : List (Choice τ Rpc)) : Prop :=
  Config.Along TimelyStep (handle S m)
    (.idle (new m.packingMode noKeys) : Config (ServerState τ Ct Gk) τ Rpc Reply) schedule

/-- After the step `x` to `PROV_FAULT` the service stays there with the message
of the call that made it, and reports nothing else. -/
def FaultKept (earlier : List (Choice τ Rpc)) (x : Choice τ Rpc)
    (later : List (Choice τ Rpc)) : Prop :=
  ∃ t, ∃ call : MachineCall Gk,
    (serve S m (new m.packingMode noKeys) earlier).NextAct x t (call.update t) ∧
    let c := serve S m (new m.packingMode noKeys) (earlier ++ x :: later)
    c.shared.sm.state = fault ∧ c.shared.sm.lastMessage = call.message ∧
      ∀ u reply, (u, .getProvisioningStatus, reply) ∈ c.served →
        Reports call.message .getProvisioningStatus reply

/-- A call that is turned down changes nothing exactly if it is timely; in a
run of timely calls the message of the fault is kept. -/
theorem fault_message_kept :
    (∀ (sm : ProvisioningStateMachine) (call : MachineCall Gk),
      (call.TurnedDown sm → (call.apply sm).2 = sm) ↔ call.Timely sm) ∧
    ∀ (earlier : List (Choice τ Rpc)) (x : Choice τ Rpc) (later : List (Choice τ Rpc)),
      TimelyRun S m noKeys (earlier ++ x :: later) →
      (serve S m (new m.packingMode noKeys) earlier).shared.sm.state ≠ fault →
      (serve S m (new m.packingMode noKeys) (earlier ++ [x])).shared.sm.state = fault →
      FaultKept S m noKeys earlier x later := by
  refine ⟨fun sm call ↦ call.unchanged_iff_timely sm, ?_⟩
  intro earlier x later htimely hbefore hafter
  set start : Config (ServerState τ Ct Gk) τ Rpc Reply := .idle (new m.packingMode noKeys)
  have hstart : HandlerActs S m start := Config.actsIn_idle _
  have hacts : HandlerActs S m (start.run (handle S m) earlier) :=
    hstart.run (fun _ ↦ acts_handle) earlier
  have hafter' :
      ((start.run (handle S m) earlier).step (handle S m) x).shared.sm.state = fault := by
    rwa [serve, Config.run_append] at hafter
  obtain ⟨t, call, hnext, hmessage⟩ := faulting_call hacts hbefore hafter'
  have hlater := (Config.along_append.mp htimely).2.2
  have hacts' := hacts.step (fun _ ↦ acts_handle) x
  have hmeets : Config.Meets (reporting (τ := τ) call.message).cond (handle S m) start
      (earlier ++ x :: later) := by
    refine Config.meets_append.mpr ⟨meets_before hstart hbefore, ⟨?_, ?_⟩, ?_⟩
    · exact fun _ ↦ hmessage
    · exact fun hfault ↦ absurd hfault hbefore
    · exact meets_after hacts' hafter' hmessage hlater
  have hnew : FaultSays call.message (new m.packingMode noKeys : ServerState τ Ct Gk) := by
    intro hfault
    exact absurd (run_fault hstart hfault earlier) hbefore
  have hsound : Config.Sound (reporting call.message) (fun _ rpc reply _ ↦
      Reports call.message rpc reply) (start.run (handle S m) (earlier ++ x :: later)) :=
    (Config.sound_idle (C := reporting call.message) hnew).run
      (fun _ rpc _ ↦ (reports_handle rpc).pre fun _ _ ↦ trivial) hmeets
  have hfault : (start.run (handle S m) (earlier ++ x :: later)).shared.sm.state = fault := by
    rw [Config.run_append]
    exact run_fault hacts' hafter' later
  refine ⟨t, call, hnext, hfault, hsound.inv hfault, fun u reply hmem ↦ ?_⟩
  obtain ⟨_, _, hreports⟩ := hsound.served _ _ _ hmem
  exact hreports

omit [DecidableEq τ] in
/-- An update that respects the message of a fault is a call only of
`record_request_and_maybe_trip`, which never comes too late. -/
theorem timely_of_respects {t : τ} {u : ServerState τ Ct Gk → ServerState τ Ct Gk}
    (s : ServerState τ Ct Gk)
    (hu : ∀ s, s.sm.state = fault → (u s).sm.lastMessage = s.sm.lastMessage)
    {call : MachineCall Gk} (hcall : call.update t = u) (sm : ProvisioningStateMachine) :
    call.Timely sm := by
  -- A fault whose message is not the one the call brings.
  let stuck (message : String) : ServerState τ Ct Gk :=
    { s with sm := ⟨fault, 0, 0, message ++ "."⟩ }
  have hne : ∀ message : String, message ≠ message ++ "." := by
    intro message h
    simpa using congrArg String.length h
  cases call with
  | onStructuralResult candidate message =>
      have h := hu (stuck message) rfl
      rw [← hcall, MachineCall.update_sm] at h
      exact absurd h (hne message)
  | onCanaryResult passed message =>
      have h := hu (stuck message) rfl
      rw [← hcall, MachineCall.update_sm] at h
      exact absurd h (hne message)
  | maybeTrip reason => trivial
  | forceFault message =>
      have h := hu (stuck message) rfl
      rw [← hcall, MachineCall.update_sm] at h
      exact absurd h (hne message)

/-- Calls that leave the handshake alone. -/
def AfterHandshake : Rpc → Prop
  | .runInference _ _ => True
  | .getProvisioningStatus => True
  | _ => False

omit [DecidableEq τ] in
theorem respects_of_afterHandshake {t : τ} {rpc : Rpc} (hrpc : AfterHandshake rpc)
    {kind : ActionKind} (hkind : kind ∈ kinds rpc)
    {u : ServerState τ Ct Gk → ServerState τ Ct Gk} (hu : Action S m t kind u)
    (s : ServerState τ Ct Gk) (hfault : s.sm.state = fault) :
    (u s).sm.lastMessage = s.sm.lastMessage := by
  cases hu with
  | logs hctx hstate hmessage hhistory => exact hmessage s
  | rotates hevent => rfl
  | installs hvalid => rfl
  | calls call =>
      rw [MachineCall.update_sm]
      cases call with
      | maybeTrip reason => simp [MachineCall.apply, ProvisioningStateMachine.maybeTrip, hfault]
      | _ => cases rpc <;> simp [AfterHandshake, kinds, MachineCall.kind] at hrpc hkind

/-- A service that only scores and reports never makes an untimely call. -/
theorem timelyRun_of_afterHandshake {schedule : List (Choice τ Rpc)}
    (h : ∀ t rpc, .call t rpc ∈ schedule → AfterHandshake rpc) :
    TimelyRun S m noKeys schedule := by
  induction schedule using List.reverseRecOn with
  | nil => trivial
  | append_singleton xs x ih =>
      refine Config.along_append.mpr ⟨ih fun t rpc hmem ↦ h t rpc (by simp [hmem]), ?_, trivial⟩
      intro t call hnext
      have hacts : HandlerActs S m (serve S m (new m.packingMode noKeys) xs) :=
        (Config.actsIn_idle _).run (fun _ ↦ acts_handle) xs
      obtain ⟨rpc, p, hrun, kind, hkind, hu⟩ := hacts.nextAct hnext
      have hcalled := (Config.called_of_run _ _ _).1 _ _ _ hrun
      have hrpc := h t rpc (by simp [hcalled])
      exact timely_of_respects (new m.packingMode noKeys)
        (respects_of_afterHandshake S m hrpc hkind hu) rfl _

end Runs

/-! ## Runs over `Seal.clear` -/

def malformed : List (Choice Unit Rpc) :=
  .call () (.runInference ⟨[], "a", "bank", 1, .cnp⟩ Cnp.zeroDraws) :: List.replicate 3 (.go ())

/-- Two malformed requests to a CNP server, and the third up to its trip. -/
def tripEarlier : List (Choice Unit Rpc) :=
  malformed ++ .go () :: malformed ++ .go () :: malformed

def tripLater : List (Choice Unit Rpc) :=
  .go () :: .call () .getProvisioningStatus :: List.replicate 5 (.go ())

theorem fault_message_kept_after_trip :
    FaultKept Seal.clear (.clear .cnp) 0 tripEarlier (.go ()) tripLater := by
  apply (fault_message_kept Seal.clear (.clear .cnp) 0).2
  · apply timelyRun_of_afterHandshake
    intro t rpc hmem
    have hcases : rpc = .runInference ⟨[], "a", "bank", 1, .cnp⟩ Cnp.zeroDraws ∨
        rpc = .getProvisioningStatus := by
      simpa [tripEarlier, tripLater, malformed] using hmem
    rcases hcases with rfl | rfl <;> trivial
  · decide +kernel
  · decide +kernel

/-- Of two pushes that pass the gate the first fails; the second is turned down
and its message takes the place of the failure. -/
def lateEarlier : List (Choice Bool Rpc) :=
  [.call true (.provisionGaloisKeys [1]), .go true, .call false (.provisionGaloisKeys []),
    .go false]

def lateLater : List (Choice Bool Rpc) :=
  List.replicate 2 (.go false) ++ List.replicate 2 (.go true) ++
    .call false .getProvisioningStatus :: List.replicate 5 (.go false)

theorem fault_message_replaced :
    (serve Seal.clear (.clear .slot) (new .slot 0) lateEarlier).shared.sm.state ≠ fault ∧
      (serve Seal.clear (.clear .slot) (new .slot 0)
        (lateEarlier ++ [.go false])).shared.sm.state = fault ∧
      ¬ FaultKept Seal.clear (.clear .slot) 0 lateEarlier (.go false) lateLater := by
  have hbefore : (serve Seal.clear (.clear .slot) (new .slot 0) lateEarlier).shared.sm.state ≠
      fault := by decide +kernel
  have hafter : (serve Seal.clear (.clear .slot) (new .slot 0)
      (lateEarlier ++ [.go false])).shared.sm.state = fault := by decide +kernel
  refine ⟨hbefore, hafter, ?_⟩
  rintro ⟨t, call, hnext, -, hend, -⟩
  rw [serve, Config.run_append] at hafter
  have hmessage :=
    lastMessage_of_nextAct (S := Seal.clear) (m := .clear .slot) hnext hbefore hafter
  have hne : (serve Seal.clear (.clear .slot) (new .slot 0)
      (lateEarlier ++ .go false :: lateLater)).shared.sm.lastMessage ≠
      ((serve Seal.clear (.clear .slot) (new .slot 0) lateEarlier).step
        (handle Seal.clear (.clear .slot)) (.go false)).shared.sm.lastMessage := by
    decide +kernel
  exact hne (hend.trans hmessage.symm)

end ServerState
end Ppfdaas
