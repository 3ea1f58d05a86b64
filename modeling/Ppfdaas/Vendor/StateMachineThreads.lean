import Ppfdaas.Library.RelyGuarantee
import Ppfdaas.Vendor.ProvisioningState

/-!
# The state machine under concurrent calls

The methods of `ProvisioningStateMachine` as programs over its fields and its
mutex: every lock, atomic load, store, increment and compare-exchange is one
action.  A transition is a load followed by a store, and the mutex is what
keeps a store of another thread from landing in between.
-/

namespace Ppfdaas

open Interleaving ProvisioningState

/-- The object's memory: its fields and the holder of `msg_mutex_`. -/
structure Monitor (τ : Type) where
  sm : ProvisioningStateMachine
  holder : Option τ

namespace Monitor

variable {τ : Type}

def new : Monitor τ := ⟨.new, none⟩

/-- `std::lock_guard<std::mutex> lock(msg_mutex_)`. -/
def lock (t : τ) : Prog (Monitor τ) Unit :=
  .await (fun m ↦ m.holder.isNone) fun m ↦ { m with holder := some t }

def unlock : Prog (Monitor τ) Unit := .modify fun m ↦ { m with holder := none }

def loadState : Prog (Monitor τ) ProvisioningState := .read fun m ↦ m.sm.state

def storeState (s : ProvisioningState) : Prog (Monitor τ) Unit :=
  .modify fun m ↦ { m with sm := { m.sm with state := s } }

/-- `state_.compare_exchange_strong(expected, desired)`. -/
def compareExchange (expected desired : ProvisioningState) : Prog (Monitor τ) Bool :=
  .atomically fun m ↦
    if m.sm.state = expected then (true, { m with sm := { m.sm with state := desired } })
    else (false, m)

def setLastMessage (message : String) : Prog (Monitor τ) Unit :=
  .modify fun m ↦ { m with sm := { m.sm with lastMessage := message } }

def incrTotalRequests : Prog (Monitor τ) Unit :=
  .modify fun m ↦ { m with sm := m.sm.incrTotalRequests }

def incrMismatchCount : Prog (Monitor τ) ℕ :=
  .atomically fun m ↦
    (m.sm.incrMismatchCount.mismatchCount, { m with sm := m.sm.incrMismatchCount })

/-! ## The methods -/

def onStructuralResult (t : τ) (ok : Bool) (message : String) : Prog (Monitor τ) Bool := do
  lock t
  setLastMessage message
  let state ← loadState
  if state ≠ awaitingKeys then
    unlock
    return false
  storeState (if ok then validating else fault)
  unlock
  return true

def onCanaryResult (t : τ) (passed : Bool) (message : String) : Prog (Monitor τ) Bool := do
  lock t
  setLastMessage message
  let state ← loadState
  if state ≠ validating then
    unlock
    return false
  storeState (if passed then ready else fault)
  unlock
  return true

def recordRequestAndMaybeTrip (t : τ) (checksPassed : Bool) (reasonIfTripped : String) :
    Prog (Monitor τ) Bool := do
  incrTotalRequests
  if checksPassed then
    return false
  let mismatches ← incrMismatchCount
  if mismatches < ProvisioningStateMachine.kMaxContinuousMismatches then
    return false
  lock t
  let tripped ← compareExchange ready fault
  if !tripped then
    unlock
    return false
  setLastMessage reasonIfTripped
  unlock
  return true

def forceFault (t : τ) (message : String) : Prog (Monitor τ) Unit := do
  lock t
  setLastMessage message
  storeState fault
  unlock

/-- A call of one of the four writers. -/
inductive Call where
  | onStructuralResult (ok : Bool) (message : String)
  | onCanaryResult (passed : Bool) (message : String)
  | recordRequestAndMaybeTrip (checksPassed : Bool) (reasonIfTripped : String)
  | forceFault (message : String)

def method (t : τ) : Call → Prog (Monitor τ) Bool
  | .onStructuralResult ok message => onStructuralResult t ok message
  | .onCanaryResult passed message => onCanaryResult t passed message
  | .recordRequestAndMaybeTrip checksPassed reason =>
      recordRequestAndMaybeTrip t checksPassed reason
  | .forceFault message => do
      forceFault t message
      return true

/-! ## A method alone is one step of the machine -/

@[simp] theorem run_onStructuralResult (t : τ) (ok : Bool) (message : String)
    (sm : ProvisioningStateMachine) :
    (onStructuralResult t ok message).run ⟨sm, none⟩ =
      ((sm.onStructuralResult ok message).1, ⟨(sm.onStructuralResult ok message).2, none⟩) := by
  by_cases h : sm.state = awaitingKeys <;>
    simp [onStructuralResult, ProvisioningStateMachine.onStructuralResult, lock, unlock,
      setLastMessage, loadState, storeState, h]

@[simp] theorem run_onCanaryResult (t : τ) (passed : Bool) (message : String)
    (sm : ProvisioningStateMachine) :
    (onCanaryResult t passed message).run ⟨sm, none⟩ =
      ((sm.onCanaryResult passed message).1, ⟨(sm.onCanaryResult passed message).2, none⟩) := by
  by_cases h : sm.state = validating <;>
    simp [onCanaryResult, ProvisioningStateMachine.onCanaryResult, lock, unlock,
      setLastMessage, loadState, storeState, h]

@[simp] theorem run_recordRequestAndMaybeTrip (t : τ) (checksPassed : Bool) (reason : String)
    (sm : ProvisioningStateMachine) :
    (recordRequestAndMaybeTrip t checksPassed reason).run ⟨sm, none⟩ =
      ((sm.recordRequestAndMaybeTrip checksPassed reason).1,
        ⟨(sm.recordRequestAndMaybeTrip checksPassed reason).2, none⟩) := by
  cases checksPassed with
  | true => simp [recordRequestAndMaybeTrip, incrTotalRequests,
      ProvisioningStateMachine.recordRequestAndMaybeTrip_passed]
  | false =>
      rw [ProvisioningStateMachine.recordRequestAndMaybeTrip_failed]
      by_cases hcount : incr64 sm.mismatchCount <
          ProvisioningStateMachine.kMaxContinuousMismatches
      · simp [recordRequestAndMaybeTrip, incrTotalRequests, incrMismatchCount,
          ProvisioningStateMachine.incrTotalRequests, ProvisioningStateMachine.incrMismatchCount,
          hcount]
      · by_cases h : sm.state = ready <;>
          simp [recordRequestAndMaybeTrip, incrTotalRequests, incrMismatchCount,
            ProvisioningStateMachine.incrTotalRequests,
            ProvisioningStateMachine.incrMismatchCount, hcount, lock, unlock, compareExchange,
            setLastMessage, ProvisioningStateMachine.maybeTrip, h]

@[simp] theorem run_forceFault (t : τ) (message : String) (sm : ProvisioningStateMachine) :
    (forceFault t message).run ⟨sm, none⟩ = ((), ⟨sm.forceFault message, none⟩) := rfl

/-! ## The contract of the mutex -/

/-- One step of thread `t`: the state moves along the diagram if at all, and
without the mutex a thread can touch neither the state nor the message, only
take the mutex when it is free. -/
def Guarantees (t : τ) (m m' : Monitor τ) : Prop :=
  (m'.sm.state = m.sm.state ∨ Edge m.sm.state m'.sm.state) ∧
    (m.holder ≠ some t →
      m'.sm.state = m.sm.state ∧ m'.sm.lastMessage = m.sm.lastMessage ∧
        (m'.holder = m.holder ∨ (m.holder = none ∧ m'.holder = some t)))

def Relies (t : τ) (m m' : Monitor τ) : Prop :=
  m.holder = some t →
    m'.holder = some t ∧ m'.sm.state = m.sm.state ∧ m'.sm.lastMessage = m.sm.lastMessage

def contract : Contract (Monitor τ) τ where
  inv := fun m ↦ m.sm.state ≠ init
  cond := fun _ _ ↦ True
  rely := Relies
  guar := Guarantees
  guar_rely := by
    intro t u m m' htu _ hguar hheld
    have hne : m.holder ≠ some t := by
      rw [hheld]
      simpa using Ne.symm htu
    obtain ⟨hstate, hmessage, hholder⟩ := hguar.2 hne
    refine ⟨?_, hstate, hmessage⟩
    rcases hholder with hsame | ⟨hfree, _⟩
    · rw [hsame, hheld]
    · simp [hheld] at hfree
  guar_inv := by
    intro t m m' hinv hguar
    rcases hguar.1 with hsame | hedge
    · rwa [hsame]
    · exact hedge.target_ne_init

def Holds (t : τ) (m : Monitor τ) : Prop := m.holder = some t

def HoldsAt (t : τ) (s : ProvisioningState) (m : Monitor τ) : Prop :=
  m.holder = some t ∧ m.sm.state = s

section Triples

variable {t : τ}

theorem stable_true : contract.Stable t (fun _ : Monitor τ ↦ True) := fun _ _ _ _ _ ↦ trivial

theorem stable_holds : contract.Stable t (Holds t) := fun _ _ _ hheld hrely ↦ (hrely hheld).1

theorem stable_holdsAt (s : ProvisioningState) : contract.Stable t (HoldsAt t s) := by
  rintro m m' _ ⟨hheld, hstate⟩ hrely
  obtain ⟨hheld', hstate', _⟩ := hrely hheld
  exact ⟨hheld', hstate'.trans hstate⟩

theorem triple_lock : contract.Triple t (fun _ ↦ True) (lock t) fun _ ↦ Holds t := by
  apply Contract.Triple.await stable_true fun _ ↦ stable_holds
  intro m _ _ hfree _
  have hnone : m.holder = none := by simpa using hfree
  exact ⟨⟨.inl rfl, fun _ ↦ ⟨rfl, rfl, .inr ⟨hnone, rfl⟩⟩⟩, rfl⟩

theorem triple_unlock : contract.Triple t (Holds t) unlock fun _ _ ↦ True := by
  apply Contract.Triple.modify stable_holds fun _ ↦ stable_true
  exact fun m _ hheld _ ↦ ⟨⟨.inl rfl, fun hne ↦ absurd hheld hne⟩, trivial⟩

theorem triple_setLastMessage (message : String) :
    contract.Triple t (Holds t) (setLastMessage message) fun _ ↦ Holds t := by
  apply Contract.Triple.modify stable_holds fun _ ↦ stable_holds
  exact fun m _ hheld _ ↦ ⟨⟨.inl rfl, fun hne ↦ absurd hheld hne⟩, hheld⟩

theorem triple_loadState :
    contract.Triple t (Holds t) loadState fun s ↦ HoldsAt t s := by
  apply Contract.Triple.read stable_holds stable_holdsAt
  exact fun m _ hheld ↦ ⟨⟨.inl rfl, fun _ ↦ ⟨rfl, rfl, .inl rfl⟩⟩, hheld, rfl⟩

/-- A store of the right state after the load: nobody moved in between. -/
theorem triple_storeState {s s' : ProvisioningState} (hedge : Edge s s') :
    contract.Triple t (HoldsAt t s) (storeState s') fun _ ↦ Holds t := by
  apply Contract.Triple.modify (stable_holdsAt s) fun _ ↦ stable_holds
  rintro m _ ⟨hheld, hstate⟩ _
  refine ⟨⟨.inr ?_, fun hne ↦ absurd hheld hne⟩, hheld⟩
  simpa only [hstate] using hedge

theorem triple_unlock_return {P : Monitor τ → Prop} (hP : ∀ m, P m → Holds t m) (b : Bool) :
    contract.Triple t P (do unlock; return b) fun _ _ ↦ True :=
  (Contract.Triple.bind triple_unlock fun _ ↦
    Contract.Triple.done stable_true fun _ _ _ ↦ trivial).pre hP

/-- Lock, message, load: the head that the two locked transitions share. -/
theorem triple_transition {message : String} {rest : ProvisioningState → Prog (Monitor τ) Bool}
    (hrest : ∀ s, contract.Triple t (HoldsAt t s) (rest s) fun _ _ ↦ True) :
    contract.Triple t (fun _ ↦ True)
      (do lock t; setLastMessage message; let s ← loadState; rest s) fun _ _ ↦ True :=
  .bind triple_lock fun _ ↦ .bind (triple_setLastMessage message) fun _ ↦
    .bind triple_loadState hrest

theorem triple_onStructuralResult (ok : Bool) (message : String) :
    contract.Triple t (fun _ ↦ True) (onStructuralResult t ok message) fun _ _ ↦ True := by
  apply triple_transition
  intro s
  by_cases h : s = awaitingKeys
  · have hedge : Edge s (if ok then validating else fault) := by
      subst h
      cases ok
      · exact .rejected
      · exact .provisioned
    simpa only [h, ne_eq, not_true_eq_false, if_false] using
      h ▸ Contract.Triple.bind (triple_storeState hedge)
        fun _ ↦ triple_unlock_return (fun _ hm ↦ hm) true
  · simp only [ne_eq, h, not_false_eq_true, if_true]
    exact triple_unlock_return (fun _ hm ↦ hm.1) false

theorem triple_onCanaryResult (passed : Bool) (message : String) :
    contract.Triple t (fun _ ↦ True) (onCanaryResult t passed message) fun _ _ ↦ True := by
  apply triple_transition
  intro s
  by_cases h : s = validating
  · have hedge : Edge s (if passed then ready else fault) := by
      subst h
      cases passed
      · exact .mismatched
      · exact .confirmed
    simpa only [h, ne_eq, not_true_eq_false, if_false] using
      h ▸ Contract.Triple.bind (triple_storeState hedge)
        fun _ ↦ triple_unlock_return (fun _ hm ↦ hm) true
  · simp only [ne_eq, h, not_false_eq_true, if_true]
    exact triple_unlock_return (fun _ hm ↦ hm.1) false

theorem triple_compareExchange :
    contract.Triple t (Holds t) (compareExchange ready fault) fun _ ↦ Holds t := by
  apply Contract.Triple.atomically stable_holds fun _ ↦ stable_holds
  intro m _ hheld _
  by_cases h : m.sm.state = ready
  · simp only [h, if_true]
    refine ⟨⟨.inr ?_, fun hne ↦ absurd hheld hne⟩, hheld⟩
    simpa only [h] using Edge.tripped
  · simp only [h, if_false]
    exact ⟨⟨.inl rfl, fun hne ↦ absurd hheld hne⟩, hheld⟩

/-- The counters are not under the mutex and no transition reads them. -/
theorem guarantees_of_counters {m : Monitor τ} {total mismatch : ℕ} :
    Guarantees t m { m with sm := { m.sm with
      totalRequests := total, mismatchCount := mismatch } } :=
  ⟨.inl rfl, fun _ ↦ ⟨rfl, rfl, .inl rfl⟩⟩

theorem triple_incrTotalRequests :
    contract.Triple t (fun _ ↦ True) incrTotalRequests fun _ _ ↦ True :=
  .modify stable_true (fun _ ↦ stable_true) fun _ _ _ _ ↦ ⟨guarantees_of_counters, trivial⟩

theorem triple_incrMismatchCount :
    contract.Triple t (fun _ ↦ True) incrMismatchCount fun _ _ ↦ True :=
  .atomically stable_true (fun _ ↦ stable_true) fun _ _ _ _ ↦ ⟨guarantees_of_counters, trivial⟩

theorem triple_recordRequestAndMaybeTrip (checksPassed : Bool) (reason : String) :
    contract.Triple t (fun _ ↦ True) (recordRequestAndMaybeTrip t checksPassed reason)
      fun _ _ ↦ True := by
  have hreturn : contract.Triple t (fun _ : Monitor τ ↦ True) (pure false) fun _ _ ↦ True :=
    .done stable_true fun _ _ _ ↦ trivial
  apply Contract.Triple.bind triple_incrTotalRequests
  intro _
  cases checksPassed with
  | true => exact hreturn
  | false =>
      apply Contract.Triple.bind triple_incrMismatchCount
      intro mismatches
      by_cases hcount : mismatches < ProvisioningStateMachine.kMaxContinuousMismatches
      · simpa only [hcount, if_true] using hreturn
      · simp only [hcount, if_false]
        refine .bind triple_lock fun _ ↦ .bind triple_compareExchange fun tripped ↦ ?_
        cases tripped with
        | false => exact triple_unlock_return (fun _ hm ↦ hm) false
        | true => exact .bind (triple_setLastMessage reason) fun _ ↦
            triple_unlock_return (fun _ hm ↦ hm) true

/-- The store of `force_fault` needs no test: every state has an arrow to
`PROV_FAULT`. -/
theorem triple_storeFault :
    contract.Triple t (Holds t) (storeState fault) fun _ ↦ Holds t := by
  apply Contract.Triple.modify stable_holds fun _ ↦ stable_holds
  exact fun m hinv hheld _ ↦
    ⟨⟨eq_fault_or_edge hinv, fun hne ↦ absurd hheld hne⟩, hheld⟩

theorem triple_method (call : Call) :
    contract.Triple t (fun _ ↦ True) (method t call) fun _ _ ↦ True := by
  cases call with
  | onStructuralResult ok message => exact triple_onStructuralResult ok message
  | onCanaryResult passed message => exact triple_onCanaryResult passed message
  | recordRequestAndMaybeTrip checksPassed reason =>
      exact triple_recordRequestAndMaybeTrip checksPassed reason
  | forceFault message =>
      have hbody : contract.Triple t (fun _ ↦ True) (forceFault t message) fun _ _ ↦ True :=
        .bind triple_lock fun _ ↦ .bind (triple_setLastMessage message) fun _ ↦
          .bind triple_storeFault fun _ ↦ triple_unlock
      exact hbody.bind fun _ ↦ .done stable_true fun _ _ _ ↦ trivial

end Triples

/-! ## Every interleaving follows the diagram -/

section Runs

variable [DecidableEq τ]

theorem sound_run (m : Monitor τ) (hm : m.sm.state ≠ init) (schedule : List (Choice τ Call)) :
    (Config.idle m |>.run method schedule).Sound contract fun _ _ _ _ ↦ True :=
  (Config.sound_idle hm).run (fun _ call _ ↦ (triple_method call).pre fun _ _ ↦ trivial)
    (Config.meets_true ..)

/-- The step after any schedule leaves the state alone or takes an arrow. -/
theorem step_edge (m : Monitor τ) (hm : m.sm.state ≠ init) (schedule : List (Choice τ Call))
    (x : Choice τ Call) :
    let c := (Config.idle m : Config (Monitor τ) τ Call Bool).run method schedule
    (c.step method x).shared.sm.state = c.shared.sm.state ∨
      Edge c.shared.sm.state (c.step method x).shared.sm.state := by
  intro c
  rcases (sound_run m hm schedule).step_guar x trivial with hsame | ⟨t, hguar⟩
  · exact .inl (by rw [hsame])
  · exact hguar.1

end Runs

end Monitor
end Ppfdaas
