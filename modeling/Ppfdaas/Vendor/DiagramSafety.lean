import Ppfdaas.Vendor.RequestIsolation
import Ppfdaas.Vendor.StateMachineThreads

/-!
# The state machine never leaves its diagram

The methods of the machine under every interleaving of their locked steps, and
the handlers of a CNP server, whose machine is driven to `PROV_READY` by the
constructor.
-/

namespace Ppfdaas

open Interleaving ProvisioningState

variable {τ Ct Pt Gk : Type} [DecidableEq τ]

namespace Monitor

/-- No schedule leads out of `PROV_FAULT`. -/
theorem step_fault (m : Monitor τ) (hm : m.sm.state ≠ init) (schedule : List (Choice τ Call))
    (x : Choice τ Call) :
    let c := (Config.idle m : Config (Monitor τ) τ Call Bool).run method schedule
    c.shared.sm.state = fault → (c.step method x).shared.sm.state = fault := by
  intro c hfault
  rcases step_edge m hm schedule x with hsame | hedge
  · exact hsame.trans hfault
  · exact absurd hfault hedge.source_ne_fault

end Monitor

namespace ServerState

/-- A CNP server keeps its empty key set and its two states, whatever is called. -/
theorem cnp_keeps_no_keys (S : Seal Ct Pt Gk) (m : ServiceConstants Pt) (noKeys : Gk)
    (schedule : List (Choice τ Rpc)) :
    let s := (serve S m (new .cnp noKeys) schedule).shared
    s.ctx = ⟨noKeys, false⟩ ∧ (s.sm.state = ready ∨ s.sm.state = fault) := by
  intro s
  have hnew : Serving (new .cnp noKeys : ServerState τ Ct Gk).sm.state := .inl rfl
  obtain ⟨hserving, hctx, -⟩ : (serving m _ True).inv s :=
    (sound_serve S m hnew True (fun _ ↦ trivial) fun _ _ _ _ _ ↦ trivial).inv
  exact ⟨hctx, hserving⟩

end ServerState

/-- Every change of the state is an arrow of the diagram, none leaves
`PROV_FAULT`, and a CNP server stays without keys in two states. -/
theorem transitions_follow_diagram (S : Seal Ct Pt Gk) (m : ServiceConstants Pt) (noKeys : Gk) :
    (∀ (schedule : List (Choice τ Monitor.Call)) (x : Choice τ Monitor.Call),
      let c := (Config.idle Monitor.new : Config (Monitor τ) τ Monitor.Call Bool).run
        Monitor.method schedule
      let next := c.step Monitor.method x
      (next.shared.sm.state = c.shared.sm.state ∨
        Edge c.shared.sm.state next.shared.sm.state) ∧
      (c.shared.sm.state = fault → next.shared.sm.state = fault)) ∧
    ∀ schedule : List (Choice τ Rpc),
      let s := (ServerState.serve S { m with packingMode := .cnp }
        (ServerState.new .cnp noKeys) schedule).shared
      s.ctx = ⟨noKeys, false⟩ ∧ (s.sm.state = ready ∨ s.sm.state = fault) := by
  have hnew : (Monitor.new : Monitor τ).sm.state ≠ init := by
    simp [Monitor.new, ProvisioningStateMachine.new]
  refine ⟨fun schedule x ↦ ⟨?_, ?_⟩, fun schedule ↦ ?_⟩
  · exact Monitor.step_edge Monitor.new hnew schedule x
  · exact Monitor.step_fault Monitor.new hnew schedule x
  · exact ServerState.cnp_keeps_no_keys S { m with packingMode := .cnp } noKeys schedule

end Ppfdaas
