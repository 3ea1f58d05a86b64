import Ppfdaas.Vendor.ServiceRuns

/-!
# What a ready server remembers

Runs of a SLOT-mode server that serves its calls one after another.  The
machine has a single state between the key push and `PROV_READY`, so a confirm
that arrives with no canary before it is accepted as well.
-/

namespace Ppfdaas.ServerState

open Interleaving ProvisioningState
open scoped List

variable {τ Ct Pt Gk : Type}

/-- An answered call of a run, with the server as the call found it. -/
structure Entry (τ Ct Gk : Type) where
  before : ServerState τ Ct Gk
  rpc : Rpc
  reply : Reply

section Runs

variable [DecidableEq τ] (S : Seal Ct Pt Gk) (m : ServiceConstants Pt)

def trace (s : ServerState τ Ct Gk) : List (τ × Rpc) → List (Entry τ Ct Gk)
  | [] => []
  | (t, rpc) :: calls =>
      ⟨s, rpc, ((handle S m t rpc).run s).1⟩ :: trace ((handle S m t rpc).run s).2 calls

@[simp] theorem trace_concat (s : ServerState τ Ct Gk) (calls : List (τ × Rpc)) (t : τ)
    (rpc : Rpc) :
    trace S m s (calls ++ [(t, rpc)]) = trace S m s calls ++
      [⟨serveAll S m s calls, rpc, ((handle S m t rpc).run (serveAll S m s calls)).1⟩] := by
  induction calls generalizing s with
  | nil => rfl
  | cons call calls ih => simp [trace, ih, serveAll]

end Runs

/-! ## The three calls of the handshake -/

section Handshake

variable (S : Seal Ct Pt Gk)

/-- A push of `keys` that passed structural validation and was recorded. -/
def Entry.Provisioned (keys : Gk) (e : Entry τ Ct Gk) : Prop :=
  ∃ bytes message, e.rpc = .provisionGaloisKeys bytes ∧ e.before.sm.state = awaitingKeys ∧
    EvalContext160.validateGaloisKeys S .slot bytes = .ok keys ∧
    e.reply = .provision validating message

/-- A canary that was rotated under `keys` and came back. -/
def Entry.CanaryReturned (keys : Gk) (e : Entry τ Ct Gk) : Prop :=
  ∃ ciphertext result message, e.rpc = .canaryCheck ciphertext ∧
    e.before.ctx.galoisKeys = keys ∧ canaryResult S keys ciphertext = .ok result ∧
    e.reply = .canary validating result message

/-- A confirm with `passed=true` that made the server ready. -/
def Entry.Confirmed (e : Entry τ Ct Gk) : Prop :=
  ∃ note message, e.rpc = .canaryConfirm true note ∧ e.before.sm.state = validating ∧
    e.reply = .confirm ready message

/-- The three calls, in this order, all about the same keys. -/
def HandshakeDone (keys : Gk) (entries : List (Entry τ Ct Gk)) : Prop :=
  ∃ push canary confirm : Entry τ Ct Gk, push.Provisioned S keys ∧ canary.CanaryReturned S keys ∧
    confirm.Confirmed ∧ [push, canary, confirm] <+ entries

/-- A `CanaryCheck` that finds the server validating and whose rotation goes
through. -/
def Entry.CanaryAccepted (e : Entry τ Ct Gk) : Prop :=
  ∃ ciphertext result, e.rpc = .canaryCheck ciphertext ∧ e.before.sm.state = validating ∧
    ciphertext.length ≤ CT_BUF ∧ canaryResult S e.before.ctx.galoisKeys ciphertext = .ok result

/-- How far the handshake has come, read off the entries so far. -/
inductive Stage (s : ServerState τ Ct Gk) (entries : List (Entry τ Ct Gk)) : Prop
  | awaiting (hstate : s.sm.state = awaitingKeys)
      (hnone : ∀ e ∈ entries, ¬ e.CanaryAccepted S)
  | validating (keys : Gk) (push : Entry τ Ct Gk) (hstate : s.sm.state = .validating)
      (hctx : s.ctx.galoisKeys = keys) (hpush : push.Provisioned S keys) (hmem : push ∈ entries)
      (hcanary : ∀ e ∈ entries, e.CanaryAccepted S →
        e.CanaryReturned S keys ∧ [push, e] <+ entries)
  | ready (hstate : s.sm.state = .ready) (hdone : HandshakeDone S s.ctx.galoisKeys entries)
  | fault (hstate : s.sm.state = .fault)

/-- A step that is no accepted canary keeps what is known about canaries. -/
private theorem canaries_concat {keys : Gk} {push last : Entry τ Ct Gk}
    {entries : List (Entry τ Ct Gk)} (hlast : ¬ last.CanaryAccepted S)
    (hcanary : ∀ e ∈ entries, e.CanaryAccepted S →
      e.CanaryReturned S keys ∧ [push, e] <+ entries) :
    ∀ e ∈ entries ++ [last], e.CanaryAccepted S →
      e.CanaryReturned S keys ∧ [push, e] <+ entries ++ [last] := by
  intro e he haccepted
  rcases List.mem_append.mp he with he | he
  · obtain ⟨hreturned, hsub⟩ := hcanary e he haccepted
    exact ⟨hreturned, hsub.trans (List.sublist_append_left ..)⟩
  · exact absurd (List.mem_singleton.mp he ▸ haccepted) hlast

private theorem HandshakeDone.concat {keys : Gk} {entries : List (Entry τ Ct Gk)}
    (h : HandshakeDone S keys entries) (last : Entry τ Ct Gk) :
    HandshakeDone S keys (entries ++ [last]) := by
  obtain ⟨push, canary, confirm, hpush, hcanary, hconfirm, hsub⟩ := h
  exact ⟨push, canary, confirm, hpush, hcanary, hconfirm,
    hsub.trans (List.sublist_append_left ..)⟩

/-- A step that changes neither the state nor the keys, and is no accepted
canary, leaves the stage as it is. -/
theorem Stage.same {s s' : ServerState τ Ct Gk} {entries : List (Entry τ Ct Gk)}
    (h : Stage S s entries) {last : Entry τ Ct Gk} (hlast : ¬ last.CanaryAccepted S)
    (hstate : s'.sm.state = s.sm.state) (hctx : s'.ctx = s.ctx) :
    Stage S s' (entries ++ [last]) := by
  cases h with
  | awaiting hs hnone =>
      refine .awaiting (hstate.trans hs) fun e he ↦ ?_
      rcases List.mem_append.mp he with he | he
      · exact hnone e he
      · exact List.mem_singleton.mp he ▸ hlast
  | validating keys push hs hkeys hpush hmem hcanary =>
      exact .validating keys push (hstate.trans hs) (by rw [hctx, hkeys]) hpush
        (List.mem_append_left _ hmem) (canaries_concat S hlast hcanary)
  | ready hs hdone =>
      exact .ready (hstate.trans hs) (by rw [hctx]; exact hdone.concat S last)
  | fault hs => exact .fault (hstate.trans hs)

/-- One call keeps the stage in step with the run, as long as a passed confirm
is not accepted before a canary was. -/
theorem Stage.step {s s' : ServerState τ Ct Gk} {entries : List (Entry τ Ct Gk)} {rpc : Rpc}
    {reply : Reply} (h : Stage S s entries) (hstep : SlotStep S s s' rpc reply)
    (hchecked : ∀ note, rpc = .canaryConfirm true note → s.sm.state = .validating →
      ∃ e ∈ entries, e.CanaryAccepted S) :
    Stage S s' (entries ++ [⟨s, rpc, reply⟩]) := by
  cases hstep with
  | provisionRejected bytes message hstate hsame =>
      exact h.same S (by simp [Entry.CanaryAccepted]) (by rw [hsame]) (by rw [hsame])
  | provisioned bytes keys message hstate hvalid hstate' hctx =>
      have hnone : ∀ e ∈ entries, ¬ e.CanaryAccepted S := by
        cases h with
        | awaiting _ hnone => exact hnone
        | validating _ _ hs => simp [hs] at hstate
        | ready hs => simp [hs] at hstate
        | fault hs => simp [hs] at hstate
      refine .validating keys _ hstate' (by rw [hctx]; rfl)
        ⟨bytes, message, rfl, hstate, hvalid, rfl⟩
        (List.mem_append_right _ (List.mem_singleton_self _))
        fun e he haccepted ↦ ?_
      rcases List.mem_append.mp he with he | he
      · exact absurd haccepted (hnone e he)
      · rw [List.mem_singleton.mp he] at haccepted
        simp [Entry.CanaryAccepted] at haccepted
  | provisionFailed bytes error message hstate hinvalid hstate' hctx => exact .fault hstate'
  | canaryRejected ciphertext message hstate hsame =>
      refine h.same S ?_ (by rw [hsame]) (by rw [hsame])
      rintro ⟨_, _, _, hvalidating, _⟩
      exact hstate hvalidating
  | canaryReturned ciphertext result message hstate hsize hresult hstate' hctx =>
      cases h with
      | awaiting hs => simp [hs] at hstate
      | ready hs => simp [hs] at hstate
      | fault hs => simp [hs] at hstate
      | validating keys push hs hkeys hpush hmem hcanary =>
          refine .validating keys push hstate' (by rw [hctx, hkeys]) hpush
            (List.mem_append_left _ hmem) fun e he haccepted ↦ ?_
          rcases List.mem_append.mp he with he | he
          · obtain ⟨hreturned, hsub⟩ := hcanary e he haccepted
            exact ⟨hreturned, hsub.trans (List.sublist_append_left ..)⟩
          · obtain rfl := List.mem_singleton.mp he
            refine ⟨⟨ciphertext, result, message, rfl, hkeys, hkeys ▸ hresult, rfl⟩, ?_⟩
            exact (List.singleton_sublist.mpr hmem).append (.refl _)
  | canaryFailed ciphertext message hstate hfailed hstate' hctx => exact .fault hstate'
  | confirmRejected passed note message hstate hsame =>
      exact h.same S (by simp [Entry.CanaryAccepted]) (by rw [hsame]) (by rw [hsame])
  | confirmed passed note message hstate hstate' hctx =>
      cases passed with
      | false => exact .fault hstate'
      | true =>
          cases h with
          | awaiting hs => simp [hs] at hstate
          | ready hs => simp [hs] at hstate
          | fault hs => simp [hs] at hstate
          | validating keys push hs hkeys hpush hmem hcanary =>
              obtain ⟨e, he, haccepted⟩ := hchecked note rfl hstate
              obtain ⟨hreturned, hsub⟩ := hcanary e he haccepted
              have hdone : HandshakeDone S keys
                  (entries ++ [⟨s, .canaryConfirm true note, .confirm .ready message⟩]) :=
                ⟨push, e, _, hpush, hreturned, ⟨note, message, rfl, hstate, rfl⟩,
                  hsub.append (.refl [_])⟩
              exact .ready hstate' (by rw [hctx, hkeys]; exact hdone)
  | inference req draws reply hready hstate' hctx =>
      rcases hstate' with hsame | ⟨_, hfault⟩
      · exact h.same S (by simp [Entry.CanaryAccepted]) hsame hctx
      · exact .fault hfault
  | status reply hsame =>
      exact h.same S (by simp [Entry.CanaryAccepted]) (by rw [hsame]) (by rw [hsame])
  | transcipher symCiphertext nonce reply hsame =>
      exact h.same S (by simp [Entry.CanaryAccepted]) (by rw [hsame]) (by rw [hsame])

end Handshake

/-! ## Runs from a fresh server -/

section Fresh

variable [DecidableEq τ] (S : Seal Ct Pt Gk) (m : ServiceConstants Pt) (noKeys : Gk)

abbrev entriesOf (calls : List (τ × Rpc)) : List (Entry τ Ct Gk) :=
  trace S m (new m.packingMode noKeys) calls

/-- In every state of the run, ready means that the handshake was made with
the installed keys, and no request is scored before their canary came back. -/
def ReadyOnlyAfterHandshake (calls : List (τ × Rpc)) : Prop :=
  ∀ served, served <+: calls →
    ((after S m noKeys served).sm.state = ready →
      HandshakeDone S (after S m noKeys served).ctx.galoisKeys (entriesOf S m noKeys served)) ∧
    ∀ t req draws resp,
      ((runInference S m t req draws).run (after S m noKeys served)).1 = .inference resp →
      resp.status = .ok →
      ∃ e ∈ entriesOf S m noKeys served,
        e.CanaryReturned S (after S m noKeys served).ctx.galoisKeys

/-- Every passed confirm that finds the server validating comes after a canary
that the server accepted. -/
def ConfirmsFollowCanary (calls : List (τ × Rpc)) : Prop :=
  ∀ served t note, served ++ [(t, .canaryConfirm true note)] <+: calls →
    (after S m noKeys served).sm.state = validating →
    ∃ e ∈ entriesOf S m noKeys served, e.CanaryAccepted S

variable {m}

omit [DecidableEq τ] in
theorem Entry.CanaryReturned.accepted {keys : Gk} {e : Entry τ Ct Gk}
    (h : e.CanaryReturned S keys) {s' : ServerState τ Ct Gk}
    (hstep : SlotStep S e.before s' e.rpc e.reply) : e.CanaryAccepted S := by
  obtain ⟨ciphertext, result, message, hrpc, hkeys, hresult, hreply⟩ := h
  rw [hrpc, hreply] at hstep
  generalize hshown : validating = shown at hstep
  cases hstep with
  | canaryRejected _ _ hstate => exact absurd hshown.symm hstate
  | canaryReturned _ _ _ hstate hsize =>
      exact ⟨ciphertext, result, hrpc, hstate, hsize, hkeys ▸ hresult⟩
  | canaryFailed => simp at hshown

theorem slotStep_of_mem_trace (hmode : m.packingMode = .slot) {s : ServerState τ Ct Gk}
    {calls : List (τ × Rpc)} {e : Entry τ Ct Gk} (h : e ∈ trace S m s calls) :
    ∃ s', SlotStep S e.before s' e.rpc e.reply := by
  induction calls generalizing s with
  | nil => simp [trace] at h
  | cons call calls ih =>
      rcases List.mem_cons.mp h with rfl | h
      · exact ⟨_, slotStep_handle S hmode call.1 call.2 s⟩
      · exact ih h

theorem stage_after (hmode : m.packingMode = .slot) (calls : List (τ × Rpc))
    (h : ConfirmsFollowCanary S m noKeys calls) :
    Stage S (after S m noKeys calls) (entriesOf S m noKeys calls) := by
  induction calls using List.reverseRecOn with
  | nil => exact .awaiting (by simp [after, serveAll, new, hmode]; rfl) (by simp [trace])
  | append_singleton calls call ih =>
      obtain ⟨t, rpc⟩ := call
      have hprev := ih fun served t' note hpre ↦
        h served t' note (hpre.trans (List.prefix_append ..))
      simp only [after, entriesOf, serveAll_concat, trace_concat]
      refine hprev.step S (slotStep_handle S hmode t rpc _) fun note hrpc hstate ↦ ?_
      exact h calls t note (by rw [hrpc]) hstate

/-- A ready server has been through the whole handshake exactly in the runs
where no passed confirm outruns the canary. -/
theorem readyOnlyAfterHandshake_iff (hmode : m.packingMode = .slot) (calls : List (τ × Rpc)) :
    ReadyOnlyAfterHandshake S m noKeys calls ↔ ConfirmsFollowCanary S m noKeys calls := by
  constructor
  · intro h served t note hpre hstate
    have hready : (after S m noKeys (served ++ [(t, .canaryConfirm true note)])).sm.state =
        ready := by
      simp only [after, serveAll_concat] at hstate ⊢
      have hstep := slotStep_canaryConfirm S t true note (after S m noKeys served)
      generalize ((canaryConfirm t true note : Step τ Ct Gk Reply).run
        (after S m noKeys served)).1 = reply at hstep
      cases hstep with
      | confirmRejected _ _ _ hne => exact absurd hstate hne
      | confirmed _ _ _ _ hstate' => exact hstate'
    obtain ⟨push, canary, confirm, hpush, hcanary, hconfirm, hsub⟩ := (h _ hpre).1 hready
    have hmem : canary ∈ entriesOf S m noKeys served := by
      have hlast := hsub.subset (List.mem_cons_of_mem push List.mem_cons_self)
      rw [entriesOf, trace_concat, List.mem_append] at hlast
      refine hlast.resolve_right fun heq ↦ ?_
      obtain ⟨_, _, _, hrpc, _⟩ := hcanary
      simp [List.mem_singleton.mp heq] at hrpc
    obtain ⟨s', hstep⟩ := slotStep_of_mem_trace S hmode hmem
    exact ⟨canary, hmem, hcanary.accepted S hstep⟩
  · intro h served hpre
    have hstage := stage_after S noKeys hmode served fun served' t note hpre' ↦
      h served' t note (hpre'.trans hpre)
    have hdone : (after S m noKeys served).sm.state = ready →
        HandshakeDone S (after S m noKeys served).ctx.galoisKeys
          (entriesOf S m noKeys served) := by
      intro hready
      cases hstage with
      | awaiting hs => simp [hs] at hready
      | validating _ _ hs => simp [hs] at hready
      | ready _ hdone => exact hdone
      | fault hs => simp [hs] at hready
    refine ⟨hdone, fun t req draws resp hreply hok ↦ ?_⟩
    have hready : (after S m noKeys served).sm.state = ready := by
      have hstep := slotStep_runInference (m := m) S t req draws (after S m noKeys served)
      rw [hreply] at hstep
      cases hstep with
      | inference _ _ _ hready => exact hready resp rfl hok
    obtain ⟨_, canary, _, _, hcanary, _, hsub⟩ := hdone hready
    exact ⟨canary, hsub.subset (by simp), hcanary⟩

end Fresh

/-- The full handshake of one bank. -/
theorem readyOnlyAfterHandshake_full :
    ReadyOnlyAfterHandshake Seal.clear (.clear .slot) 0
      [((), .provisionGaloisKeys [7]), ((), .canaryCheck [7, 1, 0]),
        ((), .canaryConfirm true "")] := by
  refine (readyOnlyAfterHandshake_iff Seal.clear 0 rfl _).mpr fun served t note hpre _ ↦ ?_
  match served with
  | [] => simp at hpre
  | [_] => simp at hpre
  | [_, _] =>
      obtain ⟨rfl, rfl, _⟩ : _ ∧ _ ∧ _ := by simpa using hpre
      exact ⟨_, List.mem_cons_of_mem _ List.mem_cons_self, [7, 1, 0], [7, 0, 1], rfl, rfl,
        by decide, rfl⟩
  | _ :: _ :: _ :: _ => simp at hpre

/-- A confirm right after the key push makes the server ready with no canary. -/
theorem ready_without_canary :
    ¬ ReadyOnlyAfterHandshake Seal.clear (.clear .slot) 0
      [((), .provisionGaloisKeys [7]), ((), .canaryConfirm true "")] := by
  intro h
  have hready : (after Seal.clear (.clear .slot) 0
      [((), .provisionGaloisKeys [7]), ((), .canaryConfirm true "")]).sm.state = ready := rfl
  obtain ⟨_, _, _, _, _, _, hsub⟩ := (h _ (List.prefix_refl _)).1 hready
  have hlength := hsub.length_le
  simp [trace] at hlength

end Ppfdaas.ServerState
