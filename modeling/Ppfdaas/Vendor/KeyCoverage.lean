import Ppfdaas.Vendor.BsgsOutcome
import Ppfdaas.Vendor.HandlerActions

/-!
# Every rotation finds its key

The structural check looks for the element of every step the fold will issue,
and installs nothing before it has found them all.  In any interleaving the
machine gets past the structural rung only after an installation, and a handler
rotates only after it has seen the machine past that rung.
-/

namespace Ppfdaas

open Interleaving ProvisioningState

variable {Ct Pt Gk : Type}

/-- The keys belong to the server's parameters and serve every step of the fold. -/
structure KeysCover (S : Seal Ct Pt Gk) (keys : Gk) : Prop where
  parmsId : S.galoisParmsId keys = S.keyParmsId
  elements : ∀ step ∈ STEPS, S.hasKey keys (S.galoisEltFromStep step) = true

namespace EvalContext160

variable {S : Seal Ct Pt Gk}

theorem checkRequiredElts_ok {candidate : Gk} {steps : List ℤ}
    (h : checkRequiredElts S candidate steps = .ok ()) :
    ∀ step ∈ steps, S.hasKey candidate (S.galoisEltFromStep step) = true := by
  induction steps with
  | nil => simp
  | cons step steps ih =>
      by_cases hkey : S.hasKey candidate (S.galoisEltFromStep step) = true
      · simp only [checkRequiredElts, hkey, if_true] at h
        intro other hother
        rcases List.mem_cons.mp hother with rfl | hrest
        · exact hkey
        · exact ih h other hrest
      · simp [checkRequiredElts, hkey] at h

/-- The table that is checked is the table the fold runs through. -/
theorem ROTATION_STEPS_eq : ROTATION_STEPS = STEPS := rfl

theorem keysCover_of_valid {mode : PackingMode160} {input : Bytes} {keys : Gk}
    (h : validateGaloisKeys S mode input = .ok keys) : KeysCover S keys := by
  unfold validateGaloisKeys at h
  by_cases hmode : mode = .cnp
  · simp [hmode] at h
  cases hload : S.loadGaloisKeys input with
  | error e => simp [hmode, hload] at h
  | ok candidate =>
      by_cases hparms : S.galoisParmsId candidate = S.keyParmsId
      swap
      · simp [hmode, hload, hparms] at h
      cases hcheck : checkRequiredElts S candidate ROTATION_STEPS with
      | error e => simp [hmode, hload, hparms, hcheck, bind, Except.bind] at h
      | ok u =>
          obtain rfl : candidate = keys := by
            simpa [hmode, hload, hparms, hcheck, bind, Except.bind, pure, Except.pure] using h
          constructor
          · exact hparms
          · rw [← ROTATION_STEPS_eq]
            exact checkRequiredElts_ok hcheck

/-- A load fails and changes nothing, or installs keys that cover the fold. -/
def LoadsOrKeeps (ctx : EvalContext160 Gk) (S : Seal Ct Pt Gk) (input : Bytes) : Prop :=
  (∃ e, loadAndValidateGaloisKeys S ctx .slot input = (.error e, ctx)) ∨
    ∃ keys, loadAndValidateGaloisKeys S ctx .slot input = (.ok (), ⟨keys, true⟩) ∧
      KeysCover S keys

theorem loadsOrKeeps (ctx : EvalContext160 Gk) (input : Bytes) : LoadsOrKeeps ctx S input := by
  unfold LoadsOrKeeps loadAndValidateGaloisKeys
  cases hvalid : validateGaloisKeys S .slot input with
  | error e => exact .inl ⟨e, rfl⟩
  | ok keys => exact .inr ⟨keys, rfl, keysCover_of_valid hvalid⟩

end EvalContext160

namespace ServerState

variable {τ : Type} (S : Seal Ct Pt Gk)

/-- A call of `ProvisionGaloisKeys` that passes the gate leaves the context
that `load_and_validate_galois_keys` leaves. -/
theorem provisionGaloisKeys_ctx {m : ServiceConstants Pt} (hmode : m.packingMode = .slot) (t : τ)
    (galoisKeys : Bytes) (s : ServerState τ Ct Gk) (hstate : s.sm.state = awaitingKeys) :
    ((provisionGaloisKeys S m t galoisKeys).run s).2.ctx =
      (s.ctx.loadAndValidateGaloisKeys S .slot galoisKeys).2 := by
  unfold EvalContext160.loadAndValidateGaloisKeys
  have hstep := slotStep_provision S hmode t galoisKeys s
  generalize (provisionGaloisKeys S m t galoisKeys).run s = out at hstep
  obtain ⟨reply, s'⟩ := out
  simp only at hstep
  cases hstep with
  | provisionRejected _ _ hne => exact absurd hstate hne
  | provisioned _ keys _ _ hvalid _ hctx => rw [hvalid, hctx]
  | provisionFailed _ e _ _ hinvalid _ hctx => rw [hinvalid, hctx]

/-! ## The contract -/

/-- The installed keys cover the fold, nobody gets past the structural rung
without them, and no rotation was made without them. -/
structure Covered (s : ServerState τ Ct Gk) : Prop where
  installed : s.ctx.galoisKeysLoaded = true → KeysCover S s.ctx.galoisKeys
  past : s.sm.state = validating ∨ s.sm.state = ready → s.ctx.galoisKeysLoaded = true
  rotated : ∀ t step keys, .canaryRotation t step keys ∈ s.history ∨
    .inferenceRotation t step keys ∈ s.history → step ∈ STEPS ∧ KeysCover S keys
  unassigned : (∀ t keys, .keysAssigned t keys ∉ s.history) → s.ctx.galoisKeysLoaded = false

def coverage : Contract (ServerState τ Ct Gk) τ where
  inv := Covered S
  cond := fun _ _ ↦ True
  rely := fun _ s s' ↦ s.ctx.galoisKeysLoaded = true → s'.ctx.galoisKeysLoaded = true
  guar := fun _ s s' ↦
    Covered S s' ∧ (s.ctx.galoisKeysLoaded = true → s'.ctx.galoisKeysLoaded = true)
  guar_rely := fun _ _ hguar ↦ hguar.2
  guar_inv := fun _ hguar ↦ hguar.1

section Steps

variable {S} {m : ServiceConstants Pt} {t : τ}

/-- A step that logs entries other than rotations and moves the state only
where the keys allow it. -/
theorem Covered.log {s s' : ServerState τ Ct Gk} (h : Covered S s) (hctx : s'.ctx = s.ctx)
    (hpast : s'.sm.state = validating ∨ s'.sm.state = ready → s.ctx.galoisKeysLoaded = true)
    (hhistory : s'.history = s.history ∨ ∃ e, s'.history = e :: s.history ∧
      ∀ u step keys, e ≠ .canaryRotation u step keys ∧ e ≠ .inferenceRotation u step keys) :
    Covered S s' := by
  have hsuffix : s.history <:+ s'.history := by
    rcases hhistory with hsame | ⟨e, he, -⟩
    · rw [hsame]
    · exact he ▸ List.suffix_cons e s.history
  constructor
  · rw [hctx]
    exact h.installed
  · rw [hctx]
    exact hpast
  · intro u step keys hmem
    apply h.rotated u step keys
    rcases hhistory with hsame | ⟨e, he, hne⟩
    · rwa [hsame] at hmem
    · rw [he] at hmem
      exact (Event.rotation_cons hmem).resolve_left (not_or.mpr (hne u step keys))
  · intro hnone
    rw [hctx]
    exact h.unassigned fun u keys hmem ↦ hnone u keys (hsuffix.subset hmem)

theorem apply_state (call : MachineCall Gk) (sm : ProvisioningStateMachine) :
    (call.apply sm).2.state = sm.state ∨ (call.apply sm).2.state = fault ∨
      (call.kind = .structural true ∧ (call.apply sm).2.state = validating) ∨
      (sm.state = validating ∧ (call.apply sm).2.state = ready) := by
  cases call with
  | onStructuralResult candidate message =>
      by_cases hstate : sm.state = awaitingKeys
      · simp only [MachineCall.apply,
          ProvisioningStateMachine.onStructuralResult_of_awaitingKeys _ hstate]
        cases candidate with
        | none => exact .inr (.inl rfl)
        | some keys => exact .inr (.inr (.inl ⟨rfl, rfl⟩))
      · left
        simp only [MachineCall.apply, ProvisioningStateMachine.onStructuralResult_of_ne _ hstate]
  | onCanaryResult passed message =>
      by_cases hstate : sm.state = validating
      · simp only [MachineCall.apply,
          ProvisioningStateMachine.onCanaryResult_of_validating _ hstate]
        cases passed with
        | true => exact .inr (.inr (.inr ⟨hstate, rfl⟩))
        | false => exact .inr (.inl rfl)
      · left
        simp only [MachineCall.apply, ProvisioningStateMachine.onCanaryResult_of_ne _ hstate]
  | maybeTrip reason =>
      by_cases hstate : sm.state = ready
      · exact .inr (.inl (by simp [MachineCall.apply, ProvisioningStateMachine.maybeTrip, hstate]))
      · exact .inl (by simp [MachineCall.apply, ProvisioningStateMachine.maybeTrip, hstate])
  | forceFault message => exact .inr (.inl rfl)

/-- Once keys are installed every action is safe; before, only rotations and a
positive structural result are not. -/
theorem Covered.action {s : ServerState τ Ct Gk} (h : Covered S s) {kind : ActionKind}
    {u : ServerState τ Ct Gk → ServerState τ Ct Gk} (hu : Action S m t kind u)
    (hsafe : s.ctx.galoisKeysLoaded = true ∨ (kind ≠ .rotates ∧ kind ≠ .structural true)) :
    (coverage S).guar t s (u s) := by
  cases hu with
  | logs hctx hstate hmessage hhistory =>
      refine ⟨h.log (hctx s) ?_ ?_, ?_⟩
      · rw [hstate]
        exact h.past
      · rcases hhistory s with hsame | ⟨e, he, hcons⟩
        · exact .inl hsame
        · refine .inr ⟨e, hcons, fun u step keys ↦ ?_⟩
          constructor
          · rintro rfl
            exact he
          · rintro rfl
            exact he
      · rw [hctx]
        exact id
  | @rotates event hevent step hstep =>
      have hloaded := hsafe.resolve_right (by simp)
      refine ⟨⟨h.installed, h.past, ?_, ?_⟩, id⟩
      · intro v step' keys hmem
        rcases Event.rotation_cons hmem with heq | hmem
        · obtain ⟨-, rfl, rfl⟩ : t = v ∧ step = step' ∧ s.ctx.galoisKeys = keys := by
            rcases hevent with rfl | rfl
            · simpa using heq
            · simpa using heq
          exact ⟨hstep, h.installed hloaded⟩
        · exact h.rotated v step' keys hmem
      · intro hnone
        exact h.unassigned fun v keys hmem ↦ hnone v keys (List.mem_cons_of_mem _ hmem)
  | @installs bytes keys hvalid =>
      refine ⟨⟨fun _ ↦ EvalContext160.keysCover_of_valid hvalid, fun _ ↦ rfl, ?_, ?_⟩, fun _ ↦ rfl⟩
      · intro v step keys' hmem
        apply h.rotated v step keys'
        simpa using hmem
      · intro hnone
        exact absurd List.mem_cons_self (hnone t keys)
  | calls call =>
      refine ⟨h.log (call.update_ctx t s) ?_ ?_, ?_⟩
      · rw [call.update_sm]
        intro hpast
        rcases apply_state call s.sm with hsame | hfault | ⟨hkind, -⟩ | ⟨hstate, -⟩
        · rw [hsame] at hpast
          exact h.past hpast
        · simp [hfault] at hpast
        · exact hsafe.resolve_right fun hne ↦ hne.2 hkind
        · exact h.past (.inl hstate)
      · rcases call.update_history t s with hsame | ⟨keys, hcons⟩ | hcons
        · exact .inl hsame
        · exact .inr ⟨_, hcons, by simp⟩
        · exact .inr ⟨_, hcons, by simp⟩
      · rw [call.update_ctx]
        exact id

theorem stable_loaded :
    (coverage S).Stable t fun s : ServerState τ Ct Gk ↦ s.ctx.galoisKeysLoaded = true :=
  fun _ _ _ hloaded hrely ↦ hrely hloaded

theorem covered_acts {kinds : List ActionKind} {α : Type} {p : Step τ Ct Gk α}
    (hp : ActsOf S m t kinds p) (hkinds : .rotates ∉ kinds ∧ .structural true ∉ kinds) :
    (coverage S).Triple t (fun _ ↦ True) p fun _ _ ↦ True := by
  apply hp.triple (Contract.stable_const True)
  rintro u ⟨kind, hmem, hu⟩ s hinv - -
  refine ⟨hinv.action hu (.inr ⟨?_, ?_⟩), trivial⟩
  · rintro rfl
    exact hkinds.1 hmem
  · rintro rfl
    exact hkinds.2 hmem

/-- With keys installed every program of the service keeps the contract. -/
theorem loaded_acts {kinds : List ActionKind} {α : Type} {p : Step τ Ct Gk α}
    (hp : ActsOf S m t kinds p) :
    (coverage S).Triple t (fun s ↦ s.ctx.galoisKeysLoaded = true) p fun _ _ ↦ True := by
  have hkeeps := hp.triple (C := coverage S) stable_loaded fun u ⟨kind, _, hu⟩ s hinv hs _ ↦
    ⟨hinv.action hu (.inl hs), (hinv.action hu (.inl hs)).2 hs⟩
  exact hkeeps.conseq (fun _ hs ↦ hs) fun _ _ _ _ ↦ trivial

/-- A program that goes on only past the structural rung. -/
theorem gated_acts {past : ProvisioningState} (hpast : past = validating ∨ past = ready)
    {late rest : Step τ Ct Gk Reply} {kinds : List ActionKind} (hlate : ActsOf S m t [.logs] late)
    (hrest : ActsOf S m t kinds rest) :
    (coverage S).Triple t (fun _ ↦ True)
      (do let state ← currentState
          if state ≠ past then late else rest) fun _ _ ↦ True := by
  have hread : (coverage S).Triple t (fun _ ↦ True) (currentState : Step τ Ct Gk _)
      fun state s ↦ state = past → s.ctx.galoisKeysLoaded = true := by
    refine .read (Contract.stable_const True) (fun state ↦ ?_) fun s hinv _ ↦ ?_
    · exact fun s s' _ h hrely hstate ↦ hrely (h hstate)
    · refine ⟨⟨hinv, id⟩, fun hstate ↦ hinv.past ?_⟩
      rw [hstate]
      exact hpast
  refine .bind hread fun state ↦ ?_
  by_cases hstate : state = past
  · simp only [hstate, ne_eq, not_true_eq_false, if_false]
    exact (loaded_acts hrest).pre fun s hs ↦ hs trivial
  · simp only [hstate, ne_eq, not_false_eq_true, if_true]
    exact (covered_acts hlate (by decide)).pre fun _ _ ↦ trivial

theorem covered_provisionGaloisKeys (galoisKeys : Bytes) :
    (coverage S).Triple t (fun _ ↦ True)
      (provisionGaloisKeys S m t galoisKeys : Step τ Ct Gk Reply) fun _ _ ↦ True := by
  by_cases hmode : m.packingMode = .cnp
  · simp only [provisionGaloisKeys, hmode, if_true]
    exact .done (Contract.stable_const True) fun _ _ _ ↦ trivial
  simp only [provisionGaloisKeys, hmode, if_false]
  refine .bind (covered_acts (m := m) (acts_provisioningGate galoisKeys) (by decide))
    fun state ↦ ?_
  by_cases hstate : state = awaitingKeys
  swap
  · simp only [hstate, ne_eq, not_false_eq_true, if_true]
    exact covered_acts (m := m) acts_late (by decide)
  simp only [hstate, ne_eq, not_true_eq_false, if_false]
  have hanswer : ∀ message : String, ActsOf S m t [.logs] (do
      let respState ← currentState
      return .provision respState message : Step τ Ct Gk Reply) :=
    fun message ↦ Acts.bind (acts_read _) fun _ ↦ .pure _
  cases hvalid : EvalContext160.validateGaloisKeys S m.packingMode galoisKeys with
  | error e =>
      refine .bind (covered_acts (m := m) (acts_call (.onStructuralResult none _)) ?_) ?_
      · simp [MachineCall.kind]
      exact fun _ ↦ covered_acts (hanswer _) (by decide)
  | ok keys =>
      have hinstall : (coverage S).Triple t (fun _ ↦ True) (installGaloisKeys t keys)
          fun _ (s : ServerState τ Ct Gk) ↦ s.ctx.galoisKeysLoaded = true := by
        refine .modify (Contract.stable_const True) (fun _ ↦ stable_loaded) fun s hinv _ _ ↦ ?_
        exact ⟨hinv.action (m := m) (.installs hvalid) (.inr (by simp)), rfl⟩
      have hrecord : ∀ message : String, ActsOf S m t [.logs, .structural true] (do
          let _ ← onStructuralResult t (some keys) message
          let respState ← currentState
          return .provision respState message : Step τ Ct Gk Reply) := by
        intro message
        apply Acts.bind ((acts_call (.onStructuralResult (some keys) _)).mono ?_)
        · exact fun _ ↦ (hanswer message).mono (by simp)
        · simp [MachineCall.kind]
      exact .bind hinstall fun _ ↦ loaded_acts (hrecord _)

theorem covered_handle [DecidableEq τ] (hmode : m.packingMode = .slot) (rpc : Rpc) :
    (coverage S).Triple t (fun _ ↦ True) (handle S m t rpc) fun _ _ ↦ True := by
  cases rpc with
  | provisionGaloisKeys galoisKeys => exact covered_provisionGaloisKeys galoisKeys
  | canaryCheck ciphertext =>
      obtain ⟨late, rest, heq, hlate, hrest⟩ :=
        canaryCheck_gated (S := S) (t := t) hmode ciphertext
      simp only [handle, heq]
      exact gated_acts (.inl rfl) hlate hrest
  | canaryConfirm passed message =>
      exact covered_acts (m := m) (acts_canaryConfirm passed message) (by decide)
  | getProvisioningStatus => exact covered_acts acts_getProvisioningStatus (by decide)
  | canaryCheckTranscipher symCiphertext nonce =>
      apply covered_acts (acts_handle (m := m) (.canaryCheckTranscipher symCiphertext nonce))
      simp [kinds]
  | runInference req draws =>
      by_cases hrefused : Refused m req
      · obtain ⟨code, message, heq⟩ := runInference_eq_refused S m t req draws hrefused
        simp only [handle, heq]
        exact .done (Contract.stable_const True) fun _ _ _ ↦ trivial
      · obtain ⟨late, rest, heq, hlate, hrest⟩ :=
          runInference_gated (S := S) (t := t) req draws hrefused
        simp only [handle, heq]
        exact gated_acts (.inr rfl) hlate hrest

end Steps

/-! ## Every run -/

theorem covered_new (noKeys : Gk) : Covered S (new .slot noKeys : ServerState τ Ct Gk) where
  installed := by simp [new]
  past := by simp [new, ProvisioningStateMachine.new]
  rotated := by simp [new]
  unassigned := by simp [new]

theorem covered_serve [DecidableEq τ] (m : ServiceConstants Pt) (hmode : m.packingMode = .slot)
    (noKeys : Gk) (schedule : List (Choice τ Rpc)) :
    Covered S (serve S m (new .slot noKeys) schedule).shared := by
  have hnew : Config.Sound (coverage S) (fun _ _ _ _ ↦ True)
      (.idle (new .slot noKeys) : Config (ServerState τ Ct Gk) τ Rpc Reply) :=
    Config.sound_idle (covered_new S noKeys)
  have hhandle : ∀ (t : τ) (rpc : Rpc), (coverage S).Triple t (coverage S).inv (handle S m t rpc)
      fun _ _ ↦ True := fun t rpc ↦ (covered_handle hmode rpc).pre fun _ _ ↦ trivial
  exact (hnew.run (fun t rpc _ ↦ hhandle t rpc) (Config.meets_true ..)).inv

/-- No step of the fold can fail for a missing key. -/
def FindsKeys (missing : String) (keys : Gk) : Prop :=
  ∀ acc, ∀ step ∈ STEPS, S.rotateVector acc step keys ≠ .error missing

/-- A load keeps the context or installs keys that cover the fold, and a push that
passes the gate is such a load; so a server past the structural rung, and every
rotation ever made, by whatever step, finds its keys. -/
theorem rotations_find_keys [DecidableEq τ] (m : ServiceConstants Pt)
    (hmode : m.packingMode = .slot) (noKeys : Gk) (missing : String)
    (hrotate : ∀ keys acc step, S.hasKey keys (S.galoisEltFromStep step) = true →
      S.rotateVector acc step keys ≠ .error missing) :
    (∀ (ctx : EvalContext160 Gk) (input : Bytes), ctx.LoadsOrKeeps S input) ∧
    (∀ (t : τ) (galoisKeys : Bytes) (s : ServerState τ Ct Gk), s.sm.state = awaitingKeys →
      ((provisionGaloisKeys S m t galoisKeys).run s).2.ctx =
        (s.ctx.loadAndValidateGaloisKeys S .slot galoisKeys).2) ∧
    ∀ schedule : List (Choice τ Rpc),
      let s := (serve S m (new .slot noKeys) schedule).shared
      ((∀ t keys, .keysAssigned t keys ∉ s.history) → s.ctx.galoisKeyBytes S = 0) ∧
      (s.sm.state = validating ∨ s.sm.state = ready →
        KeysCover S s.ctx.galoisKeys ∧ FindsKeys S missing s.ctx.galoisKeys) ∧
      ∀ t step keys, .canaryRotation t step keys ∈ s.history ∨
          .inferenceRotation t step keys ∈ s.history →
        step ∈ STEPS ∧ KeysCover S keys ∧ FindsKeys S missing keys := by
  have hfinds : ∀ {keys : Gk}, KeysCover S keys → FindsKeys S missing keys :=
    fun hcover acc step hstep ↦ hrotate _ acc step (hcover.elements step hstep)
  refine ⟨fun ctx input ↦ ctx.loadsOrKeeps input,
    fun t galoisKeys s hstate ↦ provisionGaloisKeys_ctx S hmode t galoisKeys s hstate,
    fun schedule ↦ ?_⟩
  intro s
  have hcovered : Covered S s := covered_serve S m hmode noKeys schedule
  refine ⟨?_, ?_, ?_⟩
  · intro hnone
    simp [EvalContext160.galoisKeyBytes, hcovered.unassigned hnone]
  · intro hpast
    have hcover := hcovered.installed (hcovered.past hpast)
    exact ⟨hcover, hfinds hcover⟩
  · intro t step keys hmem
    obtain ⟨hstep, hcover⟩ := hcovered.rotated t step keys hmem
    exact ⟨hstep, hcover, hfinds hcover⟩

/-! ## A push over the exact slots -/

/-- `Seal.keyed` with streams: a key stream lists steps, a ciphertext is the
impulse. -/
def keyedStreams : Seal (ZMod 4096 → ℤ) Unit (List ℕ) :=
  { Seal.keyed with
    load := fun _ ↦ .ok impulse
    loadGaloisKeys := fun steps ↦ .ok (steps.map fun step ↦ galoisElt step.toNat) }

def keyedConstants : ServiceConstants Unit := ⟨.slot, 0, (), (), (), true⟩

def keyedPush : List (Choice Unit Rpc) :=
  .call () (.provisionGaloisKeys [1, 2, 4, 8, 16, 32, 64, 128]) :: List.replicate 5 (.go ())

theorem rotations_find_keys_after_push :
    let s := (serve keyedStreams keyedConstants (new .slot []) keyedPush).shared
    s.sm.state = validating ∧ FindsKeys keyedStreams "Galois key not present" s.ctx.galoisKeys := by
  have hstate : (serve keyedStreams keyedConstants (new .slot []) keyedPush).shared.sm.state =
      validating := by decide +kernel
  have hfind := rotations_find_keys (τ := Unit) keyedStreams keyedConstants rfl []
    "Galois key not present" ?_
  · exact ⟨hstate, ((hfind.2.2 keyedPush).2.1 (.inl hstate)).2⟩
  · intro keys acc step hkey
    have hmem : galoisElt step ∈ keys := by simpa [keyedStreams, Seal.keyed] using hkey
    simp [keyedStreams, Seal.keyed, hmem]

end ServerState
end Ppfdaas
