import Ppfdaas.Library.RelyGuarantee
import Ppfdaas.Vendor.ServiceRuns

/-!
# Concurrent provisioning

The handlers of a SLOT-mode server on a pool of threads.  `ProvisionGaloisKeys`
checks the state, assigns the keys and records the structural result in three
separate steps, so two calls that both pass the check can interleave.
-/

namespace Ppfdaas.ServerState

open Interleaving ProvisioningState

variable {τ Ct Pt Gk : Type}

section Property

variable (S : Seal Ct Pt Gk)

def Valid (bytes : Bytes) : Prop :=
  ∃ keys, EvalContext160.validateGaloisKeys S .slot bytes = .ok keys

instance (bytes : Bytes) : Decidable (Valid S bytes) :=
  match h : EvalContext160.validateGaloisKeys S .slot bytes with
  | .ok keys => .isTrue ⟨keys, h⟩
  | .error _ => .isFalse fun ⟨keys, hkeys⟩ ↦ by simp [h] at hkeys

/-- A call with valid keys passed the state check. -/
def Event.ValidPush : Event τ Gk → Prop
  | .passedGate _ bytes => Valid S bytes
  | _ => False

def Event.IsConfirmed : Event τ Gk → Prop
  | .confirmed _ => True
  | _ => False

def Event.IsCanaryReturned : Event τ Gk → Prop
  | .canaryReturned _ => True
  | _ => False

instance (e : Event τ Gk) : Decidable (Event.ValidPush S e) := by
  cases e <;> (unfold Event.ValidPush; infer_instance)

instance (e : Event τ Gk) : Decidable (Event.IsConfirmed e) := by
  cases e <;> (unfold Event.IsConfirmed; infer_instance)

instance (e : Event τ Gk) : Decidable (Event.IsCanaryReturned e) := by
  cases e <;> (unfold Event.IsCanaryReturned; infer_instance)

/-- At most one call with valid keys passes the state check, and a confirm is
accepted only after a canary has come back. -/
def OneProvisioning (s s' : ServerState τ Ct Gk) : Prop :=
  ∀ e, s'.history = e :: s.history →
    (Event.ValidPush S e → ∀ e' ∈ s.history, ¬ Event.ValidPush S e') ∧
      (Event.IsConfirmed e → ∃ e' ∈ s.history, Event.IsCanaryReturned e')

instance [DecidableEq τ] [DecidableEq Gk] (s s' : ServerState τ Ct Gk) :
    Decidable (OneProvisioning S s s') :=
  match hhistory : s'.history with
  | [] => .isTrue fun e he ↦ by simp [hhistory] at he
  | e :: log =>
      decidable_of_iff (log = s.history →
        (Event.ValidPush S e → ∀ e' ∈ s.history, ¬ Event.ValidPush S e') ∧
          (Event.IsConfirmed e → ∃ e' ∈ s.history, Event.IsCanaryReturned e')) <| by
        simp [OneProvisioning, hhistory]

def Provisioned (s : ServerState τ Ct Gk) : Prop := ∃ t keys, .provisioned t keys ∈ s.history

/-- From a recorded structural result on the keys stay, and a ready server has
the keys of that result and of a canary that came back; no rotation was ever
made under others. -/
def KeysAsValidated (s s' : ServerState τ Ct Gk) : Prop :=
  (Provisioned s → s'.ctx.galoisKeys = s.ctx.galoisKeys) ∧
  (s'.sm.state = ready →
    (∃ t, .provisioned t s'.ctx.galoisKeys ∈ s'.history) ∧
      ∃ t, .canaryReturned t ∈ s'.history ∧
        ∀ step ∈ STEPS, .canaryRotation t step s'.ctx.galoisKeys ∈ s'.history) ∧
  ∀ t step keys, .canaryRotation t step keys ∈ s'.history ∨
    .inferenceRotation t step keys ∈ s'.history → keys = s'.ctx.galoisKeys

end Property

/-! ## One step of a handler -/

section Contract

variable (S : Seal Ct Pt Gk)

/-- The log has a rotation by each of the steps. -/
def Rotated (event : ℤ → Gk → Event τ Gk) (steps : List ℤ) (s : ServerState τ Ct Gk) : Prop :=
  ∀ step ∈ steps, ∃ keys, event step keys ∈ s.history

/-- What one step of thread `t` may do to the keys, the state and the log. -/
inductive Move (t : τ) (s s' : ServerState τ Ct Gk) : Prop
  | quiet (hctx : s'.ctx = s.ctx) (hhistory : s'.history = s.history)
      (hstate : s'.sm.state = s.sm.state ∨ s'.sm.state = fault)
  | gate (bytes : Bytes) (hctx : s'.ctx = s.ctx) (hstate : s'.sm.state = s.sm.state)
      (hhistory : s'.history = .passedGate t bytes :: s.history)
      (hfirst : Valid S bytes → ∀ u b, Valid S b → .passedGate u b ∉ s.history)
  | assigned (bytes : Bytes) (keys : Gk)
      (hvalid : EvalContext160.validateGaloisKeys S .slot bytes = .ok keys)
      (hgate : .passedGate t bytes ∈ s.history) (hnone : ∀ u k, .keysAssigned u k ∉ s.history)
      (hctx : s'.ctx.galoisKeys = keys) (hstate : s'.sm.state = s.sm.state)
      (hhistory : s'.history = .keysAssigned t keys :: s.history)
  | provisioned (keys : Gk) (hassigned : .keysAssigned t keys ∈ s.history)
      (hctx : s'.ctx = s.ctx) (hstate' : s'.sm.state = validating)
      (hhistory : s'.history = .provisioned t keys :: s.history)
  | rotated (e : Event τ Gk) (step : ℤ) (he : e = .canaryRotation t step s.ctx.galoisKeys ∨
        e = .inferenceRotation t step s.ctx.galoisKeys) (hprovisioned : Provisioned s)
      (hctx : s'.ctx = s.ctx) (hstate : s'.sm.state = s.sm.state)
      (hhistory : s'.history = e :: s.history)
  | canaryReturned (hrotated : Rotated (.canaryRotation t) STEPS s)
      (hctx : s'.ctx = s.ctx) (hstate : s'.sm.state = s.sm.state)
      (hhistory : s'.history = .canaryReturned t :: s.history)
  | confirmed (hreturned : ∃ u, .canaryReturned u ∈ s.history)
      (hstate : s.sm.state = validating) (hctx : s'.ctx = s.ctx)
      (hhistory : s'.history = .confirmed t :: s.history)

/-- What the log says about the installed keys. -/
structure KeyRecord (s : ServerState τ Ct Gk) : Prop where
  gate : ∀ t b u b', Valid S b → Valid S b' → .passedGate t b ∈ s.history →
    .passedGate u b' ∈ s.history → t = u
  assigned : ∀ t keys, .keysAssigned t keys ∈ s.history →
    s.ctx.galoisKeys = keys ∧ ∃ b, Valid S b ∧ .passedGate t b ∈ s.history
  provisioned : ∀ t keys, .provisioned t keys ∈ s.history → .keysAssigned t keys ∈ s.history
  recorded : s.sm.state = validating ∨ s.sm.state = ready → Provisioned s
  rotated : ∀ t step keys, .canaryRotation t step keys ∈ s.history ∨
    .inferenceRotation t step keys ∈ s.history → keys = s.ctx.galoisKeys ∧ Provisioned s
  returned : ∀ t, .canaryReturned t ∈ s.history → Rotated (.canaryRotation t) STEPS s
  confirmed : s.sm.state = ready → ∃ t, .canaryReturned t ∈ s.history

variable {S}

theorem Move.history_suffix {t : τ} {s s' : ServerState τ Ct Gk} (h : Move S t s s') :
    s.history <:+ s'.history := by
  cases h with
  | quiet _ hhistory => rw [hhistory]
  | gate _ _ _ hhistory => exact hhistory ▸ List.suffix_cons _ _
  | assigned _ _ _ _ _ _ _ hhistory => exact hhistory ▸ List.suffix_cons _ _
  | provisioned _ _ _ _ hhistory => exact hhistory ▸ List.suffix_cons _ _
  | rotated _ _ _ _ _ _ hhistory => exact hhistory ▸ List.suffix_cons _ _
  | canaryReturned _ _ _ hhistory => exact hhistory ▸ List.suffix_cons _ _
  | confirmed _ _ _ hhistory => exact hhistory ▸ List.suffix_cons _ _

theorem Provisioned.mono {s s' : ServerState τ Ct Gk} (h : Provisioned s)
    (hsuffix : s.history <:+ s'.history) : Provisioned s' := by
  obtain ⟨t, keys, hmem⟩ := h
  exact ⟨t, keys, hsuffix.subset hmem⟩

theorem Rotated.mono {event : ℤ → Gk → Event τ Gk} {steps : List ℤ} {s s' : ServerState τ Ct Gk}
    (h : Rotated event steps s) (hsuffix : s.history <:+ s'.history) : Rotated event steps s' := by
  intro step hstep
  obtain ⟨keys, hmem⟩ := h step hstep
  exact ⟨keys, hsuffix.subset hmem⟩

theorem KeyRecord.log {s s' : ServerState τ Ct Gk} (h : KeyRecord S s) {e : Event τ Gk}
    (hctx : s'.ctx = s.ctx) (hhistory : s'.history = e :: s.history)
    (hgate : ∀ t b, e = .passedGate t b → Valid S b → ∀ u b', Valid S b' →
      .passedGate u b' ∉ s.history)
    (hassigned : ∀ t keys, e ≠ .keysAssigned t keys)
    (hprovisioned : ∀ t keys, e = .provisioned t keys → .keysAssigned t keys ∈ s.history)
    (hrotated : ∀ t step keys, e = .canaryRotation t step keys ∨
      e = .inferenceRotation t step keys → keys = s.ctx.galoisKeys ∧ Provisioned s)
    (hreturned : ∀ t, e = .canaryReturned t → Rotated (.canaryRotation t) STEPS s)
    (hvalidating : s'.sm.state = validating ∨ s'.sm.state = ready → Provisioned s')
    (hready : s'.sm.state = ready → ∃ t, .canaryReturned t ∈ s.history) : KeyRecord S s' := by
  have hsuffix : s.history <:+ s'.history := hhistory ▸ List.suffix_cons e s.history
  refine ⟨?_, ?_, ?_, hvalidating, ?_, ?_, ?_⟩
  · intro t b u b' hb hb' hmem hmem'
    rw [hhistory, List.mem_cons] at hmem hmem'
    rcases hmem with heq | hmem
    · rcases hmem' with heq' | hmem'
      · rw [← heq] at heq'
        exact (Event.passedGate.inj heq').1.symm
      · exact absurd hmem' (hgate t b heq.symm hb u b' hb')
    · rcases hmem' with heq' | hmem'
      · exact absurd hmem (hgate u b' heq'.symm hb' t b hb)
      · exact h.gate t b u b' hb hb' hmem hmem'
  · intro t keys hmem
    rw [hhistory, List.mem_cons] at hmem
    obtain ⟨hkeys, b, hb, hpassed⟩ := h.assigned t keys (hmem.resolve_left (hassigned t keys).symm)
    rw [hctx]
    exact ⟨hkeys, b, hb, hsuffix.subset hpassed⟩
  · intro t keys hmem
    rw [hhistory, List.mem_cons] at hmem
    apply hsuffix.subset
    rcases hmem with heq | hmem
    · exact hprovisioned t keys heq.symm
    · exact h.provisioned t keys hmem
  · intro t step keys hmem
    rw [hhistory] at hmem
    have hold : keys = s.ctx.galoisKeys ∧ Provisioned s := by
      rcases Event.rotation_cons hmem with heq | hmem
      · exact hrotated t step keys heq
      · exact h.rotated t step keys hmem
    rw [hctx]
    exact ⟨hold.1, hold.2.mono hsuffix⟩
  · intro t hmem
    rw [hhistory, List.mem_cons] at hmem
    have hold : Rotated (.canaryRotation t) STEPS s := by
      rcases hmem with heq | hmem
      · exact hreturned t heq.symm
      · exact h.returned t hmem
    exact hold.mono hsuffix
  · intro hstate
    obtain ⟨t, hmem⟩ := hready hstate
    exact ⟨t, hsuffix.subset hmem⟩

/-- While nothing was assigned, nothing was recorded and nothing rotated. -/
theorem KeyRecord.not_provisioned {s : ServerState τ Ct Gk} (h : KeyRecord S s)
    (hnone : ∀ u k, .keysAssigned u k ∉ s.history) : ¬ Provisioned s := by
  rintro ⟨t, keys, hmem⟩
  exact hnone t keys (h.provisioned t keys hmem)

theorem KeyRecord.move {t : τ} {s s' : ServerState τ Ct Gk} (h : KeyRecord S s)
    (hmove : Move S t s s') : KeyRecord S s' := by
  have hprovisioned : Provisioned s → Provisioned s' := fun hp ↦ hp.mono hmove.history_suffix
  cases hmove with
  | quiet hctx hhistory hstate =>
      have hsame : ∀ state, state ≠ fault → s'.sm.state = state → s.sm.state = state := by
        intro state hne hstate'
        rcases hstate with hsame | hfault
        · exact hsame.symm.trans hstate'
        · exact absurd (hstate'.symm.trans hfault) hne
      refine ⟨?_, ?_, ?_, ?_, ?_, ?_, ?_⟩
      · simpa only [hhistory] using h.gate
      · simpa only [hhistory, hctx] using h.assigned
      · simpa only [hhistory] using h.provisioned
      · intro hcase
        apply hprovisioned
        apply h.recorded
        exact hcase.imp (hsame validating (by decide)) (hsame ready (by decide))
      · intro u step keys hmem
        rw [hhistory] at hmem
        rw [hctx]
        exact ⟨(h.rotated u step keys hmem).1, hprovisioned (h.rotated u step keys hmem).2⟩
      · simpa only [hhistory, Rotated] using h.returned
      · intro hready
        rw [hhistory]
        exact h.confirmed (hsame ready (by decide) hready)
  | gate bytes hctx hstate hhistory hfirst =>
      refine h.log hctx hhistory ?_ nofun nofun (by simp) nofun ?_ ?_
      · rintro u b heq hvalid
        obtain ⟨-, rfl⟩ := Event.passedGate.inj heq
        exact hfirst hvalid
      · rw [hstate]
        exact fun hcase ↦ hprovisioned (h.recorded hcase)
      · rw [hstate]
        exact h.confirmed
  | assigned bytes keys hvalid hgate hnone hctx hstate hhistory =>
      have hsuffix : s.history <:+ s'.history := hhistory ▸ List.suffix_cons _ _
      have hnot := h.not_provisioned hnone
      refine ⟨?_, ?_, ?_, ?_, ?_, ?_, ?_⟩
      · simpa [hhistory] using h.gate
      · intro u k hmem
        rw [hhistory, List.mem_cons] at hmem
        obtain ⟨rfl, rfl⟩ := Event.keysAssigned.inj (hmem.resolve_right (hnone u k))
        exact ⟨hctx, bytes, ⟨k, hvalid⟩, hsuffix.subset hgate⟩
      · intro u k hmem
        rw [hhistory, List.mem_cons] at hmem
        exact absurd ⟨u, k, hmem.resolve_left (by simp)⟩ hnot
      · rw [hstate]
        exact fun hcase ↦ absurd (h.recorded hcase) hnot
      · intro u step k hmem
        rw [hhistory] at hmem
        have hold := (Event.rotation_cons hmem).resolve_left (by simp)
        exact absurd (h.rotated u step k hold).2 hnot
      · intro u hmem
        have hold : .canaryReturned u ∈ s.history := by simpa [hhistory] using hmem
        exact (h.returned u hold).mono hsuffix
      · rw [hstate]
        exact fun hready ↦ absurd (h.recorded (.inr hready)) hnot
  | provisioned keys hassigned hctx hstate' hhistory =>
      refine h.log hctx hhistory nofun nofun ?_ (by simp) nofun ?_ ?_
      · intro u k heq
        obtain ⟨rfl, rfl⟩ := Event.provisioned.inj heq
        exact hassigned
      · exact fun _ ↦ ⟨t, keys, by simp [hhistory]⟩
      · simp [hstate']
  | rotated e step he hrecorded hctx hstate hhistory =>
      refine h.log hctx hhistory ?_ ?_ ?_ ?_ ?_ (fun _ ↦ hprovisioned hrecorded) ?_
      · rcases he with rfl | rfl <;> simp
      · rcases he with rfl | rfl <;> simp
      · rcases he with rfl | rfl <;> simp
      · rcases he with rfl | rfl <;> simp [hrecorded, eq_comm]
      · rcases he with rfl | rfl <;> simp
      · rw [hstate]
        exact h.confirmed
  | canaryReturned hrotated hctx hstate hhistory =>
      refine h.log hctx hhistory nofun nofun nofun (by simp) ?_ ?_ ?_
      · intro u heq
        obtain rfl := Event.canaryReturned.inj heq
        exact hrotated
      · rw [hstate]
        exact fun hcase ↦ hprovisioned (h.recorded hcase)
      · rw [hstate]
        exact h.confirmed
  | confirmed hreturned hstate hctx hhistory =>
      refine h.log hctx hhistory nofun nofun nofun (by simp) nofun ?_ fun _ ↦ hreturned
      exact fun _ ↦ hprovisioned (h.recorded (.inl hstate))

variable (S) in
/-- The contract of the handlers of a server that is provisioned once. -/
def provisioning : Contract (ServerState τ Ct Gk) τ where
  inv := KeyRecord S
  cond := OneProvisioning S
  rely := fun t s s' ↦ ∃ u, u ≠ t ∧ Move S u s s'
  guar := Move S
  guar_rely := fun htu _ hguar ↦ ⟨_, htu, hguar⟩
  guar_inv := fun hinv hguar ↦ hinv.move hguar

end Contract

/-! ## Steps that leave the provisioning alone -/

section Triples

variable {S : Seal Ct Pt Gk} {t : τ}

/-- A fact about the log that no later entry destroys. -/
def Kept (P : ServerState τ Ct Gk → Prop) : Prop :=
  ∀ s s', s.history <:+ s'.history → P s → P s'

theorem kept_true : Kept fun _ : ServerState τ Ct Gk ↦ True := fun _ _ _ _ ↦ trivial

theorem kept_provisioned : Kept (Provisioned : ServerState τ Ct Gk → Prop) :=
  fun _ _ hsuffix h ↦ h.mono hsuffix

theorem kept_mem (e : Event τ Gk) : Kept fun s : ServerState τ Ct Gk ↦ e ∈ s.history :=
  fun _ _ hsuffix h ↦ hsuffix.subset h

theorem kept_rotated (event : ℤ → Gk → Event τ Gk) (steps : List ℤ) :
    Kept fun s : ServerState τ Ct Gk ↦ Rotated event steps s :=
  fun _ _ hsuffix h ↦ h.mono hsuffix

theorem Kept.and {P Q : ServerState τ Ct Gk → Prop} (hP : Kept P) (hQ : Kept Q) :
    Kept fun s ↦ P s ∧ Q s :=
  fun s s' hsuffix h ↦ ⟨hP s s' hsuffix h.1, hQ s s' hsuffix h.2⟩

theorem Kept.stable {P : ServerState τ Ct Gk → Prop} (hP : Kept P) :
    (provisioning S).Stable t P := by
  rintro s s' - h ⟨u, -, hmove⟩
  exact hP s s' hmove.history_suffix h

theorem Kept.imp {P : ServerState τ Ct Gk → Prop} (hP : Kept P) (φ : Prop) :
    Kept fun s ↦ φ → P s :=
  fun s s' hsuffix h hφ ↦ hP s s' hsuffix (h hφ)

/-- A step that touches neither the keys nor the log, and the state only to trip. -/
def Quiet (s s' : ServerState τ Ct Gk) : Prop :=
  s'.ctx = s.ctx ∧ s'.history = s.history ∧ (s'.sm.state = s.sm.state ∨ s'.sm.state = fault)

theorem quiet_refl (s : ServerState τ Ct Gk) : Quiet s s := ⟨rfl, rfl, .inl rfl⟩

theorem Quiet.move {s s' : ServerState τ Ct Gk} (h : Quiet s s') : Move S t s s' :=
  .quiet h.1 h.2.1 h.2.2

theorem Quiet.kept {P : ServerState τ Ct Gk → Prop} (hP : Kept P) {s s' : ServerState τ Ct Gk}
    (h : Quiet s s') (hs : P s) : P s' :=
  hP s s' (by rw [h.2.1]) hs

variable {P : ServerState τ Ct Gk → Prop}

variable (S t P) in
abbrev Keeps {α : Type} (p : Prog (ServerState τ Ct Gk) α) : Prop :=
  (provisioning S).Triple t P p fun _ ↦ P

theorem keeps_pure (hP : Kept P) {α : Type} (a : α) : Keeps S t P (pure a) :=
  .done hP.stable fun _ _ hs ↦ hs

theorem keeps_quiet (hP : Kept P) {α : Type} {f : ServerState τ Ct Gk → α × ServerState τ Ct Gk}
    (hf : ∀ s, Quiet s (f s).2) : Keeps S t P (.atomically f) :=
  .atomically hP.stable (fun _ ↦ hP.stable) fun s _ hs _ ↦ ⟨(hf s).move, (hf s).kept hP hs⟩

theorem keeps_read (hP : Kept P) {α : Type} (f : ServerState τ Ct Gk → α) :
    Keeps S t P (.read f) :=
  keeps_quiet hP quiet_refl

theorem keeps_modify (hP : Kept P) {f : ServerState τ Ct Gk → ServerState τ Ct Gk}
    (hf : ∀ s, Quiet s (f s)) : Keeps S t P (.modify f) :=
  keeps_quiet hP hf

theorem keeps_attempt (hP : Kept P) {α : Type} (x : Except String α) :
    Keeps S t P (attempt x : ExceptT String (Prog (ServerState τ Ct Gk)) α).run :=
  keeps_pure hP x

theorem keeps_except_bind {α β : Type} {x : ExceptT String (Prog (ServerState τ Ct Gk)) α}
    {f : α → ExceptT String (Prog (ServerState τ Ct Gk)) β} (hx : Keeps S t P x.run)
    (hf : ∀ a, Keeps S t P (f a).run) : Keeps S t P (x >>= f).run :=
  .except_bind hx hf fun _ _ _ hs ↦ hs

theorem keeps_foldlM (hP : Kept P) {step : Ct → ℤ → ExceptT String (Prog (ServerState τ Ct Gk)) Ct}
    (hstep : ∀ acc i, Keeps S t P (step acc i).run) (steps : List ℤ) (acc : Ct) :
    Keeps S t P (steps.foldlM step acc).run := by
  induction steps generalizing acc with
  | nil => exact keeps_pure hP _
  | cons i steps ih => exact keeps_except_bind (hstep acc i) ih

theorem keeps_currentState (hP : Kept P) : Keeps S t P currentState := keeps_read hP _

theorem keeps_forceFault (hP : Kept P) (message : String) : Keeps S t P (forceFault message) :=
  keeps_modify hP fun _ ↦ ⟨rfl, rfl, .inr rfl⟩

theorem keeps_recordRequestAndMaybeTrip (hP : Kept P) (checksPassed : Bool) (reason : String) :
    Keeps S t P (recordRequestAndMaybeTrip checksPassed reason) := by
  refine .bind (keeps_modify hP fun _ ↦ ⟨rfl, rfl, .inl rfl⟩) fun _ ↦ ?_
  cases checksPassed with
  | true => exact keeps_pure hP _
  | false =>
      refine .bind (keeps_quiet hP fun _ ↦ ⟨rfl, rfl, .inl rfl⟩) fun mismatches ↦ ?_
      by_cases hcount : mismatches < ProvisioningStateMachine.kMaxContinuousMismatches
      · simpa only [hcount, if_true] using keeps_pure hP _
      · simp only [hcount, if_false]
        refine keeps_quiet hP fun s ↦ ⟨rfl, rfl, ?_⟩
        by_cases hready : s.sm.state = ready
        · exact .inr (by simp [ProvisioningStateMachine.maybeTrip, hready])
        · exact .inl (by simp [ProvisioningStateMachine.maybeTrip, hready])

/-! ## Rotations -/

section Rotations

variable {event : ℤ → Gk → Event τ Gk} (hP : Kept P) (hprovisioned : ∀ s, P s → Provisioned s)
  (hevent : ∀ step keys, event step keys = .canaryRotation t step keys ∨
    event step keys = .inferenceRotation t step keys)

include hP hprovisioned hevent

theorem rotate_logged (acc : Ct) (step : ℤ) :
    (provisioning S).Triple t P (rotate S event acc step).run
      fun _ s ↦ P s ∧ Rotated event [step] s := by
  have hpost := hP.and (kept_rotated event [step])
  refine .bind (R := fun _ ↦ P) (keeps_modify hP fun _ ↦ ⟨rfl, rfl, .inl rfl⟩) fun _ ↦ ?_
  refine .atomically hP.stable (fun _ ↦ hpost.stable) fun s _ hs _ ↦ ⟨?_, ?_, ?_⟩
  · exact .rotated _ step (hevent step s.ctx.galoisKeys) (hprovisioned s hs) rfl rfl rfl
  · exact hP s _ (List.suffix_cons _ _) hs
  · intro other hother
    obtain rfl := List.mem_singleton.mp hother
    exact ⟨s.ctx.galoisKeys, List.mem_cons_self⟩

theorem keeps_rotateAdd (acc : Ct) (step : ℤ) :
    Keeps S t P (rotate S event acc step >>= fun tmp ↦ attempt (S.add acc tmp)).run :=
  keeps_except_bind ((rotate_logged hP hprovisioned hevent acc step).conseq (fun _ hs ↦ hs)
    fun _ _ _ hs ↦ hs.1) fun _ ↦ keeps_attempt hP _

theorem keeps_treeSum (ct : Ct) : Keeps S t P (treeSum S event ct).run :=
  keeps_foldlM hP (keeps_rotateAdd hP hprovisioned hevent) STEPS ct

/-- A fold that comes to its end has logged a rotation by each of its steps. -/
theorem foldSteps_logged (steps : List ℤ) (acc : Ct) :
    (provisioning S).Triple t P (steps.foldlM (fun acc step ↦ do
      let tmp ← rotate S event acc step
      attempt (S.add acc tmp)) acc).run fun r s ↦
        ∀ sum, r = .ok sum → P s ∧ Rotated event steps s := by
  induction steps generalizing P acc with
  | nil => exact .done hP.stable fun _ _ hs _ _ ↦ ⟨hs, fun _ hstep ↦ absurd hstep List.not_mem_nil⟩
  | cons step steps ih =>
      have hkept := hP.and (kept_rotated event [step])
      have hadd : (provisioning S).Triple t P
          (rotate S event acc step >>= fun tmp ↦ attempt (S.add acc tmp)).run fun r s ↦
            ∀ sum, r = .ok sum → P s ∧ Rotated event [step] s := by
        refine .except_bind (rotate_logged hP hprovisioned hevent acc step) (fun tmp ↦ ?_) nofun
        exact (keeps_attempt hkept _).conseq (fun _ hs ↦ hs) fun _ _ _ hs _ _ ↦ hs
      refine .except_bind hadd (fun sum ↦ ?_) nofun
      have hrest := ih hkept (fun s hs ↦ hprovisioned s hs.1) sum
      refine hrest.conseq (fun _ hs ↦ hs sum rfl) fun r s _ hs total htotal ↦ ?_
      obtain ⟨⟨hs, hfirst⟩, hlater⟩ := hs total htotal
      refine ⟨hs, fun other hother ↦ ?_⟩
      rcases List.mem_cons.mp hother with rfl | hmem
      · exact hfirst other (List.mem_singleton_self other)
      · exact hlater other hmem

end Rotations

/-! ## The handlers -/

/-- Between its check and its assignment the only call with valid keys finds no
keys assigned. -/
def Window (t : τ) (bytes : Bytes) (s : ServerState τ Ct Gk) : Prop :=
  .passedGate t bytes ∈ s.history ∧ ∀ u keys, .keysAssigned u keys ∉ s.history

theorem stable_window {bytes : Bytes} (hvalid : Valid S bytes) :
    (provisioning S).Stable t (Window t bytes : ServerState τ Ct Gk → Prop) := by
  rintro s s' hinv ⟨hpassed, hnone⟩ ⟨u, hne, hmove⟩
  refine ⟨hmove.history_suffix.subset hpassed, ?_⟩
  intro v keys hmem
  -- Only a call that passed the check assigns, and that call is this one.
  have hinv' : KeyRecord S s' := hinv.move hmove
  cases hmove with
  | assigned bytes' keys' hvalid' hgate _ _ _ _ =>
      exact hne (hinv.gate u bytes' t bytes ⟨keys', hvalid'⟩ hvalid hgate hpassed)
  | quiet _ hhistory => exact hnone v keys (hhistory ▸ hmem)
  | gate _ _ _ hhistory => exact hnone v keys (by simpa [hhistory] using hmem)
  | provisioned _ _ _ _ hhistory => exact hnone v keys (by simpa [hhistory] using hmem)
  | rotated e step he _ _ _ hhistory =>
      rcases he with rfl | rfl
      · exact hnone v keys (by simpa [hhistory] using hmem)
      · exact hnone v keys (by simpa [hhistory] using hmem)
  | canaryReturned _ _ _ hhistory => exact hnone v keys (by simpa [hhistory] using hmem)
  | confirmed _ _ _ hhistory => exact hnone v keys (by simpa [hhistory] using hmem)

theorem gate_window (bytes : Bytes) :
    (provisioning S).Triple t (fun _ ↦ True) (provisioningGate t bytes) fun state s ↦
      state = awaitingKeys → Valid S bytes → Window t bytes s := by
  refine .atomically kept_true.stable (fun state ↦ ?_) ?_
  · intro s s' hinv h hrely hstate hvalid
    exact stable_window hvalid s s' hinv (h hstate hvalid) hrely
  · intro s hinv _ hcond
    by_cases hstate : s.sm.state = awaitingKeys
    · simp only [hstate, if_true] at hcond ⊢
      have hfirst : Valid S bytes → ∀ u b, Valid S b → .passedGate u b ∉ s.history :=
        fun hvalid u b hb hmem ↦ (hcond _ rfl).1 hvalid _ hmem hb
      refine ⟨.gate bytes rfl rfl rfl hfirst, ?_⟩
      intro _ hvalid
      refine ⟨List.mem_cons_self, ?_⟩
      intro u keys hmem
      obtain ⟨-, b, hb, hpassed⟩ := hinv.assigned u keys (by simpa using hmem)
      exact hfirst hvalid u b hb hpassed
    · simp only [hstate, if_false]
      exact ⟨(quiet_refl s).move, False.elim⟩

theorem install_assigned {bytes : Bytes} {keys : Gk}
    (hvalid : EvalContext160.validateGaloisKeys S .slot bytes = .ok keys) :
    (provisioning S).Triple t (Window t bytes) (installGaloisKeys t keys)
      fun _ s ↦ .keysAssigned t keys ∈ s.history := by
  refine .modify (stable_window ⟨keys, hvalid⟩) (fun _ ↦ (kept_mem _).stable) ?_
  rintro s - ⟨hpassed, hnone⟩ -
  exact ⟨.assigned bytes keys hvalid hpassed hnone rfl rfl rfl, List.mem_cons_self⟩

/-- The recorded result is about the keys this thread assigned. -/
theorem keeps_onStructuralResult (candidate : Option Gk) (message : String)
    (P : ServerState τ Ct Gk → Prop) (hP : Kept P)
    (hassigned : ∀ keys, candidate = some keys → ∀ s, P s → .keysAssigned t keys ∈ s.history) :
    Keeps S t P (onStructuralResult t candidate message) := by
  refine .atomically hP.stable (fun _ ↦ hP.stable) fun s _ hs _ ↦ ?_
  by_cases hstate : s.sm.state = awaitingKeys
  · rw [ProvisioningStateMachine.onStructuralResult_of_awaitingKeys _ hstate]
    cases candidate with
    | none =>
        have hquiet :
            Quiet s { s with sm := { s.sm with state := fault, lastMessage := message } } :=
          ⟨rfl, rfl, .inr rfl⟩
        exact ⟨hquiet.move, hquiet.kept hP hs⟩
    | some keys =>
        refine ⟨.provisioned keys (hassigned keys rfl s hs) rfl rfl rfl, ?_⟩
        exact hP s _ (List.suffix_cons _ _) hs
  · rw [ProvisioningStateMachine.onStructuralResult_of_ne _ hstate]
    have hquiet : Quiet s { s with sm := { s.sm with lastMessage := message } } :=
      ⟨rfl, rfl, .inl rfl⟩
    cases candidate <;> exact ⟨hquiet.move, hquiet.kept hP hs⟩

theorem keeps_currentState_twice {α : Type} (hP : Kept P)
    {f : ProvisioningState → ProvisioningState → α} :
    Keeps S t P (do
      let respState ← currentState
      let current ← currentState
      return f respState current) :=
  .bind (keeps_currentState hP) fun _ ↦ .bind (keeps_currentState hP) fun _ ↦ keeps_pure hP _

variable {m : ServiceConstants Pt}

theorem currentState_provisioned :
    (provisioning S).Triple t (fun _ ↦ True) (currentState : Step τ Ct Gk _) fun state s ↦
      state = validating ∨ state = ready → Provisioned s := by
  refine .read kept_true.stable (fun _ ↦ (kept_provisioned.imp _).stable) fun s hinv _ ↦ ?_
  exact ⟨(quiet_refl s).move, hinv.recorded⟩

theorem canaryBlock_rotated (ciphertext : Bytes) :
    (provisioning S).Triple t Provisioned (canaryBlock S t ciphertext).run fun r s ↦
      ∀ bytes, r = .ok bytes → Rotated (.canaryRotation t) STEPS s := by
  refine .except_bind (keeps_attempt kept_provisioned _) (fun ct ↦ ?_) nofun
  by_cases hparms : S.parmsId ct = S.firstParmsId
  swap
  · simp only [ne_eq, hparms, not_false_eq_true, if_true]
    exact .done kept_provisioned.stable nofun
  simp only [ne_eq, hparms, not_true_eq_false, if_false]
  have hsum : (provisioning S).Triple t Provisioned (treeSum S (.canaryRotation t) ct).run
      fun r s ↦ ∀ sum, r = .ok sum → Provisioned s ∧ Rotated (.canaryRotation t) STEPS s :=
    foldSteps_logged kept_provisioned (fun _ hs ↦ hs) (fun _ _ ↦ .inl rfl) STEPS ct
  refine .except_bind hsum (fun acc ↦ ?_) nofun
  have hreturn : (provisioning S).Triple t (Rotated (.canaryRotation t) STEPS)
      (pure (S.save acc) : ExceptT String (Prog (ServerState τ Ct Gk)) Bytes).run fun r s ↦
        ∀ bytes, r = .ok bytes → Rotated (.canaryRotation t) STEPS s :=
    .done (kept_rotated _ _).stable fun _ _ hs _ _ ↦ hs
  exact hreturn.pre fun _ hs ↦ (hs acc rfl).2

theorem keeps_onCanaryResult (passed : Bool) (message : String) :
    Keeps S t (fun _ ↦ True) (onCanaryResult t passed message) := by
  refine .atomically kept_true.stable (fun _ ↦ kept_true.stable) fun s _ _ hcond ↦
    ⟨?_, trivial⟩
  by_cases hstate : s.sm.state = validating
  · rw [ProvisioningStateMachine.onCanaryResult_of_validating _ hstate] at hcond ⊢
    cases passed with
    | true =>
        obtain ⟨e, hmem, he⟩ := (hcond _ rfl).2 trivial
        cases e with
        | canaryReturned u => exact .confirmed ⟨u, hmem⟩ hstate rfl rfl
        | _ => exact he.elim
    | false => exact .quiet rfl rfl (.inr rfl)
  · rw [ProvisioningStateMachine.onCanaryResult_of_ne _ hstate]
    exact .quiet rfl rfl (.inl rfl)

theorem keeps_canaryConfirm (passed : Bool) (message : String) :
    Keeps S t (fun _ ↦ True) (canaryConfirm t passed message) := by
  refine .bind (keeps_currentState kept_true) fun state ↦ ?_
  by_cases hstate : state = validating
  swap
  · simp only [ne_eq, hstate, not_false_eq_true, if_true]
    exact keeps_currentState_twice kept_true
  simp only [hstate, ne_eq, not_true_eq_false, if_false]
  refine .bind (keeps_onCanaryResult passed _) fun _ ↦ ?_
  exact .bind (keeps_currentState kept_true) fun _ ↦ keeps_pure kept_true _

theorem keeps_getProvisioningStatus :
    Keeps S t (fun _ ↦ True) (getProvisioningStatus S m) := by
  refine .bind (keeps_currentState kept_true) fun _ ↦ .bind (keeps_read kept_true _) fun _ ↦ ?_
  refine .bind (keeps_read kept_true _) fun _ ↦ .bind (keeps_read kept_true _) fun _ ↦ ?_
  exact keeps_pure kept_true _

section Slot

variable (hmode : m.packingMode = .slot)

include hmode

theorem keeps_provisionGaloisKeys (bytes : Bytes) :
    Keeps S t (fun _ ↦ True) (provisionGaloisKeys S m t bytes) := by
  simp only [provisionGaloisKeys, hmode, reduceCtorEq, if_false]
  refine .bind (gate_window bytes) fun state ↦ ?_
  by_cases hstate : state = awaitingKeys
  swap
  · simp only [ne_eq, hstate, not_false_eq_true, if_true]
    exact (keeps_currentState_twice kept_true).pre fun _ _ ↦ trivial
  simp only [hstate, ne_eq, not_true_eq_false, if_false]
  cases hvalid : EvalContext160.validateGaloisKeys S .slot bytes with
  | error e =>
      refine .bind (R := fun _ _ ↦ True) ?_ fun _ ↦ ?_
      · have hrecord := keeps_onStructuralResult (S := S) (t := t) none
          ("structural validation FAILED: " ++ e) _ kept_true (by simp)
        exact hrecord.pre fun _ _ ↦ trivial
      · exact .bind (keeps_currentState kept_true) fun _ ↦ keeps_pure kept_true _
  | ok keys =>
      have hinstall := (install_assigned (t := t) hvalid).pre
        fun s (h : True → Valid S bytes → Window t bytes s) ↦ h trivial ⟨keys, hvalid⟩
      refine .bind hinstall fun _ ↦ ?_
      refine .bind (R := fun _ _ ↦ True) ?_ fun _ ↦ ?_
      · have hrecord := keeps_onStructuralResult (S := S) (t := t) (some keys)
          ("structural validation passed (parms_id matches; all required Galois " ++
            "elements present); awaiting canary handshake") _ (kept_mem _) fun k hk s hs ↦ by
            obtain rfl := Option.some.inj hk
            exact hs
        exact hrecord.conseq (fun _ hs ↦ hs) fun _ _ _ _ ↦ trivial
      · exact .bind (keeps_currentState kept_true) fun _ ↦ keeps_pure kept_true _

theorem keeps_canaryCheck (ciphertext : Bytes) :
    Keeps S t (fun _ ↦ True) (canaryCheck S m t ciphertext) := by
  simp only [canaryCheck, hmode, reduceCtorEq, if_false]
  refine .bind currentState_provisioned fun state ↦ ?_
  by_cases hstate : state = validating
  swap
  · simp only [ne_eq, hstate, not_false_eq_true, if_true]
    exact (keeps_currentState_twice kept_true).pre fun _ _ ↦ trivial
  simp only [hstate, ne_eq, not_true_eq_false, if_false]
  -- Both faults force the state and answer with it.
  have hfault : ∀ (message : String) (P : ServerState τ Ct Gk → Prop),
      (provisioning S).Triple t P (do
        forceFault message
        let respState ← currentState
        let message ← lastMessage
        return .canary respState [] message : Step τ Ct Gk Reply) fun _ _ ↦ True := by
    intro message P
    refine (Contract.Triple.bind (keeps_forceFault kept_true message) fun _ ↦ ?_).pre
      fun _ _ ↦ trivial
    refine .bind (keeps_currentState kept_true) fun _ ↦ ?_
    exact .bind (keeps_read kept_true _) fun _ ↦ keeps_pure kept_true _
  by_cases hsize : ciphertext.length > CT_BUF
  · simp only [hsize, if_true]
    exact hfault _ _
  simp only [hsize, if_false]
  have hblock := (canaryBlock_rotated (S := S) (t := t) ciphertext).pre
    fun s (h : True ∨ validating = ready → Provisioned s) ↦ h (.inl trivial)
  refine .bind hblock fun result ↦ ?_
  cases result with
  | error e => exact hfault _ _
  | ok bytes =>
      refine .bind (R := fun _ _ ↦ True) ?_ fun _ ↦ keeps_pure kept_true _
      refine Contract.Triple.pre (P := Rotated (.canaryRotation t) STEPS)
        (.atomically (kept_rotated _ _).stable (fun _ ↦ kept_true.stable) ?_)
        fun _ hs ↦ hs bytes rfl
      exact fun s _ hrotated _ ↦ ⟨.canaryReturned hrotated rfl rfl rfl, trivial⟩

section Inference

variable [DecidableEq τ]

omit hmode in
theorem quiet_setLocals (s : ServerState τ Ct Gk) (l : ThreadLocals Ct) (overran : Bool) :
    Quiet s { s.setLocals t l with overran := overran } :=
  ⟨rfl, rfl, .inl rfl⟩

omit hmode in
theorem keeps_slotBlock (ct : Ct) : Keeps S t Provisioned (slotBlock S m t ct).run := by
  have hstore : ∀ acc, Keeps S t Provisioned
      (storeAccBuf t acc : ExceptT String (Prog (ServerState τ Ct Gk)) Unit).run := fun acc ↦
    .bind (keeps_modify kept_provisioned fun s ↦ quiet_setLocals s _ _) fun _ ↦
      keeps_pure kept_provisioned _
  have hload : Keeps S t Provisioned
      (loadAccBuf t : ExceptT String (Prog (ServerState τ Ct Gk)) Ct).run := by
    refine .bind (keeps_read kept_provisioned _) fun found ↦ ?_
    cases found <;> exact keeps_pure kept_provisioned _
  have hsave : ∀ acc, Keeps S t Provisioned
      (saveOut S t acc : ExceptT String (Prog (ServerState τ Ct Gk)) Bytes).run := fun acc ↦
    .bind (keeps_modify kept_provisioned fun s ↦ quiet_setLocals s _ _) fun _ ↦
      .bind (keeps_read kept_provisioned _) fun _ ↦ keeps_pure kept_provisioned _
  refine keeps_except_bind (keeps_attempt kept_provisioned _) fun _ ↦ ?_
  refine keeps_except_bind (keeps_attempt kept_provisioned _) fun scaled ↦ ?_
  have hsum : Keeps S t Provisioned (treeSum S (.inferenceRotation t) scaled).run :=
    keeps_treeSum kept_provisioned (fun _ hs ↦ hs) (fun _ _ ↦ .inr rfl) scaled
  refine keeps_except_bind hsum fun sum ↦ keeps_except_bind (hstore sum) fun _ ↦ ?_
  refine keeps_except_bind hload fun _ ↦ ?_
  refine keeps_except_bind (keeps_attempt kept_provisioned _) fun acc ↦ ?_
  exact keeps_except_bind (hstore acc) fun _ ↦ keeps_except_bind hload hsave

theorem keeps_score (req : InferenceRequest) (draws : Cnp.MaskDraws) (ct : Ct) :
    Keeps S t Provisioned (score S m t req draws ct) := by
  have hresize : Keeps S t Provisioned (resizeCtBuf t : Step τ Ct Gk Unit) := by
    refine keeps_modify kept_provisioned fun s ↦ ?_
    by_cases hsize : (s.locals t).ctBuf.size < CT_BUF
    · simp only [hsize, if_true]
      exact quiet_setLocals s _ s.overran
    · simp only [hsize, if_false]
      exact quiet_refl s
  refine .bind hresize fun _ ↦ ?_
  simp only [hmode, reduceCtorEq, if_false]
  refine .bind (keeps_slotBlock ct) fun result ↦ ?_
  cases result <;> exact keeps_pure kept_provisioned _

theorem keeps_runInference (req : InferenceRequest) (draws : Cnp.MaskDraws) :
    Keeps S t (fun _ ↦ True) (runInference S m t req draws) := by
  by_cases hrefused : Refused m req
  · obtain ⟨code, message, heq⟩ := runInference_eq_refused S m t req draws hrefused
    rw [heq]
    exact keeps_pure kept_true _
  have hfailed : ∀ (reply : Reply) (reason : String) (P : ServerState τ Ct Gk → Prop),
      (provisioning S).Triple t P (do
        let _ ← recordRequestAndMaybeTrip false reason
        return reply) fun _ _ ↦ True := by
    intro reply reason P
    have hrecord := keeps_recordRequestAndMaybeTrip (S := S) (t := t) kept_true false reason
    exact (hrecord.bind fun _ ↦ keeps_pure kept_true reply).pre fun _ _ ↦ trivial
  obtain ⟨hserver, hlanes⟩ := serverMode_of_not_refused m hrefused
  simp only [runInference, hserver, ne_eq, not_true_eq_false, if_false, hlanes]
  refine .bind currentState_provisioned fun state ↦ ?_
  by_cases hstate : state = ready
  swap
  · simp only [hstate, not_false_eq_true, if_true]
    refine (Contract.Triple.bind (keeps_currentState kept_true) fun _ ↦ ?_).pre fun _ _ ↦ trivial
    exact keeps_pure kept_true _
  simp only [hstate, not_true_eq_false, if_false]
  by_cases hsize : req.ciphertext.length > CT_BUF
  · simp only [hsize, if_true]
    exact hfailed _ _ _
  simp only [hsize, if_false]
  cases hload : S.load req.ciphertext with
  | error e => exact hfailed _ _ _
  | ok ct =>
      by_cases hparms : S.parmsId ct = S.firstParmsId
      swap
      · simp only [hparms, not_false_eq_true, if_true]
        exact hfailed _ _ _
      simp only [hparms, not_true_eq_false, if_false]
      have hscore := (keeps_recordRequestAndMaybeTrip (S := S) (t := t) kept_provisioned true
        "").bind fun _ ↦ keeps_score hmode req draws ct
      exact hscore.conseq (fun _ hs ↦ hs (.inr trivial)) fun _ _ _ _ ↦ trivial

theorem keeps_handle (rpc : Rpc) : Keeps S t (fun _ ↦ True) (handle S m t rpc) := by
  cases rpc with
  | provisionGaloisKeys bytes => exact keeps_provisionGaloisKeys hmode bytes
  | canaryCheck ciphertext => exact keeps_canaryCheck hmode ciphertext
  | canaryConfirm passed message => exact keeps_canaryConfirm passed message
  | getProvisioningStatus => exact keeps_getProvisioningStatus
  | canaryCheckTranscipher symCiphertext nonce =>
      exact .bind (keeps_currentState kept_true) fun _ ↦ keeps_pure kept_true _
  | runInference req draws => exact keeps_runInference hmode req draws

end Inference

end Slot

end Triples

/-! ## Pools of handlers -/

section Pools

variable [DecidableEq τ] (S : Seal Ct Pt Gk) (m : ServiceConstants Pt) (noKeys : Gk)

omit [DecidableEq τ] in
theorem keyRecord_new : KeyRecord S (new .slot noKeys : ServerState τ Ct Gk) := by
  refine ⟨?_, ?_, ?_, ?_, ?_, ?_, ?_⟩ <;> simp [new, ProvisioningStateMachine.new]

omit [DecidableEq τ] in
/-- Whoever provisions first decides the keys. -/
theorem KeyRecord.galoisKeys_eq {s s' : ServerState τ Ct Gk} (h : KeyRecord S s)
    (h' : KeyRecord S s') (hsuffix : s.history <:+ s'.history) (hprovisioned : Provisioned s) :
    s'.ctx.galoisKeys = s.ctx.galoisKeys := by
  obtain ⟨t, keys, hmem⟩ := hprovisioned
  have hassigned := h.provisioned t keys hmem
  calc s'.ctx.galoisKeys
      _ = keys := (h'.assigned t keys (hsuffix.subset hassigned)).1
      _ = s.ctx.galoisKeys := (h.assigned t keys hassigned).1.symm

omit [DecidableEq τ] in
theorem KeyRecord.keysAsValidated {s s' : ServerState τ Ct Gk} (h : KeyRecord S s)
    (h' : KeyRecord S s') (hsuffix : s.history <:+ s'.history) : KeysAsValidated s s' := by
  refine ⟨h.galoisKeys_eq S h' hsuffix, ?_, fun t step keys hmem ↦ (h'.rotated t step keys hmem).1⟩
  intro hready
  obtain ⟨t, keys, hmem⟩ := h'.recorded (.inr hready)
  have hkeys := (h'.assigned t keys (h'.provisioned t keys hmem)).1
  obtain ⟨u, hreturned⟩ := h'.confirmed hready
  rw [hkeys]
  refine ⟨⟨t, hmem⟩, u, hreturned, fun step hstep ↦ ?_⟩
  obtain ⟨keys', hrotated⟩ := h'.returned u hreturned step hstep
  have hkeys' := (h'.rotated u step keys' (.inl hrotated)).1
  rwa [hkeys', hkeys] at hrotated

/-- While the server is provisioned once, its keys stay the validated ones. -/
theorem keys_as_validated (hmode : m.packingMode = .slot) (earlier later : List (Choice τ Rpc))
    (honce : Config.Meets (OneProvisioning S) (handle S m) (.idle (new .slot noKeys))
      (earlier ++ later)) :
    KeysAsValidated (serve S m (new .slot noKeys) earlier).shared
      (serve S m (new .slot noKeys) (earlier ++ later)).shared := by
  obtain ⟨hearlier, hlater⟩ := Config.meets_append.mp honce
  have hhandle : ∀ (t : τ) (rpc : Rpc),
      (provisioning S).Triple t (provisioning S).inv (handle S m t rpc) fun _ _ ↦ True :=
    fun t rpc ↦ (keeps_handle hmode rpc).pre fun _ _ ↦ trivial
  have hnew : Config.Sound (provisioning S) (fun _ _ _ _ ↦ True)
      (.idle (new .slot noKeys) : Config (ServerState τ Ct Gk) τ Rpc Reply) :=
    Config.sound_idle (keyRecord_new S noKeys)
  have hmiddle := hnew.run (fun t rpc _ ↦ hhandle t rpc) hearlier
  have hend := hmiddle.run (fun t rpc _ ↦ hhandle t rpc) hlater
  have hsuffix := hmiddle.run_rel (fun t rpc _ ↦ hhandle t rpc)
    (r := fun s s' : ServerState τ Ct Gk ↦ s.history <:+ s'.history)
    (fun s ↦ s.history.suffix_refl) (fun hab hbd ↦ hab.trans hbd)
    (fun _ _ _ _ hmove ↦ hmove.history_suffix) hlater
  have happend : serve S m (new .slot noKeys) (earlier ++ later) =
      (serve S m (new .slot noKeys) earlier).run (handle S m) later := Config.run_append ..
  rw [happend]
  exact hmiddle.inv.keysAsValidated S hend.inv hsuffix

end Pools

/-! ## Runs over `Seal.clear` -/

/-- A handshake of one thread, call after call. -/
def clearPush : List (Choice Bool Rpc) :=
  .call false (.provisionGaloisKeys [1]) :: List.replicate 5 (.go false)

def clearCanary : List (Choice Bool Rpc) :=
  .call false (.canaryCheck [1, 1, 0]) :: List.replicate 19 (.go false) ++
    .call false (.canaryConfirm true "") :: List.replicate 4 (.go false)

theorem keys_as_validated_one_push :
    (serve Seal.clear (.clear .slot) (new .slot 0) (clearPush ++ clearCanary)).shared.sm.state =
        ready ∧
      KeysAsValidated (serve Seal.clear (.clear .slot) (new .slot 0) clearPush).shared
        (serve Seal.clear (.clear .slot) (new .slot 0) (clearPush ++ clearCanary)).shared :=
  ⟨by decide +kernel, keys_as_validated Seal.clear (.clear .slot) 0 rfl clearPush clearCanary
    (by decide +kernel)⟩

/-- Two pushes pass the check; the second assigns its keys when the handshake
of the first is over. -/
def raceGates : List (Choice Bool Rpc) :=
  [.call true (.provisionGaloisKeys [2]), .go true]

theorem keys_replaced_when_ready :
    ¬ KeysAsValidated
      (serve Seal.clear (.clear .slot) (new .slot 0)
        (raceGates ++ clearPush ++ clearCanary)).shared
      (serve Seal.clear (.clear .slot) (new .slot 0)
        (raceGates ++ clearPush ++ clearCanary ++ [.go true])).shared := by
  intro h
  have hkept := h.1 ⟨false, 1, by decide +kernel⟩
  have hnow : (serve Seal.clear (.clear .slot) (new .slot 0)
      (raceGates ++ clearPush ++ clearCanary ++ [.go true])).shared.ctx.galoisKeys = 2 := by
    decide +kernel
  rw [hnow] at hkept
  exact absurd hkept (by decide +kernel)

end Ppfdaas.ServerState
