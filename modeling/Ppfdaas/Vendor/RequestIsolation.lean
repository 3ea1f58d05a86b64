import Ppfdaas.Library.RelyGuarantee
import Ppfdaas.Vendor.RequestTurns

/-!
# Requests on a serving server do not see each other

A pool of threads runs the handlers of a server that is `PROV_READY` or has
tripped.  The contract says what one thread may do to the members the others
use: it never touches the keys or another thread's buffers, on a CNP server it
issues no rotation, and it writes behind its buffer only for a request whose
result does not fit.  Each block of `RunInference` then computes what it
computes alone.
-/

namespace Ppfdaas.ServerState

open Interleaving ProvisioningState

variable {τ Ct Pt Gk : Type}

def Serving (state : ProvisioningState) : Prop := state = ready ∨ state = fault

/-- The contract of the handlers while the server holds the context `ctx`;
`unfit` is owed by whoever writes behind a buffer. -/
def serving (m : ServiceConstants Pt) (ctx : EvalContext160 Gk) (unfit : Prop) :
    Contract (ServerState τ Ct Gk) τ where
  inv := fun s ↦ Serving s.sm.state ∧ s.ctx = ctx ∧ (s.overran = true → unfit)
  cond := fun _ _ ↦ True
  rely := fun t s s' ↦
    s'.locals t = s.locals t ∧ (m.packingMode = .cnp → s'.rotationCalls = s.rotationCalls)
  guar := fun t s s' ↦
    Serving s'.sm.state ∧ s'.ctx = s.ctx ∧ (∀ u, u ≠ t → s'.locals u = s.locals u) ∧
      (m.packingMode = .cnp → s'.rotationCalls = s.rotationCalls) ∧
      (s'.overran = true → s.overran = true ∨ unfit)
  guar_rely := fun htu _ hguar ↦ ⟨hguar.2.2.1 _ (Ne.symm htu), hguar.2.2.2.1⟩
  guar_inv := fun hinv hguar ↦
    ⟨hguar.1, hguar.2.1.trans hinv.2.1, fun hover ↦ (hguar.2.2.2.2 hover).elim hinv.2.2 id⟩

section Triples

variable {m : ServiceConstants Pt} {ctx : EvalContext160 Gk} {unfit : Prop} {t : τ}

theorem guar_sm {s : ServerState τ Ct Gk} {sm : ProvisioningStateMachine}
    (hsm : Serving sm.state) : (serving m ctx unfit).guar t s { s with sm := sm } :=
  ⟨hsm, rfl, fun _ _ ↦ rfl, fun _ ↦ rfl, .inl⟩

theorem guar_same {s : ServerState τ Ct Gk} (hinv : (serving m ctx unfit).inv s) :
    (serving m ctx unfit).guar t s s :=
  guar_sm hinv.1

theorem stable_true : (serving m ctx unfit).Stable t (fun _ : ServerState τ Ct Gk ↦ True) :=
  Contract.stable_const True

/-- Reading what does not change while the server serves. -/
theorem triple_read {α : Type} {f : ServerState τ Ct Gk → α} {Q : α → Prop}
    (h : ∀ s, (serving m ctx unfit).inv s → Q (f s)) :
    (serving m ctx unfit).Triple t (fun _ ↦ True) (.read f) fun a _ ↦ Q a :=
  .read stable_true (fun _ ↦ Contract.stable_const _) fun s hinv _ ↦ ⟨guar_same hinv, h s hinv⟩

theorem triple_currentState :
    (serving m ctx unfit).Triple t (fun _ ↦ True) (currentState : Step τ Ct Gk _)
      fun state _ ↦ Serving state :=
  triple_read fun _ hinv ↦ hinv.1

theorem triple_done {α : Type} {a : α} {Q : α → Prop} (h : Q a) :
    (serving m ctx unfit).Triple t (fun _ : ServerState τ Ct Gk ↦ True) (pure a) fun a _ ↦ Q a :=
  .done stable_true fun _ _ _ ↦ h

/-! ## The handlers that find the handshake over -/

section Handshake

variable (S : Seal Ct Pt Gk)

theorem triple_provisioningGate (bytes : Bytes) :
    (serving m ctx unfit).Triple t (fun _ ↦ True)
      (provisioningGate t bytes : Step τ Ct Gk _) fun state _ ↦ Serving state :=
  .atomically stable_true (fun _ ↦ Contract.stable_const _) fun _ hinv _ _ ↦
    ⟨⟨hinv.1, rfl, fun _ _ ↦ rfl, fun _ ↦ rfl, .inl⟩, hinv.1⟩

theorem triple_provisionGaloisKeys (bytes : Bytes) :
    (serving m ctx unfit).Triple t (fun _ ↦ True)
      (provisionGaloisKeys S m t bytes : Step τ Ct Gk Reply) fun _ _ ↦ True := by
  by_cases hmode : m.packingMode = .cnp
  · simpa only [provisionGaloisKeys, hmode, if_true] using triple_done trivial
  · simp only [provisionGaloisKeys, hmode, if_false]
    refine .bind (triple_provisioningGate bytes) fun state ↦ .lift fun hserving ↦ ?_
    have hne : state ≠ awaitingKeys := by
      rcases hserving with rfl | rfl <;> decide
    simp only [ne_eq, hne, not_false_eq_true, if_true]
    refine .bind triple_currentState fun _ ↦ .lift fun _ ↦ ?_
    exact .bind triple_currentState fun _ ↦ .lift fun _ ↦ triple_done trivial

theorem triple_canaryCheck (ciphertext : Bytes) :
    (serving m ctx unfit).Triple t (fun _ ↦ True)
      (canaryCheck S m t ciphertext : Step τ Ct Gk Reply) fun _ _ ↦ True := by
  by_cases hmode : m.packingMode = .cnp
  · simpa only [canaryCheck, hmode, if_true] using triple_done trivial
  · simp only [canaryCheck, hmode, if_false]
    refine .bind triple_currentState fun state ↦ .lift fun hserving ↦ ?_
    have hne : state ≠ validating := by
      rcases hserving with rfl | rfl <;> decide
    simp only [ne_eq, hne, not_false_eq_true, if_true]
    refine .bind triple_currentState fun _ ↦ .lift fun _ ↦ ?_
    exact .bind triple_currentState fun _ ↦ .lift fun _ ↦ triple_done trivial

theorem triple_canaryConfirm (passed : Bool) (message : String) :
    (serving m ctx unfit).Triple t (fun _ ↦ True)
      (canaryConfirm t passed message : Step τ Ct Gk Reply) fun _ _ ↦ True := by
  refine .bind triple_currentState fun state ↦ .lift fun hserving ↦ ?_
  have hne : state ≠ validating := by
    rcases hserving with rfl | rfl <;> decide
  simp only [ne_eq, hne, not_false_eq_true, if_true]
  refine .bind triple_currentState fun _ ↦ .lift fun _ ↦ ?_
  exact .bind triple_currentState fun _ ↦ .lift fun _ ↦ triple_done trivial

theorem triple_getProvisioningStatus :
    (serving m ctx unfit).Triple t (fun _ ↦ True)
      (getProvisioningStatus S m : Step τ Ct Gk Reply) fun _ _ ↦ True := by
  have hread : ∀ {α : Type} (f : ServerState τ Ct Gk → α),
      (serving m ctx unfit).Triple t (fun _ ↦ True) (.read f) fun _ _ ↦ True :=
    fun f ↦ triple_read fun _ _ ↦ trivial
  refine .bind (hread _) fun _ ↦ .bind (hread _) fun _ ↦ .bind (hread _) fun _ ↦ ?_
  exact .bind (hread _) fun _ ↦ triple_done trivial

end Handshake

/-! ## Recording a request -/

theorem triple_recordRequestAndMaybeTrip (checksPassed : Bool) (reason : String) :
    (serving m ctx unfit).Triple t (fun _ ↦ True)
      (recordRequestAndMaybeTrip checksPassed reason : Step τ Ct Gk Bool) fun _ _ ↦ True := by
  refine .bind (R := fun _ _ ↦ True) (.modify stable_true (fun _ ↦ stable_true)
    fun s hinv _ _ ↦ ⟨guar_sm hinv.1, trivial⟩) fun _ ↦ ?_
  cases checksPassed with
  | true => exact triple_done trivial
  | false =>
      refine .bind (R := fun _ _ ↦ True) (.atomically stable_true (fun _ ↦ stable_true)
        fun s hinv _ _ ↦ ⟨guar_sm hinv.1, trivial⟩) fun mismatches ↦ ?_
      by_cases hcount : mismatches < ProvisioningStateMachine.kMaxContinuousMismatches
      · simpa only [hcount, if_true] using triple_done trivial
      · simp only [hcount, if_false]
        refine .atomically stable_true (fun _ ↦ stable_true) fun s hinv _ _ ↦
          ⟨guar_sm ?_, trivial⟩
        by_cases hready : s.sm.state = ready
        · simp [ProvisioningStateMachine.maybeTrip, hready, Serving]
        · simpa [ProvisioningStateMachine.maybeTrip, hready] using hinv.1

/-! ## The blocks of `RunInference` -/

/-- The thread's vector has been resized. -/
def Resized (t : τ) (s : ServerState τ Ct Gk) : Prop := (s.locals t).ctBuf.size = CT_BUF

theorem stable_locals (P : ThreadLocals Ct → Prop) :
    (serving m ctx unfit).Stable t fun s : ServerState τ Ct Gk ↦ P (s.locals t) := by
  intro s s' _ hP hrely
  rwa [hrely.1]

theorem stable_resized : (serving m ctx unfit).Stable t (Resized t : ServerState τ Ct Gk → Prop) :=
  stable_locals fun l ↦ l.ctBuf.size = CT_BUF

section Blocks

variable (S : Seal Ct Pt Gk)

/-- A block of the scoring thread, which resized its vector before. -/
abbrev Scores (m : ServiceConstants Pt) (ctx : EvalContext160 Gk) (unfit : Prop) (t : τ) {α : Type}
    (x : ExceptT String (Prog (ServerState τ Ct Gk)) α) (r : Except String α) : Prop :=
  (serving m ctx unfit).Computes t (Resized t) x r

theorem scores_attempt {α : Type} (x : Except String α) :
    Scores m ctx unfit t (attempt x : ExceptT String (Prog (ServerState τ Ct Gk)) α) x :=
  .done stable_resized fun _ _ hs ↦ ⟨rfl, hs⟩

/-- A rotation is made under the fixed keys, at whatever moment it runs. -/
theorem scores_rotate (hmode : m.packingMode = .slot) (event : ℤ → Gk → Event τ Gk) (acc : Ct)
    (step : ℤ) :
    Scores m ctx unfit t (rotate S event acc step) (S.rotateVector acc step ctx.galoisKeys) := by
  have hslot : ¬ m.packingMode = .cnp := by simp [hmode]
  refine Contract.Triple.bind (R := fun _ s ↦ Resized t s) (.modify stable_resized
    (fun _ ↦ stable_resized) fun s hinv hs _ ↦
      ⟨⟨hinv.1, rfl, fun _ _ ↦ rfl, fun h ↦ absurd h hslot, .inl⟩, hs⟩) fun _ ↦ ?_
  refine .atomically stable_resized (fun _ ↦ ?_) fun s hinv hs _ ↦
    ⟨⟨hinv.1, rfl, fun _ _ ↦ rfl, fun _ ↦ rfl, .inl⟩, ?_, hs⟩
  · exact fun s s' hinv hs hrely ↦ ⟨hs.1, stable_resized s s' hinv hs.2 hrely⟩
  · rw [hinv.2.1]

theorem scores_treeSum (hmode : m.packingMode = .slot) (event : ℤ → Gk → Event τ Gk) (ct : Ct) :
    Scores m ctx unfit t (treeSum S event ct) (pureTreeSum S ctx.galoisKeys ct) :=
  Contract.Computes.foldlM stable_resized (fun acc step ↦
    (scores_rotate S hmode event acc step).bind fun tmp _ ↦
      scores_attempt (S.add acc tmp)) STEPS ct

variable [DecidableEq τ]

/-- Writing a thread's own buffers is invisible to the others. -/
theorem guar_setLocals {s : ServerState τ Ct Gk} (hinv : (serving m ctx unfit).inv s)
    (l : ThreadLocals Ct) : (serving m ctx unfit).guar t s (s.setLocals t l) :=
  ⟨hinv.1, rfl, fun _ hu ↦ Function.update_of_ne hu .., fun _ ↦ rfl, .inl⟩

theorem triple_resizeCtBuf :
    (serving m ctx unfit).Triple t (fun _ ↦ True) (resizeCtBuf t : Step τ Ct Gk Unit)
      fun _ s ↦ Resized t s := by
  refine .modify stable_true (fun _ ↦ stable_resized) fun s hinv _ _ ↦ ?_
  by_cases hsize : (s.locals t).ctBuf.size < CT_BUF
  · simp only [hsize, if_true]
    exact ⟨guar_setLocals hinv _, by simp [Resized]⟩
  · simp only [hsize, if_false]
    exact ⟨guar_same hinv, (s.locals t).size_le.antisymm (Nat.le_of_not_lt hsize)⟩

/-- What is stored into the thread's accumulator is what is loaded next. -/
theorem scores_reload {α : Type} {acc : Ct}
    {f : Ct → ExceptT String (Prog (ServerState τ Ct Gk)) α}
    {r : Except String α} (hf : Scores m ctx unfit t (f acc) r) :
    Scores m ctx unfit t (do storeAccBuf t acc; let acc ← loadAccBuf t; f acc) r := by
  let Holds : ServerState τ Ct Gk → Prop :=
    fun s ↦ (s.locals t).accBuf = some acc ∧ (s.locals t).ctBuf.size = CT_BUF
  have hholds : (serving m ctx unfit).Stable t Holds :=
    stable_locals fun l ↦ l.accBuf = some acc ∧ l.ctBuf.size = CT_BUF
  have hstore : (serving m ctx unfit).Triple t (Resized t)
      (storeAccBuf t acc : ExceptT String (Prog (ServerState τ Ct Gk)) Unit).run
      fun r s ↦ r = .ok () ∧ Holds s := by
    refine .bind (R := fun _ s ↦ Holds s) (.modify stable_resized (fun _ ↦ hholds)
      fun s hinv hs _ ↦ ⟨guar_setLocals hinv _, ?_⟩) fun _ ↦ ?_
    · exact ⟨by simp, by simpa [Resized] using hs⟩
    · exact .done hholds fun s _ hs ↦ ⟨rfl, hs⟩
  have hload : (serving m ctx unfit).Triple t Holds
      (loadAccBuf t : ExceptT String (Prog (ServerState τ Ct Gk)) Ct).run
        fun r s ↦ r = .ok acc ∧ Resized t s := by
    refine .bind (R := fun found s ↦ found = some acc ∧ Resized t s)
      (.read hholds (fun found ↦ ?_) fun s hinv hs ↦ ⟨guar_same hinv, hs⟩) fun found s hs ↦ ?_
    · exact fun s s' hinv hs hrely ↦ ⟨hs.1, stable_resized s s' hinv hs.2 hrely⟩
    · obtain ⟨rfl, hs⟩ := hs
      exact Contract.Triple.done stable_resized (fun _ _ hs ↦ ⟨rfl, hs⟩) s hs
  refine Contract.Triple.except_bind hstore (fun _ ↦ ?_) fun e s _ hs ↦ by simp at hs
  refine Contract.Triple.except_bind (hload.pre fun s hs ↦ hs.2) (fun found s hs ↦ ?_)
    fun e s _ hs ↦ by simp at hs
  obtain ⟨heq, hs⟩ := hs
  obtain rfl := Except.ok.inj heq
  exact hf s hs

/-- A result that does not fit is the only one that is written behind the
vector. -/
theorem scores_saveOut (ct : Ct) (hfits : CT_BUF < (S.save ct).length → unfit) :
    Scores (τ := τ) m ctx unfit t (saveOut S t ct) (.ok (S.save ct)) := by
  let Saved : ServerState τ Ct Gk → Prop := fun s ↦
    (s.locals t).ctBuf.read (S.saveSize ct) = S.save ct ∧ (s.locals t).ctBuf.size = CT_BUF
  have hsaved : (serving m ctx unfit).Stable t Saved := stable_locals fun l ↦
    l.ctBuf.read (S.saveSize ct) = S.save ct ∧ l.ctBuf.size = CT_BUF
  refine Contract.Triple.bind (R := fun _ s ↦ Saved s)
    (.modify stable_resized (fun _ ↦ hsaved) fun s hinv hs _ ↦ ⟨?_, ?_⟩) fun _ ↦ ?_
  · refine ⟨hinv.1, rfl, fun _ hu ↦ Function.update_of_ne hu .., fun _ ↦ rfl, fun hover ↦ ?_⟩
    have hsize : (s.locals t).ctBuf.size = CT_BUF := hs
    simp only [Bool.or_eq_true, decide_eq_true_eq, hsize, ← S.save_length] at hover
    exact hover.imp_right hfits
  · have hread := (s.locals t).ctBuf.read_write (S.save ct)
    rw [S.save_length] at hread
    have hsize : (s.locals t).ctBuf.size = CT_BUF := hs
    simp [Saved, hread, hsize]
  · refine .bind (R := fun bytes s ↦ bytes = S.save ct ∧ Resized t s)
      (.read hsaved (fun bytes ↦ ?_) fun s hinv hs ↦ ⟨guar_same hinv, hs⟩) fun bytes s hs ↦ ?_
    · exact fun s s' hinv hs hrely ↦ ⟨hs.1, stable_resized s s' hinv hs.2 hrely⟩
    · obtain ⟨rfl, hs⟩ := hs
      exact Contract.Triple.done stable_resized (fun _ _ hs ↦ ⟨rfl, hs⟩) s hs

theorem scores_slotBlock (hmode : m.packingMode = .slot) (ct : Ct)
    (hfits : ∀ out, slotCircuit S m ctx.galoisKeys ct = .ok out →
      CT_BUF < (S.save out).length → unfit) :
    Scores m ctx unfit t (slotBlock S m t ct)
      (do let acc ← slotCircuit S m ctx.galoisKeys ct
          return S.save acc) := by
  simp only [slotBlock, slotCircuit, bind_assoc]
  refine (scores_attempt _).bind fun prod hprod ↦ (scores_attempt _).bind fun scaled hscaled ↦ ?_
  refine (scores_treeSum S hmode _ scaled).bind fun sum hsum ↦ scores_reload ?_
  refine (scores_attempt _).bind fun acc hacc ↦ scores_reload (scores_saveOut S acc ?_)
  refine hfits acc ?_
  simp only [slotCircuit, hprod, hscaled, hsum, hacc, bind, Except.bind]

/-- In CNP mode no thread rotates, so the second reading of the counter finds
the first. -/
theorem scores_cnpBlock (hmode : m.packingMode = .cnp) (draws : Cnp.MaskDraws) (ct : Ct)
    (hfits : ctx.assertNoGaloisKeys S = .ok () → ∀ out, cnpProduct S m draws ct = .ok out →
      CT_BUF < (S.save out).length → unfit) :
    Scores m ctx unfit t (cnpBlock S m t draws ct)
      (do ctx.assertNoGaloisKeys S
          let ct ← cnpProduct S m draws ct
          return S.save ct) := by
  have hreadKeys : Scores m ctx unfit t
      (ExceptT.mk (.read fun s : ServerState τ Ct Gk ↦ s.ctx.assertNoGaloisKeys S))
      (ctx.assertNoGaloisKeys S) := by
    refine .read stable_resized (fun _ ↦ ?_) fun s hinv hs ↦ ⟨guar_same hinv, ?_, hs⟩
    · exact fun s s' hinv hs hrely ↦ ⟨hs.1, stable_resized s s' hinv hs.2 hrely⟩
    · rw [hinv.2.1]
  refine hreadKeys.bind fun _ hkeys ↦ ?_
  -- The counter keeps the value it was read with.
  let Counted (n : ℕ) : ServerState τ Ct Gk → Prop := fun s ↦ s.rotationCalls = n ∧ Resized t s
  have hcounted : ∀ n, (serving m ctx unfit).Stable t (Counted n) := fun n s s' hinv hs hrely ↦
    ⟨(hrely.2 hmode).trans hs.1, stable_resized s s' hinv hs.2 hrely⟩
  refine Contract.Triple.except_bind (R := fun r s ↦ ∃ n, r = .ok n ∧ Counted n s)
    (.read stable_resized ?_ fun s hinv hs ↦ ⟨guar_same hinv, _, rfl, rfl, hs⟩)
    (fun before ↦ ?_) ?_
  · rintro r s s' hinv ⟨n, hr, hs⟩ hrely
    exact ⟨n, hr, hcounted n s s' hinv hs hrely⟩
  · have hproduct : (serving m ctx unfit).Triple t
        (fun s ↦ ∃ n, Except.ok (ε := String) before = .ok n ∧ Counted n s)
        (attempt (cnpProduct S m draws ct) : ExceptT String (Prog (ServerState τ Ct Gk)) Ct).run
        fun r s ↦ r = cnpProduct S m draws ct ∧ Counted before s := by
      refine Contract.Triple.pre (P := Counted before)
        (.done (hcounted before) fun s _ hs ↦ ⟨rfl, hs⟩) ?_
      rintro s ⟨n, hn, hs⟩
      obtain rfl := Except.ok.inj hn
      exact hs
    refine Contract.Triple.except_bind hproduct (fun out ↦ ?_) fun e s _ hs ↦ ?_
    · refine Contract.Triple.except_bind (R := fun r s ↦ (r = .ok before ∧
        .ok out = cnpProduct S m draws ct) ∧ Resized t s) (.read ?_ (fun _ ↦ ?_) ?_)
        (fun after s hs ↦ ?_) (by simp)
      · exact fun s s' hinv hs hrely ↦ ⟨hs.1, hcounted before s s' hinv hs.2 hrely⟩
      · exact fun s s' hinv hs hrely ↦ ⟨hs.1, stable_resized s s' hinv hs.2 hrely⟩
      · rintro s hinv ⟨hout, hcount, hs⟩
        exact ⟨guar_same hinv, ⟨congrArg _ hcount, hout⟩, hs⟩
      · obtain ⟨⟨heq, hout⟩, hs⟩ := hs
        obtain rfl := Except.ok.inj heq
        rw [← hout]
        simp only [ne_eq, not_true_eq_false, if_false]
        exact scores_saveOut S out (hfits hkeys out hout.symm) s hs
    · rw [← hs.1]
      exact ⟨rfl, hs.2.2⟩
  · rintro e s _ ⟨n, hn, _⟩
    simp at hn

/-! ## Scoring and the whole handler -/

theorem triple_score (req : InferenceRequest) (draws : Cnp.MaskDraws) (ct : Ct)
    (hfits : ∀ bytes, scoreResult S m ctx draws ct = .ok bytes → CT_BUF < bytes.length → unfit) :
    (serving m ctx unfit).Triple t (fun _ ↦ True) (score S m t req draws ct)
      fun reply _ ↦ reply = scoreReply req (scoreResult S m ctx draws ct) := by
  refine .bind triple_resizeCtBuf fun _ ↦ ?_
  cases hmode : m.packingMode with
  | cnp =>
      simp only [scoreResult, hmode, if_true] at hfits ⊢
      have hblock : Scores m ctx unfit t (cnpBlock S m t draws ct) _ :=
        scores_cnpBlock S hmode draws ct fun hkeys out hout ↦
          hfits _ (by simp [hkeys, hout, bind, Except.bind]; rfl)
      refine .bind (hblock.conseq (fun _ hs ↦ hs) fun _ _ _ hr ↦ hr.1) fun result ↦
        .lift fun hresult ↦ ?_
      rw [← hresult]
      cases result <;> exact triple_done rfl
  | slot =>
      simp only [scoreResult, hmode, reduceCtorEq, if_false] at hfits ⊢
      have hblock : Scores m ctx unfit t (slotBlock S m t ct) _ :=
        scores_slotBlock S hmode ct fun out hout ↦
          hfits _ (by simp [hout, bind, Except.bind]; rfl)
      refine .bind (hblock.conseq (fun _ hs ↦ hs) fun _ _ _ hr ↦ hr.1) fun result ↦
        .lift fun hresult ↦ ?_
      rw [← hresult]
      cases result <;> exact triple_done rfl

/-- A server that has just become ready, with no request served yet. -/
def freshReady (ctx : EvalContext160 Gk) : ServerState τ Ct Gk where
  ctx := ctx
  sm := { ProvisioningStateMachine.new with state := ready }
  rotationCalls := 0
  locals := fun _ ↦ .unused Ct
  overran := false
  history := []

def replyAlone (m : ServiceConstants Pt) (ctx : EvalContext160 Gk) (t : τ)
    (req : InferenceRequest) (draws : Cnp.MaskDraws) : Reply :=
  ((runInference S m t req draws).run (freshReady ctx)).1

theorem replyAlone_of_error {req : InferenceRequest} (draws : Cnp.MaskDraws)
    (h : ¬ Refused m req) {status : InferenceStatus} {message reason : String}
    (hchecks : perRequestChecks S req = .error (status, message, reason)) :
    replyAlone S m ctx t req draws = failed req status message := by
  simp [replyAlone, run_runInference_accepted S m t req draws _ h, hchecks, freshReady]

theorem replyAlone_of_ok {req : InferenceRequest} (draws : Cnp.MaskDraws) (h : ¬ Refused m req)
    {ct : Ct} (hchecks : perRequestChecks S req = .ok ct) :
    replyAlone S m ctx t req draws = scoreReply req (scoreResult S m ctx draws ct) := by
  have hready : (freshReady ctx : ServerState τ Ct Gk).sm.state = ready := rfl
  exact run_runInference_scored S m t req draws h hready hchecks

/-- The reply of the request alone, unless the server has tripped. -/
def AnsweredAlone (m : ServiceConstants Pt) (ctx : EvalContext160 Gk) (t : τ)
    (req : InferenceRequest) (draws : Cnp.MaskDraws) (reply : Reply) : Prop :=
  reply = replyAlone S m ctx t req draws ∨
    ∃ message, reply = failed req .errNotProvisioned message

theorem triple_runInference (req : InferenceRequest) (draws : Cnp.MaskDraws)
    (hfits : ¬ Fits S m ctx req draws → unfit) :
    (serving m ctx unfit).Triple t (fun _ ↦ True) (runInference S m t req draws)
      fun reply _ ↦ AnsweredAlone S m ctx t req draws reply := by
  by_cases hrefused : Refused m req
  · obtain ⟨code, message, heq⟩ := runInference_eq_refused S m t req draws hrefused
    rw [heq]
    refine triple_done (.inl ?_)
    rw [replyAlone, heq]
    rfl
  -- A failed check is recorded and answered as it is answered alone.
  have hfailed : ∀ {status message reason recorded},
      perRequestChecks S req = .error (status, message, reason) →
      (serving m ctx unfit).Triple t (fun _ ↦ True)
        (do let _ ← recordRequestAndMaybeTrip false recorded
            pure (failed req status message) : Step τ Ct Gk Reply)
        fun reply _ ↦ AnsweredAlone S m ctx t req draws reply :=
    fun hchecks ↦ .bind (triple_recordRequestAndMaybeTrip _ _) fun _ ↦
      triple_done (.inl (replyAlone_of_error S draws hrefused hchecks).symm)
  obtain ⟨hmode, hlanes⟩ := serverMode_of_not_refused m hrefused
  simp only [runInference, hmode, ne_eq, not_true_eq_false, if_false, hlanes]
  refine .bind triple_currentState fun state ↦ .lift fun _ ↦ ?_
  by_cases hstate : state = ready
  swap
  · simp only [hstate, not_false_eq_true, if_true]
    exact .bind triple_currentState fun _ ↦ .lift fun _ ↦ triple_done (.inr ⟨_, rfl⟩)
  simp only [hstate, not_true_eq_false, if_false]
  by_cases hsize : req.ciphertext.length > CT_BUF
  · simp only [hsize, if_true]
    exact hfailed (by simp only [perRequestChecks, hsize, if_true]; rfl)
  simp only [hsize, if_false]
  cases hload : S.load req.ciphertext with
  | error e => exact hfailed (by simp only [perRequestChecks, hsize, if_false, hload]; rfl)
  | ok ct =>
      by_cases hparms : S.parmsId ct = S.firstParmsId
      swap
      · simp only [hparms, not_false_eq_true, if_true]
        exact hfailed (by
          simp only [perRequestChecks, hsize, if_false, hload, ne_eq, hparms,
            not_false_eq_true, if_true]
          rfl)
      simp only [hparms, not_true_eq_false, if_false]
      have hchecks : perRequestChecks S req = .ok ct := by
        simp [perRequestChecks, hsize, hload, hparms]
      have hscored : ∀ bytes, scoreResult S m ctx draws ct = .ok bytes →
          CT_BUF < bytes.length → unfit := fun bytes hbytes hlong ↦
        hfits fun h ↦ absurd hlong (Nat.not_lt_of_le (h ct bytes hrefused hchecks hbytes))
      refine .bind (triple_recordRequestAndMaybeTrip _ _) fun _ ↦
        (triple_score S req draws ct hscored).conseq (fun _ h ↦ h) ?_
      intro reply s _ hreply
      exact .inl (hreply.trans (replyAlone_of_ok S draws hrefused hchecks).symm)

/-- What a reply owes its caller, whatever else the server does. -/
def Owed (m : ServiceConstants Pt) (ctx : EvalContext160 Gk) (t : τ) : Rpc → Reply → Prop
  | .runInference req draws, reply => AnsweredAlone S m ctx t req draws reply
  | _, _ => True

theorem triple_handle (rpc : Rpc)
    (hfits : ∀ req draws, rpc = .runInference req draws → ¬ Fits S m ctx req draws → unfit) :
    (serving m ctx unfit).Triple t (fun _ ↦ True) (handle S m t rpc)
      fun reply _ ↦ Owed S m ctx t rpc reply := by
  cases rpc with
  | provisionGaloisKeys bytes => exact triple_provisionGaloisKeys S bytes
  | canaryCheck ciphertext => exact triple_canaryCheck S ciphertext
  | canaryConfirm passed message => exact triple_canaryConfirm passed message
  | getProvisioningStatus => exact triple_getProvisioningStatus S
  | canaryCheckTranscipher symCiphertext nonce =>
      exact .bind triple_currentState fun _ ↦ .lift fun _ ↦ triple_done trivial
  | runInference req draws => exact triple_runInference S req draws (hfits req draws rfl)

end Blocks

end Triples

/-! ## Pools of handlers -/

section Pools

variable [DecidableEq τ] (S : Seal Ct Pt Gk) (m : ServiceConstants Pt)

/-- The requests of a schedule are among `calls`, each with the draws of its
mask. -/
def MadeOf (calls : Set (InferenceRequest × Cnp.MaskDraws)) (schedule : List (Choice τ Rpc)) :
    Prop :=
  ∀ t req draws, .call t (.runInference req draws) ∈ schedule → (req, draws) ∈ calls

theorem sound_serve {s : ServerState τ Ct Gk} (hs : Serving s.sm.state) (unfit : Prop)
    (hover : s.overran = true → unfit) {schedule : List (Choice τ Rpc)}
    (hfits : MadeOf {call | ¬ Fits S m s.ctx call.1 call.2 → unfit} schedule) :
    (serve S m s schedule).Sound (serving m s.ctx unfit)
      fun t rpc reply _ ↦ Owed S m s.ctx t rpc reply := by
  have hidle : Config.Sound (serving m s.ctx unfit)
      (fun t rpc reply _ ↦ Owed S m s.ctx t rpc reply) (.idle s) :=
    Config.sound_idle ⟨hs, rfl, hover⟩
  refine hidle.run (fun t rpc hcall ↦ ?_) (Config.meets_true ..)
  refine (triple_handle S rpc fun req draws hrpc ↦ ?_).pre fun _ _ ↦ trivial
  exact hfits t req draws (hrpc ▸ hcall)

/-- Every reply of a serving server, whatever it writes behind its buffers. -/
theorem answered_alone {s : ServerState τ Ct Gk} (hs : Serving s.sm.state)
    {schedule : List (Choice τ Rpc)} {t : τ} {req : InferenceRequest} {draws : Cnp.MaskDraws}
    {reply : Reply}
    (hserved : (t, .runInference req draws, reply) ∈ (serve S m s schedule).served) :
    AnsweredAlone S m s.ctx t req draws reply := by
  have hmade : MadeOf {call | ¬ Fits S m s.ctx call.1 call.2 → True} schedule :=
    fun _ _ _ _ _ ↦ trivial
  obtain ⟨_, _, howed⟩ := (sound_serve S m hs True (fun _ ↦ trivial) hmade).served _ _ _ hserved
  exact howed

/-- Where every request fits, nothing is written behind a buffer. -/
theorem inBounds_serve {s : ServerState τ Ct Gk} (hs : Serving s.sm.state)
    (hover : s.overran = false) {schedule : List (Choice τ Rpc)}
    (hfits : MadeOf {call | Fits S m s.ctx call.1 call.2} schedule) :
    (serve S m s schedule).shared.overran = false := by
  have hsound := sound_serve S m hs False (by simp [hover])
    fun t req draws hcall hunfit ↦ hunfit (hfits t req draws hcall)
  simpa using hsound.inv.2.2

/-- A run that started in `s` wrote nothing behind a buffer, and every response
but the refusal of a tripped server, and so every `OK` one, is the response a
fresh server gives to that request alone. -/
structure Isolated (s : ServerState τ Ct Gk)
    (c : Config (ServerState τ Ct Gk) τ Rpc Reply) : Prop where
  inBounds : c.shared.overran = false
  alone : ∀ {t req draws resp}, (t, .runInference req draws, .inference resp) ∈ c.served →
    resp.status ≠ .errNotProvisioned →
    ((runInference S m t req draws).run (freshReady s.ctx)).1 = .inference resp

/-- The runs over a set of requests are isolated exactly when each of the
requests, if it gets a result, gets one that fits into the buffer. -/
theorem isolated_iff_fits [Nonempty τ] {s : ServerState τ Ct Gk} (hready : s.sm.state = ready)
    (hover : s.overran = false) (calls : Set (InferenceRequest × Cnp.MaskDraws)) :
    (∀ schedule : List (Choice τ Rpc), MadeOf calls schedule →
        Isolated S m s (serve S m s schedule)) ↔
      ∀ req draws, (req, draws) ∈ calls → Fits S m s.ctx req draws := by
  constructor
  · intro hisolated req draws hmem
    obtain ⟨t⟩ := ‹Nonempty τ›
    let schedule : List (Choice τ Rpc) :=
      .call t (.runInference req draws) :: List.replicate 27 (.go t)
    have hmade : MadeOf calls schedule := by
      intro u req' draws' hcall
      simp only [schedule, List.mem_cons, Choice.call.injEq, Rpc.runInference.injEq,
        List.mem_replicate, reduceCtorEq, and_false, or_false] at hcall
      obtain ⟨-, rfl, rfl⟩ := hcall
      exact hmem
    have hwithin : Within 27 (handle S m t (.runInference req draws)) :=
      within_runInference req draws
    have hbounds := (hisolated schedule hmade).inBounds
    rw [Config.shared_of_call hwithin] at hbounds
    by_contra hunfit
    have hoverran := (overran_run_iff S m t hready hover req draws).mpr hunfit
    exact absurd (hoverran.symm.trans hbounds) (by simp)
  · intro hfits schedule hmade
    refine ⟨?_, fun hserved hstatus ↦ ?_⟩
    · exact inBounds_serve S m (.inl hready) hover fun t req draws hcall ↦
        hfits req draws (hmade t req draws hcall)
    · rcases answered_alone S m (.inl hready) hserved with halone | ⟨message, hfailed⟩
      · exact halone.symm
      · obtain rfl := Reply.inference.inj hfailed
        exact absurd rfl hstatus

end Pools

/-! ## Two threads over `Seal.clear` -/

def clearFirst : InferenceRequest := ⟨[7, 1, 0], "a", "bank", 1, .slot⟩

/-- The two threads work on their requests in turns. -/
def clearSchedule : List (Choice Bool Rpc) :=
  .call false (.runInference clearFirst Cnp.zeroDraws) ::
    .call true (.runInference ⟨[7, 2, 0], "b", "bank", 1, .slot⟩ Cnp.zeroDraws) ::
    (List.replicate 30 [.go false, .go true]).flatten

theorem isolated_iff_fits_two_threads :
    (serve Seal.clear (.clear .slot) (freshReady ⟨7, true⟩) clearSchedule).served.map
        (fun answer ↦ (answer.1, answer.2.2)) =
      [(true, .inference ⟨.ok, [7, 0, 2], "b", ""⟩),
        (false, .inference ⟨.ok, [7, 0, 1], "a", ""⟩)] ∧
      Isolated Seal.clear (.clear .slot) (freshReady ⟨7, true⟩)
        (serve Seal.clear (.clear .slot) (freshReady ⟨7, true⟩) clearSchedule) := by
  refine ⟨by decide +kernel, ?_⟩
  have hsize : ∀ ct, Seal.clear.saveSize ct ≤ CT_BUF := fun _ ↦ (by decide : 3 ≤ CT_BUF)
  exact (isolated_iff_fits Seal.clear (.clear .slot) rfl rfl Set.univ).mpr
    (fun req draws _ ↦ fits_of_saveSize Seal.clear _ hsize _ req draws) clearSchedule
    fun _ _ _ _ ↦ trivial

end Ppfdaas.ServerState
