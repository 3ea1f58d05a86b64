import Ppfdaas.Library.BoundedTurns
import Ppfdaas.Vendor.ServiceRuns

/-!
# How long a request takes

`RunInference` never waits, with each locked method of the state machine taken
as one step: 27 steps of its own thread are enough.  A rotation takes two.
-/

namespace Ppfdaas.ServerState

open Interleaving ProvisioningState

variable {τ Ct Pt Gk : Type} {S : Seal Ct Pt Gk} {m : ServiceConstants Pt} {t : τ}

theorem within_attempt {α : Type} (x : Except String α) :
    Within 0 (attempt x : ExceptT String (Prog (ServerState τ Ct Gk)) α).run := .done 0 x

theorem within_rotate (event : ℤ → Gk → Event τ Gk) (acc : Ct) (step : ℤ) :
    Within 2 (rotate S event acc step).run :=
  .bind (.modify _) fun _ ↦ .atomically _

theorem within_treeSum (event : ℤ → Gk → Event τ Gk) (ct : Ct) :
    Within 16 (treeSum S event ct).run :=
  Within.foldlM (fun acc step ↦ Within.except_bind (within_rotate event acc step) fun tmp ↦
    within_attempt (S.add acc tmp)) STEPS ct

theorem within_recordRequestAndMaybeTrip (checksPassed : Bool) (reason : String) :
    Within 3 (recordRequestAndMaybeTrip checksPassed reason : Step τ Ct Gk Bool) := by
  refine Within.bind (k := 2) (.modify _) fun _ ↦ ?_
  cases checksPassed with
  | true => exact .done 2 false
  | false =>
      refine Within.bind (k := 1) (.atomically _) fun mismatches ↦ ?_
      dsimp only
      split_ifs
      · exact .done 1 false
      · exact .atomically _

section Buffers

variable [DecidableEq τ]

theorem within_saveOut (ct : Ct) : Within 2 (saveOut S t ct).run :=
  .bind (.modify _) fun _ ↦ .bind (k := 0) (.read _) fun _ ↦ .done 0 _

theorem within_storeAccBuf (acc : Ct) :
    Within 1 (storeAccBuf t acc : ExceptT String (Prog (ServerState τ Ct Gk)) Unit).run :=
  .bind (k := 0) (.modify _) fun _ ↦ .done 0 _

omit [DecidableEq τ] in
theorem within_loadAccBuf :
    Within 1 (loadAccBuf t : ExceptT String (Prog (ServerState τ Ct Gk)) Ct).run := by
  refine Within.bind (k := 0) (.read _) fun acc ↦ ?_
  cases acc <;> exact .done 0 _

theorem within_slotBlock (ct : Ct) : Within 22 (slotBlock S m t ct).run := by
  refine Within.except_bind (k := 22) (within_attempt _) fun product ↦ ?_
  refine Within.except_bind (k := 22) (within_attempt _) fun scaled ↦ ?_
  refine Within.except_bind (k := 6) (within_treeSum _ scaled) fun sum ↦ ?_
  refine Within.except_bind (k := 5) (within_storeAccBuf sum) fun _ ↦ ?_
  refine Within.except_bind (k := 4) within_loadAccBuf fun acc ↦ ?_
  refine Within.except_bind (k := 4) (within_attempt _) fun out ↦ ?_
  refine Within.except_bind (k := 3) (within_storeAccBuf out) fun _ ↦ ?_
  exact Within.except_bind within_loadAccBuf fun acc ↦ within_saveOut acc

theorem within_cnpBlock (draws : Cnp.MaskDraws) (ct : Ct) :
    Within 5 (cnpBlock S m t draws ct).run := by
  refine Within.except_bind (k := 4) (.read _) fun _ ↦ ?_
  refine Within.except_bind (k := 3) (.read _) fun before ↦ ?_
  refine Within.except_bind (k := 3) (within_attempt _) fun out ↦ ?_
  refine Within.except_bind (k := 2) (.read _) fun after ↦ ?_
  dsimp only
  split_ifs
  · exact .done 2 _
  · exact within_saveOut out

theorem within_score (req : InferenceRequest) (draws : Cnp.MaskDraws) (ct : Ct) :
    Within 23 (score S m t req draws ct) := by
  refine Within.bind (k := 22) (.modify _) fun _ ↦ ?_
  by_cases hmode : m.packingMode = .cnp
  · simp only [hmode, if_true]
    refine (Within.bind (k := 0) (within_cnpBlock draws ct) fun result ↦ ?_).mono (by norm_num)
    cases result <;> exact .done 0 _
  · simp only [hmode, if_false]
    refine Within.bind (k := 0) (within_slotBlock ct) fun result ↦ ?_
    cases result <;> exact .done 0 _

theorem within_runInference (req : InferenceRequest) (draws : Cnp.MaskDraws) :
    Within 27 (runInference S m t req draws) := by
  by_cases hrefused : Refused m req
  · obtain ⟨code, message, heq⟩ := runInference_eq_refused S m t req draws hrefused
    rw [heq]
    exact .done 27 _
  have hfailed (status : InferenceStatus) (message reason : String) :
      Within 26 (do
        let _ ← recordRequestAndMaybeTrip false reason
        return failed req status message : Step τ Ct Gk Reply) :=
    (Within.bind (k := 0) (within_recordRequestAndMaybeTrip _ _) fun _ ↦ .done 0 _).mono
      (by norm_num)
  obtain ⟨hmode, hlanes⟩ := serverMode_of_not_refused m hrefused
  simp only [runInference, hmode, ne_eq, not_true_eq_false, if_false, hlanes]
  refine Within.bind (k := 26) (.read _) fun state ↦ ?_
  by_cases hstate : state = ready
  swap
  · simp only [hstate, not_false_eq_true, if_true]
    exact (Within.bind (k := 0) (.read _) fun _ ↦ .done 0 _).mono (by norm_num)
  simp only [hstate, not_true_eq_false, if_false]
  by_cases hsize : req.ciphertext.length > CT_BUF
  · simp only [hsize, if_true]
    exact hfailed _ _ _
  simp only [hsize, if_false]
  cases S.load req.ciphertext with
  | error e => exact hfailed _ _ _
  | ok ct =>
      by_cases hparms : S.parmsId ct = S.firstParmsId
      · simp only [hparms, not_true_eq_false, if_false]
        exact .bind (within_recordRequestAndMaybeTrip _ _) fun _ ↦ within_score req draws ct
      · simp only [hparms, not_false_eq_true, if_true]
        exact hfailed _ _ _

end Buffers

end Ppfdaas.ServerState
