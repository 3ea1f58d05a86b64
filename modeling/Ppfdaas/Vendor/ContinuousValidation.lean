import Ppfdaas.Vendor.ServiceRuns

/-!
# Continuous validation

Rung (c) over whole request histories.  The counter of failed checks is never
set back, so a passing request does not start the count again.
-/

namespace Ppfdaas.ServerState

open Interleaving ProvisioningState ProvisioningStateMachine
open scoped List

variable {τ Ct Pt Gk : Type}

/-- A `RunInference` of a history, with the thread that serves it. -/
structure Request (τ : Type) where
  thread : τ
  req : InferenceRequest
  draws : Cnp.MaskDraws

def Request.call (r : Request τ) : τ × Rpc := (r.thread, .runInference r.req r.draws)

section Histories

variable (S : Seal Ct Pt Gk) (m : ServiceConstants Pt)

/-- Whether a request passes the per-request checks; `none` for one that is
refused before them. -/
def checkOutcome (r : Request τ) : Option Bool :=
  if Refused m r.req then none else some (perRequestChecks S r.req).isOk

/-- The outcomes of the requests of a history, were each to reach the checks. -/
def checks (reqs : List (Request τ)) : List Bool := reqs.filterMap (checkOutcome S m)

variable [DecidableEq τ]

def serveRequests (s : ServerState τ Ct Gk) (reqs : List (Request τ)) : ServerState τ Ct Gk :=
  serveAll S m s (reqs.map Request.call)

/-- The outcomes of the requests that do reach the checks. -/
def recorded (s : ServerState τ Ct Gk) : List (Request τ) → List Bool
  | [] => []
  | r :: reqs =>
      (if s.sm.state = ready then (checkOutcome S m r).toList else []) ++
        recorded ((runInference S m r.thread r.req r.draws).run s).2 reqs

@[simp] theorem serveRequests_concat (s : ServerState τ Ct Gk) (reqs : List (Request τ))
    (r : Request τ) :
    serveRequests S m s (reqs ++ [r]) =
      ((runInference S m r.thread r.req r.draws).run (serveRequests S m s reqs)).2 := by
  simp only [serveRequests, List.map_append, List.map_singleton]
  exact serveAll_concat ..

theorem recorded_concat (s : ServerState τ Ct Gk) (reqs : List (Request τ)) (r : Request τ) :
    recorded S m s (reqs ++ [r]) = recorded S m s reqs ++
      if (serveRequests S m s reqs).sm.state = ready then (checkOutcome S m r).toList else [] := by
  induction reqs generalizing s with
  | nil => simp [recorded, serveRequests, serveAll]
  | cons r' reqs ih =>
      have htail : serveRequests S m ((runInference S m r'.thread r'.req r'.draws).run s).2 reqs =
          serveRequests S m s (r' :: reqs) := rfl
      rw [List.cons_append, recorded, ih, htail, recorded, List.append_assoc]

/-! ## What one request does to the counter -/

theorem runInference_of_not_ready (r : Request τ) (s : ServerState τ Ct Gk)
    (hstate : s.sm.state ≠ ready) :
    ((runInference S m r.thread r.req r.draws).run s).2 = s := by
  cases slotStep_runInference (m := m) S r.thread r.req r.draws s with
  | inference _ _ _ _ _ _ hidle => exact hidle hstate

theorem runInference_of_refused (r : Request τ) (s : ServerState τ Ct Gk)
    (h : checkOutcome S m r = none) :
    ((runInference S m r.thread r.req r.draws).run s).2 = s := by
  have hrefused : Refused m r.req := by simpa [checkOutcome] using h
  obtain ⟨code, message, hrun⟩ := run_runInference_refused S m r.thread r.req r.draws s hrefused
  rw [hrun]

theorem runInference_of_passed (r : Request τ) (s : ServerState τ Ct Gk)
    (hstate : s.sm.state = ready) (h : checkOutcome S m r = some true) :
    ((runInference S m r.thread r.req r.draws).run s).2.sm = s.sm.incrTotalRequests := by
  obtain ⟨hrefused, hok⟩ : ¬ Refused m r.req ∧ (perRequestChecks S r.req).isOk := by
    by_cases hrefused : Refused m r.req
    · simp [checkOutcome, hrefused] at h
    · simpa [checkOutcome, hrefused] using h
  rw [run_runInference_accepted S m r.thread r.req r.draws s hrefused]
  cases hchecks : perRequestChecks S r.req with
  | error failure => simp [hchecks, Except.isOk, Except.toBool] at hok
  | ok ct =>
      obtain ⟨calls, log, locals, hrun⟩ :=
        run_score S m r.thread r.req r.draws ct { s with sm := s.sm.incrTotalRequests }
      simp only [hstate, ne_eq, not_true_eq_false, if_false, hrun]

theorem runInference_of_failed (r : Request τ) (s : ServerState τ Ct Gk)
    (hstate : s.sm.state = ready) (h : checkOutcome S m r = some false) :
    ∃ reason, ((runInference S m r.thread r.req r.draws).run s).2.sm =
      (s.sm.recordRequestAndMaybeTrip false reason).2 := by
  obtain ⟨hrefused, hfail⟩ : ¬ Refused m r.req ∧ (perRequestChecks S r.req).isOk = false := by
    by_cases hrefused : Refused m r.req
    · simp [checkOutcome, hrefused] at h
    · simpa [checkOutcome, hrefused] using h
  rw [run_runInference_accepted S m r.thread r.req r.draws s hrefused]
  cases hchecks : perRequestChecks S r.req with
  | error failure =>
      obtain ⟨status, message, reason⟩ := failure
      exact ⟨reason, by simp only [hstate, ne_eq, not_true_eq_false, if_false]⟩
  | ok ct => simp [hchecks, Except.isOk, Except.toBool] at hfail

/-! ## The counter over a history -/

/-- While the server is ready the counter is the number of failures recorded,
and it stops at the third. -/
inductive Watch (s : ServerState τ Ct Gk) (recorded checks : List Bool) : Prop
  | serving (hstate : s.sm.state = ready) (hcount : s.sm.mismatchCount = recorded.count false)
      (hfew : recorded.count false < kMaxContinuousMismatches) (hall : recorded = checks)
  | tripped (before : List Bool) (hstate : s.sm.state = fault)
      (hrecorded : recorded = before ++ [false]) (htwo : before.count false = 2)
      (hall : recorded <+: checks)

theorem Watch.step {s : ServerState τ Ct Gk} {recorded checks : List Bool}
    (h : Watch s recorded checks) (r : Request τ) :
    Watch ((runInference S m r.thread r.req r.draws).run s).2
      (recorded ++ if s.sm.state = ready then (checkOutcome S m r).toList else [])
      (checks ++ (checkOutcome S m r).toList) := by
  cases h with
  | tripped before hstate hrecorded htwo hall =>
      have hne : s.sm.state ≠ ready := by simp [hstate]
      rw [runInference_of_not_ready S m r s hne, if_neg hne, List.append_nil]
      exact .tripped before hstate hrecorded htwo (hall.trans (List.prefix_append ..))
  | serving hstate hcount hfew hall =>
      rw [if_pos hstate]
      rcases houtcome : checkOutcome S m r with _ | _ | _
      · rw [runInference_of_refused S m r s houtcome]
        exact .serving hstate (by simpa using hcount) (by simpa using hfew) (by simpa using hall)
      · obtain ⟨reason, hsm⟩ := runInference_of_failed S m r s hstate houtcome
        rw [recordRequestAndMaybeTrip_failed, hcount] at hsm
        have hincr : incr64 (recorded.count false) = recorded.count false + 1 := by
          simp only [incr64, kMaxContinuousMismatches] at hfew ⊢
          omega
        by_cases htrip : recorded.count false + 1 < kMaxContinuousMismatches
        · rw [hincr, if_pos htrip] at hsm
          refine .serving ?_ ?_ (by simpa using htrip) (by simp [hall])
          · rw [hsm]
            exact hstate
          · rw [hsm]
            simp [incrMismatchCount, incrTotalRequests, hcount, hincr]
        · rw [hincr, if_neg htrip] at hsm
          have htwo : recorded.count false = 2 := by
            simp only [kMaxContinuousMismatches] at hfew htrip
            omega
          refine .tripped recorded ?_ rfl htwo (by simp [hall])
          have hready : s.sm.incrTotalRequests.incrMismatchCount.state = ready := hstate
          simp [hsm, maybeTrip, hready]
      · have hsm := runInference_of_passed S m r s hstate houtcome
        refine .serving ?_ ?_ (by simpa using hfew) (by simp [hall])
        · rw [hsm]
          exact hstate
        · rw [hsm]
          simpa [incrTotalRequests] using hcount

theorem watch_serveRequests (s : ServerState τ Ct Gk) (hstate : s.sm.state = ready)
    (hcount : s.sm.mismatchCount = 0) (reqs : List (Request τ)) :
    Watch (serveRequests S m s reqs) (recorded S m s reqs) (checks S m reqs) := by
  induction reqs using List.reverseRecOn with
  | nil => exact .serving hstate hcount (by simp [recorded, kMaxContinuousMismatches]) rfl
  | append_singleton reqs r ih =>
      have hchecks : checks S m (reqs ++ [r]) = checks S m reqs ++ (checkOutcome S m r).toList := by
        cases houtcome : checkOutcome S m r <;> simp [checks, houtcome]
      rw [serveRequests_concat, recorded_concat, hchecks]
      exact ih.step S m r

/-! ## Three failures in a row -/

/-- At every point of the history the server is in `PROV_FAULT` exactly when
the last three requests that reached the checks failed them, and from then on
it scores nothing. -/
def TripsOnThreeInARow (s : ServerState τ Ct Gk) (reqs : List (Request τ)) : Prop :=
  ∀ served, served <+: reqs →
    ((serveRequests S m s served).sm.state = fault ↔
      List.replicate kMaxContinuousMismatches false <:+ recorded S m s served) ∧
    ((serveRequests S m s served).sm.state = fault →
      ∀ (later : List (Request τ)) (r : Request τ), ¬ Refused m r.req →
        ∃ message, ((runInference S m r.thread r.req r.draws).run
          (serveRequests S m s (served ++ later))).1 =
            failed r.req .errNotProvisioned message)

/-- When the third request to fail its checks arrives, the two requests that
were checked before it have failed as well. -/
def FirstThreeFailuresInARow (reqs : List (Request τ)) : Prop :=
  ∀ before, before ++ [false] <+: checks S m reqs → before.count false = 2 →
    [false, false] <:+ before

theorem fault_stays (s : ServerState τ Ct Gk) (served later : List (Request τ))
    (h : (serveRequests S m s served).sm.state = fault) :
    serveRequests S m s (served ++ later) = serveRequests S m s served := by
  induction later using List.reverseRecOn with
  | nil => rw [List.append_nil]
  | append_singleton later r ih =>
      rw [← List.append_assoc, serveRequests_concat, ih]
      exact runInference_of_not_ready S m r _ (by simp [h])

/-- A prefix with as many failures and a failure at its end is the whole
list, when that ends in a failure too. -/
theorem eq_of_prefix_of_count {before all : List Bool}
    (hpre : before ++ [false] <+: all ++ [false])
    (hcount : before.count false = all.count false) : before = all := by
  rcases List.prefix_concat_iff.mp hpre with heq | hshort
  · exact List.append_cancel_right heq
  · have hle := hshort.count_le false
    simp only [List.count_append, List.count_singleton_self] at hle
    omega

theorem suffix_concat_false {before : List Bool} :
    List.replicate kMaxContinuousMismatches false <:+ before ++ [false] ↔
      [false, false] <:+ before := by
  have hreplicate : List.replicate kMaxContinuousMismatches false = [false, false] ++ [false] := rfl
  rw [hreplicate]
  constructor
  · rintro ⟨front, hfront⟩
    exact ⟨front, List.append_cancel_right (by rw [List.append_assoc, hfront])⟩
  · rintro ⟨front, rfl⟩
    exact ⟨front, by simp⟩

theorem tripsOnThreeInARow_of_ready (s : ServerState τ Ct Gk) (hstate : s.sm.state = ready)
    (hcount : s.sm.mismatchCount = 0) (reqs : List (Request τ)) :
    TripsOnThreeInARow S m s reqs ↔ FirstThreeFailuresInARow S m reqs := by
  constructor
  · intro h before hpre htwo
    obtain ⟨served, hserved, hchecks⟩ := List.prefix_filterMap_iff.mp hpre
    cases watch_serveRequests S m s hstate hcount served with
    | serving _ _ hfew hall =>
        have hthree : (recorded S m s served).count false = 3 := by
          rw [hall, checks, ← hchecks]
          simp [htwo]
        simp [hthree, kMaxContinuousMismatches] at hfew
    | tripped before' hfault hrecorded htwo' hall =>
        have hsuffix := (h served hserved).1.mp hfault
        rw [checks, ← hchecks, hrecorded] at hall
        rw [hrecorded, suffix_concat_false] at hsuffix
        exact eq_of_prefix_of_count hall (htwo'.trans htwo.symm) ▸ hsuffix
  · intro h served hserved
    have hwatch := watch_serveRequests S m s hstate hcount served
    refine ⟨⟨fun hfault ↦ ?_, fun hsuffix ↦ ?_⟩, fun hfault later r hrefused ↦ ?_⟩
    · cases hwatch with
      | serving hready => simp [hready] at hfault
      | tripped before _ hrecorded htwo hall =>
          rw [hrecorded, suffix_concat_false]
          refine h before ?_ htwo
          rw [← hrecorded]
          exact hall.trans (hserved.filterMap _)
    · cases hwatch with
      | tripped _ hfault => exact hfault
      | serving _ _ hfew =>
          have hle := hsuffix.sublist.count_le false
          rw [List.count_replicate_self] at hle
          omega
    · rw [fault_stays S m s served later hfault,
        run_runInference_accepted S m r.thread r.req r.draws _ hrefused,
        if_pos (by simp [hfault])]
      exact ⟨_, rfl⟩

/-! ## From the moment the server becomes ready -/

omit [DecidableEq τ] in
theorem SlotStep.mismatchCount_eq {s s' : ServerState τ Ct Gk} {rpc : Rpc} {reply : Reply}
    (h : SlotStep S s s' rpc reply) (hne : s.sm.state ≠ ready) :
    s'.sm.mismatchCount = s.sm.mismatchCount := by
  cases h with
  | provisioned _ _ _ _ _ _ _ hcount => exact hcount
  | provisionFailed _ _ _ _ _ _ _ hcount => exact hcount
  | canaryReturned _ _ _ _ _ _ _ _ hcount => exact hcount
  | canaryFailed _ _ _ _ _ _ hcount => exact hcount
  | confirmed _ _ _ _ _ _ hcount => exact hcount
  | inference _ _ _ _ _ _ hidle => rw [hidle hne]
  | provisionRejected _ _ _ hsame => rw [hsame]
  | canaryRejected _ _ _ hsame => rw [hsame]
  | confirmRejected _ _ _ _ hsame => rw [hsame]
  | status _ hsame => rw [hsame]
  | transcipher _ _ _ hsame => rw [hsame]

/-- The calls of `setup` bring a fresh server to `PROV_READY`, and not before
the last of them. -/
structure FirstReady (noKeys : Gk) (setup : List (τ × Rpc)) : Prop where
  ready : (after S m noKeys setup).sm.state = ready
  first : ∀ served, served <+: setup → served ≠ setup →
    (after S m noKeys served).sm.state ≠ .ready

theorem FirstReady.mismatchCount {noKeys : Gk} {setup : List (τ × Rpc)}
    (h : FirstReady S m noKeys setup) :
    (after S m noKeys setup).sm.mismatchCount = 0 := by
  cases hmode : m.packingMode with
  | cnp =>
      -- A CNP server is ready from the start, so there is no call before that.
      have hnil : setup = [] := by
        by_contra hne
        refine h.first [] (List.nil_prefix ..) (Ne.symm hne) ?_
        simp [after, serveAll, new, hmode]
        rfl
      subst hnil
      simp [after, serveAll, new, hmode]
      rfl
  | slot =>
      have hbefore : ∀ served, served <+: setup →
          (after S m noKeys served).sm.mismatchCount = 0 := by
        intro served
        induction served using List.reverseRecOn with
        | nil => simp [after, serveAll, new, hmode, ProvisioningStateMachine.new]
        | append_singleton served call ih =>
            intro hpre
            have hshorter := (List.prefix_append served [call]).trans hpre
            have hne : served ≠ setup := by
              rintro rfl
              simpa using hpre.length_le
            obtain ⟨t, rpc⟩ := call
            simp only [after, serveAll_concat] at ih ⊢
            rw [(slotStep_handle S hmode t rpc _).mismatchCount_eq S
              (h.first served hshorter hne)]
            exact ih hshorter
      exact hbefore setup (List.prefix_refl _)

/-- From the moment the server becomes ready, it trips on three failures in a
row exactly in the histories whose first three failures are in a row. -/
theorem tripsOnThreeInARow_iff {noKeys : Gk} {setup : List (τ × Rpc)}
    (h : FirstReady S m noKeys setup) (reqs : List (Request τ)) :
    TripsOnThreeInARow S m (after S m noKeys setup) reqs ↔ FirstThreeFailuresInARow S m reqs :=
  tripsOnThreeInARow_of_ready S m _ h.ready h.mismatchCount reqs

end Histories

/-! ## A server over `Seal.clear` -/

def clearSetup : List (Unit × Rpc) :=
  [((), .provisionGaloisKeys [7]), ((), .canaryCheck [7, 1, 0]), ((), .canaryConfirm true "")]

def clearRequest (ciphertext : Bytes) : Request Unit :=
  ⟨(), ⟨ciphertext, "id", "bank", 1, .slot⟩, Cnp.zeroDraws⟩

theorem firstReady_clearSetup : FirstReady Seal.clear (.clear .slot) 0 clearSetup where
  ready := rfl
  first := by
    intro served hpre hne
    have hmem := (List.mem_inits served clearSetup).mpr hpre
    simp only [clearSetup, List.inits, List.map_cons, List.map_nil,
      List.mem_cons, List.not_mem_nil, or_false] at hmem
    rcases hmem with rfl | rfl | rfl | rfl
    · decide
    · decide
    · decide
    · exact absurd rfl hne

theorem tripsOnThreeInARow_two_failures :
    TripsOnThreeInARow Seal.clear (.clear .slot) (after Seal.clear (.clear .slot) 0 clearSetup)
      [clearRequest [], clearRequest [7, 1, 0], clearRequest []] := by
  refine (tripsOnThreeInARow_iff Seal.clear _ firstReady_clearSetup _).mpr ?_
  intro before hpre htwo
  have hle := hpre.count_le false
  have htotal : (checks Seal.clear (.clear .slot)
      [clearRequest [], clearRequest [7, 1, 0], clearRequest []]).count false = 2 := by
    decide
  rw [htotal, List.count_append, htwo] at hle
  simp at hle

/-- Three malformed requests with a good one among them trip the server. -/
theorem trips_without_three_in_a_row :
    ¬ TripsOnThreeInARow Seal.clear (.clear .slot)
      (after Seal.clear (.clear .slot) 0 clearSetup)
      [clearRequest [], clearRequest [7, 1, 0], clearRequest [],
        clearRequest []] := by
  intro h
  have hsuffix := (h _ (List.prefix_refl _)).1.mp rfl
  have hrecorded : recorded Seal.clear (.clear .slot)
      (after Seal.clear (.clear .slot) 0 clearSetup)
      [clearRequest [], clearRequest [7, 1, 0], clearRequest [],
        clearRequest []] = [false, true, false, false] := rfl
  rw [hrecorded] at hsuffix
  revert hsuffix
  decide

end Ppfdaas.ServerState
