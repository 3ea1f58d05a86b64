import Ppfdaas.Library.PhasedThreads
import Ppfdaas.Vendor.StateMachineThreads

/-!
# A burst of failing requests trips once

Any number of concurrent calls `record_request_and_maybe_trip(false, reason)`
on a ready machine.  The counter is bumped outside the mutex, so many calls can
be past the threshold together; the compare-exchange lets one of them through.
-/

namespace Ppfdaas.Monitor

open Interleaving Interleaving.Phases Function ProvisioningState

variable {τ : Type}

/-- How far a failing call is: `winning` has swapped the state and not yet
written its reason. -/
inductive CallPhase where
  | entering
  | counting
  | locking
  | swapping
  | winning
  | leaving (tripped : Bool)
  | returning (tripped : Bool)
  deriving DecidableEq

namespace CallPhase

/-- What the call does next in each phase. -/
def phases (reason : τ → String) : Phases (Monitor τ) τ Bool CallPhase where
  enabled _ p m :=
    match p with
    | locking => m.holder.isNone
    | _ => true
  effect t p m :=
    match p with
    | entering => { m with sm := m.sm.incrTotalRequests }
    | counting => { m with sm := m.sm.incrMismatchCount }
    | locking => { m with holder := some t }
    | swapping => if m.sm.state = ready then { m with sm := { m.sm with state := fault } } else m
    | winning => { m with sm := { m.sm with lastMessage := reason t } }
    | leaving _ => { m with holder := none }
    | returning _ => m
  next _ p m :=
    match p with
    | entering => counting
    | counting =>
        if m.sm.incrMismatchCount.mismatchCount <
            ProvisioningStateMachine.kMaxContinuousMismatches then returning false
        else locking
    | locking => swapping
    | swapping => if m.sm.state = ready then winning else leaving false
    | winning => leaving true
    | leaving tripped => returning tripped
    | returning tripped => returning tripped
  answer
    | returning tripped => some tripped
    | _ => none

/-- What is left of a failing call of `record_request_and_maybe_trip`. -/
def rest (reason : τ → String) (t : τ) : CallPhase → Prog (Monitor τ) Bool
  | entering => recordRequestAndMaybeTrip t false (reason t)
  | counting => do
      let mismatches ← incrMismatchCount
      if mismatches < ProvisioningStateMachine.kMaxContinuousMismatches then
        return false
      lock t
      let tripped ← compareExchange ready fault
      if !tripped then
        unlock
        return false
      setLastMessage (reason t)
      unlock
      return true
  | locking => do
      lock t
      let tripped ← compareExchange ready fault
      if !tripped then
        unlock
        return false
      setLastMessage (reason t)
      unlock
      return true
  | swapping => do
      let tripped ← compareExchange ready fault
      if !tripped then
        unlock
        return false
      setLastMessage (reason t)
      unlock
      return true
  | winning => do
      setLastMessage (reason t)
      unlock
      return true
  | leaving tripped => do
      unlock
      return tripped
  | returning tripped => return tripped

theorem describes (reason : τ → String) : (phases reason).Describes (rest reason) where
  done {t p r} h := by
    cases p <;> simp [phases] at h
    subst h
    rfl
  act {t p} h := by
    cases p with
    | entering => rfl
    | counting =>
        simp only [rest, incrMismatchCount, Prog.atomically, Prog.act_bind, phases]
        congr 1
        funext m
        by_cases hcount : m.sm.incrMismatchCount.mismatchCount <
            ProvisioningStateMachine.kMaxContinuousMismatches
        · simp [hcount]
        · simp [hcount]
    | locking => rfl
    | swapping =>
        simp only [rest, compareExchange, Prog.atomically, Prog.act_bind, phases]
        congr 1
        · funext m
          by_cases hstate : m.sm.state = ready <;> simp [hstate]
        · funext m
          by_cases hstate : m.sm.state = ready
          · simp [hstate]
          · simp [hstate]
    | winning => rfl
    | leaving tripped => rfl
    | returning tripped => simp [phases] at h

/-! ## The tally of a burst -/

def hasEntered : CallPhase → Bool
  | entering => false
  | _ => true

def hasCounted : CallPhase → Bool
  | entering => false
  | counting => false
  | _ => true

def mayTrip : CallPhase → Bool
  | locking => true
  | swapping => true
  | _ => false

def hasTripped : CallPhase → Bool
  | winning => true
  | leaving tripped => tripped
  | returning tripped => tripped
  | _ => false

def hasReported : CallPhase → Bool
  | leaving tripped => tripped
  | returning tripped => tripped
  | _ => false

theorem hasTripped_of_hasReported {p : CallPhase} (h : hasReported p = true) :
    hasTripped p = true := by
  cases p <;> simp [hasReported, hasTripped] at h ⊢ <;> exact h

end CallPhase

open CallPhase

theorem incr64_iterate (k : ℕ) : incr64^[k] 0 = k % 2 ^ 64 := by
  induction k with
  | zero => rfl
  | succ k ih =>
      rw [iterate_succ_apply', ih, incr64, Nat.mod_add_mod]

section Burst

variable [Fintype τ] (reason : τ → String) (sm₀ : ProvisioningStateMachine)

/-- Where a burst of failing calls stands when its threads are in the phases `φ`. -/
structure Burst (φ : τ → CallPhase) (m : Monitor τ) : Prop where
  total : m.sm.totalRequests = incr64^[tally hasEntered φ] sm₀.totalRequests
  count : m.sm.mismatchCount = incr64^[tally hasCounted φ] 0
  state : m.sm.state = ready ∨ m.sm.state = fault
  fault_iff : m.sm.state = fault ↔ ∃ t, hasTripped (φ t) = true
  unique : ∀ t u, hasTripped (φ t) = true → hasTripped (φ u) = true → t = u
  message : ∀ t, hasReported (φ t) = true → m.sm.lastMessage = reason t
  pending : m.sm.state = ready → 3 ≤ tally hasCounted φ → ∃ t, mayTrip (φ t) = true
  reached : ∀ t, mayTrip (φ t) = true ∨ hasTripped (φ t) = true → 3 ≤ tally hasCounted φ

variable {reason sm₀} [DecidableEq τ] {φ : τ → CallPhase} {t : τ} {m m' : Monitor τ} {p : CallPhase}

omit [Fintype τ] in
theorem update_same {P : CallPhase → Bool} (h : P p = P (φ t)) (u : τ) :
    P (update φ t p u) = P (φ u) := by
  by_cases hut : u = t
  · simp [hut, h]
  · rw [update_of_ne hut]

theorem Burst.quiet (h : Burst reason sm₀ φ m) (hcounted : hasCounted p = hasCounted (φ t))
    (hmay : mayTrip p = mayTrip (φ t)) (htripped : hasTripped p = hasTripped (φ t))
    (hreported : hasReported p = hasReported (φ t))
    (htotal : m'.sm.totalRequests = incr64^[tally hasEntered (update φ t p)] sm₀.totalRequests)
    (hcount : m'.sm.mismatchCount = m.sm.mismatchCount) (hstate : m'.sm.state = m.sm.state)
    (hmessage : m'.sm.lastMessage = m.sm.lastMessage) :
    Burst reason sm₀ (update φ t p) m' := by
  have htally := tally_update_same hcounted
  refine ⟨htotal, ?_, ?_, ?_, ?_, ?_, ?_, ?_⟩
  · rw [hcount, htally, h.count]
  · rw [hstate]
    exact h.state
  · simp only [hstate, update_same htripped]
    exact h.fault_iff
  · simp only [update_same htripped]
    exact h.unique
  · simp only [hmessage, update_same hreported]
    exact h.message
  · simp only [hstate, htally, update_same hmay]
    exact h.pending
  · simp only [htally, update_same hmay, update_same htripped]
    exact h.reached

/-- The step of a call that bumps the counter: from the third on it goes for
the mutex. -/
theorem Burst.counted (h : Burst reason sm₀ φ m) (ht : φ t = counting) :
    Burst reason sm₀ (update φ t ((phases reason).next t counting m))
      { m with sm := m.sm.incrMismatchCount } := by
  have hnew : incr64 m.sm.mismatchCount = incr64^[tally hasCounted φ + 1] 0 := by
    rw [iterate_succ_apply', ← h.count]
  have hvalue : m.sm.incrMismatchCount.mismatchCount = (tally hasCounted φ + 1) % 2 ^ 64 :=
    hnew.trans (incr64_iterate _)
  set p := (phases reason).next t counting m with hp
  have hcases : (p = returning false ∧ (tally hasCounted φ + 1) % 2 ^ 64 < 3) ∨
      (p = locking ∧ 3 ≤ (tally hasCounted φ + 1) % 2 ^ 64) := by
    simp only [phases, hvalue, ProvisioningStateMachine.kMaxContinuousMismatches] at hp
    split at hp
    · exact .inl ⟨hp, by assumption⟩
    · exact .inr ⟨hp, by omega⟩
  have hcounted : hasCounted p = true := by
    rcases hcases with ⟨hp, -⟩ | ⟨hp, -⟩ <;> rw [hp] <;> rfl
  have hentered : hasEntered p = hasEntered (φ t) := by
    rcases hcases with ⟨hp, -⟩ | ⟨hp, -⟩ <;> rw [hp, ht] <;> rfl
  have htripped : hasTripped p = hasTripped (φ t) := by
    rcases hcases with ⟨hp, -⟩ | ⟨hp, -⟩ <;> rw [hp, ht] <;> rfl
  have hreported : hasReported p = hasReported (φ t) := by
    rcases hcases with ⟨hp, -⟩ | ⟨hp, -⟩ <;> rw [hp, ht] <;> rfl
  have htally : tally hasCounted (update φ t p) = tally hasCounted φ + 1 :=
    tally_update_new hcounted (by rw [ht]; rfl)
  have hothers : ∀ u, mayTrip (φ u) = true → mayTrip (update φ t p u) = true := by
    intro u hu
    have hut : u ≠ t := by
      rintro rfl
      simp [ht, mayTrip] at hu
    rwa [update_of_ne hut]
  refine ⟨?_, ?_, h.state, ?_, ?_, ?_, ?_, ?_⟩
  · rw [tally_update_same hentered]
    exact h.total
  · rw [htally]
    exact hnew
  · simp only [update_same htripped]
    exact h.fault_iff
  · simp only [update_same htripped]
    exact h.unique
  · simp only [update_same hreported]
    exact h.message
  · intro hready hthree
    rw [htally] at hthree
    -- The third call is itself past the threshold, a later one finds another there.
    by_cases hearlier : 3 ≤ tally hasCounted φ
    · obtain ⟨u, hu⟩ := h.pending hready hearlier
      exact ⟨u, hothers u hu⟩
    · have hthird : tally hasCounted φ + 1 = 3 := by omega
      rcases hcases with ⟨-, hsmall⟩ | ⟨hp, -⟩
      · rw [hthird] at hsmall
        omega
      · exact ⟨t, by rw [update_self, hp]; rfl⟩
  · intro u hu
    rw [htally]
    by_cases hut : u = t
    · subst hut
      rw [update_self] at hu
      rcases hcases with ⟨hp, -⟩ | ⟨-, hlarge⟩
      · simp [hp, mayTrip, hasTripped] at hu
      · exact hlarge.trans (Nat.mod_le _ _)
    · rw [update_of_ne hut] at hu
      exact (h.reached u hu).trans (Nat.le_succ _)

/-- The compare-exchange trips a ready machine and fails on a tripped one. -/
theorem Burst.swapped (h : Burst reason sm₀ φ m) (ht : φ t = swapping) :
    Burst reason sm₀ (update φ t ((phases reason).next t swapping m))
      ((phases reason).effect t swapping m) := by
  have hcounted : 3 ≤ tally hasCounted φ := h.reached t (.inl (by rw [ht]; rfl))
  by_cases hready : m.sm.state = ready
  · have hnobody : ∀ u, hasTripped (φ u) ≠ true := by
      intro u hu
      have hfault := h.fault_iff.mpr ⟨u, hu⟩
      simp [hready] at hfault
    have htally : tally hasCounted (update φ t winning) = tally hasCounted φ :=
      tally_update_same (by rw [ht]; rfl)
    have hreported : hasReported winning = hasReported (φ t) := by
      rw [ht]
      rfl
    have hself : ∀ u, hasTripped (update φ t winning u) = true → u = t := by
      intro u hu
      by_contra hut
      rw [update_of_ne hut] at hu
      exact hnobody u hu
    simp only [phases, hready, if_true]
    refine ⟨?_, ?_, .inr rfl, ?_, ?_, ?_, ?_, ?_⟩
    · rw [tally_update_same (by rw [ht]; rfl)]
      exact h.total
    · rw [htally]
      exact h.count
    · simp only [true_iff]
      exact ⟨t, by rw [update_self]; rfl⟩
    · intro u v hu hv
      rw [hself u hu, hself v hv]
    · simp only [update_same hreported]
      exact fun u hu ↦ absurd (hasTripped_of_hasReported hu) (hnobody u)
    · intro hstate
      simp at hstate
    · intro u _
      rwa [htally]
  · have hfault := h.state.resolve_left hready
    simp only [phases, hready, if_false]
    have htally : tally hasCounted (update φ t (leaving false)) = tally hasCounted φ :=
      tally_update_same (by rw [ht]; rfl)
    have htripped : hasTripped (leaving false) = hasTripped (φ t) := by
      rw [ht]
      rfl
    have hreported : hasReported (leaving false) = hasReported (φ t) := by
      rw [ht]
      rfl
    refine ⟨?_, ?_, h.state, ?_, ?_, ?_, ?_, ?_⟩
    · rw [tally_update_same (by rw [ht]; rfl)]
      exact h.total
    · rw [htally]
      exact h.count
    · simp only [update_same htripped]
      exact h.fault_iff
    · simp only [update_same htripped]
      exact h.unique
    · simp only [update_same hreported]
      exact h.message
    · intro hstate
      exact absurd hstate hready
    · intro u _
      rwa [htally]

/-- The one call that tripped the machine writes its reason. -/
theorem Burst.reported (h : Burst reason sm₀ φ m) (ht : φ t = winning) :
    Burst reason sm₀ (update φ t (leaving true))
      { m with sm := { m.sm with lastMessage := reason t } } := by
  have htally : tally hasCounted (update φ t (leaving true)) = tally hasCounted φ :=
    tally_update_same (by rw [ht]; rfl)
  have htripped : hasTripped (leaving true) = hasTripped (φ t) := by
    rw [ht]
    rfl
  have hmay : mayTrip (leaving true) = mayTrip (φ t) := by
    rw [ht]
    rfl
  refine ⟨?_, ?_, h.state, ?_, ?_, ?_, ?_, ?_⟩
  · rw [tally_update_same (by rw [ht]; rfl)]
    exact h.total
  · rw [htally]
    exact h.count
  · simp only [update_same htripped]
    exact h.fault_iff
  · simp only [update_same htripped]
    exact h.unique
  · intro u hu
    have hut : u = t := by
      by_contra hne
      rw [update_of_ne hne] at hu
      exact hne (h.unique u t (hasTripped_of_hasReported hu) (by rw [ht]; rfl))
    rw [hut]
  · simp only [htally, update_same hmay]
    exact h.pending
  · simp only [htally, update_same hmay, update_same htripped]
    exact h.reached

theorem Burst.move (h : Burst reason sm₀ φ m) (t : τ)
    (hanswer : (phases reason).answer (φ t) = none) :
    Burst reason sm₀ (update φ t ((phases reason).next t (φ t) m))
      ((phases reason).effect t (φ t) m) := by
  cases ht : φ t with
  | entering =>
      refine h.quiet ?_ ?_ ?_ ?_ ?_ rfl rfl rfl
      · rw [ht]; rfl
      · rw [ht]; rfl
      · rw [ht]; rfl
      · rw [ht]; rfl
      · rw [tally_update_new rfl (by rw [ht]; rfl), iterate_succ_apply', ← h.total]
        rfl
  | counting => exact h.counted ht
  | locking =>
      refine h.quiet ?_ ?_ ?_ ?_ ?_ rfl rfl rfl
      · rw [ht]; rfl
      · rw [ht]; rfl
      · rw [ht]; rfl
      · rw [ht]; rfl
      · rw [tally_update_same (by rw [ht]; rfl)]
        exact h.total
  | swapping => exact h.swapped ht
  | winning => exact h.reported ht
  | leaving tripped =>
      refine h.quiet ?_ ?_ ?_ ?_ ?_ rfl rfl rfl
      · rw [ht]; rfl
      · rw [ht]; rfl
      · rw [ht]; rfl
      · rw [ht]; rfl
      · rw [tally_update_same (by rw [ht]; rfl)]
        exact h.total
  | returning tripped => simp [ht, phases] at hanswer

omit [DecidableEq τ] in
theorem burst_start (hready : sm₀.state = ready) (hzero : sm₀.mismatchCount = 0) :
    Burst reason sm₀ (fun _ ↦ entering) ⟨sm₀, none⟩ := by
  have hentered : tally hasEntered (fun _ : τ ↦ entering) = 0 := tally_const_false rfl
  have hcounted : tally hasCounted (fun _ : τ ↦ entering) = 0 := tally_const_false rfl
  refine ⟨?_, ?_, .inl hready, ?_, ?_, ?_, ?_, ?_⟩
  · rw [hentered]
    rfl
  · rw [hcounted]
    exact hzero
  · simp [hready, hasTripped]
  · simp [hasTripped]
  · simp [hasReported]
  · simp [hcounted]
  · simp [mayTrip, hasTripped]

end Burst

/-! ## Every schedule -/

section Runs

variable [Fintype τ] [DecidableEq τ]

def failing (reason : τ → String) (t : τ) : Call := .recordRequestAndMaybeTrip false (reason t)

/-- Every thread has just called `record_request_and_maybe_trip(false, reason)`. -/
def burst (reason : τ → String) (sm₀ : ProvisioningStateMachine) :
    Config (Monitor τ) τ Call Bool :=
  ⟨⟨sm₀, none⟩, fun t ↦ some (failing reason t, method t (failing reason t)), []⟩

/-- When the calls of a burst have all returned, no increment is lost; three or
more of them have tripped the machine, and one alone of them, which left its
reason. -/
theorem trips_once {n : ℕ} (reason : Fin n → String) (sm₀ : ProvisioningStateMachine)
    (hready : sm₀.state = ready) (hzero : sm₀.mismatchCount = 0) (schedule : List (Fin n))
    (hreturned : ∀ i, ((burst reason sm₀).run method (schedule.map .go)).running i = none) :
    let c := (burst reason sm₀).run method (schedule.map .go)
    c.shared.sm.totalRequests = incr64^[n] sm₀.totalRequests ∧
    c.shared.sm.mismatchCount = n % 2 ^ 64 ∧
    (∀ i, ∃ tripped, (i, failing reason i, tripped) ∈ c.served) ∧
    (3 ≤ n → c.shared.sm.state = fault ∧
      ∃ i, (∀ j call, (j, call, true) ∈ c.served ↔ j = i ∧ call = failing reason i) ∧
        c.shared.sm.lastMessage = reason i) ∧
    (n < 3 → c.shared.sm.state = ready ∧ ∀ j call, (j, call, true) ∉ c.served) := by
  intro c
  have hmove : ∀ (φ : Fin n → CallPhase) (m : Monitor (Fin n)) (t : Fin n),
      Burst reason sm₀ φ m → (phases reason).answer (φ t) = none →
      (phases reason).enabled t (φ t) m = true →
      Burst reason sm₀ (update φ t ((phases reason).next t (φ t) m))
        ((phases reason).effect t (φ t) m) :=
    fun _ _ t h hanswer _ ↦ h.move t hanswer
  obtain ⟨φ, htracks, hburst⟩ : ∃ φ, (phases reason).Tracks (rest reason) (failing reason) c φ ∧
      Burst reason sm₀ φ c.shared :=
    (tracks_launch entering ⟨sm₀, none⟩).run (describes reason) hmove
      (burst_start hready hzero) schedule
  -- Every thread is in the phase of its answer.
  have hanswered : ∀ i, ∃ tripped, φ i = returning tripped ∧
      (i, failing reason i, tripped) ∈ c.served := by
    intro i
    rcases htracks.running i with hrun | ⟨-, tripped, hanswer, hserved⟩
    · simp [c, hreturned i] at hrun
    · refine ⟨tripped, ?_, hserved⟩
      cases hφ : φ i <;> simp [phases, hφ] at hanswer
      rw [hanswer]
  have hserved : ∀ j call, (j, call, true) ∈ c.served →
      call = failing reason j ∧ hasTripped (φ j) = true := by
    intro j call hmem
    obtain ⟨hcall, -, hanswer⟩ := htracks.served j call true hmem
    obtain ⟨tripped, hφ, -⟩ := hanswered j
    rw [hφ] at hanswer ⊢
    exact ⟨hcall, Option.some.inj hanswer⟩
  have hall : tally hasCounted φ = n ∧ tally hasEntered φ = n := by
    constructor
    · rw [tally_eq_card, Fintype.card_fin]
      intro i
      obtain ⟨tripped, hφ, -⟩ := hanswered i
      rw [hφ]
      rfl
    · rw [tally_eq_card, Fintype.card_fin]
      intro i
      obtain ⟨tripped, hφ, -⟩ := hanswered i
      rw [hφ]
      rfl
  refine ⟨?_, ?_, fun i ↦ ?_, fun hthree ↦ ?_, fun hfew ↦ ?_⟩
  · rw [hburst.total, hall.2]
  · rw [hburst.count, hall.1, incr64_iterate]
  · obtain ⟨tripped, -, hmem⟩ := hanswered i
    exact ⟨tripped, hmem⟩
  · have hfault : c.shared.sm.state = fault := by
      apply hburst.state.resolve_left
      intro hstill
      obtain ⟨i, hi⟩ := hburst.pending hstill (by rw [hall.1]; exact hthree)
      obtain ⟨tripped, hφ, -⟩ := hanswered i
      simp [hφ, mayTrip] at hi
    obtain ⟨i, hi⟩ := hburst.fault_iff.mp hfault
    obtain ⟨tripped, hφ, hmem⟩ := hanswered i
    obtain rfl : tripped = true := by simpa [hφ, hasTripped] using hi
    refine ⟨hfault, i, fun j call ↦ ⟨fun hj ↦ ?_, ?_⟩, ?_⟩
    · obtain ⟨hcall, htripped⟩ := hserved j call hj
      obtain rfl := hburst.unique j i htripped hi
      exact ⟨rfl, hcall⟩
    · rintro ⟨rfl, rfl⟩
      exact hmem
    · exact hburst.message i (by rw [hφ]; rfl)
  · have hnobody : ∀ i, hasTripped (φ i) ≠ true := by
      intro i hi
      have hreached := hburst.reached i (.inr hi)
      rw [hall.1] at hreached
      omega
    constructor
    · apply hburst.state.resolve_right
      intro hfault
      obtain ⟨i, hi⟩ := hburst.fault_iff.mp hfault
      exact hnobody i hi
    · intro j call hmem
      exact hnobody j (hserved j call hmem).2

/-! ## Four calls -/

def fourReasons (i : Fin 4) : String := "request " ++ toString i.val

def readyMachine : ProvisioningStateMachine := ⟨ready, 0, 0, ""⟩

/-- All four have counted before one of them takes the mutex. -/
def fourTogether : List (Fin 4) :=
  [0, 1, 2, 3, 0, 1, 2, 3, 3, 3, 3, 3, 3, 0, 0, 0, 0, 1, 1, 1, 1, 2, 2, 2, 2]

theorem trips_once_four :
    let c := (burst fourReasons readyMachine).run method (fourTogether.map .go)
    c.shared.sm.mismatchCount = 4 ∧ c.shared.sm.state = fault ∧
      ∃ i, (∀ j call, (j, call, true) ∈ c.served ↔ j = i ∧ call = failing fourReasons i) ∧
        c.shared.sm.lastMessage = fourReasons i := by
  have hreturned : ∀ i, (((burst fourReasons readyMachine).run method
      (fourTogether.map .go)).running i).isNone = true := by
    decide +kernel
  obtain ⟨-, hcount, -, hthree, -⟩ := trips_once fourReasons readyMachine rfl rfl fourTogether
    fun i ↦ Option.isNone_iff_eq_none.mp (hreturned i)
  obtain ⟨hfault, hone⟩ := hthree (by decide)
  exact ⟨hcount, hfault, hone⟩

end Runs

end Ppfdaas.Monitor
