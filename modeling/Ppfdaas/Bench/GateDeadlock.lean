import Ppfdaas.Bench.StartGate

/-!
# Deadlocks of the start gate

Every state of `run_a4` in which no thread can act has main at `ready`, waiting
for a worker that left in its warm-up; and with such a worker, every run that
goes on long enough comes to such a state.
-/

namespace Ppfdaas.RunA4

open Function Latch

section Program

variable {N : ℕ} {Ct : Type} {eval : Fin N → ℕ → Except String Ct} {a4Warmup : ℤ}
  {s : State N Ct}

/-! ## States in which no thread can act -/

namespace Inv

theorem arrived_of_passed (hs : Inv eval a4Warmup s) {t : Thread N}
    (ht : s.ready.phase t = .after) (u : Thread N) : (s.ready.phase u).arrived = true := by
  by_contra hu
  have hzero := hs.ready.passed t (by simp [ht, Phase.passed])
  have hpos := hs.ready.n_pos (t := u) rfl (by simpa using hu)
  omega

/-- Main checks the errors only when every worker is through with its warm-up. -/
theorem outcome_at_check (hs : Inv eval a4Warmup s) (hmain : s.main = .errCheck) (w : Fin N) :
    (s.warmOut w).isSome ∨ (s.err w).isSome := by
  apply hs.tried
  have harrived := hs.arrived_of_passed (hs.readyAllows_main hmain) (some w)
  have hallows := hs.readyAllows (some w)
  cases hw : s.worker w with
  | unborn | warmup i =>
      simp only [State.readyStage, hw, WorkerAt.readyStage, Stage.Allows] at hallows
      simp [hallows, Phase.arrived] at harrived
  | atReady | atGo | loop | done => rfl

variable (hs : Inv eval a4Warmup s) (hstuck : ∀ t s', ¬Step eval a4Warmup s t s')
include hstuck

theorem no_ready_step (t : Thread N) (ht : s.readyStage t = .inside) (l : Latch.State (Thread N)) :
    ¬Latch.Step readyArrives t s.ready l :=
  fun hl ↦ hstuck t _ (.ready t l ht hl)

theorem no_go_step (t : Thread N) (ht : s.goStage t = .inside) (l : Latch.State (Thread N)) :
    ¬Latch.Step goArrives t s.go l :=
  fun hl ↦ hstuck t _ (.go t l ht hl)

include hs

theorem ready_phase {t : Thread N} (ht : s.readyStage t = .inside) :
    s.ready.phase t = .waiting ∨ s.ready.phase t = .after :=
  hs.ready.phase_of_stuck hs.readyAllows (no_ready_step hstuck) ht

theorem go_phase {t : Thread N} (ht : s.goStage t = .inside) :
    s.go.phase t = .waiting ∨ s.go.phase t = .after :=
  hs.go.phase_of_stuck hs.goAllows (no_go_step hstuck) ht

theorem ready_up {t : Thread N} (ht : s.ready.phase t = .waiting) : s.ready.n ≠ 0 :=
  hs.ready.up_of_waiting hs.readyAllows (no_ready_step hstuck) ht

theorem go_up {t : Thread N} (ht : s.go.phase t = .waiting) : s.go.n ≠ 0 :=
  hs.go.up_of_waiting hs.goAllows (no_go_step hstuck) ht

/-- A worker that cannot act is not born yet, is parked in a latch, or has left. -/
theorem worker_parked (w : Fin N) :
    s.worker w = .unborn ∨ s.worker w = .atReady ∧ s.ready.phase (some w) = .waiting ∨
      s.worker w = .atGo ∧ s.go.phase (some w) = .waiting ∨ s.worker w = .done := by
  cases hw : s.worker w with
  | unborn => exact .inl rfl
  | warmup i =>
      exfalso
      cases heval : eval w i with
      | ok out => exact hstuck _ _ (.warm w i out hw heval)
      | error what => exact hstuck _ _ (.warmThrows w i what hw heval)
  | atReady =>
      have hinside : s.readyStage (some w) = .inside := by
        simp [State.readyStage, hw, WorkerAt.readyStage]
      rcases hs.ready_phase hstuck hinside with h | h
      · exact .inr (.inl ⟨rfl, h⟩)
      · exact absurd (.readyReturns w hw h) (hstuck _ _)
  | atGo =>
      have hinside : s.goStage (some w) = .inside := by
        simp [State.goStage, hw, WorkerAt.goStage]
      rcases hs.go_phase hstuck hinside with h | h
      · exact .inr (.inr (.inl ⟨rfl, h⟩))
      · exact absurd (.goReturns w hw h) (hstuck _ _)
  | loop =>
      exfalso
      cases hstop : s.stop with
      | true => exact hstuck _ _ (.leave w hw hstop)
      | false => exact hstuck _ _ (.request w hw hstop)
  | done => exact .inr (.inr (.inr rfl))

theorem main_waiting (hmain : s.main = .atReady) :
    s.ready.phase none = .waiting ∧ s.ready.n ≠ 0 := by
  have hwaiting : s.ready.phase none = .waiting := by
    have hinside : s.readyStage none = .inside := by
      simp [State.readyStage, hmain, MainAt.readyStage]
    rcases hs.ready_phase hstuck hinside with h | h
    · exact h
    · exact absurd (.mainReady hmain h) (hstuck _ _)
  exact ⟨hwaiting, hs.ready_up hstuck hwaiting⟩

/-- With main stuck at `ready`, every worker is parked there or has left before it. -/
theorem worker_below (hmain : s.main = .atReady) (w : Fin N) :
    s.worker w = .atReady ∧ s.ready.phase (some w) = .waiting ∨
      s.worker w = .done ∧ s.ready.phase (some w) = .before := by
  have hn := (hs.main_waiting hstuck hmain).2
  have hup : s.ready.phase (some w) ≠ .after :=
    fun h ↦ hn (hs.ready.passed (some w) (by simp [h, Phase.passed]))
  rcases hs.worker_parked hstuck w with hw | hw | ⟨hw, -⟩ | hw
  · have := (hs.unborn w).mp hw
    simp only [hmain, MainAt.spawned] at this
    omega
  · exact .inl hw
  · exact absurd (hs.readyAllows_worker hw) hup
  · exact .inr ⟨hw, (hs.readyAllows_worker hw).resolve_right hup⟩

/-- Main, stuck at `ready`, waits for a worker that left in its warm-up. -/
theorem exists_failed (hmain : s.main = .atReady) :
    ∃ w, ∃ i < warmupRounds a4Warmup, ∃ what, eval w i = .error what := by
  obtain ⟨hwaiting, hn⟩ := hs.main_waiting hstuck hmain
  obtain ⟨t, -, ht⟩ := hs.ready.exists_pending hn
  cases t with
  | none => simp [hwaiting, Phase.arrived] at ht
  | some w =>
      rcases hs.worker_below hstuck hmain w with ⟨-, hphase⟩ | ⟨hw, hbefore⟩
      · simp [hphase, Phase.arrived] at ht
      · exact ⟨w, hs.failed w hw hbefore⟩

/-- A worker that main joins is not parked: both latches are down. -/
theorem done_of_joining {k : ℕ} (hmain : s.main = .joining k) (w : Fin N) :
    s.worker w = .done := by
  have hready : s.ready.phase none = .after := hs.readyAllows_main hmain
  have hgo : s.go.phase none = .after := hs.goAllows_main hmain
  have hzero := hs.ready.passed none (by simp [hready, Phase.passed])
  have hzero' := hs.go.passed none (by simp [hgo, Phase.passed])
  rcases hs.worker_parked hstuck w with hw | ⟨-, hphase⟩ | ⟨-, hphase⟩ | hw
  · have := (hs.unborn w).mp hw
    simp only [hmain, MainAt.spawned] at this
    omega
  · exact absurd hzero (hs.ready_up hstuck hphase)
  · exact absurd hzero' (hs.go_up hstuck hphase)
  · exact hw

theorem atReady_of_stuck (hjoined : s.main ≠ .joined) : s.main = .atReady := by
  cases hmain : s.main with
  | atReady => rfl
  | joined => exact absurd hmain hjoined
  | spawning k =>
      exfalso
      by_cases hk : k < N
      · exact hstuck _ _ (.spawn k hk hmain)
      · exact hstuck _ _ (.spawned k hmain hk)
  | errCheck => exact absurd (.check false hmain (by simp)) (hstuck _ _)
  | sleeping => exact absurd (.slept hmain) (hstuck _ _)
  | stopping passed => exact absurd (.stop passed hmain) (hstuck _ _)
  | atGo passed =>
      exfalso
      have hinside : s.goStage none = .inside := by
        simp [State.goStage, hmain, MainAt.goStage]
      rcases hs.go_phase hstuck hinside with h | h
      -- only main arrives at `go`, and it has
      · obtain ⟨t, ht, hp⟩ := hs.go.exists_pending (hs.go_up hstuck h)
        cases t with
        | none => simp [h, Phase.arrived] at hp
        | some w => simp [goArrives] at ht
      · exact hstuck _ _ (.mainGo passed hmain h)
  | joining k =>
      exfalso
      by_cases hk : k < N
      · exact hstuck _ _ (.join k hk hmain (hs.done_of_joining hstuck hmain _))
      · exact hstuck _ _ (.joinedAll k hmain hk)

end Inv

/-! ## A worker that leaves in its warm-up -/

/-- The worker has not got past round `i`, or has left. -/
def WorkerAt.StopsAt (i : ℕ) : WorkerAt → Prop
  | .unborn | .done => True
  | .warmup j => j ≤ i
  | _ => False

/-- Worker `w` fails in round `i` and so never reaches `ready`. -/
structure Absent (w : Fin N) (i : ℕ) (s : State N Ct) : Prop where
  phase : s.ready.phase (some w) = .before
  stops : (s.worker w).StopsAt i

namespace Absent

variable {w : Fin N} {i : ℕ} {s' : State N Ct}

theorem moveWorker (hw : Absent w i s) {u : Fin N} {b : WorkerAt}
    {out : Fin N → Option Ct} {err : Fin N → Option String} {lat : Fin N → ℕ}
    (hb : (s.worker u).StopsAt i → b.StopsAt i ∨ u ≠ w) :
    Absent w i { s with
      worker := update s.worker u b, warmOut := out, err := err, lat := lat } where
  phase := hw.phase
  stops := by
    by_cases huw : w = u
    · subst huw
      simpa using hb hw.stops
    · simpa [huw] using hw.stops

theorem withReady (hw : Absent w i s) {l : Latch.State (Thread N)}
    (hl : l.phase (some w) = s.ready.phase (some w) ∨
      l.phase (some w) = (s.ready.phase (some w)).wake) :
    Absent w i { s with ready := l } where
  phase := by
    rw [hw.phase] at hl
    simpa [Phase.wake] using hl
  stops := hw.stops

theorem step (hw : Absent w i s) {what : String} (herr : eval w i = .error what)
    (hi : i < warmupRounds a4Warmup) {t : Thread N} (h : Step eval a4Warmup s t s') :
    Absent w i s' := by
  cases h with
  | spawn k hk hmain =>
      refine ⟨hw.phase, ?_⟩
      by_cases hwk : w = ⟨k, hk⟩
      · simp [hwk, WorkerAt.StopsAt]
      · simpa [hwk] using hw.stops
  | warm u j out hu hout =>
      apply hw.moveWorker
      intro hstops
      by_cases huw : u = w
      · subst huw
        have hji : j ≤ i := by simpa [hu, WorkerAt.StopsAt] using hstops
        have hne : j ≠ i := by
          rintro rfl
          simp [herr] at hout
        rw [if_pos (by omega)]
        left
        change j + 1 ≤ i
        omega
      · exact .inr huw
  | warmThrows u j what' hu herr' => exact hw.moveWorker fun _ ↦ .inl trivial
  | ready t l ht hl =>
      apply hw.withReady
      apply hl.phase_of_ne
      rintro rfl
      have hstops := hw.stops
      simp only [State.readyStage] at ht
      cases hu : s.worker w <;> simp_all [WorkerAt.readyStage, WorkerAt.StopsAt]
  | readyReturns u hu _ | goReturns u hu _ =>
      apply hw.moveWorker
      simp [hu, WorkerAt.StopsAt]
  | requestThrows u _ hu _ | leave u hu _ => exact hw.moveWorker fun _ ↦ .inl trivial
  | spawned | go | request | mainReady | check | mainGo | slept | stop | join | joinedAll =>
      exact ⟨hw.phase, hw.stops⟩

theorem of_reachable {what : String} (herr : eval w i = .error what)
    (hi : i < warmupRounds a4Warmup) (h : Reachable eval a4Warmup s) : Absent w i s := by
  induction h with
  | init => exact ⟨rfl, trivial⟩
  | step t _ hstep ih => exact ih.step herr hi hstep
  | wake _ hwake ih =>
      cases hwake with
      | ready l hl => exact ih.withReady (hl.phase _)
      | go l hl => exact ⟨ih.phase, ih.stops⟩

end Absent

/-! ## Runs below the gate end -/

def WorkerAt.rank (rounds : ℕ) : WorkerAt → ℕ
  | .unborn => rounds + 2
  | .warmup i => rounds - i + 1
  | _ => 0

def MainAt.rank (N : ℕ) : MainAt → ℕ
  | .spawning k => N - k + 1
  | _ => 0

def State.rank (rounds : ℕ) (s : State N Ct) : ℕ :=
  s.main.rank N + ∑ w, (s.worker w).rank rounds + s.ready.rank

theorem sum_rank_lt (rounds : ℕ) (worker : Fin N → WorkerAt) (w : Fin N) (b : WorkerAt)
    (h : b.rank rounds < (worker w).rank rounds) :
    ∑ u, (update worker w b u).rank rounds < ∑ u, (worker u).rank rounds := by
  apply Finset.sum_lt_sum
  · intro u _
    by_cases huw : u = w
    · subst huw
      simpa using h.le
    · simp [huw]
  · exact ⟨w, Finset.mem_univ w, by simpa using h⟩

/-- As long as `ready` is up, every action brings the run closer to its end. -/
theorem Inv.rank_lt (hs : Inv eval a4Warmup s) (hn : s.ready.n ≠ 0) {t : Thread N}
    {s' : State N Ct} (h : Step eval a4Warmup s t s') :
    s'.rank (warmupRounds a4Warmup) < s.rank (warmupRounds a4Warmup) := by
  have hup : ∀ u, s.ready.phase u ≠ .after :=
    fun u hu ↦ hn (hs.ready.passed u (by simp [hu, Phase.passed]))
  cases h with
  | spawn k hk hmain =>
      have hborn : s.worker ⟨k, hk⟩ = .unborn :=
        (hs.unborn _).mpr (by simp [hmain, MainAt.spawned])
      have hsum := sum_rank_lt (warmupRounds a4Warmup) s.worker ⟨k, hk⟩ (.warmup 0)
        (by simp [hborn, WorkerAt.rank])
      simp only [State.rank, hmain, MainAt.rank]
      omega
  | spawned k hmain hk => simp [State.rank, hmain, MainAt.rank]
  | warm w i out hw hout =>
      have hi := hs.warming w i hw
      have hsum := sum_rank_lt (warmupRounds a4Warmup) s.worker w
        (if i + 1 < warmupRounds a4Warmup then .warmup (i + 1) else .atReady) (by
          rw [hw]
          split <;> simp only [WorkerAt.rank] <;> omega)
      simp only [State.rank]
      omega
  | warmThrows w i what hw herr =>
      have hsum := sum_rank_lt (warmupRounds a4Warmup) s.worker w .done
        (by simp [hw, WorkerAt.rank])
      simp only [State.rank]
      omega
  | ready t l ht hl =>
      have hlt := hl.rank_lt hs.ready hn
      simp only [State.rank]
      omega
  | readyReturns w hw hafter => exact absurd hafter (hup _)
  | mainReady hmain hafter => exact absurd hafter (hup _)
  | goReturns w hw _ | request w hw _ | requestThrows w what hw _ | leave w hw _ =>
      exact absurd (hs.readyAllows_worker hw) (hup _)
  | check passed hmain _ | mainGo passed hmain _ | slept hmain | stop passed hmain
  | join k hk hmain _ | joinedAll k hmain _ =>
      exact absurd (hs.readyAllows_main hmain) (hup _)
  | go t l ht hl =>
      cases t with
      | none =>
          have hmain : s.main.goStage = .inside := ht
          cases hat : s.main with
          | atGo passed => exact absurd (hs.readyAllows_main hat) (hup _)
          | stopping passed => cases passed <;> simp [hat, MainAt.goStage] at hmain
          | spawning | atReady | errCheck | sleeping | joining | joined =>
              simp [hat, MainAt.goStage] at hmain
      | some w =>
          have hw : (s.worker w).goStage = .inside := ht
          cases hat : s.worker w with
          | atGo => exact absurd (hs.readyAllows_worker hat) (hup _)
          | unborn | warmup | atReady | loop | done => simp [hat, WorkerAt.goStage] at hw

theorem exists_stuck {w : Fin N} {i : ℕ} {what : String} (herr : eval w i = .error what)
    (hi : i < warmupRounds a4Warmup) (h : Reachable eval a4Warmup s) :
    ∃ s', Reachable eval a4Warmup s' ∧ ∀ t s'', ¬Step eval a4Warmup s' t s'' := by
  induction hrank : s.rank (warmupRounds a4Warmup) using Nat.strong_induction_on generalizing s with
  | h n ih =>
      by_cases hstuck : ∀ t s', ¬Step eval a4Warmup s t s'
      · exact ⟨s, h, hstuck⟩
      · push Not at hstuck
        obtain ⟨t, s', hstep⟩ := hstuck
        have hbefore := (Absent.of_reachable herr hi h).phase
        have hpos := h.inv.ready.n_pos (t := some w) rfl (by simp [hbefore, Phase.arrived])
        have hlt := h.inv.rank_lt hpos.ne' hstep
        exact ih _ (hrank ▸ hlt) (h.step t hstep) rfl

/-- One worker that fails in its warm-up, and main stays at `ready` with everybody
else parked. -/
theorem exists_deadlock {w : Fin N} {i : ℕ} {what : String} (herr : eval w i = .error what)
    (hi : i < warmupRounds a4Warmup) :
    ∃ s, Reachable eval a4Warmup s ∧ Deadlock eval a4Warmup s ∧ s.main = .atReady ∧
      ∀ u, s.worker u = .atReady ∧ s.ready.phase (some u) = .waiting ∨ s.worker u = .done := by
  obtain ⟨s, hs, hstuck⟩ := exists_stuck herr hi .init
  have hjoined : s.main ≠ .joined := by
    intro hmain
    have hafter := hs.inv.readyAllows_main hmain
    have harrived := hs.inv.arrived_of_passed hafter (some w)
    simp [(Absent.of_reachable herr hi hs).phase, Phase.arrived] at harrived
  have hmain := hs.inv.atReady_of_stuck hstuck hjoined
  exact ⟨s, hs, ⟨hjoined, hstuck⟩, hmain,
    fun u ↦ (hs.inv.worker_below hstuck hmain u).imp_right And.left⟩

/-- The start gate is sound exactly when no warm-up throws. -/
theorem start_gate_sound_iff (eval : Fin N → ℕ → Except String Ct) (a4Warmup : ℤ) :
    GateSound eval a4Warmup ↔
      ∀ w, ∀ i < warmupRounds a4Warmup, ∃ out, eval w i = .ok out := by
  constructor
  · intro hsound w i hi
    cases heval : eval w i with
    | ok out => exact ⟨out, rfl⟩
    | error what =>
        obtain ⟨s, hs, hdeadlock, -⟩ := exists_deadlock heval hi
        exact absurd hdeadlock (hsound s hs).1
  · intro hok s hs
    refine ⟨?_, hs.inv.outcome_at_check⟩
    rintro ⟨hjoined, hstuck⟩
    have hmain := hs.inv.atReady_of_stuck hstuck hjoined
    obtain ⟨w, i, hi, what, herr⟩ := hs.inv.exists_failed hstuck hmain
    obtain ⟨out, hout⟩ := hok w i hi
    simp [hout] at herr

end Program

/-- One worker, whose warm-up throws. -/
def oneThrows : Fin 1 → ℕ → Except String Unit := fun _ _ ↦ .error "encrypted is not valid"

theorem start_gate_deadlocks : ¬GateSound oneThrows 5 := by
  intro hsound
  have herr : oneThrows 0 0 = .error "encrypted is not valid" := rfl
  have hi : 0 < warmupRounds 5 := warmupRounds_pos
  obtain ⟨s, hs, hdeadlock, -⟩ := exists_deadlock herr hi
  exact (hsound s hs).1 hdeadlock

end Ppfdaas.RunA4
