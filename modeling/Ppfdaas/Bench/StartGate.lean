import Ppfdaas.Library.Latch
import Mathlib.Data.Fintype.Option

/-!
# The start gate of the throughput benchmark

One point of `run_a4`: the main thread and its `N` workers between the first
`emplace_back` and the last `join`, with the latches `ready(N + 1)` and `go(1)`.
A worker whose warm-up throws leaves through its catch block and never arrives
at `ready`.
-/

namespace Ppfdaas.RunA4

open Function Latch

/-- The main thread is `none`. -/
abbrev Thread (N : ℕ) := Option (Fin N)

inductive WorkerAt
  | unborn
  | warmup (i : ℕ)
  | atReady
  | atGo
  | loop
  | done
  deriving DecidableEq, Repr

inductive MainAt
  | spawning (k : ℕ)
  | atReady
  | errCheck
  | atGo (passed : Bool)
  | sleeping
  | stopping (passed : Bool)
  | joining (k : ℕ)
  | joined
  deriving DecidableEq, Repr

/-- The locals that the threads share; of `lat[w]` only its length. -/
structure State (N : ℕ) (Ct : Type) where
  main : MainAt
  worker : Fin N → WorkerAt
  ready : Latch.State (Thread N)
  go : Latch.State (Thread N)
  stop : Bool
  warmOut : Fin N → Option Ct
  err : Fin N → Option String
  lat : Fin N → ℕ

def State.init (N : ℕ) (Ct : Type) : State N Ct where
  main := .spawning 0
  worker := fun _ ↦ .unborn
  ready := .start (N + 1)
  go := .start 1
  stop := false
  warmOut := fun _ ↦ none
  err := fun _ ↦ none
  lat := fun _ ↦ 0

/-- `std::max(1, o.a4_warmup)`. -/
def warmupRounds (a4Warmup : ℤ) : ℕ := (max 1 a4Warmup).toNat

def readyArrives {N : ℕ} (_ : Thread N) : Bool := true

/-- Main calls `go.arrive_and_wait()`, a worker `go.wait()`. -/
def goArrives {N : ℕ} (t : Thread N) : Bool := t.isNone

section Program

variable {N : ℕ} {Ct : Type}

/-! ## Where a program stands relative to a latch -/

def WorkerAt.readyStage : WorkerAt → Stage
  | .unborn | .warmup _ => .ahead
  | .atReady => .inside
  | .atGo | .loop => .past
  | .done => .left

def WorkerAt.goStage : WorkerAt → Stage
  | .unborn | .warmup _ | .atReady => .ahead
  | .atGo => .inside
  | .loop => .past
  | .done => .left

def MainAt.readyStage : MainAt → Stage
  | .spawning _ => .ahead
  | .atReady => .inside
  | _ => .past

def MainAt.goStage : MainAt → Stage
  | .spawning _ | .atReady | .errCheck | .stopping false => .ahead
  | .atGo _ => .inside
  | _ => .past

def State.readyStage (s : State N Ct) : Thread N → Stage
  | none => s.main.readyStage
  | some w => (s.worker w).readyStage

def State.goStage (s : State N Ct) : Thread N → Stage
  | none => s.main.goStage
  | some w => (s.worker w).goStage

/-! ## The actions of the threads -/

variable (eval : Fin N → ℕ → Except String Ct) (a4Warmup : ℤ)

/-- One action of one thread.  `eval w i` is what `vendor_eval` does in round `i`
of the warm-up of worker `w`; what it does in the timed loop, and the accuracy that
the check of the main thread finds, are left open. -/
inductive Step (s : State N Ct) : Thread N → State N Ct → Prop
  | spawn (k : ℕ) (hk : k < N) : s.main = .spawning k →
      Step s none { s with
        main := .spawning (k + 1), worker := update s.worker ⟨k, hk⟩ (.warmup 0) }
  | spawned (k : ℕ) : s.main = .spawning k → ¬k < N → Step s none { s with main := .atReady }
  | warm (w : Fin N) (i : ℕ) (out : Ct) : s.worker w = .warmup i → eval w i = .ok out →
      Step s (some w) { s with
        worker := update s.worker w
          (if i + 1 < warmupRounds a4Warmup then .warmup (i + 1) else .atReady)
        warmOut := update s.warmOut w (some out) }
  | warmThrows (w : Fin N) (i : ℕ) (what : String) :
      s.worker w = .warmup i → eval w i = .error what →
      Step s (some w) { s with
        worker := update s.worker w .done, err := update s.err w (some what) }
  | ready (t : Thread N) (l : Latch.State (Thread N)) : s.readyStage t = .inside →
      Latch.Step readyArrives t s.ready l → Step s t { s with ready := l }
  | go (t : Thread N) (l : Latch.State (Thread N)) : s.goStage t = .inside →
      Latch.Step goArrives t s.go l → Step s t { s with go := l }
  | readyReturns (w : Fin N) : s.worker w = .atReady → s.ready.phase (some w) = .after →
      Step s (some w) { s with worker := update s.worker w .atGo }
  | goReturns (w : Fin N) : s.worker w = .atGo → s.go.phase (some w) = .after →
      Step s (some w) { s with worker := update s.worker w .loop }
  | request (w : Fin N) : s.worker w = .loop → s.stop = false →
      Step s (some w) { s with lat := update s.lat w (s.lat w + 1) }
  | requestThrows (w : Fin N) (what : String) : s.worker w = .loop → s.stop = false →
      Step s (some w) { s with
        worker := update s.worker w .done, err := update s.err w (some what) }
  | leave (w : Fin N) : s.worker w = .loop → s.stop = true →
      Step s (some w) { s with worker := update s.worker w .done }
  | mainReady : s.main = .atReady → s.ready.phase none = .after →
      Step s none { s with main := .errCheck }
  -- an `err` that is not empty sets `worst` to 1e9, above every later maximum
  | check (passed : Bool) : s.main = .errCheck →
      (passed = true → ∀ w, (s.err w).getD "" = "") →
      Step s none { s with main := if passed then .atGo true else .stopping false }
  | mainGo (passed : Bool) : s.main = .atGo passed → s.go.phase none = .after →
      Step s none { s with main := if passed then .sleeping else .joining 0 }
  | slept : s.main = .sleeping → Step s none { s with main := .stopping true }
  | stop (passed : Bool) : s.main = .stopping passed →
      Step s none { s with stop := true, main := if passed then .joining 0 else .atGo false }
  | join (k : ℕ) (hk : k < N) : s.main = .joining k → s.worker ⟨k, hk⟩ = .done →
      Step s none { s with main := .joining (k + 1) }
  | joinedAll (k : ℕ) : s.main = .joining k → ¬k < N → Step s none { s with main := .joined }

/-- A wake-up of the condition variable that no `notify_all` caused. -/
inductive Wake (s : State N Ct) : State N Ct → Prop
  | ready (l : Latch.State (Thread N)) : Spurious s.ready l → Wake s { s with ready := l }
  | go (l : Latch.State (Thread N)) : Spurious s.go l → Wake s { s with go := l }

inductive Reachable : State N Ct → Prop
  | init : Reachable (.init N Ct)
  | step {s s' : State N Ct} (t : Thread N) : Reachable s → Step eval a4Warmup s t s' →
      Reachable s'
  | wake {s s' : State N Ct} : Reachable s → Wake s s' → Reachable s'

/-- Main has not joined all workers, and no thread can take a step. -/
def Deadlock (s : State N Ct) : Prop :=
  s.main ≠ .joined ∧ ∀ t s', ¬Step eval a4Warmup s t s'

/-- No run deadlocks, and at the check every worker has stored a result or an error. -/
def GateSound : Prop :=
  ∀ s, Reachable eval a4Warmup s → ¬Deadlock eval a4Warmup s ∧
    (s.main = .errCheck → ∀ w, (s.warmOut w).isSome ∨ (s.err w).isSome)

/-! ## The invariant -/

/-- The workers that main has spawned so far are those below this one. -/
def MainAt.spawned (N : ℕ) : MainAt → ℕ
  | .spawning k => k
  | _ => N

/-- From here on `stop` is set. -/
def MainAt.stopped : MainAt → Bool
  | .atGo false | .joining _ | .joined => true
  | _ => false

/-- The worker is through with its warm-up. -/
def WorkerAt.tried : WorkerAt → Bool
  | .unborn | .warmup _ => false
  | _ => true

structure Inv (s : State N Ct) : Prop where
  ready : Latch.Inv readyArrives s.ready
  go : Latch.Inv goArrives s.go
  readyAllows : ∀ t, (s.readyStage t).Allows (s.ready.phase t)
  goAllows : ∀ t, (s.goStage t).Allows (s.go.phase t)
  unborn : ∀ w : Fin N, s.worker w = .unborn ↔ s.main.spawned N ≤ w
  warming : ∀ w i, s.worker w = .warmup i → i < warmupRounds a4Warmup
  tried : ∀ w, (s.worker w).tried = true → (s.warmOut w).isSome ∨ (s.err w).isSome
  failed : ∀ w, s.worker w = .done → s.ready.phase (some w) = .before →
    ∃ i < warmupRounds a4Warmup, ∃ what, eval w i = .error what
  stopped : s.main.stopped = true → s.stop = true

variable {eval a4Warmup} {s : State N Ct}

theorem warmupRounds_pos : 0 < warmupRounds a4Warmup := by
  simp [warmupRounds]

theorem inv_init : Inv eval a4Warmup (.init N Ct) where
  ready := inv_start _ (by simp [readyArrives])
  go := by
    apply inv_start
    have hmain : (Finset.univ.filter fun t : Thread N ↦ goArrives t = true) = {none} := by
      ext t
      simp [goArrives]
    simp [hmain]
  readyAllows := by
    intro t
    cases t <;> rfl
  goAllows := by
    intro t
    cases t <;> rfl
  unborn := by simp [State.init, MainAt.spawned]
  warming := by simp [State.init]
  tried := by simp [State.init, WorkerAt.tried]
  failed := by simp [State.init]
  stopped := by simp [State.init, MainAt.stopped]

/-- Storing an entry empties no other one. -/
theorem isSome_update {α : Type} {f : Fin N → Option α} {u w : Fin N} {a : α}
    (hu : (f u).isSome) : (update f w (some a) u).isSome := by
  by_cases huw : u = w
  · simp [huw]
  · simpa [huw] using hu

namespace Inv

theorem readyAllows_worker (hs : Inv eval a4Warmup s) {w : Fin N} {a : WorkerAt}
    (ha : s.worker w = a) : a.readyStage.Allows (s.ready.phase (some w)) := by
  simpa [State.readyStage, ha] using hs.readyAllows (some w)

theorem goAllows_worker (hs : Inv eval a4Warmup s) {w : Fin N} {a : WorkerAt}
    (ha : s.worker w = a) : a.goStage.Allows (s.go.phase (some w)) := by
  simpa [State.goStage, ha] using hs.goAllows (some w)

theorem readyAllows_main (hs : Inv eval a4Warmup s) {a : MainAt} (ha : s.main = a) :
    a.readyStage.Allows (s.ready.phase none) := by
  simpa [State.readyStage, ha] using hs.readyAllows none

theorem goAllows_main (hs : Inv eval a4Warmup s) {a : MainAt} (ha : s.main = a) :
    a.goStage.Allows (s.go.phase none) := by
  simpa [State.goStage, ha] using hs.goAllows none

/-- One worker moves on, outside the latches. -/
theorem moveWorker (hs : Inv eval a4Warmup s) {w : Fin N} {b : WorkerAt}
    {out : Fin N → Option Ct} {err : Fin N → Option String} {lat : Fin N → ℕ}
    (hold : s.worker w ≠ .unborn) (hnew : b ≠ .unborn)
    (hready : b.readyStage.Allows (s.ready.phase (some w)))
    (hgo : b.goStage.Allows (s.go.phase (some w)))
    (hwarm : ∀ i, b = .warmup i → i < warmupRounds a4Warmup)
    (hmono : ∀ u, (s.warmOut u).isSome ∨ (s.err u).isSome →
      (out u).isSome ∨ (err u).isSome)
    (htried : b.tried = true → (out w).isSome ∨ (err w).isSome)
    (hfailed : b = .done → s.ready.phase (some w) = .before →
      ∃ i < warmupRounds a4Warmup, ∃ what, eval w i = .error what) :
    Inv eval a4Warmup { s with
      worker := update s.worker w b, warmOut := out, err := err, lat := lat } where
  ready := hs.ready
  go := hs.go
  readyAllows := by
    rintro (_ | u)
    · exact hs.readyAllows none
    · by_cases huw : u = w
      · simpa [State.readyStage, huw] using hready
      · simpa [State.readyStage, huw] using hs.readyAllows (some u)
  goAllows := by
    rintro (_ | u)
    · exact hs.goAllows none
    · by_cases huw : u = w
      · simpa [State.goStage, huw] using hgo
      · simpa [State.goStage, huw] using hs.goAllows (some u)
  unborn := by
    intro u
    by_cases huw : u = w
    · subst huw
      simpa [hnew, hold] using hs.unborn u
    · simpa [huw] using hs.unborn u
  warming := by
    intro u i hu
    by_cases huw : u = w
    · exact hwarm i (by simpa [huw] using hu)
    · exact hs.warming u i (by simpa [huw] using hu)
  tried := by
    intro u hu
    by_cases huw : u = w
    · subst huw
      exact htried (by simpa using hu)
    · exact hmono u (hs.tried u (by simpa [huw] using hu))
  failed := by
    intro u hu hbefore
    by_cases huw : u = w
    · subst huw
      exact hfailed (by simpa using hu) hbefore
    · exact hs.failed u (by simpa [huw] using hu) hbefore
  stopped := hs.stopped

/-- The main thread moves on, outside the latches. -/
theorem moveMain (hs : Inv eval a4Warmup s) {b : MainAt} {stop : Bool}
    (hspawned : ∀ w : Fin N, s.main.spawned N ≤ w ↔ b.spawned N ≤ w)
    (hready : b.readyStage.Allows (s.ready.phase none))
    (hgo : b.goStage.Allows (s.go.phase none))
    (hstop : b.stopped = true → stop = true) :
    Inv eval a4Warmup { s with main := b, stop := stop } where
  ready := hs.ready
  go := hs.go
  readyAllows := by
    rintro (_ | u)
    · exact hready
    · exact hs.readyAllows (some u)
  goAllows := by
    rintro (_ | u)
    · exact hgo
    · exact hs.goAllows (some u)
  unborn := fun w ↦ (hs.unborn w).trans (hspawned w)
  warming := hs.warming
  tried := hs.tried
  failed := hs.failed
  stopped := hstop

theorem spawn (hs : Inv eval a4Warmup s) {k : ℕ} (hk : k < N) (hmain : s.main = .spawning k) :
    Inv eval a4Warmup { s with
      main := .spawning (k + 1), worker := update s.worker ⟨k, hk⟩ (.warmup 0) } where
  ready := hs.ready
  go := hs.go
  readyAllows := by
    have hborn : s.worker ⟨k, hk⟩ = .unborn := (hs.unborn _).mpr (by simp [hmain, MainAt.spawned])
    rintro (_ | u)
    · exact hs.readyAllows_main hmain
    · by_cases huw : u = ⟨k, hk⟩
      · simpa [State.readyStage, WorkerAt.readyStage, huw] using hs.readyAllows_worker hborn
      · simpa [State.readyStage, huw] using hs.readyAllows (some u)
  goAllows := by
    have hborn : s.worker ⟨k, hk⟩ = .unborn := (hs.unborn _).mpr (by simp [hmain, MainAt.spawned])
    rintro (_ | u)
    · exact hs.goAllows_main hmain
    · by_cases huw : u = ⟨k, hk⟩
      · simpa [State.goStage, WorkerAt.goStage, huw] using hs.goAllows_worker hborn
      · simpa [State.goStage, huw] using hs.goAllows (some u)
  unborn := by
    intro u
    by_cases huw : u = ⟨k, hk⟩
    · simp [huw, MainAt.spawned]
    · have hne : (u : ℕ) ≠ k := fun h ↦ huw (Fin.ext h)
      have := hs.unborn u
      simp only [hmain, MainAt.spawned] at this
      simp only [update_of_ne huw, this, MainAt.spawned]
      omega
  warming := by
    intro u i hu
    by_cases huw : u = ⟨k, hk⟩
    · obtain rfl : 0 = i := by simpa [huw] using hu
      exact warmupRounds_pos
    · exact hs.warming u i (by simpa [huw] using hu)
  tried := by
    intro u hu
    by_cases huw : u = ⟨k, hk⟩
    · simp [huw, WorkerAt.tried] at hu
    · exact hs.tried u (by simpa [huw] using hu)
  failed := by
    intro u hu
    by_cases huw : u = ⟨k, hk⟩
    · simp [huw] at hu
    · exact hs.failed u (by simpa [huw] using hu)
  stopped := by simp [MainAt.stopped]

theorem withReady (hs : Inv eval a4Warmup s) {l : Latch.State (Thread N)}
    (hl : Latch.Inv readyArrives l) (hallows : ∀ t, (s.readyStage t).Allows (l.phase t))
    (hphase : ∀ t, s.readyStage t ≠ .inside → l.phase t = s.ready.phase t ∨
      l.phase t = (s.ready.phase t).wake) :
    Inv eval a4Warmup { s with ready := l } where
  ready := hl
  go := hs.go
  readyAllows := hallows
  goAllows := hs.goAllows
  unborn := hs.unborn
  warming := hs.warming
  tried := hs.tried
  failed := by
    intro w hw hbefore
    have hdone : s.worker w = .done := hw
    apply hs.failed w hdone
    rcases hphase (some w) (by simp [State.readyStage, hdone, WorkerAt.readyStage]) with h | h
    · exact h.symm.trans hbefore
    · exact (Phase.wake_eq_iff (by simp) (by simp)).mp (h.symm.trans hbefore)
  stopped := hs.stopped

theorem withGo (hs : Inv eval a4Warmup s) {l : Latch.State (Thread N)}
    (hl : Latch.Inv goArrives l) (hallows : ∀ t, (s.goStage t).Allows (l.phase t)) :
    Inv eval a4Warmup { s with go := l } where
  ready := hs.ready
  go := hl
  readyAllows := hs.readyAllows
  goAllows := hallows
  unborn := hs.unborn
  warming := hs.warming
  tried := hs.tried
  failed := hs.failed
  stopped := hs.stopped

theorem step (hs : Inv eval a4Warmup s) {t : Thread N} {s' : State N Ct}
    (h : Step eval a4Warmup s t s') : Inv eval a4Warmup s' := by
  cases h with
  | spawn k hk hmain => exact hs.spawn hk hmain
  | spawned k hmain hk =>
      have hgo := hs.goAllows_main hmain
      apply hs.moveMain
      · intro w
        simp only [hmain, MainAt.spawned]
        omega
      · trivial
      · exact hgo
      · simp [MainAt.stopped]
  | warm w i out hw hout =>
      have hready := hs.readyAllows_worker hw
      have hgo := hs.goAllows_worker hw
      apply hs.moveWorker
      · simp [hw]
      · split <;> simp
      · split
        · exact hready
        · trivial
      · split <;> exact hgo
      · split <;> simp_all
      · exact fun u hu ↦ hu.imp_left isSome_update
      · simp
      · split <;> simp
  | warmThrows w i what hw herr =>
      have hready := hs.readyAllows_worker hw
      have hgo := hs.goAllows_worker hw
      apply hs.moveWorker
      · simp [hw]
      · simp
      · exact .inl hready
      · exact .inl hgo
      · simp
      · exact fun u hu ↦ hu.imp_right isSome_update
      · simp
      · exact fun _ _ ↦ ⟨i, hs.warming w i hw, what, herr⟩
  | ready t l ht hl =>
      apply hs.withReady (hs.ready.step hl) (Stage.Allows.step hs.readyAllows ht hl)
      intro u hu
      exact hl.phase_of_ne fun hut ↦ hu (hut ▸ ht)
  | go t l ht hl => exact hs.withGo (hs.go.step hl) (Stage.Allows.step hs.goAllows ht hl)
  | readyReturns w hw hafter =>
      have hgo := hs.goAllows_worker hw
      apply hs.moveWorker
      · simp [hw]
      · simp
      · exact hafter
      · trivial
      · simp
      · exact fun _ hu ↦ hu
      · exact fun _ ↦ hs.tried w (by simp [hw, WorkerAt.tried])
      · simp
  | goReturns w hw hafter =>
      have hready := hs.readyAllows_worker hw
      apply hs.moveWorker
      · simp [hw]
      · simp
      · exact hready
      · exact hafter
      · simp
      · exact fun _ hu ↦ hu
      · exact fun _ ↦ hs.tried w (by simp [hw, WorkerAt.tried])
      · simp
  | request w hw hstop =>
      exact ⟨hs.ready, hs.go, hs.readyAllows, hs.goAllows, hs.unborn, hs.warming, hs.tried,
        hs.failed, hs.stopped⟩
  | requestThrows w what hw hstop =>
      have hready := hs.readyAllows_worker hw
      have hgo := hs.goAllows_worker hw
      apply hs.moveWorker
      · simp [hw]
      · simp
      · exact .inr hready
      · exact .inr hgo
      · simp
      · exact fun u hu ↦ hu.imp_right isSome_update
      · simp
      · intro _ hbefore
        simp [hbefore, WorkerAt.readyStage, Stage.Allows] at hready
  | leave w hw hstop =>
      have hready := hs.readyAllows_worker hw
      have hgo := hs.goAllows_worker hw
      apply hs.moveWorker
      · simp [hw]
      · simp
      · exact .inr hready
      · exact .inr hgo
      · simp
      · exact fun _ hu ↦ hu
      · exact fun _ ↦ hs.tried w (by simp [hw, WorkerAt.tried])
      · intro _ hbefore
        simp [hbefore, WorkerAt.readyStage, Stage.Allows] at hready
  | mainReady hmain hafter =>
      have hgo := hs.goAllows_main hmain
      apply hs.moveMain
      · simp [hmain, MainAt.spawned]
      · exact hafter
      · exact hgo
      · simp [MainAt.stopped]
  | check passed hmain hverdict =>
      have hready := hs.readyAllows_main hmain
      have hgo := hs.goAllows_main hmain
      apply hs.moveMain
      · cases passed <;> simp [hmain, MainAt.spawned]
      · cases passed <;> exact hready
      · cases passed
        · exact hgo
        · trivial
      · cases passed <;> simp [MainAt.stopped]
  | mainGo passed hmain hafter =>
      have hready := hs.readyAllows_main hmain
      apply hs.moveMain
      · cases passed <;> simp [hmain, MainAt.spawned]
      · cases passed <;> exact hready
      · cases passed <;> exact hafter
      · cases passed
        · exact fun _ ↦ hs.stopped (by simp [hmain, MainAt.stopped])
        · simp [MainAt.stopped]
  | slept hmain =>
      have hready := hs.readyAllows_main hmain
      have hgo := hs.goAllows_main hmain
      apply hs.moveMain
      · simp [hmain, MainAt.spawned]
      · exact hready
      · exact hgo
      · simp [MainAt.stopped]
  | stop passed hmain =>
      have hready := hs.readyAllows_main hmain
      have hgo := hs.goAllows_main hmain
      apply hs.moveMain
      · cases passed <;> simp [hmain, MainAt.spawned]
      · cases passed <;> exact hready
      · cases passed
        · trivial
        · exact hgo
      · exact fun _ ↦ rfl
  | join k hk hmain hw =>
      have hready := hs.readyAllows_main hmain
      have hgo := hs.goAllows_main hmain
      apply hs.moveMain
      · simp [hmain, MainAt.spawned]
      · exact hready
      · exact hgo
      · exact fun _ ↦ hs.stopped (by simp [hmain, MainAt.stopped])
  | joinedAll k hmain hk =>
      have hready := hs.readyAllows_main hmain
      have hgo := hs.goAllows_main hmain
      apply hs.moveMain
      · simp [hmain, MainAt.spawned]
      · exact hready
      · exact hgo
      · exact fun _ ↦ hs.stopped (by simp [hmain, MainAt.stopped])

theorem wake (hs : Inv eval a4Warmup s) {s' : State N Ct} (h : Wake s s') :
    Inv eval a4Warmup s' := by
  cases h with
  | ready l hl =>
      exact hs.withReady (hs.ready.spurious hl) (Stage.Allows.spurious hs.readyAllows hl)
        fun t _ ↦ hl.phase t
  | go l hl => exact hs.withGo (hs.go.spurious hl) (Stage.Allows.spurious hs.goAllows hl)

end Inv

theorem Reachable.inv (h : Reachable eval a4Warmup s) : Inv eval a4Warmup s := by
  induction h with
  | init => exact inv_init
  | step t _ hstep ih => exact ih.step hstep
  | wake _ hwake ih => exact ih.wake hwake

end Program

end Ppfdaas.RunA4
