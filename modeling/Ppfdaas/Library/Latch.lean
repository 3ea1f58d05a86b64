import Mathlib.Algebra.Order.BigOperators.Group.Finset
import Mathlib.Data.Fintype.Card

/-!
# A counted latch

A latch is a counter under a mutex, with a condition variable.  A thread that
arrives takes the lock, decrements the counter and wakes everybody when it has
reached zero; a thread that only waits takes the lock.  Both then wait until the
counter is down.  A step is one action of one thread, so that a run of the latch
is an interleaving; a wake-up that no thread asked for is a step of nobody.
-/

namespace Latch

open Function

/-- Where a thread stands in its call: `arriving` is about to decrement,
`notifying` about to notify, `checking` about to test the counter, `leaving`
about to unlock, and all four hold the lock. -/
inductive Phase where
  | before | arriving | notifying | checking | waiting | woken | leaving | after
  deriving DecidableEq, Repr

namespace Phase

def holds : Phase → Bool
  | .arriving | .notifying | .checking | .leaving => true
  | _ => false

def arrived : Phase → Bool
  | .before | .arriving => false
  | _ => true

/-- The counter was seen down. -/
def passed : Phase → Bool
  | .notifying | .leaving | .after => true
  | _ => false

def wake : Phase → Phase
  | .waiting => .woken
  | p => p

@[simp] theorem holds_wake (p : Phase) : p.wake.holds = p.holds := by cases p <;> rfl

@[simp] theorem arrived_wake (p : Phase) : p.wake.arrived = p.arrived := by cases p <;> rfl

@[simp] theorem passed_wake (p : Phase) : p.wake.passed = p.passed := by cases p <;> rfl

theorem wake_ne_waiting (p : Phase) : p.wake ≠ .waiting := by
  cases p <;> simp [wake]

theorem wake_eq_iff {p q : Phase} (hq : q ≠ .waiting) (hq' : q ≠ .woken) :
    p.wake = q ↔ p = q := by
  cases p <;> simp [wake, hq.symm, hq'.symm]

end Phase

structure State (T : Type) where
  n : ℤ
  holder : Option T
  phase : T → Phase

variable {T : Type}

def State.start (n : ℤ) : State T := ⟨n, none, fun _ ↦ .before⟩

section Actions

variable [DecidableEq T]

/-- Thread `t` goes on to phase `p`, with the lock if `p` holds it and without
it otherwise, and leaves the counter at `n`. -/
def State.move (s : State T) (t : T) (p : Phase) (n : ℤ) : State T :=
  ⟨n, if p.holds then some t else none, update s.phase t p⟩

def State.notifyAll (s : State T) : State T := { s with phase := fun u ↦ (s.phase u).wake }

/-- One action of thread `t`, which arrives in its call if `arrives t` and only
waits otherwise. -/
inductive Step (arrives : T → Bool) (t : T) (s : State T) : State T → Prop
  | lock : s.phase t = .before → s.holder = none →
      Step arrives t s (s.move t (if arrives t then .arriving else .checking) s.n)
  | decrement : s.phase t = .arriving →
      Step arrives t s (s.move t (if s.n - 1 = 0 then .notifying else .checking) (s.n - 1))
  | notify : s.phase t = .notifying → Step arrives t s (s.notifyAll.move t .leaving s.n)
  | check : s.phase t = .checking →
      Step arrives t s (s.move t (if s.n ≤ 0 then .leaving else .waiting) s.n)
  | relock : s.phase t = .woken → s.holder = none → Step arrives t s (s.move t .checking s.n)
  | unlock : s.phase t = .leaving → Step arrives t s (s.move t .after s.n)

/-- A waiting thread wakes up by itself. -/
inductive Spurious (s : State T) : State T → Prop
  | wake (t : T) : s.phase t = .waiting →
      Spurious s { s with phase := update s.phase t .woken }

variable {arrives : T → Bool} {s s' : State T} {t u : T}

theorem Step.phase_of_ne (h : Step arrives t s s') (hut : u ≠ t) :
    s'.phase u = s.phase u ∨ s'.phase u = (s.phase u).wake := by
  cases h <;> simp [State.move, State.notifyAll, hut]

theorem Spurious.phase (h : Spurious s s') (u : T) :
    s'.phase u = s.phase u ∨ s'.phase u = (s.phase u).wake := by
  cases h with
  | wake t ht =>
      by_cases hut : u = t
      · simp [hut, ht, Phase.wake]
      · simp [hut]

end Actions

section Pending

variable [Fintype T] (arrives : T → Bool)

/-- The threads that still have to arrive. -/
def pending (φ : T → Phase) : Finset T :=
  Finset.univ.filter fun t ↦ arrives t && !(φ t).arrived

variable {arrives}

theorem mem_pending {φ : T → Phase} {t : T} :
    t ∈ pending arrives φ ↔ arrives t = true ∧ (φ t).arrived = false := by
  simp [pending]

theorem pending_congr {φ ψ : T → Phase} (h : ∀ t, arrives t = true →
    (ψ t).arrived = (φ t).arrived) : pending arrives ψ = pending arrives φ := by
  ext t
  rw [mem_pending, mem_pending]
  constructor
  · rintro ⟨ht, hψ⟩
    exact ⟨ht, (h t ht).symm.trans hψ⟩
  · rintro ⟨ht, hφ⟩
    exact ⟨ht, (h t ht).trans hφ⟩

variable [DecidableEq T]

theorem pending_update_same {φ : T → Phase} {t : T} {p : Phase}
    (h : arrives t = true → p.arrived = (φ t).arrived) :
    pending arrives (update φ t p) = pending arrives φ := by
  apply pending_congr
  intro u hu
  by_cases hut : u = t
  · subst hut
    simpa using h hu
  · simp [hut]

theorem pending_update_arrived {φ : T → Phase} {t : T} {p : Phase} (h : p.arrived = true) :
    pending arrives (update φ t p) = (pending arrives φ).erase t := by
  ext u
  by_cases hut : u = t
  · subst hut
    simp [mem_pending, h]
  · simp [mem_pending, hut]

end Pending

/-! ## The invariant -/

section Invariant

variable [Fintype T] (arrives : T → Bool)

/-- What holds between any two actions on a latch whose counter was set to the
number of threads that arrive. -/
structure Inv (s : State T) : Prop where
  held : ∀ t, s.holder = some t ↔ (s.phase t).holds = true
  count : s.n = (pending arrives s.phase).card
  arriving : ∀ t, s.phase t = .arriving → arrives t = true
  passed : ∀ t, (s.phase t).passed = true → s.n = 0
  woken : s.n = 0 → (∃ t, s.phase t = .notifying) ∨ ∀ t, s.phase t ≠ .waiting

variable {arrives} {s s' : State T} {t u : T}

theorem inv_start (n : ℤ) (hn : n = (Finset.univ.filter fun t ↦ arrives t = true).card) :
    Inv arrives (State.start n : State T) where
  held := by simp [State.start, Phase.holds]
  count := by simpa [State.start, pending, Phase.arrived] using hn
  arriving := by simp [State.start]
  passed := by simp [State.start, Phase.passed]
  woken := by simp [State.start]

namespace Inv

theorem n_nonneg (hs : Inv arrives s) : 0 ≤ s.n := by
  rw [hs.count]
  exact Int.natCast_nonneg _

theorem n_pos (hs : Inv arrives s) (ht : arrives t = true) (hp : (s.phase t).arrived = false) :
    0 < s.n := by
  rw [hs.count]
  exact_mod_cast Finset.card_pos.mpr ⟨t, mem_pending.mpr ⟨ht, hp⟩⟩

theorem exists_pending (hs : Inv arrives s) (hn : s.n ≠ 0) :
    ∃ t, arrives t = true ∧ (s.phase t).arrived = false := by
  have hcard : (pending arrives s.phase).card ≠ 0 := by
    intro h
    exact hn (by simp [hs.count, h])
  obtain ⟨t, ht⟩ := Finset.card_pos.mp (Nat.pos_of_ne_zero hcard)
  exact ⟨t, mem_pending.mp ht⟩

/-- A thread that may act is the holder, or nobody is. -/
theorem holds_of_ne (hs : Inv arrives s) (h : s.holder = none ∨ s.holder = some t)
    (hut : u ≠ t) : (s.phase u).holds = false := by
  have hne : ¬s.holder = some u := by
    rcases h with h | h <;> simp [h, hut.symm]
  simpa [hs.held u] using hne

theorem holder_of_phase (hs : Inv arrives s) {p : Phase} (h : s.phase t = p)
    (hp : p.holds = true) : s.holder = some t :=
  (hs.held t).mpr (h ▸ hp)

theorem not_waiting (hs : Inv arrives s) (hn : s.n = 0) (hfree : s.holder = none) :
    s.phase t ≠ .waiting := by
  rcases hs.woken hn with ⟨u, hu⟩ | hall
  · have := hs.holder_of_phase hu rfl
    simp [hfree] at this
  · exact hall t

theorem notifyAll (hs : Inv arrives s) : Inv arrives s.notifyAll where
  held := by simpa [State.notifyAll] using hs.held
  count := by
    have hsame : pending arrives s.notifyAll.phase = pending arrives s.phase :=
      pending_congr (by simp [State.notifyAll])
    rw [hsame]
    exact hs.count
  arriving := by
    intro t ht
    have hwake : (s.phase t).wake = .arriving := ht
    exact hs.arriving t ((Phase.wake_eq_iff (by simp) (by simp)).mp hwake)
  passed := by simpa [State.notifyAll] using hs.passed
  woken := fun _ ↦ .inr fun t ↦ Phase.wake_ne_waiting _

variable [DecidableEq T]

/-- One thread moves on and the counter goes with those who still have to arrive. -/
theorem move (hs : Inv arrives s) {p : Phase} {n : ℤ}
    (hfree : s.holder = none ∨ s.holder = some t)
    (hcount : n = (pending arrives (update s.phase t p)).card)
    (harr : p = .arriving → arrives t = true) (hle : n ≤ s.n)
    (hpassed : p.passed = true → n = 0)
    (hwoken : n = 0 → p = .notifying ∨ ∀ u, update s.phase t p u ≠ .waiting) :
    Inv arrives (s.move t p n) where
  held := by
    intro u
    by_cases hut : u = t
    · subst hut
      cases hp : p.holds <;> simp [State.move, hp]
    · have hu := hs.holds_of_ne hfree hut
      cases hp : p.holds <;> simp [State.move, hp, hut, hu, Ne.symm hut]
  count := hcount
  arriving := by
    intro u hu
    by_cases hut : u = t
    · subst hut
      exact harr (by simpa [State.move] using hu)
    · exact hs.arriving u (by simpa [State.move, hut] using hu)
  passed := by
    intro u hu
    by_cases hut : u = t
    · subst hut
      exact hpassed (by simpa [State.move] using hu)
    · have hzero := hs.passed u (by simpa [State.move, hut] using hu)
      have hnonneg : 0 ≤ n := hcount ▸ Int.natCast_nonneg _
      exact le_antisymm (hzero ▸ hle) hnonneg
  woken := by
    intro hn
    rcases hwoken hn with hp | hall
    · exact .inl ⟨t, by simpa [State.move] using hp⟩
    · exact .inr hall

/-- Moving a thread that neither decrements nor starts to wait. -/
theorem move_same (hs : Inv arrives s) {p : Phase}
    (hfree : s.holder = none ∨ s.holder = some t)
    (harrived : arrives t = true → p.arrived = (s.phase t).arrived)
    (harr : p = .arriving → arrives t = true) (hpassed : p.passed = true → s.n = 0)
    (hwait : p = .waiting → s.n ≠ 0) (hold : s.phase t ≠ .notifying) :
    Inv arrives (s.move t p s.n) := by
  refine hs.move hfree ?_ harr le_rfl hpassed ?_
  · rw [pending_update_same harrived]
    exact hs.count
  · intro hn
    rcases hs.woken hn with ⟨u, hu⟩ | hall
    · exfalso
      have hut : u ≠ t := by
        rintro rfl
        exact hold hu
      have := hs.holds_of_ne hfree hut
      simp [hu, Phase.holds] at this
    · right
      intro u
      by_cases hut : u = t
      · subst hut
        rw [update_self]
        exact fun hp ↦ hwait hp hn
      · rw [update_of_ne hut]
        exact hall u

theorem step (hs : Inv arrives s) (h : Step arrives t s s') : Inv arrives s' := by
  cases h with
  | lock hp hfree =>
      apply hs.move_same (.inl hfree)
      · intro ht
        simp [ht, hp, Phase.arrived]
      · intro h
        by_contra ht
        simp [ht] at h
      · split <;> simp [Phase.passed]
      · split <;> simp
      · simp [hp]
  | decrement hp =>
      have ht := hs.arriving t hp
      have harrived : (s.phase t).arrived = false := by simp [hp, Phase.arrived]
      have hpos := hs.n_pos ht harrived
      apply hs.move (.inr (hs.holder_of_phase hp rfl))
      · have hmem : t ∈ pending arrives s.phase := mem_pending.mpr ⟨ht, harrived⟩
        rw [pending_update_arrived (by split <;> rfl), Finset.card_erase_of_mem hmem, hs.count]
        have := Finset.card_pos.mpr ⟨t, hmem⟩
        omega
      · split <;> simp
      · omega
      · split <;> simp_all [Phase.passed]
      · intro hzero
        simp [hzero]
  | notify hp =>
      have hzero := hs.passed t (by simp [hp, Phase.passed])
      have hall := hs.notifyAll
      apply hall.move (.inr (hs.holder_of_phase hp rfl))
      · rw [pending_update_same]
        · exact hall.count
        · simp [State.notifyAll, hp, Phase.arrived, Phase.wake]
      · simp
      · exact le_rfl
      · exact fun _ ↦ hzero
      · intro _
        right
        intro u
        by_cases hut : u = t
        · simp [hut]
        · simpa [hut, State.notifyAll] using Phase.wake_ne_waiting (s.phase u)
  | check hp =>
      have hnonneg := hs.n_nonneg
      apply hs.move_same (.inr (hs.holder_of_phase hp rfl))
      · intro _
        split <;> simp [hp, Phase.arrived]
      · split <;> simp
      · split
        · intro _
          omega
        · simp [Phase.passed]
      · split
        · simp
        · intro _
          omega
      · simp [hp]
  | relock hp hfree =>
      apply hs.move_same (.inl hfree)
      all_goals simp [hp, Phase.arrived, Phase.passed]
  | unlock hp =>
      have hzero := hs.passed t (by simp [hp, Phase.passed])
      apply hs.move_same (.inr (hs.holder_of_phase hp rfl))
      all_goals simp [hp, hzero, Phase.arrived]

theorem spurious (hs : Inv arrives s) (h : Spurious s s') : Inv arrives s' := by
  cases h with
  | wake t ht =>
      have hother : ∀ u, u ≠ t → update s.phase t .woken u = s.phase u :=
        fun u hu ↦ update_of_ne hu ..
      refine ⟨?_, ?_, ?_, ?_, ?_⟩
      · intro u
        by_cases hut : u = t
        · subst hut
          simpa [ht, Phase.holds] using hs.held u
        · simpa [hother u hut] using hs.held u
      · rw [pending_update_same (by simp [ht, Phase.arrived])]
        exact hs.count
      · intro u hu
        by_cases hut : u = t
        · simp [hut] at hu
        · exact hs.arriving u (hother u hut ▸ hu)
      · intro u hu
        by_cases hut : u = t
        · simp [hut, Phase.passed] at hu
        · exact hs.passed u (hother u hut ▸ hu)
      · intro hn
        rcases hs.woken hn with ⟨u, hu⟩ | hall
        · left
          refine ⟨u, ?_⟩
          have hut : u ≠ t := by
            rintro rfl
            simp [ht] at hu
          exact (hother u hut).trans hu
        · exact absurd ht (hall t)

end Inv

end Invariant

/-! ## A program around the latch -/

/-- Where a thread's program stands relative to its call of the latch: before
it, in it, past it, or at its end by a way that may have led around it. -/
inductive Stage where
  | ahead | inside | past | left
  deriving DecidableEq, Repr

namespace Stage

def Allows : Stage → Phase → Prop
  | ahead, p => p = .before
  | inside, _ => True
  | past, p => p = .after
  | left, p => p = .before ∨ p = .after

variable {g : Stage} {p q : Phase}

theorem Allows.wake (h : g.Allows p) (hq : q = p ∨ q = p.wake) : g.Allows q := by
  rcases hq with rfl | rfl
  · exact h
  · cases g <;> simp_all [Allows, Phase.wake_eq_iff]

theorem Allows.inside (h : g.Allows p) (hb : p ≠ .before) (ha : p ≠ .after) : g = .inside := by
  cases g <;> simp_all [Allows]

variable [DecidableEq T] {arrives : T → Bool} {s s' : State T} {t : T}

theorem Allows.step {stage : T → Stage} (h : ∀ u, (stage u).Allows (s.phase u))
    (ht : stage t = .inside) (hstep : Step arrives t s s') (u : T) :
    (stage u).Allows (s'.phase u) := by
  by_cases hut : u = t
  · subst hut
    rw [ht]
    trivial
  · exact (h u).wake (hstep.phase_of_ne hut)

theorem Allows.spurious {stage : T → Stage} (h : ∀ u, (stage u).Allows (s.phase u))
    (hstep : Spurious s s') (u : T) : (stage u).Allows (s'.phase u) :=
  (h u).wake (hstep.phase u)

end Stage

/-! ## Threads that cannot act -/

section Progress

variable [DecidableEq T] {arrives : T → Bool} {s : State T} {t : T} {stage : T → Stage}

theorem exists_step_of_holds (h : (s.phase t).holds = true) : ∃ s', Step arrives t s s' := by
  cases hp : s.phase t with
  | arriving => exact ⟨_, .decrement hp⟩
  | notifying => exact ⟨_, .notify hp⟩
  | checking => exact ⟨_, .check hp⟩
  | leaving => exact ⟨_, .unlock hp⟩
  | before | waiting | woken | after => simp [hp, Phase.holds] at h

namespace Inv

variable [Fintype T] (hs : Inv arrives s) (hallows : ∀ u, (stage u).Allows (s.phase u))
  (hstuck : ∀ u, stage u = .inside → ∀ s', ¬Step arrives u s s')
include hs hallows hstuck

/-- The holder of the lock can act. -/
theorem free_of_stuck : s.holder = none := by
  by_contra hheld
  obtain ⟨u, hu⟩ := Option.ne_none_iff_exists'.mp hheld
  have hholds := (hs.held u).mp hu
  have hinside : stage u = .inside := by
    apply (hallows u).inside
    · intro h
      simp [h, Phase.holds] at hholds
    · intro h
      simp [h, Phase.holds] at hholds
  obtain ⟨s', hstep⟩ := exists_step_of_holds hholds
  exact hstuck u hinside s' hstep

/-- In its call, only a thread that waits, or is through, cannot act. -/
theorem phase_of_stuck (ht : stage t = .inside) :
    s.phase t = .waiting ∨ s.phase t = .after := by
  have hfree := hs.free_of_stuck hallows hstuck
  have hholds : (s.phase t).holds ≠ true := by
    intro hp
    have := (hs.held t).mpr hp
    simp [hfree] at this
  cases hp : s.phase t with
  | before => exact absurd (.lock hp hfree) (hstuck t ht _)
  | woken => exact absurd (.relock hp hfree) (hstuck t ht _)
  | waiting => exact .inl rfl
  | after => exact .inr rfl
  | arriving | notifying | checking | leaving => simp [hp, Phase.holds] at hholds

theorem up_of_waiting (ht : s.phase t = .waiting) : s.n ≠ 0 :=
  fun hn ↦ hs.not_waiting hn (hs.free_of_stuck hallows hstuck) ht

end Inv

end Progress

/-! ## Runs of a latch that stays up -/

section Rank

/-- How far a thread still is from waiting or having left. -/
def Phase.rank : Phase → ℕ
  | .before => 5
  | .arriving | .woken => 4
  | .checking => 3
  | .notifying => 2
  | .leaving => 1
  | .waiting | .after => 0

variable [Fintype T] [DecidableEq T] {arrives : T → Bool} {s s' : State T} {t : T}

def State.rank (s : State T) : ℕ := ∑ t, (s.phase t).rank

theorem State.rank_move {p : Phase} {n : ℤ} (h : p.rank < (s.phase t).rank) :
    (s.move t p n).rank < s.rank := by
  apply Finset.sum_lt_sum
  · intro u _
    by_cases hut : u = t
    · subst hut
      simpa [State.move] using h.le
    · simp [State.move, hut]
  · exact ⟨t, Finset.mem_univ t, by simpa [State.move] using h⟩

/-- As long as the counter is up nobody is woken, and every action brings its
thread closer to the wait. -/
theorem Step.rank_lt (hs : Inv arrives s) (hn : s.n ≠ 0) (h : Step arrives t s s') :
    s'.rank < s.rank := by
  cases h with
  | notify hp => exact absurd (hs.passed t (by simp [hp, Phase.passed])) hn
  | lock hp _ | decrement hp | check hp | relock hp _ | unlock hp =>
      apply State.rank_move
      rw [hp]
      first
        | decide
        | split <;> decide

end Rank

end Latch
