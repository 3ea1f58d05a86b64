import Ppfdaas.Library.Interleaving
import Mathlib.Data.Fintype.Card

/-!
# Threads that go through phases

A pool in which every thread runs one program, and what is left of a program is
known from the phase its thread is in.  Runs of the pool are then runs of a
system of phases over the shared state, and an invariant of that system holds
along every schedule.
-/

namespace Interleaving

open Function

variable {σ τ κ ρ Φ : Type}

/-- The phases of a program: what the action of a phase does, and the phase
after it. -/
structure Phases (σ τ ρ Φ : Type) where
  enabled : τ → Φ → σ → Bool
  effect : τ → Φ → σ → σ
  next : τ → Φ → σ → Φ
  answer : Φ → Option ρ

namespace Phases

variable (M : Phases σ τ ρ Φ)

/-- `rest t p` is what thread `t` has left to do in phase `p`. -/
structure Describes (rest : τ → Φ → Prog σ ρ) : Prop where
  done : ∀ {t p r}, M.answer p = some r → rest t p = .done r
  act : ∀ {t p}, M.answer p = none →
    rest t p = .act (M.enabled t p) (M.effect t p) fun s ↦ rest t (M.next t p s)

/-- Nothing has happened yet: every thread has its call and is in phase `p`. -/
def launch (rest : τ → Φ → Prog σ ρ) (call : τ → κ) (p : Φ) (s : σ) : Config σ τ κ ρ :=
  ⟨s, fun t ↦ some (call t, rest t p), []⟩

/-- The pool is in the phases `φ`. -/
structure Tracks (rest : τ → Φ → Prog σ ρ) (call : τ → κ) (c : Config σ τ κ ρ)
    (φ : τ → Φ) : Prop where
  running : ∀ t, c.running t = some (call t, rest t (φ t)) ∨
    c.running t = none ∧ ∃ r, M.answer (φ t) = some r ∧ (t, call t, r) ∈ c.served
  served : ∀ t k r, (t, k, r) ∈ c.served →
    k = call t ∧ c.running t = none ∧ M.answer (φ t) = some r

variable {M} {rest : τ → Φ → Prog σ ρ} {call : τ → κ}

theorem tracks_launch (p : Φ) (s : σ) :
    M.Tracks rest call (launch rest call p s) fun _ ↦ p where
  running := fun _ ↦ .inl rfl
  served := by simp [launch]

variable [DecidableEq τ] {handler : τ → κ → Prog σ ρ}

variable (handler) in
/-- A turn of a thread answers its call, waits, or moves it to its next phase. -/
theorem Tracks.step (hM : M.Describes rest) {c : Config σ τ κ ρ} {φ : τ → Φ}
    (hc : M.Tracks rest call c φ) (t : τ) :
    (M.Tracks rest call (c.step handler (.go t)) φ ∧
      (c.step handler (.go t)).shared = c.shared) ∨
    (M.answer (φ t) = none ∧ M.enabled t (φ t) c.shared = true ∧
      M.Tracks rest call (c.step handler (.go t)) (update φ t (M.next t (φ t) c.shared)) ∧
      (c.step handler (.go t)).shared = M.effect t (φ t) c.shared) := by
  rcases hc.running t with hrun | ⟨hidle, -⟩
  swap
  · left
    simp only [Config.step, hidle]
    exact ⟨hc, trivial⟩
  cases hanswer : M.answer (φ t) with
  | some r =>
      left
      rw [hM.done hanswer] at hrun
      simp only [Config.step, hrun, and_true]
      constructor
      · intro u
        by_cases hut : u = t
        · subst hut
          exact .inr ⟨update_self .., r, hanswer, List.mem_cons_self⟩
        · simp only [update_of_ne hut]
          rcases hc.running u with hu | ⟨hu, r', hr', hmem⟩
          · exact .inl hu
          · exact .inr ⟨hu, r', hr', List.mem_cons_of_mem _ hmem⟩
      · intro u k r' hmem
        rcases List.mem_cons.mp hmem with heq | hmem
        · obtain ⟨rfl, rfl, rfl⟩ : u = t ∧ k = call t ∧ r' = r := by simpa using heq
          exact ⟨rfl, update_self .., hanswer⟩
        · obtain ⟨hk, hu, hr'⟩ := hc.served u k r' hmem
          refine ⟨hk, ?_, hr'⟩
          by_cases hut : u = t
          · simp [hut]
          · simpa [update_of_ne hut] using hu
  | none =>
      rw [hM.act hanswer] at hrun
      by_cases henabled : M.enabled t (φ t) c.shared = true
      swap
      · left
        simp only [Config.step, hrun, if_neg henabled]
        exact ⟨hc, trivial⟩
      right
      simp only [Config.step, hrun, henabled, if_true, and_true, true_and]
      constructor
      · intro u
        by_cases hut : u = t
        · subst hut
          exact .inl (by simp)
        · simp only [update_of_ne hut]
          exact hc.running u
      · intro u k r' hmem
        obtain ⟨hk, hu, hr'⟩ := hc.served u k r' hmem
        have hut : u ≠ t := by
          rintro rfl
          simp [hrun] at hu
        simp only [update_of_ne hut]
        exact ⟨hk, hu, hr'⟩

/-- What every move of a thread preserves holds after every schedule. -/
theorem Tracks.run (hM : M.Describes rest) {Inv : (τ → Φ) → σ → Prop}
    (hstep : ∀ φ s t, Inv φ s → M.answer (φ t) = none → M.enabled t (φ t) s = true →
      Inv (update φ t (M.next t (φ t) s)) (M.effect t (φ t) s))
    {c : Config σ τ κ ρ} {φ : τ → Φ} (hc : M.Tracks rest call c φ) (hinv : Inv φ c.shared)
    (schedule : List τ) :
    ∃ φ', M.Tracks rest call (c.run handler (schedule.map .go)) φ' ∧
      Inv φ' (c.run handler (schedule.map .go)).shared := by
  induction schedule generalizing c φ with
  | nil => exact ⟨φ, hc, hinv⟩
  | cons t schedule ih =>
      rw [List.map_cons, Config.run_cons]
      rcases hc.step handler hM t with ⟨htracks, hshared⟩ |
        ⟨hanswer, henabled, htracks, hshared⟩
      · apply ih htracks
        rwa [hshared]
      · apply ih htracks
        rw [hshared]
        exact hstep φ c.shared t hinv hanswer henabled

/-! ## Counting threads -/

section Tally

variable [Fintype τ]

def tally (P : Φ → Bool) (φ : τ → Φ) : ℕ := (Finset.univ.filter fun t ↦ P (φ t)).card

theorem tally_update_same {P : Φ → Bool} {φ : τ → Φ} {t : τ} {p : Φ} (h : P p = P (φ t)) :
    tally P (update φ t p) = tally P φ := by
  unfold tally
  congr 1
  ext u
  by_cases hut : u = t
  · simp [hut, h]
  · simp [update_of_ne hut]

theorem tally_update_new {P : Φ → Bool} {φ : τ → Φ} {t : τ} {p : Φ} (hnew : P p = true)
    (hold : P (φ t) = false) : tally P (update φ t p) = tally P φ + 1 := by
  have hinsert : (Finset.univ.filter fun u ↦ P (update φ t p u)) =
      insert t (Finset.univ.filter fun u ↦ P (φ u)) := by
    ext u
    by_cases hut : u = t
    · simp [hut, hnew]
    · simp [hut]
  rw [tally, hinsert, Finset.card_insert_of_notMem (by simp [hold]), tally]

omit [DecidableEq τ] in
theorem tally_eq_card {P : Φ → Bool} {φ : τ → Φ} (h : ∀ t, P (φ t) = true) :
    tally P φ = Fintype.card τ := by
  simp [tally, h, Finset.card_univ]

omit [DecidableEq τ] in
theorem tally_const_false {P : Φ → Bool} {p : Φ} (h : P p = false) :
    tally P (fun _ : τ ↦ p) = 0 := by
  simp [tally, h]

end Tally

end Phases

end Interleaving
