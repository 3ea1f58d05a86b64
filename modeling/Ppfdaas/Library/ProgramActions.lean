import Ppfdaas.Library.RelyGuarantee

/-!
# The actions of a program

`Acts A p` says that every action of the program `p`, whatever it reads on the
way, updates the shared state by a function of `A`.  What all those functions
respect then holds along the whole program, and a pool only ever takes steps of
the actions of its handlers.
-/

namespace Interleaving

variable {σ τ κ α β ρ : Type}

inductive Acts (A : (σ → σ) → Prop) : Prog σ ρ → Prop
  | done (r : ρ) : Acts A (.done r)
  | act {e : σ → Bool} {u : σ → σ} {n : σ → Prog σ ρ} (hu : A u) (hn : ∀ s, Acts A (n s)) :
      Acts A (.act e u n)

namespace Acts

variable {A B : (σ → σ) → Prop}

theorem pure (a : α) : Acts A (pure a : Prog σ α) := .done a

theorem bind {p : Prog σ α} {k : α → Prog σ β} (hp : Acts A p) (hk : ∀ a, Acts A (k a)) :
    Acts A (p >>= k) := by
  induction hp with
  | done a => exact hk a
  | act hu _ ih => exact .act hu ih

theorem mono {p : Prog σ ρ} (hp : Acts A p) (hAB : ∀ u, A u → B u) : Acts B p := by
  induction hp with
  | done r => exact .done r
  | act hu _ ih => exact .act (hAB _ hu) ih

theorem atomically {f : σ → α × σ} (hf : A fun s ↦ (f s).2) : Acts A (Prog.atomically f) :=
  .act hf fun _ ↦ .done _

theorem read (hid : A fun s ↦ s) (f : σ → α) : Acts A (Prog.read f) := .atomically hid

theorem modify {f : σ → σ} (hf : A f) : Acts A (Prog.modify f) := .atomically hf

theorem except_bind {ε : Type} {x : ExceptT ε (Prog σ) α} {f : α → ExceptT ε (Prog σ) β}
    (hx : Acts A x.run) (hf : ∀ a, Acts A (f a).run) : Acts A (x >>= f).run := by
  rw [ExceptT.run_bind]
  apply bind hx
  intro r
  cases r with
  | ok a => exact hf a
  | error e => exact .done _

theorem foldlM {ε ι : Type} {step : α → ι → ExceptT ε (Prog σ) α} (is : List ι)
    (hstep : ∀ a, ∀ i ∈ is, Acts A (step a i).run) (a : α) : Acts A (is.foldlM step a).run := by
  induction is generalizing a with
  | nil => exact .done _
  | cons i is ih =>
      exact except_bind (hstep a i List.mem_cons_self)
        (ih fun a j hj ↦ hstep a j (List.mem_cons_of_mem i hj))

/-- Every function of `A` keeps the contract and the fact `R`, so the program does. -/
theorem triple {C : Contract σ τ} {t : τ} {R : σ → Prop} {p : Prog σ ρ} (hp : Acts A p)
    (hR : C.Stable t R)
    (hA : ∀ u, A u → ∀ s, C.inv s → R s → C.cond s (u s) → C.guar t s (u s) ∧ R (u s)) :
    C.Triple t R p fun _ ↦ R := by
  induction hp with
  | done r => exact .done hR fun _ _ hs ↦ hs
  | act hu _ ih =>
      intro s hs s' hinv hss _ hcond
      obtain ⟨hguar, hkept⟩ := hA _ hu s' hinv (hR.interferes hs hss) hcond
      exact ⟨hguar, ih s' _ hkept⟩

end Acts

namespace Config

variable [DecidableEq τ] {handler : τ → κ → Prog σ ρ} {A : τ → κ → (σ → σ) → Prop}

/-- What is left of every running program acts as its call may. -/
def ActsIn (A : τ → κ → (σ → σ) → Prop) (c : Config σ τ κ ρ) : Prop :=
  ∀ t k p, c.running t = some (k, p) → Acts (A t k) p

omit [DecidableEq τ] in
theorem actsIn_idle (s : σ) : ActsIn A (idle s : Config σ τ κ ρ) := by
  intro t k p h
  simp [idle] at h

private theorem actsIn_update {c : Config σ τ κ ρ} (hc : c.ActsIn A) {t : τ} {k : κ}
    {p : Prog σ ρ} (hp : Acts (A t k) p) {u : τ} {k' : κ} {q : Prog σ ρ}
    (h : Function.update c.running t (some (k, p)) u = some (k', q)) : Acts (A u k') q := by
  by_cases hut : u = t
  · subst hut
    simp only [Function.update_self, Option.some.injEq, Prod.mk.injEq] at h
    obtain ⟨rfl, rfl⟩ := h
    exact hp
  · rw [Function.update_of_ne hut] at h
    exact hc u k' q h

theorem ActsIn.step (hh : ∀ t k, Acts (A t k) (handler t k)) {c : Config σ τ κ ρ}
    (hc : c.ActsIn A) (x : Choice τ κ) : (c.step handler x).ActsIn A := by
  cases x with
  | call t k =>
      cases hrun : c.running t with
      | some p => simpa [Config.step, hrun] using hc
      | none =>
          intro u k' q h
          simp only [Config.step, hrun] at h
          exact actsIn_update hc (hh t k) h
  | go t =>
      rcases hrun : c.running t with _ | ⟨k, _ | ⟨e, v, n⟩⟩
      · simpa [Config.step, hrun] using hc
      · intro u k' q h
        simp only [Config.step, hrun] at h
        by_cases hut : u = t
        · simp [hut] at h
        · rw [Function.update_of_ne hut] at h
          exact hc u k' q h
      · by_cases he : e c.shared
        · intro u k' q h
          simp only [Config.step, hrun, he, if_true] at h
          have hrest := hc t k _ hrun
          cases hrest with
          | act _ hn => exact actsIn_update hc (hn c.shared) h
        · simpa [Config.step, hrun, he] using hc

theorem ActsIn.run (hh : ∀ t k, Acts (A t k) (handler t k)) {c : Config σ τ κ ρ}
    (hc : c.ActsIn A) (xs : List (Choice τ κ)) : (c.run handler xs).ActsIn A := by
  induction xs generalizing c with
  | nil => exact hc
  | cons x xs ih => exact ih (hc.step hh x)

/-- The next step of the thread chosen by `x` updates the state by `u`. -/
def NextAct (c : Config σ τ κ ρ) (x : Choice τ κ) (t : τ) (u : σ → σ) : Prop :=
  x = .go t ∧ ∃ k e n, c.running t = some (k, .act e u n)

variable (handler) in
/-- A step leaves the shared state alone or is an action of some thread. -/
theorem step_shared (c : Config σ τ κ ρ) (x : Choice τ κ) :
    (c.step handler x).shared = c.shared ∨
      ∃ t u, c.NextAct x t u ∧ (c.step handler x).shared = u c.shared := by
  cases x with
  | call t k => cases hrun : c.running t <;> simp [Config.step, hrun]
  | go t =>
      rcases hrun : c.running t with _ | ⟨k, _ | ⟨e, u, n⟩⟩
      · simp [Config.step, hrun]
      · simp [Config.step, hrun]
      · by_cases he : e c.shared
        · right
          refine ⟨t, u, ⟨rfl, k, e, n, hrun⟩, ?_⟩
          simp [Config.step, hrun, he]
        · simp [Config.step, hrun, he]

omit [DecidableEq τ] in
theorem ActsIn.nextAct {c : Config σ τ κ ρ} (hc : c.ActsIn A) {x : Choice τ κ} {t : τ}
    {u : σ → σ} (h : c.NextAct x t u) : ∃ k p, c.running t = some (k, p) ∧ A t k u := by
  obtain ⟨-, k, e, n, hrun⟩ := h
  cases hc t k _ hrun with
  | act hu _ => exact ⟨k, _, hrun, hu⟩

/-! ## Conditions on the steps of a run -/

/-- Every choice of the schedule meets `P` in the configuration it is made in. -/
def Along (P : Config σ τ κ ρ → Choice τ κ → Prop) (handler : τ → κ → Prog σ ρ) :
    Config σ τ κ ρ → List (Choice τ κ) → Prop
  | _, [] => True
  | c, x :: xs => P c x ∧ Along P handler (step handler c x) xs

theorem along_append {P : Config σ τ κ ρ → Choice τ κ → Prop} {c : Config σ τ κ ρ}
    {xs ys : List (Choice τ κ)} :
    Along P handler c (xs ++ ys) ↔
      Along P handler c xs ∧ Along P handler (run handler c xs) ys := by
  induction xs generalizing c with
  | nil => simp [Along]
  | cons x xs ih => simp [Along, ih, and_assoc]

end Config

end Interleaving
