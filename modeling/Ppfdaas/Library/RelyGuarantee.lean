import Ppfdaas.Library.Interleaving

/-!
# Rely-guarantee reasoning for interleaved programs

A contract fixes an invariant, what each thread may rely on while others move
and what each of its own steps guarantees.  `Safe` says that a program keeps
its part of the contract under any interference the contract allows; a pool
of safe programs keeps the invariant along every schedule, and every answer
satisfies the postcondition its handler was proved to have.
-/

namespace Interleaving

open Relation

variable {σ τ κ α β ρ : Type}

/-- What the threads of a pool owe each other.  `cond` restricts the runs that
are considered: a step outside it is not analysed. -/
structure Contract (σ τ : Type) where
  inv : σ → Prop
  cond : σ → σ → Prop
  rely : τ → σ → σ → Prop
  guar : τ → σ → σ → Prop
  guar_rely : ∀ {t u s s'}, t ≠ u → inv s → guar t s s' → rely u s s'
  guar_inv : ∀ {t s s'}, inv s → guar t s s' → inv s'

namespace Contract

variable (C : Contract σ τ) (t : τ)

/-- `s'` is reached from `s` by steps of the other threads only. -/
def Interferes (s s' : σ) : Prop :=
  ReflTransGen (fun a b ↦ C.inv a ∧ C.inv b ∧ C.rely t a b) s s'

/-- The rest of a program is safe after the thread's last step left `s`: each
of its next actions keeps the guarantee wherever the others have moved the
state meanwhile, and a result satisfies `Q`. -/
def Safe (Q : ρ → σ → Prop) : Prog σ ρ → σ → Prop
  | .done r, s => ∀ s', C.inv s' → C.Interferes t s s' → Q r s'
  | .act e u n, s => ∀ s', C.inv s' → C.Interferes t s s' → e s' →
      C.cond s' (u s') → C.guar t s' (u s') ∧ Safe Q (n s') (u s')

def Stable (P : σ → Prop) : Prop := ∀ s s', C.inv s → P s → C.rely t s s' → P s'

def Triple (P : σ → Prop) (p : Prog σ ρ) (Q : ρ → σ → Prop) : Prop :=
  ∀ s, P s → C.Safe t Q p s

variable {C t}

theorem Stable.interferes {P : σ → Prop} (hP : C.Stable t P) {s s' : σ}
    (h : P s) (hss : C.Interferes t s s') : P s' := by
  induction hss with
  | refl => exact h
  | tail _ hstep ih => exact hP _ _ hstep.1 ih hstep.2.2

/-- Interference before the next action is already accounted for. -/
theorem Safe.later {Q : ρ → σ → Prop} {p : Prog σ ρ} {s s' : σ}
    (h : C.Safe t Q p s) (hss : C.Interferes t s s') : C.Safe t Q p s' := by
  cases p with
  | done r => exact fun s₂ hinv hs ↦ h s₂ hinv (hss.trans hs)
  | act e u n => exact fun s₂ hinv hs ↦ h s₂ hinv (hss.trans hs)

theorem Safe.of_later {Q : ρ → σ → Prop} {p : Prog σ ρ} {s : σ}
    (h : ∀ s', C.inv s' → C.Interferes t s s' → C.Safe t Q p s') : C.Safe t Q p s := by
  cases p with
  | done r => exact fun s₂ hinv hs ↦ h s₂ hinv hs s₂ hinv .refl
  | act e u n => exact fun s₂ hinv hs ↦ h s₂ hinv hs s₂ hinv .refl

theorem Safe.bind {R : α → σ → Prop} {Q : β → σ → Prop} {p : Prog σ α}
    {k : α → Prog σ β} {s : σ} (hp : C.Safe t R p s)
    (hk : ∀ a, C.Triple t (R a) (k a) Q) : C.Safe t Q (p >>= k) s := by
  induction p generalizing s with
  | done a =>
      refine Safe.of_later fun s' hinv hs ↦ ?_
      exact hk a s' (hp s' hinv hs)
  | act e u n ih =>
      intro s' hinv hs he hcond
      obtain ⟨hguar, hrest⟩ := hp s' hinv hs he hcond
      exact ⟨hguar, ih s' hrest⟩

/-- Sequencing programs that may throw: an error has to meet the postcondition
of the whole. -/
theorem Safe.except_bind {ε : Type} {R : Except ε α → σ → Prop} {Q : Except ε β → σ → Prop}
    {x : ExceptT ε (Prog σ) α} {f : α → ExceptT ε (Prog σ) β} {s : σ}
    (hx : C.Safe t R x.run s) (hok : ∀ a, C.Triple t (R (.ok a)) (f a).run Q)
    (herror : ∀ e s, C.inv s → R (.error e) s → Q (.error e) s) :
    C.Safe t Q (x >>= f).run s := by
  rw [ExceptT.run_bind]
  generalize x.run = p at hx ⊢
  induction p generalizing s with
  | done r =>
      cases r with
      | ok a => exact Safe.of_later fun s' hinv hs ↦ hok a s' (hx s' hinv hs)
      | error e => exact fun s' hinv hs ↦ herror e s' hinv (hx s' hinv hs)
  | act e u n ih =>
      intro s' hinv hs he hcond
      obtain ⟨hguar, hrest⟩ := hx s' hinv hs he hcond
      exact ⟨hguar, ih s' hrest⟩

theorem stable_const (p : Prop) : C.Stable t fun _ ↦ p := fun _ _ _ hp _ ↦ hp

/-! ## Rules for triples -/

section Rules

variable {P P' : σ → Prop} {Q Q' : ρ → σ → Prop} {p : Prog σ ρ}

theorem Triple.conseq (h : C.Triple t P p Q) (hP : ∀ s, P' s → P s)
    (hQ : ∀ r s, C.inv s → Q r s → Q' r s) : C.Triple t P' p Q' := by
  have weaken : ∀ (q : Prog σ ρ) s, C.Safe t Q q s → C.Safe t Q' q s := by
    intro q
    induction q with
    | done r => exact fun s hs s' hinv hss ↦ hQ r s' hinv (hs s' hinv hss)
    | act e u n ih =>
        intro s hs s' hinv hss he hcond
        obtain ⟨hguar, hrest⟩ := hs s' hinv hss he hcond
        exact ⟨hguar, ih s' _ hrest⟩
  exact fun s hs ↦ weaken p s (h s (hP s hs))

theorem Triple.pre (h : C.Triple t P p Q) (hP : ∀ s, P' s → P s) : C.Triple t P' p Q :=
  fun s hs ↦ h s (hP s hs)

/-- A precondition that does not look at the state. -/
theorem Triple.lift {φ : Prop} (h : φ → C.Triple t (fun _ ↦ True) p Q) :
    C.Triple t (fun _ ↦ φ) p Q :=
  fun s hφ ↦ h hφ s trivial

theorem Triple.done (hP : C.Stable t P) {r : ρ} (h : ∀ s, C.inv s → P s → Q r s) :
    C.Triple t P (.done r) Q :=
  fun _ hs s' hinv hss ↦ h s' hinv (hP.interferes hs hss)

theorem Triple.bind {R : α → σ → Prop} {Q : β → σ → Prop} {p : Prog σ α}
    {k : α → Prog σ β} (hp : C.Triple t P p R) (hk : ∀ a, C.Triple t (R a) (k a) Q) :
    C.Triple t P (p >>= k) Q :=
  fun s hs ↦ (hp s hs).bind hk

theorem Triple.except_bind {ε : Type} {R : Except ε α → σ → Prop}
    {Q : Except ε β → σ → Prop} {x : ExceptT ε (Prog σ) α} {f : α → ExceptT ε (Prog σ) β}
    (hx : C.Triple t P x.run R) (hok : ∀ a, C.Triple t (R (.ok a)) (f a).run Q)
    (herror : ∀ e s, C.inv s → R (.error e) s → Q (.error e) s) :
    C.Triple t P (x >>= f).run Q :=
  fun _ hs ↦ (hx _ hs).except_bind hok herror

theorem Triple.act {e : σ → Bool} {u : σ → σ} {f : σ → α} {Q : α → σ → Prop}
    (hP : C.Stable t P) (hQ : ∀ a, C.Stable t (Q a))
    (h : ∀ s, C.inv s → P s → e s → C.cond s (u s) →
      C.guar t s (u s) ∧ Q (f s) (u s)) :
    C.Triple t P (.act e u fun s ↦ .done (f s)) Q := by
  intro s hs s₁ hinv₁ hss₁ he hcond
  obtain ⟨hguar, hq⟩ := h s₁ hinv₁ (hP.interferes hs hss₁) he hcond
  exact ⟨hguar, fun s₂ _ hss₂ ↦ (hQ _).interferes hq hss₂⟩

theorem Triple.atomically {f : σ → α × σ} {Q : α → σ → Prop}
    (hP : C.Stable t P) (hQ : ∀ a, C.Stable t (Q a))
    (h : ∀ s, C.inv s → P s → C.cond s (f s).2 →
      C.guar t s (f s).2 ∧ Q (f s).1 (f s).2) :
    C.Triple t P (Prog.atomically f) Q :=
  .act hP hQ fun s hinv hs _ ↦ h s hinv hs

theorem Triple.read {f : σ → α} {Q : α → σ → Prop}
    (hP : C.Stable t P) (hQ : ∀ a, C.Stable t (Q a))
    (h : ∀ s, C.inv s → P s → C.guar t s s ∧ Q (f s) s) :
    C.Triple t P (Prog.read f) Q :=
  .act hP hQ fun s hinv hs _ _ ↦ h s hinv hs

theorem Triple.modify {f : σ → σ} {Q : Unit → σ → Prop}
    (hP : C.Stable t P) (hQ : ∀ a, C.Stable t (Q a))
    (h : ∀ s, C.inv s → P s → C.cond s (f s) → C.guar t s (f s) ∧ Q () (f s)) :
    C.Triple t P (Prog.modify f) Q :=
  .act hP hQ fun s hinv hs _ ↦ h s hinv hs

theorem Triple.await {e : σ → Bool} {f : σ → σ} {Q : Unit → σ → Prop}
    (hP : C.Stable t P) (hQ : ∀ a, C.Stable t (Q a))
    (h : ∀ s, C.inv s → P s → e s → C.cond s (f s) → C.guar t s (f s) ∧ Q () (f s)) :
    C.Triple t P (Prog.await e f) Q :=
  .act hP hQ h

end Rules

/-! ## Blocks whose result does not depend on the interference -/

section Computes

variable {ε : Type} {P : σ → Prop}

/-- Whatever the other threads do meanwhile, the block ends with `r` and keeps
`P`. -/
def Computes (C : Contract σ τ) (t : τ) (P : σ → Prop) (x : ExceptT ε (Prog σ) α)
    (r : Except ε α) : Prop :=
  C.Triple t P x.run fun r' s ↦ r' = r ∧ P s

theorem Computes.pure (hP : C.Stable t P) (a : α) :
    C.Computes t P (pure a : ExceptT ε (Prog σ) α) (.ok a) :=
  Triple.done hP fun _ _ hs ↦ ⟨rfl, hs⟩

/-- The rest of the block has to be looked at for the result of its first part
only. -/
theorem Computes.bind {x : ExceptT ε (Prog σ) α} {f : α → ExceptT ε (Prog σ) β}
    {r : Except ε α} {g : α → Except ε β} (hx : C.Computes t P x r)
    (hf : ∀ a, r = .ok a → C.Computes t P (f a) (g a)) :
    C.Computes t P (x >>= f) (r >>= g) := by
  refine Triple.except_bind hx (fun a s hs ↦ ?_) fun e s _ hs ↦ ?_
  · obtain ⟨rfl, hP⟩ := hs
    exact hf a rfl s hP
  · obtain ⟨rfl, hP⟩ := hs
    exact ⟨rfl, hP⟩

theorem Computes.foldlM {ι : Type} {step : α → ι → ExceptT ε (Prog σ) α}
    {pureStep : α → ι → Except ε α} (hP : C.Stable t P)
    (h : ∀ a i, C.Computes t P (step a i) (pureStep a i)) (is : List ι) (a : α) :
    C.Computes t P (is.foldlM step a) (is.foldlM pureStep a) := by
  induction is generalizing a with
  | nil => exact .pure hP a
  | cons i is ih => exact (h a i).bind fun b _ ↦ ih b

end Computes

end Contract

/-! ## Pools of safe programs -/

namespace Config

variable [DecidableEq τ] {C : Contract σ τ} {handler : τ → κ → Prog σ ρ}
  {post : τ → κ → ρ → σ → Prop}

/-- The invariant holds, every running program is safe from here, and every
answer met its postcondition when it was given. -/
structure Sound (C : Contract σ τ) (post : τ → κ → ρ → σ → Prop)
    (c : Config σ τ κ ρ) : Prop where
  inv : C.inv c.shared
  safe : ∀ t k p, c.running t = some (k, p) → C.Safe t (post t k) p c.shared
  served : ∀ t k r, (t, k, r) ∈ c.served → ∃ s, C.inv s ∧ post t k r s

omit [DecidableEq τ] in
theorem sound_idle {s : σ} (h : C.inv s) : Sound C post (idle s : Config σ τ κ ρ) where
  inv := h
  safe := by simp [idle]
  served := by simp [idle]

private theorem safe_update {running : τ → Option (κ × Prog σ ρ)} {t : τ} {k : κ}
    {p : Prog σ ρ} {s : σ} (hp : C.Safe t (post t k) p s)
    (hrest : ∀ u k' q, u ≠ t → running u = some (k', q) → C.Safe u (post u k') q s) :
    ∀ u k' q, Function.update running t (some (k, p)) u = some (k', q) →
      C.Safe u (post u k') q s := by
  intro u k' q hu
  by_cases hut : u = t
  · subst hut
    simp only [Function.update_self, Option.some.injEq, Prod.mk.injEq] at hu
    obtain ⟨rfl, rfl⟩ := hu
    exact hp
  · rw [Function.update_of_ne hut] at hu
    exact hrest u k' q hut hu

theorem Sound.step {x : Choice τ κ}
    (hh : ∀ t k, x = .call t k → C.Triple t C.inv (handler t k) (post t k))
    {c : Config σ τ κ ρ} (hc : Sound C post c)
    (hcond : C.cond c.shared (c.step handler x).shared) :
    Sound C post (c.step handler x) := by
  cases x with
  | call t k =>
      cases hrun : c.running t with
      | some p => simpa [Config.step, hrun] using hc
      | none =>
          simp only [Config.step, hrun] at hcond ⊢
          exact ⟨hc.inv, safe_update (hh t k rfl _ hc.inv) fun u k' q _ hu ↦ hc.safe u k' q hu,
            hc.served⟩
  | go t =>
      rcases hrun : c.running t with _ | ⟨k, _ | ⟨e, u, n⟩⟩
      · simpa [Config.step, hrun] using hc
      · rename_i r
        simp only [Config.step, hrun] at hcond ⊢
        refine ⟨hc.inv, ?_, ?_⟩
        · intro v k' q hv
          by_cases hvt : v = t
          · simp [hvt] at hv
          · simp only [Function.update_of_ne hvt] at hv
            exact hc.safe v k' q hv
        · intro v k' r' hmem
          rcases List.mem_cons.mp hmem with heq | hmem
          · obtain ⟨rfl, rfl, rfl⟩ : v = t ∧ k' = k ∧ r' = r := by simpa using heq
            exact ⟨c.shared, hc.inv, hc.safe _ _ _ hrun _ hc.inv .refl⟩
          · exact hc.served v k' r' hmem
      · by_cases he : e c.shared
        · simp only [Config.step, hrun, he, if_true] at hcond ⊢
          obtain ⟨hguar, hrest⟩ := hc.safe t k _ hrun _ hc.inv .refl he hcond
          have hinv := C.guar_inv hc.inv hguar
          refine ⟨hinv, safe_update hrest fun v k' q hvt hv ↦ ?_, hc.served⟩
          refine (hc.safe v k' q hv).later (.single ⟨hc.inv, hinv, ?_⟩)
          exact C.guar_rely (Ne.symm hvt) hc.inv hguar
        · simpa [Config.step, hrun, he] using hc

/-- Only the handlers of the calls in the schedule have to be safe. -/
theorem Sound.run {xs : List (Choice τ κ)}
    (hh : ∀ t k, .call t k ∈ xs → C.Triple t C.inv (handler t k) (post t k))
    {c : Config σ τ κ ρ} (hc : Sound C post c)
    (hm : Meets C.cond handler c xs) : Sound C post (c.run handler xs) := by
  induction xs generalizing c with
  | nil => exact hc
  | cons x xs ih =>
      have hx : ∀ t k, x = .call t k → C.Triple t C.inv (handler t k) (post t k) :=
        fun t k hx ↦ hh t k (hx ▸ List.mem_cons_self)
      exact ih (fun t k hk ↦ hh t k (List.mem_cons_of_mem x hk)) (hc.step hx hm.1) hm.2

/-- Each step of a sound pool leaves the shared state alone or keeps the
guarantee of the thread that took it. -/
theorem Sound.step_guar {c : Config σ τ κ ρ} (hc : Sound C post c) (x : Choice τ κ)
    (hcond : C.cond c.shared (c.step handler x).shared) :
    (c.step handler x).shared = c.shared ∨
      ∃ t, C.guar t c.shared (c.step handler x).shared := by
  cases x with
  | call t k => cases hrun : c.running t <;> simp [Config.step, hrun]
  | go t =>
      rcases hrun : c.running t with _ | ⟨k, _ | ⟨e, u, n⟩⟩
      · simp [Config.step, hrun]
      · simp [Config.step, hrun]
      · by_cases he : e c.shared
        · simp only [Config.step, hrun, he, if_true] at hcond ⊢
          exact .inr ⟨t, (hc.safe t k _ hrun _ hc.inv .refl he hcond).1⟩
        · simp [Config.step, hrun, he]

/-- A preorder that every guarantee respects relates the two ends of a run. -/
theorem Sound.run_rel {xs : List (Choice τ κ)}
    (hh : ∀ t k, .call t k ∈ xs → C.Triple t C.inv (handler t k) (post t k))
    {r : σ → σ → Prop} (hrefl : ∀ s, r s s) (htrans : ∀ {a b d}, r a b → r b d → r a d)
    (hguar : ∀ t s s', C.inv s → C.guar t s s' → r s s')
    {c : Config σ τ κ ρ} (hc : Sound C post c)
    (hm : Meets C.cond handler c xs) : r c.shared (c.run handler xs).shared := by
  induction xs generalizing c with
  | nil => exact hrefl _
  | cons x xs ih =>
      have hx : ∀ t k, x = .call t k → C.Triple t C.inv (handler t k) (post t k) :=
        fun t k hx ↦ hh t k (hx ▸ List.mem_cons_self)
      refine htrans ?_ (ih (fun t k hk ↦ hh t k (List.mem_cons_of_mem x hk)) (hc.step hx hm.1) hm.2)
      rcases hc.step_guar x hm.1 with heq | ⟨t, ht⟩
      · rw [heq]
        exact hrefl _
      · exact hguar t _ _ hc.inv ht

end Config

end Interleaving
