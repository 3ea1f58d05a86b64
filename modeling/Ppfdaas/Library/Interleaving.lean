import Mathlib.Data.List.Induction
import Mathlib.Logic.Function.Basic
import Mathlib.Logic.Relation
import Mathlib.Tactic.Basic

/-!
# Interleaved programs over a shared state

A program is the tree of its atomic actions: an action waits until it is
enabled, updates the shared state in one step and continues with a program
chosen from the state it found.  The same tree has two meanings.  `Prog.run`
is the program left alone, `Config.run` a pool of threads whose actions are
interleaved by an arbitrary schedule.
-/

namespace Interleaving

/-- A program over the shared states `σ`, cut into its atomic actions. -/
inductive Prog (σ ρ : Type) where
  | done (result : ρ)
  | act (enabled : σ → Bool) (update : σ → σ) (next : σ → Prog σ ρ)

namespace Prog

variable {σ α β ρ : Type}

def bind : Prog σ α → (α → Prog σ β) → Prog σ β
  | done a, k => k a
  | act e u n, k => act e u fun s ↦ (n s).bind k

instance : Monad (Prog σ) where
  pure := done
  bind := bind

@[simp] theorem pure_eq_done (a : α) : (pure a : Prog σ α) = done a := rfl

@[simp] theorem done_bind (a : α) (k : α → Prog σ β) : (done a >>= k) = k a := rfl

@[simp] theorem act_bind (e : σ → Bool) (u : σ → σ) (n : σ → Prog σ α)
    (k : α → Prog σ β) : (act e u n >>= k) = act e u fun s ↦ n s >>= k := rfl

/-- One step that reads the shared state, changes it and returns a value. -/
def atomically (f : σ → α × σ) : Prog σ α :=
  act (fun _ ↦ true) (fun s ↦ (f s).2) fun s ↦ done (f s).1

def read (f : σ → α) : Prog σ α := atomically fun s ↦ (f s, s)

def modify (f : σ → σ) : Prog σ Unit := atomically fun s ↦ ((), f s)

/-- One step that is taken only in a state where `e` holds. -/
def await (e : σ → Bool) (f : σ → σ) : Prog σ Unit := act e f fun _ ↦ done ()

/-- The program alone: every action finds the state the one before it left.
A wait is taken to be met, so this is the meaning of programs that no other
thread keeps waiting. -/
def run : Prog σ ρ → σ → ρ × σ
  | done r, s => (r, s)
  | act _ u n, s => (n s).run (u s)

@[simp] theorem run_done (r : ρ) (s : σ) : (done r).run s = (r, s) := rfl

@[simp] theorem run_act (e : σ → Bool) (u : σ → σ) (n : σ → Prog σ ρ) (s : σ) :
    (act e u n).run s = (n s).run (u s) := rfl

@[simp] theorem run_atomically (f : σ → α × σ) (s : σ) : (atomically f).run s = f s := rfl

@[simp] theorem run_read (f : σ → α) (s : σ) : (read f).run s = (f s, s) := rfl

@[simp] theorem run_modify (f : σ → σ) (s : σ) : (modify f).run s = ((), f s) := rfl

@[simp] theorem run_await (e : σ → Bool) (f : σ → σ) (s : σ) :
    (await e f).run s = ((), f s) := rfl

@[simp] theorem run_bind (p : Prog σ α) (k : α → Prog σ β) (s : σ) :
    (p >>= k).run s = (k (p.run s).1).run (p.run s).2 := by
  induction p generalizing s with
  | done a => rfl
  | act e u n ih => exact ih s (u s)

/-- Sequencing programs that may throw: an error skips the rest. -/
theorem run_except_bind {ε : Type} (x : ExceptT ε (Prog σ) α)
    (f : α → ExceptT ε (Prog σ) β) (s : σ) :
    Prog.run (x >>= f).run s =
      match Prog.run x.run s with
      | (.ok a, s') => Prog.run (f a).run s'
      | (.error e, s') => (.error e, s') := by
  simp only [ExceptT.run_bind, run_bind]
  rcases Prog.run x.run s with ⟨_ | a, s'⟩ <;> rfl

end Prog

/-- A pool of threads over one shared state.  A running thread keeps the call
it serves and the rest of its program; `served` lists the answered calls. -/
structure Config (σ τ κ ρ : Type) where
  shared : σ
  running : τ → Option (κ × Prog σ ρ)
  served : List (τ × κ × ρ)

inductive Choice (τ κ : Type) where
  | call (thread : τ) (request : κ)
  | go (thread : τ)

namespace Config

variable {σ τ κ ρ : Type} [DecidableEq τ]

def idle (s : σ) : Config σ τ κ ρ := ⟨s, fun _ ↦ none, []⟩

/-- One scheduling choice.  A choice that is not possible (a call on a busy
thread, a turn of an idle or waiting one) changes nothing. -/
def step (handler : τ → κ → Prog σ ρ) (c : Config σ τ κ ρ) : Choice τ κ → Config σ τ κ ρ
  | .call t k =>
      match c.running t with
      | none => { c with running := Function.update c.running t (some (k, handler t k)) }
      | some _ => c
  | .go t =>
      match c.running t with
      | none => c
      | some (k, .done r) =>
          { c with
            running := Function.update c.running t none
            served := (t, k, r) :: c.served }
      | some (k, .act e u n) =>
          if e c.shared then
            { c with
              shared := u c.shared
              running := Function.update c.running t (some (k, n c.shared)) }
          else c

def run (handler : τ → κ → Prog σ ρ) (c : Config σ τ κ ρ) (schedule : List (Choice τ κ)) :
    Config σ τ κ ρ :=
  schedule.foldl (step handler) c

/-- Every step of the schedule relates the shared states before and after it
by `cond`. -/
def Meets (cond : σ → σ → Prop) (handler : τ → κ → Prog σ ρ) :
    Config σ τ κ ρ → List (Choice τ κ) → Prop
  | _, [] => True
  | c, x :: xs =>
      cond c.shared (step handler c x).shared ∧ Meets cond handler (step handler c x) xs

instance decidableMeets (cond : σ → σ → Prop) [∀ s s', Decidable (cond s s')]
    (handler : τ → κ → Prog σ ρ) : (c : Config σ τ κ ρ) → (schedule : List (Choice τ κ)) →
      Decidable (Meets cond handler c schedule)
  | _, [] => .isTrue trivial
  | c, x :: xs =>
      have : Decidable (Meets cond handler (step handler c x) xs) :=
        decidableMeets cond handler (step handler c x) xs
      inferInstanceAs (Decidable (cond c.shared (step handler c x).shared ∧
        Meets cond handler (step handler c x) xs))

@[simp] theorem run_nil (handler : τ → κ → Prog σ ρ) (c : Config σ τ κ ρ) :
    run handler c [] = c := rfl

@[simp] theorem run_cons (handler : τ → κ → Prog σ ρ) (c : Config σ τ κ ρ)
    (x : Choice τ κ) (xs : List (Choice τ κ)) :
    run handler c (x :: xs) = run handler (step handler c x) xs := rfl

theorem run_append (handler : τ → κ → Prog σ ρ) (c : Config σ τ κ ρ)
    (xs ys : List (Choice τ κ)) :
    run handler c (xs ++ ys) = run handler (run handler c xs) ys :=
  List.foldl_append

theorem meets_append {cond : σ → σ → Prop} {handler : τ → κ → Prog σ ρ}
    {c : Config σ τ κ ρ} {xs ys : List (Choice τ κ)} :
    Meets cond handler c (xs ++ ys) ↔
      Meets cond handler c xs ∧ Meets cond handler (run handler c xs) ys := by
  induction xs generalizing c with
  | nil => simp [Meets]
  | cons x xs ih => simp [Meets, ih, and_assoc]

theorem meets_true (handler : τ → κ → Prog σ ρ) (c : Config σ τ κ ρ)
    (xs : List (Choice τ κ)) : Meets (fun _ _ ↦ True) handler c xs := by
  induction xs generalizing c with
  | nil => trivial
  | cons x xs ih => exact ⟨trivial, ih _⟩

/-- Only calls that were made are running or answered. -/
theorem called_of_run (handler : τ → κ → Prog σ ρ) (s : σ) (xs : List (Choice τ κ)) :
    (∀ t k p, ((idle s).run handler xs).running t = some (k, p) → .call t k ∈ xs) ∧
      ∀ t k r, (t, k, r) ∈ ((idle s).run handler xs).served → .call t k ∈ xs := by
  induction xs using List.reverseRecOn with
  | nil => simp [idle]
  | append_singleton xs x ih =>
      obtain ⟨hrunning, hserved⟩ := ih
      rw [run_append, run_cons, run_nil]
      generalize (idle s).run handler xs = c at hrunning hserved
      have hold : ∀ t k p, c.running t = some (k, p) → .call t k ∈ xs ++ [x] :=
        fun t k p h ↦ List.mem_append_left _ (hrunning t k p h)
      have hanswered : ∀ t k r, (t, k, r) ∈ c.served → .call t k ∈ xs ++ [x] :=
        fun t k r h ↦ List.mem_append_left _ (hserved t k r h)
      -- A thread goes on with the call it had, or has just been given one.
      have hupdate : ∀ t k p, .call t k ∈ xs ++ [x] → ∀ u k' q,
          Function.update c.running t (some (k, p)) u = some (k', q) →
          .call u k' ∈ xs ++ [x] := by
        intro t k p hcall u k' q h
        by_cases hut : u = t
        · subst hut
          simp only [Function.update_self, Option.some.injEq, Prod.mk.injEq] at h
          exact h.1 ▸ hcall
        · rw [Function.update_of_ne hut] at h
          exact hold u k' q h
      cases x with
      | call t k =>
          cases hrun : c.running t with
          | some p =>
              simp only [step, hrun]
              exact ⟨hold, hanswered⟩
          | none =>
              simp only [step, hrun]
              exact ⟨hupdate t k _ (by simp), hanswered⟩
      | go t =>
          rcases hrun : c.running t with _ | ⟨k, _ | ⟨e, u, n⟩⟩
          · simp only [step, hrun]
            exact ⟨hold, hanswered⟩
          · rename_i r
            simp only [step, hrun]
            refine ⟨fun v k' q h ↦ ?_, fun v k' r' h ↦ ?_⟩
            · by_cases hvt : v = t
              · simp [hvt] at h
              · rw [Function.update_of_ne hvt] at h
                exact hold v k' q h
            · rcases List.mem_cons.mp h with heq | h
              · obtain ⟨rfl, rfl, rfl⟩ : v = t ∧ k' = k ∧ r' = r := by simpa using heq
                exact hold _ _ _ hrun
              · exact hanswered v k' r' h
          · by_cases he : e c.shared
            · simp only [step, hrun, he, if_true]
              exact ⟨hupdate t k _ (hold t k _ hrun), hanswered⟩
            · simp only [step, hrun, if_neg he]
              exact ⟨hold, hanswered⟩

end Config

end Interleaving
