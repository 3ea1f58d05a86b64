import Mathlib.Tactic.Basic

/-!
# Dialogues with a remote party

A caller is the tree of its calls: it waits for the answer to a message and
continues with what the answer selects.  Left with a party that answers by a
function it is a value (`run`); among other callers it is driven answer by
answer.
-/

/-- A caller that sends messages `μ` and waits for answers `α` until it ends
with a result. -/
inductive Dialogue (μ α ρ : Type) where
  | done (result : ρ)
  | call (message : μ) (next : α → Dialogue μ α ρ)

namespace Dialogue

variable {μ α ρ ρ' : Type}

def bind : Dialogue μ α ρ → (ρ → Dialogue μ α ρ') → Dialogue μ α ρ'
  | done r, k => k r
  | call m next, k => call m fun a ↦ (next a).bind k

@[simp] theorem done_bind (r : ρ) (k : ρ → Dialogue μ α ρ') : (done r).bind k = k r := rfl

@[simp] theorem call_bind (m : μ) (next : α → Dialogue μ α ρ) (k : ρ → Dialogue μ α ρ') :
    (call m next).bind k = call m fun a ↦ (next a).bind k := rfl

/-- The result with a party that answers each message by a function. -/
def run (answer : μ → α) : Dialogue μ α ρ → ρ
  | done r => r
  | call m next => (next (answer m)).run answer

/-- Whatever the answers are, the result satisfies `P`. -/
def Ends (P : ρ → Prop) : Dialogue μ α ρ → Prop
  | done r => P r
  | call _ next => ∀ a, (next a).Ends P

theorem Ends.bind {P : ρ → Prop} {Q : ρ' → Prop} {d : Dialogue μ α ρ} {k : ρ → Dialogue μ α ρ'}
    (h : d.Ends P) (hk : ∀ r, P r → (k r).Ends Q) : (d.bind k).Ends Q := by
  induction d with
  | done r => exact hk r h
  | call m next ih => exact fun a ↦ ih a (h a)

/-- As long as the answers are allowed, only messages of one kind are sent, and
the result satisfies `P`. -/
def Follows (sent : μ → Prop) (allowed : μ → α → Prop) (P : ρ → Prop) : Dialogue μ α ρ → Prop
  | done r => P r
  | call m next => sent m ∧ ∀ a, allowed m a → (next a).Follows sent allowed P

theorem Follows.bind {sent : μ → Prop} {allowed : μ → α → Prop} {P : ρ → Prop} {Q : ρ' → Prop}
    {d : Dialogue μ α ρ} {k : ρ → Dialogue μ α ρ'} (h : d.Follows sent allowed P)
    (hk : ∀ r, P r → (k r).Follows sent allowed Q) : (d.bind k).Follows sent allowed Q := by
  induction d with
  | done r => exact hk r h
  | call m next ih => exact ⟨h.1, fun a ha ↦ ih a (h.2 a ha)⟩

theorem Follows.imp {sent sent' : μ → Prop} {allowed : μ → α → Prop} {P Q : ρ → Prop}
    {d : Dialogue μ α ρ} (h : d.Follows sent allowed P) (hsent : ∀ m, sent m → sent' m)
    (hP : ∀ r, P r → Q r) : d.Follows sent' allowed Q := by
  induction d with
  | done r => exact hP r h
  | call m next ih => exact ⟨hsent m h.1, fun a ha ↦ ih a (h.2 a ha)⟩

section Serve

variable {σ : Type} (answer : μ → σ → α × σ)

/-- The result with a party that keeps a state. -/
def serve : Dialogue μ α ρ → σ → ρ × σ
  | done r, s => (r, s)
  | call m next, s => (next (answer m s).1).serve (answer m s).2

@[simp] theorem serve_done (r : ρ) (s : σ) : (done r).serve answer s = (r, s) := rfl

@[simp] theorem serve_call (m : μ) (next : α → Dialogue μ α ρ) (s : σ) :
    (call m next).serve answer s = (next (answer m s).1).serve answer (answer m s).2 := rfl

theorem serve_bind (d : Dialogue μ α ρ) (k : ρ → Dialogue μ α ρ') (s : σ) :
    (d.bind k).serve answer s = (k (d.serve answer s).1).serve answer (d.serve answer s).2 := by
  induction d generalizing s with
  | done r => rfl
  | call m next ih => exact ih _ _

end Serve

end Dialogue
