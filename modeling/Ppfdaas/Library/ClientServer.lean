import Mathlib.Data.List.Basic
import Mathlib.Logic.Function.Basic
import Ppfdaas.Library.Dialogue

/-!
# Callers of one server over an asynchronous network

Every caller runs a dialogue.  Its request and the answer are in flight for as
long as the schedule likes, a caller may give up on a call, and a request whose
caller gave up may still arrive.  `Discipline` is a proof rule for what holds
in every state of every run: facts about messages, answers and dialogues that
the server's steps preserve.
-/

namespace ClientServer

/-- A server with states `σ`.  `χ` is what a step takes beside the message, `ε`
are the calls from elsewhere, `timeout` stands for the answer that never came. -/
structure Service (σ μ α χ ε : Type) where
  serve : χ → μ → σ → α × σ
  elsewhere : ε → σ → σ
  timeout : α

inductive Caller (μ α ρ : Type) where
  | waiting (m : μ) (next : α → Dialogue μ α ρ)
  | answered (m : μ) (a : α) (next : α → Dialogue μ α ρ)
  | finished (r : ρ)

def Caller.of {μ α ρ : Type} : Dialogue μ α ρ → Caller μ α ρ
  | .done r => .finished r
  | .call m next => .waiting m next

/-- The server, the callers, and the requests whose callers gave up. -/
structure Net (σ ι μ α ρ : Type) where
  server : σ
  callers : ι → Caller μ α ρ
  late : List (ι × μ)

inductive Choice (ι χ ε : Type) where
  | deliver (i : ι) (x : χ)
  | receive (i : ι)
  | giveUp (i : ι)
  | deliverLate (n : ℕ) (x : χ)
  | elsewhere (y : ε)

variable {σ ι μ α ρ χ ε : Type}

def Net.start (s : σ) (dialogues : ι → Dialogue μ α ρ) : Net σ ι μ α ρ :=
  ⟨s, fun i ↦ .of (dialogues i), []⟩

/-- The message that a choice hands to the server, with its caller. -/
def Net.handled (net : Net σ ι μ α ρ) : Choice ι χ ε → Option (ι × μ)
  | .deliver i _ =>
      match net.callers i with
      | .waiting m _ => some (i, m)
      | _ => none
  | .deliverLate n _ => net.late[n]?
  | _ => none

section Run

variable [DecidableEq ι] (S : Service σ μ α χ ε)

/-- One step; a choice that is not possible changes nothing. -/
def Net.step (net : Net σ ι μ α ρ) : Choice ι χ ε → Net σ ι μ α ρ
  | .deliver i x =>
      match net.callers i with
      | .waiting m next =>
          let (a, s) := S.serve x m net.server
          { net with server := s, callers := Function.update net.callers i (.answered m a next) }
      | _ => net
  | .receive i =>
      match net.callers i with
      | .answered _ a next => { net with callers := Function.update net.callers i (.of (next a)) }
      | _ => net
  | .giveUp i =>
      match net.callers i with
      | .waiting m next =>
          { net with
            callers := Function.update net.callers i (.of (next S.timeout))
            late := (i, m) :: net.late }
      | .answered _ _ next =>
          { net with callers := Function.update net.callers i (.of (next S.timeout)) }
      | .finished _ => net
  | .deliverLate n x =>
      match net.late[n]? with
      | some (_, m) =>
          { net with server := (S.serve x m net.server).2, late := net.late.eraseIdx n }
      | none => net
  | .elsewhere y => { net with server := S.elsewhere y net.server }

def Net.run (net : Net σ ι μ α ρ) (choices : List (Choice ι χ ε)) : Net σ ι μ α ρ :=
  choices.foldl (Net.step S) net

theorem Net.run_append (net : Net σ ι μ α ρ) (first rest : List (Choice ι χ ε)) :
    net.run S (first ++ rest) = (net.run S first).run S rest :=
  List.foldl_append

/-- Every message that a run hands to the server meets a condition there. -/
def Net.Meets (cond : σ → ι → μ → Prop) (net : Net σ ι μ α ρ) : List (Choice ι χ ε) → Prop
  | [] => True
  | c :: choices =>
      (∀ p ∈ net.handled c, cond net.server p.1 p.2) ∧ Meets cond (net.step S c) choices

instance decidableMeets (cond : σ → ι → μ → Prop) [∀ s i m, Decidable (cond s i m)] :
    (net : Net σ ι μ α ρ) → (choices : List (Choice ι χ ε)) → Decidable (net.Meets S cond choices)
  | _, [] => .isTrue trivial
  | net, c :: choices =>
      have : Decidable ((net.step S c).Meets S cond choices) :=
        decidableMeets cond (net.step S c) choices
      inferInstanceAs (Decidable ((∀ p ∈ net.handled c, cond net.server p.1 p.2) ∧
        (net.step S c).Meets S cond choices))

/-- A message that arrives at once, with its answer. -/
theorem Net.exchange (x : χ) {net : Net σ ι μ α ρ} {i : ι} {m : μ} {next : α → Dialogue μ α ρ}
    (h : net.callers i = .waiting m next) :
    (net.run S [.deliver i x, .receive i]).server = (S.serve x m net.server).2 ∧
      (net.run S [.deliver i x, .receive i]).callers i =
        .of (next (S.serve x m net.server).1) ∧
      ∀ j ≠ i, (net.run S [.deliver i x, .receive i]).callers j = net.callers j := by
  refine ⟨?_, ?_, fun j hj ↦ ?_⟩
  · simp only [Net.run, List.foldl_cons, List.foldl_nil, Net.step, h, Function.update_self]
  · simp only [Net.run, List.foldl_cons, List.foldl_nil, Net.step, h, Function.update_self]
  · simp only [Net.run, List.foldl_cons, List.foldl_nil, Net.step, h, Function.update_self,
      Function.update_of_ne hj]

end Run

/-! ## The proof rule -/

/-- What is kept true of messages in flight, of answers in flight and of the
rest of a dialogue, with the steps of the server that keep it: of messages that
meet `cond`, and of calls from elsewhere that meet `outside`. -/
structure Discipline (ι ρ : Type) (S : Service σ μ α χ ε) (cond : σ → ι → μ → Prop)
    (outside : ε → Prop) where
  inv : σ → Prop
  message : σ → ι → μ → Prop
  answer : σ → ι → μ → α → Prop
  dialogue : σ → ι → Dialogue μ α ρ → Prop
  stepped : σ → σ → Prop
  inv_serve : ∀ {s i m} (x : χ), inv s → message s i m → cond s i m → inv (S.serve x m s).2
  inv_elsewhere : ∀ {s y}, inv s → outside y → inv (S.elsewhere y s)
  stepped_serve : ∀ {s} {m : μ} (x : χ), stepped s (S.serve x m s).2
  stepped_elsewhere : ∀ {s} (y : ε), stepped s (S.elsewhere y s)
  message_stable : ∀ {s s' i m}, stepped s s' → message s i m → message s' i m
  answer_stable : ∀ {s s' i m a}, stepped s s' → answer s i m a → answer s' i m a
  dialogue_stable : ∀ {s s' i d}, stepped s s' → dialogue s i d → dialogue s' i d
  message_call : ∀ {s i m next}, dialogue s i (.call m next) → message s i m
  answer_serve : ∀ {s i m} (x : χ), inv s → message s i m → cond s i m →
    answer (S.serve x m s).2 i m (S.serve x m s).1
  answer_timeout : ∀ {s i m}, answer s i m S.timeout
  dialogue_next : ∀ {s i m next a}, dialogue s i (.call m next) → answer s i m a →
    dialogue s i (next a)

namespace Discipline

variable {S : Service σ μ α χ ε} {cond : σ → ι → μ → Prop} {outside : ε → Prop}
  (D : Discipline ι ρ S cond outside)

def CallerOk (s : σ) (i : ι) : Caller μ α ρ → Prop
  | .waiting m next => D.dialogue s i (.call m next)
  | .answered m a next => D.dialogue s i (.call m next) ∧ D.answer s i m a
  | .finished r => D.dialogue s i (.done r)

structure NetOk (net : Net σ ι μ α ρ) : Prop where
  inv : D.inv net.server
  callers : ∀ i, D.CallerOk net.server i (net.callers i)
  late : ∀ p ∈ net.late, D.message net.server p.1 p.2

theorem callerOk_of {s : σ} {i : ι} {d : Dialogue μ α ρ} (h : D.dialogue s i d) :
    D.CallerOk s i (.of d) := by
  cases d with
  | done r => exact h
  | call m next => exact h

theorem callerOk_stable {s s' : σ} {i : ι} {c : Caller μ α ρ} (hstep : D.stepped s s')
    (h : D.CallerOk s i c) : D.CallerOk s' i c := by
  cases c with
  | waiting m next => exact D.dialogue_stable hstep h
  | answered m a next => exact ⟨D.dialogue_stable hstep h.1, D.answer_stable hstep h.2⟩
  | finished r => exact D.dialogue_stable hstep h

theorem netOk_start {s : σ} {dialogues : ι → Dialogue μ α ρ} (hinv : D.inv s)
    (h : ∀ i, D.dialogue s i (dialogues i)) : D.NetOk (.start s dialogues) :=
  ⟨hinv, fun i ↦ D.callerOk_of (h i), fun _ hp ↦ absurd hp List.not_mem_nil⟩

variable [DecidableEq ι]

theorem callers_update {s : σ} {callers : ι → Caller μ α ρ} {i : ι} {c : Caller μ α ρ}
    (h : ∀ j, D.CallerOk s j (callers j)) (hc : D.CallerOk s i c) (j : ι) :
    D.CallerOk s j (Function.update callers i c j) := by
  rcases eq_or_ne j i with rfl | hne
  · rwa [Function.update_self]
  · rw [Function.update_of_ne hne]
    exact h j

theorem netOk_step {net : Net σ ι μ α ρ} (h : D.NetOk net) (c : Choice ι χ ε)
    (hcond : ∀ p ∈ net.handled c, cond net.server p.1 p.2)
    (houtside : ∀ y, c = .elsewhere y → outside y) : D.NetOk (net.step S c) := by
  cases c with
  | deliver i x =>
      cases hcaller : net.callers i with
      | waiting m next =>
          have hdialogue : D.dialogue net.server i (.call m next) := by
            simpa [CallerOk, hcaller] using h.callers i
          have hmessage := D.message_call hdialogue
          have hmeets : cond net.server i m := hcond (i, m) (by simp [Net.handled, hcaller])
          have hanswer := D.answer_serve x h.inv hmessage hmeets
          have hstep : D.stepped net.server (S.serve x m net.server).2 := D.stepped_serve x
          simp only [Net.step, hcaller]
          refine ⟨D.inv_serve x h.inv hmessage hmeets, ?_,
            fun p hp ↦ D.message_stable hstep (h.late p hp)⟩
          apply D.callers_update fun j ↦ D.callerOk_stable hstep (h.callers j)
          exact ⟨D.dialogue_stable hstep hdialogue, hanswer⟩
      | answered m a next => simpa only [Net.step, hcaller] using h
      | finished r => simpa only [Net.step, hcaller] using h
  | receive i =>
      cases hcaller : net.callers i with
      | waiting m next => simpa only [Net.step, hcaller] using h
      | answered m a next =>
          have hok : D.CallerOk net.server i (.answered m a next) := hcaller ▸ h.callers i
          simp only [Net.step, hcaller]
          exact ⟨h.inv, D.callers_update h.callers (D.callerOk_of (D.dialogue_next hok.1 hok.2)),
            h.late⟩
      | finished r => simpa only [Net.step, hcaller] using h
  | giveUp i =>
      cases hcaller : net.callers i with
      | waiting m next =>
          have hok : D.CallerOk net.server i (.waiting m next) := hcaller ▸ h.callers i
          have hnext := D.callerOk_of (D.dialogue_next hok (a := S.timeout) D.answer_timeout)
          simp only [Net.step, hcaller]
          refine ⟨h.inv, D.callers_update h.callers hnext, fun p hp ↦ ?_⟩
          rcases List.mem_cons.mp hp with rfl | hp
          · exact D.message_call hok
          · exact h.late p hp
      | answered m a next =>
          have hok : D.CallerOk net.server i (.answered m a next) := hcaller ▸ h.callers i
          have hnext := D.callerOk_of (D.dialogue_next hok.1 (a := S.timeout) D.answer_timeout)
          simp only [Net.step, hcaller]
          exact ⟨h.inv, D.callers_update h.callers hnext, h.late⟩
      | finished r => simpa only [Net.step, hcaller] using h
  | deliverLate n x =>
      cases hlate : net.late[n]? with
      | none => simpa only [Net.step, hlate] using h
      | some p =>
          have hmessage := h.late p (List.mem_of_getElem? hlate)
          have hstep : D.stepped net.server (S.serve x p.2 net.server).2 := D.stepped_serve x
          simp only [Net.step, hlate]
          exact ⟨D.inv_serve x h.inv hmessage (hcond p (Option.mem_def.mpr hlate)),
            fun j ↦ D.callerOk_stable hstep (h.callers j),
            fun q hq ↦ D.message_stable hstep (h.late q (List.mem_of_mem_eraseIdx hq))⟩
  | elsewhere y =>
      have hstep : D.stepped net.server (S.elsewhere y net.server) := D.stepped_elsewhere y
      exact ⟨D.inv_elsewhere h.inv (houtside y rfl), fun j ↦ D.callerOk_stable hstep (h.callers j),
        fun p hp ↦ D.message_stable hstep (h.late p hp)⟩

theorem netOk_run {net : Net σ ι μ α ρ} (h : D.NetOk net) (choices : List (Choice ι χ ε))
    (hmeets : net.Meets S cond choices) (houtside : ∀ y, .elsewhere y ∈ choices → outside y) :
    D.NetOk (net.run S choices) := by
  induction choices generalizing net with
  | nil => exact h
  | cons c choices ih =>
      have hstep := D.netOk_step h c hmeets.1 fun y hc ↦ houtside y (hc ▸ List.mem_cons_self)
      exact ih hstep hmeets.2 fun y hy ↦ houtside y (List.mem_cons_of_mem c hy)

end Discipline

section Follows

variable [DecidableEq ι] {S : Service σ μ α χ ε} {s : σ} {dialogues : ι → Dialogue μ α ρ}
  {P : ι → ρ → Prop}

end Follows

end ClientServer
