import Mathlib.Tactic

/-!
# Runs that may raise

What is known of a run in `Except` that returned: each of its steps did.  A loop
keeps an invariant of the passes it has made, and returns when no pass raises.
-/

namespace ExceptRuns

variable {ε α β ι : Type}

theorem bind_ok {x : Except ε α} {f : α → Except ε β} {b : β}
    (h : x.bind f = .ok b) : ∃ a, x = .ok a ∧ f a = .ok b := by
  cases x with
  | error e => cases h
  | ok a => exact ⟨a, rfl, h⟩

theorem map_ok {f : α → β} {x : Except ε α} {b : β} (h : x.map f = .ok b) :
    ∃ a, x = .ok a ∧ f a = b := by
  cases x with
  | error e => cases h
  | ok a => exact ⟨a, rfl, Except.ok.inj h⟩

theorem ite_throw_ok {p : Prop} [Decidable p] {x : Except ε α} {e : ε} {a : α}
    (h : (if p then x else .error e) = .ok a) : p ∧ x = .ok a := by
  by_cases hp : p
  · exact ⟨hp, by rwa [if_pos hp] at h⟩
  · rw [if_neg hp] at h
    cases h

variable {step : α → ι → Except ε α}

/-- `P` speaks of the passes that are done. -/
theorem foldlM_ok_from {P : List ι → α → Prop} {l : List ι}
    (hstep : ∀ done, ∀ i ∈ l, ∀ a a', P done a → step a i = .ok a' → P (done ++ [i]) a')
    {done : List ι} {a a' : α} (ha : P done a) (h : l.foldlM step a = .ok a') :
    P (done ++ l) a' := by
  induction l generalizing done a with
  | nil =>
      obtain rfl := Except.ok.inj h
      simpa using ha
  | cons i l ih =>
      rw [List.foldlM_cons] at h
      obtain ⟨a₁, ha₁, h⟩ := bind_ok h
      have hnext := hstep done i List.mem_cons_self a a₁ ha ha₁
      have hrest := ih (fun done' i' hi' ↦ hstep done' i' (List.mem_cons_of_mem i hi')) hnext h
      simpa using hrest

theorem foldlM_ok {P : List ι → α → Prop} {l : List ι}
    (hstep : ∀ done, ∀ i ∈ l, ∀ a a', P done a → step a i = .ok a' → P (done ++ [i]) a')
    {a a' : α} (ha : P [] a) (h : l.foldlM step a = .ok a') : P l a' :=
  foldlM_ok_from hstep ha h

theorem foldlM_returns {l : List ι} (hstep : ∀ i ∈ l, ∀ a, ∃ a', step a i = .ok a') (a : α) :
    ∃ a', l.foldlM step a = .ok a' := by
  induction l generalizing a with
  | nil => exact ⟨a, rfl⟩
  | cons i l ih =>
      obtain ⟨a₁, ha₁⟩ := hstep i List.mem_cons_self a
      obtain ⟨a', ha'⟩ := ih (fun i' hi' ↦ hstep i' (List.mem_cons_of_mem i hi')) a₁
      refine ⟨a', ?_⟩
      rw [List.foldlM_cons, ha₁]
      exact ha'

theorem mapM_ok {f : α → Except ε β} {l : List α} {l' : List β} (h : l.mapM f = .ok l') :
    l'.length = l.length ∧ ∀ b ∈ l', ∃ a ∈ l, f a = .ok b := by
  induction l generalizing l' with
  | nil =>
      obtain rfl := Except.ok.inj h
      exact ⟨rfl, fun b hb ↦ absurd hb List.not_mem_nil⟩
  | cons a l ih =>
      rw [List.mapM_cons] at h
      obtain ⟨b, hb, h⟩ := bind_ok h
      obtain ⟨rest, hrest, h⟩ := bind_ok h
      obtain rfl := Except.ok.inj h
      obtain ⟨hlength, hmem⟩ := ih hrest
      refine ⟨by simp [hlength], fun b' hb' ↦ ?_⟩
      rcases List.mem_cons.mp hb' with rfl | hb'
      · exact ⟨a, List.mem_cons_self, hb⟩
      · obtain ⟨a', ha', hf⟩ := hmem b' hb'
        exact ⟨a', List.mem_cons_of_mem a ha', hf⟩

theorem mapM_eq_ok {f : α → Except ε β} {g : α → β} {l : List α} (h : ∀ a ∈ l, f a = .ok (g a)) :
    l.mapM f = .ok (l.map g) := by
  induction l with
  | nil => rfl
  | cons a l ih =>
      rw [List.mapM_cons, h a List.mem_cons_self]
      change (l.mapM f).bind _ = _
      rw [ih fun a' ha' ↦ h a' (List.mem_cons_of_mem a ha')]
      rfl

theorem mapM_returns {f : α → Except ε β} {l : List α} (h : ∀ a ∈ l, ∃ b, f a = .ok b) :
    ∃ l', l.mapM f = .ok l' := by
  induction l with
  | nil => exact ⟨[], rfl⟩
  | cons a l ih =>
      obtain ⟨b, hb⟩ := h a List.mem_cons_self
      obtain ⟨rest, hrest⟩ := ih fun a' ha' ↦ h a' (List.mem_cons_of_mem a ha')
      refine ⟨b :: rest, ?_⟩
      rw [List.mapM_cons, hb]
      change (l.mapM f).bind _ = _
      rw [hrest]
      rfl

end ExceptRuns
