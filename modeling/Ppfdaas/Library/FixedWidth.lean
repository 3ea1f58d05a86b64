import Mathlib.Data.List.Basic
import Mathlib.Tactic

/-!
# Fixed-width codes

A list is written symbol by symbol with a code whose words all have one
positive length, as records and machine words are.
-/

namespace FixedWidth

variable {α β : Type*} {code : α → List β} {width : ℕ}

theorem take_flatMap (hwidth : ∀ a, (code a).length = width) (l : List α) (m : ℕ) :
    (l.flatMap code).take (width * m) = (l.take m).flatMap code := by
  induction l generalizing m with
  | nil => simp
  | cons a l ih =>
      cases m with
      | zero => simp
      | succ m =>
          have hsplit : width * (m + 1) - width = width * m := by
            rw [Nat.mul_succ, Nat.add_sub_cancel]
          have hhead : (code a).take (width * (m + 1)) = code a := by
            apply List.take_of_length_le
            rw [hwidth a]
            exact Nat.le_mul_of_pos_right width m.succ_pos
          rw [List.flatMap_cons, List.take_succ_cons, List.flatMap_cons, List.take_append,
            hhead, hwidth a, hsplit, ih m]

theorem length_flatMap (hwidth : ∀ a, (code a).length = width) (l : List α) :
    (l.flatMap code).length = width * l.length := by
  induction l with
  | nil => simp
  | cons a l ih =>
      rw [List.flatMap_cons, List.length_append, hwidth a, ih, List.length_cons]
      ring

theorem drop_flatMap (hwidth : ∀ a, (code a).length = width) (l : List α) (m : ℕ) :
    (l.flatMap code).drop (width * m) = (l.drop m).flatMap code := by
  induction l generalizing m with
  | nil => simp
  | cons a l ih =>
      cases m with
      | zero => simp
      | succ m =>
          have hsplit : width * (m + 1) - width = width * m := by
            rw [Nat.mul_succ, Nat.add_sub_cancel]
          have hhead : (code a).drop (width * (m + 1)) = [] := by
            apply List.drop_of_length_le
            rw [hwidth a]
            exact Nat.le_mul_of_pos_right width m.succ_pos
          rw [List.flatMap_cons, List.drop_succ_cons, List.drop_append, hhead, hwidth a, hsplit,
            ih m, List.nil_append]

theorem getElem?_flatMap (hwidth : ∀ a, (code a).length = width) (hpos : 0 < width) (l : List α)
    (j : ℕ) : (l.flatMap code)[j]? = l[j / width]?.bind fun a ↦ (code a)[j % width]? := by
  induction l generalizing j with
  | nil => simp
  | cons a l ih =>
      rw [List.flatMap_cons]
      by_cases hj : j < width
      · rw [List.getElem?_append_left (by rwa [hwidth]), Nat.div_eq_of_lt hj, Nat.mod_eq_of_lt hj]
        rfl
      · have hle : width ≤ j := Nat.le_of_not_lt hj
        rw [List.getElem?_append_right (by rwa [hwidth]), hwidth, ih, Nat.div_eq_sub_div hpos hle,
          List.getElem?_cons_succ, Nat.mod_eq_sub_mod hle]

/-- A code that is injective on the symbols that occur is injective on the
lists of them. -/
theorem flatMap_inj (hwidth : ∀ a, (code a).length = width) (hpos : 0 < width)
    {p : α → Prop} (hcode : ∀ a b, p a → p b → code a = code b → a = b) {l l' : List α}
    (hl : ∀ a ∈ l, p a) (hl' : ∀ a ∈ l', p a) (h : l.flatMap code = l'.flatMap code) :
    l = l' := by
  induction l generalizing l' with
  | nil =>
      have hlength := length_flatMap hwidth l'
      rw [← h] at hlength
      have hzero : l'.length = 0 := by
        rcases Nat.mul_eq_zero.mp hlength.symm with hw | hz
        · omega
        · exact hz
      exact (List.length_eq_zero_iff.mp hzero).symm
  | cons a l ih =>
      cases l' with
      | nil =>
          have hlength := length_flatMap hwidth (a :: l)
          rw [h] at hlength
          have hne : width * (a :: l).length ≠ 0 := by
            simp only [List.length_cons]
            positivity
          exact absurd hlength.symm hne
      | cons b l' =>
          rw [List.flatMap_cons, List.flatMap_cons] at h
          obtain ⟨hhead, htail⟩ := List.append_inj h ((hwidth a).trans (hwidth b).symm)
          have hab : a = b := hcode a b (hl a (by simp)) (hl' b (by simp)) hhead
          have hll : l = l' := ih (fun x hx ↦ hl x (by simp [hx]))
            (fun x hx ↦ hl' x (by simp [hx])) htail
          rw [hab, hll]

end FixedWidth
