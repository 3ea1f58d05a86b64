import Mathlib.Data.List.Range
import Mathlib.Tactic.Common

/-!
# Accepted draws of a stream

A sampler reads a stream of draws from its front, accepts some of them with a
value and drops the others.  What it has returned after `n` draws is determined
by the stream.
-/

namespace DrawStream

variable {D V : Type*}

def taken (draws : ℕ → D) (n : ℕ) : List D := (List.range n).map draws

/-- The values of the draws that are accepted among the first `n`. -/
def kept (accept : D → Option V) (draws : ℕ → D) (n : ℕ) : List V :=
  (taken draws n).filterMap accept

section Taken

variable (draws : ℕ → D)

@[simp] theorem taken_zero : taken draws 0 = [] := rfl

@[simp] theorem length_taken (n : ℕ) : (taken draws n).length = n := by
  simp [taken]

theorem taken_succ (n : ℕ) : taken draws (n + 1) = taken draws n ++ [draws n] := by
  simp [taken, List.range_succ]

theorem taken_succ_front (n : ℕ) :
    taken draws (n + 1) = draws 0 :: taken (fun j ↦ draws (j + 1)) n := by
  simp [taken, List.range_succ_eq_map, Function.comp_def]

theorem getElem?_taken {n j : ℕ} (hj : j < n) : (taken draws n)[j]? = some (draws j) := by
  simp [taken, hj]

end Taken

section Kept

variable {accept : D → Option V} {draws : ℕ → D}

@[simp] theorem kept_zero : kept accept draws 0 = [] := rfl

theorem kept_succ (n : ℕ) :
    kept accept draws (n + 1) = kept accept draws n ++ (accept (draws n)).toList := by
  cases h : accept (draws n) <;> simp [kept, taken_succ, h]

theorem kept_succ_of_some {n : ℕ} {v : V} (h : accept (draws n) = some v) :
    kept accept draws (n + 1) = kept accept draws n ++ [v] := by
  rw [kept_succ, h, Option.toList_some]

theorem kept_succ_of_none {n : ℕ} (h : accept (draws n) = none) :
    kept accept draws (n + 1) = kept accept draws n := by
  rw [kept_succ, h, Option.toList_none, List.append_nil]

variable (accept draws) in
theorem length_kept_succ_le (n : ℕ) :
    (kept accept draws (n + 1)).length ≤ (kept accept draws n).length + 1 := by
  cases h : accept (draws n) <;> simp [kept_succ, h]

variable (accept draws) in
theorem length_kept_add_le (n k : ℕ) :
    (kept accept draws (n + k)).length ≤ (kept accept draws n).length + k := by
  induction k with
  | zero => exact le_rfl
  | succ k ih =>
      have hstep := length_kept_succ_le accept draws (n + k)
      rw [← Nat.add_assoc]
      omega

theorem length_kept_le : ∀ {n k : ℕ}, n ≤ k →
    (kept accept draws n).length ≤ (kept accept draws k).length := by
  intro n k hnk
  induction hnk with
  | refl => exact le_rfl
  | step _ ih =>
      apply ih.trans
      simp [kept_succ]

end Kept

end DrawStream
