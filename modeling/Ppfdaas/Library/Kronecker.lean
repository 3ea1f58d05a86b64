import Mathlib.Algebra.BigOperators.Intervals
import Mathlib.Data.Nat.Digits.Defs
import Mathlib.Tactic

/-!
# Kronecker substitution

Coefficient lists packed into the digits of a number: one product of numbers is
the product of the polynomials, as long as no coefficient reaches the base.
-/

namespace Kronecker

variable (B : ℕ)

/-- Coefficient `s` of the product of two polynomials. -/
def convolve (a b : List ℕ) (s : ℕ) : ℕ :=
  ∑ j ∈ Finset.range b.length, if j ≤ s then a.getD (s - j) 0 * b.getD j 0 else 0

theorem ofDigits_eq_sum {l : List ℕ} {n : ℕ} (h : l.length ≤ n) :
    Nat.ofDigits B l = ∑ i ∈ Finset.range n, l.getD i 0 * B ^ i := by
  induction l generalizing n with
  | nil => simp
  | cons x l ih =>
      cases n with
      | zero => exact absurd h (Nat.not_succ_le_zero _)
      | succ n =>
          rw [Nat.ofDigits_cons, ih (Nat.le_of_succ_le_succ h), Finset.sum_range_succ',
            Finset.mul_sum, List.getD_cons_zero, pow_zero, mul_one, add_comm]
          refine congrArg₂ _ (Finset.sum_congr rfl fun i _ ↦ ?_) rfl
          rw [List.getD_cons_succ, pow_succ]
          ring

theorem convolve_cons_zero (a : List ℕ) (y : ℕ) (b : List ℕ) :
    convolve a (y :: b) 0 = a.getD 0 0 * y := by
  simp [convolve]

theorem convolve_cons_succ (a : List ℕ) (y : ℕ) (b : List ℕ) (s : ℕ) :
    convolve a (y :: b) (s + 1) = a.getD (s + 1) 0 * y + convolve a b s := by
  rw [convolve, List.length_cons, Finset.sum_range_succ', add_comm, convolve]
  simp

/-- The product of the packed numbers holds the coefficients of the product. -/
theorem ofDigits_mul (a b : List ℕ) :
    Nat.ofDigits B a * Nat.ofDigits B b =
      ∑ s ∈ Finset.range (a.length + b.length), convolve a b s * B ^ s := by
  induction b with
  | nil => simp [convolve]
  | cons y b ih =>
      have hrest : ∑ s ∈ Finset.range (a.length + b.length), convolve a b s * B ^ (s + 1) =
          B * (Nat.ofDigits B a * Nat.ofDigits B b) := by
        rw [ih, Finset.mul_sum]
        exact Finset.sum_congr rfl fun s _ ↦ by ring
      have hhead : ∑ s ∈ Finset.range (a.length + b.length + 1), a.getD s 0 * y * B ^ s =
          y * Nat.ofDigits B a := by
        rw [ofDigits_eq_sum B (show a.length ≤ a.length + b.length + 1 by omega), Finset.mul_sum]
        exact Finset.sum_congr rfl fun s _ ↦ by ring
      calc Nat.ofDigits B a * Nat.ofDigits B (y :: b)
          = y * Nat.ofDigits B a + B * (Nat.ofDigits B a * Nat.ofDigits B b) := by
            rw [Nat.ofDigits_cons]
            ring
        _ = ∑ s ∈ Finset.range (a.length + b.length + 1), convolve a (y :: b) s * B ^ s := by
            rw [← hhead, ← hrest, Finset.sum_range_succ', Finset.sum_range_succ' (fun s ↦
              convolve a (y :: b) s * B ^ s), convolve_cons_zero, add_right_comm,
              ← Finset.sum_add_distrib]
            refine congrArg₂ _ (Finset.sum_congr rfl fun s _ ↦ ?_) rfl
            rw [convolve_cons_succ, add_mul]

/-- A number whose digits are given has them. -/
theorem sum_div_pow_mod {n s : ℕ} {v : ℕ → ℕ} (hv : ∀ i, v i < B) (hs : s < n) :
    (∑ i ∈ Finset.range n, v i * B ^ i) / B ^ s % B = v s := by
  have hpos : 0 < B := (Nat.zero_le _).trans_lt (hv 0)
  induction s generalizing n v with
  | zero =>
      cases n with
      | zero => exact absurd hs (lt_irrefl 0)
      | succ n =>
          have htail : B ∣ ∑ i ∈ Finset.range n, v (i + 1) * B ^ (i + 1) :=
            Finset.dvd_sum fun i _ ↦ Dvd.dvd.mul_left (dvd_pow_self B i.succ_ne_zero) _
          obtain ⟨q, hq⟩ := htail
          rw [Finset.sum_range_succ', hq, pow_zero, Nat.div_one, mul_one, Nat.mul_add_mod,
            Nat.mod_eq_of_lt (hv 0)]
  | succ s ih =>
      cases n with
      | zero => exact absurd hs (Nat.not_lt_zero _)
      | succ n =>
          have hsplit : ∑ i ∈ Finset.range (n + 1), v i * B ^ i =
              B * ∑ i ∈ Finset.range n, v (i + 1) * B ^ i + v 0 := by
            rw [Finset.sum_range_succ', Finset.mul_sum, pow_zero, mul_one]
            exact congrArg₂ _ (Finset.sum_congr rfl fun i _ ↦ by ring) rfl
          rw [hsplit, pow_succ', ← Nat.div_div_eq_div_mul, Nat.mul_add_div hpos,
            Nat.div_eq_of_lt (hv 0), add_zero]
          exact ih (fun i ↦ hv (i + 1)) (Nat.lt_of_succ_lt_succ hs)

/-- Where no coefficient reaches the base, cutting the product gives them back. -/
theorem mul_div_pow_mod {a b : List ℕ} (h : ∀ s, convolve a b s < B) {s : ℕ}
    (hs : s < a.length + b.length) :
    Nat.ofDigits B a * Nat.ofDigits B b / B ^ s % B = convolve a b s := by
  rw [ofDigits_mul]
  exact sum_div_pow_mod B h hs

/-- Short factors with bounded entries have bounded coefficients. -/
theorem convolve_le {a b : List ℕ} {α β : ℕ} (ha : ∀ i, a.getD i 0 ≤ α)
    (hb : ∀ j, b.getD j 0 ≤ β) (s : ℕ) : convolve a b s ≤ b.length * (α * β) := by
  rw [convolve]
  refine (Finset.sum_le_card_nsmul _ _ (α * β) fun j _ ↦ ?_).trans_eq
    (by rw [Finset.card_range, smul_eq_mul])
  split_ifs
  · exact Nat.mul_le_mul (ha _) (hb _)
  · exact Nat.zero_le _

end Kronecker
