import Mathlib.Analysis.SpecificLimits.Basic
import Mathlib.Tactic

/-!
# Runs of a rejection sampler

A draw is accepted as a value or rejected, and a run of draws returns the first
value accepted in it.  Counting the runs that return a value shows that values
with equally many accepted draws are returned equally often, whatever the
number of tries.
-/

namespace RejectionRuns

open Finset Filter Topology

variable {D V : Type*}

/-- The first value that is accepted in a run of draws. -/
def firstAccepted (accept : D → Option V) : (tries : ℕ) → (Fin tries → D) → Option V
  | 0, _ => none
  | tries + 1, draws => (accept (draws 0)).or (firstAccepted accept tries (Fin.tail draws))

variable [Fintype D] [DecidableEq V] (accept : D → Option V)

def hits (v : V) : Finset D := {d | accept d = some v}

def misses : Finset D := {d | accept d = none}

def runs (tries : ℕ) (v : V) : Finset (Fin tries → D) :=
  {draws | firstAccepted accept tries draws = some v}

@[simp] theorem mem_runs {tries : ℕ} {v : V} {draws : Fin tries → D} :
    draws ∈ runs accept tries v ↔ firstAccepted accept tries draws = some v := by
  simp [runs]

theorem card_rest (tries : ℕ) (v : V) (d : D) :
    #{rest : Fin tries → D | (accept d).or (firstAccepted accept tries rest) = some v} =
      (if accept d = some v then Fintype.card D ^ tries else 0) +
        if accept d = none then #(runs accept tries v) else 0 := by
  cases hd : accept d with
  | none =>
      simp only [reduceCtorEq, if_false, if_true, zero_add]
      refine congrArg card (Finset.ext fun rest ↦ ?_)
      rw [mem_filter, mem_runs, Option.none_or]
      simp
  | some w =>
      by_cases hw : w = v
      · simp [hw]
      · simp [hw]

/-- A run returns `v` at its first draw, or rejects it and returns `v` later. -/
theorem card_runs_succ (tries : ℕ) (v : V) :
    #(runs accept (tries + 1) v) =
      #(hits accept v) * Fintype.card D ^ tries + #(misses accept) * #(runs accept tries v) := by
  have hsplit : #(runs accept (tries + 1) v) =
      #{p : D × (Fin tries → D) | (accept p.1).or (firstAccepted accept tries p.2) = some v} := by
    refine (card_equiv (Fin.consEquiv fun _ ↦ D) fun p ↦ ?_).symm
    have htail : Fin.tail (Fin.consEquiv (fun _ : Fin (tries + 1) ↦ D) p) = p.2 := by
      funext i
      simp [Fin.tail, Fin.consEquiv]
    rw [mem_filter, mem_runs, firstAccepted, htail]
    simp
  calc #(runs accept (tries + 1) v)
      = #{p : D × (Fin tries → D) | (accept p.1).or (firstAccepted accept tries p.2) = some v} :=
        hsplit
    _ = ∑ d, #{rest : Fin tries → D |
          (accept d).or (firstAccepted accept tries rest) = some v} := by
        simp only [card_filter, ← univ_product_univ, sum_product]
    _ = ∑ d, ((if accept d = some v then Fintype.card D ^ tries else 0) +
          if accept d = none then #(runs accept tries v) else 0) :=
        sum_congr rfl fun d _ ↦ card_rest accept tries v d
    _ = _ := by
        rw [sum_add_distrib, ← sum_filter, ← sum_filter, sum_const, sum_const, smul_eq_mul,
          smul_eq_mul]
        rfl

theorem card_runs_one (v : V) : #(runs accept 1 v) = #(hits accept v) := by
  have hnone : #(runs accept 0 v) = 0 := by
    simp [runs, firstAccepted]
  rw [card_runs_succ, hnone, pow_zero, mul_one, mul_zero, add_zero]

/-! ## Samplers with the same number of draws for every value -/

section Even

variable {accept} {values : Finset V} {m : ℕ} (hits_eq : ∀ v ∈ values, #(hits accept v) = m)
include hits_eq

theorem card_draws (accept_mem : ∀ d v, accept d = some v → v ∈ values) :
    Fintype.card D = values.card * m + #(misses accept) := by
  have haccepted : #{d | ¬ accept d = none} = ∑ v ∈ values, #(hits accept v) := by
    have hmaps : ∀ d ∈ ({d | ¬ accept d = none} : Finset D), accept d ∈ values.map .some := by
      intro d hd
      obtain ⟨v, hv⟩ := Option.ne_none_iff_exists'.mp (mem_filter.mp hd).2
      rw [hv]
      exact mem_map_of_mem .some (accept_mem d v hv)
    rw [card_eq_sum_card_fiberwise hmaps, sum_map]
    refine sum_congr rfl fun v _ ↦ congrArg card (Finset.ext fun d ↦ ?_)
    simp only [mem_filter, mem_univ, true_and, hits, Function.Embedding.some_apply]
    constructor
    · exact And.right
    · intro hd
      exact ⟨by simp [hd], hd⟩
  rw [← card_univ, ← card_filter_add_card_filter_not (fun d ↦ accept d = none), haccepted,
    sum_congr rfl hits_eq, sum_const, smul_eq_mul, add_comm]
  rfl

/-- The runs that return one value, times the number of values, are the runs
that are not rejected throughout. -/
theorem card_runs_eq (accept_mem : ∀ d v, accept d = some v → v ∈ values) (tries : ℕ) {v : V}
    (hv : v ∈ values) :
    values.card * #(runs accept tries v) + #(misses accept) ^ tries = Fintype.card D ^ tries := by
  induction tries with
  | zero => simp [runs, firstAccepted]
  | succ tries ih =>
      have hdraws := card_draws hits_eq accept_mem
      calc values.card * #(runs accept (tries + 1) v) + #(misses accept) ^ (tries + 1)
          = values.card * m * Fintype.card D ^ tries +
              #(misses accept) *
                (values.card * #(runs accept tries v) + #(misses accept) ^ tries) := by
            rw [card_runs_succ, hits_eq v hv]
            ring
        _ = (values.card * m + #(misses accept)) * Fintype.card D ^ tries := by
            rw [ih]
            ring
        _ = Fintype.card D ^ (tries + 1) := by
            rw [← hdraws]
            ring

/-- With more and more tries each value is returned with the same probability. -/
theorem tendsto_runs (accept_mem : ∀ d v, accept d = some v → v ∈ values) (hm : 0 < m) {v : V}
    (hv : v ∈ values) :
    Tendsto (fun tries ↦ (#(runs accept tries v) : ℝ) / (Fintype.card D : ℝ) ^ tries) atTop
      (𝓝 (1 / values.card)) := by
  have hvalues : 0 < values.card := card_pos.mpr ⟨v, hv⟩
  have hdraws := card_draws hits_eq accept_mem
  have hD : 0 < Fintype.card D := by
    rw [hdraws]
    positivity
  have hmisses : (#(misses accept) : ℝ) / Fintype.card D < 1 := by
    rw [div_lt_one (by exact_mod_cast hD)]
    have : 0 < values.card * m := Nat.mul_pos hvalues hm
    exact_mod_cast (by omega : #(misses accept) < Fintype.card D)
  have hvaluesR : (values.card : ℝ) ≠ 0 := by positivity
  have hDR : (Fintype.card D : ℝ) ≠ 0 := by positivity
  have hform : ∀ tries, (#(runs accept tries v) : ℝ) / (Fintype.card D : ℝ) ^ tries =
      (1 - ((#(misses accept) : ℝ) / Fintype.card D) ^ tries) / values.card := by
    intro tries
    have hcount : (values.card : ℝ) * #(runs accept tries v) + (#(misses accept) : ℝ) ^ tries =
        (Fintype.card D : ℝ) ^ tries := by
      exact_mod_cast card_runs_eq hits_eq accept_mem tries hv
    rw [div_pow]
    field_simp
    linarith
  simp only [hform]
  have hlimit := (tendsto_pow_atTop_nhds_zero_of_lt_one (by positivity) hmisses).const_sub 1
  simpa using hlimit.div_const (values.card : ℝ)

end Even

end RejectionRuns
