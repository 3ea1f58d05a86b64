import Mathlib.Algebra.Order.Field.Basic
import Mathlib.Algebra.Order.Field.Rat
import Ppfdaas.Library.WindowSum

/-!
# Magnitudes and errors of approximate vectors

An exact vector bounded in every entry, and one that is close to it in every
entry.  Each operation says how the two bounds grow; a fold of doublings grows
both by its own power of two, as long as no accumulator leaves the range in
which the steps are accurate.
-/

namespace ErrorBudget

variable {ι R : Type*}

section Ring

variable [CommRing R] [LinearOrder R] [IsStrictOrderedRing R]

theorem abs_le_of_close {a v bound error : R} (hclose : |a - v| ≤ error) (hv : |v| ≤ bound) :
    |a| ≤ bound + error := by
  have hsplit : a = v + (a - v) := by ring
  rw [hsplit]
  exact (abs_add_le _ _).trans (add_le_add hv hclose)

/-- `x` is bounded by `m`, and `y` is within `e` of it. -/
structure Tracks (m e : R) (x y : ι → R) : Prop where
  magnitude : ∀ i, |x i| ≤ m
  error : ∀ i, |y i - x i| ≤ e

variable {m e n f δ : R} {x y u v z : ι → R}

theorem Tracks.refl (h : ∀ i, |x i| ≤ m) : Tracks m 0 x x :=
  ⟨h, fun i ↦ by rw [sub_self, abs_zero]⟩

theorem Tracks.le (h : Tracks m e x y) (i : ι) : |y i| ≤ m + e :=
  abs_le_of_close (h.error i) (h.magnitude i)

/-- One more rounding. -/
theorem Tracks.rounded (h : Tracks m e x y) (hz : ∀ i, |z i - y i| ≤ δ) :
    Tracks m (e + δ) x z := by
  refine ⟨h.magnitude, fun i ↦ ?_⟩
  have hsplit : z i - x i = (y i - x i) + (z i - y i) := by ring
  rw [hsplit]
  exact (abs_add_le _ _).trans (add_le_add (h.error i) (hz i))

theorem Tracks.add (h : Tracks m e x y) (h' : Tracks n f u v) :
    Tracks (m + n) (e + f) (x + u) (y + v) := by
  refine ⟨fun i ↦ (abs_add_le _ _).trans (add_le_add (h.magnitude i) (h'.magnitude i)),
    fun i ↦ ?_⟩
  have hsplit : (y + v) i - (x + u) i = (y i - x i) + (v i - u i) := by
    simp only [Pi.add_apply]
    ring
  rw [hsplit]
  exact (abs_add_le _ _).trans (add_le_add (h.error i) (h'.error i))

theorem Tracks.mul (h : Tracks m e x y) (h' : Tracks n f u v) :
    Tracks (m * n) (m * f + n * e + e * f) (x * u) (y * v) := by
  have hmul {a b c d : R} (hac : |a| ≤ c) (hbd : |b| ≤ d) : |a * b| ≤ c * d := by
    rw [abs_mul]
    exact mul_le_mul hac hbd (abs_nonneg b) ((abs_nonneg a).trans hac)
  refine ⟨fun i ↦ hmul (h.magnitude i) (h'.magnitude i), fun i ↦ ?_⟩
  have hsplit : (y * v) i - (x * u) i =
      x i * (v i - u i) + u i * (y i - x i) + (y i - x i) * (v i - u i) := by
    simp only [Pi.mul_apply]
    ring
  have hleft := hmul (h.magnitude i) (h'.error i)
  have hright := hmul (h'.magnitude i) (h.error i)
  have hboth := hmul (h.error i) (h'.error i)
  rw [hsplit]
  calc
    _ ≤ |x i * (v i - u i) + u i * (y i - x i)| + |(y i - x i) * (v i - u i)| := abs_add_le _ _
    _ ≤ |x i * (v i - u i)| + |u i * (y i - x i)| + |(y i - x i) * (v i - u i)| := by
      gcongr
      exact abs_add_le _ _
    _ ≤ _ := add_le_add (add_le_add hleft hright) hboth

omit [IsStrictOrderedRing R] in
theorem Tracks.rotate [AddCommMonoid ι] (h : Tracks m e x y) (s : ι) :
    Tracks m e (WindowSum.rotate s x) (WindowSum.rotate s y) :=
  ⟨fun i ↦ h.magnitude (i + s), fun i ↦ h.error (i + s)⟩

theorem Tracks.sum_error [Fintype ι] (h : Tracks m e x y) :
    |∑ i, y i - ∑ i, x i| ≤ Fintype.card ι * e := by
  rw [← Finset.sum_sub_distrib]
  calc |∑ i, (y i - x i)| ≤ ∑ i, |y i - x i| := Finset.abs_sum_le_sum_abs _ _
    _ ≤ ∑ _i : ι, e := Finset.sum_le_sum fun i _ ↦ h.error i
    _ = Fintype.card ι * e := by rw [Finset.sum_const, Finset.card_univ, nsmul_eq_mul]

end Ring

/-! ## Folds -/

section Fold

variable [AddCommMonoid ι] [CommRing R] [LinearOrder R] [IsStrictOrderedRing R] {α σ ε : Type}
  {step : α → σ → Except ε α} {steps : List σ} {shift : σ → ι} {δ cap : R}

/-- A fold of steps that add to an accumulator its own rotation: magnitude and
error double with each, and the error grows by what the step adds. -/
theorem fold_returns {Holds : R → R → (ι → R) → α → Prop} (hδ : 0 ≤ δ)
    (hstep : ∀ s ∈ steps, ∀ m e x a, 0 ≤ m → 0 ≤ e → Holds m e x a →
      2 * m + 2 * e + δ ≤ cap → ∃ a', step a s = .ok a' ∧
        Holds (2 * m) (2 * e + δ) (x + WindowSum.rotate (shift s) x) a')
    {m e : R} {x : ι → R} {a : α} (hm : 0 ≤ m) (he : 0 ≤ e) (h : Holds m e x a)
    (hcap : 2 ^ steps.length * (m + e + δ) ≤ cap) :
    ∃ a', steps.foldlM step a = .ok a' ∧
      Holds (2 ^ steps.length * m) (2 ^ steps.length * e + (2 ^ steps.length - 1) * δ)
        (WindowSum.fold (steps.map shift) x) a' := by
  induction steps generalizing m e x a with
  | nil =>
      refine ⟨a, rfl, ?_⟩
      simpa [WindowSum.fold] using h
  | cons s steps ih =>
      have hpow : (1 : R) ≤ 2 ^ steps.length := one_le_pow₀ one_le_two
      rw [List.length_cons, pow_succ, mul_assoc] at hcap
      have hnow : 2 * m + 2 * e + δ ≤ cap := by
        have hgrow : 2 * (m + e + δ) ≤ 2 ^ steps.length * (2 * (m + e + δ)) :=
          le_mul_of_one_le_left (by positivity) hpow
        linarith
      obtain ⟨a₁, hrun, ha₁⟩ := hstep s List.mem_cons_self m e x a hm he h hnow
      have hnext : 2 ^ steps.length * (2 * m + (2 * e + δ) + δ) ≤ cap := by
        have hsame : 2 * m + (2 * e + δ) + δ = 2 * (m + e + δ) := by ring
        rwa [hsame]
      obtain ⟨a', hrest, ha'⟩ := ih (fun s' hs' ↦ hstep s' (List.mem_cons_of_mem s hs'))
        (by positivity) (by positivity) ha₁ hnext
      refine ⟨a', ?_, ?_⟩
      · rw [List.foldlM_cons, hrun]
        exact hrest
      · have hm' : 2 ^ (s :: steps).length * m = 2 ^ steps.length * (2 * m) := by
          rw [List.length_cons, pow_succ, mul_assoc]
        have he' : 2 ^ (s :: steps).length * e + (2 ^ (s :: steps).length - 1) * δ =
            2 ^ steps.length * (2 * e + δ) + (2 ^ steps.length - 1) * δ := by
          rw [List.length_cons, pow_succ]
          ring
        rw [hm', he']
        exact ha'

end Fold

end ErrorBudget
