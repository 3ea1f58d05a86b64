import Mathlib.Data.Int.CardIntervalMod
import Mathlib.Data.ZMod.Basic
import Mathlib.Probability.Distributions.Uniform
import Mathlib.Tactic

/-!
# Uniform draws

Images of uniform distributions, and rejection sampling of residues: of the
words below `W` the largest ones are rejected, so that every residue modulo `q`
has the same number of kept words.
-/

namespace UniformSampling

open PMF

section Images

variable {α β γ ι : Type*} [Fintype α] [Nonempty α] [Fintype β] [Nonempty β]
  [Fintype γ] [Nonempty γ]

theorem map_uniform_equiv (e : α ≃ β) :
    (uniformOfFintype α).map e = uniformOfFintype β := by
  ext b
  rw [map_apply, tsum_eq_single (e.symm b)]
  · simp [Fintype.card_congr e]
  · intro a ha
    rw [if_neg]
    rintro rfl
    exact ha (e.symm_apply_apply a).symm

theorem map_uniform_fst : (uniformOfFintype (α × β)).map Prod.fst = uniformOfFintype α := by
  ext a
  classical
  rw [map_apply, tsum_fintype, Fintype.sum_prod_type]
  simp only [uniformOfFintype_apply, Fintype.card_prod]
  rw [Finset.sum_eq_single a]
  · simp only [if_true, Finset.sum_const, Finset.card_univ, nsmul_eq_mul, Nat.cast_mul]
    have hα : (Fintype.card α : ENNReal) ≠ 0 := by simp
    have hβ : (Fintype.card β : ENNReal) ≠ 0 := by simp
    rw [ENNReal.mul_inv (.inl hα) (.inl (ENNReal.natCast_ne_top _)), mul_comm, mul_assoc,
      ENNReal.inv_mul_cancel hβ (ENNReal.natCast_ne_top _), mul_one]
  · intro a' _ ha'
    simp [Ne.symm ha']
  · simp

theorem map_uniform_split (e : α ≃ β × γ) :
    (uniformOfFintype α).map (fun a ↦ (e a).1) = uniformOfFintype β := by
  calc (uniformOfFintype α).map (fun a ↦ (e a).1)
      = ((uniformOfFintype α).map e).map Prod.fst := (map_comp _ _ _).symm
    _ = (uniformOfFintype (β × γ)).map Prod.fst := by rw [map_uniform_equiv]
    _ = uniformOfFintype β := map_uniform_fst

theorem map_uniform_eval [Fintype ι] [DecidableEq ι] (i : ι) :
    (uniformOfFintype (ι → α)).map (fun f ↦ f i) = uniformOfFintype α :=
  map_uniform_split (Equiv.funSplitAt i α)

/-- Two functions that a bijection of the draws carries into each other have
the same distribution. -/
theorem map_uniform_congr {δ : Type*} {f g : α → δ} (e : α ≃ α) (h : ∀ a, f a = g (e a)) :
    (uniformOfFintype α).map f = (uniformOfFintype α).map g := by
  have hf : f = g ∘ e := funext h
  rw [hf, ← map_comp, map_uniform_equiv]

end Images

/-! ## Rejection sampling -/

section Rejection

variable {W q : ℕ}

/-- The largest word below `W` that is kept. -/
def largestKept (W q : ℕ) : ℕ := W - 1 - ((W - 1) % q + 1) % q

/-- The kept words are as many as the largest multiple of `q` up to `W`. -/
theorem largestKept_succ (hq : 0 < q) (hW : q ≤ W) : largestKept W q + 1 = q * (W / q) := by
  have hmod : ((W - 1) % q + 1) % q = W % q := by
    rw [Nat.mod_add_mod, Nat.sub_add_cancel (by omega)]
  have hdiv := Nat.div_add_mod W q
  have hlt := Nat.mod_lt W hq
  have hpos : q ≤ q * (W / q) := Nat.le_mul_of_pos_right q (Nat.div_pos hW hq)
  rw [largestKept, hmod]
  omega

abbrev Kept (W q : ℕ) := { r : ℕ // r ≤ largestKept W q }

instance : Fintype (Kept W q) := Fintype.subtype (Finset.range (largestKept W q + 1)) fun r ↦ by
  rw [Finset.mem_range, Nat.lt_succ_iff]

instance : Nonempty (Kept W q) := ⟨⟨0, Nat.zero_le _⟩⟩

/-- A kept word is its residue and one of `W / q` quotients. -/
def split [NeZero q] (hW : q ≤ W) : Kept W q ≃ ZMod q × Fin (W / q) where
  toFun r := ((r.val : ZMod q), ⟨r.val / q, by
    have hkept := largestKept_succ (NeZero.pos q) hW
    exact Nat.div_lt_of_lt_mul (by omega)⟩)
  invFun x := ⟨x.1.val + q * x.2, by
    have hkept := largestKept_succ (NeZero.pos q) hW
    have hlt : x.1.val + q * x.2 < q * (W / q) := by
      calc x.1.val + q * x.2 < q + q * x.2 := Nat.add_lt_add_right (ZMod.val_lt x.1) _
        _ = q * (x.2 + 1) := by ring
        _ ≤ q * (W / q) := Nat.mul_le_mul_left q x.2.isLt
    omega⟩
  left_inv r := Subtype.ext (by
    simp only [ZMod.val_natCast]
    exact Nat.mod_add_div r.val q)
  right_inv x := by
    refine Prod.ext ?_ (Fin.ext ?_)
    · simp
    · simp only [Nat.add_mul_div_left _ _ (NeZero.pos q), Nat.div_eq_of_lt (ZMod.val_lt x.1),
        zero_add]

/-- The kept word with the same quotient whose residue is moved by `δ`. -/
def shift [NeZero q] (hW : q ≤ W) (δ : ZMod q) : Kept W q ≃ Kept W q :=
  (split hW).trans (((Equiv.addRight δ).prodCongr (.refl _)).trans (split hW).symm)

theorem shift_residue [NeZero q] (hW : q ≤ W) (δ : ZMod q) (r : Kept W q) :
    ((shift hW δ r).val : ZMod q) = r.val + δ := by
  have h : (split hW (shift hW δ r)).1 = r.val + δ := by
    simp [shift, split]
  exact h

theorem map_uniform_residue [NeZero q] (hW : q ≤ W) :
    (uniformOfFintype (Kept W q)).map (fun r ↦ (r.val : ZMod q)) = uniformOfFintype (ZMod q) := by
  have : Nonempty (Fin (W / q)) := ⟨⟨0, Nat.div_pos hW (NeZero.pos q)⟩⟩
  exact map_uniform_split (split hW)

/-! ### Counting words -/

/-- The residue of a word below `W` that is kept. -/
def keptResidue (W q r : ℕ) : Option ℕ := if r < W / q * q then some (r % q) else none

theorem le_largestKept_iff (hq : 0 < q) (hW : q ≤ W) {r : ℕ} :
    r ≤ largestKept W q ↔ r < W / q * q := by
  rw [mul_comm, ← largestKept_succ hq hW, Nat.lt_succ_iff]

theorem filter_isSome_keptResidue :
    (Finset.range W).filter (fun r ↦ (keptResidue W q r).isSome) = Finset.range (W / q * q) := by
  have hle : W / q * q ≤ W := Nat.div_mul_le_self W q
  ext r
  by_cases hr : r < W / q * q
  · simp [keptResidue, hr, hr.trans_le hle]
  · simp [keptResidue, hr]

theorem filter_keptResidue {v : ℕ} :
    (Finset.range W).filter (fun r ↦ keptResidue W q r = some v) =
      (Finset.range (W / q * q)).filter (fun r ↦ r % q = v) := by
  have hle : W / q * q ≤ W := Nat.div_mul_le_self W q
  ext r
  by_cases hr : r < W / q * q
  · simp [keptResidue, hr, hr.trans_le hle]
  · simp [keptResidue, hr]

theorem card_filter_mod {v k : ℕ} (hv : v < q) :
    ((Finset.range (k * q)).filter fun r ↦ r % q = v).card = k := by
  have hq : 0 < q := by omega
  have hcount := Nat.count_modEq_card (k * q) hq v
  rw [Nat.count_eq_card_filter_range, Nat.mul_mod_left, Nat.mul_div_cancel k hq] at hcount
  simpa [Nat.ModEq, Nat.mod_eq_of_lt hv] using hcount

section Words

variable {D : Type*} {f : D → ℕ}

theorem ncard_words (hf : Set.BijOn f Set.univ (Set.Iio W)) (P : ℕ → Prop) [DecidablePred P] :
    {d | P (f d)}.ncard = ((Finset.range W).filter P).card := by
  have himage : f '' {d | P (f d)} = ((Finset.range W).filter P : Finset ℕ) := by
    ext n
    simp only [Set.mem_image, Set.mem_ofPred_eq, Finset.coe_filter, Finset.mem_range]
    constructor
    · rintro ⟨d, hd, rfl⟩
      exact ⟨hf.mapsTo trivial, hd⟩
    · rintro ⟨hn, hP⟩
      obtain ⟨d, -, rfl⟩ := hf.surjOn hn
      exact ⟨d, hP, rfl⟩
  rw [← Set.ncard_coe_finset, ← himage, (hf.injOn.mono (by simp)).ncard_image]

variable (hf : Set.BijOn f Set.univ (Set.Iio W)) {test : D → Prop} [DecidablePred test]
  {value : D → ℕ}
  (htest : ∀ d, keptResidue W q (f d) = if test d then some (value d) else none)
include hf htest

/-- A test that decides `keptResidue` passes as many words as the largest multiple
of `q` up to `W`. -/
theorem ncard_test : {d | test d}.ncard = W / q * q := by
  have hset : {d | test d} = {d | (keptResidue W q (f d)).isSome} := by
    ext d
    change test d ↔ (keptResidue W q (f d)).isSome
    by_cases hd : test d <;> simp [htest, hd]
  rw [hset, ncard_words hf fun r ↦ (keptResidue W q r).isSome, filter_isSome_keptResidue,
    Finset.card_range]

/-- Every residue has the same number of words that pass. -/
theorem ncard_test_value {v : ℕ} (hv : v < q) :
    {d | test d ∧ value d = v}.ncard = W / q := by
  have hset : {d | test d ∧ value d = v} = {d | keptResidue W q (f d) = some v} := by
    ext d
    change test d ∧ value d = v ↔ keptResidue W q (f d) = some v
    by_cases hd : test d <;> simp [htest, hd]
  rw [hset, ncard_words hf fun r ↦ keptResidue W q r = some v, filter_keptResidue,
    card_filter_mod hv]

end Words

end Rejection

end UniformSampling
