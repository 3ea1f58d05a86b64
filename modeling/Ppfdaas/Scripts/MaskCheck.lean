import Mathlib.Data.ZMod.Basic
import Ppfdaas.Scripts.LayoutTrials

/-!
# The leak that the mask closes

The triangular solve of `mask_check`, and `_triangular_recover` of the tests on
exact numbers: the weights from the product with one known row.
-/

namespace Ppfdaas.CnpGate

/-- The body of the loop over `m_`; `divide` takes off the first entry of the row. -/
def solveStep {R : Type} [CommRing R] (divide : R → R) (x c : List R) (rec : List R) (m : ℕ) :
    List R :=
  let acc := (List.range' 1 m).foldl (fun acc i ↦ acc - x.getD i 0 * rec.getD (255 - m + i) 0)
    (c.getD m 0)
  rec.set (255 - m) (divide acc)

def solve {R : Type} [CommRing R] (divide : R → R) (x c : List R) : List R :=
  (List.range 256).foldl (solveStep divide x c) (List.replicate 256 0)

/-- `pow(v, -1, t)`, where it does not raise. -/
def modInverse (v : ℤ) (t : ℕ) : Option ℤ :=
  if Int.gcd v t = 1 then some (Int.gcdA v t % t) else none

/-- The leak of `mask_check` from the coefficients `c`, `none` where the script
stops.  Integers are exact. -/
def leak (t : ℕ) (laneX c : List ℤ) : Option (List ℤ) :=
  if laneX.getD 0 0 % t ≠ 0 then
    (modInverse (laneX.getD 0 0 % t) t).map fun x0inv ↦
      (solve (fun acc ↦ acc * x0inv % t) laneX c).map fun v ↦ center v t
  else none

/-- `N`. -/
def maskN : ℕ := 8192

/-- `v % t`. -/
def residues (t : ℕ) (v : List ℤ) : List ℤ := v.map fun (x : ℤ) ↦ x % (t : ℤ)

/-- `xp`: one lane with a row, all others zero. -/
def singleLane (t : ℕ) (laneX : List ℤ) : List ℤ :=
  residues t laneX ++ List.replicate (maskN - 256) 0

/-- `wrev`. -/
def reversedWeights (t : ℕ) (wq : List ℤ) : List ℤ := residues t wq.reverse

/-- The negacyclic product of the lane and the weights, modulo `t`. -/
def unmasked (t : ℕ) (laneX wq : List ℤ) : List ℤ :=
  residues t (List.ofFn (Negacyclic.mul (coefficients maskN (singleLane t laneX))
    (coefficients maskN (reversedWeights t wq))))

/-- `_triangular_recover` on exact numbers. -/
def triangular_recover (c x : List ℚ) : List ℚ := solve (fun acc ↦ acc / x.getD 0 0) x c

/-! ## The recursion -/

theorem foldl_sub_range' {R : Type} [CommRing R] (f : ℕ → R) (m : ℕ) (a : R) :
    (List.range' 1 m).foldl (fun acc i ↦ acc - f i) a =
      a - ∑ i ∈ Finset.range m, f (i + 1) := by
  induction m with
  | zero => simp
  | succ m ih =>
      rw [List.range'_concat, List.foldl_append, ih, Finset.sum_range_succ, List.foldl_cons,
        List.foldl_nil, mul_comm, mul_one, add_comm 1, sub_sub]

section Solve

variable {R S : Type} [CommRing R] [CommRing S] (φ : R →+* S) {divide : R → R} {x c : List R}
  {w : ℕ → S}

/-- The weights from `256 - m` on are recovered. -/
def Recovered (w : ℕ → S) (m : ℕ) (rec : List R) : Prop :=
  rec.length = 256 ∧ ∀ j < 256, 256 ≤ j + m → φ (rec.getD j 0) = w j

/-- Coefficient `m` holds the weights that are known and one more. -/
theorem recovered_step (hx0 : IsUnit (φ (x.getD 0 0)))
    (hdivide : ∀ v, φ (divide v) * φ (x.getD 0 0) = φ v) {m : ℕ} (hm : m < 256)
    (hc : φ (c.getD m 0) =
      ∑ i ∈ Finset.range (m + 1), φ (x.getD i 0) * w (255 - m + i))
    {rec : List R} (h : Recovered φ w m rec) :
    Recovered φ w (m + 1) (solveStep divide x c rec m) := by
  obtain ⟨hlength, hknown⟩ := h
  have hacc : φ ((List.range' 1 m).foldl
      (fun acc i ↦ acc - x.getD i 0 * rec.getD (255 - m + i) 0) (c.getD m 0)) =
      w (255 - m) * φ (x.getD 0 0) := by
    have hsum : ∑ i ∈ Finset.range m, φ (x.getD (i + 1) 0) * φ (rec.getD (255 - m + (i + 1)) 0) =
        ∑ i ∈ Finset.range m, φ (x.getD (i + 1) 0) * w (255 - m + (i + 1)) := by
      refine Finset.sum_congr rfl fun i hi ↦ ?_
      have hi := Finset.mem_range.mp hi
      rw [hknown _ (by omega) (by omega)]
    rw [foldl_sub_range' (fun i ↦ x.getD i 0 * rec.getD (255 - m + i) 0), map_sub, map_sum, hc,
      Finset.sum_range_succ']
    simp only [map_mul]
    rw [hsum, add_sub_cancel_left, add_zero, mul_comm]
  have hnew : φ (divide ((List.range' 1 m).foldl
      (fun acc i ↦ acc - x.getD i 0 * rec.getD (255 - m + i) 0) (c.getD m 0))) = w (255 - m) :=
    hx0.mul_right_cancel ((hdivide _).trans hacc)
  refine ⟨by rw [solveStep, List.length_set, hlength], fun j hj hjm ↦ ?_⟩
  rw [solveStep, List.getD_eq_getElem?_getD]
  by_cases hlast : 255 - m = j
  · subst hlast
    rw [List.getElem?_set_self (by rw [hlength]; exact hj), Option.getD_some]
    exact hnew
  · rw [List.getElem?_set_ne hlast, ← List.getD_eq_getElem?_getD]
    exact hknown j hj (by omega)

/-- The solve inverts the triangular system. -/
theorem solve_recovers (hx0 : IsUnit (φ (x.getD 0 0)))
    (hdivide : ∀ v, φ (divide v) * φ (x.getD 0 0) = φ v)
    (hc : ∀ m < 256, φ (c.getD m 0) =
      ∑ i ∈ Finset.range (m + 1), φ (x.getD i 0) * w (255 - m + i)) :
    Recovered φ w 256 (solve divide x c) := by
  have hprefix : ∀ m ≤ 256, Recovered φ w m
      ((List.range m).foldl (solveStep divide x c) (List.replicate 256 0)) := by
    intro m
    induction m with
    | zero => exact fun _ ↦ ⟨List.length_replicate, fun j hj hj' ↦ by omega⟩
    | succ m ih =>
        intro hm
        rw [List.range_succ, List.foldl_append]
        exact recovered_step φ hx0 hdivide hm (hc m hm) (ih (Nat.le_of_succ_le hm))
  exact hprefix 256 le_rfl

end Solve

/-! ## The coefficients of one lane -/

section Lane

variable {t : ℕ} {laneX wq : List ℤ}

theorem getD_residues (v : List ℤ) (i : ℕ) : (residues t v).getD i 0 = v.getD i 0 % t := by
  rw [residues, List.getD_eq_getElem?_getD, List.getElem?_map, List.getD_eq_getElem?_getD]
  cases v[i]? with
  | none => exact (Int.zero_emod _).symm
  | some x => rfl

theorem length_residues (v : List ℤ) : (residues t v).length = v.length := List.length_map _

theorem getD_singleLane (hx : laneX.length = 256) (i : ℕ) :
    (singleLane t laneX).getD i 0 = laneX.getD i 0 % t := by
  have hlength : (residues t laneX).length = 256 := (length_residues laneX).trans hx
  rw [singleLane]
  rcases lt_or_ge i 256 with hi | hi
  · rw [List.getD_append _ _ _ _ (by rwa [hlength]), getD_residues]
  · rw [List.getD_append_right _ _ _ _ (by rwa [hlength]),
      List.getD_eq_default laneX 0 (by rwa [hx]), List.getD_eq_getElem?_getD,
      List.getElem?_getD_replicate_default_eq, Int.zero_emod]

theorem getD_reversedWeights (hw : wq.length = 256) {j : ℕ} (hj : j < 256) :
    (reversedWeights t wq).getD j 0 = wq.getD (255 - j) 0 % t := by
  rw [reversedWeights, getD_residues, List.getD_eq_getElem?_getD, List.getD_eq_getElem?_getD,
    List.getElem?_reverse (by rwa [hw]), hw]

/-- Coefficient `m` of the product, modulo `t`. -/
theorem unmasked_coefficient (hx : laneX.length = 256) (hw : wq.length = 256) {m : ℕ}
    (hm : m < 256) :
    (((unmasked t laneX wq).getD m 0 : ℤ) : ZMod t) =
      ∑ i ∈ Finset.range (m + 1),
        (laneX.getD i 0 : ZMod t) * (wq.getD (255 - m + i) 0 : ZMod t) := by
  have hlength : (reversedWeights t wq).length = 256 := by
    rw [reversedWeights, length_residues, List.length_reverse, hw]
  have hmN : m < maskN := hm.trans (by norm_num [maskN])
  have hget : (unmasked t laneX wq).getD m 0 =
      exact (singleLane t laneX) (reversedWeights t wq) maskN m % t := by
    rw [unmasked, getD_residues, List.getD_eq_getElem _ _ (by rwa [List.length_ofFn]),
      List.getElem_ofFn, ← exact_eq_mul (by rw [hlength]; norm_num [maskN])]
  have hterm : ∀ j ∈ Finset.range 256, j ∉ Finset.range (m + 1) →
      foldTerm (singleLane t laneX) (reversedWeights t wq) maskN m j = 0 := by
    intro j hj hjm
    rw [Finset.mem_range] at hj hjm
    have hbeyond : 256 ≤ maskN - j + m := by
      rw [maskN]
      omega
    rw [foldTerm, if_neg (by omega), getD_singleLane hx,
      List.getD_eq_default laneX 0 (by rwa [hx]), Int.zero_emod, zero_mul, neg_zero]
  rw [hget, exact, hlength,
    ← Finset.sum_subset (Finset.range_subset_range.mpr (Nat.succ_le_of_lt hm)) hterm,
    ZMod.intCast_mod, Int.cast_sum, ← Finset.sum_range_reflect]
  refine Finset.sum_congr rfl fun i hi ↦ ?_
  have hi := Finset.mem_range.mp hi
  have hrow : m - (m + 1 - 1 - i) = i := by omega
  have hweight : 255 - (m + 1 - 1 - i) = 255 - m + i := by omega
  rw [foldTerm, if_pos (by omega), getD_singleLane hx, getD_reversedWeights hw (by omega), hrow,
    hweight, Int.cast_mul, ZMod.intCast_mod, ZMod.intCast_mod]

end Lane

theorem modInverse_ok {t : ℕ} (ht : t.Prime) {v : ℤ} (hv : v % t ≠ 0) :
    ∃ inv, modInverse (v % t) t = some inv ∧ (inv : ZMod t) * (v : ZMod t) = 1 := by
  have hndvd : ¬ (t : ℤ) ∣ v % t := fun hdvd ↦ hv (by
    rw [← Int.emod_emod_of_dvd v (dvd_refl (t : ℤ))]
    exact Int.emod_eq_zero_of_dvd hdvd)
  have hgcd : Int.gcd (v % t) t = 1 := by
    rw [Int.gcd_comm]
    exact Int.isCoprime_iff_gcd_eq_one.mp
      ((Nat.prime_iff_prime_int.mp ht).coprime_iff_not_dvd.mpr hndvd)
  refine ⟨_, if_pos hgcd, ?_⟩
  have hbezout := congrArg (Int.cast : ℤ → ZMod t) (Int.gcd_eq_gcd_ab (v % t) t)
  rw [hgcd] at hbezout
  push_cast [ZMod.natCast_self, ZMod.intCast_mod] at hbezout ⊢
  rw [hbezout]
  ring

/-! ## The leak -/

/-- For every prime and every row that the solve can divide by, the unmasked
coefficients give away the weights. -/
theorem leak_recovers_weights {t : ℕ} (ht : t.Prime) {laneX wq : List ℤ}
    (hx : laneX.length = 256) (hw : wq.length = 256) (hx0 : ¬ (t : ℤ) ∣ laneX.getD 0 0)
    (hwq : ∀ v ∈ wq, |v| ≤ ((t : ℤ) - 1) / 2) :
    leak t laneX (unmasked t laneX wq) = some wq := by
  have hne : laneX.getD 0 0 % t ≠ 0 := fun h ↦ hx0 (Int.dvd_of_emod_eq_zero h)
  obtain ⟨inv, hinv, hone⟩ := modInverse_ok ht hne
  have hdivide : ∀ v : ℤ, (Int.castRingHom (ZMod t)) (v * inv % t) *
      (Int.castRingHom (ZMod t)) (laneX.getD 0 0) = (Int.castRingHom (ZMod t)) v := by
    intro v
    rw [eq_intCast, eq_intCast, eq_intCast, ZMod.intCast_mod, Int.cast_mul, mul_assoc, hone,
      mul_one]
  obtain ⟨hlength, hrec⟩ := solve_recovers (Int.castRingHom (ZMod t))
    (w := fun j ↦ (wq.getD j 0 : ZMod t)) (IsUnit.of_mul_eq_one_right _ hone) hdivide
    fun m hm ↦ unmasked_coefficient hx hw hm
  rw [leak, if_pos hne, hinv]
  refine congrArg some (List.ext_getElem (by rw [List.length_map, hlength, hw]) fun j h₁ h₂ ↦ ?_)
  have hj : j < 256 := hw ▸ h₂
  have hmod : (solve (fun acc ↦ acc * inv % t) laneX (unmasked t laneX wq)).getD j 0 ≡
      wq.getD j 0 [ZMOD t] := (ZMod.intCast_eq_intCast_iff _ _ t).mp (hrec j hj (by omega))
  have hsmall : 2 * |wq.getD j 0| < t := by
    rw [List.getD_eq_getElem _ _ h₂]
    have hle := hwq _ (List.getElem_mem h₂)
    omega
  rw [List.getElem_map, ← List.getD_eq_getElem _ 0, ← List.getD_eq_getElem wq 0]
  exact (CentredResidue.centred_congr hmod).trans (CentredResidue.centred_eq_self hsmall)

/-- A row of the numbers up to 256. -/
def rampLane : List ℤ := (List.range 256).map fun (i : ℕ) ↦ (i : ℤ) + 1

/-- The odd weights from -255 to 255. -/
def oddWeights : List ℤ := (List.range 256).map fun (j : ℕ) ↦ 2 * (j : ℤ) - 255

theorem leak_recovers_weights_ramp :
    leak 33292289 rampLane (unmasked 33292289 rampLane oddWeights) = some oddWeights := by
  refine leak_recovers_weights (by norm_num) ?_ ?_ ?_ fun v hv ↦ ?_
  · rw [rampLane, List.length_map, List.length_range]
  · rw [oddWeights, List.length_map, List.length_range]
  · decide
  · obtain ⟨j, hj, rfl⟩ := List.mem_map.mp hv
    have hlt := List.mem_range.mp hj
    rw [abs_le]
    constructor <;> omega

/-- Up to 25 bits the int64 product of the script is the exact one. -/
theorem unmasked_eq_naive {t : ℕ} (hpos : 0 < t) (hle : t ≤ 2 ^ 25) {laneX wq : List ℤ}
    (hx : laneX.length = 256) (hw : wq.length = 256) :
    unmasked t laneX wq =
      residues t (naive_negacyclic (singleLane t laneX) (reversedWeights t wq) maskN) := by
  have hresidue : ∀ l : List ℤ, ∀ v ∈ residues t l, 0 ≤ v ∧ v < 2 ^ 25 := by
    intro l v hv
    obtain ⟨u, -, rfl⟩ := List.mem_map.mp hv
    have ht : (0 : ℤ) < t := by exact_mod_cast hpos
    have hle' : (t : ℤ) ≤ 2 ^ 25 := by exact_mod_cast hle
    exact ⟨Int.emod_nonneg _ ht.ne', (Int.emod_lt_of_pos _ ht).trans_le hle'⟩
  have hweights : (reversedWeights t wq).length = 256 := by
    rw [reversedWeights, length_residues, List.length_reverse, hw]
  have hoperands : Operands (singleLane t laneX) (reversedWeights t wq) maskN := by
    refine ⟨?_, ?_, ?_, hweights.le, fun v hv ↦ ?_, hresidue _⟩
    · rw [singleLane, List.length_append, length_residues, hx, List.length_replicate]
      rfl
    · rw [hweights]
      norm_num [maskN]
    · rw [hweights]
      norm_num
    · rcases List.mem_append.mp hv with hlane | hzero
      · exact hresidue _ v hlane
      · rw [List.eq_of_mem_replicate hzero]
        norm_num
  rw [naive_eq_ofFn hoperands, unmasked]

/-- On exact numbers the solve of the tests recovers them too. -/
theorem triangular_recover_weights {c x : List ℚ} {w : ℕ → ℚ} (hx0 : x.getD 0 0 ≠ 0)
    (hc : ∀ m < 256, c.getD m 0 =
      ∑ i ∈ Finset.range (m + 1), x.getD i 0 * w (255 - m + i)) {j : ℕ} (hj : j < 256) :
    (triangular_recover c x).getD j 0 = w j := by
  have hrec : Recovered (RingHom.id ℚ) w 256 (triangular_recover c x) := by
    rw [triangular_recover]
    refine solve_recovers (RingHom.id ℚ) ?_ (fun v ↦ ?_) hc
    · exact isUnit_iff_ne_zero.mpr hx0
    · exact div_mul_cancel₀ v hx0
  have hvalue := hrec.2 j hj (Nat.le_add_left 256 j)
  rwa [RingHom.id_apply] at hvalue

end Ppfdaas.CnpGate
