import Mathlib.Data.List.GetD
import Mathlib.Order.Bounds.Basic
import Ppfdaas.Library.DrawStream
import Ppfdaas.Library.UniformSampling

/-!
# Shifting the accepted draws of a stream

Every draw is permuted, by a permutation that depends on how many draws were
accepted before it and that carries accepted draws to accepted ones.  The accepted
values are moved one by one, the number of draws that a reader needs stays.  So a
mask of rejection-sampled residues hides what it is added to.
-/

namespace DrawStream

variable {D V : Type*}

theorem kept_congr {accept : D → Option V} {draws draws' : ℕ → D} {n : ℕ}
    (h : ∀ j < n, draws j = draws' j) : kept accept draws n = kept accept draws' n := by
  refine congrArg (List.filterMap accept) (List.map_congr_left fun j hj ↦ ?_)
  exact h j (List.mem_range.mp hj)

/-- The draws that are needed for `m` values. -/
def Needs (accept : D → Option V) (draws : ℕ → D) (m k : ℕ) : Prop :=
  IsLeast {k | m ≤ (kept accept draws k).length} k

/-- A permutation of the draws for every number of values that came before, and
what it does to the value of an accepted draw. -/
structure Shift (accept : D → Option V) where
  draw : ℕ → Equiv.Perm D
  value : ℕ → Equiv.Perm V
  accept_draw : ∀ c d, accept (draw c d) = (accept d).map (value c)

namespace Shift

variable {accept : D → Option V} (s : Shift accept)

def symm : Shift accept where
  draw c := (s.draw c).symm
  value c := (s.value c).symm
  accept_draw c d := by
    have h := s.accept_draw c ((s.draw c).symm d)
    rw [Equiv.apply_symm_apply] at h
    rw [h, Option.map_map]
    simp

/-- The shifted stream. -/
def stream (draws : ℕ → D) : ℕ → D := fun j ↦ s.draw (kept accept draws j).length (draws j)

theorem kept_stream (draws : ℕ → D) (n : ℕ) :
    kept accept (s.stream draws) n = (kept accept draws n).mapIdx fun i v ↦ s.value i v := by
  induction n with
  | zero => rfl
  | succ n ih =>
      rw [kept_succ, kept_succ, List.mapIdx_append, ← ih, stream, s.accept_draw]
      cases accept (draws n) <;> simp

theorem length_kept_stream (draws : ℕ → D) (n : ℕ) :
    (kept accept (s.stream draws) n).length = (kept accept draws n).length := by
  rw [kept_stream, List.length_mapIdx]

theorem stream_congr {draws draws' : ℕ → D} {n j : ℕ} (h : ∀ j < n, draws j = draws' j)
    (hj : j < n) : s.stream draws j = s.stream draws' j := by
  rw [stream, stream, h j hj, kept_congr fun i hi ↦ h i (hi.trans hj)]

theorem symm_stream (draws : ℕ → D) : s.symm.stream (s.stream draws) = draws := by
  funext j
  rw [stream, length_kept_stream]
  exact (s.draw _).symm_apply_apply _

/-! ## The first draws -/

variable {n : ℕ}

/-- The stream of the first `n` draws, padded. -/
def pad (z : D) (w : Fin n → D) : ℕ → D := fun j ↦ if h : j < n then w ⟨j, h⟩ else z

variable (z : D) (w : Fin n → D)

def onFirst : Fin n → D := fun j ↦ s.stream (pad z w) j

theorem pad_onFirst {j : ℕ} (hj : j < n) : pad z (s.onFirst z w) j = s.stream (pad z w) j := by
  rw [pad, dif_pos hj, onFirst]

theorem symm_onFirst : s.symm.onFirst z (s.onFirst z w) = w := by
  funext j
  rw [onFirst, s.symm.stream_congr (fun i hi ↦ s.pad_onFirst z w hi) j.isLt, symm_stream, pad,
    dif_pos j.isLt]

/-- The shift permutes the vectors of first draws. -/
def firstDraws (n : ℕ) : Equiv.Perm (Fin n → D) where
  toFun := s.onFirst z
  invFun := s.symm.onFirst z
  left_inv := s.symm_onFirst z
  right_inv := s.symm.symm_onFirst z

theorem kept_firstDraws {k : ℕ} (hk : k ≤ n) :
    kept accept (pad z (s.firstDraws z n w)) k =
      (kept accept (pad z w) k).mapIdx fun i v ↦ s.value i v := by
  rw [← kept_stream]
  exact kept_congr fun j hj ↦ s.pad_onFirst z w (hj.trans_le hk)

/-- As many draws are needed after the shift as before. -/
theorem needs_firstDraws {m k : ℕ} (hk : k ≤ n) :
    Needs accept (pad z (s.firstDraws z n w)) m k ↔ Needs accept (pad z w) m k := by
  have hlength : ∀ j ≤ n, (kept accept (pad z (s.firstDraws z n w)) j).length =
      (kept accept (pad z w) j).length := fun j hj ↦ by
    rw [s.kept_firstDraws z w hj, List.length_mapIdx]
  constructor
  · rintro ⟨hmem, hleast⟩
    refine ⟨(hmem.trans (hlength k hk).le :), fun j hj ↦ ?_⟩
    by_contra hlt
    have hjn : j ≤ n := (not_le.mp hlt).le.trans hk
    exact hlt (hleast (hj.trans (hlength j hjn).ge :))
  · rintro ⟨hmem, hleast⟩
    refine ⟨(hmem.trans (hlength k hk).ge :), fun j hj ↦ ?_⟩
    by_contra hlt
    have hjn : j ≤ n := (not_le.mp hlt).le.trans hk
    exact hlt (hleast (hj.trans (hlength j hjn).le :))

end Shift

/-! ## Readers of the first draws -/

section Reads

variable {accept : D → Option V} {z : D} {m n : ℕ} {β : Type*}

/-- What is observed of the first `n` draws: `f` of the values that were needed, and
how many draws that took. -/
def Reads (accept : D → Option V) (z : D) (m : ℕ) (f : List V → β)
    (obs : (Fin n → D) → Option (β × ℕ)) : Prop :=
  ∀ w b k, obs w = some (b, k) ↔
    k ≤ n ∧ Needs accept (Shift.pad z w) m k ∧ b = f (kept accept (Shift.pad z w) k)

/-- Readers whose results differ by the shift of the values observe the same on
shifted draws. -/
theorem Reads.shift {f f' : List V → β} {obs obs' : (Fin n → D) → Option (β × ℕ)}
    (h : Reads accept z m f obs) (h' : Reads accept z m f' obs') (s : Shift accept) {b b' : β}
    (hf : ∀ l, m ≤ l.length → (b = f l ↔ b' = f' (l.mapIdx fun i v ↦ s.value i v)))
    (w : Fin n → D) (k : ℕ) : obs w = some (b, k) ↔ obs' (s.firstDraws z n w) = some (b', k) := by
  rw [h, h']
  refine and_congr_right fun hk ↦ ?_
  rw [s.needs_firstDraws z w hk, s.kept_firstDraws z w hk]
  exact and_congr_right fun hneeds ↦ hf _ hneeds.1

end Reads

/-! ## Residues of words -/

open UniformSampling

section Words

variable {W q : ℕ} (e : D ≃ Fin W)

/-- The residue of a word that is kept. -/
def wordResidue (q : ℕ) (d : D) : Option (ZMod q) :=
  (keptResidue W q (e d)).map fun (v : ℕ) ↦ (v : ZMod q)

variable [NeZero q]

theorem wordResidue_eq (hW : q ≤ W) (d : D) :
    wordResidue e q d =
      if (e d).val ≤ largestKept W q then some ((e d).val : ZMod q) else none := by
  simp only [wordResidue, keptResidue, le_largestKept_iff (NeZero.pos q) hW]
  split_ifs
  · rw [Option.map_some, ZMod.natCast_mod]
  · rfl

/-- The kept words as numbers. -/
def keptWords (hW : q ≤ W) : { d // (e d).val ≤ largestKept W q } ≃ Kept W q where
  toFun d := ⟨(e d.val).val, d.property⟩
  invFun r := ⟨e.symm ⟨r.val, by
    have hkept := largestKept_succ (NeZero.pos q) hW
    have hle := Nat.mul_div_le W q
    have hr := r.property
    omega⟩, by simpa using r.property⟩
  left_inv d := Subtype.ext (by simp)
  right_inv r := Subtype.ext (by simp)

/-- A kept word moved by `δ`; the rejected ones stay. -/
def shiftWord (hW : q ≤ W) (δ : ZMod q) : Equiv.Perm D :=
  Equiv.Perm.ofSubtype ((keptWords e hW).symm.permCongr (UniformSampling.shift hW δ))

theorem wordResidue_shiftWord (hW : q ≤ W) (δ : ZMod q) (d : D) :
    wordResidue e q (shiftWord e hW δ d) = (wordResidue e q d).map (Equiv.addRight δ) := by
  rw [wordResidue_eq e hW, wordResidue_eq e hW]
  by_cases hd : (e d).val ≤ largestKept W q
  · rw [shiftWord, Equiv.Perm.ofSubtype_apply_of_mem (p := fun d ↦ (e d).val ≤ _) _ hd]
    set moved := (keptWords e hW).symm.permCongr (UniformSampling.shift hW δ) ⟨d, hd⟩ with hmoved
    have hshift : keptWords e hW moved = UniformSampling.shift hW δ (keptWords e hW ⟨d, hd⟩) := by
      simp [hmoved, Equiv.permCongr_apply]
    have hresidue := shift_residue hW δ (keptWords e hW ⟨d, hd⟩)
    rw [← hshift] at hresidue
    rw [if_pos moved.property, if_pos hd]
    exact congrArg some hresidue
  · rw [shiftWord, Equiv.Perm.ofSubtype_apply_of_not_mem (p := fun d ↦ (e d).val ≤ _) _ hd,
      if_neg hd]
    rfl

/-- The residues, each moved by an amount of its own. -/
def wordShift (hW : q ≤ W) (δ : ℕ → ZMod q) : Shift (wordResidue e q) where
  draw c := shiftWord e hW (δ c)
  value c := Equiv.addRight (δ c)
  accept_draw c := wordResidue_shiftWord e hW (δ c)

/-! ## Masks -/

variable {N : ℕ} (out : Fin N → Prop) [DecidablePred out]

/-- A vector under a mask of residues: the entries of `out` are shown as they are. -/
def masked (shown hidden : Fin N → ZMod q) (l : List (ZMod q)) : Fin N → ZMod q := fun c ↦
  if out c then shown c else hidden c + l.getD c 0

variable {e out} {z : D} {n : ℕ} {shown hidden hidden' : Fin N → ZMod q}
  {obs obs' : (Fin n → D) → Option ((Fin N → ZMod q) × ℕ)}

theorem Reads.masked_shift (hW : q ≤ W)
    (h : Reads (wordResidue e q) z N (masked out shown hidden) obs)
    (h' : Reads (wordResidue e q) z N (masked out shown hidden') obs') (δ : Fin N → ZMod q)
    {v v' : Fin N → ZMod q} (hout : ∀ c, out c → v c = v' c)
    (hother : ∀ c, ¬out c → v' c - hidden' c = v c - hidden c + δ c) (w : Fin n → D) (k : ℕ) :
    obs w = some (v, k) ↔
      obs' ((wordShift e hW fun c ↦ if h : c < N then δ ⟨c, h⟩ else 0).firstDraws z n w) =
        some (v', k) := by
  refine h.shift h' _ (fun l hl ↦ ?_) w k
  rw [funext_iff, funext_iff]
  refine forall_congr' fun c ↦ ?_
  by_cases hc : out c
  · simp only [masked, hc, if_true, hout c hc]
  · have hmoved := hother c hc
    have hcl : c.val < l.length := c.isLt.trans_le hl
    simp only [masked, hc, if_false]
    rw [List.getD_eq_getElem _ _ hcl, List.getD_eq_getElem _ _ (by simpa using hcl),
      List.getElem_mapIdx]
    simp only [wordShift, c.isLt, dif_pos, Equiv.coe_addRight]
    rw [← sub_eq_iff_eq_add', ← sub_eq_iff_eq_add', hmoved, add_left_inj]

/-- Two vectors under one kind of mask cannot be told apart by what is shown: a
permutation of the draws turns every observation of the one into the same
observation of the other, the number of draws included.  Given that number, all
vectors that agree where they are shown are equally frequent. -/
theorem Reads.hides (hW : q ≤ W)
    (h : Reads (wordResidue e q) z N (masked out shown hidden) obs)
    (h' : Reads (wordResidue e q) z N (masked out shown hidden') obs') :
    (∃ σ : Equiv.Perm (Fin n → D), ∀ w, obs w = obs' (σ w)) ∧
    ∀ (v v' : Fin N → ZMod q) (k : ℕ), (∀ c, out c → v c = v' c) →
      {w | obs w = some (v, k)}.ncard = {w | obs w = some (v', k)}.ncard := by
  refine ⟨?_, fun v v' k hv ↦ ?_⟩
  · have hmoved := fun v ↦ h.masked_shift hW h' (fun c ↦ hidden c - hidden' c) (v := v)
      (fun _ _ ↦ rfl) fun c _ ↦ by ring
    exact ⟨_, fun w ↦ Option.ext fun ⟨v, k⟩ ↦ hmoved v w k⟩
  · have hmoved := h.masked_shift hW h (fun c ↦ v' c - v c) hv (fun c _ ↦ by ring)
    set σ := (wordShift e hW fun c ↦ if h : c < N then v' ⟨c, h⟩ - v ⟨c, h⟩ else 0).firstDraws z n
    rw [← Set.ncard_image_of_injective _ σ.injective, Equiv.image_eq_preimage_symm]
    refine congrArg Set.ncard (Set.ext fun w ↦ (hmoved (σ.symm w) k).trans ?_)
    rw [Equiv.apply_symm_apply]
    rfl

end Words

end DrawStream
