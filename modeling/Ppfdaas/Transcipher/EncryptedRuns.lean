import Ppfdaas.Library.CentredResidue
import Ppfdaas.Transcipher.RowSchedule

/-!
# Whole runs of the encrypted evaluation

The correctness loops of `TestCNPRun` and `TestSlotRun` with the coefficient path
and the slot path in place of their parameter: what a run reports, and how far the
two arms agree.
-/

namespace Ppfdaas.Transcipher

/-! ## The keystreams of a run -/

/-- What client and server hold of the keystream of every batch: the element of a
nonce, up to the noise that the client's cipher adds. -/
structure Keystreams (t : ℕ) (noiseBound : ℤ) where
  client : (batch nonce element : ℕ) → ℕ
  server : (batch nonce element : ℕ) → ℕ
  noise : (batch nonce element : ℕ) → ℤ
  client_modEq : ∀ b i kk, (client b i kk : ℤ) ≡ server b i kk + noise b i kk [ZMOD t]
  noise_le : ∀ b i kk, |noise b i kk| ≤ noiseBound

theorem Keystreams.noiseBound_nonneg {t : ℕ} {noiseBound : ℤ} (k : Keystreams t noiseBound) :
    0 ≤ noiseBound :=
  (abs_nonneg _).trans (k.noise_le 0 0 0)

/-- The keystream ciphertexts at level 0, each with an error of its own. -/
structure KeystreamPhases (x : CnpCtx) {noiseBound : ℤ} (k : Keystreams x.t noiseBound)
    (errorBound : ℤ) where
  ks0 : (batch element : ℕ) → x.Phase
  error : (batch element : ℕ) → Fin x.N → ℤ
  ks0_eq : ∀ b kk c, ks0 b kk c =
    ((ScaledPhase.scaleUp x.t x.q0 (k.server b (x.bitrev c) kk) + error b kk c : ℤ) : ZMod x.q0)
  error_le : ∀ b kk c, |error b kk c| ≤ errorBound

namespace CnpData

variable (d : CnpData)

/-- The score of row `i` with noise on its features. -/
def NoisyScore (bound : ℤ) (i : ℕ) (v : ℤ) : Prop :=
  ∃ e : Fin cnpFeatures → ℤ, (∀ j, |e j| ≤ bound) ∧
    v = cnpCentre (∑ j, ((d.xq (d.rows.getD i 0) j).toInt + e j) * d.wq j + d.biasQ) d.t

section Cnp

variable {x : CnpCtx} {noiseBound errorBound : ℤ} {k : Keystreams x.t noiseBound}
  (phases : KeystreamPhases x k errorBound) (draws : (batch element : ℕ) → Fin x.N → ℕ)

/-- One output ciphertext of `TestCNPRun`. -/
def cnpEvaluate : CnpEvaluate x.lanes := fun b kk data ↦
  x.cnpBankRead (x.cnpOnline
    (x.cnpClientSym (fun i (j : Fin (kk + 1)) ↦ k.client b i j) (Fin.last kk) fun c ↦ data c)
    (phases.ks0 b kk) d.wq d.biasQ true (draws b kk))

variable {d}

theorem noisyScore_cnp (ht : Odd x.t) (hd : d.t = x.t)
    (hbound : 2 * x.t * ((∑ j, |d.wq j|) * (errorBound + 1) + 1) ≤ x.q0) {i : ℕ} {v : ℤ}
    {used : List Use} (h : d.CnpValue (d.cnpEvaluate phases draws) used i v) :
    d.NoisyScore noiseBound i v := by
  obtain ⟨⟨b, kk, first⟩, -, lane, rfl, -, hdata⟩ := h
  let client (i : Fin x.N) (j : Fin (kk + 1)) : ℕ := k.client b i j
  let server (i : Fin x.N) (j : Fin (kk + 1)) : ℕ := k.server b i j
  let noise (c : Fin x.N) : ℤ := k.noise b (x.bitrev c) kk
  have hnoise : ∀ c, (client (x.bitrev c) (Fin.last kk) : ℤ) ≡
      server (x.bitrev c) (Fin.last kk) + noise c [ZMOD x.t] :=
    fun c ↦ k.client_modEq b (x.bitrev c) kk
  have hread := CnpCtx.cnpBankRead_noise ht (fun c ↦ d.dataVec x.lanes first c) d.wq hnoise
    (phases.ks0_eq b kk) (phases.error_le b kk) hbound d.biasQ true (draws b kk) lane
  refine ⟨fun j ↦ noise (x.coeff lane j), fun j ↦ k.noise_le b _ kk, ?_⟩
  simp only [← hdata, hd]
  exact hread

end Cnp

section Slot

variable {N t : ℕ} [NeZero t] {noiseBound : ℤ} (k : Keystreams t noiseBound)
  (draws : (batch base slot : ℕ) → ℕ)

/-- One group of `TestSlotRun`. -/
def slotEvaluate : SlotEvaluate N := fun b g rows ↦
  let ks (kk : ℕ) : FvSlots t := encodeSlots fun i ↦ k.server b i kk
  slotBankRead g (slotOnline g d.wq (fun c ↦ slotClientSym t g c rows (k.client b)) ks d.biasQ
    true (draws b g.base))

variable {k}

/-- Under a noisy keystream the row keeps the noise. -/
theorem slotClientSym_noise (g : SlotGroup N) (b : ℕ) (c : Fin g.G)
    {rows : Fin g.lanes → Option Row} {l : Fin g.lanes} {row : Row} (hrow : rows l = some row)
    (r : Fin g.S) :
    (slotClientSym t g c rows (k.client b) (g.slot l r) : ZMod t) -
        k.server b (g.slot l r) (g.base + c) =
      (((row (g.feature c r)).toInt + k.noise b (g.slot l r) (g.base + c) : ℤ) : ZMod t) := by
  have hsub := slotClientSym_sub g (NeZero.pos t) c rows (k.client b) l r
  rw [hrow, Option.elim_some] at hsub
  have hclient : (k.client b (g.slot l r) (g.base + c) : ZMod t) =
      k.server b (g.slot l r) (g.base + c) + k.noise b (g.slot l r) (g.base + c) := by
    exact_mod_cast (ZMod.intCast_eq_intCast_iff _ _ t).mpr (k.client_modEq b _ _)
  rw [hclient] at hsub
  push_cast
  linear_combination hsub

variable {d draws}

theorem noisyScore_slot (hd : d.t = t) {groups : List (SlotGroup N)} {i : ℕ} {v : ℤ}
    {used : List Use} (h : d.SlotValue groups (d.slotEvaluate k draws) used i v) :
    d.NoisyScore noiseBound i v := by
  obtain ⟨b, g, -, first, l, rfl, -, hrow, -⟩ := h
  set row := d.xq (d.rows.getD i 0)
  let e (j : Fin cnpFeatures) : ℤ := k.noise b (g.slot l (j / g.G)) (g.base + j % g.G)
  have he : ∀ (c : Fin g.G) (r : Fin g.S),
      k.noise b (g.slot l r) (g.base + c) = e (g.feature c r) := by
    intro c r
    have hmod : (g.feature c r).val % g.G = c := Nat.mul_add_mod_of_lt c.isLt
    have hdiv : (g.feature c r).val / g.G = r := by
      change (r * g.G + c.val) / g.G = r
      rw [Nat.mul_comm, Nat.mul_add_div g.G_pos, Nat.div_eq_of_lt c.isLt, add_zero]
    simp only [e, hmod, hdiv]
  refine ⟨e, fun j ↦ k.noise_le b _ _, ?_⟩
  rw [hd]
  apply slotBankRead_eq
  rw [slotOnline_output g (NeZero.pos t)]
  simp only [encodeSlots, slotClientSym_noise g b _ hrow, he]
  rw [sum_feature g fun j ↦ (((row j).toInt + e j : ℤ) : ZMod t) * (d.wq j : ZMod t)]
  push_cast
  rfl

end Slot

/-! ## How far the noise reaches -/

section Noise

variable {d} {bound : ℤ} {i : ℕ} {v : ℤ}

theorem NoisyScore.diff_eq_zero (h : d.NoisyScore 0 i v) : d.diff i v = 0 := by
  obtain ⟨e, he, rfl⟩ := h
  have hzero : ∀ j, e j = 0 := fun j ↦ abs_nonpos_iff.mp (he j)
  simp only [diff, cnpSim, hzero, add_zero, sub_self]

theorem cnpCentre_of_abs_le {t : ℤ} (ht : 0 < t) (hodd : Odd t) (h : |v| ≤ t / 2) :
    cnpCentre v t = v :=
  (cnpCentre_eq ht v).trans ((CentredResidue.centred_eq_self_iff ht hodd v).mpr h)

/-- The row can take the noise without a wrap. -/
def TakesNoise (d : CnpData) (bound : ℤ) (row : Row) : Prop :=
  |∑ j, (row j).toInt * d.wq j + d.biasQ| + bound * ∑ j, |d.wq j| ≤ d.t / 2

theorem NoisyScore.diff_le (h : d.NoisyScore bound i v) (ht : 0 < d.t) (hodd : Odd d.t)
    (hbound : 0 ≤ bound) (htakes : d.TakesNoise bound (d.xq (d.rows.getD i 0))) :
    |d.diff i v| ≤ bound * ∑ j, |d.wq j| := by
  obtain ⟨e, he, rfl⟩ := h
  set row := d.xq (d.rows.getD i 0)
  have hnoise : |∑ j, e j * d.wq j| ≤ bound * ∑ j, |d.wq j| := by
    rw [Finset.mul_sum]
    refine (Finset.abs_sum_le_sum_abs _ _).trans (Finset.sum_le_sum fun j _ ↦ ?_)
    rw [abs_mul]
    exact mul_le_mul_of_nonneg_right (he j) (abs_nonneg _)
  have hweight : 0 ≤ bound * ∑ j, |d.wq j| :=
    mul_nonneg hbound (Finset.sum_nonneg fun j _ ↦ abs_nonneg _)
  have hsplit : ∑ j, ((row j).toInt + e j) * d.wq j + d.biasQ =
      ∑ j, (row j).toInt * d.wq j + d.biasQ + ∑ j, e j * d.wq j := by
    simp only [add_mul, Finset.sum_add_distrib]
    ring
  have hnoisy : cnpCentre (∑ j, ((row j).toInt + e j) * d.wq j + d.biasQ) d.t =
      ∑ j, ((row j).toInt + e j) * d.wq j + d.biasQ := by
    refine cnpCentre_of_abs_le ht hodd ?_
    rw [hsplit]
    exact (abs_add_le _ _).trans ((add_le_add_right hnoise _).trans htakes)
  have hexact : cnpSim row d.wq d.biasQ d.t = ∑ j, (row j).toInt * d.wq j + d.biasQ :=
    cnpCentre_of_abs_le ht hodd (le_of_add_le_of_nonneg_left htakes hweight)
  rw [diff, hnoisy, hexact, hsplit, add_sub_cancel_left]
  exact hnoise

theorem maxAbs_le {l : List ℤ} (hbound : 0 ≤ bound) (h : ∀ v ∈ l, |v| ≤ bound) :
    maxAbs l ≤ bound := by
  rw [maxAbs]
  refine List.foldlRecOn (motive := fun most ↦ most ≤ bound) l _ hbound ?_
  exact fun most hmost v hv ↦ max_le hmost (h v hv)

end Noise

/-! ## Both arms -/

/-- What a run of either arm leaves when the keystreams differ by `noise` at most. -/
structure Faithful (d : CnpData) (cipher : String) (noise : ℤ) (s : Decoded) : Prop where
  finished : s.fatal = none
  rows : s.decRows = d.rows.map fun (r : ℕ) ↦ int32 r
  scored : ScoresAll d s
  reported : d.Reported cipher s
  values : ∀ i v, s.decVals[i]? = some v → d.NoisyScore noise i v
  close : (∀ r ∈ d.rows, d.TakesNoise noise (d.xq r)) →
    s.maxAbsInt ≤ noise * ∑ j, |d.wq j|
  bitExact : noise = 0 → s.mismatches = 0 ∧
    s.decVals = d.rows.map fun r ↦ cnpSim (d.xq r) d.wq d.biasQ d.t

section Faithful

variable {d} {cipher : String} {noise : ℤ} {s : Decoded} {P : List Use → ℕ → ℤ → Prop}

theorem Scheduled.faithful (h : d.Scheduled cipher P s)
    (hP : ∀ i v, P s.used i v → d.NoisyScore noise i v) {t : ℕ} (ht : Odd t) (hd : d.t = t)
    (hnoise : 0 ≤ noise) (hcipher : cipher = "hera" → noise = 0) : d.Faithful cipher noise s := by
  have hpos : 0 < d.t := by
    rw [hd]
    exact_mod_cast ht.pos
  have hodd : Odd d.t := by
    rw [hd]
    exact_mod_cast ht
  obtain ⟨n, haligned⟩ := h.aligned
  have hvalues : ∀ i v, s.decVals[i]? = some v → d.NoisyScore noise i v :=
    fun i v hv ↦ hP i v (haligned.value i v hv)
  have hexact : noise = 0 → s.mismatches = 0 := by
    rintro rfl
    exact (h.finished fun i v hv ↦ (hP i v hv).diff_eq_zero).1
  have hfinished : s.fatal = none := by
    rw [← Option.not_isSome_iff_eq_none, h.reported.fatal]
    rintro ⟨hhera, hmissed⟩
    exact hmissed.ne' (hexact (hcipher hhera))
  have hlength : s.decVals.length = d.rows.length := (h.scoresAll hfinished).1
  have hrows : s.decRows = d.rows.map fun (r : ℕ) ↦ int32 r := by
    rw [(h.complete hfinished).rows, List.take_length]
  refine ⟨hfinished, hrows, h.scoresAll hfinished, h.reported, hvalues, fun htakes ↦ ?_,
    fun hzero ↦ ?_⟩
  · rw [h.reported.maxAbsInt]
    have hweight : 0 ≤ noise * ∑ j, |d.wq j| :=
      mul_nonneg hnoise (Finset.sum_nonneg fun j _ ↦ abs_nonneg _)
    refine maxAbs_le hweight fun v hv ↦ ?_
    obtain ⟨i, u, hu, rfl⟩ := mem_diffs hv
    refine (hvalues i u hu).diff_le hpos hodd hnoise (htakes _ ?_)
    have hi : i < d.rows.length := hlength ▸ (List.getElem?_eq_some_iff.mp hu).1
    rw [List.getD_eq_getElem _ _ hi]
    exact List.getElem_mem hi
  · refine ⟨hexact hzero, List.ext_getElem ?_ fun i h₁ h₂ ↦ ?_⟩
    · rw [hlength, List.length_map]
    · have hscore := hvalues i _ (List.getElem?_eq_getElem h₁)
      rw [hzero] at hscore
      have hdiff := sub_eq_zero.mp hscore.diff_eq_zero
      rw [List.getD_eq_getElem _ _ (hlength ▸ h₁)] at hdiff
      rw [hdiff, List.getElem_map]

section Arms

variable {x : CnpCtx} {errorBound : ℤ} {k : Keystreams x.t noise}

theorem faithful_cnpRun (ht : Odd x.t) (hlanes : 0 < x.lanes) (hd : d.t = x.t)
    (hcipher : cipher = "hera" → noise = 0) (phases : KeystreamPhases x k errorBound)
    (hbound : 2 * x.t * ((∑ j, |d.wq j|) * (errorBound + 1) + 1) ≤ x.q0)
    (draws : (batch element : ℕ) → Fin x.N → ℕ) :
    d.Faithful cipher noise (d.cnpRun cipher x.lanes (d.cnpEvaluate phases draws)) := by
  exact (d.scheduled_cnpRun cipher _ hlanes).faithful
    (fun i v h ↦ noisyScore_cnp phases draws ht hd hbound h) ht hd k.noiseBound_nonneg hcipher

variable (k) in
theorem faithful_slotRun (ht : Odd x.t) (hlanes : 0 < x.lanes) (hd : d.t = x.t)
    (hcipher : cipher = "hera" → noise = 0) {groups : List (SlotGroup x.N)}
    (hlayout : slotLayout cipher x.N = .ok groups) (draws : (batch base slot : ℕ) → ℕ) {fuel : ℕ}
    (hfuel : d.rows.length < fuel) :
    ∃ slot, d.slotRun cipher (d.slotEvaluate k draws) groups fuel = some slot ∧
      d.Faithful cipher noise slot := by
  have : NeZero x.t := ⟨ht.pos.ne'⟩
  have hlogN : 1 ≤ x.logN := by
    by_contra hzero
    have hN : x.N = 1 := by rw [CnpCtx.N, Nat.lt_one_iff.mp (not_le.mp hzero), pow_zero]
    rw [CnpCtx.lanes, hN] at hlanes
    exact absurd hlanes (by decide)
  obtain ⟨slot, hrun, hscheduled⟩ :=
    scheduled_slotRun hlogN hlayout (d.slotEvaluate k draws) hfuel
  exact ⟨slot, hrun, hscheduled.faithful (fun i v h ↦ noisyScore_slot hd h) ht hd
    k.noiseBound_nonneg hcipher⟩

end Arms

end Faithful

end CnpData

open CnpData

/-- Both arms on the same data: every run finishes, reports what it has decoded,
and is as far from the integer scores as the noise of the cipher reaches; without
noise the arms leave the same files. -/
theorem encrypted_runs_agree {x : CnpCtx} (ht : Odd x.t) (hlanes : 0 < x.lanes) {d : CnpData}
    (hd : d.t = x.t) {cipher : String} {groups : List (SlotGroup x.N)}
    (hlayout : slotLayout cipher x.N = .ok groups) {noise errorBound : ℤ}
    (hcipher : cipher = "hera" → noise = 0) (k k' : Keystreams x.t noise)
    (phases : KeystreamPhases x k errorBound)
    (hbound : 2 * x.t * ((∑ j, |d.wq j|) * (errorBound + 1) + 1) ≤ x.q0)
    (draws : (batch element : ℕ) → Fin x.N → ℕ) (draws' : (batch base slot : ℕ) → ℕ) {fuel : ℕ}
    (hfuel : d.rows.length < fuel) :
    let cnp := d.cnpRun cipher x.lanes (d.cnpEvaluate phases draws)
    d.Faithful cipher noise cnp ∧
      ∃ slot, d.slotRun cipher (d.slotEvaluate k' draws') groups fuel = some slot ∧
        d.Faithful cipher noise slot ∧ slot.decRows = cnp.decRows ∧
          (noise = 0 → slot.files = cnp.files) := by
  intro cnp
  have hcnp := faithful_cnpRun ht hlanes hd hcipher phases hbound draws
  obtain ⟨slot, hrun, hslot⟩ := faithful_slotRun k' ht hlanes hd hcipher hlayout draws' hfuel
  have hrows : slot.decRows = cnp.decRows := hslot.rows.trans hcnp.rows.symm
  refine ⟨hcnp, slot, hrun, hslot, hrows, fun hzero ↦ ?_⟩
  rw [Decoded.files, Decoded.files, hrows, (hslot.bitExact hzero).2, (hcnp.bitExact hzero).2]

/-! ## Three rows in one lane -/

theorem rows_mul_columns : 16 * 16 = cnpFeatures := rfl

theorem abs_zero_le : |(0 : ℤ)| ≤ 0 := abs_zero.le

namespace CnpCtx

def toyData : CnpData := ⟨[0, 0, 0], fun _ ↦ toyRow, toyWeights, 5, 3⟩

def toyKeystreams : Keystreams toyCtx.t 0 where
  client _ i kk := (i + kk) % 3
  server _ i kk := (i + kk) % 3
  noise _ _ _ := 0
  client_modEq _ _ _ := by rw [add_zero]
  noise_le _ _ _ := abs_zero_le

def toyPhases : KeystreamPhases toyCtx toyKeystreams 0 where
  ks0 b kk c :=
    ((ScaledPhase.scaleUp 3 13 (toyKeystreams.server b (toyCtx.bitrev c) kk) : ℤ) : ZMod 13)
  error _ _ _ := 0
  ks0_eq _ _ _ := by
    rw [add_zero]
    rfl
  error_le _ _ _ := by decide

def toyGroup : SlotGroup toyCtx.N := ⟨0, 16, 16, 16, rows_mul_columns, by decide, by decide⟩

theorem encrypted_runs_agree_toy :
    let cnp := toyData.cnpRun "hera" toyCtx.lanes
      (toyData.cnpEvaluate toyPhases fun _ _ c ↦ c % 3)
    toyData.Faithful "hera" 0 cnp ∧
      ∃ slot, toyData.slotRun "hera" (toyData.slotEvaluate toyKeystreams fun _ _ i ↦ i % 3)
        [toyGroup] 4 = some slot ∧ slot.files = cnp.files := by
  intro cnp
  have hbound : 2 * (3 : ℤ) * ((∑ j, |toyWeights j|) * (0 + 1) + 1) ≤ 13 := by decide +kernel
  obtain ⟨hcnp, slot, hrun, -, -, hfiles⟩ := encrypted_runs_agree (x := toyCtx) (d := toyData)
    (by decide) (by decide) rfl (rfl : slotLayout "hera" toyCtx.N = .ok [toyGroup])
    (fun _ ↦ rfl) toyKeystreams toyKeystreams toyPhases hbound (fun _ _ c ↦ c % 3)
    (fun _ _ i ↦ i % 3) (by decide : toyData.rows.length < 4)
  exact ⟨hcnp, slot, hrun, hfiles rfl⟩

end CnpCtx

end Ppfdaas.Transcipher
