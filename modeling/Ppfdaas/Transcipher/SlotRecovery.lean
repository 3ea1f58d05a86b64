import Ppfdaas.Library.CentredResidue
import Ppfdaas.Transcipher.SlotLayout

/-!
# Weights in the slots that are no output

The weight recovery test of `TestSlotRun`: a one-hot row in every even lane, its
weight read from a slot that the bank does not need, with the mask and without it.
-/

namespace Ppfdaas.Transcipher

open WriteLoop

section Test

variable {N : ℕ} (g : SlotGroup N) (t : ℕ)

/-- `r`: the offset of the feature that lane `l` asks for. -/
def SlotGroup.askedOffset (l : ℕ) : ℕ := l / 2 % (g.S - 1) + 1

/-- `f`: that feature. -/
def SlotGroup.askedFeature (l : ℕ) : ℕ := g.askedOffset l * g.G + l / 2 % g.G

def zeroRow : Row := fun _ ↦ 0

def qRows (l : Fin g.lanes) : Option Row :=
  if l.val % 2 ≠ 0 then some zeroRow
  else some fun j ↦ if j.val = g.askedFeature l then 1 else 0

def zRows (_ : Fin g.lanes) : Option Row := some zeroRow

variable {t} (wq : Fin cnpFeatures → ℤ) (ks : ℕ → ℕ → ℕ) (ksL : ℕ → FvSlots t) (biasQ : ℤ)

/-- `run`: under a mask, where draws for one are given. -/
def recoveryRun (rows : Fin g.lanes → Option Row) (mask : Option (ℕ → ℕ)) : FvSlots t :=
  preMask g wq (fun c ↦ slotClientSym t g c rows ks) ksL +
    mask.elim 0 fun draws ↦ encodeSlots (slotMaskSlots t g biasQ true draws)

/-- The difference that the test compares with a weight. -/
def recovered (u v : FvSlots t) (slot : ℕ) : ℤ := cnpCentre ((u slot).val - (v slot).val) t

end Test

/-! ## Any slot after the fold -/

section Fold

variable {N : ℕ} (g : SlotGroup N) {t : ℕ}

/-- A slot holds the sum of the `S` slots from itself on, around its row. -/
theorem rotateSum_row (acc : FvSlots t) {base p : ℕ} (hbase : base = 0 ∨ base = N / 2)
    (hp : p < N / 2) :
    rotateSum g acc (base + p) = ∑ i ∈ Finset.range g.S, acc (base + (p + i) % (N / 2)) := by
  have : NeZero (N / 2) := ⟨by omega⟩
  obtain ⟨e, he⟩ := g.S_eq_pow
  have hsteps : g.steps.map (fun (step : ℕ) ↦ (step : ZMod (N / 2))) =
      (List.range e).map fun j ↦ 2 ^ j • (1 : ZMod (N / 2)) := by
    have hpow := SlotGroup.stepsFrom_pow 0 e
    rw [Nat.zero_add, pow_zero] at hpow
    rw [SlotGroup.steps, he, hpow, List.map_map]
    exact List.map_congr_left fun j _ ↦ by simp
  have hfold := slotRow_fold hbase g.steps acc
  rw [hsteps, WindowSum.fold_doubling, ← he] at hfold
  calc rotateSum g acc (base + p)
      = slotRow N base (rotateSum g acc) p := by
        rw [slotRow, ZMod.val_natCast_of_lt hp]
    _ = ∑ i ∈ Finset.range g.S, slotRow N base acc (p + i • 1) := congrFun hfold _
    _ = ∑ i ∈ Finset.range g.S, acc (base + (p + i) % (N / 2)) := by
        refine Finset.sum_congr rfl fun i _ ↦ ?_
        rw [slotRow, nsmul_one, ← Nat.cast_add, ZMod.val_natCast]

end Fold

/-! ## Which lanes a window meets -/

section Window

variable {k : ℕ} (g : SlotGroup (2 ^ k))

/-- A row has one lane of the group or an even number of them. -/
theorem perRow_eq_one_or_even (hk : 1 ≤ k) : 2 ^ k / 2 / g.S = 1 ∨ 2 ∣ 2 ^ k / 2 / g.S := by
  have hhalf : 2 ^ k / 2 = 2 ^ (k - 1) := by
    obtain ⟨m, rfl⟩ := Nat.exists_eq_add_of_le hk
    rw [pow_add, pow_one, Nat.mul_div_cancel_left _ two_pos, Nat.add_sub_cancel_left]
  have hdvd : 2 ^ k / 2 / g.S ∣ 2 ^ (k - 1) := by
    rw [← hhalf]
    exact Nat.div_dvd_of_dvd g.row
  obtain ⟨m, -, hm⟩ := (Nat.dvd_prime_pow Nat.prime_two).mp hdvd
  rw [hm]
  rcases Nat.eq_zero_or_pos m with rfl | hpos
  · exact .inl (pow_zero 2)
  · exact .inr (dvd_pow_self 2 hpos.ne')

/-- Every slot is one of a lane. -/
theorem exists_slot (hk : 1 ≤ k) {s : ℕ} (hs : s < 2 ^ k) :
    ∃ (l : Fin g.lanes) (r : Fin g.S), l.val = s / g.S ∧ r.val = s % g.S ∧ g.slot l r = s := by
  have hlane : s / g.S < g.lanes := by
    have heven : 2 ∣ 2 ^ k := dvd_pow_self 2 (Nat.one_le_iff_ne_zero.mp hk)
    rw [g.filled, Nat.div_lt_iff_lt_mul g.S_pos, Nat.div_mul_cancel (g.S_dvd heven)]
    exact hs
  refine ⟨⟨s / g.S, hlane⟩, ⟨s % g.S, Nat.mod_lt s g.S_pos⟩, rfl, rfl, ?_⟩
  rw [g.slot_eq]
  exact Nat.div_add_mod s g.S

/-- The window of an even lane meets that lane at other offsets, and odd lanes. -/
theorem window_slot (hk : 1 ≤ k) {l : Fin g.lanes} (hl : l.val % 2 = 0) {r i : ℕ} (hr : r < g.S)
    (hi : 0 < i) (hiS : i < g.S) {base p : ℕ} (hbase : base = 0 ∨ base = 2 ^ k / 2)
    (hslot : g.slot l r = base + p) (hp : p < 2 ^ k / 2) :
    ∃ (l' : Fin g.lanes) (r' : Fin g.S), g.slot l' r' = base + (p + i) % (2 ^ k / 2) ∧
      (l'.val % 2 = 1 ∨ l' = l ∧ r'.val ≠ r) := by
  have hrow := g.row_eq
  have hparity := perRow_eq_one_or_even g hk
  set perRow := 2 ^ k / 2 / g.S
  have hpos := g.S_pos
  -- The first lane of the row, and the lane's place in the row.
  obtain ⟨b, hb, hbParity⟩ : ∃ b, base = g.S * b ∧ (b = 0 ∨ b = perRow) := by
    rcases hbase with rfl | rfl
    · exact ⟨0, rfl, .inl rfl⟩
    · exact ⟨perRow, hrow, .inr rfl⟩
  rw [g.slot_eq] at hslot
  have hble : b ≤ l := by
    by_contra hlt
    have hle := Nat.mul_le_mul_left g.S (Nat.succ_le_of_lt (not_le.mp hlt))
    rw [Nat.mul_succ] at hle
    omega
  obtain ⟨a, ha⟩ := Nat.exists_eq_add_of_le hble
  have hpa : p = g.S * a + r := by
    rw [ha, Nat.mul_add] at hslot
    omega
  have haRow : a < perRow := by
    refine Nat.lt_of_mul_lt_mul_left (a := g.S) ?_
    rw [← hrow]
    omega
  have hshift : (p + i) % (2 ^ k / 2) =
      g.S * ((a + (r + i) / g.S) % perRow) + (r + i) % g.S := by
    rw [hrow, hpa, Nat.add_assoc, Nat.mod_mul, Nat.mul_add_mod, Nat.mul_add_div hpos, Nat.add_comm]
  have hlt : base + (p + i) % (2 ^ k / 2) < 2 ^ k := by
    have hmod := Nat.mod_lt (p + i) (Nat.zero_lt_of_lt hp)
    rcases hbase with rfl | rfl <;> omega
  obtain ⟨l', r', hl', hr', hslot'⟩ := exists_slot g hk hlt
  refine ⟨l', r', hslot', ?_⟩
  rw [hshift, hb, ← Nat.add_assoc, ← Nat.mul_add] at hl' hr'
  rw [Nat.mul_add_div hpos, Nat.div_eq_of_lt (Nat.mod_lt _ hpos), add_zero] at hl'
  rw [Nat.mul_add_mod, Nat.mod_mod] at hr'
  rcases lt_or_ge (r + i) g.S with hinside | hbeyond
  · refine .inr ⟨Fin.ext ?_, ?_⟩
    · rw [hl', Nat.div_eq_of_lt hinside, add_zero, Nat.mod_eq_of_lt haRow, ha]
    · rw [hr', Nat.mod_eq_of_lt hinside]
      omega
  · have hdiv : (r + i) / g.S = 1 := Nat.div_eq_of_lt_le (by omega) (by omega)
    have hmod : (r + i) % g.S = r + i - g.S := by
      rw [Nat.mod_eq_sub_mod hbeyond, Nat.mod_eq_of_lt (by omega)]
    rw [hdiv] at hl'
    rcases hparity with hone | heven
    · refine .inr ⟨Fin.ext ?_, by omega⟩
      rw [hl', hone, Nat.mod_one, add_zero]
      omega
    · have hsum := Nat.mod_mod_of_dvd (a + 1) heven
      exact .inl (by rcases hbParity with rfl | rfl <;> omega)

end Window

/-! ## What a query adds -/

section Query

variable {N : ℕ} (g : SlotGroup N) {t : ℕ} (wq : Fin cnpFeatures → ℤ) (ks : ℕ → ℕ → ℕ)
  (ksL : ℕ → FvSlots t)

/-- The weighted sum of a lane's slot under one offset. -/
def laneSum (row : Row) (r : Fin g.S) : ZMod t :=
  ∑ c : Fin g.G, ((row (g.feature c r)).toInt : ZMod t) * (wq (g.feature c r) : ZMod t)

/-- `acc` before the fold. -/
def groupSum (rows : Fin g.lanes → Option Row) : FvSlots t :=
  ∑ c : Fin g.G, (encodeSlots (slotClientSym t g c rows ks) - ksL (g.base + c)) *
    encodeSlots (slotWeightPoly t g c wq)

/-- Two uploads under one keystream differ by their rows. -/
theorem groupSum_sub [NeZero t] {rows rows' : Fin g.lanes → Option Row} {l : Fin g.lanes}
    {row row' : Row} (hrow : rows l = some row) (hrow' : rows' l = some row') (r : Fin g.S) :
    groupSum g wq ks ksL rows (g.slot l r) - groupSum g wq ks ksL rows' (g.slot l r) =
      laneSum g wq row r - laneSum g wq row' r := by
  rw [groupSum, groupSum, Finset.sum_apply, Finset.sum_apply, laneSum, laneSum,
    ← Finset.sum_sub_distrib, ← Finset.sum_sub_distrib]
  refine Finset.sum_congr rfl fun c _ ↦ ?_
  have hsub := slotClientSym_sub g (NeZero.pos t) c rows ks l r
  have hsub' := slotClientSym_sub g (NeZero.pos t) c rows' ks l r
  rw [hrow, Option.elim_some] at hsub
  rw [hrow', Option.elim_some] at hsub'
  simp only [Pi.mul_apply, Pi.sub_apply, encodeSlots, slotWeightPoly_slot g (NeZero.pos t)]
  linear_combination (wq (g.feature c r) : ZMod t) * (hsub - hsub')

theorem laneSum_zeroRow (r : Fin g.S) : laneSum g wq zeroRow r = (0 : ZMod t) := by
  simp [laneSum, zeroRow]

/-- A one-hot row shows its weight at the offset of its feature only. -/
theorem laneSum_oneHot (c : Fin g.G) (r r' : Fin g.S) :
    laneSum g wq (fun j ↦ if j.val = r * g.G + c then 1 else 0) r' =
      if r' = r then (wq (g.feature c r) : ZMod t) else 0 := by
  have hfeature : ∀ c' : Fin g.G, (g.feature c' r').val = r * g.G + c ↔ r' = r ∧ c' = c := by
    intro c'
    change r' * g.G + c'.val = r * g.G + c ↔ _
    constructor
    · intro h
      have hdiv := congrArg (· / g.G) h
      have hmod := congrArg (· % g.G) h
      simp only [Nat.mul_comm _ g.G, Nat.mul_add_div g.G_pos, Nat.div_eq_of_lt c.isLt,
        Nat.div_eq_of_lt c'.isLt, add_zero] at hdiv
      simp only [Nat.mul_add_mod_of_lt c.isLt, Nat.mul_add_mod_of_lt c'.isLt] at hmod
      exact ⟨Fin.ext hdiv, Fin.ext hmod⟩
    · rintro ⟨rfl, rfl⟩
      rfl
  rw [laneSum]
  simp only [hfeature]
  split_ifs with hr
  · subst hr
    rw [Finset.sum_eq_single c]
    · simp
    · intro c' _ hne
      simp [hne]
    · simp
  · simp [hr]

end Query

/-! ## What the test reads -/

theorem slotMaskSlots_nonOutput {N t : ℕ} {g : SlotGroup N} {biasQ : ℤ} {draws : ℕ → ℕ} {p : ℕ}
    (hp : ∀ l, p ≠ g.outputSlot l) : slotMaskSlots t g biasQ true draws p = draws p := by
  rw [slotMaskSlots, if_pos rfl]
  apply writeAll_of_forall_ne
  intro w hw heq
  obtain ⟨l, -, rfl⟩ := List.mem_map.mp hw
  exact hp l heq.symm

section Recovery

variable {k : ℕ} (g : SlotGroup (2 ^ k)) {t : ℕ} [NeZero t] (wq : Fin cnpFeatures → ℤ)
  (ks : ℕ → ℕ → ℕ) (ksL : ℕ → FvSlots t)

theorem askedOffset_lt (hS : 1 < g.S) (l : ℕ) : g.askedOffset l < g.S := by
  have hmod := Nat.mod_lt (l / 2) (Nat.sub_pos_of_lt hS)
  rw [SlotGroup.askedOffset]
  omega

/-- The feature that a lane asks for, with its bound. -/
def asked (hS : 1 < g.S) (l : ℕ) : Fin cnpFeatures :=
  g.feature ⟨l / 2 % g.G, Nat.mod_lt _ g.G_pos⟩ ⟨g.askedOffset l, askedOffset_lt g hS l⟩

/-- After the fold the slot of an even lane holds the weight it has asked for. -/
theorem preMask_sub_asked (hk : 1 ≤ k) (hS : 1 < g.S) {l : Fin g.lanes} (hl : l.val % 2 = 0) :
    preMask g wq (fun c ↦ slotClientSym t g c (qRows g) ks) ksL (g.slot l (g.askedOffset l)) -
      preMask g wq (fun c ↦ slotClientSym t g c (zRows g) ks) ksL (g.slot l (g.askedOffset l)) =
        (wq (asked g hS l) : ZMod t) := by
  set r := g.askedOffset l
  have hr : r < g.S := askedOffset_lt g hS l
  obtain ⟨base, p, hbase, hp, hslot⟩ := slot_in_row g l hS
  have hp : p + r < 2 ^ k / 2 := by omega
  have hat : g.slot l r = base + (p + r) := hslot r
  let q : FvSlots t := groupSum g wq ks ksL (qRows g)
  let z : FvSlots t := groupSum g wq ks ksL (zRows g)
  have hfold : ∀ acc : FvSlots t, rotateSum g acc (g.slot l r) = _ :=
    fun acc ↦ hat ▸ rotateSum_row g acc hbase hp
  change rotateSum g q _ - rotateSum g z _ = _
  rw [hfold, hfold, ← Finset.sum_sub_distrib, Finset.sum_eq_single_of_mem 0]
  · rw [add_zero, Nat.mod_eq_of_lt hp, ← hat]
    have hone : qRows g l = some fun j ↦ if j.val = g.askedFeature l then 1 else 0 :=
      if_neg (by omega)
    have hsub := groupSum_sub g wq ks ksL hone (rfl : zRows g l = some zeroRow) ⟨r, hr⟩
    rw [laneSum_zeroRow, sub_zero] at hsub
    refine hsub.trans ((laneSum_oneHot g wq ⟨l / 2 % g.G, Nat.mod_lt _ g.G_pos⟩ ⟨r, hr⟩ _).trans ?_)
    exact if_pos rfl
  · exact Finset.mem_range.mpr g.S_pos
  · intro i hi hne
    obtain ⟨l', r', hslot', hother⟩ := window_slot g hk hl hr (Nat.pos_of_ne_zero hne)
      (Finset.mem_range.mp hi) hbase hat hp
    rw [← hslot']
    rcases hother with hodd | ⟨rfl, hne'⟩
    · have hzero : qRows g l' = some zeroRow := if_pos (by omega)
      rw [groupSum_sub g wq ks ksL hzero (rfl : zRows g l' = some zeroRow), sub_self]
    · have hone : qRows g l' = some fun j ↦ if j.val = g.askedFeature l' then 1 else 0 :=
        if_neg (by omega)
      rw [groupSum_sub g wq ks ksL hone (rfl : zRows g l' = some zeroRow), laneSum_zeroRow,
        sub_zero]
      refine (laneSum_oneHot g wq ⟨l' / 2 % g.G, Nat.mod_lt _ g.G_pos⟩ ⟨r, hr⟩ r').trans ?_
      exact if_neg fun h ↦ hne' (congrArg Fin.val h)

theorem recovered_eq_iff (hodd : Odd t) {u v : FvSlots t} {p : ℕ} {w : ℤ} (hw : |w| ≤ t / 2) :
    recovered u v p = w ↔ u p - v p = (w : ZMod t) := by
  have hpos : (0 : ℤ) < t := Int.natCast_pos.mpr (NeZero.pos t)
  have hodd' : Odd (t : ℤ) := by exact_mod_cast hodd
  have hcast : (((u p).val - (v p).val : ℤ) : ZMod t) = u p - v p := by
    push_cast
    rw [ZMod.natCast_zmod_val, ZMod.natCast_zmod_val]
  have hcentre : recovered u v p = CentredResidue.centred ((u p).val - (v p).val) t :=
    cnpCentre_eq hpos _
  rw [hcentre, ← hcast, ZMod.intCast_eq_intCast_iff]
  constructor
  · rintro rfl
    exact (CentredResidue.centred_modEq _ _).symm
  · intro h
    rw [CentredResidue.centred_congr h]
    exact (CentredResidue.centred_eq_self_iff hpos hodd' w).mpr hw

end Recovery

/-- Every group spreads a lane over several slots. -/
theorem one_lt_S_of_slotGroups {N base : ℕ} {sizes : List { g : ℕ // g ∣ cnpFeatures }}
    {groups : List (SlotGroup N)} (hsizes : ∀ size ∈ sizes, size.val < cnpFeatures)
    (h : slotGroups N sizes base = .ok groups) : ∀ g ∈ groups, 1 < g.S := by
  induction sizes generalizing base groups with
  | nil =>
      obtain rfl := Except.ok.inj h
      exact fun g hg ↦ absurd hg List.not_mem_nil
  | cons size sizes ih =>
      obtain ⟨G, hG⟩ := size
      rw [slotGroups] at h
      by_cases hrow : N / 2 % (cnpFeatures / G) = 0
      · rw [dif_pos hrow] at h
        obtain ⟨rest, hrest, hgroups⟩ := ExceptRuns.bind_ok h
        obtain rfl := Except.ok.inj hgroups
        intro g hg
        rcases List.mem_cons.mp hg with rfl | hg
        · have hlt := hsizes ⟨G, hG⟩ List.mem_cons_self
          have hpos := Nat.pos_of_dvd_of_pos hG (by decide)
          refine Nat.lt_of_mul_lt_mul_right (a := G) ?_
          rw [one_mul, Nat.div_mul_cancel hG]
          exact hlt
        · exact ih (fun size hsize ↦ hsizes size (List.mem_cons_of_mem _ hsize)) hrest g hg
      · rw [dif_neg hrow] at h
        cases h

theorem one_lt_S_of_slotLayout {N : ℕ} {cipher : String} {groups : List (SlotGroup N)}
    (h : slotLayout cipher N = .ok groups) : ∀ g ∈ groups, 1 < g.S := by
  rw [slotLayout] at h
  split_ifs at h
  · exact one_lt_S_of_slotGroups (by decide) h
  · exact one_lt_S_of_slotGroups (by decide) h

/-- The test has power against every model: without the mask every slot that was
asked for gives the weight away, under any keystream.  With fresh masks it does so
only where two draws happen to agree. -/
theorem unmasked_slots_leak {k : ℕ} (hk : 1 ≤ k) {cipher : String}
    {groups : List (SlotGroup (2 ^ k))} (hlayout : slotLayout cipher (2 ^ k) = .ok groups) {t : ℕ}
    [NeZero t] (hodd : Odd t) {wq : Fin cnpFeatures → ℤ} (hwq : ∀ j, |wq j| ≤ t / 2) :
    ∀ g ∈ groups, ∀ (ks : ℕ → ℕ → ℕ) (ksL : ℕ → FvSlots t) (biasQ : ℤ) (l : Fin g.lanes),
      l.val % 2 = 0 →
        let run := recoveryRun g wq ks ksL biasQ
        let p := g.slot l (g.askedOffset l)
        (∀ l', p ≠ g.outputSlot l') ∧
          ∃ f : Fin cnpFeatures, f.val = g.askedFeature l ∧
            recovered (run (qRows g) none) (run (zRows g) none) p = wq f ∧
            ∀ draws draws' : ℕ → ℕ,
              recovered (run (qRows g) (some draws)) (run (zRows g) (some draws')) p = wq f ↔
                draws p ≡ draws' p [MOD t] := by
  intro g hg ks ksL biasQ l hl run p
  have hS := one_lt_S_of_slotLayout hlayout g hg
  have hp : ∀ l', p ≠ g.outputSlot l' := by
    intro l' heq
    have hslot : g.slot l (⟨g.askedOffset l, askedOffset_lt g hS l⟩ : Fin g.S) =
        g.slot l' (⟨0, g.S_pos⟩ : Fin g.S) := heq
    exact absurd (congrArg Fin.val (g.slot_inj hslot).2) (Nat.succ_ne_zero _)
  have hasked := preMask_sub_asked g wq ks ksL hk hS hl
  refine ⟨hp, asked g hS l, rfl, ?_, fun draws draws' ↦ ?_⟩
  · rw [recovered_eq_iff hodd (hwq _), ← hasked]
    simp [run, recoveryRun, p]
  · rw [recovered_eq_iff hodd (hwq _), ← hasked, ← ZMod.natCast_eq_natCast_iff]
    simp only [run, recoveryRun, Option.elim_some, Pi.add_apply, encodeSlots,
      slotMaskSlots_nonOutput hp]
    constructor
    · intro h
      linear_combination h
    · intro h
      linear_combination h

/-- A model of sixes modulo 13 on the HERA group of degree 32. -/
theorem unmasked_slots_leak_hera :
    let run := recoveryRun (t := 13) heraGroup (fun _ ↦ 6) (fun i kk ↦ i + kk) (fun _ _ ↦ 5) 3
    recovered (run (qRows heraGroup) none) (run (zRows heraGroup) none) 1 = 6 := by
  intro run
  have hwq : ∀ j, |(fun _ ↦ 6 : Fin cnpFeatures → ℤ) j| ≤ (13 : ℕ) / 2 := fun _ ↦ by norm_num
  obtain ⟨-, f, -, hleak, -⟩ := unmasked_slots_leak (k := 5) (t := 13) (by decide)
    (rfl : slotLayout "hera" (2 ^ 5) = .ok [heraGroup]) (by decide) hwq heraGroup
    List.mem_cons_self (fun i kk ↦ i + kk) (fun _ _ ↦ 5) 3
    (⟨0, by decide⟩ : Fin heraGroup.lanes) rfl
  exact hleak

end Ppfdaas.Transcipher
