import Mathlib.Data.Set.Prod
import Ppfdaas.Library.ExceptRuns
import Ppfdaas.Transcipher.FvSlots

/-!
# The slot layout fills its grid

The groups of `slotLayout` take up the keystream ciphertexts one after the other,
and the lanes of a group its slots.
-/

namespace Ppfdaas.Transcipher

def RubatoBlockSize : ℕ := 64

/-- The usable outputs of `cnpCrypt`. -/
def cryptOutputs (cipher : String) : ℕ := if cipher = "hera" then 16 else RubatoBlockSize - 4

/-- The slot and the ciphertext of feature `j` of lane `l`. -/
def SlotGroup.place {N : ℕ} (g : SlotGroup N) (l : Fin g.lanes) (j : ℕ) : ℕ × ℕ :=
  (g.slot l (j / g.G), g.base + j % g.G)

/-- The lanes and features of all groups. -/
abbrev LaneFeature {N : ℕ} (groups : List (SlotGroup N)) : Type :=
  (i : Fin groups.length) × Fin groups[i].lanes × Fin cnpFeatures

def slotPlace {N : ℕ} (groups : List (SlotGroup N)) (p : LaneFeature groups) : ℕ × ℕ :=
  groups[p.1].place p.2.1 p.2.2

/-! ## One group -/

namespace SlotGroup

variable {N : ℕ} (g : SlotGroup N)

theorem G_pos : 0 < g.G := by
  apply Nat.pos_of_ne_zero
  intro hzero
  have hfeatures := g.features
  rw [hzero, Nat.mul_zero] at hfeatures
  exact absurd hfeatures (by decide)

theorem div_lt_S (j : Fin cnpFeatures) : j / g.G < g.S := by
  rw [Nat.div_lt_iff_lt_mul g.G_pos, g.features]
  exact j.isLt

/-- The offset of a feature among the slots of a lane. -/
def offset (j : Fin cnpFeatures) : Fin g.S := ⟨j / g.G, g.div_lt_S j⟩

theorem place_lt (l : Fin g.lanes) (j : Fin cnpFeatures) :
    (g.place l j).1 < N ∧ g.base ≤ (g.place l j).2 ∧ (g.place l j).2 < g.base + g.G := by
  refine ⟨g.slot_lt l (g.offset j), Nat.le_add_right _ _, ?_⟩
  exact Nat.add_lt_add_left (Nat.mod_lt _ g.G_pos) _

theorem place_inj {l l' : Fin g.lanes} {j j' : Fin cnpFeatures}
    (h : g.place l j = g.place l' j') : l = l' ∧ j = j' := by
  obtain ⟨hslot, hct⟩ := Prod.mk.inj h
  have hslot : g.slot l (g.offset j) = g.slot l' (g.offset j') := hslot
  obtain ⟨hlane, hoffset⟩ := g.slot_inj hslot
  refine ⟨hlane, Fin.ext ?_⟩
  have hdiv : j.val / g.G = j' / g.G := congrArg Fin.val hoffset
  rw [← Nat.div_add_mod j.val g.G, hdiv, Nat.add_left_cancel hct, Nat.div_add_mod]

theorem S_dvd (heven : 2 ∣ N) : g.S ∣ N := g.row.trans (Nat.div_dvd_of_dvd heven)

/-- Every slot of every ciphertext of the group holds a feature of a lane. -/
theorem exists_place (heven : 2 ∣ N) {s c : ℕ} (hs : s < N) (hc : g.base ≤ c)
    (hc' : c < g.base + g.G) : ∃ (l : Fin g.lanes) (j : Fin cnpFeatures), g.place l j = (s, c) := by
  have hlane : s / g.S < g.lanes := by
    rw [g.filled, Nat.div_lt_iff_lt_mul g.S_pos, Nat.div_mul_cancel (g.S_dvd heven)]
    exact hs
  have hcolumn : c - g.base < g.G := by omega
  let r : Fin g.S := ⟨s % g.S, Nat.mod_lt s g.S_pos⟩
  let l : Fin g.lanes := ⟨s / g.S, hlane⟩
  refine ⟨l, g.feature ⟨c - g.base, hcolumn⟩ r, Prod.ext ?_ ?_⟩
  · have hdiv : (s % g.S * g.G + (c - g.base)) / g.G = s % g.S := by
      rw [Nat.mul_comm, Nat.mul_add_div g.G_pos, Nat.div_eq_of_lt hcolumn, add_zero]
    change g.slot l ((s % g.S * g.G + (c - g.base)) / g.G) = s
    rw [hdiv, g.slot_eq]
    exact Nat.div_add_mod s g.S
  · change g.base + (s % g.S * g.G + (c - g.base)) % g.G = c
    rw [Nat.mul_comm, Nat.mul_add_mod, Nat.mod_eq_of_lt hcolumn]
    omega

theorem outputSlot_injective : Function.Injective g.outputSlot := by
  intro l l' h
  have hslot : g.slot l (⟨0, g.S_pos⟩ : Fin g.S) = g.slot l' (⟨0, g.S_pos⟩ : Fin g.S) := h
  exact (g.slot_inj hslot).1

theorem S_dvd_outputSlot (l : Fin g.lanes) : g.S ∣ g.outputSlot l := by
  rw [outputSlot, slot_eq, add_zero]
  exact Nat.dvd_mul_right _ _

/-- The lanes of a group are those of its ciphertexts at 256 slots a lane. -/
theorem features_mul_lanes (heven : 2 ∣ N) : cnpFeatures * g.lanes = N * g.G := by
  rw [← g.features, g.filled, Nat.mul_right_comm, Nat.mul_div_cancel' (g.S_dvd heven)]

end SlotGroup

/-! ## The groups -/

/-- The groups take up the ciphertexts from `base` to `stop`, in order. -/
def Consecutive {N : ℕ} : ℕ → List (SlotGroup N) → ℕ → Prop
  | base, [], stop => base = stop
  | base, g :: groups, stop => g.base = base ∧ Consecutive (base + g.G) groups stop

section Groups

variable {N : ℕ} {groups : List (SlotGroup N)} {base stop : ℕ}

theorem consecutive_of_slotGroups {sizes : List { g : ℕ // g ∣ cnpFeatures }}
    (h : slotGroups N sizes base = .ok groups) :
    Consecutive base groups (base + (sizes.map Subtype.val).sum) := by
  induction sizes generalizing base groups with
  | nil =>
      obtain rfl := Except.ok.inj h
      rfl
  | cons size sizes ih =>
      obtain ⟨g, hg⟩ := size
      rw [slotGroups] at h
      by_cases hrow : N / 2 % (cnpFeatures / g) = 0
      · rw [dif_pos hrow] at h
        obtain ⟨rest, hrest, hgroups⟩ := ExceptRuns.bind_ok h
        obtain rfl := Except.ok.inj hgroups
        rw [List.map_cons, List.sum_cons, ← add_assoc]
        exact ⟨rfl, ih hrest⟩
      · rw [dif_neg hrow] at h
        cases h

theorem Consecutive.le (h : Consecutive base groups stop) : base ≤ stop := by
  induction groups generalizing base with
  | nil => exact h.le
  | cons g groups ih => exact (Nat.le_add_right _ _).trans (ih h.2)

theorem Consecutive.mem (h : Consecutive base groups stop) (i : Fin groups.length) :
    base ≤ groups[i].base ∧ groups[i].base + groups[i].G ≤ stop := by
  induction groups generalizing base with
  | nil => exact i.elim0
  | cons g groups ih =>
      obtain ⟨rfl, htail⟩ := h
      refine Fin.cases ?_ (fun i ↦ ?_) i
      · exact ⟨le_rfl, htail.le⟩
      · obtain ⟨hlow, hhigh⟩ := ih htail i
        exact ⟨(Nat.le_add_right _ _).trans hlow, hhigh⟩

theorem Consecutive.exists_group (h : Consecutive base groups stop) {c : ℕ} (hc : base ≤ c)
    (hc' : c < stop) :
    ∃ i : Fin groups.length, groups[i].base ≤ c ∧ c < groups[i].base + groups[i].G := by
  induction groups generalizing base with
  | nil =>
      obtain rfl := h
      exact absurd hc' (not_lt.mpr hc)
  | cons g groups ih =>
      obtain ⟨rfl, htail⟩ := h
      rcases lt_or_ge c (g.base + g.G) with hlt | hge
      · exact ⟨⟨0, Nat.succ_pos _⟩, hc, hlt⟩
      · obtain ⟨i, hi⟩ := ih htail hge
        exact ⟨i.succ, hi⟩

/-- A later group starts where an earlier one has ended. -/
theorem Consecutive.disjoint (h : Consecutive base groups stop) {i i' : Fin groups.length}
    (hlt : i < i') : groups[i].base + groups[i].G ≤ groups[i'].base := by
  induction groups generalizing base with
  | nil => exact i.elim0
  | cons g groups ih =>
      obtain ⟨rfl, htail⟩ := h
      cases i' using Fin.cases with
      | zero => exact absurd hlt (Fin.not_lt_zero i)
      | succ i' =>
          cases i using Fin.cases with
          | zero => exact (htail.mem i').1
          | succ i => exact ih htail (Fin.succ_lt_succ_iff.mp hlt)

theorem Consecutive.group_eq (h : Consecutive base groups stop) {i i' : Fin groups.length} {c : ℕ}
    (hi : groups[i].base ≤ c ∧ c < groups[i].base + groups[i].G)
    (hi' : groups[i'].base ≤ c ∧ c < groups[i'].base + groups[i'].G) : i = i' := by
  rcases lt_trichotomy i i' with hlt | heq | hgt
  · have hdisjoint := h.disjoint hlt
    omega
  · exact heq
  · have hdisjoint := h.disjoint hgt
    omega

theorem Consecutive.sum_lanes (h : Consecutive base groups stop) (heven : 2 ∣ N) :
    cnpFeatures * (groups.map SlotGroup.lanes).sum = N * (stop - base) := by
  induction groups generalizing base with
  | nil =>
      obtain rfl := h
      simp
  | cons g groups ih =>
      obtain ⟨rfl, htail⟩ := h
      have hle := htail.le
      rw [List.map_cons, List.sum_cons, Nat.mul_add, g.features_mul_lanes heven, ih htail,
        ← Nat.mul_add]
      congr 1
      omega

/-- The places of all lanes and features are the grid. -/
theorem Consecutive.bijOn_place (h : Consecutive 0 groups stop) (heven : 2 ∣ N) :
    Set.BijOn (slotPlace groups) Set.univ (Set.Iio N ×ˢ Set.Iio stop) := by
  refine ⟨?_, ?_, ?_⟩
  · rintro ⟨i, l, j⟩ -
    obtain ⟨hslot, -, hct⟩ := groups[i].place_lt l j
    exact ⟨hslot, hct.trans_le (h.mem i).2⟩
  · rintro ⟨i, l, j⟩ - ⟨i', l', j'⟩ - heq
    have hct := congrArg Prod.snd heq
    have hi := (groups[i].place_lt l j).2
    have hi' := (groups[i'].place_lt l' j').2
    obtain rfl : i = i' := h.group_eq (c := (slotPlace groups ⟨i, l, j⟩).2) hi (hct ▸ hi')
    obtain ⟨rfl, rfl⟩ := groups[i].place_inj heq
    rfl
  · rintro ⟨s, c⟩ ⟨hs, hc⟩
    obtain ⟨i, hlow, hhigh⟩ := h.exists_group (Nat.zero_le c) hc
    obtain ⟨l, j, hplace⟩ := groups[i].exists_place heven hs hlow hhigh
    exact ⟨⟨i, l, j⟩, Set.mem_univ _, hplace⟩

end Groups

theorem consecutive_of_slotLayout {N : ℕ} {cipher : String} {groups : List (SlotGroup N)}
    (h : slotLayout cipher N = .ok groups) : Consecutive 0 groups (cryptOutputs cipher) := by
  rw [slotLayout] at h
  by_cases hhera : cipher = "hera"
  · rw [if_pos hhera] at h
    rw [cryptOutputs, if_pos hhera]
    exact consecutive_of_slotGroups h
  · rw [if_neg hhera] at h
    rw [cryptOutputs, if_neg hhera]
    by_cases hrubato : cipher = "rubato"
    · rw [if_pos hrubato] at h
      exact consecutive_of_slotGroups h
    · rw [if_neg hrubato] at h
      cases h

/-- Wherever the layout exists, it fills the grid of slots and usable ciphertexts,
and it has the capacity of the coefficient packing. -/
theorem slotLayout_fills_grid {k : ℕ} (hk : 1 ≤ k) {cipher : String}
    {groups : List (SlotGroup (2 ^ k))} (h : slotLayout cipher (2 ^ k) = .ok groups) :
    (cipher = "hera" ∨ cipher = "rubato") ∧
    Set.BijOn (slotPlace groups) Set.univ (Set.Iio (2 ^ k) ×ˢ Set.Iio (cryptOutputs cipher)) ∧
    (∀ g ∈ groups, Function.Injective g.outputSlot) ∧
    (∀ g ∈ groups, ∀ l, g.S ∣ g.outputSlot l ∧ ∀ r : Fin g.S,
      g.slot l r = g.outputSlot l + r ∧ g.slot l r < 2 ^ k ∧
        (g.slot l r < 2 ^ k / 2 ↔ g.outputSlot l < 2 ^ k / 2)) ∧
    (∀ g ∈ groups, g.G * g.S = 256) ∧
    256 ∣ cryptOutputs cipher * 2 ^ k ∧
    (groups.map SlotGroup.lanes).sum = cryptOutputs cipher * 2 ^ k / 256 := by
  have hconsecutive := consecutive_of_slotLayout h
  have heven : 2 ∣ 2 ^ k := dvd_pow_self 2 (Nat.one_le_iff_ne_zero.mp hk)
  have hsum := hconsecutive.sum_lanes heven
  rw [Nat.sub_zero, Nat.mul_comm (2 ^ k)] at hsum
  refine ⟨?_, hconsecutive.bijOn_place heven, fun g _ ↦ g.outputSlot_injective, ?_, ?_,
    ⟨_, hsum.symm⟩, ?_⟩
  · by_contra! hother
    rw [slotLayout, if_neg hother.1, if_neg hother.2] at h
    cases h
  · refine fun g _ l ↦ ⟨g.S_dvd_outputSlot l, fun r ↦ ⟨?_, g.slot_lt l r, g.slot_row l r⟩⟩
    rw [SlotGroup.outputSlot, g.slot_eq, g.slot_eq, add_zero]
  · exact fun g _ ↦ (Nat.mul_comm _ _).trans g.features
  · exact (Nat.div_eq_of_eq_mul_right (by norm_num [cnpFeatures]) hsum.symm).symm

theorem slotLayout_fills_grid_hera :
    Set.BijOn (slotPlace [heraGroup]) Set.univ (Set.Iio (2 ^ 5) ×ˢ Set.Iio 16) := by
  have h : slotLayout "hera" (2 ^ 5) = .ok [heraGroup] := rfl
  exact (slotLayout_fills_grid (k := 5) (by norm_num) h).2.1

end Ppfdaas.Transcipher
