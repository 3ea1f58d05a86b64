import Mathlib.Data.ZMod.Basic
import Ppfdaas.Library.WindowSum
import Ppfdaas.Library.WriteLoop
import Ppfdaas.Transcipher.IntegerModel

/-!
# The slot path of the transciphered pipeline

`rtf_slot_test.go` on exact values.  An FV ciphertext is taken as the values of
its slots modulo the plaintext modulus, so encoding, scale-up and modulus
switching change nothing, and plaintext operations go slot by slot.
-/

namespace Ppfdaas.Transcipher

open WriteLoop

/-- `slotGroup`, for rings of degree `N`: what `slotLayout` has checked comes with it. -/
structure SlotGroup (N : ℕ) where
  base : ℕ
  G : ℕ
  S : ℕ
  lanes : ℕ
  features : S * G = cnpFeatures
  row : S ∣ N / 2
  filled : lanes = N / S

/-- The loop of `slotLayout`, from the ciphertext `base` on. -/
def slotGroups (N : ℕ) : List { g : ℕ // g ∣ cnpFeatures } → ℕ → Except String (List (SlotGroup N))
  | [], _ => .ok []
  | ⟨g, hg⟩ :: sizes, base => do
      let s := cnpFeatures / g
      if h : N / 2 % s = 0 then
        let groups ← slotGroups N sizes (base + g)
        .ok (⟨base, g, s, N / s, Nat.div_mul_cancel hg, Nat.dvd_of_mod_eq_zero h, rfl⟩ :: groups)
      else
        throw s!"slot layout: S={s} does not divide the row length {N / 2}"

def slotLayout (cipher : String) (N : ℕ) : Except String (List (SlotGroup N)) :=
  if cipher = "hera" then slotGroups N [⟨16, by decide⟩] 0
  else if cipher = "rubato" then
    slotGroups N [⟨32, by decide⟩, ⟨16, by decide⟩, ⟨8, by decide⟩, ⟨4, by decide⟩] 0
  else throw ("slot layout: unknown cipher " ++ cipher.quote)

/-- One value modulo `t` for each slot. -/
abbrev FvSlots (t : ℕ) := ℕ → ZMod t

/-- `RotateColumns`: to the left inside each of the two rows. -/
def rotateColumns (N : ℕ) {t : ℕ} (k : ℕ) (v : FvSlots t) : FvSlots t := fun i ↦
  if i < N / 2 then v ((i + k) % (N / 2)) else v (N / 2 + (i - N / 2 + k) % (N / 2))

/-- The values of `s` in `for s := 1; s < S; s <<= 1`, from `s` on. -/
def stepsFrom (S s : ℕ) : List ℕ :=
  if 0 < s ∧ s < S then s :: stepsFrom S (2 * s) else []
termination_by S - s

namespace SlotGroup

variable {N : ℕ} (g : SlotGroup N)

def slot (l : Fin g.lanes) (r : ℕ) : ℕ :=
  let perRow := N / 2 / g.S
  if l.val < perRow then g.S * l + r else N / 2 + g.S * (l - perRow) + r

def outputSlot (l : Fin g.lanes) : ℕ := g.slot l 0

def steps : List ℕ := stepsFrom g.S 1

/-- Feature `r * G + c` of a lane stands at offset `r` of the lane's slots in
ciphertext `c` of the group. -/
def feature (c : Fin g.G) (r : Fin g.S) : Fin cnpFeatures :=
  ⟨r * g.G + c, by
    have hr := r.isLt
    calc r * g.G + c < (r + 1) * g.G := by rw [add_one_mul]; exact Nat.add_lt_add_left c.isLt _
      _ ≤ g.S * g.G := Nat.mul_le_mul_right _ hr
      _ = cnpFeatures := g.features⟩

/-- The nested loops over lanes and offsets; a lane without values is passed over. -/
def laneWrites {α : Type} (values : Fin g.lanes → Option (Fin g.S → α)) : List (ℕ × α) :=
  (List.finRange g.lanes).flatMap fun l ↦
    (values l).elim [] fun v ↦ (List.finRange g.S).map fun (r : Fin g.S) ↦ (g.slot l r, v r)

end SlotGroup

section Stages

variable {N : ℕ} (t : ℕ) (g : SlotGroup N)

/-! ## The client -/

/-- The upload for ciphertext `base + c`; a lane without a row uploads the
bare keystream. -/
def slotClientSym (c : Fin g.G) (rows : Fin g.lanes → Option Row) (ks : ℕ → ℕ → ℕ) : ℕ → ℕ :=
  let kk := g.base + c
  writeAll (g.laneWrites fun l ↦ (rows l).map fun row r ↦
    let i := g.slot l r
    let v := Int.tmod ((row (g.feature c r)).toInt + ks i kk) t
    (if v < 0 then v + t else v).toNat) fun i ↦ ks i kk

/-! ## The server -/

/-- The slots of the weights of ciphertext `base + c`.  The signed lift centres
the coefficients and leaves the slots as they are. -/
def slotWeightPoly (c : Fin g.G) (wq : Fin cnpFeatures → ℤ) : ℕ → ℕ :=
  writeAll (g.laneWrites fun _ ↦ some fun r ↦ (goMod (wq (g.feature c r)) t).toNat) fun _ ↦ 0

def slotMaskSlots (biasQ : ℤ) (randomize : Bool) (draws : ℕ → ℕ) : ℕ → ℕ :=
  let b := (goMod biasQ t).toNat
  writeAll ((List.finRange g.lanes).map fun (l : Fin g.lanes) ↦ (g.outputSlot l, b))
    (if randomize then draws else fun _ ↦ 0)

variable {t}

def encodeSlots (v : ℕ → ℕ) : FvSlots t := fun i ↦ (v i : ZMod t)

def rotateSum (acc : FvSlots t) : FvSlots t :=
  g.steps.foldl (fun acc step ↦ acc + rotateColumns N step acc) acc

/-- One group up to the mask; `ks kk` is keystream ciphertext `kk`. -/
def preMask (wq : Fin cnpFeatures → ℤ) (syms : Fin g.G → ℕ → ℕ) (ks : ℕ → FvSlots t) : FvSlots t :=
  rotateSum g (∑ c : Fin g.G,
    (encodeSlots (syms c) - ks (g.base + c)) * encodeSlots (slotWeightPoly t g c wq))

def slotOnline (wq : Fin cnpFeatures → ℤ) (syms : Fin g.G → ℕ → ℕ) (ks : ℕ → FvSlots t)
    (biasQ : ℤ) (randomize : Bool) (draws : ℕ → ℕ) : FvSlots t :=
  preMask g wq syms ks + encodeSlots (slotMaskSlots t g biasQ randomize draws)

/-! ## The bank -/

def slotBankRead (ct : FvSlots t) : Fin g.lanes → ℤ := fun l ↦
  cnpCentre ((ct (g.outputSlot l)).val : ℤ) t

end Stages

/-! ## Which groups there are -/

/-- One group for HERA, if its 16 slots a lane fit the rows. -/
theorem slotLayout_hera (N : ℕ) : (slotLayout "hera" N).toOption.map
    (·.map fun g ↦ (g.base, g.G, g.S, g.lanes)) =
      if 16 ∣ N / 2 then some [(0, 16, 16, N / 16)] else none := by
  by_cases h : N / 2 % 16 = 0
  · rw [if_pos (Nat.dvd_of_mod_eq_zero h)]
    simp [slotLayout, slotGroups, cnpFeatures, h, bind, Except.bind, Except.toOption]
  · rw [if_neg fun hdvd ↦ h (Nat.mod_eq_zero_of_dvd hdvd)]
    simp [slotLayout, slotGroups, cnpFeatures, h, throw, throwThe, MonadExceptOf.throw,
      Except.toOption]

/-- Four groups for Rubato, on 60 ciphertexts, if 64 slots a lane fit the rows. -/
theorem slotLayout_rubato {N : ℕ} (h : 64 ∣ N / 2) : (slotLayout "rubato" N).toOption.map
    (·.map fun g ↦ (g.base, g.G, g.S, g.lanes)) =
      some [(0, 32, 8, N / 8), (32, 16, 16, N / 16), (48, 8, 32, N / 32), (56, 4, 64, N / 64)] := by
  have h64 : N / 2 % 64 = 0 := Nat.mod_eq_zero_of_dvd h
  have h32 : N / 2 % 32 = 0 := by omega
  have h16 : N / 2 % 16 = 0 := by omega
  have h8 : N / 2 % 8 = 0 := by omega
  simp [slotLayout, slotGroups, cnpFeatures, h64, h32, h16, h8, bind, Except.bind,
    Except.toOption]

/-! ## Where the slots lie -/

section Layout

variable {N : ℕ} (g : SlotGroup N)

namespace SlotGroup

theorem S_pos : 0 < g.S := by
  apply Nat.pos_of_ne_zero
  intro hzero
  have hfeatures := g.features
  rw [hzero, Nat.zero_mul] at hfeatures
  exact absurd hfeatures (by decide)

theorem S_eq_pow : ∃ e, g.S = 2 ^ e := by
  have hdvd : g.S ∣ 2 ^ 8 := ⟨g.G, g.features.symm⟩
  obtain ⟨e, -, he⟩ := (Nat.dvd_prime_pow Nat.prime_two).mp hdvd
  exact ⟨e, he⟩

theorem row_eq : N / 2 = g.S * (N / 2 / g.S) := (Nat.mul_div_cancel' g.row).symm

/-- The lanes lie one after the other, also across the rows. -/
theorem slot_eq (l : Fin g.lanes) (r : ℕ) : g.slot l r = g.S * l + r := by
  rw [slot]
  split
  · rfl
  · rename_i hlane
    have hsplit : g.S * l = N / 2 + g.S * (l - N / 2 / g.S) := by
      nth_rewrite 1 [g.row_eq]
      rw [← Nat.mul_add, Nat.add_sub_cancel' (Nat.le_of_not_lt hlane)]
    omega

theorem slot_lt (l : Fin g.lanes) (r : Fin g.S) : g.slot l r < N := by
  have hle : g.S * (l + 1) ≤ N := by
    calc g.S * (l + 1) ≤ g.S * g.lanes := Nat.mul_le_mul_left _ l.isLt
      _ = g.S * (N / g.S) := by rw [g.filled]
      _ ≤ N := Nat.mul_div_le N g.S
  rw [slot_eq]
  have hr := r.isLt
  rw [Nat.mul_succ] at hle
  omega

theorem slot_inj {l l' : Fin g.lanes} {r r' : Fin g.S} (h : g.slot l r = g.slot l' r') :
    l = l' ∧ r = r' := by
  rw [slot_eq, slot_eq] at h
  have hlane : l = l' := by
    apply Fin.ext
    have hdiv := congrArg (· / g.S) h
    simpa [Nat.mul_add_div g.S_pos, Nat.div_eq_of_lt] using hdiv
  subst hlane
  exact ⟨rfl, Fin.ext (Nat.add_left_cancel h)⟩

theorem slot_row (l : Fin g.lanes) (r : Fin g.S) : g.slot l r < N / 2 ↔ g.outputSlot l < N / 2 := by
  have hr := r.isLt
  rw [outputSlot, slot_eq, slot_eq, g.row_eq]
  constructor
  · intro h
    omega
  · intro h
    have hl : l < N / 2 / g.S := Nat.lt_of_mul_lt_mul_left (a := g.S) (by omega)
    have hle := Nat.mul_le_mul_left g.S hl
    rw [Nat.mul_succ] at hle
    omega

theorem stepsFrom_pow (i d : ℕ) :
    stepsFrom (2 ^ (i + d)) (2 ^ i) = (List.range d).map fun j ↦ 2 ^ (i + j) := by
  induction d generalizing i with
  | zero =>
      rw [stepsFrom, if_neg (by simp)]
      rfl
  | succ d ih =>
      have hstep : stepsFrom (2 ^ (i + (d + 1))) (2 * 2 ^ i) =
          (List.range d).map fun j ↦ 2 ^ (i + 1 + j) := by
        rw [← ih (i + 1), pow_succ' 2 i, Nat.add_right_comm, Nat.add_assoc]
      have hlt : 2 ^ i < 2 ^ (i + (d + 1)) := Nat.pow_lt_pow_right (by decide) (by omega)
      rw [stepsFrom, if_pos ⟨Nat.two_pow_pos i, hlt⟩, hstep, List.range_succ_eq_map, List.map_cons,
        List.map_map]
      refine congrArg _ (List.map_congr_left fun j _ ↦ ?_)
      simp only [Function.comp_apply, Nat.succ_eq_add_one]
      congr 1
      omega

end SlotGroup

/-! ## The fold -/

variable {t : ℕ}

def slotRow (N base : ℕ) (v : FvSlots t) : ZMod (N / 2) → ZMod t := fun p ↦ v (base + p.val)

theorem slotRow_rotateColumns [NeZero (N / 2)] {base : ℕ} (hbase : base = 0 ∨ base = N / 2)
    (k : ℕ) (v : FvSlots t) :
    slotRow N base (rotateColumns N k v) =
      WindowSum.rotate (k : ZMod (N / 2)) (slotRow N base v) := by
  funext p
  have hp := p.val_lt
  rw [WindowSum.rotate, slotRow, slotRow, rotateColumns, ZMod.val_add, ZMod.val_natCast,
    Nat.add_mod_mod]
  rcases hbase with rfl | rfl
  · rw [if_pos (by omega), Nat.zero_add, Nat.zero_add]
  · rw [if_neg (by omega), Nat.add_sub_cancel_left]

theorem slotRow_fold [NeZero (N / 2)] {base : ℕ} (hbase : base = 0 ∨ base = N / 2)
    (steps : List ℕ) (v : FvSlots t) :
    slotRow N base (steps.foldl (fun acc step ↦ acc + rotateColumns N step acc) v) =
      WindowSum.fold (steps.map fun (step : ℕ) ↦ (step : ZMod (N / 2))) (slotRow N base v) := by
  induction steps generalizing v with
  | nil => rfl
  | cons step steps ih =>
      rw [List.foldl_cons, ih, List.map_cons]
      have hhead : slotRow N base (v + rotateColumns N step v) =
          slotRow N base v + WindowSum.rotate (step : ZMod (N / 2)) (slotRow N base v) := by
        rw [← slotRow_rotateColumns hbase]
        rfl
      rw [hhead]
      rfl

/-- The slots of a lane are consecutive slots of one row. -/
theorem slot_in_row (l : Fin g.lanes) (hS : 1 < g.S) : ∃ base p, (base = 0 ∨ base = N / 2) ∧
    p + g.S ≤ N / 2 ∧ ∀ r, g.slot l r = base + (p + r) := by
  have hrow := g.row_eq
  set perRow := N / 2 / g.S
  by_cases hlane : l.val < perRow
  · refine ⟨0, g.S * l, Or.inl rfl, ?_, ?_⟩
    · calc g.S * l + g.S = g.S * (l + 1) := (Nat.mul_succ _ _).symm
        _ ≤ g.S * perRow := Nat.mul_le_mul_left _ hlane
        _ = N / 2 := hrow.symm
    · intro r
      rw [SlotGroup.slot_eq, Nat.zero_add]
  · refine ⟨N / 2, g.S * (l - perRow), Or.inr rfl, ?_, ?_⟩
    · have hle : l.val + 1 ≤ 2 * perRow := by
        by_contra hgt
        have hover : g.S * (2 * perRow + 1) ≤ N := by
          calc g.S * (2 * perRow + 1) ≤ g.S * (l + 1) := Nat.mul_le_mul_left _ (by omega)
            _ ≤ g.S * (N / g.S) := Nat.mul_le_mul_left _ (g.filled ▸ l.isLt)
            _ ≤ N := Nat.mul_div_le N g.S
        rw [Nat.mul_succ, Nat.mul_left_comm, ← hrow] at hover
        omega
      calc g.S * (l - perRow) + g.S = g.S * (l - perRow + 1) := (Nat.mul_succ _ _).symm
        _ ≤ g.S * perRow := Nat.mul_le_mul_left _ (by omega)
        _ = N / 2 := hrow.symm
    · intro r
      rw [SlotGroup.slot, if_neg hlane, Nat.add_assoc]

/-- After the fold the output slot of a lane holds the sum of the lane's slots. -/
theorem rotateSum_output (acc : FvSlots t) (l : Fin g.lanes) :
    rotateSum g acc (g.outputSlot l) = ∑ r : Fin g.S, acc (g.slot l r) := by
  rw [SlotGroup.outputSlot, Fin.sum_univ_eq_sum_range fun r ↦ acc (g.slot l r)]
  by_cases hone : g.S = 1
  · have hsteps : g.steps = [] := by
      rw [SlotGroup.steps, hone, stepsFrom, if_neg (by decide)]
    rw [rotateSum, hsteps, hone, Finset.sum_range_one]
    rfl
  have hpos := g.S_pos
  obtain ⟨base, p, hbase, hp, hslot⟩ := slot_in_row g l (by omega)
  have : NeZero (N / 2) := ⟨by omega⟩
  obtain ⟨e, he⟩ := g.S_eq_pow
  have hsteps : g.steps.map (fun (step : ℕ) ↦ (step : ZMod (N / 2))) =
      (List.range e).map fun j ↦ 2 ^ j • (1 : ZMod (N / 2)) := by
    have hpow := SlotGroup.stepsFrom_pow 0 e
    rw [Nat.zero_add, pow_zero] at hpow
    rw [SlotGroup.steps, he, hpow, List.map_map]
    exact List.map_congr_left fun j _ ↦ by simp
  have hfold := slotRow_fold hbase g.steps acc
  rw [hsteps, WindowSum.fold_doubling, ← he] at hfold
  have hval : ∀ r < g.S, ((p : ZMod (N / 2)) + r).val = p + r := by
    intro r hr
    rw [← Nat.cast_add, ZMod.val_natCast_of_lt (by omega)]
  calc rotateSum g acc (g.slot l 0)
      = slotRow N base (rotateSum g acc) p := by
        rw [hslot, slotRow, ZMod.val_natCast_of_lt (by omega), Nat.add_zero]
    _ = ∑ r ∈ Finset.range g.S, slotRow N base acc (p + r • 1) := congrFun hfold _
    _ = ∑ r ∈ Finset.range g.S, acc (g.slot l r) := by
        refine Finset.sum_congr rfl fun r hr ↦ ?_
        rw [slotRow, nsmul_one, hval r (Finset.mem_range.mp hr), hslot]

end Layout

/-! ## What the slots hold -/

section Values

variable {N : ℕ} (g : SlotGroup N) {t : ℕ}

theorem writeAll_laneWrites {α : Type} (values : Fin g.lanes → Option (Fin g.S → α)) (v : ℕ → α)
    (l : Fin g.lanes) (r : Fin g.S) :
    writeAll (g.laneWrites values) v (g.slot l r) =
      (values l).elim (v (g.slot l r)) fun u ↦ u r := by
  have hfrom : ∀ w ∈ g.laneWrites values, w.1 = g.slot l r →
      ∃ u, values l = some u ∧ w.2 = u r := by
    intro w hw hindex
    obtain ⟨l', -, hw⟩ := List.mem_flatMap.mp hw
    cases hvalues : values l' with
    | none =>
        rw [hvalues] at hw
        exact absurd hw List.not_mem_nil
    | some u =>
        rw [hvalues] at hw
        obtain ⟨r', -, rfl⟩ := List.mem_map.mp hw
        obtain ⟨rfl, rfl⟩ := g.slot_inj hindex
        exact ⟨u, hvalues, rfl⟩
  cases hvalues : values l with
  | none =>
      apply writeAll_of_forall_ne
      intro w hw hindex
      obtain ⟨u, hu, -⟩ := hfrom w hw hindex
      rw [hvalues] at hu
      exact absurd hu nofun
  | some u =>
      apply writeAll_of_mem
      · refine List.mem_flatMap.mpr ⟨l, List.mem_finRange l, ?_⟩
        rw [hvalues]
        exact List.mem_map.mpr ⟨r, List.mem_finRange r, rfl⟩
      · intro w hw hindex
        obtain ⟨u', hu', hw'⟩ := hfrom w hw hindex
        rw [hw', ← Option.some_inj.mp (hvalues.symm.trans hu')]
        rfl

theorem toNat_cast_emod (ht : 0 < t) (v : ℤ) : (((v % t).toNat : ℕ) : ZMod t) = (v : ZMod t) := by
  have hnonneg : 0 ≤ v % t := Int.emod_nonneg v (by exact_mod_cast ht.ne')
  rw [← Int.cast_natCast (R := ZMod t), Int.toNat_of_nonneg hnonneg, ZMod.intCast_mod]

/-- What is left of an upload once the keystream is subtracted: the row, or nothing. -/
theorem slotClientSym_sub (ht : 0 < t) (c : Fin g.G) (rows : Fin g.lanes → Option Row)
    (ks : ℕ → ℕ → ℕ) (l : Fin g.lanes) (r : Fin g.S) :
    (slotClientSym t g c rows ks (g.slot l r) : ZMod t) - ks (g.slot l r) (g.base + c) =
      (rows l).elim 0 fun row ↦ ((row (g.feature c r)).toInt : ZMod t) := by
  rw [slotClientSym, writeAll_laneWrites]
  cases rows l with
  | none => exact sub_self _
  | some row =>
      simp only [Option.map_some, Option.elim_some, tmod_add_eq (Int.natCast_pos.mpr ht)]
      rw [toNat_cast_emod ht]
      push_cast
      ring

theorem slotWeightPoly_slot (ht : 0 < t) (c : Fin g.G) (wq : Fin cnpFeatures → ℤ) (l : Fin g.lanes)
    (r : Fin g.S) :
    (slotWeightPoly t g c wq (g.slot l r) : ZMod t) = (wq (g.feature c r) : ZMod t) := by
  rw [slotWeightPoly, writeAll_laneWrites]
  simp only [Option.elim_some]
  rw [goMod_eq (Int.natCast_pos.mpr ht), toNat_cast_emod ht]

theorem slotMaskSlots_output (ht : 0 < t) (biasQ : ℤ) (randomize : Bool) (draws : ℕ → ℕ)
    (l : Fin g.lanes) :
    (slotMaskSlots t g biasQ randomize draws (g.outputSlot l) : ZMod t) = (biasQ : ZMod t) := by
  have hwrite :
      slotMaskSlots t g biasQ randomize draws (g.outputSlot l) = (goMod biasQ t).toNat := by
    apply writeAll_of_mem
    · exact List.mem_map.mpr ⟨l, List.mem_finRange l, rfl⟩
    · intro w hw _
      obtain ⟨l', -, rfl⟩ := List.mem_map.mp hw
      rfl
  rw [hwrite, goMod_eq (Int.natCast_pos.mpr ht), toNat_cast_emod ht]

/-- The offsets of a lane and the ciphertexts of its group run over the features once. -/
theorem sum_feature {R : Type} [AddCommMonoid R] (f : Fin cnpFeatures → R) :
    ∑ r : Fin g.S, ∑ c : Fin g.G, f (g.feature c r) = ∑ j, f j := by
  rw [← Fintype.sum_prod_type', ← Equiv.sum_comp (finProdFinEquiv.trans (finCongr g.features)) f]
  refine Finset.sum_congr rfl fun rc _ ↦ congrArg f (Fin.ext ?_)
  change rc.1 * g.G + rc.2 = rc.2 + g.G * rc.1
  rw [Nat.mul_comm, Nat.add_comm]

/-! ## What the bank reads -/

theorem slotOnline_output (ht : 0 < t) (wq : Fin cnpFeatures → ℤ) (syms : Fin g.G → ℕ → ℕ)
    (ks : ℕ → FvSlots t) (biasQ : ℤ) (randomize : Bool) (draws : ℕ → ℕ) (l : Fin g.lanes) :
    slotOnline g wq syms ks biasQ randomize draws (g.outputSlot l) =
      ∑ r : Fin g.S, ∑ c : Fin g.G,
        ((syms c (g.slot l r) : ZMod t) - ks (g.base + c) (g.slot l r)) * wq (g.feature c r) +
          biasQ := by
  rw [slotOnline, Pi.add_apply, preMask, rotateSum_output, encodeSlots,
    slotMaskSlots_output g ht]
  refine congrArg (· + (biasQ : ZMod t)) (Finset.sum_congr rfl fun r _ ↦ ?_)
  rw [Finset.sum_apply]
  refine Finset.sum_congr rfl fun c _ ↦ ?_
  rw [Pi.mul_apply, Pi.sub_apply, encodeSlots, encodeSlots, slotWeightPoly_slot g ht]

theorem slotBankRead_eq [NeZero t] {ct : FvSlots t} {l : Fin g.lanes} {v : ℤ}
    (h : ct (g.outputSlot l) = (v : ZMod t)) : slotBankRead g ct l = cnpCentre v t := by
  have hpos : (0 : ℤ) < t := Int.natCast_pos.mpr (NeZero.pos t)
  rw [slotBankRead, h]
  apply cnpCentre_congr hpos
  rw [← ZMod.intCast_eq_intCast_iff, Int.cast_natCast, ZMod.natCast_zmod_val]

/-- Every filled lane reads its integer score and every empty one the centred
bias; what a lane reads depends on its own slots alone, all of one row and none
of them another lane's. -/
theorem slotBankRead_online [NeZero t] (rows : Fin g.lanes → Option Row) (ks : ℕ → ℕ → ℕ)
    (wq : Fin cnpFeatures → ℤ) (biasQ : ℤ) (randomize : Bool) (draws : ℕ → ℕ) :
    let read (syms : Fin g.G → ℕ → ℕ) (ks : ℕ → FvSlots t) : Fin g.lanes → ℤ :=
      slotBankRead g (slotOnline g wq syms ks biasQ randomize draws)
    let syms (c : Fin g.G) := slotClientSym t g c rows ks
    let ksCts (kk : ℕ) : FvSlots t := encodeSlots fun i ↦ ks i kk
    (∀ l row, rows l = some row → read syms ksCts l = cnpSim row wq biasQ t) ∧
    (∀ l, rows l = none → read syms ksCts l = cnpCentre biasQ t) ∧
    (∀ (l : Fin g.lanes) (syms syms' : Fin g.G → ℕ → ℕ) (ks ks' : ℕ → FvSlots t),
      (∀ c (r : Fin g.S), syms c (g.slot l r) = syms' c (g.slot l r)) →
      (∀ (c : Fin g.G) (r : Fin g.S),
        ks (g.base + c) (g.slot l r) = ks' (g.base + c) (g.slot l r)) →
      read syms ks l = read syms' ks' l) ∧
    (∀ (l : Fin g.lanes) (r : Fin g.S), g.slot l r < N ∧
      (g.slot l r < N / 2 ↔ g.outputSlot l < N / 2)) ∧
    ∀ (l l' : Fin g.lanes) (r r' : Fin g.S), g.slot l r = g.slot l' r' → l = l' ∧ r = r' := by
  intro read syms ksCts
  have ht : 0 < t := NeZero.pos t
  have houtput : ∀ l : Fin g.lanes,
      slotOnline g wq syms ksCts biasQ randomize draws (g.outputSlot l) =
      ∑ r : Fin g.S, ∑ c : Fin g.G,
        ((rows l).elim 0 fun row ↦ ((row (g.feature c r)).toInt : ZMod t)) * wq (g.feature c r) +
          biasQ := by
    intro l
    rw [slotOnline_output g ht]
    simp only [syms, ksCts, encodeSlots, slotClientSym_sub g ht]
  refine ⟨?_, ?_, ?_, ?_, ?_⟩
  · intro l row hrow
    apply slotBankRead_eq
    rw [houtput, hrow]
    simp only [Option.elim_some]
    rw [sum_feature g fun j ↦ ((row j).toInt : ZMod t) * wq j]
    push_cast
    rfl
  · intro l hnone
    apply slotBankRead_eq
    rw [houtput, hnone]
    simp
  · intro l syms syms' ks ks' hsyms hks
    simp only [read, slotBankRead, slotOnline_output g ht, hsyms, hks]
  · intro l r
    exact ⟨g.slot_lt l r, g.slot_row l r⟩
  · intro l l' r r' h
    exact g.slot_inj h

/-! ## HERA on a ring of degree 32 -/

def heraGroup : SlotGroup 32 := ⟨0, 16, 16, 2, by decide, by decide, by decide⟩

/-- A row in the first lane only. -/
def heraRows : Fin heraGroup.lanes → Option Row := fun l ↦
  if l.val = 0 then some fun j ↦ if j.val = 0 then 2 else 0 else none

theorem slotBankRead_online_hera :
    let weights : Fin cnpFeatures → ℤ := fun j ↦ if j.val = 0 then 1 else 0
    let ct : FvSlots 7 := slotOnline heraGroup weights
      (fun c ↦ slotClientSym 7 heraGroup c heraRows fun i kk ↦ (i + kk) % 7)
      (fun kk ↦ encodeSlots fun i ↦ (i + kk) % 7) 4 true fun i ↦ i % 7
    slotBankRead heraGroup ct ⟨0, by decide⟩ = -1 ∧
      slotBankRead heraGroup ct ⟨1, by decide⟩ = -3 := by
  intro weights ct
  have hread := slotBankRead_online (t := 7) heraGroup heraRows (fun i kk ↦ (i + kk) % 7) weights 4
    true fun i ↦ i % 7
  constructor
  · exact (hread.1 ⟨0, by decide⟩ _ rfl).trans (by decide +kernel)
  · exact (hread.2.1 ⟨1, by decide⟩ rfl).trans (by decide)

end Values

end Ppfdaas.Transcipher
