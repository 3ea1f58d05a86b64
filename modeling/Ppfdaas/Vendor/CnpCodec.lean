import Ppfdaas.Vendor.Seal

/-!
# The coefficient-native packing codec

`cnp_codec.h`: lane `k`, feature `j` sits at coefficient `256k + j`, and the
dot product of lane `k` comes out at coefficient `256k + 255`.  Doubles are
modelled by exact rationals, vectors of other value types by their entries.
-/

namespace Ppfdaas.Cnp

def kLane : ℕ := 256

def kMaxLanes : ℕ := kN / kLane

def outputIndex (lane : ℕ) : ℕ := kLane * lane + (kLane - 1)

theorem outputIndex_lt {lane : ℕ} (h : lane < kMaxLanes) : outputIndex lane < kN := by
  simp only [kMaxLanes, outputIndex, kLane, kN] at *
  omega

/-- A coefficient that carries a lane output. -/
def IsOutput (c : Fin kN) : Prop := ∃ k < kMaxLanes, outputIndex k = c.val

instance : DecidablePred IsOutput := fun c ↦
  decidable_of_iff (∃ k : Fin kMaxLanes, outputIndex k = c.val)
    ⟨fun ⟨k, hk⟩ ↦ ⟨k, k.isLt, hk⟩, fun ⟨k, hlt, hk⟩ ↦ ⟨⟨k, hlt⟩, hk⟩⟩

/-! ## Residues and limbs -/

/-- `std::llround`: to the nearest integer, halves away from zero. -/
def llround (x : ℚ) : ℤ := if x < 0 then -⌊-x + 1 / 2⌋ else ⌊x + 1 / 2⌋

def residueOf (scaled : ℚ) (q : ℕ) : Except String ℕ :=
  if 4000000000000000000 ≤ |scaled| then
    throw "cnp: scaled coefficient out of int64 range / not finite"
  else
    let r := llround scaled
    let a := r.natAbs % q
    return if r < 0 ∧ a ≠ 0 then q - a else a

section Seal

variable {Ct Pt Gk : Type} (S : Seal Ct Pt Gk)

/-- Forward NTT of every limb, then the tags. -/
def finishNttPlaintext (pid : ℕ) (scale : ℚ) (limbs : List Limb) : Except String Pt :=
  match S.coeffModulus pid with
  | none => throw "cnp: unknown parms_id"
  | some mods => return S.plaintext (List.zipWith S.ntt mods limbs) pid scale

def encodeLimb (values : List ℚ) (scale : ℚ) (q : ℕ) : Except String (List ℕ) :=
  values.mapM fun v ↦ residueOf (scale * v) q

def encodeCoeffs (values : List ℚ) (scale : ℚ) (pid : ℕ) : Except String Pt :=
  if values.length ≠ kN then throw "cnp::encode_coeffs: need exactly 8192 values"
  else
    match S.coeffModulus pid with
    | none => throw "cnp: unknown parms_id"
    | some mods => do
        let limbs ← mods.mapM (encodeLimb values scale)
        finishNttPlaintext S pid scale (limbs.map fun l c ↦ l.getD c 0)

end Seal

/-! ## Packing and reading lanes -/

section Lanes

variable {R : Type} [Zero R]

/-- Coefficient `255 - j` holds `w_j`, everything else zero. -/
def weightsToWrev (w : List R) : Except String (List R) :=
  if w.length ≠ kLane then throw "cnp::weights_to_wrev: need 256 weights"
  else .ok <| (List.range kLane).foldl
    (fun (poly : List R) j ↦ poly.set (kLane - 1 - j) (w.getD j 0)) (List.replicate kN 0)

/-- The row-major buffer `rows` is copied to the front of the polynomial. -/
def packLanes (rows : List R) (nLanes : ℕ) : Except String (List R) :=
  if nLanes < 1 ∨ nLanes > kMaxLanes then throw "cnp::pack_lanes: lanes must be 1..32"
  else .ok <| rows.take (nLanes * kLane) ++ List.replicate (kN - nLanes * kLane) 0

/-- The values at the output coefficients of the first `n_lanes` lanes. -/
def decodeLaneOutputs (all : List R) (nLanes : ℕ) : Except String (List R) :=
  if nLanes < 1 ∨ nLanes > kMaxLanes then throw "cnp: lanes must be 1..32"
  else .ok <| (List.range nLanes).map fun k ↦ all.getD (outputIndex k) 0

end Lanes

/-! ## The output mask -/

namespace UniformModQ

/-- `reject_from_`: the largest draw that is kept. -/
def rejectFrom (q : ℕ) : ℕ := 2 ^ 64 - 1 - ((2 ^ 64 - 1) % q + 1) % q

end UniformModQ

/-- A 64-bit draw that `UniformModQ::next` keeps. -/
abbrev AcceptedDraw (q : ℕ) := { r : ℕ // r ≤ UniformModQ.rejectFrom q }

def AcceptedDraw.value {q : ℕ} (r : AcceptedDraw q) : ℕ := r.val % q

/-- The draws the samplers of one `build_output_mask` keep, limb by limb. -/
abbrev MaskDraws := ∀ (_limb q : ℕ), Fin kN → AcceptedDraw q

def zeroDraws : MaskDraws := fun _ _ _ ↦ ⟨0, Nat.zero_le _⟩

/-- One limb of the mask over any entry type: a draw (or zero) everywhere, then
the output value at the 32 output coefficients. -/
def outputMaskLimb {ρ : Type} (zero outRes : ρ) (randomizeNonOutputs : Bool) (next : Fin kN → ρ) :
    Fin kN → ρ :=
  (List.finRange kMaxLanes).foldl
    (fun limb (k : Fin kMaxLanes) ↦
      Function.update limb ⟨outputIndex k, outputIndex_lt k.isLt⟩ outRes)
    (fun c ↦ if randomizeNonOutputs then next c else zero)

def buildOutputMask {Ct Pt Gk : Type} (S : Seal Ct Pt Gk) (pid : ℕ) (scale outputValue : ℚ)
    (randomizeNonOutputs : Bool) (draws : MaskDraws) : Except String Pt :=
  match S.coeffModulus pid with
  | none => throw "cnp: unknown parms_id"
  | some mods => do
      let limbs ← mods.zipIdx.mapM fun (q, i) ↦ do
        let outRes ← residueOf (outputValue * scale) q
        return outputMaskLimb 0 outRes randomizeNonOutputs fun c ↦ (draws i q c).value
      finishNttPlaintext S pid scale limbs

theorem outputMaskLimb_apply {ρ : Type} (zero outRes : ρ) (randomize : Bool) (next : Fin kN → ρ)
    (c : Fin kN) :
    outputMaskLimb zero outRes randomize next c =
      if IsOutput c then outRes else if randomize then next c else zero := by
  have hfold : ∀ (lanes : List (Fin kMaxLanes)) (limb : Fin kN → ρ),
      lanes.foldl (fun limb (k : Fin kMaxLanes) ↦
        Function.update limb ⟨outputIndex k, outputIndex_lt k.isLt⟩ outRes) limb c =
        if ∃ k ∈ lanes, outputIndex k = c.val then outRes else limb c := by
    intro lanes
    induction lanes with
    | nil => simp
    | cons k lanes ih =>
        intro limb
        rw [List.foldl_cons, ih]
        by_cases hrest : ∃ k ∈ lanes, outputIndex k = c.val
        · obtain ⟨k', hmem, hk'⟩ := hrest
          rw [if_pos ⟨k', hmem, hk'⟩, if_pos ⟨k', List.mem_cons_of_mem k hmem, hk'⟩]
        · rw [if_neg hrest]
          by_cases hk : outputIndex k = c.val
          · have hc : c = ⟨outputIndex k, outputIndex_lt k.isLt⟩ := Fin.ext hk.symm
            rw [if_pos ⟨k, List.mem_cons_self, hk⟩, hc, Function.update_self]
          · have hne : c ≠ ⟨outputIndex k, outputIndex_lt k.isLt⟩ :=
              fun heq ↦ hk (congrArg Fin.val heq).symm
            rw [Function.update_of_ne hne, if_neg]
            rintro ⟨k', hmem, hk'⟩
            rcases List.mem_cons.mp hmem with rfl | hmem
            · exact hk hk'
            · exact hrest ⟨k', hmem, hk'⟩
  rw [outputMaskLimb, hfold]
  refine if_congr ⟨?_, ?_⟩ rfl rfl
  · rintro ⟨k, _, hk⟩
    exact ⟨k, k.isLt, hk⟩
  · rintro ⟨k, hlt, hk⟩
    exact ⟨⟨k, hlt⟩, List.mem_finRange _, hk⟩

end Ppfdaas.Cnp
