import Mathlib.Data.ZMod.Basic
import Ppfdaas.Library.ExceptRuns
import Ppfdaas.Library.ScaledPhase
import Ppfdaas.Library.WideWords

/-!
# The exact scale-up, limb by limb

`slotScaler` of `rtf_slot_test.go` and `cnpScaleUp` of `rtf_cnp_test.go` on the
words of each limb.  The word arithmetic of lattigo is a parameter.
-/

namespace Ppfdaas.Transcipher.Rns

open ExceptRuns ScaledPhase WideWords

inductive Panic where
  | indexOutOfRange
  | divide
  | text (message : String)

/-- lattigo's arithmetic modulo one prime, with the parameters it keeps for it. -/
structure RingOps where
  BredParams : UInt64 → UInt64 × UInt64
  MredParams : UInt64 → UInt64
  MForm : UInt64 → UInt64 → UInt64 × UInt64 → UInt64
  MRed : UInt64 → UInt64 → UInt64 → UInt64 → UInt64
  CRed : UInt64 → UInt64 → UInt64

/-- What is documented of it: `MRed` by a factor in Montgomery form multiplies
modulo an odd `q`, and `CRed` takes off one `q`. -/
structure RingOps.Documented (R : RingOps) : Prop where
  mRed_mForm : ∀ q x d, Odd q.toNat → q.toNat < 2 ^ 62 → d < q →
    (R.MRed x (R.MForm d q (R.BredParams q)) q (R.MredParams q)).toNat =
      x.toNat * d.toNat % q.toNat
  cRed : ∀ q a, a.toNat < 2 * q.toNat → R.CRed a q = if q ≤ a then a - q else a

def modulusBigint (modulus : List UInt64) : ℕ := (modulus.map UInt64.toNat).prod

/-- `x.ringAt(level)`: the first primes of the chain. -/
def ringAt (Qi : List UInt64) (level : ℕ) : Except Panic (List UInt64) :=
  if level < Qi.length then .ok (Qi.take (level + 1)) else .error .indexOutOfRange

structure SlotScaler where
  level : ℕ
  r : UInt64
  t : UInt64
  dMont : List UInt64
  q : List UInt64
  mred : List UInt64

section Scaler

variable (R : RingOps)

def newSlotScaler (Qi : List UInt64) (t : UInt64) (level : ℕ) : Except Panic SlotScaler := do
  let modulus ← ringAt Qi level
  if t.toNat = 0 then throw .divide else
    let D := modulusBigint modulus / t.toNat
    pure {
      level := level
      r := UInt64.ofNat (modulusBigint modulus % t.toNat)
      t := t
      dMont := modulus.map fun q ↦ R.MForm (UInt64.ofNat (D % q.toNat)) q (R.BredParams q)
      q := modulus
      mred := modulus.map R.MredParams }

/-- The word of limb `li` for the coefficient `c`. -/
def SlotScaler.limb (s : SlotScaler) (c : UInt64) (li : ℕ) : UInt64 :=
  let k := (c * s.r + s.t / 2) / s.t
  let q := s.q.getD li 0
  -- a prime of the chain may be smaller than `t`
  let ki := if q ≤ k then k % q else k
  R.CRed (R.MRed c (s.dMont.getD li 0) q (s.mred.getD li 0) + ki) q

/-- The rows of a plaintext of `N` coefficients, the first of them written. -/
def writeRow (N : ℕ) (row : List UInt64) : Except Panic (List UInt64) :=
  if row.length ≤ N then .ok (row ++ List.replicate (N - row.length) 0)
  else .error .indexOutOfRange

def SlotScaler.scale (N : ℕ) (s : SlotScaler) (coeffs : List UInt64) :
    Except Panic (List (List UInt64)) :=
  (List.range (s.level + 1)).mapM fun li ↦ writeRow N (coeffs.map fun c ↦ s.limb R c li)

end Scaler

/-- `round(v * q0 / t)`, by the 128-bit product and quotient. -/
def scaleWord (t q0 v : UInt64) : Except Panic UInt64 := do
  let p := mul64 v q0
  let sum := add64 p.2 (t / 2) 0
  let quo ← (div64 (p.1 + sum.2) sum.1 t).elim (.error .divide) .ok
  if q0 = 0 then throw .divide else pure (quo.1 % q0)

/-- `exact` is the setting of `CNP_SCALEUP`; the other one calls the fork's `FVScaleUp`. -/
def cnpScaleUp (fvScaleUp : List UInt64 → List (List UInt64)) (exact : Bool) (Qi : List UInt64)
    (t : UInt64) (N level : ℕ) (sym : List UInt64) : Except Panic (List (List UInt64)) :=
  if exact then
    if level ≠ 0 then
      throw (.text ("CNP_SCALEUP=exact is implemented for level 0 only " ++
        "(use CNP_SCALEUP=fvscaleup with CNP_STC_MODE=keep)"))
    else do
      let q0 ← Qi.head?.elim (.error .indexOutOfRange) .ok
      let row ← sym.mapM (scaleWord t q0)
      pure [← writeRow N row]
  else do
    pure (fvScaleUp (← writeRow N (sym.take N)))

/-! ## One coefficient -/

section Words

variable {R : RingOps} (hR : R.Documented) {q t : UInt64}

include hR

theorem toNat_cRed (hq : q.toNat < 2 ^ 62) {a b : UInt64} (ha : a < q) (hb : b < q) :
    (R.CRed (a + b) q).toNat = (a.toNat + b.toNat) % q.toNat := by
  have ha' := UInt64.lt_iff_toNat_lt.mp ha
  have hb' := UInt64.lt_iff_toNat_lt.mp hb
  have hsum : (a + b).toNat = a.toNat + b.toNat := by
    rw [UInt64.toNat_add, Nat.mod_eq_of_lt (by omega)]
  rw [hR.cRed q (a + b) (by omega)]
  split_ifs with hle
  · have hle' := UInt64.le_iff_toNat_le.mp hle
    rw [UInt64.toNat_sub_of_le _ _ hle, hsum, Nat.mod_eq_sub_mod (by omega),
      Nat.mod_eq_of_lt (by omega)]
  · have hlt := UInt64.lt_iff_toNat_lt.mp (UInt64.not_le.mp hle)
    rw [hsum, Nat.mod_eq_of_lt (by omega)]

/-- A product and a carry of any size, modulo `q`. -/
theorem toNat_mulCarry (hodd : Odd q.toNat) (hq : q.toNat < 2 ^ 62) (c k : UInt64) {d : ℕ} :
    (R.CRed (R.MRed c (R.MForm (UInt64.ofNat (d % q.toNat)) q (R.BredParams q)) q (R.MredParams q) +
      if q ≤ k then k % q else k) q).toNat = (c.toNat * d + k.toNat) % q.toNat := by
  have hpos := hodd.pos
  have hd : (UInt64.ofNat (d % q.toNat)).toNat = d % q.toNat :=
    UInt64.toNat_ofNat_of_lt' ((Nat.mod_lt d hpos).trans q.toNat_lt)
  have hproduct := hR.mRed_mForm q c (UInt64.ofNat (d % q.toNat)) hodd hq (by
    rw [UInt64.lt_iff_toNat_lt, hd]
    exact Nat.mod_lt d hpos)
  have hcarry : (if q ≤ k then k % q else k).toNat = k.toNat % q.toNat := by
    split_ifs with hle
    · exact UInt64.toNat_mod k q
    · exact (Nat.mod_eq_of_lt (UInt64.lt_iff_toNat_lt.mp (UInt64.not_le.mp hle))).symm
  rw [toNat_cRed hR hq]
  · rw [hproduct, hcarry, hd, Nat.mul_mod_mod, ← Nat.add_mod]
  · rw [UInt64.lt_iff_toNat_lt, hproduct]
    exact Nat.mod_lt _ hpos
  · rw [UInt64.lt_iff_toNat_lt, hcarry]
    exact Nat.mod_lt _ hpos

end Words

/-- Both factors are below `t < 2 ^ 32`. -/
theorem mul_add_half_lt {t c r : ℕ} (ht : t < 2 ^ 32) (hc : c < t) (hr : r < t) :
    c * r + t / 2 < t * t ∧ c * r + t / 2 < 2 ^ 64 := by
  have hprod : c * r ≤ (t - 1) * (t - 1) := Nat.mul_le_mul (by omega) (by omega)
  have hsquare : t * t ≤ (2 ^ 32) * 2 ^ 32 := Nat.mul_le_mul ht.le ht.le
  obtain ⟨u, rfl⟩ := Nat.exists_eq_add_of_lt (Nat.zero_lt_of_lt hc)
  simp only [zero_add, Nat.add_sub_cancel] at hprod
  have hexpand : (u + 1) * (u + 1) = u * u + 2 * u + 1 := by ring
  simp only [zero_add] at *
  constructor
  · omega
  · omega

/-! ## All limbs -/

section Limbs

variable {R : RingOps} {Qi : List UInt64} {t : UInt64} {level : ℕ}

def modulusAt (Qi : List UInt64) (level : ℕ) : ℕ := modulusBigint (Qi.take (level + 1))

theorem getD_mem {i : ℕ} {l : List UInt64} (h : i < l.length) : l.getD i 0 ∈ l := by
  rw [List.getD_eq_getElem?_getD, List.getElem?_eq_getElem h]
  exact List.getElem_mem _

/-- What the scaler of a level holds. -/
structure SlotScaler.Built (R : RingOps) (Qi : List UInt64) (t : UInt64) (level : ℕ)
    (s : SlotScaler) : Prop where
  level_eq : s.level = level
  t_eq : s.t = t
  r_eq : s.r.toNat = modulusAt Qi level % t.toNat
  prime : ∀ li ≤ level, s.q.getD li 0 = Qi.getD li 0
  dMont : ∀ li ≤ level, s.dMont.getD li 0 = R.MForm (UInt64.ofNat
    (modulusAt Qi level / t.toNat % (Qi.getD li 0).toNat)) (Qi.getD li 0)
      (R.BredParams (Qi.getD li 0))
  mred : ∀ li ≤ level, s.mred.getD li 0 = R.MredParams (Qi.getD li 0)

theorem getD_map_take {α : Type} (f : UInt64 → α) {li : ℕ} (hlevel : level < Qi.length)
    (hli : li ≤ level) (a : α) :
    ((Qi.take (level + 1)).map f).getD li a = f (Qi.getD li 0) := by
  have hlt : li < Qi.length := hli.trans_lt hlevel
  have hget : Qi[li]? = some (Qi.getD li 0) := by simp [hlt]
  rw [List.getD_eq_getElem?_getD, List.getElem?_map, List.getElem?_take_of_lt (by omega), hget]
  rfl

theorem newSlotScaler_built (ht : 0 < t.toNat) (hlevel : level < Qi.length) :
    ∃ s, newSlotScaler R Qi t level = .ok s ∧ s.Built R Qi t level := by
  have hring : ringAt Qi level = .ok (Qi.take (level + 1)) := if_pos hlevel
  have hr : modulusAt Qi level % t.toNat < 2 ^ 64 := (Nat.mod_lt _ ht).trans t.toNat_lt
  unfold newSlotScaler
  simp only [hring, bind, Except.bind, if_neg ht.ne', pure, Except.pure]
  refine ⟨_, rfl, rfl, rfl, UInt64.toNat_ofNat_of_lt' hr, fun li hli ↦ ?_, fun li hli ↦ ?_,
    fun li hli ↦ ?_⟩
  · simpa using getD_map_take id hlevel hli 0
  · exact getD_map_take _ hlevel hli 0
  · exact getD_map_take _ hlevel hli 0

theorem toNat_limb (hR : R.Documented) (ht32 : t.toNat < 2 ^ 32)
    (hQi : ∀ q ∈ Qi, Odd q.toNat ∧ q.toNat < 2 ^ 62) (hlevel : level < Qi.length)
    {s : SlotScaler} (hs : s.Built R Qi t level) {c : UInt64} (hc : c < t) {li : ℕ}
    (hli : li ≤ level) :
    c.toNat * s.r.toNat + t.toNat / 2 < 2 ^ 64 ∧
    (s.limb R c li).toNat =
      scaleUp t.toNat (modulusAt Qi level) c.toNat % (Qi.getD li 0).toNat := by
  have hc' := UInt64.lt_iff_toNat_lt.mp hc
  have ht : 0 < t.toNat := Nat.zero_lt_of_lt hc'
  obtain ⟨hodd, hq⟩ := hQi _ (getD_mem (hli.trans_lt hlevel))
  have hr : s.r.toNat < t.toNat := hs.r_eq ▸ Nat.mod_lt _ ht
  have hfits := (mul_add_half_lt ht32 hc' hr).2
  have hk : ((c * s.r + s.t / 2) / s.t).toNat =
      (c.toNat * s.r.toNat + t.toNat / 2) / t.toNat := by
    rw [hs.t_eq, UInt64.toNat_div, UInt64.toNat_add, UInt64.toNat_mul, UInt64.toNat_div]
    have htwo : (2 : UInt64).toNat = 2 := rfl
    rw [htwo, Nat.mod_eq_of_lt (a := c.toNat * s.r.toNat) (by omega), Nat.mod_eq_of_lt hfits]
  have hsplit : modulusAt Qi level =
      t.toNat * (modulusAt Qi level / t.toNat) + s.r.toNat := by
    rw [hs.r_eq, Nat.div_add_mod]
  refine ⟨hfits, ?_⟩
  rw [SlotScaler.limb, hs.prime li hli, hs.dMont li hli, hs.mred li hli,
    toNat_mulCarry hR hodd hq, hk]
  conv_rhs => rw [hsplit, scaleUp_split ht]

/-- At level 0 the 128-bit quotient gives the same word, and never panics. -/
theorem scaleWord_eq {q0 c : UInt64} (hq0 : 0 < q0.toNat) (hq62 : q0.toNat < 2 ^ 62) (hc : c < t) :
    ∃ w, scaleWord t q0 c = .ok w ∧ w.toNat = scaleUp t.toNat q0.toNat c.toNat % q0.toNat := by
  have hc' := UInt64.lt_iff_toNat_lt.mp hc
  have hhalf : (t / 2).toNat = t.toNat / 2 := UInt64.toNat_div t 2
  have hvalue := value_mul64_add64 c q0 (t / 2)
  rw [hhalf] at hvalue
  have hlt : c.toNat * q0.toNat + t.toNat / 2 < t.toNat * 2 ^ 64 := by
    have hprod : c.toNat * q0.toNat ≤ (t.toNat - 1) * 2 ^ 62 :=
      Nat.mul_le_mul (by omega) hq62.le
    omega
  obtain ⟨quo, rem, hdiv, hquo⟩ := div64_of_lt (hvalue.trans_lt hlt)
  have hne : ¬ q0 = 0 := fun h ↦ by simp [h] at hq0
  refine ⟨quo % q0, ?_, ?_⟩
  · simp only [scaleWord, hdiv, Option.elim, bind, Except.bind, if_neg hne]
    rfl
  · rw [UInt64.toNat_mod, hquo, hvalue, scaleUp]

theorem writeRow_eq {N : ℕ} {row : List UInt64} (h : row.length ≤ N) :
    writeRow N row = .ok (row ++ List.replicate (N - row.length) 0) := if_pos h

theorem scale_eq {s : SlotScaler} {N : ℕ} {coeffs : List UInt64} (hlen : coeffs.length ≤ N) :
    s.scale R N coeffs = .ok ((List.range (s.level + 1)).map fun li ↦
      coeffs.map (fun c ↦ s.limb R c li) ++ List.replicate (N - coeffs.length) 0) := by
  refine mapM_eq_ok fun li _ ↦ ?_
  rw [writeRow_eq (by rwa [List.length_map]), List.length_map]

theorem getD_scale {s : SlotScaler} (N : ℕ) {coeffs : List UInt64} {li i : ℕ}
    (hli : li ≤ s.level) (hi : i < coeffs.length) :
    (((List.range (s.level + 1)).map fun li ↦ coeffs.map (fun c ↦ s.limb R c li) ++
      List.replicate (N - coeffs.length) 0).getD li []).getD i 0 =
        s.limb R (coeffs.getD i 0) li := by
  have hli' : li < s.level + 1 := Nat.lt_succ_of_le hli
  have hrow : ((List.range (s.level + 1)).map fun li ↦ coeffs.map (fun c ↦ s.limb R c li) ++
      List.replicate (N - coeffs.length) 0)[li]? = some (coeffs.map (fun c ↦ s.limb R c li) ++
        List.replicate (N - coeffs.length) 0) := by
    rw [List.getElem?_map, List.getElem?_range hli']
    rfl
  have hword : (coeffs.map (fun c ↦ s.limb R c li) ++
      List.replicate (N - coeffs.length) 0)[i]? = some (s.limb R (coeffs.getD i 0) li) := by
    rw [List.getElem?_append_left (by rwa [List.length_map]), List.getElem?_map,
      List.getD_eq_getElem?_getD, List.getElem?_eq_getElem hi]
    rfl
  rw [List.getD_eq_getElem?_getD, List.getD_eq_getElem?_getD, hrow, Option.getD_some, hword,
    Option.getD_some]

theorem modulusAt_zero (hlevel : 0 < Qi.length) : modulusAt Qi 0 = (Qi.getD 0 0).toNat := by
  cases Qi with
  | nil => exact absurd hlevel (Nat.lt_irrefl 0)
  | cons q0 Qi => simp [modulusAt, modulusBigint]

theorem cnpScaleUp_eq_scale (hR : R.Documented) (ht32 : t.toNat < 2 ^ 32)
    (hQi : ∀ q ∈ Qi, Odd q.toNat ∧ q.toNat < 2 ^ 62) (hlevel : 0 < Qi.length)
    (fvScaleUp : List UInt64 → List (List UInt64)) {s : SlotScaler} (hs : s.Built R Qi t 0)
    {N : ℕ} {coeffs : List UInt64} (hlen : coeffs.length ≤ N) (hc : ∀ c ∈ coeffs, c < t) :
    cnpScaleUp fvScaleUp true Qi t N 0 coeffs = s.scale R N coeffs := by
  have hhead : Qi.head? = some (Qi.getD 0 0) := by
    rw [List.head?_eq_getElem?, List.getD_eq_getElem?_getD, List.getElem?_eq_getElem hlevel]
    rfl
  obtain ⟨hodd, hq⟩ := hQi _ (getD_mem hlevel)
  have hword : ∀ c ∈ coeffs, scaleWord t (Qi.getD 0 0) c = .ok (s.limb R c 0) := by
    intro c hmemc
    obtain ⟨w, hw, hwNat⟩ := scaleWord_eq hodd.pos hq (hc c hmemc)
    have hlimb := (toNat_limb hR ht32 hQi hlevel hs (hc c hmemc) le_rfl).2
    rw [modulusAt_zero hlevel] at hlimb
    rw [hw, UInt64.toNat_inj.mp (hwNat.trans hlimb.symm)]
  have hlen' : (coeffs.map fun c ↦ s.limb R c 0).length ≤ N := by rwa [List.length_map]
  rw [scale_eq hlen, hs.level_eq]
  simp only [cnpScaleUp, hhead, Option.elim, mapM_eq_ok hword, writeRow_eq hlen', bind, Except.bind,
    List.length_map, pure, Except.pure, if_true, ne_eq, not_true_eq_false, if_false]
  rfl

/-- Every limb of every coefficient is the rounded quotient modulo its prime, and
at level 0 the 128-bit quotient writes the same. -/
theorem scale_exact (hR : R.Documented) (hodd : Odd t.toNat) (ht32 : t.toNat < 2 ^ 32)
    (hQi : ∀ q ∈ Qi, Odd q.toNat ∧ q.toNat < 2 ^ 62) (hlevel : level < Qi.length) {N : ℕ}
    {coeffs : List UInt64} (hlen : coeffs.length ≤ N) (hc : ∀ c ∈ coeffs, c < t)
    (fvScaleUp : List UInt64 → List (List UInt64)) :
    ∃ s rows, newSlotScaler R Qi t level = .ok s ∧ s.scale R N coeffs = .ok rows ∧
      rows.length = level + 1 ∧
      (∀ c ∈ coeffs, c.toNat * s.r.toNat + t.toNat / 2 < 2 ^ 64) ∧
      (∀ li ≤ level, ∀ i < coeffs.length,
        ((rows.getD li []).getD i 0).toNat = ((coeffs.getD i 0).toNat * modulusAt Qi level +
          t.toNat / 2) / t.toNat % (Qi.getD li 0).toNat ∧
        ((rows.getD li []).getD i 0).toNat < (Qi.getD li 0).toNat) ∧
      (level = 0 → cnpScaleUp fvScaleUp true Qi t N level coeffs = .ok rows) := by
  obtain ⟨s, hnew, hs⟩ := newSlotScaler_built (R := R) hodd.pos hlevel
  refine ⟨s, _, hnew, scale_eq hlen, ?_, fun c hmem ↦ ?_, fun li hli i hi ↦ ?_, ?_⟩
  · rw [List.length_map, List.length_range, hs.level_eq]
  · exact (toNat_limb hR ht32 hQi hlevel hs (hc c hmem) (Nat.zero_le level)).1
  · have hlimb := (toNat_limb hR ht32 hQi hlevel hs (hc _ (getD_mem hi)) hli).2
    rw [getD_scale N (hs.level_eq ▸ hli) hi, hlimb]
    exact ⟨rfl, Nat.mod_lt _ (hQi _ (getD_mem (hli.trans_lt hlevel))).1.pos⟩
  · rintro rfl
    rw [cnpScaleUp_eq_scale hR ht32 hQi hlevel fvScaleUp hs hlen hc, scale_eq hlen]

/-- Montgomery multiplication as it is defined, by the inverse of `2 ^ 64`. -/
def montgomeryOps : RingOps where
  BredParams _ := (0, 0)
  MredParams _ := 0
  MForm d q _ := UInt64.ofNat (d.toNat * 2 ^ 64 % q.toNat)
  MRed x y q _ :=
    UInt64.ofNat ((x.toNat * y.toNat : ZMod q.toNat) * ((2 ^ 64 : ℕ) : ZMod q.toNat)⁻¹).val
  CRed a q := if q ≤ a then a - q else a

theorem montgomeryOps_documented : montgomeryOps.Documented where
  mRed_mForm q x d hodd hq hd := by
    have hne : NeZero q.toNat := ⟨hodd.pos.ne'⟩
    have hunit : ((2 ^ 64 : ℕ) : ZMod q.toNat) * ((2 ^ 64 : ℕ) : ZMod q.toNat)⁻¹ = 1 :=
      ZMod.coe_mul_inv_eq_one _ ((Nat.coprime_two_left.mpr hodd).pow_left 64)
    have hform : (UInt64.ofNat (d.toNat * 2 ^ 64 % q.toNat)).toNat = d.toNat * 2 ^ 64 % q.toNat :=
      UInt64.toNat_ofNat_of_lt' ((Nat.mod_lt _ hodd.pos).trans q.toNat_lt)
    have hval : (x.toNat * (d.toNat * 2 ^ 64 % q.toNat : ℕ) : ZMod q.toNat) *
        ((2 ^ 64 : ℕ) : ZMod q.toNat)⁻¹ = (x.toNat * d.toNat : ℕ) := by
      rw [ZMod.natCast_mod, Nat.cast_mul, Nat.cast_mul, ← mul_assoc, mul_assoc, hunit, mul_one]
    simp only [montgomeryOps]
    rw [hform, hval, ZMod.val_natCast]
    exact UInt64.toNat_ofNat_of_lt' ((Nat.mod_lt _ hodd.pos).trans q.toNat_lt)
  cRed q a _ := rfl

/-- The second prime is smaller than the plaintext modulus. -/
theorem scale_exact_small_prime : ∃ s rows,
    newSlotScaler montgomeryOps [1099511627689, 97] 1009 1 = .ok s ∧
    s.scale montgomeryOps 4 [0, 504, 1008] = .ok rows ∧
    ((rows.getD 1 []).getD 2 0).toNat = (1008 * (1099511627689 * 97) + 504) / 1009 % 97 := by
  have hQi : ∀ q ∈ ([1099511627689, 97] : List UInt64), Odd q.toNat ∧ q.toNat < 2 ^ 62 := by
    rw [List.forall_mem_cons, List.forall_mem_singleton]
    exact ⟨by decide, by decide⟩
  have hlevel : 1 < ([1099511627689, 97] : List UInt64).length := by decide
  have hlen : ([0, 504, 1008] : List UInt64).length ≤ 4 := by decide
  have hc : ∀ c ∈ ([0, 504, 1008] : List UInt64), c < 1009 := by
    rw [List.forall_mem_cons, List.forall_mem_cons, List.forall_mem_singleton]
    exact ⟨by decide, by decide, by decide⟩
  obtain ⟨s, rows, hnew, hrows, -, -, hlimbs, -⟩ := scale_exact montgomeryOps_documented
    (by decide) (by decide) hQi hlevel hlen hc fun _ ↦ []
  exact ⟨s, rows, hnew, hrows, (hlimbs 1 (by decide) 2 (by decide)).1⟩

end Limbs

end Ppfdaas.Transcipher.Rns
