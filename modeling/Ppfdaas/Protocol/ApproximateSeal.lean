import Ppfdaas.Bank.SealWrapper
import Ppfdaas.Library.ErrorBudget
import Ppfdaas.Scoring.SlotPipeline

/-!
# What the protocol relies on of CKKS

The ciphertexts of the SLOT path descend from an encryption and have two
polynomials, at one of three stages: fresh, product and rescaled.  At its stage
each operation decrypts close to the value that was meant, in every slot, while
the values stay in range.  From that, the canary and the SLOT circuit of the
service are close to the circuit on exact slots.
-/

namespace Ppfdaas

open ErrorBudget ServerState Wrapper

def slotsOf (values : List ℚ) : Slots ℚ := fun i ↦ values.getD i.val 0

/-- What `Approximates` leaves open: the number of polynomials of a ciphertext,
the prime that the first rescaling drops, the level below, the level of a
plaintext, the error of one operation, and the values up to which it holds. -/
structure Precision (Ct Pt : Type) where
  polys : Ct → ℕ
  qLast : ℚ
  secondParmsId : ℕ
  ptParmsId : Pt → ℕ
  ε : ℚ
  cap : ℚ

/-- Encryptions, their products with the weights, and what the rescaling leaves
of a product. -/
inductive Stage where
  | fresh
  | product
  | rescaled
  deriving DecidableEq

section Laws

variable {Pk Sk Ct Pt Gk Coins : Type} (B : BankSeal Pk Sk Ct Pt Gk Coins) (p : Precision Ct Pt)

def Stage.parmsId : Stage → ℕ
  | .fresh => B.firstParmsId
  | .product => B.firstParmsId
  | .rescaled => p.secondParmsId

def Stage.scale : Stage → ℚ
  | .fresh => gScale
  | .product => gScale * gScale
  | .rescaled => gScale * gScale / p.qLast

/-- The ciphertexts that the circuit makes of encryptions under `pk`. -/
inductive Made (pk : Pk) (gk : Gk) : Ct → Prop
  | encrypt {coins : Coins} {pt : Pt} {ct : Ct} (h : B.encrypt pk coins pt = .ok ct) :
      Made pk gk ct
  | multiplyPlain {ct out : Ct} {pt : Pt} (hct : Made pk gk ct)
      (h : B.multiplyPlain ct pt = .ok out) : Made pk gk out
  | rescaleToNext {ct out : Ct} (hct : Made pk gk ct) (h : B.rescaleToNext ct = .ok out) :
      Made pk gk out
  | rotateVector {ct out : Ct} {step : ℤ} (hct : Made pk gk ct)
      (h : B.rotateVector ct step gk = .ok out) : Made pk gk out
  | add {a b out : Ct} (ha : Made pk gk a) (hb : Made pk gk b) (h : B.add a b = .ok out) :
      Made pk gk out
  | addPlain {ct out : Ct} {pt : Pt} (hct : Made pk gk ct) (h : B.addPlain ct pt = .ok out) :
      Made pk gk out

/-- A ciphertext of two polynomials, at the level and the scale of its stage. -/
structure At (pk : Pk) (gk : Gk) (stage : Stage) (ct : Ct) : Prop where
  made : Made B pk gk ct
  polys : p.polys ct = 2
  parmsId : B.parmsId ct = stage.parmsId B p
  scale : B.scale ct = stage.scale p

/-- The owner of `sk` decrypts and decodes `ct` to these slots. -/
def DecryptsTo (sk : Sk) (ct : Ct) (d : Slots ℚ) : Prop :=
  ∃ pt values, B.decrypt sk ct = .ok pt ∧ B.decode pt = .ok values ∧ slotsOf values = d

def DecodesTo (pt : Pt) (d : Slots ℚ) : Prop :=
  ∃ values, B.decode pt = .ok values ∧ slotsOf values = d

def DecryptsNear (sk : Sk) (ct : Ct) (v : Slots ℚ) : Prop :=
  ∃ d, DecryptsTo B sk ct d ∧ ∀ i, |d i - v i| ≤ p.ε

/-- SEAL's CKKS under one key triple.  A product with a plaintext of zeros is
refused as transparent; the service rotates and adds fresh and rescaled
ciphertexts, and adds to a ciphertext only its own rotation. -/
structure Approximates (pk : Pk) (sk : Sk) (gk : Gk) : Prop where
  encode : ∀ values : List ℚ, values.length = kSlots → (∀ v ∈ values, |v| ≤ p.cap) →
    ∃ pt, B.encode values gScale = .ok pt
  encrypt : ∀ {values pt} (coins : Coins), values.length = kSlots →
    B.encode values gScale = .ok pt → ∃ ct, B.encrypt pk coins pt = .ok ct ∧
      At B p pk gk .fresh ct ∧ DecryptsNear B p sk ct (slotsOf values)
  load_save : ∀ {stage ct}, At B p pk gk stage ct → B.load (B.save ct) = .ok ct
  saveSize_le : ∀ {stage ct}, At B p pk gk stage ct → B.saveSize ct ≤ CT_BUF
  multiplyPlain : ∀ {ct pt d w}, At B p pk gk .fresh ct → p.ptParmsId pt = B.firstParmsId →
    B.plaintextScale pt = gScale → DecryptsTo B sk ct d → DecodesTo B pt w → w ≠ 0 →
    (∀ i, |(d * w) i| ≤ p.cap) → ∃ out, B.multiplyPlain ct pt = .ok out ∧
      At B p pk gk .product out ∧ DecryptsNear B p sk out (d * w)
  rescaleToNext : ∀ {ct d}, At B p pk gk .product ct → DecryptsTo B sk ct d →
    (∀ i, |d i| ≤ p.cap) → ∃ out, B.rescaleToNext ct = .ok out ∧
      At B p pk gk .rescaled out ∧ DecryptsNear B p sk out d
  rotateVector : ∀ {stage ct d step}, stage ≠ .product → step ∈ STEPS → At B p pk gk stage ct →
    DecryptsTo B sk ct d → (∀ i, |d i| ≤ p.cap) → ∃ out, B.rotateVector ct step gk = .ok out ∧
      At B p pk gk stage out ∧
      DecryptsNear B p sk out (WindowSum.rotate (step : ZMod kSlots) d)
  add : ∀ {stage a b d d' step}, stage ≠ .product → step ∈ STEPS → At B p pk gk stage a →
    B.rotateVector a step gk = .ok b → At B p pk gk stage b → DecryptsTo B sk a d →
    DecryptsTo B sk b d' → (∀ i, |(d + d') i| ≤ p.cap) → ∃ out, B.add a b = .ok out ∧
      At B p pk gk stage out ∧ DecryptsNear B p sk out (d + d')
  addPlain : ∀ {ct pt d b}, At B p pk gk .rescaled ct → p.ptParmsId pt = p.secondParmsId →
    B.plaintextScale pt = gScale * gScale / p.qLast → DecryptsTo B sk ct d → DecodesTo B pt b →
    (∀ i, |(d + b) i| ≤ p.cap) → ∃ out, B.addPlain ct pt = .ok out ∧
      At B p pk gk .rescaled out ∧ DecryptsNear B p sk out (d + b)

/-- The plaintexts of a SLOT server: the tiled weights at the first level, not
all zero, and the bias at the level and scale that the product is rescaled to. -/
structure HoldsModel (m : ServiceConstants Pt) (w : Fin 256 → ℚ) (b : ℚ) : Prop where
  mode : m.packingMode = .slot
  weights_level : p.ptParmsId m.ptWeights = B.firstParmsId
  weights_scale : B.plaintextScale m.ptWeights = gScale
  weights : ∃ d, DecodesTo B m.ptWeights d ∧ d ≠ 0 ∧
    ∀ i, |d i - tileWeights (List.ofFn w) i| ≤ p.ε
  bias_level : p.ptParmsId m.ptBias = p.secondParmsId
  bias_scale : B.plaintextScale m.ptBias = gScale * gScale / p.qLast
  bias : ∃ d, DecodesTo B m.ptBias d ∧ ∀ i, |d i - biasVector b i| ≤ p.ε

/-- The decryption tracks `v`: it is bounded by `M` and the error by `e`. -/
def Carries (sk : Sk) (M e : ℚ) (v : Slots ℚ) (ct : Ct) : Prop :=
  ∃ d, DecryptsTo B sk ct d ∧ Tracks M e v d

variable {B p} {pk : Pk} {sk : Sk} {gk : Gk}

theorem Carries.of_near {M e : ℚ} {v d : Slots ℚ} {ct : Ct} (h : Tracks M e v d)
    (hnear : DecryptsNear B p sk ct d) : Carries B sk M (e + p.ε) v ct := by
  obtain ⟨d', hreads, hclose⟩ := hnear
  exact ⟨d', hreads, h.rounded hclose⟩

/-! ## The fold -/

theorem Approximates.treeSum (h : Approximates B p pk sk gk) (hε : 0 ≤ p.ε) {stage : Stage}
    (hstage : stage ≠ .product) {M e : ℚ} {v : Slots ℚ} {ct : Ct} (hM : 0 ≤ M) (he : 0 ≤ e)
    (hat : At B p pk gk stage ct) (hct : Carries B sk M e v ct)
    (hcap : 256 * (M + e + 2 * p.ε) ≤ p.cap) :
    ∃ out, pureTreeSum B.toSeal gk ct = .ok out ∧ At B p pk gk stage out ∧
      Carries B sk (256 * M) (256 * e + 510 * p.ε)
        (fun i ↦ ∑ j ∈ Finset.range 256, v (i + j)) out := by
  let HoldsAt (M e : ℚ) (v : Slots ℚ) (acc : Ct) : Prop :=
    At B p pk gk stage acc ∧ Carries B sk M e v acc
  have hstep : ∀ s ∈ STEPS, ∀ M e v acc, 0 ≤ M → 0 ≤ e → HoldsAt M e v acc →
      2 * M + 2 * e + 2 * p.ε ≤ p.cap → ∃ acc',
        (do let tmp ← B.rotateVector acc s gk
            B.add acc tmp) = .ok acc' ∧
        HoldsAt (2 * M) (2 * e + 2 * p.ε) (v + WindowSum.rotate (s : ZMod kSlots) v) acc' := by
    rintro s hs M e v acc hM he ⟨hacc, d, hreads, htracks⟩ hcap
    have hrange : ∀ i, |d i| ≤ p.cap := fun i ↦ (htracks.le i).trans (by linarith)
    obtain ⟨tmp, htmp, htmpAt, hnear⟩ := h.rotateVector hstage hs hacc hreads hrange
    obtain ⟨d', hreads', htracks'⟩ := Carries.of_near (htracks.rotate (s : ZMod kSlots)) hnear
    have hsum := htracks.add htracks'
    have hrange' : ∀ i, |(d + d') i| ≤ p.cap := fun i ↦ (hsum.le i).trans (by linarith)
    obtain ⟨out, hout, houtAt, hnear'⟩ :=
      h.add hstage hs hacc htmp htmpAt hreads hreads' hrange'
    refine ⟨out, ?_, houtAt, ?_⟩
    · simp only [htmp, bind, Except.bind]
      exact hout
    · have hholds := Carries.of_near hsum hnear'
      have hM' : M + M = 2 * M := by ring
      have he' : e + (e + p.ε) + p.ε = 2 * e + 2 * p.ε := by ring
      rwa [hM', he'] at hholds
  have hlength : (2 : ℚ) ^ STEPS.length = 256 := by norm_num [STEPS]
  obtain ⟨out, hout, houtAt, hholds⟩ := fold_returns (by positivity) hstep hM he ⟨hat, hct⟩
    (by rwa [hlength])
  refine ⟨out, hout, houtAt, ?_⟩
  have hsteps : STEPS.map (Int.cast : ℤ → ZMod kSlots) =
      (List.range 8).map fun j ↦ 2 ^ j • (1 : ZMod kSlots) := by
    decide
  rw [hlength, hsteps, WindowSum.fold_doubling] at hholds
  have he' : 256 * e + (256 - 1) * (2 * p.ε) = 256 * e + 510 * p.ε := by ring
  rw [he'] at hholds
  simpa using hholds

/-! ## The circuit -/

/-- How far a score may be off, for entries up to `M` and weights up to `W`. -/
def scoreError (p : Precision Ct Pt) (M W : ℚ) : ℚ := 256 * p.ε * (M + W + p.ε + 4)

theorem Approximates.slotCircuit (h : Approximates B p pk sk gk) (hε : 0 ≤ p.ε)
    {m : ServiceConstants Pt} {w : Fin 256 → ℚ} {b : ℚ}
    (hm : HoldsModel B p m w b) {M W : ℚ} (hw : ∀ j, |w j| ≤ W)
    (hcap : 256 * (M * W) + |b| + scoreError p M W ≤ p.cap) {x : Slots ℚ} (hx : ∀ i, |x i| ≤ M)
    {ct : Ct} (hfresh : At B p pk gk .fresh ct) (hct : DecryptsNear B p sk ct x) :
    ∃ out d exact, ServerState.slotCircuit B.toSeal m gk ct = .ok out ∧
      At B p pk gk .rescaled out ∧ DecryptsTo B sk out d ∧
      ServerState.slotCircuit (Seal.slots ℚ) (slotConstants (List.ofFn w) b) () x = .ok exact ∧
      ∀ i, |d i - exact i| ≤ scoreError p M W := by
  obtain ⟨dw, hdw, hne, hdwClose⟩ := hm.weights
  obtain ⟨db, hdb, hdbClose⟩ := hm.bias
  have hM : 0 ≤ M := (abs_nonneg _).trans (hx 0)
  have hW : 0 ≤ W := (abs_nonneg _).trans (hw 0)
  have hMW : 0 ≤ M * W := mul_nonneg hM hW
  have hMε : 0 ≤ M * p.ε := mul_nonneg hM hε
  have hWε : 0 ≤ W * p.ε := mul_nonneg hW hε
  have hεε : 0 ≤ p.ε * p.ε := mul_nonneg hε hε
  have hb := abs_nonneg b
  have herror : scoreError p M W =
      256 * (M * p.ε) + 256 * (W * p.ε) + 256 * (p.ε * p.ε) + 1024 * p.ε := by
    rw [scoreError]
    ring
  rw [herror] at hcap
  obtain ⟨d₀, hreads₀, hclose₀⟩ := hct
  have htracks₀ : Tracks M (0 + p.ε) x d₀ := (Tracks.refl hx).rounded hclose₀
  have htile : ∀ i, |tileWeights (List.ofFn w) i| ≤ W := fun i ↦ by
    have hlt : i.val % 256 < 256 := Nat.mod_lt _ (by decide)
    rw [tileWeights, ofFn_getD w ⟨i.val % 256, hlt⟩]
    exact hw _
  have htracksW : Tracks W (0 + p.ε) (tileWeights (List.ofFn w)) dw :=
    (Tracks.refl htile).rounded hdwClose
  -- The product and the rescaling.
  have hprod := htracks₀.mul htracksW
  obtain ⟨ct₁, hrun₁, hat₁, hnear₁⟩ := h.multiplyPlain hfresh hm.weights_level hm.weights_scale
    hreads₀ hdw hne fun i ↦ (hprod.le i).trans (by linarith)
  obtain ⟨d₁, hreads₁, htracks₁⟩ := Carries.of_near hprod hnear₁
  obtain ⟨ct₂, hrun₂, hat₂, hnear₂⟩ := h.rescaleToNext hat₁ hreads₁
    fun i ↦ (htracks₁.le i).trans (by linarith)
  have hholds₂ := Carries.of_near htracks₁ hnear₂
  -- The fold and the bias.
  obtain ⟨ct₃, hrun₃, hat₃, d₃, hreads₃, htracks₃⟩ := h.treeSum hε (by decide) hMW
    (by positivity) hat₂ hholds₂ (by linarith)
  have htracksB : Tracks |b| (0 + p.ε) (biasVector b) db := by
    refine (Tracks.refl fun i ↦ ?_).rounded hdbClose
    rw [biasVector]
    split_ifs
    · exact le_rfl
    · rw [abs_zero]
      exact hb
  have hsum := htracks₃.add htracksB
  obtain ⟨out, hrun, hat, hnear⟩ := h.addPlain hat₃ hm.bias_level hm.bias_scale hreads₃ hdb
    fun i ↦ (hsum.le i).trans (by linarith)
  obtain ⟨d, hreads, htracks⟩ := Carries.of_near hsum hnear
  refine ⟨out, d, _, ?_, hat, hreads, slotCircuit_slots _ _ _,
    fun i ↦ (htracks.error i).trans ?_⟩
  · simp only [ServerState.slotCircuit, hrun₁, hrun₂, hrun₃, bind, Except.bind]
    exact hrun
  · rw [herror]
    linarith

/-! ## The wrapper's two ends -/

theorem Approximates.encryptBatch (h : Approximates B p pk sk gk) (coins : Coins)
    {values : List ℚ} (hlength : values.length = kSlots) (hcap : ∀ v ∈ values, |v| ≤ p.cap) :
    ∃ ct, (holding (some (pk, sk))).encryptBatch B coins values = .ok (B.save ct) ∧
      At B p pk gk .fresh ct ∧ DecryptsNear B p sk ct (slotsOf values) := by
  obtain ⟨pt, hpt⟩ := h.encode values hlength hcap
  obtain ⟨ct, hct, hfresh, hnear⟩ := h.encrypt coins hlength hpt
  refine ⟨ct, ?_, hfresh, hnear⟩
  have hshape : ¬ values.length ≠ 4096 := not_not_intro hlength
  simp only [holding, Wrapper.encryptBatch, hshape, if_false, hpt, hct, bind, Except.bind]
  rfl

theorem Approximates.save_length_le (h : Approximates B p pk sk gk) {stage : Stage} {ct : Ct}
    (hat : At B p pk gk stage ct) : (B.save ct).length ≤ CT_BUF :=
  (B.save_length ct).trans_le (h.saveSize_le hat)

theorem Approximates.decryptBatch (h : Approximates B p pk sk gk) {stage : Stage} {ct : Ct}
    {d : Slots ℚ} (hat : At B p pk gk stage ct)
    (hreads : DecryptsTo B sk ct d) {n : ℕ} (hpos : 1 ≤ n) (hle : n ≤ 16) :
    (holding (some (pk, sk))).decryptBatch B (B.save ct) n =
      .ok ((List.range n).map fun k ↦ d (k * 256 : ℕ)) := by
  obtain ⟨pt, values, hdecrypt, hdecode, rfl⟩ := hreads
  have hrange : ¬ (n < 1 ∨ 16 < n) := by omega
  simp only [holding, Wrapper.decryptBatch, hrange, if_false, h.load_save hat, hdecrypt, hdecode,
    bind, Except.bind]
  refine congrArg Except.ok (List.map_congr_left fun k hk ↦ ?_)
  have hk16 : k < 16 := (List.mem_range.mp hk).trans_le hle
  have hval := lane_val (j := 0) hk16 (by decide)
  simp only [Nat.cast_zero, add_zero] at hval
  rw [slotsOf, hval, Nat.mul_comm]

end Laws

end Ppfdaas
