import Ppfdaas.Transcipher.Rubato
import Ppfdaas.Transcipher.WordLayers

/-!
# Rubato over its plaintext field

The layers of `encryptBlock` without noise in their three readings.
-/

namespace Ppfdaas.Transcipher

open CheckedWord FieldLayers

/-! ## Where the layers read -/

theorem rubatoColumn_lt (i : Fin 64) (k : ℕ) : (i.val / 8 + k) % 8 * 8 + i.val % 8 < 64 := by omega

theorem rubatoRow_lt (i : Fin 64) (k : ℕ) : i.val / 8 * 8 + (i.val % 8 + k) % 8 < 64 := by omega

theorem rubatoBefore_lt (i : Fin 64) : i.val - 1 < 64 := by omega

def rubatoColumn (i : Fin 64) (k : ℕ) : Fin 64 :=
  ⟨(i.val / 8 + k) % 8 * 8 + i.val % 8, rubatoColumn_lt i k⟩

def rubatoRow (i : Fin 64) (k : ℕ) : Fin 64 :=
  ⟨i.val / 8 * 8 + (i.val % 8 + k) % 8, rubatoRow_lt i k⟩

def rubatoBefore (i : Fin 64) : Fin 64 := ⟨i.val - 1, rubatoBefore_lt i⟩

/-! ## The layers on words that may not wrap -/

namespace Checked

def rubatoTaps (entry : ℕ → CheckedWord) : CheckedWord :=
  (5 * entry 0 + 3 * entry 1 + 4 * entry 2 + 3 * entry 3 + 6 * entry 4 + 2 * entry 5 +
    entry 6 + entry 7) % ofWord RubatoModulus

def rubatoMixColumns (state : Vector CheckedWord 64) : Vector CheckedWord 64 :=
  Vector.ofFn fun i ↦ rubatoTaps fun k ↦ state.get (rubatoColumn i k)

def rubatoMixRows (buf : Vector CheckedWord 64) : Vector CheckedWord 64 :=
  Vector.ofFn fun i ↦ rubatoTaps fun k ↦ buf.get (rubatoRow i k)

def rubatoFeistel (buf : Vector CheckedWord 64) : Vector CheckedWord 64 :=
  Vector.ofFn fun i ↦
    if i.val = 0 then buf.get 0
    else (buf.get i + buf.get (rubatoBefore i) * buf.get (rubatoBefore i)) % ofWord RubatoModulus

end Checked

def rubatoMixColumns (state : RubatoState) : RubatoState :=
  Vector.ofFn fun i ↦ rubatoTaps fun k ↦ state.get (rubatoColumn i k)

def rubatoMixRows (buf : RubatoState) : RubatoState :=
  Vector.ofFn fun i ↦ rubatoTaps fun k ↦ buf.get (rubatoRow i k)

theorem rubatoLinLayer64_eq (state : RubatoState) :
    rubatoLinLayer64 state = rubatoMixRows (rubatoMixColumns state) := rfl

theorem rubatoFeistel_get (buf : RubatoState) (i : Fin 64) :
    (rubatoFeistel buf).get i = if i.val = 0 then buf.get 0
      else (buf.get i + buf.get (rubatoBefore i) * buf.get (rubatoBefore i)) % RubatoModulus :=
  Vector.get_ofFn _ i

/-! ## What an element becomes -/

/-- The taps on exact values. -/
def exactTaps (m : ℕ → ℕ) : ℕ :=
  (5 * m 0 + 3 * m 1 + 4 * m 2 + 3 * m 3 + 6 * m 4 + 2 * m 5 + m 6 + m 7) % plainModulus

theorem rubatoTaps_tracks {x : ℕ → CheckedWord} {a : ℕ → UInt64} {m : ℕ → ℕ}
    (hx : ∀ k, Tracks (x k) (a k) (m k)) (hm : ∀ k, m k < plainModulus) :
    Tracks (Checked.rubatoTaps x) (rubatoTaps a) (exactTaps m) := by
  have h₀ := hm 0
  have h₁ := hm 1
  have h₂ := hm 2
  have h₃ := hm 3
  have h₄ := hm 4
  have h₅ := hm 5
  have h₆ := hm 6
  have h₇ := hm 7
  simp only [plainModulus] at h₀ h₁ h₂ h₃ h₄ h₅ h₆ h₇
  have hfive := (Tracks.ofNat 5 (by decide)).mul (hx 0) (by omega)
  have hthree := (Tracks.ofNat 3 (by decide)).mul (hx 1) (by omega)
  have hfour := (Tracks.ofNat 4 (by decide)).mul (hx 2) (by omega)
  have hthree' := (Tracks.ofNat 3 (by decide)).mul (hx 3) (by omega)
  have hsix := (Tracks.ofNat 6 (by decide)).mul (hx 4) (by omega)
  have htwo := (Tracks.ofNat 2 (by decide)).mul (hx 5) (by omega)
  have hfront := ((hfive.add hthree (by omega)).add hfour (by omega)).add hthree' (by omega)
  have hback := (hfront.add hsix (by omega)).add htwo (by omega)
  exact ((hback.add (hx 6) (by omega)).add (hx 7) (by omega)).mod tracks_plainWord

theorem squareAdd_tracks {x y : CheckedWord} {a b : UInt64} {m k : ℕ} (hx : Tracks x a m)
    (hy : Tracks y b k) (hm : m < plainModulus) (hk : k < plainModulus) :
    Tracks ((x + y * y) % ofWord RubatoModulus) ((a + b * b) % RubatoModulus)
      ((m + k * k) % plainModulus) := by
  have hsquare : k * k ≤ plainModulus * plainModulus := Nat.mul_le_mul hk.le hk.le
  simp only [plainModulus] at hm hsquare
  exact (hx.add (hy.mul hy (by omega)) (by omega)).mod tracks_plainWord

/-! ## The layers -/

def rubatoCirculant (k : Fin 8) : PlainField := ((![5, 3, 4, 3, 6, 2, 1, 1] : Fin 8 → ℕ) k : ℕ)

theorem exactTaps_cast (m : ℕ → ℕ) :
    (exactTaps m : PlainField) = ∑ k : Fin 8, rubatoCirculant k * (m k : PlainField) := by
  rw [exactTaps, cast_mod_plainModulus, Fin.sum_univ_eight]
  simp [rubatoCirculant]

def rubatoMixColumnsLayer : Layer 64 :=
  .ofTracks rubatoMixColumns Checked.rubatoMixColumns (mixColumns rubatoCirculant) fun s hs i ↦ by
    let entry (k : ℕ) : Fin 64 := rubatoColumn i k
    have htaps := rubatoTaps_tracks (fun k ↦ checkedState_tracks s (entry k)) fun k ↦ hs (entry k)
    refine ⟨exactTaps fun k ↦ (s.get (entry k)).toNat, ?_, mod_plainModulus_lt _,
      (exactTaps_cast _).trans ?_⟩
    · rw [Checked.rubatoMixColumns, rubatoMixColumns, Vector.get_ofFn, Vector.get_ofFn]
      exact htaps
    · rw [mixColumns_apply]
      refine Finset.sum_congr rfl fun k _ ↦ congrArg _ (toField_of_val s ?_).symm
      rw [below_val]
      change _ = (i.val / 8 + k) % 8 * 8 + i.val % 8
      omega

def rubatoMixRowsLayer : Layer 64 :=
  .ofTracks rubatoMixRows Checked.rubatoMixRows (mixRows rubatoCirculant) fun s hs i ↦ by
    let entry (k : ℕ) : Fin 64 := rubatoRow i k
    have htaps := rubatoTaps_tracks (fun k ↦ checkedState_tracks s (entry k)) fun k ↦ hs (entry k)
    refine ⟨exactTaps fun k ↦ (s.get (entry k)).toNat, ?_, mod_plainModulus_lt _,
      (exactTaps_cast _).trans ?_⟩
    · rw [Checked.rubatoMixRows, rubatoMixRows, Vector.get_ofFn, Vector.get_ofFn]
      exact htaps
    · rw [mixRows_apply]
      refine Finset.sum_congr rfl fun k _ ↦ congrArg _ (toField_of_val s ?_).symm
      rw [beside_val]
      change _ = i.val / 8 * 8 + (i.val % 8 + k) % 8
      omega

def rubatoFeistelLayer : Layer 64 :=
  .ofTracks rubatoFeistel Checked.rubatoFeistel feistel fun s hs i ↦ by
    rw [rubatoFeistel_get, Checked.rubatoFeistel, Vector.get_ofFn, feistel]
    by_cases hfirst : i.val = 0
    · obtain rfl : i = 0 := Fin.ext hfirst
      exact ⟨(s.get 0).toNat, checkedState_tracks s 0, hs 0, rfl⟩
    · rw [if_neg hfirst, if_neg hfirst, if_neg hfirst]
      have hbefore := checkedState_tracks s (rubatoBefore i)
      refine ⟨_, squareAdd_tracks (checkedState_tracks s i) hbefore (hs i) (hs _),
        mod_plainModulus_lt _, ?_⟩
      rw [cast_mod_plainModulus, Nat.cast_add, Nat.cast_mul, pow_two]
      rfl

@[simp] theorem rubatoMixColumnsLayer_field :
    rubatoMixColumnsLayer.field = mixColumns rubatoCirculant := rfl

@[simp] theorem rubatoMixRowsLayer_field :
    rubatoMixRowsLayer.field = mixRows rubatoCirculant := rfl

@[simp] theorem rubatoFeistelLayer_field : rubatoFeistelLayer.field = feistel := rfl

/-! ## The rounds -/

def rubatoLayers (rks : Fin (RubatoRounds + 1) → FieldState 64) : List (Layer 64) :=
  let linear := [rubatoMixColumnsLayer, rubatoMixRowsLayer]
  addRoundKeyLayer (rks 0) :: linear ++ rubatoFeistelLayer :: addRoundKeyLayer (rks 1) ::
    linear ++ rubatoFeistelLayer :: linear ++ [addRoundKeyLayer (rks 2)]

/-- The state before truncation, without noise. -/
theorem rubatoRounds_eq (rks : Fin (RubatoRounds + 1) → FieldState 64) (s : RubatoState) :
    rubatoAddRoundKey (rks 2).1 (rubatoRounds (Vector.ofFn fun r ↦ (rks r).1) s) =
      Layer.runWords (rubatoLayers rks) s := by
  simp only [rubatoRounds, Vector.getElem_ofFn, rubatoLinLayer64_eq]
  rfl

/-- Rubato as it is specified, up to noise and truncation. -/
def rubatoSpec (keys : Fin (RubatoRounds + 1) → Fin 64 → PlainField) (x : Fin 64 → PlainField) :
    Fin 64 → PlainField :=
  let linear (x : Fin 64 → PlainField) := mixRows rubatoCirculant (mixColumns rubatoCirculant x)
  addKey (keys 2) (linear (feistel (linear
    (addKey (keys 1) (feistel (linear (addKey (keys 0) x)))))))

theorem runField_rubato (rks : Fin (RubatoRounds + 1) → FieldState 64) (x : Fin 64 → PlainField) :
    Layer.runField (rubatoLayers rks) x = rubatoSpec (fun r ↦ toField (rks r).1) x := by
  simp [Layer.runField, rubatoLayers, rubatoSpec, FieldLayers.run]

end Ppfdaas.Transcipher
