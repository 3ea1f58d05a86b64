import Ppfdaas.Transcipher.Hera
import Ppfdaas.Transcipher.WordLayers

/-!
# HERA over its plaintext field

The layers of `encryptBlock` in their three readings.
-/

namespace Ppfdaas.Transcipher

open CheckedWord FieldLayers

/-! ## Where `heraLinLayer` reads -/

theorem heraColumn_lt (i : Fin 16) (k : ℕ) : (i.val + 4 * k) % 16 < 16 := by omega

theorem heraRow_lt (i : Fin 16) (k : ℕ) : 4 * (i.val / 4) + (i.val + k) % 4 < 16 := by omega

def heraColumn (i : Fin 16) (k : ℕ) : Fin 16 := ⟨(i.val + 4 * k) % 16, heraColumn_lt i k⟩

def heraRow (i : Fin 16) (k : ℕ) : Fin 16 := ⟨4 * (i.val / 4) + (i.val + k) % 4, heraRow_lt i k⟩

/-! ## The layers on words that may not wrap -/

namespace Checked

def heraTaps (a b c d : CheckedWord) : CheckedWord := (2 * a + 3 * b + c + d) % ofWord HeraModulus

def heraMixColumns (state : Vector CheckedWord 16) : Vector CheckedWord 16 :=
  Vector.ofFn fun i ↦ heraTaps (state.get i) (state.get (heraColumn i 1))
    (state.get (heraColumn i 2)) (state.get (heraColumn i 3))

def heraMixRows (buf : Vector CheckedWord 16) : Vector CheckedWord 16 :=
  Vector.ofFn fun i ↦ heraTaps (buf.get (heraRow i 0)) (buf.get (heraRow i 1))
    (buf.get (heraRow i 2)) (buf.get (heraRow i 3))

def mulMod (a b : CheckedWord) : CheckedWord := (a * b) % ofWord HeraModulus

def heraCube (state : Vector CheckedWord 16) : Vector CheckedWord 16 :=
  state.map fun x ↦ mulMod (mulMod x x) x

end Checked

def heraMixColumns (state : HeraState) : HeraState :=
  Vector.ofFn fun i ↦ heraTaps (state.get i) (state.get (heraColumn i 1))
    (state.get (heraColumn i 2)) (state.get (heraColumn i 3))

def heraMixRows (buf : HeraState) : HeraState :=
  Vector.ofFn fun i ↦ heraTaps (buf.get (heraRow i 0)) (buf.get (heraRow i 1))
    (buf.get (heraRow i 2)) (buf.get (heraRow i 3))

theorem heraLinLayer_eq (state : HeraState) :
    heraLinLayer state = heraMixRows (heraMixColumns state) := rfl

/-! ## What an element becomes -/

theorem heraTaps_tracks {x y z w : CheckedWord} {a b c d : UInt64} {m₁ m₂ m₃ m₄ : ℕ}
    (hx : Tracks x a m₁) (hy : Tracks y b m₂) (hz : Tracks z c m₃) (hw : Tracks w d m₄)
    (h₁ : m₁ < plainModulus) (h₂ : m₂ < plainModulus) (h₃ : m₃ < plainModulus)
    (h₄ : m₄ < plainModulus) :
    Tracks (Checked.heraTaps x y z w) (heraTaps a b c d)
      ((2 * m₁ + 3 * m₂ + m₃ + m₄) % plainModulus) := by
  have htwo := Tracks.ofNat 2 (by decide)
  have hthree := Tracks.ofNat 3 (by decide)
  simp only [plainModulus] at h₁ h₂ h₃ h₄
  have hpair := (htwo.mul hx (by omega)).add (hthree.mul hy (by omega)) (by omega)
  have hsum := (hpair.add hz (by omega)).add hw (by omega)
  exact hsum.mod tracks_plainWord

/-! ## The layers -/

def heraCirculant (k : Fin 4) : PlainField := ((![2, 3, 1, 1] : Fin 4 → ℕ) k : ℕ)

theorem heraSum_cast (m : Fin 4 → ℕ) :
    ((2 * m 0 + 3 * m 1 + m 2 + m 3) % plainModulus : ℕ) =
      ∑ k, heraCirculant k * (m k : PlainField) := by
  rw [cast_mod_plainModulus, Fin.sum_univ_four]
  simp [heraCirculant]

def heraMixColumnsLayer : Layer 16 :=
  .ofTracks heraMixColumns Checked.heraMixColumns (mixColumns heraCirculant) fun s hs i ↦ by
    let entry (k : Fin 4) : Fin 16 := heraColumn i k
    have hfirst : entry 0 = i := Fin.ext (Nat.mod_eq_of_lt i.isLt)
    refine ⟨_, ?_, mod_plainModulus_lt _,
      (heraSum_cast fun k ↦ (s.get (entry k)).toNat).trans ?_⟩
    · rw [Checked.heraMixColumns, heraMixColumns, Vector.get_ofFn, Vector.get_ofFn, hfirst]
      exact heraTaps_tracks (checkedState_tracks s _) (checkedState_tracks s _)
        (checkedState_tracks s _) (checkedState_tracks s _) (hs _) (hs _) (hs _) (hs _)
    · rw [mixColumns_apply]
      refine Finset.sum_congr rfl fun k _ ↦ congrArg _ (toField_of_val s ?_).symm
      rw [below_val]
      change _ = (i.val + 4 * k.val) % 16
      omega

def heraMixRowsLayer : Layer 16 :=
  .ofTracks heraMixRows Checked.heraMixRows (mixRows heraCirculant) fun s hs i ↦ by
    let entry (k : Fin 4) : Fin 16 := heraRow i k
    refine ⟨_, ?_, mod_plainModulus_lt _,
      (heraSum_cast fun k ↦ (s.get (entry k)).toNat).trans ?_⟩
    · rw [Checked.heraMixRows, heraMixRows, Vector.get_ofFn, Vector.get_ofFn]
      exact heraTaps_tracks (checkedState_tracks s _) (checkedState_tracks s _)
        (checkedState_tracks s _) (checkedState_tracks s _) (hs _) (hs _) (hs _) (hs _)
    · rw [mixRows_apply]
      refine Finset.sum_congr rfl fun k _ ↦ congrArg _ (toField_of_val s ?_).symm
      rw [beside_val]
      change _ = 4 * (i.val / 4) + (i.val + k.val) % 4
      omega

def heraCubeLayer : Layer 16 :=
  .ofTracks heraCube Checked.heraCube cube fun s hs i ↦ by
    have hget := checkedState_tracks s i
    let v := (s.get i).toNat
    refine ⟨v * v % plainModulus * v % plainModulus, ?_, mod_plainModulus_lt _, ?_⟩
    · rw [Checked.heraCube, heraCube, Vector.get_map, Vector.get_map]
      exact mulMod_tracks (mulMod_tracks hget hget (hs i) (hs i)) hget (mod_plainModulus_lt _)
        (hs i)
    · rw [cast_mod_plainModulus, Nat.cast_mul, cast_mod_plainModulus, Nat.cast_mul, cube,
        pow_three']
      rfl

/-! ## The rounds -/

def heraLayers (rks : Fin (HeraRounds + 1) → FieldState 16) : List (Layer 16) :=
  let linear := [heraMixColumnsLayer, heraMixRowsLayer]
  let round (r : Fin (HeraRounds + 1)) := linear ++ [heraCubeLayer, addRoundKeyLayer (rks r)]
  addRoundKeyLayer (rks 0) :: (round 1 ++ round 2 ++ round 3 ++ round 4) ++
    (linear ++ heraCubeLayer :: linear ++ [addRoundKeyLayer (rks 5)])

theorem heraRounds_eq (rks : Fin (HeraRounds + 1) → FieldState 16) (s : HeraState) :
    heraRounds (Vector.ofFn fun r ↦ (rks r).1) s = Layer.runWords (heraLayers rks) s := by
  simp only [heraRounds, Vector.getElem_ofFn, heraLinLayer_eq]
  rfl

/-- HERA as it is specified: whitening, four rounds, and a last round that mixes twice. -/
def heraSpec (keys : Fin (HeraRounds + 1) → Fin 16 → PlainField) (x : Fin 16 → PlainField) :
    Fin 16 → PlainField :=
  let linear (x : Fin 16 → PlainField) := mixRows heraCirculant (mixColumns heraCirculant x)
  let round (r : Fin (HeraRounds + 1)) (x : Fin 16 → PlainField) :=
    addKey (keys r) (cube (linear x))
  addKey (keys 5) (linear (cube (linear
    (round 4 (round 3 (round 2 (round 1 (addKey (keys 0) x))))))))

@[simp] theorem heraMixColumnsLayer_field :
    heraMixColumnsLayer.field = mixColumns heraCirculant := rfl

@[simp] theorem heraMixRowsLayer_field : heraMixRowsLayer.field = mixRows heraCirculant := rfl

@[simp] theorem heraCubeLayer_field : heraCubeLayer.field = cube := rfl

theorem runField_hera (rks : Fin (HeraRounds + 1) → FieldState 16) (x : Fin 16 → PlainField) :
    Layer.runField (heraLayers rks) x = heraSpec (fun r ↦ toField (rks r).1) x := by
  simp [Layer.runField, heraLayers, heraSpec, FieldLayers.run]

end Ppfdaas.Transcipher
