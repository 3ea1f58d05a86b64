import Mathlib
import Ppfdaas.Library.CheckedWords
import Ppfdaas.Library.FieldLayers

/-!
# Layers on words and over the plaintext field

A layer of a cipher in three readings: on 64-bit words as in the source, on
words that may not wrap, and over `Z_t`.
-/

namespace Ppfdaas.Transcipher

open CheckedWord

def plainModulus : ℕ := 0x1fc0001

/-- The modulus as a word: `HeraModulus` and `RubatoModulus`. -/
def plainWord : UInt64 := 0x1fc0001

theorem plainModulus_prime : plainModulus.Prime := by norm_num [plainModulus]

instance : Fact plainModulus.Prime := ⟨plainModulus_prime⟩

abbrev PlainField := ZMod plainModulus

variable {n : ℕ}

def Reduced (s : Vector UInt64 n) : Prop := ∀ i : Fin n, (s.get i).toNat < plainModulus

abbrev FieldState (n : ℕ) := { s : Vector UInt64 n // Reduced s }

def toField (s : Vector UInt64 n) : Fin n → PlainField := fun i ↦ ((s.get i).toNat : PlainField)

theorem toField_of_val (s : Vector UInt64 n) {i j : Fin n} (h : i.val = j.val) :
    toField s i = (s.get j).toNat := by
  rw [Fin.ext h]
  rfl

def checkedState (s : Vector UInt64 n) : Vector CheckedWord n := s.map ofWord

theorem checkedState_tracks (s : Vector UInt64 n) (i : Fin n) :
    Tracks ((checkedState s).get i) (s.get i) (s.get i).toNat := by
  rw [checkedState, Vector.get_map]
  exact Tracks.word (s.get i)

/-- On reduced states the three readings agree: nothing wraps, the result is
reduced again, and it is the one of the field. -/
structure Layer (n : ℕ) where
  word : Vector UInt64 n → Vector UInt64 n
  checked : Vector CheckedWord n → Vector CheckedWord n
  field : (Fin n → PlainField) → Fin n → PlainField
  no_wrap : ∀ s, Reduced s → checked (checkedState s) = checkedState (word s)
  reduced : ∀ s, Reduced s → Reduced (word s)
  exact : ∀ s, Reduced s → toField (word s) = field (toField s)

namespace Layer

/-- A layer from what each element of its result is. -/
def ofTracks (word : Vector UInt64 n → Vector UInt64 n)
    (checked : Vector CheckedWord n → Vector CheckedWord n)
    (field : (Fin n → PlainField) → Fin n → PlainField)
    (h : ∀ s, Reduced s → ∀ i : Fin n, ∃ m,
      Tracks ((checked (checkedState s)).get i) ((word s).get i) m ∧ m < plainModulus ∧
        (m : PlainField) = field (toField s) i) : Layer n where
  word := word
  checked := checked
  field := field
  no_wrap s hs := by
    apply Vector.ext
    intro i hi
    obtain ⟨m, htracks, -, -⟩ := h s hs ⟨i, hi⟩
    exact htracks.checked.trans (checkedState_tracks (word s) ⟨i, hi⟩).checked.symm
  reduced s hs i := by
    obtain ⟨m, htracks, hlt, -⟩ := h s hs i
    exact htracks.value ▸ hlt
  exact s hs := by
    funext i
    obtain ⟨m, htracks, -, hfield⟩ := h s hs i
    rw [toField, htracks.value, hfield]

def runWords (layers : List (Layer n)) : Vector UInt64 n → Vector UInt64 n :=
  FieldLayers.run (layers.map word)

def runChecked (layers : List (Layer n)) : Vector CheckedWord n → Vector CheckedWord n :=
  FieldLayers.run (layers.map checked)

def runField (layers : List (Layer n)) : (Fin n → PlainField) → Fin n → PlainField :=
  FieldLayers.run (layers.map field)

theorem run_exact (layers : List (Layer n)) {s : Vector UInt64 n} (hs : Reduced s) :
    runChecked layers (checkedState s) = checkedState (runWords layers s) ∧
      Reduced (runWords layers s) ∧ toField (runWords layers s) = runField layers (toField s) := by
  induction layers generalizing s with
  | nil => exact ⟨rfl, hs, rfl⟩
  | cons layer layers ih =>
      obtain ⟨hchecked, hreduced, hfield⟩ := ih (layer.reduced s hs)
      refine ⟨?_, hreduced, ?_⟩
      · change runChecked layers (layer.checked (checkedState s)) = _
        rw [layer.no_wrap s hs, hchecked]
        rfl
      · change _ = runField layers (layer.field (toField s))
        rw [← layer.exact s hs, ← hfield]
        rfl

/-- The layers as a map of the states over `Z_t`. -/
def runState (layers : List (Layer n)) (s : FieldState n) : FieldState n :=
  ⟨runWords layers s.1, (run_exact layers s.2).2.1⟩

end Layer

/-! ## Reducing, and adding a round key -/

theorem tracks_plainWord : Tracks (ofWord plainWord) plainWord plainModulus := ⟨rfl, by decide⟩

theorem cast_mod_plainModulus (m : ℕ) : ((m % plainModulus : ℕ) : PlainField) = m :=
  ZMod.natCast_mod m plainModulus

theorem mulMod_tracks {x y : CheckedWord} {a b : UInt64} {m k : ℕ} (hx : Tracks x a m)
    (hy : Tracks y b k) (hm : m < plainModulus) (hk : k < plainModulus) :
    Tracks (x * y % ofWord plainWord) (a * b % plainWord) (m * k % plainModulus) := by
  have hfit : m * k < 2 ^ 64 := by
    calc m * k ≤ plainModulus * plainModulus := Nat.mul_le_mul hm.le hk.le
      _ < 2 ^ 64 := by decide
  exact (hx.mul hy hfit).mod tracks_plainWord

theorem addMod_tracks {x y : CheckedWord} {a b : UInt64} {m k : ℕ} (hx : Tracks x a m)
    (hy : Tracks y b k) (hm : m < plainModulus) (hk : k < plainModulus) :
    Tracks ((x + y) % ofWord plainWord) ((a + b) % plainWord) ((m + k) % plainModulus) := by
  simp only [plainModulus] at hm hk
  exact (hx.add hy (by omega)).mod tracks_plainWord

theorem mod_plainModulus_lt (m : ℕ) : m % plainModulus < plainModulus :=
  Nat.mod_lt m plainModulus_prime.pos

namespace Checked

def addRoundKey {n : ℕ} (rk state : Vector CheckedWord n) : Vector CheckedWord n :=
  Vector.zipWith (fun s k ↦ (s + k) % ofWord plainWord) state rk

end Checked

def addRoundKeyLayer {n : ℕ} (rk : FieldState n) : Layer n :=
  .ofTracks (Vector.zipWith (fun s k ↦ (s + k) % plainWord) · rk.1)
    (Checked.addRoundKey (checkedState rk.1)) (FieldLayers.addKey (toField rk.1)) fun s hs i ↦ by
    have hget := checkedState_tracks s i
    have hkey := checkedState_tracks rk.1 i
    refine ⟨((s.get i).toNat + (rk.1.get i).toNat) % plainModulus, ?_, mod_plainModulus_lt _, ?_⟩
    · simp only [Checked.addRoundKey, Vector.get_eq_getElem, Vector.getElem_zipWith]
      exact addMod_tracks hget hkey (hs i) (rk.2 i)
    · rw [cast_mod_plainModulus, Nat.cast_add]
      rfl

@[simp] theorem addRoundKeyLayer_field {n : ℕ} (rk : FieldState n) :
    (addRoundKeyLayer rk).field = FieldLayers.addKey (toField rk.1) := rfl

/-! ## Words and field elements -/

theorem toField_bijective : Function.Bijective fun s : FieldState n ↦ toField s.1 := by
  constructor
  · intro s u hsu
    apply Subtype.ext
    apply Vector.ext
    intro i hi
    have hentry : (s.1[i].toNat : PlainField) = u.1[i].toNat := congrFun hsu ⟨i, hi⟩
    have hlt : s.1[i].toNat < plainModulus := s.2 ⟨i, hi⟩
    have hlt' : u.1[i].toNat < plainModulus := u.2 ⟨i, hi⟩
    rw [ZMod.natCast_eq_natCast_iff, Nat.ModEq, Nat.mod_eq_of_lt hlt,
      Nat.mod_eq_of_lt hlt'] at hentry
    exact UInt64.toNat_inj.mp hentry
  · intro x
    have hval : ∀ i, (UInt64.ofNat (x i).val).toNat = (x i).val := by
      intro i
      apply UInt64.toNat_ofNat_of_lt
      exact (ZMod.val_lt (x i)).trans (by decide)
    refine ⟨⟨Vector.ofFn fun i ↦ UInt64.ofNat (x i).val, ?_⟩, ?_⟩
    · intro i
      rw [Vector.get_ofFn, hval]
      exact ZMod.val_lt (x i)
    · funext i
      change (((Vector.ofFn fun i ↦ UInt64.ofNat (x i).val).get i).toNat : PlainField) = x i
      rw [Vector.get_ofFn, hval]
      exact ZMod.natCast_zmod_val (x i)

theorem Layer.runState_bijective {layers : List (Layer n)}
    (h : ∀ layer ∈ layers, Function.Bijective layer.field) :
    Function.Bijective (Layer.runState layers) := by
  have hfield : Function.Bijective (Layer.runField layers) := by
    apply FieldLayers.run_bijective
    intro f hf
    obtain ⟨layer, hlayer, rfl⟩ := List.mem_map.mp hf
    exact h layer hlayer
  have hcommutes : (fun s : FieldState n ↦ toField s.1) ∘ Layer.runState layers =
      Layer.runField layers ∘ fun s : FieldState n ↦ toField s.1 :=
    funext fun s ↦ (Layer.run_exact layers s.2).2.2
  have hcomp : Function.Bijective
      ((fun s : FieldState n ↦ toField s.1) ∘ Layer.runState layers) := by
    rw [hcommutes]
    exact hfield.comp toField_bijective
  exact (Function.Bijective.of_comp_iff' toField_bijective _).mp hcomp

end Ppfdaas.Transcipher
