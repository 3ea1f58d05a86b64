import Mathlib.Data.List.GetD
import Ppfdaas.Transcipher.RowSchedule

/-!
# Ciphertexts in words

The ciphertexts of the schemes without a secret: the number of the owner, a
header and the values, each a signed word of a fixed width.  A key file holds the
number of its owner.
-/

namespace Ppfdaas.OwnedWords

open Transcipher

/-- The owner, the header, and the values. -/
abbrev Words (width : ℕ) := {words : List ℤ // ∀ v ∈ words, v.bmod (256 ^ width) = v}

variable {width : ℕ}

def owner (ct : Words width) : ℤ := ct.val.getD 0 0

def header (ct : Words width) : ℤ := ct.val.getD 1 0

def word (ct : Words width) (i : ℕ) : ℤ := ct.val.getD (i + 2) 0

def toWords (values : List ℤ) : Words width :=
  ⟨values.map fun v ↦ v.bmod (256 ^ width), fun v hv ↦ by
    obtain ⟨u, -, rfl⟩ := List.mem_map.mp hv
    exact Int.bmod_bmod⟩

def place (owner header : ℤ) (values : List ℤ) : Words width := toWords (owner :: header :: values)

def save (ct : Words width) : Bytes := putWords width ct.val

def load (bytes : Bytes) : Words width := toWords (fromfile width bytes)

/-- The number of a key; `2` is nobody's. -/
def ownerWord (key : Bool) : ℤ := if key then 1 else 0

def keyFile (key : Bool) : Bytes := [if key then 1 else 0]

def loadKey (bytes : Bytes) : Except String Bool := .ok (bytes.headD 0 == 1)

theorem load_save (hwidth : 0 < width) (ct : Words width) : load (save ct) = ct := by
  have hfits : ct.val.map (fun v ↦ v.bmod (256 ^ width)) = ct.val :=
    (List.map_congr_left ct.property).trans (List.map_id' ct.val)
  have hwords : fromfile width (save ct) = ct.val := (fromfile_putWords hwidth ct.val).trans hfits
  rw [load, hwords]
  exact Subtype.ext hfits

theorem length_save (ct : Words width) : (save ct).length = width * ct.val.length :=
  FixedWidth.length_flatMap (fun _ ↦ WeightWriter.length_pack width _) ct.val

theorem bmod_getD (ct : Words width) (n : ℕ) :
    (ct.val.getD n 0).bmod (256 ^ width) = ct.val.getD n 0 := by
  rw [List.getD_eq_getElem?_getD]
  cases hget : ct.val[n]? with
  | none => exact Int.zero_bmod
  | some v => exact ct.property v (List.mem_of_getElem? hget)

theorem owner_place {owner₀ : ℤ} (h : owner₀.bmod (256 ^ width) = owner₀) (header₀ : ℤ)
    (values : List ℤ) : owner (place owner₀ header₀ values : Words width) = owner₀ := h

theorem header_place (owner₀ : ℤ) {header₀ : ℤ} (h : header₀.bmod (256 ^ width) = header₀)
    (values : List ℤ) : header (place owner₀ header₀ values : Words width) = header₀ := h

theorem length_place (owner₀ header₀ : ℤ) (values : List ℤ) :
    (place owner₀ header₀ values : Words width).val.length = values.length + 2 := by
  simp only [place, toWords, List.length_map, List.length_cons]

theorem word_place (owner₀ header₀ : ℤ) {values : List ℤ} {i : ℕ} {v : ℤ}
    (hget : values[i]? = some v) :
    word (place owner₀ header₀ values : Words width) i = v.bmod (256 ^ width) := by
  rw [word, place, toWords, List.getD_eq_getElem?_getD]
  simp only [List.map_cons, List.getElem?_cons_succ, List.getElem?_map, hget, Option.map_some,
    Option.getD_some]

/-- The number of a key fits into a byte. -/
theorem bmod_ownerWord (hwidth : 0 < width) (key : Bool) :
    (ownerWord key).bmod (256 ^ width) = ownerWord key := by
  have hle : 256 ≤ 256 ^ width := Nat.le_self_pow hwidth.ne' 256
  have hword : 0 ≤ ownerWord key ∧ ownerWord key ≤ 1 := by
    cases key <;> decide
  exact Int.bmod_eq_of_le (by omega) (by omega)

end Ppfdaas.OwnedWords
