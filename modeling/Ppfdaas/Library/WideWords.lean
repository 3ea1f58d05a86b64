import Mathlib.Tactic

/-!
# Double-word arithmetic

The product of two 64-bit words and the quotient of two words by one, with the
carry between them.  A quotient that would not fit in a word is refused.
-/

namespace WideWords

/-- What a high and a low word stand for. -/
def value (hi lo : UInt64) : ℕ := hi.toNat * 2 ^ 64 + lo.toNat

/-- The product, as its high and its low word. -/
def mul64 (x y : UInt64) : UInt64 × UInt64 :=
  (UInt64.ofNat (x.toNat * y.toNat / 2 ^ 64), UInt64.ofNat (x.toNat * y.toNat))

def add64 (x y carry : UInt64) : UInt64 × UInt64 :=
  (UInt64.ofNat (x.toNat + y.toNat + carry.toNat),
    UInt64.ofNat ((x.toNat + y.toNat + carry.toNat) / 2 ^ 64))

def div64 (hi lo y : UInt64) : Option (UInt64 × UInt64) :=
  if hi < y then
    some (UInt64.ofNat (value hi lo / y.toNat), UInt64.ofNat (value hi lo % y.toNat))
  else none

theorem value_mul64 (x y : UInt64) : value (mul64 x y).1 (mul64 x y).2 = x.toNat * y.toNat := by
  have hx := x.toNat_lt
  have hy := y.toNat_lt
  have hprod : x.toNat * y.toNat < 2 ^ 64 * 2 ^ 64 := Nat.mul_lt_mul'' hx hy
  simp only [value, mul64, UInt64.toNat_ofNat']
  omega

theorem add64_value (x y : UInt64) :
    (add64 x y 0).2.toNat * 2 ^ 64 + (add64 x y 0).1.toNat = x.toNat + y.toNat := by
  have hx := x.toNat_lt
  have hy := y.toNat_lt
  simp only [add64, UInt64.toNat_ofNat', UInt64.toNat_zero]
  omega

/-- A product and a word added to it, carry included. -/
theorem value_mul64_add64 (x y z : UInt64) :
    value ((mul64 x y).1 + (add64 (mul64 x y).2 z 0).2) (add64 (mul64 x y).2 z 0).1 =
      x.toNat * y.toNat + z.toNat := by
  have hx := x.toNat_lt
  have hy := y.toNat_lt
  have hz := z.toNat_lt
  have hprod : x.toNat * y.toNat ≤ (2 ^ 64 - 1) * (2 ^ 64 - 1) :=
    Nat.mul_le_mul (by omega) (by omega)
  have hmul := value_mul64 x y
  have hadd := add64_value (mul64 x y).2 z
  simp only [value] at hmul ⊢
  have hfits : (mul64 x y).1.toNat + (add64 (mul64 x y).2 z 0).2.toNat < 2 ^ 64 := by
    norm_num at hprod hmul hadd ⊢
    omega
  rw [UInt64.toNat_add, Nat.mod_eq_of_lt hfits, add_mul]
  linarith

theorem hi_lt_of_value_lt {hi lo y : UInt64} (h : value hi lo < y.toNat * 2 ^ 64) : hi < y :=
  UInt64.lt_iff_toNat_lt.mpr
    (lt_of_mul_lt_mul_right ((Nat.le_add_right _ lo.toNat).trans_lt h) (Nat.zero_le _))

theorem div64_of_lt {hi lo y : UInt64} (h : value hi lo < y.toNat * 2 ^ 64) :
    ∃ quo rem, div64 hi lo y = some (quo, rem) ∧ quo.toNat = value hi lo / y.toNat := by
  have hquo : value hi lo / y.toNat < 2 ^ 64 := Nat.div_lt_of_lt_mul h
  exact ⟨UInt64.ofNat (value hi lo / y.toNat), UInt64.ofNat (value hi lo % y.toNat),
    if_pos (hi_lt_of_value_lt h), UInt64.toNat_ofNat_of_lt' hquo⟩

end WideWords
