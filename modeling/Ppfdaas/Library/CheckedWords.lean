import Mathlib.Tactic

/-!
# Words that may not wrap

Arithmetic on 64-bit words that gives nothing as soon as an exact result does
not fit.  `Tracks` ties such a computation to the wrapping one and to the exact
one; its rules follow the shape of an expression.
-/

/-- A 64-bit word computed without wrapping, or nothing. -/
def CheckedWord : Type := Option UInt64

namespace CheckedWord

def ofWord (w : UInt64) : CheckedWord := some w

def ofExact (n : ℕ) : CheckedWord := if n < 2 ^ 64 then ofWord (UInt64.ofNat n) else none

def lift₂ (f : ℕ → ℕ → ℕ) (x y : CheckedWord) : CheckedWord :=
  Option.bind x fun a ↦ Option.bind y fun b ↦ ofExact (f a.toNat b.toNat)

def shiftLeft (x : CheckedWord) (i : ℕ) : CheckedWord :=
  Option.bind x fun a ↦ ofExact (a.toNat * 2 ^ i)

instance (n : ℕ) : OfNat CheckedWord n := ⟨ofExact n⟩

instance : Add CheckedWord := ⟨lift₂ (· + ·)⟩

instance : Mul CheckedWord := ⟨lift₂ (· * ·)⟩

instance : Mod CheckedWord := ⟨lift₂ (· % ·)⟩

/-- The checked computation goes through, and the wrapping one has the exact value. -/
structure Tracks (x : CheckedWord) (w : UInt64) (n : ℕ) : Prop where
  checked : x = ofWord w
  value : w.toNat = n

namespace Tracks

variable {x y : CheckedWord} {w v : UInt64} {m n : ℕ}

theorem word (w : UInt64) : Tracks (ofWord w) w w.toNat := ⟨rfl, rfl⟩

theorem exact {f : ℕ → ℕ → ℕ} (hx : Tracks x w m) (hy : Tracks y v n) (hfit : f m n < 2 ^ 64) :
    lift₂ f x y = ofWord (UInt64.ofNat (f m n)) := by
  obtain ⟨rfl, rfl⟩ := hx
  obtain ⟨rfl, rfl⟩ := hy
  exact if_pos hfit

theorem ofNat (n : ℕ) (hfit : n < 2 ^ 64) : Tracks (OfNat.ofNat n) (OfNat.ofNat n) n := by
  constructor
  · exact if_pos hfit
  · exact UInt64.toNat_ofNat_of_lt hfit

theorem add (hx : Tracks x w m) (hy : Tracks y v n) (hfit : m + n < 2 ^ 64) :
    Tracks (x + y) (w + v) (m + n) := by
  have hvalue : (w + v).toNat = m + n := by
    rw [UInt64.toNat_add, hx.value, hy.value, Nat.mod_eq_of_lt hfit]
  refine ⟨(hx.exact hy hfit).trans ?_, hvalue⟩
  rw [← hvalue, UInt64.ofNat_toNat]

theorem mul (hx : Tracks x w m) (hy : Tracks y v n) (hfit : m * n < 2 ^ 64) :
    Tracks (x * y) (w * v) (m * n) := by
  have hvalue : (w * v).toNat = m * n := by
    rw [UInt64.toNat_mul, hx.value, hy.value, Nat.mod_eq_of_lt hfit]
  refine ⟨(hx.exact hy hfit).trans ?_, hvalue⟩
  rw [← hvalue, UInt64.ofNat_toNat]

theorem mod (hx : Tracks x w m) (hy : Tracks y v n) : Tracks (x % y) (w % v) (m % n) := by
  have hvalue : (w % v).toNat = m % n := by rw [UInt64.toNat_mod, hx.value, hy.value]
  have hfit : m % n < 2 ^ 64 := hvalue ▸ (w % v).toNat_lt
  refine ⟨(hx.exact hy hfit).trans ?_, hvalue⟩
  rw [← hvalue, UInt64.ofNat_toNat]

theorem shiftLeft (hx : Tracks x w m) {i : ℕ} (hi : i < 64) (hfit : m * 2 ^ i < 2 ^ 64) :
    Tracks (x.shiftLeft i) (w <<< UInt64.ofNat i) (m * 2 ^ i) := by
  obtain ⟨rfl, rfl⟩ := hx
  have hvalue : (w <<< UInt64.ofNat i).toNat = w.toNat * 2 ^ i := by
    have hsmall : i < 2 ^ 64 := hi.trans (by decide)
    rw [UInt64.toNat_shiftLeft, UInt64.toNat_ofNat_of_lt' hsmall, Nat.mod_eq_of_lt hi,
      Nat.shiftLeft_eq, Nat.mod_eq_of_lt hfit]
  refine ⟨(if_pos hfit).trans ?_, hvalue⟩
  rw [← hvalue, UInt64.ofNat_toNat]

end Tracks

end CheckedWord
