import Mathlib.Data.List.Basic

/-!
# Buffers written through a raw pointer

A resizable buffer whose owner writes and reads from its first cell on without
a check of the size.  What does not fit is written behind the buffer, into
memory it does not own: `behind` says what a reader finds there as long as
nobody else uses it.
-/

structure RawBuffer (α : Type) where
  size : ℕ
  cells : List α
  length_cells : cells.length = size
  behind : List α
  deriving Repr

namespace RawBuffer

variable {α : Type}

def empty : RawBuffer α := ⟨0, [], rfl, []⟩

theorem length_resize (b : RawBuffer α) (n : ℕ) (fill : α) :
    (b.cells.take n ++ List.replicate (n - b.size) fill).length = n := by
  simp only [List.length_append, List.length_take, List.length_replicate, b.length_cells]
  omega

/-- A new block of `n` cells that keeps what fits of the old ones. -/
def resize (b : RawBuffer α) (n : ℕ) (fill : α) : RawBuffer α :=
  ⟨n, b.cells.take n ++ List.replicate (n - b.size) fill, b.length_resize n fill, []⟩

theorem length_write (b : RawBuffer α) (xs : List α) :
    (xs.take b.size ++ b.cells.drop xs.length).length = b.size := by
  simp only [List.length_append, List.length_take, List.length_drop, b.length_cells]
  omega

/-- The values `xs` from the first cell on. -/
def write (b : RawBuffer α) (xs : List α) : RawBuffer α where
  size := b.size
  cells := xs.take b.size ++ b.cells.drop xs.length
  length_cells := b.length_write xs
  behind := xs.drop b.size ++ b.behind.drop (xs.length - b.size)

/-- The first `n` values from the first cell on. -/
def read (b : RawBuffer α) (n : ℕ) : List α := (b.cells ++ b.behind).take n

@[simp] theorem resize_size (b : RawBuffer α) (n : ℕ) (fill : α) :
    (b.resize n fill).size = n := rfl

@[simp] theorem write_size (b : RawBuffer α) (xs : List α) : (b.write xs).size = b.size := rfl

/-- What was written is read back, in the buffer and behind it. -/
theorem read_write (b : RawBuffer α) (xs : List α) : (b.write xs).read xs.length = xs := by
  rcases Nat.le_total xs.length b.size with h | h
  · simp only [read, write, List.take_of_length_le h, List.append_assoc]
    exact List.take_left
  · have hdrop : b.cells.drop xs.length = [] := List.drop_eq_nil_of_le (b.length_cells ▸ h)
    simp only [read, write, hdrop, List.append_nil]
    rw [← List.append_assoc, List.take_append_drop]
    exact List.take_left

end RawBuffer
