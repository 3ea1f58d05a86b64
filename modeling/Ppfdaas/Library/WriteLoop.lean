import Mathlib.Logic.Function.Basic

/-!
# Loops of independent writes

A loop that writes one entry a step, at an index and with a value that do not
depend on what was written before.
-/

namespace WriteLoop

variable {ι α : Type*} [DecidableEq ι]

def writeAll (writes : List (ι × α)) (v : ι → α) : ι → α :=
  writes.foldl (fun v w ↦ Function.update v w.1 w.2) v

theorem writeAll_of_forall_ne {writes : List (ι × α)} {i : ι} (h : ∀ w ∈ writes, w.1 ≠ i)
    (v : ι → α) : writeAll writes v i = v i := by
  induction writes generalizing v with
  | nil => rfl
  | cons w writes ih =>
      have hhead : w.1 ≠ i := h w List.mem_cons_self
      calc writeAll writes (Function.update v w.1 w.2) i = Function.update v w.1 w.2 i :=
            ih (fun w' hw' ↦ h w' (List.mem_cons_of_mem w hw')) _
        _ = v i := Function.update_of_ne hhead.symm w.2 v

/-- An entry all of whose writes agree holds their value, whatever stood there. -/
theorem writeAll_of_mem {writes : List (ι × α)} {i : ι} {a : α} (hmem : (i, a) ∈ writes)
    (hagree : ∀ w ∈ writes, w.1 = i → w.2 = a) (v : ι → α) : writeAll writes v i = a := by
  induction writes generalizing v with
  | nil => exact absurd hmem List.not_mem_nil
  | cons w writes ih =>
      have htail : ∀ w' ∈ writes, w'.1 = i → w'.2 = a :=
        fun w' hw' ↦ hagree w' (List.mem_cons_of_mem w hw')
      by_cases hlater : (i, a) ∈ writes
      · exact ih hlater htail _
      · -- The last write at `i` is this one: a later one would put `a` there too.
        have hnone : ∀ w' ∈ writes, w'.1 ≠ i := by
          rintro ⟨i', a'⟩ hw' rfl
          obtain rfl : a' = a := htail _ hw' rfl
          exact hlater hw'
        obtain rfl : (i, a) = w := (List.mem_cons.mp hmem).resolve_right hlater
        calc writeAll writes (Function.update v i a) i = Function.update v i a i :=
              writeAll_of_forall_ne hnone _
          _ = a := Function.update_self i a v

end WriteLoop
