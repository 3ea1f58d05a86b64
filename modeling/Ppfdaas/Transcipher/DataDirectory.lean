import Ppfdaas.Scripts.PrepareInputs
import Ppfdaas.Transcipher.EncryptedRuns

/-!
# From `prepare_inputs.py` to `score.py`

The directory that `prepare_inputs.py` leaves, how `cnpLoadData` reads it for both
arms, and what `score.py` makes of the files of a run.
-/

namespace Ppfdaas

namespace Transcipher

open WeightFile WeightWriter

/-- The files with the integers, and the fields of `meta.json` that the runs read. -/
structure DataDir where
  n : ℕ
  t : ℤ
  bias_q : ℤ
  xq : Bytes
  wq : Bytes
  expected : Bytes

end Transcipher

/-- `tofile` of the arrays, in the order of C. -/
def PrepareInputs.Prepared.write (out : PrepareInputs.Prepared) : Transcipher.DataDir where
  n := out.xq.length
  t := PrepareInputs.T
  bias_q := out.bias_q
  xq := Transcipher.putWords 2 (out.xq.flatMap List.ofFn)
  wq := Transcipher.putWords 2 (List.ofFn out.wq)
  expected := Transcipher.putWords 8 out.expected

namespace Transcipher

open WeightFile WeightWriter

/-! ## `cnpLoadData` -/

end Transcipher

/-! ## What `prepare_inputs.py` has checked -/

namespace PrepareInputs

open CnpGate ExceptRuns

/-- The arrays hold what their types can hold, and no score leaves the range. -/
structure Prepared.Sound (out : Prepared) : Prop where
  rows : ∀ x ∈ out.xq, ∀ j, |x j| ≤ 2 ^ LX
  weights : ∀ j, |out.wq j| < 2 ^ 15
  range : (∑ j, |out.wq j|) * 2 ^ LX + |out.bias_q| < T / 2
  expected : out.expected = out.xq.map (score out.wq out.bias_q)

end PrepareInputs

namespace Transcipher

open CnpGate PrepareInputs

/-! ## What the runs start from -/

section Loaded

variable {out : Prepared} {d : CnpData}

end Loaded

/-! ## What `score.py` reports -/

section Report

variable {out : Prepared} {d : CnpData} {cipher : String} {noise : ℤ} {s : Decoded}

end Report

/-! ## The three programs in a row -/

end Transcipher

end Ppfdaas
