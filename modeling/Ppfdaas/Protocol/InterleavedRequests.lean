import Ppfdaas.Protocol.CnpSession
import Ppfdaas.Protocol.HonestSession
import Ppfdaas.Vendor.RequestIsolation
import Ppfdaas.Vendor.RequestTurns

/-!
# Honest requests among others

The handlers of a server run in threads that interleave at every access to what
they share.  A request of an honest client is answered after a bounded number of
steps of its own thread, whatever the other threads serve, and the answer is
scored unless the server has tripped.  Where the results of all requests fit into
their buffers, nothing is written behind them.
-/

namespace Ppfdaas

open ServerState ProvisioningState BankClient Handshake Wrapper Interleaving

variable {τ Pk Sk Ct Pt Gk Coins : Type} {B : BankSeal Pk Sk Ct Pt Gk Coins} {pk : Pk} {sk : Sk}
  {m : ServiceConstants Pt} {w : Fin 256 → ℚ} {b M : ℚ} {ctx : EvalContext160 Gk}

/-- The two ways to deploy a server with the context `ctx`, for the owner of a
key pair, and the error of the scores.  In SLOT packing the context holds the
Galois keys of that owner; in CNP packing it holds none. -/
inductive Deployed (B : BankSeal Pk Sk Ct Pt Gk Coins) (pk : Pk) (sk : Sk)
    (m : ServiceConstants Pt) (w : Fin 256 → ℚ) (b M : ℚ) (ctx : EvalContext160 Gk) :
    PackingMode160 → ℚ → Prop
  | slot {p : Precision Ct Pt} {W : ℚ} (h : Accurate B p pk sk ctx.galoisKeys m w b M W) :
      Deployed B pk sk m w b M ctx .slot (scoreError p M W)
  | cnp {p : Coefficients Sk Ct} {W : ℚ} (h : CnpAccurate B p pk sk m w b M W)
      (hloaded : ctx.galoisKeysLoaded = false) (hnoKeys : B.galoisKeysSize ctx.galoisKeys = 0) :
      Deployed B pk sk m w b M ctx .cnp (cnpError p M W)

theorem Deployed.answers {packing : PackingMode160} {error : ℚ}
    (h : Deployed B pk sk m w b M ctx packing error) :
    Answers B m (holding (some (pk, sk))) packing w b error M ctx := by
  cases h with
  | slot h => exact h.answers rfl
  | cnp h hloaded hnoKeys =>
      refine h.answers ?_
      rw [EvalContext160.assertNoGaloisKeys, if_neg (by simp [hloaded, hnoKeys])]
      rfl

variable [DecidableEq τ] (np : Numpy)

namespace CoefficientWords

/-- A request under the other key. -/
def other : InferenceRequest :=
  ⟨bank.save (store (OwnedWords.ownerWord false) 0 fun _ ↦ 1 / 2), "other", "bank", 1, .cnp⟩

/-- The other thread has answered a status call and started on its request. -/
def earlier : List (Choice Bool Rpc) :=
  .call true .getProvisioningStatus :: List.replicate 5 (.go true) ++
    [.call true (.runInference other Cnp.zeroDraws), .go true]

def later : List (Choice Bool Rpc) := (List.replicate 28 [.go true, .go false]).flatten

end CoefficientWords

end Ppfdaas
