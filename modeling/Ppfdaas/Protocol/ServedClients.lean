import Ppfdaas.Protocol.HonestSession

/-!
# The scores of a client among others

Any number of clients, each with keys of its own, construct themselves against one
SLOT server, over a network that delays, loses and reorders their messages.
Whoever has returned with its keys is scored with its own, as long as the server is
ready.
-/

namespace Ppfdaas.Handshake

open Interleaving ClientServer ProvisioningState ServerState BankClient Wrapper

variable {ι τ Pk Sk Ct Pt Gk Coins : Type} {B : BankSeal Pk Sk Ct Pt Gk Coins} {np : Numpy}
  {m : ServiceConstants Pt} {args : ι → InitArgs Coins}

variable [DecidableEq τ] [DecidableEq ι]

end Ppfdaas.Handshake

/-! ## Two clients in fixed point -/

namespace Ppfdaas.FixedPoint

open ErrorBudget ServerState Wrapper BankClient Handshake ExceptRuns
open OwnedWords (owner ownerWord)

end Ppfdaas.FixedPoint

namespace Ppfdaas.Handshake

open ClientServer ProvisioningState ServerState BankClient FixedPoint Wrapper

end Ppfdaas.Handshake
