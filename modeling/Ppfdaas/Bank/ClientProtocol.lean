import Ppfdaas.Bank.RequestPacking
import Ppfdaas.Bank.SealWrapper
import Ppfdaas.Library.Dialogue
import Ppfdaas.Vendor.InferenceService

/-!
# The client's side of the protocol

`BankClient.__init__`, `provision_and_validate` and `run_inference` as
dialogues with the vendor.  What the methods take from outside (the contents of
the files, the encryption's coins, a fresh `uuid4`) are arguments; the printed
lines and the timers are left out.
-/

namespace Ppfdaas

inductive BankMessage where
  | provisionGaloisKeys (galoisKeys : Bytes)
  | canaryCheck (ciphertext : Bytes)
  | canaryConfirm (passed : Bool) (message : String)
  | runInference (req : InferenceRequest)
  deriving DecidableEq

/-- The exceptions, with the data their texts are formatted from. -/
inductive BankError where
  | valueError (text : String)
  | notReady (state : ProvisioningState) (detail : String)
  | vendorError (status : InferenceStatus) (errorMessage : String)
  | requestIdMismatch (sent : String)
  | rpcError
  | wrapper (text : String)
  deriving DecidableEq

structure Numpy where
  tolist : List ℚ → String
  expit : ℚ → ℚ

def clearNumpy : Numpy := ⟨fun _ ↦ "", id⟩

/-- A call is answered, or its deadline passes. -/
abbrev BankDialogue (α : Type) := Dialogue BankMessage (Option Reply) (Except BankError α)

structure InitArgs (Coins : Type) where
  packing : PackingMode160
  publicKeyFile : Except String Bytes
  secretKeyFile : Except String Bytes
  /-- The file at `galois_keys_path`, where one is given. -/
  galoisKeysFile : Option (Except String Bytes)
  useTls : Bool
  tlsFiles : Option (Except String Bytes) × Option (Except String Bytes) ×
    Option (Except String Bytes)
  canaryCoins : Coins
  warmupCoins : Coins
  warmupId : String

/-- One owner's key files over `clearBank`. -/
def clearArgs (owner : UInt8) (galoisKeysFile : Option (Except String Bytes)) : InitArgs Unit where
  packing := .slot
  publicKeyFile := .ok [owner]
  secretKeyFile := .ok [owner]
  galoisKeysFile := galoisKeysFile
  useTls := false
  tlsFiles := (none, none, none)
  canaryCoins := ()
  warmupCoins := ()
  warmupId := "warmup"

structure InferenceArgs (Coins : Type) where
  batch : Batch ℚ
  institutionId : String
  requestId : String
  coins : Coins

namespace BankClient

section Protocol

variable {Pk Sk Ct Pt Gk Coins : Type} (B : BankSeal Pk Sk Ct Pt Gk Coins) (np : Numpy)

def liftWrapper {α : Type} : Except String α → Except BankError α := Except.mapError .wrapper

/-! ## `run_inference` -/

def encryptRequest (client : BankClient ℚ) (w : Wrapper Pk Sk) (coins : Coins) (flat : List ℚ)
    (nTxns : ℕ) : Except String Bytes :=
  if client.packing = .cnp then w.encryptCnpBatch B coins flat nTxns
  else w.encryptBatch B coins flat

def decryptReply (client : BankClient ℚ) (w : Wrapper Pk Sk) (ct : Bytes) (nTxns : ℕ) :
    Except String (List ℚ) :=
  if client.packing = .cnp then w.decryptCnpBatch B ct nTxns else w.decryptBatch B ct nTxns

def readAnswer (client : BankClient ℚ) (w : Wrapper Pk Sk) (args : InferenceArgs Coins) :
    Option Reply → Except BankError (List ℚ)
  | some (.inference resp) =>
      if resp.status ≠ .ok then throw (.vendorError resp.status resp.errorMessage)
      else if resp.requestId ≠ args.requestId then throw (.requestIdMismatch args.requestId)
      else (liftWrapper (client.decryptReply B w resp.resultCiphertext args.batch.nTxns)).map
        fun raw ↦ raw.map np.expit
  | _ => throw .rpcError

/-- The client after `run_inference`, whose padding buffer is written first,
and the rest of the call. -/
def runInference (client : BankClient ℚ) (w : Wrapper Pk Sk) (args : InferenceArgs Coins) :
    BankClient ℚ × BankDialogue (List ℚ) :=
  match client.layOut args.batch with
  | .error text => (client, .done (throw (.valueError text)))
  | .ok (client, flat) =>
      (client,
        match client.encryptRequest B w args.coins flat args.batch.nTxns with
        | .error text => .done (throw (.wrapper text))
        | .ok ct =>
            .call (.runInference
              { ciphertext := ct
                requestId := args.requestId
                institutionId := args.institutionId
                nTransactions := args.batch.nTxns
                packingMode := if client.packing = .cnp then .cnp else .slot })
              fun answer ↦ .done (client.readAnswer B np w args answer))

theorem runInference_dialogue (client : BankClient ℚ) (w : Wrapper Pk Sk)
    (args : InferenceArgs Coins) :
    (∃ result, (client.runInference B np w args).2 = .done result) ∨
      ∃ req, ∃ read : Option Reply → Except BankError (List ℚ),
        (client.runInference B np w args).2 =
        .call (.runInference req) fun answer ↦ .done (read answer) := by
  unfold runInference
  split
  · exact .inl ⟨_, rfl⟩
  · simp only
    split
    · exact .inl ⟨_, rfl⟩
    · exact .inr ⟨_, _, rfl⟩

/-- `_warmup`: one row of zeros, and whatever comes of it. -/
def warmup (client : BankClient ℚ) (w : Wrapper Pk Sk) (args : InitArgs Coins) :
    BankDialogue (BankClient ℚ) :=
  let (client, dialogue) := client.runInference B np w
    ⟨⟨1, 256, fun _ _ ↦ 0⟩, "WARMUP", args.warmupId, args.warmupCoins⟩
  dialogue.bind fun _ ↦ .done (.ok client)

/-! ## `provision_and_validate` -/

def canaryValue : ℚ := 1 / 100

def canaryPassed (decoded : List ℚ) : Bool :=
  decoded.all fun v ↦ |v - 256 * canaryValue| < 1 / 1000

def canaryMessage (decoded : List ℚ) : String :=
  if canaryPassed decoded then "canary matched expected 2.56 on all 16 lanes (tol 1e-3)"
  else "canary MISMATCH: decoded=" ++ np.tolist decoded ++ ", expected=2.56 " ++
    "(tol 1e-3) -- Galois keys are not consistent with this secret key (Bug B)"

def afterConfirm : Option Reply → BankDialogue (ProvisioningState × String)
  | some (.confirm state message) => .done (.ok (state, message))
  | _ => .done (throw .rpcError)

def afterCanary (w : Wrapper Pk Sk) : Option Reply → BankDialogue (ProvisioningState × String)
  | some (.canary state resultCiphertext message) =>
      if state ≠ .validating then .done (.ok (state, message))
      else
        match w.decryptBatch B resultCiphertext 16 with
        | .error text => .done (throw (.wrapper text))
        | .ok decoded =>
            .call (.canaryConfirm (canaryPassed decoded) (canaryMessage np decoded)) afterConfirm
  | _ => .done (throw .rpcError)

def afterProvision (w : Wrapper Pk Sk) (coins : Coins) :
    Option Reply → BankDialogue (ProvisioningState × String)
  | some (.provision state message) =>
      if state ≠ .validating then .done (.ok (state, message))
      else
        match w.encryptBatch B coins (List.replicate 4096 canaryValue) with
        | .error text => .done (throw (.wrapper text))
        | .ok ct => .call (.canaryCheck ct) (afterCanary B np w)
  | _ => .done (throw .rpcError)

def provisionAndValidate (w : Wrapper Pk Sk) (coins : Coins) (galoisKeysBytes : Bytes) :
    BankDialogue (ProvisioningState × String) :=
  .call (.provisionGaloisKeys galoisKeysBytes) (afterProvision B np w coins)

/-! ## `__init__` -/

/-- The TLS branch: only the three files together make a channel. -/
def openChannel (args : InitArgs Coins) : Except BankError Unit :=
  if args.useTls then
    match args.tlsFiles with
    | (none, none, none) => pure ()
    | (some ca, some cert, some key) => do
        let _ ← liftWrapper ca
        let _ ← liftWrapper key
        let _ ← liftWrapper cert
    | _ => throw (.valueError ("tls_ca_path, tls_cert_path, and tls_key_path must all be " ++
        "given together for mTLS (or all omitted for system-root TLS)"))
  else pure ()

def afterProvisioning (client : BankClient ℚ) (w : Wrapper Pk Sk) (args : InitArgs Coins) :
    Except BankError (ProvisioningState × String) → BankDialogue (BankClient ℚ)
  | .error e => .done (throw e)
  | .ok (state, detail) =>
      if state ≠ .ready then .done (throw (.notReady state detail))
      else client.warmup B np w args

/-- `__init__` after `init_seal`. -/
def afterInitSeal (w : Wrapper Pk Sk) (args : InitArgs Coins) : BankDialogue (BankClient ℚ) :=
  let client := new args.packing
  match openChannel args with
  | .error e => .done (throw e)
  | .ok () =>
      match args.galoisKeysFile with
      | none => client.warmup B np w args
      | some (.error text) => .done (throw (.wrapper text))
      | some (.ok galoisKeysBytes) =>
          (provisionAndValidate B np w args.canaryCoins galoisKeysBytes).bind
            (client.afterProvisioning B np w args)

/-- The key files, where the checks before `init_seal` let the call through. -/
def keyFiles (args : InitArgs Coins) : Except BankError (Bytes × Bytes) :=
  if args.packing = .cnp ∧ args.galoisKeysFile.isSome then
    throw (.valueError "packing='cnp' never provisions Galois keys; pass galois_keys_path=None")
  else do
    let pkBytes ← liftWrapper args.publicKeyFile
    let skBytes ← liftWrapper args.secretKeyFile
    pure (pkBytes, skBytes)

/-- `__init__`: the wrapper module after `init_seal`, and the rest of the call. -/
def init (w : Wrapper Pk Sk) (args : InitArgs Coins) :
    Wrapper Pk Sk × BankDialogue (BankClient ℚ) :=
  match keyFiles args with
  | .error e => (w, .done (throw e))
  | .ok (pkBytes, skBytes) =>
      match w.initSeal B pkBytes skBytes with
      | (w, .error text) => (w, .done (throw (.wrapper text)))
      | (w, .ok ()) => (w, afterInitSeal B np w args)

/-- The keys `__init__` loads into the wrapper, whether or not it returns. -/
def loadedKeys (args : InitArgs Coins) : Option (Pk × Sk) :=
  match keyFiles args with
  | .error _ => none
  | .ok (pkBytes, skBytes) => (Wrapper.loadKeys B pkBytes skBytes).toOption

/-- Once the key files load, nothing of the earlier handles is left. -/
theorem init_of_loadedKeys {args : InitArgs Coins} {keys : Pk × Sk}
    (h : loadedKeys B args = some keys) (w : Wrapper Pk Sk) :
    init B np w args =
      (.holding (some keys), afterInitSeal B np (.holding (some keys)) args) := by
  unfold loadedKeys at h
  cases hfiles : keyFiles args with
  | error e => simp [hfiles] at h
  | ok files =>
      cases hload : Wrapper.loadKeys B files.1 files.2 with
      | error e => simp [hfiles, hload, Except.toOption] at h
      | ok loaded =>
          obtain rfl : loaded = keys := by simpa [hfiles, hload, Except.toOption] using h
          simp only [init, hfiles, Wrapper.initSeal, hload]

theorem init_of_not_loadedKeys {args : InitArgs Coins} (h : loadedKeys B args = none)
    (w : Wrapper Pk Sk) : ∃ e, init B np w args = (w, .done (.error e)) := by
  unfold loadedKeys at h
  cases hfiles : keyFiles args with
  | error e =>
      simp only [init, hfiles]
      exact ⟨_, rfl⟩
  | ok files =>
      cases hload : Wrapper.loadKeys B files.1 files.2 with
      | error e =>
          simp only [init, hfiles, Wrapper.initSeal, hload]
          exact ⟨_, rfl⟩
      | ok loaded => simp [hfiles, hload, Except.toOption] at h

end Protocol

end BankClient

end Ppfdaas
