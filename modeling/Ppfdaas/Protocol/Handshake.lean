import Ppfdaas.Bank.ClientProtocol
import Ppfdaas.Library.ClientServer
import Ppfdaas.Vendor.ServiceRuns

/-!
# Clients that provision one server

Any number of clients, each in a process of its own, construct themselves
against one SLOT-mode server.  A reply carries the state of the server and no
word on whose keys are installed.
-/

namespace Ppfdaas.Handshake

open Interleaving ClientServer ProvisioningState ServerState BankClient

/-- A request as the server's handlers see it. -/
def rpc (draws : Cnp.MaskDraws) : BankMessage → Rpc
  | .provisionGaloisKeys galoisKeys => .provisionGaloisKeys galoisKeys
  | .canaryCheck ciphertext => .canaryCheck ciphertext
  | .canaryConfirm passed message => .canaryConfirm passed message
  | .runInference req => .runInference req draws

def IsHandshake : BankMessage → Prop
  | .runInference _ => False
  | _ => True

instance : DecidablePred IsHandshake := fun message ↦ by
  cases message <;> unfold IsHandshake <;> infer_instance

section Network

variable {ι τ Pk Sk Ct Pt Gk Coins : Type}
  (B : BankSeal Pk Sk Ct Pt Gk Coins) (np : Numpy) (m : ServiceConstants Pt)
  (args : ι → InitArgs Coins)

/-- The server among its clients; `RunInference` also arrives from elsewhere.  A
handler is one step here: that another may run between its accesses to the state
is the subject of the modules on the server's own steps. -/
def service [DecidableEq τ] :
    Service (ServerState τ Ct Gk) BankMessage (Option Reply) (τ × Cnp.MaskDraws)
      (τ × InferenceRequest × Cnp.MaskDraws) where
  serve := fun (t, draws) message s ↦
    let (reply, s) := (handle B.toSeal m t (rpc draws message)).run s
    (some reply, s)
  elsewhere := fun (t, req, draws) s ↦ ((handle B.toSeal m t (.runInference req draws)).run s).2
  timeout := none

def construction (i : ι) : BankDialogue (BankClient ℚ) :=
  (BankClient.init B np (.holding none) (args i)).2

/-- All clients about to construct themselves, and a fresh server. -/
def network (noKeys : Gk) : Net (ServerState τ Ct Gk) ι BankMessage (Option Reply)
    (Except BankError (BankClient ℚ)) :=
  .start (.new .slot noKeys) (construction B np args)

def secretKey (i : ι) : Option Sk := (loadedKeys B (args i)).map Prod.snd

def wrapper (i : ι) : Wrapper Pk Sk := .holding (loadedKeys B (args i))

/-- The Galois keys in the file that a client pushes. -/
def pushedKeys (i : ι) : Option Gk :=
  match (args i).galoisKeysFile with
  | some (.ok bytes) => (EvalContext160.validateGaloisKeys B.toSeal .slot bytes).toOption
  | _ => none

/-- What a client decrypts of its canary, rotated under the given keys. -/
def canaryDecoded (i : ι) (keys : Gk) : Except String (List ℚ) := do
  let ct ← (wrapper B args i).encryptBatch B (args i).canaryCoins (List.replicate 4096 canaryValue)
  let result ← canaryResult B.toSeal keys ct
  (wrapper B args i).decryptBatch B result 16

/-- Each client has a key pair of its own, with the Galois keys made from it,
and a rotation under the Galois keys of another secret key spoils a canary. -/
structure KeyTriples : Prop where
  own : ∀ {i j sk}, secretKey B args i = some sk → secretKey B args j = some sk →
    pushedKeys B args i = pushedKeys B args j
  foreign : ∀ {i j sk sk' keys decoded}, secretKey B args i = some sk →
    secretKey B args j = some sk' → sk ≠ sk' → pushedKeys B args j = some keys →
    canaryDecoded B args i keys = .ok decoded → canaryPassed decoded = false

/-- The installed keys are past change and those of a client. -/
def Own (s : ServerState τ Ct Gk) (i : ι) : Prop :=
  s.sm.state ≠ awaitingKeys ∧ pushedKeys B args i = some s.ctx.galoisKeys

/-- No handshake message of a client arrives at a server that is ready with
the keys of another client. -/
def NotOvertaken (s : ServerState τ Ct Gk) (i : ι) (message : BankMessage) : Prop :=
  IsHandshake message → s.sm.state = ready → pushedKeys B args i = some s.ctx.galoisKeys

instance [DecidableEq Gk] (s : ServerState τ Ct Gk) (i : ι) (message : BankMessage) :
    Decidable (NotOvertaken B args s i message) := by
  unfold NotOvertaken
  infer_instance

/-- Whoever has returned from a construction that pushed keys finds them installed. -/
def ReturnedWithOwnKeys (net : Net (ServerState τ Ct Gk) ι BankMessage (Option Reply)
    (Except BankError (BankClient ℚ))) : Prop :=
  ∀ i client, (args i).galoisKeysFile.isSome → net.callers i = .finished (.ok client) →
    pushedKeys B args i = some net.server.ctx.galoisKeys

/-! ## What holds of messages, answers and dialogues -/

/-- Before the server is provisioned nothing is said; afterwards the installed
keys are those of some client. -/
def InstalledByClient (s : ServerState τ Ct Gk) : Prop :=
  s.sm.state = validating →
    ∃ j sk, secretKey B args j = some sk ∧ pushedKeys B args j = some s.ctx.galoisKeys

def MessageOk (s : ServerState τ Ct Gk) (i : ι) : BankMessage → Prop
  | .provisionGaloisKeys bytes =>
      (args i).galoisKeysFile = some (.ok bytes) ∧ ∃ sk, secretKey B args i = some sk
  | .canaryConfirm passed _ => passed = true → Own B args s i
  | _ => True

def AnswerOk (s : ServerState τ Ct Gk) (i : ι) : BankMessage → Option Reply → Prop
  | .provisionGaloisKeys _, some (.provision state _) => state = ready → Own B args s i
  | .canaryCheck ct, some (.canary state result _) =>
      (state = ready → Own B args s i) ∧
        (state = validating → s.sm.state ≠ awaitingKeys ∧
          canaryResult B.toSeal s.ctx.galoisKeys ct = .ok result ∧
          ∃ j sk, secretKey B args j = some sk ∧ pushedKeys B args j = some s.ctx.galoisKeys)
  | .canaryConfirm _ _, some (.confirm state _) => state = ready → Own B args s i
  | _, _ => True

/-- The points of a construction at which a client waits or has ended. -/
inductive Phase (s : ServerState τ Ct Gk) (i : ι) : BankDialogue (BankClient ℚ) → Prop
  | provisioning (bytes : Bytes) (hfile : (args i).galoisKeysFile = some (.ok bytes))
      (hkeys : ∃ sk, secretKey B args i = some sk) :
      Phase s i (.call (.provisionGaloisKeys bytes) fun a ↦
        (afterProvision B np (wrapper B args i) (args i).canaryCoins a).bind
          ((BankClient.new (args i).packing).afterProvisioning B np (wrapper B args i) (args i)))
  | checking (ct : Bytes) (hkeys : ∃ sk, secretKey B args i = some sk)
      (hct : (wrapper B args i).encryptBatch B (args i).canaryCoins
        (List.replicate 4096 canaryValue) = .ok ct) :
      Phase s i (.call (.canaryCheck ct) fun a ↦
        (afterCanary B np (wrapper B args i) a).bind
          ((BankClient.new (args i).packing).afterProvisioning B np (wrapper B args i) (args i)))
  | confirming (passed : Bool) (note : String) (hown : passed = true → Own B args s i) :
      Phase s i (.call (.canaryConfirm passed note) fun a ↦
        (afterConfirm a).bind
          ((BankClient.new (args i).packing).afterProvisioning B np (wrapper B args i) (args i)))
  | warming (req : InferenceRequest) (client : BankClient ℚ)
      (hown : (args i).galoisKeysFile.isSome → Own B args s i) :
      Phase s i (.call (.runInference req) fun _ ↦ .done (.ok client))
  | returned (client : BankClient ℚ) (hown : (args i).galoisKeysFile.isSome → Own B args s i) :
      Phase s i (.done (.ok client))
  | raised (e : BankError) : Phase s i (.done (.error e))

/-! ## What the server's steps keep -/

/-- The first provisioning is the last: later steps leave the keys alone. -/
def Settled (s s' : ServerState τ Ct Gk) : Prop :=
  s.sm.state ≠ awaitingKeys → s'.ctx = s.ctx ∧ s'.sm.state ≠ awaitingKeys

variable {B np m args}

theorem settled_of_eq {s s' : ServerState τ Ct Gk} (h : s' = s) : Settled s s' := by
  intro hstate
  rw [h]
  exact ⟨rfl, hstate⟩

theorem settled_of_slotStep {s s' : ServerState τ Ct Gk} {call : Rpc} {reply : Reply}
    (h : SlotStep B.toSeal s s' call reply) : Settled s s' := by
  intro hstate
  cases h with
  | provisionRejected bytes message _ hsame => exact settled_of_eq hsame hstate
  | provisioned bytes keys message hawaiting => exact absurd hawaiting hstate
  | provisionFailed bytes error message hawaiting => exact absurd hawaiting hstate
  | canaryRejected ciphertext message _ hsame => exact settled_of_eq hsame hstate
  | canaryReturned ciphertext result message _ _ _ hstate' hctx => exact ⟨hctx, by simp [hstate']⟩
  | canaryFailed ciphertext message _ _ hstate' hctx => exact ⟨hctx, by simp [hstate']⟩
  | confirmRejected passed note message _ hsame => exact settled_of_eq hsame hstate
  | confirmed passed note message _ hstate' hctx =>
      refine ⟨hctx, ?_⟩
      rw [hstate']
      cases passed <;> simp
  | inference req draws reply _ hstate' hctx =>
      refine ⟨hctx, ?_⟩
      rcases hstate' with hsame | ⟨-, hfault⟩
      · rwa [hsame]
      · simp [hfault]
  | status reply hsame => exact settled_of_eq hsame hstate
  | transcipher symCiphertext nonce reply hsame => exact settled_of_eq hsame hstate

theorem own_stable {s s' : ServerState τ Ct Gk} {i : ι} (hstep : Settled s s')
    (h : Own B args s i) : Own B args s' i := by
  obtain ⟨hctx, hstate⟩ := hstep h.1
  exact ⟨hstate, by rw [hctx]; exact h.2⟩

theorem messageOk_stable {s s' : ServerState τ Ct Gk} {i : ι} {message : BankMessage}
    (hstep : Settled s s') (h : MessageOk B args s i message) : MessageOk B args s' i message := by
  cases message with
  | canaryConfirm passed note => exact fun hpassed ↦ own_stable hstep (h hpassed)
  | provisionGaloisKeys bytes => exact h
  | canaryCheck ct => exact h
  | runInference req => exact h

theorem answerOk_stable {s s' : ServerState τ Ct Gk} {i : ι} {message : BankMessage}
    {answer : Option Reply} (hstep : Settled s s') (h : AnswerOk B args s i message answer) :
    AnswerOk B args s' i message answer := by
  unfold AnswerOk at *
  split at h
  · exact fun hready ↦ own_stable hstep (h hready)
  · refine ⟨fun hready ↦ own_stable hstep (h.1 hready), fun hvalidating ↦ ?_⟩
    obtain ⟨hstate, hresult, howner⟩ := h.2 hvalidating
    obtain ⟨hctx, hstate'⟩ := hstep hstate
    rw [hctx]
    exact ⟨hstate', hresult, howner⟩
  · exact fun hready ↦ own_stable hstep (h hready)
  · trivial

theorem phase_stable {s s' : ServerState τ Ct Gk} {i : ι} {d : BankDialogue (BankClient ℚ)}
    (hstep : Settled s s') (h : Phase B np args s i d) : Phase B np args s' i d := by
  cases h with
  | provisioning bytes hfile hkeys => exact .provisioning bytes hfile hkeys
  | checking ct hkeys hct => exact .checking ct hkeys hct
  | confirming passed note hown =>
      exact .confirming passed note fun hpassed ↦ own_stable hstep (hown hpassed)
  | warming req client hown => exact .warming req client fun hfile ↦ own_stable hstep (hown hfile)
  | returned client hown => exact .returned client fun hfile ↦ own_stable hstep (hown hfile)
  | raised e => exact .raised e

/-! ## Serving a message -/

theorem slotStep_serve [DecidableEq τ] (hmode : m.packingMode = .slot) (x : τ × Cnp.MaskDraws)
    (message : BankMessage) (s : ServerState τ Ct Gk) :
    ∃ reply, ((service B m).serve x message s).1 = some reply ∧
      SlotStep B.toSeal s ((service B m).serve x message s).2 (rpc x.2 message) reply :=
  ⟨_, rfl, slotStep_handle B.toSeal hmode x.1 (rpc x.2 message) s⟩

theorem installedByClient_runInference {s s' : ServerState τ Ct Gk} {req : InferenceRequest}
    {draws : Cnp.MaskDraws} {reply : Reply} (hinv : InstalledByClient B args s)
    (hstep : SlotStep B.toSeal s s' (.runInference req draws) reply) :
    InstalledByClient B args s' := by
  intro hvalidating
  cases hstep with
  | inference _ _ _ _ hstate' hctx =>
      rw [hctx]
      rcases hstate' with hsame | ⟨-, hfault⟩
      · exact hinv (hsame ▸ hvalidating)
      · simp [hfault] at hvalidating

theorem installedByClient_slotStep {s s' : ServerState τ Ct Gk} {i : ι} {message : BankMessage}
    {draws : Cnp.MaskDraws} {reply : Reply} (hinv : InstalledByClient B args s)
    (hmessage : MessageOk B args s i message)
    (hstep : SlotStep B.toSeal s s' (rpc draws message) reply) : InstalledByClient B args s' := by
  intro hvalidating
  cases message with
  | provisionGaloisKeys bytes =>
      cases hstep with
      | provisionRejected _ text _ hsame =>
          subst hsame
          exact hinv hvalidating
      | provisioned _ keys text _ hvalid _ hctx =>
          obtain ⟨hfile, sk, hsk⟩ := hmessage
          refine ⟨i, sk, hsk, ?_⟩
          simp [pushedKeys, hfile, hvalid, hctx, EvalContext160.install, Except.toOption]
      | provisionFailed _ error text _ _ hfault => simp [hfault] at hvalidating
  | canaryCheck ct =>
      cases hstep with
      | canaryRejected _ text _ hsame =>
          subst hsame
          exact hinv hvalidating
      | canaryReturned _ result text hstate _ _ _ hctx =>
          rw [hctx]
          exact hinv hstate
      | canaryFailed _ text _ _ hfault => simp [hfault] at hvalidating
  | canaryConfirm passed note =>
      cases hstep with
      | confirmRejected _ _ text _ hsame =>
          subst hsame
          exact hinv hvalidating
      | confirmed _ _ text _ hstate' =>
          rw [hstate'] at hvalidating
          cases passed <;> simp at hvalidating
  | runInference req => exact installedByClient_runInference hinv hstep hvalidating

theorem answerOk_slotStep {s s' : ServerState τ Ct Gk} {i : ι} {message : BankMessage}
    {draws : Cnp.MaskDraws} {reply : Reply} (hinv : InstalledByClient B args s)
    (hmessage : MessageOk B args s i message) (hcond : NotOvertaken B args s i message)
    (hstep : SlotStep B.toSeal s s' (rpc draws message) reply) :
    AnswerOk B args s' i message (some reply) := by
  have hown : IsHandshake message → s.sm.state = ready → Own B args s i := fun hhandshake hready ↦
    ⟨by simp [hready], hcond hhandshake hready⟩
  cases message with
  | provisionGaloisKeys bytes =>
      cases hstep with
      | provisionRejected _ text _ hsame =>
          subst hsame
          exact fun hready ↦ hown trivial hready
      | provisioned => exact nofun
      | provisionFailed => exact nofun
  | canaryCheck ct =>
      cases hstep with
      | canaryRejected _ text hstate hsame =>
          subst hsame
          exact ⟨fun hready ↦ hown trivial hready, fun hvalidating ↦ absurd hvalidating hstate⟩
      | canaryReturned _ result text hstate _ hresult hstate' hctx =>
          refine ⟨nofun, fun _ ↦ ⟨by simp [hstate'], ?_, ?_⟩⟩
          · rw [hctx]
            exact hresult
          · rw [hctx]
            exact hinv hstate
      | canaryFailed => exact ⟨nofun, nofun⟩
  | canaryConfirm passed note =>
      cases hstep with
      | confirmRejected _ _ text _ hsame =>
          subst hsame
          exact fun hready ↦ hown trivial hready
      | confirmed _ _ text hstate hstate' hctx =>
          intro hready
          cases passed with
          | false => cases hready
          | true =>
              have howned := hmessage rfl
              exact ⟨by simp [hstate'], by rw [hctx]; exact howned.2⟩
  | runInference req => trivial

/-! ## What a client does with an answer -/

theorem phase_warmup {s : ServerState τ Ct Gk} {i : ι}
    (hown : (args i).galoisKeysFile.isSome → Own B args s i) :
    Phase B np args s i ((BankClient.new (args i).packing).warmup B np (wrapper B args i)
      (args i)) := by
  simp only [warmup]
  rcases runInference_dialogue B np (BankClient.new (args i).packing) (wrapper B args i)
    ⟨⟨1, 256, fun _ _ ↦ 0⟩, "WARMUP", (args i).warmupId, (args i).warmupCoins⟩ with
    ⟨result, hdone⟩ | ⟨req, read, hcall⟩
  · rw [hdone]
    exact .returned _ hown
  · rw [hcall]
    exact .warming req _ hown

theorem phase_afterProvisioning {s : ServerState τ Ct Gk} {i : ι}
    {result : Except BankError (ProvisioningState × String)}
    (hown : ∀ detail, result = .ok (ready, detail) → Own B args s i) :
    Phase B np args s i ((BankClient.new (args i).packing).afterProvisioning B np
      (wrapper B args i) (args i) result) := by
  unfold afterProvisioning
  split
  · exact .raised _
  · rename_i state detail
    split
    · exact .raised _
    · rename_i hready
      obtain rfl : state = ready := not_not.mp hready
      exact phase_warmup fun _ ↦ hown detail rfl

theorem phase_afterConfirm {s : ServerState τ Ct Gk} {i : ι} {passed : Bool} {note : String}
    {answer : Option Reply} (h : AnswerOk B args s i (.canaryConfirm passed note) answer) :
    Phase B np args s i ((afterConfirm answer).bind
      ((BankClient.new (args i).packing).afterProvisioning B np (wrapper B args i) (args i))) := by
  unfold afterConfirm
  split
  · rename_i state text
    apply phase_afterProvisioning
    intro detail hready
    exact h (congrArg Prod.fst (Except.ok.inj hready))
  · exact phase_afterProvisioning nofun

theorem phase_afterCanary (hkeys : KeyTriples B args) {s : ServerState τ Ct Gk} {i : ι} {ct : Bytes}
    {answer : Option Reply} (hsk : ∃ sk, secretKey B args i = some sk)
    (hct : (wrapper B args i).encryptBatch B (args i).canaryCoins
      (List.replicate 4096 canaryValue) = .ok ct)
    (h : AnswerOk B args s i (.canaryCheck ct) answer) :
    Phase B np args s i ((afterCanary B np (wrapper B args i) answer).bind
      ((BankClient.new (args i).packing).afterProvisioning B np (wrapper B args i) (args i))) := by
  unfold afterCanary
  split
  · rename_i state result text
    split
    · apply phase_afterProvisioning
      intro detail hready
      exact h.1 (congrArg Prod.fst (Except.ok.inj hready))
    · rename_i hstate
      obtain ⟨hsettled, hresult, j, sk', hsk', hpushed⟩ := h.2 (not_not.mp hstate)
      cases hdecrypt : (wrapper B args i).decryptBatch B result 16 with
      | error text => exact phase_afterProvisioning nofun
      | ok decoded =>
          refine .confirming _ _ fun hpassed ↦ ⟨hsettled, ?_⟩
          obtain ⟨sk, hsk⟩ := hsk
          rcases eq_or_ne sk sk' with rfl | hne
          · rw [hkeys.own hsk hsk', hpushed]
          · have hdecoded : canaryDecoded B args i s.ctx.galoisKeys = .ok decoded := by
              simp only [canaryDecoded, hct, hresult, bind, Except.bind]
              exact hdecrypt
            have hspoiled := hkeys.foreign hsk hsk' hne hpushed hdecoded
            simp [hspoiled] at hpassed
  · exact phase_afterProvisioning nofun

theorem phase_afterProvision {s : ServerState τ Ct Gk} {i : ι} {bytes : Bytes}
    {answer : Option Reply} (hsk : ∃ sk, secretKey B args i = some sk)
    (h : AnswerOk B args s i (.provisionGaloisKeys bytes) answer) :
    Phase B np args s i ((afterProvision B np (wrapper B args i) (args i).canaryCoins answer).bind
      ((BankClient.new (args i).packing).afterProvisioning B np (wrapper B args i) (args i))) := by
  unfold afterProvision
  split
  · rename_i state text
    split
    · apply phase_afterProvisioning
      intro detail hready
      exact h (congrArg Prod.fst (Except.ok.inj hready))
    · cases hct : (wrapper B args i).encryptBatch B (args i).canaryCoins
          (List.replicate 4096 canaryValue) with
      | error text => exact phase_afterProvisioning nofun
      | ok ct => exact .checking ct hsk hct
  · exact phase_afterProvisioning nofun

theorem phase_construction (s : ServerState τ Ct Gk) (i : ι) :
    Phase B np args s i (construction B np args i) := by
  cases hload : loadedKeys B (args i) with
  | none =>
      obtain ⟨e, hinit⟩ := init_of_not_loadedKeys B np hload (.holding none)
      rw [construction, hinit]
      exact .raised e
  | some keys =>
      have hsk : ∃ sk, secretKey B args i = some sk := ⟨keys.2, by simp [secretKey, hload]⟩
      have hwrapper : .holding (some keys) = wrapper B args i := by rw [wrapper, hload]
      rw [construction, init_of_loadedKeys B np hload, hwrapper]
      unfold afterInitSeal
      cases openChannel (args i) with
      | error e => exact .raised e
      | ok channel =>
          cases hfile : (args i).galoisKeysFile with
          | none => exact phase_warmup (by simp [hfile])
          | some file =>
              cases file with
              | error text => exact .raised _
              | ok bytes => exact .provisioning bytes hfile hsk

/-! ## Every run -/

theorem messageOk_of_phase {s : ServerState τ Ct Gk} {i : ι} {message : BankMessage}
    {next : Option Reply → BankDialogue (BankClient ℚ)}
    (h : Phase B np args s i (.call message next)) : MessageOk B args s i message := by
  cases h with
  | provisioning bytes hfile hkeys => exact ⟨hfile, hkeys⟩
  | checking => trivial
  | confirming passed note hown => exact hown
  | warming => trivial

theorem phase_next (hkeys : KeyTriples B args) {s : ServerState τ Ct Gk} {i : ι}
    {message : BankMessage} {next : Option Reply → BankDialogue (BankClient ℚ)}
    {answer : Option Reply} (h : Phase B np args s i (.call message next))
    (hanswer : AnswerOk B args s i message answer) : Phase B np args s i (next answer) := by
  cases h with
  | provisioning bytes hfile hsk => exact phase_afterProvision hsk hanswer
  | checking ct hsk hct => exact phase_afterCanary hkeys hsk hct hanswer
  | confirming passed note hown => exact phase_afterConfirm hanswer
  | warming req client hown => exact .returned client hown

variable [DecidableEq τ] [DecidableEq ι]

variable (np) in
def discipline (hmode : m.packingMode = .slot) (hkeys : KeyTriples B args) :
    Discipline ι (Except BankError (BankClient ℚ)) (service (τ := τ) B m)
      (NotOvertaken B args) fun _ ↦ True where
  inv := InstalledByClient B args
  message := MessageOk B args
  answer := AnswerOk B args
  dialogue := Phase B np args
  stepped := Settled
  inv_serve := by
    intro s i message x hinv hmessage _
    obtain ⟨reply, -, hstep⟩ := slotStep_serve (B := B) hmode x message s
    exact installedByClient_slotStep hinv hmessage hstep
  inv_elsewhere := fun {_ y} hinv _ ↦ installedByClient_runInference hinv
    (slotStep_handle B.toSeal hmode y.1 (.runInference y.2.1 y.2.2) _)
  stepped_serve := by
    intro s message x
    obtain ⟨reply, -, hstep⟩ := slotStep_serve (B := B) hmode x message s
    exact settled_of_slotStep hstep
  stepped_elsewhere := fun y ↦
    settled_of_slotStep (slotStep_handle B.toSeal hmode y.1 (.runInference y.2.1 y.2.2) _)
  message_stable := messageOk_stable
  answer_stable := answerOk_stable
  dialogue_stable := phase_stable
  message_call := messageOk_of_phase
  answer_serve := by
    intro s i message x hinv hmessage hcond
    obtain ⟨reply, hreply, hstep⟩ := slotStep_serve (B := B) hmode x message s
    rw [hreply]
    exact answerOk_slotStep hinv hmessage hcond hstep
  answer_timeout := by
    intro s i message
    cases message <;> trivial
  dialogue_next := phase_next hkeys

/-- Unless a handshake message of one client arrives at a server that is ready
with another's keys: in every state of every run, each client that has returned
finds the keys installed that it pushed. -/
theorem returned_with_own_keys (hmode : m.packingMode = .slot) (hkeys : KeyTriples B args)
    (noKeys : Gk)
    (choices : List (Choice ι (τ × Cnp.MaskDraws) (τ × InferenceRequest × Cnp.MaskDraws)))
    (hmeets : (network B np args noKeys).Meets (service B m) (NotOvertaken B args) choices) :
    ReturnedWithOwnKeys B args ((network B np args noKeys).run (service B m) choices) := by
  have hstart : (discipline (τ := τ) np hmode hkeys).NetOk (network B np args noKeys) :=
    Discipline.netOk_start _ (fun hvalidating ↦ by cases hvalidating) fun i ↦ phase_construction _ i
  have hrun := (discipline np hmode hkeys).netOk_run hstart choices hmeets fun _ _ ↦ trivial
  intro i client hfile hreturned
  have hcaller := hrun.callers i
  rw [hreturned] at hcaller
  cases hcaller with
  | returned client hown => exact (hown hfile).2

end Network

/-! ## Two clients over a SEAL in the clear -/

def clearOwner (second : Bool) : UInt8 := if second then 2 else 1

def twoClients (second : Bool) : InitArgs Unit :=
  clearArgs (clearOwner second) (some (.ok [clearOwner second]))

abbrev ClearChoice := Choice Bool (Unit × Cnp.MaskDraws) (Unit × InferenceRequest × Cnp.MaskDraws)

def clearService : Service (ServerState Unit (UInt8 × ℕ) UInt8) BankMessage (Option Reply)
    (Unit × Cnp.MaskDraws) (Unit × InferenceRequest × Cnp.MaskDraws) :=
  service clearBank (.clear .slot)

def clearNetwork : Net (ServerState Unit (UInt8 × ℕ) UInt8) Bool BankMessage (Option Reply)
    (Except BankError (BankClient ℚ)) :=
  network clearBank clearNumpy twoClients 0

/-- The three calls of a client that is alone with the server, and a warm-up
that runs into its deadline. -/
def handshake (i : Bool) : List ClearChoice :=
  [.deliver i ((), Cnp.zeroDraws), .receive i, .deliver i ((), Cnp.zeroDraws), .receive i,
    .deliver i ((), Cnp.zeroDraws), .receive i, .giveUp i]

/-- A client whose push finds the server ready. -/
def lateHandshake (i : Bool) : List ClearChoice :=
  [.deliver i ((), Cnp.zeroDraws), .receive i, .giveUp i]

theorem secretKey_twoClients (i : Bool) :
    secretKey clearBank twoClients i = some (clearOwner i) := by
  cases i <;> rfl

theorem pushedKeys_twoClients (i : Bool) :
    pushedKeys clearBank twoClients i = some (clearOwner i) := by
  cases i <;> decide +kernel

theorem clearOwner_injective : Function.Injective clearOwner := by decide

theorem canaryDecoded_twoClients (i : Bool) :
    (canaryDecoded clearBank twoClients i (clearOwner !i)).map canaryPassed = .ok false := by
  cases i <;> decide +kernel

theorem keyTriples_twoClients : KeyTriples clearBank twoClients where
  own := by
    intro i j sk hi hj
    rw [secretKey_twoClients] at hi hj
    rw [clearOwner_injective (Option.some.inj (hi.trans hj.symm))]
  foreign := by
    intro i j sk sk' keys decoded hi hj hne hpushed hdecoded
    rw [secretKey_twoClients] at hi hj
    rw [pushedKeys_twoClients] at hpushed
    have hij : j ≠ i := by
      rintro rfl
      exact hne (Option.some.inj (hi.symm.trans hj))
    obtain rfl : j = !i := Bool.eq_not.mpr hij
    obtain rfl := Option.some.inj hpushed
    have hspoiled := canaryDecoded_twoClients i
    rw [hdecoded] at hspoiled
    exact Except.ok.inj hspoiled

/-- Both push their keys; the second finds the first one's, and gives up on the
confirmation of a canary that came back wrong. -/
def interleavedHandshakes : List ClearChoice :=
  [.deliver false ((), Cnp.zeroDraws), .deliver true ((), Cnp.zeroDraws), .receive true,
    .deliver true ((), Cnp.zeroDraws), .receive false, .receive true,
    .deliver false ((), Cnp.zeroDraws), .giveUp true, .receive false,
    .deliver false ((), Cnp.zeroDraws), .receive false, .giveUp false]

theorem returned_with_own_keys_interleaved :
    ReturnedWithOwnKeys clearBank twoClients
      (clearNetwork.run clearService interleavedHandshakes) :=
  returned_with_own_keys rfl keyTriples_twoClients 0 interleavedHandshakes (by decide +kernel)

def returnedNormally :
    Caller BankMessage (Option Reply) (Except BankError (BankClient ℚ)) → Bool
  | .finished (.ok _) => true
  | _ => false

theorem exists_of_returnedNormally
    {c : Caller BankMessage (Option Reply) (Except BankError (BankClient ℚ))}
    (h : returnedNormally c = true) : ∃ client, c = .finished (.ok client) := by
  unfold returnedNormally at h
  split at h
  · exact ⟨_, rfl⟩
  · cases h

/-- The second client pushes its keys to a server that the first one has made
ready, and returns normally while the first one's keys are installed. -/
theorem returns_with_foreign_keys : ¬ ReturnedWithOwnKeys clearBank twoClients
    (clearNetwork.run clearService (handshake false ++ lateHandshake true)) := by
  obtain ⟨hfirst, hsecond⟩ : (clearNetwork.run clearService
      (handshake false ++ lateHandshake true)).server.ctx.galoisKeys = 1 ∧
        returnedNormally ((clearNetwork.run clearService
          (handshake false ++ lateHandshake true)).callers true) = true := by
    decide +kernel
  obtain ⟨client, hclient⟩ := exists_of_returnedNormally hsecond
  intro h
  have hkeys := h true client rfl hclient
  rw [pushedKeys_twoClients, hfirst] at hkeys
  revert hkeys
  decide

end Ppfdaas.Handshake
