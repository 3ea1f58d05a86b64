import Mathlib.Data.List.GetD
import Ppfdaas.Protocol.Handshake
import Ppfdaas.Scoring.SlotPipeline

/-!
# Sessions of one client

A client by itself with the server, call after call.  `Answers` is what one
request has to show, in either packing; warm-ups and whole sessions follow from
it.
-/

namespace Ppfdaas

open ServerState Wrapper ProvisioningState BankClient Handshake

/-! ## Batches -/

def InRange (M : ℚ) (x : Batch ℚ) : Prop := ∀ i < x.nTxns, ∀ j < 256, |x.entry i j| ≤ M

def RightShape (lanes : ℕ) (x : Batch ℚ) : Prop := x.nFeat = 256 ∧ 1 ≤ x.nTxns ∧ x.nTxns ≤ lanes

theorem abs_ravel_le {rows : ℕ} {entry : ℕ → ℕ → ℚ} {M : ℚ}
    (h : ∀ i < rows, ∀ j < 256, |entry i j| ≤ M) : ∀ v ∈ ravel rows 256 entry, |v| ≤ M := by
  intro v hv
  obtain ⟨i, hi, rfl⟩ := List.mem_map.mp hv
  have hlt : i < rows * 256 := List.mem_range.mp hi
  exact h _ (Nat.div_lt_of_lt_mul (by omega)) _ (Nat.mod_lt _ (Nat.succ_pos 255))

theorem maxLanes_of_packing {client : BankClient ℚ} {packing : PackingMode160}
    (h : client.packing = packing) :
    client.maxLanes = (BankClient.new packing : BankClient ℚ).maxLanes := by
  rw [maxLanes, h]
  rfl

/-- A SLOT request is laid out in 16 rows, with zeros below the batch. -/
theorem layOut_slot_padded {client : BankClient ℚ} (hslot : client.packing = .slot) {x : Batch ℚ}
    (hshape : RightShape 16 x) :
    ∃ client' rows, client.layOut x = .ok (client', ravel 16 256 rows) ∧
      ∀ i < 16, ∀ j, rows i j = if i < x.nTxns then x.entry i j else 0 := by
  obtain ⟨hfeat, hpos, hle⟩ := hshape
  have hrange : ¬ (x.nTxns < 1 ∨ client.maxLanes < x.nTxns) := by
    simp only [maxLanes, hslot, reduceCtorEq, if_false]
    omega
  by_cases hfull : x.nTxns < 16
  · refine ⟨client.fillPadBuffer x, (client.fillPadBuffer x).padBuffer, ?_, fun i _ j ↦ ?_⟩
    · simp only [layOut, hfeat, hrange, hslot, hfull, ne_eq, not_true_eq_false, if_false,
        reduceCtorEq, if_true]
    · simp only [fillPadBuffer]
      split_ifs <;> rfl
  · have hn : x.nTxns = 16 := by omega
    refine ⟨client, x.entry, ?_, fun i hi j ↦ by rw [hn, if_pos hi]⟩
    simp only [layOut, hfeat, hrange, hslot, hfull, ne_eq, not_true_eq_false, if_false,
      reduceCtorEq]
    rw [hn]

/-! ## Calls -/

section Calls

variable {τ Pk Sk Ct Pt Gk Coins : Type} {B : BankSeal Pk Sk Ct Pt Gk Coins} [DecidableEq τ]
  (np : Numpy) (m : ServiceConstants Pt) (pick : BankMessage → τ × Cnp.MaskDraws)

variable (B) in
/-- The server alone with its caller; each call runs on the thread it is given,
with the mask it is given. -/
def attend (message : BankMessage) (s : ServerState τ Ct Gk) :
    Option Reply × ServerState τ Ct Gk :=
  (service B m).serve (pick message) message s

/-- A call, with the thread that will serve it and the draws of its mask. -/
abbrev Turn (τ Coins : Type) := InferenceArgs Coins × τ × Cnp.MaskDraws

variable (B) in
/-- The calls of a client, one after the other. -/
def session (wrapper : Wrapper Pk Sk) : BankClient ℚ → ServerState τ Ct Gk →
    List (Turn τ Coins) → List (Except BankError (List ℚ)) × ServerState τ Ct Gk
  | _, s, [] => ([], s)
  | client, s, (args, x) :: rest =>
      let (client', call) := client.runInference B np wrapper args
      let (result, s') := call.serve (attend B m fun _ ↦ x) s
      let (results, final) := session wrapper client' s' rest
      (result :: results, final)

/-- The raw scores are close to the exact ones. -/
def Scored (w : Fin 256 → ℚ) (b error : ℚ) (x : Batch ℚ)
    (result : Except BankError (List ℚ)) : Prop :=
  ∃ raw : List ℚ, result = .ok (raw.map np.expit) ∧ raw.length = x.nTxns ∧
    ∀ k < x.nTxns, |raw.getD k 0 - laneScore w b x k| ≤ error

/-- A batch of the right shape is scored, any other is turned down by the client. -/
def Answered (packing : PackingMode160) (w : Fin 256 → ℚ) (b error : ℚ)
    (args : InferenceArgs Coins) (result : Except BankError (List ℚ)) : Prop :=
  let lanes := (BankClient.new packing : BankClient ℚ).maxLanes
  (RightShape lanes args.batch → Scored np w b error args.batch result) ∧
    (¬ RightShape lanes args.batch → ∃ text, result = .error (.valueError text))

variable (B) in
/-- What a server with the context `ctx` makes of a request of the right shape:
it passes the checks, and whatever is drawn for a mask, the answer fits into the
buffer and is read as the scores. -/
structure Answers (wrapper : Wrapper Pk Sk) (packing : PackingMode160) (w : Fin 256 → ℚ)
    (b error M : ℚ) (ctx : EvalContext160 Gk) : Prop where
  mode : m.packingMode = packing
  entry_nonneg : 0 ≤ M
  request : ∀ {client : BankClient ℚ} (args : InferenceArgs Coins), client.packing = packing →
    RightShape (BankClient.new packing : BankClient ℚ).maxLanes args.batch →
    InRange M args.batch → ∃ client' flat bytes ct,
      client.layOut args.batch = .ok (client', flat) ∧
      client'.encryptRequest B wrapper args.coins flat args.batch.nTxns = .ok bytes ∧
      bytes.length ≤ CT_BUF ∧ B.load bytes = .ok ct ∧ B.parmsId ct = B.firstParmsId ∧
      ∀ draws, ∃ out raw, scoreResult B.toSeal m ctx draws ct = .ok out ∧ out.length ≤ CT_BUF ∧
        client'.decryptReply B wrapper out args.batch.nTxns = .ok raw ∧
        raw.length = args.batch.nTxns ∧
        ∀ k < args.batch.nTxns, |raw.getD k 0 - laneScore w b args.batch k| ≤ error

/-- Ready in the given context, with nothing written behind a buffer; a call
changes counters, logs and buffers only. -/
structure ReadyIn (ctx : EvalContext160 Gk) (mismatches : ℕ) (s : ServerState τ Ct Gk) :
    Prop where
  state : s.sm.state = ready
  ctx : s.ctx = ctx
  mismatches : s.sm.mismatchCount = mismatches
  inBounds : s.overran = false

theorem runInference_packing (client : BankClient ℚ) (wrapper : Wrapper Pk Sk)
    (args : InferenceArgs Coins) :
    (client.runInference B np wrapper args).1.packing = client.packing := by
  unfold BankClient.runInference
  split
  · rfl
  · rename_i client' flat hlay
    exact layOut_packing hlay

theorem runInference_wrong_shape {client : BankClient ℚ} {packing : PackingMode160}
    (hpacking : client.packing = packing) (wrapper : Wrapper Pk Sk) {args : InferenceArgs Coins}
    (hshape : ¬ RightShape (BankClient.new packing : BankClient ℚ).maxLanes args.batch) :
    ∃ text, client.runInference B np wrapper args =
      (client, .done (.error (.valueError text))) := by
  cases hlay : client.layOut args.batch with
  | ok laid =>
      obtain ⟨hfeat, hpos, hle⟩ := shape_of_layOut hlay
      rw [maxLanes_of_packing hpacking] at hle
      exact absurd ⟨hfeat, hpos, hle⟩ hshape
  | error text =>
      refine ⟨text, ?_⟩
      simp only [BankClient.runInference, hlay]
      rfl

variable {np m pick} {wrapper : Wrapper Pk Sk} {packing : PackingMode160} {w : Fin 256 → ℚ}
  {b error M : ℚ} {ctx : EvalContext160 Gk}

variable (np) in
/-- The request that a call sends, and what the call makes of the answer. -/
theorem Answers.sent (h : Answers B m wrapper packing w b error M ctx) {client : BankClient ℚ}
    (hpacking : client.packing = packing) (args : InferenceArgs Coins)
    (hshape : RightShape (BankClient.new packing : BankClient ℚ).maxLanes args.batch)
    (hx : InRange M args.batch) :
    ∃ req ct, ∃ read : Option Reply → Except BankError (List ℚ),
      (client.runInference B np wrapper args).2 =
        .call (.runInference req) (fun answer ↦ .done (read answer)) ∧
      ¬ Refused m req ∧ perRequestChecks B.toSeal req = .ok ct ∧
      (∀ draws, Fits B.toSeal m ctx req draws) ∧
      (∀ draws, ∃ out, scoreResult B.toSeal m ctx draws ct = .ok out ∧
        Scored np w b error args.batch (read (some (scoreReply req (.ok out))))) ∧
      (∀ status text, status ≠ .ok →
        read (some (failed req status text)) = .error (.vendorError status text)) ∧
      read none = .error .rpcError := by
  obtain ⟨client', flat, bytes, ct, hlay, hencrypt, hsize, hload, hfirst, hscore⟩ :=
    h.request args hpacking hshape hx
  have hpacking' : client'.packing = packing := (layOut_packing hlay).trans hpacking
  have hrefused : ¬ Refused m ⟨bytes, args.requestId, args.institutionId, args.batch.nTxns,
      if client'.packing = .cnp then .cnp else .slot⟩ := by
    obtain ⟨-, hpos, hle⟩ := hshape
    simp only [Refused, h.mode, hpacking', ne_eq, not_true_eq_false, false_or, not_and, not_or,
      not_lt]
    rintro rfl
    have hlanes : args.batch.nTxns ≤ Cnp.kMaxLanes := hle
    exact ⟨by exact_mod_cast hpos, by exact_mod_cast hlanes⟩
  have hchecks : perRequestChecks B.toSeal ⟨bytes, args.requestId, args.institutionId,
      args.batch.nTxns, if client'.packing = .cnp then .cnp else .slot⟩ = .ok ct := by
    simp only [perRequestChecks, not_lt.mpr hsize, if_false, hload, hfirst, ne_eq,
      not_true_eq_false]
  refine ⟨_, ct, client'.readAnswer B np wrapper args, ?_, hrefused, hchecks, fun draws ↦ ?_,
    fun draws ↦ ?_, fun status text hstatus ↦ ?_, rfl⟩
  · simp only [BankClient.runInference, hlay, hencrypt]
  · intro ct' bytes' _ hchecks' hscore'
    obtain rfl := Except.ok.inj (hchecks.symm.trans hchecks')
    obtain ⟨out, raw, hout, hfits, -⟩ := hscore draws
    obtain rfl := Except.ok.inj (hout.symm.trans hscore')
    exact hfits
  · obtain ⟨out, raw, hout, -, hread, hlength, hclose⟩ := hscore draws
    refine ⟨out, hout, raw, ?_, hlength, hclose⟩
    simp only [readAnswer, scoreReply, ne_eq, not_true_eq_false, if_false, hread]
    rfl
  · simp only [readAnswer, failed, hstatus, ne_eq, not_false_eq_true, if_true]
    rfl

/-! ## One call after the other -/

variable (np pick) in
theorem Answers.call (h : Answers B m wrapper packing w b error M ctx) {client : BankClient ℚ}
    (hpacking : client.packing = packing) (args : InferenceArgs Coins)
    (hshape : RightShape (BankClient.new packing : BankClient ℚ).maxLanes args.batch)
    (hx : InRange M args.batch) {s : ServerState τ Ct Gk} {n : ℕ} (hs : ReadyIn ctx n s) :
    ∃ result s', (client.runInference B np wrapper args).2.serve (attend B m pick) s =
        (result, s') ∧ Scored np w b error args.batch result ∧ ReadyIn ctx n s' := by
  obtain ⟨req, ct, read, hcall, hrefused, hchecks, hfits, hscored, -⟩ :=
    h.sent np hpacking args hshape hx
  rcases hpick : pick (.runInference req) with ⟨t, draws⟩
  obtain ⟨out, hout, hresult⟩ := hscored draws
  obtain ⟨calls, log, locals, hscore⟩ :=
    run_score B.toSeal m t req draws ct { s with sm := s.sm.incrTotalRequests }
  have hout' : scoreResult B.toSeal m s.ctx draws ct = .ok out := by rw [hs.ctx, hout]
  have hready : ¬ s.sm.state ≠ ready := not_not_intro hs.state
  rw [hcall, Dialogue.serve_call, Dialogue.serve_done]
  simp only [attend, service, rpc, handle, hpick,
    run_runInference_accepted B.toSeal m t req draws s hrefused, hready, if_false, hchecks,
    hscore, hout']
  refine ⟨_, _, rfl, hresult, hs.state, hs.ctx, hs.mismatches, ?_⟩
  have hlength := hfits draws ct out hrefused hchecks hout
  simp [hs.inBounds, overruns, hlength]

theorem Answers.session (h : Answers B m wrapper packing w b error M ctx)
    (calls : List (Turn τ Coins)) (hcalls : ∀ call ∈ calls, InRange M call.1.batch)
    {client : BankClient ℚ} (hpacking : client.packing = packing) {s : ServerState τ Ct Gk}
    {n : ℕ} (hs : ReadyIn ctx n s) :
    List.Forall₂ (Answered np packing w b error) (calls.map Prod.fst)
        (session B np m wrapper client s calls).1 ∧
      ReadyIn ctx n (session B np m wrapper client s calls).2 := by
  induction calls generalizing client s with
  | nil => exact ⟨.nil, hs⟩
  | cons call rest ih =>
      obtain ⟨args, x⟩ := call
      have hrest : ∀ call ∈ rest, InRange M call.1.batch :=
        fun call hmem ↦ hcalls call (List.mem_cons_of_mem (args, x) hmem)
      simp only [Ppfdaas.session, List.map_cons]
      by_cases hshape : RightShape (BankClient.new packing : BankClient ℚ).maxLanes args.batch
      · obtain ⟨result, s', hserve, hscored, hs'⟩ :=
          h.call np (fun _ ↦ x) hpacking args hshape (hcalls (args, x) List.mem_cons_self) hs
        have hpacking' : (client.runInference B np wrapper args).1.packing = packing :=
          (runInference_packing np client _ args).trans hpacking
        obtain ⟨hanswers, hfinal⟩ := ih hrest hpacking' hs'
        rw [hserve]
        exact ⟨.cons ⟨fun _ ↦ hscored, fun hwrong ↦ absurd hshape hwrong⟩ hanswers, hfinal⟩
      · obtain ⟨text, hcall⟩ := runInference_wrong_shape (B := B) np hpacking wrapper hshape
        obtain ⟨hanswers, hfinal⟩ := ih hrest hpacking hs
        rw [hcall, Dialogue.serve_done]
        exact ⟨.cons ⟨fun hright ↦ absurd hright hshape, fun _ ↦ ⟨text, rfl⟩⟩ hanswers, hfinal⟩

theorem Answers.warmup (h : Answers B m wrapper packing w b error M ctx)
    {client : BankClient ℚ} (hpacking : client.packing = packing) (args : InitArgs Coins)
    {s : ServerState τ Ct Gk} {n : ℕ} (hs : ReadyIn ctx n s) :
    ∃ client' s', (client.warmup B np wrapper args).serve (attend B m pick) s =
        (.ok client', s') ∧ client'.packing = packing ∧ ReadyIn ctx n s' := by
  let call : InferenceArgs Coins :=
    ⟨⟨1, 256, fun _ _ ↦ 0⟩, "WARMUP", args.warmupId, args.warmupCoins⟩
  have hrange : InRange M call.batch := fun i _ j _ ↦ by
    rw [abs_zero]
    exact h.entry_nonneg
  have hlanes : 1 ≤ (BankClient.new packing : BankClient ℚ).maxLanes := by
    cases packing <;> exact Nat.le_of_ble_eq_true rfl
  obtain ⟨result, s', hserve, -, hs'⟩ :=
    h.call np pick hpacking call ⟨rfl, Nat.le_refl 1, hlanes⟩ hrange hs
  refine ⟨(client.runInference B np wrapper call).1, s', ?_,
    (runInference_packing np client _ call).trans hpacking, hs'⟩
  rw [BankClient.warmup, Dialogue.serve_bind, hserve, Dialogue.serve_done]

end Calls

end Ppfdaas
