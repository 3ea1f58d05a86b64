import Ppfdaas.Protocol.FixedPointSeal
import Ppfdaas.Protocol.Session

/-!
# A client and the server by themselves

A client that pushes the Galois keys of its own secret key to a fresh SLOT
server: the canary passes, the server ends up ready with these keys, and every
later request of the client is answered with the scores of its rows, up to the
error of the circuit.
-/

namespace Ppfdaas

open ErrorBudget ServerState Wrapper ProvisioningState BankClient Handshake

section Session

variable {τ Pk Sk Ct Pt Gk Coins : Type} {B : BankSeal Pk Sk Ct Pt Gk Coins}
  {p : Precision Ct Pt} {pk : Pk} {sk : Sk} {gk : Gk}

/-! ## The canary -/

theorem Approximates.canary (h : Approximates B p pk sk gk) (hε : 0 ≤ p.ε)
    (haccurate : 766 * p.ε < 1 / 1000) (hcap : 3 ≤ p.cap) (coins : Coins) :
    ∃ ct result decoded, (holding (some (pk, sk))).encryptBatch B coins
        (List.replicate 4096 canaryValue) = .ok ct ∧
      ct.length ≤ CT_BUF ∧ canaryResult B.toSeal gk ct = .ok result ∧
      (holding (some (pk, sk))).decryptBatch B result 16 = .ok decoded ∧
      canaryPassed decoded = true := by
  have hvalue : (0 : ℚ) ≤ canaryValue := by norm_num [canaryValue]
  have hlength : (List.replicate 4096 canaryValue).length = kSlots := List.length_replicate
  have hvalues : ∀ v ∈ List.replicate 4096 canaryValue, |v| ≤ p.cap := fun v hv ↦ by
    rw [List.eq_of_mem_replicate hv, abs_of_nonneg hvalue]
    exact le_trans (by norm_num [canaryValue]) hcap
  obtain ⟨ct, hct, hfresh, d₀, hreads₀, hclose₀⟩ := h.encryptBatch coins hlength hvalues
  have hslots : ∀ i, slotsOf (List.replicate 4096 canaryValue) i = canaryValue := fun i ↦ by
    have hlt : i.val < 4096 := i.val_lt
    rw [slotsOf, List.getD_eq_getElem?_getD, List.getElem?_replicate_of_lt hlt]
    rfl
  have htracks₀ : Tracks canaryValue (0 + p.ε) (fun _ ↦ canaryValue) d₀ :=
    (Tracks.refl fun _ ↦ (abs_of_nonneg hvalue).le).rounded fun i ↦ by
      rw [← hslots i]
      exact hclose₀ i
  have hrange : 256 * (canaryValue + (0 + p.ε) + 2 * p.ε) ≤ p.cap := by
    rw [canaryValue]
    linarith
  obtain ⟨out, hsum, hat, d, hreads, htracks⟩ :=
    h.treeSum hε (by decide) hvalue (by linarith) hfresh ⟨d₀, hreads₀, htracks₀⟩ hrange
  refine ⟨_, B.save out, _, hct, h.save_length_le hfresh, ?_,
    h.decryptBatch hat hreads (by decide) (by decide), ?_⟩
  · have hlevel : ¬ B.parmsId ct ≠ B.firstParmsId := not_not_intro hfresh.parmsId
    simp only [canaryResult, h.load_save hfresh, hlevel, if_false, hsum, bind, Except.bind]
    rfl
  · rw [canaryPassed, List.all_eq_true]
    intro v hv
    obtain ⟨k, -, rfl⟩ := List.mem_map.mp hv
    have herror := htracks.error (k * 256 : ℕ)
    rw [Finset.sum_const, Finset.card_range, nsmul_eq_mul] at herror
    rw [decide_eq_true_eq]
    refine lt_of_le_of_lt ?_ haccurate
    refine le_of_le_of_eq ?_ (by ring : 256 * (0 + p.ε) + 510 * p.ε = 766 * p.ε)
    exact_mod_cast herror

/-! ## One request -/

/-- Without an error the circuit leaves the scores of 16 rows in their lanes. -/
theorem exact_lane {w : Fin 256 → ℚ} {b : ℚ} {rows : ℕ → ℕ → ℚ} {exact : Slots ℚ}
    (hexact : ServerState.slotCircuit (Seal.slots ℚ) (slotConstants (List.ofFn w) b) ()
      (slotsOf (ravel 16 256 rows)) = .ok exact) {k : ℕ} (hk : k < 16) :
    exact (k * 256 : ℕ) = laneScore w b ⟨16, 256, rows⟩ k := by
  have hslot : (BankClient.new .slot : BankClient ℚ).packing = .slot := rfl
  have hone : 1 ≤ 16 := by decide
  have hscores := slotPipeline_score w b hslot (x := ⟨16, 256, rows⟩) rfl hone (le_refl 16)
  have hlength : (ravel 16 256 rows).length = kSlots := by simp [ravel, kSlots]
  have hencrypt : Ppfdaas.encryptBatch (ravel 16 256 rows) =
      .ok (slotsOf (ravel 16 256 rows)) := by
    rw [Ppfdaas.encryptBatch, if_neg (not_not_intro hlength)]
    rfl
  have hlay : (BankClient.new .slot : BankClient ℚ).layOut ⟨16, 256, rows⟩ =
      .ok (.new .slot, ravel 16 256 rows) := rfl
  simp only [slotPipeline, hlay, hencrypt, hexact, Ppfdaas.decryptBatch, bind, Except.bind]
    at hscores
  exact List.map_inj_left.mp (Except.ok.inj hscores) k (List.mem_range.mpr hk)

/-- What the scores of a client depend on: the keys and the model, and a range of
values in which neither leaves the precision of the scheme. -/
structure Accurate (B : BankSeal Pk Sk Ct Pt Gk Coins) (p : Precision Ct Pt) (pk : Pk)
    (sk : Sk) (gk : Gk) (m : ServiceConstants Pt) (w : Fin 256 → ℚ) (b M W : ℚ) : Prop where
  keys : Approximates B p pk sk gk
  model : HoldsModel B p m w b
  error_nonneg : 0 ≤ p.ε
  entry_nonneg : 0 ≤ M
  entry_le : M ≤ p.cap
  weight_le : ∀ j, |w j| ≤ W
  score_le : 256 * (M * W) + |b| + scoreError p M W ≤ p.cap

section Calls

variable [DecidableEq τ] (np : Numpy) {m : ServiceConstants Pt}
  (pick : BankMessage → τ × Cnp.MaskDraws) {w : Fin 256 → ℚ} {b M W : ℚ}

/-- 16 rows, from the encryption to what the decryption of the result shows. -/
theorem Accurate.exchange (h : Accurate B p pk sk gk m w b M W) (coins : Coins)
    {rows : ℕ → ℕ → ℚ} (hrows : ∀ i < 16, ∀ j < 256, |rows i j| ≤ M) :
    ∃ ct out, (holding (some (pk, sk))).encryptBatch B coins (ravel 16 256 rows) =
        .ok (B.save ct) ∧
      (B.save ct).length ≤ CT_BUF ∧ B.load (B.save ct) = .ok ct ∧
      B.parmsId ct = B.firstParmsId ∧ ServerState.slotCircuit B.toSeal m gk ct = .ok out ∧
      (B.save out).length ≤ CT_BUF ∧ ∀ lanes, 1 ≤ lanes → lanes ≤ 16 → ∃ raw : List ℚ,
        (holding (some (pk, sk))).decryptBatch B (B.save out) lanes = .ok raw ∧
        raw.length = lanes ∧ ∀ k < lanes,
          |raw.getD k 0 - laneScore w b ⟨16, 256, rows⟩ k| ≤ scoreError p M W := by
  have hlength : (ravel 16 256 rows).length = kSlots := by simp [ravel, kSlots]
  have hvalues : ∀ v ∈ ravel 16 256 rows, |v| ≤ M := abs_ravel_le hrows
  have hentries : ∀ i, |slotsOf (ravel 16 256 rows) i| ≤ M := fun i ↦ by
    have hlt : i.val < (ravel 16 256 rows).length := i.val_lt.trans_eq hlength.symm
    rw [slotsOf, List.getD_eq_getElem _ _ hlt]
    exact hvalues _ (List.getElem_mem hlt)
  obtain ⟨ct, hct, hfresh, hnear⟩ := h.keys.encryptBatch coins hlength
    fun v hv ↦ (hvalues v hv).trans h.entry_le
  obtain ⟨out, d, exact, hout, hat, hreads, hexact, hclose⟩ := h.keys.slotCircuit h.error_nonneg
    h.model h.weight_le h.score_le hentries hfresh hnear
  refine ⟨ct, out, hct, h.keys.save_length_le hfresh, h.keys.load_save hfresh, hfresh.parmsId,
    hout, h.keys.save_length_le hat, fun lanes hpos hle ↦ ?_⟩
  refine ⟨_, h.keys.decryptBatch hat hreads hpos hle, by simp, fun k hk ↦ ?_⟩
  have hlane := hclose (k * 256 : ℕ)
  rw [exact_lane hexact (hk.trans_le hle)] at hlane
  simpa [hk] using hlane

theorem Accurate.answers (h : Accurate B p pk sk gk m w b M W) {ctx : EvalContext160 Gk}
    (hctx : ctx.galoisKeys = gk) :
    Answers B m (holding (some (pk, sk))) .slot w b (scoreError p M W) M ctx where
  mode := h.model.mode
  entry_nonneg := h.entry_nonneg
  request := by
    intro client args hslot hshape hx
    have hshape' : RightShape 16 args.batch := hshape
    obtain ⟨client', rows, hlay, hrows⟩ := layOut_slot_padded hslot hshape'
    have hslot' : client'.packing = .slot := (layOut_packing hlay).trans hslot
    have hbounded : ∀ i < 16, ∀ j < 256, |rows i j| ≤ M := fun i hi j hj ↦ by
      rw [hrows i hi j]
      split_ifs with hlive
      · exact hx i hlive j hj
      · rw [abs_zero]
        exact h.entry_nonneg
    obtain ⟨ct, out, hct, hsize, hload, hfirst, hout, hfits, hdecrypt⟩ :=
      h.exchange args.coins hbounded
    obtain ⟨raw, hraw, hlength, hclose⟩ := hdecrypt _ hshape'.2.1 hshape'.2.2
    refine ⟨client', _, _, ct, hlay, ?_, hsize, hload, hfirst, fun draws ↦
      ⟨B.save out, raw, ?_, hfits, ?_, hlength, fun k hk ↦ ?_⟩⟩
    · rw [encryptRequest, hslot', if_neg (by decide), hct]
    · simp only [scoreResult, h.model.mode, reduceCtorEq, if_false, hctx, hout, bind, Except.bind]
      rfl
    · rw [decryptReply, hslot', if_neg (by decide), hraw]
    · have hk16 : k < 16 := hk.trans_le hshape'.2.2
      have hsame : laneScore w b ⟨16, 256, rows⟩ k = laneScore w b args.batch k := by
        simp only [laneScore, hrows k hk16, if_pos hk]
      rw [← hsame]
      exact hclose k hk

/-! ## The server's side of the handshake -/

variable {n : ℕ} {s : ServerState τ Ct Gk}

/-- The files of a SLOT client: a key pair, and the Galois keys made from it. -/
structure Honest (B : BankSeal Pk Sk Ct Pt Gk Coins) (pk : Pk) (sk : Sk) (gk : Gk)
    (args : InitArgs Coins) : Prop where
  packing : args.packing = .slot
  channel : openChannel args = .ok ()
  keys : loadedKeys B args = some (pk, sk)
  galoisKeys : ∃ bytes, args.galoisKeysFile = some (.ok bytes) ∧
    EvalContext160.validateGaloisKeys B.toSeal .slot bytes = .ok gk

variable (B) in
/-- What is left of a construction once the keys are pushed. -/
def afterPush (keys : Pk × Sk) (args : InitArgs Coins) (answer : Option Reply) :
    BankDialogue (BankClient ℚ) :=
  (afterProvision B np (holding (some keys)) args.canaryCoins answer).bind
    ((BankClient.new args.packing).afterProvisioning B np (holding (some keys)) args)

omit [DecidableEq τ] pick in
theorem Honest.init {args : InitArgs Coins} (hargs : Honest B pk sk gk args)
    (wrapper : Wrapper Pk Sk) :
    ∃ bytes, EvalContext160.validateGaloisKeys B.toSeal .slot bytes = .ok gk ∧
      (BankClient.init B np wrapper args).2 =
        .call (.provisionGaloisKeys bytes) (afterPush B np (pk, sk) args) := by
  obtain ⟨bytes, hfile, hvalid⟩ := hargs.galoisKeys
  refine ⟨bytes, hvalid, ?_⟩
  rw [init_of_loadedKeys B np hargs.keys]
  simp only [afterInitSeal, hargs.channel, hfile]
  rfl

end Calls

end Session

/-! ## One client of a server in fixed point -/

namespace FixedPoint

def files (key : Bool) : InitArgs Unit where
  packing := .slot
  publicKeyFile := .ok (OwnedWords.keyFile key)
  secretKeyFile := .ok (OwnedWords.keyFile key)
  galoisKeysFile := some (.ok (OwnedWords.keyFile key))
  useTls := false
  tlsFiles := (none, none, none)
  canaryCoins := ()
  warmupCoins := ()
  warmupId := "warmup"

end FixedPoint

end Ppfdaas
