import Ppfdaas.Vendor.RequestIsolation

/-!
# The size of a CNP result

`RunInference` bounds the bytes of the ciphertext it receives, not the number
of polynomials they decode to, and saves the result into a buffer of `CT_BUF`
bytes.  A CNP request never reaches a rotation, where SEAL would refuse more
than two polynomials.
-/

namespace Ppfdaas

open Interleaving

variable {Ct Pt Gk : Type}

/-- SEAL's bookkeeping of sizes: polynomials, limbs for each of them, and an
uncompressed form of a header and 8 bytes for every coefficient. -/
structure CtSizes (S : Seal Ct Pt Gk) where
  size : Ct → ℕ
  limbs : Ct → ℕ
  header : ℕ
  header_pos : 0 < header
  header_le : header ≤ 8 * kN
  saveSize_eq : ∀ ct, S.saveSize ct = header + 8 * kN * limbs ct * size ct
  multiplyPlain : ∀ {ct pt ct'}, S.multiplyPlain ct pt = .ok ct' →
    size ct' = size ct ∧ S.parmsId ct' = S.parmsId ct
  rescaleToNext : ∀ {ct ct'}, S.rescaleToNext ct = .ok ct' →
    size ct' = size ct ∧ (S.parmsId ct = S.firstParmsId → limbs ct' = 1)
  addPlain : ∀ {ct pt ct'}, S.addPlain ct pt = .ok ct' → size ct' = size ct ∧ limbs ct' = limbs ct

namespace CtSizes

variable {S : Seal Ct Pt Gk} (Z : CtSizes S)

/-- Buffers of 320 KB hold four limbs and a header, and not a fifth limb. -/
theorem saveSize_le_iff {ct : Ct} (hlimbs : Z.limbs ct = 1) :
    S.saveSize ct ≤ CT_BUF ↔ Z.size ct ≤ 4 := by
  have hpos := Z.header_pos
  have hle := Z.header_le
  rw [Z.saveSize_eq, hlimbs]
  simp only [kN, CT_BUF] at hle ⊢
  omega

/-- The CNP circuit leaves one limb for every polynomial it was given. -/
theorem cnpProduct_sizes {m : ServiceConstants Pt} {draws : Cnp.MaskDraws} {ct out : Ct}
    (hparms : S.parmsId ct = S.firstParmsId)
    (h : ServerState.cnpProduct S m draws ct = .ok out) :
    Z.size out = Z.size ct ∧ Z.limbs out = 1 := by
  simp only [ServerState.cnpProduct, bind, Except.bind] at h
  cases hprod : S.multiplyPlain ct m.ptWrev with
  | error e => simp [hprod] at h
  | ok prod =>
      obtain ⟨hsize, hpid⟩ := Z.multiplyPlain hprod
      cases hscaled : S.rescaleToNext prod with
      | error e => simp [hprod, hscaled] at h
      | ok scaled =>
          obtain ⟨hsize', hlimbs⟩ := Z.rescaleToNext hscaled
          simp only [hprod, hscaled] at h
          split at h
          · simp at h
          · obtain ⟨hsize'', hlimbs'⟩ := Z.addPlain h
            constructor
            · exact hsize''.trans (hsize'.trans hsize)
            · exact hlimbs'.trans (hlimbs (hpid.trans hparms))

end CtSizes

/-- The sizes in a rotation, which refuses more than two polynomials, and in a
sum. -/
structure SlotSizes (S : Seal Ct Pt Gk) extends CtSizes S where
  rotateVector : ∀ {ct ct' : Ct} {step : ℤ} {keys : Gk}, S.rotateVector ct step keys = .ok ct' →
    size ct ≤ 2 ∧ size ct' = size ct ∧ limbs ct' = limbs ct
  add : ∀ {a b ct' : Ct}, S.add a b = .ok ct' →
    size ct' = max (size a) (size b) ∧ limbs ct' = limbs a

namespace SlotSizes

open ServerState

variable {S : Seal Ct Pt Gk} (Z : SlotSizes S) {keys : Gk}

theorem foldSteps_sizes {steps : List ℤ} {ct out : Ct} (hsize : Z.size ct ≤ 2)
    (h : steps.foldlM (fun acc step ↦ do
      let tmp ← S.rotateVector acc step keys
      S.add acc tmp) ct = .ok out) : Z.size out ≤ 2 ∧ Z.limbs out = Z.limbs ct := by
  induction steps generalizing ct with
  | nil =>
      obtain rfl := Except.ok.inj h
      exact ⟨hsize, rfl⟩
  | cons step steps ih =>
      simp only [List.foldlM_cons, bind, Except.bind] at h
      cases hrot : S.rotateVector ct step keys with
      | error e => simp [hrot] at h
      | ok tmp =>
          cases hadd : S.add ct tmp with
          | error e => simp [hrot, hadd] at h
          | ok sum =>
              simp only [hrot, hadd] at h
              obtain ⟨-, htmp, -⟩ := Z.rotateVector hrot
              obtain ⟨hsum, hlimbs⟩ := Z.add hadd
              have hsum' : Z.size sum ≤ 2 := by
                rw [hsum, htmp, max_self]
                exact hsize
              obtain ⟨hout, hout'⟩ := ih hsum' h
              exact ⟨hout, hout'.trans hlimbs⟩

/-- The fold accepts two polynomials only, and keeps their limbs. -/
theorem pureTreeSum_sizes {ct out : Ct} (h : pureTreeSum S keys ct = .ok out) :
    Z.size out ≤ 2 ∧ Z.limbs out = Z.limbs ct := by
  refine Z.foldSteps_sizes ?_ h
  simp only [pureTreeSum, hoistedTreeSum, ne_eq, not_true_eq_false, if_false, STEPS,
    List.foldlM_cons, bind, Except.bind] at h
  cases hrot : S.rotateVector ct 1 keys with
  | error e => simp [hrot] at h
  | ok tmp => exact (Z.rotateVector hrot).1

end SlotSizes

def Reply.isOk : Reply → Bool
  | .inference resp => resp.status = .ok
  | _ => false

namespace ServerState

variable {τ : Type} (S : Seal Ct Pt Gk) (m : ServiceConstants Pt)

theorem perRequestChecks_ok {req : InferenceRequest} {ct : Ct}
    (h : perRequestChecks S req = .ok ct) :
    S.load req.ciphertext = .ok ct ∧ S.parmsId ct = S.firstParmsId := by
  unfold perRequestChecks at h
  by_cases hsize : req.ciphertext.length > CT_BUF
  · simp [hsize] at h
  · cases hload : S.load req.ciphertext with
    | error e => simp [hsize, hload] at h
    | ok ct' =>
        by_cases hparms : S.parmsId ct' = S.firstParmsId
        · obtain rfl : ct' = ct := by simpa [hsize, hload, hparms] using h
          exact ⟨rfl, hparms⟩
        · simp [hsize, hload, hparms] at h

variable [DecidableEq τ]

theorem scored_of_ok {t : τ} {req : InferenceRequest} {draws : Cnp.MaskDraws}
    {s : ServerState τ Ct Gk} {resp : InferenceResponse} (hready : s.sm.state = .ready)
    (hrun : ((runInference S m t req draws).run s).1 = .inference resp)
    (hok : resp.status = .ok) :
    ∃ ct, perRequestChecks S req = .ok ct ∧
      scoreResult S m s.ctx draws ct = .ok resp.resultCiphertext := by
  by_cases hrefused : Refused m req
  · obtain ⟨code, message, heq⟩ := run_runInference_refused S m t req draws s hrefused
    simp [heq] at hrun
  cases hchecks : perRequestChecks S req with
  | error failure =>
      obtain ⟨status, message, reason⟩ := failure
      have hfailed := run_runInference_accepted S m t req draws s hrefused
      simp only [hready, ne_eq, not_true_eq_false, if_false, hchecks] at hfailed
      rw [hfailed] at hrun
      obtain rfl := Reply.inference.inj hrun
      -- The checks never fail with the status of success.
      exfalso
      unfold perRequestChecks at hchecks
      split at hchecks
      · cases hchecks
        simp at hok
      · split at hchecks
        · cases hchecks
          simp at hok
        · split at hchecks
          · cases hchecks
            simp at hok
          · cases hchecks
  | ok ct =>
      refine ⟨ct, rfl, ?_⟩
      rw [run_runInference_scored S m t req draws hrefused hready hchecks] at hrun
      cases hscore : scoreResult S m s.ctx draws ct with
      | error e =>
          rw [hscore] at hrun
          obtain rfl := Reply.inference.inj hrun
          simp at hok
      | ok bytes =>
          rw [hscore] at hrun
          obtain rfl := Reply.inference.inj hrun
          rfl

/-- What a CNP server saved for an `OK` response, in any interleaving. -/
theorem cnp_saved (hmode : m.packingMode = .cnp) (noKeys : Gk) (schedule : List (Choice τ Rpc))
    {t : τ} {req : InferenceRequest} {draws : Cnp.MaskDraws} {resp : InferenceResponse}
    (hserved : (t, .runInference req draws, .inference resp) ∈
      (serve S m (new .cnp noKeys) schedule).served)
    (hok : resp.status = .ok) :
    ∃ ct out, S.load req.ciphertext = .ok ct ∧ S.parmsId ct = S.firstParmsId ∧
      cnpProduct S m draws ct = .ok out ∧ resp.resultCiphertext = S.save out := by
  have hready : (new .cnp noKeys : ServerState τ Ct Gk).sm.state = .ready := rfl
  have howed := answered_alone S m (.inl hready) hserved
  have halone : ((runInference S m t req draws).run
      (freshReady (new .cnp noKeys : ServerState τ Ct Gk).ctx)).1 = .inference resp := by
    rcases howed with halone | ⟨message, hfailed⟩
    · exact halone.symm
    · obtain rfl := Reply.inference.inj hfailed
      cases hok
  obtain ⟨ct, hchecks, hscore⟩ := scored_of_ok S m rfl halone hok
  obtain ⟨hload, hparms⟩ := perRequestChecks_ok S hchecks
  simp only [scoreResult, hmode, if_true, bind, Except.bind] at hscore
  split at hscore
  · simp at hscore
  · cases hprod : cnpProduct S m draws ct with
    | error e => simp [hprod] at hscore
    | ok out =>
        refine ⟨ct, out, hload, hparms, hprod, ?_⟩
        simpa [hprod, pure, Except.pure] using hscore.symm

/-- The bytes saved for an accepted CNP request fit the buffer exactly when its
ciphertext has at most four polynomials. -/
theorem cnp_outSize_le_iff (Z : CtSizes S) (hmode : m.packingMode = .cnp) (noKeys : Gk)
    (schedule : List (Choice τ Rpc)) {t : τ} {req : InferenceRequest} {draws : Cnp.MaskDraws}
    {resp : InferenceResponse}
    (hserved : (t, .runInference req draws, .inference resp) ∈
      (serve S m (new .cnp noKeys) schedule).served)
    (hok : resp.status = .ok) :
    ∃ ct out, S.load req.ciphertext = .ok ct ∧ cnpProduct S m draws ct = .ok out ∧
      resp.resultCiphertext = S.save out ∧ (S.saveSize out ≤ CT_BUF ↔ Z.size ct ≤ 4) := by
  obtain ⟨ct, out, hload, hparms, hprod, hsave⟩ := cnp_saved S m hmode noKeys schedule hserved hok
  obtain ⟨hsize, hlimbs⟩ := Z.cnpProduct_sizes hparms hprod
  refine ⟨ct, out, hload, hprod, hsave, ?_⟩
  rw [Z.saveSize_le_iff hlimbs, hsize]

omit [DecidableEq τ] in
/-- A CNP request of at most four polynomials fits. -/
theorem cnp_fits (Z : CtSizes S) (hmode : m.packingMode = .cnp) {ctx : EvalContext160 Gk}
    {req : InferenceRequest} {draws : Cnp.MaskDraws}
    (hsize : ∀ ct, S.load req.ciphertext = .ok ct → Z.size ct ≤ 4) : Fits S m ctx req draws := by
  intro ct bytes _ hchecks hscore
  obtain ⟨hload, hparms⟩ := perRequestChecks_ok S hchecks
  simp only [scoreResult, hmode, if_true, bind, Except.bind] at hscore
  split at hscore
  · simp at hscore
  · cases hprod : cnpProduct S m draws ct with
    | error e => simp [hprod] at hscore
    | ok out =>
        obtain ⟨hsize', hlimbs⟩ := Z.cnpProduct_sizes hparms hprod
        obtain rfl : S.save out = bytes := by simpa [hprod, pure, Except.pure] using hscore
        rw [S.save_length, Z.saveSize_le_iff hlimbs, hsize']
        exact hsize ct hload

omit [DecidableEq τ] in
/-- Every SLOT request fits: what has more than two polynomials is not rotated. -/
theorem slot_fits (Z : SlotSizes S) (hmode : m.packingMode = .slot) (ctx : EvalContext160 Gk)
    (req : InferenceRequest) (draws : Cnp.MaskDraws) : Fits S m ctx req draws := by
  intro ct bytes _ hchecks hscore
  obtain ⟨-, hparms⟩ := perRequestChecks_ok S hchecks
  simp only [scoreResult, hmode, reduceCtorEq, if_false, slotCircuit, bind, Except.bind] at hscore
  cases hprod : S.multiplyPlain ct m.ptWeights with
  | error e => simp [hprod] at hscore
  | ok prod =>
      cases hscaled : S.rescaleToNext prod with
      | error e => simp [hprod, hscaled] at hscore
      | ok scaled =>
          cases hsum : pureTreeSum S ctx.galoisKeys scaled with
          | error e => simp [hprod, hscaled, hsum] at hscore
          | ok sum =>
              cases hbias : S.addPlain sum m.ptBias with
              | error e => simp [hprod, hscaled, hsum, hbias] at hscore
              | ok out =>
                  obtain rfl : S.save out = bytes := by
                    simpa [hprod, hscaled, hsum, hbias, pure, Except.pure] using hscore
                  obtain ⟨-, hpid⟩ := Z.multiplyPlain hprod
                  obtain ⟨-, hlimbs⟩ := Z.rescaleToNext hscaled
                  obtain ⟨hsize, hlimbs'⟩ := Z.pureTreeSum_sizes hsum
                  obtain ⟨hsize', hlimbs''⟩ := Z.addPlain hbias
                  have hone : Z.limbs out = 1 :=
                    hlimbs''.trans (hlimbs'.trans (hlimbs (hpid.trans hparms)))
                  rw [S.save_length, Z.saveSize_le_iff hone, hsize']
                  exact hsize.trans (by norm_num)

/-! ## Ciphertexts that are their sizes -/

/-- A ciphertext is its number of polynomials and of limbs; a compressed stream
says in one byte how many polynomials it unpacks to. -/
def sizesOnly : Seal (ℕ × ℕ) Unit Unit where
  firstParmsId := 2
  keyParmsId := 3
  coeffModulus := fun _ ↦ some [97]
  load
    | [n] => if 2 ≤ n ∧ n ≤ 16 then .ok (n.toNat, 2) else .error "unexpected size"
    | _ => .error "unexpected size"
  parmsId := fun ct ↦ ct.2
  scale := fun _ ↦ 1
  saveSize := fun ct ↦ 113 + 8 * kN * ct.2 * ct.1
  save := fun ct ↦ List.replicate (113 + 8 * kN * ct.2 * ct.1) 0
  save_length := fun _ ↦ List.length_replicate
  multiplyPlain := fun ct _ ↦ .ok ct
  rescaleToNext := fun ct ↦ .ok (ct.1, ct.2 - 1)
  rotateVector := fun ct _ _ ↦ if ct.1 > 2 then .error "encrypted size must be 2" else .ok ct
  add := fun ct _ ↦ .ok ct
  addPlain := fun ct _ ↦ .ok ct
  ntt := fun _ limb ↦ limb
  plaintext := fun _ _ _ ↦ ()
  loadGaloisKeys := fun _ ↦ .ok ()
  galoisParmsId := fun _ ↦ 3
  galoisEltFromStep := fun step ↦ step.toNat
  hasKey := fun _ _ ↦ false
  galoisKeysSize := fun _ ↦ 0
  galoisSaveSize := fun _ ↦ 1

def sizesOnlySizes : CtSizes sizesOnly where
  size := Prod.fst
  limbs := Prod.snd
  header := 113
  header_pos := by decide
  header_le := by decide
  saveSize_eq := fun _ ↦ rfl
  multiplyPlain := by
    rintro ct pt ct' h
    cases h
    exact ⟨rfl, rfl⟩
  rescaleToNext := by
    rintro ct ct' h
    cases h
    refine ⟨rfl, fun hparms ↦ ?_⟩
    have htwo : ct.2 = 2 := hparms
    simp [htwo]
  addPlain := by
    rintro ct pt ct' h
    cases h
    exact ⟨rfl, rfl⟩

/-- One thread that serves a request whose ciphertext unpacks to `n` polynomials. -/
def polysRequest (n : UInt8) : InferenceRequest := ⟨[n], "a", "bank", 1, .cnp⟩

def polysSchedule (n : UInt8) : List (Choice Unit Rpc) :=
  .call () (.runInference (polysRequest n) Cnp.zeroDraws) :: List.replicate 12 (.go ())

def polysConstants : ServiceConstants Unit := ⟨.cnp, 0, (), (), (), true⟩

def polysServed (n : UInt8) : Config (ServerState Unit (ℕ × ℕ) Unit) Unit Rpc Reply :=
  serve sizesOnly polysConstants (new .cnp ()) (polysSchedule n)

theorem polysServed_ok {n : UInt8}
    (h : (polysServed n).served.map (fun answer ↦ answer.2.2.isOk) = [true]) :
    ∃ resp : InferenceResponse, resp.status = .ok ∧
      ((), .runInference (polysRequest n) Cnp.zeroDraws, .inference resp) ∈
        (polysServed n).served := by
  obtain ⟨⟨t, k, r⟩, hmem, hr⟩ := List.mem_map.mp (h ▸ List.mem_cons_self : true ∈ _)
  have hcalled := (Config.called_of_run _ _ _).2 _ _ _ hmem
  obtain rfl : k = .runInference (polysRequest n) Cnp.zeroDraws := by
    simpa [polysSchedule] using hcalled
  cases r with
  | inference resp => exact ⟨resp, by simpa [Reply.isOk] using hr, hmem⟩
  | provision => simp [Reply.isOk] at hr
  | canary => simp [Reply.isOk] at hr
  | confirm => simp [Reply.isOk] at hr
  | status => simp [Reply.isOk] at hr
  | transcipher => simp [Reply.isOk] at hr
  | refused => simp [Reply.isOk] at hr

theorem cnp_outSize_le_iff_two_polynomials :
    ∃ resp : InferenceResponse,
      ((), .runInference (polysRequest 2) Cnp.zeroDraws, .inference resp) ∈
        (polysServed 2).served ∧
      ∃ ct out, sizesOnly.load (polysRequest 2).ciphertext = .ok ct ∧
        cnpProduct sizesOnly polysConstants Cnp.zeroDraws ct = .ok out ∧
        resp.resultCiphertext = sizesOnly.save out ∧
        (sizesOnly.saveSize out ≤ CT_BUF ↔ sizesOnlySizes.size ct ≤ 4) := by
  obtain ⟨resp, hok, hserved⟩ := polysServed_ok (by decide +kernel : (polysServed 2).served.map
    (fun answer ↦ answer.2.2.isOk) = [true])
  exact ⟨resp, hserved, cnp_outSize_le_iff sizesOnly polysConstants sizesOnlySizes rfl ()
    (polysSchedule 2) hserved hok⟩

/-- Five polynomials are accepted, scored and saved past the end of the buffer. -/
theorem cnp_outSize_exceeds_buffer :
    ∃ (resp : InferenceResponse) (out : ℕ × ℕ), resp.status = .ok ∧
      ((), .runInference (polysRequest 5) Cnp.zeroDraws, .inference resp) ∈
        (polysServed 5).served ∧
      resp.resultCiphertext = sizesOnly.save out ∧ ¬ sizesOnly.saveSize out ≤ CT_BUF := by
  obtain ⟨resp, hok, hserved⟩ := polysServed_ok (by decide +kernel : (polysServed 5).served.map
    (fun answer ↦ answer.2.2.isOk) = [true])
  obtain ⟨ct, out, hload, hparms, hprod, hsave⟩ :=
    cnp_saved sizesOnly polysConstants rfl () (polysSchedule 5) hserved hok
  refine ⟨resp, out, hok, hserved, hsave, ?_⟩
  obtain ⟨hsize, hlimbs⟩ := sizesOnlySizes.cnpProduct_sizes hparms hprod
  have hfive : ct = (5, 2) := by
    simpa [sizesOnly, polysRequest] using hload.symm
  rw [sizesOnlySizes.saveSize_le_iff hlimbs, hsize, hfive]
  decide

/-- The server that serves them has written behind the buffer of its thread. -/
theorem five_polynomials_not_isolated :
    (new .cnp () : ServerState Unit (ℕ × ℕ) Unit).sm.state = .ready ∧
      (polysServed 5).served.map (fun answer ↦ answer.2.2.isOk) = [true] ∧
      ¬ Isolated sizesOnly polysConstants (new .cnp ()) (polysServed 5) := by
  refine ⟨rfl, by decide +kernel, fun hisolated ↦ ?_⟩
  have hover : (polysServed 5).shared.overran = true := by decide +kernel
  exact absurd (hover.symm.trans hisolated.inBounds) (by simp)

end ServerState
end Ppfdaas
