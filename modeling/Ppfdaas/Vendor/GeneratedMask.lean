import Mathlib.Data.FinEnum
import Ppfdaas.Library.DrawShift
import Ppfdaas.Library.ExceptRuns
import Ppfdaas.Vendor.OutputMask
import Ppfdaas.Vendor.UniformModQ

/-!
# The mask of generated words

`build_output_mask` with the sampler it calls, on the words that the generator
delivers.  The words are permuted so that the response of one model becomes the
response of another, without a word read more or less.
-/

namespace Ppfdaas

open Cnp DrawStream ServerState UniformModQ UniformSampling

namespace Cnp

/-! ## The code on words -/

inductive MaskError
  | stop (reason : Stop)
  | invalid (what : String)

/-- A new sampler on a generator that has been used. -/
def UniformModQ.Sampler.on (g : Prng) (q : UInt64) : Sampler :=
  { Sampler.new g.words q with prng := g }

/-- One limb, the generator after it, and the number of words it has read. -/
def maskLimb (turns : ℕ) (scaled : ℚ) (randomizeNonOutputs : Bool) (g : Prng) (q : ℕ) :
    Except MaskError (Limb × Prng × ℕ) := do
  let (values, g, reads) ←
    if randomizeNonOutputs then do
      let (vs, s) ← (calls turns kN (.on g (UInt64.ofNat q))).mapError .stop
      pure (fun c ↦ (vs.getD c 0).toNat, s.prng, s.reads.length)
    else pure (fun _ ↦ 0, g, 0)
  let outRes ← (residueOf scaled q).mapError .invalid
  return (outputMaskLimb 0 outRes true fun c ↦ values c.val, g, reads)

def maskLimbs (turns : ℕ) (scaled : ℚ) (randomizeNonOutputs : Bool) :
    List ℕ → Prng → Except MaskError (List Limb × ℕ)
  | [], _ => return ([], 0)
  | q :: mods, g => do
      let (limb, g, reads) ← maskLimb turns scaled randomizeNonOutputs g q
      let (limbs, more) ← maskLimbs turns scaled randomizeNonOutputs mods g
      return (limb :: limbs, reads + more)

section Seal

variable {Ct Pt Gk : Type} (S : Seal Ct Pt Gk)

/-- `build_output_mask` from the words of a fresh generator. -/
def buildOutputMaskFrom (pid : ℕ) (scale outputValue : ℚ) (randomizeNonOutputs : Bool)
    (turns : ℕ) (words : ℕ → UInt64) : Except MaskError (Pt × ℕ) :=
  match S.coeffModulus pid with
  | none => throw (.invalid "cnp: unknown parms_id")
  | some mods => do
      let (limbs, reads) ←
        maskLimbs turns (outputValue * scale) randomizeNonOutputs mods ⟨words, 0⟩
      let pt ← (finishNttPlaintext S pid scale limbs).mapError .invalid
      return (pt, reads)

/-- The product and the mask of the CNP branch, from these words. -/
def cnpProductFrom (m : ServiceConstants Pt) (turns : ℕ) (words : ℕ → UInt64) (ct : Ct) :
    Except MaskError (Ct × ℕ) := do
  let ct ← (S.multiplyPlain ct m.ptWrev).mapError .invalid
  let ct ← (S.rescaleToNext ct).mapError .invalid
  let (mask, reads) ← buildOutputMaskFrom S (S.parmsId ct) (S.scale ct)
    (if m.cnpMaskEnabled then m.bias else 0) m.cnpMaskEnabled turns words
  let ct ← (S.addPlain ct mask).mapError .invalid
  return (ct, reads)

end Seal

/-! ## The words that are needed -/

namespace UniformModQ

variable {words : ℕ → UInt64} {q : UInt64} {n turns m : ℕ} {s s' : Sampler}

/-- A call ends with an accepted draw, and the ones before it are rejected. -/
theorem HasRead.next_last (hq : q ≠ 0) (hs : HasRead words q n s) {v : UInt64}
    (h : UniformModQ.next turns s = .ok (v, s')) :
    ∃ k, HasRead words q (k + 1) s' ∧ kept (spec q) words k = kept (spec q) words n ∧
      spec q (words k) = some v.toNat := by
  induction turns generalizing n s with
  | zero => cases h
  | succ turns ih =>
      obtain ⟨s₁, hread, hs₁⟩ := hs.turn
      rw [UniformModQ.next, hread] at h
      simp only [bind, Except.bind, hs₁.bound, hs₁.modulus] at h
      split_ifs at h with haccept
      · obtain ⟨rfl, rfl⟩ := Prod.mk.inj (Except.ok.inj h)
        exact ⟨n, hs₁, rfl, by rw [spec_eq hq, if_pos haccept]⟩
      · obtain ⟨k, hk, hkept, hspec⟩ := ih hs₁ h
        refine ⟨k, hk, hkept.trans (kept_succ_of_none ?_), hspec⟩
        rw [spec_eq hq, if_neg haccept]

theorem HasRead.calls_last (hq : q ≠ 0) (hs : HasRead words q n s) {vs : List UInt64}
    (h : UniformModQ.calls turns (m + 1) s = .ok (vs, s')) :
    ∃ k, HasRead words q (k + 1) s' ∧
      (kept (spec q) words k).length = (kept (spec q) words n).length + m := by
  induction m generalizing n s vs with
  | zero =>
      obtain ⟨⟨v, s₁⟩, hnext, h⟩ := ExceptRuns.bind_ok h
      obtain ⟨k, hk, hkept, -⟩ := hs.next_last hq hnext
      obtain ⟨-, rfl⟩ := Prod.mk.inj (Except.ok.inj h)
      exact ⟨k, hk, by rw [hkept, add_zero]⟩
  | succ m ih =>
      obtain ⟨⟨v, s₁⟩, hnext, h⟩ := ExceptRuns.bind_ok h
      obtain ⟨⟨vs₁, s₂⟩, hcalls, h⟩ := ExceptRuns.bind_ok h
      obtain ⟨-, rfl⟩ := Prod.mk.inj (Except.ok.inj h)
      obtain ⟨k, hk, hkept, hspec⟩ := hs.next_last hq hnext
      obtain ⟨k', hk', hlength⟩ := ih hk hcalls
      refine ⟨k', hk', ?_⟩
      rw [hlength, kept_succ_of_some hspec, hkept, List.length_append, List.length_singleton]
      omega

/-- What `m` calls on a new sampler return, and that they read no word too many. -/
theorem calls_needs (hq : q ≠ 0) {vs : List UInt64}
    (h : calls turns m (.new words q) = .ok (vs, s)) :
    Needs (spec q) words m s.reads.length ∧ vs.length = m ∧
      vs.map UInt64.toNat = kept (spec q) words s.reads.length := by
  obtain ⟨hlength, n, hreads, hvalues⟩ := (returnsAccepted hq words).values h
  have hn : s.reads.length = n := by rw [hreads, length_taken]
  have hkept : (kept (spec q) words n).length = m := by
    rw [← hvalues, List.length_map, hlength]
  rw [hn]
  refine ⟨⟨hkept.ge, fun j hj ↦ ?_⟩, hlength, hvalues⟩
  cases m with
  | zero =>
      obtain ⟨-, rfl⟩ := Prod.mk.inj (Except.ok.inj h)
      exact (hn.symm.trans rfl).le.trans (Nat.zero_le j)
  | succ m =>
      obtain ⟨k, hk, hshort⟩ := (hasRead_new words q).calls_last hq h
      have hnk : n = k + 1 := by rw [← hn, hk.reads, length_taken]
      by_contra hlt
      have hle : (kept (spec q) words j).length ≤ (kept (spec q) words k).length :=
        length_kept_le (by omega)
      rw [hshort, kept_zero, List.length_nil, Nat.zero_add] at hle
      exact absurd (hj.trans hle) (by omega)

theorem calls_of_needs (hq : q ≠ 0) {k : ℕ} (h : Needs (spec q) words m k) (hk : k ≤ turns) :
    ∃ vs s, calls turns m (.new words q) = .ok (vs, s) ∧ s.reads.length = k := by
  obtain ⟨⟨vs, s⟩, hcalls⟩ := (returnsAccepted hq words).returns h.1 hk
  exact ⟨vs, s, hcalls, (calls_needs hq hcalls).1.unique h⟩

end UniformModQ

/-! ## Residues of the words -/

namespace UniformModQ

def wordEquiv : UInt64 ≃ Fin (2 ^ 64) :=
  ⟨UInt64.toFin, UInt64.ofFin, fun _ ↦ rfl, fun _ ↦ rfl⟩

variable {q : ℕ} {words : ℕ → UInt64}

theorem toNat_modulus (hword : q < 2 ^ 64) : (UInt64.ofNat q).toNat = q :=
  UInt64.toNat_ofNat_of_lt' hword

theorem modulus_ne_zero [NeZero q] (hword : q < 2 ^ 64) : UInt64.ofNat q ≠ 0 := by
  intro h
  have hzero := congrArg UInt64.toNat h
  rw [toNat_modulus hword] at hzero
  exact NeZero.ne q hzero

theorem kept_wordResidue (hword : q < 2 ^ 64) (n : ℕ) :
    kept (wordResidue wordEquiv q) words n =
      (kept (spec (UInt64.ofNat q)) words n).map fun (v : ℕ) ↦ (v : ZMod q) := by
  rw [kept, kept, List.map_filterMap]
  refine List.filterMap_congr fun r _ ↦ ?_
  rw [spec, toNat_modulus hword]
  rfl

theorem needs_wordResidue (hword : q < 2 ^ 64) {m k : ℕ} :
    Needs (wordResidue wordEquiv q) words m k ↔ Needs (spec (UInt64.ofNat q)) words m k := by
  simp only [Needs, kept_wordResidue hword, List.length_map]

end UniformModQ

end Cnp

/-! ## What a response shows -/

section Mask

variable {Ct Pt Gk : Type} {S : Seal Ct Pt Gk} {q : ℕ} [NeZero q]

/-- The decrypted response and the number of words read, if the first `n` words are
enough. -/
def observed (D : Decryption S q) (m : ServiceConstants Pt) (query : Ct) {n : ℕ}
    (w : Fin n → UInt64) : Option ((Fin kN → ZMod q) × ℕ) :=
  match cnpProductFrom S m n (Shift.pad 0 w) query with
  | .ok (out, reads) => if reads ≤ n then some (D.phase out, reads) else none
  | .error _ => none

variable {D : Decryption S q} {m m' : ServiceConstants Pt} {query : Ct}
  {phase phase' : Fin kN → ZMod q} {biasRes biasRes' : ℕ} {words : ℕ → UInt64} {turns : ℕ}

/-- On words the code is the one on draws, as far as the words go. -/
theorem cnpProductFrom_ok (h : PreMask D m query phase biasRes) {vs : List UInt64} {s : Sampler}
    (hcalls : calls turns kN (.new words (UInt64.ofNat q)) = .ok (vs, s)) :
    ∃ out, cnpProductFrom S m turns words query = .ok (out, s.reads.length) ∧
      D.phase out = masked IsOutput (fun c ↦ phase c + (biasRes : ZMod q)) phase
        (kept (wordResidue wordEquiv q) words s.reads.length) := by
  have hq := modulus_ne_zero D.word
  obtain ⟨-, hlength, hvalues⟩ := calls_needs hq hcalls
  have hmem : ∀ c : Fin kN, vs.getD c 0 ∈ vs := by
    intro c
    have hc : c.val < vs.length := c.isLt.trans_eq hlength.symm
    rw [List.getD_eq_getElem _ _ hc]
    exact List.getElem_mem hc
  have hdraw : ∀ c : Fin kN, ∃ r : AcceptedDraw q, r.value = (vs.getD c 0).toNat := by
    intro c
    have hdraw := acceptedDraw_of_calls hq hcalls (hmem c)
    rwa [toNat_modulus D.word] at hdraw
  choose draws hdraws using hdraw
  obtain ⟨prod, hprod, hpid, hres, -⟩ := h.product
  obtain ⟨ct, hct, hrescale⟩ := ExceptRuns.bind_ok hprod
  -- The two levels meet in the mask.
  have hlimb : maskLimb turns (m.bias * S.scale prod) true ⟨words, 0⟩ q =
      .ok (outputMaskLimb 0 biasRes true fun c ↦ (draws c).value, s.prng, s.reads.length) := by
    have hon : Sampler.on ⟨words, 0⟩ (UInt64.ofNat q) = .new words (UInt64.ofNat q) := rfl
    simp only [maskLimb, hon, hcalls, hres, hdraws, Except.mapError, bind, Except.bind, pure,
      Except.pure, if_true]
  have hmask : buildOutputMaskFrom S (S.parmsId prod) (S.scale prod) m.bias true turns words =
      (buildOutputMask S (S.parmsId prod) (S.scale prod) m.bias true (limbDraws draws)).mapError
        MaskError.invalid >>= fun pt ↦ .ok (pt, s.reads.length) := by
    rw [buildOutputMask_single S hpid hres draws]
    simp only [buildOutputMaskFrom, hpid, maskLimbs, hlimb, finishNttPlaintext, Except.mapError,
      bind, Except.bind, pure, Except.pure, List.zipWith, add_zero]
  have hproduct : cnpProductFrom S m turns words query =
      ((cnpProduct S m (limbDraws draws) query).mapError MaskError.invalid) >>= fun out ↦
        .ok (out, s.reads.length) := by
    simp only [cnpProductFrom, cnpProduct, h.masked, hct, hrescale, hmask, if_true,
      Except.mapError, bind, Except.bind, pure, Except.pure]
    cases buildOutputMask S (S.parmsId prod) (S.scale prod) m.bias true (limbDraws draws) with
    | error what => rfl
    | ok mask => cases S.addPlain prod mask <;> rfl
  obtain ⟨out, hout, hphase⟩ := ExceptRuns.map_ok (response_eq h draws)
  refine ⟨out, by rw [hproduct, hout]; rfl, hphase.trans (funext fun c ↦ ?_)⟩
  have hvalue : (kept (wordResidue wordEquiv q) words s.reads.length).getD c 0 =
      ((draws c).val : ZMod q) := by
    rw [kept_wordResidue D.word, ← hvalues, List.map_map]
    have hc : c.val < (vs.map fun v ↦ (v.toNat : ZMod q)).length := by
      rw [List.length_map, hlength]
      exact c.isLt
    have hdraw := hdraws c
    rw [List.getD_eq_getElem _ _ (by simpa using hc)] at hdraw
    refine (List.getD_eq_getElem _ _ hc).trans ?_
    rw [List.getElem_map, ← hdraw, AcceptedDraw.value, ZMod.natCast_mod]
  rw [masked, hvalue]
  split_ifs <;> rfl

omit [NeZero q] in
/-- No response without a mask. -/
theorem cnpProductFrom_error (h : PreMask D m query phase biasRes) {reason : Stop}
    (hcalls : calls turns kN (.new words (UInt64.ofNat q)) = .error reason) :
    cnpProductFrom S m turns words query = .error (.stop reason) := by
  obtain ⟨prod, hprod, hpid, -⟩ := h.product
  obtain ⟨ct, hct, hrescale⟩ := ExceptRuns.bind_ok hprod
  have hon : Sampler.on ⟨words, 0⟩ (UInt64.ofNat q) = .new words (UInt64.ofNat q) := rfl
  simp only [cnpProductFrom, buildOutputMaskFrom, maskLimbs, maskLimb, h.masked, hct, hrescale,
    hpid, hon, hcalls, if_true, Except.mapError, bind, Except.bind]

/-- What is observed on `n` words: the response of the residues that were needed. -/
theorem reads_observed (h : PreMask D m query phase biasRes) {n : ℕ} :
    Reads (wordResidue wordEquiv q) 0 kN
      (masked IsOutput (fun c ↦ phase c + (biasRes : ZMod q)) phase)
      (observed (n := n) D m query) := by
  intro w v k
  have hq := modulus_ne_zero D.word
  constructor
  · intro hobserved
    rw [observed] at hobserved
    cases hcalls : calls n kN (.new (Shift.pad 0 w) (UInt64.ofNat q)) with
    | error reason =>
        rw [cnpProductFrom_error h hcalls] at hobserved
        cases hobserved
    | ok r =>
        obtain ⟨vs, s⟩ := r
        obtain ⟨out, hout, hphase⟩ := cnpProductFrom_ok h hcalls
        rw [hout] at hobserved
        simp only at hobserved
        split_ifs at hobserved with hk
        obtain ⟨rfl, rfl⟩ := Prod.mk.inj (Option.some.inj hobserved)
        exact ⟨hk, (needs_wordResidue D.word).mpr (calls_needs hq hcalls).1, hphase⟩
  · rintro ⟨hk, hneeds, rfl⟩
    obtain ⟨vs, s, hcalls, rfl⟩ := calls_of_needs hq ((needs_wordResidue D.word).mp hneeds) hk
    obtain ⟨out, hout, hphase⟩ := cnpProductFrom_ok h hcalls
    rw [observed, hout]
    simp only [hk, if_true, hphase]

/-- Words that are all zero are all accepted. -/
theorem observed_zero (h : PreMask D m query phase biasRes) {n : ℕ} (hn : kN ≤ n) :
    ∃ v, observed D m query (fun _ : Fin n ↦ 0) = some (v, kN) := by
  have hpad : Shift.pad (0 : UInt64) (fun _ : Fin n ↦ 0) = fun _ ↦ 0 := by
    funext j
    rw [Shift.pad]
    split_ifs <;> rfl
  have hzero : wordResidue wordEquiv q 0 = some 0 := by
    have hle : (wordEquiv 0).val ≤ largestKept (2 ^ 64) q := Nat.zero_le _
    rw [wordResidue_eq _ D.word.le, if_pos hle]
    exact congrArg some Nat.cast_zero
  have hlength : ∀ k, (kept (wordResidue wordEquiv q) (fun _ ↦ (0 : UInt64)) k).length = k := by
    intro k
    induction k with
    | zero => rfl
    | succ k ih =>
        simp only [kept_succ, hzero, Option.toList_some, List.length_append, List.length_singleton,
          ih]
  refine ⟨_, (reads_observed h _ _ _).mpr ⟨hn, ?_, rfl⟩⟩
  rw [hpad]
  exact ⟨(hlength kN).ge, fun k hk ↦ hk.trans (hlength k).le⟩

/-- The generated words hide the model: whatever the two models, when they agree at
the outputs, a permutation of the words turns every observation of the one into the
same observation of the other, the number of words read included.  Given that
number, all responses with the same outputs are equally frequent. -/
theorem generated_mask_hides_model (h : PreMask D m query phase biasRes)
    (h' : PreMask D m' query phase' biasRes')
    (hout : ∀ c, IsOutput c → phase c + biasRes = phase' c + biasRes') (n : ℕ) :
    (∃ e : Equiv.Perm (Fin n → UInt64), ∀ w,
      observed D m query w = observed D m' query (e w)) ∧
    (PMF.uniformOfFintype (Fin n → UInt64)).map (observed D m query) =
      (PMF.uniformOfFintype (Fin n → UInt64)).map (observed D m' query) ∧
    ∀ (v v' : Fin kN → ZMod q) (k : ℕ), (∀ c, IsOutput c → v c = v' c) →
      {w : Fin n → UInt64 | observed D m query w = some (v, k)}.ncard =
        {w : Fin n → UInt64 | observed D m query w = some (v', k)}.ncard := by
  have hreads' := reads_observed h' (n := n)
  have hshown : masked IsOutput (fun c ↦ phase' c + (biasRes' : ZMod q)) phase' =
      masked IsOutput (fun c ↦ phase c + (biasRes : ZMod q)) phase' := by
    funext l c
    simp only [masked]
    split_ifs with hc
    · exact (hout c hc).symm
    · rfl
  rw [hshown] at hreads'
  obtain ⟨⟨e, he⟩, hcounts⟩ := (reads_observed h).hides D.word.le hreads'
  exact ⟨⟨e, he⟩, map_uniform_congr e he, hcounts⟩

end Mask

/-- A weight that only shows at coefficient 5, with words for one limb. -/
theorem generated_mask_hides_fifth_coefficient :
    (∃ v, observed exactDecryption (exactModel 0) (Pi.single 0 1) (fun _ : Fin kN ↦ 0) =
      some (v, kN)) ∧
    (PMF.uniformOfFintype (Fin kN → UInt64)).map
        (observed exactDecryption (exactModel 0) (Pi.single 0 1)) =
      (PMF.uniformOfFintype (Fin kN → UInt64)).map
        (observed exactDecryption (exactModel (Pi.single 5 1)) (Pi.single 0 1)) := by
  refine ⟨observed_zero (preMask_exactModel 0) le_rfl, (generated_mask_hides_model
    (preMask_exactModel 0) (preMask_exactModel (Pi.single 5 1)) ?_ kN).2.1⟩
  rintro c ⟨k, _, hk⟩
  have hne : c ≠ 5 := by
    rintro rfl
    have hfive : outputIndex k = 5 := hk
    simp only [outputIndex, kLane] at hfive
    omega
  simp [hne]

end Ppfdaas
