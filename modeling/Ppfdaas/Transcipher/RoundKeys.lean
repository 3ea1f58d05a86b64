import Ppfdaas.Library.ExceptRuns
import Ppfdaas.Transcipher.CipherBackend
import Ppfdaas.Transcipher.WordLayers

/-!
# What the round keys are made of

The samples of `roundKeys` apart from the key, their range, and that the
drawing ends.
-/

namespace Ppfdaas.Transcipher

open CheckedWord

/-! ## Loops that fill a vector -/

theorem ofFnM_map {m : Type → Type} [Monad m] [LawfulMonad m] {α β : Type} {n : ℕ}
    (f : Fin n → m α) (g : Fin n → α → β) :
    Vector.ofFnM (fun i ↦ g i <$> f i) =
      (fun v ↦ Vector.ofFn fun i ↦ g i (v.get i)) <$> Vector.ofFnM f := by
  induction n with
  | zero =>
      rw [Vector.ofFnM_zero, Vector.ofFnM_zero, map_pure]
      exact congrArg pure (Vector.ext fun i hi ↦ absurd hi i.not_lt_zero)
  | succ n ih =>
      have hpush : ∀ (front : Vector α n) (last : α),
          Vector.ofFn (fun i ↦ g i ((front.push last).get i)) =
            (Vector.ofFn fun i ↦ g i.castSucc (front.get i)).push (g (Fin.last n) last) := by
        intro front last
        rw [Vector.ofFn_succ]
        simp only [Vector.get_push_castSucc]
        exact congrArg (Vector.push _) (congrArg (g _) (Vector.get_push_last front last))
      rw [Vector.ofFnM_succ, Vector.ofFnM_succ, ih]
      simp [hpush]

theorem run'_map {α β : Type} (f : α → β) (x : Sampling α) (xof : ShakeHash) :
    (f <$> x).run' xof = (x.run' xof).map f := by
  change Except.map Prod.fst (((f <$> x) : Sampling β) xof) = (Except.map Prod.fst (x xof)).map f
  change Except.map Prod.fst ((x xof).bind fun p ↦ .ok (f p.1, p.2)) = _
  cases x xof <;> rfl

section Draws

variable {α β : Type} {n : ℕ}

/-- Every entry of a filled vector came out of its own call. -/
theorem ofFnM_ok {f : Fin n → Sampling α} {xof : ShakeHash} {v : Vector α n} {xof' : ShakeHash}
    (h : Vector.ofFnM f xof = .ok (v, xof')) (i : Fin n) :
    ∃ xof₁ xof₂, f i xof₁ = .ok (v.get i, xof₂) := by
  induction n generalizing xof' with
  | zero => exact i.elim0
  | succ n ih =>
      rw [Vector.ofFnM_succ] at h
      obtain ⟨front, xof₁, hfront, h⟩ := Go.bind_ok h
      obtain ⟨last, xof₂, hlast, h⟩ := Go.bind_ok h
      obtain ⟨rfl, rfl⟩ := Prod.ext_iff.mp (Except.ok.inj h)
      induction i using Fin.lastCases with
      | last => exact ⟨xof₁, xof₂, by simpa using hlast⟩
      | cast i => simpa using ih hfront i

/-- With enough tries the drawing ends, with the same result for all of them,
and has only read on. -/
def Settles (f : ℕ → Sampling α) (xof : ShakeHash) : Prop :=
  ∃ tries v xof', xof'.absorbed = xof.absorbed ∧ ∀ more, f (tries + more) xof = .ok (v, xof')

theorem Settles.pure (v : α) (xof : ShakeHash) : Settles (fun _ ↦ Pure.pure v) xof :=
  ⟨0, v, xof, rfl, fun _ ↦ rfl⟩

theorem Settles.bind {f : ℕ → Sampling α} {g : ℕ → α → Sampling β} {xof : ShakeHash}
    (hf : Settles f xof)
    (hg : ∀ v xof', xof'.absorbed = xof.absorbed → Settles (fun tries ↦ g tries v) xof') :
    Settles (fun tries ↦ f tries >>= g tries) xof := by
  obtain ⟨tries, v, xof₁, hsame, hf⟩ := hf
  obtain ⟨tries', w, xof₂, hsame', hg⟩ := hg v xof₁ hsame
  refine ⟨tries + tries', w, xof₂, hsame'.trans hsame, fun more ↦ ?_⟩
  have hleft := hf (tries' + more)
  have hright := hg (tries + more)
  rw [← Nat.add_assoc] at hleft
  rw [← Nat.add_assoc, Nat.add_comm tries' tries] at hright
  change (f _ xof).bind _ = _
  rw [hleft]
  exact hright

theorem Settles.map {f : ℕ → Sampling α} {xof : ShakeHash} (hf : Settles f xof) (g : α → β) :
    Settles (fun tries ↦ g <$> f tries) xof := by
  simp only [← bind_pure_comp]
  exact hf.bind fun v xof' _ ↦ Settles.pure (g v) xof'

theorem Settles.ofFnM {f : ℕ → Fin n → Sampling α} {xof : ShakeHash}
    (hf : ∀ i xof', xof'.absorbed = xof.absorbed → Settles (fun tries ↦ f tries i) xof') :
    Settles (fun tries ↦ Vector.ofFnM (f tries)) xof := by
  induction n with
  | zero =>
      simp only [Vector.ofFnM_zero]
      exact Settles.pure _ xof
  | succ n ih =>
      simp only [Vector.ofFnM_succ]
      refine (ih fun i ↦ hf i.castSucc).bind fun front xof₁ hsame ↦ ?_
      exact (hf (Fin.last n) xof₁ hsame).bind fun last xof₂ _ ↦ Settles.pure _ xof₂

end Draws

/-! ## The samples -/

section Samples

variable (shake256 : List UInt8 → ℕ → UInt8) (q : UInt64)

/-- The samples of `roundKeys`, in the order of its loops. -/
def drawSamples (tries numRound blockSize : ℕ) :
    Sampling (Vector (Vector UInt64 blockSize) (numRound + 1)) :=
  Vector.ofFnM fun _ ↦ Vector.ofFnM fun _ ↦ sampleZqx shake256 q tries

def roundKey {n : ℕ} (key samples : Vector UInt64 n) : Vector UInt64 n :=
  Vector.ofFn fun i ↦ samples.get i * key.get i % q

theorem roundKeys_eq (tries numRound : ℕ) {n : ℕ} (key : Vector UInt64 n) :
    roundKeys shake256 tries numRound key q =
      (fun samples ↦ samples.map (roundKey q key)) <$> drawSamples shake256 q tries numRound n := by
  have hrow : (Vector.ofFnM fun i : Fin n ↦ do
      let s ← sampleZqx shake256 q tries
      pure (s * key[i] % q)) =
        roundKey q key <$> Vector.ofFnM fun _ ↦ sampleZqx shake256 q tries := by
    simp only [bind_pure_comp]
    exact ofFnM_map _ fun i s ↦ s * key[i] % q
  have hmap : (fun v : Vector (Vector UInt64 n) (numRound + 1) ↦
      Vector.ofFn fun r ↦ roundKey q key (v.get r)) =
        fun v ↦ v.map (roundKey q key) := by
    funext v
    apply Vector.ext
    intro i hi
    rw [Vector.getElem_ofFn, Vector.getElem_map]
    rfl
  rw [roundKeys, hrow, ofFnM_map _ fun _ ↦ roundKey q key, hmap]
  rfl

theorem sampleZqx_lt {tries : ℕ} {xof xof' : ShakeHash} {s : UInt64}
    (h : sampleZqx shake256 q tries xof = .ok (s, xof')) : s < q := by
  induction tries generalizing xof with
  | zero => exact absurd h nofun
  | succ tries ih =>
      rw [sampleZqx] at h
      obtain ⟨bytes, xof₁, -, h⟩ := Go.bind_ok h
      obtain ⟨masked, xof₂, -, h⟩ := Go.bind_ok h
      by_cases hlt : littleEndian masked < q
      · simp only [hlt, if_true] at h
        obtain ⟨rfl, -⟩ := Prod.ext_iff.mp (Except.ok.inj h)
        exact hlt
      · simp only [hlt, if_false] at h
        exact ih h

theorem drawSamples_lt {tries numRound n : ℕ} {xof xof' : ShakeHash}
    {samples : Vector (Vector UInt64 n) (numRound + 1)}
    (h : drawSamples shake256 q tries numRound n xof = .ok (samples, xof'))
    (r : Fin (numRound + 1)) (i : Fin n) : (samples.get r).get i < q := by
  obtain ⟨xof₁, xof₂, hrow⟩ := ofFnM_ok h r
  obtain ⟨xof₃, xof₄, hentry⟩ := ofFnM_ok hrow i
  exact sampleZqx_lt shake256 q hentry

/-! ## That the drawing ends -/

theorem byteLen_plainWord : byteLen plainWord = 4 := by decide +kernel

theorem topMask_plainWord : topMask plainWord = 1 := by decide +kernel

/-- The candidate that `sampleZqx` reads at a position, 25 bits of four bytes. -/
def candidate (absorbed : List UInt8) (pos : ℕ) : UInt64 :=
  littleEndian [shake256 absorbed pos, shake256 absorbed (pos + 1), shake256 absorbed (pos + 2),
    shake256 absorbed (pos + 3) &&& 1]

/-- From every position on the XOF has a candidate to accept. -/
def Accepting (absorbed : List UInt8) : Prop :=
  ∀ pos, ∃ m, candidate shake256 absorbed (pos + 4 * m) < plainWord

theorem sampleZqx_succ {q : UInt64} (hbytes : byteLen q = 4) (hmask : topMask q = 1) (tries : ℕ)
    (xof : ShakeHash) :
    sampleZqx shake256 q (tries + 1) xof =
      if candidate shake256 xof.absorbed xof.squeezed < q then
        .ok (candidate shake256 xof.absorbed xof.squeezed,
          { xof with squeezed := xof.squeezed + 4 })
      else sampleZqx shake256 q tries { xof with squeezed := xof.squeezed + 4 } := by
  rw [sampleZqx, hbytes, hmask]
  by_cases hlt : candidate shake256 xof.absorbed xof.squeezed < q
  · rw [if_pos hlt]
    simp only [candidate] at hlt
    simp [bind, StateT.bind, Except.bind, readFull, maskTop, liftM, monadLift, MonadLift.monadLift,
      StateT.lift, List.range_succ, hlt, candidate, pure, StateT.pure, Except.pure]
  · rw [if_neg hlt]
    simp only [candidate] at hlt
    simp [bind, StateT.bind, Except.bind, readFull, maskTop, liftM, monadLift, MonadLift.monadLift,
      StateT.lift, List.range_succ, hlt, pure, Except.pure]

theorem sampleZqx_settles {xof : ShakeHash} (haccept : Accepting shake256 xof.absorbed) :
    Settles (sampleZqx shake256 plainWord) xof := by
  have hfirst : ∀ xof : ShakeHash, candidate shake256 xof.absorbed xof.squeezed < plainWord →
      Settles (sampleZqx shake256 plainWord) xof := by
    intro xof hlt
    refine ⟨1, candidate shake256 xof.absorbed xof.squeezed,
      { xof with squeezed := xof.squeezed + 4 }, rfl, fun more ↦ ?_⟩
    rw [Nat.add_comm, sampleZqx_succ shake256 byteLen_plainWord topMask_plainWord, if_pos hlt]
  obtain ⟨m, hm⟩ := haccept xof.squeezed
  induction m generalizing xof with
  | zero => exact hfirst xof hm
  | succ m ih =>
      by_cases hlt : candidate shake256 xof.absorbed xof.squeezed < plainWord
      · exact hfirst xof hlt
      obtain ⟨tries, v, xof', hsame, hv⟩ := @ih { xof with squeezed := xof.squeezed + 4 }
        haccept (by simpa [Nat.mul_succ, Nat.add_assoc, Nat.add_comm] using hm)
      refine ⟨tries + 1, v, xof', hsame, fun more ↦ ?_⟩
      rw [Nat.add_right_comm, sampleZqx_succ shake256 byteLen_plainWord topMask_plainWord,
        if_neg hlt]
      exact hv more

theorem drawSamples_settles (numRound n : ℕ) {xof : ShakeHash}
    (haccept : Accepting shake256 xof.absorbed) :
    Settles (fun tries ↦ drawSamples shake256 plainWord tries numRound n) xof := by
  refine Settles.ofFnM fun r xof₁ hsame₁ ↦ Settles.ofFnM fun i xof₂ hsame₂ ↦ ?_
  apply sampleZqx_settles
  rw [hsame₂, hsame₁]
  exact haccept

theorem roundKeys_returns (numRound : ℕ) {n : ℕ} (key : Vector UInt64 n) {xof : ShakeHash}
    (haccept : Accepting shake256 xof.absorbed) :
    ∃ tries, ∀ more, ∃ rks,
      (roundKeys shake256 (tries + more) numRound key plainWord).run' xof = .ok rks := by
  have hsettles : Settles (fun tries ↦ roundKeys shake256 tries numRound key plainWord) xof := by
    simp only [roundKeys_eq]
    exact (drawSamples_settles shake256 numRound n haccept).map _
  obtain ⟨tries, rks, xof', -, hrun⟩ := hsettles
  exact ⟨tries, fun more ↦ ⟨rks, congrArg (Except.map Prod.fst) (hrun more)⟩⟩

theorem roundKeys_reduced {tries numRound n : ℕ} {key : Vector UInt64 n} {xof : ShakeHash}
    {rks : Vector (Vector UInt64 n) (numRound + 1)}
    (h : (roundKeys shake256 tries numRound key plainWord).run' xof = .ok rks)
    (r : Fin (numRound + 1)) : Reduced (rks.get r) := by
  rw [roundKeys_eq, run'_map] at h
  obtain ⟨samples, -, rfl⟩ := ExceptRuns.map_ok h
  intro i
  rw [Vector.get_map, roundKey, Vector.get_ofFn, UInt64.toNat_mod]
  exact mod_plainModulus_lt _

end Samples

/-! ## Words and field elements -/

namespace Checked

def littleEndian (bytes : List UInt8) : CheckedWord :=
  bytes.zipIdx.foldl (fun res (byte, i) ↦ res + (ofWord byte.toUInt64).shiftLeft (8 * i)) 0

def roundKey {n : ℕ} (key samples : Vector CheckedWord n) : Vector CheckedWord n :=
  Vector.ofFn fun i ↦ samples.get i * key.get i % ofWord plainWord

end Checked

theorem littleEndian_append (bytes : List UInt8) (b : UInt8) :
    littleEndian (bytes ++ [b]) =
      littleEndian bytes + b.toUInt64 <<< UInt64.ofNat (8 * bytes.length) := by
  simp [littleEndian, List.zipIdx_append]

theorem checkedLittleEndian_append (bytes : List UInt8) (b : UInt8) :
    Checked.littleEndian (bytes ++ [b]) =
      Checked.littleEndian bytes + (ofWord b.toUInt64).shiftLeft (8 * bytes.length) := by
  simp [Checked.littleEndian, List.zipIdx_append]

/-- Up to eight bytes are put together without wrapping. -/
theorem littleEndian_tracks {bytes : List UInt8} (h : bytes.length ≤ 8) :
    ∃ m < 256 ^ bytes.length, Tracks (Checked.littleEndian bytes) (littleEndian bytes) m := by
  induction bytes using List.reverseRecOn with
  | nil => exact ⟨0, Nat.one_pos, Tracks.ofNat 0 (by decide)⟩
  | append_singleton bytes b ih =>
      rw [List.length_append, List.length_singleton] at h ⊢
      obtain ⟨m, hm, htracks⟩ := ih (by omega)
      have hb : b.toUInt64.toNat < 256 := by
        rw [UInt8.toNat_toUInt64]
        exact b.toNat_lt
      have hpow : 2 ^ (8 * bytes.length) = 256 ^ bytes.length := pow_mul 2 8 _
      have hshift : b.toUInt64.toNat * 2 ^ (8 * bytes.length) ≤ 255 * 256 ^ bytes.length := by
        rw [hpow]
        exact Nat.mul_le_mul_right _ (by omega)
      have htop : 256 ^ (bytes.length + 1) ≤ 2 ^ 64 := by
        calc 256 ^ (bytes.length + 1) ≤ 256 ^ 8 := Nat.pow_le_pow_right (by decide) h
          _ = 2 ^ 64 := by decide
      rw [pow_succ] at htop ⊢
      refine ⟨m + b.toUInt64.toNat * 2 ^ (8 * bytes.length), by omega, ?_⟩
      rw [littleEndian_append, checkedLittleEndian_append]
      exact htracks.add ((Tracks.word _).shiftLeft (by omega) (by omega)) (by omega)

theorem roundKey_exact {n : ℕ} (key samples : FieldState n) :
    Checked.roundKey (checkedState key.1) (checkedState samples.1) =
        checkedState (roundKey plainWord key.1 samples.1) ∧
      Reduced (roundKey plainWord key.1 samples.1) ∧
      toField (roundKey plainWord key.1 samples.1) = toField samples.1 * toField key.1 := by
  have htracks : ∀ i : Fin n,
      Tracks ((Checked.roundKey (checkedState key.1) (checkedState samples.1)).get i)
        ((roundKey plainWord key.1 samples.1).get i)
        ((samples.1.get i).toNat * (key.1.get i).toNat % plainModulus) := by
    intro i
    rw [Checked.roundKey, roundKey, Vector.get_ofFn, Vector.get_ofFn]
    exact mulMod_tracks (checkedState_tracks samples.1 i) (checkedState_tracks key.1 i)
      (samples.2 i) (key.2 i)
  refine ⟨?_, ?_, ?_⟩
  · apply Vector.ext
    intro i hi
    exact (htracks ⟨i, hi⟩).checked.trans (checkedState_tracks _ ⟨i, hi⟩).checked.symm
  · intro i
    rw [(htracks i).value]
    exact mod_plainModulus_lt _
  · funext i
    rw [toField, (htracks i).value, cast_mod_plainModulus, Nat.cast_mul]
    rfl

end Ppfdaas.Transcipher
