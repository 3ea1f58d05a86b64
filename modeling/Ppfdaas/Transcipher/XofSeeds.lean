import Ppfdaas.Transcipher.Keystream

/-!
# The seeds of the XOF

What SHAKE256 absorbs for a block: the packed nonce, then eight bytes of block
index, which HERA leaves out for block 0.
-/

namespace Ppfdaas.Transcipher

theorem putUint64BE_injective : Function.Injective putUint64BE := by
  intro v w h
  simp only [putUint64BE, List.cons.injEq, and_true] at h
  obtain ⟨h7, h6, h5, h4, h3, h2, h1, h0⟩ := h
  have b7 := congrArg UInt8.toNat h7
  have b6 := congrArg UInt8.toNat h6
  have b5 := congrArg UInt8.toNat h5
  have b4 := congrArg UInt8.toNat h4
  have b3 := congrArg UInt8.toNat h3
  have b2 := congrArg UInt8.toNat h2
  have b1 := congrArg UInt8.toNat h1
  have b0 := congrArg UInt8.toNat h0
  simp [Nat.shiftRight_eq_div_pow] at b0 b1 b2 b3 b4 b5 b6 b7
  have hv := v.toNat_lt
  have hw := w.toNat_lt
  apply UInt64.toNat_inj.mp
  omega

theorem length_putUint64BE (v : UInt64) : (putUint64BE v).length = 8 := rfl

theorem heraXof_absorbed (nonce : List UInt64) (blockIdx : UInt64) :
    (heraXof nonce blockIdx).absorbed =
      packElems nonce ++ if blockIdx = 0 then [] else putUint64BE blockIdx := by
  by_cases hzero : blockIdx = 0 <;> simp [heraXof, newShake256, ShakeHash.write, hzero]

theorem rubatoXof_absorbed (nonce : List UInt64) (blockIdx : UInt64) :
    (rubatoXof nonce blockIdx).absorbed = packElems nonce ++ putUint64BE blockIdx := rfl

namespace Backend

/-- Sixteen elements of `Z_t`. -/
def IsNonce (b : Backend) (nonce : List UInt64) : Prop :=
  nonce.length = b.NonceSize ∧ ∀ v ∈ nonce, v < b.Modulus

variable {b : Backend} {nonce nonce' : List UInt64}

theorem IsNonce.length_packElems (h : b.IsNonce nonce) : (packElems nonce).length = 64 := by
  rw [packElems, FixedWidth.length_flatMap length_putUint32, h.1]
  rfl

theorem IsNonce.eq_of_packElems (h : b.IsNonce nonce) (h' : b.IsNonce nonce')
    (hpack : packElems nonce = packElems nonce') : nonce = nonce' :=
  packElems_inj (fun v hv ↦ b.Modulus_le (h.2 v hv)) (fun v hv ↦ b.Modulus_le (h'.2 v hv)) hpack

/-- The seed determines the nonce and the block index. -/
theorem xof_inj (h : b.IsNonce nonce) (h' : b.IsNonce nonce') {blockIdx blockIdx' : UInt64}
    (hseed : (b.xof nonce blockIdx).absorbed = (b.xof nonce' blockIdx').absorbed) :
    nonce = nonce' ∧ blockIdx = blockIdx' := by
  have hlength : (packElems nonce).length = (packElems nonce').length := by
    rw [h.length_packElems, h'.length_packElems]
  cases b with
  | hera16 =>
      rw [xof, heraXof_absorbed, heraXof_absorbed] at hseed
      obtain ⟨hpack, hindex⟩ := List.append_inj hseed hlength
      refine ⟨h.eq_of_packElems h' hpack, ?_⟩
      by_cases hzero : blockIdx = 0 <;> by_cases hzero' : blockIdx' = 0
      · rw [hzero, hzero']
      · rw [if_pos hzero, if_neg hzero'] at hindex
        exact absurd (congrArg List.length hindex) (by simp [length_putUint64BE])
      · rw [if_neg hzero, if_pos hzero'] at hindex
        exact absurd (congrArg List.length hindex) (by simp [length_putUint64BE])
      · rw [if_neg hzero, if_neg hzero'] at hindex
        exact putUint64BE_injective hindex
  | rubato128L =>
      rw [xof, rubatoXof_absorbed, rubatoXof_absorbed] at hseed
      obtain ⟨hpack, hindex⟩ := List.append_inj hseed hlength
      exact ⟨h.eq_of_packElems h' hpack, putUint64BE_injective hindex⟩

end Backend

/-! ## Keystream calls that write down their seeds -/

section Seeded

variable {Sampler : Type} (P : Primitives Sampler) (tries : ℕ)

/-- `encryptBlock` from its XOF on. -/
def HERA16.blockFrom (key : HeraState) (xof : ShakeHash) : Go Sampler HeraState := do
  let rks ← (roundKeys P.shake256 tries HeraRounds key HeraModulus).run' xof
  pure (heraRounds rks (Vector.ofFn fun i ↦ UInt64.ofNat (i + 1)))

def Rubato128L.blockFrom (noisy : Bool) (key : RubatoState) (xof : ShakeHash) :
    Go Sampler (Vector UInt64 60) := do
  let rks ← (roundKeys P.shake256 tries RubatoRounds key RubatoModulus).run' xof
  let state ← noiseAGN P noisy (rubatoRounds rks (Vector.ofFn fun i ↦ UInt64.ofNat (i + 1)))
  pure ((rubatoAddRoundKey (rks.get (Fin.last RubatoRounds)) state).take 60)

abbrev Seeds := List (List UInt8)

namespace Backend

def blockFrom (noisy : Bool) : (b : Backend) → (key : Vector UInt64 b.KeySize) →
    (xof : ShakeHash) → Go Sampler (Vector UInt64 b.outputSize)
  | hera16 => HERA16.blockFrom P tries
  | rubato128L => Rubato128L.blockFrom P tries noisy

variable (b : Backend) (noisy : Bool)

theorem encryptBlock_eq_blockFrom (key : Vector UInt64 b.KeySize) (nonce : List UInt64)
    (blockIdx : UInt64) : b.encryptBlock P tries noisy key nonce blockIdx =
      b.blockFrom P tries noisy key (b.xof nonce blockIdx) := by
  cases b <;> rfl

/-- A block, with what its XOF has absorbed written down. -/
def seededBlock (key : Vector UInt64 b.KeySize) (nonce : List UInt64) (blockIdx : UInt64) :
    Go (Sampler × Seeds) (Vector UInt64 b.outputSize) := fun s ↦
  (b.blockFrom P tries noisy key (b.xof nonce blockIdx) s.1).map fun r ↦
    (r.1, r.2, s.2 ++ [(b.xof nonce blockIdx).absorbed])

structure KeystreamCall where
  key : Vector UInt64 b.KeySize
  nonce : List UInt64
  n : ℕ

def seededKeystream (c : b.KeystreamCall) : Go (Sampler × Seeds) (List UInt64) :=
  keystreamLoop (b.seededBlock P tries noisy c.key c.nonce) c.n c.n [] 0

def seededCalls : List b.KeystreamCall → Go (Sampler × Seeds) (List (List UInt64))
  | [] => pure []
  | c :: calls => do
      let ks ← b.seededKeystream P tries noisy c
      let rest ← seededCalls calls
      pure (ks :: rest)

end Backend

/-- What a loop writes down beside its state does not change its result. -/
theorem keystreamLoop_forget {σ τ : Type} {outputSize n : ℕ}
    {f : UInt64 → Go (σ × τ) (Vector UInt64 outputSize)}
    {g : UInt64 → Go σ (Vector UInt64 outputSize)}
    (h : ∀ blockIdx s, (f blockIdx s).map (fun r ↦ (r.1, r.2.1)) = g blockIdx s.1) (passes : ℕ)
    (ks : List UInt64) (blockIdx : UInt64) (s : σ × τ) :
    (keystreamLoop f n passes ks blockIdx s).map (fun r ↦ (r.1, r.2.1)) =
      keystreamLoop g n passes ks blockIdx s.1 := by
  induction passes generalizing ks blockIdx s with
  | zero =>
      rw [keystreamLoop, keystreamLoop]
      by_cases hn : n ≤ ks.length
      · rw [if_pos hn, if_pos hn]
        rfl
      · rw [if_neg hn, if_neg hn]
        rfl
  | succ passes ih =>
      rw [keystreamLoop, keystreamLoop]
      by_cases hn : n ≤ ks.length
      · rw [if_pos hn, if_pos hn]
        rfl
      · rw [if_neg hn, if_neg hn]
        change ((f blockIdx s).bind _).map _ = (g blockIdx s.1).bind _
        rw [← h]
        cases f blockIdx s with
        | error fault => rfl
        | ok r => exact ih _ _ r.2

namespace Backend

variable {P tries} {b : Backend} {noisy : Bool}

theorem seededKeystream_forget (c : b.KeystreamCall) (s : Sampler × Seeds) :
    (b.seededKeystream P tries noisy c s).map (fun r ↦ (r.1, r.2.1)) =
      b.keystream P tries noisy c.key c.nonce c.n s.1 := by
  rw [keystream_eq]
  apply keystreamLoop_forget
  intro blockIdx s
  rw [encryptBlock_eq_blockFrom, seededBlock]
  cases b.blockFrom P tries noisy c.key (b.xof c.nonce blockIdx) s.1 <;> rfl

theorem seeds_samplerAt {key : Vector UInt64 b.KeySize} {nonce : List UInt64}
    {s : Sampler × Seeds} {m : ℕ}
    (h : ∀ i < m, Returns (b.seededBlock P tries noisy key nonce) s i) :
    (samplerAt (b.seededBlock P tries noisy key nonce) s m).2 =
      s.2 ++ (List.range m).map fun i ↦ (b.xof nonce (UInt64.ofNat i)).absorbed := by
  induction m with
  | zero => simp [samplerAt]
  | succ m ih =>
      have hreturns := h m m.lt_succ_self
      have hrest := ih fun i hi ↦ h i (hi.trans m.lt_succ_self)
      rw [Returns, seededBlock] at hreturns
      obtain ⟨r, -, hr⟩ := ExceptRuns.map_ok hreturns
      have hseeds := congrArg (fun p ↦ p.2.2) hr
      simp only [hrest] at hseeds
      rw [← hseeds, List.range_succ, List.map_append, List.append_assoc]
      rfl

theorem seededKeystream_ok {c : b.KeystreamCall} {s : Sampler × Seeds}
    {r : List UInt64 × Sampler × Seeds} (h : b.seededKeystream P tries noisy c s = .ok r) :
    ∃ m, (∀ i < m, i * b.outputSize < c.n) ∧
      r.2.2 = s.2 ++ (List.range m).map fun i ↦ (b.xof c.nonce (UInt64.ofNat i)).absorbed := by
  rw [seededKeystream, ← front_zero (b.seededBlock P tries noisy c.key c.nonce) s c.n] at h
  obtain ⟨hreturns, -, m, hm, hlast⟩ := keystreamLoop_ok (i := 0) b.outputSize_pos h
  have hblocks : ∀ i < m, i * b.outputSize < c.n := fun i hi ↦ hm i i.zero_le hi
  refine ⟨m, hblocks, ?_⟩
  rw [hlast, seeds_samplerAt fun i hi ↦ hreturns i i.zero_le (hblocks i hi)]

/-- The seeds of one call are distinct: its counter does not come round. -/
theorem nodup_seeds {nonce : List UInt64} (hnonce : b.IsNonce nonce) {m n : ℕ}
    (hn : n ≤ 2 ^ 64 * b.outputSize) (hm : ∀ i < m, i * b.outputSize < n) :
    ((List.range m).map fun i ↦ (b.xof nonce (UInt64.ofNat i)).absorbed).Nodup := by
  have hlt : ∀ i < m, i < 2 ^ 64 := fun i hi ↦
    Nat.lt_of_mul_lt_mul_right ((hm i hi).trans_le hn)
  refine List.Nodup.map_on ?_ List.nodup_range
  intro i hi j hj hseed
  have hindex := congrArg UInt64.toNat (xof_inj hnonce hnonce hseed).2
  rwa [UInt64.toNat_ofNat_of_lt' (hlt i (List.mem_range.mp hi)),
    UInt64.toNat_ofNat_of_lt' (hlt j (List.mem_range.mp hj))] at hindex

theorem seededCalls_nodup {calls : List b.KeystreamCall} {s : Sampler × Seeds}
    {r : List (List UInt64) × Sampler × Seeds}
    (hcalls : ∀ c ∈ calls, b.IsNonce c.nonce ∧ c.n ≤ 2 ^ 64 * b.outputSize)
    (hnonces : (calls.map fun c ↦ c.nonce).Nodup) (hseeds : s.2.Nodup)
    (hfresh : ∀ seed ∈ s.2, ∀ c ∈ calls, ∀ blockIdx, seed ≠ (b.xof c.nonce blockIdx).absorbed)
    (h : b.seededCalls P tries noisy calls s = .ok r) : r.2.2.Nodup := by
  induction calls generalizing s r with
  | nil =>
      obtain rfl := Except.ok.inj h
      exact hseeds
  | cons c calls ih =>
      obtain ⟨ks, s₁, hks, h⟩ := Go.bind_ok h
      obtain ⟨rest, s₂, hrest, h⟩ := Go.bind_ok h
      obtain rfl := Except.ok.inj h
      obtain ⟨m, hm, hlog⟩ := seededKeystream_ok hks
      simp only at hlog
      obtain ⟨hnonce, hn⟩ := hcalls c List.mem_cons_self
      obtain ⟨hhead, htail⟩ := List.nodup_cons.mp hnonces
      refine ih (r := (rest, s₂)) (fun c' hc' ↦ hcalls c' (List.mem_cons_of_mem c hc')) htail
        ?_ ?_ hrest
      · rw [hlog]
        refine hseeds.append (nodup_seeds hnonce hn hm) fun seed hseed hnew ↦ ?_
        obtain ⟨i, -, rfl⟩ := List.mem_map.mp hnew
        exact hfresh _ hseed c List.mem_cons_self _ rfl
      · rw [hlog]
        intro seed hseed c' hc' blockIdx
        rcases List.mem_append.mp hseed with hold | hnew
        · exact hfresh seed hold c' (List.mem_cons_of_mem c hc') blockIdx
        · obtain ⟨i, -, rfl⟩ := List.mem_map.mp hnew
          intro hsame
          have hnonce' := (hcalls c' (List.mem_cons_of_mem c hc')).1
          have heq := (xof_inj hnonce hnonce' hsame).1
          exact hhead (List.mem_map.mpr ⟨c', hc', heq.symm⟩)

variable (noisy) in
theorem seededCalls_returns {calls : List b.KeystreamCall}
    (haccept : ∀ c ∈ calls, ∀ blockIdx, Accepting P.shake256 (b.xof c.nonce blockIdx).absorbed) :
    ∃ tries, ∀ more s, ∃ r, b.seededCalls P (tries + more) noisy calls s = .ok r := by
  induction calls with
  | nil => exact ⟨0, fun _ s ↦ ⟨([], s), rfl⟩⟩
  | cons c calls ih =>
      obtain ⟨tries, hks⟩ := keystream_returns noisy c.key
        (haccept c List.mem_cons_self) c.n
      obtain ⟨tries', hrest⟩ := ih fun c' hc' ↦ haccept c' (List.mem_cons_of_mem c hc')
      refine ⟨tries + tries', fun more s ↦ ?_⟩
      obtain ⟨sampler, hc⟩ := hks (tries' + more) s.1
      rw [← seededKeystream_forget, ← Nat.add_assoc] at hc
      obtain ⟨r₁, hr₁, -⟩ := ExceptRuns.map_ok hc
      obtain ⟨r₂, hr₂⟩ := hrest (tries + more) r₁.2
      rw [← Nat.add_assoc, Nat.add_comm tries' tries] at hr₂
      refine ⟨(r₁.1 :: r₂.1, r₂.2), ?_⟩
      change (b.seededKeystream P _ noisy c s).bind _ = _
      rw [hr₁]
      change (b.seededCalls P _ noisy calls r₁.2).bind _ = _
      rw [hr₂]
      rfl

variable (P tries b noisy)

/-- A block is made from its seed and the key alone; different nonces or indices
have different seeds; and calls under different nonces never use one twice. -/
theorem seeds_never_repeat :
    (∀ key nonce blockIdx, b.encryptBlock P tries noisy key nonce blockIdx =
      b.blockFrom P tries noisy key (b.xof nonce blockIdx)) ∧
    (∀ nonce nonce' blockIdx blockIdx', b.IsNonce nonce → b.IsNonce nonce' →
      nonce ≠ nonce' ∨ blockIdx ≠ blockIdx' →
        (b.xof nonce blockIdx).absorbed ≠ (b.xof nonce' blockIdx').absorbed) ∧
    (∀ (c : b.KeystreamCall) (s : Sampler × Seeds),
      (b.seededKeystream P tries noisy c s).map (fun r ↦ (r.1, r.2.1)) =
        b.keystream P tries noisy c.key c.nonce c.n s.1) ∧
    ∀ calls sampler r, (∀ c ∈ calls, b.IsNonce c.nonce ∧ c.n ≤ 2 ^ 64 * b.outputSize) →
      (calls.map fun c ↦ c.nonce).Nodup →
      b.seededCalls P tries noisy calls (sampler, []) = .ok r → r.2.2.Nodup := by
  refine ⟨encryptBlock_eq_blockFrom P tries b noisy, ?_, seededKeystream_forget, ?_⟩
  · rintro nonce nonce' blockIdx blockIdx' h h' hne hseed
    obtain ⟨hnonce, hindex⟩ := xof_inj h h' hseed
    rcases hne with hne | hne
    · exact hne hnonce
    · exact hne hindex
  · intro calls sampler r hcalls hnonces h
    exact seededCalls_nodup hcalls hnonces List.nodup_nil
      (fun seed hseed ↦ absurd hseed List.not_mem_nil) h

/-- A call for 40 elements under the nonce of one value. -/
def constantCall (v : UInt64) : hera16.KeystreamCall :=
  ⟨Vector.replicate 16 0, List.replicate 16 v, 40⟩

theorem isNonce_constant {v : UInt64} (h : v < HeraModulus) :
    hera16.IsNonce (constantCall v).nonce := by
  refine ⟨List.length_replicate, fun u hu ↦ ?_⟩
  obtain rfl := List.eq_of_mem_replicate hu
  exact h

theorem seeds_never_repeat_two_calls : ∃ tries r,
    hera16.seededCalls zeroPrimitives tries false [constantCall 1, constantCall 2] ((), []) =
      .ok r ∧ r.2.2.Nodup := by
  have hcandidate : littleEndian [0, 0, 0, 0 &&& 1] < plainWord := by decide
  have haccept : ∀ c ∈ [constantCall 1, constantCall 2], ∀ blockIdx,
      Accepting zeroPrimitives.shake256 (hera16.xof c.nonce blockIdx).absorbed :=
    fun _ _ _ _ ↦ ⟨0, hcandidate⟩
  obtain ⟨tries, hcalls⟩ := seededCalls_returns false haccept
  obtain ⟨r, hr⟩ := hcalls 0 ((), [])
  refine ⟨_, r, hr, (seeds_never_repeat zeroPrimitives _ hera16 false).2.2.2 _ () r ?_ ?_ hr⟩
  · intro c hc
    rcases List.mem_pair.mp hc with rfl | rfl
    · exact ⟨isNonce_constant (by decide), by decide⟩
    · exact ⟨isNonce_constant (by decide), by decide⟩
  · decide

end Backend

end Seeded

end Ppfdaas.Transcipher
