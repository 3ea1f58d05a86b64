import Ppfdaas.Transcipher.Keystream

/-!
# Opening what `Encrypt` returns

The repository has no decryptor.  A receiver opens the AES-GCM envelope under
its first twelve bytes, reads the words and takes the noise-free keystream off.
-/

namespace Ppfdaas.Transcipher

/-! ## The serialised words -/

def readWords (raw : List UInt8) : List UInt64 :=
  (List.range (raw.length / 4)).map fun i ↦ littleEndian ((raw.drop (4 * i)).take 4)

theorem littleEndian_putUint32 (v : UInt32) : littleEndian (putUint32 v) = v.toUInt64 := by
  apply UInt64.toNat_inj.mp
  have hv := v.toNat_lt
  simp [littleEndian, putUint32, Nat.shiftRight_eq_div_pow]
  omega

theorem readWords_flatMap {l : List UInt64} (h : ∀ v ∈ l, v.toNat < 2 ^ 32) :
    readWords (l.flatMap fun v ↦ putUint32 v.toUInt32) = l := by
  apply List.ext_getElem
  · rw [readWords, List.length_map, List.length_range,
      FixedWidth.length_flatMap length_putUint32, Nat.mul_div_cancel_left _ (by decide)]
  · intro i hi hi'
    have hword : l[i].toUInt32.toUInt64 = l[i] := by
      apply UInt64.toNat_inj.mp
      have hlt := h l[i] (List.getElem_mem hi')
      simp only [UInt32.toNat_toUInt64, UInt64.toNat_toUInt32]
      omega
    have hsplit : l.drop i = l[i] :: l.drop (i + 1) := List.drop_eq_getElem_cons hi'
    have hcode : (((l.flatMap fun v ↦ putUint32 v.toUInt32).drop (4 * i)).take 4) =
        putUint32 l[i].toUInt32 := by
      rw [FixedWidth.drop_flatMap length_putUint32, hsplit, List.flatMap_cons,
        List.take_left' (length_putUint32 l[i])]
    simp only [readWords, List.getElem_map, List.getElem_range]
    rw [hcode, littleEndian_putUint32, hword]

/-! ## Masks and noise -/

open CheckedWord

theorem mask_toNat {p k : UInt64} (hp : p.toNat < plainModulus) (hk : k.toNat < plainModulus) :
    ((p + k) % plainWord).toNat = (p.toNat + k.toNat) % plainModulus :=
  (addMod_tracks (Tracks.word p) (Tracks.word k) hp hk).value

theorem unmask_toNat {c k : UInt64} (hc : c.toNat < plainModulus) (hk : k.toNat < plainModulus) :
    ((c + (plainWord - k)) % plainWord).toNat =
      (c.toNat + (plainModulus - k.toNat)) % plainModulus := by
  have hsub : (plainWord - k).toNat = plainModulus - k.toNat :=
    UInt64.toNat_sub_of_le _ _ (UInt64.le_iff_toNat_le.mpr hk.le)
  have hsum : (c + (plainWord - k)).toNat = c.toNat + (plainModulus - k.toNat) := by
    rw [UInt64.toNat_add, hsub, Nat.mod_eq_of_lt]
    simp only [plainModulus] at hc ⊢
    omega
  rw [UInt64.toNat_mod, hsum]
  rfl

/-- `a` is `b` with the noise `d`, modulo `t`. -/
def NoisyOf (d : ℤ) (a b : UInt64) : Prop :=
  b.toNat < plainModulus ∧ (a.toNat : ℤ) = (b.toNat + d) % plainModulus

theorem NoisyOf.lt {d : ℤ} {a b : UInt64} (h : NoisyOf d a b) : a.toNat < plainModulus := by
  have hlt : (a.toNat : ℤ) < plainModulus := by
    rw [h.2]
    exact Int.emod_lt_of_pos _ (by decide)
  exact_mod_cast hlt

theorem NoisyOf.refl {a : UInt64} (h : a.toNat < plainModulus) : NoisyOf 0 a a := by
  refine ⟨h, ?_⟩
  rw [add_zero, Int.emod_eq_of_lt (Int.natCast_nonneg _) (by exact_mod_cast h)]

theorem NoisyOf.eq {a b : UInt64} (h : NoisyOf 0 a b) : a = b := by
  have hvalue := h.2
  rw [add_zero, Int.emod_eq_of_lt (Int.natCast_nonneg _) (by exact_mod_cast h.1)] at hvalue
  exact UInt64.toNat_inj.mp (by exact_mod_cast hvalue)

theorem NoisyOf.add {d : ℤ} {a b k : UInt64} (h : NoisyOf d a b) (hk : k.toNat < plainModulus) :
    NoisyOf d ((a + k) % plainWord) ((b + k) % plainWord) := by
  refine ⟨?_, ?_⟩
  · rw [mask_toNat h.1 hk]
    exact mod_plainModulus_lt _
  · rw [mask_toNat h.lt hk, mask_toNat h.1 hk]
    push_cast
    rw [h.2, Int.emod_add_emod, Int.emod_add_emod, add_right_comm]

/-- Masked with the noisy element and unmasked with the other, a plaintext
element keeps the noise. -/
theorem NoisyOf.unmask {d : ℤ} {p a b : UInt64} (h : NoisyOf d a b)
    (hp : p.toNat < plainModulus) :
    NoisyOf d (((p + a) % plainWord + (plainWord - b)) % plainWord) p := by
  have hmask := mask_toNat hp h.lt
  have hc : ((p + a) % plainWord).toNat < plainModulus := by
    rw [hmask]
    exact mod_plainModulus_lt _
  refine ⟨hp, ?_⟩
  rw [unmask_toNat hc h.1, hmask]
  push_cast [Nat.cast_sub h.1.le]
  rw [h.2, Int.emod_add_emod]
  calc ((p.toNat : ℤ) + (b.toNat + d) % plainModulus + (plainModulus - b.toNat)) % plainModulus
      = (p.toNat + (b.toNat + d) + (plainModulus - b.toNat)) % plainModulus :=
        ((Int.mod_modEq _ _).add_left _).add_right _
    _ = (p.toNat + d + plainModulus) % plainModulus := by
        congr 1
        ring
    _ = (p.toNat + d) % plainModulus := Int.add_emod_right _ _

/-! ## Blocks with and without noise -/

/-- Documented of `AGN` at the bound `int(6 * sigma) = 9`: an integer of at most
that size is added to every element but the last four, modulo `t`. -/
structure AddsNoise {Sampler : Type} (P : Primitives Sampler) (noise : Sampler → ℕ → ℤ) :
    Prop where
  bounded : ∀ sampler k, |noise sampler k| ≤ 9
  adds : ∀ (state : RubatoState) sampler, Reduced state → ∀ i : Fin 64, i < 60 →
    NoisyOf (noise sampler i) ((P.agn state sampler).1.get i) (state.get i)

section Blocks

variable {Sampler : Type} {P : Primitives Sampler} {tries : ℕ} {nonce : List UInt64}
  {blockIdx : UInt64} {sampler : Sampler}

theorem HERA16.encryptBlock_ok {key : HeraState} {r : HeraState × Sampler}
    (h : HERA16.encryptBlock P tries key nonce blockIdx sampler = .ok r) :
    ∃ rks, (roundKeys P.shake256 tries HeraRounds key HeraModulus).run' (heraXof nonce blockIdx) =
      .ok rks ∧ r.1 = heraRounds rks (Vector.ofFn fun i ↦ UInt64.ofNat (i + 1)) := by
  cases hrks : (roundKeys P.shake256 tries HeraRounds key HeraModulus).run'
      (heraXof nonce blockIdx) with
  | error fault =>
      rw [HERA16.encryptBlock, hrks] at h
      cases h
  | ok rks =>
      rw [HERA16.encryptBlock_of_keys hrks] at h
      obtain rfl := Except.ok.inj h
      exact ⟨rks, rfl, rfl⟩

theorem Rubato128L.encryptBlock_ok {noisy : Bool} {key : RubatoState}
    {r : Vector UInt64 60 × Sampler}
    (h : Rubato128L.encryptBlock P tries noisy key nonce blockIdx sampler = .ok r) :
    ∃ rks, (roundKeys P.shake256 tries RubatoRounds key RubatoModulus).run'
      (rubatoXof nonce blockIdx) = .ok rks ∧
        r.1 = (rubatoAddRoundKey (rks.get (Fin.last RubatoRounds)) (noisyState P noisy
          (rubatoRounds rks (Vector.ofFn fun i ↦ UInt64.ofNat (i + 1))) sampler).1).take 60 := by
  cases hrks : (roundKeys P.shake256 tries RubatoRounds key RubatoModulus).run'
      (rubatoXof nonce blockIdx) with
  | error fault =>
      rw [Rubato128L.encryptBlock, hrks] at h
      cases h
  | ok rks =>
      rw [Rubato128L.encryptBlock_of_keys hrks] at h
      obtain rfl := Except.ok.inj h
      exact ⟨rks, rfl, rfl⟩

theorem heraAddRoundKey_reduced (rk state : HeraState) : Reduced (heraAddRoundKey rk state) := by
  intro i
  have hget : (heraAddRoundKey rk state).get i = (state.get i + rk.get i) % HeraModulus :=
    Vector.getElem_zipWith i.isLt
  rw [hget, UInt64.toNat_mod]
  exact mod_plainModulus_lt _

theorem rubatoLinLayer64_reduced (state : RubatoState) : Reduced (rubatoLinLayer64 state) := by
  intro i
  rw [rubatoLinLayer64, Vector.get_ofFn, rubatoTaps, UInt64.toNat_mod]
  exact mod_plainModulus_lt _

theorem getD_toList {α : Type} {n k : ℕ} (v : Vector α n) (hk : k < n) (d : α) :
    v.toList.getD k d = v.get ⟨k, hk⟩ := by
  simp [Vector.get_eq_getElem, hk]

theorem HERA16.encryptBlock_noise {key : HeraState} {sampler₀ : Sampler}
    {r r₀ : HeraState × Sampler}
    (h : HERA16.encryptBlock P tries key nonce blockIdx sampler = .ok r)
    (h₀ : HERA16.encryptBlock P tries key nonce blockIdx sampler₀ = .ok r₀) {k : ℕ} (hk : k < 16) :
    NoisyOf 0 (r.1.toList.getD k 0) (r₀.1.toList.getD k 0) := by
  obtain ⟨rks, hrks, hr⟩ := HERA16.encryptBlock_ok h
  obtain ⟨rks₀, hrks₀, hr₀⟩ := HERA16.encryptBlock_ok h₀
  obtain rfl := Except.ok.inj (hrks.symm.trans hrks₀)
  rw [hr, hr₀, getD_toList _ hk]
  exact NoisyOf.refl (heraAddRoundKey_reduced _ _ _)

theorem rubatoBlock_getD (rk state : RubatoState) {k : ℕ} (hk : k < 60) (hk64 : k < 64) :
    ((rubatoAddRoundKey rk state).take 60).toList.getD k 0 =
      (state.get ⟨k, hk64⟩ + rk.get ⟨k, hk64⟩) % RubatoModulus := by
  rw [getD_toList (n := min 60 64) _ hk, Vector.get_eq_getElem, Vector.getElem_take]
  exact Vector.getElem_zipWith hk64

theorem Rubato128L.encryptBlock_noise {noise : Sampler → ℕ → ℤ} (hagn : AddsNoise P noise)
    {key : RubatoState} {sampler₀ : Sampler} {r r₀ : Vector UInt64 60 × Sampler}
    (h : Rubato128L.encryptBlock P tries true key nonce blockIdx sampler = .ok r)
    (h₀ : Rubato128L.encryptBlock P tries false key nonce blockIdx sampler₀ = .ok r₀) {k : ℕ}
    (hk : k < 60) : NoisyOf (noise sampler k) (r.1.toList.getD k 0) (r₀.1.toList.getD k 0) := by
  obtain ⟨rks, hrks, hr⟩ := Rubato128L.encryptBlock_ok h
  obtain ⟨rks₀, hrks₀, hr₀⟩ := Rubato128L.encryptBlock_ok h₀
  obtain rfl := Except.ok.inj (hrks.symm.trans hrks₀)
  have hstate : Reduced (rubatoRounds rks (Vector.ofFn fun i ↦ UInt64.ofNat (i + 1))) :=
    rubatoLinLayer64_reduced _
  have hk64 : k < 64 := hk.trans (by decide)
  rw [hr, hr₀, rubatoBlock_getD _ _ hk hk64, rubatoBlock_getD _ _ hk hk64]
  exact (hagn.adds _ sampler hstate _ hk).add (roundKeys_reduced P.shake256 hrks _ _)

namespace Backend

/-- The noise in element `k` of a block: HERA has none. -/
def noiseIn (noise : Sampler → ℕ → ℤ) : Backend → Sampler → ℕ → ℤ
  | hera16 => fun _ _ ↦ 0
  | rubato128L => noise

variable {b : Backend} {key : Vector UInt64 b.KeySize}

/-- The rejection sampling does not depend on the noise. -/
theorem encryptBlock_quiet {r : Vector UInt64 b.outputSize × Sampler}
    (h : b.encryptBlock P tries true key nonce blockIdx sampler = .ok r) (sampler₀ : Sampler) :
    ∃ r₀, b.encryptBlock P tries false key nonce blockIdx sampler₀ = .ok r₀ := by
  cases b with
  | hera16 =>
      obtain ⟨rks, hrks, -⟩ := HERA16.encryptBlock_ok h
      exact ⟨_, HERA16.encryptBlock_of_keys hrks sampler₀⟩
  | rubato128L =>
      obtain ⟨rks, hrks, -⟩ := Rubato128L.encryptBlock_ok h
      exact ⟨_, Rubato128L.encryptBlock_of_keys hrks sampler₀⟩

theorem encryptBlock_noise {noise : Sampler → ℕ → ℤ} (hagn : AddsNoise P noise)
    {sampler₀ : Sampler} {r r₀ : Vector UInt64 b.outputSize × Sampler}
    (h : b.encryptBlock P tries true key nonce blockIdx sampler = .ok r)
    (h₀ : b.encryptBlock P tries false key nonce blockIdx sampler₀ = .ok r₀) {k : ℕ}
    (hk : k < b.outputSize) :
    NoisyOf (b.noiseIn noise sampler k) (r.1.toList.getD k 0) (r₀.1.toList.getD k 0) := by
  cases b with
  | hera16 => exact HERA16.encryptBlock_noise h h₀ hk
  | rubato128L => exact Rubato128L.encryptBlock_noise hagn h h₀ hk

/-- The noise in element `j` of a keystream. -/
def noiseAt (noise : Sampler → ℕ → ℤ) (b : Backend)
    (f : UInt64 → Go Sampler (Vector UInt64 b.outputSize)) (sampler : Sampler) (j : ℕ) : ℤ :=
  b.noiseIn noise (samplerAt f sampler (j / b.outputSize)) (j % b.outputSize)

theorem noiseAt_le {noise : Sampler → ℕ → ℤ} (hagn : AddsNoise P noise) (b : Backend)
    (f : UInt64 → Go Sampler (Vector UInt64 b.outputSize)) (j : ℕ) :
    |b.noiseAt noise f sampler j| ≤ 9 := by
  cases b with
  | hera16 =>
      change |(0 : ℤ)| ≤ 9
      decide
  | rubato128L => exact hagn.bounded _ _

theorem elementAt_noise {noise : Sampler → ℕ → ℤ} (hagn : AddsNoise P noise) {sampler₀ : Sampler}
    {n : ℕ}
    (h : ∀ i, i * b.outputSize < n → Returns (b.encryptBlock P tries true key nonce) sampler i)
    (h₀ : ∀ i, i * b.outputSize < n →
      Returns (b.encryptBlock P tries false key nonce) sampler₀ i) {j : ℕ} (hj : j < n) :
    NoisyOf (b.noiseAt noise (b.encryptBlock P tries true key nonce) sampler j)
      (elementAt (b.encryptBlock P tries true key nonce) sampler j)
      (elementAt (b.encryptBlock P tries false key nonce) sampler₀ j) := by
  have hblock : j / b.outputSize * b.outputSize < n := (Nat.div_mul_le_self j _).trans_lt hj
  exact encryptBlock_noise hagn (h _ hblock) (h₀ _ hblock) (Nat.mod_lt j b.outputSize_pos)

theorem returns_quiet {n : ℕ}
    (h : ∀ i, i * b.outputSize < n → Returns (b.encryptBlock P tries true key nonce) sampler i)
    (sampler₀ : Sampler) :
    ∀ i, i * b.outputSize < n →
      Returns (b.encryptBlock P tries false key nonce) sampler₀ i := by
  intro i hi
  obtain ⟨r₀, hr₀⟩ := encryptBlock_quiet (h i hi) (samplerAt _ sampler₀ i)
  exact (returns_of_ok hr₀).1

/-! ## The envelope -/

def OnlineCiphertextBytes : Backend → (n : ℕ) → ℕ
  | hera16 => fun n ↦ n * 4 + 28
  | rubato128L => fun n ↦ n * 4 + 28

theorem sealing_eq (key nonce plaintext : List UInt64) :
    b.sealing P tries key nonce plaintext = Transcipher.sealing b.KeySize 16 plainWord
      (b.keystream P tries true) (b.aeadKey P) key nonce plaintext := by
  cases b <;> rfl

end Backend

def rawBytes (plaintext ks : List UInt64) : List UInt8 :=
  (List.zipWith (fun p k ↦ (p + k) % plainWord) plaintext ks).flatMap fun v ↦ putUint32 v.toUInt32

theorem sealing_of_keys {keyElems : ℕ} (key : Vector UInt64 keyElems) (hnonce : nonce.length = 16)
    (keystream : Vector UInt64 keyElems → List UInt64 → ℕ → Go Sampler (List UInt64))
    (aeadKey : List UInt64 → List UInt8) (haes : (aeadKey key.toList).length = 16)
    (plaintext : List UInt64) :
    Transcipher.sealing keyElems 16 plainWord keystream aeadKey key.toList nonce plaintext sampler =
      (keystream key nonce plaintext.length sampler).map fun r ↦
        (⟨aeadKey key.toList, (packElems nonce).take 12, rawBytes plaintext r.1⟩, r.2) := by
  have hcipher : (newCipher (aeadKey key.toList) : Go Sampler Unit) = pure () :=
    if_pos (Or.inl haes)
  rw [Transcipher.sealing, dif_pos Vector.length_toList, if_pos hnonce]
  simp only [hcipher]
  change (keystream key nonce plaintext.length sampler).bind _ = _
  cases keystream key nonce plaintext.length sampler <;> rfl

theorem length_rawBytes {plaintext ks : List UInt64} (h : ks.length = plaintext.length) :
    (rawBytes plaintext ks).length = 4 * plaintext.length := by
  rw [rawBytes, FixedWidth.length_flatMap length_putUint32, List.length_zipWith, h, min_self]

theorem readWords_rawBytes (plaintext ks : List UInt64) : readWords (rawBytes plaintext ks) =
    List.zipWith (fun p k ↦ (p + k) % plainWord) plaintext ks := by
  apply readWords_flatMap
  intro v hv
  obtain ⟨i, hi, rfl⟩ := List.getElem_of_mem hv
  rw [List.getElem_zipWith, UInt64.toNat_mod]
  exact (mod_plainModulus_lt _).trans (by decide)

/-- The receiver, who has the AES key and a keystream of its own. -/
def recover (gcmOpen : (aesKey gcmNonce ciphertext : List UInt8) → Option (List UInt8))
    (aesKey : List UInt8) (out ks : List UInt64) : Option (List UInt64) :=
  let bytes := out.map UInt64.toUInt8
  (gcmOpen aesKey (bytes.take 12) (bytes.drop 12)).map fun raw ↦
    List.zipWith (fun c k ↦ (c + (plainWord - k)) % plainWord) (readWords raw) ks

namespace Backend

variable {b : Backend} {key : Vector UInt64 b.KeySize}

theorem Encrypt_eq (hnonce : nonce.length = 16) (plaintext : List UInt64) :
    b.Encrypt P tries key.toList nonce plaintext sampler =
      (b.keystream P tries true key nonce plaintext.length sampler).map fun r ↦
        (Sealing.output P ⟨b.aeadKey P key.toList, (packElems nonce).take 12,
          rawBytes plaintext r.1⟩, r.2) := by
  have haes : (b.aeadKey P key.toList).length = 16 := by
    cases b <;> exact List.length_take_of_le (by rw [Vector.length_toList]; decide)
  have hencrypt : b.Encrypt P tries key.toList nonce plaintext =
      b.sealing P tries key.toList nonce plaintext >>= fun s ↦ pure (s.output P) := by
    cases b <;> rfl
  rw [hencrypt, sealing_eq]
  change (Transcipher.sealing _ _ _ _ _ _ _ _ sampler).bind _ = _
  rw [sealing_of_keys key hnonce _ _ haes]
  cases b.keystream P tries true key nonce plaintext.length sampler <;> rfl

end Backend

theorem length_gcmNonce (hnonce : nonce.length = 16) : ((packElems nonce).take 12).length = 12 := by
  apply List.length_take_of_le
  rw [packElems, FixedWidth.length_flatMap length_putUint32, hnonce]
  decide

theorem recover_output {s : Sealing} (hgcm : s.gcmNonce.length = 12)
    {gcmOpen : (aesKey gcmNonce ciphertext : List UInt8) → Option (List UInt8)}
    (hopen : ∀ aesKey gcmNonce plaintext,
      gcmOpen aesKey gcmNonce (P.gcmSeal aesKey gcmNonce plaintext) = some plaintext)
    (ks : List UInt64) : recover gcmOpen s.aesKey (s.output P) ks =
      some (List.zipWith (fun c k ↦ (c + (plainWord - k)) % plainWord) (readWords s.raw) ks) := by
  have hbytes : (s.output P).map UInt64.toUInt8 =
      s.gcmNonce ++ P.gcmSeal s.aesKey s.gcmNonce s.raw := by
    rw [Sealing.output, List.map_map]
    exact List.map_id'' UInt8.toUInt8_toUInt64 _
  simp only [recover, hbytes, List.take_left' hgcm, List.drop_left' hgcm, hopen, Option.map_some]

theorem length_elements {outputSize n : ℕ} (f : UInt64 → Go Sampler (Vector UInt64 outputSize))
    (sampler : Sampler) : (elements f sampler n).length = n := by
  rw [elements, List.length_map, List.length_range]

/-- Masked with one keystream and unmasked with another one, a plaintext keeps
their difference. -/
theorem unmask_elements {outputSize : ℕ} {f g : UInt64 → Go Sampler (Vector UInt64 outputSize)}
    {sampler₀ : Sampler} {d : ℕ → ℤ} {plaintext : List UInt64}
    (hplain : ∀ p ∈ plaintext, p.toNat < plainModulus)
    (hnoise : ∀ j < plaintext.length, NoisyOf (d j) (elementAt f sampler j)
      (elementAt g sampler₀ j)) :
    let opened := List.zipWith (fun c k ↦ (c + (plainWord - k)) % plainWord)
      (List.zipWith (fun p k ↦ (p + k) % plainWord) plaintext
        (elements f sampler plaintext.length)) (elements g sampler₀ plaintext.length)
    opened.length = plaintext.length ∧
      ∀ j < plaintext.length, NoisyOf (d j) (opened.getD j 0) (plaintext.getD j 0) := by
  refine ⟨by simp [elements], fun j hj ↦ ?_⟩
  have hunmask := (hnoise j hj).unmask (hplain _ (List.getElem_mem hj))
  simpa [elements, hj] using hunmask

theorem eq_of_noisyOf_zero {opened plaintext : List UInt64}
    (hlength : opened.length = plaintext.length)
    (h : ∀ j < plaintext.length, NoisyOf 0 (opened.getD j 0) (plaintext.getD j 0)) :
    opened = plaintext := by
  apply List.ext_getElem hlength
  intro j hj hj'
  have heq := (h j hj').eq
  rwa [List.getD_eq_getElem _ _ hj, List.getD_eq_getElem _ _ hj'] at heq

namespace Backend

variable {b : Backend} {key : Vector UInt64 b.KeySize}

/-- The keystream ends, with element `j` from block `j / B`, and prefixes for
shorter lengths; `Encrypt` ends in bytes, as many as announced, and what they
open to under the noise-free keystream is the plaintext with the noise of the
sampler on it, that is the plaintext itself for HERA. -/
theorem envelope_opens (b : Backend) (key : Vector UInt64 b.KeySize) (hnonce : nonce.length = 16)
    (haccept : ∀ blockIdx, Accepting P.shake256 (b.xof nonce blockIdx).absorbed)
    {noise : Sampler → ℕ → ℤ} (hagn : AddsNoise P noise)
    (hseal : ∀ aesKey gcmNonce plaintext,
      (P.gcmSeal aesKey gcmNonce plaintext).length = plaintext.length + 16)
    {gcmOpen : (aesKey gcmNonce ciphertext : List UInt8) → Option (List UInt8)}
    (hopen : ∀ aesKey gcmNonce plaintext,
      gcmOpen aesKey gcmNonce (P.gcmSeal aesKey gcmNonce plaintext) = some plaintext) :
    let blocks (tries : ℕ) (noisy : Bool) := b.encryptBlock P tries noisy key nonce
    let keystream (tries : ℕ) (noisy : Bool) := b.keystream P tries noisy key nonce
    (∀ noisy n, ∃ tries, ∀ more sampler, ∃ r, keystream (tries + more) noisy n sampler = .ok r) ∧
    (∀ tries noisy n sampler r, keystream tries noisy n sampler = .ok r → r.1.length = n ∧
      ∀ j < n, ∃ blk sampler', blocks tries noisy (UInt64.ofNat (j / b.outputSize))
        (samplerAt (blocks tries noisy) sampler (j / b.outputSize)) = .ok (blk, sampler') ∧
          r.1[j]? = blk[j % b.outputSize]?) ∧
    (∀ tries noisy m n sampler r r', m ≤ n → keystream tries noisy m sampler = .ok r →
      keystream tries noisy n sampler = .ok r' → r.1 = r'.1.take m) ∧
    (∀ plaintext, ∃ tries, ∀ more sampler, ∃ r,
      b.Encrypt P (tries + more) key.toList nonce plaintext sampler = .ok r) ∧
    ∀ tries plaintext sampler out sampler', (∀ p ∈ plaintext, p.toNat < plainModulus) →
      b.Encrypt P tries key.toList nonce plaintext sampler = .ok (out, sampler') →
      out.length = b.OnlineCiphertextBytes plaintext.length ∧ (∀ v ∈ out, v.toNat < 256) ∧
      ∀ sampler₀, ∃ r₀ opened, keystream tries false plaintext.length sampler₀ = .ok r₀ ∧
        recover gcmOpen (b.aeadKey P key.toList) out r₀.1 = some opened ∧
        opened.length = plaintext.length ∧
        (∀ j < plaintext.length, |b.noiseAt noise (blocks tries true) sampler j| ≤ 9 ∧
          NoisyOf (b.noiseAt noise (blocks tries true) sampler j) (opened.getD j 0)
            (plaintext.getD j 0)) ∧
        (b = hera16 → opened = plaintext) := by
  intro blocks keystream
  refine ⟨?_, ?_, ?_, ?_, ?_⟩
  · intro noisy n
    obtain ⟨tries, htries⟩ := keystream_returns noisy key haccept n
    refine ⟨tries, fun more sampler ↦ ?_⟩
    obtain ⟨sampler', hks⟩ := htries more sampler
    exact ⟨_, hks⟩
  · intro tries noisy n sampler r hks
    obtain ⟨hreturns, helements⟩ := keystream_ok hks
    rw [helements]
    refine ⟨length_elements _ _, fun j hj ↦ ?_⟩
    have hblock := hreturns (j / b.outputSize) ((Nat.div_mul_le_self j _).trans_lt hj)
    have hrow : j % b.outputSize < b.outputSize := Nat.mod_lt j b.outputSize_pos
    refine ⟨_, _, hblock, ?_⟩
    simp [elements, elementAt, hj, hrow]
  · intro tries noisy m n sampler r r' hle hm hn
    rw [(keystream_ok hm).2, (keystream_ok hn).2, elements_take hle]
  · intro plaintext
    obtain ⟨tries, htries⟩ := keystream_returns true key haccept plaintext.length
    refine ⟨tries, fun more sampler ↦ ?_⟩
    obtain ⟨sampler', hks⟩ := htries more sampler
    rw [Encrypt_eq hnonce, hks]
    exact ⟨_, rfl⟩
  · intro tries plaintext sampler out sampler' hplain hout
    rw [Encrypt_eq hnonce] at hout
    obtain ⟨r, hks, hr⟩ := ExceptRuns.map_ok hout
    obtain ⟨rfl, -⟩ := Prod.ext_iff.mp hr
    obtain ⟨hreturns, helements⟩ := keystream_ok hks
    rw [helements]
    have hgcm := length_gcmNonce hnonce
    refine ⟨?_, ?_, fun sampler₀ ↦ ?_⟩
    · have hks' := length_elements (n := plaintext.length)
        (b.encryptBlock P tries true key nonce) sampler
      have hraw := length_rawBytes hks'
      simp only [Sealing.output, List.length_map, List.length_append, hgcm, hseal, hraw]
      cases b <;> simp only [OnlineCiphertextBytes] <;> omega
    · intro v hv
      obtain ⟨byte, -, rfl⟩ := List.mem_map.mp hv
      rw [UInt8.toNat_toUInt64]
      exact byte.toNat_lt
    · have hquiet := returns_quiet hreturns sampler₀
      obtain ⟨sampler₁, hks₀⟩ := keystream_of_returns hquiet
      have hopened := unmask_elements hplain fun j hj ↦ elementAt_noise hagn hreturns hquiet hj
      refine ⟨_, _, hks₀, recover_output (s := ⟨_, _, _⟩) hgcm hopen _, ?_⟩
      rw [readWords_rawBytes]
      refine ⟨hopened.1, fun j hj ↦ ⟨noiseAt_le hagn b _ j, hopened.2 j hj⟩, ?_⟩
      rintro rfl
      exact eq_of_noisyOf_zero hopened.1 hopened.2

/-- An XOF of ones, a noise of one on every element, and a tag of zeros. -/
def plainPrimitives : Primitives Unit where
  shake256 := fun _ _ ↦ 1
  sha256 := fun _ ↦ Vector.replicate 32 0
  gcmSeal := fun _ _ plaintext ↦ plaintext ++ List.replicate 16 0
  agn := fun state sampler ↦ (state.map fun x ↦ (x + 1) % plainWord, sampler)

theorem plainPrimitives_addsNoise : AddsNoise plainPrimitives fun _ _ ↦ 1 := by
  refine ⟨fun _ _ ↦ by decide, fun state sampler hstate i _ ↦ ?_⟩
  change NoisyOf 1 ((state.map fun x ↦ (x + 1) % plainWord).get i) (state.get i)
  rw [Vector.get_map]
  refine ⟨hstate i, ?_⟩
  rw [mask_toNat (hstate i) (by decide)]
  rfl

/-- The tag is cut off unread. -/
def plainOpen (_aesKey _gcmNonce ciphertext : List UInt8) : Option (List UInt8) :=
  some (ciphertext.take (ciphertext.length - 16))

theorem envelope_opens_two :
    let key : Vector UInt64 hera16.KeySize := Vector.replicate 16 1
    ∃ tries r ks,
      hera16.Encrypt plainPrimitives tries key.toList (List.replicate 16 1) [5, 7] () = .ok r ∧
        r.1.length = hera16.OnlineCiphertextBytes 2 ∧
        recover plainOpen (hera16.aeadKey plainPrimitives key.toList) r.1 ks = some [5, 7] := by
  intro key
  have hnonce : (List.replicate 16 1 : List UInt64).length = 16 := rfl
  have hcandidate : littleEndian [1, 1, 1, 1 &&& 1] < plainWord := by decide
  have hseal : ∀ aesKey gcmNonce plaintext,
      (plainPrimitives.gcmSeal aesKey gcmNonce plaintext).length = plaintext.length + 16 :=
    fun _ _ plaintext ↦ by simp [plainPrimitives]
  have hopen : ∀ aesKey gcmNonce plaintext,
      plainOpen aesKey gcmNonce (plainPrimitives.gcmSeal aesKey gcmNonce plaintext) =
        some plaintext := fun _ _ plaintext ↦ by simp [plainOpen, plainPrimitives]
  have haccept : ∀ blockIdx, Accepting plainPrimitives.shake256
      (hera16.xof (List.replicate 16 1) blockIdx).absorbed := fun _ _ ↦ ⟨0, hcandidate⟩
  have hopens := envelope_opens hera16 key hnonce haccept plainPrimitives_addsNoise hseal hopen
  obtain ⟨tries, hencrypt⟩ := hopens.2.2.2.1 [5, 7]
  obtain ⟨r, hr⟩ := hencrypt 0 ()
  have hplaintext : ∀ p ∈ ([5, 7] : List UInt64), p.toNat < plainModulus := by simp [plainModulus]
  obtain ⟨hlength, -, hrecover⟩ := hopens.2.2.2.2 _ [5, 7] () r.1 r.2 hplaintext hr
  obtain ⟨r₀, opened, -, hopened, -, -, hplain⟩ := hrecover ()
  rw [hplain rfl] at hopened
  exact ⟨_, r, r₀.1, hr, hlength, hopened⟩

end Backend

end Blocks

end Ppfdaas.Transcipher
