import Ppfdaas.Transcipher.AeadNonce
import Ppfdaas.Transcipher.RoundKeys

/-!
# The keystream, element by element

What the block loop of `keystream` returns for either cipher, and that it ends.
-/

namespace Ppfdaas.Transcipher

/-! ## The block loop -/

section Loop

variable {Sampler : Type} {outputSize : ℕ}
  (encryptBlock : UInt64 → Go Sampler (Vector UInt64 outputSize)) (sampler : Sampler)

/-- The sampler before block `i`; a call that fails leaves it. -/
def samplerAt : ℕ → Sampler
  | 0 => sampler
  | i + 1 =>
      match encryptBlock (UInt64.ofNat i) (samplerAt i) with
      | .ok (_, sampler') => sampler'
      | .error _ => samplerAt i

def blockAt (i : ℕ) : Vector UInt64 outputSize :=
  match encryptBlock (UInt64.ofNat i) (samplerAt encryptBlock sampler i) with
  | .ok (blk, _) => blk
  | .error _ => Vector.replicate outputSize 0

def Returns (i : ℕ) : Prop :=
  encryptBlock (UInt64.ofNat i) (samplerAt encryptBlock sampler i) =
    .ok (blockAt encryptBlock sampler i, samplerAt encryptBlock sampler (i + 1))

/-- Element `j mod B` of block `j / B`. -/
def elementAt (j : ℕ) : UInt64 :=
  (blockAt encryptBlock sampler (j / outputSize)).toList.getD (j % outputSize) 0

def elements (n : ℕ) : List UInt64 := (List.range n).map (elementAt encryptBlock sampler)

/-- What the loop holds before block `i`. -/
def front (n i : ℕ) : List UInt64 :=
  (((List.range i).map (blockAt encryptBlock sampler)).flatMap Vector.toList).take n

theorem front_zero (n : ℕ) : front encryptBlock sampler n 0 = [] := List.take_nil

theorem length_front (n i : ℕ) :
    (front encryptBlock sampler n i).length = min n (i * outputSize) := by
  rw [front, List.length_take, FixedWidth.length_flatMap (fun _ ↦ Vector.length_toList),
    List.length_map, List.length_range, Nat.mul_comm]

variable {encryptBlock sampler}

theorem returns_of_ok {i : ℕ} {r : Vector UInt64 outputSize × Sampler}
    (h : encryptBlock (UInt64.ofNat i) (samplerAt encryptBlock sampler i) = .ok r) :
    Returns encryptBlock sampler i ∧ r = (blockAt encryptBlock sampler i,
      samplerAt encryptBlock sampler (i + 1)) := by
  have hr : r = (blockAt encryptBlock sampler i, samplerAt encryptBlock sampler (i + 1)) := by
    rw [blockAt, samplerAt, h]
  exact ⟨h.trans (congrArg Except.ok hr), hr⟩

/-- Once the blocks reach `n` elements, the front is the keystream. -/
theorem front_eq_elements (hpos : 0 < outputSize) {n i : ℕ} (h : n ≤ i * outputSize) :
    front encryptBlock sampler n i = elements encryptBlock sampler n := by
  apply List.ext_getElem?
  intro j
  by_cases hj : j < n
  · have hblock : j / outputSize < i := (Nat.div_lt_iff_lt_mul hpos).mpr (hj.trans_le h)
    have hrow : j % outputSize < outputSize := Nat.mod_lt j hpos
    rw [front, List.getElem?_take_of_lt hj,
      FixedWidth.getElem?_flatMap (fun _ ↦ Vector.length_toList) hpos]
    simp [elements, elementAt, hj, hblock, hrow]
  · have hlength : (front encryptBlock sampler n i).length ≤ j := by
      rw [length_front]
      omega
    rw [List.getElem?_eq_none hlength, List.getElem?_eq_none]
    simpa [elements] using hj

theorem front_succ {n i : ℕ} (h : i * outputSize < n) :
    front encryptBlock sampler n i ++ (blockAt encryptBlock sampler i).toList.take
      (min outputSize (n - (front encryptBlock sampler n i).length)) =
        front encryptBlock sampler n (i + 1) := by
  have hlength : (((List.range i).map (blockAt encryptBlock sampler)).flatMap
      Vector.toList).length = i * outputSize := by
    rw [FixedWidth.length_flatMap (fun _ ↦ Vector.length_toList), List.length_map,
      List.length_range, Nat.mul_comm]
  have hcut : (blockAt encryptBlock sampler i).toList.take (min outputSize (n - i * outputSize)) =
      (blockAt encryptBlock sampler i).toList.take (n - i * outputSize) := by
    rw [min_comm, ← List.take_take, List.take_of_length_le Vector.length_toList.le]
  rw [length_front, min_eq_right h.le, hcut, front, front, List.range_succ, List.map_append,
    List.flatMap_append, List.take_append, hlength]
  simp

theorem keystreamLoop_done (hpos : 0 < outputSize) {n i : ℕ} (h : n ≤ i * outputSize) (passes : ℕ)
    (blockIdx : UInt64) (s : Sampler) :
    keystreamLoop encryptBlock n passes (front encryptBlock sampler n i) blockIdx s =
      .ok (elements encryptBlock sampler n, s) := by
  have hlength := length_front encryptBlock sampler n i
  have hle : n ≤ (front encryptBlock sampler n i).length := by omega
  have htake : (front encryptBlock sampler n i).take n = elements encryptBlock sampler n := by
    rw [List.take_of_length_le (by omega), front_eq_elements hpos h]
  cases passes with
  | zero =>
      rw [keystreamLoop, if_pos hle, htake]
      rfl
  | succ passes =>
      rw [keystreamLoop, if_pos hle, htake]
      rfl

theorem keystreamLoop_out {n i : ℕ} (h : i * outputSize < n) (blockIdx : UInt64) (s : Sampler) :
    keystreamLoop encryptBlock n 0 (front encryptBlock sampler n i) blockIdx s =
      .error .running := by
  have hlength := length_front encryptBlock sampler n i
  rw [keystreamLoop, if_neg (by omega)]
  rfl

theorem keystreamLoop_pass {n i : ℕ} (h : i * outputSize < n)
    (hreturns : Returns encryptBlock sampler i) (passes : ℕ) :
    keystreamLoop encryptBlock n (passes + 1) (front encryptBlock sampler n i) (UInt64.ofNat i)
      (samplerAt encryptBlock sampler i) =
        keystreamLoop encryptBlock n passes (front encryptBlock sampler n (i + 1))
          (UInt64.ofNat (i + 1)) (samplerAt encryptBlock sampler (i + 1)) := by
  have hlength := length_front encryptBlock sampler n i
  have hnext : UInt64.ofNat (i + 1) = UInt64.ofNat i + 1 := UInt64.ofNat_add i 1
  rw [keystreamLoop, if_neg (by omega), ← front_succ h, hnext]
  change (encryptBlock _ _).bind _ = _
  rw [hreturns]
  rfl

theorem keystreamLoop_ok_of_done (hpos : 0 < outputSize) {n passes i : ℕ}
    {r : List UInt64 × Sampler} (hdone : n ≤ i * outputSize)
    (h : keystreamLoop encryptBlock n passes (front encryptBlock sampler n i) (UInt64.ofNat i)
      (samplerAt encryptBlock sampler i) = .ok r) :
    (∀ k, i ≤ k → k * outputSize < n → Returns encryptBlock sampler k) ∧
      r.1 = elements encryptBlock sampler n ∧
      ∃ m, (∀ k, i ≤ k → k < m → k * outputSize < n) ∧ r.2 = samplerAt encryptBlock sampler m := by
  rw [keystreamLoop_done hpos hdone] at h
  obtain rfl := Except.ok.inj h
  refine ⟨fun k hik hk ↦ ?_, rfl, i, fun k hik hki ↦ absurd hki hik.not_gt, rfl⟩
  have hmul := Nat.mul_le_mul_right outputSize hik
  omega

/-- Whatever the loop returns it has from calls that returned. -/
theorem keystreamLoop_ok (hpos : 0 < outputSize) {n passes i : ℕ} {r : List UInt64 × Sampler}
    (h : keystreamLoop encryptBlock n passes (front encryptBlock sampler n i) (UInt64.ofNat i)
      (samplerAt encryptBlock sampler i) = .ok r) :
    (∀ k, i ≤ k → k * outputSize < n → Returns encryptBlock sampler k) ∧
      r.1 = elements encryptBlock sampler n ∧
      ∃ m, (∀ k, i ≤ k → k < m → k * outputSize < n) ∧ r.2 = samplerAt encryptBlock sampler m := by
  induction passes generalizing i with
  | zero =>
      rcases Nat.lt_or_ge (i * outputSize) n with hlt | hge
      · rw [keystreamLoop_out hlt] at h
        cases h
      · exact keystreamLoop_ok_of_done hpos hge h
  | succ passes ih =>
      rcases Nat.lt_or_ge (i * outputSize) n with hlt | hge
      · have hstep := h
        have hlength := length_front encryptBlock sampler n i
        rw [keystreamLoop, if_neg (by omega)] at hstep
        obtain ⟨blk, sampler', hcall, -⟩ := Go.bind_ok hstep
        obtain ⟨hreturns, -⟩ := returns_of_ok hcall
        rw [keystreamLoop_pass hlt hreturns] at h
        obtain ⟨hrest, hks, m, hm, hlast⟩ := ih h
        refine ⟨fun k hik hk ↦ ?_, hks, m, fun k hik hk ↦ ?_, hlast⟩
        · rcases hik.eq_or_lt with rfl | hik
          · exact hreturns
          · exact hrest k hik hk
        · rcases hik.eq_or_lt with rfl | hik
          · exact hlt
          · exact hm k hik hk
      · exact keystreamLoop_ok_of_done hpos hge h

theorem keystreamLoop_returns (hpos : 0 < outputSize) {n passes i : ℕ}
    (hpasses : n ≤ (i + passes) * outputSize)
    (hreturns : ∀ k, i ≤ k → k * outputSize < n → Returns encryptBlock sampler k) :
    ∃ sampler', keystreamLoop encryptBlock n passes (front encryptBlock sampler n i)
      (UInt64.ofNat i) (samplerAt encryptBlock sampler i) =
        .ok (elements encryptBlock sampler n, sampler') := by
  induction passes generalizing i with
  | zero => exact ⟨_, keystreamLoop_done hpos hpasses 0 _ _⟩
  | succ passes ih =>
      rcases Nat.lt_or_ge (i * outputSize) n with hlt | hge
      · rw [keystreamLoop_pass hlt (hreturns i le_rfl hlt)]
        apply ih
        · rwa [Nat.add_right_comm, Nat.add_assoc]
        · exact fun k hik hk ↦ hreturns k (Nat.le_of_succ_le hik) hk
      · exact ⟨_, keystreamLoop_done hpos hge _ _ _⟩

/-- The keystream of one length is a prefix of every longer one. -/
theorem elements_take {m n : ℕ} (h : m ≤ n) :
    (elements encryptBlock sampler n).take m = elements encryptBlock sampler m := by
  rw [elements, elements, ← List.map_take, List.take_range, min_eq_left h]

end Loop

/-! ## One block from its round keys -/

section Block

variable {Sampler : Type} {P : Primitives Sampler} {tries : ℕ} {nonce : List UInt64}
  {blockIdx : UInt64}

theorem HERA16.encryptBlock_of_keys {key : HeraState} {rks : Vector HeraState (HeraRounds + 1)}
    (h : (roundKeys P.shake256 tries HeraRounds key HeraModulus).run' (heraXof nonce blockIdx) =
      .ok rks) (sampler : Sampler) :
    HERA16.encryptBlock P tries key nonce blockIdx sampler =
      .ok (heraRounds rks (Vector.ofFn fun i ↦ UInt64.ofNat (i + 1)), sampler) := by
  rw [HERA16.encryptBlock, h]
  rfl

/-- The state that `noiseAGN` leaves. -/
def noisyState (P : Primitives Sampler) (noisy : Bool) (state : RubatoState) (sampler : Sampler) :
    RubatoState × Sampler :=
  if noisy then P.agn state sampler else (state, sampler)

theorem Rubato128L.encryptBlock_of_keys {noisy : Bool} {key : RubatoState}
    {rks : Vector RubatoState (RubatoRounds + 1)}
    (h : (roundKeys P.shake256 tries RubatoRounds key RubatoModulus).run'
      (rubatoXof nonce blockIdx) = .ok rks) (sampler : Sampler) :
    let noise := noisyState P noisy
      (rubatoRounds rks (Vector.ofFn fun i ↦ UInt64.ofNat (i + 1))) sampler
    Rubato128L.encryptBlock P tries noisy key nonce blockIdx sampler =
      .ok ((rubatoAddRoundKey (rks.get (Fin.last RubatoRounds)) noise.1).take 60, noise.2) := by
  rw [Rubato128L.encryptBlock, h]
  rfl

end Block

/-! ## The keystreams of the backends -/

namespace Backend

variable {Sampler : Type} (P : Primitives Sampler) (tries : ℕ)

def outputSize : Backend → ℕ
  | hera16 => 16
  | rubato128L => 60

theorem outputSize_pos (b : Backend) : 0 < b.outputSize := by cases b <;> decide

def xof : Backend → (nonce : List UInt64) → (blockIdx : UInt64) → ShakeHash
  | hera16 => heraXof
  | rubato128L => rubatoXof

/-- `encryptBlock`; only Rubato has a noise to leave out. -/
def encryptBlock (noisy : Bool) : (b : Backend) → (key : Vector UInt64 b.KeySize) →
    (nonce : List UInt64) → (blockIdx : UInt64) → Go Sampler (Vector UInt64 b.outputSize)
  | hera16 => HERA16.encryptBlock P tries
  | rubato128L => Rubato128L.encryptBlock P tries noisy

def keystream (noisy : Bool) : (b : Backend) → (key : Vector UInt64 b.KeySize) →
    (nonce : List UInt64) → (n : ℕ) → Go Sampler (List UInt64)
  | hera16 => HERA16.keystream P tries
  | rubato128L => Rubato128L.keystream P tries noisy

variable (b : Backend) (noisy : Bool) (key : Vector UInt64 b.KeySize) (nonce : List UInt64)

theorem keystream_eq (n : ℕ) : b.keystream P tries noisy key nonce n =
    keystreamLoop (b.encryptBlock P tries noisy key nonce) n n [] 0 := by
  cases b <;> rfl

variable {P tries b noisy key nonce}

theorem keystream_ok {n : ℕ} {sampler : Sampler} {r : List UInt64 × Sampler}
    (h : b.keystream P tries noisy key nonce n sampler = .ok r) :
    (∀ i, i * b.outputSize < n → Returns (b.encryptBlock P tries noisy key nonce) sampler i) ∧
      r.1 = elements (b.encryptBlock P tries noisy key nonce) sampler n := by
  rw [keystream_eq, ← front_zero (b.encryptBlock P tries noisy key nonce) sampler n] at h
  obtain ⟨hreturns, hks, -⟩ := keystreamLoop_ok (i := 0) b.outputSize_pos h
  exact ⟨fun i ↦ hreturns i i.zero_le, hks⟩

variable (noisy key) in
theorem encryptBlock_returns {blockIdx : UInt64}
    (haccept : Accepting P.shake256 (b.xof nonce blockIdx).absorbed) :
    ∃ tries, ∀ more sampler, ∃ r,
      b.encryptBlock P (tries + more) noisy key nonce blockIdx sampler = .ok r := by
  cases b with
  | hera16 =>
      obtain ⟨tries, hrks⟩ := roundKeys_returns P.shake256 HeraRounds key haccept
      refine ⟨tries, fun more sampler ↦ ?_⟩
      obtain ⟨rks, hrun⟩ := hrks more
      exact ⟨_, HERA16.encryptBlock_of_keys hrun sampler⟩
  | rubato128L =>
      obtain ⟨tries, hrks⟩ := roundKeys_returns P.shake256 RubatoRounds key haccept
      refine ⟨tries, fun more sampler ↦ ?_⟩
      obtain ⟨rks, hrun⟩ := hrks more
      exact ⟨_, Rubato128L.encryptBlock_of_keys hrun sampler⟩

theorem keystream_of_returns {n : ℕ} {sampler : Sampler} (h : ∀ i, i * b.outputSize < n →
    Returns (b.encryptBlock P tries noisy key nonce) sampler i) :
    ∃ sampler', b.keystream P tries noisy key nonce n sampler =
      .ok (elements (b.encryptBlock P tries noisy key nonce) sampler n, sampler') := by
  have hpasses : n ≤ (0 + n) * b.outputSize := by
    rw [Nat.zero_add]
    exact Nat.le_mul_of_pos_right n b.outputSize_pos
  rw [keystream_eq, ← front_zero (b.encryptBlock P tries noisy key nonce) sampler n]
  exact keystreamLoop_returns b.outputSize_pos hpasses fun k _ ↦ h k

variable (noisy key) in
theorem keystream_returns
    (haccept : ∀ blockIdx, Accepting P.shake256 (b.xof nonce blockIdx).absorbed) (n : ℕ) :
    ∃ tries, ∀ more sampler, ∃ sampler', b.keystream P (tries + more) noisy key nonce n sampler =
      .ok (elements (b.encryptBlock P (tries + more) noisy key nonce) sampler n, sampler') := by
  choose tries htries using fun i : ℕ ↦
    encryptBlock_returns noisy key (haccept (UInt64.ofNat i))
  refine ⟨(Finset.range n).sup tries, fun more sampler ↦ keystream_of_returns fun i hi ↦ ?_⟩
  have hlt : i < n := (Nat.le_mul_of_pos_right i b.outputSize_pos).trans_lt hi
  have hle : tries i ≤ (Finset.range n).sup tries := Finset.le_sup (Finset.mem_range.mpr hlt)
  obtain ⟨extra, hextra⟩ := Nat.exists_eq_add_of_le hle
  obtain ⟨r, hr⟩ := htries i (extra + more)
    (samplerAt (b.encryptBlock P ((Finset.range n).sup tries + more) noisy key nonce) sampler i)
  rw [← Nat.add_assoc, ← hextra] at hr
  exact (returns_of_ok hr).1

end Backend

end Ppfdaas.Transcipher
