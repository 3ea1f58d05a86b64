import Mathlib.Data.FinEnum
import Mathlib.Data.Int.CardIntervalMod
import Ppfdaas.Library.RejectionRuns
import Ppfdaas.Transcipher.RoundKeys

/-!
# Uniform samples

How often `sampleZqx` returns each value below its modulus.  A candidate is the
value of a chunk of the reader's bytes modulo the power of two of the bit length,
and the bit length is taken of `q - 2`, not of `q - 1`.
-/

namespace Ppfdaas.Transcipher

open Topology

/-- The reader whose output is the given bytes. -/
def readerOf {n : ℕ} (bytes : Fin n → UInt8) : List UInt8 → ℕ → UInt8 := fun _ i ↦
  if h : i < n then bytes ⟨i, h⟩ else 0

/-- The byte strings, of the length that all the tries read, from which
`sampleZqx` draws `v`. -/
def drawing (q : UInt64) (tries : ℕ) (v : UInt64) : Set (Fin (tries * byteLen q) → UInt8) :=
  {bytes | ∃ xof, sampleZqx (readerOf bytes) q tries newShake256 = .ok (v, xof)}

/-- What the comment on `sampleZqx` promises for a modulus. -/
structure UniformBelow (q : UInt64) : Prop where
  in_range : ∀ shake256 tries xof, sampleZqx shake256 q tries xof ≠ .error .indexOutOfRange
  same_count : ∃ m > 0, ∀ v < q, (drawing q 1 v).ncard = m
  same_runs : ∀ tries, ∃ m, ∀ v < q, (drawing q tries v).ncard = m
  uniform : ∀ v < q,
    Filter.Tendsto (fun tries ↦ ((drawing q tries v).ncard : ℝ) / 256 ^ (tries * byteLen q))
      Filter.atTop (𝓝 (1 / q.toNat))

/-! ## One try -/

/-- The buffer of one try once its top byte is masked. -/
def maskedChunk (q : UInt64) {n : ℕ} (chunk : Fin n → UInt8) : List UInt8 :=
  (List.ofFn chunk).dropLast ++ [(List.ofFn chunk).getLastD 0 &&& topMask q]

def acceptedChunk (q : UInt64) {n : ℕ} (chunk : Fin n → UInt8) : Option UInt64 :=
  if littleEndian (maskedChunk q chunk) < q then some (littleEndian (maskedChunk q chunk)) else none

section Tries

variable (shake256 : List UInt8 → ℕ → UInt8) {q : UInt64}

def nextChunk (q : UInt64) (xof : ShakeHash) : Fin (byteLen q) → UInt8 := fun i ↦
  shake256 xof.absorbed (xof.squeezed + i)

def afterChunk (q : UInt64) (xof : ShakeHash) : ShakeHash :=
  { xof with squeezed := xof.squeezed + byteLen q }

theorem sampleZqx_try (hlen : 0 < byteLen q) (tries : ℕ) (xof : ShakeHash) :
    sampleZqx shake256 q (tries + 1) xof =
      if littleEndian (maskedChunk q (nextChunk shake256 q xof)) < q then
        .ok (littleEndian (maskedChunk q (nextChunk shake256 q xof)), afterChunk q xof)
      else sampleZqx shake256 q tries (afterChunk q xof) := by
  have hread : readFull shake256 (byteLen q) xof =
      .ok (List.ofFn (nextChunk shake256 q xof), afterChunk q xof) := by
    rw [readFull, List.ofFn_eq_map, ← List.map_coe_finRange_eq_range, List.map_map]
    rfl
  have hmask : maskTop (topMask q) (List.ofFn (nextChunk shake256 q xof)) =
      .ok (maskedChunk q (nextChunk shake256 q xof)) := by
    have hne : List.ofFn (nextChunk shake256 q xof) ≠ [] := by
      rw [← List.length_pos_iff_ne_nil, List.length_ofFn]
      exact hlen
    rw [maskTop, maskedChunk, List.getLastD_eq_getLast?, List.getLast?_eq_getLast_of_ne_nil hne]
    rfl
  rw [sampleZqx]
  by_cases hlt : littleEndian (maskedChunk q (nextChunk shake256 q xof)) < q
  · simp [bind, StateT.bind, Except.bind, hread, hmask, liftM, monadLift, MonadLift.monadLift,
      StateT.lift, hlt, pure, StateT.pure, Except.pure]
  · simp [bind, StateT.bind, Except.bind, hread, hmask, liftM, monadLift, MonadLift.monadLift,
      StateT.lift, hlt, pure, Except.pure]

theorem sampleZqx_ne_outOfRange (hlen : 0 < byteLen q) (tries : ℕ) (xof : ShakeHash) :
    sampleZqx shake256 q tries xof ≠ .error .indexOutOfRange := by
  induction tries generalizing xof with
  | zero => exact nofun
  | succ tries ih =>
      rw [sampleZqx_try shake256 hlen]
      split
      · exact nofun
      · exact ih (afterChunk q xof)

/-- A run of `sampleZqx` returns the first value accepted in its chunks. -/
theorem sampleZqx_returns (hlen : 0 < byteLen q) (tries : ℕ) (xof : ShakeHash) (v : UInt64) :
    (∃ xof', sampleZqx shake256 q tries xof = .ok (v, xof')) ↔
      RejectionRuns.firstAccepted (acceptedChunk q) tries
        (fun t (i : Fin (byteLen q)) ↦
          shake256 xof.absorbed (xof.squeezed + (i + byteLen q * t))) = some v := by
  induction tries generalizing xof with
  | zero =>
      refine iff_of_false ?_ nofun
      rintro ⟨xof', h⟩
      exact absurd h nofun
  | succ tries ih =>
      have hfirst : (fun i : Fin (byteLen q) ↦
          shake256 xof.absorbed (xof.squeezed + (i + byteLen q * ((0 : Fin (tries + 1)) : ℕ)))) =
            nextChunk shake256 q xof := by
        funext i
        simp [nextChunk]
      have hrest : Fin.tail (fun (t : Fin (tries + 1)) (i : Fin (byteLen q)) ↦
          shake256 xof.absorbed (xof.squeezed + (i + byteLen q * t))) =
            fun (t : Fin tries) (i : Fin (byteLen q)) ↦ shake256 (afterChunk q xof).absorbed
              ((afterChunk q xof).squeezed + (i + byteLen q * t)) := by
        funext t i
        simp only [Fin.tail, afterChunk, Fin.val_succ]
        congr 1
        ring
      rw [sampleZqx_try shake256 hlen, RejectionRuns.firstAccepted, hfirst, hrest, acceptedChunk]
      split
      · simp
      · exact ih (afterChunk q xof)

end Tries

/-! ## The candidates of a chunk -/

def chunkValue {n : ℕ} (chunk : Fin n → UInt8) : ℕ := ∑ i, (chunk i).toNat * 256 ^ (i : ℕ)

theorem chunkValue_succ {n : ℕ} (chunk : Fin (n + 1) → UInt8) :
    chunkValue chunk =
      chunkValue (fun i : Fin n ↦ chunk i.castSucc) + (chunk (Fin.last n)).toNat * 256 ^ n :=
  Fin.sum_univ_castSucc _

def byteEquiv : UInt8 ≃ Fin 256 where
  toFun := UInt8.toFin
  invFun := UInt8.ofFin
  left_inv := UInt8.ofFin_toFin
  right_inv := UInt8.toFin_ofFin

/-- A chunk is a number below a power of 256. -/
def chunkEquiv (n : ℕ) : (Fin n → UInt8) ≃ Fin (256 ^ n) :=
  (Equiv.piCongrRight fun _ ↦ byteEquiv).trans finFunctionFinEquiv

theorem chunkEquiv_val {n : ℕ} (chunk : Fin n → UInt8) :
    (chunkEquiv n chunk : ℕ) = chunkValue chunk :=
  finFunctionFinEquiv_apply _

theorem chunkValue_lt {n : ℕ} (chunk : Fin n → UInt8) : chunkValue chunk < 256 ^ n := by
  rw [← chunkEquiv_val]
  exact (chunkEquiv n chunk).isLt

theorem littleEndian_ofFn {n : ℕ} (hn : n ≤ 8) (chunk : Fin n → UInt8) :
    (littleEndian (List.ofFn chunk)).toNat = chunkValue chunk := by
  induction n with
  | zero => rfl
  | succ n ih =>
      have hvalue := chunkValue_succ chunk
      have hbound : 256 ^ (n + 1) ≤ 2 ^ 64 := by
        calc 256 ^ (n + 1) ≤ 256 ^ 8 := Nat.pow_le_pow_right (by decide) hn
          _ = 2 ^ 64 := by decide
      have hlt := chunkValue_lt chunk
      have hshift : ((chunk (Fin.last n)).toUInt64 <<< UInt64.ofNat (8 * n)).toNat =
          (chunk (Fin.last n)).toNat * 256 ^ n := by
        have hpow : 2 ^ (8 * n) = 256 ^ n := pow_mul 2 8 n
        rw [UInt64.toNat_shiftLeft, UInt64.toNat_ofNat', UInt8.toNat_toUInt64,
          Nat.mod_eq_of_lt (by omega : 8 * n < 2 ^ 64), Nat.mod_eq_of_lt (by omega : 8 * n < 64),
          Nat.shiftLeft_eq, hpow, Nat.mod_eq_of_lt (by omega)]
      rw [List.ofFn_succ', List.concat_eq_append, littleEndian_append, List.length_ofFn,
        UInt64.toNat_add, ih (by omega), hshift, ← hvalue, Nat.mod_eq_of_lt (by omega)]

theorem toNat_topMask {q : UInt64} {n : ℕ} (hlow : 8 * n < bitLen q)
    (hhigh : bitLen q ≤ 8 * (n + 1)) : (topMask q).toNat = 2 ^ (bitLen q - 8 * n) - 1 := by
  have hbits : (if bitLen q % 8 = 0 then 8 else bitLen q % 8) = bitLen q - 8 * n := by
    split <;> omega
  have hpow : 2 ^ (bitLen q - 8 * n) ≤ 2 ^ 8 := Nat.pow_le_pow_right (by decide) (by omega)
  rw [topMask, hbits, UInt8.toNat_ofNat']
  exact Nat.mod_eq_of_lt (by omega)

/-- Masking the top byte reduces the chunk modulo the power of two of the bit
length. -/
theorem littleEndian_maskedChunk {q : UInt64} {n : ℕ} (hn : n < 8) (hlow : 8 * n < bitLen q)
    (hhigh : bitLen q ≤ 8 * (n + 1)) (chunk : Fin (n + 1) → UInt8) :
    (littleEndian (maskedChunk q chunk)).toNat = chunkValue chunk % 2 ^ bitLen q := by
  let low : Fin n → UInt8 := fun i ↦ chunk i.castSucc
  let top := chunk (Fin.last n)
  have hmasked : maskedChunk q chunk = List.ofFn (Fin.snoc low (top &&& topMask q)) := by
    rw [maskedChunk, List.ofFn_succ', List.ofFn_succ']
    simp [low, top]
  have hvalue : chunkValue (Fin.snoc low (top &&& topMask q)) =
      chunkValue low + (top &&& topMask q).toNat * 256 ^ n := by
    simp [chunkValue_succ]
  have htop : (top &&& topMask q).toNat = top.toNat % 2 ^ (bitLen q - 8 * n) := by
    rw [UInt8.toNat_and, toNat_topMask hlow hhigh, Nat.and_two_pow_sub_one_eq_mod]
  have hpow : 2 ^ bitLen q = 256 ^ n * 2 ^ (bitLen q - 8 * n) := by
    have h256 : 256 ^ n = 2 ^ (8 * n) := (pow_mul 2 8 n).symm
    rw [h256, ← pow_add]
    congr 1
    omega
  have hlt := chunkValue_lt low
  rw [hmasked, littleEndian_ofFn hn, hvalue, htop, chunkValue_succ, hpow, Nat.mod_mul,
    Nat.add_mul_mod_self_right, Nat.mod_eq_of_lt hlt, Nat.add_mul_div_right _ _ (by positivity),
    Nat.div_eq_of_lt hlt, Nat.zero_add]
  ring

open Finset in
theorem card_chunkValue_mod {n bits : ℕ} (hbits : bits ≤ 8 * n) {r : ℕ} (hr : r < 2 ^ bits) :
    #{chunk : Fin n → UInt8 | chunkValue chunk % 2 ^ bits = r} = 2 ^ (8 * n - bits) := by
  have hpow : 256 ^ n = 2 ^ bits * 2 ^ (8 * n - bits) := by
    have h256 : 256 ^ n = 2 ^ (8 * n) := (pow_mul 2 8 n).symm
    rw [h256, ← pow_add]
    congr 1
    omega
  have hcount : #{x ∈ range (256 ^ n) | x ≡ r [MOD 2 ^ bits]} = 2 ^ (8 * n - bits) := by
    rw [← Nat.count_eq_card_filter_range, Nat.count_modEq_card _ (by positivity), hpow,
      Nat.mul_mod_right, Nat.mul_div_cancel_left _ (by positivity)]
    simp
  rw [← hcount]
  refine card_bij (fun chunk _ ↦ chunkValue chunk) ?_ ?_ ?_
  · intro chunk hchunk
    rw [mem_filter, mem_range, Nat.ModEq, Nat.mod_eq_of_lt hr]
    exact ⟨chunkValue_lt chunk, (mem_filter.mp hchunk).2⟩
  · intro chunk _ chunk' _ heq
    rw [← chunkEquiv_val, ← chunkEquiv_val] at heq
    exact (chunkEquiv n).injective (Fin.ext heq)
  · intro x hx
    rw [mem_filter, mem_range, Nat.ModEq, Nat.mod_eq_of_lt hr] at hx
    have hval : chunkValue ((chunkEquiv n).symm ⟨x, hx.1⟩) = x := by
      rw [← chunkEquiv_val, Equiv.apply_symm_apply]
    refine ⟨(chunkEquiv n).symm ⟨x, hx.1⟩, ?_, hval⟩
    rw [mem_filter, hval]
    exact ⟨mem_univ _, hx.2⟩

/-! ## The bit length -/

section BitLength

variable {q : UInt64}

theorem toNat_sub_two (hq : 2 ≤ q) : (q - 2).toNat = q.toNat - 2 :=
  UInt64.toNat_sub_of_le q 2 hq

theorem bitLen_le (q : UInt64) : bitLen q ≤ 64 := Nat.size_le.mpr (q - 2).toNat_lt

theorem byteLen_le (q : UInt64) : byteLen q ≤ 8 := by
  have := bitLen_le q
  rw [byteLen]
  omega

theorem le_two_pow_bitLen (hq : 2 ≤ q) : q.toNat ≤ 2 ^ bitLen q + 1 := by
  have h := Nat.lt_size_self (q - 2).toNat
  rw [toNat_sub_two hq] at h
  rw [bitLen, toNat_sub_two hq]
  omega

theorem bitLen_of_succ_two_pow (hq : 2 ≤ q) {k : ℕ} (hk : q.toNat = 2 ^ k + 1) : bitLen q = k := by
  have hpos := Nat.two_pow_pos k
  have hsub : (q - 2).toNat = 2 ^ k - 1 := by
    rw [toNat_sub_two hq, hk]
    omega
  refine le_antisymm (Nat.size_le.mpr (by omega)) ?_
  by_contra! hlt
  have := Nat.size_le.mp (Nat.le_sub_one_of_lt hlt)
  have hsucc : 2 ^ k = 2 * 2 ^ (k - 1) := by
    rw [← pow_succ', Nat.sub_add_cancel (by omega)]
  have := Nat.two_pow_pos (k - 1)
  omega

theorem bitLen_pos (hq : 2 ≤ q) (hne : q.toNat ≠ 2) : 0 < bitLen q := by
  rw [bitLen, Nat.size_pos, toNat_sub_two hq]
  have : 2 ≤ q.toNat := hq
  omega

end BitLength

/-! ## Counting the byte strings -/

section Counts

variable {q : UInt64}

def below (q : UInt64) : Finset UInt64 := (Finset.range q.toNat).image UInt64.ofNat

theorem mem_below {v : UInt64} : v ∈ below q ↔ v < q := by
  rw [below, Finset.mem_image]
  constructor
  · rintro ⟨x, hx, rfl⟩
    have hlt := Finset.mem_range.mp hx
    rw [UInt64.lt_iff_toNat_lt, UInt64.toNat_ofNat']
    exact (Nat.mod_le x _).trans_lt hlt
  · intro hv
    exact ⟨v.toNat, Finset.mem_range.mpr hv, UInt64.ofNat_toNat⟩

theorem card_below (q : UInt64) : (below q).card = q.toNat := by
  rw [below, Finset.card_image_of_injOn, Finset.card_range]
  intro x hx y hy heq
  have hq := q.toNat_lt
  have hx' := Finset.mem_range.mp hx
  have hy' := Finset.mem_range.mp hy
  have h := congrArg UInt64.toNat heq
  rwa [UInt64.toNat_ofNat', UInt64.toNat_ofNat', Nat.mod_eq_of_lt (by omega),
    Nat.mod_eq_of_lt (by omega)] at h

theorem acceptedChunk_mem {n : ℕ} (chunk : Fin n → UInt8) (v : UInt64)
    (h : acceptedChunk q chunk = some v) : v ∈ below q := by
  rw [acceptedChunk] at h
  split at h
  · next hlt => exact Option.some.inj h ▸ mem_below.mpr hlt
  · exact absurd h nofun

theorem acceptedChunk_eq_some (hlen : 0 < byteLen q) (chunk : Fin (byteLen q) → UInt8)
    {v : UInt64} (hv : v < q) :
    acceptedChunk q chunk = some v ↔ chunkValue chunk % 2 ^ bitLen q = v.toNat := by
  have hvalue : (littleEndian (maskedChunk q chunk)).toNat = chunkValue chunk % 2 ^ bitLen q := by
    obtain ⟨n, hn⟩ : ∃ n, byteLen q = n + 1 := ⟨byteLen q - 1, by omega⟩
    have hbits : byteLen q = (bitLen q + 7) / 8 := rfl
    have hle := byteLen_le q
    generalize byteLen q = len at *
    subst hn
    exact littleEndian_maskedChunk (by omega) (by omega) (by omega) chunk
  rw [← hvalue, UInt64.toNat_inj, acceptedChunk]
  constructor
  · intro h
    split at h
    · exact Option.some.inj h
    · exact absurd h nofun
  · intro h
    rw [h, if_pos hv]

/-- The bytes of a run, cut into the chunks of its tries. -/
def chunksEquiv (tries n : ℕ) : (Fin (tries * n) → UInt8) ≃ (Fin tries → Fin n → UInt8) :=
  (Equiv.arrowCongr finProdFinEquiv.symm (.refl _)).trans (Equiv.curry _ _ _)

theorem readerOf_chunk {tries n : ℕ} (bytes : Fin (tries * n) → UInt8) (t : Fin tries)
    (i : Fin n) (absorbed : List UInt8) :
    readerOf bytes absorbed (i + n * t) = chunksEquiv tries n bytes t i := by
  have hlt : (i + n * t : ℕ) < tries * n := (finProdFinEquiv (t, i)).isLt
  rw [readerOf, dif_pos hlt]
  rfl

theorem ncard_drawing (hlen : 0 < byteLen q) (tries : ℕ) (v : UInt64) :
    (drawing q tries v).ncard =
      (RejectionRuns.runs (acceptedChunk q (n := byteLen q)) tries v).card := by
  have hset : drawing q tries v = Set.preimage (chunksEquiv tries (byteLen q))
      (RejectionRuns.runs (acceptedChunk q (n := byteLen q)) tries v) := by
    ext bytes
    rw [drawing, Set.mem_ofPred_eq, sampleZqx_returns _ hlen, Set.mem_preimage, Finset.mem_coe,
      RejectionRuns.mem_runs]
    simp only [newShake256, Nat.zero_add, readerOf_chunk]
  rw [hset, Set.ncard_preimage_of_injective_subset_range (Equiv.injective _)
    (by simp), Set.ncard_coe_finset]

theorem card_hits (hlen : 0 < byteLen q) {v : UInt64} (hv : v < q)
    (hbits : v.toNat < 2 ^ bitLen q) :
    (RejectionRuns.hits (acceptedChunk q (n := byteLen q)) v).card =
      2 ^ (8 * byteLen q - bitLen q) := by
  have hle : bitLen q ≤ 8 * byteLen q := by
    rw [byteLen]
    omega
  rw [← card_chunkValue_mod hle hbits]
  refine congrArg Finset.card (Finset.ext fun chunk ↦ ?_)
  rw [RejectionRuns.hits, Finset.mem_filter, Finset.mem_filter, acceptedChunk_eq_some hlen chunk hv]

theorem card_chunks (n : ℕ) : Fintype.card (Fin n → UInt8) = 256 ^ n :=
  (Fintype.card_congr (chunkEquiv n)).trans (Fintype.card_fin _)

end Counts

/-- A modulus that is not one above a power of two is at most the power of two of
its bit length, so all its values are residues. -/
theorem uniformBelow_of_ne {q : UInt64} (hq : 2 ≤ q) (hne : ∀ k, q.toNat ≠ 2 ^ k + 1) :
    UniformBelow q := by
  have hbits := bitLen_pos hq (hne 0)
  have hlen : 0 < byteLen q := by
    rw [byteLen]
    omega
  have htop : q.toNat ≤ 2 ^ bitLen q := by
    have := le_two_pow_bitLen hq
    have := hne (bitLen q)
    omega
  have hhits : ∀ v ∈ below q, (RejectionRuns.hits (acceptedChunk q (n := byteLen q)) v).card =
      2 ^ (8 * byteLen q - bitLen q) := by
    intro v hv
    have hlt : v < q := mem_below.mp hv
    exact card_hits hlen hlt (lt_of_lt_of_le hlt htop)
  have hruns : ∀ tries, ∀ v < q, q.toNat * (drawing q tries v).ncard +
      (RejectionRuns.misses (acceptedChunk q (n := byteLen q))).card ^ tries =
        (256 ^ byteLen q) ^ tries := by
    intro tries v hv
    rw [ncard_drawing hlen, ← card_below, ← card_chunks]
    exact RejectionRuns.card_runs_eq hhits acceptedChunk_mem tries (mem_below.mpr hv)
  refine ⟨fun shake256 ↦ sampleZqx_ne_outOfRange shake256 hlen,
    ⟨2 ^ (8 * byteLen q - bitLen q), by positivity, ?_⟩, fun tries ↦ ?_, ?_⟩
  · intro v hv
    rw [ncard_drawing hlen, RejectionRuns.card_runs_one]
    exact hhits v (mem_below.mpr hv)
  · have htwo : 2 ≤ q.toNat := hq
    have h0 : 0 < q := UInt64.lt_iff_toNat_lt.mpr (Nat.lt_of_lt_of_le Nat.two_pos htwo)
    refine ⟨(drawing q tries 0).ncard, fun v hv ↦ ?_⟩
    have heq := (hruns tries v hv).trans (hruns tries 0 h0).symm
    exact Nat.eq_of_mul_eq_mul_left h0 (Nat.add_right_cancel heq)
  · intro v hv
    have hlimit := RejectionRuns.tendsto_runs hhits acceptedChunk_mem (by positivity)
      (mem_below.mpr hv)
    rw [card_below] at hlimit
    refine hlimit.congr fun tries ↦ ?_
    rw [ncard_drawing hlen, card_chunks, Nat.mul_comm tries, pow_mul]
    push_cast
    rfl

/-- One above a power of two the bit length is one short: the largest value is no
residue, and two leaves no byte to mask. -/
theorem not_uniformBelow {q : UInt64} (hq : 2 ≤ q) {k : ℕ} (hk : q.toNat = 2 ^ k + 1) :
    ¬ UniformBelow q := by
  intro huniform
  have hbits := bitLen_of_succ_two_pow hq hk
  rcases Nat.eq_zero_or_pos (byteLen q) with hlen | hlen
  · refine huniform.in_range (fun _ _ ↦ 0) 1 newShake256 ?_
    rw [sampleZqx, hlen]
    rfl
  · obtain ⟨m, hm, hcount⟩ := huniform.same_count
    have hlast : (q - 1).toNat = 2 ^ k := by
      have hone : 1 ≤ q := UInt64.le_iff_toNat_le.mpr (by rw [hk]; exact Nat.le_add_left 1 _)
      rw [UInt64.toNat_sub_of_le q 1 hone, hk]
      rfl
    have hlt : q - 1 < q := by
      rw [UInt64.lt_iff_toNat_lt]
      omega
    have hzero : (drawing q 1 (q - 1)).ncard = 0 := by
      rw [ncard_drawing hlen, RejectionRuns.card_runs_one, Finset.card_eq_zero]
      refine Finset.filter_eq_empty_iff.mpr fun chunk _ h ↦ ?_
      rw [acceptedChunk_eq_some hlen chunk hlt, hbits, hlast] at h
      exact absurd h (Nat.mod_lt _ (by positivity)).ne
    rw [hcount (q - 1) hlt] at hzero
    omega

/-- `sampleZqx` keeps the promise of its comment for the moduli that are not one
above a power of two, and for no others. -/
theorem sampleZqx_uniform_iff {q : UInt64} (hq : 2 ≤ q) :
    UniformBelow q ↔ ¬ ∃ k, q.toNat = 2 ^ k + 1 := by
  constructor
  · rintro huniform ⟨k, hk⟩
    exact not_uniformBelow hq hk huniform
  · intro h
    exact uniformBelow_of_ne hq fun k hk ↦ h ⟨k, hk⟩

/-- The modulus of the two ciphers is sampled uniformly. -/
theorem sampleZqx_uniform_plainWord : UniformBelow plainWord := by
  refine (sampleZqx_uniform_iff (by decide)).mpr ?_
  rintro ⟨k, hk⟩
  have hword : plainWord.toNat = 33292289 := by decide
  have hlow : 2 ^ 24 < 2 ^ k := by omega
  have hhigh : 2 ^ k < 2 ^ 25 := by omega
  have hk₁ := (Nat.pow_lt_pow_iff_right (by decide)).mp hlow
  have hk₂ := (Nat.pow_lt_pow_iff_right (by decide)).mp hhigh
  omega

/-- Of a Fermat prime the largest value is never drawn. -/
theorem sampleZqx_fermat : ¬ UniformBelow 65537 :=
  not_uniformBelow (by decide) (k := 16) (by decide)

end Ppfdaas.Transcipher
