import Ppfdaas.Library.DrawStream
import Ppfdaas.Library.UniformSampling
import Ppfdaas.Vendor.CnpCodec

/-!
# The sampler of the output mask

`UniformModQ` of `cnp_codec.h` on machine words: the rejection bound, and
`next()` with its buffer of 2048 draws.
-/

namespace Ppfdaas.Cnp.UniformModQ

open DrawStream UniformSampling

/-! ## The rejection bound -/

/-- `std::numeric_limits<std::uint64_t>::max()`. -/
def maxWord : UInt64 := 18446744073709551615

/-- `reject_from_` as the constructor computes it. -/
def rejectFromWord (q : UInt64) : UInt64 := maxWord - (maxWord % q + 1) % q

theorem toNat_pos {q : UInt64} (hq : q ≠ 0) : 0 < q.toNat :=
  Nat.pos_of_ne_zero fun h ↦ hq (UInt64.toNat_inj.mp h)

theorem toNat_rejectFromWord {q : UInt64} (hq : q ≠ 0) :
    (rejectFromWord q).toNat = rejectFrom q.toNat := by
  have hpos := toNat_pos hq
  have hlt := q.toNat_lt
  have hmax : maxWord.toNat = 2 ^ 64 - 1 := rfl
  have hmod := Nat.mod_lt (2 ^ 64 - 1) hpos
  -- the remainder is below `q`, so that adding one does not wrap
  have hsucc : (maxWord % q + 1).toNat = (2 ^ 64 - 1) % q.toNat + 1 := by
    rw [UInt64.toNat_add, UInt64.toNat_mod, hmax]
    exact Nat.mod_eq_of_lt (by simp only [UInt64.toNat_one]; omega)
  have hsub : ((maxWord % q + 1) % q).toNat = ((2 ^ 64 - 1) % q.toNat + 1) % q.toNat := by
    rw [UInt64.toNat_mod, hsucc]
  have hrem := Nat.mod_lt ((2 ^ 64 - 1) % q.toNat + 1) hpos
  rw [rejectFromWord, UInt64.toNat_sub_of_le, hmax, hsub, rejectFrom]
  rw [UInt64.le_iff_toNat_le, hmax, hsub]
  omega

/-- What the sampler makes of a draw, by the definition of an unbiased residue. -/
def spec (q : UInt64) (r : UInt64) : Option ℕ := keptResidue (2 ^ 64) q.toNat r.toNat

theorem spec_eq {q : UInt64} (hq : q ≠ 0) (r : UInt64) :
    spec q r = if r ≤ rejectFromWord q then some (r % q).toNat else none := by
  have hkept : r ≤ rejectFromWord q ↔ r.toNat < 2 ^ 64 / q.toNat * q.toNat := by
    rw [UInt64.le_iff_toNat_le, toNat_rejectFromWord hq]
    exact le_largestKept_iff (toNat_pos hq) q.toNat_lt.le
  simp only [spec, keptResidue, hkept, UInt64.toNat_mod]

theorem bijOn_toNat : Set.BijOn UInt64.toNat Set.univ (Set.Iio (2 ^ 64)) := by
  refine ⟨fun r _ ↦ r.toNat_lt, fun r _ r' _ h ↦ UInt64.toNat_inj.mp h, fun n hn ↦ ?_⟩
  exact ⟨UInt64.ofNat n, trivial, UInt64.toNat_ofNat_of_lt' hn⟩

/-! ## The sampler -/

/-- The generator, by the words it delivers. -/
structure Prng where
  words : ℕ → UInt64
  generated : ℕ

/-- `generate` into a buffer of `n` words. -/
def Prng.generate (g : Prng) (n : ℕ) : List UInt64 × Prng :=
  (taken (fun j ↦ g.words (g.generated + j)) n, { g with generated := g.generated + n })

/-- The members of the class, and the draws read from `buf_` so far. -/
structure Sampler where
  prng : Prng
  q : UInt64
  rejectFrom : UInt64
  buf : List UInt64
  pos : ℕ
  reads : List UInt64

def bufWords : ℕ := 2048

def Sampler.new (words : ℕ → UInt64) (q : UInt64) : Sampler where
  prng := ⟨words, 0⟩
  q := q
  rejectFrom := rejectFromWord q
  buf := List.replicate bufWords 0
  pos := bufWords
  reads := []

inductive Stop
  | outOfBounds
  | running
  deriving DecidableEq, Repr

def Sampler.refill (s : Sampler) : Sampler :=
  if s.pos = s.buf.length then
    let (words, prng) := s.prng.generate s.buf.length
    { s with prng := prng, buf := words, pos := 0 }
  else s

/-- `r = buf_[pos_++]`. -/
def Sampler.read (s : Sampler) : Except Stop (UInt64 × Sampler) :=
  match s.buf[s.pos]? with
  | none => .error .outOfBounds
  | some r => .ok (r, { s with pos := s.pos + 1, reads := s.reads ++ [r] })

/-- `next()`, for at most so many turns of its loop. -/
def next : (turns : ℕ) → Sampler → Except Stop (UInt64 × Sampler)
  | 0, _ => .error .running
  | turns + 1, s => do
      let (r, s) ← s.refill.read
      if r ≤ s.rejectFrom then return (r % s.q, s) else next turns s

/-- `m` calls of `next()` in a row. -/
def calls (turns : ℕ) : (m : ℕ) → Sampler → Except Stop (List UInt64 × Sampler)
  | 0, s => return ([], s)
  | m + 1, s => do
      let (v, s) ← next turns s
      let (vs, s) ← calls turns m s
      return (v :: vs, s)

/-! ## The buffer -/

section Buffer

variable (words : ℕ → UInt64) (q : UInt64)

/-- The sampler has read the first `n` draws of the stream, and what is left in
its buffer are the next ones. -/
structure HasRead (n : ℕ) (s : Sampler) : Prop where
  modulus : s.q = q
  bound : s.rejectFrom = rejectFromWord q
  stream : s.prng.words = words
  size : s.buf.length = bufWords
  pos_le : s.pos ≤ bufWords
  generated : s.prng.generated + s.pos = n + bufWords
  buffered : ∀ j, s.pos + j < bufWords → s.buf[s.pos + j]? = some (words (n + j))
  reads : s.reads = taken words n

theorem hasRead_new : HasRead words q 0 (.new words q) where
  modulus := rfl
  bound := rfl
  stream := rfl
  size := by simp [Sampler.new]
  pos_le := le_rfl
  generated := rfl
  buffered := by
    intro j hj
    simp only [Sampler.new] at hj
    omega
  reads := rfl

variable {words q} {n : ℕ} {s : Sampler}

theorem HasRead.refill (hs : HasRead words q n s) :
    HasRead words q n s.refill ∧ s.refill.pos < bufWords := by
  by_cases hfull : s.pos = s.buf.length
  · have hgen : s.prng.generated = n := by
      have := hs.generated
      have := hs.size
      omega
    have hrefill : s.refill = { s with
        prng := { s.prng with generated := n + bufWords }
        buf := taken (fun j ↦ words (n + j)) bufWords
        pos := 0 } := by
      simp [Sampler.refill, Prng.generate, hfull, hs.size, hgen, hs.stream]
    rw [hrefill]
    refine ⟨⟨hs.modulus, hs.bound, hs.stream, by simp, Nat.zero_le _, Nat.add_zero _, ?_,
      hs.reads⟩, by simp [bufWords]⟩
    intro j hj
    dsimp only at hj ⊢
    rw [Nat.zero_add] at hj ⊢
    exact getElem?_taken (fun j ↦ words (n + j)) hj
  · have hrefill : s.refill = s := by simp [Sampler.refill, hfull]
    rw [hrefill]
    refine ⟨hs, lt_of_le_of_ne hs.pos_le ?_⟩
    rw [← hs.size]
    exact hfull

/-- A read is in bounds and yields the next draw of the stream. -/
theorem HasRead.read (hs : HasRead words q n s) (hpos : s.pos < bufWords) :
    ∃ s', s.read = .ok (words n, s') ∧ HasRead words q (n + 1) s' := by
  have hbuf : s.buf[s.pos]? = some (words n) := by
    simpa using hs.buffered 0 hpos
  refine ⟨_, by rw [Sampler.read, hbuf], ?_⟩
  refine ⟨hs.modulus, hs.bound, hs.stream, hs.size, hpos, ?_, ?_, ?_⟩
  · have := hs.generated
    dsimp only
    omega
  · intro j hj
    dsimp only at hj ⊢
    have hbuf' := hs.buffered (j + 1) (by omega)
    have hpos' : s.pos + 1 + j = s.pos + (j + 1) := by omega
    have hn : n + 1 + j = n + (j + 1) := by omega
    rw [hpos', hn]
    exact hbuf'
  · simp [hs.reads, taken_succ]

theorem HasRead.turn (hs : HasRead words q n s) :
    ∃ s', s.refill.read = .ok (words n, s') ∧ HasRead words q (n + 1) s' :=
  hs.refill.1.read hs.refill.2

end Buffer

/-! ## Calls of `next()` -/

section Calls

variable {words : ℕ → UInt64} {q : UInt64} {n : ℕ} {s : Sampler}

/-- `next()` returns the residue of the next draw that is accepted, or all draws
it could read are rejected. -/
theorem HasRead.next (hq : q ≠ 0) (hs : HasRead words q n s) (turns : ℕ) :
    (∃ k v s', next turns s = .ok (v, s') ∧ HasRead words q k s' ∧
      kept (spec q) words k = kept (spec q) words n ++ [v.toNat]) ∨
    next turns s = .error .running ∧ kept (spec q) words (n + turns) = kept (spec q) words n := by
  induction turns generalizing n s with
  | zero => exact .inr ⟨rfl, rfl⟩
  | succ turns ih =>
      obtain ⟨s', hread, hs'⟩ := hs.turn
      have hnext : UniformModQ.next (turns + 1) s =
          if words n ≤ rejectFromWord q then .ok (words n % q, s')
          else UniformModQ.next turns s' := by
        rw [UniformModQ.next, hread, ← hs'.bound, ← hs'.modulus]
        rfl
      by_cases haccept : words n ≤ rejectFromWord q
      · left
        refine ⟨n + 1, words n % q, s', by rw [hnext, if_pos haccept], hs', ?_⟩
        exact kept_succ_of_some (by rw [spec_eq hq, if_pos haccept])
      · have hkept : kept (spec q) words (n + 1) = kept (spec q) words n :=
          kept_succ_of_none (by rw [spec_eq hq, if_neg haccept])
        rw [hnext, if_neg haccept, ← hkept]
        have hturns : n + (turns + 1) = n + 1 + turns := by omega
        rw [hturns]
        exact ih hs'

theorem calls_succ {turns m : ℕ} {v : UInt64} {s' : Sampler}
    (h : UniformModQ.next turns s = .ok (v, s')) :
    UniformModQ.calls turns (m + 1) s =
      (UniformModQ.calls turns m s').map fun r ↦ (v :: r.1, r.2) := by
  rw [UniformModQ.calls, h]
  cases hcalls : UniformModQ.calls turns m s' <;> simp [hcalls, bind, Except.bind, Except.map]
  rfl

/-- `m` calls return the residues of the next `m` draws that are accepted, or
some call reads rejected draws only. -/
theorem HasRead.calls (hq : q ≠ 0) (hs : HasRead words q n s) (turns m : ℕ) :
    (∃ k vs s', calls turns m s = .ok (vs, s') ∧ HasRead words q k s' ∧ vs.length = m ∧
      kept (spec q) words k = kept (spec q) words n ++ vs.map UInt64.toNat) ∨
    calls turns m s = .error .running ∧
      (kept (spec q) words turns).length < (kept (spec q) words n).length + m := by
  induction m generalizing n s with
  | zero => exact .inl ⟨n, [], s, rfl, hs, rfl, by simp⟩
  | succ m ih =>
      rcases hs.next hq turns with ⟨k, v, s', hnext, hs', hkept⟩ | ⟨hnext, hkept⟩
      · rcases ih hs' with ⟨k', vs, s'', hcalls, hs'', hlength, hkept'⟩ | ⟨hcalls, hshort⟩
        · left
          refine ⟨k', v :: vs, s'', ?_, hs'', by simp [hlength], ?_⟩
          · rw [calls_succ hnext, hcalls]
            rfl
          · simp [hkept', hkept]
        · right
          refine ⟨?_, ?_⟩
          · rw [calls_succ hnext, hcalls]
            rfl
          · rw [hkept, List.length_append, List.length_singleton] at hshort
            omega
      · right
        refine ⟨?_, ?_⟩
        · rw [UniformModQ.calls, hnext]
          rfl
        · have hle : (kept (spec q) words turns).length ≤ (kept (spec q) words n).length := by
            rw [← hkept]
            exact length_kept_le (Nat.le_add_left turns n)
          omega

end Calls

/-- Of the draws, `floor(2^64 / q) * q` pass the test, and each residue has the
same number of them. -/
structure ExactlyUniform (q : UInt64) : Prop where
  accepted : {r | r ≤ rejectFromWord q}.ncard = 2 ^ 64 / q.toNat * q.toNat
  even : ∀ v < q, {r | r ≤ rejectFromWord q ∧ r % q = v}.ncard = 2 ^ 64 / q.toNat

theorem exactlyUniform {q : UInt64} (hq : q ≠ 0) : ExactlyUniform q where
  accepted := ncard_test bijOn_toNat (spec_eq hq)
  even := by
    intro v hv
    have hcount := ncard_test_value bijOn_toNat (spec_eq hq) (UInt64.lt_iff_toNat_lt.mp hv)
    simpa only [UInt64.toNat_inj] using hcount

/-- What calls of `next()` on a new sampler do, on one stream of draws. -/
structure ReturnsAccepted (words : ℕ → UInt64) (q : UInt64) : Prop where
  /-- The values are those of the accepted draws in order, and every draw read is
  read once, in the order of the stream. -/
  values : ∀ {turns m vs s}, calls turns m (.new words q) = .ok (vs, s) → vs.length = m ∧
    ∃ n, s.reads = taken words n ∧ vs.map UInt64.toNat = kept (spec q) words n
  inBounds : ∀ turns m, calls turns m (.new words q) ≠ .error .outOfBounds
  /-- With `m` accepted draws among the first `n`, `m` calls return. -/
  returns : ∀ {turns m n}, m ≤ (kept (spec q) words n).length → n ≤ turns →
    ∃ r, calls turns m (.new words q) = .ok r

theorem returnsAccepted {q : UInt64} (hq : q ≠ 0) (words : ℕ → UInt64) :
    ReturnsAccepted words q where
  values := by
    intro turns m vs s h
    rcases (hasRead_new words q).calls hq turns m with
      ⟨n, vs', s', hcalls, hs', hlength, hkept⟩ | ⟨hcalls, -⟩
    · obtain ⟨rfl, rfl⟩ : vs' = vs ∧ s' = s := by simpa [hcalls] using h
      exact ⟨hlength, n, hs'.reads, by simpa using hkept.symm⟩
    · simp [hcalls] at h
  inBounds := by
    intro turns m h
    rcases (hasRead_new words q).calls hq turns m with ⟨n, vs, s, hcalls, -⟩ | ⟨hcalls, -⟩
    · simp [hcalls] at h
    · simp [hcalls] at h
  returns := by
    intro turns m n hm hn
    rcases (hasRead_new words q).calls hq turns m with ⟨k, vs, s, hcalls, -⟩ | ⟨-, hshort⟩
    · exact ⟨_, hcalls⟩
    · have hle : (kept (spec q) words n).length ≤ (kept (spec q) words turns).length :=
        length_kept_le hn
      rw [kept_zero, List.length_nil, Nat.zero_add] at hshort
      omega

/-- What `build_output_mask` takes from its sampler are values of accepted draws. -/
theorem acceptedDraw_of_calls {words : ℕ → UInt64} {q : UInt64} (hq : q ≠ 0) {turns m : ℕ}
    {vs : List UInt64} {s : Sampler} (h : calls turns m (.new words q) = .ok (vs, s))
    {v : UInt64} (hv : v ∈ vs) : ∃ r : AcceptedDraw q.toNat, r.value = v.toNat := by
  obtain ⟨-, n, -, hvalues⟩ := (returnsAccepted hq words).values h
  have hmem : v.toNat ∈ kept (spec q) words n := hvalues ▸ List.mem_map_of_mem hv
  obtain ⟨r, -, hr⟩ := List.mem_filterMap.mp hmem
  rw [spec_eq hq] at hr
  split_ifs at hr with haccept
  have hle : r.toNat ≤ rejectFrom q.toNat := by
    rw [← toNat_rejectFromWord hq]
    exact UInt64.le_iff_toNat_le.mp haccept
  refine ⟨⟨r.toNat, hle⟩, ?_⟩
  simpa [AcceptedDraw.value] using hr

end Ppfdaas.Cnp.UniformModQ
