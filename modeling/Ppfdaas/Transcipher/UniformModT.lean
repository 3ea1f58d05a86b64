import Ppfdaas.Transcipher.ShakePrf
import Ppfdaas.Vendor.UniformModQ

/-!
# The sampler of the toy masks

`cnpUniformModT` of `rtf_cnp_test.go`: `dst` is filled from `crypto/rand` by
rejection on 32-bit draws, with a buffer that shrinks to what is missing.
-/

namespace Ppfdaas.Transcipher.UniformModT

open DrawStream UniformSampling

/-- `crypto/rand`: the bytes it delivers, and the error of each call. -/
structure Reader where
  bytes : ℕ → UInt8
  err : ℕ → Option String

/-- `binary.LittleEndian.Uint32`. -/
def uint32 (b0 b1 b2 b3 : UInt8) : UInt32 :=
  b0.toUInt32 ||| b1.toUInt32 <<< 8 ||| b2.toUInt32 <<< 16 ||| b3.toUInt32 <<< 24

/-- The locals of the function, the reads made and the bytes they delivered, and
the indices of `dst` that were written. -/
structure Locals where
  dst : List UInt64
  i : ℕ
  bufLen : ℕ
  calls : ℕ
  delivered : ℕ
  writes : List ℕ

def limitOf (t : UInt64) : UInt64 := (1 : UInt64) <<< 32 / t * t

def Locals.start (dst : List UInt64) : Locals where
  dst := dst
  i := 0
  bufLen := 4 * dst.length
  calls := 0
  delivered := 0
  writes := []

/-- `if r < limit { dst[i] = r % t; i++ }`. -/
def Locals.draw (s : Locals) (t : UInt64) (d : UInt32) : Locals :=
  let r := d.toUInt64
  if r < limitOf t then
    { s with dst := s.dst.set s.i (r % t), i := s.i + 1, writes := s.writes ++ [s.i] }
  else s

/-- The loop over `k`, on what is left of the buffer. -/
def scan (t : UInt64) : List UInt8 → Locals → Locals
  | b0 :: b1 :: b2 :: b3 :: buf, s =>
      if s.i < s.dst.length then scan t buf (s.draw t (uint32 b0 b1 b2 b3)) else s
  | _, s => s

/-- The outer loop, for at most so many turns. -/
def fill (rand : Reader) (t : UInt64) : (turns : ℕ) → Locals → Except Fault Locals
  | 0, s => if s.i < s.dst.length then throw .running else return s
  | turns + 1, s =>
      if s.i < s.dst.length then
        match rand.err s.calls with
        | some err => throw (.err err)
        | none =>
            let buf := taken (fun j ↦ rand.bytes (s.delivered + j)) s.bufLen
            let s := scan t buf
              { s with calls := s.calls + 1, delivered := s.delivered + s.bufLen }
            let s := { s with bufLen := 4 * (s.dst.length - s.i) }
            if s.bufLen = 0 then return s else fill rand t turns s
      else return s

def cnpUniformModT (rand : Reader) (turns : ℕ) (dst : List UInt64) (t : UInt64) :
    Except Fault Locals :=
  if t = 0 then throw (.err "runtime error: integer divide by zero")
  else fill rand t turns (.start dst)

/-! ## Draws -/

/-- The draws of the stream: four bytes each. -/
def draws (rand : Reader) (n : ℕ) : UInt32 :=
  uint32 (rand.bytes (4 * n)) (rand.bytes (4 * n + 1)) (rand.bytes (4 * n + 2))
    (rand.bytes (4 * n + 3))

/-- What the sampler makes of a draw, by the definition of an unbiased residue. -/
def spec (t : UInt64) (d : UInt32) : Option ℕ := keptResidue (2 ^ 32) t.toNat d.toNat

theorem bijOn_toNat : Set.BijOn UInt32.toNat Set.univ (Set.Iio (2 ^ 32)) := by
  refine ⟨fun d _ ↦ d.toNat_lt, fun d _ d' _ h ↦ UInt32.toNat_inj.mp h, fun n hn ↦ ?_⟩
  exact ⟨UInt32.ofNat n, trivial, UInt32.toNat_ofNat_of_lt' hn⟩

theorem toNat_limitOf {t : UInt64} : (limitOf t).toNat = 2 ^ 32 / t.toNat * t.toNat := by
  have hword : ((1 : UInt64) <<< 32).toNat = 2 ^ 32 := rfl
  have hle := Nat.div_mul_le_self (2 ^ 32) t.toNat
  rw [limitOf, UInt64.toNat_mul, UInt64.toNat_div, hword]
  exact Nat.mod_eq_of_lt (by omega)

theorem spec_eq (t : UInt64) (d : UInt32) :
    spec t d = if d.toUInt64 < limitOf t then some (d.toUInt64 % t).toNat else none := by
  have hkept : d.toUInt64 < limitOf t ↔ d.toNat < 2 ^ 32 / t.toNat * t.toNat := by
    rw [UInt64.lt_iff_toNat_lt, toNat_limitOf, UInt32.toNat_toUInt64]
  simp only [spec, keptResidue, hkept, UInt64.toNat_mod, UInt32.toNat_toUInt64]

/-! ## Filling `dst` -/

section Filling

variable (rand : Reader) (t : UInt64) (dst : List UInt64)

/-- Of the first `n` draws, `dst` has the accepted ones in front. -/
structure Front (n : ℕ) (s : Locals) : Prop where
  i_eq : s.i = (kept (spec t) (draws rand) n).length
  i_le : s.i ≤ dst.length
  values : s.dst.map UInt64.toNat =
    kept (spec t) (draws rand) n ++ (dst.drop s.i).map UInt64.toNat
  writes : s.writes = List.range s.i

/-- Between two turns of the outer loop, after `n` draws. -/
structure Filled (n : ℕ) (s : Locals) : Prop extends Front rand t dst n s where
  bufLen : s.bufLen = 4 * (dst.length - s.i)
  delivered : s.delivered = 4 * n
  /-- No draw was taken from the reader after `dst` was full. -/
  needed : ∀ k < n, (kept (spec t) (draws rand) k).length < dst.length

variable {rand t dst} {n : ℕ} {s : Locals}

namespace Front

theorem length_dst (hs : Front rand t dst n s) : s.dst.length = dst.length := by
  have hlength := congrArg List.length hs.values
  have hi := hs.i_eq
  have hle := hs.i_le
  simp only [List.length_map, List.length_append, List.length_drop] at hlength
  omega

theorem draw (hs : Front rand t dst n s) (hi : s.i < dst.length) :
    Front rand t dst (n + 1) (s.draw t (draws rand n)) := by
  have hspec := spec_eq t (draws rand n)
  by_cases haccept : (draws rand n).toUInt64 < limitOf t
  · rw [if_pos haccept] at hspec
    have hkept := kept_succ_of_some hspec
    have hdraw : s.draw t (draws rand n) = { s with
        dst := s.dst.set s.i ((draws rand n).toUInt64 % t)
        i := s.i + 1
        writes := s.writes ++ [s.i] } := by
      simp [Locals.draw, haccept]
    rw [hdraw]
    refine ⟨?_, hi, ?_, ?_⟩
    · rw [hkept, List.length_append, ← hs.i_eq, List.length_singleton]
    · have hrest : (dst.drop s.i).map UInt64.toNat =
          dst[s.i].toNat :: (dst.drop (s.i + 1)).map UInt64.toNat := by
        rw [List.drop_eq_getElem_cons hi, List.map_cons]
      have hzero : s.i - (kept (spec t) (draws rand) n).length = 0 := by
        rw [hs.i_eq, Nat.sub_self]
      rw [hkept, List.map_set, hs.values, hrest, List.set_append_right _ _ hs.i_eq.ge, hzero,
        List.set_cons_zero, List.append_assoc, List.singleton_append]
    · rw [hs.writes, List.range_succ]
  · rw [if_neg haccept] at hspec
    have hkept := kept_succ_of_none hspec
    have hdraw : s.draw t (draws rand n) = s := by simp [Locals.draw, haccept]
    rw [hdraw]
    exact ⟨by rw [hkept, hs.i_eq], hs.i_le, by rw [hkept, hs.values], hs.writes⟩

end Front

theorem draw_i_le (d : UInt32) : (s.draw t d).i ≤ s.i + 1 := by
  simp only [Locals.draw]
  split <;> simp

/-- A buffer of `m` draws is used up when at least `m` entries are missing. -/
theorem Front.scan {m : ℕ} (hs : Front rand t dst n s) (hm : s.i + m ≤ dst.length) :
    Front rand t dst (n + m)
      (scan t (taken (fun j ↦ rand.bytes (4 * n + j)) (4 * m)) s) := by
  induction m generalizing n s with
  | zero => exact hs
  | succ m ih =>
      have hi : s.i < dst.length := by omega
      have hbuf : taken (fun j ↦ rand.bytes (4 * n + j)) (4 * (m + 1)) =
          rand.bytes (4 * n) :: rand.bytes (4 * n + 1) :: rand.bytes (4 * n + 2) ::
            rand.bytes (4 * n + 3) :: taken (fun j ↦ rand.bytes (4 * (n + 1) + j)) (4 * m) := by
        have hsize : 4 * (m + 1) = 4 * m + 1 + 1 + 1 + 1 := by omega
        have hnext : ∀ j, 4 * n + (j + 1 + 1 + 1 + 1) = 4 * (n + 1) + j := by
          intro j
          omega
        rw [hsize]
        simp only [taken_succ_front, hnext]
        rfl
      have hle := draw_i_le (s := s) (t := t) (draws rand n)
      rw [hbuf, UniformModT.scan, if_pos (hs.length_dst.symm ▸ hi), ← Nat.add_assoc,
        Nat.add_right_comm]
      exact ih (s := s.draw t (draws rand n)) (hs.draw hi) (by omega)

theorem scan_delivered (buf : List UInt8) : (scan t buf s).delivered = s.delivered := by
  fun_induction scan t buf s with
  | case1 b0 b1 b2 b3 buf s hi ih =>
      rw [ih]
      simp only [Locals.draw]
      split <;> rfl
  | case2 | case3 => rfl

/-- A turn of the outer loop reads as many draws as there are entries missing. -/
theorem Filled.turn (hs : Filled rand t dst n s) (hi : s.i < dst.length) {s' : Locals}
    (hturn : s' = scan t (taken (fun j ↦ rand.bytes (s.delivered + j)) s.bufLen)
      { s with calls := s.calls + 1, delivered := s.delivered + s.bufLen }) :
    Filled rand t dst (n + (dst.length - s.i))
      { s' with bufLen := 4 * (s'.dst.length - s'.i) } := by
  have hread : Front rand t dst n
      { s with calls := s.calls + 1, delivered := s.delivered + s.bufLen } :=
    ⟨hs.i_eq, hs.i_le, hs.values, hs.writes⟩
  have hbuf : taken (fun j ↦ rand.bytes (s.delivered + j)) s.bufLen =
      taken (fun j ↦ rand.bytes (4 * n + j)) (4 * (dst.length - s.i)) := by
    rw [hs.delivered, hs.bufLen]
  have hscan : Front rand t dst (n + (dst.length - s.i)) s' := by
    rw [hturn, hbuf]
    exact hread.scan (m := dst.length - s.i) (by dsimp only; omega)
  refine ⟨⟨hscan.i_eq, hscan.i_le, hscan.values, hscan.writes⟩, ?_, ?_, ?_⟩
  · dsimp only
    rw [hscan.length_dst]
  · have hdelivered : s'.delivered = s.delivered + s.bufLen := by
      rw [hturn, scan_delivered]
    dsimp only
    rw [hdelivered, hs.delivered, hs.bufLen]
    omega
  · intro k hk
    rcases Nat.lt_or_ge k n with hkn | hnk
    · exact hs.needed k hkn
    · obtain ⟨d, rfl⟩ := Nat.exists_eq_add_of_le hnk
      have hle := length_kept_add_le (spec t) (draws rand) n d
      rw [← hs.i_eq] at hle
      omega

/-- The loop fills `dst`, fails with the reader, or has read draws too few of
which are accepted. -/
theorem Filled.fill (hs : Filled rand t dst n s) (turns : ℕ) :
    (∃ k s', fill rand t turns s = .ok s' ∧ Filled rand t dst k s' ∧ s'.i = dst.length) ∨
    (∃ call err, rand.err call = some err ∧ fill rand t turns s = .error (.err err)) ∨
    fill rand t turns s = .error .running ∧
      (kept (spec t) (draws rand) (n + turns)).length < dst.length := by
  have hlength := hs.length_dst
  have hle := hs.i_le
  induction turns generalizing n s with
  | zero =>
      by_cases hi : s.i < dst.length
      · right
        right
        refine ⟨by rw [UniformModT.fill, hlength, if_pos hi]; rfl, ?_⟩
        rw [Nat.add_zero, ← hs.i_eq]
        exact hi
      · left
        exact ⟨n, s, by rw [UniformModT.fill, hlength, if_neg hi]; rfl, hs, by omega⟩
  | succ turns ih =>
      by_cases hi : s.i < dst.length
      swap
      · left
        exact ⟨n, s, by rw [UniformModT.fill, hlength, if_neg hi]; rfl, hs, by omega⟩
      cases herr : rand.err s.calls with
      | some err =>
          right
          left
          refine ⟨s.calls, err, herr, ?_⟩
          rw [UniformModT.fill, hlength, if_pos hi, herr]
          rfl
      | none =>
          have hnext := hs.turn hi rfl
          generalize hs' : UniformModT.scan t
            (taken (fun j ↦ rand.bytes (s.delivered + j)) s.bufLen)
            { s with calls := s.calls + 1, delivered := s.delivered + s.bufLen } = s' at hnext
          have hfill : UniformModT.fill rand t (turns + 1) s =
              if 4 * (s'.dst.length - s'.i) = 0 then
                .ok { s' with bufLen := 4 * (s'.dst.length - s'.i) }
              else UniformModT.fill rand t turns
                { s' with bufLen := 4 * (s'.dst.length - s'.i) } := by
            rw [UniformModT.fill, hlength, if_pos hi, herr]
            simp only [hs']
            rfl
          have hlength' : s'.dst.length = dst.length := hnext.length_dst
          have hle' : s'.i ≤ dst.length := hnext.i_le
          rw [hfill]
          by_cases hfull : 4 * (s'.dst.length - s'.i) = 0
          · left
            rw [if_pos hfull]
            exact ⟨_, _, rfl, hnext, by dsimp only; omega⟩
          · rw [if_neg hfull]
            rcases ih hnext hlength' hle' with hok | hfail | ⟨hrunning, hshort⟩
            · exact .inl hok
            · exact .inr (.inl hfail)
            · refine .inr (.inr ⟨hrunning, lt_of_le_of_lt (length_kept_le ?_) hshort⟩)
              omega

end Filling

/-- Of the 32-bit draws, `floor(2^32 / t) * t` pass the test, and each residue has
the same number of them. -/
structure ExactlyUniform (t : UInt64) : Prop where
  accepted : {d : UInt32 | d.toUInt64 < limitOf t}.ncard = 2 ^ 32 / t.toNat * t.toNat
  even : ∀ v < t, {d : UInt32 | d.toUInt64 < limitOf t ∧ d.toUInt64 % t = v}.ncard =
    2 ^ 32 / t.toNat

theorem exactlyUniform (t : UInt64) : ExactlyUniform t where
  accepted := ncard_test bijOn_toNat (spec_eq t)
  even := by
    intro v hv
    have hcount := ncard_test_value bijOn_toNat (spec_eq t) (UInt64.lt_iff_toNat_lt.mp hv)
    simpa only [UInt64.toNat_inj] using hcount

/-- What a call does with one reader. -/
structure FillsWithAccepted (rand : Reader) (dst : List UInt64) (t : UInt64) : Prop where
  /-- `dst` holds the accepted draws in order, every entry was written once, and
  the draws read end with the one that filled it. -/
  filled : ∀ {turns s}, cnpUniformModT rand turns dst t = .ok s →
    s.writes = List.range dst.length ∧ s.dst.length = dst.length ∧
    ∃ n, s.delivered = 4 * n ∧ s.dst.map UInt64.toNat = kept (spec t) (draws rand) n ∧
      ∀ k < n, (kept (spec t) (draws rand) k).length < dst.length
  fails : ∀ {turns fault}, cnpUniformModT rand turns dst t = .error fault →
    fault = .running ∨ ∃ call err, rand.err call = some err ∧ fault = .err err
  /-- With enough accepted draws among the first `n`, the call returns. -/
  returns : (∀ call, rand.err call = none) → ∀ {turns n},
    dst.length ≤ (kept (spec t) (draws rand) n).length → n ≤ turns →
    ∃ s, cnpUniformModT rand turns dst t = .ok s

theorem filled_start (rand : Reader) (dst : List UInt64) (t : UInt64) :
    Filled rand t dst 0 (.start dst) where
  i_eq := rfl
  i_le := Nat.zero_le _
  values := rfl
  writes := rfl
  bufLen := rfl
  delivered := rfl
  needed := by simp

theorem fillsWithAccepted {t : UInt64} (ht : t ≠ 0) (rand : Reader) (dst : List UInt64) :
    FillsWithAccepted rand dst t where
  filled := by
    intro turns s h
    rw [cnpUniformModT, if_neg ht] at h
    rcases (filled_start rand dst t).fill turns with
      ⟨n, s', hok, hs', hi⟩ | ⟨call, err, -, herr⟩ | ⟨hrunning, -⟩
    · obtain rfl : s' = s := Except.ok.inj (hok.symm.trans h)
      refine ⟨by rw [hs'.writes, hi], hs'.length_dst, n, hs'.delivered, ?_, hs'.needed⟩
      simpa [hi] using hs'.values
    · exact absurd (herr.symm.trans h) nofun
    · exact absurd (hrunning.symm.trans h) nofun
  fails := by
    intro turns fault h
    rw [cnpUniformModT, if_neg ht] at h
    rcases (filled_start rand dst t).fill turns with
      ⟨n, s', hok, -⟩ | ⟨call, err, hcall, herr⟩ | ⟨hrunning, -⟩
    · exact absurd (hok.symm.trans h) nofun
    · exact .inr ⟨call, err, hcall, (Except.error.inj (herr.symm.trans h)).symm⟩
    · exact .inl (Except.error.inj (hrunning.symm.trans h)).symm
  returns := by
    intro hreads turns n hn hturns
    rw [cnpUniformModT, if_neg ht]
    rcases (filled_start rand dst t).fill turns with
      ⟨k, s, hok, -⟩ | ⟨call, err, hcall, -⟩ | ⟨-, hshort⟩
    · exact ⟨s, hok⟩
    · simp [hreads call] at hcall
    · have hle : (kept (spec t) (draws rand) n).length ≤
          (kept (spec t) (draws rand) turns).length := length_kept_le hturns
      rw [Nat.zero_add] at hshort
      omega

end Ppfdaas.Transcipher.UniformModT

namespace Ppfdaas.Transcipher

open Cnp

/-- Both samplers of the output masks are exactly uniform. -/
theorem mask_samplers_uniform {q t : UInt64} (hq : q ≠ 0) (ht : t ≠ 0) :
    (UniformModQ.ExactlyUniform q ∧ ∀ words, UniformModQ.ReturnsAccepted words q) ∧
    (UniformModT.ExactlyUniform t ∧
      ∀ rand dst, UniformModT.FillsWithAccepted rand dst t) := by
  refine ⟨⟨?_, fun words ↦ ?_⟩, ?_, fun rand dst ↦ ?_⟩
  · exact UniformModQ.exactlyUniform hq
  · exact UniformModQ.returnsAccepted hq words
  · exact UniformModT.exactlyUniform t
  · exact UniformModT.fillsWithAccepted ht rand dst

/-- A power of two above, and the number of all draws below. -/
theorem mask_samplers_uniform_two_pow :
    (UniformModQ.ExactlyUniform 9223372036854775808 ∧
      ∀ words, UniformModQ.ReturnsAccepted words 9223372036854775808) ∧
    (UniformModT.ExactlyUniform 4294967296 ∧
      ∀ rand dst, UniformModT.FillsWithAccepted rand dst 4294967296) :=
  mask_samplers_uniform (by decide) (by decide)

end Ppfdaas.Transcipher
