import Ppfdaas.Transcipher.HeraField
import Ppfdaas.Transcipher.RoundKeys
import Ppfdaas.Transcipher.RubatoField

/-!
# Both ciphers against their specification

The blocks that `encryptBlock` returns, from the samples of the XOF on: exact
words, and the values that the layers have over the field.
-/

namespace Ppfdaas.Transcipher

open FieldLayers

/-- A cipher by its layers, and the map over the field that they make up. -/
structure WordCipher where
  n : ℕ
  rounds : ℕ
  small : n < plainModulus
  layers : (Fin (rounds + 1) → FieldState n) → List (Layer n)
  spec : (Fin (rounds + 1) → Fin n → PlainField) → (Fin n → PlainField) → Fin n → PlainField
  spec_eq : ∀ rks x, Layer.runField (layers rks) x = spec (fun r ↦ toField (rks r).1) x

abbrev hera : WordCipher := ⟨16, HeraRounds, by decide, heraLayers, heraSpec, runField_hera⟩

abbrev rubato : WordCipher :=
  ⟨64, RubatoRounds, by decide, rubatoLayers, rubatoSpec, runField_rubato⟩

def startState (n : ℕ) : Vector UInt64 n := Vector.ofFn fun i ↦ UInt64.ofNat (i + 1)

theorem startState_toNat {n : ℕ} (h : n < plainModulus) (i : Fin n) :
    ((startState n).get i).toNat = i + 1 := by
  have hi : i.val + 1 < 2 ^ 64 := by
    simp only [plainModulus] at h
    omega
  rw [startState, Vector.get_ofFn, UInt64.toNat_ofNat_of_lt' hi]

namespace WordCipher

variable (c : WordCipher)

abbrev Samples := Fin (c.rounds + 1) → FieldState c.n

def roundKeys (key : FieldState c.n) (samples : c.Samples) : c.Samples := fun r ↦
  ⟨roundKey plainWord key.1 (samples r).1, (roundKey_exact key (samples r)).2.1⟩

/-- What a block is for a key and the samples of its rounds. -/
structure Exact (key : FieldState c.n) (samples : c.Samples) (out : Vector UInt64 c.n) :
    Prop where
  keys_fit : ∀ r, Checked.roundKey (checkedState key.1) (checkedState (samples r).1) =
    checkedState (c.roundKeys key samples r).1
  layers_fit : Layer.runChecked (c.layers (c.roundKeys key samples))
    (checkedState (startState c.n)) = checkedState out
  reduced : ∀ k, Reduced (Layer.runWords ((c.layers (c.roundKeys key samples)).take k)
    (startState c.n))
  field : toField out = c.spec (fun r ↦ toField (samples r).1 * toField key.1)
    fun i ↦ (i.val + 1 : ℕ)

theorem exact (key : FieldState c.n) (samples : c.Samples) :
    c.Exact key samples (Layer.runWords (c.layers (c.roundKeys key samples)) (startState c.n)) := by
  have hstart : Reduced (startState c.n) := by
    intro i
    rw [startState_toNat c.small]
    exact (Nat.succ_le_of_lt i.isLt).trans_lt c.small
  have hfield : toField (startState c.n) = fun i ↦ ((i.val + 1 : ℕ) : PlainField) := by
    funext i
    rw [toField, startState_toNat c.small]
  have hkeys : (fun r ↦ toField (c.roundKeys key samples r).1) =
      fun r ↦ toField (samples r).1 * toField key.1 :=
    funext fun r ↦ (roundKey_exact key (samples r)).2.2
  obtain ⟨hchecked, -, hexact⟩ := Layer.run_exact (c.layers (c.roundKeys key samples)) hstart
  refine ⟨?_, ?_, ?_, ?_⟩
  · exact fun r ↦ (roundKey_exact key (samples r)).1
  · exact hchecked
  · exact fun k ↦ (Layer.run_exact _ hstart).2.1
  · rw [hexact, c.spec_eq, hkeys, hfield]

end WordCipher

/-! ## What `encryptBlock` does with the samples -/

section Blocks

variable {Sampler : Type} (P : Primitives Sampler) (tries : ℕ)

theorem HERA16.encryptBlock_eq (key : HeraState) (nonce : List UInt64) (blockIdx : UInt64)
    (sampler : Sampler) :
    HERA16.encryptBlock P tries key nonce blockIdx sampler =
      ((drawSamples P.shake256 HeraModulus tries HeraRounds 16).run' (heraXof nonce blockIdx)).map
        fun samples ↦
          (heraRounds (samples.map (roundKey HeraModulus key)) (startState 16), sampler) := by
  rw [HERA16.encryptBlock, roundKeys_eq, run'_map]
  cases (drawSamples P.shake256 HeraModulus tries HeraRounds 16).run'
    (heraXof nonce blockIdx) <;> rfl

theorem Rubato128L.encryptBlock_eq (key : RubatoState) (nonce : List UInt64) (blockIdx : UInt64)
    (sampler : Sampler) :
    Rubato128L.encryptBlock P tries false key nonce blockIdx sampler =
      ((drawSamples P.shake256 RubatoModulus tries RubatoRounds 64).run'
        (rubatoXof nonce blockIdx)).map fun samples ↦
          let rks := samples.map (roundKey RubatoModulus key)
          ((rubatoAddRoundKey rks[2] (rubatoRounds rks (startState 64))).take 60, sampler) := by
  rw [Rubato128L.encryptBlock, roundKeys_eq, run'_map]
  cases (drawSamples P.shake256 RubatoModulus tries RubatoRounds 64).run'
    (rubatoXof nonce blockIdx) <;> rfl

theorem HERA16.EvalKeyExpansion_eq (key : HeraState) {nonce : List UInt64}
    (hnonce : nonce.length = 16) :
    HERA16.EvalKeyExpansion P tries key.toList nonce =
      ((drawSamples P.shake256 HeraModulus tries HeraRounds 16).run' (heraXof nonce 0)).map
        fun samples ↦ samples.map (roundKey HeraModulus key) := by
  rw [HERA16.EvalKeyExpansion, dif_pos (Vector.length_toList), if_pos hnonce, roundKeys_eq,
    run'_map]
  rfl

theorem Rubato128L.EvalKeyExpansion_eq (key : RubatoState) {nonce : List UInt64}
    (hnonce : nonce.length = 16) :
    Rubato128L.EvalKeyExpansion P tries key.toList nonce =
      ((drawSamples P.shake256 RubatoModulus tries RubatoRounds 64).run' (rubatoXof nonce 0)).map
        fun samples ↦ samples.map (roundKey RubatoModulus key) := by
  rw [Rubato128L.EvalKeyExpansion, dif_pos (Vector.length_toList), if_pos hnonce, roundKeys_eq,
    run'_map]
  rfl

/-- The XOF gives these samples, within the tries. -/
def WordCipher.Drawn (c : WordCipher) (xof : ShakeHash) (samples : c.Samples) : Prop :=
  (drawSamples P.shake256 plainWord tries c.rounds c.n).run' xof =
    .ok (Vector.ofFn fun r ↦ (samples r).1)

/-- Whatever is drawn is drawn from the field. -/
theorem WordCipher.drawn_of_ok (c : WordCipher) {xof : ShakeHash}
    {drawn : Vector (Vector UInt64 c.n) (c.rounds + 1)}
    (h : (drawSamples P.shake256 plainWord tries c.rounds c.n).run' xof = .ok drawn) :
    ∃ samples : c.Samples, drawn = Vector.ofFn fun r ↦ (samples r).1 := by
  obtain ⟨xof', hrun⟩ : ∃ xof', drawSamples P.shake256 plainWord tries c.rounds c.n xof =
      .ok (drawn, xof') := by
    change Except.map Prod.fst (drawSamples P.shake256 plainWord tries c.rounds c.n xof) = _ at h
    cases hdraw : drawSamples P.shake256 plainWord tries c.rounds c.n xof with
    | error fault =>
        rw [hdraw] at h
        exact absurd h nofun
    | ok p =>
        rw [hdraw] at h
        obtain rfl := Except.ok.inj h
        exact ⟨p.2, rfl⟩
  have hlt : ∀ r, Reduced (drawn.get r) := fun r i ↦
    UInt64.lt_iff_toNat_lt.mp (drawSamples_lt P.shake256 plainWord hrun r i)
  refine ⟨fun r ↦ ⟨drawn.get r, hlt r⟩, ?_⟩
  apply Vector.ext
  intro i hi
  rw [Vector.getElem_ofFn]
  rfl

theorem WordCipher.map_roundKey (c : WordCipher) (key : FieldState c.n) (samples : c.Samples) :
    (Vector.ofFn fun r ↦ (samples r).1).map (roundKey plainWord key.1) =
      Vector.ofFn fun r ↦ (c.roundKeys key samples r).1 := by
  apply Vector.ext
  intro i hi
  simp [WordCipher.roundKeys]

theorem WordCipher.exists_drawn (c : WordCipher) {xof : ShakeHash}
    (haccept : Accepting P.shake256 xof.absorbed) :
    ∃ tries, ∀ more, ∃ samples : c.Samples, c.Drawn P (tries + more) xof samples := by
  obtain ⟨tries, drawn, xof', -, hrun⟩ := drawSamples_settles P.shake256 c.rounds c.n haccept
  refine ⟨tries, fun more ↦ ?_⟩
  have hok : (drawSamples P.shake256 plainWord (tries + more) c.rounds c.n).run' xof =
      .ok drawn := congrArg (Except.map Prod.fst) (hrun more)
  obtain ⟨samples, rfl⟩ := c.drawn_of_ok P _ hok
  exact ⟨samples, hok⟩

end Blocks

section Claims

variable {Sampler : Type} (P : Primitives Sampler) (tries : ℕ) (nonce : List UInt64)
  (blockIdx : UInt64) (sampler : Sampler)

theorem HERA16.encryptBlock_drawn (key : FieldState 16) {samples : hera.Samples}
    (hdrawn : hera.Drawn P tries (heraXof nonce blockIdx) samples) :
    HERA16.encryptBlock P tries key.1 nonce blockIdx sampler =
      .ok (Layer.runWords (heraLayers (hera.roundKeys key samples)) (startState 16), sampler) := by
  have hkeys := hera.map_roundKey key samples
  rw [HERA16.encryptBlock_eq, ← heraRounds_eq, ← hkeys]
  exact congrArg (Except.map _) hdrawn

theorem Rubato128L.encryptBlock_drawn (key : FieldState 64) {samples : rubato.Samples}
    (hdrawn : rubato.Drawn P tries (rubatoXof nonce blockIdx) samples) :
    Rubato128L.encryptBlock P tries false key.1 nonce blockIdx sampler =
      .ok ((Layer.runWords (rubatoLayers (rubato.roundKeys key samples)) (startState 64)).take 60,
        sampler) := by
  have hkeys := rubato.map_roundKey key samples
  rw [Rubato128L.encryptBlock_eq, ← rubatoRounds_eq, ← hkeys]
  refine (congrArg (Except.map _) hdrawn).trans ?_
  have hlast : (Vector.map (roundKey plainWord key.1) (Vector.ofFn fun r ↦ (samples r).1))[2] =
      (rubato.roundKeys key samples 2).1 := by
    rw [hkeys, Vector.getElem_ofFn]
    rfl
  rw [← hlast]
  rfl

theorem HERA16.EvalKeyExpansion_drawn (hnonce : nonce.length = 16) (key : FieldState 16)
    {samples : hera.Samples} (hdrawn : hera.Drawn P tries (heraXof nonce 0) samples) :
    HERA16.EvalKeyExpansion P tries key.1.toList nonce =
      .ok (Vector.ofFn fun r ↦ (hera.roundKeys key samples r).1) := by
  have hkeys := hera.map_roundKey key samples
  rw [HERA16.EvalKeyExpansion_eq P tries key.1 hnonce, ← hkeys]
  exact congrArg (Except.map _) hdrawn

theorem Rubato128L.EvalKeyExpansion_drawn (hnonce : nonce.length = 16) (key : FieldState 64)
    {samples : rubato.Samples} (hdrawn : rubato.Drawn P tries (rubatoXof nonce 0) samples) :
    Rubato128L.EvalKeyExpansion P tries key.1.toList nonce =
      .ok (Vector.ofFn fun r ↦ (rubato.roundKeys key samples r).1) := by
  have hkeys := rubato.map_roundKey key samples
  rw [Rubato128L.EvalKeyExpansion_eq P tries key.1 hnonce, ← hkeys]
  exact congrArg (Except.map _) hdrawn

/-- Every block that either cipher returns, without noise: for the samples that
the XOF gave, no word wraps, every layer's state is reduced, and the block is
the specified one; block 0 has the round keys of `EvalKeyExpansion`.  A block is
returned as long as the XOF goes on giving candidates to accept. -/
theorem encryptBlock_exact :
    (∀ tries (key : FieldState 16) r,
      HERA16.encryptBlock P tries key.1 nonce blockIdx sampler = .ok r →
      ∃ samples, hera.Drawn P tries (heraXof nonce blockIdx) samples ∧
        hera.Exact key samples r.1 ∧
        (blockIdx = 0 → nonce.length = 16 →
          HERA16.EvalKeyExpansion P tries key.1.toList nonce =
            .ok (Vector.ofFn fun j ↦ (hera.roundKeys key samples j).1))) ∧
    (∀ tries (key : FieldState 64) r,
      Rubato128L.encryptBlock P tries false key.1 nonce blockIdx sampler = .ok r →
      ∃ samples out, rubato.Drawn P tries (rubatoXof nonce blockIdx) samples ∧
        rubato.Exact key samples out ∧ r.1 = out.take 60 ∧
        (blockIdx = 0 → nonce.length = 16 →
          Rubato128L.EvalKeyExpansion P tries key.1.toList nonce =
            .ok (Vector.ofFn fun j ↦ (rubato.roundKeys key samples j).1))) ∧
    (Accepting P.shake256 (heraXof nonce blockIdx).absorbed → ∃ tries, ∀ more (key : FieldState 16),
      ∃ block, HERA16.encryptBlock P (tries + more) key.1 nonce blockIdx sampler =
        .ok (block, sampler)) ∧
    (Accepting P.shake256 (rubatoXof nonce blockIdx).absorbed →
      ∃ tries, ∀ more (key : FieldState 64),
      ∃ block, Rubato128L.encryptBlock P (tries + more) false key.1 nonce blockIdx sampler =
        .ok (block, sampler)) ∧
    ∀ bytes : List UInt8, bytes.length ≤ 8 →
      Checked.littleEndian bytes = CheckedWord.ofWord (littleEndian bytes) := by
  refine ⟨?_, ?_, ?_, ?_, ?_⟩
  · intro tries key r hblock
    have heq := HERA16.encryptBlock_eq P tries key.1 nonce blockIdx sampler
    obtain ⟨drawn, hrun, -⟩ := ExceptRuns.map_ok (heq.symm.trans hblock)
    obtain ⟨samples, rfl⟩ := hera.drawn_of_ok P tries hrun
    rw [HERA16.encryptBlock_drawn P tries nonce blockIdx sampler key hrun] at hblock
    obtain rfl := Except.ok.inj hblock
    refine ⟨samples, hrun, hera.exact key samples, ?_⟩
    rintro rfl hnonce
    exact HERA16.EvalKeyExpansion_drawn P tries nonce hnonce key hrun
  · intro tries key r hblock
    have heq := Rubato128L.encryptBlock_eq P tries key.1 nonce blockIdx sampler
    obtain ⟨drawn, hrun, -⟩ := ExceptRuns.map_ok (heq.symm.trans hblock)
    obtain ⟨samples, rfl⟩ := rubato.drawn_of_ok P tries hrun
    rw [Rubato128L.encryptBlock_drawn P tries nonce blockIdx sampler key hrun] at hblock
    obtain rfl := Except.ok.inj hblock
    refine ⟨samples, _, hrun, rubato.exact key samples, rfl, ?_⟩
    rintro rfl hnonce
    exact Rubato128L.EvalKeyExpansion_drawn P tries nonce hnonce key hrun
  · intro haccept
    obtain ⟨tries, hdrawn⟩ := hera.exists_drawn P haccept
    refine ⟨tries, fun more key ↦ ?_⟩
    obtain ⟨samples, hsamples⟩ := hdrawn more
    exact ⟨_, HERA16.encryptBlock_drawn P _ nonce blockIdx sampler key hsamples⟩
  · intro haccept
    obtain ⟨tries, hdrawn⟩ := rubato.exists_drawn P haccept
    refine ⟨tries, fun more key ↦ ?_⟩
    obtain ⟨samples, hsamples⟩ := hdrawn more
    exact ⟨_, Rubato128L.encryptBlock_drawn P _ nonce blockIdx sampler key hsamples⟩
  · intro bytes hbytes
    obtain ⟨m, -, htracks⟩ := littleEndian_tracks hbytes
    exact htracks.checked

/-- An XOF of ones only, of which every candidate is accepted. -/
def onePrimitives : Primitives Unit where
  shake256 := fun _ _ ↦ 1
  sha256 := fun _ ↦ Vector.replicate 32 0
  gcmSeal := fun _ _ _ ↦ []
  agn := fun state sampler ↦ (state, sampler)

theorem replicate_one_reduced : Reduced (Vector.replicate 16 1) := by
  intro i
  rw [Vector.get_replicate]
  decide

def oneKey : FieldState 16 := ⟨Vector.replicate 16 1, replicate_one_reduced⟩

theorem encryptBlock_exact_ones :
    let nonce : List UInt64 := List.replicate 16 1
    ∃ tries block samples,
      HERA16.encryptBlock onePrimitives tries oneKey.1 nonce 0 () = .ok (block, ()) ∧
        hera.Exact oneKey samples block ∧
        HERA16.EvalKeyExpansion onePrimitives tries oneKey.1.toList nonce =
          .ok (Vector.ofFn fun j ↦ (hera.roundKeys oneKey samples j).1) := by
  intro nonce
  have hcandidate : littleEndian [1, 1, 1, 1 &&& 1] < plainWord := by decide
  have hexact := encryptBlock_exact onePrimitives nonce 0 ()
  obtain ⟨tries, hok⟩ := hexact.2.2.1 fun pos ↦ ⟨0, hcandidate⟩
  obtain ⟨block, hblock⟩ := hok 0 oneKey
  obtain ⟨samples, -, hsamples, hkeys⟩ := hexact.1 _ oneKey _ hblock
  exact ⟨_, block, samples, hblock, hsamples, hkeys rfl rfl⟩

end Claims

/-! ## The ciphers as permutations -/

theorem heraCirculant_inverse : (Matrix.circulant heraCirculant).mulVec
    ![15219332, 21877790, 8560874, 1902417] = Pi.single 0 1 := by
  decide +kernel

theorem rubatoCirculant_inverse : (Matrix.circulant rubatoCirculant).mulVec
    ![20350715, 2252050, 195383, 1172300, 27009173, 22227423, 20170757, 27806131] =
      Pi.single 0 1 := by
  decide +kernel

theorem heraLayers_bijective (rks : Fin (HeraRounds + 1) → FieldState 16) :
    ∀ layer ∈ heraLayers rks, Function.Bijective layer.field := by
  have hcolumns : Function.Bijective heraMixColumnsLayer.field :=
    mixColumns_bijective heraCirculant_inverse
  have hrows : Function.Bijective heraMixRowsLayer.field :=
    mixRows_bijective heraCirculant_inverse
  have hcube : Function.Bijective heraCubeLayer.field := cube_bijective (by decide)
  have hkey : ∀ r, Function.Bijective (addRoundKeyLayer (rks r)).field :=
    fun r ↦ addKey_bijective _
  simp only [heraLayers, List.forall_mem_append, List.forall_mem_cons, hcolumns, hrows, hcube,
    hkey]
  simp

theorem rubatoLayers_bijective (rks : Fin (RubatoRounds + 1) → FieldState 64) :
    ∀ layer ∈ rubatoLayers rks, Function.Bijective layer.field := by
  have hcolumns : Function.Bijective rubatoMixColumnsLayer.field :=
    mixColumns_bijective rubatoCirculant_inverse
  have hrows : Function.Bijective rubatoMixRowsLayer.field :=
    mixRows_bijective rubatoCirculant_inverse
  have hfeistel : Function.Bijective rubatoFeistelLayer.field := feistel_bijective
  have hkey : ∀ r, Function.Bijective (addRoundKeyLayer (rks r)).field :=
    fun r ↦ addKey_bijective _
  simp only [rubatoLayers, List.forall_mem_append, List.forall_mem_cons, hcolumns, hrows, hfeistel,
    hkey]
  simp

theorem heraRounds_reduced (rks : Fin (HeraRounds + 1) → FieldState 16) (s : FieldState 16) :
    Reduced (heraRounds (Vector.ofFn fun r ↦ (rks r).1) s.1) := by
  rw [heraRounds_eq]
  exact (Layer.run_exact (heraLayers rks) s.2).2.1

/-- The body of HERA's `encryptBlock` as a map of the states over `Z_t`. -/
def heraMap (rks : Fin (HeraRounds + 1) → FieldState 16) (s : FieldState 16) : FieldState 16 :=
  ⟨heraRounds (Vector.ofFn fun r ↦ (rks r).1) s.1, heraRounds_reduced rks s⟩

theorem rubatoRounds_reduced (rks : Fin (RubatoRounds + 1) → FieldState 64) (s : FieldState 64) :
    Reduced (rubatoAddRoundKey (rks 2).1 (rubatoRounds (Vector.ofFn fun r ↦ (rks r).1) s.1)) := by
  rw [rubatoRounds_eq]
  exact (Layer.run_exact (rubatoLayers rks) s.2).2.1

/-- Rubato's before truncation, without noise. -/
def rubatoMap (rks : Fin (RubatoRounds + 1) → FieldState 64) (s : FieldState 64) : FieldState 64 :=
  ⟨rubatoAddRoundKey (rks (Fin.last RubatoRounds)).1
    (rubatoRounds (Vector.ofFn fun r ↦ (rks r).1) s.1), rubatoRounds_reduced rks s⟩

theorem encryptBlock_bijective :
    (∀ rks, Function.Bijective (heraMap rks)) ∧ ∀ rks, Function.Bijective (rubatoMap rks) := by
  constructor
  · intro rks
    have hrun : heraMap rks = Layer.runState (heraLayers rks) :=
      funext fun s ↦ Subtype.ext (heraRounds_eq rks s.1)
    rw [hrun]
    exact Layer.runState_bijective (heraLayers_bijective rks)
  · intro rks
    have hrun : rubatoMap rks = Layer.runState (rubatoLayers rks) :=
      funext fun s ↦ Subtype.ext (rubatoRounds_eq rks s.1)
    rw [hrun]
    exact Layer.runState_bijective (rubatoLayers_bijective rks)

end Ppfdaas.Transcipher
