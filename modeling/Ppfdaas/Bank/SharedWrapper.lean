import Ppfdaas.Bank.ClientProtocol

/-!
# Clients of one process

All `BankClient`s of a process share the wrapper module and with it the key
handles.  An instance keeps no key of its own; the keys it was constructed with
are recorded beside it as ghost data.
-/

namespace Ppfdaas

open scoped List

structure Instance (Pk Sk : Type) where
  client : BankClient ℚ
  publicKey : Pk
  secretKey : Sk

/-- A process: the wrapper module, and the instances by the names they are bound to. -/
structure Process (Pk Sk : Type) where
  wrapper : Wrapper Pk Sk
  instances : ℕ → Option (Instance Pk Sk)

/-- One statement of the process, with the vendor's answers while it runs. -/
inductive Statement (Coins : Type) where
  | construct (name : ℕ) (args : InitArgs Coins) (vendor : BankMessage → Option Reply)
  | runInference (name : ℕ) (args : InferenceArgs Coins) (vendor : BankMessage → Option Reply)

namespace Statement

variable {Coins : Type}

def name : Statement Coins → ℕ
  | construct name _ _ => name
  | runInference name _ _ => name

def constructs : Statement Coins → Option ℕ
  | construct name _ _ => some name
  | runInference _ _ _ => none

end Statement

namespace Process

open BankClient

section Run

variable {Pk Sk Ct Pt Gk Coins : Type} (B : BankSeal Pk Sk Ct Pt Gk Coins) (np : Numpy)

def new : Process Pk Sk := ⟨.holding none, fun _ ↦ none⟩

def ownHandles (inst : Instance Pk Sk) : Wrapper Pk Sk := ⟨some inst.publicKey, some inst.secretKey⟩

/-- A construction: the wrapper after it, and the instance it returns. -/
def construct (w : Wrapper Pk Sk) (args : InitArgs Coins) (vendor : BankMessage → Option Reply) :
    Wrapper Pk Sk × Option (Instance Pk Sk) :=
  let (w, dialogue) := init B np w args
  (w,
    match dialogue.run vendor, loadedKeys B args with
    | .ok client, some (pk, sk) => some ⟨client, pk, sk⟩
    | _, _ => none)

def exec (p : Process Pk Sk) : Statement Coins → Process Pk Sk
  | .construct name args vendor =>
      let result := construct B np p.wrapper args vendor
      ⟨result.1,
        match result.2 with
        | none => p.instances
        | some inst => Function.update p.instances name (some inst)⟩
  | .runInference name args _ =>
      match p.instances name with
      | none => p
      | some inst =>
          let client := (inst.client.runInference B np p.wrapper args).1
          { p with instances := Function.update p.instances name (some { inst with client }) }

def outcome (p : Process Pk Sk) : Statement Coins → Option (Except BankError (List ℚ))
  | .construct _ _ _ => none
  | .runInference name args vendor =>
      (p.instances name).map fun inst ↦
        (inst.client.runInference B np p.wrapper args).2.run vendor

def execAll (p : Process Pk Sk) (program : List (Statement Coins)) : Process Pk Sk :=
  program.foldl (exec B np) p

def outcomes (name : ℕ) (p : Process Pk Sk) :
    List (Statement Coins) → List (Option (Except BankError (List ℚ)))
  | [] => []
  | s :: program =>
      if s.name = name then outcome B np p s :: outcomes name (exec B np p s) program
      else outcomes name (exec B np p s) program

/-! ## The property and its condition -/

/-- Every call of an instance finds the handles of its own keys. -/
def CallsUseOwnKeys (program : List (Statement Coins)) : Prop :=
  ∀ before name args vendor after inst,
    program = before ++ .runInference name args vendor :: after →
    (execAll B np new before).instances name = some inst →
    (execAll B np new before).wrapper = ownHandles inst

/-- Every instance gets from its calls what it would get alone in the process. -/
def CallsAsAlone (program : List (Statement Coins)) : Prop :=
  ∀ name, outcomes B np name new program =
    outcomes B np name new (program.filter fun s ↦ s.name = name)

/-- The last keys that a construction of the program loaded. -/
def lastLoaded (program : List (Statement Coins)) : Option (Pk × Sk) :=
  program.foldl (fun last s ↦
    match s with
    | .construct _ args _ => (loadedKeys B args).or last
    | .runInference _ _ _ => last) none

/-- At every call the last construction that loaded its key files loaded the
keys of the calling instance. -/
def OwnKeysLoadedLast (program : List (Statement Coins)) : Prop :=
  ∀ before name args vendor after inst,
    program = before ++ .runInference name args vendor :: after →
    (execAll B np new before).instances name = some inst →
    lastLoaded B before = some (inst.publicKey, inst.secretKey)

/-! ## What a statement does to the wrapper -/

theorem construct_of_loadedKeys {args : InitArgs Coins} {keys : Pk × Sk}
    (h : loadedKeys B args = some keys) (w : Wrapper Pk Sk) (vendor : BankMessage → Option Reply) :
    construct B np w args vendor =
      (.holding (some keys),
        match (afterInitSeal B np (.holding (some keys)) args).run vendor with
        | .ok client => some ⟨client, keys.1, keys.2⟩
        | .error _ => none) := by
  simp only [construct, init_of_loadedKeys B np h, h]
  cases (afterInitSeal B np (.holding (some keys)) args).run vendor with
  | error e => rfl
  | ok client => rfl

theorem construct_of_not_loadedKeys {args : InitArgs Coins}
    (h : loadedKeys B args = none) (w : Wrapper Pk Sk) (vendor : BankMessage → Option Reply) :
    construct B np w args vendor = (w, none) := by
  obtain ⟨e, hinit⟩ := init_of_not_loadedKeys B np h w
  simp [construct, hinit, Dialogue.run]

theorem wrapper_exec_construct (p : Process Pk Sk) (name : ℕ) (args : InitArgs Coins)
    (vendor : BankMessage → Option Reply) :
    (exec B np p (.construct name args vendor)).wrapper =
      (construct B np p.wrapper args vendor).1 := rfl

theorem wrapper_exec_runInference (p : Process Pk Sk) (name : ℕ) (args : InferenceArgs Coins)
    (vendor : BankMessage → Option Reply) :
    (exec B np p (.runInference name args vendor)).wrapper = p.wrapper := by
  simp only [exec]
  cases p.instances name with
  | none => rfl
  | some inst => rfl

theorem execAll_concat (p : Process Pk Sk) (program : List (Statement Coins))
    (s : Statement Coins) :
    execAll B np p (program ++ [s]) = exec B np (execAll B np p program) s := by
  simp [execAll]

theorem wrapper_execAll (program : List (Statement Coins)) :
    (execAll B np new program).wrapper = .holding (lastLoaded B program) := by
  induction program using List.reverseRecOn with
  | nil => rfl
  | append_singleton program s ih =>
      rw [execAll_concat]
      cases s with
      | runInference name args vendor =>
          rw [wrapper_exec_runInference, ih]
          simp [lastLoaded]
      | construct name args vendor =>
          rw [wrapper_exec_construct]
          have hlast : lastLoaded B (program ++ [.construct name args vendor]) =
              (loadedKeys B args).or (lastLoaded B program) := by
            simp [lastLoaded]
          rw [hlast]
          cases hload : loadedKeys B args with
          | none =>
              rw [construct_of_not_loadedKeys B np hload, Option.none_or]
              exact ih
          | some keys =>
              rw [construct_of_loadedKeys B np hload, Option.some_or]

theorem holding_eq_ownHandles {last : Option (Pk × Sk)} {inst : Instance Pk Sk} :
    .holding last = ownHandles inst ↔ last = some (inst.publicKey, inst.secretKey) := by
  cases last with
  | none => simp [Wrapper.holding, ownHandles]
  | some keys => simp [Wrapper.holding, ownHandles, Prod.ext_iff]

theorem callsUseOwnKeys_iff (program : List (Statement Coins)) :
    CallsUseOwnKeys B np program ↔ OwnKeysLoadedLast B np program := by
  constructor
  · intro hown before name args vendor after inst hsplit hinst
    have hwrapper := hown before name args vendor after inst hsplit hinst
    rw [wrapper_execAll] at hwrapper
    exact holding_eq_ownHandles.mp hwrapper
  · intro hlast before name args vendor after inst hsplit hinst
    rw [wrapper_execAll]
    exact holding_eq_ownHandles.mpr (hlast before name args vendor after inst hsplit hinst)

/-! ## Against the process that holds one instance only -/

/-- The two processes agree on an instance, and the second holds its keys. -/
def Agree (name : ℕ) (p q : Process Pk Sk) : Prop :=
  p.instances name = q.instances name ∧
    ∀ inst, q.instances name = some inst → q.wrapper = ownHandles inst

theorem agree_exec_of_ne {name : ℕ} {p q : Process Pk Sk} (h : Agree name p q)
    {s : Statement Coins} (hne : s.name ≠ name) : Agree name (exec B np p s) q := by
  refine ⟨?_, h.2⟩
  rw [← h.1]
  cases s with
  | construct other args vendor =>
      simp only [exec]
      cases (construct B np p.wrapper args vendor).2 with
      | none => rfl
      | some inst => exact Function.update_of_ne hne.symm _ _
  | runInference other args vendor =>
      simp only [exec]
      cases p.instances other with
      | none => rfl
      | some inst => exact Function.update_of_ne hne.symm _ _

theorem agree_exec_construct {name : ℕ} {p q : Process Pk Sk} (h : Agree name p q)
    (hfresh : q.instances name = none) (args : InitArgs Coins)
    (vendor : BankMessage → Option Reply) :
    Agree name (exec B np p (.construct name args vendor))
      (exec B np q (.construct name args vendor)) := by
  have hp : p.instances name = none := h.1.trans hfresh
  unfold Agree
  simp only [exec]
  cases hload : loadedKeys B args with
  | none =>
      rw [construct_of_not_loadedKeys B np hload, construct_of_not_loadedKeys B np hload]
      exact h
  | some keys =>
      rw [construct_of_loadedKeys B np hload, construct_of_loadedKeys B np hload]
      cases (afterInitSeal B np (.holding (some keys)) args).run vendor with
      | error e =>
          refine ⟨h.1, fun inst hinst ↦ ?_⟩
          cases hfresh.symm.trans hinst
      | ok client =>
          refine ⟨by simp, fun inst hinst ↦ ?_⟩
          obtain rfl : (⟨client, keys.1, keys.2⟩ : Instance Pk Sk) = inst := by
            simpa using hinst
          rfl

theorem outcome_eq_of_agree {name : ℕ} {p q : Process Pk Sk} (h : Agree name p q)
    (hown : ∀ inst, p.instances name = some inst → p.wrapper = ownHandles inst)
    (args : InferenceArgs Coins) (vendor : BankMessage → Option Reply) :
    outcome B np p (.runInference name args vendor) =
      outcome B np q (.runInference name args vendor) := by
  simp only [outcome]
  rw [h.1]
  cases hq : q.instances name with
  | none => rfl
  | some inst => rw [hown inst (h.1.trans hq), h.2 inst hq]

theorem agree_exec_runInference {name : ℕ} {p q : Process Pk Sk} (h : Agree name p q)
    (hown : ∀ inst, p.instances name = some inst → p.wrapper = ownHandles inst)
    (args : InferenceArgs Coins) (vendor : BankMessage → Option Reply) :
    Agree name (exec B np p (.runInference name args vendor))
      (exec B np q (.runInference name args vendor)) := by
  simp only [exec]
  rw [h.1]
  cases hq : q.instances name with
  | none => exact h
  | some inst =>
      have hwrapper := h.2 inst hq
      rw [hown inst (h.1.trans hq), hwrapper]
      refine ⟨by simp, fun inst' hinst' ↦ ?_⟩
      obtain rfl := Option.some.inj ((Function.update_self name _ _).symm.trans hinst')
      rfl

theorem outcomes_eq_of_agree {name : ℕ} (program : List (Statement Coins)) :
    ∀ {p q : Process Pk Sk}, Agree name p q →
    (∀ before args vendor after inst,
      program = before ++ .runInference name args vendor :: after →
      (execAll B np p before).instances name = some inst →
      (execAll B np p before).wrapper = ownHandles inst) →
    (program.filterMap Statement.constructs).Nodup →
    (name ∈ program.filterMap Statement.constructs → q.instances name = none) →
    outcomes B np name p program =
      outcomes B np name q (program.filter fun s ↦ s.name = name) := by
  induction program with
  | nil => intros; rfl
  | cons s program ih =>
      intro p q hagree hown hnodup hfresh
      have hown' : ∀ before args vendor after inst,
          program = before ++ .runInference name args vendor :: after →
          (execAll B np (exec B np p s) before).instances name = some inst →
          (execAll B np (exec B np p s) before).wrapper = ownHandles inst :=
        fun before args vendor after inst hsplit ↦
          hown (s :: before) args vendor after inst (by rw [hsplit]; rfl)
      have hsub : program.filterMap Statement.constructs <+
          (s :: program).filterMap Statement.constructs :=
        (List.sublist_cons_self s program).filterMap _
      rcases eq_or_ne s.name name with hname | hname
      · cases s with
        | construct other args vendor =>
            obtain rfl : other = name := hname
            simp only [List.filterMap_cons, Statement.constructs, List.nodup_cons] at hnodup
            have hnone : q.instances other = none := hfresh (by simp [Statement.constructs])
            have hrest := ih (agree_exec_construct B np hagree hnone args vendor) hown'
              hnodup.2 fun hmem ↦ absurd hmem hnodup.1
            simpa [outcomes, outcome, Statement.name] using hrest
        | runInference other args vendor =>
            obtain rfl : other = name := hname
            have hnow : ∀ inst, p.instances other = some inst → p.wrapper = ownHandles inst :=
              fun inst ↦ hown [] args vendor program inst rfl
            have hhead := outcome_eq_of_agree B np hagree hnow args vendor
            have hfresh' : other ∈ program.filterMap Statement.constructs →
                (exec B np q (.runInference other args vendor)).instances other = none := by
              intro hmem
              have hnone := hfresh (hsub.subset hmem)
              simp [exec, hnone]
            have hrest := ih (agree_exec_runInference B np hagree hnow args vendor) hown'
              (hnodup.sublist hsub) hfresh'
            simpa [outcomes, Statement.name, hhead] using hrest
      · have hrest := ih (agree_exec_of_ne B np hagree hname) hown' (hnodup.sublist hsub)
          fun hmem ↦ hfresh (hsub.subset hmem)
        simpa [outcomes, hname] using hrest

theorem callsAsAlone_of_ownKeys {program : List (Statement Coins)}
    (hnames : (program.filterMap Statement.constructs).Nodup)
    (hown : CallsUseOwnKeys B np program) : CallsAsAlone B np program := by
  intro name
  refine outcomes_eq_of_agree B np program ⟨rfl, fun inst hinst ↦ nomatch hinst⟩ ?_ hnames
    fun _ ↦ rfl
  intro before args vendor after inst hsplit hinst
  exact hown before name args vendor after inst hsplit hinst

/-- Where every construction binds a name of its own: all calls work under the
keys of their own instance, and get what they would get alone, exactly when
those keys are still the last ones loaded. -/
theorem calls_isolated_iff (program : List (Statement Coins))
    (hnames : (program.filterMap Statement.constructs).Nodup) :
    CallsUseOwnKeys B np program ∧ CallsAsAlone B np program ↔
      OwnKeysLoadedLast B np program := by
  constructor
  · rintro ⟨hown, -⟩
    exact (callsUseOwnKeys_iff B np program).mp hown
  · intro hlast
    have hown := (callsUseOwnKeys_iff B np program).mpr hlast
    exact ⟨hown, callsAsAlone_of_ownKeys B np hnames hown⟩

end Run

/-! ## Two clients over a SEAL in the clear -/

def clearVendor (keys : UInt8) : BankMessage → Option Reply
  | .runInference req =>
      match req.ciphertext with
      | [owner, low, high] =>
          some (.inference ⟨.ok, [owner, if keys = owner then low else low + 1, high],
            req.requestId, ""⟩)
      | _ => none
  | _ => none

def sevenHundredths : InferenceArgs Unit := ⟨⟨1, 256, fun _ _ ↦ 7 / 100⟩, "BANK_001", "r", ()⟩

def constructOwn (owner : UInt8) : Statement Unit :=
  .construct owner.toNat (clearArgs owner none) (clearVendor owner)

def callOwn (owner : UInt8) : Statement Unit :=
  .runInference owner.toNat sevenHundredths (clearVendor owner)

theorem calls_isolated_iff_in_turn :
    CallsUseOwnKeys clearBank clearNumpy
        [constructOwn 1, callOwn 1, constructOwn 2, callOwn 2] ∧
      CallsAsAlone clearBank clearNumpy [constructOwn 1, callOwn 1, constructOwn 2, callOwn 2] ↔
    OwnKeysLoadedLast clearBank clearNumpy
      [constructOwn 1, callOwn 1, constructOwn 2, callOwn 2] :=
  calls_isolated_iff clearBank clearNumpy _ (by decide)

/-- A second client is constructed before the first one calls: the call runs
under the second one's keys, and returns another probability than alone. -/
theorem call_under_foreign_keys :
    ¬ CallsUseOwnKeys clearBank clearNumpy [constructOwn 1, constructOwn 2, callOwn 1] ∧
      ¬ CallsAsAlone clearBank clearNumpy [constructOwn 1, constructOwn 2, callOwn 1] := by
  constructor
  · intro hown
    have hkeys : ((execAll clearBank clearNumpy new [constructOwn 1, constructOwn 2]).instances
        1).map (fun inst ↦ (inst.publicKey, inst.secretKey)) = some (1, 1) := by decide +kernel
    have hloaded : lastLoaded clearBank [constructOwn 1, constructOwn 2] = some (2, 2) := by
      decide +kernel
    obtain ⟨inst, hinst, hown₁⟩ := Option.map_eq_some_iff.mp hkeys
    have hlast := (callsUseOwnKeys_iff clearBank clearNumpy _).mp hown
      [constructOwn 1, constructOwn 2] 1 sevenHundredths (clearVendor 1) [] inst rfl hinst
    rw [hloaded, hown₁] at hlast
    revert hlast
    decide
  · intro halone
    have hfirst := halone 1
    revert hfirst
    decide +kernel

end Process

end Ppfdaas
