import SuiProofs.Library.Exec

/-!
Models how `ExecutionContext` of `programmable_transactions/context.rs` hands out arguments. Borrows
are kept by argument, while a value sits at a location.
-/

namespace SuiProofs.Execution

open Library List Option Function

inductive MoveType where
  | reference (inner : MoveType)
  | mutableReference (inner : MoveType)
  | named (name : ℕ)
deriving DecidableEq, Repr

inductive RawValueType where
  | any
  | loaded (type : MoveType) (hasCopy : Bool)
deriving DecidableEq, Repr

inductive Value where
  | object (type : MoveType) (contents : List UInt8)
  | raw (type : RawValueType) (bytes : List UInt8)
  | receiving (id version : ℕ) (type : Option MoveType)
deriving DecidableEq, Repr

def Value.isCopyable : Value → Bool
  | object _ _ => false
  | raw .any _ => true
  | raw (.loaded _ hasCopy) _ => hasCopy
  | receiving _ _ _ => false

inductive UsageKind where
  | borrowImm
  | borrowMut
  | byValue
deriving DecidableEq, Repr

structure ResultValue where
  lastUsageKind : Option UsageKind
  value : Option Value
deriving DecidableEq, Repr

inductive Owner where
  | addressOwner (address : ℕ)
  | objectOwner (id : ℕ)
  | shared (initialSharedVersion : ℕ)
  | immutable
deriving DecidableEq, Repr

inductive InputObjectMetadata where
  | receiving (id version : ℕ)
  | inputObject (id : ℕ) (isMutableInput : Bool) (owner : Owner) (version : ℕ)
deriving DecidableEq, Repr

namespace InputObjectMetadata

def isImmutable : InputObjectMetadata → Bool
  | inputObject _ _ .immutable _ => true
  | _ => false

def isShared : InputObjectMetadata → Bool
  | inputObject _ _ (.shared _) _ => true
  | _ => false

def isReadOnly : InputObjectMetadata → Bool
  | inputObject _ isMutableInput _ _ => !isMutableInput
  | _ => false

end InputObjectMetadata

structure InputValue where
  objectMetadata : Option InputObjectMetadata
  inner : ResultValue
deriving DecidableEq, Repr

inductive Argument where
  | gasCoin
  | input (i : ℕ)
  | result (i : ℕ)
  | nestedResult (i j : ℕ)
deriving DecidableEq, Repr

inductive CommandArgumentError where
  | typeMismatch
  | invalidBCSBytes
  | indexOutOfBounds (idx : ℕ)
  | secondaryIndexOutOfBounds (resultIdx secondaryIdx : ℕ)
  | invalidResultArity (resultIdx : ℕ)
  | invalidGasCoinUsage
  | invalidValueUsage
  | invalidObjectByValue
  | invalidObjectByMutRef
deriving DecidableEq, Repr

inductive CommandKind where
  | moveCall
  | makeMoveVec
  | transferObjects
  | splitCoins
  | mergeCoins
  | publish
  | upgrade
deriving DecidableEq, Repr

/-- The part of the context that holds the values of the arguments. -/
structure ExecutionContext where
  sharedObjectDeletion : Bool
  gas : InputValue
  inputs : List InputValue
  results : List (List ResultValue)
  /-- The arguments borrowed by the current command, with whether the borrow is mutable. -/
  borrowed : Argument → Option Bool

inductive Location where
  | gas
  | input (i : ℕ)
  | result (i j : ℕ)
deriving DecidableEq, Repr

namespace ExecutionContext

def slot (ctx : ExecutionContext) : Location → Option ResultValue
  | .gas => some ctx.gas.inner
  | .input i => (ctx.inputs[i]?).map InputValue.inner
  | .result i j => (ctx.results[i]?).bind fun results => results[j]?

def metadata (ctx : ExecutionContext) : Location → Option InputObjectMetadata
  | .gas => ctx.gas.objectMetadata
  | .input i => (ctx.inputs[i]?).bind InputValue.objectMetadata
  | .result _ _ => none

def setSlot (ctx : ExecutionContext) (location : Location) (new : ResultValue) : ExecutionContext :=
  match location with
  | .gas => { ctx with gas := { ctx.gas with inner := new } }
  | .input i => { ctx with inputs := ctx.inputs.modify i fun input => { input with inner := new } }
  | .result i j => { ctx with results := ctx.results.modify i fun results => results.set j new }

def argIsBorrowed (ctx : ExecutionContext) (arg : Argument) : Bool := (ctx.borrowed arg).isSome

def argIsMutBorrowed (ctx : ExecutionContext) (arg : Argument) : Bool := ctx.borrowed arg = some true

/-- The location that `borrow_mut_impl` returns a reference to. -/
def locate (ctx : ExecutionContext) : Argument → Except CommandArgumentError Location
  | .gasCoin => .ok .gas
  | .input i => if i < ctx.inputs.length then .ok (.input i) else .error (.indexOutOfBounds i)
  | .result i =>
    match ctx.results[i]? with
    | none => .error (.indexOutOfBounds i)
    | some commandResult => if commandResult.length ≠ 1 then .error (.invalidResultArity i)
        else .ok (.result i 0)
  | .nestedResult i j =>
    match ctx.results[i]? with
    | none => .error (.indexOutOfBounds i)
    | some commandResult => if j < commandResult.length then .ok (.result i j)
        else .error (.secondaryIndexOutOfBounds i j)

/-- Models `borrow_mut_impl`: the location, its metadata and its value, in the context
with the usage recorded. -/
def borrowMutImpl (ctx : ExecutionContext) (arg : Argument) (updateLastUsage : Option UsageKind) :
    Except CommandArgumentError
      (Location × Option InputObjectMetadata × Option Value × ExecutionContext) := do
  let location ← ctx.locate arg
  match ctx.slot location with
  | none => .error .invalidValueUsage -- the location is in bounds
  | some result =>
    let ctx' := match updateLastUsage with
      | some usage => ctx.setSlot location { result with lastUsageKind := some usage }
      | none => ctx
    pure (location, ctx.metadata location, result.value, ctx')

def borrowMut (ctx : ExecutionContext) (arg : Argument) (usage : UsageKind) :=
  ctx.borrowMutImpl arg (some usage)

def setValue (ctx : ExecutionContext) (location : Location) (value : Option Value) : ExecutionContext :=
  match ctx.slot location with
  | none => ctx
  | some result => ctx.setSlot location { result with value }

def check (condition : Bool) (error : CommandArgumentError) : Except CommandArgumentError Unit :=
  if condition then .ok () else .error error

section

variable {V : Type} (tryFromValue : Value → Except CommandArgumentError V)

def byValueArg (ctx : ExecutionContext) (commandKind : CommandKind) (arg : Argument) :
    Except CommandArgumentError (V × ExecutionContext) := do
  let isBorrowed := ctx.argIsBorrowed arg
  let (location, metadata, value, ctx) ← ctx.borrowMut arg .byValue
  match value with
  | none => .error .invalidValueUsage
  | some val => do
    let isCopyable := val.isCopyable
    check (!(!isCopyable && isBorrowed)) .invalidValueUsage
    check (!(arg = .gasCoin && commandKind ≠ .transferObjects)) .invalidGasCoinUsage
    check (!metadata.any InputObjectMetadata.isImmutable) .invalidObjectByValue
    check (!(metadata.any InputObjectMetadata.isShared && !ctx.sharedObjectDeletion))
      .invalidObjectByValue
    check (!metadata.any InputObjectMetadata.isReadOnly) .invalidObjectByValue
    let v ← tryFromValue val
    pure (v, if isCopyable then ctx else ctx.setValue location none)

def borrowArgMut (ctx : ExecutionContext) (arg : Argument) :
    Except CommandArgumentError (V × ExecutionContext) := do
  check (!ctx.argIsBorrowed arg) .invalidValueUsage
  let ctx := { ctx with borrowed := update ctx.borrowed arg (some true) }
  let (location, metadata, value, ctx) ← ctx.borrowMut arg .borrowMut
  match value with
  | none => .error .invalidValueUsage
  | some val => do
    let isCopyable := val.isCopyable
    check (!metadata.any InputObjectMetadata.isReadOnly) .invalidObjectByMutRef
    let v ← tryFromValue val
    pure (v, if isCopyable then ctx else ctx.setValue location none)

/-- The first use of a receiving argument fixes its type. -/
def reify (value : Value) (argType : MoveType) : Except CommandArgumentError Value :=
  match value with
  | .receiving id version none =>
    match argType with
    | .reference inner => .ok (.receiving id version (some inner))
    | _ => .error .invalidValueUsage
  | value => .ok value

def borrowArg (ctx : ExecutionContext) (arg : Argument) (argType : MoveType) :
    Except CommandArgumentError (V × ExecutionContext) := do
  check (!ctx.argIsMutBorrowed arg) .invalidValueUsage
  let ctx := { ctx with borrowed := update ctx.borrowed arg (some false) }
  let (location, _, value, ctx) ← ctx.borrowMut arg .borrowImm
  match value with
  | none => .error .invalidValueUsage
  | some val => do
    let val ← reify val argType
    let v ← tryFromValue val
    pure (v, ctx.setValue location (some val))

end

variable {ctx ctx' : ExecutionContext} {arg : Argument} {location location' : Location}
  {new : ResultValue}

variable (ctx location) in
def valueIn : Option Value := (ctx.slot location).bind ResultValue.value

def shape (ctx : ExecutionContext) : ℕ × List ℕ := (ctx.inputs.length, ctx.results.map List.length)

lemma locate_congr (h : ctx.shape = ctx'.shape) (arg : Argument) : ctx.locate arg = ctx'.locate arg := by
  obtain ⟨hinps, hress⟩ := Prod.mk.inj h
  have hlen : ∀ i : ℕ, (ctx.results[i]?).map List.length = (ctx'.results[i]?).map List.length := by
    intro i
    rw [← List.getElem?_map, ← List.getElem?_map, hress]
  cases arg with
  | gasCoin => rfl
  | input i =>
    unfold locate
    rw [hinps]
  | result i | nestedResult i =>
    have hi := hlen i
    simp only [locate]
    cases h₁ : ctx.results[i]? <;> cases h₂ : ctx'.results[i]? <;> simp_all

lemma shape_setSlot (ctx : ExecutionContext) (location : Location) (new : ResultValue) :
    (ctx.setSlot location new).shape = ctx.shape := by
  cases location with
  | gas => rfl
  | input i =>
    simp only [setSlot, shape, length_modify]
  | result i j =>
    simp only [setSlot, shape, Prod.mk.injEq, true_and]
    apply ext_getElem?
    intro k
    rw [List.getElem?_map, List.getElem?_map, List.getElem?_modify]
    split_ifs with hk
    · cases ctx.results[k]? <;> simp
    · cases ctx.results[k]? <;> simp

lemma slot_setSlot (hslot : ctx.slot location ≠ none) (new : ResultValue) (location' : Location) :
    (ctx.setSlot location new).slot location' = if location' = location then some new
      else ctx.slot location' := by
  cases location with
  | gas => cases location' <;> simp [setSlot, slot]
  | input i =>
    cases location' with
    | gas | result => simp [setSlot, slot]
    | input k =>
      simp only [setSlot, slot, List.getElem?_modify, Location.input.injEq]
      by_cases hk : i = k
      · subst hk
        simp only [slot] at hslot
        cases hget : ctx.inputs[i]? with
        | none => simp [hget] at hslot
        | some input => simp
      · have hk' : ¬k = i := fun h => hk h.symm
        simp [hk, hk']
  | result i j =>
    cases location' with
    | gas | input => simp [setSlot, slot]
    | result k l =>
      simp only [setSlot, slot, List.getElem?_modify, Location.result.injEq]
      by_cases hk : i = k
      · subst hk
        simp only [slot] at hslot
        cases hget : ctx.results[i]? with
        | none => simp [hget] at hslot
        | some results =>
          have hj : j < results.length := by
            rw [hget, bind_some] at hslot
            by_contra hj
            exact hslot (List.getElem?_eq_none (Nat.le_of_not_lt hj))
          by_cases hl : j = l
          · subst hl
            simp [hj]
          · have hl' : ¬l = j := fun h => hl h.symm
            simp [hl, hl']
      · have hk' : ¬k = i := fun h => hk h.symm
        simp [hk, hk']

lemma check_eq_ok {condition : Bool} {error : CommandArgumentError} {u : Unit} :
    check condition error = .ok u ↔ condition = true := by
  unfold check
  split_ifs with h <;> simp [h]

variable (ctx arg) in
def Replaces (val : Value) (after : Option Value) (ctx' : ExecutionContext) : Prop :=
  ∃ location, ctx.locate arg = .ok location ∧ ctx.valueIn location = some val ∧ ctx'.shape = ctx.shape
    ∧ ∀ location', ctx'.valueIn location' = if location' = location then after else ctx.valueIn location'

lemma borrowed_setSlot (ctx : ExecutionContext) (location : Location) (new : ResultValue) :
    (ctx.setSlot location new).borrowed = ctx.borrowed := by
  cases location <;> rfl

lemma borrowed_setValue (ctx : ExecutionContext) (location : Location) (value : Option Value) :
    (ctx.setValue location value).borrowed = ctx.borrowed := by
  unfold setValue
  cases ctx.slot location with
  | none => rfl
  | some result => exact borrowed_setSlot _ _ _

lemma valueIn_setSlot (hslot : ctx.slot location ≠ none) (new : ResultValue) (location' : Location) :
    (ctx.setSlot location new).valueIn location' = if location' = location then new.value
      else ctx.valueIn location' := by
  unfold valueIn
  rw [slot_setSlot hslot]
  split_ifs <;> rfl

variable {val : Value}

lemma borrowMut_eq_ok {usage : UsageKind} {metadata : Option InputObjectMetadata}
    (h : ctx.borrowMut arg usage = .ok (location, metadata, some val, ctx')) :
    ctx'.borrowed = ctx.borrowed ∧ ctx.Replaces arg val (some val) ctx' ∧
      ∀ after, ctx.Replaces arg val after (ctx'.setValue location after) := by
  obtain ⟨location₀, hlocate, h⟩ := bind_eq_ok.mp h
  cases hslot : ctx.slot location₀ with
  | none =>
    simp only [hslot] at h
    cases h
  | some result =>
    simp only [hslot] at h
    have hres := Except.ok.inj h
    simp only [Prod.mk.injEq] at hres
    obtain ⟨rfl, -, hval, rfl⟩ := hres
    have hne : ctx.slot location₀ ≠ none := by simp [hslot]
    have hfd : ctx.valueIn location₀ = some val := by rw [valueIn, hslot, bind_some, hval]
    refine ⟨borrowed_setSlot _ _ _, ⟨location₀, hlocate, hfd, shape_setSlot _ _ _, fun location' => ?_⟩,
      fun after => ⟨location₀, hlocate, hfd, ?_, fun location' => ?_⟩⟩
    · rw [valueIn_setSlot hne, hval]
    · rw [setValue, slot_setSlot hne, if_pos rfl]
      rw [shape_setSlot, shape_setSlot]
    · rw [setValue, slot_setSlot hne, if_pos rfl]
      rw [valueIn_setSlot (by rw [slot_setSlot hne, if_pos rfl]; exact some_ne_none _),
        valueIn_setSlot hne]
      split_ifs <;> rfl

lemma borrowMut_take {usage : UsageKind} {metadata : Option InputObjectMetadata}
    (h : ctx.borrowMut arg usage = .ok (location, metadata, some val, ctx')) :
    ctx.Replaces arg val (if val.isCopyable then some val else none)
      (if val.isCopyable then ctx' else ctx'.setValue location none) ∧
      (if val.isCopyable then ctx' else ctx'.setValue location none).borrowed = ctx.borrowed := by
  obtain ⟨hborr, hkept, hset⟩ := borrowMut_eq_ok h
  split_ifs
  · exact ⟨hkept, hborr⟩
  · exact ⟨hset none, (borrowed_setValue _ _ _).trans hborr⟩

section

variable {V : Type} {tryFromValue : Value → Except CommandArgumentError V} {v : V}

lemma byValueArg_eq_ok {commandKind : CommandKind}
    (h : byValueArg tryFromValue ctx commandKind arg = .ok (v, ctx')) :
    ∃ val, (val.isCopyable = false → ctx.borrowed arg = none) ∧
      ctx.Replaces arg val (if val.isCopyable then some val else none) ctx'
      ∧ ctx'.borrowed = ctx.borrowed := by
  obtain ⟨⟨location, metadata, _ | val, ctx₁⟩, hborrow, h⟩ := bind_eq_ok.mp h
  · cases h
  obtain ⟨_, hchk, h⟩ := bind_eq_ok.mp h
  obtain ⟨_, -, h⟩ := bind_eq_ok.mp h
  obtain ⟨_, -, h⟩ := bind_eq_ok.mp h
  obtain ⟨_, -, h⟩ := bind_eq_ok.mp h
  obtain ⟨_, -, h⟩ := bind_eq_ok.mp h
  obtain ⟨w, -, h⟩ := bind_eq_ok.mp h
  cases h
  refine ⟨val, fun hcopy => ?_, borrowMut_take hborrow⟩
  rw [check_eq_ok, hcopy] at hchk
  simpa [argIsBorrowed] using hchk

lemma borrowArgMut_eq_ok (h : borrowArgMut tryFromValue ctx arg = .ok (v, ctx')) :
    ∃ val, ctx.borrowed arg = none ∧
      ctx.Replaces arg val (if val.isCopyable then some val else none) ctx'
      ∧ ctx'.borrowed = update ctx.borrowed arg (some true) := by
  obtain ⟨_, hchk, h⟩ := bind_eq_ok.mp h
  obtain ⟨⟨location, metadata, _ | val, ctx₁⟩, hborrow, h⟩ := bind_eq_ok.mp h
  · cases h
  obtain ⟨_, -, h⟩ := bind_eq_ok.mp h
  obtain ⟨w, -, h⟩ := bind_eq_ok.mp h
  cases h
  -- the location and its value do not depend on the borrows
  refine ⟨val, ?_, borrowMut_take hborrow⟩
  rw [check_eq_ok] at hchk
  simpa [argIsBorrowed] using hchk

variable {argType : MoveType}

lemma reify_isCopyable {val val' : Value} (h : reify val argType = .ok val') :
    val'.isCopyable = val.isCopyable := by
  unfold reify at h
  split at h
  · split at h
    · cases h
      rfl
    · cases h
  · cases h
    rfl

lemma borrowArg_eq_ok (h : borrowArg tryFromValue ctx arg argType = .ok (v, ctx')) :
    ∃ val val', ctx.borrowed arg ≠ some true ∧ val'.isCopyable = val.isCopyable ∧
      ctx.Replaces arg val (some val') ctx'
      ∧ ctx'.borrowed = update ctx.borrowed arg (some false) := by
  obtain ⟨_, hchk, h⟩ := bind_eq_ok.mp h
  obtain ⟨⟨location, metadata, _ | val, ctx₁⟩, hborrow, h⟩ := bind_eq_ok.mp h
  · cases h
  obtain ⟨val', hreify, h⟩ := bind_eq_ok.mp h
  obtain ⟨w, -, h⟩ := bind_eq_ok.mp h
  cases h
  obtain ⟨hborr, -, hset⟩ := borrowMut_eq_ok hborrow
  refine ⟨val, val', ?_, reify_isCopyable hreify, hset (some val'),
    (borrowed_setValue _ _ _).trans hborr⟩
  rw [check_eq_ok] at hchk
  simpa [argIsMutBorrowed] using hchk

end

end ExecutionContext

/-- An argument that a command took, and whether its value could be copied. -/
structure Use where
  arg : Argument
  usage : UsageKind
  copyable : Bool
deriving DecidableEq, Repr

namespace ExecutionContext

def isCopyableAt (ctx : ExecutionContext) (arg : Argument) : Bool :=
  match ctx.locate arg with
  | .ok location => (ctx.valueIn location).any Value.isCopyable
  | .error _ => false

/-- The successful uses of arguments by one command, the newest first. -/
inductive CommandRun (start : ExecutionContext) : List Use → ExecutionContext → Prop
  | start : CommandRun start [] start
  | byValue {uses : List Use} {ctx ctx' : ExecutionContext} {arg : Argument} {V : Type}
      {tryFromValue : Value → Except CommandArgumentError V} {v : V}
      {commandKind : CommandKind} (hrun : CommandRun start uses ctx)
      (h : byValueArg tryFromValue ctx commandKind arg = .ok (v, ctx')) :
      CommandRun start (⟨arg, .byValue, ctx.isCopyableAt arg⟩ :: uses) ctx'
  | borrowMut {uses : List Use} {ctx ctx' : ExecutionContext} {arg : Argument} {V : Type}
      {tryFromValue : Value → Except CommandArgumentError V} {v : V}
      (hrun : CommandRun start uses ctx) (h : borrowArgMut tryFromValue ctx arg = .ok (v, ctx')) :
      CommandRun start (⟨arg, .borrowMut, ctx.isCopyableAt arg⟩ :: uses) ctx'
  | borrowImm {uses : List Use} {ctx ctx' : ExecutionContext} {arg : Argument} {V : Type}
      {tryFromValue : Value → Except CommandArgumentError V} {v : V}
      {argType : MoveType} (hrun : CommandRun start uses ctx)
      (h : borrowArg tryFromValue ctx arg argType = .ok (v, ctx')) :
      CommandRun start (⟨arg, .borrowImm, ctx.isCopyableAt arg⟩ :: uses) ctx'

/-- Equal arguments, and the two names of the only result of a command. -/
def SameLocation (ctx : ExecutionContext) (a b : Argument) : Prop :=
  a = b ∨ ∃ i, (ctx.results[i]?).any (fun results => results.length = 1) = true
    ∧ (a = .result i ∧ b = .nestedResult i 0 ∨ a = .nestedResult i 0 ∧ b = .result i)

/-- A location that is borrowed mutably has no other use but copies, and one whose value is moved
has no other use by reference or by value. -/
def ObeysBorrowRules (ctx : ExecutionContext) (uses : List Use) : Prop :=
  uses.Pairwise fun u v => ctx.SameLocation u.arg v.arg →
    ((u.usage = .borrowMut → v.usage = .byValue ∧ v.copyable = true) ∧
      (v.usage = .borrowMut → u.usage = .byValue ∧ u.copyable = true))
      ∧ ((u.usage = .byValue → u.copyable = false → v.usage ≠ .borrowImm ∧ v.usage ≠ .byValue)
        ∧ (v.usage = .byValue → v.copyable = false → u.usage ≠ .borrowImm ∧ u.usage ≠ .byValue))

/-- The command does not use the only result of another one under both of its names. -/
def NoAliases (ctx : ExecutionContext) (args : List Argument) : Prop :=
  ∀ i, (ctx.results[i]?).any (fun results => results.length = 1) = true →
    ¬(.result i ∈ args ∧ .nestedResult i 0 ∈ args)

/-- The context knows the uses so far, as borrows or as values that are gone. -/
structure Remembers (start : ExecutionContext) (uses : List Use) (ctx : ExecutionContext) : Prop where
  shape_eq : ctx.shape = start.shape
  mutable : ∀ u ∈ uses, u.usage = .borrowMut → ctx.borrowed u.arg = some true
  immutable : ∀ u ∈ uses, u.usage = .borrowImm → ctx.borrowed u.arg ≠ none
  taken : ∀ u ∈ uses, u.usage ≠ .borrowImm → u.copyable = false →
    ∀ location, ctx.locate u.arg = .ok location → ctx.valueIn location = none
  copyable : ∀ u ∈ uses, ∀ location, ctx.locate u.arg = .ok location →
    ∀ val, ctx.valueIn location = some val → val.isCopyable = u.copyable

variable {start ctx ctx' : ExecutionContext} {uses : List Use} {arg : Argument} {val : Value}
  {after : Option Value} {usage : UsageKind}

lemma Replaces.isCopyableAt (h : ctx.Replaces arg val after ctx') :
    ctx.isCopyableAt arg = val.isCopyable := by
  obtain ⟨location, hlocate, hval, -⟩ := h
  unfold ExecutionContext.isCopyableAt
  rw [hlocate]
  dsimp only
  rw [hval, any_some]

lemma Remembers.use {borrowed : Option Bool} (hrem : Remembers start uses ctx)
    (hrepl : ctx.Replaces arg val after ctx')
    (haft : ∀ val', after = some val' → val'.isCopyable = val.isCopyable)
    (htak : usage ≠ .borrowImm → val.isCopyable = false → after = none)
    (hborr : ctx'.borrowed = update ctx.borrowed arg borrowed)
    (hmut : ctx.borrowed arg = some true → borrowed = some true)
    (himm : ctx.borrowed arg ≠ none → borrowed ≠ none)
    (hmutNew : usage = .borrowMut → borrowed = some true)
    (himmNew : usage = .borrowImm → borrowed ≠ none) :
    Remembers start (⟨arg, usage, ctx.isCopyableAt arg⟩ :: uses) ctx' := by
  have hcopyable := hrepl.isCopyableAt
  obtain ⟨location, hlocate, hval, hshape, hvs⟩ := hrepl
  have hlocate' := locate_congr hshape
  constructor
  · exact hshape.trans hrem.shape_eq
  · rintro u hu hus
    rw [hborr, update_apply]
    rcases mem_cons.mp hu with rfl | hu
    · rw [if_pos rfl, hmutNew hus]
    · have hold := hrem.mutable u hu hus
      split_ifs with harg
      · exact hmut (harg ▸ hold)
      · exact hold
  · rintro u hu hus
    rw [hborr, update_apply]
    rcases mem_cons.mp hu with rfl | hu
    · rw [if_pos rfl]
      exact himmNew hus
    · have hold := hrem.immutable u hu hus
      split_ifs with harg
      · exact himm (harg ▸ hold)
      · exact hold
  · rintro u hu hus hcopy location' hloc'
    rw [hlocate'] at hloc'
    rw [hvs]
    rcases mem_cons.mp hu with rfl | hu
    · obtain rfl : location = location' := Except.ok.inj (hlocate.symm.trans hloc')
      rw [if_pos rfl]
      exact htak hus (hcopyable.symm.trans hcopy)
    · -- a value that is gone cannot be used, so this is another location
      have hgone := hrem.taken u hu hus hcopy location' hloc'
      rw [if_neg, hgone]
      rintro rfl
      rw [hval] at hgone
      cases hgone
  · rintro u hu location' hloc' val' hval'
    rw [hlocate'] at hloc'
    rw [hvs] at hval'
    rcases mem_cons.mp hu with rfl | hu
    · obtain rfl : location = location' := Except.ok.inj (hlocate.symm.trans hloc')
      rw [if_pos rfl] at hval'
      exact (haft val' hval').trans hcopyable.symm
    · split_ifs at hval' with hsame
      · subst hsame
        exact (haft val' hval').trans (hrem.copyable u hu _ hloc' val hval)
      · exact hrem.copyable u hu location' hloc' val' hval'

variable {args : List Argument}

lemma NoAliases.eq (h : start.NoAliases args) {a b : Argument} (ha : a ∈ args) (hb : b ∈ args)
    (hsame : start.SameLocation a b) : a = b := by
  rcases hsame with rfl | ⟨i, hone, ⟨rfl, rfl⟩ | ⟨rfl, rfl⟩⟩
  · rfl
  · exact absurd ⟨ha, hb⟩ (h i hone)
  · exact absurd ⟨hb, ha⟩ (h i hone)

/-- What an earlier use of the same argument was, when its value is still there. -/
lemma Remembers.earlier (hrem : Remembers start uses ctx) (hrepl : ctx.Replaces arg val after ctx')
    {u : Use} (hu : u ∈ uses) (harg : u.arg = arg) :
    u.copyable = val.isCopyable ∧ (u.copyable = false → u.usage = .borrowImm) := by
  obtain ⟨location, hlocate, hval, -⟩ := hrepl
  subst harg
  refine ⟨(hrem.copyable u hu location hlocate val hval).symm, fun hcopy => ?_⟩
  by_contra hus
  have hgone := hrem.taken u hu hus hcopy location hlocate
  rw [hval] at hgone
  cases hgone

lemma NoAliases.tail (h : start.NoAliases (arg :: args)) : start.NoAliases args :=
  fun i hone hboth => h i hone ⟨mem_cons_of_mem arg hboth.1, mem_cons_of_mem arg hboth.2⟩

/-- Without aliases a new use has to be compatible with the earlier uses of its own
argument only. -/
lemma ObeysBorrowRules.cons {new : Use} (hnames : start.NoAliases ((new :: uses).map Use.arg))
    (hnew : ∀ u ∈ uses, u.arg = new.arg →
      ((new.usage = .borrowMut → u.usage = .byValue ∧ u.copyable = true) ∧
        (u.usage = .borrowMut → new.usage = .byValue ∧ new.copyable = true))
        ∧ ((new.usage = .byValue → new.copyable = false → u.usage ≠ .borrowImm ∧ u.usage ≠ .byValue)
          ∧ (u.usage = .byValue → u.copyable = false → new.usage ≠ .borrowImm ∧ new.usage ≠ .byValue)))
    (hobeys : start.NoAliases (uses.map Use.arg) → start.ObeysBorrowRules uses) :
    start.ObeysBorrowRules (new :: uses) := by
  refine List.Pairwise.cons (fun u hu hsame => ?_) (hobeys hnames.tail)
  exact hnew u hu (hnames.eq mem_cons_self (mem_cons_of_mem _ (mem_map_of_mem hu)) hsame).symm

/-- What the context remembers, and that the uses obey the rules as long as no result is
used under two names. -/
lemma CommandRun.remembers (hrun : CommandRun start uses ctx) :
    Remembers start uses ctx ∧ (start.NoAliases (uses.map Use.arg) → start.ObeysBorrowRules uses) := by
  induction hrun with
  | start =>
    refine ⟨⟨rfl, ?_, ?_, ?_, ?_⟩, fun _ => List.Pairwise.nil⟩ <;> simp
  | @byValue uses ctx ctx' arg V tryFromValue v commandKind _ h ih =>
    obtain ⟨hrem, hobeys⟩ := ih
    obtain ⟨val, hfree, hrepl, hborr⟩ := byValueArg_eq_ok h
    constructor
    · exact hrem.use hrepl (by simp) (fun _ hcopy => by simp [hcopy])
        (hborr.trans (update_eq_self ..).symm) id id nofun nofun
    · intro hnames
      refine ObeysBorrowRules.cons hnames (fun u hu harg => ?_) hobeys
      obtain ⟨hcopyable, hkept⟩ := hrem.earlier hrepl hu harg
      rw [hrepl.isCopyableAt]
      dsimp only at harg ⊢
      -- a value that moves was not borrowed, and one that was moved is gone
      have hmvd : val.isCopyable = false → False := fun hcopy =>
        hrem.immutable u hu (hkept (hcopyable.trans hcopy)) (harg ▸ hfree hcopy)
      have hcopy : val.isCopyable = true := Bool.of_not_eq_false hmvd
      refine ⟨⟨fun hus => (by cases hus), fun _ => ⟨rfl, hcopy⟩⟩, fun _ hmove => (hmvd hmove).elim,
        fun _ hmove => ?_⟩
      exact (hmvd (hcopyable.symm.trans hmove)).elim
  | @borrowMut uses ctx ctx' arg V tryFromValue v _ h ih =>
    obtain ⟨hrem, hobeys⟩ := ih
    obtain ⟨val, hfree, hrepl, hborr⟩ := borrowArgMut_eq_ok h
    constructor
    · exact hrem.use hrepl (by simp) (fun _ hcopy => by simp [hcopy]) hborr (fun _ => rfl)
        (fun _ => some_ne_none _) (fun _ => rfl) nofun
    · intro hnames
      refine ObeysBorrowRules.cons hnames (fun u hu harg => ?_) hobeys
      obtain ⟨hcopyable, hkept⟩ := hrem.earlier hrepl hu harg
      dsimp only at harg ⊢
      -- the argument was not borrowed, so the earlier use was a copy
      rw [← harg] at hfree
      have hus : u.usage = .byValue := by
        cases hu' : u.usage with
        | byValue => rfl
        | borrowMut => cases hfree.symm.trans (hrem.mutable u hu hu')
        | borrowImm => exact absurd hfree (hrem.immutable u hu hu')
      have hcopy : u.copyable = true :=
        Bool.of_not_eq_false fun hmvd => by cases hus.symm.trans (hkept hmvd)
      rw [hus, hcopy]
      refine ⟨⟨fun _ => ⟨rfl, rfl⟩, fun hmut => (by cases hmut)⟩, fun hval => (by cases hval),
        fun _ hmove => (by cases hmove)⟩
  | @borrowImm uses ctx ctx' arg V tryFromValue v argType _ h ih =>
    obtain ⟨hrem, hobeys⟩ := ih
    obtain ⟨val, val', hfree, hsame, hrepl, hborr⟩ := borrowArg_eq_ok h
    constructor
    · exact hrem.use hrepl (by simpa using hsame) (absurd rfl) hborr (absurd · hfree)
        (fun _ => some_ne_none _) nofun (fun _ => some_ne_none _)
    · intro hnames
      refine ObeysBorrowRules.cons hnames (fun u hu harg => ?_) hobeys
      obtain ⟨hcopyable, hkept⟩ := hrem.earlier hrepl hu harg
      dsimp only at harg ⊢
      rw [← harg] at hfree
      exact ⟨⟨fun hus => (by cases hus), fun hus => absurd (hrem.mutable u hu hus) hfree⟩,
        fun hus => (by cases hus), fun hus hmove => (by cases hus.symm.trans (hkept hmove))⟩

end ExecutionContext

/-- The arguments of a command obey the borrow rules, unless the only result of an earlier command
is used under both of its names. -/
theorem arguments_obey_borrow_rules {start ctx : ExecutionContext} {uses : List Use}
    (hrun : start.CommandRun uses ctx)
    (hnames : start.NoAliases (uses.map Use.arg)) : start.ObeysBorrowRules uses :=
  hrun.remembers.2 hnames

def coinObject : Value := .object (.named 0) [1]

def twoResults : ExecutionContext where
  sharedObjectDeletion := true
  gas := ⟨none, ⟨none, some coinObject⟩⟩
  inputs := []
  results := [[⟨none, some coinObject⟩], [⟨none, some (.raw (.loaded (.named 1) true) [7])⟩]]
  borrowed := fun _ => none

/-- A coin borrowed immutably under one name and moved under the other. -/
def coinUses : List Use := [⟨.nestedResult 0 0, .byValue, false⟩, ⟨.result 0, .borrowImm, false⟩]

def numberUses : List Use := [⟨.nestedResult 1 0, .borrowMut, true⟩, ⟨.result 1, .borrowMut, true⟩]

lemma coinUses_run : ∃ ctx, twoResults.CommandRun coinUses ctx := by
  have hborrow : ∃ v ctx, twoResults.borrowArg Except.ok (.result 0)
    (.reference (.named 0)) = .ok (v, ctx)
      ∧ (∃ v' ctx', ctx.byValueArg Except.ok .moveCall (.nestedResult 0 0) = .ok (v', ctx')) ∧
        ctx.isCopyableAt (.nestedResult 0 0) = false :=
    ⟨_, _, rfl, ⟨_, _, rfl⟩, rfl⟩
  obtain ⟨v, ctx, hborrow, ⟨v', ctx', hmove⟩, hcopy⟩ := hborrow
  have hrun := ((@ExecutionContext.CommandRun.start twoResults).borrowImm hborrow).byValue hmove
  rw [hcopy] at hrun
  exact ⟨ctx', hrun⟩

lemma numberUses_run : ∃ ctx, twoResults.CommandRun numberUses ctx := by
  have hborrow : ∃ v ctx, twoResults.borrowArgMut Except.ok (.result 1) = .ok (v, ctx)
      ∧ (∃ v' ctx', ctx.borrowArgMut Except.ok (.nestedResult 1 0) = .ok (v', ctx')) ∧
        ctx.isCopyableAt (.nestedResult 1 0) = true :=
    ⟨_, _, rfl, ⟨_, _, rfl⟩, rfl⟩
  obtain ⟨v, ctx, hborrow, ⟨v', ctx', hborrow'⟩, hcopy⟩ := hborrow
  have hrun := ((@ExecutionContext.CommandRun.start twoResults).borrowMut hborrow).borrowMut hborrow'
  rw [hcopy] at hrun
  exact ⟨ctx', hrun⟩

/-- Two accepted commands use one result twice, against the rules. -/
theorem borrow_rules_broken :
    ((∃ ctx, twoResults.CommandRun coinUses ctx) ∧ ¬twoResults.ObeysBorrowRules coinUses)
    ∧ ((∃ ctx, twoResults.CommandRun numberUses ctx) ∧ ¬twoResults.ObeysBorrowRules numberUses) := by
  refine ⟨⟨coinUses_run, fun hobeys => ?_⟩, ⟨numberUses_run, fun hobeys => ?_⟩⟩
  · have hpair := (pairwise_cons.mp hobeys).1 _ mem_cons_self (.inr ⟨0, rfl, .inr ⟨rfl, rfl⟩⟩)
    exact (hpair.2.1 rfl rfl).1 rfl
  · have hpair := (pairwise_cons.mp hobeys).1 _ mem_cons_self (.inr ⟨1, rfl, .inr ⟨rfl, rfl⟩⟩)
    cases (hpair.1.1 rfl).1

/-- Under one name, a copy of the number and a mutable borrow of it. -/
theorem borrow_rules_obeyed :
    ∃ ctx, twoResults.CommandRun [⟨.result 1, .borrowMut, true⟩, ⟨.result 1, .byValue, true⟩] ctx
    ∧ twoResults.ObeysBorrowRules [⟨.result 1, .borrowMut, true⟩, ⟨.result 1, .byValue, true⟩] := by
  have hcopy : ∃ v ctx, twoResults.byValueArg Except.ok .moveCall (.result 1) = .ok (v, ctx)
      ∧ (∃ v' ctx', ctx.borrowArgMut Except.ok (.result 1) = .ok (v', ctx')) ∧
        ctx.isCopyableAt (.result 1) = true :=
    ⟨_, _, rfl, ⟨_, _, rfl⟩, rfl⟩
  obtain ⟨v, ctx, hcopy, ⟨v', ctx', hborrow⟩, hcopyable⟩ := hcopy
  have hrun := ((@ExecutionContext.CommandRun.start twoResults).byValue hcopy).borrowMut hborrow
  rw [hcopyable] at hrun
  refine ⟨ctx', hrun, arguments_obey_borrow_rules hrun ?_⟩
  rintro i - ⟨-, hnested⟩
  simp at hnested

end SuiProofs.Execution
