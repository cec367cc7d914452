import SuiProofs.Move.AbstractInterpreter

/-! Models `locals_safety` of `move-bytecode-verifier`. -/

namespace SuiProofs.Move.LocalsSafety

open Library Function

/-- The instructions on locals, of which there are `n`, and those on none. -/
inductive LocalsOp (n : ℕ) (Other : Type) where
  | copyLoc (idx : Fin n)
  | moveLoc (idx : Fin n)
  | stLoc (idx : Fin n)
  | mutBorrowLoc (idx : Fin n)
  | immBorrowLoc (idx : Fin n)
  | other (op : Other)
deriving DecidableEq, Repr

inductive LocalState where
  | unavailable
  | maybeAvailable
  | available
deriving DecidableEq, Repr

inductive StatusCode where
  | stlocUnsafeToDestroyError
  | movelocUnavailableError
  | copylocUnavailableError
  | borrowlocUnavailableError
  | unsafeRetUnusedValuesWithoutDrop
deriving DecidableEq, Repr

structure VMError where
  status : StatusCode
  offset : ℕ
deriving DecidableEq, Repr

/-- The parameters and locals of a function: how many there are, and which types have drop. -/
structure FunctionContext (n : ℕ) where
  numArgs : ℕ
  numArgs_le : numArgs ≤ n
  hasDrop : Fin n → Bool

abbrev AbstractState (n : ℕ) := Fin n → LocalState

variable {n : ℕ} {Other : Type}

def AbstractState.new (context : FunctionContext n) : AbstractState n :=
  fun i => if i.val < context.numArgs then .available else .unavailable

def LocalState.join : LocalState → LocalState → LocalState
  | .unavailable, .unavailable => .unavailable
  | .available, .available => .available
  | _, _ => .maybeAvailable

def AbstractState.join (self state : AbstractState n) : AbstractState n × JoinResult :=
  let joined := fun i => (self i).join (state i)
  if self = joined then (self, .unchanged) else (joined, .changed)

/-- `execute_inner`, without the costs of the meter. -/
def executeInner (context : FunctionContext n) (state : AbstractState n)
    (bytecode : Bytecode (LocalsOp n Other)) (offset : ℕ) :
    Except VMError (AbstractState n) :=
  match bytecode with
  | .op (.stLoc idx) =>
    if state idx ≠ .unavailable ∧ !context.hasDrop idx then .error ⟨.stlocUnsafeToDestroyError, offset⟩
    else .ok (update state idx .available)
  | .op (.moveLoc idx) =>
    match state idx with
    | .maybeAvailable | .unavailable => .error ⟨.movelocUnavailableError, offset⟩
    | .available => .ok (update state idx .unavailable)
  | .op (.copyLoc idx) =>
    match state idx with
    | .maybeAvailable | .unavailable => .error ⟨.copylocUnavailableError, offset⟩
    | .available => .ok state
  | .op (.mutBorrowLoc idx) | .op (.immBorrowLoc idx) =>
    match state idx with
    | .maybeAvailable | .unavailable => .error ⟨.borrowlocUnavailableError, offset⟩
    | .available => .ok state
  | .ret =>
    -- The loop over the locals ends at the first one that may hold a value without drop.
    if (List.finRange n).any fun i =>
      state i ≠ .unavailable && !context.hasDrop i then
        .error ⟨.unsafeRetUnusedValuesWithoutDrop, offset⟩
    else .ok state
  | .abort | .branch _ | .brTrue _ | .brFalse _ | .variantSwitch _ | .op (.other _) => .ok state

def localsSafetyAnalysis (context : FunctionContext n) : Analysis (LocalsOp n Other)
    (AbstractState n) VMError where
  join self state := .ok (self.join state)
  execute state bytecode index _ := executeInner context state bytecode index

/-- `verify`, with `none` if the main loop of the interpreter is not over. -/
def verify (context : FunctionContext n) (unit : CodeUnit (LocalsOp n Other)) (fuel : ℕ) :
    Option (Except VMError Unit) :=
  (analyzeFunction (localsSafetyAnalysis context) unit (AbstractState.new context) fuel).map
    (Except.map fun _ => ())

abbrev Values (n : ℕ) := Fin n → Bool

def entryValues (context : FunctionContext n) : Values n := fun i => i.val < context.numArgs

def stepValues : Bytecode (LocalsOp n Other) → Values n → Values n
  | .op (.stLoc idx), values => update values idx true
  | .op (.moveLoc idx), values => update values idx false
  | _, values => values

/-- An instruction uses a local that holds no value, or loses a value whose type lacks drop. -/
def Violates (context : FunctionContext n) (values : Values n) : Bytecode (LocalsOp n Other) → Prop
  | .op (.moveLoc idx) | .op (.copyLoc idx) | .op (.immBorrowLoc idx) | .op (.mutBorrowLoc idx) =>
      values idx = false
  | .op (.stLoc idx) => values idx = true ∧ context.hasDrop idx = false
  | .ret => ∃ i, values i = true ∧ context.hasDrop i = false
  | _ => False

/-- The paths from the entry of the function, with the values that the locals hold. -/
abbrev ValuePath (context : FunctionContext n) (unit : CodeUnit (LocalsOp n Other)) (pc : ℕ)
    (values : Values n) : Prop :=
  FlowPath unit (fun instr values values' => values' = stepValues instr values)
    (entryValues context) pc values

/-- No path from the entry comes to a violation. -/
def SafeOnAllPaths (context : FunctionContext n) (unit : CodeUnit (LocalsOp n Other)) : Prop :=
  ∀ pc values instr, ValuePath context unit pc values → unit.code[pc]? = some instr →
    ¬ Violates context values instr

namespace LocalState

/-- The states of a local that is known, and the state of one that is not. -/
def le (a b : LocalState) : Prop := a = b ∨ b = .maybeAvailable

variable {a b c : LocalState}

lemma le_trans (hab : a.le b) (hbc : b.le c) : a.le c := by
  rcases hab with rfl | rfl
  · exact hbc
  · rcases hbc with rfl | rfl <;> exact .inr rfl

lemma left_le_join (a b : LocalState) : a.le (a.join b) := by
  cases a with
  | maybeAvailable => exact .inr rfl
  | unavailable | available =>
    cases b with
    | unavailable | maybeAvailable | available => simp [le, join]

lemma right_le_join (a b : LocalState) : b.le (a.join b) := by
  cases a with
  | maybeAvailable => exact .inr rfl
  | unavailable | available =>
    cases b with
    | unavailable | maybeAvailable | available => simp [le, join]

lemma join_ne (hc : c ≠ .maybeAvailable) (h : a.join b ≠ c) : a ≠ c ∨ b ≠ c := by
  by_contra hboth
  push Not at hboth
  obtain ⟨rfl, rfl⟩ := hboth
  cases b with
  | maybeAvailable => exact hc rfl
  | unavailable | available => exact h rfl

/-- The state may be that of a local with the given value. -/
def Allows (state : LocalState) : Bool → Prop
  | true => state ≠ .unavailable
  | false => state ≠ .available

variable {value : Bool}

lemma Allows.mono (h : a.Allows value) (hle : a.le b) : b.Allows value := by
  rcases hle with rfl | rfl
  · exact h
  · cases value with
    | true | false => simp [Allows]

lemma allows_of_join (h : (a.join b).Allows value) : a.Allows value ∨ b.Allows value := by
  cases value with
  | true | false => exact join_ne (by simp) h

end LocalState

variable {self state joined : AbstractState n}

lemma AbstractState.join_changed (h : self.join state = (joined, .changed)) :
    self ≠ joined ∧ joined = fun i => (self i).join (state i) := by
  simp only [join] at h
  split at h
  · cases (Prod.mk.inj h).2
  · rename_i hne
    cases h
    exact ⟨hne, rfl⟩

lemma AbstractState.join_unchanged (h : self.join state = (joined, .unchanged)) :
    joined = self ∧ joined = fun i => (self i).join (state i) := by
  simp only [join] at h
  split at h
  · rename_i heq
    cases h
    exact ⟨rfl, heq⟩
  · cases (Prod.mk.inj h).2

lemma AbstractState.join_eq {result : JoinResult} (h : self.join state = (joined, result)) :
    joined = fun i => (self i).join (state i) := by
  cases result with
  | changed => exact (join_changed h).2
  | unchanged => exact (join_unchanged h).2

lemma card_lt_of_join_changed (h : self.join state = (joined, .changed)) :
    (Finset.univ.filter fun i => joined i ≠ .maybeAvailable).card <
      (Finset.univ.filter fun i => self i ≠ .maybeAvailable).card := by
  obtain ⟨hne, hjoin⟩ := AbstractState.join_changed h
  have hle : ∀ i, (self i).le (joined i) := by
    intro i
    rw [hjoin]
    exact LocalState.left_le_join _ _
  obtain ⟨i, hi⟩ := ne_iff.mp hne
  have hmaybe := (hle i).resolve_left hi
  apply Finset.card_lt_card
  refine Finset.ssubset_iff_subset_ne.mpr ⟨fun j hj => ?_, fun heq => ?_⟩
  · rw [Finset.mem_filter] at hj ⊢
    have hsame := (hle j).resolve_right hj.2
    rw [hsame]
    exact hj
  · have hmem : i ∈ Finset.univ.filter fun i => self i ≠ .maybeAvailable := by
      rw [Finset.mem_filter, ← hmaybe]
      exact ⟨Finset.mem_univ i, hi⟩
    rw [← heq, Finset.mem_filter] at hmem
    exact hmem.2 hmaybe

lemma lawful (context : FunctionContext n) :
    (localsSafetyAnalysis context : Analysis (LocalsOp n Other) (AbstractState n) VMError).Lawful
      fun a b => ∀ i, (a i).le (b i) where
  refl a i := .inl rfl
  trans a b c hab hbc i := LocalState.le_trans (hab i) (hbc i)
  left_le a b c r h i := by
    rw [AbstractState.join_eq (Except.ok.inj h)]
    exact LocalState.left_le_join _ _
  right_le a b c r h i := by
    rw [AbstractState.join_eq (Except.ok.inj h)]
    exact LocalState.right_le_join _ _
  unchanged a b c h := (AbstractState.join_unchanged (Except.ok.inj h)).1
  wellFounded := by
    refine Subrelation.wf ?_ (measure fun a : AbstractState n =>
      (Finset.univ.filter fun i => a i ≠ .maybeAvailable).card).wf
    rintro c a ⟨b, hjoin⟩
    exact card_lt_of_join_changed (Except.ok.inj hjoin)

def Concretizes (state : AbstractState n) (values : Values n) : Prop := ∀ i, (state i).Allows (values i)

variable {context : FunctionContext n} {instr : Bytecode (LocalsOp n Other)} {offset : ℕ}

/-- What execution does with each local: it keeps its state and value, or it sets both. -/
lemma executeInner_ok {state' : AbstractState n}
    (h : executeInner context state instr offset = .ok state') (i : Fin n) :
    (state' i = state i ∧ ∀ values, stepValues instr values i = values i) ∨
      ∃ value, (∀ values, stepValues instr values i = value) ∧
        ∀ other, (state' i).Allows other ↔ other = value := by
  have hsame : state' = state → (∀ values, stepValues instr values = values) →
      (state' i = state i ∧ ∀ values, stepValues instr values i = values i) := by
    rintro rfl hvs
    exact ⟨rfl, fun values => by rw [hvs]⟩
  cases instr with
  | abort | branch _ | brTrue _ | brFalse _ | variantSwitch _ =>
      exact .inl (hsame (Except.ok.inj h).symm fun _ => rfl)
  | ret =>
    simp only [executeInner] at h
    split_ifs at h
    exact .inl (hsame (Except.ok.inj h).symm fun _ => rfl)
  | op o =>
    cases o with
    | other _ => exact .inl (hsame (Except.ok.inj h).symm fun _ => rfl)
    | copyLoc idx | mutBorrowLoc idx | immBorrowLoc idx =>
      simp only [executeInner] at h
      split at h
      · cases h
      · cases h
      · exact .inl (hsame (Except.ok.inj h).symm fun _ => rfl)
    | stLoc idx =>
      simp only [executeInner] at h
      split_ifs at h
      cases h
      by_cases heq : i = idx
      · subst heq
        refine .inr ⟨true, fun values => update_self _ _ _, fun other => ?_⟩
        cases other with
        | true | false => simp [LocalState.Allows]
      · exact .inl ⟨update_of_ne heq _ _, fun values => update_of_ne heq _ _⟩
    | moveLoc idx =>
      simp only [executeInner] at h
      split at h
      · cases h
      · cases h
      · cases h
        by_cases heq : i = idx
        · subst heq
          refine .inr ⟨false, fun values => update_self _ _ _, fun other => ?_⟩
          cases other with
          | true | false => simp [LocalState.Allows]
        · exact .inl ⟨update_of_ne heq _ _, fun values => update_of_ne heq _ _⟩

variable (context instr) in
/-- A value of a local that makes an instruction a violation. -/
def BadValue (i : Fin n) (value : Bool) : Prop :=
  match instr with
  | .op (.moveLoc idx) | .op (.copyLoc idx) | .op (.immBorrowLoc idx) | .op (.mutBorrowLoc idx) =>
      i = idx ∧ value = false
  | .op (.stLoc idx) => i = idx ∧ value = true ∧ context.hasDrop i = false
  | .ret => value = true ∧ context.hasDrop i = false
  | _ => False

lemma violates_iff {values : Values n} :
    Violates context values instr ↔ ∃ i, BadValue context instr i (values i) := by
  cases instr with
  | abort | branch _ | brTrue _ | brFalse _ | variantSwitch _ | ret => simp [Violates, BadValue]
  | op o =>
    cases o with
    | other _ | copyLoc _ | moveLoc _ | stLoc _ | mutBorrowLoc _ | immBorrowLoc _ =>
        simp [Violates, BadValue]

lemma executeInner_error :
    (∃ e, executeInner context state instr offset = .error e) ↔
      ∃ i value, (state i).Allows value ∧ BadValue context instr i value := by
  cases instr with
  | abort | branch _ | brTrue _ | brFalse _ | variantSwitch _ => simp [executeInner, BadValue]
  | ret =>
    simp only [executeInner, BadValue, List.any_eq_true, List.mem_finRange]
    split
    · rename_i h
      simpa [LocalState.Allows] using h
    · rename_i h
      simpa [LocalState.Allows] using h
  | op o =>
    cases o with
    | other _ => simp [executeInner, BadValue]
    | stLoc idx =>
      simp only [executeInner, BadValue]
      split
      · rename_i h
        simpa [LocalState.Allows] using h
      · rename_i h
        simpa [LocalState.Allows] using h
    | copyLoc idx | moveLoc idx | mutBorrowLoc idx | immBorrowLoc idx =>
      simp only [executeInner, BadValue]
      cases hidx : state idx with
      | unavailable | maybeAvailable | available => simp [LocalState.Allows, hidx]

lemma concretization (context : FunctionContext n) (unit : CodeUnit (LocalsOp n Other)) :
    Concretization (localsSafetyAnalysis context) unit (fun a b => ∀ i, (a i).le (b i))
      (fun instr values values' => values' = stepValues instr values) Concretizes where
  mono a b values hle h i := (h i).mono (hle i)
  execute pc state instr lastIndex state' values values' _ hexec h hstep i := by
    subst hstep
    rcases executeInner_ok hexec i with ⟨hstate, hvs⟩ | ⟨value, hvs, hallows⟩
    · rw [hstate, hvs]
      exact h i
    · exact (hallows _).mpr (hvs values)

/-- Every value that the state of a local allows is that of some path. -/
def Witnessed (context : FunctionContext n) (unit : CodeUnit (LocalsOp n Other)) (pc : ℕ)
    (state : AbstractState n) : Prop :=
  ∀ i value, (state i).Allows value → ∃ values, ValuePath context unit pc values ∧ values i = value

lemma exists_allows (state : LocalState) : ∃ value, state.Allows value := by
  cases state with
  | unavailable => exact ⟨false, by simp [LocalState.Allows]⟩
  | maybeAvailable | available => exact ⟨true, by simp [LocalState.Allows]⟩

lemma kept_witnessed (context : FunctionContext n) (unit : CodeUnit (LocalsOp n Other)) :
    Kept (localsSafetyAnalysis context) unit (Witnessed context unit) where
  execute pc state instr lastIndex state' pc' h hinstr hexec hflow i value hallows := by
    rcases executeInner_ok hexec i with ⟨hstate, hvs⟩ | ⟨set, hvs, hset⟩
    · rw [hstate] at hallows
      obtain ⟨values, hpath, hval⟩ := h i value hallows
      exact ⟨_, .next hpath hinstr rfl hflow, (hvs values).trans hval⟩
    · -- Any path to the instruction will do.
      obtain ⟨old, hold⟩ := exists_allows (state i)
      obtain ⟨values, hpath, -⟩ := h i old hold
      exact ⟨_, .next hpath hinstr rfl hflow, (hvs values).trans ((hset value).mp hallows).symm⟩
  join pc a b c r ha hb hjoin i value hallows := by
    rw [AbstractState.join_eq (Except.ok.inj hjoin)] at hallows
    rcases LocalState.allows_of_join hallows with hleft | hright
    · exact ha i value hleft
    · exact hb i value hright
  join_ok a b := ⟨_, rfl⟩

lemma allows_new {i : Fin n} {value : Bool} :
    (AbstractState.new context i).Allows value ↔ entryValues context i = value := by
  unfold AbstractState.new entryValues
  split
  · rename_i h
    cases value with
    | true | false => simp [LocalState.Allows, h]
  · rename_i h
    cases value with
    | true | false => simpa [LocalState.Allows] using h

variable {unit : CodeUnit (LocalsOp n Other)} {fuel : ℕ}

lemma safeOnAllPaths_of_ok {invMap : InvariantMap (AbstractState n)}
    (h : analyzeFunction (localsSafetyAnalysis context) unit (AbstractState.new context) fuel =
      some (.ok invMap)) : SafeOnAllPaths context unit := by
  intro pc values instr hpath hinstr hviolates
  have hinit : Concretizes (AbstractState.new context) (entryValues context) := fun i =>
    allows_new.mpr rfl
  obtain ⟨state, lastIndex, state', hconc, hexec⟩ :=
    exists_execute_of_path (lawful context) (concretization context unit) h hinit hpath hinstr
  obtain ⟨i, hbad⟩ := violates_iff.mp hviolates
  obtain ⟨e, herror⟩ :=
    (@executeInner_error n Other state context instr pc).mpr ⟨i, values i, hconc i, hbad⟩
  cases hexec.symm.trans herror

lemma not_safeOnAllPaths_of_error {e : VMError}
    (h : analyzeFunction (localsSafetyAnalysis context) unit (AbstractState.new context) fuel =
      some (.error e)) : ¬ SafeOnAllPaths context unit := by
  intro hsafe
  have hinit : Witnessed context unit VMControlFlowGraph.entryBlockId (AbstractState.new context) :=
    fun i value hallows => ⟨entryValues context, .entry, allows_new.mp hallows⟩
  obtain ⟨pc, state, instr, lastIndex, hwit, hinstr, hexec⟩ :=
    failsAt_of_analyzeFunction (kept_witnessed context unit) hinit h
  obtain ⟨i, value, hallows, hbad⟩ := executeInner_error.mp ⟨e, hexec⟩
  obtain ⟨values, hpath, rfl⟩ := hwit i value hallows
  exact hsafe pc values instr hpath hinstr (violates_iff.mpr ⟨i, hbad⟩)

/-- Locals safety is exact: the analysis ends, and it accepts a function if and only if no path from
its entry uses a local that holds no value, overwrites a value whose type lacks drop or returns
while a local holds one. -/
theorem locals_safety_exact (context : FunctionContext n) (unit : CodeUnit (LocalsOp n Other)) :
    (∃ fuel result, verify context unit fuel = some result) ∧
      ∀ fuel result, verify context unit fuel = some result →
        (result = .ok () ↔ SafeOnAllPaths context unit) := by
  constructor
  · obtain ⟨fuel, result, h⟩ :=
      @exists_analyzeFunction _ _ _ _ unit _ (AbstractState.new context) (lawful context)
    exact ⟨fuel, _, by rw [verify, h, Option.map_some]⟩
  · intro fuel result h
    obtain ⟨analysis, hanalysis, rfl⟩ := Option.map_eq_some_iff.mp h
    cases analysis with
    | ok invMap => simpa [Except.map] using safeOnAllPaths_of_ok hanalysis
    | error e => simpa [Except.map] using not_safeOnAllPaths_of_error hanalysis

/-- A loop that moves out of its parameter is rejected when it comes back. -/
example : @verify 1 Empty ⟨1, le_rfl, fun _ => true⟩ ⟨[.op (.moveLoc 0), .branch 0],
    [], by decide, by decide, by decide⟩ 4 =
    some (.error ⟨.movelocUnavailableError, 0⟩) := by
  decide +kernel

end SuiProofs.Move.LocalsSafety
