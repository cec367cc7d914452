import SuiProofs.Library.Exec

/-! Models `run_onchain_execution_loop` of `action_executor.rs`. A failed action is sent again by a
task of its own, so in any order. -/

namespace SuiProofs.Bridge

open List

def maxExecutionAttempts : ℕ := 16

inductive BridgeActionStatus where
  | pending
  | approved
  | claimed
  | notFound

inductive SuiExecutionStatus where
  | success
  | failure

inductive SuiEventType where
  | tokenTransferAlreadyClaimed
  | tokenTransferClaimed
  | tokenTransferApproved
  | tokenTransferAlreadyApproved
  | other
deriving DecidableEq

structure SuiTransactionBlockResponse where
  effects : Option SuiExecutionStatus
  events : Option (List SuiEventType)

/-- Effects are returned, and with a success also events, one of them of a token transfer. -/
def SuiTransactionBlockResponse.Complete (response : SuiTransactionBlockResponse) : Prop :=
  response.effects = some .failure ∨
    response.effects = some .success ∧
      ∃ events, response.events = some events ∧ ∃ event ∈ events, event ≠ .other

structure VerifiedCertifiedBridgeAction where
  chainId : UInt8
  seqNumber : UInt64
  digest : Fin (2 ^ 256)
deriving DecidableEq

structure CertifiedBridgeActionExecutionWrapper where
  certificate : VerifiedCertifiedBridgeAction
  attemptTimes : ℕ
deriving DecidableEq

/-- What the client and the transaction builder answer while one action is handled. -/
structure SuiClient where
  onchainStatus : UInt8 → UInt64 → BridgeActionStatus
  ownsGasObject : Bool
  buildSuiTransaction : VerifiedCertifiedBridgeAction → Option (List UInt8)
  executeTransactionBlockWithEffects : List UInt8 → Option SuiTransactionBlockResponse

namespace SuiClient

variable (client : SuiClient) (certificate : VerifiedCertifiedBridgeAction)

def alreadyProcessed : Bool :=
  match client.onchainStatus certificate.chainId certificate.seqNumber with
  | .approved | .claimed => true
  -- Although theoretically a legit action should not have status not found.
  | .pending | .notFound => false

/-- The action is open on chain, the gas object is owned and a transaction that gets an answer gets
a complete one. -/
def LetsPass : Prop :=
  client.alreadyProcessed certificate = false ∧ client.ownsGasObject = true ∧
    ∀ transaction, client.buildSuiTransaction certificate = some transaction →
      ∀ response, client.executeTransactionBlockWithEffects transaction = some response →
        response.Complete

end SuiClient

inductive ExecutorPanic where
  | gasObjectNotOwned
  | effectsNotReturned
  | eventsNotReturned
  | noTokenTransferEvent (events : List SuiEventType)
deriving DecidableEq

/-- What became of a received action; `failed` is an error at the submission. -/
inductive Handling where
  | alreadyProcessed
  | notBuilt
  | executed
  | failed
  | panicked (panic : ExecutorPanic)
deriving DecidableEq

structure ReceivedAction where
  wrapper : CertifiedBridgeActionExecutionWrapper
  client : SuiClient
  handling : Handling

/-- The loop with its queue and the tasks that will send an action again. `received` records what
it has received, and from whom it got the answers. -/
structure ActionExecutor where
  executionQueue : List CertifiedBridgeActionExecutionWrapper
  delayed : List CertifiedBridgeActionExecutionWrapper
  pendingActions : Finset (Fin (2 ^ 256))
  running : Bool
  received : List ReceivedAction

/-- The loop receives, while others send and delayed actions come back. -/
inductive ExecutorEvent where
  | send (certificate : VerifiedCertifiedBridgeAction)
  | receive (client : SuiClient)
  | sendAgain (wrapper : CertifiedBridgeActionExecutionWrapper)

namespace ActionExecutor

variable (self : ActionExecutor) (wrapper : CertifiedBridgeActionExecutionWrapper)

def new (pendingActions : Finset (Fin (2 ^ 256))) : ActionExecutor := ⟨[], [], pendingActions, true, []⟩

def removePendingActions : Finset (Fin (2 ^ 256)) := self.pendingActions.erase wrapper.certificate.digest

def handleExecutionEffects (response : SuiTransactionBlockResponse) :
    Handling × Finset (Fin (2 ^ 256)) :=
  match response.effects, response.events with
  | none, _ => (.panicked .effectsNotReturned, self.pendingActions)
  | some .success, none => (.panicked .eventsNotReturned, self.pendingActions)
  | some .success, some events =>
    if events.any (· ≠ .other) then (.executed, self.removePendingActions wrapper)
    else (.panicked (.noTokenTransferEvent events), self.pendingActions)
  | some .failure, _ => (.executed, self.pendingActions)

/-- What the body of the loop does with an action, and the pending actions afterwards. -/
def handling (client : SuiClient) : Handling × Finset (Fin (2 ^ 256)) :=
  if client.alreadyProcessed wrapper.certificate then
    (.alreadyProcessed, self.removePendingActions wrapper)
  else if client.ownsGasObject then
    match client.buildSuiTransaction wrapper.certificate with
    | none => (.notBuilt, self.pendingActions)
    | some transaction =>
      match client.executeTransactionBlockWithEffects transaction with
      | none => (.failed, self.pendingActions)
      | some response => self.handleExecutionEffects wrapper response
  else (.panicked .gasObjectNotOwned, self.pendingActions)

def retry (handling : Handling) : List CertifiedBridgeActionExecutionWrapper :=
  if handling = .failed ∧ wrapper.attemptTimes < maxExecutionAttempts then
    [⟨wrapper.certificate, wrapper.attemptTimes + 1⟩] else []

def handle (client : SuiClient) : ActionExecutor :=
  let (handling, pendingActions) := self.handling wrapper client
  { self with
    delayed := retry wrapper handling ++ self.delayed
    received := self.received ++ [⟨wrapper, client, handling⟩]
    running := match handling with
      -- The source returns from the loop when the action is already processed.
      | .alreadyProcessed | .panicked _ => false
      | .notBuilt | .executed | .failed => self.running
    pendingActions }

/-- Nothing is sent to a loop that has stopped. -/
def step : ExecutorEvent → ActionExecutor
  | .send certificate =>
    if self.running then { self with
      executionQueue := self.executionQueue ++ [⟨certificate, 0⟩] } else self
  | .receive client =>
    match self.running, self.executionQueue with
    | true, wrapper :: executionQueue => { self with executionQueue }.handle wrapper client
    | _, _ => self
  | .sendAgain wrapper =>
    if self.running ∧ wrapper ∈ self.delayed then
      { self with executionQueue := self.executionQueue ++
        [wrapper], delayed := self.delayed.erase wrapper }
    else self

def run (events : List ExecutorEvent) : ActionExecutor := events.foldl step self

/-- What became of a submitted transaction, in terms of the response. -/
inductive Answered (response : SuiTransactionBlockResponse) : Handling → Prop
  | executed : response.Complete → Answered response .executed
  | effectsNotReturned : response.effects = none → Answered response (.panicked .effectsNotReturned)
  | eventsNotReturned : response.effects = some .success → response.events = none →
      Answered response (.panicked .eventsNotReturned)
  | noTokenTransferEvent {events : List SuiEventType} : response.effects = some .success →
      response.events = some events → (∀ event ∈ events, event = .other) →
      Answered response (.panicked (.noTokenTransferEvent events))

/-- What became of an action, in terms of the client's answers. -/
inductive Handled (client : SuiClient) (certificate : VerifiedCertifiedBridgeAction) : Handling → Prop
  | alreadyProcessed : client.alreadyProcessed certificate = true →
      Handled client certificate .alreadyProcessed
  | gasObjectNotOwned : client.alreadyProcessed certificate = false → client.ownsGasObject = false →
      Handled client certificate (.panicked .gasObjectNotOwned)
  | notBuilt : client.alreadyProcessed certificate = false → client.ownsGasObject = true →
      client.buildSuiTransaction certificate = none → Handled client certificate .notBuilt
  | failed {transaction : List UInt8} :
      client.alreadyProcessed certificate = false → client.ownsGasObject = true →
      client.buildSuiTransaction certificate = some transaction →
      client.executeTransactionBlockWithEffects transaction = none → Handled client certificate .failed
  | answered {transaction : List UInt8} {response : SuiTransactionBlockResponse} {handling : Handling} :
      client.alreadyProcessed certificate = false → client.ownsGasObject = true →
      client.buildSuiTransaction certificate = some transaction →
      client.executeTransactionBlockWithEffects transaction = some response →
      Answered response handling → Handled client certificate handling

/-- Every action is accounted for by the answers it got: one that was found processed is not
pending, a failed submission is received again, queued or delayed until the last attempt, and the
loop runs as long as the answers let it. -/
structure Accounted (executor : ActionExecutor) : Prop where
  handled : ∀ e ∈ executor.received, Handled e.client e.wrapper.certificate e.handling
  removed : ∀ e ∈ executor.received, e.handling = .alreadyProcessed →
    e.wrapper.certificate.digest ∉ executor.pendingActions
  again : ∀ certificate n, n < maxExecutionAttempts →
    (executor.received.map fun e => (e.wrapper, e.handling)).count (⟨certificate, n⟩, .failed) =
      (executor.received.map (·.wrapper)).count ⟨certificate, n + 1⟩ +
        executor.executionQueue.count ⟨certificate, n + 1⟩ + executor.delayed.count ⟨certificate, n + 1⟩
  attempts : ∀ wrapper ∈ executor.executionQueue ++ executor.delayed, wrapper.attemptTimes ≤
    maxExecutionAttempts
  running_iff : executor.running = true ↔
    ∀ e ∈ executor.received, e.client.LetsPass e.wrapper.certificate

lemma handleExecutionEffects_spec (response : SuiTransactionBlockResponse) :
    (self.handleExecutionEffects wrapper response).2 ⊆ self.pendingActions ∧
      Answered response (self.handleExecutionEffects wrapper response).1 := by
  unfold handleExecutionEffects
  split
  · exact ⟨subset_rfl, .effectsNotReturned ‹_›⟩
  · exact ⟨subset_rfl, .eventsNotReturned ‹_› ‹_›⟩
  · split_ifs with hany
    · exact ⟨Finset.erase_subset _ _, .executed (.inr ⟨‹_›, _, ‹_›, by simpa using hany⟩)⟩
    · exact ⟨subset_rfl, .noTokenTransferEvent ‹_› ‹_› (by simpa using hany)⟩
  · exact ⟨subset_rfl, .executed (.inl ‹_›)⟩

lemma handling_spec (client : SuiClient) : (self.handling wrapper client).2 ⊆ self.pendingActions ∧
    ((self.handling wrapper client).1 = .alreadyProcessed →
      wrapper.certificate.digest ∉ (self.handling wrapper client).2) ∧
    Handled client wrapper.certificate (self.handling wrapper client).1 := by
  unfold handling
  split_ifs with hprocessed howns
  · exact ⟨Finset.erase_subset _ _, fun _ => Finset.notMem_erase _ _, .alreadyProcessed hprocessed⟩
  · rw [Bool.not_eq_true] at hprocessed
    split
    · exact ⟨subset_rfl, by simp, .notBuilt hprocessed howns ‹_›⟩
    · split
      · exact ⟨subset_rfl, by simp, .failed hprocessed howns ‹_› ‹_›⟩
      · obtain ⟨hsub, hanswered⟩ := self.handleExecutionEffects_spec wrapper ‹_›
        refine ⟨hsub, fun he => ?_, .answered hprocessed howns ‹_› ‹_› hanswered⟩
        rw [he] at hanswered
        cases hanswered
  · rw [Bool.not_eq_true] at hprocessed howns
    exact ⟨subset_rfl, by simp, .gasObjectNotOwned hprocessed howns⟩

lemma Answered.complete_iff {response : SuiTransactionBlockResponse} {handling : Handling}
    (h : Answered response handling) :
    response.Complete ↔ handling = .executed := by
  unfold SuiTransactionBlockResponse.Complete
  cases h with
  | executed hcomplete => exact iff_of_true hcomplete rfl
  | effectsNotReturned heffects => simp [heffects]
  | eventsNotReturned heffects hevents => simp [heffects, hevents]
  | noTokenTransferEvent heffects hevents hother => simpa [heffects, hevents] using hother

lemma Handled.letsPass_iff {client : SuiClient} {certificate : VerifiedCertifiedBridgeAction}
    {handling : Handling} (h : Handled client certificate handling) :
    client.LetsPass certificate ↔ handling = .notBuilt ∨ handling = .executed ∨ handling = .failed := by
  unfold SuiClient.LetsPass
  cases h with
  | alreadyProcessed hprocessed => simp [hprocessed]
  | gasObjectNotOwned _ howns => simp [howns]
  | notBuilt hprocessed howns hbuild => simp [hprocessed, howns, hbuild]
  | failed hprocessed howns hbuild hexecute => simp [hprocessed, howns, hbuild, hexecute]
  | answered hprocessed howns hbuild hexecute hanswered =>
    simp only [hprocessed, howns, hbuild, hexecute, Option.some.injEq, forall_eq', true_and,
      hanswered.complete_iff]
    cases hanswered <;> simp

variable {self wrapper}

lemma count_retry (handling : Handling) {certificate : VerifiedCertifiedBridgeAction} {n : ℕ}
    (hn : n < maxExecutionAttempts) :
    (retry wrapper handling).count ⟨certificate, n + 1⟩ = [(wrapper, handling)].count
      (⟨certificate, n⟩, .failed) := by
  obtain ⟨c, k⟩ := wrapper
  unfold retry
  split_ifs with h <;> grind

namespace Accounted

variable (h : self.Accounted)

include h

lemma handle {queue : List CertifiedBridgeActionExecutionWrapper} (client : SuiClient)
    (hqueue : self.executionQueue = wrapper :: queue) (hrunning : self.running = true) :
    ({ self with executionQueue := queue }.handle wrapper client).Accounted := by
  obtain ⟨hsub, hrem, hhandled⟩ := handling_spec { self with executionQueue := queue } wrapper client
  obtain ⟨hearlier, hold, hagain, hle, hiff⟩ := h
  rw [hqueue] at hagain hle
  unfold ActionExecutor.handle
  generalize handling _ wrapper client = r at hsub hrem hhandled ⊢
  obtain ⟨handling, pendingActions⟩ := r
  constructor
  · simpa only [forall_mem_append, forall_mem_singleton] using And.intro hearlier hhandled
  · simp only [forall_mem_append, forall_mem_singleton]
    exact ⟨fun e he hprocessed hin => hold e he hprocessed (hsub hin), hrem⟩
  · intro certificate n hn
    have hcount := hagain certificate n hn
    simp only [map_append, map_cons, map_nil, count_append, count_cons, count_nil,
      count_retry handling hn] at hcount ⊢
    omega
  · simp only [mem_append, mem_cons] at hle ⊢
    rintro w (hw | hw | hw)
    · exact hle w (.inl (.inr hw))
    · unfold retry at hw
      grind
    · exact hle w (.inr hw)
  · rw [hrunning] at hiff
    simp only [forall_mem_append, ← hiff, forall_mem_singleton, true_and, hhandled.letsPass_iff]
    cases handling <;> simp [hrunning]

lemma step (event : ExecutorEvent) : (self.step event).Accounted := by
  cases event with
  | send certificate =>
    simp only [ActionExecutor.step]
    split_ifs
    · constructor
      · exact h.handled
      · exact h.removed
      · intro c n hn
        simp [h.again c n hn]
      · have hle := h.attempts
        simp only [forall_mem_append, forall_mem_singleton] at hle ⊢
        exact ⟨⟨hle.1, Nat.zero_le _⟩, hle.2⟩
      · exact h.running_iff
    · exact h
  | receive client =>
    simp only [ActionExecutor.step]
    split
    · exact h.handle client ‹_› ‹_›
    · exact h
  | sendAgain wrapper =>
    simp only [ActionExecutor.step]
    split_ifs with hin
    · have hperm : self.executionQueue ++ self.delayed ~ self.executionQueue ++ [wrapper] ++
          self.delayed.erase wrapper := by
        rw [append_assoc]
        exact (perm_cons_erase hin.2).append_left _
      constructor
      · exact h.handled
      · exact h.removed
      · intro c n hn
        have hcount := hperm.count_eq ⟨c, n + 1⟩
        simp only [h.again c n hn, count_append] at hcount ⊢
        omega
      · exact fun w hw => h.attempts w (hperm.mem_iff.mpr hw)
      · exact h.running_iff
    · exact h

omit h in
lemma run (events : List ExecutorEvent) (h : self.Accounted) : (self.run events).Accounted :=
  foldlRecOn events _ h fun _ ih event _ => ih.step event

end Accounted

variable (self)

lemma run_append (events : List ExecutorEvent) (event : ExecutorEvent) :
    self.run (events ++ [event]) = (self.run events).step event := by
  simp [run]

variable {self}

lemma run_of_stopped (events : List ExecutorEvent) (h : self.running = false) :
    self.run events = self := by
  induction events with
  | nil => rfl
  | cons event events ih =>
    have hstep : self.step event = self := by
      cases event <;> simp [step, h]
    rwa [run, foldl_cons, hstep]

/-- Over every run each received action is accounted for by the client's answers, and a loop whose
answers have let all actions pass receives the next one. -/
theorem execution_loop_handles_every_action (pendingActions : Finset (Fin (2 ^ 256)))
    (events : List ExecutorEvent) :
    ((new pendingActions).run events).Accounted ∧
      ((∀ e ∈ ((new pendingActions).run events).received, e.client.LetsPass e.wrapper.certificate) →
        ∀ wrapper queue client, ((new pendingActions).run events).executionQueue = wrapper :: queue →
          ∃ handling, ((new pendingActions).run (events ++ [.receive client])).received =
              ((new pendingActions).run events).received ++ [⟨wrapper, client, handling⟩] ∧
            Handled client wrapper.certificate handling) := by
  have hnew : (new pendingActions).Accounted := by
    constructor <;> simp [new]
  have hrun := hnew.run events
  refine ⟨hrun, fun hall wrapper queue client hqueue => ?_⟩
  simp only [run_append, step, hrun.running_iff.mpr hall, hqueue]
  exact ⟨_, rfl, (handling_spec _ _ client).2.2⟩

/-- A certified action that the client reports as approved stops the loop; the one behind
it is never received. -/
theorem approved_action_stops_execution_loop : ∃ first second client, ∀ events,
    let executor := (new ∅).run ([.send first, .send second, .receive client] ++ events)
    executor.received.map (fun e => (e.wrapper, e.handling)) = [(⟨first, 0⟩, .alreadyProcessed)] ∧
      executor.executionQueue = [⟨second, 0⟩] := by
  refine ⟨⟨11, 1, 1⟩, ⟨11, 2, 2⟩,
    ⟨fun _ n => if n = 1 then .approved else .pending, true, fun _ => some [], fun _ => none⟩,
    fun events => ?_⟩
  rw [run, foldl_append]
  change (run _ _).received.map _ = _ ∧ (run _ _).executionQueue = _
  rw [run_of_stopped _ (by rfl)]
  decide

end ActionExecutor

end SuiProofs.Bridge
