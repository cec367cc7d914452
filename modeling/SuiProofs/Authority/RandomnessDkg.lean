import SuiProofs.Library.Lru
import SuiProofs.Authority.PerEpochStore

/-! Models `RandomnessManager` of `epoch/randomness.rs` up to the outcome of the distributed key
generation (DKG), and how `consensus_handler.rs` drops repeated transactions. A validator that
crashes loses the manager, the cache of processed transactions and a batch that is not written. -/

namespace SuiProofs.Authority.Dkg

open Library List Option Function

abbrev PartyId := ℕ

/-- `dkg::Party`. It processes messages and computes outputs with random coins. -/
structure Party (Coins Msg Conf Proc Used Out : Type) where
  processMessage : Coins → Msg → Option Proc
  message : Proc → Msg
  merge : List Proc → Option Used
  complete : Coins → Used → List Conf → Option Out

structure Config (Msg Conf : Type) where
  /-- The party ids in increasing order, which are the keys of the maps. -/
  parties : List PartyId
  /-- `authority_info`. -/
  partyId : AuthorityName → Option PartyId
  messageSender : Msg → PartyId
  confirmationSender : Conf → PartyId
  dkgTimeoutRound : ℕ
  processedCacheCap : ℕ

/-- The bytes of a transaction, which are `none` if they are too many or cannot be deserialised.
Those of other kinds, such as certificates, only take places in the cache. -/
inductive Payload (Msg Conf : Type) where
  | message (payload : Option Msg)
  | confirmation (payload : Option Conf)
  | other (digest : TransactionDigest)

structure Transaction (Msg Conf : Type) where
  certificateAuthor : AuthorityName
  authority : AuthorityName
  payload : Payload Msg Conf

/-- Whether transactions are still accepted follows from the commits before. -/
structure Commit (Msg Conf : Type) where
  round : ℕ
  shouldAcceptTx : Bool
  transactions : List (Transaction Msg Conf)

/-- What is lost when the validator stops. -/
structure RandomnessManager (Msg Conf Proc Used Out : Type) where
  enqueuedMessages : PartyId → Option Msg
  processedMessages : PartyId → Option Proc
  usedMessages : Option Used
  confirmations : PartyId → Option Conf
  dkgOutput : Option (Option Out)

/-- What the store keeps, written once for each commit. -/
structure Tables (Conf Proc Used Out : Type) where
  dkgProcessedMessages : PartyId → Option Proc
  dkgUsedMessages : Option Used
  dkgConfirmations : PartyId → Option Conf
  dkgOutput : Option Out
  consensusMessageProcessed : Finset ConsensusTransactionKey
  lastConsensusIndex : ℕ

structure Validator (Msg Conf Proc Used Out : Type) where
  manager : RandomnessManager Msg Conf Proc Used Out
  tables : Tables Conf Proc Used Out
  processedCache : Lru ConsensusTransactionKey Unit

abbrev Reference (Msg Conf : Type) := Validator Msg Conf Msg (List Msg) Unit

variable {Coins Msg Conf Proc Used Out : Type}

def Transaction.key (tx : Transaction Msg Conf) : ConsensusTransactionKey :=
  match tx.payload with
  | .message _ => .randomnessDkgMessage tx.authority
  | .confirmation _ => .randomnessDkgConfirmation tx.authority
  | .other digest => .certificate digest

def isDkg : ConsensusTransactionKey → Bool
  | .randomnessDkgMessage _ | .randomnessDkgConfirmation _ => true
  | _ => false

/-- A transaction that was processed before, or that another validator sent, is dropped. -/
def Transaction.verifies (processed : Finset ConsensusTransactionKey)
    (tx : Transaction Msg Conf) : Bool :=
  isDkg tx.key ∧ tx.key ∉ processed ∧ tx.certificateAuthor = tx.authority

/-- The loop of the handler over a commit: a transaction whose key was seen in the commit or is in
the cache is skipped. -/
def dedup (cap : ℕ) : Lru ConsensusTransactionKey Unit → Finset ConsensusTransactionKey →
    List (Transaction Msg Conf) →
    Lru ConsensusTransactionKey Unit × List (Transaction Msg Conf)
  | processedCache, _, [] => (processedCache, [])
  | processedCache, processedSet, tx :: transactions =>
    let (cache, old) := processedCache.push tx.key ()
    let (cache, rest) := dedup cap (cache.shrink cap) (insert tx.key processedSet) transactions
    (cache, if tx.key ∈ processedSet ∨ old.isSome then rest else tx :: rest)

/-- The DKG transactions of a commit were sent by the authorities they name. -/
def Commit.Authentic (commit : Commit Msg Conf) : Prop :=
  ∀ tx ∈ commit.transactions, isDkg tx.key → tx.certificateAuthor = tx.authority

namespace RandomnessManager

def dkgStatus (self : RandomnessManager Msg Conf Proc Used Out) : DkgStatus :=
  match self.dkgOutput with
  | some (some _) => .successful
  | some none => .failed
  | none => .pending

/-- Intermediate data is loaded only if there is no output. -/
def tryNew (tables : Tables Conf Proc Used Out) : RandomnessManager Msg Conf Proc Used Out :=
  match tables.dkgOutput with
  | some output => ⟨fun _ => none, fun _ => none, none, fun _ => none, some (some output)⟩
  | none => ⟨fun _ => none, tables.dkgProcessedMessages, tables.dkgUsedMessages,
      tables.dkgConfirmations, none⟩

def addMessage (cfg : Config Msg Conf) (self : RandomnessManager Msg Conf Proc Used Out)
    (authority : AuthorityName) (msg : Msg) : RandomnessManager Msg Conf Proc Used Out :=
  if self.usedMessages.isSome || self.dkgOutput.isSome then self
  else match cfg.partyId authority with
    | none => self
    | some partyId =>
      if partyId ≠ cfg.messageSender msg then self
      else if (self.enqueuedMessages partyId).isSome || (self.processedMessages partyId).isSome then self
      else { self with enqueuedMessages := update self.enqueuedMessages partyId (some msg) }

end RandomnessManager

/-- The enqueued messages that are valid are inserted under their senders. -/
def Party.insertProcessed (party : Party Coins Msg Conf Proc Used Out) (coins : Coins)
    (enqueued : PartyId → Option Msg) (messages : PartyId → Option Proc) : PartyId → Option Proc :=
  fun id => ((enqueued id).bind (party.processMessage coins)).or (messages id)

namespace Validator

variable (cfg : Config Msg Conf) (party : Party Coins Msg Conf Proc Used Out) (coins : Coins)
  (self : Validator Msg Conf Proc Used Out)

def addConfirmation (authority : AuthorityName) (conf : Conf) : Validator Msg Conf Proc Used Out :=
  if self.manager.dkgOutput.isSome then self
  else match cfg.partyId authority with
    | none => self
    | some partyId =>
      if partyId ≠ cfg.confirmationSender conf then self
      else
        { self with
          manager := { self.manager with
            confirmations := update self.manager.confirmations partyId (some conf) }
          tables := { self.tables with
            dkgConfirmations := update self.tables.dkgConfirmations partyId (some conf) } }

/-- The first part of `advance_dkg`: the enqueued messages are processed and merged. -/
def generateConfirmation : Validator Msg Conf Proc Used Out :=
  if self.manager.dkgOutput.isNone && self.manager.usedMessages.isNone then
    let enqueued := self.manager.enqueuedMessages
    let processed := party.insertProcessed coins enqueued self.manager.processedMessages
    let manager :=
      { self.manager with enqueuedMessages := fun _ => none, processedMessages := processed }
    let tables :=
      { self.tables with
        dkgProcessedMessages :=
        party.insertProcessed coins enqueued self.tables.dkgProcessedMessages }
    match party.merge (cfg.parties.filterMap processed) with
    | some used =>
      { self with
        manager := { manager with usedMessages := some used }
        tables := { tables with dkgUsedMessages := some used } }
    | none => { self with manager, tables }
  else self

/-- The second part: the output is computed once there are enough confirmations. -/
def completeDkg : Validator Msg Conf Proc Used Out :=
  match self.manager.dkgOutput, self.manager.usedMessages with
  | none, some used =>
    match party.complete coins used (cfg.parties.filterMap self.manager.confirmations) with
    | some output =>
      { self with
        manager := { self.manager with dkgOutput := some (some output) }
        tables := { self.tables with dkgOutput := some output } }
    | none => self
  | _, _ => self

/-- The third part: the DKG fails in memory only. -/
def checkTimeout (round : ℕ) : Validator Msg Conf Proc Used Out :=
  if self.manager.dkgOutput.isNone && cfg.dkgTimeoutRound < round then
    { self with manager := { self.manager with dkgOutput := some none } }
  else self

def advanceDkg (round : ℕ) : Validator Msg Conf Proc Used Out :=
  (((self.generateConfirmation cfg party coins).completeDkg cfg party coins).checkTimeout cfg round)

def processTransaction (commit : Commit Msg Conf) (tx : Transaction Msg Conf) :
    Validator Msg Conf Proc Used Out :=
  if commit.shouldAcceptTx then
    match tx.payload with
    | .message (some msg) => { self with manager := self.manager.addMessage cfg tx.authority msg }
    | .confirmation (some conf) => self.addConfirmation cfg tx.authority conf
    | _ => self
  else self

/-- A commit whose batch is written. Without a DKG transaction nothing advances. -/
def processCommit (commit : Commit Msg Conf) : Validator Msg Conf Proc Used Out :=
  let (processedCache, allTransactions) :=
    dedup cfg.processedCacheCap self.processedCache ∅ commit.transactions
  let transactions := allTransactions.filter (Transaction.verifies self.tables.consensusMessageProcessed)
  let processed := transactions.foldl (fun v tx => v.processTransaction cfg commit tx) self
  let advanced := if transactions.isEmpty then processed
    else processed.advanceDkg cfg party coins commit.round
  { advanced with
    processedCache
    tables := { advanced.tables with
      consensusMessageProcessed :=
        self.tables.consensusMessageProcessed ∪ (transactions.map Transaction.key).toFinset
      lastConsensusIndex := self.tables.lastConsensusIndex + 1 } }

def new : Validator Msg Conf Proc Used Out :=
  let tables := ⟨fun _ => none, none, fun _ => none, none, ∅, 0⟩
  ⟨.tryNew tables, tables, .empty⟩

def restart : Validator Msg Conf Proc Used Out := ⟨.tryNew self.tables, self.tables, .empty⟩

end Validator

/-- The next commit is processed, or the validator starts again. -/
inductive Event (Coins : Type) where
  | commit (coins : Coins)
  | restart

section Runs

variable (cfg : Config Msg Conf) (party : Party Coins Msg Conf Proc Used Out)
  (commits : List (Commit Msg Conf))

def step (v : Validator Msg Conf Proc Used Out) : Event Coins → Option (Validator Msg Conf Proc Used Out)
  | .commit coins => commits[v.tables.lastConsensusIndex]?.map (v.processCommit cfg party coins)
  | .restart => some v.restart

def run (v : Validator Msg Conf Proc Used Out) (events : List (Event Coins)) :
    Option (Validator Msg Conf Proc Used Out) :=
  events.foldlM (step cfg party commits) v

/-- Whenever the validator restarts, its DKG has not timed out before. -/
def RestartsInTime : Validator Msg Conf Proc Used Out → List (Event Coins) → Prop
  | _, [] => True
  | v, .commit coins :: events =>
      ∀ v', step cfg party commits v (.commit coins) = some v' → RestartsInTime v' events
  | v, .restart :: events => v.manager.dkgOutput ≠ some none ∧ RestartsInTime v.restart events

end Runs

/-- Which inputs `process_message`, `merge` and `complete` accept. -/
structure Acceptance (Msg Conf : Type) where
  message : Msg → Bool
  merge : List Msg → Bool
  complete : List Msg → List Conf → Bool

/-- The party of an honest validator: it accepts those inputs, whatever its coins and secrets. -/
structure Party.Follows (party : Party Coins Msg Conf Proc Used Out)
    (accepts : Acceptance Msg Conf) : Prop where
  processMessage : ∀ coins msg, (party.processMessage coins msg).map party.message =
    if accepts.message msg then some msg else none
  merge : ∀ processed, (party.merge processed).isSome = accepts.merge (processed.map party.message)
  complete : ∀ coins processed used confirmations, party.merge processed = some used →
    (party.complete coins used confirmations).isSome =
      accepts.complete (processed.map party.message) confirmations

def referenceParty (accepts : Acceptance Msg Conf) : Party Unit Msg Conf Msg (List Msg) Unit where
  processMessage _ msg := if accepts.message msg then some msg else none
  message := id
  merge messages := if accepts.merge messages then some messages else none
  complete _ messages confirmations := if accepts.complete messages confirmations then some () else none

/-- The reference forgets the cache before every commit. -/
def Validator.referenceStep (cfg : Config Msg Conf) (accepts : Acceptance Msg Conf)
    (v : Reference Msg Conf) (commit : Commit Msg Conf) : Reference Msg Conf :=
  { v with processedCache := .empty }.processCommit cfg (referenceParty accepts) () commit

def reference (cfg : Config Msg Conf) (accepts : Acceptance Msg Conf)
    (commits : List (Commit Msg Conf)) :
    Reference Msg Conf :=
  commits.foldl (Validator.referenceStep cfg accepts) .new

variable {cfg : Config Msg Conf} {party : Party Coins Msg Conf Proc Used Out} {coins : Coins}
  {accepts : Acceptance Msg Conf}

section Dedup

variable {cap : ℕ} {cache cache' : Lru ConsensusTransactionKey Unit}
  {processed processedSet : Finset ConsensusTransactionKey} {tx : Transaction Msg Conf}
  {transactions : List (Transaction Msg Conf)}

variable (cache processed processedSet) in
/-- The DKG keys in the cache are processed ones and ones of the present commit. -/
def Known : Prop :=
  ∀ key, isDkg key → (cache.peek key).isSome → key ∈ processed ∨ key ∈ processedSet

lemma Known.empty : Known .empty processed processedSet := by
  intro key _ hin
  simp [Lru.empty, Lru.peek] at hin

section

variable (h : Known cache processed processedSet)

include h

lemma Known.push (key : ConsensusTransactionKey) :
    Known ((cache.push key ()).1.shrink cap) processed (insert key processedSet) := by
  intro key' hdkg hin
  obtain ⟨_, hpeek⟩ := isSome_iff_exists.mp hin
  have hpush := Lru.peek_of_peek_shrink hpeek
  rw [Lru.peek_push] at hpush
  split_ifs at hpush with heq
  · exact .inr (heq ▸ Finset.mem_insert_self _ _)
  · exact (h key' hdkg (isSome_of_eq_some hpush)).imp_right Finset.mem_insert_of_mem

/-- A hit in the cache drops only what would not be verified either. -/
lemma Known.filter_dedup_cons :
    (dedup cap cache processedSet (tx :: transactions)).2.filter (Transaction.verifies processed) =
      (if tx.key ∉ processedSet ∧ tx.verifies processed then [tx] else []) ++
        (dedup cap ((cache.push tx.key ()).1.shrink cap)
          (insert tx.key processedSet) transactions).2.filter
          (Transaction.verifies processed) := by
  rw [dedup]
  dsimp only
  by_cases hset : tx.key ∈ processedSet
  · simp [hset]
  · by_cases hver : tx.verifies processed = true
    · obtain ⟨hdkg, hnew, -⟩ := of_decide_eq_true hver
      have hmiss : ¬(cache.peek tx.key).isSome := fun hin => (h _ hdkg hin).elim hnew hset
      simp [hset, hver, Lru.push, hmiss]
    · simp [hset, hver, apply_ite]

/-- What is verified does not depend on the cache. -/
lemma Known.filter_dedup (h' : Known cache' processed processedSet) :
    (dedup cap cache processedSet transactions).2.filter (Transaction.verifies processed) =
      (dedup cap cache' processedSet transactions).2.filter (Transaction.verifies processed) := by
  induction transactions generalizing cache cache' processedSet with
  | nil => rfl
  | cons tx transactions ih => rw [h.filter_dedup_cons, h'.filter_dedup_cons, ih (h.push _) (h'.push _)]

lemma Known.dedup
    (hauthentic : ∀ tx ∈ transactions, isDkg tx.key → tx.certificateAuthor = tx.authority) :
    Known (dedup cap cache processedSet transactions).1 (processed ∪
      (((Dkg.dedup cap cache processedSet transactions).2.filter
        (Transaction.verifies processed)).map Transaction.key).toFinset)
      processedSet := by
  induction transactions generalizing cache processedSet with
  | nil => exact fun key hdkg hin => (h key hdkg hin).imp_left (Finset.mem_union_left _)
  | cons tx transactions ih =>
    rw [forall_mem_cons] at hauthentic
    rw [h.filter_dedup_cons]
    intro key hdkg hin
    have hkey := ih (h.push tx.key) hauthentic.2 key hdkg hin
    rw [Finset.mem_insert] at hkey
    by_cases heq : key = tx.key
    · subst heq
      by_cases hset : tx.key ∈ processedSet
      · exact .inr hset
      · by_cases hold : tx.key ∈ processed
        · exact .inl (Finset.mem_union_left _ hold)
        · simp [Transaction.verifies, hset, hold, hdkg, hauthentic.1 hdkg]
    · rw [map_append, toFinset_append]
      refine hkey.imp (fun hin => ?_) fun hset => hset.resolve_left heq
      rw [Finset.union_left_comm]
      exact Finset.mem_union_right _ hin

end

end Dedup

section Simulation

variable {v : Validator Msg Conf Proc Used Out} {r : Reference Msg Conf}

variable (party) in
/-- The same messages arrived, of which one side keeps what the party made. -/
structure Pending (m : RandomnessManager Msg Conf Proc Used Out)
    (r : RandomnessManager Msg Conf Msg (List Msg) Unit) : Prop where
  enqueued : m.enqueuedMessages = r.enqueuedMessages
  processed : ∀ id, (m.processedMessages id).map party.message = r.processedMessages id
  used : (m.usedMessages = none ∧ r.usedMessages = none) ∨
    ∃ processed used, party.merge processed = some used ∧
    m.usedMessages = some used ∧ r.usedMessages = some (processed.map party.message)
  confirmations : m.confirmations = r.confirmations

variable (party) in
/-- The reference has the same outcome, and the same messages while there is none. -/
structure Simulates (m : RandomnessManager Msg Conf Proc Used Out)
    (r : RandomnessManager Msg Conf Msg (List Msg) Unit) : Prop where
  outcome : m.dkgOutput.map isSome = r.dkgOutput.map isSome
  pending : m.dkgOutput = none → Pending party m r

variable (v) in
/-- The tables of a validator hold what a restart needs, unless the DKG failed. -/
structure Stored : Prop where
  pending : v.manager.dkgOutput = none → v.tables.dkgProcessedMessages = v.manager.processedMessages ∧
    v.tables.dkgUsedMessages = v.manager.usedMessages ∧
      v.tables.dkgConfirmations = v.manager.confirmations ∧
    v.tables.dkgOutput = none
  successful : ∀ output, v.manager.dkgOutput = some (some output) → v.tables.dkgOutput = some output
  idle : v.manager.usedMessages.isSome → v.manager.enqueuedMessages = fun _ => none

variable (v) in
/-- No message is enqueued between commits. -/
structure Settled : Prop extends Stored v where
  drained : v.manager.dkgOutput = none → v.manager.enqueuedMessages = fun _ => none

lemma Pending.isSome_used (h : Pending party v.manager r.manager) :
    v.manager.usedMessages.isSome = r.manager.usedMessages.isSome := by
  rcases h.used with ⟨hv, hr⟩ | ⟨_, _, _, hv, hr⟩ <;> simp [hv, hr]

lemma Pending.insertProcessed (hfol : party.Follows accepts) (h : Pending party v.manager r.manager)
    (coins : Coins) (id : PartyId) :
    (party.insertProcessed coins v.manager.enqueuedMessages v.manager.processedMessages id).map
      party.message =
      (referenceParty accepts).insertProcessed
        () r.manager.enqueuedMessages r.manager.processedMessages id := by
  unfold Party.insertProcessed
  rw [map_or, h.processed, h.enqueued, map_bind]
  congr 2
  funext msg
  exact hfol.processMessage coins msg

section

variable (h : Simulates party v.manager r.manager)
include h

lemma Simulates.isSome : v.manager.dkgOutput.isSome = r.manager.dkgOutput.isSome := by
  simpa using congrArg Option.isSome h.outcome

lemma Simulates.dkgStatus : v.manager.dkgStatus = r.manager.dkgStatus := by
  have hout := h.outcome
  unfold RandomnessManager.dkgStatus
  rcases hv : v.manager.dkgOutput with _ | _ | output <;>
    rcases hr : r.manager.dkgOutput with _ | _ | output' <;> simp_all

lemma Simulates.addMessage (authority : AuthorityName) (msg : Msg) :
    Simulates party (v.manager.addMessage cfg authority msg)
      (r.manager.addMessage cfg authority msg) := by
  cases hout : v.manager.dkgOutput with
  | some output =>
    have hv : v.manager.addMessage cfg authority msg = v.manager := by
      simp [RandomnessManager.addMessage, hout]
    have hr : r.manager.addMessage cfg authority msg = r.manager := by
      simp [RandomnessManager.addMessage, ← h.isSome, hout]
    rw [hv, hr]
    exact h
  | none =>
    have hp := h.pending hout
    have hr : r.manager.dkgOutput.isSome = false := by rw [← h.isSome, hout, isSome_none]
    unfold RandomnessManager.addMessage
    rw [hout, hr, ← hp.isSome_used, isSome_none]
    split
    · exact h
    split
    · exact h
    rw [← hp.enqueued, ← hp.processed, isSome_map]
    split
    · exact h
    split
    · exact h
    exact ⟨hout ▸ h.outcome, fun _ => ⟨rfl, hp.processed, hp.used, hp.confirmations⟩⟩

lemma Simulates.addConfirmation (authority : AuthorityName) (conf : Conf) :
    Simulates party (v.addConfirmation cfg authority conf).manager
      (r.addConfirmation cfg authority conf).manager := by
  unfold Validator.addConfirmation
  rw [← h.isSome]
  split
  · exact h
  split
  · exact h
  split
  · exact h
  refine ⟨h.outcome, fun hnone => ?_⟩
  have hp := h.pending hnone
  exact ⟨hp.enqueued, hp.processed, hp.used, by rw [← hp.confirmations]⟩

lemma Simulates.generateConfirmation (hfol : party.Follows accepts) : Simulates party
    (v.generateConfirmation cfg party coins).manager
      (r.generateConfirmation cfg (referenceParty accepts) ()).manager := by
  unfold Validator.generateConfirmation
  rw [← not_isSome v.manager.dkgOutput, ← not_isSome r.manager.dkgOutput, ← h.isSome]
  cases hout : v.manager.dkgOutput with
  | some output => exact h
  | none =>
    have hp := h.pending hout
    rw [← not_isSome v.manager.usedMessages, ← not_isSome r.manager.usedMessages, ← hp.isSome_used]
    split
    swap
    · exact h
    have hprocd := hp.insertProcessed hfol coins
    dsimp only
    generalize party.insertProcessed coins v.manager.enqueuedMessages v.manager.processedMessages =
      processed at hprocd ⊢
    have hlist : cfg.parties.filterMap
        ((referenceParty accepts).insertProcessed
          () r.manager.enqueuedMessages r.manager.processedMessages) =
        (cfg.parties.filterMap processed).map party.message := by
      rw [map_filterMap]
      exact congrArg (cfg.parties.filterMap ·) (funext hprocd).symm
    have href : (referenceParty accepts).merge ((cfg.parties.filterMap processed).map party.message) =
        if (party.merge (cfg.parties.filterMap processed)).isSome then
          some ((cfg.parties.filterMap processed).map party.message)
          else none := by
      rw [hfol.merge]
      rfl
    rw [hlist, href]
    cases hm : party.merge (cfg.parties.filterMap processed) with
    | none => exact ⟨h.outcome, fun _ => ⟨rfl, hprocd, hp.used, hp.confirmations⟩⟩
    | some used =>
        exact ⟨h.outcome, fun _ => ⟨rfl, hprocd, .inr ⟨_, used, hm, rfl, rfl⟩, hp.confirmations⟩⟩

lemma Simulates.completeDkg (hfol : party.Follows accepts) :
    Simulates party (v.completeDkg cfg party coins).manager
      (r.completeDkg cfg (referenceParty accepts) ()).manager := by
  unfold Validator.completeDkg
  cases hout : v.manager.dkgOutput with
  | some output =>
    obtain ⟨output', hr⟩ : ∃ output', r.manager.dkgOutput = some output' := by
      rw [← isSome_iff_exists, ← h.isSome, hout, isSome_some]
    rw [hr]
    exact h
  | none =>
    have hr : r.manager.dkgOutput = none := by
      rw [← not_isSome_iff_eq_none, ← h.isSome, hout, isSome_none]
      simp
    have hp := h.pending hout
    rw [hr]
    rcases hp.used with ⟨hv, hr'⟩ | ⟨processed, used, hmerge, hv, hr'⟩ <;> rw [hv, hr']
    · exact h
    · have hcomplete :=
        hfol.complete coins processed used (cfg.parties.filterMap v.manager.confirmations) hmerge
      dsimp only [referenceParty]
      rw [← hp.confirmations, ← hcomplete]
      cases party.complete coins used (cfg.parties.filterMap v.manager.confirmations) with
      | none => exact h
      | some output => exact ⟨rfl, nofun⟩

lemma Simulates.checkTimeout (round : ℕ) :
    Simulates party (v.checkTimeout cfg round).manager (r.checkTimeout cfg round).manager := by
  unfold Validator.checkTimeout
  rw [← not_isSome, ← not_isSome, ← h.isSome]
  split
  · exact ⟨rfl, nofun⟩
  · exact h

lemma Simulates.processTransaction (commit : Commit Msg Conf) (tx : Transaction Msg Conf) :
    Simulates party (v.processTransaction cfg commit tx).manager
      (r.processTransaction cfg commit tx).manager := by
  unfold Validator.processTransaction
  split
  · split
    · exact h.addMessage _ _
    · exact h.addConfirmation _ _
    · exact h
  · exact h

lemma Simulates.foldl_processTransaction (commit : Commit Msg Conf)
    (transactions : List (Transaction Msg Conf)) :
    Simulates party (transactions.foldl (fun v tx => v.processTransaction cfg commit tx) v).manager
      (transactions.foldl (fun v tx => v.processTransaction cfg commit tx) r).manager := by
  induction transactions generalizing v r with
  | nil => exact h
  | cons tx transactions ih => exact ih (h.processTransaction commit tx)

lemma Simulates.processCommit (hfol : party.Follows accepts)
    (hkeys : v.tables.consensusMessageProcessed = r.tables.consensusMessageProcessed)
    (hknown : Known v.processedCache v.tables.consensusMessageProcessed ∅) (commit : Commit Msg Conf) :
    let v' := v.processCommit cfg party coins commit
    let r' := r.referenceStep cfg accepts commit
    Simulates party v'.manager r'.manager ∧
      v'.tables.consensusMessageProcessed = r'.tables.consensusMessageProcessed := by
  unfold Validator.referenceStep Validator.processCommit
  dsimp only
  rw [hkeys] at hknown ⊢
  rw [hknown.filter_dedup .empty]
  refine ⟨?_, rfl⟩
  have hstart : Simulates party v.manager
    ({ r with processedCache := .empty } : Reference Msg Conf).manager := h
  split
  · exact hstart.foldl_processTransaction commit _
  · exact (((hstart.foldl_processTransaction commit _).generateConfirmation hfol).completeDkg
      hfol).checkTimeout _

lemma Simulates.restart (hsett : Settled v) (hfailed : v.manager.dkgOutput ≠ some none) :
    Simulates party v.restart.manager r.manager ∧ Settled v.restart := by
  unfold Validator.restart
  rcases hout : v.manager.dkgOutput with _ | _ | output
  · obtain ⟨hprocd, hused, hconfs, hnone⟩ := hsett.pending hout
    have hsame : RandomnessManager.tryNew v.tables = v.manager := by
      rw [RandomnessManager.tryNew, hnone]
      rw [hprocd, hused, hconfs, ← hsett.drained hout, ← hout]
    rw [hsame]
    exact ⟨h, ⟨⟨hsett.pending, hsett.successful, hsett.idle⟩, hsett.drained⟩⟩
  · exact absurd hout hfailed
  · have hstd := hsett.successful output hout
    have hloaded : RandomnessManager.tryNew v.tables =
        (⟨fun _ => none, fun _ => none, none, fun _ => none, some (some output)⟩ :
          RandomnessManager Msg Conf Proc Used Out) := by
      rw [RandomnessManager.tryNew, hstd]
    rw [hloaded]
    refine ⟨⟨hout ▸ h.outcome, nofun⟩, ⟨⟨nofun, fun o ho => ?_, fun _ => rfl⟩, fun _ => rfl⟩⟩
    cases ho
    exact hstd

end

lemma Simulates.new : Simulates party Validator.new.manager (.new : Reference Msg Conf).manager :=
  ⟨rfl, fun _ => ⟨rfl, fun _ => rfl, .inl ⟨rfl, rfl⟩, rfl⟩⟩

lemma Stored.processTransaction (h : Stored v) (commit : Commit Msg Conf) (tx : Transaction Msg Conf) :
    Stored (v.processTransaction cfg commit tx) := by
  unfold Validator.processTransaction
  split
  swap
  · exact h
  split
  · -- Messages are enqueued only while there are no used ones.
    unfold RandomnessManager.addMessage
    split
    · exact h
    rename_i hcond
    split
    · exact h
    split
    · exact h
    split
    · exact h
    exact ⟨h.pending, h.successful, fun hused => by simp [hused] at hcond⟩
  · unfold Validator.addConfirmation
    split
    · exact h
    split
    · exact h
    split
    · exact h
    refine ⟨fun hnone => ?_, h.successful, h.idle⟩
    obtain ⟨hprocd, hused, hconfs, hout⟩ := h.pending hnone
    exact ⟨hprocd, hused, by rw [hconfs], hout⟩
  · exact h

lemma Stored.generateConfirmation (h : Stored v) : Settled (v.generateConfirmation cfg party coins) := by
  unfold Validator.generateConfirmation
  split
  · rename_i hcond
    obtain ⟨hnone, -⟩ := (Bool.and_eq_true _ _).mp hcond
    obtain ⟨hprocd, hused, hconfs, hout⟩ := h.pending (isNone_iff_eq_none.mp hnone)
    dsimp only
    rw [hprocd]
    split
    · exact ⟨⟨fun _ => ⟨rfl, rfl, hconfs, hout⟩, h.successful, fun _ => rfl⟩, fun _ => rfl⟩
    · exact ⟨⟨fun _ => ⟨rfl, hused, hconfs, hout⟩, h.successful, fun _ => rfl⟩, fun _ => rfl⟩
  · rename_i hcond
    refine ⟨h, fun hnone => h.idle ?_⟩
    simpa [hnone, isSome_iff_ne_none] using hcond

lemma Settled.completeDkg (h : Settled v) : Settled (v.completeDkg cfg party coins) := by
  unfold Validator.completeDkg
  split
  · split
    · exact ⟨⟨nofun, fun output hout => some.inj hout, h.idle⟩, nofun⟩
    · exact h
  · exact h

lemma Settled.checkTimeout (h : Settled v) (round : ℕ) : Settled (v.checkTimeout cfg round) := by
  unfold Validator.checkTimeout
  split
  · exact ⟨⟨nofun, nofun, h.idle⟩, nofun⟩
  · exact h

lemma Settled.processCommit (h : Settled v) (commit : Commit Msg Conf) :
    Settled (v.processCommit cfg party coins commit) := by
  unfold Validator.processCommit
  dsimp only
  generalize (dedup _ _ _ _).2.filter _ = transactions
  have hprocd : Stored (transactions.foldl (fun v tx => v.processTransaction cfg commit tx) v) :=
    List.foldlRecOn transactions _ h.toStored fun v hv tx _ => hv.processTransaction commit tx
  have hadv : Settled (if transactions.isEmpty then
    transactions.foldl (fun v tx => v.processTransaction cfg commit tx) v
      else (transactions.foldl (fun v tx => v.processTransaction cfg commit tx) v).advanceDkg
        cfg party coins
        commit.round) := by
    split
    · rename_i hemp
      rw [isEmpty_iff.mp hemp]
      exact h
    · exact hprocd.generateConfirmation.completeDkg.checkTimeout _
  exact ⟨⟨hadv.pending, hadv.successful, hadv.idle⟩, hadv.drained⟩

lemma Settled.new : Settled (.new : Validator Msg Conf Proc Used Out) :=
  ⟨⟨fun _ => ⟨rfl, rfl, rfl, rfl⟩, nofun, fun _ => rfl⟩, fun _ => rfl⟩

end Simulation

section Runs

variable {commits : List (Commit Msg Conf)} {v v' : Validator Msg Conf Proc Used Out}

variable (cfg party accepts commits v) in
def Tracks : Prop :=
  let r := reference cfg accepts (commits.take v.tables.lastConsensusIndex)
  Simulates party v.manager r.manager ∧
    v.tables.consensusMessageProcessed = r.tables.consensusMessageProcessed ∧
    Settled v ∧ Known v.processedCache v.tables.consensusMessageProcessed ∅

section

variable (hauthentic : ∀ commit ∈ commits, commit.Authentic)
include hauthentic

section

variable (hfol : party.Follows accepts) (h : Tracks cfg party accepts commits v)

include hfol h

lemma Tracks.processCommit (hstep : step cfg party commits v (.commit coins) = some v') :
    Tracks cfg party accepts commits v' ∧
      v'.tables.lastConsensusIndex = v.tables.lastConsensusIndex + 1 := by
  obtain ⟨commit, hcom, rfl⟩ := map_eq_some_iff.mp hstep
  obtain ⟨hsim, hkeys, hsett, hknown⟩ := h
  have href : reference cfg accepts (commits.take (v.tables.lastConsensusIndex + 1)) =
      (reference cfg accepts (commits.take v.tables.lastConsensusIndex)).referenceStep cfg
        accepts commit := by
    rw [reference, take_add_one, hcom, toList_some, foldl_append, foldl_cons, foldl_nil, reference]
  obtain ⟨hsim', hkeys'⟩ := hsim.processCommit hfol hkeys hknown commit
  refine ⟨⟨href ▸ hsim', href ▸ hkeys', hsett.processCommit commit, ?_⟩, rfl⟩
  exact hknown.dedup (hauthentic commit (mem_of_getElem? hcom))

lemma Tracks.run {events : List (Event Coins)}
    (hrestarts : RestartsInTime cfg party commits v events)
    (hrun : run cfg party commits v events = some v') :
    Tracks cfg party accepts commits v' ∧
      v.tables.lastConsensusIndex ≤ v'.tables.lastConsensusIndex := by
  induction events generalizing v with
  | nil =>
    cases hrun
    exact ⟨h, le_rfl⟩
  | cons event events ih =>
    obtain ⟨v₁, hstep, hrest⟩ := bind_eq_some_iff.mp hrun
    cases event with
    | commit coins =>
      obtain ⟨htr, hidx⟩ := Tracks.processCommit hauthentic hfol h hstep
      obtain ⟨htr', hle⟩ := ih htr (hrestarts v₁ hstep) hrest
      exact ⟨htr', by omega⟩
    | restart =>
      cases hstep
      obtain ⟨hsim, hkeys, hsett, -⟩ := h
      obtain ⟨hsim, hsett⟩ := hsim.restart hsett hrestarts.1
      have htr : Tracks cfg party accepts commits v.restart := ⟨hsim, hkeys, hsett, .empty⟩
      have hrest' := ih htr hrestarts.2 hrest
      exact hrest'

end

end

lemma Tracks.new : Tracks cfg party accepts commits .new := ⟨.new, rfl, .new, .empty⟩

variable {outcome : Option Out}

end Runs

namespace Example

/-- A commit with the DKG message of authority 0, as sent by some authority. -/
def commit (round : ℕ) (certificateAuthor : AuthorityName) : Commit Unit Unit :=
  ⟨round, true, [⟨certificateAuthor, 0, .message (some ())⟩]⟩

end Example

end SuiProofs.Authority.Dkg
