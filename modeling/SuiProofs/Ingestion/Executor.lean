import SuiProofs.Library.Exec
import SuiProofs.Ingestion.WorkerPool

/-!
Models `executor.rs` and `progress_store` of `sui-data-ingestion-core`. A crash may happen at any
moment; the next run starts from the saved progress.
-/

namespace SuiProofs.Ingestion

open Library List Option Function Ingestion

/-- The pools, and what their workers return from `save_progress` in each run. Within a run a pool
asks at most once for a checkpoint, so the answers are a function of its number. -/
structure Settings (TaskName : Type) where
  concurrency : TaskName → ℕ
  saveProgress : ℕ → TaskName → ℕ → Option ℕ
  saveProgress_le : ∀ run task s w, saveProgress run task s = some w → w ≤ s

variable {TaskName : Type}

/-- The executor, its reader and its pools, with what was saved and processed. -/
structure State (TaskName : Type) where
  /-- The number of restarts so far. -/
  run : ℕ
  /-- The watermarks that the pools of this run were registered with. -/
  watermark : TaskName → ℕ
  progressStore : TaskName → ℕ
  pendingState : TaskName → ℕ
  /-- The next checkpoint that the reader sends. -/
  currentCheckpointNumber : ℕ
  checkpointRecv : List ℕ
  pools : TaskName → WorkerPool
  poolProgressReceiver : List (TaskName × ℕ)
  readerCheckpointNumber : ℕ
  /-- The progress saved and the watermarks sent to the reader in this run. -/
  saves : List (TaskName × ℕ)
  gcSent : List ℕ
  /-- The checkpoints that the pools processed in this run, and in earlier ones. -/
  processed : TaskName → List ℕ
  earlier : TaskName → List ℕ

/-- The steps of the concurrent tasks, and restarts. -/
inductive Event (TaskName : Type) where
  | read
  | deliver
  | receiveCheckpoint (task : TaskName)
  | workerReceive (task : TaskName) (workerId : ℕ)
  | workerProcess (task : TaskName) (workerId : ℕ)
  | workerReport (task : TaskName) (workerId : ℕ)
  | receiveProgress (task : TaskName)
  | save
  | restart

section Steps

variable [Fintype TaskName] [Nonempty TaskName]

def minWatermark (pendingState : TaskName → ℕ) : ℕ := Finset.univ.inf' Finset.univ_nonempty pendingState

lemma minWatermark_le (pendingState : TaskName → ℕ) (task : TaskName) :
    minWatermark pendingState ≤ pendingState task :=
  Finset.inf'_le _ (Finset.mem_univ task)

def launch (settings : Settings TaskName) (run : ℕ) (progressStore : TaskName → ℕ)
    (earlier : TaskName → List ℕ) : State TaskName where
  run := run
  watermark := progressStore
  progressStore := progressStore
  pendingState := progressStore
  currentCheckpointNumber := minWatermark progressStore
  checkpointRecv := []
  pools task := WorkerPool.new (settings.concurrency task) (progressStore task)
  poolProgressReceiver := []
  readerCheckpointNumber := minWatermark progressStore
  saves := []
  gcSent := []
  processed _ := []
  earlier := earlier

variable [DecidableEq TaskName]

def setPool (st : State TaskName) (task : TaskName) (pool : WorkerPool) : State TaskName :=
  { st with pools := update st.pools task pool }

def saveStep (st : State TaskName) : Option (State TaskName) :=
  match st.poolProgressReceiver with
  | [] => none
  | (task, sequenceNumber) :: poolProgressReceiver =>
    let pendingState := update st.pendingState task sequenceNumber
    let seqNumber := minWatermark pendingState
    let st := { st with
      progressStore := update st.progressStore task sequenceNumber
      pendingState := pendingState
      poolProgressReceiver := poolProgressReceiver
      saves := st.saves ++ [(task, sequenceNumber)] }
    if st.readerCheckpointNumber < seqNumber then
      some { st with gcSent := st.gcSent ++ [seqNumber], readerCheckpointNumber := seqNumber }
    else some st

def step (settings : Settings TaskName) (st : State TaskName) : Event TaskName → Option (State TaskName)
  | .read => some { st with
      checkpointRecv := st.checkpointRecv ++ [st.currentCheckpointNumber]
      currentCheckpointNumber := st.currentCheckpointNumber + 1 }
  | .deliver =>
    match st.checkpointRecv with
    | [] => none
    | checkpoint :: checkpointRecv => some { st with
        checkpointRecv := checkpointRecv
        pools := fun task =>
          { st.pools task with checkpointReceiver := (st.pools task).checkpointReceiver ++
            [checkpoint] } }
  | .receiveCheckpoint task => do
    let pool ← (st.pools task).receiveCheckpoint
    return setPool st task pool
  | .workerReceive task workerId =>
    if workerId < settings.concurrency task then do
      let pool ← (st.pools task).workerReceive workerId
      return setPool st task pool
    else none
  | .workerProcess task workerId =>
    if workerId < settings.concurrency task then do
      let (pool, checkpoint) ← (st.pools task).workerProcess workerId
      return { setPool st task pool with
        processed := update st.processed task (st.processed task ++ [checkpoint]) }
    else none
  | .workerReport task workerId =>
    if workerId < settings.concurrency task then do
      let pool ← (st.pools task).workerReport (settings.saveProgress st.run task) workerId
      return setPool st task pool
    else none
  | .receiveProgress task => do
    let (pool, update) ← (st.pools task).receiveProgress
    return { setPool st task pool with
      poolProgressReceiver :=
        st.poolProgressReceiver ++ (update.map fun sequenceNumber =>
          (task, sequenceNumber)).toList }
  | .save => saveStep st
  | .restart =>
      some (launch settings (st.run + 1) st.progressStore fun task =>
        st.earlier task ++ st.processed task)

def run (settings : Settings TaskName) (st : State TaskName) (events : List (Event TaskName)) :
    Option (State TaskName) :=
  events.foldlM (step settings) st

end Steps

/-- A pool accounts for all it was sent, and its progress is saved after the fact. -/
structure PoolInvariant (settings : Settings TaskName) (st : State TaskName)
    (task : TaskName) : Prop where
  accounts : ∃ next ≤ st.currentCheckpointNumber,
    (st.pools task).Accounts (settings.concurrency task) (settings.saveProgress st.run task)
    (st.watermark task) next (st.processed task) ∧
    (st.pools task).checkpointReceiver ++ st.checkpointRecv =
      List.range' next (st.currentCheckpointNumber - next)
  saved : st.progressStore task ≤ (st.pools task).currentCheckpointNumber
  sent : ∀ p, (task, p) ∈ st.poolProgressReceiver → p ≤ (st.pools task).currentCheckpointNumber
  saves : ∀ p, (task, p) ∈ st.saves → p ≤ (st.pools task).currentCheckpointNumber

/-- The invariant of ingestion: the pools are in order, and all before the watermarks of a run was
processed in earlier ones. -/
structure Invariant (settings : Settings TaskName) (first : TaskName → ℕ)
    (st : State TaskName) : Prop where
  pending : st.pendingState = st.progressStore
  pools : ∀ task, PoolInvariant settings st task
  before : ∀ task n, first task ≤ n → n < st.watermark task → n ∈ st.earlier task

/-- The state after a step of one pool, with its log and the progress it releases. -/
def localStep [DecidableEq TaskName] (st : State TaskName) (task : TaskName) (pool : WorkerPool)
    (log : List ℕ) (update : Option ℕ) : State TaskName :=
  { st with
    pools := Function.update st.pools task pool
    processed := Function.update st.processed task log
    poolProgressReceiver :=
      st.poolProgressReceiver ++ (update.map fun sequenceNumber => (task, sequenceNumber)).toList }

variable {settings : Settings TaskName} {first : TaskName → ℕ} {st st' : State TaskName}
  {task : TaskName} {pool : WorkerPool} {log : List ℕ}

section Invariants

variable {n : ℕ}

lemma Invariant.mem_processed (h : Invariant settings first st) (hfst : first task ≤ n)
    (hn : n < (st.pools task).currentCheckpointNumber) :
    n ∈ st.processed task ∨ n ∈ st.earlier task := by
  obtain ⟨next, -, haccs, -⟩ := (h.pools task).accounts
  rcases lt_or_ge n (st.watermark task) with hlt | hge
  · exact .inr (h.before task n hfst hlt)
  · exact .inl (haccs.mem_log hge hn)

lemma Invariant.launch [Fintype TaskName] [Nonempty TaskName] {runs : ℕ}
    {progressStore : TaskName → ℕ} {earlier : TaskName → List ℕ}
    (hbef : ∀ task n, first task ≤ n → n < progressStore task → n ∈ earlier task) :
    Invariant settings first (launch settings runs progressStore earlier) where
  pending := rfl
  pools task :=
    { accounts := ⟨minWatermark progressStore, le_rfl, .new (minWatermark_le progressStore task),
        by simp [Ingestion.launch, WorkerPool.new]⟩
      saved := le_rfl
      sent := fun p hp => by cases hp
      saves := fun p hp => by cases hp }
  before := hbef

variable (settings st task pool log) in
/-- What a step of a pool does: it accounts for the checkpoints and releases the progress of
checkpoints that it has passed. -/
structure PoolStep (update : Option ℕ) : Prop where
  current_le : (st.pools task).currentCheckpointNumber ≤ pool.currentCheckpointNumber
  accounts : ∃ next ≤ st.currentCheckpointNumber,
    pool.Accounts (settings.concurrency task) (settings.saveProgress st.run task)
      (st.watermark task) next log ∧
    pool.checkpointReceiver ++ st.checkpointRecv = List.range' next (st.currentCheckpointNumber - next)
  update : ∀ p, update = some p →
    ∃ s w, (st.pools task).currentCheckpointNumber ≤ s ∧ s < pool.currentCheckpointNumber ∧
    settings.saveProgress st.run task s = some w ∧ p = w + 1

variable {update : Option ℕ} {p : ℕ} {next : ℕ}

lemma PoolStep.of_frame (hnext : next ≤ st.currentCheckpointNumber)
    (hqueue : (st.pools task).checkpointReceiver ++ st.checkpointRecv =
      List.range' next (st.currentCheckpointNumber - next))
    (h : pool.Accounts (settings.concurrency task) (settings.saveProgress st.run task)
      (st.watermark task) next log ∧
      pool.checkpointReceiver = (st.pools task).checkpointReceiver ∧
      pool.currentCheckpointNumber = (st.pools task).currentCheckpointNumber) :
    PoolStep settings st task pool log none :=
  ⟨h.2.2.ge, ⟨next, hnext, h.1, by rw [h.2.1, hqueue]⟩, fun p hp => by cases hp⟩

variable [DecidableEq TaskName]

lemma mem_localStep_progress {other : TaskName} :
    (other, p) ∈ (localStep st task pool log update).poolProgressReceiver ↔
      (other, p) ∈ st.poolProgressReceiver ∨ (other = task ∧ update = some p) := by
  cases update <;> simp [localStep, and_comm, eq_comm]

lemma Invariant.localStep (h : Invariant settings first st)
    (hstep : PoolStep settings st task pool log update) :
    Invariant settings first (localStep st task pool log update) := by
  refine ⟨h.pending, fun other => ?_, h.before⟩
  obtain ⟨hothers, hsaved, hsent, hsaves⟩ := h.pools other
  by_cases heq : other = task
  · subst heq
    have hpool : (localStep st other pool log update).pools other = pool := Function.update_self _ _ _
    have hlog : (localStep st other pool log update).processed other = log := Function.update_self _ _ _
    constructor <;> simp only [hpool, hlog]
    · exact hstep.accounts
    · exact hsaved.trans hstep.current_le
    · intro p hp
      rcases mem_localStep_progress.mp hp with hp | ⟨-, hp⟩
      · exact (hsent p hp).trans hstep.current_le
      · obtain ⟨s, w, -, hs, hw, rfl⟩ := hstep.update p hp
        have hle := settings.saveProgress_le _ _ _ _ hw
        omega
    · exact fun p hp => (hsaves p hp).trans hstep.current_le
  · have hpool : (Ingestion.localStep st task pool log update).pools other = st.pools other :=
      Function.update_of_ne heq _ _
    have hlog : (Ingestion.localStep st task pool log update).processed other =
      st.processed other := Function.update_of_ne heq _ _
    constructor <;> simp only [hpool, hlog]
    · exact hothers
    · exact hsaved
    · intro p hp
      rcases mem_localStep_progress.mp hp with hp | ⟨hp, -⟩
      · exact hsent p hp
      · exact absurd hp heq
    · exact hsaves

lemma setPool_eq_localStep : setPool st task pool = Ingestion.localStep st task pool
    (st.processed task) none := by
  simp [setPool, localStep]

lemma of_cons_eq_range' {x : ℕ} {l : List ℕ} (h : x :: l = List.range' next (n - next)) :
    x = next ∧ next + 1 ≤ n ∧ l = List.range' (next + 1) (n - (next + 1)) := by
  cases hlen : n - next with
  | zero =>
    rw [hlen] at h
    cases h
  | succ m =>
    rw [hlen, List.range'_succ] at h
    obtain ⟨hx, hl⟩ := List.cons.inj h
    refine ⟨hx, by omega, ?_⟩
    rw [hl]
    congr 1
    omega

end Invariants

section Preservation

def Event.IsPoolEvent : Event TaskName → Prop
  | .receiveCheckpoint _ | .workerReceive _ _ | .workerProcess _ _ | .workerReport
      _ _ | .receiveProgress _ => True
  | _ => False

variable {event : Event TaskName}

lemma cases_of_not_isPoolEvent (h : ¬ event.IsPoolEvent) :
    event = .read ∨ event = .deliver ∨ event = .save ∨ event = .restart := by
  cases event <;> simp_all [Event.IsPoolEvent]

variable [Fintype TaskName] [Nonempty TaskName] [DecidableEq TaskName]

lemma exists_poolStep (h : Invariant settings first st) (hevent : event.IsPoolEvent)
    (hstep : step settings st event = some st') :
    ∃ task pool log update, st' = localStep st task pool log update ∧
      PoolStep settings st task pool log update := by
  cases event with
  | read | deliver | save | restart => cases hevent
  | receiveCheckpoint task =>
    obtain ⟨pool, hpool, hstep⟩ := bind_eq_some_iff.mp hstep
    cases hstep
    obtain ⟨next, hnext, haccs, hqueue⟩ := (h.pools task).accounts
    cases hrecv : (st.pools task).checkpointReceiver with
    | nil =>
      rw [WorkerPool.receiveCheckpoint, hrecv] at hpool
      cases hpool
    | cons x rest =>
      rw [hrecv, cons_append] at hqueue
      obtain ⟨rfl, hnext', hrest⟩ := of_cons_eq_range' hqueue
      obtain ⟨haccs', hrecv', hcurr⟩ := haccs.receiveCheckpoint hrecv hpool
      refine ⟨task, pool, st.processed task, none, setPool_eq_localStep, hcurr.ge,
        ⟨x + 1, hnext', haccs', ?_⟩, fun p hp => by cases hp⟩
      rw [hrecv', hrest]
  | workerReceive task workerId =>
    dsimp only [step] at hstep
    split_ifs at hstep with hid
    obtain ⟨pool, hpool, hstep⟩ := bind_eq_some_iff.mp hstep
    cases hstep
    obtain ⟨next, hnext, haccs, hqueue⟩ := (h.pools task).accounts
    exact ⟨task, pool, st.processed task, none, setPool_eq_localStep,
      .of_frame hnext hqueue (haccs.workerReceive hid hpool)⟩
  | workerProcess task workerId =>
    dsimp only [step] at hstep
    split_ifs at hstep with hid
    obtain ⟨⟨pool, checkpoint⟩, hpool, hstep⟩ := bind_eq_some_iff.mp hstep
    cases hstep
    obtain ⟨next, hnext, haccs, hqueue⟩ := (h.pools task).accounts
    refine ⟨task, pool, st.processed task ++ [checkpoint], none, ?_,
      .of_frame hnext hqueue (haccs.workerProcess hid hpool)⟩
    simp [setPool, localStep]
  | workerReport task workerId =>
    dsimp only [step] at hstep
    split_ifs at hstep with hid
    obtain ⟨pool, hpool, hstep⟩ := bind_eq_some_iff.mp hstep
    cases hstep
    obtain ⟨next, hnext, haccs, hqueue⟩ := (h.pools task).accounts
    exact ⟨task, pool, st.processed task, none, setPool_eq_localStep,
      .of_frame hnext hqueue (haccs.workerReport hid hpool)⟩
  | receiveProgress task =>
    obtain ⟨⟨pool, update⟩, hpool, hstep⟩ := bind_eq_some_iff.mp hstep
    cases hstep
    obtain ⟨next, hnext, haccs, hqueue⟩ := (h.pools task).accounts
    obtain ⟨haccs', hrecv, hcurr, hupd⟩ := haccs.receiveProgress hpool
    refine ⟨task, pool, st.processed task, update, ?_, hcurr,
      ⟨next, hnext, haccs', by rw [hrecv, hqueue]⟩, hupd⟩
    simp [setPool, localStep]

def afterSave (st : State TaskName) (task : TaskName) (p : ℕ) (rest : List (TaskName × ℕ))
    (gc : List ℕ) (number : ℕ) : State TaskName :=
  { st with
    progressStore := update st.progressStore task p
    pendingState := update st.pendingState task p
    poolProgressReceiver := rest
    saves := st.saves ++ [(task, p)]
    gcSent := gc
    readerCheckpointNumber := number }

lemma saveStep_eq_some (h : saveStep st = some st') :
    ∃ task p rest gc number, st.poolProgressReceiver = (task, p) :: rest ∧
    st' = afterSave st task p rest gc number ∧
    (gc = st.gcSent ∨ gc = st.gcSent ++ [minWatermark (update st.pendingState task p)]) := by
  unfold saveStep at h
  split at h
  · cases h
  rename_i task p rest hrecv
  dsimp only at h
  split at h
  · exact ⟨task, p, rest, _, _, hrecv, (some.inj h).symm, .inr rfl⟩
  · exact ⟨task, p, rest, _, _, hrecv, (some.inj h).symm, .inl rfl⟩

lemma Invariant.save (h : Invariant settings first st) (hstep : saveStep st = some st') :
    Invariant settings first st' := by
  obtain ⟨task, p, rest, gc, number, hrecv, rfl, -⟩ := saveStep_eq_some hstep
  refine ⟨by rw [afterSave, h.pending], fun other => ?_, h.before⟩
  obtain ⟨haccs, hsaved, hsent, hsaves⟩ := h.pools other
  refine ⟨haccs, ?_, fun q hq => ?_, fun q hq => ?_⟩
  · dsimp only [afterSave]
    by_cases heq : other = task
    · subst heq
      rw [update_self]
      exact hsent p (by rw [hrecv]; exact mem_cons_self)
    · rw [update_of_ne heq]
      exact hsaved
  · exact hsent q (by rw [hrecv]; exact mem_cons_of_mem _ hq)
  · rcases mem_append.mp hq with hq | hq
    · exact hsaves q hq
    · obtain ⟨rfl, rfl⟩ := Prod.mk.inj (mem_singleton.mp hq)
      exact hsent q (by rw [hrecv]; exact mem_cons_self)

lemma Invariant.step (h : Invariant settings first st) (hstep : step settings st event = some st') :
    Invariant settings first st' := by
  by_cases hevent : event.IsPoolEvent
  · obtain ⟨task, pool, log, update, rfl, hpool⟩ := exists_poolStep h hevent hstep
    exact h.localStep hpool
  obtain rfl | rfl | rfl | rfl := cases_of_not_isPoolEvent hevent
  · cases hstep
    refine ⟨h.pending, fun task => ?_, h.before⟩
    obtain ⟨⟨next, hnext, haccs, hqueue⟩, hsaved, hsent, hsaves⟩ := h.pools task
    refine ⟨⟨next, by dsimp only; omega, haccs, ?_⟩, hsaved, hsent, hsaves⟩
    dsimp only
    rw [← append_assoc, hqueue, Nat.sub_add_comm hnext, List.range'_concat, mul_comm, Nat.mul_one,
      Nat.add_sub_cancel' hnext]
  · dsimp only [step] at hstep
    split at hstep
    · cases hstep
    rename_i checkpoint checkpointRecv hrecv
    cases hstep
    refine ⟨h.pending, fun task => ?_, h.before⟩
    obtain ⟨⟨next, hnext, haccs, hqueue⟩, hsaved, hsent, hsaves⟩ := h.pools task
    refine ⟨⟨next, hnext, ?_, ?_⟩, hsaved, hsent, hsaves⟩
    · exact ⟨haccs.start_le, haccs.current_le, haccs.tokens, haccs.log, haccs.updates,
        haccs.progress, haccs.idle⟩
    · dsimp only
      rw [← hqueue, hrecv, append_assoc, singleton_append]
  · exact h.save hstep
  · cases hstep
    refine .launch fun task n hfst hn => ?_
    have hcurr := (h.pools task).saved
    rw [mem_append, or_comm]
    exact h.mem_processed hfst (hn.trans_le hcurr)

lemma run_invariant {events : List (Event TaskName)} {progressStore : TaskName → ℕ}
    (hrun : run settings (launch settings 0 progressStore fun _ => []) events = some st) :
    Invariant settings progressStore st :=
  foldlM_some_induction (Invariant settings progressStore)
    (.launch fun _ _ h hlt => absurd hlt (not_lt.mpr h)) (fun _ _ _ _ h hstep => h.step hstep) hrun

end Preservation

variable (settings st) in
/-- In this run `save_progress` answers in order, and never below the progress it started from. -/
structure Steady : Prop where
  mono : ∀ task s s' w w', s ≤ s' → settings.saveProgress st.run task s = some w →
    settings.saveProgress st.run task s' = some w' → w ≤ w'
  watermark_le : ∀ task s w, st.watermark task ≤ s → settings.saveProgress st.run task s = some w →
    st.watermark task ≤ w + 1

def unsaved [DecidableEq TaskName] (st : State TaskName) (task : TaskName) : List ℕ :=
  (st.poolProgressReceiver.filter fun m => m.1 = task).map Prod.snd

def savedProgress [DecidableEq TaskName] (st : State TaskName) (task : TaskName) : List ℕ :=
  st.watermark task :: (st.saves.filter fun m => m.1 = task).map Prod.snd

/-- The progress of every pool, in the order in which it was and will be saved, does not decrease,
and neither will what is still to be released. -/
structure Ascending [DecidableEq TaskName] (settings : Settings TaskName)
    (st : State TaskName) : Prop where
  sorted : ∀ task, (savedProgress st task ++ unsaved st task).Pairwise (· ≤ ·)
  last : ∀ task, st.progressStore task ∈ savedProgress st task ∧
    ∀ p ∈ savedProgress st task, p ≤ st.progressStore task
  ahead : ∀ task s w p, (st.pools task).currentCheckpointNumber ≤ s →
    settings.saveProgress st.run task s = some w →
    p ∈ savedProgress st task ++ unsaved st task → p ≤ w + 1
  gc : ∀ g ∈ st.gcSent, ∀ task, g ≤ st.progressStore task

section Ascents

variable [DecidableEq TaskName] {update : Option ℕ}

lemma unsaved_localStep {other : TaskName} :
    unsaved (localStep st task pool log update) other = unsaved st other ++ if other = task then
      update.toList else [] := by
  unfold unsaved localStep
  cases update with
  | none => simp
  | some p =>
    by_cases heq : other = task
    · simp [heq]
    · simp [heq, Ne.symm heq]

lemma Ascending.localStep (h : Ascending settings st)
    (hsteady : Steady settings st) (hstep : PoolStep settings st task pool log update) :
    Ascending settings (localStep st task pool log update) := by
  have hold : ∀ other s w p,
    ((Ingestion.localStep st task pool log update).pools other).currentCheckpointNumber ≤ s →
      settings.saveProgress st.run other s = some w →
        p ∈ savedProgress st other ++ unsaved st other → p ≤ w + 1 := by
    intro other s w p hs hw hp
    refine h.ahead other s w p ?_ hw hp
    by_cases heq : other = task
    · subst heq
      have hpool : (localStep st other pool log update).pools other = pool := Function.update_self _ _ _
      rw [hpool] at hs
      exact hstep.current_le.trans hs
    · have hpool : (Ingestion.localStep st task pool log update).pools other = st.pools other :=
        Function.update_of_ne heq _ _
      rwa [hpool] at hs
  have hsame : ∀ other, savedProgress (Ingestion.localStep st task pool log update) other =
    savedProgress st other := fun _ => rfl
  refine ⟨fun other => ?_, h.last, fun other s w p hs hw hp => ?_, h.gc⟩
  · rw [hsame, unsaved_localStep, ← append_assoc]
    refine pairwise_append.mpr ⟨h.sorted other, ?_, fun q hq p hp => ?_⟩
    · split
      · cases update <;> simp
      · exact List.Pairwise.nil
    · split at hp
      · rename_i heq
        subst heq
        obtain ⟨s, w, hs, -, hw, rfl⟩ := hstep.update p (mem_toList.mp hp)
        exact h.ahead other s w q hs hw hq
      · cases hp
  · rw [hsame, unsaved_localStep, ← append_assoc] at hp
    rcases mem_append.mp hp with hp | hnew
    · exact hold other s w p hs hw hp
    · split at hnew
      · rename_i heq
        subst heq
        obtain ⟨t, v, -, ht, hv, rfl⟩ := hstep.update p (mem_toList.mp hnew)
        have hpool : (localStep st other pool log update).pools other = pool :=
          Function.update_self _ _ _
        rw [hpool] at hs
        have hle := hsteady.mono other t s v w (by omega) hv hw
        omega
      · cases hnew

variable [Fintype TaskName] [Nonempty TaskName] {progressStore : TaskName → ℕ}

lemma Ascending.launch {runs : ℕ} {earlier : TaskName → List ℕ}
    (hsteady : Steady settings (launch settings runs progressStore earlier)) :
    Ascending settings (launch settings runs progressStore earlier) := by
  refine ⟨fun task => ?_, fun task => ?_, fun task s w p hs hw hp => ?_, fun g hg => ?_⟩
  · simp [savedProgress, unsaved, Ingestion.launch]
  · simp [savedProgress, Ingestion.launch]
  · obtain rfl : p = progressStore task := by simpa [savedProgress, unsaved, Ingestion.launch] using hp
    exact hsteady.watermark_le task s w hs hw
  · cases hg

lemma Ascending.save (h : Ascending settings st) (hpend : st.pendingState = st.progressStore)
    (hstep : saveStep st = some st') :
    Ascending settings st' := by
  obtain ⟨task, p, rest, gc, number, hrecv, rfl, hgc⟩ := saveStep_eq_some hstep
  have hunsaved : unsaved st task = p :: (rest.filter fun m => m.1 = task).map Prod.snd := by
    simp [unsaved, hrecv]
  have hle : ∀ q ∈ savedProgress st task, q ≤ p := by
    intro q hq
    have hsort := (pairwise_append.mp (h.sorted task)).2.2
    exact hsort q hq p (by rw [hunsaved]; exact mem_cons_self)
  have hsto : ∀ other, st.progressStore other ≤ update st.progressStore task p other := by
    intro other
    by_cases heq : other = task
    · subst heq
      rw [update_self]
      exact hle _ (h.last other).1
    · rw [update_of_ne heq]
  have hsame : ∀ other, savedProgress (afterSave st task p rest gc number) other ++
    unsaved (afterSave st task p rest gc number) other =
      savedProgress st other ++ unsaved st other := by
    intro other
    by_cases heq : task = other <;> simp [savedProgress, unsaved, afterSave, hrecv, heq]
  refine ⟨fun other => ?_, fun other => ?_, fun other s w q hs hw hq => ?_, fun g hg other => ?_⟩
  · rw [hsame]
    exact h.sorted other
  · by_cases heq : other = task
    · subst heq
      simp only [savedProgress, afterSave, update_self, filter_append, map_append] at hle ⊢
      refine ⟨by simp, fun q hq => ?_⟩
      rw [← cons_append, mem_append] at hq
      rcases hq with hq | hq
      · exact hle q hq
      · simp at hq
        exact hq.le
    · have hsaved : savedProgress (afterSave st task p rest gc number) other =
          savedProgress st other := by
        simp [savedProgress, afterSave, Ne.symm heq]
      have hkept : (afterSave st task p rest gc number).progressStore other =
        st.progressStore other := update_of_ne heq _ _
      rw [hsaved, hkept]
      exact h.last other
  · rw [hsame] at hq
    exact h.ahead other s w q hs hw hq
  · have hold : g ∈ st.gcSent → g ≤ update st.progressStore task p other := fun hg =>
      (h.gc g hg other).trans (hsto other)
    rcases hgc with rfl | rfl
    · exact hold hg
    · rcases mem_append.mp hg with hg | hg
      · exact hold hg
      · obtain rfl := mem_singleton.mp hg
        rw [hpend]
        exact minWatermark_le _ other

variable {event : Event TaskName}

lemma Ascending.step (hinv : Invariant settings first st)
    (h : Steady settings st → Ascending settings st)
    (hstep : Ingestion.step settings st event = some st') :
    Steady settings st' → Ascending settings st' := by
  intro hsteady
  by_cases hevent : event.IsPoolEvent
  · obtain ⟨task, pool, log, update, rfl, hpool⟩ := exists_poolStep hinv hevent hstep
    have hsteady' : Steady settings st := ⟨hsteady.mono, hsteady.watermark_le⟩
    exact (h hsteady').localStep hsteady' hpool
  obtain rfl | rfl | rfl | rfl := cases_of_not_isPoolEvent hevent
  · cases hstep
    obtain ⟨hsort, hlast, hahead, hgc⟩ := h ⟨hsteady.mono, hsteady.watermark_le⟩
    exact ⟨hsort, hlast, hahead, hgc⟩
  · dsimp only [step] at hstep
    split at hstep
    · cases hstep
    cases hstep
    obtain ⟨hsort, hlast, hahead, hgc⟩ := h ⟨hsteady.mono, hsteady.watermark_le⟩
    exact ⟨hsort, hlast, hahead, hgc⟩
  · have hsteady' : Steady settings st := by
      obtain ⟨task, p, rest, gc, number, -, rfl, -⟩ := saveStep_eq_some hstep
      exact ⟨hsteady.mono, hsteady.watermark_le⟩
    exact (h hsteady').save hinv.pending hstep
  · cases hstep
    exact .launch hsteady

lemma run_ascending {events : List (Event TaskName)}
    (hrun : run settings (Ingestion.launch settings 0 progressStore fun _ => []) events = some st)
    (hsteady : Steady settings st) :
    Ascending settings st := by
  have hboth : Invariant settings progressStore st ∧ (Steady settings st → Ascending settings st) := by
    refine foldlM_some_induction (fun st => Invariant settings progressStore st ∧
      (Steady settings st → Ascending settings st)) ⟨?_, ?_⟩ ?_ hrun
    · exact .launch fun _ _ h hlt => absurd hlt (not_lt.mpr h)
    · exact .launch
    · intro st st' event _ h hstep
      exact ⟨h.1.step hstep, Ascending.step h.1 h.2 hstep⟩
  exact hboth.2 hsteady

lemma le_of_gcSent {g : ℕ} (h : Invariant settings first st) (hstep : step settings st event = some st')
    (hg : st'.gcSent = st.gcSent ++ [g]) (task : TaskName) : g ≤ st'.progressStore task := by
  have hne : st'.gcSent ≠ st.gcSent := by simp [hg]
  by_cases hevent : event.IsPoolEvent
  · obtain ⟨task, pool, log, update, rfl, -⟩ := exists_poolStep h hevent hstep
    exact absurd rfl hne
  obtain rfl | rfl | rfl | rfl := cases_of_not_isPoolEvent hevent
  · cases hstep
    exact absurd rfl hne
  · dsimp only [step] at hstep
    split at hstep
    · cases hstep
    cases hstep
    exact absurd rfl hne
  · obtain ⟨other, p, rest, gc, number, -, rfl, hgc⟩ := saveStep_eq_some hstep
    rcases hgc with rfl | rfl
    · exact absurd rfl hne
    · obtain rfl := singleton_inj.mp (append_cancel_left hg)
      rw [h.pending]
      exact minWatermark_le _ task
  · cases hstep
    simp [launch] at hg

/-- In every run, with crashes at any moment, saved progress has only processed checkpoints before
it, a pool processes a checkpoint at most once in a run, and a watermark is sent to the reader at
or below the least saved progress. If `save_progress` answers in order and not below the progress
that a run started from, then saved progress does not decrease in the run and stays at or above
the watermarks sent. -/
theorem ingestion_progress (settings : Settings TaskName) (first : TaskName → ℕ)
    (events : List (Event TaskName)) (st : State TaskName)
    (hrun : run settings (launch settings 0 first fun _ => []) events = some st) :
    (∀ task p, ((task, p) ∈ st.saves ∨ st.progressStore task = p) →
      ∀ n, first task ≤ n → n < p → n ∈ st.processed task ∨ n ∈ st.earlier task) ∧
    (∀ task, (st.processed task).Nodup) ∧
    (∀ event st' g, step settings st event = some st' → st'.gcSent = st.gcSent ++ [g] →
      ∀ task, g ≤ st'.progressStore task) ∧
    (Steady settings st → (∀ task, (savedProgress st task).Pairwise (· ≤ ·)) ∧
      ∀ g ∈ st.gcSent, ∀ task, g ≤ st.progressStore task) := by
  have hinvariant := run_invariant hrun
  refine ⟨fun task p hp n hfirst hn => ?_, fun task => ?_, fun event st' g hstep hg =>
    le_of_gcSent hinvariant hstep hg, fun hsteady => ?_⟩
  · have hle : p ≤ (st.pools task).currentCheckpointNumber := by
      rcases hp with hp | rfl
      · exact (hinvariant.pools task).saves p hp
      · exact (hinvariant.pools task).saved
    exact hinvariant.mem_processed hfirst (hn.trans_le hle)
  · obtain ⟨next, -, haccounts, -⟩ := (hinvariant.pools task).accounts
    exact haccounts.nodup_log
  · have hascending := run_ascending hrun hsteady
    exact ⟨fun task => (pairwise_append.mp (hascending.sorted task)).1, hascending.gc⟩

end Ascents

namespace Example

def everyCheckpoint : Settings Unit where
  concurrency _ := 1
  saveProgress _ _ s := some s
  saveProgress_le _ _ _ _ h := (some.inj h).ge

/-- One pool of one worker that goes back to the first checkpoint after checkpoint 1. -/
def goesBack : Settings Unit where
  concurrency _ := 1
  saveProgress _ _ s := some (if s = 1 then 1 else 0)
  saveProgress_le _ _ s w h := by
    cases h
    split <;> omega

def oneCheckpoint : List (Event Unit) :=
  [.read, .deliver, .receiveCheckpoint (), .workerReceive () 0, .workerProcess () 0,
    .workerReport () 0, .receiveProgress (), .save]

def twoCheckpoints : List (Event Unit) := oneCheckpoint ++ [.restart] ++ oneCheckpoint

lemma steady_everyCheckpoint (st : State Unit) : Steady everyCheckpoint st := by
  constructor
  · intro task s s' w w' hle hw hw'
    cases hw
    cases hw'
    exact hle
  · intro task s w hle hw
    cases hw
    exact hle.trans (Nat.le_succ s)

end Example

/-- Two checkpoints, with a crash between them, are processed and saved. -/
theorem two_checkpoints_saved : ∃ st,
    run Example.everyCheckpoint (launch Example.everyCheckpoint 0 (fun _ => 1) fun _ => [])
      Example.twoCheckpoints = some st ∧
    st.progressStore () = 3 ∧ st.gcSent = [3] ∧ (1 ∈ st.processed () ∨ 1 ∈ st.earlier ()) ∧
      (st.processed ()).Nodup ∧
    (savedProgress st ()).Pairwise (· ≤ ·) := by
  have hrun : (run Example.everyCheckpoint (launch Example.everyCheckpoint 0 (fun _ => 1) fun _ =>
    []) Example.twoCheckpoints).map
      (fun st => (st.progressStore (), st.gcSent)) = some (3, [3]) := by decide +kernel
  obtain ⟨st, hst, heq⟩ := map_eq_some_iff.mp hrun
  obtain ⟨hstore, hgc⟩ := Prod.mk.inj heq
  obtain ⟨hprocessed, hnodup, -, hsteady⟩ :=
    ingestion_progress Example.everyCheckpoint (fun _ => 1) Example.twoCheckpoints st hst
  have hsaved := (hsteady (Example.steady_everyCheckpoint st)).1 ()
  exact ⟨st, hst, hstore, hgc, hprocessed () 3 (.inr hstore) 1 le_rfl (by decide), hnodup (), hsaved⟩

/-- Saved progress goes back when `save_progress` does. -/
theorem saved_progress_goes_back : ∃ st,
    run Example.goesBack (launch Example.goesBack 0 (fun _ => 1) fun _ => [])
      (Example.oneCheckpoint ++ Example.oneCheckpoint) = some st ∧
    st.saves = [((), 2), ((), 1)] := by
  refine ⟨_, rfl, ?_⟩
  decide +kernel

end SuiProofs.Ingestion
