import Mathlib

/-! Models `worker_pool.rs` of `sui-data-ingestion-core`. A channel is a queue; a send that waits
for room is a step that is taken later. -/

namespace SuiProofs.Ingestion

open List Option Function

/-- What a worker is doing: processing a checkpoint, or reporting one that it has processed. -/
inductive Job where
  | processing (sequenceNumber : ℕ)
  | processed (sequenceNumber : ℕ)
deriving DecidableEq, Repr

structure WorkerState where
  inbox : List ℕ
  job : Option Job
deriving DecidableEq, Repr

namespace WorkerState

def waiting (worker : WorkerState) : Multiset ℕ :=
  worker.inbox + match worker.job with
    | some (.processing checkpoint) => {checkpoint}
    | _ => 0

def reporting (worker : WorkerState) : Multiset ℕ :=
  match worker.job with
  | some (.processed checkpoint) => {checkpoint}
  | _ => 0

variable (inbox : List ℕ) (checkpoint : ℕ)

@[simp] lemma waiting_processing :
    (⟨inbox, some (.processing checkpoint)⟩ : WorkerState).waiting = inbox + {checkpoint} := rfl

@[simp] lemma waiting_processed :
    (⟨inbox, some (.processed checkpoint)⟩ : WorkerState).waiting = inbox := add_zero _

@[simp] lemma reporting_none : (⟨inbox, none⟩ : WorkerState).reporting = 0 := rfl

@[simp] lemma reporting_processing :
    (⟨inbox, some (.processing checkpoint)⟩ : WorkerState).reporting = 0 := rfl

@[simp] lemma reporting_processed :
    (⟨inbox, some (.processed checkpoint)⟩ : WorkerState).reporting = {checkpoint} := rfl

end WorkerState

structure WorkerPool where
  currentCheckpointNumber : ℕ
  checkpointReceiver : List ℕ
  updates : List (ℕ × Option ℕ)
  idle : Finset ℕ
  checkpoints : List ℕ
  workers : ℕ → WorkerState
  progressReceiver : List (ℕ × ℕ × Option ℕ)

namespace WorkerPool

def new (concurrency currentCheckpointNumber : ℕ) : WorkerPool :=
  ⟨currentCheckpointNumber, [], [], Finset.range concurrency, [], fun _ => ⟨[], none⟩, []⟩

/-- `updates.remove`. -/
def removeUpdate (n : ℕ) : List (ℕ × Option ℕ) → Option (Option ℕ × List (ℕ × Option ℕ))
  | [] => none
  | e :: updates => if e.1 = n then some (e.2, updates) else (removeUpdate n updates).map fun r =>
      (r.1, e :: r.2)

/-- `updates.insert`. -/
def insertUpdate (n : ℕ) (watermark : Option ℕ) (updates : List (ℕ × Option ℕ)) : List (ℕ × Option ℕ) :=
  match removeUpdate n updates with
  | some r => (n, watermark) :: r.2
  | none => (n, watermark) :: updates

/-- The loop that releases the updates from the current checkpoint on. Every round removes one, so
their number bounds the rounds. -/
def release : ℕ → List (ℕ × Option ℕ) → ℕ → Option ℕ → List (ℕ × Option ℕ) × ℕ × Option ℕ
  | 0, updates, current, status => (updates, current, status)
  | fuel + 1, updates, current, status =>
    match removeUpdate current updates with
    | none => (updates, current, status)
    | some (watermark, updates) => release fuel updates (current + 1) ((watermark.map (· + 1)).or status)

/-- `idle.pop_first`. -/
def popFirst (idle : Finset ℕ) : Option (ℕ × Finset ℕ) :=
  if h : idle.Nonempty then some (idle.min' h, idle.erase (idle.min' h)) else none

def send (workers : ℕ → WorkerState) (workerId checkpoint : ℕ) : ℕ → WorkerState :=
  update workers workerId { workers workerId with inbox := (workers workerId).inbox ++ [checkpoint] }

def dispatch : List ℕ → Finset ℕ → (ℕ → WorkerState) → List ℕ × Finset ℕ × (ℕ → WorkerState)
  | [], idle, workers => ([], idle, workers)
  | checkpoint :: checkpoints, idle, workers =>
    match popFirst idle with
    | none => (checkpoint :: checkpoints, idle, workers)
    | some (workerId, idle) => dispatch checkpoints idle (send workers workerId checkpoint)

/-- The main loop receives a worker's report. The result has the update for the executor, if any. -/
def receiveProgress (pool : WorkerPool) : Option (WorkerPool × Option ℕ) :=
  match pool.progressReceiver with
  | [] => none
  | (workerId, statusUpdate, progressWatermark) :: progressReceiver =>
    let updates := insertUpdate statusUpdate progressWatermark pool.updates
    let released := if statusUpdate = pool.currentCheckpointNumber then
        release updates.length updates pool.currentCheckpointNumber none
      else (updates, pool.currentCheckpointNumber, none)
    let dispatched := dispatch pool.checkpoints (insert workerId pool.idle) pool.workers
    some (⟨released.2.1, pool.checkpointReceiver, released.1, dispatched.2.1, dispatched.1,
      dispatched.2.2, progressReceiver⟩, released.2.2)

def receiveCheckpoint (pool : WorkerPool) : Option WorkerPool :=
  match pool.checkpointReceiver with
  | [] => none
  | sequenceNumber :: checkpointReceiver =>
    let pool := { pool with checkpointReceiver := checkpointReceiver }
    if sequenceNumber < pool.currentCheckpointNumber then some pool
    else match popFirst pool.idle with
      | none => some { pool with checkpoints := pool.checkpoints ++ [sequenceNumber] }
      | some (workerId, idle) => some { pool with
          idle := idle, workers := send pool.workers workerId sequenceNumber }

def workerReceive (pool : WorkerPool) (workerId : ℕ) : Option WorkerPool :=
  match pool.workers workerId with
  | ⟨checkpoint :: inbox, none⟩ =>
      some { pool with
        workers := update pool.workers workerId ⟨inbox, some (.processing checkpoint)⟩ }
  | _ => none

def workerProcess (pool : WorkerPool) (workerId : ℕ) : Option (WorkerPool × ℕ) :=
  match pool.workers workerId with
  | ⟨inbox, some (.processing checkpoint)⟩ =>
    some ({ pool with
      workers := update pool.workers workerId ⟨inbox, some (.processed checkpoint)⟩ }, checkpoint)
  | _ => none

def workerReport (saveProgress : ℕ → Option ℕ) (pool : WorkerPool) (workerId : ℕ) : Option WorkerPool :=
  match pool.workers workerId with
  | ⟨inbox, some (.processed checkpoint)⟩ =>
    some { pool with
      workers := update pool.workers workerId ⟨inbox, none⟩
      progressReceiver := pool.progressReceiver ++ [(workerId, checkpoint, saveProgress checkpoint)] }
  | _ => none

section Loops

variable {n current fuel : ℕ} {updates updates' : List (ℕ × Option ℕ)} {watermark status : Option ℕ}
  {saveProgress : ℕ → Option ℕ}

lemma perm_of_removeUpdate (h : removeUpdate n updates = some (watermark, updates')) :
    updates.Perm ((n, watermark) :: updates') := by
  induction updates generalizing updates' with
  | nil => cases h
  | cons e updates ih =>
    rw [removeUpdate] at h
    split at h
    · rename_i hn
      cases h
      rw [← hn]
    · obtain ⟨⟨w, rest⟩, hr, heq⟩ := map_eq_some_iff.mp h
      cases heq
      exact ((ih hr).cons e).trans (List.Perm.swap _ _ _)

lemma removeUpdate_eq_none (h : n ∉ updates.map Prod.fst) : removeUpdate n updates = none := by
  induction updates with
  | nil => rfl
  | cons e updates ih =>
    rw [map_cons, mem_cons, not_or] at h
    rw [removeUpdate, if_neg (Ne.symm h.1), ih h.2, map_none]

/-- What the loop releases: a run of updates from the current checkpoint on, and the progress of
the last of them that has one. -/
structure Released (saveProgress : ℕ → Option ℕ) (updates : List (ℕ × Option ℕ)) (current : ℕ)
    (status : Option ℕ) (result : List (ℕ × Option ℕ) × ℕ × Option ℕ) : Prop where
  le : current ≤ result.2.1
  keys : (updates.map Prod.fst : Multiset ℕ) =
    (Finset.Ico current result.2.1).val + (result.1.map Prod.fst : Multiset ℕ)
  values : ∀ e ∈ result.1, e.2 = saveProgress e.1
  status : result.2.2 = status ∨
    ∃ s w, current ≤ s ∧ s < result.2.1 ∧ saveProgress s = some w ∧ result.2.2 = some (w + 1)

variable {a b : ℕ}

lemma Ico_val_succ (h : a < b) : (Finset.Ico a b).val = {a} + (Finset.Ico (a + 1) b).val := by
  rw [← Finset.insert_Ico_add_one_left_eq_Ico h, Finset.insert_val_of_notMem (by simp),
    Multiset.singleton_add]

lemma Ico_val_add {c : ℕ} (hab : a ≤ b) (hbc : b ≤ c) :
    (Finset.Ico a b).val + (Finset.Ico b c).val = (Finset.Ico a c).val := by
  rw [Multiset.add_eq_union_iff_disjoint.mpr, ← Finset.union_val, Finset.Ico_union_Ico_eq_Ico hab hbc]
  exact Finset.disjoint_val.mpr (Finset.Ico_disjoint_Ico_consecutive a b c)

lemma release_released (hvs : ∀ e ∈ updates, e.2 = saveProgress e.1) :
    Released saveProgress updates current status (release fuel updates current status) := by
  induction fuel generalizing updates current status with
  | zero => exact ⟨le_rfl, by simp [release], hvs, .inl rfl⟩
  | succ fuel ih =>
    rw [release]
    split
    · exact ⟨le_rfl, by simp, hvs, .inl rfl⟩
    · rename_i w rest hrem
      have hperm := perm_of_removeUpdate hrem
      have hw : w = saveProgress current := hvs _ (hperm.mem_iff.mpr mem_cons_self)
      obtain ⟨hle, hkeys, hrest, hstat⟩ := @ih (current + 1) rest ((w.map (· + 1)).or status)
        fun e he => hvs e (hperm.mem_iff.mpr (mem_cons_of_mem _ he))
      refine ⟨by omega, ?_, hrest, ?_⟩
      · rw [Multiset.coe_eq_coe.mpr (hperm.map Prod.fst), map_cons, ← Multiset.cons_coe, hkeys,
          Ico_val_succ (show current < _ from hle), add_assoc, Multiset.singleton_add]
      · rcases hstat with hstat | ⟨s, v, hs, hlt, hv, heq⟩
        · cases w with
          | none => exact .inl hstat
          | some v => exact .inr ⟨current, v, le_rfl, hle, hw.symm, hstat⟩
        · exact .inr ⟨s, v, by omega, hlt, hv, heq⟩

lemma mem_of_popFirst {idle idle' : Finset ℕ} {k : ℕ} (h : popFirst idle = some (k, idle')) :
    k ∈ idle ∧ idle' ⊆ idle := by
  unfold popFirst at h
  split_ifs at h with hne
  cases h
  exact ⟨Finset.min'_mem idle hne, Finset.erase_subset _ _⟩

end Loops

section Bags

variable {concurrency workerId checkpoint : ℕ} {workers : ℕ → WorkerState}

/-- A worker that gives up `less` and gets `more` changes the bags of all workers by as much. -/
lemma sum_update (bag : WorkerState → Multiset ℕ) {worker : WorkerState} {less more : Multiset ℕ}
    (h : workerId < concurrency) (hbag : bag worker + less = bag (workers workerId) + more) :
    ∑ k ∈ Finset.range concurrency, bag (update workers workerId worker k) + less =
      ∑ k ∈ Finset.range concurrency, bag (workers k) + more := by
  have hmem : workerId ∈ Finset.range concurrency := Finset.mem_range.mpr h
  have hrest : ∑ k ∈ (Finset.range concurrency).erase workerId, bag (update workers workerId worker k) =
      ∑ k ∈ (Finset.range concurrency).erase workerId, bag (workers k) := by
    refine Finset.sum_congr rfl fun k hk => ?_
    rw [update_of_ne (Finset.ne_of_mem_erase hk)]
  rw [← Finset.add_sum_erase _ _ hmem, ← Finset.add_sum_erase (Finset.range concurrency)
    (fun k => bag (workers k)) hmem, hrest,
    update_self, add_right_comm, hbag, add_right_comm]

lemma sum_update_of_eq (bag : WorkerState → Multiset ℕ) {worker : WorkerState}
    (h : workerId < concurrency) (hbag : bag worker = bag (workers workerId)) :
    ∑ k ∈ Finset.range concurrency, bag (update workers workerId worker k) =
      ∑ k ∈ Finset.range concurrency, bag (workers k) :=
  add_right_cancel (b := 0) (sum_update bag h (congrArg (· + 0) hbag))

def pending (concurrency : ℕ) (pool : WorkerPool) : Multiset ℕ :=
  pool.checkpoints + ∑ k ∈ Finset.range concurrency, (pool.workers k).waiting

def finished (concurrency : ℕ) (pool : WorkerPool) : Multiset ℕ :=
  ∑ k ∈ Finset.range concurrency,
    (pool.workers k).reporting + (pool.progressReceiver.map fun m => m.2.1 : List ℕ) +
    (pool.updates.map Prod.fst : List ℕ)

lemma sum_waiting_send (h : workerId < concurrency) :
    ∑ k ∈ Finset.range concurrency, (send workers workerId checkpoint k).waiting =
      ∑ k ∈ Finset.range concurrency, (workers k).waiting + {checkpoint} := by
  refine (add_zero _).symm.trans (sum_update WorkerState.waiting h ?_)
  simp only [WorkerState.waiting, ← Multiset.coe_add, Multiset.coe_singleton]
  abel

lemma sum_reporting_send (h : workerId < concurrency) :
    ∑ k ∈ Finset.range concurrency, (send workers workerId checkpoint k).reporting =
      ∑ k ∈ Finset.range concurrency, (workers k).reporting :=
  sum_update_of_eq WorkerState.reporting h rfl

lemma dispatch_bags (checkpoints : List ℕ) {idle : Finset ℕ} (hidle : ∀ k ∈ idle, k < concurrency) :
    ((dispatch checkpoints idle workers).1 : Multiset ℕ) +
      ∑ k ∈ Finset.range concurrency, ((dispatch checkpoints idle workers).2.2 k).waiting =
      checkpoints + ∑ k ∈ Finset.range concurrency, (workers k).waiting ∧
    ∑ k ∈ Finset.range concurrency, ((dispatch checkpoints idle workers).2.2 k).reporting =
      ∑ k ∈ Finset.range concurrency, (workers k).reporting ∧
    ∀ k ∈ (dispatch checkpoints idle workers).2.1, k < concurrency := by
  induction checkpoints generalizing idle workers with
  | nil => exact ⟨rfl, rfl, hidle⟩
  | cons c checkpoints ih =>
    rw [dispatch]
    split
    · exact ⟨rfl, rfl, hidle⟩
    · rename_i k idle' hpop
      obtain ⟨hk, hsub⟩ := mem_of_popFirst hpop
      obtain ⟨hwait, hrepg, hrange⟩ := @ih (send workers k c) idle' fun j hj => hidle j (hsub hj)
      refine ⟨?_, hrepg.trans (sum_reporting_send (hidle k hk)), hrange⟩
      rw [hwait, sum_waiting_send (hidle k hk), ← Multiset.cons_coe, ← Multiset.singleton_add]
      abel

end Bags

/-- The state of a pool in a run that it started at `start`, when the executor delivered the
checkpoints before `next` to it and its workers processed those of the log. -/
structure Accounts (concurrency : ℕ) (saveProgress : ℕ → Option ℕ) (start next : ℕ) (log : List ℕ)
    (pool : WorkerPool) : Prop where
  start_le : start ≤ pool.currentCheckpointNumber
  current_le : pool.currentCheckpointNumber ≤ max next start
  tokens : pool.pending concurrency + pool.finished concurrency =
    (Finset.Ico pool.currentCheckpointNumber (max next start)).val
  log : (log : Multiset ℕ) = (Finset.Ico start pool.currentCheckpointNumber).val +
    pool.finished concurrency
  updates : ∀ e ∈ pool.updates, e.2 = saveProgress e.1
  progress : ∀ m ∈ pool.progressReceiver, m.1 < concurrency ∧ m.2.2 = saveProgress m.2.1
  idle : ∀ k ∈ pool.idle, k < concurrency

namespace Accounts

variable {concurrency start next : ℕ} {saveProgress : ℕ → Option ℕ} {log : List ℕ}
  {pool pool' : WorkerPool}

lemma new (hnext : next ≤ start) : Accounts concurrency saveProgress start next []
    (WorkerPool.new concurrency start) where
  start_le := le_rfl
  current_le := le_max_right _ _
  tokens := by
    simp [pending, finished, WorkerPool.new, WorkerState.waiting, WorkerState.reporting, hnext]
  log := by simp [finished, WorkerPool.new, WorkerState.reporting]
  updates := by simp [WorkerPool.new]
  progress := by simp [WorkerPool.new]
  idle := by simp [WorkerPool.new]

lemma tokens_of_released {current current' limit : ℕ} {r released : Multiset ℕ}
    (hle : current ≤ current')
    (htok : r + ((Finset.Ico current current').val + released) = (Finset.Ico current limit).val)
    (hlim : current ≤ limit) :
    current' ≤ limit ∧ r + released = (Finset.Ico current' limit).val := by
  have hbel : current' ≤ limit := by
    by_contra hgt
    have hmem : limit ∈ (Finset.Ico current limit).val := by
      rw [← htok, Multiset.mem_add, Multiset.mem_add]
      exact .inr (.inl (Finset.mem_val.mpr (Finset.mem_Ico.mpr ⟨hlim, not_le.mp hgt⟩)))
    exact absurd (Finset.mem_Ico.mp (Finset.mem_val.mp hmem)).2 (lt_irrefl _)
  refine ⟨hbel, add_left_cancel (a := (Finset.Ico current current').val) ?_⟩
  rw [Ico_val_add hle hbel, ← htok]
  abel

variable (h : pool.Accounts concurrency saveProgress start next log) {workerId : ℕ}

include h

lemma nodup_log : log.Nodup := by
  have hfin : pool.finished concurrency ≤
      (Finset.Ico pool.currentCheckpointNumber (max next start)).val :=
    h.tokens ▸ Multiset.le_add_left _ _
  have hle : (log : Multiset ℕ) ≤ (Finset.Ico start (max next start)).val := by
    rw [h.log, ← Ico_val_add h.start_le h.current_le]
    exact Multiset.add_le_add_left hfin
  exact Multiset.coe_nodup.mp (Multiset.nodup_of_le hle (Finset.nodup _))

lemma mem_log {n : ℕ} (hst : start ≤ n)
    (hn : n < pool.currentCheckpointNumber) : n ∈ log := by
  rw [← Multiset.mem_coe, h.log, Multiset.mem_add]
  exact .inl (Finset.mem_val.mpr (Finset.mem_Ico.mpr ⟨hst, hn⟩))

lemma of_bags (hcurr : pool'.currentCheckpointNumber = pool.currentCheckpointNumber)
    (hpend : pool'.pending concurrency = pool.pending concurrency)
    (hfin : pool'.finished concurrency = pool.finished concurrency)
    (hupdates : ∀ e ∈ pool'.updates, e.2 = saveProgress e.1)
    (hprog : ∀ m ∈ pool'.progressReceiver, m.1 < concurrency ∧ m.2.2 = saveProgress m.2.1)
    (hidle : ∀ k ∈ pool'.idle, k < concurrency) :
    pool'.Accounts concurrency saveProgress start next log where
  start_le := hcurr ▸ h.start_le
  current_le := hcurr ▸ h.current_le
  tokens := by rw [hpend, hfin, hcurr, h.tokens]
  log := by rw [hfin, hcurr, h.log]
  updates := hupdates
  progress := hprog
  idle := hidle

section

variable (hid : workerId < concurrency)

include hid

lemma workerReceive (hstep : pool.workerReceive workerId = some pool') :
    pool'.Accounts concurrency saveProgress start next log ∧
      pool'.checkpointReceiver = pool.checkpointReceiver ∧
      pool'.currentCheckpointNumber = pool.currentCheckpointNumber := by
  unfold WorkerPool.workerReceive at hstep
  split at hstep
  swap
  · cases hstep
  rename_i checkpoint inbox hworker
  cases hstep
  refine ⟨h.of_bags rfl ?_ ?_ h.updates h.progress h.idle, rfl, rfl⟩
  · unfold pending
    congr 1
    refine sum_update_of_eq WorkerState.waiting hid ?_
    rw [hworker]
    simp [WorkerState.waiting, ← Multiset.cons_coe, ← Multiset.singleton_add, add_comm]
  · unfold finished
    congr 2
    exact sum_update_of_eq WorkerState.reporting hid (by rw [hworker]; rfl)

lemma workerReport (hstep : pool.workerReport saveProgress workerId = some pool') :
    pool'.Accounts concurrency saveProgress start next log ∧
      pool'.checkpointReceiver = pool.checkpointReceiver ∧
      pool'.currentCheckpointNumber = pool.currentCheckpointNumber := by
  unfold WorkerPool.workerReport at hstep
  split at hstep
  swap
  · cases hstep
  rename_i inbox checkpoint hworker
  cases hstep
  refine ⟨h.of_bags rfl ?_ ?_ h.updates ?_ h.idle, rfl, rfl⟩
  · unfold pending
    congr 1
    exact sum_update_of_eq WorkerState.waiting hid (by rw [hworker]; rfl)
  · have hrepg :=
      @sum_update concurrency workerId pool.workers WorkerState.reporting
        ⟨inbox, none⟩ {checkpoint} 0 hid (by rw [hworker]; rfl)
    unfold finished
    rw [← add_zero (∑ k ∈ _, (pool.workers k).reporting), ← hrepg, map_append, ← Multiset.coe_add,
      map_singleton, Multiset.coe_singleton]
    abel
  · exact forall_mem_append.mpr ⟨h.progress, forall_mem_singleton.mpr ⟨hid, rfl⟩⟩

lemma workerProcess {checkpoint : ℕ}
    (hstep : pool.workerProcess workerId = some (pool', checkpoint)) :
    pool'.Accounts concurrency saveProgress start next (log ++ [checkpoint]) ∧
      pool'.checkpointReceiver = pool.checkpointReceiver ∧
      pool'.currentCheckpointNumber = pool.currentCheckpointNumber := by
  unfold WorkerPool.workerProcess at hstep
  split at hstep
  swap
  · cases hstep
  rename_i inbox c hworker
  obtain ⟨rfl, rfl⟩ := Prod.mk.inj (some.inj hstep)
  let worker : WorkerState := ⟨inbox, some (.processed c)⟩
  have hwait :=
    @sum_update concurrency workerId pool.workers WorkerState.waiting worker {c} 0 hid
      (by simp [worker, hworker])
  have hrepg :=
    @sum_update concurrency workerId pool.workers WorkerState.reporting worker 0 {c} hid
      (by simp [worker, hworker])
  rw [add_zero] at hwait hrepg
  have htok := h.tokens
  have hlog := h.log
  unfold pending finished at htok
  unfold finished at hlog
  refine ⟨⟨h.start_le, h.current_le, ?_, ?_, h.updates, h.progress, h.idle⟩, rfl, rfl⟩
  · unfold pending finished
    rw [← htok, hrepg, ← hwait]
    abel
  · unfold finished
    rw [hrepg, ← Multiset.coe_add, hlog, Multiset.coe_singleton]
    abel

end

lemma receiveCheckpoint {rest : List ℕ} (hrecv : pool.checkpointReceiver = next :: rest)
    (hstep : pool.receiveCheckpoint = some pool') :
    pool'.Accounts concurrency saveProgress start (next + 1) log ∧ pool'.checkpointReceiver = rest ∧
      pool'.currentCheckpointNumber = pool.currentCheckpointNumber := by
  have hst := h.start_le
  have hcurr := h.current_le
  have htok := h.tokens
  unfold WorkerPool.receiveCheckpoint at hstep
  rw [hrecv] at hstep
  dsimp only at hstep
  split at hstep
  · cases hstep
    have hmax : max (next + 1) start = max next start := by omega
    refine ⟨⟨hst, by dsimp only; omega, ?_, h.log, h.updates, h.progress, h.idle⟩, rfl, rfl⟩
    rw [hmax]
    exact htok
  · rename_i hge
    have hmax : max next start = next := by omega
    have hmax' : max (next + 1) start = next + 1 := by omega
    have hIco : (Finset.Ico pool.currentCheckpointNumber (max (next + 1) start)).val =
        (pool.pending concurrency + pool.finished concurrency) + {next} := by
      rw [htok, hmax, hmax', ← Finset.insert_Ico_right_eq_Ico_add_one (not_lt.mp hge),
        Finset.insert_val_of_notMem (by simp),
        ← Multiset.singleton_add, add_comm]
    unfold pending finished at hIco
    split at hstep
    · cases hstep
      refine ⟨⟨hst, by dsimp only; omega, ?_, h.log, h.updates, h.progress, h.idle⟩, rfl, rfl⟩
      unfold pending finished
      rw [hIco, ← Multiset.coe_add, Multiset.coe_singleton]
      abel
    · rename_i k idle hpop
      cases hstep
      obtain ⟨hk, hsub⟩ := mem_of_popFirst hpop
      have hlog := h.log
      refine ⟨⟨hst, by dsimp only; omega, ?_, ?_, h.updates, h.progress, fun j hj =>
        h.idle j (hsub hj)⟩, rfl, rfl⟩
      · unfold pending finished
        rw [hIco, sum_waiting_send (h.idle k hk), sum_reporting_send (h.idle k hk)]
        abel
      · unfold finished
        rw [sum_reporting_send (h.idle k hk)]
        exact hlog

lemma receiveProgress {update : Option ℕ} (hstep : pool.receiveProgress = some (pool', update)) :
    pool'.Accounts concurrency saveProgress start next log ∧
      pool'.checkpointReceiver = pool.checkpointReceiver ∧
      pool.currentCheckpointNumber ≤ pool'.currentCheckpointNumber ∧
      ∀ p, update = some p → ∃ s w, pool.currentCheckpointNumber ≤ s ∧
        s < pool'.currentCheckpointNumber ∧ saveProgress s = some w ∧ p = w + 1 := by
  unfold WorkerPool.receiveProgress at hstep
  split at hstep
  · cases hstep
  rename_i id s w rest hrecv
  obtain ⟨hid, hw⟩ := h.progress (id, s, w) (by rw [hrecv]; exact mem_cons_self)
  -- The reported checkpoint is a token, so no update of it is there yet.
  have hfin : pool.finished concurrency =
      ∑ k ∈ Finset.range concurrency, (pool.workers k).reporting +
        (rest.map fun m => m.2.1 : List ℕ) + (s :: pool.updates.map Prod.fst : List ℕ) := by
    unfold finished
    rw [hrecv, map_cons, ← Multiset.cons_coe, ← Multiset.cons_coe, ← Multiset.singleton_add,
      ← Multiset.singleton_add]
    abel
  have hnot : s ∉ pool.updates.map Prod.fst := by
    have hle : ((s :: pool.updates.map Prod.fst : List ℕ) : Multiset ℕ) ≤
        (Finset.Ico pool.currentCheckpointNumber (max next start)).val := by
      rw [← h.tokens, hfin]
      exact (Multiset.le_add_left _ _).trans (Multiset.le_add_left _ _)
    have hnd := Multiset.coe_nodup.mp (Multiset.nodup_of_le hle (Finset.nodup _))
    exact (nodup_cons.mp hnd).1
  rw [insertUpdate, removeUpdate_eq_none hnot] at hstep
  dsimp only at hstep
  have hvs : ∀ e ∈ (s, w) :: pool.updates, e.2 = saveProgress e.1 := forall_mem_cons.mpr ⟨hw, h.updates⟩
  have hrel : Released saveProgress ((s, w) :: pool.updates) pool.currentCheckpointNumber none
      (if s = pool.currentCheckpointNumber then
        release ((s, w) :: pool.updates).length
          ((s, w) :: pool.updates) pool.currentCheckpointNumber none
      else ((s, w) :: pool.updates, pool.currentCheckpointNumber, none)) := by
    split
    · exact release_released hvs
    · exact ⟨le_rfl, by simp, hvs, .inl rfl⟩
  generalize (if s = pool.currentCheckpointNumber then
        release ((s, w) :: pool.updates).length
          ((s, w) :: pool.updates) pool.currentCheckpointNumber none
      else ((s, w) :: pool.updates, pool.currentCheckpointNumber, none)) = released at hrel hstep
  obtain ⟨hle, hkeys, hrest, hstat⟩ := hrel
  have hidle : ∀ k ∈ insert id pool.idle, k < concurrency :=
    (Finset.forall_mem_insert _ _ _).mpr ⟨hid, h.idle⟩
  obtain ⟨hwait, hrepg, hidle'⟩ :=
    @dispatch_bags concurrency pool.workers pool.checkpoints (insert id pool.idle) hidle
  cases hstep
  rw [map_cons] at hkeys
  have htok := h.tokens
  have hlog := h.log
  rw [hfin, hkeys] at htok hlog
  unfold pending at htok
  have hspl : pool.checkpoints + ∑ k ∈ Finset.range concurrency, (pool.workers k).waiting +
      (∑ k ∈ Finset.range concurrency, (pool.workers k).reporting + (rest.map fun m => m.2.1 : List ℕ)) +
      ((Finset.Ico pool.currentCheckpointNumber released.2.1).val + (released.1.map Prod.fst : List ℕ)) =
      (Finset.Ico pool.currentCheckpointNumber (max next start)).val := by
    rw [← htok]
    abel
  obtain ⟨hbel, htok'⟩ := tokens_of_released hle hspl h.current_le
  refine ⟨⟨h.start_le.trans hle, hbel, ?_, ?_, hrest, ?_, hidle'⟩, rfl, hle, ?_⟩
  · unfold pending finished
    rw [hwait, hrepg, ← htok']
    abel
  · unfold finished
    rw [hrepg, hlog, ← Ico_val_add h.start_le hle]
    abel
  · intro m hm
    exact h.progress m (by rw [hrecv]; exact mem_cons_of_mem _ hm)
  · intro p hp
    rcases hstat with hnone | ⟨t, v, ht, hlt, hv, heq⟩
    · rw [hnone] at hp
      cases hp
    · rw [heq] at hp
      exact ⟨t, v, ht, hlt, hv, (some.inj hp).symm⟩

end Accounts

end WorkerPool

end SuiProofs.Ingestion
