import SuiProofs.Library.Exec
import SuiProofs.Library.Ordered

/-! Models `reader.rs` of `sui-data-ingestion-core`. Any files may be there at a tick, so
their removal is left out. -/

namespace SuiProofs.Ingestion

open Library List

def maxCheckpointsInProgress : ℕ := 10000

structure DataLimiter where
  limit : ℕ
  queue : Std.TreeMap ℕ ℕ
  inProgress : ℕ

namespace DataLimiter

variable (self : DataLimiter)

def exceeds : Bool := 0 < self.limit && self.limit ≤ self.inProgress

def add (checkpoint size : ℕ) : DataLimiter :=
  if self.limit = 0 then self
  else { self with queue := self.queue.insert checkpoint size, inProgress := self.inProgress + size }

def gc (watermark : ℕ) : DataLimiter :=
  if self.limit = 0 then self
  else
    let queue := self.queue.filter fun checkpoint _ => watermark ≤ checkpoint
    { self with queue, inProgress := queue.values.sum }

end DataLimiter

/-- The receiver of a fetcher is given by the next checkpoint of its channel. -/
structure CheckpointReader where
  hasRemoteStore : Bool
  currentCheckpointNumber : ℕ
  lastPrunedWatermark : ℕ
  remoteFetcherReceiver : Option ℕ
  dataLimiter : DataLimiter

/-- What the channel of the fetcher returns; the checkpoints come in order, with their sizes. -/
inductive TryRecv where
  | checkpoint (size : ℕ)
  | error
  | disconnected

/-- The files in the directory and what the channel returns until it is empty, or a watermark. -/
inductive Tick where
  | sync (files : Std.TreeSet ℕ) (results : List TryRecv)
  | gc (watermark : ℕ)

inductive ReaderPanic where
  | sequenceNumber (checkpoint current : ℕ)
  deriving DecidableEq

namespace CheckpointReader

variable (self : CheckpointReader)

def exceedsCapacity (checkpointNumber : ℕ) : Bool :=
  maxCheckpointsInProgress + self.lastPrunedWatermark ≤ checkpointNumber || self.dataLimiter.exceeds

def readLocalFiles (files : Std.TreeSet ℕ) : List ℕ :=
  ((files.toList.filter (self.currentCheckpointNumber ≤ ·)).take maxCheckpointsInProgress).takeWhile
    (!self.exceedsCapacity ·)

/-- The loop of `remote_fetch`; an empty list is an empty channel. -/
def receive : CheckpointReader → ℕ → List ℕ → List TryRecv → CheckpointReader × List ℕ
  | self, next, checkpoints, [] => ({ self with remoteFetcherReceiver := some next }, checkpoints)
  | self, next, checkpoints, result :: results =>
    if self.exceedsCapacity (self.currentCheckpointNumber + checkpoints.length) then
      ({ self with remoteFetcherReceiver := some next }, checkpoints)
    else match result with
      | .checkpoint size =>
        receive { self with dataLimiter := self.dataLimiter.add next size } (next + 1)
          (checkpoints ++ [next]) results
      | .error | .disconnected => ({ self with remoteFetcherReceiver := none }, checkpoints)

def remoteFetch (results : List TryRecv) : CheckpointReader × List ℕ :=
  self.receive (self.remoteFetcherReceiver.getD self.currentCheckpointNumber) [] results

def send : CheckpointReader → List ℕ → List ℕ → Except ReaderPanic (CheckpointReader × List ℕ)
  | self, sent, [] => .ok (self, sent)
  | self, sent, checkpoint :: checkpoints =>
    if self.hasRemoteStore = false ∧ self.currentCheckpointNumber < checkpoint then .ok (self, sent)
    else if checkpoint = self.currentCheckpointNumber then
      send { self with currentCheckpointNumber := self.currentCheckpointNumber + 1 }
        (sent ++ [checkpoint]) checkpoints
    else .error (.sequenceNumber checkpoint self.currentCheckpointNumber)

def sync (sent : List ℕ) (files : Std.TreeSet ℕ) (results : List TryRecv) :
    Except ReaderPanic (CheckpointReader × List ℕ) :=
  let checkpoints := self.readLocalFiles files
  if self.hasRemoteStore && checkpoints.head?.all (self.currentCheckpointNumber < ·) then
    (self.remoteFetch results).1.send sent (self.remoteFetch results).2
  else { self with remoteFetcherReceiver := none }.send sent checkpoints

def gcProcessedFiles (watermark : ℕ) : CheckpointReader :=
  { self with dataLimiter := self.dataLimiter.gc watermark, lastPrunedWatermark := watermark }

/-- Models `initialize`. -/
def new (hasRemoteStore : Bool) (startingCheckpointNumber dataLimit : ℕ) : CheckpointReader :=
  ⟨hasRemoteStore, startingCheckpointNumber, startingCheckpointNumber, none, ⟨dataLimit, ∅, 0⟩⟩

def step (acc : CheckpointReader × List ℕ) : Tick → Except ReaderPanic (CheckpointReader × List ℕ)
  | .sync files results => acc.1.sync acc.2 files results
  | .gc watermark => .ok (acc.1.gcProcessedFiles watermark, acc.2)

def run (ticks : List Tick) : Except ReaderPanic (CheckpointReader × List ℕ) :=
  ticks.foldlM step (self, [])

/-- Whenever the next checkpoint is in the directory, the files that are read have no gap. -/
def NoGap : CheckpointReader × List ℕ → List Tick → Prop
  | _, [] => True
  | acc, tick :: ticks =>
    (∀ files results, tick = .sync files results → acc.1.currentCheckpointNumber ∈ files → ∃ n,
      acc.1.readLocalFiles files = range' acc.1.currentCheckpointNumber n) ∧
    ∀ acc', step acc tick = .ok acc' → NoGap acc' ticks

/-- Consecutive checkpoints were sent, and a running fetcher goes on after `rest` more of them. -/
structure Sends (hasRemoteStore : Bool) (start rest : ℕ) (acc : CheckpointReader × List ℕ) : Prop where
  remote : acc.1.hasRemoteStore = hasRemoteStore
  sent : acc.2 = range' start acc.2.length
  current : acc.1.currentCheckpointNumber = start + acc.2.length
  fetcher : ∀ next ∈ acc.1.remoteFetcherReceiver, next = acc.1.currentCheckpointNumber + rest

variable {self} {hasRemoteStore : Bool} {start next : ℕ} {acc : CheckpointReader × List ℕ}
  {sent checkpoints : List ℕ} {results : List TryRecv} {files : Std.TreeSet ℕ} {ticks : List Tick}

lemma receive_eq (hnext : next = self.currentCheckpointNumber + checkpoints.length) :
    ∃ n limiter receiver,
    self.receive next checkpoints results =
      ({ self with dataLimiter := limiter, remoteFetcherReceiver := receiver },
        checkpoints ++ range' next n) ∧
    ∀ next' ∈ receiver, next' = next + n := by
  induction results generalizing self next checkpoints with
  | nil => exact ⟨0, self.dataLimiter, some next, by simp [receive], by simp⟩
  | cons result results ih =>
    unfold receive
    split_ifs
    · exact ⟨0, self.dataLimiter, some next, by simp, by simp⟩
    · cases result with
      | checkpoint size =>
        obtain ⟨n, limiter, receiver, heq, hrecv⟩ :=
          @ih { self with dataLimiter := self.dataLimiter.add next size } (next + 1)
          (checkpoints ++ [next]) (by simp [hnext, add_assoc])
        refine ⟨n + 1, limiter, receiver, ?_, fun next' hin => (hrecv next' hin).trans (by omega)⟩
        dsimp only
        rw [heq, range'_succ, append_assoc, singleton_append]
      | error | disconnected => exact ⟨0, self.dataLimiter, none, by simp, by simp⟩

lemma readLocalFiles_sublist :
    (self.readLocalFiles files).Sublist (files.toList.filter (self.currentCheckpointNumber ≤ ·)) :=
  (takeWhile_sublist _).trans (take_sublist _ _)

lemma mem_readLocalFiles {n : ℕ} (h : n ∈ self.readLocalFiles files) :
    n ∈ files ∧ self.currentCheckpointNumber ≤ n := by
  simpa using readLocalFiles_sublist.subset h

namespace Sends

lemma send (h : Sends hasRemoteStore start checkpoints.length (self, sent))
    (hsend : checkpoints = range' self.currentCheckpointNumber checkpoints.length ∨
      hasRemoteStore = false ∧
      self.remoteFetcherReceiver = none ∧ checkpoints.Pairwise (· < ·) ∧
        ∀ n ∈ checkpoints, self.currentCheckpointNumber ≤ n) :
    ∃ acc, self.send sent checkpoints = .ok acc ∧ Sends hasRemoteStore start 0 acc := by
  induction checkpoints generalizing self sent with
  | nil => exact ⟨_, rfl, h⟩
  | cons checkpoint checkpoints ih =>
    obtain ⟨rfl, hsent, hcurr, hrecv⟩ := h
    rw [CheckpointReader.send]
    by_cases hgap : self.hasRemoteStore = false ∧ self.currentCheckpointNumber < checkpoint
    · rw [if_pos hgap]
      rcases hsend with hsend | ⟨-, hnone, -⟩
      · exact absurd (cons.inj hsend).1 hgap.2.ne'
      · exact ⟨_, rfl, rfl, hsent, hcurr, fun next hin => by simp [hnone] at hin⟩
    · have hhead : checkpoint = self.currentCheckpointNumber := by
        rcases hsend with hsend | ⟨hloc, -, -, hge⟩
        · exact (cons.inj hsend).1
        · exact le_antisymm (not_lt.mp fun hlt => hgap ⟨hloc, hlt⟩) (hge checkpoint mem_cons_self)
      rw [if_neg hgap, if_pos hhead]
      refine ih ⟨rfl, ?_, ?_, fun next hin => ?_⟩ (hsend.imp (fun hsend => (cons.inj hsend).2) ?_)
      · rw [length_append, length_singleton, range'_1_concat, ← hsent, hhead, hcurr]
      · rw [length_append, length_singleton, hcurr, add_assoc]
      · rw [hrecv next hin, length_cons, add_assoc, add_comm 1]
      · rintro ⟨hloc, hnone, hsort, -⟩
        exact ⟨hloc, hnone, hsort.of_cons, fun n hn => hhead ▸ rel_of_pairwise_cons hsort hn⟩

lemma sync (h : Sends hasRemoteStore start 0 (self, sent)) (hgap : hasRemoteStore = true →
    self.currentCheckpointNumber ∈ files →
      ∃ n, self.readLocalFiles files = range' self.currentCheckpointNumber n) :
    ∃ acc, self.sync sent files results = .ok acc ∧ Sends hasRemoteStore start 0 acc := by
  rw [CheckpointReader.sync]
  split_ifs with hfetch
  · have hnext : self.remoteFetcherReceiver.getD self.currentCheckpointNumber =
        self.currentCheckpointNumber := by
      cases hr : self.remoteFetcherReceiver with
      | none => rfl
      | some next => exact h.fetcher next hr
    obtain ⟨n, limiter, receiver, heq, hrecv⟩ :=
      @receive_eq self self.currentCheckpointNumber [] results rfl
    rw [remoteFetch, hnext, heq]
    exact send ⟨h.remote, h.sent, h.current, by simpa using hrecv⟩ (.inl (by simp))
  · refine send ⟨h.remote, h.sent, h.current, fun next hin => by cases hin⟩ ?_
    cases hasRemoteStore with
    | false =>
      refine .inr ⟨rfl, rfl, ?_, fun n hn => (mem_readLocalFiles hn).2⟩
      exact pairwise_lt_toList.sublist (readLocalFiles_sublist.trans filter_sublist)
    | true =>
      obtain ⟨n, hn⟩ : ∃ n, self.readLocalFiles files = range' self.currentCheckpointNumber n := by
        cases hread : self.readLocalFiles files with
        | nil => exact ⟨0, rfl⟩
        | cons m rest =>
          obtain ⟨hin, hge⟩ := mem_readLocalFiles (hread ▸ mem_cons_self)
          have hle : m ≤ self.currentCheckpointNumber := by
            by_contra hlt
            exact hfetch (by simpa [hread] using ⟨h.remote, not_le.mp hlt⟩)
          exact hread ▸ hgap rfl (le_antisymm hle hge ▸ hin)
      exact .inl (by rw [hn, length_range'])

lemma run (h : Sends hasRemoteStore start 0 acc) (hgap : hasRemoteStore = true → NoGap acc ticks) :
    ∃ acc', ticks.foldlM step acc = .ok acc' ∧ Sends hasRemoteStore start 0 acc' := by
  induction ticks generalizing acc with
  | nil => exact ⟨acc, rfl, h⟩
  | cons tick ticks ih =>
    obtain ⟨acc', hacc, h'⟩ : ∃ acc', step acc tick = .ok acc' ∧ Sends hasRemoteStore start 0 acc' := by
      cases tick with
      | sync files results => exact h.sync fun hrem => (hgap hrem).1 files results rfl
      | gc watermark => exact ⟨_, rfl, h.remote, h.sent, h.current, h.fetcher⟩
    rw [foldlM_cons, hacc]
    exact ih h' fun hrem => (hgap hrem).2 acc' hacc

end Sends

/-- The assertion never fails and consecutive checkpoints are sent, with a remote store as long as
the files that are read have no gap. -/
theorem reader_sends_consecutive (hasRemoteStore : Bool) (start dataLimit : ℕ) (ticks : List Tick)
    (hgap : hasRemoteStore = true → NoGap (new hasRemoteStore start dataLimit, []) ticks) :
    ∃ reader sent,
    (new hasRemoteStore start dataLimit).run ticks = .ok (reader, sent) ∧
      sent = range' start sent.length := by
  have hstart : Sends hasRemoteStore start 0 (new hasRemoteStore start dataLimit, []) :=
    ⟨rfl, rfl, rfl, fun _ hin => by cases hin⟩
  obtain ⟨⟨reader, sent⟩, hrun, h⟩ := hstart.run hgap
  exact ⟨reader, sent, hrun, h.sent⟩

/-- Checkpoint 0 is read from the directory, and checkpoint 1 comes from the remote store. -/
theorem reader_sends_consecutive_remote : ∃ reader sent,
    (new true 0 0).run [.sync {0} [], .sync ∅ [.checkpoint 1]] = .ok (reader, sent) ∧
      sent = range' 0 sent.length := by
  refine reader_sends_consecutive true 0 0 _ fun _ => ⟨?_, fun acc' _ => ⟨?_, fun _ _ => trivial⟩⟩
  · rintro _ _ ⟨⟩ -
    exact ⟨1, by decide +kernel⟩
  · rintro _ _ ⟨⟩ hin
    simp at hin

/-- With a remote store, a gap in the directory after the next checkpoint fails the assertion. -/
theorem reader_panics_at_gap : (new true 0 0).run [.sync {0, 2} []] = .error (.sequenceNumber 2 1) :=
  eq_error_of_failsWith (by decide +kernel)

end CheckpointReader

end SuiProofs.Ingestion
