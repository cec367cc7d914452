import SuiProofs.Bridge.Treasury
import SuiProofs.Library.SlidingWindow

/-!
Models `limiter.move`. A log of the accepted transfers says what the record of a route should hold.
-/

namespace SuiProofs.Bridge

open Library ChainIds List Option VecMap

def maxTransferLimit : UInt64 := 18446744073709551615

def usdValueMultiplier : UInt64 := 100000000

structure TransferRecord where
  hourHead : ℕ
  hourTail : ℕ
  perHourAmounts : List ℕ
  totalAmount : ℕ
deriving DecidableEq, Repr

structure TransferLimiter where
  transferLimits : VecMap BridgeRoute UInt64
  transferRecords : VecMap BridgeRoute TransferRecord

namespace TransferRecord

def new : TransferRecord := ⟨0, 0, [], 0⟩

/-- The first loop of `adjust_transfer_records`: removes the oldest hour `count` times. -/
def evict : ℕ → TransferRecord → Except Abort TransferRecord
  | 0, record => .ok record
  | count + 1, record =>
    match record.perHourAmounts with
    | [] => .error .vectorError
    | amount :: amounts => do
      let totalAmount ← checkedSub record.totalAmount amount
      evict count { record with totalAmount, perHourAmounts := amounts, hourTail := record.hourTail + 1 }

/-- The second loop: appends an empty hour `count` times. -/
def backfill : ℕ → TransferRecord → TransferRecord
  | 0, record => record
  | count + 1, record => backfill count { record with
      perHourAmounts := record.perHourAmounts ++ [0], hourHead := record.hourHead + 1 }

def adjustTransferRecords (record : TransferRecord) (currentHour : ℕ) : Except Abort TransferRecord :=
  if record.hourHead = currentHour then .ok record
  else do
    let targetTail ← checkedSub currentHour 23
    let record ← if record.hourHead < targetTail then .ok ⟨targetTail, targetTail, [0], 0⟩
      else record.evict (targetTail - record.hourTail)
    pure (record.backfill (currentHour - record.hourHead))

end TransferRecord

def currentHourSinceEpoch (timestampMs : ℕ) : ℕ := timestampMs / 3600000

lemma currentHourSinceEpoch_mono : Monotone currentHourSinceEpoch := fun _ _ h => Nat.div_le_div_right h

lemma currentHourSinceEpoch_ge {hour timestampMs : ℕ} (h : hour * 3600000 ≤ timestampMs) :
    hour ≤ currentHourSinceEpoch timestampMs :=
  (Nat.le_div_iff_mul_le (by norm_num)).mpr h

variable {record : TransferRecord} {metadata : BridgeTokenMetadata} {route : BridgeRoute} {hour : ℕ}

namespace TransferLimiter

def initialTransferLimits : VecMap BridgeRoute UInt64 where
  contents := [(⟨ethMainnet, suiMainnet⟩, 5000000 * usdValueMultiplier),
    (⟨ethSepolia, suiTestnet⟩, maxTransferLimit),
    (⟨ethSepolia, suiCustom⟩, maxTransferLimit), (⟨ethCustom, suiTestnet⟩, maxTransferLimit),
      (⟨ethCustom, suiCustom⟩, maxTransferLimit)]
  nodup_keys := by decide

def new : TransferLimiter := ⟨initialTransferLimits, .empty⟩

variable (limiter : TransferLimiter)

def withRecord (route : BridgeRoute) : Except Abort (VecMap BridgeRoute TransferRecord) :=
  if limiter.transferRecords.contains route then .ok limiter.transferRecords
  else limiter.transferRecords.insert route .new

def checkAndRecordIn (record : TransferRecord) (routeLimit : UInt64)
    (metadata : BridgeTokenMetadata) (amount : UInt64) : Except Abort (TransferRecord × Bool) := do
  let multiplier := metadata.decimalMultiplier.toNat
  let routeLimitAdjusted ← fits 128 (routeLimit.toNat * multiplier)
  let notionalAmountWithTokenMultiplier ← fits 128 (metadata.notionalValue.toNat * amount.toNat)
  let totalAdjusted ← fits 128 (record.totalAmount * multiplier)
  let newTotal ← fits 128 (totalAdjusted + notionalAmountWithTokenMultiplier)
  if newTotal > routeLimitAdjusted then pure (record, false)
  else do
    -- the multiplier is positive, so the division does not abort
    let notionalAmount ← fits 64 (notionalAmountWithTokenMultiplier / multiplier)
    let lastAmount ← orAbort record.perHourAmounts.getLast? .vectorError
    let newAmount ← fits 64 (lastAmount + notionalAmount)
    let totalAmount ← fits 64 (record.totalAmount + notionalAmount)
    pure ({ record with
      perHourAmounts := record.perHourAmounts.dropLast ++ [newAmount], totalAmount }, true)

def checkAndRecordSendingTransfer (treasury : BridgeTreasury) (timestampMs : ℕ)
    (route : BridgeRoute) (coin : TypeName)
    (amount : UInt64) : Except Abort (TransferLimiter × Bool) := do
  let records ← limiter.withRecord route
  let record ← records.get route
  let record ← record.adjustTransferRecords (currentHourSinceEpoch timestampMs)
  let routeLimit ← orAbort (limiter.transferLimits.tryGet route) .limitNotFoundForRoute
  let metadata ← treasury.getTokenMetadata coin
  let (record, accepted) ← checkAndRecordIn record routeLimit metadata amount
  pure ({ limiter with transferRecords := records.set route record }, accepted)

def updateRouteLimit (route : BridgeRoute) (newUsdLimit : UInt64) : Except Abort TransferLimiter := do
  let transferLimits ← if limiter.transferLimits.contains route then
    .ok (limiter.transferLimits.set route newUsdLimit)
    else limiter.transferLimits.insert route newUsdLimit
  pure { limiter with transferLimits }

end TransferLimiter

/-- A transfer that the limiter let pass, in notional value. -/
structure AcceptedTransfer where
  route : BridgeRoute
  hour : ℕ
  amount : ℕ
deriving DecidableEq, Repr

def acceptedIn (log : List AcceptedTransfer) (route : BridgeRoute) (hour : ℕ) : ℕ :=
  ((log.filter fun transfer => transfer.route = route ∧ transfer.hour = hour).map
    AcceptedTransfer.amount).sum

/-- The total that was accepted on a route in the 24 hours that end with the given one. -/
def acceptedInWindow (log : List AcceptedTransfer) (route : BridgeRoute) (hour : ℕ) : ℕ :=
  ∑ h ∈ Finset.Icc (hour - 23) hour, acceptedIn log route h

lemma acceptedIn_cons (transfer : AcceptedTransfer) (log : List AcceptedTransfer)
    (route : BridgeRoute) (hour : ℕ) :
    acceptedIn (transfer :: log) route hour
      = (if transfer.route = route ∧ transfer.hour = hour then transfer.amount else 0) +
        acceptedIn log route hour := by
  unfold acceptedIn
  rw [filter_cons]
  split_ifs with h h' h'
  · rw [map_cons, sum_cons]
  · exact absurd (of_decide_eq_true h) h'
  · exact absurd (decide_eq_true h') h
  · rw [zero_add]

namespace TransferRecord

/-- The record holds the accepted amounts of the 24 hours that end with its head. -/
structure IsWindow (record : TransferRecord) (accepted : ℕ → ℕ) (hour : ℕ) : Prop where
  head_eq : record.hourHead = hour
  tail_eq : record.hourTail + 23 = hour
  length_eq : record.perHourAmounts.length = 24
  buckets : Buckets accepted record.hourTail record.perHourAmounts
  total_eq : record.totalAmount = record.perHourAmounts.sum

variable {record record' : TransferRecord} {accepted accepted' : ℕ → ℕ}

lemma evict_eq_ok {count : ℕ} (hcnt : count ≤ record.perHourAmounts.length)
    (htot : record.totalAmount = record.perHourAmounts.sum) :
    record.evict count = .ok ⟨record.hourHead, record.hourTail + count,
      record.perHourAmounts.drop count, (record.perHourAmounts.drop count).sum⟩ := by
  induction count generalizing record with
  | zero =>
    unfold evict
    rw [drop_zero, ← htot, Nat.add_zero]
  | succ count ih =>
    obtain ⟨head, tail, amounts, total⟩ := record
    cases amounts with
    | nil => exact absurd hcnt (Nat.not_succ_le_zero count)
    | cons amount amounts =>
      have htot' : total = amount + amounts.sum := htot
      have hsub : total - amount = amounts.sum := by omega
      unfold evict
      dsimp only
      rw [checkedSub_of_le (by omega), ok_bind, hsub, ih (Nat.le_of_succ_le_succ hcnt) rfl]
      simp only [drop_succ_cons, Nat.add_assoc, Nat.add_comm 1]

lemma backfill_eq (count : ℕ) :
    record.backfill count = { record with
      perHourAmounts := record.perHourAmounts ++ List.replicate count 0
      hourHead := record.hourHead + count } := by
  induction count generalizing record with
  | zero =>
    unfold backfill
    rw [replicate_zero, append_nil, Nat.add_zero]
  | succ count ih =>
    unfold backfill
    rw [ih]
    simp only [append_assoc, singleton_append, ← replicate_succ, Nat.add_assoc, Nat.add_comm 1]

lemma adjustTransferRecords_of_lt (hhour : record.hourHead + 23 < hour) :
    record.adjustTransferRecords hour = .ok ⟨hour, hour - 23, List.replicate 24 0, 0⟩ := by
  unfold adjustTransferRecords
  have hcnt : hour - (hour - 23) = 23 := by omega
  have hhead : hour - 23 + 23 = hour := by omega
  rw [if_neg (by omega), checkedSub_of_le (by omega), ok_bind, if_pos (by omega), ok_bind]
  dsimp only
  rw [pure_eq_ok, backfill_eq]
  rw [hcnt, hhead]
  rfl

namespace IsWindow

/-- The window moves on to a later hour. Nothing was accepted after the head. -/
lemma adjust (h : record.IsWindow accepted record.hourHead)
    (haft : ∀ i, record.hourHead < i → accepted i = 0) (hhour : record.hourHead ≤ hour) :
    ∃ record', record.adjustTransferRecords hour = .ok record' ∧ record'.IsWindow accepted hour := by
  have htail := h.tail_eq
  have hlen := h.length_eq
  by_cases hsame : record.hourHead = hour
  · refine ⟨record, if_pos hsame, ?_⟩
    rw [← hsame]
    exact h
  by_cases hstale : record.hourHead + 23 < hour
  · refine ⟨_, adjustTransferRecords_of_lt hstale, rfl, by dsimp only; omega,
      length_replicate, ?_, by simp⟩
    exact Buckets.replicate_zero (fun i (hi : hour - 23 ≤ i) => haft i (by omega)) 24
  · have hcnt : hour - 23 - record.hourTail ≤ record.perHourAmounts.length := by omega
    have htail' : record.hourTail + (hour - 23 - record.hourTail) = hour - 23 := by omega
    have hhead' : record.hourHead + (hour - record.hourHead) = hour := by omega
    refine ⟨⟨hour, hour - 23, record.perHourAmounts.drop (hour - 23 - record.hourTail) ++
      List.replicate (hour - record.hourHead) 0,
      (record.perHourAmounts.drop (hour - 23 - record.hourTail)).sum⟩, ?_,
        rfl, by dsimp only; omega, ?_, ?_, ?_⟩
    · unfold adjustTransferRecords
      rw [if_neg hsame, checkedSub_of_le (by omega), ok_bind, if_neg (by omega),
        evict_eq_ok hcnt h.total_eq, ok_bind]
      dsimp only
      rw [pure_eq_ok, backfill_eq]
      rw [htail', hhead']
    · rw [length_append, length_drop, length_replicate]
      omega
    · have hdrop := h.buckets.drop hcnt
      rw [htail'] at hdrop
      rw [Buckets.append]
      refine ⟨hdrop, Buckets.replicate_zero (fun i hi => haft i ?_) _⟩
      rw [length_drop] at hi
      dsimp only at hi
      omega
    · rw [sum_append, sum_replicate]
      simp

lemma of_fresh (hnone : ∀ i, accepted i = 0) (hhour : 24 ≤ hour) :
    ∃ record', TransferRecord.new.adjustTransferRecords hour = .ok record' ∧
      record'.IsWindow accepted hour := by
  have hstale : TransferRecord.new.hourHead + 23 < hour := by
    change 0 + 23 < hour
    omega
  refine ⟨_, adjustTransferRecords_of_lt hstale, rfl, by dsimp only; omega,
    length_replicate, ?_, by simp⟩
  exact Buckets.replicate_zero (fun i _ => hnone i) 24

lemma add {x : ℕ} (h : record.IsWindow accepted hour)
    (hoth : ∀ i, i ≠ hour → accepted' i = accepted i)
    (hhour : accepted' hour = accepted hour + x) {last : ℕ}
    (hlast : record.perHourAmounts.getLast? = some last) :
    IsWindow { record with
      perHourAmounts := record.perHourAmounts.dropLast ++ [last + x]
      totalAmount := record.totalAmount + x } accepted' hour := by
  have hlen := h.length_eq
  have htail := h.tail_eq
  have hspl := dropLast_append_getLast? last hlast
  have hinit : record.perHourAmounts.dropLast.length = 23 := by
    rw [length_dropLast, hlen]
  have hkey : record.hourTail + record.perHourAmounts.dropLast.length = hour := by
    rw [hinit, htail]
  refine ⟨h.head_eq, htail, ?_, ?_, ?_⟩
  · rw [length_append, length_singleton, hinit]
  · have hbuckets := h.buckets
    rw [← hspl] at hbuckets
    apply hbuckets.add_last
    · rw [hkey]
      exact hoth
    · rw [hkey]
      exact hhour
  · rw [h.total_eq, sum_append, sum_singleton, ← Nat.add_assoc]
    conv_lhs => rw [← hspl, sum_append, sum_singleton]

end IsWindow

end TransferRecord

lemma toNat_mul_toNat_lt (a b : UInt64) : a.toNat * b.toNat < 2 ^ 128 := by
  calc a.toNat * b.toNat < 2 ^ 64 * 2 ^ 64 := Nat.mul_lt_mul'' a.toNat_lt b.toNat_lt
    _ = 2 ^ 128 := by norm_num

/-- The value of the transfer on top of the total, in the scale of the token. -/
def scaledTotal (total : ℕ) (metadata : BridgeTokenMetadata) (amount : UInt64) : ℕ :=
  total * metadata.decimalMultiplier.toNat + metadata.notionalValue.toNat * amount.toNat

def notionalAmount (metadata : BridgeTokenMetadata) (amount : UInt64) : ℕ :=
  metadata.notionalValue.toNat * amount.toNat / metadata.decimalMultiplier.toNat

namespace TransferLimiter

variable {routeLimit amount : UInt64}

/-- The value of a transfer fits into 128 bits, and so does the scaled total, but their
sum need not. -/
lemma checkAndRecordIn_eq (htot : record.totalAmount < 2 ^ 64) :
    checkAndRecordIn record routeLimit metadata amount
    = if scaledTotal record.totalAmount metadata amount < 2 ^ 128 then
        if routeLimit.toNat * metadata.decimalMultiplier.toNat <
          scaledTotal record.totalAmount metadata amount then .ok (record, false)
        else do
          let notionalAmount ← fits 64 (notionalAmount metadata amount)
          let lastAmount ← orAbort record.perHourAmounts.getLast? .vectorError
          let newAmount ← fits 64 (lastAmount + notionalAmount)
          let totalAmount ← fits 64 (record.totalAmount + notionalAmount)
          pure ({ record with
            perHourAmounts := record.perHourAmounts.dropLast ++ [newAmount], totalAmount }, true)
      else .error .arithmeticError := by
  have hscaled : record.totalAmount * metadata.decimalMultiplier.toNat < 2 ^ 128 := by
    calc record.totalAmount * metadata.decimalMultiplier.toNat < 2 ^ 64 * 2 ^ 64 :=
      Nat.mul_lt_mul'' htot metadata.decimalMultiplier.toNat_lt
      _ = 2 ^ 128 := by norm_num
  unfold checkAndRecordIn
  dsimp only
  rw [fits_of_lt (toNat_mul_toNat_lt routeLimit _), ok_bind, fits_of_lt (toNat_mul_toNat_lt _ _),
    ok_bind, fits_of_lt hscaled, ok_bind]
  by_cases hsum : scaledTotal record.totalAmount metadata amount < 2 ^ 128
  · rw [if_pos hsum]
    unfold scaledTotal at hsum
    rw [fits_of_lt hsum, ok_bind]
    rfl
  · rw [if_neg hsum]
    unfold scaledTotal at hsum
    unfold fits
    rw [if_neg hsum]
    rfl

lemma total_add_notionalAmount_le
    (h : scaledTotal record.totalAmount metadata amount ≤
      routeLimit.toNat * metadata.decimalMultiplier.toNat) :
    record.totalAmount + notionalAmount metadata amount ≤ routeLimit.toNat := by
  have hpos := metadata.decimalMultiplier_pos
  have hdiv := Nat.div_le_div_right (c := metadata.decimalMultiplier.toNat) h
  unfold scaledTotal at hdiv
  rw [Nat.mul_div_cancel _ hpos, Nat.add_comm, Nat.add_mul_div_right _ _ hpos, Nat.add_comm] at hdiv
  exact hdiv

lemma checkAndRecordIn_of_le {last : ℕ} (htot : record.totalAmount < 2 ^ 64)
    (hlast : record.perHourAmounts.getLast? = some last) (hle : last ≤ record.totalAmount)
    (hlim : scaledTotal record.totalAmount metadata amount ≤
      routeLimit.toNat * metadata.decimalMultiplier.toNat) :
    checkAndRecordIn record routeLimit metadata amount = .ok ({ record with
      perHourAmounts := record.perHourAmounts.dropLast ++ [last + notionalAmount metadata amount],
      totalAmount := record.totalAmount + notionalAmount metadata amount }, true) := by
  have hfits : scaledTotal record.totalAmount metadata amount < 2 ^ 128 :=
    lt_of_le_of_lt hlim (toNat_mul_toNat_lt routeLimit _)
  have hsum := total_add_notionalAmount_le hlim
  have hlim' := routeLimit.toNat_lt
  rw [checkAndRecordIn_eq htot, if_pos hfits, if_neg (Nat.not_lt.mpr hlim), fits_of_lt (by omega),
    ok_bind, hlast]
  dsimp only [orAbort]
  rw [ok_bind, fits_of_lt (by omega), ok_bind, fits_of_lt (by omega), ok_bind]
  rfl

lemma checkAndRecordIn_of_lt (htot : record.totalAmount < 2 ^ 64)
    (hfits : scaledTotal record.totalAmount metadata amount < 2 ^ 128)
    (hlim : routeLimit.toNat * metadata.decimalMultiplier.toNat <
      scaledTotal record.totalAmount metadata amount) :
    checkAndRecordIn record routeLimit metadata amount = .ok (record, false) := by
  rw [checkAndRecordIn_eq htot, if_pos hfits, if_pos hlim]

end TransferLimiter

/-- The limiter, the transfers it has accepted, the newest first, and the time of the
last one it has seen. -/
structure LimiterState where
  limiter : TransferLimiter
  log : List AcceptedTransfer
  clock : ℕ

inductive LimiterCall where
  | transfer (treasury : BridgeTreasury) (timestampMs : ℕ) (route : BridgeRoute) (coin : TypeName)
      (amount : UInt64)
  | updateRouteLimit (route : BridgeRoute) (newUsdLimit : UInt64)

def LimiterState.new : LimiterState := ⟨.new, [], 0⟩

def LimiterState.execute (s : LimiterState) : LimiterCall → Except Abort LimiterState
  | .transfer treasury timestampMs route coin amount => do
    let (limiter, accepted) ← s.limiter.checkAndRecordSendingTransfer treasury timestampMs
      route coin amount
    let metadata ← treasury.getTokenMetadata coin
    let log := if accepted then ⟨route, currentHourSinceEpoch timestampMs,
      notionalAmount metadata amount⟩ :: s.log else s.log
    pure ⟨limiter, log, timestampMs⟩
  | .updateRouteLimit route newUsdLimit => do
    let limiter ← s.limiter.updateRouteLimit route newUsdLimit
    pure { s with limiter }

/-- The clock does not run backwards, and stands at 23 hours at least. -/
def LimiterCall.InTime (call : LimiterCall) (s : LimiterState) : Prop :=
  match call with
  | .transfer _ timestampMs _ _ _ => s.clock ≤ timestampMs ∧ 23 * 3600000 ≤ timestampMs
  | .updateRouteLimit _ _ => True

/-- A transfer on a route with a limit and of a supported token does not create the
record of the route in hour 23, and its value on top of what was accepted in the last 24
hours fits into 128 bits. -/
def LimiterCall.IsSafe (call : LimiterCall) (s : LimiterState) : Prop :=
  match call with
  | .transfer treasury timestampMs route coin amount =>
    ∀ limit metadata, s.limiter.transferLimits.tryGet route = some limit →
      treasury.supportedTokens.tryGet coin = some metadata →
      (s.limiter.transferRecords.contains route = true ∨ currentHourSinceEpoch timestampMs ≠ 23)
        ∧ scaledTotal (acceptedInWindow s.log route (currentHourSinceEpoch timestampMs)) metadata
          amount < 2 ^ 128
  | .updateRouteLimit _ _ => True

/-- The runs whose calls are safe. A call that aborts leaves no trace. -/
inductive LimiterRun : LimiterState → Prop
  | new : LimiterRun .new
  | step {s s' : LimiterState} {call : LimiterCall} (hrun : LimiterRun s) (htime : call.InTime s)
      (hsafe : call.IsSafe s) (h : s.execute call = .ok s') :
      LimiterRun s'

/-- The record holds an amount for each hour up to the given one, at most 24 of them, and
their total. -/
def TransferRecord.IsExact (record : TransferRecord) (log : List AcceptedTransfer)
    (route : BridgeRoute) (hour : ℕ) : Prop :=
  record.hourHead = hour ∧ record.hourTail ≤ record.hourHead ∧
    record.perHourAmounts.length = record.hourHead - record.hourTail + 1
    ∧ record.hourHead - record.hourTail + 1 ≤ 24
    ∧ (∀ i < record.perHourAmounts.length, record.perHourAmounts[i]? =
      some (acceptedIn log route (record.hourTail + i)))
    ∧ record.totalAmount = acceptedInWindow log route hour

/-- What a call does: it does not abort on arithmetic, and a transfer on a route with a limit and of
a supported token returns; it is accepted exactly when it fits into the limit next to the transfers
of the last 24 hours, and the record of its route is exact; nothing else changes. -/
def LimiterCall.IsExact (call : LimiterCall) (s : LimiterState) : Prop :=
  match call with
  | .transfer treasury timestampMs route coin amount =>
    s.limiter.checkAndRecordSendingTransfer treasury timestampMs route coin amount ≠
      .error .arithmeticError
      ∧ (∀ limit metadata, s.limiter.transferLimits.tryGet route = some limit →
        treasury.supportedTokens.tryGet coin = some metadata →
        ∃ result, s.limiter.checkAndRecordSendingTransfer treasury timestampMs route coin
          amount = .ok result)
      ∧ ∀ limiter accepted, s.limiter.checkAndRecordSendingTransfer treasury timestampMs route coin
        amount = .ok (limiter, accepted) →
        ∃ s', s.execute call = .ok s' ∧ s'.limiter = limiter
          ∧ (∀ limit metadata, s.limiter.transferLimits.tryGet route = some limit →
            treasury.supportedTokens.tryGet coin = some metadata →
            (accepted = true ↔
              scaledTotal (acceptedInWindow s.log route (currentHourSinceEpoch timestampMs))
              metadata amount
              ≤ limit.toNat * metadata.decimalMultiplier.toNat))
          ∧ (accepted = false → s'.log = s.log)
          ∧ (∃ record, s'.limiter.transferRecords.tryGet route = some record ∧
            record.IsExact s'.log route (currentHourSinceEpoch timestampMs))
          ∧ (∀ other, other ≠ route → s'.limiter.transferRecords.tryGet other =
            s.limiter.transferRecords.tryGet other)
          ∧ s'.limiter.transferLimits = s.limiter.transferLimits
  | .updateRouteLimit route newUsdLimit =>
    ∃ s', s.execute call = .ok s' ∧ s'.limiter.transferRecords = s.limiter.transferRecords ∧
      s'.log = s.log
      ∧ s'.limiter.transferLimits.tryGet route = some newUsdLimit

/-- What is kept of the amounts accepted on a route. A record is the window that ends with its head,
after which nothing was accepted. -/
inductive Keeps (accepted : ℕ → ℕ) (now : ℕ) : Option TransferRecord → Prop
  | nothing (hnone : ∀ hour, accepted hour = 0) : Keeps accepted now none
  | record {record : TransferRecord} (hwindow : record.IsWindow accepted record.hourHead)
      (htot : record.totalAmount < 2 ^ 64)
      (hhead : record.hourHead ≤ now) (haft : ∀ hour, record.hourHead < hour → accepted hour = 0) :
      Keeps accepted now (some record)

def LimiterState.Inv (s : LimiterState) : Prop :=
  ∀ route, Keeps (acceptedIn s.log route) (currentHourSinceEpoch s.clock)
    (s.limiter.transferRecords.tryGet route)

lemma Keeps.mono {accepted : ℕ → ℕ} {now : ℕ} {kept : Option TransferRecord}
    (h : Keeps accepted now kept) (hle : now ≤ hour) :
    Keeps accepted hour kept := by
  cases h with
  | nothing hnone => exact .nothing hnone
  | record hwindow htot hhead haft => exact .record hwindow htot (hhead.trans hle) haft

lemma Keeps.after {accepted : ℕ → ℕ} {now : ℕ} {kept : Option TransferRecord}
    (h : Keeps accepted now kept) (hlt : now < hour) :
    accepted hour = 0 := by
  cases h with
  | nothing hnone => exact hnone hour
  | record _ _ hhead haft => exact haft hour (hhead.trans_lt hlt)

variable {log : List AcceptedTransfer}

lemma TransferRecord.IsWindow.total_eq_acceptedInWindow
    (h : record.IsWindow (acceptedIn log route) hour) :
    record.totalAmount = acceptedInWindow log route hour := by
  have htail : record.hourTail = hour - 23 := by
    have := h.tail_eq
    omega
  have hend : hour - 23 + 24 = hour + 1 := by
    have := h.tail_eq
    omega
  unfold acceptedInWindow
  rw [h.total_eq, h.buckets.sum_eq, h.length_eq, htail, hend, Finset.Ico_add_one_right_eq_Icc]

lemma TransferRecord.IsWindow.isExact
    (h : record.IsWindow (acceptedIn log route) hour) : record.IsExact log route hour := by
  have hhead := h.head_eq
  have htail := h.tail_eq
  have hlen := h.length_eq
  exact ⟨hhead, by omega, by omega, by omega, fun i hi => h.buckets.getElem? hi,
    h.total_eq_acceptedInWindow⟩

namespace LimiterState

variable {s s' : LimiterState}

lemma inv_new : LimiterState.new.Inv := fun _ => .nothing fun _ => rfl

/-- The record of a route after it is created, if there is none, and adjusted to the hour. -/
structure Adjusts (s : LimiterState) (route : BridgeRoute) (hour : ℕ)
    (records : VecMap BridgeRoute TransferRecord) (record : TransferRecord) : Prop where
  withRecord : s.limiter.withRecord route = .ok records
  adjusted : ∃ record₀, records.tryGet route = some record₀ ∧
    record₀.adjustTransferRecords hour = .ok record
  others : ∀ other, other ≠ route → records.tryGet other = s.limiter.transferRecords.tryGet other

lemma withRecord_of_some (h : s.limiter.transferRecords.tryGet route = some record) :
    s.limiter.withRecord route = .ok s.limiter.transferRecords := by
  unfold TransferLimiter.withRecord
  rw [if_pos (by unfold VecMap.contains; rw [h]; rfl)]

lemma withRecord_of_none (h : s.limiter.transferRecords.tryGet route = none) :
    ∃ records, s.limiter.withRecord route = .ok records ∧ records.tryGet route = some .new
      ∧ ∀ other, other ≠ route → records.tryGet other = s.limiter.transferRecords.tryGet other := by
  obtain ⟨records, hins⟩ := exists_insert h TransferRecord.new
  refine ⟨records, ?_, ?_, ?_⟩
  · unfold TransferLimiter.withRecord
    rw [if_neg (by unfold VecMap.contains; rw [h]; decide)]
    exact hins
  · rw [tryGet_insert hins, if_pos rfl]
  · intro other hne
    rw [tryGet_insert hins, if_neg hne]

lemma Inv.adjusts (hinv : s.Inv) (hhour : currentHourSinceEpoch s.clock ≤ hour)
    (h : s.limiter.transferRecords.contains route = true ∨ 24 ≤ hour) :
    ∃ records record, s.Adjusts route hour records record ∧
      record.IsWindow (acceptedIn s.log route) hour ∧ record.totalAmount < 2 ^ 64 := by
  have hkept := hinv route
  cases hget : s.limiter.transferRecords.tryGet route with
  | some record₀ =>
    obtain ⟨⟩ | ⟨hwindow, htot, hhead, haft⟩ := hget ▸ hkept
    obtain ⟨record, hadjust, hrec⟩ := hwindow.adjust haft (hhead.trans hhour)
    refine ⟨_, record, ⟨withRecord_of_some hget, ⟨record₀, hget, hadjust⟩, fun _ _ => rfl⟩, hrec, ?_⟩
    -- nothing was accepted after the old head, so the window only loses hours
    refine lt_of_le_of_lt ?_ htot
    rw [hrec.total_eq_acceptedInWindow, hwindow.total_eq_acceptedInWindow]
    apply Finset.sum_le_sum_of_ne_zero
    intro i hi hne
    rw [Finset.mem_Icc] at hi ⊢
    have hle : i ≤ record₀.hourHead := by
      by_contra hlt
      exact hne (haft i (by omega))
    omega
  | none =>
    have hlarge : 24 ≤ hour := by
      refine h.resolve_left ?_
      unfold VecMap.contains
      rw [hget]
      decide
    obtain ⟨hnone⟩ | ⟨⟩ := hget ▸ hkept
    obtain ⟨records, hrecs, hnew, hothers⟩ := withRecord_of_none hget
    obtain ⟨record, hadjust, hrec⟩ := TransferRecord.IsWindow.of_fresh hnone hlarge
    refine ⟨records, record, ⟨hrecs, ⟨_, hnew, hadjust⟩, hothers⟩, hrec, ?_⟩
    have hzero : acceptedInWindow s.log route hour = 0 := Finset.sum_eq_zero fun i _ => hnone i
    rw [hrec.total_eq_acceptedInWindow, hzero]
    norm_num

lemma adjusts_of_fresh (hnone : s.limiter.transferRecords.tryGet route = none) (hhour : hour = 23) :
    ∃ records, s.Adjusts route hour records ⟨hour, 0, List.replicate 23 0, 0⟩ := by
  subst hhour
  obtain ⟨records, hrecs, hnew, hothers⟩ := withRecord_of_none hnone
  exact ⟨records, hrecs, ⟨_, hnew, rfl⟩, hothers⟩

variable {treasury : BridgeTreasury} {timestampMs : ℕ} {coin : TypeName} {amount limit : UInt64}
  {records : VecMap BridgeRoute TransferRecord}

section

variable (h : s.Adjusts route (currentHourSinceEpoch timestampMs) records record)

include h

lemma Adjusts.transfer_eq :
    s.limiter.checkAndRecordSendingTransfer treasury timestampMs route coin amount = (do
    let routeLimit ← orAbort (s.limiter.transferLimits.tryGet route) .limitNotFoundForRoute
    let metadata ← treasury.getTokenMetadata coin
    let (record, accepted) ← TransferLimiter.checkAndRecordIn record routeLimit metadata amount
    pure ({ s.limiter with transferRecords := records.set route record }, accepted)) := by
  obtain ⟨record₀, hget, hadjust⟩ := h.adjusted
  unfold TransferLimiter.checkAndRecordSendingTransfer
  rw [h.withRecord, ok_bind, get_eq_ok.mpr hget, ok_bind, hadjust, ok_bind]

lemma Adjusts.transfer_of_limit (hlim : s.limiter.transferLimits.tryGet route = some limit)
    (hmeta : treasury.supportedTokens.tryGet coin = some metadata) :
    s.limiter.checkAndRecordSendingTransfer treasury timestampMs route coin amount = (do
      let (record, accepted) ← TransferLimiter.checkAndRecordIn record limit metadata amount
      pure ({ s.limiter with transferRecords := records.set route record }, accepted)) := by
  rw [h.transfer_eq, BridgeTreasury.getTokenMetadata, hlim, hmeta]
  rfl

end

section

variable (h : s.Adjusts route hour records record) (record' : TransferRecord)

include h record'

lemma Adjusts.tryGet_set : (records.set route record').tryGet route = some record' := by
  obtain ⟨record₀, hget, -⟩ := h.adjusted
  rw [VecMap.tryGet_set, if_pos rfl, hget, map_some]

variable {other : BridgeRoute}

lemma Adjusts.tryGet_set_of_ne (hne : other ≠ route) :
    (records.set route record').tryGet other = s.limiter.transferRecords.tryGet other := by
  rw [VecMap.tryGet_set, if_neg hne, h.others other hne]

end

lemma Inv.set_record (hinv : s.Inv) (hclk : s.clock ≤ timestampMs)
    (hadj : s.Adjusts route (currentHourSinceEpoch timestampMs) records record)
    {record' : TransferRecord}
    (hlog : log = s.log ∨ ∃ x, log = ⟨route, currentHourSinceEpoch timestampMs, x⟩ :: s.log)
    (hwindow : record'.IsWindow (acceptedIn log route) (currentHourSinceEpoch timestampMs))
    (htot : record'.totalAmount < 2 ^ 64) :
    Inv ⟨{ s.limiter with transferRecords := records.set route record' }, log, timestampMs⟩ := by
  have hhour : currentHourSinceEpoch s.clock ≤ currentHourSinceEpoch timestampMs :=
    currentHourSinceEpoch_mono hclk
  intro other
  by_cases hne : other = route
  · subst hne
    dsimp only
    rw [hadj.tryGet_set]
    refine .record (hwindow.head_eq.symm ▸ hwindow) htot hwindow.head_eq.le fun h hlt => ?_
    rw [hwindow.head_eq] at hlt
    have hzero := (hinv other).after (hhour.trans_lt hlt)
    rcases hlog with rfl | ⟨x, rfl⟩
    · exact hzero
    · rw [acceptedIn_cons, if_neg fun heq => hlt.ne heq.2, zero_add, hzero]
  · have heq : acceptedIn log other = acceptedIn s.log other := by
      rcases hlog with rfl | ⟨x, rfl⟩
      · rfl
      · funext h
        rw [acceptedIn_cons, if_neg fun hroute => hne hroute.1.symm, zero_add]
    dsimp only
    rw [hadj.tryGet_set_of_ne record' hne, heq]
    exact (hinv other).mono hhour

lemma transfer_outcome (hwindow : record.IsWindow (acceptedIn s.log route) hour)
    (htot : record.totalAmount < 2 ^ 64)
    (hfits : scaledTotal (acceptedInWindow s.log route hour) metadata amount < 2 ^ 128) :
    ∃ record' accepted, TransferLimiter.checkAndRecordIn record limit metadata amount =
      .ok (record', accepted)
      ∧ (accepted = true ↔ scaledTotal (acceptedInWindow s.log route hour) metadata amount ≤
        limit.toNat * metadata.decimalMultiplier.toNat)
      ∧ record'.IsWindow
        (acceptedIn (if accepted then ⟨route, hour, notionalAmount metadata amount⟩ :: s.log
          else s.log) route) hour
      ∧ record'.totalAmount < 2 ^ 64 := by
  rw [← hwindow.total_eq_acceptedInWindow] at hfits ⊢
  by_cases hlim : scaledTotal record.totalAmount metadata amount ≤
    limit.toNat * metadata.decimalMultiplier.toNat
  · have hne : record.perHourAmounts ≠ [] := by
      apply ne_nil_of_length_pos
      rw [hwindow.length_eq]
      norm_num
    have hlast := List.getLast?_eq_getLast_of_ne_nil hne
    have hle : record.perHourAmounts.getLast hne ≤ record.totalAmount := by
      rw [hwindow.total_eq]
      exact single_le_sum (fun _ _ => Nat.zero_le _) _ (getLast_mem hne)
    refine ⟨_, true, TransferLimiter.checkAndRecordIn_of_le htot hlast hle hlim,
      iff_of_true rfl hlim, ?_, ?_⟩
    · rw [if_pos rfl]
      apply hwindow.add _ _ hlast
      · intro i hi
        rw [acceptedIn_cons, if_neg fun heq => hi heq.2.symm, zero_add]
      · rw [acceptedIn_cons, if_pos ⟨rfl, rfl⟩, Nat.add_comm]
    · have hsum := TransferLimiter.total_add_notionalAmount_le hlim
      have := limit.toNat_lt
      dsimp only
      omega
  · rw [not_le] at hlim
    refine ⟨record, false, TransferLimiter.checkAndRecordIn_of_lt htot hfits hlim,
      iff_of_false Bool.false_ne_true (not_le.mpr hlim), ?_, htot⟩
    exact hwindow

lemma Inv.exists_adjusts (hinv : s.Inv) (route : BridgeRoute)
    (hhour : currentHourSinceEpoch s.clock ≤ hour) (h : 23 ≤ hour) :
    ∃ records record, s.Adjusts route hour records record := by
  by_cases hfr : s.limiter.transferRecords.contains route = true ∨ 24 ≤ hour
  · obtain ⟨records, record, hadj, -⟩ := hinv.adjusts hhour hfr
    exact ⟨records, record, hadj⟩
  · rw [not_or, Bool.not_eq_true, contains_eq_false_iff, ← tryGet_eq_none_iff] at hfr
    obtain ⟨records, hadj⟩ := adjusts_of_fresh hfr.1 (by omega : hour = 23)
    exact ⟨records, _, hadj⟩

/-- A transfer gets past the limit and the price only if the route has a limit and the
token is supported. -/
lemma Inv.transfer_cases (hinv : s.Inv) (hclk : s.clock ≤ timestampMs)
    (hst : 23 * 3600000 ≤ timestampMs) (treasury : BridgeTreasury)
    (route : BridgeRoute) (coin : TypeName) (amount : UInt64) :
    (∃ abort, s.limiter.checkAndRecordSendingTransfer treasury timestampMs route coin amount =
      .error abort ∧ abort ≠ .arithmeticError
        ∧ (s.limiter.transferLimits.tryGet route = none ∨ treasury.supportedTokens.tryGet coin = none))
      ∨ ∃ limit metadata, s.limiter.transferLimits.tryGet route = some limit ∧
        treasury.supportedTokens.tryGet coin = some metadata := by
  have hhour := currentHourSinceEpoch_ge hst
  obtain ⟨records, record, hadj⟩ := hinv.exists_adjusts route (currentHourSinceEpoch_mono hclk) hhour
  cases hlim : s.limiter.transferLimits.tryGet route with
  | none => exact .inl ⟨.limitNotFoundForRoute, by rw [hadj.transfer_eq, hlim]; rfl, by decide, .inl rfl⟩
  | some limit =>
    cases hmeta : treasury.supportedTokens.tryGet coin with
    | none =>
      refine .inl ⟨.unsupportedTokenType, ?_, by decide, .inr rfl⟩
      rw [hadj.transfer_eq, BridgeTreasury.getTokenMetadata, hlim, hmeta]
      rfl
    | some metadata => exact .inr ⟨limit, metadata, rfl, rfl⟩

lemma execute_transfer_eq {limiter : TransferLimiter} {accepted : Bool}
    (hmeta : treasury.supportedTokens.tryGet coin = some metadata)
    (h : s.limiter.checkAndRecordSendingTransfer treasury timestampMs route coin amount =
      .ok (limiter, accepted)) :
    s.execute (.transfer treasury timestampMs route coin amount)
      = .ok ⟨limiter, if accepted then
        ⟨route, currentHourSinceEpoch timestampMs, notionalAmount metadata amount⟩ :: s.log
        else s.log, timestampMs⟩ := by
  simp only [execute, BridgeTreasury.getTokenMetadata]
  rw [h, hmeta]
  rfl

lemma Inv.transfer_exact (hinv : s.Inv) (hclk : s.clock ≤ timestampMs) (hst : 23 * 3600000 ≤ timestampMs)
    (hsafe : LimiterCall.IsSafe (.transfer treasury timestampMs route coin amount) s) :
    LimiterCall.IsExact (.transfer treasury timestampMs route coin amount) s
      ∧ ∀ s', s.execute (.transfer treasury timestampMs route coin amount) = .ok s' → s'.Inv := by
  have hhour := currentHourSinceEpoch_ge hst
  rcases hinv.transfer_cases hclk hst treasury route coin amount
    with ⟨abort, habort, hne, hnone⟩ | ⟨limit, metadata, hlim, hmeta⟩
  · refine ⟨⟨?_, fun limit metadata hlim hmeta => ?_, ?_⟩, ?_⟩
    · rw [habort]
      exact fun heq => hne (Except.error.inj heq)
    · rw [hlim, hmeta] at hnone
      simp at hnone
    · intro limiter accepted hok
      rw [habort] at hok
      cases hok
    · intro s' hok
      obtain ⟨_, hchk, -⟩ := bind_eq_ok.mp hok
      rw [habort] at hchk
      cases hchk
  · obtain ⟨hfr, hfits⟩ := hsafe limit metadata hlim hmeta
    have hrec : s.limiter.transferRecords.contains route = true ∨
      24 ≤ currentHourSinceEpoch timestampMs := hfr.imp_right (by omega)
    obtain ⟨records, record, hadj, hwindow, htot⟩ := hinv.adjusts (currentHourSinceEpoch_mono hclk) hrec
    obtain ⟨record', accepted, hout, haccepted, hwindow', htot'⟩ := transfer_outcome hwindow htot hfits
    have hchk : s.limiter.checkAndRecordSendingTransfer treasury timestampMs route coin amount
        = .ok ({ s.limiter with transferRecords := records.set route record' }, accepted) := by
      rw [hadj.transfer_of_limit hlim hmeta, hout]
      rfl
    have hexec := execute_transfer_eq hmeta hchk
    refine ⟨⟨?_, fun _ _ _ _ => ⟨_, hchk⟩, ?_⟩, ?_⟩
    · rw [hchk]
      exact fun heq => by cases heq
    · intro limiter accepted' hok
      rw [hchk] at hok
      cases hok
      refine ⟨_, hexec, rfl, ?_, ?_, ?_, ?_, rfl⟩
      · intro limit' metadata' hlim' hmeta'
        rw [hlim] at hlim'
        rw [hmeta] at hmeta'
        cases hlim'
        cases hmeta'
        exact haccepted
      · rintro rfl
        rfl
      · exact ⟨record', hadj.tryGet_set record', hwindow'.isExact⟩
      · intro other hne
        exact hadj.tryGet_set_of_ne record' hne
    · intro s' hok
      rw [hexec] at hok
      cases hok
      apply hinv.set_record hclk hadj _ hwindow' htot'
      cases accepted
      · exact .inl rfl
      · exact .inr ⟨_, rfl⟩

lemma updateRouteLimit_exact (s : LimiterState) (route : BridgeRoute) (newUsdLimit : UInt64) :
    ∃ limits, s.execute (.updateRouteLimit route newUsdLimit) =
      .ok { s with limiter := { s.limiter with transferLimits := limits } }
      ∧ limits.tryGet route = some newUsdLimit := by
  simp only [execute, TransferLimiter.updateRouteLimit]
  cases hget : s.limiter.transferLimits.tryGet route with
  | some limit =>
    refine ⟨s.limiter.transferLimits.set route newUsdLimit, ?_, ?_⟩
    · rw [if_pos (by unfold VecMap.contains; rw [hget]; rfl)]
      rfl
    · rw [tryGet_set, if_pos rfl, hget, map_some]
  | none =>
    obtain ⟨limits, hins⟩ := exists_insert hget newUsdLimit
    refine ⟨limits, ?_, ?_⟩
    · rw [if_neg (by unfold VecMap.contains; rw [hget]; decide), hins]
      rfl
    · rw [tryGet_insert hins, if_pos rfl]

/-- A record that is created in hour 23 lacks an hour, whatever becomes of the transfer. -/
lemma not_exact_of_fresh (hnone : s.limiter.transferRecords.tryGet route = none)
    (hhour : currentHourSinceEpoch timestampMs = 23)
    (hlim : s.limiter.transferLimits.tryGet route = some limit)
    (hmeta : treasury.supportedTokens.tryGet coin = some metadata) :
    ¬LimiterCall.IsExact (.transfer treasury timestampMs route coin amount) s := by
  rintro ⟨-, -, hexact⟩
  obtain ⟨records, hadj⟩ := adjusts_of_fresh hnone hhour
  have hfits : scaledTotal 0 metadata amount < 2 ^ 128 := by
    unfold scaledTotal
    rw [zero_mul, zero_add]
    exact toNat_mul_toNat_lt _ _
  obtain ⟨record, accepted, hout, hlen, hhead, htail⟩ : ∃ record accepted,
      TransferLimiter.checkAndRecordIn ⟨currentHourSinceEpoch timestampMs, 0, List.replicate 23 0,
        0⟩ limit metadata amount = .ok (record, accepted)
        ∧ record.perHourAmounts.length = 23 ∧ record.hourHead = currentHourSinceEpoch timestampMs ∧
          record.hourTail = 0 := by
    by_cases hle : scaledTotal 0 metadata amount ≤ limit.toNat * metadata.decimalMultiplier.toNat
    · have hlast : (List.replicate 23 0).getLast? = some 0 := rfl
      refine ⟨_, true, TransferLimiter.checkAndRecordIn_of_le
        (by norm_num) hlast le_rfl hle, ?_, rfl, rfl⟩
      rw [length_append, length_dropLast, length_replicate, length_singleton]
    · exact ⟨_, false, TransferLimiter.checkAndRecordIn_of_lt (by norm_num) hfits (not_le.mp hle),
        length_replicate, rfl, rfl⟩
  have hchk : s.limiter.checkAndRecordSendingTransfer treasury timestampMs route coin amount
      = .ok ({ s.limiter with transferRecords := records.set route record }, accepted) := by
    rw [hadj.transfer_of_limit hlim hmeta, hout]
    rfl
  obtain ⟨s', -, hlimiter, -, -, ⟨record', hrec', -, -, hcnt, -⟩, -⟩ := hexact _ _ hchk
  rw [hlimiter, hadj.tryGet_set] at hrec'
  cases hrec'
  rw [hlen, hhead, htail, hhour] at hcnt
  exact absurd hcnt (by norm_num)

lemma Inv.safe_of_exact (hinv : s.Inv) (hclk : s.clock ≤ timestampMs) (hst : 23 * 3600000 ≤ timestampMs)
    (hexact : LimiterCall.IsExact (.transfer treasury timestampMs route coin amount) s) :
    LimiterCall.IsSafe (.transfer treasury timestampMs route coin amount) s := by
  intro limit metadata hlim hmeta
  have hhour := currentHourSinceEpoch_ge hst
  have hfr : s.limiter.transferRecords.contains route = true ∨
      currentHourSinceEpoch timestampMs ≠ 23 := by
    by_contra hfr
    rw [not_or, Bool.not_eq_true, contains_eq_false_iff, ← tryGet_eq_none_iff, not_not] at hfr
    exact not_exact_of_fresh hfr.1 hfr.2 hlim hmeta hexact
  refine ⟨hfr, ?_⟩
  obtain ⟨records, record, hadj, hwindow, htot⟩ :=
    hinv.adjusts (currentHourSinceEpoch_mono hclk) (hfr.imp_right (by omega))
  by_contra hfits
  rw [← hwindow.total_eq_acceptedInWindow] at hfits
  apply hexact.1
  rw [hadj.transfer_of_limit hlim hmeta, TransferLimiter.checkAndRecordIn_eq htot, if_neg hfits]
  rfl

end LimiterState

lemma LimiterRun.inv {s : LimiterState} (hrun : LimiterRun s) : s.Inv := by
  induction hrun with
  | new => exact LimiterState.inv_new
  | @step s s' call _ htime hsafe h ih =>
    cases call with
    | transfer treasury timestampMs route coin amount =>
        exact (ih.transfer_exact htime.1 htime.2 hsafe).2 s' h
    | updateRouteLimit route newUsdLimit =>
      obtain ⟨limits, hexec, -⟩ := s.updateRouteLimit_exact route newUsdLimit
      rw [hexec] at h
      cases h
      exact ih

/-- In every run, a call is exact if and only if it is safe: the record of a route holds the amounts
of the last 24 hours and their total, and a transfer is accepted exactly when it fits into the limit
next to them, unless the record is created in hour 23, where it lacks an hour, or the value of the
transfer on top of the total overflows 128 bits, where the call aborts. -/
theorem limiter_exact_iff_safe {s : LimiterState} (hrun : LimiterRun s) (call : LimiterCall)
    (htime : call.InTime s) : call.IsExact s ↔ call.IsSafe s := by
  cases call with
  | transfer treasury timestampMs route coin amount =>
    exact ⟨hrun.inv.safe_of_exact htime.1 htime.2, fun hsafe =>
      (hrun.inv.transfer_exact htime.1 htime.2 hsafe).1⟩
  | updateRouteLimit route newUsdLimit =>
    obtain ⟨limits, hexecute, hlimits⟩ := s.updateRouteLimit_exact route newUsdLimit
    exact iff_of_true ⟨_, hexecute, rfl, rfl, hlimits⟩ trivial

def wrappedEther : TypeName := ⟨[69, 84, 72], by decide +kernel⟩

def sepoliaRoute : BridgeRoute := ⟨ethSepolia, suiTestnet⟩

def pricedTreasury (price : UInt64) : Except Abort BridgeTreasury := do
  let package : SuiAddress := ⟨List.replicate 32 0, length_replicate⟩
  let treasury ← BridgeTreasury.create.registerForeignToken wrappedEther 0 package package 8
  treasury.addNewToken wrappedEther 2 false price

def firstTransferInHour23 : Except Abort LimiterState := do
  let treasury ← pricedTreasury usdValueMultiplier
  let s ← LimiterState.new.execute (.transfer treasury (23 * 3600000) sepoliaRoute wrappedEther 5)
  s.execute (.transfer treasury (46 * 3600000) sepoliaRoute wrappedEther 7)

def largestTransfer : Except Abort LimiterState := do
  let treasury ← pricedTreasury usdValueMultiplier
  let s ← LimiterState.new.execute
    (.transfer treasury (24 * 3600000) sepoliaRoute wrappedEther 1000000000000)
  let treasury ← treasury.updateAssetNotionalPrice 2 18446744073709551615
  s.execute (.transfer treasury (24 * 3600000) sepoliaRoute wrappedEther 18446744073709551615)

/-- The record created in hour 23 has 23 entries for 24 hours, so the amount of hour 23 is evicted
in hour 46, an hour early; and the largest transfer aborts on the addition in 128 bits. -/
theorem limiter_loses_hour :
    (∃ s, firstTransferInHour23 = .ok s ∧ s.log = [⟨sepoliaRoute, 46, 7⟩, ⟨sepoliaRoute, 23, 5⟩] ∧
      acceptedInWindow s.log sepoliaRoute 46 = 12
        ∧ s.limiter.transferRecords.tryGet sepoliaRoute = some ⟨46, 23, List.replicate 22 0 ++ [7], 7⟩)
      ∧ largestTransfer = .error .arithmeticError := by
  refine ⟨?_, eq_error_of_failsWith (by decide +kernel)⟩
  have hrun : returns firstTransferInHour23
    (fun s => s.log = [⟨sepoliaRoute, 46, 7⟩, ⟨sepoliaRoute, 23, 5⟩]
      && acceptedInWindow s.log sepoliaRoute 46 = 12
      && s.limiter.transferRecords.tryGet sepoliaRoute =
        some ⟨46, 23, List.replicate 22 0 ++ [7], 7⟩) = true := by decide +kernel
  obtain ⟨s, hs, hresult⟩ := exists_of_returns hrun
  simp only [Bool.and_eq_true, decide_eq_true_eq] at hresult
  exact ⟨s, hs, hresult.1.1, hresult.1.2, hresult.2⟩

lemma isSafe_transfer {s : LimiterState} {treasury : BridgeTreasury} {timestampMs : ℕ}
    {coin : TypeName} {amount : UInt64} (hhour : currentHourSinceEpoch timestampMs ≠ 23)
    (htotal : acceptedInWindow s.log route (currentHourSinceEpoch timestampMs) < 2 ^ 32)
    (hamount : amount.toNat < 2 ^ 32) :
    LimiterCall.IsSafe (.transfer treasury timestampMs route coin amount) s := by
  intro limit metadata _ _
  refine ⟨.inr hhour, ?_⟩
  have hmultiplier := Nat.mul_lt_mul'' htotal metadata.decimalMultiplier.toNat_lt
  have hvalue := Nat.mul_lt_mul'' metadata.notionalValue.toNat_lt hamount
  unfold scaledTotal
  omega

/-- A transfer in hour 25, after one in hour 24. -/
theorem limiter_exact_next_hour :
    ∃ treasury s, pricedTreasury usdValueMultiplier = .ok treasury ∧ LimiterRun s
    ∧ s.log = [⟨sepoliaRoute, 24, 5⟩] ∧
      LimiterCall.IsExact (.transfer treasury (25 * 3600000) sepoliaRoute wrappedEther 7) s := by
  obtain ⟨treasury, htreasury, hfirst⟩ :=
    exists_of_returns
      (by decide +kernel : returns (pricedTreasury usdValueMultiplier) (fun treasury =>
    returns (LimiterState.new.execute
      (.transfer treasury (24 * 3600000) sepoliaRoute wrappedEther 5)) fun s =>
      s.log = [⟨sepoliaRoute, 24, 5⟩] ∧ s.clock = 24 * 3600000) = true)
  obtain ⟨s, hs, hstate⟩ := exists_of_returns hfirst
  obtain ⟨hlog, hclock⟩ := of_decide_eq_true hstate
  have hrun : LimiterRun s := by
    refine .step .new ?_ (isSafe_transfer (by decide) (by decide +kernel) (by decide)) hs
    exact ⟨Nat.zero_le _, by norm_num⟩
  refine ⟨treasury, s, htreasury, hrun, hlog, (limiter_exact_iff_safe hrun _ ?_).mpr ?_⟩
  · exact ⟨hclock.le.trans (by norm_num), by norm_num⟩
  · exact isSafe_transfer (by decide) (by rw [hlog]; decide +kernel) (by decide)

end SuiProofs.Bridge
