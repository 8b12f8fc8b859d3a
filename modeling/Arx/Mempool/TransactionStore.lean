import Arx.Mempool.Index

/-!
# The store of the mempool

`TransactionStore` with its indexes, and the operations of `Mempool` on it. Hash maps are functions,
and the time of a call and the random choice of an eviction are arguments.
-/

namespace Arx.Mempool
open Movelib Function

variable {A P H : Type}

inductive MempoolStatusCode where
  | accepted
  | invalidSeqNumber
  | mempoolIsFull
  | tooManyTransactions
  | invalidUpdate
  deriving DecidableEq

structure MempoolStatus where
  code : MempoolStatusCode
  message : String
  deriving DecidableEq

structure MempoolConfig where
  capacity : ℕ
  capacityBytes : ℕ
  capacityPerUser : ℕ
  broadcastBuckets : List ℕ
  systemTransactionTimeout : ℕ
  /-- `TXN_FIXED_ESTIMATED_BYTES + TXN_INDEX_ESTIMATED_BYTES`. -/
  fixedEstimatedBytes : ℕ

abbrev AccountTransactions (A P H : Type) := Column (id : ℕ → ℕ) (MempoolTransaction A P H)

structure TransactionStore (A P H : Type) [LinearOrder A] where
  transactions : A → Option (AccountTransactions A P H)
  sequenceNumbers : A → Option ℕ
  priorityIndex : PriorityIndex A
  expirationTimeIndex : TTLIndex A
  systemTtlIndex : TTLIndex A
  timelineIndex : MultiBucketTimelineIndex A
  parkingLotIndex : ParkingLotIndex A
  hashIndex : H → Option (TxnPointer A)
  sizeBytes : ℕ

/-- Sequence numbers are words. -/
def checkedSucc (n : ℕ) : Except Panic ℕ :=
  if n + 1 < 2^64 then .ok (n + 1) else .error .sequenceNumberOverflow

namespace TransactionStore

variable [LinearOrder A] (config : MempoolConfig) (rng : ℕ) (s : TransactionStore A P H)
  (t : MempoolTransaction A P H) (address : A)

def new : TransactionStore A P H :=
  ⟨fun _ => none,fun _ => none,.empty,.empty,.empty,.new config.broadcastBuckets,.new,fun _ => none,0⟩

def getMempoolTxn (sequenceNumber : ℕ) : Option (MempoolTransaction A P H) :=
  (s.transactions address).bind fun txns => txns.get sequenceNumber

def getSequenceNumber : Option ℕ := s.sequenceNumbers address

def putTxn : TransactionStore A P H :=
  { s with
    transactions := update s.transactions t.getSender
      ((s.transactions t.getSender).map fun txns =>
        txns.put t.sequenceInfo.transactionSequenceNumber t) }

def removeTxn (sequenceNumber : ℕ) : TransactionStore A P H :=
  { s with
    transactions := update s.transactions address
      ((s.transactions address).map fun txns => txns.delete sequenceNumber) }

/-- Remove account datastructures if there are no more transactions for the account. -/
def dropEmptyAccount : TransactionStore A P H :=
  match s.transactions address with
  | some txns =>
    if txns.rows.isEmpty then { s with
      transactions := update s.transactions address none
      sequenceNumbers := update s.sequenceNumbers address none }
    else s
  | none => s

def isFull : Bool :=
  s.systemTtlIndex.rows.length ≥ config.capacity ∨ s.sizeBytes ≥ config.capacityBytes

/-- Would the transaction be ready for broadcast upon insertion? -/
def checkTxnReady (currSequenceNumber : ℕ) : Except Panic Bool :=
  let txSequenceNumber := t.sequenceInfo.transactionSequenceNumber
  if txSequenceNumber = currSequenceNumber then .ok true
  else if txSequenceNumber = 0 then .error .alreadyCommitted
  else
    match s.getMempoolTxn t.getSender (txSequenceNumber - 1) with
    | some prevTxn =>
      match prevTxn.timelineState with
      | .ready _ => .ok true
      | .notReady => .ok false
      | .nonQualified => .ok false
    | none => .ok false

def promote : Except Panic (TransactionStore A P H) := do
  let s := { s with priorityIndex := s.priorityIndex.insert t }
  let s := if t.timelineState = .notReady then
      let (timelineIndex,t) := s.timelineIndex.insert t
      { s with timelineIndex := timelineIndex }.putTxn t
    else s
  let parkingLotIndex ← s.parkingLotIndex.remove t
  pure { s with parkingLotIndex := parkingLotIndex }

/-- The rows from the account's sequence number on, as long as there is no gap. The number reached is
returned with the store. -/
def promoteAll (s : TransactionStore A P H) :
    ℕ → List (ℕ × MempoolTransaction A P H) → Except Panic (TransactionStore A P H × ℕ)
  | minSeq,[] => .ok (s,minSeq)
  | minSeq,(sequenceNumber,t) :: rows =>
    if sequenceNumber = minSeq then do
      let s ← s.promote t
      let minSeq ← checkedSucc minSeq
      s.promoteAll minSeq rows
    else .ok (s,minSeq)

def park : TransactionStore A P H :=
  match t.timelineState with
  | .ready _ => s
  | .notReady => { s with parkingLotIndex := s.parkingLotIndex.insert t }
  | .nonQualified => { s with parkingLotIndex := s.parkingLotIndex.insert t }

def parkAll (minSeq : ℕ) : TransactionStore A P H :=
  match s.transactions address with
  | some txns => (txns.rows.filter fun row => minSeq < row.1).foldl (fun s row => s.park row.2) s
  | none => s

def processReadyTransactions (sequenceInfo : AccountSequenceInfo) :
    Except Panic (TransactionStore A P H) :=
  match s.transactions address with
  | some txns => do
    let (s,minSeq) ← s.promoteAll sequenceInfo.minSeq (txns.seek sequenceInfo.minSeq)
    pure (s.parkAll address minSeq)
  | none => .ok s

def unready : TransactionStore A P H :=
  let s := { s with
    parkingLotIndex := s.parkingLotIndex.insert t
    priorityIndex := s.priorityIndex.remove t
    timelineIndex := s.timelineIndex.remove t }
  match t.timelineState with
  | .ready _ => s.putTxn { t with timelineState := .notReady }
  | .notReady => s
  | .nonQualified => s

def parkRange (txns : AccountTransactions A P H) (key : TTLOrderingKey A)
    (next : Option (TTLOrderingKey A)) : Except Panic (List (ℕ × MempoolTransaction A P H)) :=
  match next.filter fun nextKey => key.address = nextKey.address with
  | some nextKey =>
    if key.sequenceNumber < nextKey.sequenceNumber then .ok (txns.rows.filter fun row =>
      key.sequenceNumber < row.1 ∧ row.1 < nextKey.sequenceNumber)
    else .error .invalidRange
  | none => .ok (txns.rows.filter fun row => key.sequenceNumber < row.1)

def sortKeys (keys : List (TTLOrderingKey A)) : List (TTLOrderingKey A) :=
  keys.mergeSort fun k k' =>
    decide (toLex (k.address,k.sequenceNumber) ≤ toLex (k'.address,k'.sequenceNumber))

variable [DecidableEq H]

def leaveIndexes (parkingLotIndex : ParkingLotIndex A) : TransactionStore A P H :=
  { s with
    systemTtlIndex := s.systemTtlIndex.remove systemExpiration t
    expirationTimeIndex := s.expirationTimeIndex.remove clientExpiration t
    priorityIndex := s.priorityIndex.remove t
    timelineIndex := s.timelineIndex.remove t
    parkingLotIndex := parkingLotIndex
    hashIndex := update s.hashIndex t.getCommittedHash none
    sizeBytes := s.sizeBytes - t.getEstimatedBytes config.fixedEstimatedBytes }

/-- Only called after removing from the main map. -/
def indexRemove : Except Panic (TransactionStore A P H) := do
  let parkingLotIndex ← s.parkingLotIndex.remove t
  if s.sizeBytes < t.getEstimatedBytes config.fixedEstimatedBytes then .error .sizeUnderflow
  else .ok ((s.leaveIndexes config t parkingLotIndex).dropEmptyAccount t.getSender)

def checkIsFullAfterEviction (currSequenceNumber : ℕ) :
    Except Panic (TransactionStore A P H × Bool) := do
  if s.isFull config then
    let ready ← s.checkTxnReady t currSequenceNumber
    if ready then
      match s.parkingLotIndex.getPoppable rng with
      | some (address,sequenceNumber) =>
        match s.getMempoolTxn address sequenceNumber with
        | some evicted =>
          let s ← (s.removeTxn address sequenceNumber).indexRemove config evicted
          pure (s,s.isFull config)
        | none => pure (s,s.isFull config)
      | none => pure (s,s.isFull config)
    else pure (s,s.isFull config)
  else pure (s,false)

def cleanCommittedTransactions (sequenceNumber : ℕ) : Except Panic (TransactionStore A P H) :=
  match s.transactions address with
  | some txns =>
    (txns.below sequenceNumber).foldlM (fun s row => s.indexRemove config row.2)
      { s with
        transactions :=
          update s.transactions address (some (txns.splitOff sequenceNumber)) }
  | none => .ok s

def store : TransactionStore A P H :=
  { s with
    systemTtlIndex := s.systemTtlIndex.insert systemExpiration t
    expirationTimeIndex := s.expirationTimeIndex.insert clientExpiration t
    hashIndex := update s.hashIndex t.getCommittedHash (some t.pointer)
    sequenceNumbers := update s.sequenceNumbers t.getSender
      (some t.sequenceInfo.accountSequenceNumberType.minSeq)
    sizeBytes := s.sizeBytes + t.getEstimatedBytes config.fixedEstimatedBytes }.putTxn t

/-- The second part of `insert`, when no version of the transaction is stored. -/
def insertNew : Except Panic (TransactionStore A P H × MempoolStatus) := do
  let sequenceInfo := t.sequenceInfo.accountSequenceNumberType
  let (s,full) ← s.checkIsFullAfterEviction config rng t sequenceInfo.minSeq
  if full then
    let size := s.systemTtlIndex.rows.length
    let capacity := config.capacity
    pure (s,⟨.mempoolIsFull,s!"Mempool is full. Mempool size: {size}, Capacity: {capacity}"⟩)
  else
    let s ← s.cleanCommittedTransactions config t.getSender sequenceInfo.minSeq
    let txns := (s.transactions t.getSender).getD .empty
    let s := { s with transactions := update s.transactions t.getSender (some txns) }
    if txns.rows.length ≥ config.capacityPerUser then
      let size := txns.rows.length
      let capacity := config.capacityPerUser
      pure (s,⟨.tooManyTransactions,
        "Mempool over capacity for account. Number of transactions from account: " ++
          s!"{size} Capacity per account: {capacity}"⟩)
    else
      let s ← (s.store config t).processReadyTransactions t.getSender sequenceInfo
      pure (s,⟨.accepted,""⟩)

def insert [DecidableEq P] : Except Panic (TransactionStore A P H × MempoolStatus) :=
  let sequenceNumber := t.sequenceInfo.transactionSequenceNumber
  match s.getMempoolTxn t.getSender sequenceNumber with
  | some current =>
    if current.txn.payload ≠ t.txn.payload then
      .ok (s,⟨.invalidUpdate,"Transaction already in mempool with a different payload"⟩)
    else if current.txn.expirationTimestampSecs ≠ t.txn.expirationTimestampSecs then
      .ok (s,⟨.invalidUpdate,
        "Transaction already in mempool with a different expiration timestamp"⟩)
    else if current.txn.maxGasAmount ≠ t.txn.maxGasAmount then
      .ok (s,⟨.invalidUpdate,"Transaction already in mempool with a different max gas amount"⟩)
    else if current.txn.gasUnitPrice < t.getGasPrice then do
      let s ← (s.removeTxn t.getSender sequenceNumber).indexRemove config current
      s.insertNew config rng t
    else if current.getGasPrice > t.getGasPrice then
      .ok (s,⟨.invalidUpdate,"Transaction already in mempool with a higher gas price"⟩)
    else .ok (s,⟨.accepted,""⟩)
  | none => s.insertNew config rng t

def commitTransaction (account : A) (sequenceNumber : ℕ) : Except Panic (TransactionStore A P H) := do
  let currentSeqNumber := (s.getSequenceNumber account).getD 0
  let next ← checkedSucc sequenceNumber
  let newSeqNumber := AccountSequenceInfo.sequential (max currentSeqNumber next)
  let s := { s with
    sequenceNumbers := update s.sequenceNumbers account (some newSeqNumber.minSeq) }
  let s ← s.cleanCommittedTransactions config account newSeqNumber.minSeq
  s.processReadyTransactions account newSeqNumber

def rejectTransaction (account : A) (sequenceNumber : ℕ) (hash : H) :
    Except Panic (TransactionStore A P H) :=
  if s.hashIndex hash = some (account,sequenceNumber) then
    match s.getMempoolTxn account sequenceNumber with
    | some t => (s.removeTxn account sequenceNumber).indexRemove config t
    | none => .ok s
  else .ok s

def gcOne (key : TTLOrderingKey A) (next : Option (TTLOrderingKey A)) :
    Except Panic (TransactionStore A P H) :=
  match s.transactions key.address with
  | some txns => do
    let range ← parkRange txns key next
    let s := range.foldl (fun s row => s.unready row.2) s
    match s.getMempoolTxn key.address key.sequenceNumber with
    | some t => (s.removeTxn key.address key.sequenceNumber).indexRemove config t
    | none => pure s
  | none => .ok s

def gcAll (config : MempoolConfig) (s : TransactionStore A P H) :
    List (TTLOrderingKey A) → Except Panic (TransactionStore A P H)
  | [] => .ok s
  | key :: keys => do
    let s ← s.gcOne config key keys.head?
    s.gcAll config keys

def gc [OrderBot A] (now : ℕ) (bySystemTtl : Bool) : Except Panic (TransactionStore A P H) :=
  if bySystemTtl then
    let (keys,index) := s.systemTtlIndex.gc now
    { s with systemTtlIndex := index }.gcAll config (sortKeys keys)
  else
    let (keys,index) := s.expirationTimeIndex.gc now
    { s with expirationTimeIndex := index }.gcAll config (sortKeys keys)

end TransactionStore

inductive MempoolAction (A P H : Type) where
  | addTxn (txn : SignedTransaction A P H) (rankingScore : ℕ) (sequenceInfo : AccountSequenceInfo)
      (timelineState : TimelineState) (now rng : ℕ)
  | commitTransaction (sender : A) (sequenceNumber : ℕ)
  | rejectTransaction (sender : A) (sequenceNumber : ℕ) (hash : H)
  | gc (now : ℕ)
  | gcByExpirationTime (blockTime : ℕ)

namespace TransactionStore

variable [LinearOrder A] [OrderBot A] [DecidableEq H] [DecidableEq P]

variable (config : MempoolConfig)

def addTxn (s : TransactionStore A P H) (txn : SignedTransaction A P H) (rankingScore : ℕ)
    (sequenceInfo : AccountSequenceInfo) (timelineState : TimelineState) (now rng : ℕ) :
    Except Panic (TransactionStore A P H × MempoolStatus) :=
  let dbSequenceNumber := sequenceInfo.minSeq
  if txn.sequenceNumber < dbSequenceNumber then
    let number := txn.sequenceNumber
    .ok (s,⟨.invalidSeqNumber,s!"transaction sequence number is {number}, " ++
      s!"current sequence number is  {dbSequenceNumber}"⟩)
  else
    s.insert config rng (.new txn (now + config.systemTransactionTimeout) rankingScore timelineState
      (.sequential dbSequenceNumber))

def step (s : TransactionStore A P H) : MempoolAction A P H → Except Panic (TransactionStore A P H)
  | .addTxn txn rankingScore sequenceInfo timelineState now rng =>
    (s.addTxn config txn rankingScore sequenceInfo timelineState now rng).map Prod.fst
  | .commitTransaction sender sequenceNumber => s.commitTransaction config sender sequenceNumber
  | .rejectTransaction sender sequenceNumber hash =>
    s.rejectTransaction config sender sequenceNumber hash
  | .gc now => s.gc config now true
  | .gcByExpirationTime blockTime => s.gc config blockTime false

def run (actions : List (MempoolAction A P H)) : Except Panic (TransactionStore A P H) :=
  actions.foldlM (step config) (new config)

end TransactionStore

end Arx.Mempool
