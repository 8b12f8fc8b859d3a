import Arx.Movelib.Column
import Arx.Movelib.Except

/-!
# Transactions of the mempool and its indexes

The indexes hold logical references to transactions of the main store, each under a key made from the
transaction. Durations are counted in nanoseconds.
-/

namespace Arx.Mempool
open Movelib Function

variable {A P H : Type}

inductive TimelineState where
  /-- Ready for broadcast, at a position in the log of such transactions. -/
  | ready (timelineId : ℕ)
  | notReady
  /-- Never qualified for broadcasting. -/
  | nonQualified
  deriving DecidableEq

inductive AccountSequenceInfo where
  | sequential (number : ℕ)
  deriving DecidableEq

def AccountSequenceInfo.minSeq : AccountSequenceInfo → ℕ
  | .sequential number => number

structure SequenceInfo where
  transactionSequenceNumber : ℕ
  accountSequenceNumberType : AccountSequenceInfo
  deriving DecidableEq

/-- What the mempool reads of a signed transaction. -/
structure SignedTransaction (A P H : Type) where
  sender : A
  sequenceNumber : ℕ
  payload : P
  maxGasAmount : ℕ
  gasUnitPrice : ℕ
  expirationTimestampSecs : ℕ
  rawTxnBytesLen : ℕ
  committedHash : H
  deriving DecidableEq

/-- The sequence number of the transaction is kept beside it, from when it was made. -/
structure MempoolTransaction (A P H : Type) where
  txn : SignedTransaction A P H
  expirationTime : ℕ
  rankingScore : ℕ
  timelineState : TimelineState
  sequenceInfo : SequenceInfo
  sequence_eq : sequenceInfo.transactionSequenceNumber = txn.sequenceNumber
  deriving DecidableEq

abbrev TxnPointer (A : Type) := A × ℕ

/-- Arithmetic of the source that would overflow, and its calls that would not return. -/
inductive Panic where
  | sizeUnderflow
  | sequenceNumberOverflow
  /-- "[mempool] already committed txn detected, cannot be checked for readiness upon insertion". -/
  | alreadyCommitted
  /-- The range of a map with a start that is not below its end. -/
  | invalidRange
  deriving DecidableEq

namespace MempoolTransaction

def new (txn : SignedTransaction A P H) (expirationTime rankingScore : ℕ)
    (timelineState : TimelineState) (seqnoType : AccountSequenceInfo) : MempoolTransaction A P H :=
  ⟨txn,expirationTime,rankingScore,timelineState,⟨txn.sequenceNumber,seqnoType⟩,rfl⟩

variable (t : MempoolTransaction A P H)

def getSender : A := t.txn.sender

def getGasPrice : ℕ := t.txn.gasUnitPrice

def getCommittedHash : H := t.txn.committedHash

def getEstimatedBytes (fixedBytes : ℕ) (t : MempoolTransaction A P H) : ℕ :=
  t.txn.rawTxnBytesLen + fixedBytes

def pointer : TxnPointer A :=
  (t.getSender,t.sequenceInfo.transactionSequenceNumber)

end MempoolTransaction

/-- The account sequence number of the source's key takes no part in its order. -/
structure OrderedQueueKey (A : Type) where
  gasRankingScore : ℕ
  expirationTime : ℕ
  address : A
  sequenceNumber : ℕ
  deriving DecidableEq

/-- By gas price; then those that expire earlier, and those of lower sequence numbers, come later in
the set, which is read from its end. -/
def OrderedQueueKey.order (k : OrderedQueueKey A) : ℕ ×ₗ ℕᵒᵈ ×ₗ A ×ₗ ℕᵒᵈ :=
  toLex (k.gasRankingScore,toLex (OrderDual.toDual k.expirationTime,
    toLex (k.address,OrderDual.toDual k.sequenceNumber)))

structure TTLOrderingKey (A : Type) where
  expirationTime : ℕ
  address : A
  sequenceNumber : ℕ
  deriving DecidableEq

def TTLOrderingKey.order (k : TTLOrderingKey A) : ℕ ×ₗ A ×ₗ ℕ :=
  toLex (k.expirationTime,toLex (k.address,k.sequenceNumber))

theorem OrderedQueueKey.order_injective :
    Function.Injective (OrderedQueueKey.order : OrderedQueueKey A → _) := by
  rintro ⟨score,time,address,number⟩ ⟨score',time',address',number'⟩ h
  obtain ⟨rfl,rfl,rfl,rfl⟩ := h
  rfl

theorem TTLOrderingKey.order_injective :
    Function.Injective (TTLOrderingKey.order : TTLOrderingKey A → _) := by
  rintro ⟨time,address,number⟩ ⟨time',address',number'⟩ h
  obtain ⟨rfl,rfl,rfl⟩ := h
  rfl

section Ordered

variable [LinearOrder A]

abbrev PriorityIndex (A : Type) [LinearOrder A] :=
  Column (OrderedQueueKey.order : OrderedQueueKey A → _) Unit

namespace PriorityIndex

variable (index : PriorityIndex A) (t : MempoolTransaction A P H)

def makeKey : OrderedQueueKey A :=
  ⟨t.rankingScore,t.expirationTime,t.getSender,t.sequenceInfo.transactionSequenceNumber⟩

def insert : PriorityIndex A :=
  index.put (makeKey t) ()

def remove : PriorityIndex A :=
  index.delete (makeKey t)

end PriorityIndex

abbrev TTLIndex (A : Type) [LinearOrder A] :=
  Column (TTLOrderingKey.order : TTLOrderingKey A → _) Unit

def systemExpiration (t : MempoolTransaction A P H) : ℕ := t.expirationTime

def clientExpiration (t : MempoolTransaction A P H) : ℕ := t.txn.expirationTimestampSecs * 10^9

namespace TTLIndex

def makeKey (getExpirationTime : MempoolTransaction A P H → ℕ) (t : MempoolTransaction A P H) :
    TTLOrderingKey A :=
  ⟨getExpirationTime t,t.getSender,t.sequenceInfo.transactionSequenceNumber⟩

def insert (index : TTLIndex A) (getExpirationTime : MempoolTransaction A P H → ℕ)
    (t : MempoolTransaction A P H) : TTLIndex A :=
  index.put (makeKey getExpirationTime t) ()

def remove (index : TTLIndex A) (getExpirationTime : MempoolTransaction A P H → ℕ)
    (t : MempoolTransaction A P H) : TTLIndex A :=
  index.delete (makeKey getExpirationTime t)

/-- The lowest key that is not expired; the zero address is the lowest one. -/
def ttlKey [OrderBot A] (now : ℕ) : TTLOrderingKey A := ⟨now,⊥,0⟩

def gc [OrderBot A] (index : TTLIndex A) (now : ℕ) : List (TTLOrderingKey A) × TTLIndex A :=
  ((index.below (ttlKey now).order).map Prod.fst,index.splitOff (ttlKey now).order)

end TTLIndex

structure TimelineIndex (A : Type) where
  timelineId : ℕ
  timeline : Column (id : ℕ → ℕ) (TxnPointer A)

namespace TimelineIndex

def new : TimelineIndex A := ⟨1,.empty⟩

def insert (index : TimelineIndex A) (t : MempoolTransaction A P H) :
    TimelineIndex A × MempoolTransaction A P H :=
  (⟨index.timelineId + 1,index.timeline.put index.timelineId t.pointer⟩,
    { t with timelineState := .ready index.timelineId })

def remove (index : TimelineIndex A) (t : MempoolTransaction A P H) : TimelineIndex A :=
  match t.timelineState with
  | .ready timelineId => { index with timeline := index.timeline.delete timelineId }
  | .notReady => index
  | .nonQualified => index

end TimelineIndex

def binarySearch (l : List ℕ) (x : ℕ) : Except ℕ ℕ :=
  let i := (l.takeWhile (· < x)).length
  if l[i]? = some x then .ok i else .error i

structure MultiBucketTimelineIndex (A : Type) where
  timelines : ℕ → TimelineIndex A
  bucketMins : List ℕ

namespace MultiBucketTimelineIndex

def new (bucketMins : List ℕ) : MultiBucketTimelineIndex A := ⟨fun _ => .new,bucketMins⟩

def bucketOf (bucketMins : List ℕ) (rankingScore : ℕ) : ℕ :=
  match binarySearch bucketMins rankingScore with
  | .ok i => i
  | .error i => i - 1

def insert (index : MultiBucketTimelineIndex A) (t : MempoolTransaction A P H) :
    MultiBucketTimelineIndex A × MempoolTransaction A P H :=
  let bucket := bucketOf index.bucketMins t.rankingScore
  let (timeline,t) := (index.timelines bucket).insert t
  ({ index with timelines := update index.timelines bucket timeline },t)

def remove (index : MultiBucketTimelineIndex A) (t : MempoolTransaction A P H) :
    MultiBucketTimelineIndex A :=
  let bucket := bucketOf index.bucketMins t.rankingScore
  { index with
    timelines := update index.timelines bucket ((index.timelines bucket).remove t) }

end MultiBucketTimelineIndex

/-- `Vec::swap_remove`. -/
def vecSwapRemove {α : Type} (l : List α) (i : ℕ) : List α :=
  match l.getLast? with
  | some last => (l.set i last).dropLast
  | none => []

abbrev SeqNums := Column (id : ℕ → ℕ) Unit

structure ParkingLotIndex (A : Type) where
  data : List (A × SeqNums)
  accountIndices : A → Option ℕ
  size : ℕ

namespace ParkingLotIndex

def new : ParkingLotIndex A := ⟨[],fun _ => none,0⟩

def insert (index : ParkingLotIndex A) (t : MempoolTransaction A P H) : ParkingLotIndex A :=
  match index.accountIndices t.txn.sender with
  | some i =>
    match index.data[i]? with
    | some (account,seqNums) => { index with
        data := index.data.set i (account,seqNums.put t.txn.sequenceNumber ())
        size := if t.txn.sequenceNumber ∈ seqNums.keys then index.size else index.size + 1 }
    | none => index
  | none =>
    ⟨index.data ++ [(t.txn.sender,Column.empty.put t.txn.sequenceNumber ())],
      update index.accountIndices t.txn.sender (some index.data.length),index.size + 1⟩

def remove (index : ParkingLotIndex A) (t : MempoolTransaction A P H) :
    Except Panic (ParkingLotIndex A) :=
  match index.accountIndices t.txn.sender with
  | none => .ok index
  | some i =>
    match index.data[i]? with
    | none => .ok index
    | some (account,txns) =>
      if t.txn.sequenceNumber ∈ txns.keys ∧ index.size = 0 then .error .sizeUnderflow
      else
        let size := if t.txn.sequenceNumber ∈ txns.keys then index.size - 1 else index.size
        let txns := txns.delete t.txn.sequenceNumber
        if txns.rows.isEmpty then
          -- the account goes, and the last one takes its place
          let data := vecSwapRemove index.data i
          let accountIndices := update index.accountIndices t.txn.sender none
          match data[i]? with
          | some (swapped,_) => .ok ⟨data,update accountIndices swapped (some i),size⟩
          | none => .ok ⟨data,accountIndices,size⟩
        else .ok ⟨index.data.set i (account,txns),index.accountIndices,size⟩

def contains (index : ParkingLotIndex A) (account : A) (seqNum : ℕ) : Bool :=
  ((index.accountIndices account).bind fun i => index.data[i]?).elim false
    fun e => seqNum ∈ e.2.keys

/-- A transaction with the highest number of its account, any of the accounts. -/
def getPoppable (index : ParkingLotIndex A) (rng : ℕ) : Option (TxnPointer A) :=
  (index.data[rng % index.data.length]?).bind fun e => e.2.keys.getLast?.map fun n => (e.1,n)

end ParkingLotIndex

end Ordered

end Arx.Mempool
