import Arx.Consensus.Buffer
import Arx.Types.Aggregation

/-!
# The items of the pipeline's buffer

A list of blocks with the proof that they are ordered becomes an executed item, a signed one and an
aggregated one.
-/

namespace Arx.Consensus
open Movelib Arx.Types

structure CommitVote where
  author : Author
  ledgerInfo : LedgerInfo
  signature : Signature
  deriving DecidableEq

structure CommitDecision where
  ledgerInfo : LedgerInfoWithSignatures
  deriving DecidableEq

variable (c : Crypto)

namespace CommitVote

def commitInfo (vote : CommitVote) : BlockInfo := vote.ledgerInfo.commitInfo

def verify (vote : CommitVote) (v : ValidatorVerifier) : Except Failure Unit :=
  (v.verify c.ledgerInfos vote.author vote.ledgerInfo vote.signature).mapError fun _ =>
    .error "Failed to verify Commit Vote"

end CommitVote

def CommitDecision.verify (decision : CommitDecision) (v : ValidatorVerifier) :
    Except Failure Unit :=
  (decision.ledgerInfo.verifySignatures c.ledgerInfos v).mapError fun _ =>
    .error "Failed to verify Commit Decision"

def allowTimestampChange (info : BlockInfo) (timestamp : ℕ) : Bool :=
  info.hasReconfiguration && timestamp ≤ info.timestampUsecs

def changeTimestamp (info : BlockInfo) (timestamp : ℕ) : Except Failure BlockInfo := do
  check (allowTimestampChange info timestamp)
    (.panic "assertion failed: self.allow_timestamp_change(timestamp)")
  .ok { info with timestampUsecs := timestamp }

def generateCommitLedgerInfo (commitInfo : BlockInfo) (orderedProof : LedgerInfoWithSignatures) :
    LedgerInfo := ⟨commitInfo,orderedProof.ledgerInfo.consensusDataHash⟩

def verifySignatures (unverified : PartialSignatures) (v : ValidatorVerifier) (li : LedgerInfo) :
    PartialSignatures :=
  ⟨unverified.signatures.filter fun p => (v.verify c.ledgerInfos p.1 li p.2).isOk⟩

def aggregateCommitProof (li : LedgerInfo) (verified : PartialSignatures) (v : ValidatorVerifier) :
    Except Failure LedgerInfoWithSignatures := do
  let aggregated ← (v.aggregateSignatures c.ledgerInfos verified).mapError fun _ =>
    .panic "Failed to generate aggregated signature"
  .ok ⟨li,aggregated⟩

structure OrderedItem where
  unverifiedSignatures : PartialSignatures
  /-- A commit decision that came before the execution. -/
  commitProof : Option LedgerInfoWithSignatures
  orderedBlocks : List ExecutedBlock
  orderedProof : LedgerInfoWithSignatures
  deriving DecidableEq

structure ExecutedItem where
  executedBlocks : List ExecutedBlock
  partialCommitProof : LedgerInfoWithPartialSignatures
  commitInfo : BlockInfo
  orderedProof : LedgerInfoWithSignatures
  deriving DecidableEq

structure SignedItem where
  executedBlocks : List ExecutedBlock
  partialCommitProof : LedgerInfoWithPartialSignatures
  commitVote : CommitVote
  deriving DecidableEq

structure AggregatedItem where
  executedBlocks : List ExecutedBlock
  commitProof : LedgerInfoWithSignatures
  deriving DecidableEq

inductive BufferItem
  | ordered (i : OrderedItem)
  | executed (i : ExecutedItem)
  | signed (i : SignedItem)
  | aggregated (i : AggregatedItem)
  deriving DecidableEq

def generateExecutedItemFromOrdered (commitInfo : BlockInfo) (executedBlocks : List ExecutedBlock)
    (verified : PartialSignatures) (orderedProof : LedgerInfoWithSignatures) : BufferItem :=
  .executed ⟨executedBlocks,⟨generateCommitLedgerInfo commitInfo orderedProof,verified⟩,commitInfo,
    orderedProof⟩

def reconciledInfo (last : ExecutedBlock) (epochEndTimestamp : Option ℕ) :
    Except Failure BlockInfo :=
  match epochEndTimestamp with
  | none => .ok (last.blockInfo c)
  | some timestamp =>
    if (last.blockInfo c).timestampUsecs ≠ timestamp then do
      check last.isReconfigurationSuffix
        (.panic "assertion failed: executed_blocks.last().unwrap().is_reconfiguration_suffix()")
      changeTimestamp (last.blockInfo c) timestamp
    else .ok (last.blockInfo c)

namespace BufferItem

def newOrdered (orderedBlocks : List ExecutedBlock) (orderedProof : LedgerInfoWithSignatures) :
    BufferItem := .ordered ⟨.empty,none,orderedBlocks,orderedProof⟩

def getBlocks : BufferItem → List ExecutedBlock
  | ordered i => i.orderedBlocks
  | executed i => i.executedBlocks
  | signed i => i.executedBlocks
  | aggregated i => i.executedBlocks

variable (item : BufferItem) (executedBlocks : List ExecutedBlock) (v : ValidatorVerifier)

def blockId : Except Failure HashValue := do
  let last ← unwrap item.getBlocks.getLast?
  .ok (last.id c)

def isOrdered : BufferItem → Bool
  | ordered _ => true
  | _ => false

def isExecuted : BufferItem → Bool
  | executed _ => true
  | _ => false

def isAggregated : BufferItem → Bool
  | aggregated _ => true
  | _ => false

def unwrapExecutedRef : BufferItem → Except Failure ExecutedItem
  | executed i => .ok i
  | _ => .error (.panic "Not executed item")

def unwrapSignedRef : BufferItem → Except Failure SignedItem
  | signed i => .ok i
  | _ => .error (.panic "Not signed item")

def unwrapAggregated : BufferItem → Except Failure AggregatedItem
  | aggregated i => .ok i
  | _ => .error (.panic "Not aggregated item")

def executedOrAggregated (i : OrderedItem) (executedBlocks : List ExecutedBlock)
    (commitInfo : BlockInfo) (v : ValidatorVerifier) : Except Failure BufferItem :=
  let li := generateCommitLedgerInfo commitInfo i.orderedProof
  let verified := verifySignatures c i.unverifiedSignatures v li
  if (v.checkVotingPower verified.signatures.keys).isOk then do
    let proof ← aggregateCommitProof c li verified v
    .ok (.aggregated ⟨executedBlocks,proof⟩)
  else .ok (generateExecutedItemFromOrdered commitInfo executedBlocks verified i.orderedProof)

def advanceToExecutedOrAggregated (epochEndTimestamp : Option ℕ) : Except Failure BufferItem :=
  match item with
  | ordered i => do
    check (∀ p ∈ i.orderedBlocks.zip executedBlocks, p.1.id c = p.2.id c)
      (.panic "assertion failed: b1.id() == b2.id()")
    check (i.orderedBlocks.length = executedBlocks.length)
      (.panic "itertools: .zip_eq() reached end of one iterator before the other")
    let last ← unwrap executedBlocks.getLast?
    let commitInfo ← reconciledInfo c last epochEndTimestamp
    match i.commitProof with
    | some proof => do
      check (proof.commitInfo = commitInfo)
        (.panic "assertion failed: commit_proof.commit_info() == commit_info")
      .ok (.aggregated ⟨executedBlocks,proof⟩)
    | none => executedOrAggregated c i executedBlocks commitInfo v
  | _ => .error (.panic "Only ordered blocks can advance to executed blocks.")

def advanceToSigned (author : Author) (signature : Signature) : Except Failure BufferItem :=
  match item with
  | executed i => .ok (.signed ⟨i.executedBlocks,i.partialCommitProof,
      ⟨author,i.partialCommitProof.ledgerInfo,signature⟩⟩)
  | _ => .error (.panic "Only executed buffer items can advance to signed blocks.")

def tryAdvanceToAggregatedWithLedgerInfo (proof : LedgerInfoWithSignatures) :
    Except Failure BufferItem :=
  match item with
  | signed i => do
    check (i.partialCommitProof.commitInfo = proof.commitInfo)
      (.panic "assertion failed: local_commit_proof.commit_info() == commit_proof.commit_info()")
    .ok (.aggregated ⟨i.executedBlocks,proof⟩)
  | executed i => do
    check (i.commitInfo = proof.commitInfo)
      (.panic "assertion failed: commit_info == commit_proof.commit_info()")
    .ok (.aggregated ⟨i.executedBlocks,proof⟩)
  | ordered i => do
    check (i.orderedProof.commitInfo.matchOrderedOnly proof.commitInfo)
      (.panic "assertion failed: ordered_proof.commit_info().match_ordered_only(..)")
    .ok (.ordered { i with commitProof := some proof })
  | aggregated _ => .error (.panic ("Found aggregated buffer item but any aggregated buffer item " ++
      "should get dequeued right away."))

def aggregateIfQuorum (partialProof : LedgerInfoWithPartialSignatures) (v : ValidatorVerifier) :
    Except Failure BufferItem :=
  if (v.checkVotingPower partialProof.signatures.keys).isOk then do
    let proof ← aggregateCommitProof c partialProof.ledgerInfo partialProof.partialSigs v
    .ok (.aggregated ⟨executedBlocks,proof⟩)
  else .ok item

def tryAdvanceToAggregated : Except Failure BufferItem :=
  match item with
  | signed i => aggregateIfQuorum c item i.executedBlocks i.partialCommitProof v
  | executed i => aggregateIfQuorum c item i.executedBlocks i.partialCommitProof v
  | _ => .ok item

def addSignatureIfMatched (vote : CommitVote) : Option BufferItem :=
  match item with
  | ordered i =>
    -- whether the signature is valid is checked when the item is executed
    if i.orderedProof.commitInfo.matchOrderedOnly vote.commitInfo then
      some (.ordered { i with
        unverifiedSignatures := i.unverifiedSignatures.addSignature vote.author vote.signature })
    else none
  | executed i =>
    if i.commitInfo = vote.commitInfo then
      some (.executed { i with
        partialCommitProof := i.partialCommitProof.addSignature vote.author vote.signature })
    else none
  | signed i =>
    if i.partialCommitProof.commitInfo = vote.commitInfo then
      some (.signed { i with
        partialCommitProof := i.partialCommitProof.addSignature vote.author vote.signature })
    else none
  | aggregated i => if i.commitProof.commitInfo = vote.commitInfo then some item else none

end BufferItem

end Arx.Consensus
