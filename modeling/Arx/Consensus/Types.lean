import Arx.Types.LedgerInfo

/-!
# Votes, certificates, timeouts and blocks

The hash functions and the signature schemes are parameters, gathered in `Crypto`. The id of a block
is the hash of its data.
-/

namespace Arx.Consensus
open Movelib Arx.Types

abbrev Author := AccountAddress

/-- How a check ends that does not succeed: with an `anyhow` error or with a panic. -/
inductive Failure
  | error (message : String)
  | panic (message : String)
  deriving DecidableEq

def ensure (p : Prop) [Decidable p] (message : String) : Except Failure Unit :=
  check p (.error message)

structure VoteData where
  proposed : BlockInfo
  parent : BlockInfo
  deriving DecidableEq

structure QuorumCert where
  voteData : VoteData
  signedLedgerInfo : LedgerInfoWithSignatures
  deriving DecidableEq

namespace QuorumCert

variable (qc : QuorumCert)

def certifiedBlock : BlockInfo := qc.voteData.proposed

def parentBlock : BlockInfo := qc.voteData.parent

def commitInfo : BlockInfo := qc.signedLedgerInfo.commitInfo

def endsEpoch : Bool := qc.signedLedgerInfo.ledgerInfo.endsEpoch

end QuorumCert

structure TwoChainTimeout where
  epoch : ℕ
  round : ℕ
  quorumCert : QuorumCert
  deriving DecidableEq

structure TimeoutSigningRepr where
  epoch : ℕ
  round : ℕ
  hqcRound : ℕ
  deriving DecidableEq

namespace TwoChainTimeout

def hqcRound (t : TwoChainTimeout) : ℕ := t.quorumCert.certifiedBlock.round

def signingFormat (t : TwoChainTimeout) : TimeoutSigningRepr := ⟨t.epoch,t.round,t.hqcRound⟩

end TwoChainTimeout

/-- The rounds stand in the order of the set bits of the bitmask. -/
structure AggregateSignatureWithRounds where
  sig : AggregateSignature
  rounds : List ℕ
  deriving DecidableEq

def AggregateSignatureWithRounds.getVotersAndRounds (s : AggregateSignatureWithRounds)
    (addresses : List AccountAddress) : List (AccountAddress × ℕ) :=
  (s.sig.getVoterAddresses addresses).zip s.rounds

structure TwoChainTimeoutCertificate where
  timeout : TwoChainTimeout
  signaturesWithRounds : AggregateSignatureWithRounds
  deriving DecidableEq

namespace TwoChainTimeoutCertificate

variable (tc : TwoChainTimeoutCertificate)

def epoch : ℕ := tc.timeout.epoch

def round : ℕ := tc.timeout.round

def highestHqcRound : ℕ := tc.timeout.hqcRound

end TwoChainTimeoutCertificate

/-- The transactions or the proofs of store are known by their hashes. -/
inductive Payload
  | directMempool (txns : List HashValue)
  | inQuorumStore (proofs : List HashValue)
  deriving DecidableEq

def Payload.isEmpty : Payload → Bool
  | directMempool txns => txns.isEmpty
  | inQuorumStore proofs => proofs.isEmpty

inductive BlockType
  | proposal (payload : Payload) (author : Author) (failedAuthors : List (ℕ × Author))
  /-- Nil blocks have no author and fill a gap in the rounds. -/
  | nilBlock (failedAuthors : List (ℕ × Author))
  | genesis
  deriving DecidableEq

structure BlockData where
  epoch : ℕ
  round : ℕ
  timestampUsecs : ℕ
  quorumCert : QuorumCert
  blockType : BlockType
  deriving DecidableEq

namespace BlockData

variable (b : BlockData)

def author : Option Author :=
  match b.blockType with
  | .proposal _ author _ => some author
  | _ => none

def payload : Option Payload :=
  match b.blockType with
  | .proposal payload _ _ => some payload
  | _ => none

def failedAuthors : Option (List (ℕ × Author)) :=
  match b.blockType with
  | .proposal _ _ failed => some failed
  | .nilBlock failed => some failed
  | .genesis => none

def isGenesisBlock : Bool :=
  match b.blockType with
  | .genesis => true
  | _ => false

def isNilBlock : Bool :=
  match b.blockType with
  | .nilBlock _ => true
  | _ => false

def parentId : HashValue := b.quorumCert.certifiedBlock.id

end BlockData

structure Block where
  blockData : BlockData
  signature : Option Signature
  deriving DecidableEq

/-- A proof that an accumulator extends another one, by its bytes. -/
abbrev AccumulatorExtensionProof := List UInt8

structure VoteProposal where
  accumulatorExtensionProof : AccumulatorExtensionProof
  block : Block
  nextEpochState : Option EpochState
  /-- The executed state is not known yet. -/
  decoupledExecution : Bool
  deriving DecidableEq

structure Vote where
  voteData : VoteData
  author : Author
  ledgerInfo : LedgerInfo
  signature : Signature
  twoChainTimeout : Option (TwoChainTimeout × Signature)
  deriving DecidableEq

def Vote.epoch (v : Vote) : ℕ := v.voteData.proposed.epoch

def Vote.round (v : Vote) : ℕ := v.voteData.proposed.round

structure Crypto where
  ledgerInfos : Scheme LedgerInfo
  timeouts : Scheme TimeoutSigningRepr
  blocks : Scheme BlockData
  publicKey : PrivateKey → PublicKey
  hashVoteData : VoteData → HashValue
  hashBlockData : BlockData → HashValue
  hashWaypoint : Ledger2WaypointConverter → HashValue
  /-- The root hash and the version of the accumulator that extends the one with the given root. -/
  extendAccumulator : AccumulatorExtensionProof → HashValue → Except String (HashValue × ℕ)
  /-- `ACCUMULATOR_PLACEHOLDER_HASH`. -/
  placeholder : HashValue

variable (c : Crypto)

def VoteData.verify (d : VoteData) : Except Failure Unit := do
  ensure (d.parent.epoch = d.proposed.epoch) "Parent and proposed epochs do not match"
  ensure (d.parent.round < d.proposed.round) "Proposed round is less than parent round"
  ensure (d.parent.timestampUsecs ≤ d.proposed.timestampUsecs) "Proposed happened before parent"
  ensure (d.proposed.version = 0 ∨ d.parent.version ≤ d.proposed.version)
    "Proposed version is less than parent version"

/-- The certificate of a genesis block carries no signatures. -/
def QuorumCert.verifyGenesis (qc : QuorumCert) : Except Failure Unit := do
  ensure (qc.parentBlock = qc.certifiedBlock)
    "Genesis QC has inconsistent parent block with certified block"
  ensure (qc.certifiedBlock = qc.commitInfo)
    "Genesis QC has inconsistent commit block with certified block"
  ensure (qc.signedLedgerInfo.signatures.getNumVoters = 0) "Genesis QC should not carry signatures"

def QuorumCert.verify (qc : QuorumCert) (v : ValidatorVerifier) : Except Failure Unit := do
  ensure (qc.signedLedgerInfo.ledgerInfo.consensusDataHash = c.hashVoteData qc.voteData)
    "Quorum Cert's hash mismatch LedgerInfo"
  if qc.certifiedBlock.round = 0 then qc.verifyGenesis
  else do
    (qc.signedLedgerInfo.verifySignatures c.ledgerInfos v).mapError
      fun _ => .error "Fail to verify QuorumCert"
    qc.voteData.verify

def TwoChainTimeout.verify (t : TwoChainTimeout) (v : ValidatorVerifier) :
    Except Failure Unit := do
  ensure (t.hqcRound < t.round) "Timeout round should be larger than the QC round"
  t.quorumCert.verify c v

def TwoChainTimeoutCertificate.messages (tc : TwoChainTimeoutCertificate) (v : ValidatorVerifier) :
    List TimeoutSigningRepr :=
  (tc.signaturesWithRounds.getVotersAndRounds v.getOrderedAccountAddresses).map fun p =>
    ⟨tc.timeout.epoch,tc.timeout.round,p.2⟩

/-- The highest certificate is valid, each voter has signed the timeout with its own round, and the
round of the highest certificate is the greatest of these rounds. -/
def TwoChainTimeoutCertificate.verify (tc : TwoChainTimeoutCertificate) (v : ValidatorVerifier) :
    Except Failure Unit := do
  tc.timeout.verify c v
  (v.verifyAggregateSignatures c.timeouts (tc.messages v) tc.signaturesWithRounds.sig).mapError
    fun e => .error e.display
  let signedHqc ← okOr tc.signaturesWithRounds.rounds.max? (.panic "Empty rounds")
  ensure (tc.timeout.hqcRound = signedHqc)
    s!"Inconsistent hqc round, qc has round {tc.timeout.hqcRound}, highest signed round {signedHqc}"

namespace Block

variable (b : Block)

def id : HashValue := c.hashBlockData b.blockData

def epoch : ℕ := b.blockData.epoch

def round : ℕ := b.blockData.round

def quorumCert : QuorumCert := b.blockData.quorumCert

def genBlockInfo (executedStateId : HashValue) (version : ℕ)
    (nextEpochState : Option EpochState) : BlockInfo :=
  ⟨b.epoch,b.round,b.id c,executedStateId,version,b.blockData.timestampUsecs,nextEpochState⟩

def validateSignature (v : ValidatorVerifier) : Except Failure Unit :=
  match b.blockData.blockType with
  | .genesis => .error (.error "We should not accept genesis from others")
  | .nilBlock _ => b.quorumCert.verify c v
  | .proposal _ author _ => do
    let signature ← okOr b.signature (.error "Missing signature in Proposal")
    (v.verify c.blocks author b.blockData signature).mapError fun e => .error e.display
    b.quorumCert.verify c v

/-- The rounds of the failed authors increase between `bound` and `succRound`. -/
def checkFailedAuthors (succRound : ℕ) : ℕ → List (ℕ × Author) → Except Failure Unit
  | _, [] => .ok ()
  | bound, (round,_) :: rest => do
    ensure (bound < round ∧ round < succRound) "Incorrect round in failed authors"
    checkFailedAuthors succRound round rest

def verifyFailedAuthors (failed : List (ℕ × Author)) : Except Failure Unit := do
  let parent := b.quorumCert.certifiedBlock
  let succRound := b.round + if b.blockData.isNilBlock then 1 else 0
  check (succRound < 2 ^ 64) (.panic "attempt to add with overflow")
  ensure (parent.round + 1 ≤ succRound) "Block round is smaller than block's parent round"
  ensure (failed.length ≤ succRound - (parent.round + 1))
    "Block has more failed authors than missed rounds"
  checkFailedAuthors succRound parent.round failed

/-- Five minutes. -/
def TIMEBOUND : ℕ := 300000000

def verifyTimestamp (now : ℕ) : Except Failure Unit := do
  let parent := b.quorumCert.certifiedBlock
  if b.blockData.isNilBlock ∨ parent.hasReconfiguration then
    ensure (b.blockData.timestampUsecs = parent.timestampUsecs)
      "Nil/reconfig suffix block must have same timestamp as parent"
  else do
    ensure (b.blockData.timestampUsecs > parent.timestampUsecs)
      "Blocks must have strictly increasing timestamps"
    ensure (b.blockData.timestampUsecs ≤ min (now % 2 ^ 64 + TIMEBOUND) (2 ^ 64 - 1))
      "Blocks must not be too far in the future"

def verifyWellFormed (now : ℕ) : Except Failure Unit := do
  ensure (b.blockData.isGenesisBlock = false) "We must not accept genesis from others"
  let parent := b.quorumCert.certifiedBlock
  ensure (parent.round < b.round) "Block must have a greater round than parent's block"
  ensure (parent.epoch = b.epoch) "block's parent should be in the same epoch"
  ensure (parent.hasReconfiguration → ∀ p ∈ b.blockData.payload, p.isEmpty)
    "Reconfiguration suffix should not carry payload"
  b.blockData.failedAuthors.elim (.ok ()) b.verifyFailedAuthors
  b.verifyTimestamp now
  ensure (b.quorumCert.endsEpoch = false) "Block cannot be proposed in an epoch that has ended"

end Block

def QuorumCert.createMergedWithExecutedState (qc : QuorumCert) (executed : LedgerInfoWithSignatures) :
    Except Failure QuorumCert := do
  ensure (qc.commitInfo.matchOrderedOnly executed.commitInfo)
    "Block info from QC and executed LI need to match"
  .ok ⟨qc.voteData,executed⟩

inductive TransactionStatus
  | discard
  | keep
  | retry
  deriving DecidableEq

structure StateComputeResult where
  rootHash : HashValue
  numLeaves : ℕ
  epochState : Option EpochState
  computeStatus : List TransactionStatus
  deriving DecidableEq

namespace StateComputeResult

def version (r : StateComputeResult) : ℕ := max r.numLeaves 1 - 1

def hasReconfiguration (r : StateComputeResult) : Bool := r.epochState.isSome

end StateComputeResult

structure ExecutedBlock where
  block : Block
  stateComputeResult : StateComputeResult
  deriving DecidableEq

namespace ExecutedBlock

variable (b : ExecutedBlock)

def id : HashValue := b.block.id c

def epoch : ℕ := b.block.epoch

def round : ℕ := b.block.round

def quorumCert : QuorumCert := b.block.quorumCert

def parentId : HashValue := b.quorumCert.certifiedBlock.id

def computeResult : StateComputeResult := b.stateComputeResult

def timestampUsecs : ℕ := b.block.blockData.timestampUsecs

def blockInfo : BlockInfo :=
  b.block.genBlockInfo c b.computeResult.rootHash b.computeResult.version b.computeResult.epochState

/-- A block after the one that changes the epoch executes no transactions. -/
def isReconfigurationSuffix : Bool :=
  b.computeResult.hasReconfiguration && b.computeResult.computeStatus.isEmpty

end ExecutedBlock

def VoteProposal.genVoteData (p : VoteProposal) : Except String VoteData :=
  let parent := p.block.quorumCert.certifiedBlock
  if p.decoupledExecution then
    .ok ⟨p.block.genBlockInfo c c.placeholder 0 p.nextEpochState,parent⟩
  else do
    let (rootHash,version) ←
      c.extendAccumulator p.accumulatorExtensionProof parent.executedStateId
    .ok ⟨p.block.genBlockInfo c rootHash version p.nextEpochState,parent⟩

end Arx.Consensus
