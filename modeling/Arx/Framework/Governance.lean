import Arx.Framework.Validator
import Arx.Framework.Voting

/-!
# `arx::governance`

Proposals backed by stake locks. The native check of UTF-8 is a parameter; event handles are left
out.
-/

namespace Arx
open Movelib

namespace Governance

def EINSUFFICIENT_PROPOSER_STAKE : ℕ := 1
def EINSUFFICIENT_STAKE_LOCKUP : ℕ := 2
def EALREADY_VOTED : ℕ := 3
def ENO_VOTING_POWER : ℕ := 4
def EPROPOSAL_NOT_RESOLVABLE_YET : ℕ := 5
def EPROPOSAL_NOT_RESOLVED_YET : ℕ := 6
def EMETADATA_LOCATION_TOO_LONG : ℕ := 7
def EMETADATA_HASH_TOO_LONG : ℕ := 8

def METADATA_LOCATION_KEY : String := "metadata_location"
def METADATA_HASH_KEY : String := "metadata_hash"

/-- `string::EINVALID_UTF8`. -/
def EINVALID_UTF8 : Abort := .code 1

end Governance

open Governance

inductive GovernanceProposal
  | createProposal
  deriving DecidableEq

structure GovernanceConfig where
  minVotingThreshold : ℕ
  requiredProposerStake : ℕ
  votingDurationSecs : ℕ
  deriving DecidableEq

structure RecordKey where
  stakePool : Address
  proposalId : ℕ
  deriving DecidableEq

/-- `signerCaps` are the capabilities of `GovernanceResponsbility`, each named by the account that
it signs for; `votes` are the `VotingRecords` and `hashes` the `ApprovedExecutionHashes`. -/
structure GovernanceState where
  validators : ValidatorStorage
  forum : VotingForum GovernanceProposal
  config : GovernanceConfig
  signerCaps : Option (SimpleMap Address Address)
  votes : RecordKey → Option Bool
  hashes : SimpleMap ℕ Bytes

namespace ValidatorStorage

variable (s : ValidatorStorage)

def getLockupSecs (lockAddress : Address) : Result ℕ := do
  let lock ← s.borrowLock lockAddress
  pure lock.lockedUntilSecs

def getCurrentEpochVotingPower (lockAddress : Address) : Result ℕ := do
  let lock ← s.borrowLock lockAddress
  let status := s.set.getValidatorState lockAddress
  if status = .active ∨ status = .pendingInactive then
    addChecked 64 lock.active lock.pendingInactive
  else pure 0

end ValidatorStorage

namespace GovernanceState

def genesis (validators : ValidatorStorage) (config : GovernanceConfig) : GovernanceState where
  validators
  forum := .register
  config
  signerCaps := none
  votes := fun _ => none
  hashes := .create

variable (s : GovernanceState)

def nowSeconds : ℕ := s.validators.nowSeconds

def signerCapsOrCreate : SimpleMap Address Address := s.signerCaps.getD .create

def storeSignerCap (signerAddress signerCap : Address) : Result GovernanceState := do
  let signerCaps ← s.signerCapsOrCreate.add signerAddress signerCap
  pure { s with signerCaps := some signerCaps }

def getSigner (signerAddress : Address) : Result Address := do
  let signerCaps ← borrowGlobal s.signerCaps
  signerCaps.borrow signerAddress

/-- `get_voting_power`: all stake that is not inactive, or what counts in the epoch where the set
cannot change. -/
def getVotingPower (poolAddress : Address) : Result ℕ :=
  if s.validators.config.allowValidatorSetChange then do
    let lock ← s.validators.borrowLock poolAddress
    let power ← addChecked 64 lock.active lock.pendingActive
    addChecked 64 power lock.pendingInactive
  else s.validators.getCurrentEpochVotingPower poolAddress

variable (utf8 : Bytes → Bool)

def assertText (bytes : Bytes) (tooLong : ℕ) : Result Unit := do
  ensure (utf8 bytes = true) EINVALID_UTF8
  ensure (bytes.length ≤ 256) (Error.invalidArgument tooLong)

def createProposalMetadata (metadataLocation metadataHash : Bytes) :
    Result (SimpleMap String Bytes) := do
  assertText utf8 metadataLocation EMETADATA_LOCATION_TOO_LONG
  assertText utf8 metadataHash EMETADATA_HASH_TOO_LONG
  let metadata ← SimpleMap.create.add METADATA_LOCATION_KEY metadataLocation
  metadata.add METADATA_HASH_KEY metadataHash

/-- `create_proposal_v2`. The proposer is not compared with the accounts of the pool. -/
def createProposalV2 (proposer stakePool : Address)
    (executionHash metadataLocation metadataHash : Bytes) (isMultiStepProposal : Bool) :
    Result GovernanceState := do
  let stakeBalance ← s.getVotingPower stakePool
  ensure (stakeBalance ≥ s.config.requiredProposerStake)
    (Error.invalidArgument EINSUFFICIENT_PROPOSER_STAKE)
  let proposalExpiration ← addChecked 64 s.nowSeconds s.config.votingDurationSecs
  let lockup ← s.validators.getLockupSecs stakePool
  ensure (lockup ≥ proposalExpiration) (Error.invalidArgument EINSUFFICIENT_STAKE_LOCKUP)
  let proposalMetadata ← createProposalMetadata utf8 metadataLocation metadataHash
  -- Half of the supply and one more coin resolve a proposal early.
  let early ← addChecked 128 (s.validators.supply / 2) 1
  let (forum, _) ← s.forum.createProposalV2 s.nowSeconds proposer .createProposal executionHash
    s.config.minVotingThreshold proposalExpiration (some early) proposalMetadata
    isMultiStepProposal
  pure { s with forum }

def createProposal (proposer stakePool : Address)
    (executionHash metadataLocation metadataHash : Bytes) : Result GovernanceState :=
  s.createProposalV2 utf8 proposer stakePool executionHash metadataLocation metadataHash false

def putHash (hashes : SimpleMap ℕ Bytes) (proposalId : ℕ) (executionHash : Bytes) :
    Result (SimpleMap ℕ Bytes) :=
  if hashes.containsKey proposalId then hashes.set proposalId executionHash
  else hashes.add proposalId executionHash

def addApprovedScriptHash (proposalId : ℕ) : Result GovernanceState := do
  let proposalState ← s.forum.getProposalState s.nowSeconds proposalId
  ensure (proposalState = .succeeded) (Error.invalidArgument EPROPOSAL_NOT_RESOLVABLE_YET)
  let executionHash ← s.forum.getExecutionHash proposalId
  let hashes ← putHash s.hashes proposalId executionHash
  pure { s with hashes }

def addApprovedScriptHashScript (proposalId : ℕ) : Result GovernanceState :=
  s.addApprovedScriptHash proposalId

def dropHash (hashes : SimpleMap ℕ Bytes) (proposalId : ℕ) : Result (SimpleMap ℕ Bytes) :=
  if hashes.containsKey proposalId then do
    let (hashes, _) ← hashes.remove proposalId
    pure hashes
  else pure hashes

def removeApprovedHash (proposalId : ℕ) : Result GovernanceState := do
  let isResolved ← s.forum.isResolved proposalId
  ensure (isResolved = true) (Error.invalidArgument EPROPOSAL_NOT_RESOLVED_YET)
  let hashes ← dropHash s.hashes proposalId
  pure { s with hashes }

def recordVote (key : RecordKey) : Result GovernanceState := do
  ensure ((s.votes key).isNone = true) (Error.invalidArgument EALREADY_VOTED)
  pure { s with votes := Function.update s.votes key (some true) }

/-- A proposal that a vote decides is approved at once. -/
def approveIfSucceeded (proposalId : ℕ) : Result GovernanceState := do
  let proposalState ← s.forum.getProposalState s.nowSeconds proposalId
  if proposalState = .succeeded then s.addApprovedScriptHash proposalId else pure s

/-- `vote`. The address of the voter only goes into the event: the comparison with an account of
the pool is commented out. -/
def vote (_voter stakePool : Address) (proposalId : ℕ) (shouldPass : Bool) :
    Result GovernanceState := do
  let s ← s.recordVote ⟨stakePool,proposalId⟩
  let votingPower ← s.getVotingPower stakePool
  ensure (votingPower > 0) (Error.invalidArgument ENO_VOTING_POWER)
  let proposalExpiration ← s.forum.getProposalExpirationSecs proposalId
  let lockup ← s.validators.getLockupSecs stakePool
  ensure (lockup ≥ proposalExpiration) (Error.invalidArgument EINSUFFICIENT_STAKE_LOCKUP)
  let forum ← s.forum.vote s.nowSeconds proposalId votingPower shouldPass
  { s with forum }.approveIfSucceeded proposalId

def resolve (scriptHash : Bytes) (proposalId : ℕ) (signerAddress : Address) :
    Result (GovernanceState × Address) := do
  let (forum, _) ← s.forum.resolve s.nowSeconds proposalId scriptHash
  let s ← { s with forum }.removeApprovedHash proposalId
  let signer ← s.getSigner signerAddress
  pure (s, signer)

def updateHash (proposalId : ℕ) (nextExecutionHash : Bytes) : Result GovernanceState :=
  if nextExecutionHash.length = 0 then s.removeApprovedHash proposalId
  else s.addApprovedScriptHash proposalId

def resolveMultiStepProposal (scriptHash : Bytes) (proposalId : ℕ) (signerAddress : Address)
    (nextExecutionHash : Bytes) : Result (GovernanceState × Address) := do
  let forum ← s.forum.resolveProposalV2 s.nowSeconds proposalId scriptHash nextExecutionHash
  let s ← { s with forum }.updateHash proposalId nextExecutionHash
  let signer ← s.getSigner signerAddress
  pure (s, signer)

end GovernanceState

/-- The calls that reach the module, with the hash of the script that makes them, and those of
the validator module, the clock and the epoch change among them. -/
inductive GovernanceOp
  | storeSignerCap (signerAddress signerCap : Address)
  | updateGovernanceConfig (config : GovernanceConfig)
  | createProposal (proposer stakePool : Address)
      (executionHash metadataLocation metadataHash : Bytes)
  | createProposalV2 (proposer stakePool : Address)
      (executionHash metadataLocation metadataHash : Bytes) (isMultiStepProposal : Bool)
  | vote (voter stakePool : Address) (proposalId : ℕ) (shouldPass : Bool)
  | addApprovedScriptHashScript (proposalId : ℕ)
  | addApprovedScriptHash (proposalId : ℕ)
  | resolve (scriptHash : Bytes) (proposalId : ℕ) (signerAddress : Address)
  | resolveMultiStepProposal (scriptHash : Bytes) (proposalId : ℕ) (signerAddress : Address)
      (nextExecutionHash : Bytes)
  | removeApprovedHash (proposalId : ℕ)
  | validator (o : ValidatorOp)

structure Natives where
  pop : Bytes → Bytes → Bool
  utf8 : Bytes → Bool

def GovernanceState.step (native : Natives) (s : GovernanceState) :
    GovernanceOp → Result GovernanceState
  | .storeSignerCap signerAddress signerCap => s.storeSignerCap signerAddress signerCap
  | .updateGovernanceConfig config => .ok { s with config }
  | .createProposal proposer pool hash location metadataHash =>
    s.createProposal native.utf8 proposer pool hash location metadataHash
  | .createProposalV2 proposer pool hash location metadataHash multi =>
    s.createProposalV2 native.utf8 proposer pool hash location metadataHash multi
  | .vote voter pool id shouldPass => s.vote voter pool id shouldPass
  | .addApprovedScriptHashScript id => s.addApprovedScriptHashScript id
  | .addApprovedScriptHash id => s.addApprovedScriptHash id
  | .resolve scriptHash id signerAddress => do
    let (s, _) ← s.resolve scriptHash id signerAddress
    pure s
  | .resolveMultiStepProposal scriptHash id signerAddress next => do
    let (s, _) ← s.resolveMultiStepProposal scriptHash id signerAddress next
    pure s
  | .removeApprovedHash id => s.removeApprovedHash id
  | .validator o => do
    let validators ← s.validators.step native.pop o
    pure { s with validators }

end Arx
