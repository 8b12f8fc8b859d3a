import Arx.Consensus.Types

/-!
# The safety rules

What is signed is kept in a persistent store. An access to it may fail, and a write that fails may
have taken effect or not: `accesses` says what becomes of the accesses to come.
-/

namespace Arx.Consensus
open Movelib Arx.Types

structure SafetyData where
  epoch : ℕ
  lastVotedRound : ℕ
  /-- The highest 2-chain round. -/
  preferredRound : ℕ
  /-- The highest 1-chain round. -/
  oneChainRound : ℕ
  lastVote : Option Vote
  deriving DecidableEq

inductive StorageError
  | entropyError (message : String)
  | internalError (message : String)
  | keyAlreadyExists (key : String)
  | keyNotSet (key : String)
  | permissionDenied
  | serializationError (message : String)
  | keyVersionNotFound (key version : String)
  deriving DecidableEq

def StorageError.display : StorageError → String
  | entropyError m => s!"Entropy error: {m}"
  | internalError m => s!"Internal error: {m}"
  | keyAlreadyExists k => s!"Key already exists: {k}"
  | keyNotSet k => s!"Key not set: {k}"
  | permissionDenied => "Permission denied"
  | serializationError m => s!"Serialization error: {m}"
  | keyVersionNotFound k v => s!"Key version not found, key name: {k}, version: {v}"

inductive Error
  | incorrectEpoch (epoch expected : ℕ)
  | incorrectRound (round : ℕ)
  | incorrectLastVotedRound (round lastVotedRound : ℕ)
  | incorrectPreferredRound (round preferredRound : ℕ)
  | invalidAccumulatorExtension (message : String)
  | invalidEpochChangeProof (message : String)
  | internalError (message : String)
  | invalidLedgerInfo
  | invalidProposal (message : String)
  | invalidQuorumCertificate (message : String)
  | notInitialized (field : String)
  | secureStorageMissingDataError (message : String)
  | secureStorageUnexpectedError (message : String)
  | serializationError (message : String)
  | validatorKeyNotFound (message : String)
  | validatorNotInSet (author : Author)
  | notSafeToVote (round qcRound tcRound hqcRound : ℕ)
  | notSafeToTimeout (round qcRound tcRound oneChainRound : ℕ)
  | invalidTimeoutCertificate (message : String)
  | waypointOutOfDate (version newVersion epoch newEpoch : ℕ)
  | invalidTimeout (message : String)
  | panic (message : String)
  deriving DecidableEq

namespace Error

/-- `From<arx_secure_storage::Error>`. -/
def ofStorage : StorageError → Error
  | .permissionDenied =>
    .panic "A permission error was thrown: PermissionDenied. Maybe the storage token needs to be renewed?"
  | .keyVersionNotFound k v =>
    secureStorageMissingDataError (StorageError.keyVersionNotFound k v).display
  | .keyNotSet k => secureStorageMissingDataError (StorageError.keyNotSet k).display
  | e => secureStorageUnexpectedError e.display

def ofFailure (kind : String → Error) : Failure → Error
  | .error m => kind m
  | .panic m => .panic m

end Error

inductive Access
  | succeeds
  | fails (e : StorageError)
  /-- A write takes effect and is reported as failed. -/
  | failsWritten (e : StorageError)
  deriving DecidableEq

structure Storage where
  safetyData : SafetyData
  waypoint : Waypoint
  ownerAccount : Author
  consensusKey : PrivateKey
  deriving DecidableEq

structure PersistentSafetyStorage where
  enableCachedSafetyData : Bool
  cachedSafetyData : Option SafetyData
  internalStore : Storage
  deriving DecidableEq

structure ValidatorSigner where
  author : Author
  privateKey : PrivateKey
  deriving DecidableEq

structure SafetyRules where
  persistentStorage : PersistentSafetyStorage
  validatorSigner : Option ValidatorSigner
  epochState : Option EpochState
  /-- All accesses succeed that come after those listed. -/
  accesses : List Access
  deriving DecidableEq

def SafetyData.new (epoch : ℕ) : SafetyData := ⟨epoch,0,0,0,none⟩

namespace PersistentSafetyStorage

def new (store : Storage) (enableCached : Bool) : PersistentSafetyStorage :=
  ⟨enableCached,none,store⟩

def initializeStore (author : Author) (key : PrivateKey) (waypoint : Waypoint)
    (enableCached : Bool) : PersistentSafetyStorage :=
  ⟨enableCached,some (.new 1),⟨.new 1,waypoint,author,key⟩⟩

end PersistentSafetyStorage

abbrev Rules := Effect SafetyRules Error

namespace SafetyRules
open Effect

def new (storage : PersistentSafetyStorage) : SafetyRules := ⟨storage,none,none,[]⟩

def persisted (s : SafetyRules) : SafetyData := s.persistentStorage.internalStore.safetyData

def nextAccess (s : SafetyRules) : Access × SafetyRules :=
  (s.accesses.headD .succeeds,{ s with accesses := s.accesses.tail })

def readStore {α : Type} (field : Storage → α) : Rules α := do
  match ← update nextAccess with
  | .succeeds => inspect fun s => .ok (field s.persistentStorage.internalStore)
  | .fails e => throw (.ofStorage e)
  | .failsWritten e => throw (.ofStorage e)

def writeStore (change : Storage → Storage) : Rules (Option StorageError) := do
  let written : Rules Unit := update fun s => ((),{ s with persistentStorage :=
    { s.persistentStorage with internalStore := change s.persistentStorage.internalStore } })
  match ← update nextAccess with
  | .succeeds => do written; pure none
  | .fails e => pure (some e)
  | .failsWritten e => do written; pure (some e)

def setCache (data : Option SafetyData) : Rules Unit :=
  update fun s => ((),{ s with persistentStorage :=
    { s.persistentStorage with cachedSafetyData := data } })

/-- A record of the wrong type in the store is a read that fails. -/
def safetyData : Rules SafetyData := do
  let storage ← inspect fun s => .ok s.persistentStorage
  if storage.enableCachedSafetyData then
    match storage.cachedSafetyData with
    | some data => pure data
    | none => do
      let data ← readStore (·.safetyData)
      setCache (some data)
      pure data
  else readStore (·.safetyData)

def setSafetyData (data : SafetyData) : Rules Unit := do
  match ← writeStore fun store => { store with safetyData := data } with
  | none => setCache (some data)
  | some e => do
    setCache none
    throw (.secureStorageUnexpectedError e.display)

def setWaypoint (waypoint : Waypoint) : Rules Unit := do
  match ← writeStore fun store => { store with waypoint := waypoint } with
  | none => pure ()
  | some e => throw (.ofStorage e)

def nextRound (round : ℕ) : Except Error ℕ := do
  check (round + 1 < 2 ^ 64) (.incorrectRound round)
  .ok (round + 1)

def signer (s : SafetyRules) : Except Error ValidatorSigner :=
  okOr s.validatorSigner (.notInitialized "validator_signer")

def getEpochState (s : SafetyRules) : Except Error EpochState :=
  okOr s.epochState (.notInitialized "epoch_state")

def sign {M : Type} (S : Scheme M) (message : M) (s : SafetyRules) : Except Error Signature := do
  let signer ← s.signer
  okOr (S.sign signer.privateKey message) (.serializationError "SerializationError")

def verifyEpoch (epoch : ℕ) (data : SafetyData) : Except Error Unit :=
  check (epoch = data.epoch) (.incorrectEpoch epoch data.epoch)

/-- First voting rule. -/
def verifyAndUpdateLastVoteRound (round : ℕ) (data : SafetyData) : Except Error SafetyData := do
  check (data.lastVotedRound < round) (.incorrectLastVotedRound round data.lastVotedRound)
  .ok { data with lastVotedRound := round }

def observeQc (qc : QuorumCert) (data : SafetyData) : SafetyData :=
  { data with
    oneChainRound := max data.oneChainRound qc.certifiedBlock.round
    preferredRound := max data.preferredRound qc.parentBlock.round }

/-- Second voting rule. -/
def verifyAndUpdatePreferredRound (qc : QuorumCert) (data : SafetyData) :
    Except Error SafetyData := do
  check (data.preferredRound ≤ qc.certifiedBlock.round)
    (.incorrectPreferredRound qc.certifiedBlock.round data.preferredRound)
  .ok (observeQc qc data)

variable (c : Crypto)

def verifyQc (qc : QuorumCert) (s : SafetyRules) : Except Error Unit := do
  let epochState ← s.getEpochState
  (qc.verify c epochState.verifier).mapError (.ofFailure .invalidQuorumCertificate)

def verifyTc (tc : TwoChainTimeoutCertificate) (s : SafetyRules) : Except Error Unit := do
  let epochState ← s.getEpochState
  (tc.verify c epochState.verifier).mapError (.ofFailure .invalidTimeoutCertificate)

variable (now : ℕ) (p : VoteProposal) (timeout : TwoChainTimeout)
  (tc : Option TwoChainTimeoutCertificate) (data : SafetyData) (s : SafetyRules)

def verifyMaybeTc : Except Error Unit :=
  match tc with
  | none => .ok ()
  | some tc => verifyTc c tc s

def validateProposal : Except Error VoteData := do
  verifyQc c p.block.quorumCert s
  let epochState ← s.getEpochState
  (p.block.validateSignature c epochState.verifier).mapError (.ofFailure .invalidProposal)
  (p.block.verifyWellFormed now).mapError (.ofFailure .invalidProposal)
  (p.genVoteData c).mapError .invalidAccumulatorExtension

def verifyProposal : Rules VoteData := do
  let data ← safetyData
  inspect fun _ => verifyEpoch p.block.epoch data
  inspect (validateProposal c now p)

def tcRound : ℕ := tc.elim 0 (·.round)

def tcHqcRound : ℕ := tc.elim 0 (·.highestHqcRound)

/-- The round follows that of the certificate of the timeout or that of the timeout certificate,
and the certificate of the timeout is not below the one-chain round. -/
def safeToTimeout : Except Error Unit := do
  let qcRound := timeout.hqcRound
  let afterQc ← nextRound qcRound
  let afterTc ← if timeout.round = afterQc then .ok afterQc else nextRound (tcRound tc)
  check ((timeout.round = afterQc ∨ timeout.round = afterTc) ∧ data.oneChainRound ≤ qcRound)
    (.notSafeToTimeout timeout.round qcRound (tcRound tc) data.oneChainRound)

/-- The round of the block follows that of its certificate, or that of the timeout certificate whose
highest round its certificate reaches. -/
def safeToVote (block : Block) (tc : Option TwoChainTimeoutCertificate) : Except Error Unit := do
  let qcRound := block.quorumCert.certifiedBlock.round
  let afterQc ← nextRound qcRound
  let afterTc ← if block.round = afterQc then .ok afterQc else nextRound (tcRound tc)
  check (block.round = afterQc ∨ block.round = afterTc ∧ tcHqcRound tc ≤ qcRound)
    (.notSafeToVote block.round qcRound (tcRound tc) (tcHqcRound tc))

/-- The ledger info commits the parent if its round is the one before, and else nothing. -/
def constructLedgerInfo2chain (block : Block) (consensusDataHash : HashValue) :
    Except Error LedgerInfo := do
  let block0 := block.quorumCert.certifiedBlock
  let after0 ← nextRound block0.round
  .ok ⟨if after0 = block.round then block0 else .empty,consensusDataHash⟩

def checkTimeout : Except Error Unit := do
  verifyEpoch timeout.epoch data
  let epochState ← s.getEpochState
  (timeout.verify c epochState.verifier).mapError (.ofFailure .invalidTimeout)
  verifyMaybeTc c tc s
  safeToTimeout timeout tc data
  check (data.lastVotedRound ≤ timeout.round)
    (.incorrectLastVotedRound timeout.round data.lastVotedRound)

/-- The round of a timeout is persisted if it is above the last voted round. -/
def recordTimeout : Rules Unit :=
  if timeout.round > data.lastVotedRound then do
    let data ← inspect fun _ => verifyAndUpdateLastVoteRound timeout.round data
    setSafetyData data
  else pure ()

def guardedSignTimeoutWithQc : Rules Signature := do
  let _ ← inspect signer
  let data ← safetyData
  inspect (checkTimeout c timeout tc data)
  recordTimeout timeout data
  inspect (sign c.timeouts timeout.signingFormat)

def constructVote (voteData : VoteData) (data : SafetyData) (s : SafetyRules) :
    Except Error (Vote × SafetyData) := do
  let data ← verifyAndUpdateLastVoteRound p.block.round data
  safeToVote p.block tc
  let data := observeQc p.block.quorumCert data
  let signer ← s.signer
  let ledgerInfo ← constructLedgerInfo2chain p.block (c.hashVoteData voteData)
  let signature ← sign c.ledgerInfos ledgerInfo s
  let vote : Vote := ⟨voteData,signer.author,ledgerInfo,signature,none⟩
  .ok (vote,{ data with lastVote := some vote })

/-- A round that has been voted on gets the previous vote back. -/
def guardedConstructAndSignVoteTwoChain : Rules Vote := do
  let _ ← inspect signer
  let voteData ← verifyProposal c now p
  inspect (verifyMaybeTc c tc)
  let data ← safetyData
  match data.lastVote.filter fun vote => vote.round = p.block.round with
  | some vote => pure vote
  | none => do
    let (vote,data) ← inspect (constructVote c p tc voteData data)
    setSafetyData data
    pure vote

def verifyAuthor (author : Option Author) (s : SafetyRules) : Except Error Unit := do
  let signer ← s.signer
  let author ← okOr author (.invalidProposal "No author found in the proposal")
  check (signer.author = author) (.invalidProposal "Proposal author is not validator signer!")

def checkBlock (block : BlockData) (data : SafetyData) (s : SafetyRules) : Except Error Unit := do
  verifyEpoch block.epoch data
  check (data.lastVotedRound < block.round) (.invalidProposal
    s!"Proposed round {block.round} is not higher than last voted round {data.lastVotedRound}")
  verifyQc c block.quorumCert s
  let _ ← verifyAndUpdatePreferredRound block.quorumCert data
  .ok ()

def guardedSignProposal (block : BlockData) : Rules Signature := do
  let _ ← inspect signer
  inspect (verifyAuthor block.author)
  let data ← safetyData
  inspect (checkBlock c block data)
  inspect (sign c.blocks block)

def consensusKeyForVersion (version : PublicKey) : Rules PrivateKey := do
  let key ← readStore (·.consensusKey)
  inspect fun _ => check (c.publicKey key = version)
    (.secureStorageMissingDataError s!"PrivateKey for {version} not found")
  pure key

def setSigner (signer : Option ValidatorSigner) : Rules Unit :=
  update fun s => ((),{ s with validatorSigner := signer })

def reconcileKey (epochState : EpochState) (author : Author) : Rules Unit := do
  match epochState.verifier.getPublicKey author with
  | none => throw (.validatorNotInSet author)
  | some expected => do
    let current ← inspect fun s => .ok s.validatorSigner
    if current.map (fun signer => c.publicKey signer.privateKey) = some expected then pure ()
    else do
      let key ← tryCatch (consensusKeyForVersion c expected) fun
        | .secureStorageMissingDataError m => throw (.validatorKeyNotFound m)
        | e => throw e
      setSigner (some ⟨author,key⟩)

/-- A later epoch starts with fresh safety data, an earlier one is refused. -/
def enterEpoch (waypoint newWaypoint : Waypoint) (epochState : EpochState) : Rules Unit := do
  let data ← safetyData
  if data.epoch > epochState.epoch then
    throw (.waypointOutOfDate waypoint.version newWaypoint.version data.epoch epochState.epoch)
  else if data.epoch < epochState.epoch then setSafetyData (.new epochState.epoch)
  else pure ()

/-- The waypoint is moved forward only. -/
def updateWaypoint (waypoint newWaypoint : Waypoint) : Rules Unit :=
  if newWaypoint.version > waypoint.version then setWaypoint newWaypoint else pure ()

def guardedInitialize (proof : EpochChangeProof) : Rules Unit := do
  let waypoint ← readStore (·.waypoint)
  let last ← inspect fun _ => (proof.verify c.ledgerInfos c.hashWaypoint (.waypoint waypoint)).mapError
    .invalidEpochChangeProof
  let epochState ← inspect fun _ => okOr last.ledgerInfo.nextEpochState .invalidLedgerInfo
  let newWaypoint ← inspect fun _ =>
    (Waypoint.newEpochBoundary c.hashWaypoint last.ledgerInfo).mapError .internalError
  updateWaypoint waypoint newWaypoint
  enterEpoch waypoint newWaypoint epochState
  update fun s => ((),{ s with epochState := some epochState })
  let author ← readStore (·.ownerAccount)
  tryCatch (reconcileKey c epochState author) fun
    | .panic m => throw (.panic m)
    | e => do
      setSigner none
      throw e

end SafetyRules

end Arx.Consensus
