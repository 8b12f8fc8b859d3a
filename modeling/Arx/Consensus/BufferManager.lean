import Arx.Consensus.BufferItem

/-!
# The buffer manager

It holds the ordered blocks until they are committed. A function returns what it sends to the
phases, in order, with the manager after it.
-/

namespace Arx.Consensus
open Movelib Arx.Types

structure BufferManager where
  author : Author
  buffer : Buffer BufferItem
  /-- The first item that is not executed. -/
  executionRoot : Cursor
  /-- The first item that is not signed. -/
  signingRoot : Cursor
  stop : Bool
  verifier : ValidatorVerifier
  /-- The time of the block that has ended the epoch. -/
  endEpochTimestamp : Option ℕ

namespace BufferManager

/-- What the manager sends to the phases and to the other validators. A request that is sent again
after a while is a retry. -/
inductive Action
  | executionRequest (orderedBlocks : List ExecutedBlock) (retry : Bool)
  | signingRequest (orderedLedgerInfo : LedgerInfoWithSignatures) (commitLedgerInfo : LedgerInfo)
      (retry : Bool)
  | persistingRequest (blocks : List ExecutedBlock) (commitLedgerInfo : LedgerInfoWithSignatures)
  | sendCommitVote (vote : CommitVote) (proposer : Author)
  | broadcastCommitVote (vote : CommitVote)
  | broadcastCommitProof (proof : LedgerInfoWithSignatures)
  | sendEpochChange (proof : EpochChangeProof)
  /-- The queue of ordered blocks is purged and the running tasks are waited for. -/
  | purge

inductive Event
  | orderedBlocks (blocks : List ExecutedBlock) (orderedProof : LedgerInfoWithSignatures)
  | resetRequest (stop : Bool)
  | executionResponse (blockId : HashValue) (inner : Except String (List ExecutedBlock))
  | signingResponse (signatureResult : Except String Signature) (commitLedgerInfo : LedgerInfo)
  | commitVote (vote : CommitVote)
  | commitDecision (decision : CommitDecision)
  /-- `rebroadcast` says that the last commit is longer ago than the interval. -/
  | tick (rebroadcast : Bool)

def new (author : Author) (verifier : ValidatorVerifier) : BufferManager :=
  ⟨author,.new,none,none,false,verifier,none⟩

variable (c : Crypto) (m : BufferManager)

def processOrderedBlocks (blocks : List ExecutedBlock) (orderedProof : LedgerInfoWithSignatures) :
    Except Failure (List Action × BufferManager) := do
  let item := BufferItem.newOrdered blocks orderedProof
  let hash ← item.blockId c
  let buffer ← m.buffer.pushBack hash item
  .ok ([],{ m with buffer := buffer })

def executionRequests (cursor root : Cursor) : Except Failure (List Action) :=
  if root.isSome then do
    let item ← m.buffer.get root
    .ok [.executionRequest item.getBlocks (cursor = root)]
  else .ok []

def advanceExecutionRoot : Except Failure (List Action × BufferManager) := do
  let cursor := m.executionRoot
  let root ← m.buffer.findElemFrom (cursor.or m.buffer.head) BufferItem.isOrdered
  let requests ← m.executionRequests cursor root
  .ok (requests,{ m with executionRoot := root })

def signingRequests (cursor root : Cursor) : Except Failure (List Action) :=
  if root.isSome then do
    let item ← m.buffer.get root
    let executed ← item.unwrapExecutedRef
    .ok [.signingRequest executed.orderedProof executed.partialCommitProof.ledgerInfo
      (cursor = root)]
  else .ok []

def advanceSigningRoot : Except Failure (List Action × BufferManager) := do
  let cursor := m.signingRoot
  let root ← m.buffer.findElemFrom (cursor.or m.buffer.head) BufferItem.isExecuted
  let requests ← m.signingRequests cursor root
  .ok (requests,{ m with signingRoot := root })

def advanceExecutionRootIfNone : Except Failure (List Action × BufferManager) :=
  if m.executionRoot.isNone then m.advanceExecutionRoot else .ok ([],m)

def advanceSigningRootIfNone : Except Failure (List Action × BufferManager) :=
  if m.signingRoot.isNone then m.advanceSigningRoot else .ok ([],m)

def reset : BufferManager := { m with buffer := .new, executionRoot := none, signingRoot := none }

def commitHead (blocks : List ExecutedBlock) (item : BufferItem) :
    Except Failure (List Action × BufferManager) := do
  let aggregated ← item.unwrapAggregated
  let last ← unwrap aggregated.executedBlocks.getLast?
  let proof := aggregated.commitProof
  -- the proposer of the block broadcasts the decision
  let broadcast := if last.block.blockData.author = some m.author
    then [Action.broadcastCommitProof proof] else []
  if proof.ledgerInfo.endsEpoch then
    .ok (broadcast ++ [.sendEpochChange ⟨[proof]⟩,.purge,.persistingRequest blocks proof],m.reset)
  else .ok (broadcast ++ [.persistingRequest blocks proof],m)

def popped (buffer : Buffer BufferItem) (id : HashValue) : BufferManager :=
  { m with
    buffer := buffer
    signingRoot := if m.signingRoot = some id then none else m.signingRoot
    executionRoot := if m.executionRoot = some id then none else m.executionRoot }

/-- Items are popped until the target has been; `blocks` are those popped before. -/
def popUntil (target : HashValue) : ℕ → List ExecutedBlock → BufferManager →
    Except Failure (List Action × BufferManager)
  | 0, _, _ => .error (.panic "out of fuel")
  | fuel + 1, blocks, m => do
    let (first,buffer) ← m.buffer.popFront
    match first with
    | none => .error (.panic "Aggregated item not found in the list")
    | some item => do
      let id ← item.blockId c
      if id = target then (m.popped buffer id).commitHead (blocks ++ item.getBlocks) item
      else popUntil target fuel (blocks ++ item.getBlocks) (m.popped buffer id)

def advanceHead (target : HashValue) : Except Failure (List Action × BufferManager) :=
  popUntil c target (m.buffer.map.keys.length + 1) [] m

def processResetRequest (stop : Bool) : List Action × BufferManager :=
  ([.purge],{ m with stop := stop }.reset)

/-- The time of the first block that ends the epoch, once there is one. -/
def updatedEndEpochTimestamp (executedBlocks : List ExecutedBlock) : Option ℕ :=
  m.endEpochTimestamp.or
    ((executedBlocks.find? fun b => (b.blockInfo c).hasReconfiguration).map (·.timestampUsecs))

def executeAt (cursor : Cursor) (blockId : HashValue) (executedBlocks : List ExecutedBlock) :
    Except Failure (List Action × BufferManager) := do
  let _ ← unwrap executedBlocks.getLast?
  let timestamp := m.updatedEndEpochTimestamp c executedBlocks
  let (item,buffer) ← m.buffer.take cursor
  let item ← item.advanceToExecutedOrAggregated c executedBlocks m.verifier timestamp
  let buffer ← buffer.set cursor item
  let m := { m with buffer := buffer, endEpochTimestamp := timestamp }
  if item.isAggregated then m.advanceHead c blockId else .ok ([],m)

def processExecutionResponse (blockId : HashValue) (inner : Except String (List ExecutedBlock)) :
    Except Failure (List Action × BufferManager) := do
  let cursor ← m.buffer.findElemByKey m.executionRoot blockId
  match cursor, inner with
  | none, _ => .ok ([],m)
  | some _, .error _ => .ok ([],m)
  | some key, .ok executedBlocks => m.executeAt c (some key) blockId executedBlocks

def signAt (cursor : Cursor) (signature : Signature) :
    Except Failure (List Action × BufferManager) := do
  let (item,buffer) ← m.buffer.take cursor
  if item.isExecuted then do
    let item ← item.advanceToSigned m.author signature
    let signed ← item.unwrapSignedRef
    let last ← unwrap signed.executedBlocks.getLast?
    let buffer ← buffer.set cursor item
    let send := match last.block.blockData.author with
      | some proposer => Action.sendCommitVote signed.commitVote proposer
      | none => .broadcastCommitVote signed.commitVote
    .ok ([send],{ m with buffer := buffer })
  else do
    let buffer ← buffer.set cursor item
    .ok ([],{ m with buffer := buffer })

def processSigningResponse (signatureResult : Except String Signature)
    (commitLedgerInfo : LedgerInfo) : Except Failure (List Action × BufferManager) :=
  match signatureResult with
  | .error _ => .ok ([],m)
  | .ok signature => do
    let cursor ← m.buffer.findElemByKey m.signingRoot commitLedgerInfo.commitInfo.id
    if cursor.isSome then m.signAt cursor signature else .ok ([],m)

/-- The item at the cursor is changed by a commit message; its id is returned if it is aggregated. -/
def updateAt (key : HashValue) (f : BufferItem → Except Failure BufferItem) :
    Except Failure (Option HashValue × BufferManager) := do
  let (item,buffer) ← m.buffer.take (some key)
  let item ← f item
  let buffer ← buffer.set (some key) item
  .ok (if item.isAggregated then some key else none,{ m with buffer := buffer })

def addVote (vote : CommitVote) (item : BufferItem) : Except Failure BufferItem :=
  match item.addSignatureIfMatched vote with
  | some item => item.tryAdvanceToAggregated c m.verifier
  | none => .ok item

def processCommitVote (vote : CommitVote) : Except Failure (Option HashValue × BufferManager) := do
  let cursor ← m.buffer.findElemByKey m.buffer.head vote.commitInfo.id
  match cursor with
  | none => .ok (none,m)
  | some key => m.updateAt key (m.addVote c vote)

def processCommitDecision (decision : CommitDecision) :
    Except Failure (Option HashValue × BufferManager) := do
  let cursor ← m.buffer.findElemByKey m.buffer.head decision.ledgerInfo.commitInfo.id
  match cursor with
  | none => .ok (none,m)
  | some key => m.updateAt key fun item =>
      item.tryAdvanceToAggregatedWithLedgerInfo decision.ledgerInfo

def rebroadcastFrom : ℕ → Cursor → Except Failure (List Action)
  | _, none => .ok []
  | 0, some _ => .error (.panic "out of fuel")
  | fuel + 1, some key => do
    let item ← m.buffer.get (some key)
    match item with
    | .signed i => do
      let next ← m.buffer.getNext (some key)
      let rest ← rebroadcastFrom fuel next
      .ok (.broadcastCommitVote i.commitVote :: rest)
    | _ => .ok []

def rebroadcastCommitVotesIfNeeded (rebroadcast : Bool) :
    Except Failure (List Action × BufferManager) :=
  if rebroadcast then do
    let votes ← m.rebroadcastFrom m.buffer.map.keys.length m.buffer.head
    .ok (votes,m)
  else .ok ([],m)

/-- What has been sent, also by a manager that has panicked since. -/
abbrev Outcome := List Action × Except Failure BufferManager

def Outcome.andThen (r : Outcome)
    (f : BufferManager → Except Failure (List Action × BufferManager)) : Outcome :=
  match r.2 with
  | .error e => (r.1,.error e)
  | .ok m =>
    match f m with
    | .error e => (r.1,.error e)
    | .ok (sent,m) => (r.1 ++ sent,.ok m)

/-- After a commit message: the head and the roots are advanced if an item has been aggregated. -/
def afterCommitMessage (r : Except Failure (Option HashValue × BufferManager)) : Outcome :=
  match r with
  | .error e => ([],.error e)
  | .ok (none,m) => ([],.ok m)
  | .ok (some target,m) =>
    (Outcome.andThen ([],.ok m) fun m => m.advanceHead c target)
      |>.andThen advanceExecutionRootIfNone
      |>.andThen advanceSigningRootIfNone

/-- One round of the loop of `start`; a manager that is stopped does not take the event. -/
def handle (e : Event) : Outcome :=
  if m.stop then ([],.ok m) else
  match e with
  | .orderedBlocks blocks orderedProof =>
    (Outcome.andThen ([],.ok m) fun m => m.processOrderedBlocks c blocks orderedProof)
      |>.andThen advanceExecutionRootIfNone
  | .resetRequest stop => ((m.processResetRequest stop).1,.ok (m.processResetRequest stop).2)
  | .executionResponse blockId inner =>
    (Outcome.andThen ([],.ok m) fun m => m.processExecutionResponse c blockId inner)
      |>.andThen advanceExecutionRoot
      |>.andThen advanceSigningRootIfNone
  | .signingResponse signatureResult commitLedgerInfo =>
    (Outcome.andThen ([],.ok m) fun m => m.processSigningResponse signatureResult commitLedgerInfo)
      |>.andThen advanceSigningRoot
  | .commitVote vote => afterCommitMessage c (m.processCommitVote c vote)
  | .commitDecision decision => afterCommitMessage c (m.processCommitDecision decision)
  | .tick rebroadcast =>
    Outcome.andThen ([],.ok m) fun m => m.rebroadcastCommitVotesIfNeeded rebroadcast

def step (m : BufferManager) (e : Event) : Except Failure BufferManager := (m.handle c e).2

end BufferManager

end Arx.Consensus
