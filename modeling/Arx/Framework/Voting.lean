import Arx.Framework.Coin
import Arx.Framework.Config
import Arx.Framework.SimpleMap

/-!
# `arx::voting`

A forum of proposals. The time in seconds and the hash of the running script are arguments, and `P`
is the type of what a proposal executes; event handles are left out. The metadata is only ever
described through its lookups, so the order of its entries plays no role.
-/

namespace Arx
open Movelib

namespace Voting

def EPROPOSAL_EXECUTION_HASH_NOT_MATCHING : ℕ := 1
def EPROPOSAL_CANNOT_BE_RESOLVED : ℕ := 2
def EPROPOSAL_ALREADY_RESOLVED : ℕ := 3
def EPROPOSAL_EMPTY_EXECUTION_HASH : ℕ := 4
def EPROPOSAL_VOTING_ALREADY_ENDED : ℕ := 5
def EINVALID_MIN_VOTE_THRESHOLD : ℕ := 7
def ERESOLUTION_CANNOT_BE_ATOMIC : ℕ := 8
def EMULTI_STEP_PROPOSAL_IN_EXECUTION : ℕ := 9
def EMULTI_STEP_PROPOSAL_CANNOT_USE_SINGLE_STEP_RESOLVE_FUNCTION : ℕ := 10
def ESINGLE_STEP_PROPOSAL_CANNOT_HAVE_NEXT_EXECUTION_HASH : ℕ := 11

def RESOLVABLE_TIME_METADATA_KEY : String := "RESOLVABLE_TIME_METADATA_KEY"
def IS_MULTI_STEP_PROPOSAL_KEY : String := "IS_MULTI_STEP_PROPOSAL_KEY"
def IS_MULTI_STEP_PROPOSAL_IN_EXECUTION_KEY : String := "IS_MULTI_STEP_PROPOSAL_IN_EXECUTION"

/-- `option::EOPTION_NOT_SET`, raised by `option::extract`. -/
def EOPTION_NOT_SET : Abort := .code 0x40001

end Voting

open Voting

/-- `PROPOSAL_STATE_*`. -/
inductive ProposalState
  | pending
  | succeeded
  | failed
  deriving DecidableEq

structure Proposal (P : Type) where
  proposer : Address
  executionContent : Option P
  metadata : SimpleMap String Bytes
  creationTimeSecs : ℕ
  executionHash : Bytes
  minVoteThreshold : ℕ
  expirationSecs : ℕ
  earlyResolutionVoteThreshold : Option ℕ
  yesVotes : ℕ
  noVotes : ℕ
  isResolved : Bool
  resolutionTimeSecs : ℕ

structure VotingForum (P : Type) where
  proposals : ℕ → Option (Proposal P)
  nextProposalId : ℕ

variable {P : Type}

/-- The flag that tells the two kinds of proposals apart, and the one that only a proposal with
several steps has. A proposer cannot bring the first along, and the second is dropped. -/
def flagMetadata (metadata : SimpleMap String Bytes) (isMultiStepProposal : Bool) :
    Result (SimpleMap String Bytes) := do
  let metadata ← metadata.add IS_MULTI_STEP_PROPOSAL_KEY (Bcs.ofBool isMultiStepProposal)
  if isMultiStepProposal then
    metadata.add IS_MULTI_STEP_PROPOSAL_IN_EXECUTION_KEY (Bcs.ofBool false)
  else if metadata.containsKey IS_MULTI_STEP_PROPOSAL_IN_EXECUTION_KEY then do
    let (metadata, _) ← metadata.remove IS_MULTI_STEP_PROPOSAL_IN_EXECUTION_KEY
    pure metadata
  else pure metadata

def putMetadata (metadata : SimpleMap String Bytes) (key : String) (value : Bytes) :
    Result (SimpleMap String Bytes) :=
  if metadata.containsKey key then metadata.set key value else metadata.add key value

namespace Proposal

variable (p : Proposal P) (now : ℕ)

/-- The last second of the voting period still belongs to it. -/
def isVotingPeriodOver : Bool := decide (now > p.expirationSecs)

def canBeResolvedEarly : Bool :=
  match p.earlyResolutionVoteThreshold with
  | some threshold => decide (p.yesVotes ≥ threshold ∨ p.noVotes ≥ threshold)
  | none => false

def isVotingClosed : Bool := p.canBeResolvedEarly || p.isVotingPeriodOver now

/-- More votes for the proposal than against it, and enough of them. The sum is only taken once
the first comparison holds. -/
def passed : Result Bool :=
  if p.yesVotes > p.noVotes then do
    let total ← addChecked 128 p.yesVotes p.noVotes
    pure (decide (total ≥ p.minVoteThreshold))
  else pure false

def getProposalState : Result ProposalState :=
  if p.isVotingClosed now then do
    let passed ← p.passed
    pure (if passed then .succeeded else .failed)
  else pure .pending

/-- The flag at the second key, where there is one. -/
def notInExecution : Result Bool :=
  if p.metadata.containsKey IS_MULTI_STEP_PROPOSAL_IN_EXECUTION_KEY then do
    let value ← p.metadata.borrow IS_MULTI_STEP_PROPOSAL_IN_EXECUTION_KEY
    pure (decide (value = Bcs.ofBool false))
  else pure true

def isMultiStep : Result Bool :=
  if p.metadata.containsKey IS_MULTI_STEP_PROPOSAL_KEY then do
    let value ← p.metadata.borrow IS_MULTI_STEP_PROPOSAL_KEY
    FromBcs.toBool value
  else pure false

def addVotes (numVotes : ℕ) (shouldPass : Bool) : Result (Proposal P) :=
  if shouldPass then do
    let yesVotes ← addChecked 128 p.yesVotes numVotes
    pure { p with yesVotes }
  else do
    let noVotes ← addChecked 128 p.noVotes numVotes
    pure { p with noVotes }

def vote (numVotes : ℕ) (shouldPass : Bool) : Result (Proposal P) := do
  ensure (p.isVotingPeriodOver now = false) (Error.invalidState EPROPOSAL_VOTING_ALREADY_ENDED)
  ensure (p.isResolved = false) (Error.invalidState EPROPOSAL_ALREADY_RESOLVED)
  let notInExecution ← p.notInExecution
  ensure (notInExecution = true) (Error.invalidState EMULTI_STEP_PROPOSAL_IN_EXECUTION)
  let p ← p.addVotes numVotes shouldPass
  let metadata ← putMetadata p.metadata RESOLVABLE_TIME_METADATA_KEY (Bcs.ofU64 now)
  pure { p with metadata }

/-- `is_proposal_resolvable`, which asserts rather than answers. -/
def isProposalResolvable (scriptHash : Bytes) : Result Unit := do
  let proposalState ← p.getProposalState now
  ensure (proposalState = .succeeded) (Error.invalidState EPROPOSAL_CANNOT_BE_RESOLVED)
  ensure (p.isResolved = false) (Error.invalidState EPROPOSAL_ALREADY_RESOLVED)
  let value ← p.metadata.borrow RESOLVABLE_TIME_METADATA_KEY
  let resolvableTime ← FromBcs.toU64 value
  ensure (now > resolvableTime) (Error.invalidState ERESOLUTION_CANNOT_BE_ATOMIC)
  ensure (scriptHash = p.executionHash)
    (Error.invalidArgument EPROPOSAL_EXECUTION_HASH_NOT_MATCHING)

def extractContent : Result (Proposal P × P) :=
  match p.executionContent with
  | some content => .ok ({ p with executionContent := none }, content)
  | none => .error EOPTION_NOT_SET

def resolve (scriptHash : Bytes) : Result (Proposal P × P) := do
  p.isProposalResolvable now scriptHash
  let isMultiStepProposal ← p.isMultiStep
  ensure (isMultiStepProposal = false)
    (Error.permissionDenied EMULTI_STEP_PROPOSAL_CANNOT_USE_SINGLE_STEP_RESOLVE_FUNCTION)
  { p with isResolved := true, resolutionTimeSecs := now }.extractContent

def startExecution : Result (SimpleMap String Bytes) :=
  if p.metadata.containsKey IS_MULTI_STEP_PROPOSAL_IN_EXECUTION_KEY then
    p.metadata.set IS_MULTI_STEP_PROPOSAL_IN_EXECUTION_KEY (Bcs.ofBool true)
  else pure p.metadata

def finish (isMultiStep : Bool) : Result (Proposal P) :=
  let p := { p with isResolved := true, resolutionTimeSecs := now }
  if isMultiStep then do
    let metadata ← p.metadata.set IS_MULTI_STEP_PROPOSAL_IN_EXECUTION_KEY (Bcs.ofBool false)
    pure { p with metadata }
  else pure p

/-- `resolve_proposal_v2`: an empty hash says that the current step is the last one. -/
def resolveProposalV2 (scriptHash nextExecutionHash : Bytes) : Result (Proposal P) := do
  p.isProposalResolvable now scriptHash
  let metadata ← p.startExecution
  let p := { p with metadata }
  let isMultiStep ← p.isMultiStep
  ensure (isMultiStep = true ∨ nextExecutionHash = [])
    (Error.invalidArgument ESINGLE_STEP_PROPOSAL_CANNOT_HAVE_NEXT_EXECUTION_HASH)
  if nextExecutionHash = [] then p.finish now isMultiStep
  else pure { p with executionHash := nextExecutionHash }

end Proposal

namespace VotingForum

def register : VotingForum P := ⟨fun _ => none,0⟩

variable (f : VotingForum P) (now id : ℕ)

def borrow : Result (Proposal P) := borrowGlobal (f.proposals id)

def put (p : Proposal P) : VotingForum P :=
  { f with proposals := Function.update f.proposals id (some p) }

def assertThreshold (minVoteThreshold : ℕ) (early : Option ℕ) : Result Unit :=
  match early with
  | some threshold =>
    ensure (minVoteThreshold ≤ threshold) (Error.invalidArgument EINVALID_MIN_VOTE_THRESHOLD)
  | none => .ok ()

def createProposalV2 (proposer : Address) (executionContent : P) (executionHash : Bytes)
    (minVoteThreshold expirationSecs : ℕ) (earlyResolutionVoteThreshold : Option ℕ)
    (metadata : SimpleMap String Bytes) (isMultiStepProposal : Bool) :
    Result (VotingForum P × ℕ) := do
  assertThreshold minVoteThreshold earlyResolutionVoteThreshold
  ensure (executionHash.length > 0) (Error.invalidArgument EPROPOSAL_EMPTY_EXECUTION_HASH)
  let proposalId := f.nextProposalId
  let nextProposalId ← addChecked 64 f.nextProposalId 1
  let metadata ← flagMetadata metadata isMultiStepProposal
  -- `table::add`
  ensure ((f.proposals proposalId).isNone = true) .resourceAlreadyExists
  pure ({ f with nextProposalId }.put proposalId {
    proposer
    executionContent := some executionContent
    metadata
    creationTimeSecs := now
    executionHash
    minVoteThreshold
    expirationSecs
    earlyResolutionVoteThreshold
    yesVotes := 0
    noVotes := 0
    isResolved := false
    resolutionTimeSecs := 0 }, proposalId)

def createProposal (proposer : Address) (executionContent : P) (executionHash : Bytes)
    (minVoteThreshold expirationSecs : ℕ) (earlyResolutionVoteThreshold : Option ℕ)
    (metadata : SimpleMap String Bytes) : Result (VotingForum P × ℕ) :=
  f.createProposalV2 now proposer executionContent executionHash minVoteThreshold expirationSecs
    earlyResolutionVoteThreshold metadata false

def vote (numVotes : ℕ) (shouldPass : Bool) : Result (VotingForum P) := do
  let p ← f.borrow id
  let p ← p.vote now numVotes shouldPass
  pure (f.put id p)

def resolve (scriptHash : Bytes) : Result (VotingForum P × P) := do
  let p ← f.borrow id
  let (p, content) ← p.resolve now scriptHash
  pure (f.put id p, content)

def resolveProposalV2 (scriptHash nextExecutionHash : Bytes) : Result (VotingForum P) := do
  let p ← f.borrow id
  let p ← p.resolveProposalV2 now scriptHash nextExecutionHash
  pure (f.put id p)

def getProposalState : Result ProposalState := do
  let p ← f.borrow id
  p.getProposalState now

def getProposalExpirationSecs : Result ℕ := do
  let p ← f.borrow id
  pure p.expirationSecs

def getExecutionHash : Result Bytes := do
  let p ← f.borrow id
  pure p.executionHash

def isResolved : Result Bool := do
  let p ← f.borrow id
  pure p.isResolved

end VotingForum

open Function Option SimpleMap

variable {shouldPass : Bool} {numVotes : ℕ}

section Metadata

variable {metadata metadata' : SimpleMap String Bytes}

theorem flagMetadata_ok {isMultiStepProposal : Bool}
    (h : flagMetadata metadata isMultiStepProposal = .ok metadata') :
    metadata'.lookup IS_MULTI_STEP_PROPOSAL_KEY = some (Bcs.ofBool isMultiStepProposal) ∧
      metadata'.lookup IS_MULTI_STEP_PROPOSAL_IN_EXECUTION_KEY =
        if isMultiStepProposal then some (Bcs.ofBool false) else none := by
  have hne : IS_MULTI_STEP_PROPOSAL_KEY ≠ IS_MULTI_STEP_PROPOSAL_IN_EXECUTION_KEY := by decide
  obtain ⟨m,hm,h⟩ := bind_eq_ok.mp h
  obtain ⟨-,hlook⟩ := add_ok hm
  have hmulti : m.lookup IS_MULTI_STEP_PROPOSAL_KEY = some (Bcs.ofBool isMultiStepProposal) := by
    rw [hlook,update_self]
  split at h
  · next hb =>
    obtain ⟨-,hadd⟩ := add_ok h
    rw [hadd,update_of_ne hne,update_self,if_pos hb]
    exact ⟨hmulti,rfl⟩
  · next hb =>
    rw [if_neg hb]
    split at h
    · obtain ⟨⟨m',e⟩,hrem,⟨⟩⟩ := bind_eq_ok.mp h
      obtain ⟨-,hrem⟩ := remove_ok hrem
      rw [hrem,update_of_ne hne]
      exact ⟨hmulti,rfl⟩
    · next hno =>
      rw [pure_eq_ok] at h
      subst h
      rw [containsKey_eq,Bool.not_eq_true,isSome_eq_false_iff,
        isNone_iff_eq_none] at hno
      exact ⟨hmulti,hno⟩

theorem putMetadata_ok {key : String} {value : Bytes}
    (h : putMetadata metadata key value = .ok metadata') :
    metadata'.lookup = update metadata.lookup key (some value) := by
  rw [putMetadata] at h
  split at h
  · exact (set_ok h).2
  · exact (add_ok h).2

theorem putMetadata_isOk (metadata : SimpleMap String Bytes) (key : String) (value : Bytes) :
    ∃ metadata', putMetadata metadata key value = .ok metadata' := by
  rw [putMetadata,containsKey_eq]
  split
  · next h => exact set_isOk h
  · next h => exact add_isOk (by simpa using h)

end Metadata

namespace Proposal

variable {p p' : Proposal P} {now : ℕ} {scriptHash : Bytes}

theorem passed_eq_ok :
    p.passed = .ok true ↔
      p.noVotes < p.yesVotes ∧ p.yesVotes + p.noVotes < 2 ^ 128 ∧
        p.minVoteThreshold ≤ p.yesVotes + p.noVotes := by
  rw [passed]
  split
  · next hlt =>
    simp only [bind_eq_ok,addChecked_eq_ok,pure_eq_ok,decide_eq_true_eq]
    constructor
    · rintro ⟨_,⟨hb,rfl⟩,hmin⟩
      exact ⟨hlt,hb,hmin⟩
    · rintro ⟨-,hb,hmin⟩
      exact ⟨_,⟨hb,rfl⟩,hmin⟩
  · next hlt => simp [hlt]

theorem getProposalState_isOk :
    (∃ state, p.getProposalState now = .ok state) ↔
      (p.isVotingClosed now = true → p.noVotes < p.yesVotes →
        p.yesVotes + p.noVotes < 2 ^ 128) := by
  rw [getProposalState]
  split
  · next hclosed =>
    simp only [bind_eq_ok,pure_eq_ok,hclosed,true_imp_iff]
    rw [passed]
    split
    · next hlt =>
      simp only [bind_eq_ok,addChecked_eq_ok,pure_eq_ok]
      constructor
      · rintro ⟨_,_,⟨_,⟨hsum,rfl⟩,_⟩,_⟩ _
        exact hsum
      · intro h
        exact ⟨_,_,⟨_,⟨h hlt,rfl⟩,rfl⟩,rfl⟩
    · next hlt => exact ⟨fun _ h => absurd h hlt,fun _ => ⟨_,_,rfl,rfl⟩⟩
  · next hopen => exact ⟨fun _ h => absurd h hopen,fun _ => ⟨_,rfl⟩⟩

theorem getProposalState_eq_succeeded :
    p.getProposalState now = .ok .succeeded ↔
      p.isVotingClosed now = true ∧ p.passed = .ok true := by
  rw [getProposalState]
  split
  · next hclosed =>
    simp only [bind_eq_ok,pure_eq_ok,hclosed,true_and]
    constructor
    · rintro ⟨b,hb,hs⟩
      cases b with
      | true => exact hb
      | false => cases hs
    · intro h
      exact ⟨true,h,rfl⟩
  · next hopen => simp [hopen]

theorem notInExecution_eq_ok :
    p.notInExecution = .ok true ↔
      ∀ v, p.metadata.lookup IS_MULTI_STEP_PROPOSAL_IN_EXECUTION_KEY = some v →
        v = Bcs.ofBool false := by
  rw [notInExecution]
  cases hl : p.metadata.lookup IS_MULTI_STEP_PROPOSAL_IN_EXECUTION_KEY with
  | none => simp [hl]
  | some v => simp [hl]

theorem isMultiStep_eq_ok :
    p.isMultiStep = .ok true ↔ ∃ v, p.metadata.lookup IS_MULTI_STEP_PROPOSAL_KEY = some v ∧
      FromBcs.toBool v = .ok true := by
  rw [isMultiStep]
  cases hl : p.metadata.lookup IS_MULTI_STEP_PROPOSAL_KEY with
  | none => simp [hl]
  | some v => simp [hl,bind_eq_ok]

theorem addVotes_eq_ok :
    p.addVotes numVotes shouldPass = .ok p' ↔
      (if shouldPass then p.yesVotes + numVotes else p.noVotes + numVotes) < 2 ^ 128 ∧
        p' = { p with
          yesVotes := p.yesVotes + if shouldPass then numVotes else 0
          noVotes := p.noVotes + if shouldPass then 0 else numVotes } := by
  cases shouldPass <;>
  · simp only [addVotes,if_true,Bool.false_eq_true,if_false,bind_eq_ok,addChecked_eq_ok,
      pure_eq_ok,Nat.add_zero]
    constructor
    · rintro ⟨_,⟨hlt,rfl⟩,rfl⟩
      exact ⟨hlt,rfl⟩
    · rintro ⟨hlt,rfl⟩
      exact ⟨_,⟨hlt,rfl⟩,rfl⟩

theorem vote_ok (h : p.vote now numVotes shouldPass = .ok p') :
    now ≤ p.expirationSecs ∧ p.isResolved = false ∧ p.notInExecution = .ok true ∧
      (if shouldPass then p.yesVotes + numVotes else p.noVotes + numVotes) < 2 ^ 128 ∧
      ∃ metadata : SimpleMap String Bytes,
        metadata.lookup = update p.metadata.lookup RESOLVABLE_TIME_METADATA_KEY
          (some (Bcs.ofU64 now)) ∧
        p' = { p with
          yesVotes := p.yesVotes + if shouldPass then numVotes else 0
          noVotes := p.noVotes + if shouldPass then 0 else numVotes
          metadata } := by
  simp only [vote,bind_eq_ok,ensure_eq_ok,pure_eq_ok] at h
  obtain ⟨_,hover,_,hres,_,hexec,_,rfl,q,hq,metadata,hm,rfl⟩ := h
  obtain ⟨hfit,rfl⟩ := addVotes_eq_ok.mp hq
  have hnow : now ≤ p.expirationSecs := by simpa [isVotingPeriodOver] using hover
  exact ⟨hnow,hres,hexec,hfit,metadata,putMetadata_ok hm,rfl⟩

theorem vote_isOk (hnow : now ≤ p.expirationSecs) (hres : p.isResolved = false)
    (hexec : p.notInExecution = .ok true)
    (hfit : (if shouldPass then p.yesVotes + numVotes else p.noVotes + numVotes) < 2 ^ 128) :
    ∃ p', p.vote now numVotes shouldPass = .ok p' := by
  have hover : p.isVotingPeriodOver now = false := by simpa [isVotingPeriodOver] using hnow
  have hadd := addVotes_eq_ok.mpr ⟨hfit,rfl⟩
  obtain ⟨metadata,hm⟩ := putMetadata_isOk p.metadata RESOLVABLE_TIME_METADATA_KEY (Bcs.ofU64 now)
  simp only [vote,bind_eq_ok,ensure_eq_ok,pure_eq_ok]
  exact ⟨_,(),hover,(),hres,true,hexec,(),rfl,_,hadd,metadata,hm,rfl⟩

structure Resolvable (p : Proposal P) (now : ℕ) (scriptHash : Bytes) : Prop where
  closed : p.isVotingClosed now = true
  passed : p.passed = .ok true
  unresolved : p.isResolved = false
  laterThan : ∃ value time, p.metadata.lookup RESOLVABLE_TIME_METADATA_KEY = some value ∧
    FromBcs.toU64 value = .ok time ∧ time < now
  script : scriptHash = p.executionHash

theorem isProposalResolvable_ok (h : p.isProposalResolvable now scriptHash = .ok ()) :
    p.Resolvable now scriptHash := by
  simp only [isProposalResolvable,bind_eq_ok,ensure_eq_ok,borrow_eq_ok] at h
  obtain ⟨_,hstate,_,rfl,_,hres,value,hv,time,ht,_,hlt,hs⟩ := h
  obtain ⟨hclosed,hpassed⟩ := getProposalState_eq_succeeded.mp hstate
  exact ⟨hclosed,hpassed,hres,⟨value,time,hv,ht,hlt⟩,hs⟩

theorem resolve_ok {content : P} (h : p.resolve now scriptHash = .ok (p', content)) :
    p.Resolvable now scriptHash ∧ p.executionContent = some content ∧
      p' = { p with isResolved := true, resolutionTimeSecs := now, executionContent := none } := by
  simp only [resolve,bind_eq_ok,ensure_eq_ok] at h
  obtain ⟨_,hr,_,-,_,-,h⟩ := h
  rw [extractContent] at h
  split at h
  · next c hc =>
    cases h
    exact ⟨isProposalResolvable_ok hr,hc,rfl⟩
  · cases h

theorem startExecution_ok {metadata : SimpleMap String Bytes}
    (h : p.startExecution = .ok metadata) :
    metadata.lookup = update p.metadata.lookup IS_MULTI_STEP_PROPOSAL_IN_EXECUTION_KEY
      ((p.metadata.lookup IS_MULTI_STEP_PROPOSAL_IN_EXECUTION_KEY).map
        fun _ => Bcs.ofBool true) := by
  rw [startExecution] at h
  split at h
  · next hc =>
    obtain ⟨-,hset⟩ := set_ok h
    rw [containsKey_eq] at hc
    obtain ⟨v,hv⟩ := isSome_iff_exists.mp hc
    rw [hset,hv]
    rfl
  · next hc =>
    rw [pure_eq_ok] at h
    subst h
    rw [containsKey_eq,Bool.not_eq_true,isSome_eq_false_iff,
      isNone_iff_eq_none] at hc
    rw [hc,map_none,← hc,update_eq_self]

theorem finish_ok {isMultiStep : Bool} (h : p.finish now isMultiStep = .ok p') :
    ∃ metadata : SimpleMap String Bytes,
      (∀ key, key ≠ IS_MULTI_STEP_PROPOSAL_IN_EXECUTION_KEY →
        metadata.lookup key = p.metadata.lookup key) ∧
      p' = { p with isResolved := true, resolutionTimeSecs := now, metadata } := by
  cases isMultiStep with
  | false =>
    cases h
    exact ⟨p.metadata,fun _ _ => rfl,rfl⟩
  | true =>
    obtain ⟨metadata,hset,⟨⟩⟩ := bind_eq_ok.mp h
    obtain ⟨-,hset⟩ := set_ok hset
    exact ⟨metadata,fun key hkey => by rw [hset,update_of_ne hkey],rfl⟩

theorem resolveProposalV2_ok {nextExecutionHash : Bytes}
    (h : p.resolveProposalV2 now scriptHash nextExecutionHash = .ok p') :
    p.Resolvable now scriptHash ∧ ∃ metadata : SimpleMap String Bytes,
      (∀ key, key ≠ IS_MULTI_STEP_PROPOSAL_IN_EXECUTION_KEY →
        metadata.lookup key = p.metadata.lookup key) ∧
      ((nextExecutionHash = [] ∧
          p' = { p with isResolved := true, resolutionTimeSecs := now, metadata }) ∨
        (nextExecutionHash ≠ [] ∧ p.isMultiStep = .ok true ∧
          metadata.lookup IS_MULTI_STEP_PROPOSAL_IN_EXECUTION_KEY =
            (p.metadata.lookup IS_MULTI_STEP_PROPOSAL_IN_EXECUTION_KEY).map
              (fun _ => Bcs.ofBool true) ∧
          p' = { p with executionHash := nextExecutionHash, metadata })) := by
  have hne : IS_MULTI_STEP_PROPOSAL_KEY ≠ IS_MULTI_STEP_PROPOSAL_IN_EXECUTION_KEY := by decide
  simp only [resolveProposalV2,bind_eq_ok,ensure_eq_ok] at h
  obtain ⟨_,hr,metadata,hm,multi,hmulti,_,hnext,h⟩ := h
  refine ⟨isProposalResolvable_ok hr,?_⟩
  have hlook := startExecution_ok hm
  have hkeys : ∀ key, key ≠ IS_MULTI_STEP_PROPOSAL_IN_EXECUTION_KEY →
      metadata.lookup key = p.metadata.lookup key := by
    intro key hkey
    rw [hlook,update_of_ne hkey]
  split at h
  · next hempty =>
    obtain ⟨metadata',hkeys',rfl⟩ := finish_ok h
    exact ⟨metadata',fun key hkey => (hkeys' key hkey).trans (hkeys key hkey),.inl ⟨hempty,rfl⟩⟩
  · next hempty =>
    rw [pure_eq_ok] at h
    subst h
    obtain rfl : multi = true := hnext.resolve_right hempty
    -- The first flag is read after the second was written, which does not touch it.
    have hstill : p.isMultiStep = .ok true := by
      rw [isMultiStep_eq_ok] at hmulti ⊢
      rwa [hkeys _ hne] at hmulti
    exact ⟨metadata,hkeys,.inr ⟨hempty,hstill,by rw [hlook,update_self],rfl⟩⟩

end Proposal

namespace VotingForum

variable {f : VotingForum P} {id i : ℕ} {p : Proposal P}

@[simp] theorem put_self : (f.put id p).proposals id = some p := update_self ..

theorem put_of_ne (h : i ≠ id) : (f.put id p).proposals i = f.proposals i :=
  update_of_ne h ..

end VotingForum

end Arx
