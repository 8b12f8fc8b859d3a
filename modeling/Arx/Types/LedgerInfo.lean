import Arx.Types.ValidatorVerifier

/-!
# Ledger infos and proofs of epoch changes
-/

namespace Arx.Types
open Movelib

structure EpochState where
  epoch : ℕ
  verifier : ValidatorVerifier
  deriving DecidableEq

structure BlockInfo where
  epoch : ℕ
  round : ℕ
  id : HashValue
  executedStateId : HashValue
  version : ℕ
  timestampUsecs : ℕ
  nextEpochState : Option EpochState
  deriving DecidableEq

def HashValue.zero : HashValue := 0

namespace BlockInfo

def empty : BlockInfo := ⟨0,0,HashValue.zero,HashValue.zero,0,0,none⟩

def hasReconfiguration (b : BlockInfo) : Bool := b.nextEpochState.isSome

/-- The values that do not change with the execution are those of `executed`. -/
def matchOrderedOnly (b executed : BlockInfo) : Bool :=
  b.epoch = executed.epoch ∧ b.round = executed.round ∧ b.id = executed.id ∧
    (b.timestampUsecs = executed.timestampUsecs ∨
      -- a reconfiguration suffix has changed its timestamp
      b.timestampUsecs > executed.timestampUsecs ∧ executed.hasReconfiguration)

end BlockInfo

structure LedgerInfo where
  commitInfo : BlockInfo
  consensusDataHash : HashValue
  deriving DecidableEq

namespace LedgerInfo

def epoch (li : LedgerInfo) : ℕ := li.commitInfo.epoch

def version (li : LedgerInfo) : ℕ := li.commitInfo.version

def nextEpochState (li : LedgerInfo) : Option EpochState := li.commitInfo.nextEpochState

def endsEpoch (li : LedgerInfo) : Bool := li.nextEpochState.isSome

end LedgerInfo

structure LedgerInfoWithSignatures where
  ledgerInfo : LedgerInfo
  signatures : AggregateSignature
  deriving DecidableEq

namespace LedgerInfoWithSignatures

def commitInfo (li : LedgerInfoWithSignatures) : BlockInfo := li.ledgerInfo.commitInfo

def verifySignatures (S : Scheme LedgerInfo) (li : LedgerInfoWithSignatures)
    (v : ValidatorVerifier) : Except VerifyError Unit :=
  v.verifyMultiSignatures S li.ledgerInfo li.signatures

end LedgerInfoWithSignatures

structure Waypoint where
  version : ℕ
  value : HashValue
  deriving DecidableEq

structure Ledger2WaypointConverter where
  epoch : ℕ
  rootHash : HashValue
  version : ℕ
  timestampUsecs : ℕ
  nextEpochState : Option EpochState
  deriving DecidableEq

def Ledger2WaypointConverter.new (li : LedgerInfo) : Ledger2WaypointConverter :=
  ⟨li.commitInfo.epoch,li.commitInfo.executedStateId,li.commitInfo.version,
    li.commitInfo.timestampUsecs,li.commitInfo.nextEpochState⟩

def HashValue.toHex (h : HashValue) : String :=
  let digits := Nat.toDigits 16 h
  String.ofList (List.replicate (64 - digits.length) '0' ++ digits)

/-- How a hash is displayed: its first four bytes. -/
def HashValue.display (h : HashValue) : String := String.ofList ((HashValue.toHex h).toList.take 8)

namespace Waypoint

variable (hash : Ledger2WaypointConverter → HashValue)

def newAny (li : LedgerInfo) : Waypoint := ⟨li.version,hash (.new li)⟩

def newEpochBoundary (li : LedgerInfo) : Except String Waypoint := do
  check li.endsEpoch "No validator set"
  .ok (newAny hash li)

def verify (w : Waypoint) (li : LedgerInfo) : Except String Unit := do
  check (li.version = w.version)
    s!"Waypoint version mismatch: waypoint version = {w.version}, given version = {li.version}"
  let value := hash (.new li)
  check (value = w.value)
    ("Waypoint value mismatch: waypoint value = " ++ HashValue.toHex w.value ++
      ", given value = " ++ HashValue.toHex value)

end Waypoint

inductive Verifier
  | waypoint (w : Waypoint)
  | epochState (s : EpochState)

namespace Verifier

variable (S : Scheme LedgerInfo) (hash : Ledger2WaypointConverter → HashValue)

def verify (v : Verifier) (li : LedgerInfoWithSignatures) : Except String Unit :=
  match v with
  | waypoint w => w.verify hash li.ledgerInfo
  | epochState s => do
    check (s.epoch = li.ledgerInfo.epoch)
      s!"LedgerInfo has unexpected epoch {li.ledgerInfo.epoch}, expected {s.epoch}"
    (li.verifySignatures S s.verifier).mapError VerifyError.display

def isLedgerInfoStale (v : Verifier) (li : LedgerInfo) : Bool :=
  match v with
  | waypoint w => li.version < w.version
  | epochState s => li.epoch < s.epoch

end Verifier

structure EpochChangeProof where
  ledgerInfoWithSigs : List LedgerInfoWithSignatures

namespace EpochChangeProof

variable (S : Scheme LedgerInfo) (hash : Ledger2WaypointConverter → HashValue)

/-- Each epoch change is verified with the validators that the one before it has named. -/
def verifyChain (v : Verifier) : List LedgerInfoWithSignatures → Except String Unit
  | [] => .ok ()
  | li :: rest => do
    v.verify S hash li
    let next ← okOr li.ledgerInfo.nextEpochState "LedgerInfo doesn't carry a ValidatorSet"
    verifyChain (.epochState next) rest

/-- The ledger infos at the front that are stale are skipped. -/
def verify (proof : EpochChangeProof) (v : Verifier) :
    Except String LedgerInfoWithSignatures := do
  let last ← okOr proof.ledgerInfoWithSigs.getLast? "The EpochChangeProof is empty"
  check (v.isLedgerInfoStale last.ledgerInfo = false)
    "The EpochChangeProof is stale as our verifier is already ahead of the entire EpochChangeProof"
  verifyChain S hash v
    (proof.ledgerInfoWithSigs.dropWhile fun li => v.isLedgerInfoStale li.ledgerInfo)
  .ok last

end EpochChangeProof

end Arx.Types
