import Arx.Framework.Aggregator
import Arx.Framework.Validator

/-!
# `arx::transaction_fee`, and the block prologue around it

The fees of a block are handed to its proposer, less a burned part, when the next block begins or
the epoch ends. What the other modules that `reconfigure` calls do to the coins is the operation
`wallets` of the validator module.
-/

namespace Arx
open Movelib

/-- `@vm_reserved`. -/
def VM_RESERVED : Address := 0x0

structure CollectedFeesPerBlock where
  amount : Aggregator
  proposer : Option Address
  burnPercentage : ℕ
  deriving DecidableEq

structure FeeState where
  validators : ValidatorStorage
  collected : Option CollectedFeesPerBlock
  epoch : ℕ
  lastReconfigurationTime : ℕ
  epochInterval : ℕ
  isGenesis : Bool
  reconfigurationDisabled : Bool

namespace TransactionFee

def EALREADY_COLLECTING_FEES : ℕ := 1
def EINVALID_BURN_PERCENTAGE : ℕ := 3

def burnCoinFraction (supply coin burnPercentage : ℕ) : Result (ℕ × ℕ) := do
  ensure (burnPercentage ≤ 100) (Error.outOfRange EINVALID_BURN_PERCENTAGE)
  let product ← mulChecked 64 burnPercentage coin
  let amountToBurn := product / 100
  if amountToBurn > 0 then do
    let (coin, coinToBurn) ← Coin.extract coin amountToBurn
    let supply ← Coin.burn supply coinToBurn
    pure (supply, coin)
  else pure (supply, coin)

end TransactionFee

def Block.EINVALID_PROPOSER : ℕ := 2
def Block.EZERO_EPOCH_INTERVAL : ℕ := 3
def Reconfiguration.EINVALID_BLOCK_TIME : ℕ := 4

def ValidatorStorage.getValidatorIndex (s : ValidatorStorage) (lockAddress : Address) :
    Result ℕ := do
  let _ ← s.borrowLock lockAddress
  let config ← borrowGlobal (s.configs lockAddress)
  pure config.validatorIndex

namespace FeeState
open TransactionFee

variable (s : FeeState)

def initializeFeeCollectionAndDistribution (burnPercentage : ℕ) : Result FeeState := do
  ensure (s.collected.isNone = true) (Error.alreadyExists EALREADY_COLLECTING_FEES)
  ensure (burnPercentage ≤ 100) (Error.outOfRange EINVALID_BURN_PERCENTAGE)
  let validators ← s.validators.initializeValidatorFees
  pure { s with validators, collected := some ⟨AggregatableCoin.init,none,burnPercentage⟩ }

variable (proposer : Address)

def registerProposer : FeeState :=
  { s with collected := s.collected.map fun fees => { fees with proposer := some proposer } }

def burnAll (coin : ℕ) : Result FeeState := do
  let (supply, coin) ← burnCoinFraction s.validators.supply coin 100
  Coin.destroyZero coin
  pure { s with validators := { s.validators with supply } }

/-- A part of the coin is burned, and the rest goes to the proposer. -/
def distribute (coin burnPercentage : ℕ) : Result FeeState := do
  let (supply, coin) ← burnCoinFraction s.validators.supply coin burnPercentage
  let validators ← { s.validators with supply }.addTransactionFee proposer coin
  pure { s with validators }

def processCollectedFees : Result FeeState :=
  match s.collected with
  | none => .ok s
  | some fees =>
    if AggregatableCoin.isZero fees.amount then
      .ok { s with collected := some { fees with proposer := none } }
    else do
      let (amount, coin) ← AggregatableCoin.drain fees.amount
      let s := { s with collected := some { fees with amount, proposer := none } }
      match fees.proposer with
      | some proposer =>
        -- A block may be produced by the VM itself.
        if proposer = VM_RESERVED then s.burnAll coin
        else s.distribute proposer coin fees.burnPercentage
      | none => s.burnAll coin

def collectFee (account : Address) (fee : ℕ) : Result FeeState := do
  let fees ← borrowGlobal s.collected
  let (store, amount) ← AggregatableCoin.collectInto (s.validators.stores account) fee fees.amount
  pure { s with
    validators := { s.validators with stores := Function.update s.validators.stores account store }
    collected := some { fees with amount } }

def upgradeBurnPercentage (newBurnPercentage : ℕ) : Result FeeState := do
  ensure (newBurnPercentage ≤ 100) (Error.outOfRange EINVALID_BURN_PERCENTAGE)
  let s ← s.processCollectedFees
  pure { s with
    collected := s.collected.map fun fees => { fees with burnPercentage := newBurnPercentage } }

def processIfEnabled : Result FeeState :=
  if s.validators.collectFees then s.processCollectedFees else .ok s

def reconfigures : Bool :=
  !s.isGenesis && decide (s.validators.microseconds ≠ 0) && !s.reconfigurationDisabled &&
    decide (s.validators.microseconds ≠ s.lastReconfigurationTime)

def reconfigure : Result FeeState :=
  if s.reconfigures then do
    let currentTime := s.validators.microseconds
    let s ← s.processIfEnabled
    let validators ← s.validators.onNewEpoch
    ensure (currentTime > s.lastReconfigurationTime)
      (Error.invalidState Reconfiguration.EINVALID_BLOCK_TIME)
    let epoch ← addChecked 64 s.epoch 1
    pure { s with validators, epoch, lastReconfigurationTime := currentTime }
  else .ok s

/-- Blocks come from a validator of the epoch, or from the VM. -/
def checkProposer : Result Unit :=
  if proposer = VM_RESERVED then .ok ()
  else do
    let current ← s.validators.isCurrentEpochValidator proposer
    ensure (current = true) (Error.permissionDenied Block.EINVALID_PROPOSER)

/-- The index whose score the block raises. -/
def proposerIndex : Result (Option ℕ) :=
  if proposer ≠ VM_RESERVED then do
    let index ← s.validators.getValidatorIndex proposer
    pure (some index)
  else .ok none

def turnFees : Result FeeState :=
  if s.validators.collectFees then do
    let s ← s.processCollectedFees
    pure (s.registerProposer proposer)
  else .ok s

def endEpoch (timestamp : ℕ) : Result FeeState := do
  let elapsed ← subChecked timestamp s.lastReconfigurationTime
  if elapsed ≥ s.epochInterval then s.reconfigure else .ok s

def blockPrologue (failedProposerIndices : List ℕ) (timestamp : ℕ) : Result FeeState := do
  s.checkProposer proposer
  let index ← s.proposerIndex proposer
  let microseconds ← Timestamp.updateGlobalTime s.validators.microseconds
    (decide (proposer = VM_RESERVED)) timestamp
  let s := { s with validators := { s.validators with microseconds } }
  let s ← s.turnFees proposer
  let validators ← s.validators.updatePerformanceStatistics index failedProposerIndices
  { s with validators }.endEpoch timestamp

def updateEpochInterval (newEpochInterval : ℕ) : Result FeeState := do
  ensure (newEpochInterval > 0) (Error.invalidArgument Block.EZERO_EPOCH_INTERVAL)
  pure { s with epochInterval := newEpochInterval }

end FeeState

/-- False for the calls that only the modules above make, and for the feature flag. -/
def ValidatorOp.isPublic : ValidatorOp → Bool
  | .updatePerformanceStatistics .. | .initializeValidatorFees | .addTransactionFee ..
  | .changeFeatureFlag .. | .updateGlobalTime .. | .onNewEpoch => false
  | _ => true

inductive FeeOp
  | blockPrologue (proposer : Address) (failedProposerIndices : List ℕ) (timestamp : ℕ)
  | collectFee (account : Address) (fee : ℕ)
  | upgradeBurnPercentage (newBurnPercentage : ℕ)
  | updateEpochInterval (newEpochInterval : ℕ)
  | reconfigure
  | validator (o : ValidatorOp) (isPublic : o.isPublic = true)

def FeeState.step (pop : Bytes → Bytes → Bool) (s : FeeState) : FeeOp → Result FeeState
  | .blockPrologue proposer failed timestamp => s.blockPrologue proposer failed timestamp
  | .collectFee account fee => s.collectFee account fee
  | .upgradeBurnPercentage n => s.upgradeBurnPercentage n
  | .updateEpochInterval n => s.updateEpochInterval n
  | .reconfigure => s.reconfigure
  | .validator o _ => do
    let validators ← s.validators.step pop o
    pure { s with validators }

end Arx
