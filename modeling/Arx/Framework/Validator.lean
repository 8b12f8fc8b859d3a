import Arx.Framework.Coin
import Arx.Framework.Config
import Arx.Movelib.Run
import Arx.Movelib.Vector

/-!
# `arx::validator`

The stake locks, the validator set, and the pass over both at every epoch change. The native check
of a proof of possession is a parameter; event handles are left out.
-/

namespace Arx
open Movelib Function

structure StakeLock where
  active : ℕ
  inactive : ℕ
  pendingActive : ℕ
  pendingInactive : ℕ
  lockedUntilSecs : ℕ
  operatorAddress : Address
  vaultAddress : Address
  deriving DecidableEq

structure ValidatorConfig where
  consensusPubkey : Bytes
  networkAddresses : Bytes
  fullnodeAddresses : Bytes
  validatorIndex : ℕ
  deriving DecidableEq

structure ValidatorInfo where
  address : Address
  votingPower : ℕ
  config : ValidatorConfig
  deriving DecidableEq

structure ValidatorSet where
  activeValidators : List ValidatorInfo
  pendingInactive : List ValidatorInfo
  pendingActive : List ValidatorInfo
  totalVotingPower : ℕ
  totalJoiningPower : ℕ
  deriving DecidableEq

structure IndividualValidatorPerformance where
  successfulProposals : ℕ
  failedProposals : ℕ
  deriving DecidableEq

/-- `VALIDATOR_STATUS_*`. -/
inductive ValidatorStatus
  | pendingActive
  | active
  | pendingInactive
  | inactive
  deriving DecidableEq

/-- The resources that the module reads and writes. `ownerCaps` are the capabilities stored in
accounts, `fees` is the table of `ValidatorFees` once it is published, `stores` and `supply`
are those of `ArxCoin`, and `collectFees` is the feature flag for fee distribution. -/
structure ValidatorStorage where
  stakeLocks : Address → Option StakeLock
  configs : Address → Option ValidatorConfig
  ownerCaps : Address → Option Address
  set : ValidatorSet
  performance : List IndividualValidatorPerformance
  fees : Option (Address → Option ℕ)
  allowed : Option (List Address)
  config : ValidationConfig
  stores : Address → Option CoinStore
  supply : ℕ
  collectFees : Bool
  microseconds : ℕ

namespace Validator

def EVALIDATOR_CONFIG : ℕ := 1
def ESTAKE_TOO_LOW : ℕ := 2
def ESTAKE_TOO_HIGH : ℕ := 3
def EALREADY_ACTIVE_VALIDATOR : ℕ := 4
def ENOT_VALIDATOR : ℕ := 5
def ELAST_VALIDATOR : ℕ := 6
def ESTAKE_EXCEEDS_MAX : ℕ := 7
def EALREADY_REGISTERED : ℕ := 8
def ENOT_OPERATOR : ℕ := 9
def ENO_POST_GENESIS_VALIDATOR_SET_CHANGE_ALLOWED : ℕ := 10
def EINVALID_PUBLIC_KEY : ℕ := 11
def EVALIDATOR_SET_TOO_LARGE : ℕ := 12
def EVOTING_POWER_INCREASE_EXCEEDS_LIMIT : ℕ := 13
def ESTAKE_LOCK_DOES_NOT_EXIST : ℕ := 14
def EOWNER_CAP_NOT_FOUND : ℕ := 15
def EOWNER_CAP_ALREADY_EXISTS : ℕ := 16
def EINELIGIBLE_VALIDATOR : ℕ := 17
def EINVALID_LOCKUP : ℕ := 18
def EFEES_TABLE_ALREADY_EXISTS : ℕ := 19

def MAX_VALIDATOR_SET_SIZE : ℕ := 65536

end Validator

open Validator

namespace StakeLock

def new (owner : Address) : StakeLock := ⟨0,0,0,0,0,owner,owner⟩

variable (lock : StakeLock)

def getNextEpochVotingPower : Result ℕ := do
  let power ← addChecked 64 lock.pendingActive lock.active
  addChecked 64 power lock.pendingInactive

/-- New stake of a validator of the current epoch counts from the next epoch on. -/
def addStake (current : Bool) (coins : ℕ) : Result StakeLock :=
  if current then do
    let pendingActive ← Coin.merge lock.pendingActive coins
    pure { lock with pendingActive }
  else do
    let active ← Coin.merge lock.active coins
    pure { lock with active }

def reactivate (amount : ℕ) : Result StakeLock := do
  let (pendingInactive, coins) ←
    Coin.extract lock.pendingInactive (Math64.min amount lock.pendingInactive)
  let active ← Coin.merge lock.active coins
  pure { lock with active, pendingInactive }

def unlock (amount : ℕ) : Result StakeLock := do
  let (active, coins) ← Coin.extract lock.active (Math64.min amount lock.active)
  let pendingInactive ← Coin.merge lock.pendingInactive coins
  pure { lock with active, pendingInactive }

/-- The pending inactive stake becomes inactive, if `cond` holds. -/
def releaseIf (cond : Prop) [Decidable cond] : Result StakeLock :=
  if cond then do
    let (pendingInactive, coins) := Coin.extractAll lock.pendingInactive
    let inactive ← Coin.merge lock.inactive coins
    pure { lock with inactive, pendingInactive }
  else .ok lock

def takeInactive (amount : ℕ) : Result (StakeLock × ℕ) :=
  let amount := Math64.min amount lock.inactive
  if amount = 0 then .ok (lock, 0)
  else do
    let (inactive, coins) ← Coin.extract lock.inactive amount
    pure ({ lock with inactive }, coins)

end StakeLock

namespace ValidatorSet

def findValidator (v : List ValidatorInfo) (address : Address) : Option ℕ :=
  v.findIdx? fun info => info.address = address

def getValidatorState (set : ValidatorSet) (lockAddress : Address) : ValidatorStatus :=
  if (findValidator set.pendingActive lockAddress).isSome then .pendingActive
  else if (findValidator set.activeValidators lockAddress).isSome then .active
  else if (findValidator set.pendingInactive lockAddress).isSome then .pendingInactive
  else .inactive

end ValidatorSet

def ValidatorInfo.generate (address : Address) (lock : StakeLock) (config : ValidatorConfig) :
    Result ValidatorInfo := do
  let votingPower ← lock.getNextEpochVotingPower
  pure ⟨address,votingPower,config⟩

namespace ValidatorStorage
open ValidatorSet

def genesis (config : ValidationConfig) (stores : Address → Option CoinStore) (supply : ℕ) :
    ValidatorStorage where
  stakeLocks := fun _ => none
  configs := fun _ => none
  ownerCaps := fun _ => none
  set := ⟨[],[],[],0,0⟩
  performance := []
  fees := none
  allowed := none
  config
  stores
  supply
  collectFees := false
  microseconds := 0

variable (s : ValidatorStorage)

def nowSeconds : ℕ := s.microseconds / Timestamp.MICRO_CONVERSION_FACTOR

def putLock (a : Address) (lock : StakeLock) : ValidatorStorage :=
  { s with stakeLocks := update s.stakeLocks a (some lock) }

def putConfig (a : Address) (config : ValidatorConfig) : ValidatorStorage :=
  { s with configs := update s.configs a (some config) }

def borrowLock (a : Address) : Result StakeLock :=
  match s.stakeLocks a with
  | some lock => .ok lock
  | none => .error (Error.invalidArgument ESTAKE_LOCK_DOES_NOT_EXIST)

def borrowOwnerCap (owner : Address) : Result Address :=
  match s.ownerCaps owner with
  | some lockAddress => .ok lockAddress
  | none => .error (Error.notFound EOWNER_CAP_NOT_FOUND)

def isAllowed (account : Address) : Bool :=
  match s.allowed with
  | none => true
  | some accounts => accounts.contains account

/-- `is_current_epoch_validator`: also those that asked to leave still vote. -/
def isCurrentEpochValidator (lockAddress : Address) : Result Bool := do
  let _ ← s.borrowLock lockAddress
  let status := s.set.getValidatorState lockAddress
  pure (decide (status = .active ∨ status = .pendingInactive))

variable (owner lockAddress : Address)

def initializeOwner : Result ValidatorStorage := do
  ensure (s.isAllowed owner = true) (Error.notFound EINELIGIBLE_VALIDATOR)
  ensure (s.stakeLocks owner = none) (Error.alreadyExists EALREADY_REGISTERED)
  ensure (s.ownerCaps owner = none) .resourceAlreadyExists
  pure { s.putLock owner (.new owner) with
    ownerCaps := update s.ownerCaps owner (some owner) }

def publishConfig (account : Address) (config : ValidatorConfig) : Result ValidatorStorage := do
  ensure (s.configs account = none) .resourceAlreadyExists
  pure (s.putConfig account config)

/-- `initialize_validator`; `validPop` is the outcome of the check of the key. -/
def initializeValidator (validPop : Bool) (account : Address)
    (consensusPubkey networkAddresses fullnodeAddresses : Bytes) : Result ValidatorStorage := do
  ensure (validPop = true) (Error.invalidArgument EINVALID_PUBLIC_KEY)
  let s ← s.initializeOwner account
  s.publishConfig account ⟨consensusPubkey,networkAddresses,fullnodeAddresses,0⟩

def extractOwnerCap : Result (ValidatorStorage × Address) := do
  let lockAddress ← s.borrowOwnerCap owner
  pure ({ s with ownerCaps := update s.ownerCaps owner none }, lockAddress)

def depositOwnerCap : Result ValidatorStorage := do
  ensure (s.ownerCaps owner = none) (Error.notFound EOWNER_CAP_ALREADY_EXISTS)
  pure { s with ownerCaps := update s.ownerCaps owner (some lockAddress) }

def setOperatorWithCap (newOperator : Address) : Result ValidatorStorage := do
  let lock ← s.borrowLock lockAddress
  pure (s.putLock lockAddress { lock with operatorAddress := newOperator })

def setVaultWithCap (newVault : Address) : Result ValidatorStorage := do
  let lock ← s.borrowLock lockAddress
  pure (s.putLock lockAddress { lock with vaultAddress := newVault })

def setOperator (newOperator : Address) : Result ValidatorStorage := do
  let cap ← s.borrowOwnerCap owner
  s.setOperatorWithCap cap newOperator

def setVault (newVault : Address) : Result ValidatorStorage := do
  let cap ← s.borrowOwnerCap owner
  s.setVaultWithCap cap newVault

/-- The limit of `update_voting_power_increase`, checked once the set has voting power. -/
def checkIncrease (joining : ℕ) : Result Unit :=
  if s.set.totalVotingPower > 0 then do
    let product ← mulChecked 128 s.set.totalVotingPower s.config.votingPowerIncreaseLimit
    ensure (joining ≤ product / 100)
      (Error.invalidArgument EVOTING_POWER_INCREASE_EXCEEDS_LIMIT)
  else .ok ()

def updateVotingPowerIncrease (increaseAmount : ℕ) : Result ValidatorStorage := do
  let totalJoiningPower ← addChecked 128 s.set.totalJoiningPower increaseAmount
  s.checkIncrease totalJoiningPower
  pure { s with set := { s.set with totalJoiningPower } }

variable (lockAddress owner : Address) (amount : ℕ)

/-- Only the increase of active and joining validators is tracked. -/
def trackIncrease : Result ValidatorStorage :=
  if (findValidator s.set.activeValidators lockAddress).isSome ∨
      (findValidator s.set.pendingActive lockAddress).isSome then
    s.updateVotingPowerIncrease amount
  else .ok s

def lockStakeWithCap (coins : ℕ) : Result ValidatorStorage := do
  let lock ← s.borrowLock lockAddress
  if coins = 0 then pure s
  else do
    let s ← s.trackIncrease lockAddress coins
    let current ← s.isCurrentEpochValidator lockAddress
    let lock ← lock.addStake current coins
    let votingPower ← lock.getNextEpochVotingPower
    ensure (votingPower ≤ s.config.maximumStake) (Error.invalidArgument ESTAKE_EXCEEDS_MAX)
    pure (s.putLock lockAddress lock)

def lockStake : Result ValidatorStorage := do
  let cap ← s.borrowOwnerCap owner
  let (store, coins) ← Coin.withdraw (s.stores owner) amount
  { s with stores := update s.stores owner (some store) }.lockStakeWithCap cap coins

def lockInitial : Result ValidatorStorage :=
  if amount > 0 then s.lockStake owner amount else .ok s

def handOperator (operator : Address) : Result ValidatorStorage :=
  if owner ≠ operator then s.setOperator owner operator else .ok s

def handVault (vault : Address) : Result ValidatorStorage :=
  if owner ≠ vault then s.setVault owner vault else .ok s

def initializeStakeOwner (initialStakeAmount : ℕ) (operator vault : Address) :
    Result ValidatorStorage := do
  let s ← s.initializeOwner owner
  let s ← s.publishConfig owner ⟨[],[],[],0⟩
  let s ← s.lockInitial owner initialStakeAmount
  let s ← s.handOperator owner operator
  s.handVault owner vault

def reactivateStakeWithCap : Result ValidatorStorage := do
  let lock ← s.borrowLock lockAddress
  let lock ← lock.reactivate amount
  pure (s.putLock lockAddress lock)

def unlockWithCap (lockAddress : Address) : Result ValidatorStorage :=
  if amount = 0 then .ok s
  else do
    let lock ← s.borrowLock lockAddress
    let lock ← lock.unlock amount
    pure (s.putLock lockAddress lock)

/-- `withdraw_with_cap`. Stake of a validator that left before its lockup expired is still
pending inactive and is released here. -/
def withdrawWithCap : Result (ValidatorStorage × ℕ) := do
  let lock ← s.borrowLock lockAddress
  let lock ← lock.releaseIf (s.set.getValidatorState lockAddress = .inactive ∧
    s.nowSeconds ≥ lock.lockedUntilSecs)
  let (lock, coins) ← lock.takeInactive amount
  pure (s.putLock lockAddress lock, coins)

def increaseLockupWithCap : Result ValidatorStorage := do
  let lock ← s.borrowLock lockAddress
  let lockedUntilSecs ← addChecked 64 s.nowSeconds s.config.recurringLockupDurationSecs
  ensure (lock.lockedUntilSecs < lockedUntilSecs) (Error.invalidArgument EINVALID_LOCKUP)
  pure (s.putLock lockAddress { lock with lockedUntilSecs })

def reactivateStake : Result ValidatorStorage := do
  let cap ← s.borrowOwnerCap owner
  s.reactivateStakeWithCap cap amount

def unlock : Result ValidatorStorage := do
  let cap ← s.borrowOwnerCap owner
  s.unlockWithCap amount cap

def withdraw : Result ValidatorStorage := do
  let cap ← s.borrowOwnerCap owner
  let (s, coins) ← s.withdrawWithCap cap amount
  let store ← Coin.deposit (s.stores owner) coins
  pure { s with stores := update s.stores owner (some store) }

def increaseLockup : Result ValidatorStorage := do
  let cap ← s.borrowOwnerCap owner
  s.increaseLockupWithCap cap

variable (operator lockAddress : Address)

def operatedLock : Result StakeLock := do
  let lock ← s.borrowLock lockAddress
  ensure (operator = lock.operatorAddress) (Error.unauthenticated ENOT_OPERATOR)
  pure lock

def borrowConfig : Result ValidatorConfig :=
  match s.configs lockAddress with
  | some config => .ok config
  | none => .error (Error.notFound EVALIDATOR_CONFIG)

def rotateConsensusKey (validPop : Bool) (operator lockAddress : Address)
    (newConsensusPubkey : Bytes) : Result ValidatorStorage := do
  let _ ← s.operatedLock operator lockAddress
  let config ← s.borrowConfig lockAddress
  ensure (validPop = true) (Error.invalidArgument EINVALID_PUBLIC_KEY)
  pure (s.putConfig lockAddress { config with consensusPubkey := newConsensusPubkey })

def updateNetworkInfo (newNetworkAddresses newFullnodeAddresses : Bytes) :
    Result ValidatorStorage := do
  let _ ← s.operatedLock operator lockAddress
  let config ← s.borrowConfig lockAddress
  pure (s.putConfig lockAddress { config with
    networkAddresses := newNetworkAddresses
    fullnodeAddresses := newFullnodeAddresses })

def joinValidatorSetInternal : Result ValidatorStorage := do
  let lock ← s.operatedLock operator lockAddress
  ensure (s.set.getValidatorState lockAddress = .inactive)
    (Error.invalidState EALREADY_ACTIVE_VALIDATOR)
  let votingPower ← lock.getNextEpochVotingPower
  ensure (votingPower ≥ s.config.minimumStake) (Error.invalidArgument ESTAKE_TOO_LOW)
  ensure (votingPower ≤ s.config.maximumStake) (Error.invalidArgument ESTAKE_TOO_HIGH)
  let s ← s.updateVotingPowerIncrease votingPower
  let config ← borrowGlobal (s.configs lockAddress)
  ensure (config.consensusPubkey ≠ []) (Error.invalidArgument EINVALID_PUBLIC_KEY)
  let info ← ValidatorInfo.generate lockAddress lock config
  let pendingActive := s.set.pendingActive ++ [info]
  let validatorSetSize ← addChecked 64 s.set.activeValidators.length pendingActive.length
  ensure (validatorSetSize ≤ MAX_VALIDATOR_SET_SIZE)
    (Error.invalidArgument EVALIDATOR_SET_TOO_LARGE)
  pure { s with set := { s.set with pendingActive } }

def joinValidatorSet : Result ValidatorStorage := do
  ensure (s.config.allowValidatorSetChange = true)
    (Error.invalidArgument ENO_POST_GENESIS_VALIDATOR_SET_CHANGE_ALLOWED)
  s.joinValidatorSetInternal operator lockAddress

/-- A joining validator at index `i` changes its mind. -/
def cancelJoin (lock : StakeLock) (i : ℕ) : Result ValidatorStorage := do
  let (pendingActive, _) ← swapRemove s.set.pendingActive i
  let validatorStake ← lock.getNextEpochVotingPower
  let totalJoiningPower :=
    if s.set.totalJoiningPower > validatorStake then s.set.totalJoiningPower - validatorStake
    else 0
  pure { s with set := { s.set with pendingActive, totalJoiningPower } }

/-- The active validator at index `i` is moved to the leavers; the last one must stay. -/
def moveToPendingInactive (i : ℕ) : Result ValidatorStorage := do
  let (activeValidators, info) ← swapRemove s.set.activeValidators i
  ensure (activeValidators.length > 0) (Error.invalidState ELAST_VALIDATOR)
  pure { s with
    set := { s.set with
      activeValidators
      pendingInactive := s.set.pendingInactive ++ [info] } }

def leaveValidatorSet : Result ValidatorStorage := do
  ensure (s.config.allowValidatorSetChange = true)
    (Error.invalidArgument ENO_POST_GENESIS_VALIDATOR_SET_CHANGE_ALLOWED)
  let lock ← s.operatedLock operator lockAddress
  match findValidator s.set.pendingActive lockAddress with
  | some i => s.cancelJoin lock i
  | none =>
    match findValidator s.set.activeValidators lockAddress with
    | some i => s.moveToPendingInactive i
    | none => .error (Error.invalidState ENOT_VALIDATOR)

/-- One more proposal of the validator at index `i`; an index out of bounds is skipped. -/
def countProposal (performance : List IndividualValidatorPerformance) (success : Bool) (i : ℕ) :
    Result (List IndividualValidatorPerformance) :=
  match performance[i]? with
  | none => .ok performance
  | some perf =>
    if success then do
      let successfulProposals ← addChecked 64 perf.successfulProposals 1
      pure (performance.set i { perf with successfulProposals })
    else do
      let failedProposals ← addChecked 64 perf.failedProposals 1
      pure (performance.set i { perf with failedProposals })

def updatePerformanceStatistics (proposerIndex : Option ℕ) (failedProposerIndices : List ℕ) :
    Result ValidatorStorage := do
  let performance ← proposerIndex.toList.foldlM (countProposal · true) s.performance
  let performance ← failedProposerIndices.foldlM (countProposal · false) performance
  pure { s with performance }

def initializeValidatorFees : Result ValidatorStorage := do
  ensure (s.fees.isNone = true) (Error.alreadyExists EFEES_TABLE_ALREADY_EXISTS)
  pure { s with fees := some fun _ => none }

def mergeFee (collected : Option ℕ) (fee : ℕ) : Result ℕ :=
  match collected with
  | some coin => Coin.merge coin fee
  | none => .ok fee

def addTransactionFee (validator : Address) (fee : ℕ) : Result ValidatorStorage := do
  let table ← borrowGlobal s.fees
  let coin ← mergeFee (table validator) fee
  pure { s with fees := some (update table validator (some coin)) }

def calculateRewardsAmount (stakeAmount numSuccessful numTotal rewardsRate denominator : ℕ) :
    Result ℕ := do
  let product ← mulChecked 128 stakeAmount rewardsRate
  let rewardsNumerator ← mulChecked 128 product numSuccessful
  let rewardsDenominator ← mulChecked 128 denominator numTotal
  if rewardsDenominator > 0 then castChecked 64 (rewardsNumerator / rewardsDenominator)
  else pure 0

/-- The reward of a stake; no stake earns nothing. -/
def rewardOf (config : ValidationConfig) (stake numSuccessful numTotal : ℕ) : Result ℕ :=
  if stake > 0 then
    calculateRewardsAmount stake numSuccessful numTotal config.rewardsRate
      config.rewardsRateDenominator
  else .ok 0

def distributeRewards (config : ValidationConfig) (supply stake numSuccessful numTotal : ℕ) :
    Result (ℕ × ℕ × ℕ) := do
  let rewardsAmount ← rewardOf config stake numSuccessful numTotal
  if rewardsAmount > 0 then do
    let (supply, rewards) ← Coin.mint supply rewardsAmount
    let stake ← Coin.merge stake rewards
    pure (supply, stake, rewardsAmount)
  else pure (supply, stake, rewardsAmount)

/-- The fees of a validator are merged into its active stake, if they are distributed. -/
def collectFeesOf (lockAddress : Address) (active : ℕ) :
    Result (Option (Address → Option ℕ) × ℕ) :=
  if s.collectFees then do
    let table ← borrowGlobal s.fees
    match table lockAddress with
    | some coin => do
      let active ← Coin.merge active coin
      pure (some (update table lockAddress none), active)
    | none => pure (some table, active)
  else .ok (s.fees, active)

def updateStakeLock (lockAddress : Address) : Result ValidatorStorage := do
  let lock ← borrowGlobal (s.stakeLocks lockAddress)
  let config ← borrowGlobal (s.configs lockAddress)
  let perf ← vectorBorrow s.performance config.validatorIndex
  let numTotal ← addChecked 64 perf.successfulProposals perf.failedProposals
  let (supply, active, rewardsActive) ←
    distributeRewards s.config s.supply lock.active perf.successfulProposals numTotal
  let (supply, pendingInactive, rewardsPendingInactive) ←
    distributeRewards s.config supply lock.pendingInactive perf.successfulProposals numTotal
  -- The sum is for the event only, but it can overflow.
  let _ ← addChecked 64 rewardsActive rewardsPendingInactive
  let active ← Coin.merge active lock.pendingActive
  let (fees, active) ← s.collectFeesOf lockAddress active
  let lock ← { lock with active, pendingActive := 0, pendingInactive }.releaseIf
    (s.nowSeconds ≥ lock.lockedUntilSecs)
  pure { s.putLock lockAddress lock with supply, fees }

def updateStakeLocks : ValidatorStorage → List ValidatorInfo → Result ValidatorStorage
  | s, [] => .ok s
  | s, info :: infos => do
    let s ← s.updateStakeLock info.address
    updateStakeLocks s infos

def nextEpochValidators : List ValidatorInfo → List ValidatorInfo → ℕ →
    Result (List ValidatorInfo × ℕ)
  | [], next, totalVotingPower => .ok (next, totalVotingPower)
  | old :: infos, next, totalVotingPower => do
    let config ← borrowGlobal (s.configs old.address)
    let lock ← borrowGlobal (s.stakeLocks old.address)
    let info ← ValidatorInfo.generate old.address lock config
    if info.votingPower ≥ s.config.minimumStake then do
      let totalVotingPower ← addChecked 128 totalVotingPower info.votingPower
      nextEpochValidators infos (next ++ [info]) totalVotingPower
    else nextEpochValidators infos next totalVotingPower

/-- The lockup of a validator that stays is renewed once it has expired. -/
def renewLockup (lock : StakeLock) : Result StakeLock :=
  if lock.lockedUntilSecs ≤ s.nowSeconds then do
    let lockedUntilSecs ← addChecked 64 s.nowSeconds s.config.recurringLockupDurationSecs
    pure { lock with lockedUntilSecs }
  else .ok lock

/-- The body of the last loop: the index of a validator, a fresh score and its lockup. -/
def assignIndex (address : Address) (validatorIndex : ℕ) : Result ValidatorStorage := do
  let config ← borrowGlobal (s.configs address)
  let s := s.putConfig address { config with validatorIndex }
  let s := { s with performance := s.performance ++ [IndividualValidatorPerformance.mk 0 0] }
  let lock ← borrowGlobal (s.stakeLocks address)
  let lock ← s.renewLockup lock
  pure (s.putLock address lock)

def assignIndices : ValidatorStorage → ℕ → List ValidatorInfo →
    Result (ValidatorStorage × List ValidatorInfo)
  | s, _, [] => .ok (s, [])
  | s, validatorIndex, info :: infos => do
    let s ← s.assignIndex info.address validatorIndex
    let (s, rest) ← assignIndices s (validatorIndex + 1) infos
    pure (s, { info with config := { info.config with validatorIndex } } :: rest)

def onNewEpoch : Result ValidatorStorage := do
  let s ← updateStakeLocks s s.set.activeValidators
  let s ← updateStakeLocks s s.set.pendingInactive
  -- The leavers got their rewards and are dropped; `append` takes the joiners from the back.
  let candidates := drain s.set.activeValidators s.set.pendingActive
  let (next, totalVotingPower) ← s.nextEpochValidators candidates [] 0
  let (s, activeValidators) ← assignIndices { s with performance := [] } 0 next
  pure { s with
    set := ⟨activeValidators,[],[],totalVotingPower,0⟩ }

end ValidatorStorage

/-- The calls that reach the module and its parameters. Calls with a capability may come from
any module that holds it; `wallets` is any change of the coin stores and of the supply by other
modules. -/
inductive ValidatorOp
  | initializeStakeOwner (owner : Address) (amount : ℕ) (operator vault : Address)
  | initializeValidator (account : Address) (pubkey pop network fullnode : Bytes)
  | extractOwnerCap (owner : Address)
  | depositOwnerCap (owner lockAddress : Address)
  | setOperatorWithCap (lockAddress newOperator : Address)
  | setVaultWithCap (lockAddress newVault : Address)
  | setOperator (owner newOperator : Address)
  | setVault (owner newVault : Address)
  | lockStakeWithCap (lockAddress : Address) (coins : ℕ)
  | reactivateStakeWithCap (lockAddress : Address) (amount : ℕ)
  | unlockWithCap (lockAddress : Address) (amount : ℕ)
  | withdrawWithCap (lockAddress : Address) (amount : ℕ)
  | increaseLockupWithCap (lockAddress : Address)
  | lockStake (owner : Address) (amount : ℕ)
  | reactivateStake (owner : Address) (amount : ℕ)
  | unlock (owner : Address) (amount : ℕ)
  | withdraw (owner : Address) (amount : ℕ)
  | increaseLockup (owner : Address)
  | rotateConsensusKey (operator lockAddress : Address) (pubkey pop : Bytes)
  | updateNetworkInfo (operator lockAddress : Address) (network fullnode : Bytes)
  | joinValidatorSetInternal (operator lockAddress : Address)
  | joinValidatorSet (operator lockAddress : Address)
  | leaveValidatorSet (operator lockAddress : Address)
  | updatePerformanceStatistics (proposer : Option ℕ) (failed : List ℕ)
  | initializeValidatorFees
  | addTransactionFee (validator : Address) (fee : ℕ)
  | configureAllowedValidators (accounts : List Address)
  | updateRequiredStake (minimumStake maximumStake : ℕ)
  | updateRecurringLockupDurationSecs (duration : ℕ)
  | updateRewardsRate (rate denominator : ℕ)
  | updateVotingPowerIncreaseLimit (limit : ℕ)
  | changeFeatureFlag (collectFees : Bool)
  | wallets (stores : Address → Option CoinStore) (supply : ℕ)
  | updateGlobalTime (nilBlock : Bool) (timestamp : ℕ)
  | onNewEpoch

def ValidatorStorage.withConfig (s : ValidatorStorage) (config : Result ValidationConfig) :
    Result ValidatorStorage := do
  let config ← config
  pure { s with config }

/-- One call; `pop` is the native check of a key with its proof of possession. -/
def ValidatorStorage.step (pop : Bytes → Bytes → Bool) (s : ValidatorStorage) :
    ValidatorOp → Result ValidatorStorage
  | .initializeStakeOwner a n operator vault => s.initializeStakeOwner a n operator vault
  | .initializeValidator a key proof network fullnode =>
    s.initializeValidator (pop key proof) a key network fullnode
  | .extractOwnerCap a => do
    let (s, _) ← s.extractOwnerCap a
    pure s
  | .depositOwnerCap a cap => s.depositOwnerCap a cap
  | .setOperatorWithCap cap operator => s.setOperatorWithCap cap operator
  | .setVaultWithCap cap vault => s.setVaultWithCap cap vault
  | .setOperator a operator => s.setOperator a operator
  | .setVault a vault => s.setVault a vault
  | .lockStakeWithCap cap coins => s.lockStakeWithCap cap coins
  | .reactivateStakeWithCap cap n => s.reactivateStakeWithCap cap n
  | .unlockWithCap cap n => s.unlockWithCap n cap
  | .withdrawWithCap cap n => do
    let (s, _) ← s.withdrawWithCap cap n
    pure s
  | .increaseLockupWithCap cap => s.increaseLockupWithCap cap
  | .lockStake a n => s.lockStake a n
  | .reactivateStake a n => s.reactivateStake a n
  | .unlock a n => s.unlock a n
  | .withdraw a n => s.withdraw a n
  | .increaseLockup a => s.increaseLockup a
  | .rotateConsensusKey operator a key proof =>
    s.rotateConsensusKey (pop key proof) operator a key
  | .updateNetworkInfo operator a network fullnode =>
    s.updateNetworkInfo operator a network fullnode
  | .joinValidatorSetInternal operator a => s.joinValidatorSetInternal operator a
  | .joinValidatorSet operator a => s.joinValidatorSet operator a
  | .leaveValidatorSet operator a => s.leaveValidatorSet operator a
  | .updatePerformanceStatistics proposer failed => s.updatePerformanceStatistics proposer failed
  | .initializeValidatorFees => s.initializeValidatorFees
  | .addTransactionFee a fee => s.addTransactionFee a fee
  | .configureAllowedValidators accounts => .ok { s with allowed := some accounts }
  | .updateRequiredStake lo hi => s.withConfig (s.config.updateRequiredStake lo hi)
  | .updateRecurringLockupDurationSecs secs =>
    s.withConfig (s.config.updateRecurringLockupDurationSecs secs)
  | .updateRewardsRate rate denominator =>
    s.withConfig (s.config.updateRewardsRate rate denominator)
  | .updateVotingPowerIncreaseLimit limit =>
    s.withConfig (s.config.updateVotingPowerIncreaseLimit limit)
  | .changeFeatureFlag collectFees => .ok { s with collectFees }
  | .wallets stores supply => .ok { s with stores, supply }
  | .updateGlobalTime nilBlock timestamp => do
    let microseconds ← Timestamp.updateGlobalTime s.microseconds nilBlock timestamp
    pure { s with microseconds }
  | .onNewEpoch => s.onNewEpoch

end Arx
