import Arx.Framework.Math

/-!
# `arx::timestamp` and `arx::validation_config`

The wall clock, and the staking parameters. The module checks the parameters whenever it
writes them, so the structure carries the checks.
-/

namespace Arx
open Movelib

namespace Timestamp

def MICRO_CONVERSION_FACTOR : ℕ := 1000000

def EINVALID_TIMESTAMP : ℕ := 2

def updateGlobalTime (now : ℕ) (nilBlock : Bool) (timestamp : ℕ) : Result ℕ :=
  if nilBlock then do
    ensure (now = timestamp) (Error.invalidArgument EINVALID_TIMESTAMP)
    pure now
  else do
    ensure (now < timestamp) (Error.invalidArgument EINVALID_TIMESTAMP)
    pure timestamp

theorem updateGlobalTime_le {now timestamp time : ℕ} {nilBlock : Bool}
    (h : updateGlobalTime now nilBlock timestamp = .ok time) : now ≤ time := by
  cases nilBlock with
  | true =>
    simp only [updateGlobalTime,if_true,bind_eq_ok,ensure_eq_ok,pure_eq_ok] at h
    obtain ⟨_,_,rfl⟩ := h
    exact le_rfl
  | false =>
    simp only [updateGlobalTime,Bool.false_eq_true,if_false,bind_eq_ok,ensure_eq_ok,
      pure_eq_ok] at h
    obtain ⟨_,hlt,rfl⟩ := h
    exact hlt.le

end Timestamp

def ValidationConfig.MAX_REWARDS_RATE : ℕ := 1000000

/-- The staking parameters with the ranges that the module enforces. -/
structure ValidationConfig where
  minimumStake : ℕ
  maximumStake : ℕ
  recurringLockupDurationSecs : ℕ
  allowValidatorSetChange : Bool
  rewardsRate : ℕ
  rewardsRateDenominator : ℕ
  votingPowerIncreaseLimit : ℕ
  stakeRange : minimumStake ≤ maximumStake ∧ maximumStake > 0
  lockupPos : recurringLockupDurationSecs > 0
  denominatorPos : rewardsRateDenominator > 0
  limitRange : votingPowerIncreaseLimit > 0 ∧ votingPowerIncreaseLimit ≤ 50
  rateBounded : rewardsRate ≤ ValidationConfig.MAX_REWARDS_RATE
  rateLeOne : rewardsRate ≤ rewardsRateDenominator
  deriving DecidableEq

namespace ValidationConfig

def EZERO_LOCKUP_DURATION : ℕ := 1
def EZERO_REWARDS_RATE_DENOMINATOR : ℕ := 2
def EINVALID_STAKE_RANGE : ℕ := 3
def EINVALID_VOTING_POWER_INCREASE_LIMIT : ℕ := 4
def EINVALID_REWARDS_RATE : ℕ := 5

def updateRequiredStake (config : ValidationConfig) (minimumStake maximumStake : ℕ) :
    Result ValidationConfig :=
  if h : minimumStake ≤ maximumStake ∧ maximumStake > 0 then
    .ok { config with minimumStake, maximumStake, stakeRange := h }
  else .error (Error.invalidArgument EINVALID_STAKE_RANGE)

def updateRecurringLockupDurationSecs (config : ValidationConfig)
    (recurringLockupDurationSecs : ℕ) : Result ValidationConfig :=
  if h : recurringLockupDurationSecs > 0 then
    .ok { config with recurringLockupDurationSecs, lockupPos := h }
  else .error (Error.invalidArgument EZERO_LOCKUP_DURATION)

def updateRewardsRate (config : ValidationConfig) (rewardsRate rewardsRateDenominator : ℕ) :
    Result ValidationConfig :=
  if hd : rewardsRateDenominator > 0 then
    if hb : rewardsRate ≤ MAX_REWARDS_RATE then
      if hr : rewardsRate ≤ rewardsRateDenominator then
        .ok { config with
          rewardsRate
          rewardsRateDenominator
          denominatorPos := hd
          rateBounded := hb
          rateLeOne := hr }
      else .error (Error.invalidArgument EINVALID_REWARDS_RATE)
    else .error (Error.invalidArgument EINVALID_REWARDS_RATE)
  else .error (Error.invalidArgument EZERO_REWARDS_RATE_DENOMINATOR)

def updateVotingPowerIncreaseLimit (config : ValidationConfig) (votingPowerIncreaseLimit : ℕ) :
    Result ValidationConfig :=
  if h : votingPowerIncreaseLimit > 0 ∧ votingPowerIncreaseLimit ≤ 50 then
    .ok { config with votingPowerIncreaseLimit, limitRange := h }
  else .error (Error.invalidArgument EINVALID_VOTING_POWER_INCREASE_LIMIT)

end ValidationConfig

end Arx
