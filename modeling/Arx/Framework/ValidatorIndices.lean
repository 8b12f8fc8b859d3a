import Arx.Framework.ValidatorEpoch

/-!
# The lists and the indices of the validator set, and the lockups

In every reachable state the roster of the validator set is in order, so the epoch change finds
the score of every validator that it pays. Until a lockup has expired,
coins do not leave the active and pending buckets, and the lockup is only ever extended.
-/

namespace Arx
open Movelib List

namespace ValidatorStorage

variable {s t : ValidatorStorage} {a : Address} {pop : Bytes → Bytes → Bool}

theorem genesis_roster_wf (config : ValidationConfig) (stores : Address → Option CoinStore)
    (supply : ℕ) : (genesis config stores supply).roster.Wf :=
  ⟨nodup_nil,nofun,nofun,nofun⟩

theorem step_roster_wf {o : ValidatorOp} (hs : s.roster.Wf) (h : s.step pop o = .ok t) :
    t.roster.Wf := by
  obtain hf | ⟨us,_,rfl⟩ := step_follows h
  · exact Roster.steps_wf hf.roster hs
  · exact hs

theorem rewardOf_inBounds (config : ValidationConfig) (stake good total : ℕ) :
    InBounds (rewardOf config stake good total) := by
  refine .ite ?_ (inBounds_ok 0)
  refine .bind inBounds_mulChecked fun _ _ => ?_
  refine .bind inBounds_mulChecked fun _ _ => ?_
  refine .bind inBounds_mulChecked fun _ _ => ?_
  exact .ite inBounds_castChecked (inBounds_ok 0)

theorem distributeRewards_inBounds (config : ValidationConfig) (supply stake good total : ℕ) :
    InBounds (distributeRewards config supply stake good total) := by
  refine .bind (rewardOf_inBounds config stake good total) fun r _ => ?_
  refine .ite ?_ (inBounds_ok _)
  refine .bind (.ite (inBounds_ok _) ?_) fun _ _ => ?_
  · exact .bind (.bind (inBounds_ensure _ _) fun _ _ => inBounds_ok _) fun _ _ => inBounds_ok _
  · exact .bind inBounds_addChecked fun _ _ => inBounds_ok _

theorem collectFeesOf_inBounds (s : ValidatorStorage) (a : Address) (active : ℕ) :
    InBounds (s.collectFeesOf a active) := by
  refine .ite (.bind (inBounds_borrowGlobal _) fun table _ => ?_) (inBounds_ok _)
  cases table a with
  | none => exact inBounds_ok _
  | some coin => exact .bind inBounds_addChecked fun _ _ => inBounds_ok _

theorem releaseIf_inBounds (l : StakeLock) (cond : Prop) [Decidable cond] :
    InBounds (l.releaseIf cond) :=
  .ite (.bind inBounds_addChecked fun _ _ => inBounds_ok _) (inBounds_ok l)

theorem updateStakeLock_inBounds
    (h : ∀ config, s.configs a = some config → config.validatorIndex < s.performance.length) :
    InBounds (s.updateStakeLock a) := by
  refine .bind (inBounds_borrowGlobal _) fun l _ => ?_
  refine .bind (inBounds_borrowGlobal _) fun config hc => ?_
  rw [borrowGlobal_eq_ok] at hc
  refine .bind (inBounds_vectorBorrow (h config hc)) fun perf _ => ?_
  refine .bind inBounds_addChecked fun _ _ => ?_
  refine .bind (distributeRewards_inBounds _ _ _ _ _) fun _ _ => ?_
  refine .bind (distributeRewards_inBounds _ _ _ _ _) fun _ _ => ?_
  refine .bind inBounds_addChecked fun _ _ => ?_
  refine .bind inBounds_addChecked fun _ _ => ?_
  refine .bind (collectFeesOf_inBounds _ _ _) fun _ _ => ?_
  exact .bind (releaseIf_inBounds _ _) fun _ _ => inBounds_ok _

theorem updateStakeLocks_inBounds {infos : List ValidatorInfo}
    (h : ∀ info ∈ infos, ∀ config, s.configs info.address = some config →
      config.validatorIndex < s.performance.length) : InBounds (updateStakeLocks s infos) := by
  induction infos generalizing s with
  | nil => exact inBounds_ok s
  | cons info infos ih =>
    refine .bind (updateStakeLock_inBounds (h info (mem_cons_self ..))) fun t ht => ?_
    have hearned := (updateStakeLock_earned ht).1
    refine ih ?_
    rw [hearned.configs,hearned.performance]
    exact fun i hi => h i (mem_cons_of_mem info hi)

theorem generate_inBounds (a : Address) (l : StakeLock) (config : ValidatorConfig) :
    InBounds (ValidatorInfo.generate a l config) :=
  .bind (.bind inBounds_addChecked fun _ _ => inBounds_addChecked) fun _ _ => inBounds_ok _

theorem nextEpochValidators_inBounds (s : ValidatorStorage) (infos acc : List ValidatorInfo)
    (power : ℕ) : InBounds (s.nextEpochValidators infos acc power) := by
  induction infos generalizing acc power with
  | nil => exact inBounds_ok _
  | cons old infos ih =>
    refine .bind (inBounds_borrowGlobal _) fun config _ => ?_
    refine .bind (inBounds_borrowGlobal _) fun l _ => ?_
    refine .bind (generate_inBounds _ l config) fun info _ => ?_
    exact .ite (.bind inBounds_addChecked fun _ _ => ih _ _) (ih acc power)

theorem assignIndices_inBounds (s : ValidatorStorage) (i : ℕ) (infos : List ValidatorInfo) :
    InBounds (assignIndices s i infos) := by
  induction infos generalizing s i with
  | nil => exact inBounds_ok _
  | cons info infos ih =>
    refine .bind ?_ fun t _ => .bind (ih t (i + 1)) fun _ _ => inBounds_ok _
    refine .bind (inBounds_borrowGlobal _) fun config _ => ?_
    refine .bind (inBounds_borrowGlobal _) fun l _ => ?_
    refine .bind ?_ fun _ _ => inBounds_ok _
    exact .ite (.bind inBounds_addChecked fun _ _ => inBounds_ok _) (inBounds_ok l)

theorem indexOf_eq_some {i : ℕ} : s.indexOf a = some i ↔
    ∃ l config, s.stakeLocks a = some l ∧ s.configs a = some config ∧
      config.validatorIndex = i := by
  rw [indexOf]
  cases hl : s.stakeLocks a with
  | none => simp
  | some l => simp [Option.map_eq_some_iff]

theorem score_lt (h : s.roster.Wf) {info : ValidatorInfo} {config : ValidatorConfig}
    (hi : info ∈ s.set.activeValidators ++ s.set.pendingInactive)
    (hc : s.configs info.address = some config) :
    config.validatorIndex < s.performance.length := by
  have hmem : info.address ∈ s.roster.active ++ s.roster.leaving := by
    have h' := mem_map_of_mem (f := ValidatorInfo.address) hi
    rw [map_append] at h'
    exact h'
  obtain ⟨i,hlt,hindex⟩ := h.placed info.address hmem
  obtain ⟨_,config',_,hc',rfl⟩ := indexOf_eq_some.mp hindex
  cases hc.symm.trans hc'
  exact hlt

theorem onNewEpoch_inBounds (h : s.roster.Wf) : InBounds s.onNewEpoch := by
  refine .bind (updateStakeLocks_inBounds ?_) fun s₁ h₁ => ?_
  · exact fun info hi config hc => score_lt h (mem_append_left _ hi) hc
  have hearned := (updateStakeLocks_earned h₁).1
  refine .bind (updateStakeLocks_inBounds ?_) fun s₂ _ => ?_
  · rw [hearned.set,hearned.configs,hearned.performance]
    exact fun info hi config hc => score_lt h (mem_append_right _ hi) hc
  refine .bind (nextEpochValidators_inBounds _ _ _ _) fun _ _ => ?_
  exact .bind (assignIndices_inBounds _ _ _) fun _ _ => inBounds_ok _

/-- In every reachable state nobody is listed twice, everybody listed has a stake lock and a
config, the validators that vote have scores of their own, and the epoch change never reads a
score out of bounds. -/
theorem validators_indexed {config : ValidationConfig} {stores : Address → Option CoinStore}
    {supply : ℕ} (h : Reachable (step pop) (genesis config stores supply) s) :
    ((s.set.activeValidators ++ s.set.pendingInactive ++ s.set.pendingActive).map
      ValidatorInfo.address).Nodup ∧
    (∀ info ∈ s.set.activeValidators ++ s.set.pendingInactive ++ s.set.pendingActive,
      ∃ l c, s.stakeLocks info.address = some l ∧ s.configs info.address = some c) ∧
    (∀ info ∈ s.set.activeValidators ++ s.set.pendingInactive, ∀ c,
      s.configs info.address = some c → c.validatorIndex < s.performance.length) ∧
    (∀ i ∈ s.set.activeValidators ++ s.set.pendingInactive,
      ∀ j ∈ s.set.activeValidators ++ s.set.pendingInactive, ∀ c d,
        s.configs i.address = some c → s.configs j.address = some d →
        c.validatorIndex = d.validatorIndex → i.address = j.address) ∧
    InBounds s.onNewEpoch := by
  -- Everything below is read off the roster of the state.
  have hwf : s.roster.Wf := h.invariant (I := fun t => t.roster.Wf)
    (genesis_roster_wf config stores supply) fun _ _ _ ht hs => step_roster_wf ht hs
  have hmembers : (s.set.activeValidators ++ s.set.pendingInactive ++ s.set.pendingActive).map
      ValidatorInfo.address = s.roster.members := by
    rw [map_append,map_append]
    rfl
  have hvoters : (s.set.activeValidators ++ s.set.pendingInactive).map ValidatorInfo.address =
      s.roster.active ++ s.roster.leaving := map_append
  have hreg : ∀ info ∈ s.set.activeValidators ++ s.set.pendingInactive ++ s.set.pendingActive,
      ∃ l c, s.stakeLocks info.address = some l ∧ s.configs info.address = some c := by
    intro info hi
    have hsome := hwf.registered info.address (hmembers ▸ mem_map_of_mem hi)
    obtain ⟨i,hindex⟩ := Option.isSome_iff_exists.mp hsome
    obtain ⟨l,c,hl,hc,_⟩ := indexOf_eq_some.mp hindex
    exact ⟨l,c,hl,hc⟩
  refine ⟨hmembers ▸ hwf.nodup,hreg,fun info hi c hc => score_lt hwf hi hc,?_,
    onNewEpoch_inBounds hwf⟩
  intro i hi j hj c d hc hd hcd
  refine hwf.distinct _ (hvoters ▸ mem_map_of_mem hi) _ (hvoters ▸ mem_map_of_mem hj) ?_
  obtain ⟨l,_,hl,_⟩ := hreg i (mem_append_left _ hi)
  obtain ⟨m,_,hm,_⟩ := hreg j (mem_append_left _ hj)
  exact (indexOf_eq_some.mpr ⟨l,c,hl,hc,hcd⟩).trans (indexOf_eq_some.mpr ⟨m,d,hm,hd,rfl⟩).symm

end ValidatorStorage

def ValidationConfig.small : ValidationConfig where
  minimumStake := 10
  maximumStake := 1000
  recurringLockupDurationSecs := 60
  allowValidatorSetChange := true
  rewardsRate := 1
  rewardsRateDenominator := 100
  votingPowerIncreaseLimit := 50
  stakeRange := by decide
  lockupPos := by decide
  denominatorPos := by decide
  limitRange := by decide
  rateBounded := by decide
  rateLeOne := by decide

namespace ValidatorStorage

def small : ValidatorStorage := genesis .small (fun _ => some ⟨500,false⟩) 1000000

def enter (a : Address) (stake : ℕ) : List ValidatorOp :=
  [.initializeStakeOwner a stake a a,.rotateConsensusKey a a [7] [],.joinValidatorSetInternal a a]

/-- Two validators join, and one of them asks to leave in the epoch after. -/
theorem validators_indexed_leaver :
    ∃ s, Reachable (step fun _ _ => true) small s ∧
      s.set.activeValidators.map ValidatorInfo.address = [2] ∧
      s.set.pendingInactive.map ValidatorInfo.address = [1] ∧ InBounds s.onNewEpoch := by
  have hs : exec (step fun _ _ => true) small
      (enter 1 100 ++ enter 2 200 ++ [.onNewEpoch,.leaveValidatorSet 1 1]) = .ok _ := rfl
  exact ⟨_,.of_exec hs,rfl,rfl,(validators_indexed (.of_exec hs)).2.2.2.2⟩

end ValidatorStorage

namespace StakeLock

structure Keeps (now : ℕ) (l l' : StakeLock) : Prop where
  lockup : l.lockedUntilSecs ≤ l'.lockedUntilSecs
  stake : now < l.lockedUntilSecs → l.nonInactive ≤ l'.nonInactive

variable {now : ℕ} {l l' l'' : StakeLock}

theorem Keeps.trans (h : l.Keeps now l') (h' : l'.Keeps now l'') : l.Keeps now l'' := by
  refine ⟨h.lockup.trans h'.lockup,?_⟩
  intro hlt
  exact (h.stake hlt).trans (h'.stake (hlt.trans_le h.lockup))

theorem Keeps.of_le (hlock : l'.lockedUntilSecs = l.lockedUntilSecs)
    (hle : l.nonInactive ≤ l'.nonInactive) : l.Keeps now l' := ⟨hlock.ge,fun _ => hle⟩

end StakeLock

variable {now : ℕ} {l l' : StakeLock}

/-- Only a release takes stake out of the three buckets, and it waits for the lockup. -/
theorem LockStep.keeps (h : LockStep now l l') : l.Keeps now l' := by
  cases h with
  | addActive | addPendingActive | addPendingInactive | activate | unlock | reactivate =>
    refine .of_le rfl ?_
    simp only [StakeLock.nonInactive]
    omega
  | release hexpired => exact ⟨le_rfl,fun hlt => absurd hlt (Nat.not_lt.mpr hexpired)⟩
  | extend secs hle => exact ⟨hle,fun _ => le_rfl⟩
  | take | hand => exact .of_le rfl le_rfl

theorem LockSteps.keeps (h : LockSteps now l l') : l.Keeps now l' := by
  induction h with
  | refl => exact .of_le rfl le_rfl
  | tail _ hs ih => exact ih.trans hs.keeps

namespace ValidatorStorage

variable {s t : ValidatorStorage} {a : Address} {pop : Bytes → Bytes → Bool} {o : ValidatorOp}
  {os : List ValidatorOp}

def LockedAt (s : ValidatorStorage) (a : Address) : Prop :=
  ∀ l, s.stakeLocks a = some l → s.nowSeconds < l.lockedUntilSecs

theorem step_keeps (h : s.step pop o = .ok t) (hl : s.stakeLocks a = some l) :
    ∃ l', t.stakeLocks a = some l' ∧ l.Keeps s.nowSeconds l' := by
  obtain hf | ⟨us,_,rfl⟩ := step_follows h
  · obtain ⟨l',hl',hs⟩ := hf.locks a l hl
    exact ⟨l',hl',hs.keeps⟩
  · exact ⟨l,hl,.of_le rfl le_rfl⟩

theorem run_lockup (h : Reaches (step pop) s os t) (hl : s.stakeLocks a = some l) :
    ∃ l', t.stakeLocks a = some l' ∧ l.lockedUntilSecs ≤ l'.lockedUntilSecs := by
  refine h.invariant (I := fun u => ∃ l', u.stakeLocks a = some l' ∧
    l.lockedUntilSecs ≤ l'.lockedUntilSecs) ⟨l,hl,le_rfl⟩ ?_
  rintro u o v ⟨m,hm,hle⟩ _ hstep
  obtain ⟨m',hm',hk⟩ := step_keeps hstep hm
  exact ⟨m',hm',hle.trans hk.lockup⟩

theorem run_stake (h : Run (step pop) (fun u _ => u.LockedAt a) s os t)
    (hl : s.stakeLocks a = some l) :
    ∃ l', t.stakeLocks a = some l' ∧ l.nonInactive ≤ l'.nonInactive := by
  refine h.invariant (I := fun u => ∃ l', u.stakeLocks a = some l' ∧
    l.nonInactive ≤ l'.nonInactive) ⟨l,hl,le_rfl⟩ ?_
  rintro u o v ⟨m,hm,hle⟩ hlocked hstep
  obtain ⟨m',hm',hk⟩ := step_keeps hstep hm
  exact ⟨m',hm',hle.trans (hk.stake (hlocked m hm))⟩

/-- What `withdraw_with_cap` pays was inactive, or pending inactive with an expired lockup. -/
theorem withdrawWithCap_pays {n coins : ℕ} (hl : s.stakeLocks a = some l)
    (h : s.withdrawWithCap a n = .ok (t, coins)) :
    coins ≤ l.inactive ∨
      l.lockedUntilSecs ≤ s.nowSeconds ∧ coins ≤ l.inactive + l.pendingInactive := by
  obtain ⟨m,r,hm,hle,hr,-⟩ := withdrawWithCap_ok h
  cases hl.symm.trans hm
  obtain rfl | ⟨hexpired,rfl⟩ := hr
  · exact .inl hle
  · exact .inr ⟨hexpired,hle⟩

theorem step_nowSeconds (h : s.step pop o = .ok t) : s.nowSeconds ≤ t.nowSeconds := by
  obtain hf | ⟨us,hus,rfl⟩ := step_follows h
  · exact hf.nowSeconds.ge
  · exact Nat.div_le_div_right hus

/-- Up to a time before the lockup of the first state has expired, no state has expired. -/
theorem run_lockedAt (h : Reaches (step pop) s os t) (hl : s.stakeLocks a = some l)
    (hlt : t.nowSeconds < l.lockedUntilSecs) :
    Run (step pop) (fun u _ => u.LockedAt a) s os t := by
  induction h with
  | nil => exact .nil _
  | snoc hr _ hstep ih =>
    have hbefore := (step_nowSeconds hstep).trans_lt hlt
    refine .snoc (ih hbefore) ?_ hstep
    intro m hm
    obtain ⟨l',hl',hle⟩ := run_lockup hr hl
    cases hm.symm.trans hl'
    exact hbefore.trans_le hle

/-- From every state, along every run: the lockup of a lock is never shortened; its stake that
is not inactive does not shrink while the lockup lasts, be it extended on the way or not; and a
withdrawal pays inactive stake, or pending stake whose lockup has expired. -/
theorem stake_stays_locked (hl : s.stakeLocks a = some l) :
    (∀ os t, Reaches (step pop) s os t →
      ∃ l', t.stakeLocks a = some l' ∧ l.lockedUntilSecs ≤ l'.lockedUntilSecs) ∧
    (∀ os t, Run (step pop) (fun u _ => u.LockedAt a) s os t →
      ∃ l', t.stakeLocks a = some l' ∧ l.nonInactive ≤ l'.nonInactive) ∧
    (∀ os t, Reaches (step pop) s os t → t.nowSeconds < l.lockedUntilSecs →
      ∃ l', t.stakeLocks a = some l' ∧ l.nonInactive ≤ l'.nonInactive) ∧
    (∀ n t coins, s.withdrawWithCap a n = .ok (t, coins) → coins ≤ l.inactive ∨
      l.lockedUntilSecs ≤ s.nowSeconds ∧ coins ≤ l.inactive + l.pendingInactive) := by
  refine ⟨?_,?_,?_,?_⟩
  · exact fun os t h => run_lockup h hl
  · exact fun os t h => run_stake h hl
  · exact fun os t h hlt => run_stake (run_lockedAt h hl hlt) hl
  · exact fun n t coins h => withdrawWithCap_pays hl h

/-- A validator unlocks half of its stake and tries to withdraw it in its first epoch. -/
theorem stake_stays_locked_unlock :
    ∃ s l t, Reachable (step fun _ _ => true) small s ∧ s.stakeLocks 1 = some l ∧
      l.nonInactive = 100 ∧ Reaches (step fun _ _ => true) s [.unlock 1 50,.withdraw 1 50] t ∧
      ∃ l', t.stakeLocks 1 = some l' ∧ l.nonInactive ≤ l'.nonInactive := by
  have hrun : ∃ s l t, exec (step fun _ _ => true) small (enter 1 100 ++ [.onNewEpoch]) = .ok s ∧
      s.stakeLocks 1 = some l ∧ l.nonInactive = 100 ∧
      exec (step fun _ _ => true) s [.unlock 1 50,.withdraw 1 50] = .ok t ∧
      t.nowSeconds = 0 ∧ l.lockedUntilSecs = 60 := ⟨_,_,_,rfl,rfl,rfl,rfl,rfl,rfl⟩
  obtain ⟨s,l,t,hs,hl,hstake,ht,hnow,hlock⟩ := hrun
  have hr := reaches_iff_exec.mpr ht
  refine ⟨s,l,t,.of_exec hs,hl,hstake,hr,?_⟩
  exact (stake_stays_locked hl).2.2.1 _ t hr (by omega)

end ValidatorStorage

end Arx
