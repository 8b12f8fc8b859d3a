import Arx.Framework.ValidatorSteps

/-!
# The epoch change of the validator set

The first two loops of `on_new_epoch` pay the validators, the last one numbers those of the next
epoch.
-/

namespace Arx
open Movelib Function List

namespace ValidatorStorage

variable {s t u : ValidatorStorage} {a : Address} {l l' : StakeLock} {n i : ℕ}
    {infos infos' : List ValidatorInfo}
    {performance performance' : List IndividualValidatorPerformance} {config : ValidationConfig}

def earns (s : ValidatorStorage) (a : Address) (stake : ℕ) : ℕ :=
  match (s.configs a).bind fun config => s.performance[config.validatorIndex]? with
  | some perf => stake * s.config.rewardsRate * perf.successfulProposals /
      (s.config.rewardsRateDenominator * (perf.successfulProposals + perf.failedProposals))
  | none => 0

def feeOf (s : ValidatorStorage) (a : Address) : ℕ :=
  if s.collectFees then (s.fees.bind fun table => table a).getD 0 else 0

def feesWithout (s : ValidatorStorage) (a : Address) : Option (Address → Option ℕ) :=
  if s.collectFees then s.fees.map fun table => update table a none else s.fees

def settled (s : ValidatorStorage) (a : Address) (l : StakeLock) : StakeLock :=
  let lock : StakeLock := { l with
    active := l.active + s.earns a l.active + l.pendingActive + s.feeOf a
    pendingActive := 0
    pendingInactive := l.pendingInactive + s.earns a l.pendingInactive }
  if l.lockedUntilSecs ≤ s.nowSeconds then
    { lock with inactive := lock.inactive + lock.pendingInactive, pendingInactive := 0 }
  else lock

theorem rewardOf_ok {stake good total r : ℕ} (h : rewardOf config stake good total = .ok r) :
    r = stake * config.rewardsRate * good / (config.rewardsRateDenominator * total) := by
  rw [rewardOf] at h
  split at h
  · simp only [calculateRewardsAmount,bind_eq_ok,mulChecked_eq_ok] at h
    obtain ⟨_,⟨-,rfl⟩,_,⟨-,rfl⟩,_,⟨-,rfl⟩,h⟩ := h
    split at h
    · exact (castChecked_eq_ok.mp h).2.symm
    · next hzero =>
      cases h
      rw [Nat.eq_zero_of_not_pos hzero,Nat.div_zero]
  · next hzero =>
    cases h
    simp [Nat.eq_zero_of_not_pos hzero]

theorem distributeRewards_ok {supply stake good total supply' stake' amount : ℕ}
    (h : distributeRewards config supply stake good total = .ok (supply', stake', amount)) :
    supply' = supply + amount ∧ stake' = stake + amount ∧
      amount = stake * config.rewardsRate * good / (config.rewardsRateDenominator * total) := by
  obtain ⟨r,hr,h⟩ := bind_eq_ok.mp h
  rw [← rewardOf_ok hr]
  by_cases hpos : r > 0
  · rw [if_pos hpos] at h
    simp only [bind_eq_ok,Coin.mint_eq_ok,Coin.merge_eq_ok,pure_eq_ok,Prod.mk.injEq] at h
    obtain ⟨_,⟨_,rfl⟩,_,⟨_,rfl⟩,rfl,rfl,rfl⟩ := h
    exact ⟨rfl,rfl,rfl⟩
  · rw [if_neg hpos,pure_eq_ok,Prod.mk.injEq] at h
    obtain ⟨rfl,rfl,rfl⟩ := h
    omega

theorem collectFeesOf_ok {active active' : ℕ} {fees : Option (Address → Option ℕ)}
    (h : s.collectFeesOf a active = .ok (fees, active')) :
    active' = active + s.feeOf a ∧ fees = s.feesWithout a := by
  rw [collectFeesOf] at h
  rw [feeOf,feesWithout]
  split at h
  · next hcollect =>
    simp only [bind_eq_ok,borrowGlobal_eq_ok] at h
    obtain ⟨table,htable,h⟩ := h
    split at h
    · next coin hcoin =>
      simp only [bind_eq_ok,Coin.merge_eq_ok,pure_eq_ok,Prod.mk.injEq] at h
      obtain ⟨_,⟨-,rfl⟩,rfl,rfl⟩ := h
      simp [hcollect,htable,hcoin]
    · next hnone =>
      cases h
      simp [hcollect,htable,hnone]
  · next hcollect =>
    cases h
    simp [hcollect]

theorem feesWithout_changes :
    Changes (s, n) ({ s with fees := s.feesWithout a }, n + s.feeOf a) := by
  rw [feesWithout,feeOf]
  split
  · cases htable : s.fees with
    | none =>
      show Changes (s, n) ({ s with fees := none }, n)
      rw [← htable]
    | some table =>
      show Changes (s, n) ({ s with fees := some (update table a none) },
        n + (table a).getD 0)
      cases hcoin : table a with
      | none =>
        rw [update_eq_self_iff.mpr hcoin.symm,← htable]
        exact .refl
      | some coin => exact .single (.collect s n a table coin htable hcoin)
  · exact .refl

theorem settled_steps : LockSteps s.nowSeconds l (s.settled a l) := by
  have hearn : LockSteps s.nowSeconds l { l with
      active := l.active + s.earns a l.active + l.pendingActive + s.feeOf a
      pendingActive := 0
      pendingInactive := l.pendingInactive + s.earns a l.pendingInactive } :=
    (((Relation.ReflTransGen.single (.addActive _)).tail (.addPendingInactive _)).tail
      .activate).tail (.addActive _)
  rw [settled]
  split
  · exact hearn.tail (.release ‹_›)
  · exact hearn

theorem settled_value : (s.settled a l).value =
    l.value + (s.earns a l.active + s.earns a l.pendingInactive + s.feeOf a) := by
  rw [settled]
  split
  · simp only [StakeLock.value]
    omega
  · simp only [StakeLock.value]
    omega

theorem updateStakeLock_ok (h : s.updateStakeLock a = .ok t) :
    ∃ l, s.stakeLocks a = some l ∧ t = { s.putLock a (s.settled a l) with
      supply := s.supply + s.earns a l.active + s.earns a l.pendingInactive
      fees := s.feesWithout a } := by
  simp only [updateStakeLock,bind_eq_ok,borrowGlobal_eq_ok,vectorBorrow_eq_ok,addChecked_eq_ok,
    Coin.merge_eq_ok,pure_eq_ok] at h
  obtain ⟨l,hl,config,hconfig,perf,hperf,_,⟨-,rfl⟩,⟨_,_,r⟩,hr,⟨supply,_,r'⟩,hr',_,-,_,⟨-,rfl⟩,
    ⟨fees,_⟩,hfee,l',hl',rfl⟩ := h
  have hearns : ∀ n, s.earns a n = n * s.config.rewardsRate * perf.successfulProposals /
      (s.config.rewardsRateDenominator * (perf.successfulProposals + perf.failedProposals)) := by
    intro n
    rw [earns,hconfig,Option.bind_some,hperf]
  obtain ⟨rfl,rfl,hamount⟩ := distributeRewards_ok hr
  obtain ⟨rfl,rfl,hamount'⟩ := distributeRewards_ok hr'
  obtain ⟨rfl,rfl⟩ := collectFeesOf_ok hfee
  rw [← hearns] at hamount hamount'
  refine ⟨l,hl,?_⟩
  rw [StakeLock.releaseIf_ok hl',hamount,hamount']
  rfl

structure Earned (s t : ValidatorStorage) : Prop where
  follows : Follows s t
  set : t.set = s.set
  configs : t.configs = s.configs
  performance : t.performance = s.performance
  roster : t.roster = s.roster

theorem updateStakeLock_earned (h : s.updateStakeLock a = .ok t) :
    Earned s t ∧ ∀ n, Changes (s, n) (t, n) := by
  obtain ⟨l,hl,rfl⟩ := updateStakeLock_ok h
  have hf := follows_putLock hl (settled_steps (a := a))
  refine ⟨⟨⟨hf.time,hf.locks,hf.roster⟩,rfl,rfl,rfl,roster_putLock hl⟩,fun n => ?_⟩
  let r := s.earns a l.active
  let r' := s.earns a l.pendingInactive
  let fees := s.feesWithout a
  have hmint : Changes ({ s with fees }, n + s.feeOf a)
      ({ s with fees, supply := s.supply + r + r' }, n + s.feeOf a + r + r') :=
    (Relation.ReflTransGen.single (.mint _ _ r)).tail (.mint _ _ r')
  have hstake : Changes ({ s with fees, supply := s.supply + r + r' }, n + (r + r' + s.feeOf a))
      ({ s.putLock a (s.settled a l) with fees, supply := s.supply + r + r' }, n) :=
    .single (.stake _ n a l _ _ hl settled_value)
  rw [show n + s.feeOf a + r + r' = n + (r + r' + s.feeOf a) by omega] at hmint
  exact feesWithout_changes.trans (hmint.trans hstake)

theorem updateStakeLocks_earned (h : updateStakeLocks s infos = .ok t) :
    Earned s t ∧ ∀ n, Changes (s, n) (t, n) := by
  induction infos generalizing s with
  | nil =>
    cases h
    exact ⟨⟨.refl _,rfl,rfl,rfl,rfl⟩,fun _ => .refl⟩
  | cons info infos ih =>
    obtain ⟨m,hm,h⟩ := bind_eq_ok.mp h
    obtain ⟨h₁,hc₁⟩ := updateStakeLock_earned hm
    obtain ⟨h₂,hc₂⟩ := ih h
    exact ⟨⟨h₁.follows.trans h₂.follows,h₂.set.trans h₁.set,h₂.configs.trans h₁.configs,
      h₂.performance.trans h₁.performance,h₂.roster.trans h₁.roster⟩,
      fun n => (hc₁ n).trans (hc₂ n)⟩

theorem nextEpochValidators_ok {acc next : List ValidatorInfo} {power total : ℕ}
    (h : s.nextEpochValidators infos acc power = .ok (next, total)) :
    ∃ kept, kept.Sublist (infos.map ValidatorInfo.address) ∧
      next.map ValidatorInfo.address = acc.map ValidatorInfo.address ++ kept := by
  induction infos generalizing acc power with
  | nil =>
    cases h
    exact ⟨[],.refl [],(append_nil _).symm⟩
  | cons old infos ih =>
    simp only [nextEpochValidators,bind_eq_ok,borrowGlobal_eq_ok] at h
    obtain ⟨config,_,l,_,info,hinfo,h⟩ := h
    split at h
    · obtain ⟨power',_,h⟩ := bind_eq_ok.mp h
      obtain ⟨kept,hk,hnext⟩ := ih h
      refine ⟨old.address :: kept,hk.cons_cons old.address,?_⟩
      rw [hnext,map_append,append_assoc,map_singleton,
        ValidatorInfo.generate_address hinfo]
      rfl
    · obtain ⟨kept,hk,hnext⟩ := ih h
      exact ⟨kept,hk.cons old.address,hnext⟩

structure Renumbered (s t : ValidatorStorage) (i : ℕ) (addrs : List Address) : Prop where
  time : t.microseconds = s.microseconds
  locks : ∀ a l, s.stakeLocks a = some l →
    ∃ l', t.stakeLocks a = some l' ∧ LockSteps s.nowSeconds l l'
  index : t.indexOf = Roster.number s.indexOf i addrs
  size : t.performance.length = s.performance.length + addrs.length

theorem assignIndex_ok (h : s.assignIndex a i = .ok t) :
    ∃ config l secs, s.configs a = some config ∧ s.stakeLocks a = some l ∧
      l.lockedUntilSecs ≤ secs ∧ t = { s.putConfig a { config with validatorIndex := i } with
        performance := s.performance ++ [IndividualValidatorPerformance.mk 0 0] }.putLock a
          { l with lockedUntilSecs := secs } := by
  simp only [assignIndex,renewLockup,bind_eq_ok,borrowGlobal_eq_ok,pure_eq_ok] at h
  obtain ⟨config,hc,l,hl,l',hl',rfl⟩ := h
  split at hl'
  · next hle =>
    simp only [bind_eq_ok,addChecked_eq_ok,pure_eq_ok] at hl'
    obtain ⟨_,⟨_,rfl⟩,rfl⟩ := hl'
    exact ⟨config,l,_,hc,hl,hle.trans (Nat.le_add_right _ _),rfl⟩
  · cases hl'
    exact ⟨config,l,_,hc,hl,le_rfl,rfl⟩

theorem assignIndex_renumbered (h : s.assignIndex a i = .ok t) :
    Renumbered s t i [a] ∧ ∀ n, QuietChanges (s, n) (t, n) := by
  obtain ⟨config,l,secs,hc,hl,hle,rfl⟩ := assignIndex_ok h
  have hf := follows_putLock hl (.single (.extend secs hle))
  refine ⟨⟨rfl,hf.locks,?_,by simp [putLock,putConfig]⟩,fun n =>
    (Relation.ReflTransGen.single (.registry s n _ _ _ _)).tail (.move _ n a l _ hl rfl le_rfl)⟩
  funext b
  show _ = update s.indexOf a (some i) b
  by_cases hb : b = a
  · subst hb
    simp [indexOf,putLock,putConfig]
  · simp [indexOf,putLock,putConfig,update_of_ne hb]

theorem assignIndices_renumbered (h : assignIndices s i infos = .ok (t, infos')) :
    Renumbered s t i (infos.map ValidatorInfo.address) ∧
      infos'.map ValidatorInfo.address = infos.map ValidatorInfo.address ∧
      ∀ n, QuietChanges (s, n) (t, n) := by
  induction infos generalizing s i infos' with
  | nil =>
    cases h
    exact ⟨⟨rfl,fun _ l hl => ⟨l,hl,.refl⟩,rfl,rfl⟩,rfl,fun _ => .refl⟩
  | cons info infos ih =>
    simp only [assignIndices,bind_eq_ok,pure_eq_ok,Prod.mk.injEq] at h
    obtain ⟨m,hm,⟨_,rest⟩,hrest,rfl,rfl⟩ := h
    obtain ⟨h₁,hc₁⟩ := assignIndex_renumbered hm
    obtain ⟨h₂,haddr,hc₂⟩ := ih hrest
    have hnow : m.nowSeconds = s.nowSeconds := by
      rw [ValidatorStorage.nowSeconds,ValidatorStorage.nowSeconds,h₁.time]
    refine ⟨⟨h₂.time.trans h₁.time,?_,?_,?_⟩,congrArg (info.address :: ·) haddr,
      fun n => (hc₁ n).trans (hc₂ n)⟩
    · intro b l hl
      obtain ⟨l',hl',hs⟩ := h₁.locks b l hl
      obtain ⟨l'',hl'',hs'⟩ := h₂.locks b l' hl'
      exact ⟨l'',hl'',hs.trans (hnow ▸ hs')⟩
    · rw [h₂.index,h₁.index]
      rfl
    · rw [h₂.size,h₁.size,length_singleton,map_cons,length_cons]
      omega

theorem onNewEpoch_follows (h : s.onNewEpoch = .ok t) : Follows s t := by
  simp only [onNewEpoch,bind_eq_ok,pure_eq_ok] at h
  obtain ⟨s₁,h₁,s₂,h₂,⟨next,total⟩,hnext,⟨s₃,infos⟩,h₃,rfl⟩ := h
  refine (updateStakeLocks_earned h₁).1.follows.trans
    ((updateStakeLocks_earned h₂).1.follows.trans ?_)
  obtain ⟨kept,hk,haddr⟩ := nextEpochValidators_ok hnext
  obtain ⟨hr,hinfos,-⟩ := assignIndices_renumbered h₃
  have hkept : next.map ValidatorInfo.address = kept := haddr
  refine ⟨hr.time,hr.locks,.single ?_⟩
  -- The rest is one `nextTerm` of the roster: the candidates with enough stake, renumbered.
  have hsub : kept.Sublist (s₂.roster.active ++ s₂.roster.joining.reverse) := by
    rw [drain_eq,map_append,map_reverse] at hk
    exact hk
  have hterm := Roster.Step.nextTerm s₂.roster kept hsub
  have hindex : s₃.indexOf = Roster.number s₂.indexOf 0 kept := hkept ▸ hr.index
  have hsize : s₃.performance.length = kept.length := by
    rw [hr.size,hkept]
    exact Nat.zero_add _
  have hactive := hinfos.trans hkept
  show Roster.Step s₂.roster ⟨infos.map ValidatorInfo.address,[],[],s₃.indexOf,
    s₃.performance.length⟩
  rw [hactive,hindex,hsize]
  exact hterm

theorem onNewEpoch_changes (h : s.onNewEpoch = .ok t) : Changes (s, n) (t, n) := by
  simp only [onNewEpoch,bind_eq_ok,pure_eq_ok] at h
  obtain ⟨s₁,h₁,s₂,h₂,_,_,⟨s₃,infos⟩,h₃,rfl⟩ := h
  have hscores : Changes (s₂, n) ({ s₂ with performance := [] }, n) :=
    .single (.quiet (.registry s₂ n _ _ _ _))
  have hnumbers := QuietChanges.changes ((assignIndices_renumbered h₃).2.2 n)
  exact (((updateStakeLocks_earned h₁).2 n).trans ((updateStakeLocks_earned h₂).2 n)).trans <|
    (hscores.trans hnumbers).tail (.set s₃ n _)

theorem countProposal_length {success : Bool} {i : ℕ}
    (h : countProposal performance success i = .ok performance') :
    performance'.length = performance.length := by
  rw [countProposal] at h
  split at h
  · cases h
    rfl
  · split at h
    · obtain ⟨_,_,⟨⟩⟩ := bind_eq_ok.mp h
      exact length_set
    · obtain ⟨_,_,⟨⟩⟩ := bind_eq_ok.mp h
      exact length_set

theorem countProposals_length {success : Bool} {indices : List ℕ}
    (h : indices.foldlM (countProposal · success) performance = .ok performance') :
    performance'.length = performance.length := by
  induction indices generalizing performance with
  | nil =>
    cases h
    rfl
  | cons i indices ih =>
    rw [foldlM_cons,bind_eq_ok] at h
    obtain ⟨m,hm,h⟩ := h
    rw [ih h,countProposal_length hm]

theorem updatePerformanceStatistics_quiet {proposer : Option ℕ} {failed : List ℕ}
    (h : s.updatePerformanceStatistics proposer failed = .ok t) : Quiet s t 0 := by
  simp only [updatePerformanceStatistics,bind_eq_ok,pure_eq_ok] at h
  obtain ⟨m,hm,p,hp,rfl⟩ := h
  have hsize := (countProposals_length hp).trans (countProposals_length hm)
  refine .of_roster rfl rfl ?_ fun n => .registry s n _ _ _ _
  show ({ s.roster with size := p.length } : Roster Address) = s.roster
  rw [hsize]
  rfl

end ValidatorStorage

/-- The coins that come with a call, out of the hands of another module. -/
def ValidatorOp.brings : ValidatorOp → ℕ
  | .lockStakeWithCap _ coins => coins
  | .addTransactionFee _ fee => fee
  | _ => 0

/-- False for the calls that stake, mint, or write the set, the fees, a parameter or the coin
stores. -/
def ValidatorOp.isQuiet : ValidatorOp → Bool
  | .initializeStakeOwner .. | .lockStakeWithCap .. | .lockStake ..
  | .joinValidatorSetInternal .. | .joinValidatorSet .. | .leaveValidatorSet ..
  | .initializeValidatorFees | .addTransactionFee .. | .changeFeatureFlag ..
  | .updateRequiredStake .. | .updateRecurringLockupDurationSecs .. | .updateRewardsRate ..
  | .updateVotingPowerIncreaseLimit .. | .wallets .. | .onNewEpoch => false
  | _ => true

/-- The calls within an epoch: all but its end and the updates of the staking parameters. -/
def ValidatorOp.withinEpoch : ValidatorOp → Bool
  | .updateRequiredStake .. | .updateRecurringLockupDurationSecs .. | .updateRewardsRate ..
  | .updateVotingPowerIncreaseLimit .. | .onNewEpoch => false
  | _ => true

namespace ValidatorStorage

variable {s t : ValidatorStorage} {pop : Bytes → Bytes → Bool} {o : ValidatorOp}

def locks (s : ValidatorStorage) : ValidatorOp → Address → ℕ
  | .lockStakeWithCap cap coins => fun a => if a = cap then coins else 0
  | .lockStake owner amount => fun a => if s.ownerCaps owner = some a then amount else 0
  | .initializeStakeOwner owner amount _ _ => fun a => if a = owner then amount else 0
  | _ => fun _ => 0

inductive Effect (s : ValidatorStorage) : ValidatorOp → ValidatorStorage → Prop
  | quiet {o : ValidatorOp} {t : ValidatorStorage} {k : ℕ} (ho : o.isQuiet = true)
      (h : Quiet s t k) : Effect s o t
  | clock {nilBlock : Bool} {timestamp us : ℕ} (h : s.microseconds ≤ us) :
      Effect s (.updateGlobalTime nilBlock timestamp) { s with microseconds := us }
  | stake {o : ValidatorOp} {t : ValidatorStorage} {a : Address} {amount k : ℕ}
      (hb : o.brings + k = amount) (hl : s.locks o = fun b => if b = a then amount else 0)
      (h : Staked s t a amount k) : Effect s o t
  | joinInternal {operator a : Address} {t : ValidatorStorage}
      (h : s.joinValidatorSetInternal operator a = .ok t) :
      Effect s (.joinValidatorSetInternal operator a) t
  | join {operator a : Address} {t : ValidatorStorage}
      (h : s.joinValidatorSetInternal operator a = .ok t) :
      Effect s (.joinValidatorSet operator a) t
  | leave {operator a : Address} {t : ValidatorStorage}
      (h : s.leaveValidatorSet operator a = .ok t) : Effect s (.leaveValidatorSet operator a) t
  | openFees (h : s.fees = none) :
      Effect s .initializeValidatorFees { s with fees := some fun _ => none }
  | credit {a : Address} {fee : ℕ} {table : Address → Option ℕ} (h : s.fees = some table) :
      Effect s (.addTransactionFee a fee) { s with
        fees := some (update table a (some ((table a).getD 0 + fee))) }
  | flag (collectFees : Bool) : Effect s (.changeFeatureFlag collectFees) { s with collectFees }
  | wallets (stores : Address → Option CoinStore) (supply : ℕ) :
      Effect s (.wallets stores supply) { s with stores, supply }
  | config {o : ValidatorOp} (ho : o.withinEpoch = false) (hb : o.brings = 0)
      (config : ValidationConfig) : Effect s o { s with config }
  | epoch {t : ValidatorStorage} (h : s.onNewEpoch = .ok t) : Effect s .onNewEpoch t

theorem withConfig_effect {config : Result ValidationConfig} (ho : o.withinEpoch = false)
    (hb : o.brings = 0) (h : s.withConfig config = .ok t) : Effect s o t := by
  obtain ⟨c,_,h⟩ := bind_eq_ok.mp h
  cases h
  exact .config ho hb c

theorem step_effect (h : s.step pop o = .ok t) : Effect s o t := by
  cases o with
  | initializeStakeOwner => exact .stake (Nat.zero_add _) rfl (initializeStakeOwner_ok h)
  | initializeValidator => exact .quiet rfl (initializeValidator_quiet h)
  | extractOwnerCap =>
    obtain ⟨⟨_,_⟩,h,⟨⟩⟩ := bind_eq_ok.mp h
    exact .quiet rfl (extractOwnerCap_quiet h)
  | depositOwnerCap => exact .quiet rfl (depositOwnerCap_quiet h)
  | setOperatorWithCap => exact .quiet rfl (setOperatorWithCap_quiet h)
  | setVaultWithCap => exact .quiet rfl (setVaultWithCap_quiet h)
  | setOperator => exact .quiet rfl (.of_cap (fun _ _ => setOperatorWithCap_quiet) h)
  | setVault => exact .quiet rfl (.of_cap (fun _ _ => setVaultWithCap_quiet) h)
  | lockStakeWithCap => exact .stake rfl rfl ⟨s,t,.refl s,h,.refl t⟩
  | reactivateStakeWithCap => exact .quiet rfl (reactivateStakeWithCap_quiet h)
  | unlockWithCap => exact .quiet rfl (unlockWithCap_quiet h)
  | withdrawWithCap =>
    obtain ⟨⟨_,coins⟩,h,⟨⟩⟩ := bind_eq_ok.mp h
    exact .quiet rfl (withdrawWithCap_quiet h)
  | increaseLockupWithCap => exact .quiet rfl (increaseLockupWithCap_quiet h)
  | lockStake owner amount =>
    obtain ⟨cap,hcap,hs⟩ := lockStake_ok h
    refine .stake (Nat.zero_add _) ?_ hs
    funext a
    show (if s.ownerCaps owner = some a then amount else 0) = _
    simp only [hcap,Option.some.injEq,eq_comm]
  | reactivateStake => exact .quiet rfl (.of_cap (fun _ _ => reactivateStakeWithCap_quiet) h)
  | unlock => exact .quiet rfl (.of_cap (fun _ _ => unlockWithCap_quiet) h)
  | withdraw => exact .quiet rfl (withdraw_quiet h)
  | increaseLockup => exact .quiet rfl (.of_cap (fun _ _ => increaseLockupWithCap_quiet) h)
  | rotateConsensusKey => exact .quiet rfl (rotateConsensusKey_quiet h)
  | updateNetworkInfo => exact .quiet rfl (updateNetworkInfo_quiet h)
  | joinValidatorSetInternal => exact .joinInternal h
  | joinValidatorSet =>
    obtain ⟨_,_,h⟩ := bind_eq_ok.mp h
    exact .join h
  | leaveValidatorSet => exact .leave h
  | updatePerformanceStatistics => exact .quiet rfl (updatePerformanceStatistics_quiet h)
  | initializeValidatorFees =>
    obtain ⟨hnone,rfl⟩ := initializeValidatorFees_ok h
    exact .openFees hnone
  | addTransactionFee =>
    obtain ⟨table,htable,rfl⟩ := addTransactionFee_ok h
    exact .credit htable
  | configureAllowedValidators =>
    cases h
    exact .quiet rfl (.of_roster (k := 0) rfl rfl rfl fun n => .registry s n _ _ _ _)
  | updateRequiredStake | updateRecurringLockupDurationSecs | updateRewardsRate
  | updateVotingPowerIncreaseLimit => exact withConfig_effect rfl rfl h
  | changeFeatureFlag =>
    cases h
    exact .flag _
  | wallets =>
    cases h
    exact .wallets _ _
  | updateGlobalTime =>
    obtain ⟨us,hus,⟨⟩⟩ := bind_eq_ok.mp h
    exact .clock (Timestamp.updateGlobalTime_le hus)
  | onNewEpoch => exact .epoch h

theorem step_follows (h : s.step pop o = .ok t) :
    Follows s t ∨ ∃ us, s.microseconds ≤ us ∧ t = { s with microseconds := us } := by
  cases step_effect h with
  | quiet _ he | stake _ _ he => exact .inl he.follows
  | clock he => exact .inr ⟨_,he,rfl⟩
  | joinInternal he | join he => exact .inl (joinValidatorSetInternal_follows he)
  | leave he => exact .inl (leaveValidatorSet_follows he)
  | epoch he => exact .inl (onNewEpoch_follows he)
  | _ => exact .inl (.of_roster rfl rfl rfl)

theorem step_changes (h : s.step pop o = .ok t) :
    (∃ m, ∀ n, Changes (s, n + o.brings) (t, n + m)) ∨ ∃ stores supply, o = .wallets stores supply := by
  cases step_effect h with
  | quiet ho he =>
    have hnone : o.brings = 0 := by
      cases o <;> first | rfl | cases ho
    rw [hnone]
    exact .inl ⟨_,fun n => QuietChanges.changes (he.changes n)⟩
  | clock => exact .inl ⟨0,fun n => .single (.quiet (.registry s n _ _ _ _))⟩
  | stake hb _ he => exact .inl ⟨0,fun n => he.changes (by omega)⟩
  | joinInternal he | join he =>
    obtain ⟨l,info,-,-,-,-,-,rfl⟩ := joinValidatorSetInternal_ok he
    exact .inl ⟨0,fun n => .single (.set s n _)⟩
  | leave he =>
    obtain ⟨l,rest,info,-,-,⟨-,rfl⟩ | ⟨-,-,rfl⟩⟩ := leaveValidatorSet_ok he
    · exact .inl ⟨0,fun n => .single (.set s n _)⟩
    · exact .inl ⟨0,fun n => .single (.set s n _)⟩
  | openFees he => exact .inl ⟨0,fun n => .single (.openFees s n he)⟩
  | credit he => exact .inl ⟨0,fun n => .single (.credit s n _ _ _ he)⟩
  | flag collectFees => exact .inl ⟨0,fun n => .single (.flag s n collectFees)⟩
  | wallets stores supply => exact .inr ⟨stores,supply,rfl⟩
  | config _ hb config =>
    rw [hb]
    exact .inl ⟨0,fun n => .single (.config s n config)⟩
  | epoch he => exact .inl ⟨0,fun n => onNewEpoch_changes he⟩

end ValidatorStorage

end Arx
