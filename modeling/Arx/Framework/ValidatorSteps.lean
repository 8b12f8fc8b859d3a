import Arx.Framework.ValidatorChanges

/-!
# What the calls of the validator module do

For every call but the epoch change, the storage that it leaves behind.
-/

namespace Arx
open Movelib Validator Function ValidatorInfo

namespace StakeLock

variable {l l' : StakeLock} {now n : ℕ}

theorem addStake_ok {current : Bool} (h : l.addStake current n = .ok l') :
    LockSteps now l l' ∧ l'.value = l.value + n ∧ l'.nonInactive = l.nonInactive + n := by
  cases current with
  | true =>
    simp only [addStake,if_true,bind_eq_ok,Coin.merge_eq_ok,pure_eq_ok] at h
    obtain ⟨_,⟨_,rfl⟩,rfl⟩ := h
    refine ⟨.single (.addPendingActive n),?_⟩
    simp only [value,nonInactive]
    omega
  | false =>
    simp only [addStake,Bool.false_eq_true,if_false,bind_eq_ok,Coin.merge_eq_ok,pure_eq_ok] at h
    obtain ⟨_,⟨_,rfl⟩,rfl⟩ := h
    refine ⟨.single (.addActive n),?_⟩
    simp only [value,nonInactive]
    omega

theorem reactivate_ok (h : l.reactivate n = .ok l') :
    LockSteps now l l' ∧ l'.value = l.value ∧ l'.nonInactive = l.nonInactive := by
  simp only [reactivate,bind_eq_ok,Coin.extract_eq_ok,Coin.merge_eq_ok,pure_eq_ok] at h
  obtain ⟨_,⟨hle,rfl⟩,_,⟨_,rfl⟩,rfl⟩ := h
  refine ⟨.single (.reactivate _ hle),?_⟩
  simp only [value,nonInactive]
  omega

theorem unlock_ok (h : l.unlock n = .ok l') :
    LockSteps now l l' ∧ l'.value = l.value ∧ l'.nonInactive = l.nonInactive := by
  simp only [unlock,bind_eq_ok,Coin.extract_eq_ok,Coin.merge_eq_ok,pure_eq_ok] at h
  obtain ⟨_,⟨hle,rfl⟩,_,⟨_,rfl⟩,rfl⟩ := h
  refine ⟨.single (.unlock _ hle),?_⟩
  simp only [value,nonInactive]
  omega

theorem releaseIf_ok {cond : Prop} [Decidable cond] (h : l.releaseIf cond = .ok l') :
    l' = if cond then { l with inactive := l.inactive + l.pendingInactive, pendingInactive := 0 }
      else l := by
  rw [releaseIf] at h
  split at h
  · simp only [Coin.extractAll,bind_eq_ok,Coin.merge_eq_ok,pure_eq_ok] at h
    obtain ⟨_,⟨-,rfl⟩,rfl⟩ := h
    exact (if_pos ‹_›).symm
  · cases h
    exact (if_neg ‹_›).symm

theorem takeInactive_ok {coins : ℕ} (h : l.takeInactive n = .ok (l', coins)) :
    coins ≤ l.inactive ∧ l' = { l with inactive := l.inactive - coins } := by
  simp only [takeInactive] at h
  by_cases h0 : Math64.min n l.inactive = 0
  · rw [if_pos h0] at h
    cases h
    exact ⟨Nat.zero_le _,rfl⟩
  · rw [if_neg h0] at h
    simp only [bind_eq_ok,Coin.extract_eq_ok,pure_eq_ok,Prod.mk.injEq] at h
    obtain ⟨_,⟨hle,rfl⟩,rfl,rfl⟩ := h
    exact ⟨hle,rfl⟩

theorem getNextEpochVotingPower_ok {power : ℕ} (h : l.getNextEpochVotingPower = .ok power) :
    power = l.nonInactive := by
  simp only [getNextEpochVotingPower,bind_eq_ok,addChecked_eq_ok] at h
  obtain ⟨_,⟨-,rfl⟩,-,rfl⟩ := h
  rw [nonInactive,Nat.add_comm l.pendingActive]

end StakeLock

namespace ValidatorStorage

variable {s t : ValidatorStorage} {a operator : Address} {config : ValidatorConfig}
    {n m amount k : ℕ} {cap : Address}

section Borrows

@[simp] theorem borrowLock_eq_ok : s.borrowLock a = .ok l ↔ s.stakeLocks a = some l := by
  rw [borrowLock]
  cases s.stakeLocks a <;> simp

@[simp] theorem borrowOwnerCap_eq_ok : s.borrowOwnerCap a = .ok cap ↔ s.ownerCaps a = some cap := by
  rw [borrowOwnerCap]
  cases s.ownerCaps a <;> simp

@[simp] theorem borrowConfig_eq_ok {config : ValidatorConfig} :
    s.borrowConfig a = .ok config ↔ s.configs a = some config := by
  rw [borrowConfig]
  cases s.configs a <;> simp

@[simp] theorem operatedLock_eq_ok {operator : Address} :
    s.operatedLock operator a = .ok l ↔ s.stakeLocks a = some l ∧ operator = l.operatorAddress := by
  simp only [operatedLock,bind_eq_ok,borrowLock_eq_ok,ensure_eq_ok,pure_eq_ok]
  constructor
  · rintro ⟨_,hl,_,ho,rfl⟩
    exact ⟨hl,ho⟩
  · rintro ⟨hl,ho⟩
    exact ⟨l,hl,(),ho,rfl⟩

end Borrows

theorem initializeOwner_quiet (h : s.initializeOwner a = .ok t) : Quiet s t 0 := by
  simp only [initializeOwner,bind_eq_ok,ensure_eq_ok,pure_eq_ok] at h
  obtain ⟨_,_,_,hnone,_,_,rfl⟩ := h
  refine ⟨⟨rfl,?_,roster_register (a := a) rfl (by simp [indexOf,hnone]) fun _ hb =>
    indexOf_putLock_of_ne hb⟩,fun n => ?_⟩
  · intro b l hl
    have hb : b ≠ a := by
      rintro rfl
      rw [hnone] at hl
      cases hl
    exact ⟨l,(update_of_ne hb ..).trans hl,.refl⟩
  · exact (Relation.ReflTransGen.single (.publish s n a hnone)).tail (.ownerCap _ n a (some a))

theorem publishConfig_quiet (h : s.publishConfig a config = .ok t) : Quiet s t 0 := by
  simp only [publishConfig,bind_eq_ok,ensure_eq_ok,pure_eq_ok] at h
  obtain ⟨_,hnone,rfl⟩ := h
  refine ⟨.of_locks rfl rfl ?_,fun n => .single (.registry s n _ _ _ _)⟩
  exact roster_register (a := a) rfl (by simp [indexOf,hnone]) fun _ hb =>
    indexOf_putConfig_of_ne hb

theorem initializeValidator_quiet {valid : Bool} {key network fullnode : Bytes}
    (h : s.initializeValidator valid a key network fullnode = .ok t) : Quiet s t 0 := by
  simp only [initializeValidator,bind_eq_ok] at h
  obtain ⟨_,_,s₁,h₁,h₂⟩ := h
  exact (initializeOwner_quiet h₁).trans (publishConfig_quiet h₂)

theorem extractOwnerCap_quiet (h : s.extractOwnerCap a = .ok (t, cap)) : Quiet s t 0 := by
  simp only [extractOwnerCap,bind_eq_ok,pure_eq_ok,Prod.mk.injEq] at h
  obtain ⟨_,_,rfl,_⟩ := h
  exact .of_roster rfl rfl rfl fun n => .ownerCap s n a none

theorem depositOwnerCap_quiet (h : s.depositOwnerCap a cap = .ok t) : Quiet s t 0 := by
  simp only [depositOwnerCap,bind_eq_ok,ensure_eq_ok,pure_eq_ok] at h
  obtain ⟨_,_,rfl⟩ := h
  exact .of_roster rfl rfl rfl fun n => .ownerCap s n a (some cap)

theorem Quiet.of_cap {f : Address → Result ValidatorStorage}
    (hf : ∀ cap t, f cap = .ok t → Quiet s t 0) (h : (s.borrowOwnerCap a >>= f) = .ok t) :
    Quiet s t 0 := by
  obtain ⟨cap,_,h⟩ := bind_eq_ok.mp h
  exact hf cap t h

theorem setOperatorWithCap_quiet (h : s.setOperatorWithCap a operator = .ok t) : Quiet s t 0 := by
  simp only [setOperatorWithCap,bind_eq_ok,borrowLock_eq_ok,pure_eq_ok] at h
  obtain ⟨l,hl,rfl⟩ := h
  exact .putLock hl (.single (.hand operator l.vaultAddress)) rfl le_rfl

theorem setVaultWithCap_quiet {vault : Address} (h : s.setVaultWithCap a vault = .ok t) :
    Quiet s t 0 := by
  simp only [setVaultWithCap,bind_eq_ok,borrowLock_eq_ok,pure_eq_ok] at h
  obtain ⟨l,hl,rfl⟩ := h
  exact .putLock hl (.single (.hand l.operatorAddress vault)) rfl le_rfl

theorem reactivateStakeWithCap_quiet (h : s.reactivateStakeWithCap a amount = .ok t) :
    Quiet s t 0 := by
  simp only [reactivateStakeWithCap,bind_eq_ok,borrowLock_eq_ok,pure_eq_ok] at h
  obtain ⟨l,hl,l',hl',rfl⟩ := h
  obtain ⟨hs,hv,hn⟩ := StakeLock.reactivate_ok hl'
  exact .putLock hl hs hv hn.le

theorem unlockWithCap_quiet (h : s.unlockWithCap amount a = .ok t) : Quiet s t 0 := by
  by_cases h0 : amount = 0
  · rw [unlockWithCap,if_pos h0] at h
    cases h
    exact .refl s
  · simp only [unlockWithCap,if_neg h0,bind_eq_ok,borrowLock_eq_ok,pure_eq_ok] at h
    obtain ⟨l,hl,l',hl',rfl⟩ := h
    obtain ⟨hs,hv,hn⟩ := StakeLock.unlock_ok hl'
    exact .putLock hl hs hv hn.le

theorem withdrawWithCap_ok {coins : ℕ} (h : s.withdrawWithCap a amount = .ok (t, coins)) :
    ∃ l r, s.stakeLocks a = some l ∧ coins ≤ r.inactive ∧
      (r = l ∨ l.lockedUntilSecs ≤ s.nowSeconds ∧ r = { l with
        inactive := l.inactive + l.pendingInactive, pendingInactive := 0 }) ∧
      t = s.putLock a { r with inactive := r.inactive - coins } := by
  simp only [withdrawWithCap,bind_eq_ok,borrowLock_eq_ok,pure_eq_ok,Prod.mk.injEq] at h
  obtain ⟨l,hl,r,hr,⟨l',_⟩,hl',rfl,rfl⟩ := h
  obtain ⟨hle,rfl⟩ := StakeLock.takeInactive_ok hl'
  refine ⟨l,r,hl,hle,?_,rfl⟩
  rw [StakeLock.releaseIf_ok hr]
  split
  · exact .inr ⟨And.right ‹_›,rfl⟩
  · exact .inl rfl

theorem withdrawWithCap_quiet {coins : ℕ} (h : s.withdrawWithCap a amount = .ok (t, coins)) :
    Quiet s t coins := by
  obtain ⟨l,r,hl,hle,hr,rfl⟩ := withdrawWithCap_ok h
  have hrelease : LockSteps s.nowSeconds l r ∧ r.value = l.value ∧
      r.nonInactive ≤ l.nonInactive := by
    obtain rfl | ⟨hexpired,rfl⟩ := hr
    · exact ⟨.refl,rfl,le_rfl⟩
    · refine ⟨.single (.release hexpired),?_⟩
      simp only [StakeLock.value,StakeLock.nonInactive]
      omega
  obtain ⟨hs,hv,hn⟩ := hrelease
  refine ⟨follows_putLock hl (hs.tail (.take _ hle)),fun n => .single ?_⟩
  refine .unstake s n a l _ coins hl ?_ hn
  rw [← hv]
  simp only [StakeLock.value]
  omega

theorem increaseLockupWithCap_quiet (h : s.increaseLockupWithCap a = .ok t) : Quiet s t 0 := by
  simp only [increaseLockupWithCap,bind_eq_ok,borrowLock_eq_ok,addChecked_eq_ok,ensure_eq_ok,
    pure_eq_ok] at h
  obtain ⟨l,hl,_,⟨_,rfl⟩,_,hlt,rfl⟩ := h
  exact .putLock hl (.single (.extend _ hlt.le)) rfl le_rfl

theorem withdraw_quiet (h : s.withdraw a amount = .ok t) : Quiet s t 0 := by
  simp only [withdraw,bind_eq_ok,borrowOwnerCap_eq_ok,Coin.deposit_eq_ok,pure_eq_ok] at h
  obtain ⟨cap,_,⟨s',coins⟩,hs',_,⟨store,hstore,_,_,rfl⟩,rfl⟩ := h
  have hq := withdrawWithCap_quiet hs'
  exact ⟨hq.follows.trans (.of_roster rfl rfl rfl),fun n =>
    (hq.changes n).tail (.deposit s' n a store coins hstore)⟩

theorem isSome_findValidator {v : List ValidatorInfo} :
    (ValidatorSet.findValidator v a).isSome = true ↔ a ∈ v.map address := by
  simp [ValidatorSet.findValidator,List.findIdx?_isSome,List.any_eq_true]

theorem updateVotingPowerIncrease_ok (h : s.updateVotingPowerIncrease n = .ok t) :
    t = { s with set := { s.set with totalJoiningPower := s.set.totalJoiningPower + n } } ∧
      s.checkIncrease (s.set.totalJoiningPower + n) = .ok () := by
  simp only [updateVotingPowerIncrease,bind_eq_ok,addChecked_eq_ok,pure_eq_ok] at h
  obtain ⟨_,⟨_,rfl⟩,_,hcheck,rfl⟩ := h
  exact ⟨rfl,hcheck⟩

theorem trackIncrease_ok (h : s.trackIncrease a n = .ok t) :
    ∃ power, t = { s with set := { s.set with totalJoiningPower := power } } ∧
      if a ∈ s.roster.active ∨ a ∈ s.roster.joining then
        power = s.set.totalJoiningPower + n ∧ s.checkIncrease power = .ok ()
      else power = s.set.totalJoiningPower := by
  simp only [trackIncrease,isSome_findValidator] at h
  split at h
  · next hmem =>
    obtain ⟨rfl,hcheck⟩ := updateVotingPowerIncrease_ok h
    refine ⟨_,rfl,?_⟩
    rw [if_pos (show a ∈ s.roster.active ∨ a ∈ s.roster.joining from hmem)]
    exact ⟨rfl,hcheck⟩
  · next hmem =>
    cases h
    refine ⟨_,rfl,?_⟩
    rw [if_neg (show ¬(a ∈ s.roster.active ∨ a ∈ s.roster.joining) from hmem)]

theorem lockStakeWithCap_ok (h : s.lockStakeWithCap a n = .ok t) :
    n = 0 ∧ t = s ∨
      ∃ l l' power, s.stakeLocks a = some l ∧
        (LockSteps s.nowSeconds l l' ∧ l'.value = l.value + n ∧
          l'.nonInactive = l.nonInactive + n) ∧
        t = { s with set := { s.set with totalJoiningPower := power } }.putLock a l' ∧
        if a ∈ s.roster.active ∨ a ∈ s.roster.joining then
          power = s.set.totalJoiningPower + n ∧ s.checkIncrease power = .ok ()
        else power = s.set.totalJoiningPower := by
  simp only [lockStakeWithCap,bind_eq_ok,borrowLock_eq_ok] at h
  obtain ⟨l,hl,h⟩ := h
  by_cases h0 : n = 0
  · rw [if_pos h0] at h
    cases h
    exact .inl ⟨h0,rfl⟩
  · rw [if_neg h0] at h
    simp only [bind_eq_ok,ensure_eq_ok,pure_eq_ok] at h
    obtain ⟨s',hs',current,-,l',hl',_,-,_,-,rfl⟩ := h
    obtain ⟨power,rfl,hpower⟩ := trackIncrease_ok hs'
    exact .inr ⟨l,l',power,hl,StakeLock.addStake_ok hl',rfl,hpower⟩

/-- The stake `amount` is locked for `a` between two quiet calls; the first one takes `k` coins
in hand. -/
def Staked (s t : ValidatorStorage) (a : Address) (amount k : ℕ) : Prop :=
  ∃ s₁ s₂, Quiet s s₁ k ∧ s₁.lockStakeWithCap a amount = .ok s₂ ∧ Quiet s₂ t 0

theorem Staked.follows (h : Staked s t a amount k) : Follows s t := by
  obtain ⟨s₁,s₂,hbefore,hlock,hafter⟩ := h
  refine hbefore.follows.trans (Follows.trans ?_ hafter.follows)
  obtain ⟨-,rfl⟩ | ⟨l,l',power,hl,⟨hs,-⟩,rfl,-⟩ := lockStakeWithCap_ok hlock
  · exact .refl _
  · have hf := follows_putLock hl hs
    exact ⟨hf.time,hf.locks,hf.roster⟩

theorem Staked.changes (h : Staked s t a amount k) (hn : n + k = m + amount) :
    Changes (s, n) (t, m) := by
  obtain ⟨s₁,s₂,hbefore,hlock,hafter⟩ := h
  have hbefore := QuietChanges.changes (hbefore.changes n)
  refine hbefore.trans (Relation.ReflTransGen.trans ?_ (QuietChanges.changes (hafter.changes m)))
  rw [hn]
  obtain ⟨rfl,rfl⟩ | ⟨l,l',power,hl,⟨-,hv,-⟩,rfl,-⟩ := lockStakeWithCap_ok hlock
  · exact .refl
  · exact (Relation.ReflTransGen.single (.set s₁ _ _)).tail (.stake _ m a l l' amount hl hv)

theorem lockStake_ok (h : s.lockStake a amount = .ok t) :
    ∃ cap, s.ownerCaps a = some cap ∧ Staked s t cap amount amount := by
  simp only [lockStake,bind_eq_ok,borrowOwnerCap_eq_ok,Coin.withdraw_eq_ok] at h
  obtain ⟨cap,hcap,⟨_,_⟩,⟨store,hstore,_,hle,heq⟩,h⟩ := h
  obtain ⟨rfl,rfl⟩ := Prod.mk.injEq .. ▸ heq
  refine ⟨cap,hcap,_,t,?_,h,.refl t⟩
  exact .of_roster rfl rfl rfl fun n => .withdraw s n a store amount hstore hle

theorem initializeStakeOwner_ok {vault : Address}
    (h : s.initializeStakeOwner a amount operator vault = .ok t) : Staked s t a amount amount := by
  simp only [initializeStakeOwner,lockInitial,handOperator,handVault,bind_eq_ok] at h
  obtain ⟨s₁,h₁,s₂,h₂,s₃,h₃,s₄,h₄,h₅⟩ := h
  have hoperator : Quiet s₃ s₄ 0 := by
    split at h₄
    · exact .of_cap (fun _ _ => setOperatorWithCap_quiet) h₄
    · cases h₄
      exact .refl s₃
  have hvault : Quiet s₄ t 0 := by
    split at h₅
    · exact .of_cap (fun _ _ => setVaultWithCap_quiet) h₅
    · cases h₅
      exact .refl _
  have hregister := (initializeOwner_quiet h₁).trans (publishConfig_quiet h₂)
  have hnew : s₂.ownerCaps a = some a ∧ s₂.stakeLocks a = some (.new a) := by
    simp only [initializeOwner,bind_eq_ok,pure_eq_ok] at h₁
    obtain ⟨_,-,_,-,_,-,rfl⟩ := h₁
    simp only [publishConfig,bind_eq_ok,pure_eq_ok] at h₂
    obtain ⟨_,-,rfl⟩ := h₂
    exact ⟨update_self ..,update_self ..⟩
  split at h₃
  · obtain ⟨cap,hcap,s₅,s₆,hwithdraw,hlock,hrest⟩ := lockStake_ok h₃
    cases hnew.1.symm.trans hcap
    refine ⟨s₅,s₆,⟨hregister.follows.trans hwithdraw.follows,fun n => ?_⟩,hlock,
      hrest.trans (hoperator.trans hvault)⟩
    exact (hregister.changes n).trans (hwithdraw.changes n)
  · next hpos =>
    cases h₃
    obtain rfl : amount = 0 := by omega
    refine ⟨s₂,s₂,hregister,?_,hoperator.trans hvault⟩
    simp [lockStakeWithCap,borrowLock,hnew.2]

theorem rotateConsensusKey_quiet {valid : Bool} {key : Bytes}
    (h : s.rotateConsensusKey valid operator a key = .ok t) : Quiet s t 0 := by
  simp only [rotateConsensusKey,bind_eq_ok,borrowConfig_eq_ok,ensure_eq_ok,pure_eq_ok] at h
  obtain ⟨_,_,config,hc,_,_,rfl⟩ := h
  exact .of_roster rfl rfl (roster_putConfig hc rfl) fun n => .registry s n _ _ _ _

theorem updateNetworkInfo_quiet {network fullnode : Bytes}
    (h : s.updateNetworkInfo operator a network fullnode = .ok t) : Quiet s t 0 := by
  simp only [updateNetworkInfo,bind_eq_ok,borrowConfig_eq_ok,pure_eq_ok] at h
  obtain ⟨_,_,config,hc,rfl⟩ := h
  exact .of_roster rfl rfl (roster_putConfig hc rfl) fun n => .registry s n _ _ _ _

theorem notMem_of_inactive (h : s.set.getValidatorState a = .inactive) :
    a ∉ s.roster.members := by
  simp only [ValidatorSet.getValidatorState] at h
  split at h
  · cases h
  · split at h
    · cases h
    · split at h
      · cases h
      · next hp ha hi =>
        rw [isSome_findValidator] at hp ha hi
        simp only [Roster.members,List.mem_append,not_or]
        exact ⟨⟨ha,hi⟩,hp⟩

theorem ValidatorInfo.generate_address {info : ValidatorInfo} {config : ValidatorConfig}
    (h : generate a l config = .ok info) : info.address = a := by
  obtain ⟨_,_,⟨⟩⟩ := bind_eq_ok.mp h
  rfl

theorem joinValidatorSetInternal_ok (h : s.joinValidatorSetInternal operator a = .ok t) :
    ∃ l info, s.stakeLocks a = some l ∧ a ∉ s.roster.members ∧ (s.indexOf a).isSome = true ∧
      info.address = a ∧ s.checkIncrease (s.set.totalJoiningPower + l.nonInactive) = .ok () ∧
      t = { s with set := { s.set with
        pendingActive := s.set.pendingActive ++ [info]
        totalJoiningPower := s.set.totalJoiningPower + l.nonInactive } } := by
  simp only [joinValidatorSetInternal,bind_eq_ok,operatedLock_eq_ok,ensure_eq_ok,
    borrowGlobal_eq_ok,pure_eq_ok] at h
  obtain ⟨l,⟨hl,-⟩,_,hstate,_,hpower,_,-,_,-,s',hs',config,hc,_,-,info,hinfo,_,-,_,-,rfl⟩ := h
  obtain ⟨rfl,hcheck⟩ := updateVotingPowerIncrease_ok hs'
  obtain rfl := StakeLock.getNextEpochVotingPower_ok hpower
  have hc : s.configs a = some config := hc
  exact ⟨l,info,hl,notMem_of_inactive hstate,by simp [indexOf,hl,hc],
    ValidatorInfo.generate_address hinfo,hcheck,rfl⟩

theorem joinValidatorSetInternal_follows (h : s.joinValidatorSetInternal operator a = .ok t) :
    Follows s t := by
  obtain ⟨l,info,-,hnew,hreg,rfl,-,rfl⟩ := joinValidatorSetInternal_ok h
  refine .of_locks rfl rfl (.single ?_)
  have hjoin := Roster.Step.join s.roster info.address hnew hreg
  have hlist : (s.set.pendingActive ++ [info]).map address =
      s.roster.joining ++ [info.address] := List.map_append
  rw [← hlist] at hjoin
  exact hjoin

theorem swapRemove_found {v rest : List ValidatorInfo} {info : ValidatorInfo} {i : ℕ}
    (hf : ValidatorSet.findValidator v a = some i) (h : swapRemove v i = .ok (rest, info)) :
    info.address = a ∧
      (v.map address).Perm (a :: rest.map address) := by
  obtain ⟨hx,hp⟩ := swapRemove_perm h
  have haddr : info.address = a := by
    obtain ⟨hi,hdec,_⟩ := List.findIdx?_eq_some_iff_getElem.mp hf
    rw [List.getElem?_eq_getElem hi] at hx
    rw [← Option.some.inj hx]
    simpa using hdec
  refine ⟨haddr,?_⟩
  rw [← haddr]
  exact hp.map address

theorem leaveValidatorSet_ok (h : s.leaveValidatorSet operator a = .ok t) :
    ∃ l rest info, s.stakeLocks a = some l ∧ info.address = a ∧
      (s.roster.joining.Perm (a :: rest.map address) ∧
        t = { s with set := { s.set with
          pendingActive := rest
          totalJoiningPower := s.set.totalJoiningPower - l.nonInactive } } ∨
      s.roster.active.Perm (a :: rest.map address) ∧ rest ≠ [] ∧
        t = { s with set := { s.set with
          activeValidators := rest
          pendingInactive := s.set.pendingInactive ++ [info] } }) := by
  simp only [leaveValidatorSet,bind_eq_ok,operatedLock_eq_ok] at h
  obtain ⟨_,-,l,⟨hl,-⟩,h⟩ := h
  split at h
  · next i hi =>
    simp only [cancelJoin,bind_eq_ok,pure_eq_ok] at h
    obtain ⟨⟨rest,info⟩,hr,power,hpower,rfl⟩ := h
    obtain ⟨haddr,hperm⟩ := swapRemove_found hi hr
    obtain rfl := StakeLock.getNextEpochVotingPower_ok hpower
    refine ⟨l,rest,info,hl,haddr,.inl ⟨hperm,?_⟩⟩
    congr 2
    split <;> omega
  · split at h
    · next i hi =>
      simp only [moveToPendingInactive,bind_eq_ok,ensure_eq_ok,pure_eq_ok] at h
      obtain ⟨⟨rest,info⟩,hr,_,hlast,rfl⟩ := h
      obtain ⟨haddr,hperm⟩ := swapRemove_found hi hr
      exact ⟨l,rest,info,hl,haddr,.inr ⟨hperm,List.ne_nil_of_length_pos hlast,rfl⟩⟩
    · cases h

theorem leaveValidatorSet_follows (h : s.leaveValidatorSet operator a = .ok t) : Follows s t := by
  obtain ⟨l,rest,info,-,rfl,⟨hperm,rfl⟩ | ⟨hperm,-,rfl⟩⟩ := leaveValidatorSet_ok h
  · exact .of_locks rfl rfl (.single (.cancel s.roster info.address _ hperm))
  · have hleave := Roster.Step.leave s.roster info.address _ hperm
    have hlist : (s.set.pendingInactive ++ [info]).map address =
        s.roster.leaving ++ [info.address] := List.map_append
    rw [← hlist] at hleave
    exact .of_locks rfl rfl (.single hleave)

theorem mergeFee_ok {held : Option ℕ} {fee coin : ℕ} (h : mergeFee held fee = .ok coin) :
    coin = held.getD 0 + fee := by
  cases held with
  | some held =>
    rw [mergeFee,Coin.merge_eq_ok] at h
    exact h.2.symm
  | none =>
    rw [← Except.ok.inj h]
    exact (Nat.zero_add fee).symm

theorem initializeValidatorFees_ok (h : s.initializeValidatorFees = .ok t) :
    s.fees = none ∧ t = { s with fees := some fun _ => none } := by
  simp only [initializeValidatorFees,bind_eq_ok,ensure_eq_ok,pure_eq_ok] at h
  obtain ⟨_,hnone,rfl⟩ := h
  exact ⟨Option.isNone_iff_eq_none.mp hnone,rfl⟩

theorem addTransactionFee_ok {fee : ℕ} (h : s.addTransactionFee a fee = .ok t) :
    ∃ table, s.fees = some table ∧
      t = { s with fees := some (update table a (some ((table a).getD 0 + fee))) } := by
  simp only [addTransactionFee,bind_eq_ok,borrowGlobal_eq_ok,pure_eq_ok] at h
  obtain ⟨table,htable,coin,hcoin,rfl⟩ := h
  rw [mergeFee_ok hcoin]
  exact ⟨table,htable,rfl⟩

end ValidatorStorage

end Arx
