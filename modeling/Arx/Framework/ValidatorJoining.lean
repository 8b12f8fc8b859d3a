import Arx.Framework.ValidatorIndices
import Arx.Movelib.Totals

/-!
# The joining power of an epoch

`total_joining_power` stays above what really joins.
-/

namespace Arx
open Movelib Validator Function List ValidatorStorage

namespace ValidatorStorage

variable {s t : ValidatorStorage} {a : Address} {w : Address → ℕ} {n m : ℕ} {operator : Address}
    {x y : ValidatorStorage × ℕ}

def nextPower (s : ValidatorStorage) (a : Address) : ℕ :=
  (s.stakeLocks a).elim 0 StakeLock.nonInactive

/-- The power that joins in the next epoch, if the active validators have locked `w`. -/
def joinsNext (s : ValidatorStorage) (w : Address → ℕ) : ℕ :=
  (s.roster.joining.map s.nextPower).sum + (s.roster.active.map w).sum

def Accounted (s : ValidatorStorage) (w : Address → ℕ) : Prop :=
  s.joinsNext w ≤ s.set.totalJoiningPower

theorem nextPower_eq {l : StakeLock} (hl : s.stakeLocks a = some l) :
    s.nextPower a = l.nonInactive := by
  simp [nextPower,hl]

theorem nextPower_putLock (s : ValidatorStorage) (a : Address) (l : StakeLock) :
    (s.putLock a l).nextPower = update s.nextPower a l.nonInactive := by
  funext b
  by_cases hb : b = a
  · subst hb
    simp [nextPower,putLock]
  · simp [nextPower,putLock,update_of_ne hb]

theorem nextPower_quiet (h : QuietChange x y) :
    y.1.set = x.1.set ∧ y.1.config = x.1.config ∧ ∀ b, y.1.nextPower b ≤ x.1.nextPower b := by
  cases h with
  | publish s n a hnone =>
    refine ⟨rfl,rfl,fun b => ?_⟩
    rw [nextPower_putLock]
    by_cases hb : b = a
    · rw [hb,update_self]
      exact Nat.zero_le _
    · rw [update_of_ne hb]
  | move s n a l l' hl _ hle | unstake s n a l l' _ hl _ hle =>
    refine ⟨rfl,rfl,fun b => ?_⟩
    rw [nextPower_putLock]
    by_cases hb : b = a
    · rw [hb,update_self]
      simpa [nextPower,hl] using hle
    · rw [update_of_ne hb]
  | _ => exact ⟨rfl,rfl,fun _ => le_rfl⟩

theorem nextPower_quiets (h : QuietChanges x y) :
    y.1.set = x.1.set ∧ y.1.config = x.1.config ∧ ∀ b, y.1.nextPower b ≤ x.1.nextPower b := by
  induction h with
  | refl => exact ⟨rfl,rfl,fun _ => le_rfl⟩
  | tail _ hc ih =>
    obtain ⟨hset,hconfig,hle⟩ := nextPower_quiet hc
    exact ⟨hset.trans ih.1,hconfig.trans ih.2.1,fun b => (hle b).trans (ih.2.2 b)⟩

theorem Accounted.quiet (h : s.Accounted w) (hq : QuietChanges (s, n) (t, m)) :
    t.Accounted w := by
  obtain ⟨hset,-,hle⟩ := nextPower_quiets hq
  have hset : t.set = s.set := hset
  rw [Accounted,hset]
  refine le_trans ?_ h
  simp only [joinsNext,roster,hset]
  exact Nat.add_le_add_right (sum_le_sum fun b _ => hle b) _

theorem Roster.Wf.active_nodup {r : Roster Address} (h : r.Wf) :
    r.active.Nodup ∧ r.joining.Nodup ∧ ∀ a ∈ r.active, a ∉ r.joining := by
  have hall := h.nodup
  rw [Roster.members,nodup_append,nodup_append] at hall
  refine ⟨hall.1.1,hall.2.1,fun a ha hj => ?_⟩
  exact hall.2.2 a (mem_append_left _ ha) a hj rfl

theorem Accounted.lock (h : s.Accounted w) (hwf : s.roster.Wf)
    (hl : s.lockStakeWithCap a n = .ok t) : t.Accounted (update w a (w a + n)) := by
  obtain ⟨rfl,rfl⟩ | ⟨l,l',power,hlock,⟨-,-,hpower⟩,rfl,hcount⟩ := lockStakeWithCap_ok hl
  · rw [Nat.add_zero,update_eq_self]
    exact h
  obtain ⟨hactive,hjoining,hdisjoint⟩ := Roster.Wf.active_nodup hwf
  have hold := nextPower_eq hlock
  show (s.roster.joining.map (nextPower _)).sum +
    (s.roster.active.map (update w a (w a + n))).sum ≤ power
  rw [nextPower_putLock,hpower]
  show (s.roster.joining.map (update s.nextPower a (l.nonInactive + n))).sum +
    (s.roster.active.map (update w a (w a + n))).sum ≤ power
  rw [Accounted,joinsNext] at h
  by_cases ha : a ∈ s.roster.active
  · rw [if_pos (.inl ha)] at hcount
    have hsum := sum_map_update_of_mem (f := w) (v := w a + n) hactive ha
    rw [sum_map_update_of_notMem (hdisjoint a ha)]
    omega
  · rw [sum_map_update_of_notMem ha]
    by_cases hj : a ∈ s.roster.joining
    · rw [if_pos (.inr hj)] at hcount
      have hsum := sum_map_update_of_mem (f := s.nextPower) (v := l.nonInactive + n) hjoining hj
      omega
    · rw [if_neg (not_or.mpr ⟨ha,hj⟩)] at hcount
      rw [sum_map_update_of_notMem hj]
      omega

theorem Accounted.join (h : s.Accounted w) (hj : s.joinValidatorSetInternal operator a = .ok t) :
    t.Accounted w := by
  obtain ⟨l,info,hl,-,-,rfl,-,rfl⟩ := joinValidatorSetInternal_ok hj
  show ((s.set.pendingActive ++ [info]).map ValidatorInfo.address |>.map s.nextPower).sum +
    (s.roster.active.map w).sum ≤ s.set.totalJoiningPower + l.nonInactive
  rw [map_append,map_append,sum_append,map_singleton,map_singleton,
    sum_singleton,nextPower_eq hl]
  have hjoins : ((s.set.pendingActive.map ValidatorInfo.address).map s.nextPower).sum +
    (s.roster.active.map w).sum ≤ s.set.totalJoiningPower := h
  omega

theorem Accounted.leave (h : s.Accounted w) (hv : s.leaveValidatorSet operator a = .ok t) :
    t.Accounted w := by
  rw [Accounted,joinsNext] at h
  obtain ⟨l,rest,info,hl,-,⟨hperm,rfl⟩ | ⟨hperm,-,rfl⟩⟩ := leaveValidatorSet_ok hv
  · have hsum := (hperm.map s.nextPower).sum_eq
    rw [map_cons,sum_cons,nextPower_eq hl] at hsum
    show ((rest.map ValidatorInfo.address).map s.nextPower).sum + (s.roster.active.map w).sum ≤
      s.set.totalJoiningPower - l.nonInactive
    omega
  · have hsum := (hperm.map w).sum_eq
    rw [map_cons,sum_cons] at hsum
    show (s.roster.joining.map s.nextPower).sum + ((rest.map ValidatorInfo.address).map w).sum ≤
      s.set.totalJoiningPower
    omega

theorem checkIncrease_ok {power : ℕ} {u : Unit} (hpos : 0 < s.set.totalVotingPower)
    (h : s.checkIncrease power = .ok u) :
    power ≤ s.set.totalVotingPower * s.config.votingPowerIncreaseLimit / 100 := by
  simp only [checkIncrease,if_pos hpos,bind_eq_ok,mulChecked_eq_ok,ensure_eq_ok] at h
  obtain ⟨_,⟨-,rfl⟩,hle⟩ := h
  exact hle

/-- What a call within an epoch leaves: the set keeps a validator, those that vote go on voting,
the total power and the parameters stay, and the counter is raised within the limit only. -/
structure Limited (s t : ValidatorStorage) : Prop where
  occupied : s.set.activeValidators ≠ [] → t.set.activeValidators ≠ []
  voters : ∀ a ∈ s.roster.active ++ s.roster.leaving, a ∈ t.roster.active ++ t.roster.leaving
  total : t.set.totalVotingPower = s.set.totalVotingPower
  config : t.config = s.config
  raised : 0 < s.set.totalVotingPower → s.set.totalJoiningPower < t.set.totalJoiningPower →
    t.set.totalJoiningPower ≤ s.set.totalVotingPower * s.config.votingPowerIncreaseLimit / 100

theorem Limited.of_eq (hset : t.set = s.set) (hconfig : t.config = s.config) : Limited s t := by
  refine ⟨by rw [hset]; exact id,?_,by rw [hset],hconfig,fun _ hlt => ?_⟩
  · intro a ha
    simpa only [roster,hset] using ha
  · rw [hset] at hlt
    exact absurd hlt (lt_irrefl _)

theorem limited_quiet (h : QuietChanges (s, n) (t, m)) : Limited s t := by
  obtain ⟨hset,hconfig,-⟩ := nextPower_quiets h
  exact .of_eq hset hconfig

theorem limited_lock (h : s.lockStakeWithCap a n = .ok t) : Limited s t := by
  obtain ⟨-,rfl⟩ | ⟨l,l',power,-,-,rfl,hcount⟩ := lockStakeWithCap_ok h
  · exact .of_eq rfl rfl
  refine ⟨id,fun _ => id,rfl,rfl,fun hpos hlt => ?_⟩
  split at hcount
  · exact checkIncrease_ok hpos hcount.2
  · exact absurd hlt (by rw [hcount]; exact lt_irrefl _)

theorem limited_join (h : s.joinValidatorSetInternal operator a = .ok t) : Limited s t := by
  obtain ⟨l,info,-,-,-,-,hcheck,rfl⟩ := joinValidatorSetInternal_ok h
  exact ⟨id,fun _ => id,rfl,rfl,fun hpos _ => checkIncrease_ok hpos hcheck⟩

theorem limited_leave (h : s.leaveValidatorSet operator a = .ok t) : Limited s t := by
  obtain ⟨l,rest,info,-,hinfo,⟨-,rfl⟩ | ⟨hperm,hne,rfl⟩⟩ := leaveValidatorSet_ok h
  · exact ⟨id,fun _ => id,rfl,rfl,fun _ hlt => absurd hlt (Nat.sub_le _ _).not_gt⟩
  · refine ⟨fun _ => hne,fun b hb => ?_,rfl,rfl,fun _ hlt => absurd hlt (lt_irrefl _)⟩
    show b ∈ rest.map ValidatorInfo.address ++
      (s.set.pendingInactive ++ [info]).map ValidatorInfo.address
    have hmem := (hperm.mem_iff (a := b)).mp
    simp only [roster,mem_append,map_append,map_singleton,mem_cons] at hb hmem ⊢
    rw [hinfo]
    tauto

theorem Accounted.stake {k : ℕ} (h : s.Accounted w) (hwf : s.roster.Wf)
    (hs : Staked s t a n k) : t.Accounted (fun b => w b + if b = a then n else 0) := by
  obtain ⟨s₁,s₂,hbefore,hlock,hafter⟩ := hs
  have hwf₁ := Roster.steps_wf hbefore.follows.roster hwf
  have hlocked := ((h.quiet (hbefore.changes 0)).lock hwf₁ hlock).quiet (hafter.changes 0)
  have hw : update w a (w a + n) = fun b => w b + if b = a then n else 0 := by
    funext b
    by_cases hb : b = a
    · rw [hb,update_self,if_pos rfl]
    · rw [update_of_ne hb,if_neg hb,Nat.add_zero]
  exact hw ▸ hlocked

theorem limited_stake {k : ℕ} (hs : Staked s t a n k) : Limited s t := by
  obtain ⟨s₁,s₂,hbefore,hlock,hafter⟩ := hs
  have hbefore := hbefore.changes 0
  have hafter := hafter.changes 0
  have hset := (nextPower_quiets hbefore).1
  have hset' := (nextPower_quiets hafter).1
  have hconfig := (limited_quiet hbefore).config
  obtain ⟨hoccupied,hvoters,htotal,hconfig₂,hraised⟩ := limited_lock hlock
  rw [hset,← hset'] at hoccupied htotal
  rw [hset,hconfig,← hset'] at hraised
  refine ⟨hoccupied,?_,htotal,(limited_quiet hafter).config.trans (hconfig₂.trans hconfig),hraised⟩
  exact fun a ha => (limited_quiet hafter).voters a (hvoters a ((limited_quiet hbefore).voters a ha))

variable {pop : Bytes → Bytes → Bool} {o : ValidatorOp}

theorem step_limited (ho : o.withinEpoch = true) (hs : s.step pop o = .ok t) : Limited s t := by
  cases step_effect hs with
  | quiet _ he => exact limited_quiet (he.changes 0)
  | stake _ _ he => exact limited_stake he
  | joinInternal he | join he => exact limited_join he
  | leave he => exact limited_leave he
  | config hno => exact absurd (ho.symm.trans hno) nofun
  | epoch => cases ho
  | _ => exact .of_eq rfl rfl

theorem step_accounted (hwf : s.roster.Wf) (h : s.Accounted w) (ho : o.withinEpoch = true)
    (hs : s.step pop o = .ok t) : t.Accounted fun a => w a + s.locks o a := by
  cases step_effect hs with
  | quiet hq he =>
    have hlocks : s.locks o = fun _ => 0 := by
      cases o <;> first | rfl | cases hq
    rw [hlocks]
    exact h.quiet (he.changes 0)
  | stake _ hlocks he =>
    rw [hlocks]
    exact h.stake hwf he
  | joinInternal he | join he => exact h.join he
  | leave he => exact h.leave he
  | config hno => exact absurd (ho.symm.trans hno) nofun
  | epoch => cases ho
  | _ => exact h

theorem onNewEpoch_joining (h : s.onNewEpoch = .ok t) :
    t.set.pendingActive = [] ∧ t.set.totalJoiningPower = 0 := by
  simp only [onNewEpoch,bind_eq_ok,pure_eq_ok] at h
  obtain ⟨_,-,_,-,_,-,_,-,rfl⟩ := h
  exact ⟨rfl,rfl⟩

end ValidatorStorage

/-- The storage, and the stake that each validator has locked since the epoch began. -/
structure EpochStake where
  storage : ValidatorStorage
  locked : Address → ℕ

namespace EpochStake

variable {x y : EpochStake} {pop : Bytes → Bytes → Bool} {s : ValidatorStorage}

def start (s : ValidatorStorage) : EpochStake := ⟨s,fun _ => 0⟩

def step (pop : Bytes → Bytes → Bool) (x : EpochStake) (o : ValidatorOp) : Result EpochStake := do
  let storage ← x.storage.step pop o
  pure ⟨storage,fun a => x.locked a + x.storage.locks o a⟩

structure Sound (s : ValidatorStorage) (x : EpochStake) : Prop where
  wf : x.storage.roster.Wf
  accounted : x.storage.Accounted x.locked
  total : x.storage.set.totalVotingPower = s.set.totalVotingPower
  config : x.storage.config = s.config

theorem Sound.step {o : ValidatorOp} (h : Sound s x) (ho : o.withinEpoch = true)
    (hs : x.step pop o = .ok y) : Sound s y := by
  obtain ⟨t,ht,⟨⟩⟩ := bind_eq_ok.mp hs
  have haccounted := step_accounted h.wf h.accounted ho ht
  have hlimited := step_limited ho ht
  exact ⟨step_roster_wf h.wf ht,haccounted,hlimited.total.trans h.total,
    hlimited.config.trans h.config⟩

theorem sound_start {config : ValidationConfig} {stores : Address → Option CoinStore} {supply : ℕ}
    {s₀ : ValidatorStorage}
    (h₀ : Reachable (ValidatorStorage.step pop) (.genesis config stores supply) s₀)
    (he : s₀.onNewEpoch = .ok s) : Sound s (start s) := by
  have hwf : s₀.roster.Wf := h₀.invariant (I := fun t => t.roster.Wf)
    (ValidatorStorage.genesis_roster_wf config stores supply)
    fun _ _ _ ht hs => ValidatorStorage.step_roster_wf ht hs
  obtain ⟨hjoining,hpower⟩ := onNewEpoch_joining he
  have hstep : s₀.step pop .onNewEpoch = .ok s := he
  refine ⟨step_roster_wf hwf hstep,?_,rfl,rfl⟩
  show s.joinsNext (fun _ => 0) ≤ s.set.totalJoiningPower
  rw [hpower]
  simp [joinsNext,roster,hjoining,comp_def]

/-- In every epoch that starts with voting power: the power of the joining validators and what
the active validators have locked in the epoch are at most the counter, and a call that raises
the counter leaves it within the limit. -/
theorem joining_power_limited {config : ValidationConfig} {stores : Address → Option CoinStore}
    {supply : ℕ} {s₀ : ValidatorStorage} {os : List ValidatorOp}
    (h₀ : Reachable (ValidatorStorage.step pop) (.genesis config stores supply) s₀)
    (he : s₀.onNewEpoch = .ok s) (hpos : 0 < s.set.totalVotingPower)
    (hrun : Run (step pop) (fun _ o => o.withinEpoch = true) (start s) os x) :
    (x.storage.set.pendingActive.map fun info => x.storage.nextPower info.address).sum +
        (x.storage.set.activeValidators.map fun info => x.locked info.address).sum ≤
      x.storage.set.totalJoiningPower ∧
    ∀ o y, o.withinEpoch = true → x.step pop o = .ok y →
      x.storage.set.totalJoiningPower < y.storage.set.totalJoiningPower →
      y.storage.set.totalJoiningPower ≤
        y.storage.set.totalVotingPower * y.storage.config.votingPowerIncreaseLimit / 100 := by
  have hsound : Sound s x :=
    hrun.invariant (sound_start h₀ he) fun _ _ _ hx ho hs => hx.step ho hs
  constructor
  · have hle := hsound.accounted
    simp only [ValidatorStorage.Accounted,joinsNext,roster,
      map_map] at hle
    exact hle
  · intro o y ho hs hlt
    obtain ⟨t,ht,⟨⟩⟩ := bind_eq_ok.mp hs
    have hlimited := step_limited ho ht
    show t.set.totalJoiningPower ≤ t.set.totalVotingPower * t.config.votingPowerIncreaseLimit / 100
    rw [hlimited.total,hlimited.config]
    exact hlimited.raised (hsound.total ▸ hpos) hlt

/-- With 300 of voting power, validator 1 locks 20 more, validator 3 joins with 40, unlocks 30 of
it and changes its mind, and validator 4 joins with 130. -/
theorem joining_power_limited_rejoin :
    ∃ (s₀ s : ValidatorStorage) (os : List ValidatorOp) (x : EpochStake),
      Reachable (ValidatorStorage.step fun _ _ => true) .small s₀ ∧ s₀.onNewEpoch = .ok s ∧
      Run (step fun _ _ => true) (fun _ o => o.withinEpoch = true) (start s) os x ∧
      x.locked 1 = 20 ∧ x.storage.set.totalJoiningPower = 150 ∧
      (x.storage.set.pendingActive.map fun info => x.storage.nextPower info.address).sum +
        (x.storage.set.activeValidators.map fun info => x.locked info.address).sum ≤ 150 := by
  have hrun : ∃ s₀ s x,
      exec (ValidatorStorage.step fun _ _ => true) .small
        (ValidatorStorage.enter 1 100 ++ ValidatorStorage.enter 2 200) = .ok s₀ ∧
      s₀.onNewEpoch = .ok s ∧ s.set.totalVotingPower = 300 ∧
      exec (step fun _ _ => true) (start s) (.lockStake 1 20 :: (ValidatorStorage.enter 3 40 ++
        [.unlock 3 30,.leaveValidatorSet 3 3] ++ ValidatorStorage.enter 4 130)) = .ok x ∧
      x.locked 1 = 20 ∧ x.storage.set.totalJoiningPower = 150 := ⟨_,_,_,rfl,rfl,rfl,rfl,rfl,rfl⟩
  obtain ⟨s₀,s,x,hs₀,hs,htotal,hx,hlocked,hpower⟩ := hrun
  have hx := (reaches_iff_exec.mpr hx).of_forall (P := fun o => o.withinEpoch = true) (by decide)
  have hle := (joining_power_limited (.of_exec hs₀) hs (by omega) hx).1
  exact ⟨s₀,s,_,x,.of_exec hs₀,hs,hx,hlocked,hpower,hpower ▸ hle⟩

end EpochStake

end Arx
