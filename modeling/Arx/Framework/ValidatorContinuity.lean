import Arx.Framework.ValidatorJoining

/-!
# What an epoch pays, and the set after it

`update_stake_lock` pays the rewards and the collected fees of one validator; `Paid` is what a whole
pass over a list of validators leaves behind.
`leave_validator_set` sees to it that a candidate for the next set is left, but not that one of
them keeps its stake.
-/

namespace Arx.ValidatorStorage
open Movelib Function List

variable {s t u : ValidatorStorage} {a : Address} {pop : Bytes → Bytes → Bool} {o : ValidatorOp}
  {os : List ValidatorOp}

structure Paid (addrs : List Address) (s t : ValidatorStorage) : Prop where
  locks : ∀ a, t.stakeLocks a =
    if a ∈ addrs then (s.stakeLocks a).map (s.settled a) else s.stakeLocks a
  fees : t.fees = if s.collectFees then
    s.fees.map fun table a => if a ∈ addrs then none else table a else s.fees
  registered : ∀ a ∈ addrs, (s.stakeLocks a).isSome = true
  rest : ∃ stakeLocks fees supply, t = { s with stakeLocks, fees, supply }

theorem updateStakeLock_paid (h : s.updateStakeLock a = .ok t) : Paid [a] s t := by
  obtain ⟨l,hl,rfl⟩ := updateStakeLock_ok h
  refine ⟨?_,?_,by simp [hl],⟨_,_,_,rfl⟩⟩
  · intro b
    show update s.stakeLocks a (some (s.settled a l)) b = _
    by_cases hb : b = a
    · rw [hb,update_self,if_pos (mem_singleton_self a),hl]
      rfl
    · rw [update_of_ne hb,if_neg (by simpa using hb)]
  · show s.feesWithout a = _
    rw [feesWithout]
    congr
    funext table b
    simp only [update_apply,mem_singleton]

namespace Paid

variable {addrs addrs' : List Address}

theorem settled_of_notMem (h : Paid addrs s t) (ha : a ∉ addrs) (l : StakeLock) :
    t.settled a l = s.settled a l := by
  obtain ⟨locks,fees,supply,rfl⟩ := h.rest
  have hfees : fees = if s.collectFees then
    s.fees.map fun table a => if a ∈ addrs then none else table a else s.fees := h.fees
  have hfee : feeOf { s with stakeLocks := locks, fees, supply } a = s.feeOf a := by
    rw [feeOf,feeOf,hfees]
    cases s.collectFees with
    | false => rfl
    | true => cases s.fees <;> simp [ha]
  rw [settled,hfee]
  rfl

theorem refl (s : ValidatorStorage) : Paid [] s s := by
  refine ⟨by simp,?_,by simp,⟨_,_,_,rfl⟩⟩
  cases s.fees <;> simp

theorem trans (h : Paid addrs s t) (h' : Paid addrs' t u) (hd : addrs.Disjoint addrs') :
    Paid (addrs ++ addrs') s u := by
  have hlock : ∀ a ∈ addrs', t.stakeLocks a = s.stakeLocks a := by
    intro a ha
    rw [h.locks,if_neg fun hmem => hd hmem ha]
  refine ⟨?_,?_,?_,?_⟩
  · intro a
    rw [h'.locks]
    by_cases ha' : a ∈ addrs'
    · have ha : a ∉ addrs := fun hmem => hd hmem ha'
      rw [if_pos ha',hlock a ha',if_pos (mem_append_right _ ha'),
        funext (h.settled_of_notMem ha)]
    · rw [if_neg ha',h.locks]
      simp only [mem_append,ha',or_false]
  · obtain ⟨locks,fees,supply,rfl⟩ := h.rest
    have hfees := h.fees
    have hfees' := h'.fees
    rw [hfees',hfees]
    cases s.collectFees with
    | false => rfl
    | true =>
      cases s.fees with
      | none => rfl
      | some table =>
        simp only [if_true,Option.map_some,Option.some.injEq]
        funext a
        by_cases ha : a ∈ addrs <;> by_cases ha' : a ∈ addrs' <;> simp [ha,ha']
  · intro a ha
    obtain ha | ha := mem_append.mp ha
    · exact h.registered a ha
    · exact hlock a ha ▸ h'.registered a ha
  · obtain ⟨locks,fees,supply,rfl⟩ := h.rest
    obtain ⟨locks',fees',supply',rfl⟩ := h'.rest
    exact ⟨_,_,_,rfl⟩

end Paid

theorem updateStakeLocks_paid {infos : List ValidatorInfo}
    (hnodup : (infos.map ValidatorInfo.address).Nodup) (h : updateStakeLocks s infos = .ok t) :
    Paid (infos.map ValidatorInfo.address) s t := by
  induction infos generalizing s with
  | nil =>
    cases h
    exact .refl _
  | cons info infos ih =>
    obtain ⟨m,hm,h⟩ := bind_eq_ok.mp h
    rw [map_cons,nodup_cons] at hnodup
    refine (updateStakeLock_paid hm).trans (ih hnodup.2 h) ?_
    intro a ha ha'
    rw [mem_singleton.mp ha] at ha'
    exact hnodup.1 ha'

theorem onNewEpoch_paid (hwf : s.roster.Wf) (h : s.onNewEpoch = .ok t) :
    ∃ s₁ next total s₂ infos, Paid (s.roster.active ++ s.roster.leaving) s s₁ ∧
      s₁.nextEpochValidators (drain s.set.activeValidators s.set.pendingActive) [] 0 =
        .ok (next, total) ∧
      assignIndices { s₁ with performance := [] } 0 next = .ok (s₂, infos) ∧
      t = { s₂ with set := ⟨infos,[],[],total,0⟩ } := by
  simp only [onNewEpoch,bind_eq_ok,pure_eq_ok] at h
  obtain ⟨s₀,h₀,s₁,h₁,⟨next,total⟩,hnext,⟨s₂,infos⟩,h₂,rfl⟩ := h
  have hnodup := hwf.nodup
  rw [Roster.members,nodup_append,nodup_append] at hnodup
  obtain ⟨⟨hactive,hleaving,hdisjoint⟩,-⟩ := hnodup
  have hset₀ := (updateStakeLocks_earned h₀).1.set
  have hset₁ := (updateStakeLocks_earned h₁).1.set
  rw [hset₀] at h₁
  rw [hset₁,hset₀] at hnext
  have hpaid := (updateStakeLocks_paid hactive h₀).trans (updateStakeLocks_paid hleaving h₁)
    fun a ha ha' => hdisjoint a ha a ha' rfl
  exact ⟨s₁,next,total,s₂,infos,hpaid,hnext,h₂,rfl⟩

/-- The power with which a candidate enters the next epoch. Validators of the epoch are paid
first, and lose what they have unlocked once their lockup has expired. -/
def powerAfter (s : ValidatorStorage) (a : Address) : ℕ :=
  match s.stakeLocks a with
  | none => 0
  | some l => if a ∈ s.roster.active then (s.settled a l).nonInactive else l.nonInactive

/-- Some candidate for the next set keeps the minimum stake. -/
def Continues (s : ValidatorStorage) : Prop :=
  ∃ a ∈ s.roster.active ++ s.roster.joining, s.config.minimumStake ≤ s.powerAfter a

theorem nextEpochValidators_ne_nil {infos acc next : List ValidatorInfo} {power total : ℕ}
    (h : s.nextEpochValidators infos acc power = .ok (next, total)) :
    next ≠ [] ↔ acc ≠ [] ∨
      ∃ a ∈ infos.map ValidatorInfo.address, s.config.minimumStake ≤ s.nextPower a := by
  induction infos generalizing acc power with
  | nil =>
    cases h
    simp
  | cons old infos ih =>
    simp only [nextEpochValidators,bind_eq_ok,borrowGlobal_eq_ok] at h
    obtain ⟨config,-,l,hl,info,hinfo,h⟩ := h
    have hpower : info.votingPower = s.nextPower old.address := by
      obtain ⟨power,hpower,⟨⟩⟩ := bind_eq_ok.mp hinfo
      simpa [nextPower,hl] using StakeLock.getNextEpochVotingPower_ok hpower
    rw [hpower] at h
    split at h
    · next hmin =>
      obtain ⟨_,-,h⟩ := bind_eq_ok.mp h
      simp [ih h,hmin]
    · next hmin =>
      simp [ih h,hmin]

theorem nextPower_paid (hwf : s.roster.Wf) (h : Paid (s.roster.active ++ s.roster.leaving) s t)
    (ha : a ∈ s.roster.active ++ s.roster.joining) : t.nextPower a = s.powerAfter a := by
  have hnodup := hwf.nodup
  rw [Roster.members,nodup_append] at hnodup
  rw [nextPower,powerAfter,h.locks]
  obtain hactive | hjoining := mem_append.mp ha
  · rw [if_pos (mem_append_left _ hactive)]
    cases s.stakeLocks a with
    | none => rfl
    | some l => simp [hactive]
  · have hnot : a ∉ s.roster.active ++ s.roster.leaving :=
      fun hmem => hnodup.2.2 a hmem a hjoining rfl
    rw [if_neg hnot]
    cases s.stakeLocks a with
    | none => rfl
    | some l =>
      have hactive : a ∉ s.roster.active := fun hmem => hnot (mem_append_left _ hmem)
      simp [hactive]

theorem onNewEpoch_ne_nil (hwf : s.roster.Wf) (h : s.onNewEpoch = .ok t) :
    t.set.activeValidators ≠ [] ↔ s.Continues := by
  obtain ⟨s₁,next,total,s₂,infos,hpaid,hnext,hassign,rfl⟩ := onNewEpoch_paid hwf h
  have hinfos := (assignIndices_renumbered hassign).2.1
  have hconfig : s₁.config = s.config := by
    obtain ⟨_,_,_,rfl⟩ := hpaid.rest
    rfl
  have hnil : infos ≠ [] ↔ next ≠ [] := by
    rw [ne_eq,← map_eq_nil_iff (f := ValidatorInfo.address),hinfos,map_eq_nil_iff]
  have hcandidates : (drain s.set.activeValidators s.set.pendingActive).map ValidatorInfo.address =
      s.roster.active ++ s.roster.joining.reverse := by
    rw [drain_eq,map_append,map_reverse]
    rfl
  rw [hnil,nextEpochValidators_ne_nil hnext,hcandidates,hconfig]
  simp only [ne_eq,not_true_eq_false,false_or]
  apply exists_congr
  intro a
  rw [mem_append,mem_reverse,← mem_append]
  apply and_congr_right
  intro ha
  rw [nextPower_paid hwf hpaid ha]

/-- The epoch ends only while some candidate keeps the minimum stake. -/
def EndsWithCandidate (s : ValidatorStorage) (o : ValidatorOp) : Prop :=
  o = .onNewEpoch → s.Continues

theorem step_occupied (h : s.step pop o = .ok t) (ho : o ≠ .onNewEpoch)
    (hs : s.set.activeValidators ≠ []) : t.set.activeValidators ≠ [] := by
  by_cases hw : o.withinEpoch = true
  · exact (step_limited hw h).occupied hs
  cases step_effect h with
  | config => exact hs
  | epoch => exact absurd rfl ho
  | stake _ _ he => exact (limited_stake he).occupied hs
  | quiet _ he => exact (limited_quiet (he.changes 0)).occupied hs
  | _ => exact absurd rfl hw

/-- From every reachable state, along every run: the set is non-empty after each epoch change
exactly if a candidate keeps the minimum stake whenever an epoch ends. If the run starts with a
validator, the set then has one in every state. -/
theorem validators_continue_iff {config : ValidationConfig} {stores : Address → Option CoinStore}
    {supply : ℕ} (h₀ : Reachable (step pop) (genesis config stores supply) s)
    (hrun : Reaches (step pop) s os t) :
    ((∀ front back u, os = front ++ .onNewEpoch :: back →
        Reaches (step pop) s (front ++ [.onNewEpoch]) u → u.set.activeValidators ≠ []) ↔
      Run (step pop) EndsWithCandidate s os t) ∧
    (Run (step pop) EndsWithCandidate s os t → s.set.activeValidators ≠ [] →
      ∀ front back u, os = front ++ back → Reaches (step pop) s front u →
        u.set.activeValidators ≠ []) := by
  have hwf : ∀ front u, Reaches (step pop) s front u → u.roster.Wf := by
    intro front u hu
    obtain ⟨os₀,h₀⟩ := h₀
    exact (h₀.trans hu).invariant (I := fun t => t.roster.Wf)
      (genesis_roster_wf config stores supply) fun _ _ _ ht _ hs => step_roster_wf ht hs
  refine ⟨⟨?_,?_⟩,?_⟩
  · intro hall
    induction hrun with
    | nil => exact .nil _
    | @snoc m u os o hm _ hs ih =>
      refine .snoc (ih fun front back v hos hv => ?_) ?_ hs
      · exact hall front (back ++ [o]) v (by rw [hos,append_assoc]; rfl) hv
      · rintro rfl
        rw [← onNewEpoch_ne_nil (hwf os m hm) hs]
        exact hall os [] u rfl (hm.snoc trivial hs)
  · rintro hguard front back u rfl hu
    obtain ⟨m,v,hm,hcandidate,hs,-⟩ := hguard.middle
    obtain rfl := hu.unique (hm.reaches.snoc trivial hs)
    exact (onNewEpoch_ne_nil (hwf front m hm.reaches) hs).mpr (hcandidate rfl)
  · rintro hguard hs front back u rfl hu
    obtain ⟨v,hv,-⟩ := hguard.append_inv
    obtain rfl := hu.unique hv.reaches
    have hstart : s.roster.Wf ∧ s.set.activeValidators ≠ [] := ⟨hwf [] s (.nil s),hs⟩
    refine (hv.invariant (I := fun t => t.roster.Wf ∧ t.set.activeValidators ≠ []) hstart ?_).2
    rintro m o m' ⟨hm,hactive⟩ hcandidate hstep
    refine ⟨step_roster_wf hm hstep,?_⟩
    by_cases ho : o = .onNewEpoch
    · subst ho
      exact (onNewEpoch_ne_nil hm hstep).mpr (hcandidate rfl)
    · exact step_occupied hstep ho hactive

/-- Validator 1 unlocks half of its stake, validator 2 leaves, and the epoch ends after the
lockup of both. -/
theorem validators_continue_iff_half :
    ∃ (s t : ValidatorStorage), Reachable (step fun _ _ => true) small s ∧
      Run (step fun _ _ => true) EndsWithCandidate s [.onNewEpoch] t ∧
      t.set.activeValidators ≠ [] := by
  obtain ⟨s,t,hs,ht,hcandidate⟩ : ∃ s t, exec (step fun _ _ => true) small (enter 1 100 ++
      enter 2 200 ++ [.onNewEpoch,.unlock 1 50,.leaveValidatorSet 2 2,
        .updateGlobalTime false 61000000]) = .ok s ∧ s.onNewEpoch = .ok t ∧ s.Continues :=
    ⟨_,_,rfl,rfl,1,by decide,by decide⟩
  have hguard : Run (step fun _ _ => true) EndsWithCandidate s [.onNewEpoch] t :=
    .single (fun _ => hcandidate) ht
  refine ⟨s,t,.of_exec hs,hguard,?_⟩
  exact (validators_continue_iff (.of_exec hs) hguard.reaches).1.mpr hguard [] [] t rfl hguard.reaches

/-- Validator 1 unlocks all of its stake, validator 2 leaves, and the epoch ends after the lockup
of both: no validator is left, although the last one could not have left. -/
theorem validators_vanish :
    ∃ (s t : ValidatorStorage), Reachable (step fun _ _ => true) small s ∧
      s.set.activeValidators ≠ [] ∧
      (∀ info ∈ s.set.activeValidators, s.config.minimumStake ≤ info.votingPower) ∧
      Reaches (step fun _ _ => true) s [.unlock 1 100,.leaveValidatorSet 2 2,
        .updateGlobalTime false 61000000,.onNewEpoch] t ∧
      t.config = s.config ∧ t.set.activeValidators = [] := by
  have hs : exec (step fun _ _ => true) small (enter 1 100 ++ enter 2 200 ++ [.onNewEpoch]) =
      .ok _ := rfl
  exact ⟨_,_,.of_exec hs,by decide,by decide,reaches_iff_exec.mpr rfl,rfl,rfl⟩

end Arx.ValidatorStorage
