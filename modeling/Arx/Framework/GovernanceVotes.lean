import Arx.Framework.GovernanceAuthority

/-!
# What the votes count

No coin is counted twice among votes that are cast before the lockups end. The last second of a
voting period is later than that.
-/

namespace Arx.GovernanceState
open Movelib Governance Function List Option

variable {s t : GovernanceState} {native : Natives} {o : GovernanceOp} {pool voter : Address}
  {id : ℕ} {shouldPass : Bool}

/-- Coins that come from other modules exist. -/
def CoinsExist (s : GovernanceState) : GovernanceOp → Prop
  | .validator o => s.validators.Backed o
  | _ => True

/-- A vote on the proposal `id` is cast before the time `D`, with a stake lock whose lockup lasts
until then. -/
def CastBefore (id D : ℕ) (s : GovernanceState) : GovernanceOp → Prop
  | .vote _ pool i _ => i = id → s.nowSeconds < D ∧
      ∀ l, s.validators.stakeLocks pool = some l → D ≤ l.lockedUntilSecs
  | _ => True

/-- The votes on `id` are those of the locks `pools` with the weights `w`, and what a lock was
counted for is still in it as long as `D` has not come. -/
structure Tally (id D : ℕ) (s : GovernanceState) (pools : Finset Address) (w : Address → ℕ) :
    Prop where
  total : ∀ p, s.forum.proposals id = some p → p.yesVotes + p.noVotes = ∑ a ∈ pools, w a
  unproposed : s.forum.proposals id = none → pools = ∅
  recorded : ∀ a ∈ pools, s.votes ⟨a,id⟩ ≠ none
  locked : ∀ a ∈ pools, ∃ l, s.validators.stakeLocks a = some l ∧ D ≤ l.lockedUntilSecs ∧
    (s.nowSeconds < D → w a ≤ l.nonInactive)

structure Kept (p p' : Proposal GovernanceProposal) : Prop where
  votes : p'.yesVotes + p'.noVotes = p.yesVotes + p.noVotes
  created : p'.creationTimeSecs = p.creationTimeSecs
  expires : p'.expirationSecs = p.expirationSecs

/-- The part of a call that the count of the votes on one proposal depends on. -/
inductive CountStep (now : ℕ) (o : GovernanceOp) (id : ℕ) :
    Option (Proposal GovernanceProposal) → Option (Proposal GovernanceProposal) → Prop
  | absent : CountStep now o id none none
  | created {p : Proposal GovernanceProposal} (hp : Fresh p now) : CountStep now o id none (some p)
  | kept {p p' : Proposal GovernanceProposal} (h : Kept p p') : CountStep now o id (some p) (some p')
  | voted (p p' : Proposal GovernanceProposal) {voter pool : Address} {shouldPass : Bool}
      (ho : o = .vote voter pool id shouldPass) : CountStep now o id (some p) (some p')

theorem countStep {now : ℕ} {x y : Option (Proposal GovernanceProposal)} {h h' : Option Bytes}
    (hd : DocketStep now o id x h y h') : CountStep now o id x y := by
  cases hd with
  | other =>
    cases x with
    | none => exact .absent
    | some p => exact .kept ⟨rfl,rfl,rfl⟩
  | created p _ hp => exact .created hp
  | voted ho _ _ => exact .voted _ _ ho
  | approved _ _ | dropped p _ => exact .kept ⟨rfl,rfl,rfl⟩
  | resolved hres =>
    obtain ⟨-,-,rfl⟩ := Proposal.resolve_ok hres
    exact .kept ⟨rfl,rfl,rfl⟩
  | executed hres _ =>
    obtain ⟨-,_,-,⟨-,rfl⟩ | ⟨-,-,-,rfl⟩⟩ := Proposal.resolveProposalV2_ok hres
    · exact .kept ⟨rfl,rfl,rfl⟩
    · exact .kept ⟨rfl,rfl,rfl⟩

theorem step_locked {D n : ℕ} {a : Address} (h : s.step native o = .ok t)
    (hs : ∃ l, s.validators.stakeLocks a = some l ∧ D ≤ l.lockedUntilSecs ∧
      (s.nowSeconds < D → n ≤ l.nonInactive)) :
    ∃ l, t.validators.stakeLocks a = some l ∧ D ≤ l.lockedUntilSecs ∧
      (t.nowSeconds < D → n ≤ l.nonInactive) := by
  obtain ⟨l,hl,hD,hn⟩ := hs
  have hnow := step_nowSeconds_le h
  obtain heq | ⟨_,-,hv,-⟩ := (step_ok h).2.1
  · rw [heq]
    exact ⟨l,hl,hD,fun hlt => hn (hnow.trans_lt hlt)⟩
  · obtain ⟨l',hl',hk⟩ := ValidatorStorage.step_keeps hv hl
    refine ⟨l',hl',hD.trans hk.lockup,fun hlt => ?_⟩
    have hbefore := hnow.trans_lt hlt
    exact (hn hbefore).trans (hk.stake (hbefore.trans_le hD))

section

variable {D : ℕ} {pools : Finset Address} {w : Address → ℕ} (hT : Tally id D s pools w)

include hT

theorem Tally.keep (h : s.step native o = .ok t)
    (htotal : ∀ p, t.forum.proposals id = some p → p.yesVotes + p.noVotes = ∑ a ∈ pools, w a)
    (hnone : t.forum.proposals id = none → pools = ∅) : Tally id D t pools w where
  total := htotal
  unproposed := hnone
  recorded := fun a ha => (step_ok h).2.2 _ (hT.recorded a ha)
  locked := fun a ha => step_locked h (hT.locked a ha)

theorem Tally.vote (h : s.vote voter pool id shouldPass = .ok t)
    (hb : CastBefore id D s (.vote voter pool id shouldPass)) :
    ∃ power, Tally id D t (insert pool pools) (update w pool power) := by
  obtain ⟨p,p',power,l,hashes,hp,hnone,hpower,-,hl,-,hvote,rfl,-⟩ := vote_ok h
  obtain ⟨-,hD⟩ := hb rfl
  have hnew : pool ∉ pools := fun hmem => hT.recorded pool hmem hnone
  have hold : ∀ a ∈ pools, update w pool power a = w a := by
    intro a ha
    have hne : a ≠ pool := fun heq => hnew (heq ▸ ha)
    exact update_of_ne hne ..
  refine ⟨power,?_,?_,?_,?_⟩
  · intro q hq
    cases VotingForum.put_self.symm.trans hq
    obtain ⟨-,-,-,-,metadata,-,rfl⟩ := Proposal.vote_ok hvote
    rw [Finset.sum_insert hnew,update_self,Finset.sum_congr rfl hold,← hT.total p hp]
    cases shouldPass with
    | true =>
      show p.yesVotes + power + (p.noVotes + 0) = power + (p.yesVotes + p.noVotes)
      omega
    | false =>
      show p.yesVotes + 0 + (p.noVotes + power) = power + (p.yesVotes + p.noVotes)
      omega
  · intro hno
    exact absurd (VotingForum.put_self.symm.trans hno) nofun
  · intro a ha
    show update s.votes ⟨pool,id⟩ (some true) ⟨a,id⟩ ≠ none
    by_cases hk : (⟨a,id⟩ : RecordKey) = ⟨pool,id⟩
    · rw [hk,update_self]
      exact nofun
    · rw [update_of_ne hk]
      have hne : a ≠ pool := fun heq => hk (heq ▸ rfl)
      exact hT.recorded a (Finset.mem_of_mem_insert_of_ne ha hne)
  · intro a ha
    by_cases hap : a = pool
    · subst hap
      obtain ⟨l',hl',hle⟩ := getVotingPower_le hpower
      rw [update_self]
      exact ⟨l',hl',hD l' hl',fun _ => hle⟩
    · rw [update_of_ne hap]
      exact hT.locked a (Finset.mem_of_mem_insert_of_ne ha hap)

end

section Supply

variable {s₀ : GovernanceState} {os : List GovernanceOp} {p p' : Proposal GovernanceProposal}
  {D : ℕ}

/-- At some time in the voting period of `p`, the supply covered the votes on it. -/
def CoveredOnce (native : Natives) (s₀ : GovernanceState) (os : List GovernanceOp)
    (p : Proposal GovernanceProposal) : Prop :=
  ∃ os₁ os₂ t, os = os₁ ++ os₂ ∧ Reaches (step native) s₀ os₁ t ∧
    p.creationTimeSecs ≤ t.nowSeconds ∧ t.nowSeconds ≤ p.expirationSecs ∧
      p.yesVotes + p.noVotes ≤ t.validators.supply

theorem CoveredOnce.keep (h : CoveredOnce native s₀ os p) (hk : Kept p p') :
    CoveredOnce native s₀ (os ++ [o]) p' := by
  obtain ⟨os₁,os₂,t,rfl,ht,hfrom,hto,hle⟩ := h
  refine ⟨os₁,os₂ ++ [o],t,append_assoc ..,ht,?_,?_,?_⟩
  · rwa [hk.created]
  · rwa [hk.expires]
  · rwa [hk.votes]

theorem CoveredOnce.now (h : Reaches (step native) s₀ os s)
    (hfrom : p.creationTimeSecs ≤ s.nowSeconds) (hto : s.nowSeconds ≤ p.expirationSecs)
    (hle : p.yesVotes + p.noVotes ≤ s.validators.supply) : CoveredOnce native s₀ os p :=
  ⟨os,[],s,(append_nil os).symm,h,hfrom,hto,hle⟩

theorem step_backed (h : s.step native o = .ok t) (hb : CoinsExist s o)
    (hs : s.validators.Covered 0) : t.validators.Covered 0 := by
  obtain heq | ⟨vo,rfl,hv,-⟩ := (step_ok h).2.1
  · rwa [heq]
  · exact ValidatorStorage.step_covered hv hb hs

structure Sound (native : Natives) (s₀ : GovernanceState) (id D : ℕ) (os : List GovernanceOp)
    (s : GovernanceState) : Prop where
  covered : s.validators.Covered 0
  tally : ∃ pools w, Tally id D s pools w
  period : ∀ p, s.forum.proposals id = some p →
    p.creationTimeSecs ≤ s.nowSeconds ∧ CoveredOnce native s₀ os p

theorem step_nowSeconds_eq (h : s.step native o = .ok t)
    (hne : t.forum.proposals id ≠ s.forum.proposals id) : t.nowSeconds = s.nowSeconds := by
  obtain heq | ⟨_,-,-,hforum⟩ := (step_ok h).2.1
  · rw [nowSeconds,nowSeconds,heq]
  · rw [hforum] at hne
    exact absurd rfl hne

theorem Sound.vote {os' : List GovernanceOp} (hS : Sound native s₀ id D os s)
    (hrun : Reaches (GovernanceState.step native) s₀ os' t)
    (hb : CastBefore id D s (.vote voter pool id shouldPass))
    (h : s.vote voter pool id shouldPass = .ok t) : Sound native s₀ id D os' t := by
  obtain ⟨pools,w,hT⟩ := hS.tally
  obtain ⟨power,hT'⟩ := hT.vote h hb
  obtain ⟨p,p',_,l,hashes,hp,-,-,-,-,-,hvote,rfl,-⟩ := vote_ok h
  refine ⟨hS.covered,⟨_,_,hT'⟩,?_⟩
  intro q hq
  obtain ⟨hfrom,-⟩ := hS.period p hp
  have htotal := hT'.total q hq
  cases VotingForum.put_self.symm.trans hq
  have hle : p'.yesVotes + p'.noVotes ≤ s.validators.supply := by
    rw [htotal]
    refine hS.covered.stake_le _ fun a ha => ?_
    obtain ⟨l,hl,-,hw⟩ := hT'.locked a ha
    exact ⟨l,hl,hw (hb rfl).1⟩
  obtain ⟨hto,-,-,-,metadata,-,rfl⟩ := Proposal.vote_ok hvote
  exact ⟨hfrom,.now hrun hfrom hto hle⟩

theorem Sound.step (hS : Sound native s₀ id D os s)
    (hrun : Reaches (GovernanceState.step native) s₀ os s) (hcoins : CoinsExist s o)
    (hb : CastBefore id D s o) (h : s.step native o = .ok t) :
    Sound native s₀ id D (os ++ [o]) t := by
  have hrun' := hrun.snoc trivial h
  have hcov := step_backed h hcoins hS.covered
  have hnow := step_nowSeconds_le h
  obtain ⟨pools,w,hT⟩ := hS.tally
  have hcount := countStep ((step_ok h).1 id)
  generalize hx : s.forum.proposals id = x at hcount
  generalize hy : t.forum.proposals id = y at hcount
  cases hcount with
  | absent =>
    have hno : ∀ p, t.forum.proposals id ≠ some p := by
      rw [hy]
      exact fun _ => nofun
    exact ⟨hcov,⟨pools,w,hT.keep h (fun p hp => absurd hp (hno p)) fun _ => hT.unproposed hx⟩,
      fun p hp => absurd hp (hno p)⟩
  | @created p hp =>
    have hzero : p.yesVotes + p.noVotes = 0 := by rw [hp.yesVotes,hp.noVotes]
    have heq : ∀ q, t.forum.proposals id = some q → q = p :=
      fun q hq => some.inj (hq.symm.trans hy)
    have htime : t.nowSeconds = s.nowSeconds := step_nowSeconds_eq h (by rw [hx,hy]; exact nofun)
    refine ⟨hcov,⟨pools,w,hT.keep h ?_ fun _ => hT.unproposed hx⟩,?_⟩
    · intro q hq
      rw [heq q hq,hzero,hT.unproposed hx,Finset.sum_empty]
    · intro q hq
      rw [heq q hq,htime,hp.created]
      refine ⟨le_rfl,.now hrun' ?_ ?_ ?_⟩
      · rw [hp.created,htime]
      · rw [htime]
        exact hp.expires
      · rw [hzero]
        exact Nat.zero_le _
  | @kept p p' hk =>
    have heq : ∀ q, t.forum.proposals id = some q → q = p' :=
      fun q hq => some.inj (hq.symm.trans hy)
    obtain ⟨hfrom,hperiod⟩ := hS.period p hx
    refine ⟨hcov,⟨pools,w,hT.keep h ?_ ?_⟩,?_⟩
    · intro q hq
      rw [heq q hq,hk.votes,hT.total p hx]
    · intro hno
      exact absurd (hy.symm.trans hno) nofun
    · intro q hq
      rw [heq q hq,hk.created]
      exact ⟨hfrom.trans hnow,hperiod.keep hk⟩
  | voted p p' ho =>
    subst ho
    exact hS.vote hrun' hb h

variable {config : ValidationConfig} {stores : Address → Option CoinStore} {supply : ℕ}
  {governance : GovernanceConfig}

/-- In every run in which the votes on a proposal are cast before some time `D`, with stake locks
whose lockup lasts until `D`: the supply at some time of the voting period covered all votes on the
proposal; and before `D` the votes are those of distinct locks which still hold the stake that was
counted. -/
theorem votes_le_supply
    (hstores : BoundedBy (fun a => (stores a).elim 0 CoinStore.coin) supply)
    (h : Run (step native) (fun s o => CoinsExist s o ∧ CastBefore id D s o)
      (genesis (.genesis config stores supply) governance) os s) :
    (∀ p, s.forum.proposals id = some p →
      CoveredOnce native (genesis (.genesis config stores supply) governance) os p) ∧
    ∃ pools w, Tally id D s pools w := by
  have hS : Sound native (genesis (.genesis config stores supply) governance) id D os s := by
    induction h with
    | nil =>
      refine ⟨ValidatorStorage.genesis_covered hstores,⟨∅,fun _ => 0,?_⟩,nofun⟩
      exact ⟨nofun,fun _ => rfl,nofun,nofun⟩
    | snoc hrun hg hs ih => exact ih.step hrun.reaches hg.1 hg.2 hs
  exact ⟨fun p hp => (hS.period p hp).2,hS.tally⟩

end Supply

/-- The stake that backs the proposal votes for it in its first minute. -/
theorem votes_le_supply_first_minute :
    ∃ (s : GovernanceState) (p : Proposal GovernanceProposal),
      Reaches (step .trusting) start (propose ++ [.vote 1 1 0 true]) s ∧
      s.forum.proposals 0 = some p ∧ p.yesVotes = 100 ∧
      CoveredOnce .trusting start (propose ++ [.vote 1 1 0 true]) p := by
  have hrun : ∃ s t l p, exec (step .trusting) start propose = .ok s ∧
      s.step .trusting (.vote 1 1 0 true) = .ok t ∧ s.validators.stakeLocks 1 = some l ∧
      s.nowSeconds = 0 ∧ l.lockedUntilSecs = 60 ∧ t.forum.proposals 0 = some p ∧
      p.yesVotes = 100 := ⟨_,_,_,_,rfl,rfl,rfl,rfl,rfl,rfl,rfl⟩
  obtain ⟨s,t,l,p,hs,ht,hl,hnow,hlock,hp,hyes⟩ := hrun
  have hguard : CastBefore 0 60 s (.vote 1 1 0 true) := by
    intro _
    refine ⟨by omega,fun l' hl' => ?_⟩
    cases hl.symm.trans hl'
    exact hlock.ge
  have hpropose : Run (step .trusting) (fun s o => CoinsExist s o ∧ CastBefore 0 60 s o) start
      propose s := by
    refine .of_reaches (reaches_iff_exec.mpr hs) fun o ho _ => ?_
    simp only [propose,mem_cons,not_mem_nil,or_false] at ho
    obtain rfl | rfl | rfl := ho <;> exact ⟨trivial,trivial⟩
  have hcoins : CoinsExist s (.vote 1 1 0 true) := trivial
  have hvote := hpropose.snoc ⟨hcoins,hguard⟩ ht
  exact ⟨t,p,hvote.reaches,hp,hyes,(votes_le_supply ValidatorStorage.purse_bounded hvote).1 p hp⟩

/-- At the end of the minute, which still belongs to the voting period, account 1 takes its stake
out of the first lock, brings it into a second one and votes again. -/
def voteTwice : List GovernanceOp := propose ++ [
  .validator (.initializeStakeOwner 2 0 2 2),
  .vote 1 1 0 true,
  .validator (.updateGlobalTime false 60000000),
  .validator (.unlock 1 100),
  .validator (.withdraw 1 100),
  .validator (.extractOwnerCap 1),
  .validator (.extractOwnerCap 2),
  .validator (.depositOwnerCap 1 2),
  .validator (.lockStake 1 100),
  .validator (.increaseLockup 1),
  .vote 1 2 0 true]

theorem votes_exceed_supply :
    start.validators.config.allowValidatorSetChange = true ∧
    ∃ s p, Run (step .trusting) CoinsExist start voteTwice s ∧ s.forum.proposals 0 = some p ∧
      p.yesVotes + p.noVotes = 200 ∧
      ∀ os₁ os₂ t, voteTwice = os₁ ++ os₂ → Reaches (step .trusting) start os₁ t →
        t.validators.supply = 100 := by
  have hrun : ∃ s p, exec (step .trusting) start voteTwice = .ok s ∧
      s.forum.proposals 0 = some p ∧ p.yesVotes + p.noVotes = 200 := ⟨_,_,rfl,rfl,rfl⟩
  obtain ⟨s,p,hs,hp,hvotes⟩ := hrun
  refine ⟨rfl,s,p,.of_reaches (reaches_iff_exec.mpr hs) fun o ho _ => ?_,hp,hvotes,?_⟩
  · have hall : ∀ o ∈ voteTwice, ∀ s, CoinsExist s o := by
      simp [voteTwice,propose,CoinsExist,ValidatorStorage.Backed]
    exact hall o ho _
  · intro os₁ os₂ t hos ht
    have hsupply : ∀ k < 15, (exec (step .trusting) start (voteTwice.take k)).toOption.map
        (fun t => t.validators.supply) = some 100 := by decide
    have hlen : os₁.length < 15 := by
      have := congrArg List.length hos
      rw [length_append] at this
      have : voteTwice.length = 14 := rfl
      omega
    have hk := hsupply os₁.length hlen
    rw [hos,take_left,reaches_iff_exec.mp ht] at hk
    exact some.inj hk

end Arx.GovernanceState
