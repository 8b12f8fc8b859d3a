import Arx.Framework.GovernanceSteps
import Arx.Framework.ValidatorCoins

/-!
# Who votes, and approved hashes

A vote is recorded for a stake lock and nothing ties the voter to the lock, so anybody can cast it.
An approved hash outlives its purpose in two ways: it can be made for a proposal that is resolved
already, and votes after an early success can turn the proposal down again.
-/

namespace Arx
open Movelib Governance

section Caps

variable {x y : ValidatorStorage × ℕ}

theorem Change.caps_finite (h : Change x y)
    (hx : {a | x.1.ownerCaps a ≠ none}.Finite) : {a | y.1.ownerCaps a ≠ none}.Finite := by
  cases h with
  | quiet h =>
    cases h with
    | ownerCap s n a cap =>
      refine (hx.insert a).subset fun b hb => ?_
      by_cases hba : b = a
      · exact .inl hba
      · refine .inr fun hnone => hb ?_
        exact (Function.update_of_ne hba ..).trans hnone
    | _ => exact hx
  | _ => exact hx

theorem Changes.caps_finite (h : Changes x y) (hx : {a | x.1.ownerCaps a ≠ none}.Finite) :
    {a | y.1.ownerCaps a ≠ none}.Finite := by
  induction h with
  | refl => exact hx
  | tail _ hc ih => exact hc.caps_finite ih

end Caps

namespace GovernanceState

variable {s t : GovernanceState} {native : Natives} {o : GovernanceOp} {pool voter : Address}
    {id : ℕ} {shouldPass : Bool} {p : Proposal GovernanceProposal}

theorem step_caps_finite (h : s.step native o = .ok t)
    (hs : {a | s.validators.ownerCaps a ≠ none}.Finite) :
    {a | t.validators.ownerCaps a ≠ none}.Finite := by
  obtain heq | ⟨vo,-,hv,-⟩ := (step_ok h).2.1
  · rwa [heq]
  · obtain ⟨m,hc⟩ | ⟨stores,supply,rfl⟩ := ValidatorStorage.step_changes hv
    · exact Changes.caps_finite (hc 0) hs
    · rw [← Except.ok.inj hv]
      exact hs

def Authorised (s : GovernanceState) (pool account : Address) : Prop :=
  s.validators.ownerCaps account = some pool ∨
    ∃ l, s.validators.stakeLocks pool = some l ∧
      (account = l.operatorAddress ∨ account = l.vaultAddress)

/-- Only finitely many accounts are authorised, so some account is not. -/
theorem exists_not_authorised (hs : {a | s.validators.ownerCaps a ≠ none}.Finite)
    (pool : Address) : ∃ account, ¬ s.Authorised pool account := by
  have hfin : {a | s.Authorised pool a}.Finite := by
    cases hl : s.validators.stakeLocks pool with
    | none =>
      refine hs.subset fun a ha => ?_
      obtain hcap | ⟨l,hl',-⟩ := ha
      · show s.validators.ownerCaps a ≠ none
        rw [hcap]
        exact nofun
      · rw [hl] at hl'
        cases hl'
    | some l =>
      refine ((hs.insert l.vaultAddress).insert l.operatorAddress).subset fun a ha => ?_
      obtain hcap | ⟨l',hl',hacc⟩ := ha
      · refine .inr (.inr ?_)
        show s.validators.ownerCaps a ≠ none
        rw [hcap]
        exact nofun
      · cases hl.symm.trans hl'
        exact hacc.imp_right .inl
  exact hfin.exists_notMem

def Fits (p : Proposal GovernanceProposal) (power : ℕ) (shouldPass : Bool) : Prop :=
  let q := { p with
    yesVotes := p.yesVotes + if shouldPass then power else 0
    noVotes := p.noVotes + if shouldPass then 0 else power }
  (if shouldPass then q.yesVotes else q.noVotes) < 2 ^ 128 ∧
    (q.canBeResolvedEarly = true → q.noVotes < q.yesVotes → q.yesVotes + q.noVotes < 2 ^ 128)

/-- The stake lock has not voted on the proposal, its stake counts and is locked for long enough,
and the proposal is open to votes. -/
def Votable (s : GovernanceState) (pool : Address) (id : ℕ) (shouldPass : Bool) : Prop :=
  s.votes ⟨pool,id⟩ = none ∧
    ∃ p l power, s.forum.proposals id = some p ∧ s.validators.stakeLocks pool = some l ∧
      s.getVotingPower pool = .ok power ∧ 0 < power ∧ p.expirationSecs ≤ l.lockedUntilSecs ∧
      s.nowSeconds ≤ p.expirationSecs ∧ p.isResolved = false ∧ p.notInExecution = .ok true ∧
      Fits p power shouldPass

theorem isVotingClosed_of_open {now : ℕ} (hnow : now ≤ p.expirationSecs) :
    p.isVotingClosed now = p.canBeResolvedEarly := by
  simp [Proposal.isVotingClosed,Proposal.isVotingPeriodOver,hnow]

theorem approveIfSucceeded_isOk {state : ProposalState} (hp : s.forum.proposals id = some p)
    (hstate : p.getProposalState s.nowSeconds = .ok state) :
    ∃ t, s.approveIfSucceeded id = .ok t := by
  have hforum : s.forum.getProposalState s.nowSeconds id = .ok state := by
    simp only [VotingForum.getProposalState,VotingForum.borrow,hp,borrowGlobal,ok_bind,hstate]
  simp only [approveIfSucceeded,hforum,ok_bind]
  split
  · next hs =>
    obtain ⟨hashes,hput⟩ := putHash_isOk s.hashes id p.executionHash
    refine ⟨{ s with hashes },?_⟩
    simp only [addApprovedScriptHash,VotingForum.getExecutionHash,VotingForum.borrow,hp,
      borrowGlobal,hforum,hs,ok_bind,bind_eq_ok,ensure_eq_ok,pure_eq_ok]
    exact ⟨(),trivial,_,rfl,hashes,hput,rfl⟩
  · exact ⟨s,rfl⟩

theorem vote_isOk_iff :
    (∃ t, s.vote voter pool id shouldPass = .ok t) ↔ s.Votable pool id shouldPass := by
  constructor
  · rintro ⟨t,h⟩
    obtain ⟨p,p',power,l,hashes,hp,hnone,hpower,hpos,hl,hlock,hvote,-,hstate⟩ := vote_ok h
    have hok : ∃ state, p'.getProposalState s.nowSeconds = .ok state := by
      obtain ⟨hs,-⟩ | ⟨⟨state,hs,-⟩,-⟩ := hstate
      · exact ⟨_,hs⟩
      · exact ⟨state,hs⟩
    have hsum := Proposal.getProposalState_isOk.mp hok
    obtain ⟨hnow,hres,hexec,hfit,metadata,-,rfl⟩ := Proposal.vote_ok hvote
    refine ⟨hnone,p,l,power,hp,hl,hpower,hpos,hlock,hnow,hres,hexec,?_,?_⟩
    · cases shouldPass <;> exact hfit
    · exact fun hearly => hsum (Bool.or_eq_true_iff.mpr (.inl hearly))
  · rintro ⟨hnone,p,l,power,hp,hl,hpower,hpos,hlock,hnow,hres,hexec,hfit,hsum⟩
    have hfit' : (if shouldPass then p.yesVotes + power else p.noVotes + power) < 2 ^ 128 := by
      cases shouldPass <;> exact hfit
    obtain ⟨p',hvote⟩ := Proposal.vote_isOk hnow hres hexec hfit'
    have hstate : ∃ state, p'.getProposalState s.nowSeconds = .ok state := by
      obtain ⟨-,-,-,-,metadata,-,rfl⟩ := Proposal.vote_ok hvote
      refine Proposal.getProposalState_isOk.mpr fun hclosed => hsum ?_
      exact (isVotingClosed_of_open (by exact hnow)).symm.trans hclosed
    obtain ⟨state,hstate⟩ := hstate
    have happrove := approveIfSucceeded_isOk
      (s := { s with
        forum := s.forum.put id p'
        votes := Function.update s.votes ⟨pool,id⟩ (some true) })
      VotingForum.put_self hstate
    obtain ⟨t,ht⟩ := happrove
    refine ⟨t,?_⟩
    simp only [vote,recordVote,VotingForum.getProposalExpirationSecs,VotingForum.vote,
      VotingForum.borrow,bind_eq_ok,ensure_eq_ok,borrowGlobal_eq_ok,getLockupSecs_eq_ok,
      pure_eq_ok]
    exact ⟨_,⟨(),by rw [hnone]; rfl,rfl⟩,power,hpower,(),hpos,_,⟨p,hp,rfl⟩,_,⟨l,hl,rfl⟩,(),hlock,_,
      ⟨p,hp,p',hvote,rfl⟩,ht⟩

section Authority

variable {config : ValidationConfig} {stores : Address → Option CoinStore} {supply : ℕ}
  {governance : GovernanceConfig}

/-- In every reachable state, the votes with the power of a pool on a proposal come from the
accounts of the pool exactly where nobody can vote with that power at all. -/
theorem votes_authorised_iff
    (h : Reachable (step native) (genesis (.genesis config stores supply) governance) s) :
    (∀ voter t, s.vote voter pool id shouldPass = .ok t → s.Authorised pool voter) ↔
      ¬ s.Votable pool id shouldPass := by
  have hcaps : {a | s.validators.ownerCaps a ≠ none}.Finite := by
    refine h.invariant (I := fun s => {a | s.validators.ownerCaps a ≠ none}.Finite) ?_
      fun _ _ _ ht hs => step_caps_finite hs ht
    exact Set.finite_empty.subset fun _ ha => ha rfl
  constructor
  · intro hall hvotable
    obtain ⟨stranger,hstranger⟩ := exists_not_authorised hcaps pool
    obtain ⟨t,ht⟩ := vote_isOk_iff.mpr hvotable
    exact hstranger (hall stranger t ht)
  · intro hno voter t ht
    exact absurd (vote_isOk_iff.mp ⟨t,ht⟩) hno

end Authority

end GovernanceState

def Natives.trusting : Natives := ⟨fun _ _ => true,fun _ => true⟩

namespace GovernanceState

def start : GovernanceState := genesis .purse ⟨50,10,60⟩

def propose : List GovernanceOp := [
  .validator (.initializeStakeOwner 1 100 1 1),
  .validator (.increaseLockup 1),
  .createProposal 1 1 [1] [] []]

theorem votes_authorised_iff_voted :
    ∃ s, Reachable (step .trusting) start s ∧
      ∀ voter t, s.vote voter 1 0 true = .ok t → s.Authorised 1 voter := by
  have hrun : ∃ s, exec (step .trusting) start (propose ++ [.vote 1 1 0 true]) = .ok s ∧
      s.votes ⟨1,0⟩ = some true := ⟨_,rfl,rfl⟩
  obtain ⟨s,hs,hvoted⟩ := hrun
  refine ⟨s,.of_exec hs,(votes_authorised_iff (.of_exec hs)).mpr ?_⟩
  rintro ⟨hnone,-⟩
  rw [hvoted] at hnone
  cases hnone

/-- Account 99, which nobody authorised, votes against the proposal with the stake of account 1,
and account 1 itself cannot vote any more. -/
theorem stranger_votes :
    ∃ s t, Reachable (step .trusting) start s ∧ s.vote 99 1 0 false = .ok t ∧
      ¬ s.Authorised 1 99 ∧ t.vote 1 1 0 true = .error (Error.invalidArgument EALREADY_VOTED) := by
  have hs : exec (step .trusting) start propose = .ok _ := rfl
  refine ⟨_,_,.of_exec hs,rfl,?_,rfl⟩
  rintro (hown | ⟨l,hl,hacc⟩)
  · cases hown
  · cases hl
    exact absurd hacc (by decide)

end GovernanceState

open Option

variable {P : Type}

theorem Proposal.succeeded_mono {p : Proposal P} {now now' : ℕ} (hle : now ≤ now')
    (h : p.getProposalState now = .ok .succeeded) : p.getProposalState now' = .ok .succeeded := by
  rw [getProposalState_eq_succeeded] at h ⊢
  refine ⟨?_,h.2⟩
  have hclosed := h.1
  simp only [isVotingClosed,isVotingPeriodOver,Bool.or_eq_true,decide_eq_true_eq] at hclosed ⊢
  exact hclosed.imp_right fun hlt => lt_of_lt_of_le hlt hle

theorem Proposal.canBeResolvedEarly_mono {p p' : Proposal P}
    (he : p'.earlyResolutionVoteThreshold = p.earlyResolutionVoteThreshold)
    (hy : p.yesVotes ≤ p'.yesVotes) (hn : p.noVotes ≤ p'.noVotes)
    (h : p.canBeResolvedEarly = true) : p'.canBeResolvedEarly = true := by
  rw [canBeResolvedEarly] at h ⊢
  rw [he]
  split at h
  · rw [decide_eq_true_eq] at h ⊢
    exact h.imp (fun h => h.trans hy) fun h => h.trans hn
  · cases h

namespace GovernanceState

variable {s t : GovernanceState} {native : Natives} {o : GovernanceOp} {pool voter : Address}
  {id : ℕ} {shouldPass : Bool}

/-- Every approved hash is the current one of a proposal that has succeeded and is not resolved. -/
def ApprovedPending (s : GovernanceState) : Prop :=
  ∀ id hash, s.hashes.lookup id = some hash → ∃ p, s.forum.proposals id = some p ∧
    p.getProposalState s.nowSeconds = .ok .succeeded ∧ p.isResolved = false ∧
      hash = p.executionHash

/-- No hash of a resolved proposal is approved, and no vote turns an approved proposal down. -/
def Orderly (s : GovernanceState) : GovernanceOp → Prop
  | .addApprovedScriptHash id | .addApprovedScriptHashScript id =>
    ∀ p, s.forum.proposals id = some p → p.isResolved = false
  | .vote _ pool id shouldPass => ∀ p power, s.forum.proposals id = some p →
      s.getVotingPower pool = .ok power → (s.hashes.lookup id).isSome = true →
        shouldPass = false → p.noVotes + power < p.yesVotes
  | _ => True

/-- After an accepted vote on a proposal that had succeeded, the outcome is a matter of the
majority alone. -/
theorem vote_succeeded_iff {p p' : Proposal GovernanceProposal} {now power : ℕ}
    {state : ProposalState} (hsucc : p.getProposalState now = .ok .succeeded)
    (hvote : p.vote now power shouldPass = .ok p') (hstate : p'.getProposalState now = .ok state) :
    p'.getProposalState now = .ok .succeeded ↔ p'.noVotes < p'.yesVotes := by
  obtain ⟨hclosed,hpassed⟩ := Proposal.getProposalState_eq_succeeded.mp hsucc
  obtain ⟨-,-,hmin⟩ := Proposal.passed_eq_ok.mp hpassed
  have hsum := Proposal.getProposalState_isOk.mp ⟨state,hstate⟩
  obtain ⟨hnow,-,-,-,metadata,-,hp'⟩ := Proposal.vote_ok hvote
  have hyes : p.yesVotes ≤ p'.yesVotes := by rw [hp']; exact Nat.le_add_right ..
  have hno : p.noVotes ≤ p'.noVotes := by rw [hp']; exact Nat.le_add_right ..
  have hthreshold : p'.minVoteThreshold = p.minVoteThreshold := by rw [hp']
  have hstill : p'.isVotingClosed now = true := by
    rw [isVotingClosed_of_open hnow] at hclosed
    rw [isVotingClosed_of_open (by rwa [hp'])]
    exact Proposal.canBeResolvedEarly_mono (by rw [hp']) hyes hno hclosed
  rw [Proposal.getProposalState_eq_succeeded,Proposal.passed_eq_ok]
  constructor
  · rintro ⟨-,hlt,-⟩
    exact hlt
  · intro hlt
    refine ⟨hstill,hlt,hsum hstill hlt,?_⟩
    omega

/-- A vote keeps the approved hashes in order exactly if it leaves an approved proposal with the
majority. -/
theorem vote_orderly (hs : s.ApprovedPending) (h : s.vote voter pool id shouldPass = .ok t)
    {hash : Bytes} (hhash : t.hashes.lookup id = some hash)
    (ho : s.Orderly (.vote voter pool id shouldPass)) :
    ∃ p, t.forum.proposals id = some p ∧ p.getProposalState t.nowSeconds = .ok .succeeded ∧
      p.isResolved = false ∧ hash = p.executionHash := by
  obtain ⟨p,p',power,l,hashes,hp,-,hpower,-,-,-,hvote,rfl,hh⟩ := vote_ok h
  obtain ⟨-,hres,-,-,metadata,-,hp'⟩ := Proposal.vote_ok hvote
  have hres' : p'.isResolved = false := by rw [hp',hres]
  obtain ⟨hstate,hput⟩ | ⟨⟨state,hstate,hne⟩,rfl⟩ := hh
  · have hput : hashes.lookup id = some p'.executionHash := by rw [hput,Function.update_self]
    exact ⟨p',VotingForum.put_self,hstate,hres',some.inj (hhash.symm.trans hput)⟩
  · -- The entry is an older one, so the proposal had succeeded and has to do so again.
    obtain ⟨q,hq,hsucc,-,-⟩ := hs id hash hhash
    cases hp.symm.trans hq
    have hiff := vote_succeeded_iff hsucc hvote hstate
    have hlt : p'.noVotes < p'.yesVotes := by
      obtain ⟨-,hpassed⟩ := Proposal.getProposalState_eq_succeeded.mp hsucc
      obtain ⟨hold,-,-⟩ := Proposal.passed_eq_ok.mp hpassed
      rw [hp']
      cases shouldPass with
      | true =>
        show p.noVotes + 0 < p.yesVotes + power
        omega
      | false => exact ho p power hp hpower (by rw [hhash]; rfl) rfl
    exact absurd (Except.ok.inj (hstate.symm.trans (hiff.mpr hlt))) hne

theorem orderly_of_vote (ht : t.ApprovedPending) (h : s.vote voter pool id shouldPass = .ok t) :
    s.Orderly (.vote voter pool id shouldPass) := by
  intro p power hp hpower hsome hno
  subst hno
  obtain ⟨q,p',power',l,hashes,hq,-,hpower',-,-,-,hvote,rfl,hh⟩ := vote_ok h
  cases hp.symm.trans hq
  cases hpower.symm.trans hpower'
  -- In both cases an entry is left, so the proposal still has the majority.
  have hsucc : p'.getProposalState s.nowSeconds = .ok .succeeded := by
    obtain ⟨hstate,-⟩ | ⟨-,rfl⟩ := hh
    · exact hstate
    · obtain ⟨hash,hhash⟩ := isSome_iff_exists.mp hsome
      obtain ⟨r,hr,hstate,-,-⟩ := ht id hash hhash
      cases VotingForum.put_self.symm.trans hr
      exact hstate
  obtain ⟨-,hpassed⟩ := Proposal.getProposalState_eq_succeeded.mp hsucc
  obtain ⟨hlt,-,-⟩ := Proposal.passed_eq_ok.mp hpassed
  obtain ⟨-,-,-,-,metadata,-,rfl⟩ := Proposal.vote_ok hvote
  exact hlt

theorem orderly_of_addApprovedScriptHash (ht : t.ApprovedPending)
    (h : s.addApprovedScriptHash id = .ok t) :
    ∀ p, s.forum.proposals id = some p → p.isResolved = false := by
  intro p hp
  obtain ⟨q,hashes,hq,-,hput,rfl⟩ := addApprovedScriptHash_ok h
  have hentry : hashes.lookup id = some q.executionHash := by rw [hput,Function.update_self]
  obtain ⟨r,hr,-,hres,-⟩ := ht id _ hentry
  cases hp.symm.trans hr
  exact hres

theorem step_approvedPending_iff (hs : s.ApprovedPending) (h : s.step native o = .ok t) :
    t.ApprovedPending ↔ s.Orderly o := by
  constructor
  · intro ht
    cases o with
    | vote voter pool id shouldPass => exact orderly_of_vote ht h
    | addApprovedScriptHashScript id | addApprovedScriptHash id =>
      exact orderly_of_addApprovedScriptHash ht h
    | _ => trivial
  · intro ho id hash hhash
    have hnow := step_nowSeconds_le h
    have hdocket := (step_ok h).1 id
    rw [hhash] at hdocket
    generalize hx : s.forum.proposals id = x at hdocket
    generalize hy : t.forum.proposals id = y at hdocket
    generalize hg : s.hashes.lookup id = g at hdocket
    cases hdocket with
    | other =>
      obtain ⟨p,hp,hstate,hres,heq⟩ := hs id hash hg
      exact ⟨p,hx.symm.trans hp,Proposal.succeeded_mono hnow hstate,hres,heq⟩
    | created p _ _ =>
      obtain ⟨q,hq,-⟩ := hs id hash hg
      rw [hx] at hq
      cases hq
    | voted hop _ _ =>
      subst hop
      obtain ⟨p,hp,hrest⟩ := vote_orderly hs h hhash ho
      exact ⟨p,hy.symm.trans hp,hrest⟩
    | approved hop hstate =>
      have hres : ∀ p, s.forum.proposals id = some p → p.isResolved = false := by
        obtain rfl | rfl := hop <;> exact ho
      exact ⟨_,rfl,Proposal.succeeded_mono hnow hstate,hres _ hx,rfl⟩
    | executed hres hh =>
      obtain ⟨hr,metadata,-,hcase⟩ := Proposal.resolveProposalV2_ok hres
      obtain ⟨-,hnone⟩ | ⟨hnext,hstate,hsome⟩ := hh
      · cases hnone
      · obtain ⟨hnil,-⟩ | ⟨-,-,-,heq⟩ := hcase
        · exact absurd hnil hnext
        · refine ⟨_,rfl,Proposal.succeeded_mono hnow hstate,?_,some.inj hsome⟩
          rw [heq]
          exact hr.unresolved

section Runs

variable {config : ValidationConfig} {stores : Address → Option CoinStore} {supply : ℕ}
  {governance : GovernanceConfig} {os : List GovernanceOp}

/-- Along a run, every approved hash is the current one of an unresolved proposal that has
succeeded, exactly if all calls of the run are orderly. -/
theorem approvedPending_iff
    (h : Reaches (step native) (genesis (.genesis config stores supply) governance) os s) :
    (∀ front back t, os = front ++ back →
      Reaches (step native) (genesis (.genesis config stores supply) governance) front t →
        t.ApprovedPending) ↔
    Run (step native) Orderly (genesis (.genesis config stores supply) governance) os s :=
  h.forall_iff nofun fun _ _ _ hs hstep => step_approvedPending_iff hs hstep

end Runs

def resolveOnce : List GovernanceOp := propose ++ [
  .storeSignerCap 1 1,
  .vote 1 1 0 true,
  .validator (.updateGlobalTime false 1000000),
  .resolve [1] 0 1]

theorem approvedPending_iff_resolved :
    ∃ s, Reaches (step .trusting) start resolveOnce s ∧
      ∀ front back t, resolveOnce = front ++ back → Reaches (step .trusting) start front t →
        t.ApprovedPending := by
  obtain ⟨s,hs⟩ : ∃ s, exec (step .trusting) start resolveOnce = .ok s := ⟨_,rfl⟩
  have h := reaches_iff_exec.mpr hs
  have horderly : ∀ o ∈ resolveOnce, ∀ s, Orderly s o := by
    simp [resolveOnce,propose,Orderly]
  exact ⟨s,h,(approvedPending_iff h).mpr (.of_reaches h horderly)⟩

/-- The hash of the resolved proposal is approved again. -/
theorem resolved_hash_approved :
    ∃ s p, Reachable (step .trusting) start s ∧ s.forum.proposals 0 = some p ∧
      p.isResolved = true ∧ s.hashes.lookup 0 = some p.executionHash := by
  have hs : exec (step .trusting) start (resolveOnce ++ [.addApprovedScriptHashScript 0]) =
      .ok _ := rfl
  exact ⟨_,_,.of_exec hs,rfl,rfl,rfl⟩

end GovernanceState

end Arx
