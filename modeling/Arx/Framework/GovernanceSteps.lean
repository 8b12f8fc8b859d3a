import Arx.Framework.Governance
import Arx.Framework.ValidatorIndices

/-!
# What a call of governance does to one proposal

The docket of an id is its proposal and its approved hash. `DocketStep` lists what a call can do to
it.
-/

namespace Arx
open Movelib Governance Function Option VotingForum

namespace GovernanceState

variable {s t : GovernanceState} {id i : ℕ} {pool voter : Address}
    {hashes hashes' : SimpleMap ℕ Bytes} {signerAddress signer : Address}

theorem getVotingPower_le {power : ℕ} (h : s.getVotingPower pool = .ok power) :
    ∃ l, s.validators.stakeLocks pool = some l ∧
      power ≤ l.active + l.pendingActive + l.pendingInactive := by
  rw [getVotingPower] at h
  split at h
  · simp only [bind_eq_ok,ValidatorStorage.borrowLock_eq_ok,addChecked_eq_ok] at h
    obtain ⟨l,hl,_,⟨-,rfl⟩,-,rfl⟩ := h
    exact ⟨l,hl,le_rfl⟩
  · simp only [ValidatorStorage.getCurrentEpochVotingPower,bind_eq_ok,
      ValidatorStorage.borrowLock_eq_ok] at h
    obtain ⟨l,hl,h⟩ := h
    refine ⟨l,hl,?_⟩
    split at h
    · rw [addChecked_eq_ok] at h
      omega
    · rw [pure_eq_ok] at h
      omega

@[simp] theorem getLockupSecs_eq_ok {v : ValidatorStorage} {secs : ℕ} :
    v.getLockupSecs pool = .ok secs ↔
      ∃ l, v.stakeLocks pool = some l ∧ l.lockedUntilSecs = secs := by
  simp [ValidatorStorage.getLockupSecs]

theorem putHash_ok {hash : Bytes} (h : putHash hashes id hash = .ok hashes') :
    hashes'.lookup = update hashes.lookup id (some hash) := by
  rw [putHash] at h
  split at h
  · exact (SimpleMap.set_ok h).2
  · exact (SimpleMap.add_ok h).2

theorem putHash_isOk (hashes : SimpleMap ℕ Bytes) (id : ℕ) (hash : Bytes) :
    ∃ hashes', putHash hashes id hash = .ok hashes' := by
  rw [putHash,SimpleMap.containsKey_eq]
  split
  · next h => exact SimpleMap.set_isOk h
  · next h => exact SimpleMap.add_isOk (by simpa using h)

theorem dropHash_ok (h : dropHash hashes id = .ok hashes') :
    hashes'.lookup = update hashes.lookup id none := by
  rw [dropHash] at h
  split at h
  · obtain ⟨⟨_,e⟩,hr,⟨⟩⟩ := bind_eq_ok.mp h
    exact (SimpleMap.remove_ok hr).2
  · next hno =>
    rw [pure_eq_ok] at h
    subst h
    rw [SimpleMap.containsKey_eq,Bool.not_eq_true,isSome_eq_false_iff,
      isNone_iff_eq_none] at hno
    rw [← hno,update_eq_self]

theorem addApprovedScriptHash_ok (h : s.addApprovedScriptHash id = .ok t) :
    ∃ p hashes, s.forum.proposals id = some p ∧
      p.getProposalState s.nowSeconds = .ok .succeeded ∧
      hashes.lookup = update s.hashes.lookup id (some p.executionHash) ∧
      t = { s with hashes } := by
  simp only [addApprovedScriptHash,getProposalState,getExecutionHash,
    borrow,bind_eq_ok,borrowGlobal_eq_ok,ensure_eq_ok,pure_eq_ok] at h
  obtain ⟨_,⟨p,hp,hstate⟩,_,rfl,_,⟨q,hq,rfl⟩,hashes,hput,rfl⟩ := h
  cases hp.symm.trans hq
  exact ⟨p,hashes,hp,hstate,putHash_ok hput,rfl⟩

theorem removeApprovedHash_ok (h : s.removeApprovedHash id = .ok t) :
    ∃ p hashes, s.forum.proposals id = some p ∧ p.isResolved = true ∧
      hashes.lookup = update s.hashes.lookup id none ∧ t = { s with hashes } := by
  simp only [removeApprovedHash,isResolved,borrow,bind_eq_ok,
    borrowGlobal_eq_ok,ensure_eq_ok,pure_eq_ok] at h
  obtain ⟨_,⟨p,hp,rfl⟩,_,hres,hashes,hdrop,rfl⟩ := h
  exact ⟨p,hashes,hp,hres,dropHash_ok hdrop,rfl⟩

theorem vote_ok {shouldPass : Bool} (h : s.vote voter pool id shouldPass = .ok t) :
    ∃ p p' power l hashes, s.forum.proposals id = some p ∧ s.votes ⟨pool,id⟩ = none ∧
      s.getVotingPower pool = .ok power ∧ 0 < power ∧ s.validators.stakeLocks pool = some l ∧
      p.expirationSecs ≤ l.lockedUntilSecs ∧ p.vote s.nowSeconds power shouldPass = .ok p' ∧
      t = { s with
        forum := s.forum.put id p'
        votes := update s.votes ⟨pool,id⟩ (some true)
        hashes } ∧
      (p'.getProposalState s.nowSeconds = .ok .succeeded ∧
          hashes.lookup = update s.hashes.lookup id (some p'.executionHash) ∨
        (∃ state, p'.getProposalState s.nowSeconds = .ok state ∧ state ≠ .succeeded) ∧
          hashes = s.hashes) := by
  simp only [vote,recordVote,VotingForum.getProposalExpirationSecs,VotingForum.vote,
    VotingForum.borrow,bind_eq_ok,ensure_eq_ok,borrowGlobal_eq_ok,getLockupSecs_eq_ok,
    pure_eq_ok] at h
  obtain ⟨_,⟨_,hnone,rfl⟩,power,hpower,_,hpos,_,⟨p,hp,rfl⟩,_,⟨l,hl,rfl⟩,_,hlock,_,
    ⟨q,hq,p',hvote,rfl⟩,h⟩ := h
  cases hp.symm.trans hq
  simp only [approveIfSucceeded,VotingForum.getProposalState,VotingForum.borrow,
    VotingForum.put_self,bind_eq_ok,borrowGlobal_eq_ok,some.injEq] at h
  obtain ⟨state,⟨_,rfl,hstate⟩,h⟩ := h
  refine ⟨p,p',power,l,t.hashes,hp,isNone_iff_eq_none.mp hnone,hpower,hpos,hl,hlock,hvote,
    ?_⟩
  split at h
  · next hs =>
    subst hs
    obtain ⟨r,hashes,hr,-,hput,rfl⟩ := addApprovedScriptHash_ok h
    rw [VotingForum.put_self] at hr
    cases hr
    exact ⟨rfl,.inl ⟨hstate,hput⟩⟩
  · next hs =>
    rw [pure_eq_ok] at h
    subst h
    exact ⟨rfl,.inr ⟨⟨state,hstate,hs⟩,rfl⟩⟩

theorem resolve_ok {scriptHash : Bytes}
    (h : s.resolve scriptHash id signerAddress = .ok (t, signer)) :
    ∃ p p' content hashes, s.forum.proposals id = some p ∧
      p.resolve s.nowSeconds scriptHash = .ok (p', content) ∧
      hashes.lookup = update s.hashes.lookup id none ∧
      t = { s with forum := s.forum.put id p', hashes } := by
  simp only [resolve,VotingForum.resolve,VotingForum.borrow,bind_eq_ok,borrowGlobal_eq_ok,
    pure_eq_ok,Prod.mk.injEq] at h
  obtain ⟨_,⟨p,hp,⟨p',content⟩,hres,rfl⟩,u,hu,_,-,rfl,-⟩ := h
  obtain ⟨_,hashes,-,-,hdrop,rfl⟩ := removeApprovedHash_ok hu
  exact ⟨p,p',content,hashes,hp,hres,hdrop,rfl⟩

theorem resolveMultiStepProposal_ok {scriptHash next : Bytes}
    (h : s.resolveMultiStepProposal scriptHash id signerAddress next = .ok (t, signer)) :
    ∃ p p' hashes, s.forum.proposals id = some p ∧
      p.resolveProposalV2 s.nowSeconds scriptHash next = .ok p' ∧
      t = { s with forum := s.forum.put id p', hashes } ∧
      (next = [] ∧ hashes.lookup = update s.hashes.lookup id none ∨
        next ≠ [] ∧ p'.getProposalState s.nowSeconds = .ok .succeeded ∧
          hashes.lookup = update s.hashes.lookup id (some p'.executionHash)) := by
  simp only [resolveMultiStepProposal,resolveProposalV2,borrow,
    bind_eq_ok,borrowGlobal_eq_ok,pure_eq_ok,Prod.mk.injEq] at h
  obtain ⟨_,⟨p,hp,p',hres,rfl⟩,u,hu,_,-,rfl,-⟩ := h
  rw [updateHash] at hu
  split at hu
  · next hempty =>
    obtain ⟨_,hashes,-,-,hdrop,rfl⟩ := removeApprovedHash_ok hu
    exact ⟨p,p',hashes,hp,hres,rfl,.inl ⟨List.length_eq_zero_iff.mp hempty,hdrop⟩⟩
  · next hempty =>
    obtain ⟨r,hashes,hr,hstate,hput,rfl⟩ := addApprovedScriptHash_ok hu
    rw [put_self] at hr
    cases hr
    exact ⟨p,p',hashes,hp,hres,rfl,
      .inr ⟨fun hnil => hempty (List.length_eq_zero_iff.mpr hnil),hstate,hput⟩⟩

structure Fresh (p : Proposal GovernanceProposal) (now : ℕ) : Prop where
  yesVotes : p.yesVotes = 0
  noVotes : p.noVotes = 0
  created : p.creationTimeSecs = now
  expires : now ≤ p.expirationSecs

theorem createProposalV2_ok {utf8 : Bytes → Bool} {proposer : Address}
    {hash location metadataHash : Bytes} {multi : Bool}
    (h : s.createProposalV2 utf8 proposer pool hash location metadataHash multi = .ok t) :
    ∃ p next, s.forum.proposals s.forum.nextProposalId = none ∧ Fresh p s.nowSeconds ∧
      t = { s with
        forum := { s.forum with nextProposalId := next }.put s.forum.nextProposalId p } := by
  simp only [createProposalV2,VotingForum.createProposalV2,bind_eq_ok,ensure_eq_ok,
    addChecked_eq_ok,pure_eq_ok] at h
  obtain ⟨_,-,_,-,expiration,⟨-,rfl⟩,_,-,_,-,_,-,early,-,_,
    ⟨_,-,_,-,next,-,metadata,-,_,hnone,rfl⟩,rfl⟩ := h
  exact ⟨_,next,isNone_iff_eq_none.mp hnone,⟨rfl,rfl,rfl,Nat.le_add_right ..⟩,rfl⟩

end GovernanceState

inductive DocketStep (now : ℕ) (o : GovernanceOp) (id : ℕ) :
    Option (Proposal GovernanceProposal) → Option Bytes →
      Option (Proposal GovernanceProposal) → Option Bytes → Prop
  | other (x : Option (Proposal GovernanceProposal)) (h : Option Bytes) :
      DocketStep now o id x h x h
  | created (p : Proposal GovernanceProposal) (h : Option Bytes)
      (hp : GovernanceState.Fresh p now) : DocketStep now o id none h (some p) h
  | voted {p p' : Proposal GovernanceProposal} {h h' : Option Bytes} {voter pool : Address}
      {power : ℕ} {shouldPass : Bool} (ho : o = .vote voter pool id shouldPass)
      (hvote : p.vote now power shouldPass = .ok p')
      (hh : p'.getProposalState now = .ok .succeeded ∧ h' = some p'.executionHash ∨
        p'.getProposalState now ≠ .ok .succeeded ∧ h' = h) :
      DocketStep now o id (some p) h (some p') h'
  | approved {p : Proposal GovernanceProposal} {h : Option Bytes}
      (ho : o = .addApprovedScriptHash id ∨ o = .addApprovedScriptHashScript id)
      (hstate : p.getProposalState now = .ok .succeeded) :
      DocketStep now o id (some p) h (some p) (some p.executionHash)
  | dropped (p : Proposal GovernanceProposal) (h : Option Bytes) :
      DocketStep now o id (some p) h (some p) none
  | resolved {p p' : Proposal GovernanceProposal} {h : Option Bytes} {scriptHash : Bytes}
      {content : GovernanceProposal} (hres : p.resolve now scriptHash = .ok (p', content)) :
      DocketStep now o id (some p) h (some p') none
  | executed {p p' : Proposal GovernanceProposal} {h h' : Option Bytes} {scriptHash next : Bytes}
      (hres : p.resolveProposalV2 now scriptHash next = .ok p')
      (hh : next = [] ∧ h' = none ∨ next ≠ [] ∧ p'.getProposalState now = .ok .succeeded ∧
        h' = some p'.executionHash) :
      DocketStep now o id (some p) h (some p') h'

namespace GovernanceState

variable {s t : GovernanceState} {native : Natives} {o : GovernanceOp} {id : ℕ}

/-- A call that writes at one proposal only takes a step of that one. -/
theorem docketSteps {i : ℕ} {x : Option (Proposal GovernanceProposal)} {h : Option Bytes}
    {proposals : ℕ → Option (Proposal GovernanceProposal)} {hashes : ℕ → Option Bytes}
    (hx : proposals = update s.forum.proposals i x) (hh : hashes = update s.hashes.lookup i h)
    (hstep : DocketStep s.nowSeconds o i (s.forum.proposals i) (s.hashes.lookup i) x h) (id : ℕ) :
    DocketStep s.nowSeconds o id (s.forum.proposals id) (s.hashes.lookup id) (proposals id)
      (hashes id) := by
  rw [hx,hh]
  by_cases hid : id = i
  · subst hid
    rw [update_self,update_self]
    exact hstep
  · rw [update_of_ne hid,update_of_ne hid]
    exact .other _ _

theorem step_ok (h : s.step native o = .ok t) :
    (∀ id, DocketStep s.nowSeconds o id (s.forum.proposals id) (s.hashes.lookup id)
      (t.forum.proposals id) (t.hashes.lookup id)) ∧
    (t.validators = s.validators ∨
      ∃ vo, o = .validator vo ∧ s.validators.step native.pop vo = .ok t.validators ∧
        t.forum = s.forum) ∧
    ∀ key, s.votes key ≠ none → t.votes key ≠ none := by
  cases o with
  | storeSignerCap signerAddress signerCap =>
    obtain ⟨_,-,⟨⟩⟩ := bind_eq_ok.mp h
    exact ⟨fun _ => .other _ _,.inl rfl,fun _ => id⟩
  | updateGovernanceConfig config =>
    cases h
    exact ⟨fun _ => .other _ _,.inl rfl,fun _ => id⟩
  | createProposal | createProposalV2 =>
    obtain ⟨p,next,hnone,hp,rfl⟩ := createProposalV2_ok h
    refine ⟨docketSteps rfl (update_eq_self ..).symm ?_,.inl rfl,fun _ => id⟩
    rw [hnone]
    exact .created p _ hp
  | vote voter pool i shouldPass =>
    have h : s.vote voter pool i shouldPass = .ok t := h
    obtain ⟨p,p',power,l,hashes,hp,-,-,-,-,-,hvote,rfl,hh⟩ := vote_ok h
    refine ⟨?_,.inl rfl,fun key hkey => ?_⟩
    · obtain ⟨hstate,hput⟩ | ⟨⟨state,hstate,hne⟩,rfl⟩ := hh
      · refine docketSteps rfl hput ?_
        rw [hp]
        exact .voted rfl hvote (.inl ⟨hstate,rfl⟩)
      · refine docketSteps rfl (update_eq_self ..).symm ?_
        rw [hp]
        refine .voted rfl hvote (.inr ⟨fun hsucc => hne ?_,rfl⟩)
        exact Except.ok.inj (hstate.symm.trans hsucc)
    · show update s.votes ⟨pool,i⟩ (some true) key ≠ none
      by_cases hk : key = ⟨pool,i⟩
      · rw [hk,update_self]
        exact nofun
      · rwa [update_of_ne hk]
  | addApprovedScriptHashScript i | addApprovedScriptHash i =>
    obtain ⟨p,hashes,hp,hstate,hput,rfl⟩ := addApprovedScriptHash_ok h
    refine ⟨docketSteps (update_eq_self ..).symm hput ?_,.inl rfl,fun _ => id⟩
    rw [hp]
    exact .approved (by simp) hstate
  | resolve scriptHash i signerAddress =>
    obtain ⟨⟨_,signer⟩,h,⟨⟩⟩ := bind_eq_ok.mp h
    obtain ⟨p,p',content,hashes,hp,hres,hdrop,rfl⟩ := resolve_ok h
    refine ⟨docketSteps rfl hdrop ?_,.inl rfl,fun _ => id⟩
    rw [hp]
    exact .resolved hres
  | resolveMultiStepProposal scriptHash i signerAddress next =>
    obtain ⟨⟨_,signer⟩,h,⟨⟩⟩ := bind_eq_ok.mp h
    obtain ⟨p,p',hashes,hp,hres,rfl,hh⟩ := resolveMultiStepProposal_ok h
    refine ⟨?_,.inl rfl,fun _ => id⟩
    obtain ⟨hnext,hdrop⟩ | ⟨hnext,hstate,hput⟩ := hh
    · refine docketSteps rfl hdrop ?_
      rw [hp]
      exact .executed hres (.inl ⟨hnext,rfl⟩)
    · refine docketSteps rfl hput ?_
      rw [hp]
      exact .executed hres (.inr ⟨hnext,hstate,rfl⟩)
  | removeApprovedHash i =>
    obtain ⟨p,hashes,hp,-,hdrop,rfl⟩ := removeApprovedHash_ok h
    refine ⟨docketSteps (update_eq_self ..).symm hdrop ?_,.inl rfl,fun _ => id⟩
    rw [hp]
    exact .dropped p _
  | validator vo =>
    obtain ⟨v,hv,⟨⟩⟩ := bind_eq_ok.mp h
    exact ⟨fun _ => .other _ _,.inr ⟨vo,rfl,hv,rfl⟩,fun _ => id⟩

theorem step_nowSeconds_le (h : s.step native o = .ok t) : s.nowSeconds ≤ t.nowSeconds := by
  obtain heq | ⟨_,-,hv,-⟩ := (step_ok h).2.1
  · rw [nowSeconds,nowSeconds,heq]
  · exact ValidatorStorage.step_nowSeconds hv

end GovernanceState

end Arx
