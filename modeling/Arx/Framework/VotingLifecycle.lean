import Arx.Framework.Voting
import Arx.Movelib.Run

/-!
# The life of a proposal

A proposal is resolved once, by the script it names, after its last vote; and once a step of it has
executed nobody votes on it.
-/

namespace Arx
open Movelib Voting Option

variable {P : Type}

structure VotingState (P : Type) where
  forum : VotingForum P
  microseconds : ℕ

inductive VotingOp (P : Type)
  | createProposal (proposer : Address) (executionContent : P) (executionHash : Bytes)
      (minVoteThreshold expirationSecs : ℕ) (early : Option ℕ) (metadata : SimpleMap String Bytes)
  | createProposalV2 (proposer : Address) (executionContent : P) (executionHash : Bytes)
      (minVoteThreshold expirationSecs : ℕ) (early : Option ℕ) (metadata : SimpleMap String Bytes)
      (isMultiStepProposal : Bool)
  | vote (id numVotes : ℕ) (shouldPass : Bool)
  | resolve (scriptHash : Bytes) (id : ℕ)
  | resolveProposalV2 (scriptHash : Bytes) (id : ℕ) (nextExecutionHash : Bytes)
  | updateGlobalTime (nilBlock : Bool) (timestamp : UInt64)

namespace VotingState

def start (microseconds : UInt64) : VotingState P := ⟨.register,microseconds.toNat⟩

def nowSeconds (s : VotingState P) : ℕ := s.microseconds / Timestamp.MICRO_CONVERSION_FACTOR

def step (s : VotingState P) : VotingOp P → Result (VotingState P)
  | .createProposal proposer content hash threshold expiration early metadata => do
    let (forum, _) ← s.forum.createProposal s.nowSeconds proposer content hash threshold
      expiration early metadata
    pure { s with forum }
  | .createProposalV2 proposer content hash threshold expiration early metadata multi => do
    let (forum, _) ← s.forum.createProposalV2 s.nowSeconds proposer content hash threshold
      expiration early metadata multi
    pure { s with forum }
  | .vote id numVotes shouldPass => do
    let forum ← s.forum.vote s.nowSeconds id numVotes shouldPass
    pure { s with forum }
  | .resolve scriptHash id => do
    let (forum, _) ← s.forum.resolve s.nowSeconds id scriptHash
    pure { s with forum }
  | .resolveProposalV2 scriptHash id nextExecutionHash => do
    let forum ← s.forum.resolveProposalV2 s.nowSeconds id scriptHash nextExecutionHash
    pure { s with forum }
  | .updateGlobalTime nilBlock timestamp => do
    let microseconds ← Timestamp.updateGlobalTime s.microseconds nilBlock timestamp.toNat
    pure { s with microseconds }

end VotingState

namespace VotingOp

def votesOn : VotingOp P → Option ℕ
  | .vote id _ _ => some id
  | _ => none

def executes : VotingOp P → Option (ℕ × Bytes)
  | .resolve scriptHash id => some (id, scriptHash)
  | .resolveProposalV2 scriptHash id _ => some (id, scriptHash)
  | _ => none

/-- The proposal that a call resolves: it executes the only or the last step. -/
def resolves : VotingOp P → Option ℕ
  | .resolve _ id => some id
  | .resolveProposalV2 _ id nextExecutionHash => if nextExecutionHash = [] then some id else none
  | _ => none

def handsOut : VotingOp P → Option ℕ
  | .resolve _ id => some id
  | _ => none

theorem resolves_of_handsOut {o : VotingOp P} {id : ℕ} (h : o.handsOut = some id) :
    o.resolves = some id := by
  cases o <;> first | exact h | cases h

theorem executes_of_resolves {o : VotingOp P} {id : ℕ} (h : o.resolves = some id) :
    ∃ scriptHash, o.executes = some (id, scriptHash) := by
  cases o with
  | resolve scriptHash i =>
    cases h
    exact ⟨scriptHash,rfl⟩
  | resolveProposalV2 scriptHash i next =>
    rw [resolves] at h
    split at h
    · cases h
      exact ⟨scriptHash,rfl⟩
    · cases h
  | _ => cases h

end VotingOp

/-- The two flags as `create_proposal_v2` sets them up: a proposal of several steps has both. -/
def Proposal.Flagged (p : Proposal P) : Prop :=
  ∃ multi, p.metadata.lookup IS_MULTI_STEP_PROPOSAL_KEY = some (Bcs.ofBool multi) ∧
    (multi = true → (p.metadata.lookup IS_MULTI_STEP_PROPOSAL_IN_EXECUTION_KEY).isSome = true)

/-- What a call does to the entry of one proposal. -/
inductive EntryStep (now : ℕ) (o : VotingOp P) (id : ℕ) :
    Option (Proposal P) → Option (Proposal P) → Prop
  | other (x : Option (Proposal P)) (hv : o.votesOn ≠ some id)
      (he : ∀ scriptHash, o.executes ≠ some (id, scriptHash)) : EntryStep now o id x x
  | created (p : Proposal P) (hv : o.votesOn = none) (he : o.executes = none)
      (hyes : p.yesVotes = 0) (hf : p.Flagged) : EntryStep now o id none (some p)
  | voted {p p' : Proposal P} {numVotes : ℕ} {shouldPass : Bool}
      (ho : o = .vote id numVotes shouldPass) (h : p.vote now numVotes shouldPass = .ok p') :
      EntryStep now o id (some p) (some p')
  | resolved {p p' : Proposal P} {scriptHash : Bytes} {content : P}
      (ho : o = .resolve scriptHash id) (h : p.resolve now scriptHash = .ok (p', content)) :
      EntryStep now o id (some p) (some p')
  | executed {p p' : Proposal P} {scriptHash nextExecutionHash : Bytes}
      (ho : o = .resolveProposalV2 scriptHash id nextExecutionHash)
      (h : p.resolveProposalV2 now scriptHash nextExecutionHash = .ok p') :
      EntryStep now o id (some p) (some p')

namespace VotingState

variable {s t : VotingState P} {o : VotingOp P} {id : ℕ}

theorem createProposalV2_entry {f g : VotingForum P} {now threshold expiration newId : ℕ}
    {proposer : Address} {content : P} {hash : Bytes} {early : Option ℕ}
    {metadata : SimpleMap String Bytes} {multi : Bool} (hv : o.votesOn = none)
    (he : o.executes = none)
    (h : f.createProposalV2 now proposer content hash threshold expiration early metadata multi =
      .ok (g, newId)) :
    EntryStep now o id (f.proposals id) (g.proposals id) := by
  simp only [VotingForum.createProposalV2,bind_eq_ok,ensure_eq_ok,pure_eq_ok,
    Prod.mk.injEq] at h
  obtain ⟨_,-,_,-,next,-,metadata',hm,_,hnone,rfl,rfl⟩ := h
  obtain ⟨hmulti,hexec⟩ := flagMetadata_ok hm
  by_cases hid : id = f.nextProposalId
  · subst hid
    rw [isNone_iff_eq_none.mp hnone,VotingForum.put_self]
    refine .created _ hv he rfl ⟨multi,hmulti,?_⟩
    intro hb
    rw [hexec,if_pos hb]
    rfl
  · rw [VotingForum.put_of_ne hid]
    refine .other _ ?_ ?_
    · rw [hv]
      exact (Option.some_ne_none _).symm
    · rw [he]
      exact fun _ => (Option.some_ne_none _).symm

theorem put_entry {f : VotingForum P} {i now : ℕ} {p p' : Proposal P}
    (hp : f.proposals i = some p) (hstep : EntryStep now o i (some p) (some p'))
    (hv : ∀ k, o.votesOn = some k → k = i)
    (he : ∀ k scriptHash, o.executes = some (k, scriptHash) → k = i) :
    EntryStep now o id (f.proposals id) ((f.put i p').proposals id) := by
  by_cases hid : id = i
  · subst hid
    rwa [hp,VotingForum.put_self]
  · rw [VotingForum.put_of_ne hid]
    exact .other _ (fun h => hid (hv id h)) fun k h => hid (he id k h)

theorem step_entry (h : s.step o = .ok t) (id : ℕ) :
    EntryStep s.nowSeconds o id (s.forum.proposals id) (t.forum.proposals id) := by
  cases o with
  | createProposal _ _ _ _ _ _ _ =>
    obtain ⟨_,hc,⟨⟩⟩ := bind_eq_ok.mp h
    exact createProposalV2_entry rfl rfl hc
  | createProposalV2 _ _ _ _ _ _ _ _ =>
    obtain ⟨_,hc,⟨⟩⟩ := bind_eq_ok.mp h
    exact createProposalV2_entry rfl rfl hc
  | vote i numVotes shouldPass =>
    simp only [step,VotingForum.vote,VotingForum.borrow,bind_eq_ok,borrowGlobal_eq_ok,
      pure_eq_ok] at h
    obtain ⟨_,⟨p,hp,p',hvote,rfl⟩,rfl⟩ := h
    exact put_entry hp (.voted rfl hvote) (fun k hk => (some.inj hk).symm) (by rintro _ _ ⟨⟩)
  | resolve scriptHash i =>
    simp only [step,VotingForum.resolve,VotingForum.borrow,bind_eq_ok,borrowGlobal_eq_ok,
      pure_eq_ok] at h
    obtain ⟨_,⟨p,hp,⟨p',content⟩,hres,rfl⟩,rfl⟩ := h
    exact put_entry hp (.resolved rfl hres) (by rintro _ ⟨⟩)
      fun k _ hk => (congrArg Prod.fst (some.inj hk)).symm
  | resolveProposalV2 scriptHash i next =>
    simp only [step,VotingForum.resolveProposalV2,VotingForum.borrow,bind_eq_ok,
      borrowGlobal_eq_ok,pure_eq_ok] at h
    obtain ⟨_,⟨p,hp,p',hres,rfl⟩,rfl⟩ := h
    exact put_entry hp (.executed rfl hres) (by rintro _ ⟨⟩)
      fun k _ hk => (congrArg Prod.fst (some.inj hk)).symm
  | updateGlobalTime _ _ =>
    obtain ⟨_,-,⟨⟩⟩ := bind_eq_ok.mp h
    exact .other _ (Option.some_ne_none _).symm fun _ => (Option.some_ne_none _).symm

theorem step_clock (h : s.step o = .ok t) :
    s.nowSeconds ≤ t.nowSeconds ∧ (s.microseconds < 2 ^ 64 → t.microseconds < 2 ^ 64) := by
  cases o with
  | updateGlobalTime nilBlock timestamp =>
    obtain ⟨us,hus,⟨⟩⟩ := bind_eq_ok.mp h
    refine ⟨Nat.div_le_div_right (Timestamp.updateGlobalTime_le hus),fun hs => ?_⟩
    cases nilBlock with
    | true =>
      obtain ⟨_,-,⟨⟩⟩ := bind_eq_ok.mp hus
      exact hs
    | false =>
      obtain ⟨_,-,⟨⟩⟩ := bind_eq_ok.mp hus
      exact timestamp.toNat_lt
  | _ =>
    obtain ⟨_,-,⟨⟩⟩ := bind_eq_ok.mp h
    exact ⟨le_rfl,id⟩

end VotingState

section History

variable {s₀ s t : VotingState P} {o : VotingOp P} {os : List (VotingOp P)} {id time : ℕ}

/-- Every vote on `id` among `os` was cast at `time` or before. -/
def VotedBy (s₀ : VotingState P) (os : List (VotingOp P)) (id time : ℕ) : Prop :=
  ∀ os₁ o os₂ t, os = os₁ ++ o :: os₂ → o.votesOn = some id →
    Reaches VotingState.step s₀ os₁ t → t.nowSeconds ≤ time

theorem VotedBy.snoc (h : VotedBy s₀ os id time)
    (hlast : o.votesOn = some id → ∀ t, Reaches VotingState.step s₀ os t → t.nowSeconds ≤ time) :
    VotedBy s₀ (os ++ [o]) id time := by
  intro os₁ o' os₂ t hos ho' ht
  obtain ⟨rfl,rfl,-⟩ | ⟨rest,rfl,-⟩ := snoc_eq_append_cons hos
  · exact hlast ho' t ht
  · exact h os₁ o' rest t rfl ho' ht

theorem run_nowSeconds_le (h : Reaches VotingState.step s os t) : s.nowSeconds ≤ t.nowSeconds :=
  h.invariant (I := fun t => s.nowSeconds ≤ t.nowSeconds) le_rfl
    fun _ _ _ hle _ hs => hle.trans (VotingState.step_clock hs).1

theorem votedBy_now (h : Reaches VotingState.step s₀ os s) : VotedBy s₀ os id s.nowSeconds := by
  rintro os₁ o os₂ t rfl - ht
  obtain ⟨w,hw,hrest⟩ := h.append_inv
  rw [ht.unique hw]
  exact run_nowSeconds_le hrest

structure Recorded (s₀ : VotingState P) (os : List (VotingOp P)) (id : ℕ) (p : Proposal P) :
    Prop where
  flagged : p.isResolved = false → p.Flagged
  unvoted : (∀ o ∈ os, o.votesOn ≠ some id) → p.yesVotes = 0
  voted : (∃ o ∈ os, o.votesOn = some id) → ∃ time < 2 ^ 64,
    p.metadata.lookup RESOLVABLE_TIME_METADATA_KEY = some (Bcs.ofU64 time) ∧
      VotedBy s₀ os id time
  executed : (∃ o ∈ os, ∃ scriptHash, o.executes = some (id, scriptHash)) →
    p.isResolved = true ∨ p.notInExecution ≠ .ok true
  resolved : (∃ o ∈ os, o.resolves = some id) → p.isResolved = true

/-- An id without a proposal was never called upon. -/
def History (s₀ : VotingState P) (os : List (VotingOp P)) (id : ℕ) :
    Option (Proposal P) → Prop
  | some p => Recorded s₀ os id p
  | none => ∀ o ∈ os, o.votesOn ≠ some id ∧ ∀ scriptHash, o.executes ≠ some (id, scriptHash)

theorem forall_mem_snoc {p : VotingOp P → Prop} :
    (∀ x ∈ os ++ [o], p x) ↔ (∀ x ∈ os, p x) ∧ p o := by
  simp [or_imp,forall_and]

theorem exists_mem_snoc {p : VotingOp P → Prop} :
    (∃ x ∈ os ++ [o], p x) ↔ (∃ x ∈ os, p x) ∨ p o := by
  simp [or_and_right,exists_or]

theorem not_resolves_of_not_executes (h : ∀ scriptHash, o.executes ≠ some (id, scriptHash)) :
    o.resolves ≠ some id := by
  intro ho
  obtain ⟨scriptHash,he⟩ := VotingOp.executes_of_resolves ho
  exact h scriptHash he

theorem Recorded.other {p : Proposal P} (h : Recorded s₀ os id p) (hv : o.votesOn ≠ some id)
    (he : ∀ scriptHash, o.executes ≠ some (id, scriptHash)) : Recorded s₀ (os ++ [o]) id p where
  flagged := h.flagged
  unvoted := fun hno => h.unvoted (forall_mem_snoc.mp hno).1
  voted := by
    intro hvote
    obtain ⟨time,hlt,hl,hb⟩ := h.voted ((exists_mem_snoc.mp hvote).resolve_right hv)
    exact ⟨time,hlt,hl,hb.snoc fun ho => absurd ho hv⟩
  executed := by
    intro hex
    exact h.executed ((exists_mem_snoc.mp hex).resolve_right fun ⟨k,hk⟩ => he k hk)
  resolved := by
    intro hres
    exact h.resolved ((exists_mem_snoc.mp hres).resolve_right (not_resolves_of_not_executes he))

section

variable {p p' : Proposal P} (h : Recorded s₀ os id p)

include h

theorem Recorded.vote {numVotes : ℕ} {shouldPass : Bool} (hrun : Reaches VotingState.step s₀ os s)
    (hclock : s.nowSeconds < 2 ^ 64) (hvote : p.vote s.nowSeconds numVotes shouldPass = .ok p') :
    Recorded s₀ (os ++ [.vote id numVotes shouldPass]) id p' := by
  obtain ⟨-,hres,hexec,-,metadata,hm,rfl⟩ := Proposal.vote_ok hvote
  have hother : ∀ key, key ≠ RESOLVABLE_TIME_METADATA_KEY →
      metadata.lookup key = p.metadata.lookup key := by
    intro key hkey
    rw [hm,Function.update_of_ne hkey]
  refine ⟨?_,?_,?_,?_,?_⟩
  · intro _
    obtain ⟨multi,hmulti,hflag⟩ := h.flagged hres
    exact ⟨multi,by rw [hother _ (by decide),hmulti],by rwa [hother _ (by decide)]⟩
  · intro hno
    exact absurd rfl (forall_mem_snoc.mp hno).2
  · intro _
    refine ⟨s.nowSeconds,hclock,by rw [hm,Function.update_self],?_⟩
    exact (votedBy_now hrun).snoc fun _ t ht => by rw [ht.unique hrun]
  · -- A vote is only accepted while nothing of the proposal has executed.
    intro hex
    obtain ⟨o,ho,hash,heq⟩ := hex
    have hold : ∃ o ∈ os, ∃ scriptHash, o.executes = some (id, scriptHash) :=
      (exists_mem_snoc.mp ⟨o,ho,hash,heq⟩).resolve_right nofun
    rcases h.executed hold with hr | hr
    · rw [hres] at hr
      cases hr
    · exact absurd hexec hr
  · intro hr
    have hold := h.resolved ((exists_mem_snoc.mp hr).resolve_right nofun)
    rw [hres] at hold
    cases hold

theorem Recorded.resolve {scriptHash : Bytes} {content : P} {now : ℕ}
    (hres : p.resolve now scriptHash = .ok (p', content)) :
    Recorded s₀ (os ++ [.resolve scriptHash id]) id p' := by
  obtain ⟨-,-,rfl⟩ := Proposal.resolve_ok hres
  refine ⟨nofun,fun hno => h.unvoted (forall_mem_snoc.mp hno).1,?_,fun _ => .inl rfl,
    fun _ => rfl⟩
  intro hvote
  obtain ⟨time,hlt,hl,hb⟩ := h.voted ((exists_mem_snoc.mp hvote).resolve_right nofun)
  exact ⟨time,hlt,hl,hb.snoc nofun⟩

theorem Recorded.resolveProposalV2 {scriptHash next : Bytes} {now : ℕ}
    (hres : p.resolveProposalV2 now scriptHash next = .ok p') :
    Recorded s₀ (os ++ [.resolveProposalV2 scriptHash id next]) id p' := by
  obtain ⟨hr,metadata,hkeys,hcase⟩ := Proposal.resolveProposalV2_ok hres
  have hvotes : (∃ o ∈ os ++ [.resolveProposalV2 scriptHash id next], o.votesOn = some id) →
      ∃ time < 2 ^ 64,
        metadata.lookup RESOLVABLE_TIME_METADATA_KEY = some (Bcs.ofU64 time) ∧
          VotedBy s₀ (os ++ [.resolveProposalV2 scriptHash id next]) id time := by
    intro hvote
    obtain ⟨time,hlt,hl,hb⟩ := h.voted ((exists_mem_snoc.mp hvote).resolve_right nofun)
    exact ⟨time,hlt,by rw [hkeys _ (by decide),hl],hb.snoc nofun⟩
  obtain ⟨-,rfl⟩ | ⟨hnext,hm,hexec,rfl⟩ := hcase
  · exact ⟨nofun,fun hno => h.unvoted (forall_mem_snoc.mp hno).1,hvotes,fun _ => .inl rfl,
      fun _ => rfl⟩
  · -- The proposal has several steps, so the second flag is there and now says true.
    obtain ⟨multi,hmulti,hflag⟩ := h.flagged hr.unresolved
    obtain ⟨_,hv,htrue⟩ := Proposal.isMultiStep_eq_ok.mp hm
    cases hmulti.symm.trans hv
    obtain rfl : multi = true := Except.ok.inj ((FromBcs.toBool_ofBool multi).symm.trans htrue)
    obtain ⟨v,hflag⟩ := isSome_iff_exists.mp (hflag rfl)
    rw [hflag,map_some] at hexec
    refine ⟨fun _ => ⟨true,?_,fun _ => ?_⟩,fun hno => h.unvoted (forall_mem_snoc.mp hno).1,hvotes,
      fun _ => .inr ?_,?_⟩
    · rw [hkeys _ (by decide),hmulti]
    · rw [hexec]
      rfl
    · intro hnot
      exact absurd (Proposal.notInExecution_eq_ok.mp hnot _ hexec) (by decide)
    · intro hold
      refine h.resolved ((exists_mem_snoc.mp hold).resolve_right ?_)
      rw [VotingOp.resolves,if_neg hnext]
      exact nofun

end

theorem History.step {x y : Option (Proposal P)} (h : History s₀ os id x)
    (hrun : Reaches VotingState.step s₀ os s) (hclock : s.nowSeconds < 2 ^ 64)
    (hstep : EntryStep s.nowSeconds o id x y) : History s₀ (os ++ [o]) id y := by
  cases hstep with
  | other _ hv he =>
    cases x with
    | some p => exact Recorded.other h hv he
    | none => exact forall_mem_snoc.mpr ⟨h,hv,he⟩
  | created p hv he hyes hf =>
    have hno : ∀ x ∈ os ++ [o], x.votesOn ≠ some id ∧
        ∀ scriptHash, x.executes ≠ some (id, scriptHash) :=
      forall_mem_snoc.mpr ⟨h,by rw [hv]; exact nofun,by rw [he]; exact fun _ => nofun⟩
    refine ⟨fun _ => hf,fun _ => hyes,?_,?_,?_⟩
    · rintro ⟨x,hx,hvote⟩
      exact absurd hvote (hno x hx).1
    · rintro ⟨x,hx,scriptHash,hex⟩
      exact absurd hex ((hno x hx).2 scriptHash)
    · rintro ⟨x,hx,hres⟩
      exact absurd hres (not_resolves_of_not_executes (hno x hx).2)
  | voted ho hvote =>
    subst ho
    exact Recorded.vote h hrun hclock hvote
  | resolved ho hres =>
    subst ho
    exact Recorded.resolve h hres
  | executed ho hres =>
    subst ho
    exact Recorded.resolveProposalV2 h hres

theorem run_history {us : UInt64} (h : Reaches VotingState.step (.start us) os s) (id : ℕ) :
    s.microseconds < 2 ^ 64 ∧ History (.start us) os id (s.forum.proposals id) := by
  induction h with
  | nil =>
    refine ⟨us.toNat_lt,?_⟩
    intro o ho
    cases ho
  | snoc hrun _ hs ih =>
    obtain ⟨hus,hist⟩ := ih
    have hclock := (Nat.div_le_self _ Timestamp.MICRO_CONVERSION_FACTOR).trans_lt hus
    exact ⟨(VotingState.step_clock hs).2 hus,hist.step hrun hclock (VotingState.step_entry hs id)⟩

theorem executes_resolvable {scriptHash : Bytes} (hs : s.step o = .ok t)
    (ho : o.executes = some (id, scriptHash)) :
    ∃ p, s.forum.proposals id = some p ∧ p.Resolvable s.nowSeconds scriptHash := by
  have hentry := VotingState.step_entry hs id
  generalize hx : s.forum.proposals id = x at hentry
  generalize t.forum.proposals id = y at hentry
  cases hentry with
  | other _ _ he => exact absurd ho (he scriptHash)
  | created _ _ he _ _ =>
    rw [he] at ho
    cases ho
  | voted hop _ =>
    subst hop
    cases ho
  | resolved hop hres =>
    subst hop
    cases ho
    exact ⟨_,rfl,(Proposal.resolve_ok hres).1⟩
  | executed hop hres =>
    subst hop
    cases ho
    exact ⟨_,rfl,(Proposal.resolveProposalV2_ok hres).1⟩

theorem votesOn_open (hs : s.step o = .ok t) (ho : o.votesOn = some id) :
    ∃ p, s.forum.proposals id = some p ∧ p.isResolved = false ∧ p.notInExecution = .ok true := by
  have hentry := VotingState.step_entry hs id
  generalize hx : s.forum.proposals id = x at hentry
  generalize t.forum.proposals id = y at hentry
  cases hentry with
  | other _ hv _ => exact absurd ho hv
  | created _ hv _ _ _ =>
    rw [hv] at ho
    cases ho
  | voted _ hvote =>
    obtain ⟨-,hres,hexec,-⟩ := Proposal.vote_ok hvote
    exact ⟨_,rfl,hres,hexec⟩
  | resolved hop _ | executed hop _ =>
    subst hop
    cases ho

theorem step_isResolved {p : Proposal P} (hs : s.step o = .ok t)
    (hp : s.forum.proposals id = some p) (hres : p.isResolved = true) :
    ∃ p', t.forum.proposals id = some p' ∧ p'.isResolved = true := by
  have hentry := VotingState.step_entry hs id
  rw [hp] at hentry
  generalize hy : t.forum.proposals id = y at hentry
  cases hentry with
  | other => exact ⟨p,rfl,hres⟩
  | voted _ hvote =>
    obtain ⟨-,-,-,-,_,-,rfl⟩ := Proposal.vote_ok hvote
    exact ⟨_,rfl,hres⟩
  | resolved _ h =>
    obtain ⟨-,-,rfl⟩ := Proposal.resolve_ok h
    exact ⟨_,rfl,rfl⟩
  | executed _ h =>
    obtain ⟨-,_,-,⟨-,rfl⟩ | ⟨-,-,-,rfl⟩⟩ := Proposal.resolveProposalV2_ok h
    · exact ⟨_,rfl,rfl⟩
    · exact ⟨_,rfl,hres⟩

end History

structure Lifecycle (s₀ : VotingState P) (os : List (VotingOp P)) : Prop where
  /-- A proposal stays resolved. -/
  staysResolved : ∀ os₁ os₂ t u, os = os₁ ++ os₂ → Reaches VotingState.step s₀ os₁ t →
    Reaches VotingState.step t os₂ u → ∀ id p, t.forum.proposals id = some p →
      p.isResolved = true → ∃ p', u.forum.proposals id = some p' ∧ p'.isResolved = true
  /-- It is resolved once, and no step of it executes afterwards. -/
  resolvedOnce : ∀ os₁ o os₂ id, os = os₁ ++ o :: os₂ → o.resolves = some id →
    ∀ o' ∈ os₂, ∀ scriptHash, o'.executes ≠ some (id, scriptHash)
  /-- Its content is handed out once. -/
  handedOutOnce : ∀ os₁ o os₂ id, os = os₁ ++ o :: os₂ → o.handsOut = some id →
    ∀ o' ∈ os₂, o'.handsOut ≠ some id
  /-- Nobody votes on it once it is resolved or its first step has executed. -/
  noLateVote : ∀ os₁ o os₂ id scriptHash, os = os₁ ++ o :: os₂ →
    o.executes = some (id, scriptHash) → ∀ o' ∈ os₂, o'.votesOn ≠ some id
  /-- A step executes in the script that the proposal names at that time, after it has won, and
  strictly later than every vote. -/
  executedAfterVotes : ∀ os₁ o os₂ id scriptHash t, os = os₁ ++ o :: os₂ →
    o.executes = some (id, scriptHash) → Reaches VotingState.step s₀ os₁ t →
      ∃ p, t.forum.proposals id = some p ∧ scriptHash = p.executionHash ∧
        p.noVotes < p.yesVotes ∧ p.minVoteThreshold ≤ p.yesVotes + p.noVotes ∧
        ∀ os₃ v os₄ w, os₁ = os₃ ++ v :: os₄ → v.votesOn = some id →
          Reaches VotingState.step s₀ os₃ w → w.nowSeconds < t.nowSeconds

theorem proposal_lifecycle {us : UInt64} {os : List (VotingOp P)} {s : VotingState P}
    (h : Reaches VotingState.step (.start us) os s) : Lifecycle (.start us) os := by
  have hcontent : ∀ os₁ o os₂ id, os = os₁ ++ o :: os₂ → o.resolves = some id →
      ∀ o' ∈ os₂, ∀ scriptHash, o'.executes ≠ some (id, scriptHash) := by
    rintro os₁ o os₂ id rfl ho o' ho' scriptHash hex
    obtain ⟨front,w,w',hw,hmem,hs⟩ := h.later ho'
    obtain ⟨p,hp,hr⟩ := executes_resolvable hs hex
    have hist := (run_history hw id).2
    rw [hp] at hist
    have hres : p.isResolved = true := hist.resolved ⟨o,hmem,ho⟩
    rw [hr.unresolved] at hres
    cases hres
  refine ⟨?_,hcontent,?_,?_,?_⟩
  · rintro os₁ os₂ t u - - hrun id p hp hres
    exact hrun.invariant (I := fun u => ∃ p', u.forum.proposals id = some p' ∧ p'.isResolved = true)
      ⟨p,hp,hres⟩ fun _ _ _ ⟨_,hq,hqr⟩ _ hs => step_isResolved hs hq hqr
  · intro os₁ o os₂ id hos ho o' ho' hout
    obtain ⟨scriptHash,hex⟩ :=
      VotingOp.executes_of_resolves (VotingOp.resolves_of_handsOut hout)
    exact hcontent os₁ o os₂ id hos (VotingOp.resolves_of_handsOut ho) o' ho' scriptHash hex
  · rintro os₁ o os₂ id scriptHash rfl ho o' ho' hvote
    obtain ⟨front,w,w',hw,hmem,hs⟩ := h.later ho'
    obtain ⟨p,hp,hres,hopen⟩ := votesOn_open hs hvote
    have hist := (run_history hw id).2
    rw [hp] at hist
    rcases hist.executed ⟨o,hmem,scriptHash,ho⟩ with hr | hr
    · rw [hres] at hr
      cases hr
    · exact hr hopen
  · rintro os₁ o os₂ id scriptHash t rfl ho ht
    obtain ⟨t',_,ht',-,hs,-⟩ := h.middle
    obtain rfl := ht.unique ht'
    obtain ⟨p,hp,hr⟩ := executes_resolvable hs ho
    obtain ⟨hlt,-,hmin⟩ := Proposal.passed_eq_ok.mp hr.passed
    refine ⟨p,hp,hr.script,hlt,hmin,?_⟩
    rintro os₃ v os₄ w hos hv hw
    have hist := (run_history ht id).2
    rw [hp] at hist
    obtain ⟨time,hbound,hl,hb⟩ := hist.voted ⟨v,by rw [hos]; simp,hv⟩
    obtain ⟨value,time',hl',hdec,hlt⟩ := hr.laterThan
    cases hl.symm.trans hl'
    cases (FromBcs.toU64_ofU64 hbound).symm.trans hdec
    exact (hb os₃ v os₄ w hos hv hw).trans_lt hlt

def twoSteps : List (VotingOp Unit) := [
  .createProposalV2 7 () [1] 10 100 none .create true,
  .vote 0 10 true,
  .updateGlobalTime false 101000000,
  .resolveProposalV2 [1] 0 [2],
  .resolveProposalV2 [2] 0 []]

theorem proposal_lifecycle_twoSteps :
    (∃ s, Reaches VotingState.step (.start 0) twoSteps s) ∧ Lifecycle (.start 0) twoSteps := by
  have hrun : ∃ s, exec VotingState.step (.start 0) twoSteps = .ok s := ⟨_,rfl⟩
  obtain ⟨s,hs⟩ := hrun
  have h := reaches_iff_exec.mpr hs
  exact ⟨⟨s,h⟩,proposal_lifecycle h⟩

end Arx
