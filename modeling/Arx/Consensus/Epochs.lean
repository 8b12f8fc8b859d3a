import Arx.Consensus.SafetyRulesRuns

/-!
# Certificates of other epochs

The quorum certificate in a timeout and the timeout certificates are checked by their signatures
only, so one of another epoch is accepted whenever these verify.
-/

namespace Arx.Consensus
open Movelib Arx.Types

/-- If the request is for the epoch, the certificates that come with it are of that epoch. The one in
a block is left out: it is checked with the block. -/
def Request.OfEpoch (epoch : ℕ) : Request → Prop
  | .vote _ p tc => p.block.epoch = epoch → ∀ cert, tc = some cert → cert.epoch = epoch
  | .timeout t tc => t.epoch = epoch → t.quorumCert.certifiedBlock.epoch = epoch ∧
      ∀ cert, tc = some cert → cert.epoch = epoch
  | _ => True

namespace SafetyRules
open SafetyData Option

/-- The request of the event brings no certificate of another epoch than the one in the store. -/
def NoForeign (s : SafetyRules) (e : Event) : Prop :=
  ∀ r, e.request = some r → r.OfEpoch s.persisted.epoch

/-- The vote follows from the proposal and the timeout certificate, both of the given epoch. -/
structure Justifies (c : Crypto) (epoch : ℕ) (p : VoteProposal)
    (tc : Option TwoChainTimeoutCertificate) (v : Vote) : Prop where
  voteData : p.genVoteData c = .ok v.voteData
  safe : safeToVote p.block tc = .ok ()
  quorumCert : p.block.quorumCert.certifiedBlock.epoch = epoch
  timeoutCert : ∀ cert, tc = some cert → cert.epoch = epoch

def Justified (c : Crypto) (epoch : ℕ) (events : List Event) (v : Vote) : Prop :=
  ∃ e ∈ events, ∃ now p tc, e.request = some (.vote now p tc) ∧ Justifies c epoch p tc v

variable {c : Crypto} {s t : SafetyRules} {e : Event} {events : List Event} {v : Vote}

theorem verifyWellFormed_ok {b : Block} {now : ℕ} (h : b.verifyWellFormed now = .ok ()) :
    b.quorumCert.certifiedBlock.round < b.round ∧ b.quorumCert.certifiedBlock.epoch = b.epoch := by
  simp only [Block.verifyWellFormed,bind_eq_ok,ensure,check_ok] at h
  obtain ⟨_,-,_,hround,_,hepoch,-⟩ := h
  exact ⟨hround,hepoch⟩

theorem Constructed.justifies {now : ℕ} {p : VoteProposal}
    {tc : Option TwoChainTimeoutCertificate} {d : SafetyData}
    (h : Constructed c now p tc s v d) (hr : e.request = some (.vote now p tc))
    (hno : NoForeign s e) : Justifies c s.persisted.epoch p tc v := by
  obtain ⟨es,hes⟩ := h.checked
  refine ⟨hes.voteData,h.safe,?_,?_⟩
  · exact (verifyWellFormed_ok hes.wellFormed).2.trans hes.epoch
  · exact hno _ hr hes.epoch

theorem Justified.mono {epoch : ℕ} {more : List Event} (h : Justified c epoch events v) :
    Justified c epoch (events ++ more) v := by
  obtain ⟨e,he,hj⟩ := h
  exact ⟨e,List.mem_append_left _ he,hj⟩

theorem step_justified (h : s.Invariant) (hno : NoForeign s e)
    (hlast : ∀ v, s.persisted.lastVote = some v → Justified c s.persisted.epoch events v)
    (hv : (step c s e).2.persisted.lastVote = some v) :
    Justified c (step c s e).2.persisted.epoch (events ++ [e]) v := by
  obtain ⟨-,-,hm⟩ := step_moved (c := c) h.coherent e
  generalize hr : e.request = r at hm
  generalize (step c s e).1 = reply at hm
  cases hm with
  | kept _ _ hp _ | resent now p tc w hl hround hepoch hp | timedOut timeout tc es _ hc hp _ =>
    rw [hp] at hv ⊢
    exact (hlast v hv).mono
  | voted now p tc w d _ hc hp _ =>
    rw [hp,hc.lastVote] at hv
    cases hv
    rw [hp,hc.data_epoch]
    exact ⟨e,by simp,now,p,tc,hr,hc.justifies hr hno⟩
  | entered proof es _ hnames hlt hp _ =>
    rw [hp] at hv
    exact absurd hv.symm (some_ne_none v)

theorem after_append (s : SafetyRules) (events more : List Event) :
    after c s (events ++ more) = after c (after c s events) more := by
  induction events generalizing s with
  | nil => rfl
  | cons e events ih => exact ih _

theorem after_justified (h : s.Invariant) (hnone : s.persisted.lastVote = none)
    (hno : ∀ front e' back, events = front ++ e' :: back → NoForeign (after c s front) e')
    (hv : (after c s events).persisted.lastVote = some v) :
    Justified c (after c s events).persisted.epoch events v := by
  induction events using List.reverseRecOn generalizing v with
  | nil => exact absurd (hnone.symm.trans hv) (some_ne_none v).symm
  | append_singleton events e ih =>
    rw [after_append] at hv ⊢
    refine step_justified (after_invariant h events) (hno events e [] rfl) (fun w hw => ?_) hv
    refine ih (fun front e' back heq => hno front e' (back ++ [e]) ?_) hw
    rw [heq,List.append_assoc,List.cons_append]

/-- If no certificate of another epoch is handed over with a request for the epoch in the store,
every vote and every timeout is justified by certificates of that epoch only. -/
theorem certificates_of_epoch (c : Crypto) (author : Author) (key : PrivateKey)
    (waypoint : Waypoint) (enableCached : Bool) (accesses : List Access) (events : List Event)
    (e : Event)
    (hno : ∀ front e' back, events ++ [e] = front ++ e' :: back →
      NoForeign (after c (start author key waypoint enableCached accesses) front) e') :
    let s := after c (start author key waypoint enableCached accesses) events
    (∀ v, (step c s e).1 = some (.vote v) →
      v.epoch = s.persisted.epoch ∧ Justified c s.persisted.epoch (events ++ [e]) v) ∧
    (∀ timeout signature, (step c s e).1 = some (.timeout timeout signature) →
      timeout.epoch = s.persisted.epoch ∧
      timeout.quorumCert.certifiedBlock.epoch = s.persisted.epoch ∧
      ∃ tc, e.request = some (.timeout timeout tc) ∧
        ∀ cert, tc = some cert → cert.epoch = s.persisted.epoch) := by
  intro s
  have hs : s.Invariant := after_invariant start_invariant events
  obtain ⟨-,-,hm⟩ := step_moved (c := c) hs.coherent e
  constructor
  · intro v hv
    rw [hv] at hm
    have hepoch : (step c s e).2.persisted.epoch = s.persisted.epoch := by
      generalize e.request = r at hm
      cases hm with
      | kept _ _ hp _ => rw [hp]
      | resent _ _ _ _ _ _ _ hp => rw [hp]
      | voted now p tc w d _ hc hp _ => rw [hp,hc.data_epoch]
      | timedOut _ _ _ _ _ hp _ => rw [hp]
      | entered _ _ _ _ _ _ hr => cases hr
    have hlast : (after c (start author key waypoint enableCached accesses)
        (events ++ [e])).persisted.lastVote = some v := by
      rw [after_append]
      exact hm.vote
    have hj := after_justified start_invariant rfl hno hlast
    rw [after_append] at hj
    refine ⟨?_,hepoch ▸ hj⟩
    rw [← hepoch]
    exact (hm.sound hs.sound).epoch v hm.vote
  · intro timeout signature ht
    rw [ht] at hm
    obtain ⟨⟨tc,es,hr,hc⟩,-⟩ := hm.timeout
    obtain ⟨hqc,htc⟩ := hno events e [] rfl _ hr hc.epoch
    exact ⟨hc.epoch,hqc,tc,hr,htc⟩

def soloSignature (signature : Signature) : AggregateSignature :=
  ⟨(ArxBitVec.withNumBits 1).set 0,some signature⟩

def certOne : QuorumCert :=
  let genesis : BlockInfo := ⟨1,0,5,0,0,0,none⟩
  let vote : VoteData := ⟨⟨1,1,512,0,0,0,none⟩,genesis⟩
  ⟨vote,⟨⟨genesis,5513⟩,soloSignature 5513006⟩⟩

def timeoutCertOne (epoch : ℕ) : TwoChainTimeoutCertificate :=
  ⟨⟨epoch,1,genesisCert epoch 5⟩,⟨soloSignature (11 + epoch),[0]⟩⟩

/-- The epoch changes from 1 to 2; the validator has signed the ledger info that ends epoch 1. -/
def secondProof : EpochChangeProof :=
  ⟨(soloProof 1).ledgerInfoWithSigs ++ [⟨⟨⟨1,0,0,0,1,0,some ⟨2,solo⟩⟩,0⟩,soloSignature 1⟩]⟩

def twoEpochs : List Event :=
  [.call (.epochChange (soloProof 1)),.call voteOne,.call timeoutOne,.call (.epochChange secondProof)]

/-- A vote in the second epoch, justified by the timeout certificate of its first round. -/
theorem certificates_of_epoch_second :
    let s := after numeric (start 1 1 ⟨0,1⟩ true []) twoEpochs
    let e : Event := .call (.vote 0 (nilProposal 2 2 (genesisCert 2 5)) (some (timeoutCertOne 2)))
    ∃ v, (step numeric s e).1 = some (.vote v) ∧ v.epoch = 2 ∧
      Justified numeric 2 (twoEpochs ++ [e]) v := by
  intro s e
  obtain ⟨v,hv⟩ : ∃ v, (step numeric s e).1.bind Reply.getVote = some v :=
    isSome_iff_exists.mp (by decide)
  rw [Reply.getVote_eq] at hv
  have hepoch : s.persisted.epoch = 2 := by decide
  have hno : ∀ e' ∈ twoEpochs ++ [e], ∀ r, e'.request = some r → ∀ epoch, r.OfEpoch epoch := by
    intro e' he' r hr epoch
    fin_cases he' <;> cases hr
    · trivial
    · exact fun _ cert hcert => absurd hcert.symm (some_ne_none cert)
    · exact fun h => ⟨h,fun cert hcert => absurd hcert.symm (some_ne_none cert)⟩
    · trivial
    · exact fun h cert hcert => some.inj hcert ▸ h
  refine ⟨v,hv,?_⟩
  rw [← hepoch]
  refine (certificates_of_epoch numeric 1 1 ⟨0,1⟩ true [] twoEpochs e ?_).1 v hv
  exact fun front e' back heq r hr => hno e' (by rw [heq]; simp) r hr _

/-- After the change to epoch 2 the certificates of epoch 1 are still good for a timeout and for a
vote. -/
theorem foreign_certificates_accepted :
    let s₀ := start 1 1 ⟨0,1⟩ true []
    let s := after numeric s₀ twoEpochs
    let timeout : TwoChainTimeout := ⟨2,2,certOne⟩
    let proposal := nilProposal 2 2 (genesisCert 2 5)
    ((replies numeric s₀ twoEpochs)[1]?.bind fun r => r.bind Reply.getVote).map (·.signature) =
        some 5513006 ∧
      (replies numeric s₀ twoEpochs)[2]? = some (some (.timeout ⟨1,1,genesisCert 1 5⟩ 12)) ∧
      s.persisted.epoch = 2 ∧
      signed (step numeric s (.call (.timeout timeout none))).1 = some (2,2) ∧
      timeout.quorumCert.certifiedBlock.epoch = 1 ∧
      signed (step numeric s (.call (.vote 0 proposal (some (timeoutCertOne 1))))).1 = some (2,2) ∧
      (timeoutCertOne 1).epoch = 1 := by
  decide

end SafetyRules

end Arx.Consensus
