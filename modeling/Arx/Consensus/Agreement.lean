import Arx.Consensus.TimeoutCertificates

/-!
# Agreement

The validators of one epoch vote and time out in any order and with any arguments; the faulty ones
sign what they want. Two committed blocks lie on one branch.
-/

namespace Arx.Consensus
open Movelib Arx.Types List Option ValidatorVerifier

def Request.quorumCerts : Request → List QuorumCert
  | .epochChange _ => []
  | .proposal b => [b.quorumCert]
  | .vote _ p tc => p.block.quorumCert :: (tc.map (·.timeout.quorumCert)).toList
  | .timeout t tc => t.quorumCert :: (tc.map (·.timeout.quorumCert)).toList

def Request.timeoutCerts : Request → List TwoChainTimeoutCertificate
  | .vote _ _ tc => tc.toList
  | .timeout _ tc => tc.toList
  | _ => []

def Request.voteDatas (c : Crypto) (r : Request) : List VoteData :=
  r.quorumCerts.map (·.voteData) ++ match r with
    | .vote _ p _ => (p.genVoteData c).toOption.toList
    | _ => []

def Request.blocks : Request → List BlockData
  | .vote _ p _ => [p.block.blockData]
  | _ => []

def Reply.getTimeout : Reply → Option TwoChainTimeout
  | timeout t _ => some t
  | _ => none

abbrev Call := AccountAddress × Event

def requests (calls : List Call) : List Request := calls.flatMap fun call => call.2.request.toList

structure Network where
  nodes : AccountAddress → SafetyRules
  votes : List (AccountAddress × Vote)
  timeouts : List (AccountAddress × TwoChainTimeout)

namespace Network

def start (nodes : AccountAddress → SafetyRules) : Network := ⟨nodes,[],[]⟩

def step (c : Crypto) (net : Network) (call : Call) : Network :=
  let done := SafetyRules.step c (net.nodes call.1) call.2
  { nodes := Function.update net.nodes call.1 done.2
    votes := net.votes ++ (done.1.bind Reply.getVote).toList.map fun v => (call.1,v)
    timeouts := net.timeouts ++ (done.1.bind Reply.getTimeout).toList.map fun t => (call.1,t) }

def exec (c : Crypto) (net : Network) : List Call → Network
  | [] => net
  | call :: calls => exec c (net.step c call) calls

def SignedLedgerInfo (net : Network) (a : AccountAddress) (li : LedgerInfo) : Prop :=
  ∃ p ∈ net.votes, p.1 = a ∧ p.2.ledgerInfo = li

def SignedTimeout (net : Network) (a : AccountAddress) (m : TimeoutSigningRepr) : Prop :=
  ∃ p ∈ net.timeouts, p.1 = a ∧ p.2.signingFormat = m

variable (c : Crypto) (V : ValidatorVerifier) (faulty : Finset AccountAddress)

variable (net : Network)

/-- If the signatures of a ledger info verify, the voters that are not faulty have signed it. -/
def AuthenticLedgerInfo (li : LedgerInfoWithSignatures) : Prop :=
  li.verifySignatures c.ledgerInfos V = .ok () →
    ∀ info ∈ V.votersOf li.signatures.validatorBitmask, info.address ∉ faulty →
      net.SignedLedgerInfo info.address li.ledgerInfo

/-- If the signatures of a timeout certificate verify, there is a message for each voter, and the
voters that are not faulty have signed theirs. -/
def AuthenticTimeout (tc : TwoChainTimeoutCertificate) : Prop :=
  V.verifyAggregateSignatures c.timeouts (tc.messages V) tc.signaturesWithRounds.sig = .ok () →
    let voters := V.votersOf tc.signaturesWithRounds.sig.validatorBitmask
    (tc.messages V).length = voters.length ∧
      ∀ p ∈ voters.zip (tc.messages V), p.1.address ∉ faulty →
        net.SignedTimeout p.1.address p.2

def Authentic (r : Request) : Prop :=
  (∀ qc ∈ r.quorumCerts, net.AuthenticLedgerInfo c V faulty qc.signedLedgerInfo) ∧
    ∀ tc ∈ r.timeoutCerts, net.AuthenticTimeout c V faulty tc

def Unforgeable (net : Network) : List Call → Prop
  | [] => True
  | call :: calls => (∀ r ∈ call.2.request, net.Authentic c V faulty r) ∧
      Unforgeable (net.step c call) calls

instance (net : Network) (a : AccountAddress) (li : LedgerInfo) :
    Decidable (net.SignedLedgerInfo a li) :=
  inferInstanceAs (Decidable (∃ p ∈ net.votes, _))

instance (net : Network) (a : AccountAddress) (m : TimeoutSigningRepr) :
    Decidable (net.SignedTimeout a m) :=
  inferInstanceAs (Decidable (∃ p ∈ net.timeouts, _))

instance (net : Network) (li : LedgerInfoWithSignatures) :
    Decidable (net.AuthenticLedgerInfo c V faulty li) :=
  inferInstanceAs (Decidable (_ → ∀ info ∈ V.votersOf _, _ → _))

instance (net : Network) (tc : TwoChainTimeoutCertificate) :
    Decidable (net.AuthenticTimeout c V faulty tc) :=
  inferInstanceAs (Decidable (_ → _ ∧ ∀ p ∈ (V.votersOf _).zip _, _ → _))

instance (net : Network) (r : Request) : Decidable (net.Authentic c V faulty r) :=
  inferInstanceAs (Decidable ((∀ qc ∈ r.quorumCerts, _) ∧ ∀ tc ∈ r.timeoutCerts, _))

instance decidableUnforgeable : ∀ (net : Network) (calls : List Call),
    Decidable (net.Unforgeable c V faulty calls)
  | _, [] => inferInstanceAs (Decidable True)
  | net, call :: calls =>
    haveI := decidableUnforgeable (net.step c call) calls
    inferInstanceAs (Decidable ((∀ r ∈ call.2.request, net.Authentic c V faulty r) ∧ _))

def QuorumSigned (li : LedgerInfo) : Prop :=
  ∃ A, V.IsQuorum A ∧ ∀ a ∈ A, a ∉ faulty → net.SignedLedgerInfo a li

end Network

/-- The process has nothing signed yet in the epoch, and knows the validators of no other one. -/
structure Fresh (epoch : ℕ) (V : ValidatorVerifier) (s : SafetyRules) : Prop where
  coherent : s.Coherent
  persisted : s.persisted = .new epoch
  epochState : ∀ es, s.epochState = some es → es = ⟨epoch,V⟩

/-- The proofs of epoch changes lead to this epoch. -/
def InEpoch (epoch : ℕ) (V : ValidatorVerifier) (calls : List Call) : Prop :=
  ∀ r ∈ requests calls, ∀ proof, r = .epochChange proof → ∀ es, SafetyRules.Names proof es →
    es = ⟨epoch,V⟩

section

variable (c : Crypto) (calls : List Call)

def CollisionFree : Prop :=
  ∀ r ∈ requests calls, ∀ r' ∈ requests calls, ∀ d ∈ r.voteDatas c, ∀ d' ∈ r'.voteDatas c,
    c.hashVoteData d = c.hashVoteData d' → d = d'

def SingleGenesis (genesis : HashValue) (calls : List Call) : Prop :=
  ∀ r ∈ requests calls, ∀ qc ∈ r.quorumCerts, qc.certifiedBlock.round = 0 →
    qc.certifiedBlock.id = genesis

/-- A block of the calls with the id `j` extends the block with the id `i`. -/
def ParentIn (i j : HashValue) : Prop :=
  ∃ r ∈ requests calls, ∃ b ∈ r.blocks, c.hashBlockData b = j ∧ b.parentId = i

/-- The block `i` is `j` or one of its ancestors. -/
def AncestorIn : HashValue → HashValue → Prop :=
  Relation.ReflTransGen (ParentIn c calls)

/-- What is asked of a run of one epoch with a set of faulty validators. -/
structure Admissible (c : Crypto) (infos : List ValidatorConsensusInfo) (epoch : ℕ)
    (faulty : Finset AccountAddress) (nodes : AccountAddress → SafetyRules) (calls : List Call) :
    Prop where
  nonempty : infos ≠ []
  distinct : (new infos).Distinct
  power : ∑ a ∈ faulty, (new infos).power a ≤
    (new infos).totalVotingPower -
      (new infos).quorumVotingPower
  fresh : ∀ a, a ∉ faulty → Fresh epoch (.new infos) (nodes a)
  inEpoch : InEpoch epoch (.new infos) calls
  unforgeable : (Network.start nodes).Unforgeable c (.new infos) faulty calls
  collisionFree : CollisionFree c calls

end

section Certificates

variable {c : Crypto} {V : ValidatorVerifier} {faulty : Finset AccountAddress} {net : Network}

theorem quorumCert_verify_ok {qc : QuorumCert} (h : qc.verify c V = .ok ()) :
    qc.signedLedgerInfo.ledgerInfo.consensusDataHash = c.hashVoteData qc.voteData ∧
      (qc.certifiedBlock.round = 0 ∨
        qc.signedLedgerInfo.verifySignatures c.ledgerInfos V = .ok ()) := by
  simp only [QuorumCert.verify,bind_eq_ok,ensure,check_ok] at h
  obtain ⟨_,hhash,h⟩ := h
  refine ⟨hhash,?_⟩
  split at h
  · exact .inl ‹_›
  · simp only [bind_eq_ok,mapError_eq_ok] at h
    obtain ⟨_,hsig,-⟩ := h
    exact .inr hsig

theorem mem_messages {tc : TwoChainTimeoutCertificate} {m : TimeoutSigningRepr}
    (hmax : tc.signaturesWithRounds.rounds.max? = some tc.highestHqcRound)
    (hm : m ∈ tc.messages V) : m.round = tc.round ∧ m.hqcRound ≤ tc.highestHqcRound := by
  obtain ⟨p,hp,rfl⟩ := mem_map.mp hm
  refine ⟨rfl,?_⟩
  have hround := (of_mem_zip hp).2
  exact (List.max?_eq_some_iff.mp hmax).2 _ hround

end Certificates

namespace SafetyRules

variable {c : Crypto} {b : Block} {tc : Option TwoChainTimeoutCertificate}

theorem nextRound_ok {r r' : ℕ} (h : nextRound r = .ok r') : r' = r + 1 := by
  obtain ⟨-,-,⟨⟩⟩ := bind_eq_ok.mp h
  rfl

theorem safeToVote_ok (h : safeToVote b tc = .ok ()) :
    b.round = b.quorumCert.certifiedBlock.round + 1 ∨
      b.round = tcRound tc + 1 ∧ tcHqcRound tc ≤ b.quorumCert.certifiedBlock.round := by
  obtain ⟨afterQc,hqc,h⟩ := bind_eq_ok.mp h
  obtain rfl := nextRound_ok hqc
  split at h
  · exact .inl ‹_›
  · simp only [bind_eq_ok,check_ok] at h
    obtain ⟨afterTc,htc,h⟩ := h
    obtain rfl := nextRound_ok htc
    exact h

theorem safeToTimeout_ok {timeout : TwoChainTimeout} {data : SafetyData}
    (h : safeToTimeout timeout tc data = .ok ()) : data.oneChainRound ≤ timeout.hqcRound := by
  obtain ⟨afterQc,-,h⟩ := bind_eq_ok.mp h
  split at h
  all_goals
    simp only [bind_eq_ok,check_ok] at h
    obtain ⟨-,-,-,h⟩ := h
    exact h

theorem constructLedgerInfo2chain_ok {hash : HashValue} {li : LedgerInfo}
    (h : constructLedgerInfo2chain b hash = .ok li) : li.consensusDataHash = hash ∧
      (li.commitInfo ≠ .empty → li.commitInfo = b.quorumCert.certifiedBlock ∧
        b.round = b.quorumCert.certifiedBlock.round + 1) := by
  obtain ⟨after0,hafter,⟨⟩⟩ := bind_eq_ok.mp h
  obtain rfl := nextRound_ok hafter
  refine ⟨rfl,fun hne => ?_⟩
  split
  · exact ⟨rfl,by omega⟩
  · next hround => exact absurd (if_neg hround) hne

end SafetyRules

namespace Network

variable (c : Crypto) (V : ValidatorVerifier) (faulty : Finset AccountAddress)
  (genesis : HashValue)

def protocol (net : Network) : TwoChain AccountAddress VoteData HashValue where
  id d := d.proposed.id
  round d := d.proposed.round
  parentId d := d.parent.id
  parentRound d := d.parent.round
  genesis := genesis
  honest a := a ∉ faulty
  Quorum A := ∃ F : Finset AccountAddress, V.IsQuorum F ∧ A = F
  Voted a d := ∃ v, (a,v) ∈ net.votes ∧ v.voteData = d
  TimedOut a r k := ∃ t, (a,t) ∈ net.timeouts ∧ t.round = r ∧ t.hqcRound = k

structure Backed (net : Network) (calls : List Call) (v : Vote) : Prop where
  hash : v.ledgerInfo.consensusDataHash = c.hashVoteData v.voteData
  commit : v.ledgerInfo.commitInfo ≠ .empty →
    v.ledgerInfo.commitInfo = v.voteData.parent ∧ v.round = v.voteData.parent.round + 1
  voteData : ∃ r ∈ requests calls, v.voteData ∈ r.voteDatas c
  block : ParentIn c calls v.voteData.parent.id v.voteData.proposed.id
  parent_lt : v.voteData.parent.round < v.round
  certified : (net.protocol V faulty genesis).Certified v.voteData.parent.id
    v.voteData.parent.round
  rule : v.round = v.voteData.parent.round + 1 ∨
    ∃ r k, (net.protocol V faulty genesis).TimeoutCertified r k ∧ v.round = r + 1 ∧
      k ≤ v.voteData.parent.round

structure NodeInvariant (epoch : ℕ) (net : Network) (a : AccountAddress) : Prop where
  invariant : (net.nodes a).Invariant
  ofEpoch : (net.nodes a).persisted.epoch = epoch
  epochState : ∀ es, (net.nodes a).epochState = some es → es = ⟨epoch,V⟩
  /-- A vote that was returned is the last one or for an earlier round. -/
  vote : ∀ v, (a,v) ∈ net.votes → v.round ≤ (net.nodes a).persisted.lastVotedRound ∧
    v.voteData.parent.round ≤ (net.nodes a).persisted.oneChainRound ∧
    ∃ w, (net.nodes a).persisted.lastVote = some w ∧ (w = v ∨ v.round < w.round)
  /-- The last vote, if it is for a round not above a timeout, has a parent not above it. -/
  timeout : ∀ t, (a,t) ∈ net.timeouts → t.round ≤ (net.nodes a).persisted.lastVotedRound ∧
    ∀ w, (net.nodes a).persisted.lastVote = some w → w.round ≤ t.round →
      w.voteData.parent.round ≤ t.hqcRound
  unique : ∀ v w, (a,v) ∈ net.votes → (a,w) ∈ net.votes → v.round = w.round → v = w
  lock : ∀ v t, (a,v) ∈ net.votes → (a,t) ∈ net.timeouts → v.round ≤ t.round →
    v.voteData.parent.round ≤ t.hqcRound

structure Grows (net net' : Network) : Prop where
  votes : net.votes ⊆ net'.votes
  timeouts : net.timeouts ⊆ net'.timeouts

variable {c V faulty genesis} {net net' : Network} {calls more : List Call} {v : Vote}
  {a : AccountAddress} {call : Call}

theorem Grows.certified (h : Grows net net') {i : HashValue} {r : ℕ}
    (hc : (net.protocol V faulty genesis).Certified i r) :
    (net'.protocol V faulty genesis).Certified i r := by
  refine hc.imp_right ?_
  rintro ⟨x,⟨A,hA,hvoted⟩,hx⟩
  refine ⟨x,⟨A,hA,fun a ha hh => ?_⟩,hx⟩
  obtain ⟨v,hv,rfl⟩ := hvoted a ha hh
  exact ⟨v,h.votes hv,rfl⟩

theorem Grows.timeoutCertified (h : Grows net net') {r k : ℕ}
    (hc : (net.protocol V faulty genesis).TimeoutCertified r k) :
    (net'.protocol V faulty genesis).TimeoutCertified r k := by
  obtain ⟨A,hA,htimed⟩ := hc
  refine ⟨A,hA,fun a ha hh => ?_⟩
  obtain ⟨k',hk',t,ht,hr⟩ := htimed a ha hh
  exact ⟨k',hk',t,h.timeouts ht,hr⟩

theorem Backed.mono (h : Grows net net') (hsub : requests calls ⊆ requests more)
    (hv : Backed c V faulty genesis net calls v) : Backed c V faulty genesis net' more v where
  hash := hv.hash
  commit := hv.commit
  voteData := by
    obtain ⟨r,hr,hd⟩ := hv.voteData
    exact ⟨r,hsub hr,hd⟩
  block := by
    obtain ⟨r,hr,hb⟩ := hv.block
    exact ⟨r,hsub hr,hb⟩
  parent_lt := hv.parent_lt
  certified := h.certified hv.certified
  rule := hv.rule.imp_right fun ⟨r,k,htc,hr,hk⟩ => ⟨r,k,h.timeoutCertified htc,hr,hk⟩

theorem step_grows (call : Call) : Grows net (net.step c call) :=
  ⟨subset_append_left _ _,subset_append_left _ _⟩

theorem step_nodes_self (call : Call) :
    (net.step c call).nodes call.1 = (SafetyRules.step c (net.nodes call.1) call.2).2 :=
  Function.update_self ..

theorem step_nodes_of_ne (call : Call) (h : a ≠ call.1) :
    (net.step c call).nodes a = net.nodes a := Function.update_of_ne h ..

theorem mem_step_votes : (a,v) ∈ (net.step c call).votes ↔ (a,v) ∈ net.votes ∨
      a = call.1 ∧ (SafetyRules.step c (net.nodes call.1) call.2).1 = some (.vote v) := by
  simp only [step,List.mem_append,List.mem_map,Option.mem_toList,Prod.mk.injEq,← Reply.getVote_eq]
  refine or_congr_right ⟨?_,?_⟩
  · rintro ⟨w,hw,rfl,rfl⟩
    exact ⟨rfl,hw⟩
  · rintro ⟨rfl,hv⟩
    exact ⟨v,hv,rfl,rfl⟩

theorem getTimeout_eq {reply : Option Reply} {t : TwoChainTimeout} :
    reply.bind Reply.getTimeout = some t ↔ ∃ signature, reply = some (.timeout t signature) := by
  rcases reply with _ | reply
  · exact ⟨nofun,nofun⟩
  · cases reply with
    | timeout t' signature => simp [Reply.getTimeout]
    | _ => exact ⟨nofun,nofun⟩

theorem mem_step_timeouts {t : TwoChainTimeout} :
    (a,t) ∈ (net.step c call).timeouts ↔ (a,t) ∈ net.timeouts ∨
      a = call.1 ∧ ∃ signature,
        (SafetyRules.step c (net.nodes call.1) call.2).1 = some (.timeout t signature) := by
  simp only [step,List.mem_append,List.mem_map,Option.mem_toList,Prod.mk.injEq,
    ← getTimeout_eq]
  refine or_congr_right ⟨?_,?_⟩
  · rintro ⟨w,hw,rfl,rfl⟩
    exact ⟨rfl,hw⟩
  · rintro ⟨rfl,ht⟩
    exact ⟨t,ht,rfl,rfl⟩

structure Invariant (c : Crypto) (V : ValidatorVerifier) (faulty : Finset AccountAddress)
    (genesis : HashValue) (epoch : ℕ) (net : Network) (calls : List Call) : Prop where
  node : ∀ a, a ∉ faulty → NodeInvariant V epoch net a
  backed : ∀ a v, a ∉ faulty → (a,v) ∈ net.votes → Backed c V faulty genesis net calls v
  lastVote : ∀ a v, a ∉ faulty → (net.nodes a).persisted.lastVote = some v →
    Backed c V faulty genesis net calls v

variable {epoch : ℕ} {all : List Call} {r : Request}

theorem certified_of_verify (hV : V.Distinct) (h : Invariant c V faulty genesis epoch net calls)
    (hall : requests calls ⊆ requests all) (hcoll : CollisionFree c all)
    (hgen : SingleGenesis genesis all) (hr : r ∈ requests all) {qc : QuorumCert}
    (hqc : qc ∈ r.quorumCerts) (hauth : net.AuthenticLedgerInfo c V faulty qc.signedLedgerInfo)
    (hverify : qc.verify c V = .ok ()) : (net.protocol V faulty genesis).Certified
      qc.certifiedBlock.id qc.certifiedBlock.round := by
  obtain ⟨hhash,hzero | hsig⟩ := quorumCert_verify_ok hverify
  · exact .inl ⟨hgen r hr qc hqc hzero,hzero⟩
  · obtain ⟨_,hvoters,-⟩ := bind_eq_ok.mp hsig
    obtain rfl := checkVoters_voters hvoters
    refine .inr ⟨qc.voteData,⟨_,⟨_,checkVoters_isQuorum hV hvoters,rfl⟩,?_⟩,
      rfl,rfl⟩
    intro a ha hhonest
    obtain ⟨info,hinfo,rfl⟩ := mem_map.mp (mem_toFinset.mp ha)
    obtain ⟨⟨a,v⟩,hv,rfl,hli⟩ := hauth hsig info hinfo hhonest
    have hbacked := h.backed _ v hhonest hv
    obtain ⟨r',hr',hd'⟩ := hbacked.voteData
    refine ⟨v,hv,hcoll r' (hall hr') r hr _ hd' _ ?_ ?_⟩
    · exact mem_append_left _ (mem_map_of_mem hqc)
    · rw [← hbacked.hash,hli,hhash]

theorem timeoutCertified_of_verify (hV : V.Distinct) {tc : TwoChainTimeoutCertificate}
    (hauth : net.AuthenticTimeout c V faulty tc) (hverify : tc.verify c V = .ok ()) :
    (net.protocol V faulty genesis).TimeoutCertified tc.round tc.highestHqcRound := by
  obtain ⟨hsig,hmax⟩ := timeoutCert_verify_ok hverify
  obtain ⟨_,hvoters,-⟩ := bind_eq_ok.mp hsig
  obtain rfl := checkVoters_voters hvoters
  obtain ⟨hlen,hsigned⟩ := hauth hsig
  refine ⟨_,⟨_,checkVoters_isQuorum hV hvoters,rfl⟩,?_⟩
  intro a ha hhonest
  obtain ⟨info,hinfo,rfl⟩ := mem_map.mp (mem_toFinset.mp ha)
  obtain ⟨m,hm⟩ : ∃ m, (info,m) ∈ (V.votersOf
      tc.signaturesWithRounds.sig.validatorBitmask).zip (tc.messages V) := by
    rw [← map_fst_zip hlen.ge] at hinfo
    obtain ⟨⟨_,m⟩,hm,rfl⟩ := mem_map.mp hinfo
    exact ⟨m,hm⟩
  obtain ⟨⟨a,t⟩,ht,rfl,hformat⟩ := hsigned _ hm hhonest
  obtain rfl : t.signingFormat = m := hformat
  obtain ⟨hround,hle⟩ := mem_messages hmax (of_mem_zip hm).2
  exact ⟨t.hqcRound,hle,t,ht,hround,rfl⟩

theorem constructed_backed (hV : V.Distinct) (h : Invariant c V faulty genesis epoch net calls)
    (hall : requests calls ⊆ requests all) (hcoll : CollisionFree c all)
    (hgen : SingleGenesis genesis all) (ha : a ∉ faulty) {now : ℕ}
    {p : VoteProposal} {tc : Option TwoChainTimeoutCertificate} {d : SafetyData}
    (hr : .vote now p tc ∈ requests all) (hr' : .vote now p tc ∈ requests more)
    (hauth : net.Authentic c V faulty (.vote now p tc))
    (hc : SafetyRules.Constructed c now p tc (net.nodes a) v d) :
    Backed c V faulty genesis net more v := by
  obtain ⟨es,hes⟩ := hc.checked
  obtain rfl := (h.node a ha).epochState es hes.epochState
  obtain ⟨-,hround,hid,hparent⟩ := SafetyRules.genVoteData_ok hes.voteData
  obtain ⟨hlt,-⟩ := SafetyRules.verifyWellFormed_ok hes.wellFormed
  obtain ⟨hhash,hcommit⟩ := SafetyRules.constructLedgerInfo2chain_ok hc.ledgerInfo
  have hvround : v.round = p.block.round := hround
  constructor
  case hash => exact hhash
  case commit =>
    intro hne
    rw [hparent,hvround]
    exact hcommit hne
  case voteData =>
    refine ⟨_,hr',mem_append_right _ ?_⟩
    simp [hes.voteData,Except.toOption]
  case block => exact ⟨_,hr',p.block.blockData,mem_singleton_self _,hid.symm,by rw [hparent]; rfl⟩
  case parent_lt =>
    rw [hparent,hvround]
    exact hlt
  case certified =>
    rw [hparent]
    exact certified_of_verify hV h hall hcoll hgen hr mem_cons_self
      (hauth.1 _ mem_cons_self) hes.qc
  case rule =>
    rw [hparent,hvround]
    rcases SafetyRules.safeToVote_ok hc.safe with hnext | ⟨hnext,hle⟩
    · exact .inl hnext
    · cases tc with
      | none =>
        -- without a timeout certificate the block is in round one
        simp only [SafetyRules.tcRound,elim_none] at hnext
        exact .inl (by omega)
      | some cert =>
        exact .inr ⟨cert.round,cert.highestHqcRound,timeoutCertified_of_verify hV
          (hauth.2 cert (by simp [Request.timeoutCerts])) (hes.certificate cert rfl),hnext,hle⟩

theorem NodeInvariant.other (h : NodeInvariant V epoch net a)
    (hne : a ≠ call.1) : NodeInvariant V epoch (net.step c call) a := by
  have hnode : (net.step c call).nodes a = net.nodes a := step_nodes_of_ne call hne
  have hvotes : ∀ v, (a,v) ∈ (net.step c call).votes → (a,v) ∈ net.votes :=
    fun v hv => (mem_step_votes.mp hv).resolve_right fun h => hne h.1
  have htimeouts : ∀ t, (a,t) ∈ (net.step c call).timeouts → (a,t) ∈ net.timeouts :=
    fun t ht => (mem_step_timeouts.mp ht).resolve_right fun h => hne h.1
  constructor
  case invariant => rw [hnode]; exact h.invariant
  case ofEpoch => rw [hnode]; exact h.ofEpoch
  case epochState => rw [hnode]; exact h.epochState
  case vote => rw [hnode]; exact fun v hv => h.vote v (hvotes v hv)
  case timeout => rw [hnode]; exact fun t ht => h.timeout t (htimeouts t ht)
  case unique => exact fun v w hv hw => h.unique v w (hvotes v hv) (hvotes w hw)
  case lock => exact fun v t hv ht => h.lock v t (hvotes v hv) (htimeouts t ht)

theorem moved_epoch {s t : SafetyRules} {reply : Option Reply} {r : Option Request}
    (hepoch : s.persisted.epoch = epoch)
    (hin : ∀ proof es, r = some (.epochChange proof) → SafetyRules.Names proof es → es.epoch = epoch)
    (hm : SafetyRules.Moved c s t r reply) : t.persisted.epoch = epoch := by
  cases hm with
  | kept _ _ hp _ | resent _ _ _ _ _ _ _ hp => rw [hp,hepoch]
  | voted _ _ _ _ _ _ hc hp _ => rw [hp,hc.data_epoch,hepoch]
  | timedOut _ _ _ _ _ hp _ => rw [hp,← hepoch]
  | entered proof es _ hnames hlt hp _ =>
    have hes := hin proof es rfl hnames
    omega

theorem NodeInvariant.called (h : NodeInvariant V epoch net call.1)
    (hin : ∀ proof es, call.2.request = some (.epochChange proof) → SafetyRules.Names proof es →
      es = ⟨epoch,V⟩) : NodeInvariant V epoch (net.step c call) call.1 := by
  have hnode : (net.step c call).nodes call.1 =
      (SafetyRules.step c (net.nodes call.1) call.2).2 := step_nodes_self call
  obtain ⟨-,hes,hm⟩ := SafetyRules.step_moved (c := c) h.invariant.coherent call.2
  have hinv := SafetyRules.step_invariant (c := c) h.invariant call.2
  have hepoch := moved_epoch h.ofEpoch
    (fun proof es hr hn => congrArg EpochState.epoch (hin proof es hr hn)) hm
  have hext := hm.extends
  have heq := hepoch.trans h.ofEpoch.symm
  have hlvr := hext.lastVotedRound heq
  have hone := hext.oneChainRound heq
  -- what a vote or a timeout that is returned now says about the store
  have hnewVote : ∀ v, (SafetyRules.step c (net.nodes call.1) call.2).1 = some (.vote v) →
      (SafetyRules.step c (net.nodes call.1) call.2).2.persisted.lastVote = some v := by
    intro v hv
    rw [hv] at hm
    exact hm.vote
  have hnewTimeout : ∀ t signature,
      (SafetyRules.step c (net.nodes call.1) call.2).1 = some (.timeout t signature) →
      (net.nodes call.1).persisted.oneChainRound ≤ t.hqcRound ∧
      (SafetyRules.step c (net.nodes call.1) call.2).2.persisted =
        { (net.nodes call.1).persisted with lastVotedRound := t.round } := by
    intro t signature ht
    rw [ht] at hm
    obtain ⟨⟨tc,es,-,hc⟩,hp⟩ := hm.timeout
    exact ⟨SafetyRules.safeToTimeout_ok hc.safe,hp⟩
  have hvote : ∀ v, (call.1,v) ∈ (net.step c call).votes →
      v.round ≤ ((net.step c call).nodes call.1).persisted.lastVotedRound ∧
      v.voteData.parent.round ≤ ((net.step c call).nodes call.1).persisted.oneChainRound ∧
      ∃ w, ((net.step c call).nodes call.1).persisted.lastVote = some w ∧
        (w = v ∨ v.round < w.round) := by
    intro v hv
    rw [hnode]
    rcases mem_step_votes.mp hv with hold | ⟨-,hnew⟩
    · obtain ⟨hr,hp,w,hw,hcase⟩ := h.vote v hold
      refine ⟨hr.trans hlvr,hp.trans hone,?_⟩
      rcases hext.lastVote heq with hsame | ⟨x,hx,hlt⟩
      · exact ⟨w,hsame.trans hw,hcase⟩
      · exact ⟨x,hx,.inr (hr.trans_lt hlt)⟩
    · have hlast := hnewVote v hnew
      exact ⟨hinv.sound.round v hlast,hinv.sound.oneChain v hlast,v,hlast,.inl rfl⟩
  have htimeout : ∀ t, (call.1,t) ∈ (net.step c call).timeouts →
      t.round ≤ ((net.step c call).nodes call.1).persisted.lastVotedRound ∧
      ∀ w, ((net.step c call).nodes call.1).persisted.lastVote = some w → w.round ≤ t.round →
        w.voteData.parent.round ≤ t.hqcRound := by
    intro t ht
    rw [hnode]
    rcases mem_step_timeouts.mp ht with hold | ⟨-,signature,hnew⟩
    · obtain ⟨hr,hlock⟩ := h.timeout t hold
      refine ⟨hr.trans hlvr,fun w hw hwr => ?_⟩
      rcases hext.lastVote heq with hsame | ⟨x,hx,hlt⟩
      · exact hlock w (hsame.symm.trans hw) hwr
      · cases hx.symm.trans hw
        omega
    · obtain ⟨hle,hp⟩ := hnewTimeout t signature hnew
      rw [hp]
      exact ⟨le_rfl,fun w hw _ => (h.invariant.sound.oneChain w hw).trans hle⟩
  constructor
  case invariant => rw [hnode]; exact hinv
  case ofEpoch => rw [hnode]; exact hepoch
  case epochState =>
    rw [hnode]
    intro es hes'
    rcases hes with hsame | hnone | ⟨proof,es',hr,hn,hsome⟩
    · exact h.epochState es (hsame.symm.trans hes')
    · exact absurd (hes'.symm.trans hnone) (some_ne_none es)
    · cases hsome.symm.trans hes'
      exact hin proof _ hr hn
  case vote => exact hvote
  case timeout => exact htimeout
  case unique =>
    intro v w hv hw hround
    have hlast : ∀ v w, (call.1,v) ∈ (net.step c call).votes → v.round = w.round →
        (SafetyRules.step c (net.nodes call.1) call.2).1 = some (.vote w) → v = w := by
      intro v w hv hround hw
      obtain ⟨-,-,x,hx,hcase⟩ := hvote v hv
      rw [hnode,hnewVote w hw] at hx
      cases hx
      rcases hcase with hcase | hcase
      · exact hcase.symm
      · omega
    rcases mem_step_votes.mp hw with hwold | ⟨-,hwnew⟩
    · rcases mem_step_votes.mp hv with hvold | ⟨-,hvnew⟩
      · exact h.unique v w hvold hwold hround
      · exact (hlast w v hw hround.symm hvnew).symm
    · exact hlast v w hv hround hwnew
  case lock =>
    intro v t hv ht hround
    rcases mem_step_votes.mp hv with hvold | ⟨-,hvnew⟩
    · rcases mem_step_timeouts.mp ht with htold | ⟨-,signature,htnew⟩
      · exact h.lock v t hvold htold hround
      · exact (h.vote v hvold).2.1.trans (hnewTimeout t signature htnew).1
    · refine (htimeout t ht).2 v ?_ hround
      rw [hnode]
      exact hnewVote v hvnew

theorem mem_requests (h : call ∈ calls) (hr : call.2.request = some r) : r ∈ requests calls :=
  mem_flatMap.mpr ⟨call,h,by rw [hr]; exact mem_singleton_self r⟩

theorem requests_subset (h : calls ⊆ more) : requests calls ⊆ requests more := by
  intro r hr
  obtain ⟨call,hcall,hr⟩ := mem_flatMap.mp hr
  exact mem_flatMap.mpr ⟨call,h hcall,hr⟩

theorem step_invariant (hV : V.Distinct) (h : Invariant c V faulty genesis epoch net calls)
    (hall : calls ++ [call] ⊆ all) (hcoll : CollisionFree c all)
    (hgen : SingleGenesis genesis all) (hin : InEpoch epoch V all)
    (hauth : ∀ r ∈ call.2.request, net.Authentic c V faulty r) :
    Invariant c V faulty genesis epoch (net.step c call) (calls ++ [call]) := by
  have hself : call ∈ calls ++ [call] := mem_append_right _ (mem_singleton_self call)
  have hfront := requests_subset (subset_append_left calls [call])
  have hmono : ∀ {v}, Backed c V faulty genesis net calls v →
      Backed c V faulty genesis (net.step c call) (calls ++ [call]) v :=
    fun hv => hv.mono (step_grows call) hfront
  have hnode : ∀ a, a ∉ faulty → NodeInvariant V epoch (net.step c call) a := by
    intro a ha
    by_cases hne : a = call.1
    · subst hne
      refine (h.node _ ha).called fun proof es hr hn => ?_
      exact hin _ (mem_requests (hall hself) hr) proof rfl es hn
    · exact (h.node a ha).other hne
  have hlast : ∀ a v, a ∉ faulty → ((net.step c call).nodes a).persisted.lastVote = some v →
      Backed c V faulty genesis (net.step c call) (calls ++ [call]) v := by
    intro a v ha hv
    by_cases hne : a = call.1
    · subst hne
      rw [step_nodes_self] at hv
      obtain ⟨-,-,hm⟩ := SafetyRules.step_moved (c := c) (h.node _ ha).invariant.coherent call.2
      generalize hr : call.2.request = request at hm
      generalize (SafetyRules.step c (net.nodes call.1) call.2).1 = reply at hm
      cases hm with
      | kept _ _ hp _ | resent _ _ _ _ _ _ _ hp =>
        exact hmono (h.lastVote _ v ha (by rw [← hp]; exact hv))
      | voted now p tc w d _ hc hp _ =>
        rw [hp,hc.lastVote] at hv
        cases hv
        refine Backed.mono (step_grows call) (List.Subset.refl _) ?_
        exact constructed_backed hV h (List.Subset.trans hfront (requests_subset hall)) hcoll hgen ha
          (mem_requests (hall hself) hr) (mem_requests hself hr) (hauth _ hr) hc
      | timedOut _ _ _ _ _ hp _ =>
        rw [hp] at hv
        exact hmono (h.lastVote _ v ha hv)
      | entered _ _ _ _ _ hp _ =>
        rw [hp] at hv
        exact absurd hv.symm (some_ne_none v)
    · rw [step_nodes_of_ne call hne] at hv
      exact hmono (h.lastVote a v ha hv)
  refine ⟨hnode,fun a v ha hv => ?_,hlast⟩
  rcases mem_step_votes.mp hv with hold | ⟨rfl,hnew⟩
  · exact hmono (h.backed a v ha hold)
  · -- a vote that is returned is the last one in the store
    obtain ⟨-,-,hm⟩ := SafetyRules.step_moved (c := c) (h.node _ ha).invariant.coherent call.2
    rw [hnew] at hm
    refine hlast _ v ha ?_
    rw [step_nodes_self]
    exact hm.vote

theorem exec_invariant (hV : V.Distinct) (hcoll : CollisionFree c all)
    (hgen : SingleGenesis genesis all) (hin : InEpoch epoch V all)
    (h : Invariant c V faulty genesis epoch net calls) (hall : calls ++ more ⊆ all)
    (hauth : net.Unforgeable c V faulty more) :
    Invariant c V faulty genesis epoch (net.exec c more) (calls ++ more) := by
  induction more generalizing net calls with
  | nil =>
    rw [append_nil]
    exact h
  | cons call more ih =>
    obtain ⟨hnow,hlater⟩ := hauth
    rw [append_cons] at hall ⊢
    have hfront := List.Subset.trans (subset_append_left _ _) hall
    exact ih (step_invariant hV h hfront hcoll hgen hin hnow) hall hlater

theorem start_invariant {nodes : AccountAddress → SafetyRules}
    (h : ∀ a, a ∉ faulty → Fresh epoch V (nodes a)) :
    Invariant c V faulty genesis epoch (start nodes) [] := by
  constructor
  case node =>
    intro a ha
    have hfresh := h a ha
    have hsound : (nodes a).persisted.Sound := by
      rw [hfresh.persisted]
      exact SafetyData.new_sound epoch
    exact ⟨⟨hfresh.coherent,hsound⟩,congrArg SafetyData.epoch hfresh.persisted,hfresh.epochState,
      fun _ hv => absurd hv not_mem_nil,fun _ ht => absurd ht not_mem_nil,
      fun _ _ hv => absurd hv not_mem_nil,fun _ _ hv => absurd hv not_mem_nil⟩
  case backed => exact fun _ _ _ hv => absurd hv not_mem_nil
  case lastVote =>
    intro a v ha hv
    have hnone : (nodes a).persisted.lastVote = none := by rw [(h a ha).persisted]; rfl
    exact absurd (hv.symm.trans hnone) (some_ne_none v)

section

variable (h : Invariant c V faulty genesis epoch net calls)

include h

section

variable (hmeet : ∀ A B, V.IsQuorum A → V.IsQuorum B → ∃ a ∈ A, a ∈ B ∧ a ∉ faulty)

include hmeet

theorem Invariant.valid : (net.protocol V faulty genesis).Valid := by
  constructor
  case meet =>
    rintro _ _ ⟨A,hA,rfl⟩ ⟨B,hB,rfl⟩
    exact hmeet A B hA hB
  case unique =>
    rintro a _ _ ha ⟨v,hv,rfl⟩ ⟨w,hw,rfl⟩ hround
    rw [(h.node a ha).unique v w hv hw hround]
  case parent_lt =>
    rintro a _ ha ⟨v,hv,rfl⟩
    exact (h.backed a v ha hv).parent_lt
  case parent_certified =>
    rintro a _ ha ⟨v,hv,rfl⟩
    exact (h.backed a v ha hv).certified
  case rule =>
    rintro a _ ha ⟨v,hv,rfl⟩
    exact (h.backed a v ha hv).rule
  case lock =>
    rintro a _ _ _ ha ⟨v,hv,rfl⟩ ⟨t,ht,rfl,rfl⟩ hround
    exact (h.node a ha).lock v t hv ht hround

/-- The honest signers of a ledger info have voted for one vote data, and what the ledger info
commits is the parent in it. -/
theorem Invariant.quorumVoted (hcoll : CollisionFree c calls) {li : LedgerInfo} (hli : net.QuorumSigned V faulty li)
    (hne : li.commitInfo ≠ .empty) : ∃ d, (net.protocol V faulty genesis).QuorumVoted d ∧
      d.proposed.round = d.parent.round + 1 ∧ d.parent = li.commitInfo := by
  obtain ⟨A,hA,hsigned⟩ := hli
  obtain ⟨a,haA,-,ha⟩ := hmeet A A hA hA
  obtain ⟨⟨_,v⟩,hv,rfl,rfl⟩ := hsigned a haA ha
  have hbacked := h.backed _ v ha hv
  obtain ⟨hparent,hround⟩ := hbacked.commit hne
  refine ⟨v.voteData,⟨A,⟨A,hA,rfl⟩,fun b hb hhonest => ?_⟩,hround,hparent.symm⟩
  obtain ⟨⟨_,w⟩,hw,rfl,hli⟩ := hsigned b hb hhonest
  have hbacked' := h.backed _ w hhonest hw
  obtain ⟨r,hr,hd⟩ := hbacked.voteData
  obtain ⟨r',hr',hd'⟩ := hbacked'.voteData
  exact ⟨w,hw,hcoll r' hr' r hr _ hd' _ hd (by rw [← hbacked'.hash,← hbacked.hash,hli])⟩

end

/-- What voters extend is extended by a block of the calls. -/
theorem Invariant.ancestorIn {i j : HashValue}
    (hij : (net.protocol V faulty genesis).Ancestor i j) : AncestorIn c calls i j := by
  refine Relation.ReflTransGen.mono (fun _ _ => ?_) _ _ hij
  rintro ⟨a,_,ha,⟨v,hv,rfl⟩,rfl,rfl⟩
  exact (h.backed a v ha hv).block

end

section

variable {infos : List ValidatorConsensusInfo} {nodes : AccountAddress → SafetyRules}
  (h : Admissible c infos epoch faulty nodes calls)

include h

theorem admissible_invariant (hgen : SingleGenesis genesis calls) :
    Invariant c (.new infos) faulty genesis epoch ((start nodes).exec c calls) calls :=
  exec_invariant h.distinct h.collisionFree hgen h.inEpoch (start_invariant h.fresh)
    (List.Subset.refl _) h.unforgeable

theorem admissible_meet (A B : Finset AccountAddress) (hA : (new infos).IsQuorum A)
    (hB : (new infos).IsQuorum B) : ∃ a ∈ A, a ∈ B ∧ a ∉ faulty :=
  isQuorum_meet h.nonempty h.distinct hA hB h.power

end

/-- Any two blocks that ledger infos signed by a quorum commit lie on one branch. -/
theorem committed_on_one_branch {infos : List ValidatorConsensusInfo}
    {nodes : AccountAddress → SafetyRules} {li li' : LedgerInfo}
    (h : Admissible c infos epoch faulty nodes calls) (hgen : SingleGenesis genesis calls)
    (hli : ((start nodes).exec c calls).QuorumSigned (.new infos) faulty li)
    (hli' : ((start nodes).exec c calls).QuorumSigned (.new infos) faulty li')
    (hne : li.commitInfo ≠ .empty) (hne' : li'.commitInfo ≠ .empty) :
    AncestorIn c calls li.commitInfo.id li'.commitInfo.id ∨
      AncestorIn c calls li'.commitInfo.id li.commitInfo.id := by
  have hinv := admissible_invariant h hgen
  obtain ⟨d,hd,hround,hid⟩ := hinv.quorumVoted (admissible_meet h) h.collisionFree hli hne
  obtain ⟨d',hd',hround',hid'⟩ := hinv.quorumVoted (admissible_meet h) h.collisionFree hli' hne'
  rw [← hid,← hid']
  exact ((hinv.valid (admissible_meet h)).agreement hd hd' hround hround').imp hinv.ancestorIn hinv.ancestorIn

/-- A block that is certified in the round of a committed block or later descends from it. -/
theorem certified_descends_committed {infos : List ValidatorConsensusInfo}
    {nodes : AccountAddress → SafetyRules} {l : LedgerInfo} {i : HashValue} {r : ℕ}
    (h : Admissible c infos epoch faulty nodes calls) (hgen : SingleGenesis genesis calls)
    (hli : ((start nodes).exec c calls).QuorumSigned (.new infos) faulty l)
    (hne : l.commitInfo ≠ .empty) (hr : l.commitInfo.round ≤ r)
    (hi : (((start nodes).exec c calls).protocol (.new infos) faulty genesis).Certified i r) :
    AncestorIn c calls l.commitInfo.id i := by
  have hinv := admissible_invariant h hgen
  obtain ⟨d,hd,hnext,hparent⟩ := hinv.quorumVoted (admissible_meet h) h.collisionFree hli hne
  rw [← hparent] at hr ⊢
  exact hinv.ancestorIn ((hinv.valid (admissible_meet h)).certified_descends hd hnext hi hr)

open SafetyRules in
theorem solo_admissible {calls : List Call}
    (hproofs : ∀ proof, .epochChange proof ∈ requests calls → proof = soloProof 1)
    (hun : (start fun _ => .start 1 1 ⟨0,1⟩ true []).Unforgeable numeric solo ∅ calls)
    (hcoll : CollisionFree numeric calls) :
    Admissible numeric [⟨1,1,1⟩] 1 ∅ (fun _ => .start 1 1 ⟨0,1⟩ true []) calls := by
  constructor
  case nonempty => exact cons_ne_nil _ _
  case distinct => decide
  case power => exact Nat.zero_le _
  case fresh => exact fun _ _ => ⟨SafetyRules.start_invariant.coherent,rfl,
    fun es hes => absurd hes.symm (some_ne_none es)⟩
  case inEpoch =>
    rintro _ hr proof rfl es ⟨last,hlast,hes⟩
    obtain rfl := hproofs proof hr
    cases hlast
    exact (some.inj hes).symm
  case unforgeable => exact hun
  case collisionFree => exact hcoll

theorem solo_quorumSigned {net : Network} {li : LedgerInfo} (h : net.SignedLedgerInfo 1 li) :
    net.QuorumSigned SafetyRules.solo ∅ li := by
  refine ⟨{1},⟨by decide,by decide⟩,fun a ha _ => ?_⟩
  rw [Finset.mem_singleton.mp ha]
  exact h

section Runs
open SafetyRules

def chainCalls : List Call :=
  [(1,.call (.epochChange (soloProof 1))),(1,.call voteOne),
    (1,.call (.vote 0 (nilProposal 1 2 certOne) none))]

theorem chain_admissible :
    Admissible numeric [⟨1,1,1⟩] 1 ∅ (fun _ => .start 1 1 ⟨0,1⟩ true []) chainCalls := by
  refine solo_admissible (fun proof h => ?_) (by decide) (by unfold CollisionFree; decide)
  simpa [requests,chainCalls,Event.request,voteOne] using h

theorem chain_genesis : SingleGenesis 5 chainCalls := by
  unfold SingleGenesis
  decide

/-- The ledger info of the vote for the block of round 2 commits the block of round 1. -/
theorem committed_on_one_branch_chain :
    let li : LedgerInfo := ⟨⟨1,0,5,0,0,0,none⟩,5513⟩
    let li' : LedgerInfo := ⟨⟨1,1,512,0,0,0,none⟩,563223⟩
    Admissible numeric [⟨1,1,1⟩] 1 ∅ (fun _ => .start 1 1 ⟨0,1⟩ true []) chainCalls ∧
      (AncestorIn numeric chainCalls li.commitInfo.id li'.commitInfo.id ∨
        AncestorIn numeric chainCalls li'.commitInfo.id li.commitInfo.id) := by
  intro li li'
  exact ⟨chain_admissible,committed_on_one_branch chain_admissible chain_genesis
    (solo_quorumSigned (by decide)) (solo_quorumSigned (by decide)) (by decide) (by decide)⟩

theorem certified_descends_committed_chain : AncestorIn numeric chainCalls 512 51222 := by
  refine certified_descends_committed (l := ⟨⟨1,1,512,0,0,0,none⟩,563223⟩) (r := 2)
    chain_admissible chain_genesis (solo_quorumSigned (by decide)) (by decide) (by decide) (.inr
      ⟨⟨⟨1,2,51222,0,0,0,none⟩,⟨1,1,512,0,0,0,none⟩⟩,⟨_,⟨{1},⟨by decide,by decide⟩,rfl⟩,?_⟩,rfl,
        rfl⟩)
  intro a ha _
  rw [Finset.mem_singleton.mp ha]
  exact ⟨_,.tail _ (.head _),rfl⟩

def certTwo : QuorumCert :=
  ⟨⟨⟨1,2,622,0,0,0,none⟩,⟨1,0,6,0,0,0,none⟩⟩,⟨⟨.empty,6623⟩,soloSignature 6623001⟩⟩

/-- The validator votes for a block of round 1 on the genesis block 5, gives the round up, and votes
for a block of round 2 on another genesis block and for one of round 3 on that. -/
def forkCalls : List Call :=
  [(1,.call (.epochChange (soloProof 1))),(1,.call voteOne),(1,.call timeoutOne),
    (1,.call (.vote 0 (nilProposal 1 2 (genesisCert 1 6)) (some (timeoutCertOne 1)))),
    (1,.call (.vote 0 (nilProposal 1 3 certTwo) none))]

/-- No descent leads out of a set that contains the children of its members. -/
theorem ancestorIn_mem {calls : List Call} {S : Finset HashValue}
    (hS : ∀ r ∈ requests calls, ∀ b ∈ r.blocks, b.parentId ∈ S → c.hashBlockData b ∈ S)
    {i j : HashValue} (hij : AncestorIn c calls i j) (hi : i ∈ S) : j ∈ S := by
  induction hij with
  | refl => exact hi
  | tail _ hstep ih =>
    obtain ⟨r,hr,b,hb,rfl,rfl⟩ := hstep
    exact hS r hr b hb ih

/-- A certificate of round zero needs no signature, so that two genesis blocks have descendants that
are committed. -/
theorem committed_on_two_branches :
    let net := (start fun _ => .start 1 1 ⟨0,1⟩ true []).exec numeric forkCalls
    let li : LedgerInfo := ⟨⟨1,0,5,0,0,0,none⟩,5513⟩
    let li' : LedgerInfo := ⟨⟨1,2,622,0,0,0,none⟩,684233⟩
    Admissible numeric [⟨1,1,1⟩] 1 ∅ (fun _ => .start 1 1 ⟨0,1⟩ true []) forkCalls ∧
      net.QuorumSigned (.new [⟨1,1,1⟩]) ∅ li ∧ net.QuorumSigned (.new [⟨1,1,1⟩]) ∅ li' ∧
      li.commitInfo ≠ .empty ∧ li'.commitInfo ≠ .empty ∧
      ¬ AncestorIn numeric forkCalls li.commitInfo.id li'.commitInfo.id ∧
      ¬ AncestorIn numeric forkCalls li'.commitInfo.id li.commitInfo.id := by
  intro net li li'
  refine ⟨?_,solo_quorumSigned (by decide),solo_quorumSigned (by decide),by decide,by decide,?_,?_⟩
  · refine solo_admissible (fun proof h => ?_) (by decide) (by unfold CollisionFree; decide)
    simpa [requests,forkCalls,Event.request,voteOne,timeoutOne] using h
  · intro h
    exact absurd (ancestorIn_mem (S := {5,512}) (by decide) h (by decide)) (by decide)
  · intro h
    exact absurd (ancestorIn_mem (S := {622,62232}) (by decide) h (by decide)) (by decide)

end Runs

end Network

end Arx.Consensus
