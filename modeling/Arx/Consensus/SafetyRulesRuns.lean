import Arx.Consensus.SafetyRulesSteps

/-!
# Runs of the safety rules

Any access to the store may fail, and the process may stop at any point and start again from the
store.
-/

namespace Arx.Consensus
open Movelib Arx.Types Option

inductive Request
  | epochChange (proof : EpochChangeProof)
  | proposal (block : BlockData)
  | vote (now : ℕ) (p : VoteProposal) (tc : Option TwoChainTimeoutCertificate)
  | timeout (timeout : TwoChainTimeout) (tc : Option TwoChainTimeoutCertificate)

inductive Reply
  | done
  | proposal (signature : Signature)
  | vote (v : Vote)
  | timeout (timeout : TwoChainTimeout) (signature : Signature)
  | error (e : Error)
  deriving DecidableEq

def Reply.signs : Reply → Option (ℕ × ℕ)
  | vote v => some (v.epoch,v.round)
  | timeout t _ => some (t.epoch,t.round)
  | _ => none

def Reply.getVote : Reply → Option Vote
  | vote v => some v
  | _ => none

theorem Reply.getVote_eq {reply : Option Reply} {v : Vote} :
    reply.bind Reply.getVote = some v ↔ reply = some (.vote v) := by
  rcases reply with _ | reply
  · exact ⟨nofun,nofun⟩
  · cases reply with
    | vote w => simp [Reply.getVote]
    | _ => exact ⟨nofun,nofun⟩

/-- What happens to a process. A crash is a request during which the process stops: a write that was
not reached is one that fails. -/
inductive Event
  | call (r : Request)
  | crash (r : Request) (enableCached : Bool)
  | restart (enableCached : Bool)

def Event.request : Event → Option Request
  | call r => some r
  | crash r _ => some r
  | restart _ => none

namespace SafetyRules
open Effect

variable (c : Crypto)

def handle : Request → Rules Reply
  | .epochChange proof => do
    guardedInitialize c proof
    pure .done
  | .proposal block => do
    let signature ← guardedSignProposal c block
    pure (.proposal signature)
  | .vote now p tc => do
    let v ← guardedConstructAndSignVoteTwoChain c now p tc
    pure (.vote v)
  | .timeout timeout tc => do
    let signature ← guardedSignTimeoutWithQc c timeout tc
    pure (.timeout timeout signature)

def toReply : Except Error Reply → Reply
  | .ok reply => reply
  | .error e => .error e

def respond (s : SafetyRules) (r : Request) : Reply × SafetyRules :=
  (toReply (outcome (handle c r) s).1,(outcome (handle c r) s).2)

def reload (s : SafetyRules) (enableCached : Bool) : SafetyRules :=
  { new (.new s.persistentStorage.internalStore enableCached) with accesses := s.accesses }

def step (s : SafetyRules) : Event → Option Reply × SafetyRules
  | .call r => (some (s.respond c r).1,(s.respond c r).2)
  | .crash r enableCached => (none,(s.respond c r).2.reload enableCached)
  | .restart enableCached => (none,s.reload enableCached)

def after (s : SafetyRules) : List Event → SafetyRules
  | [] => s
  | e :: es => after (step c s e).2 es

def replies (s : SafetyRules) : List Event → List (Option Reply)
  | [] => []
  | e :: es => (step c s e).1 :: replies (step c s e).2 es

/-- A process whose store had no values before; `accesses` is what becomes of its accesses. -/
def start (author : Author) (key : PrivateKey) (waypoint : Waypoint) (enableCached : Bool)
    (accesses : List Access) : SafetyRules :=
  { new (.initializeStore author key waypoint enableCached) with accesses := accesses }

end SafetyRules

namespace SafetyData

structure Extends (d d' : SafetyData) : Prop where
  epoch : d.epoch ≤ d'.epoch
  lastVotedRound : d'.epoch = d.epoch → d.lastVotedRound ≤ d'.lastVotedRound
  preferredRound : d'.epoch = d.epoch → d.preferredRound ≤ d'.preferredRound
  oneChainRound : d'.epoch = d.epoch → d.oneChainRound ≤ d'.oneChainRound
  lastVote : d'.epoch = d.epoch → d'.lastVote = d.lastVote ∨
    ∃ v, d'.lastVote = some v ∧ d.lastVotedRound < v.round

/-- The last vote is of the epoch, for a round not above the last voted one, and the one-chain round
has reached the round of its parent. -/
structure Sound (d : SafetyData) : Prop where
  epoch : ∀ v, d.lastVote = some v → v.epoch = d.epoch
  round : ∀ v, d.lastVote = some v → v.round ≤ d.lastVotedRound
  oneChain : ∀ v, d.lastVote = some v → v.voteData.parent.round ≤ d.oneChainRound

variable {d d' d'' : SafetyData}

theorem Extends.refl (d : SafetyData) : Extends d d :=
  ⟨le_rfl,fun _ => le_rfl,fun _ => le_rfl,fun _ => le_rfl,fun _ => .inl rfl⟩

theorem Extends.trans (h : Extends d d') (h' : Extends d' d'') : Extends d d'' := by
  have heq : d''.epoch = d.epoch → d''.epoch = d'.epoch ∧ d'.epoch = d.epoch := by
    intro he
    have h1 := h.epoch
    have h2 := h'.epoch
    omega
  constructor
  case epoch => exact h.epoch.trans h'.epoch
  all_goals
    intro he
    obtain ⟨he',he⟩ := heq he
  case lastVotedRound => exact (h.lastVotedRound he).trans (h'.lastVotedRound he')
  case preferredRound => exact (h.preferredRound he).trans (h'.preferredRound he')
  case oneChainRound => exact (h.oneChainRound he).trans (h'.oneChainRound he')
  case lastVote =>
    rcases h'.lastVote he' with hl | ⟨v,hv,hlt⟩
    · rw [hl]
      exact h.lastVote he
    · exact .inr ⟨v,hv,(h.lastVotedRound he).trans_lt hlt⟩

theorem new_sound (epoch : ℕ) : Sound (new epoch) := ⟨nofun,nofun,nofun⟩

theorem extends_new {epoch : ℕ} (h : d.epoch < epoch) : Extends d (new epoch) := by
  have hne := Nat.ne_of_gt h
  exact ⟨h.le,(absurd · hne),(absurd · hne),(absurd · hne),(absurd · hne)⟩

theorem extends_timeout {round : ℕ} (h : d.lastVotedRound ≤ round) :
    Extends d { d with lastVotedRound := round } :=
  ⟨le_rfl,fun _ => h,fun _ => le_rfl,fun _ => le_rfl,fun _ => .inl rfl⟩

theorem Sound.timeout {round : ℕ} (hd : d.Sound) (h : d.lastVotedRound ≤ round) :
    Sound { d with lastVotedRound := round } :=
  ⟨hd.epoch,fun v hv => (hd.round v hv).trans h,hd.oneChain⟩

end SafetyData

namespace SafetyRules
open Effect SafetyData

variable {c : Crypto} {now : ℕ} {p : VoteProposal} {tc : Option TwoChainTimeoutCertificate}
  {s t : SafetyRules} {v : Vote} {d : SafetyData} {r : Option Request} {reply : Option Reply}

theorem genVoteData_ok {voteData : VoteData} (h : p.genVoteData c = .ok voteData) :
    voteData.proposed.epoch = p.block.epoch ∧ voteData.proposed.round = p.block.round ∧
      voteData.proposed.id = p.block.id c ∧
      voteData.parent = p.block.quorumCert.certifiedBlock := by
  unfold VoteProposal.genVoteData at h
  split at h
  · cases h
    exact ⟨rfl,rfl,rfl,rfl⟩
  · obtain ⟨-,-,⟨⟩⟩ := bind_eq_ok.mp h
    exact ⟨rfl,rfl,rfl,rfl⟩

namespace Constructed

section

variable (h : Constructed c now p tc s v d)

include h

theorem epoch : v.epoch = s.persisted.epoch := by
  obtain ⟨es,hes⟩ := h.checked
  exact (genVoteData_ok hes.voteData).1.trans hes.epoch

theorem vote_round : v.round = p.block.round := by
  obtain ⟨es,hes⟩ := h.checked
  exact (genVoteData_ok hes.voteData).2.1

theorem parent : v.voteData.parent = p.block.quorumCert.certifiedBlock := by
  obtain ⟨es,hes⟩ := h.checked
  exact (genVoteData_ok hes.voteData).2.2.2

theorem lastVote : d.lastVote = some v := by
  rw [h.data]

theorem data_epoch : d.epoch = s.persisted.epoch := by
  rw [h.data]
  rfl

theorem sound : d.Sound := by
  have hlast : ∀ w, d.lastVote = some w → w = v := fun w hw => some.inj (hw.symm.trans h.lastVote)
  refine ⟨fun w hw => ?_,fun w hw => ?_,fun w hw => ?_⟩
  · rw [hlast w hw]
    exact h.epoch.trans h.data_epoch.symm
  · rw [hlast w hw,h.data,h.vote_round]
    exact le_rfl
  · rw [hlast w hw,h.data,h.parent]
    exact le_max_right _ _

theorem extends_data : Extends s.persisted d := by
  refine ⟨h.data_epoch.ge,fun _ => ?_,fun _ => ?_,fun _ => ?_,fun _ => ?_⟩
  · rw [h.data]
    exact h.round.le
  · rw [h.data]
    exact le_max_left _ _
  · rw [h.data]
    exact le_max_left _ _
  · exact .inr ⟨v,h.lastVote,h.vote_round ▸ h.round⟩

end

end Constructed

structure Invariant (s : SafetyRules) : Prop where
  coherent : s.Coherent
  sound : s.persisted.Sound

def signed (reply : Option Reply) : Option (ℕ × ℕ) := reply.bind Reply.signs

/-- What an event can do to the safety data, and what it can return with it. A vote or a timeout
whose round is persisted need not be returned. -/
inductive Moved (c : Crypto) (s t : SafetyRules) : Option Request → Option Reply → Prop
  | kept (r : Option Request) (reply : Option Reply) (hp : t.persisted = s.persisted)
      (hreply : signed reply = none) : Moved c s t r reply
  | resent (now : ℕ) (p : VoteProposal) (tc : Option TwoChainTimeoutCertificate) (v : Vote)
      (hlast : s.persisted.lastVote = some v) (hround : v.round = p.block.round)
      (hepoch : p.block.epoch = s.persisted.epoch) (hp : t.persisted = s.persisted) :
      Moved c s t (some (.vote now p tc)) (some (.vote v))
  | voted (now : ℕ) (p : VoteProposal) (tc : Option TwoChainTimeoutCertificate) (v : Vote)
      (d : SafetyData) (reply : Option Reply) (hc : Constructed c now p tc s v d)
      (hp : t.persisted = d) (hreply : reply = some (.vote v) ∨ signed reply = none) :
      Moved c s t (some (.vote now p tc)) reply
  | timedOut (timeout : TwoChainTimeout) (tc : Option TwoChainTimeoutCertificate) (es : EpochState)
      (reply : Option Reply) (hc : TimeoutChecked c timeout tc s es)
      (hp : t.persisted = { s.persisted with lastVotedRound := timeout.round })
      (hreply : (∃ signature, reply = some (.timeout timeout signature)) ∨ signed reply = none) :
      Moved c s t (some (.timeout timeout tc)) reply
  | entered (proof : EpochChangeProof) (es : EpochState) (reply : Option Reply)
      (hnames : Names proof es) (hlt : s.persisted.epoch < es.epoch)
      (hp : t.persisted = .new es.epoch) (hreply : signed reply = none) :
      Moved c s t (some (.epochChange proof)) reply

/-- The epoch state after an event is the one before, none, or one that a proof leads to. -/
def EpochStateOf (s t : SafetyRules) (r : Option Request) : Prop :=
  t.epochState = s.epochState ∨ t.epochState = none ∨
    ∃ proof es, r = some (.epochChange proof) ∧ Names proof es ∧ t.epochState = some es

theorem handle_moved {r : Request} (h : s.Coherent) :
    Ends (handle c r) s
      (fun reply t => t.Coherent ∧ EpochStateOf s t (some r) ∧ Moved c s t (some r) (some reply))
      (fun t => t.Coherent ∧ EpochStateOf s t (some r) ∧
        ∀ reply, signed reply = none → Moved c s t (some r) reply) := by
  cases r with
  | epochChange proof =>
    have hmoved : ∀ t, Entered proof s t → t.Coherent ∧
        EpochStateOf s t (some (.epochChange proof)) ∧
        ∀ reply, signed reply = none → Moved c s t (some (.epochChange proof)) reply := by
      intro t ht
      refine ⟨ht.coherent,ht.epochState.imp_right fun hes => ?_,fun reply hreply => ?_⟩
      · obtain ⟨es,hes⟩ := hes
        exact .inr ⟨proof,es,rfl,hes⟩
      · rcases ht.persisted with hp | ⟨es,hnames,hlt,hp⟩
        · exact .kept _ _ hp hreply
        · exact .entered proof es reply hnames hlt hp hreply
    refine ((initialize_ends h).mono (fun _ t ht => ht) hmoved).bind fun _ t ht => .pure ?_
    obtain ⟨hc,he,hm⟩ := hmoved t ht
    exact ⟨hc,he,hm _ rfl⟩
  | proposal block =>
    refine ((proposal_ends h).mono (fun _ t ht => ht) fun t ht => ?_).bind
      fun signature t ht => .pure ?_
    · exact ⟨ht.coherent,.inl ht.epochState,fun reply hreply => .kept _ _ ht.persisted hreply⟩
    · exact ⟨ht.coherent,.inl ht.epochState,.kept _ _ ht.persisted rfl⟩
  | vote now p tc =>
    refine ((vote_ends h).mono (fun _ t ht => ht) fun t ht => ?_).bind fun v t ht => .pure ?_
    · rcases ht with ht | ⟨v,d,hc,ht⟩
      · exact ⟨ht.coherent,.inl ht.epochState,fun reply hreply => .kept _ _ ht.persisted hreply⟩
      · exact ⟨ht.coherent,.inl ht.epochState,
          fun reply hreply => .voted now p tc v d reply hc ht.persisted (.inr hreply)⟩
    · rcases ht with ⟨hlast,hround,hepoch,ht⟩ | ⟨d,hc,ht⟩
      · exact ⟨ht.coherent,.inl ht.epochState,.resent now p tc v hlast hround hepoch ht.persisted⟩
      · exact ⟨ht.coherent,.inl ht.epochState,.voted now p tc v d _ hc ht.persisted (.inl rfl)⟩
  | timeout timeout tc =>
    refine ((timeout_ends h).mono (fun _ t ht => ht) fun t ht => ?_).bind
      fun signature t ht => .pure ?_
    · rcases ht with ht | ⟨⟨es,hc⟩,ht⟩
      · exact ⟨ht.coherent,.inl ht.epochState,fun reply hreply => .kept _ _ ht.persisted hreply⟩
      · exact ⟨ht.coherent,.inl ht.epochState,
          fun reply hreply => .timedOut timeout tc es reply hc ht.persisted (.inr hreply)⟩
    · obtain ⟨⟨es,hc⟩,ht⟩ := ht
      exact ⟨ht.coherent,.inl ht.epochState,
        .timedOut timeout tc es _ hc ht.persisted (.inl ⟨signature,rfl⟩)⟩

theorem respond_moved (h : s.Coherent) (r : Request) :
    (s.respond c r).2.Coherent ∧ EpochStateOf s (s.respond c r).2 (some r) ∧
      Moved c s (s.respond c r).2 (some r) (some (s.respond c r).1) := by
  have hr := handle_moved (c := c) (r := r) h
  unfold respond
  rcases ho : outcome (handle c r) s with ⟨reply | e,t⟩
  · obtain ⟨hc,he,hm⟩ := hr.error ho
    exact ⟨hc,he,hm _ rfl⟩
  · exact hr.ok ho

theorem Moved.lost (h : Moved c s t r reply) : Moved c s t r none := by
  cases h with
  | kept _ _ hp _ | resent _ _ _ _ _ _ _ hp => exact .kept _ _ hp rfl
  | voted now p tc v d _ hc hp _ => exact .voted now p tc v d _ hc hp (.inr rfl)
  | timedOut timeout tc es _ hc hp _ => exact .timedOut timeout tc es _ hc hp (.inr rfl)
  | entered proof es _ hnames hlt hp _ => exact .entered proof es _ hnames hlt hp rfl

theorem Moved.congr {t' : SafetyRules}
    (hp' : t'.persisted = t.persisted) (h : Moved c s t r reply) : Moved c s t' r reply := by
  cases h with
  | kept _ _ hp hr => exact .kept _ _ (hp'.trans hp) hr
  | resent now p tc v hl hr he hp => exact .resent now p tc v hl hr he (hp'.trans hp)
  | voted now p tc v d _ hc hp hr => exact .voted now p tc v d _ hc (hp'.trans hp) hr
  | timedOut timeout tc es _ hc hp hr => exact .timedOut timeout tc es _ hc (hp'.trans hp) hr
  | entered proof es _ hn hlt hp hr => exact .entered proof es _ hn hlt (hp'.trans hp) hr

theorem reload_coherent (s : SafetyRules) (enableCached : Bool) :
    (s.reload enableCached).Coherent := fun d h => absurd h.symm (some_ne_none d)

theorem step_moved (h : s.Coherent) (e : Event) :
    (step c s e).2.Coherent ∧ EpochStateOf s (step c s e).2 e.request ∧
      Moved c s (step c s e).2 e.request (step c s e).1 := by
  cases e with
  | call r => exact respond_moved h r
  | crash r enableCached =>
    obtain ⟨-,-,hm⟩ := respond_moved (c := c) h r
    exact ⟨reload_coherent _ _,.inr (.inl rfl),Moved.congr (t := (respond c s r).2) rfl hm.lost⟩
  | restart enableCached => exact ⟨reload_coherent _ _,.inr (.inl rfl),.kept _ _ rfl rfl⟩

theorem Moved.extends (h : Moved c s t r reply) : Extends s.persisted t.persisted := by
  cases h with
  | kept _ _ hp _ | resent _ _ _ _ _ _ _ hp => rw [hp]; exact .refl _
  | voted now p tc v d _ hc hp _ => rw [hp]; exact hc.extends_data
  | timedOut timeout tc es _ hc hp _ => rw [hp]; exact extends_timeout hc.round
  | entered proof es _ _ hlt hp _ => rw [hp]; exact extends_new hlt

theorem Moved.sound (h : Moved c s t r reply) (hs : s.persisted.Sound) : t.persisted.Sound := by
  cases h with
  | kept _ _ hp _ | resent _ _ _ _ _ _ _ hp => rw [hp]; exact hs
  | voted now p tc v d _ hc hp _ => rw [hp]; exact hc.sound
  | timedOut timeout tc es _ hc hp _ => rw [hp]; exact hs.timeout hc.round
  | entered proof es _ _ hlt hp _ => rw [hp]; exact new_sound _

theorem Moved.vote (h : Moved c s t r (some (.vote v))) : t.persisted.lastVote = some v := by
  cases h with
  | kept _ _ _ hr | entered _ _ _ _ _ _ hr => cases hr
  | resent _ _ _ _ hlast _ _ hp => rw [hp]; exact hlast
  | voted now p tc w d _ hc hp hr =>
    rcases hr with hr | hr
    · obtain rfl : v = w := by injection hr with hr; injection hr
      rw [hp]
      exact hc.lastVote
    · cases hr
  | timedOut _ _ _ _ _ _ hr =>
    rcases hr with ⟨_,hr⟩ | hr
    · injection hr with hr
      cases hr
    · cases hr

/-- A timeout that is returned has the last voted round, and the one-chain round is not above the
round of its certificate. -/
theorem Moved.timeout {timeout : TwoChainTimeout} {signature : Signature}
    (h : Moved c s t r (some (.timeout timeout signature))) :
    (∃ tc es, r = some (.timeout timeout tc) ∧ TimeoutChecked c timeout tc s es) ∧
      t.persisted = { s.persisted with lastVotedRound := timeout.round } := by
  cases h with
  | kept _ _ _ hr | entered _ _ _ _ _ _ hr => cases hr
  | voted _ _ _ _ _ _ _ _ hr =>
    rcases hr with hr | hr
    · injection hr with hr
      cases hr
    · cases hr
  | timedOut timeout' tc es _ hc hp hr =>
    rcases hr with ⟨_,hr⟩ | hr
    · obtain rfl : timeout = timeout' := by injection hr with hr; injection hr
      exact ⟨⟨tc,es,rfl,hc⟩,hp⟩
    · cases hr

theorem step_invariant (h : s.Invariant) (e : Event) : (step c s e).2.Invariant := by
  obtain ⟨hc,-,hm⟩ := step_moved (c := c) h.coherent e
  exact ⟨hc,hm.sound h.sound⟩

theorem after_invariant (h : s.Invariant) (events : List Event) :
    (after c s events).Invariant := by
  induction events generalizing s with
  | nil => exact h
  | cons e events ih => exact ih (step_invariant h e)

theorem after_extends (h : s.Invariant) (events : List Event) :
    Extends s.persisted (after c s events).persisted := by
  induction events generalizing s with
  | nil => exact .refl _
  | cons e events ih =>
    obtain ⟨-,-,hm⟩ := step_moved (c := c) h.coherent e
    exact hm.extends.trans (ih (step_invariant h e))

theorem start_invariant {author : Author} {key : PrivateKey} {waypoint : Waypoint}
    {enableCached : Bool} {accesses : List Access} :
    (start author key waypoint enableCached accesses).Invariant := by
  refine ⟨?_,new_sound 1⟩
  intro d hd
  exact (some.inj hd).symm

theorem Moved.signs {reply : Reply} {epoch round : ℕ}
    (h : Moved c s t r (some reply)) (hs : s.persisted.Sound)
    (hsigns : reply.signs = some (epoch,round)) :
    epoch = t.persisted.epoch ∧ round ≤ t.persisted.lastVotedRound := by
  cases reply with
  | done | proposal _ | error _ => cases hsigns
  | vote v =>
    cases hsigns
    have ht := h.sound hs
    exact ⟨ht.epoch v h.vote,ht.round v h.vote⟩
  | timeout timeout signature =>
    cases hsigns
    obtain ⟨⟨tc,es,-,hc⟩,hp⟩ := h.timeout
    rw [hp]
    exact ⟨hc.epoch,le_rfl⟩

/-- A vote returned after a signature of its epoch for its round or a later one was in the store
when that signature was returned. -/
theorem vote_was_persisted (h : s.Invariant) (e e' : Event) (middle : List Event)
    {reply : Reply} {round : ℕ} (hreply : (step c s e).1 = some reply)
    (hsigns : reply.signs = some (v.epoch,round)) (hround : v.round ≤ round)
    (hvote : (step c (after c (step c s e).2 middle) e').1 = some (.vote v)) :
    (step c s e).2.persisted.lastVote = some v := by
  obtain ⟨-,-,hm⟩ := step_moved (c := c) h.coherent e
  have ht := step_invariant (c := c) h e
  have hu := after_invariant (c := c) ht middle
  obtain ⟨-,-,hm'⟩ := step_moved (c := c) hu.coherent e'
  rw [hreply] at hm
  rw [hvote] at hm'
  obtain ⟨hepoch,hle⟩ := hm.signs h.sound hsigns
  have hlast := hm'.vote
  -- the store has not left the epoch in between
  have hext := (after_extends (c := c) ht middle).trans hm'.extends
  have heq := ((hm'.sound hu.sound).epoch v hlast).symm.trans hepoch
  rcases hext.lastVote heq with hsame | ⟨w,hw,hlt⟩
  · exact hsame.symm.trans hlast
  · cases hlast.symm.trans hw
    omega

/-- Along any run all votes returned for one epoch and round are the same vote; a vote returned after
a vote or a timeout of its epoch for its round or a later one was the last vote in the store when
that one was returned; the epoch in the store never goes back nor, within an epoch, do the rounds. -/
theorem signatures_consistent (c : Crypto) (author : Author) (key : PrivateKey)
    (waypoint : Waypoint) (enableCached : Bool) (accesses : List Access)
    (front middle : List Event) (e e' : Event) :
    let s := after c (start author key waypoint enableCached accesses) front
    let t := (step c s e).2
    let u := after c t middle
    (∀ v v', (step c s e).1 = some (.vote v) → (step c u e').1 = some (.vote v') →
      v'.epoch = v.epoch → v'.round = v.round → v' = v) ∧
    (∀ reply epoch round v', (step c s e).1 = some reply → reply.signs = some (epoch,round) →
      (step c u e').1 = some (.vote v') → v'.epoch = epoch → v'.round ≤ round →
      t.persisted.lastVote = some v') ∧
    s.persisted.epoch ≤ u.persisted.epoch ∧
    (u.persisted.epoch = s.persisted.epoch →
      s.persisted.lastVotedRound ≤ u.persisted.lastVotedRound ∧
      s.persisted.preferredRound ≤ u.persisted.preferredRound ∧
      s.persisted.oneChainRound ≤ u.persisted.oneChainRound) := by
  intro s t u
  have hs : s.Invariant := after_invariant start_invariant front
  obtain ⟨-,-,hm⟩ := step_moved (c := c) hs.coherent e
  have hext : Extends s.persisted u.persisted :=
    hm.extends.trans (after_extends (step_invariant hs e) middle)
  refine ⟨?_,?_,hext.epoch,fun he => ?_⟩
  · intro v v' hv hv' hepoch hround
    have hlast := vote_was_persisted hs e e' middle hv (by rw [hepoch]; rfl) hround.le hv'
    rw [hv] at hm
    exact some.inj (hlast.symm.trans hm.vote)
  · rintro reply epoch round v' hreply hsigns hv' rfl hround
    exact vote_was_persisted hs e e' middle hreply hsigns hround hv'
  · exact ⟨hext.lastVotedRound he,hext.preferredRound he,hext.oneChainRound he⟩

def numeric : Crypto where
  ledgerInfos := .linear fun li => 1 + li.commitInfo.id + 1000 * li.consensusDataHash
  timeouts := .linear fun t => 1 + t.epoch + 10 * t.round + 100 * t.hqcRound
  blocks := .linear fun b => 1 + b.round
  publicKey := id
  hashVoteData d := 1 + d.proposed.id + 1000 * d.parent.id
  hashBlockData b := 1 + b.epoch + 10 * b.round + 100 * b.parentId
  hashWaypoint w := 1 + w.version
  extendAccumulator _ root := .ok (root,0)
  placeholder := 0

def solo : ValidatorVerifier := .new [⟨1,1,1⟩]

def soloProof (epoch : ℕ) : EpochChangeProof :=
  ⟨[⟨⟨⟨epoch - 1,0,0,0,epoch - 1,0,some ⟨epoch,solo⟩⟩,0⟩,.empty⟩]⟩

def genesisCert (epoch genesis : ℕ) : QuorumCert :=
  let info : BlockInfo := ⟨epoch,0,genesis,0,0,0,none⟩
  ⟨⟨info,info⟩,⟨⟨info,numeric.hashVoteData ⟨info,info⟩⟩,.empty⟩⟩

def nilProposal (epoch round : ℕ) (qc : QuorumCert) : VoteProposal :=
  ⟨[],⟨⟨epoch,round,0,qc,.nilBlock []⟩,none⟩,none,true⟩

/-- The vote for the block of round 1, the timeout of round 1 and the vote once more. -/
def voteOne : Request := .vote 0 (nilProposal 1 1 (genesisCert 1 5)) none

def timeoutOne : Request := .timeout ⟨1,1,genesisCert 1 5⟩ none

/-- The second request for a vote gets the first vote back. -/
theorem signatures_consistent_resent :
    let s := after numeric (start 1 1 ⟨0,1⟩ true []) [.call (.epochChange (soloProof 1))]
    let t := (step numeric s (.call voteOne)).2
    ∃ v, (step numeric s (.call voteOne)).1 = some (.vote v) ∧
      (step numeric t (.call voteOne)).1 = some (.vote v) := by
  intro s t
  obtain ⟨v,hv⟩ : ∃ v, (step numeric s (.call voteOne)).1.bind Reply.getVote = some v :=
    isSome_iff_exists.mp (by decide)
  obtain ⟨v',hv'⟩ : ∃ v, (step numeric t (.call voteOne)).1.bind Reply.getVote = some v :=
    isSome_iff_exists.mp (by decide)
  rw [Reply.getVote_eq] at hv hv'
  have hsigned : signed (step numeric s (.call voteOne)).1 = some (1,1) := by decide
  have hsigned' : signed (step numeric t (.call voteOne)).1 = some (1,1) := by decide
  rw [hv] at hsigned
  rw [hv'] at hsigned'
  obtain ⟨hepoch,hround⟩ := Prod.mk.inj (some.inj (hsigned'.trans hsigned.symm))
  have hsame := (signatures_consistent numeric 1 1 ⟨0,1⟩ true []
    [.call (.epochChange (soloProof 1))] [] (.call voteOne) (.call voteOne)).1 v v' hv hv' hepoch hround
  subst hsame
  exact ⟨v',hv,hv'⟩

/-- The write of the first vote fails after it has taken effect; the timeout is returned, and then
for the first time the vote of the same round. -/
theorem vote_returned_after_timeout :
    let rs := replies numeric (start 1 1 ⟨0,1⟩ true
        [.succeeds,.succeeds,.succeeds,.failsWritten (.internalError "timeout")])
      [.call (.epochChange (soloProof 1)),.call voteOne,.call timeoutOne,.call voteOne]
    rs.map signed = [none,none,some (1,1),some (1,1)] ∧
      rs.map (fun r => (r.bind Reply.getVote).isSome) = [false,false,false,true] := by
  decide

end SafetyRules

end Arx.Consensus
