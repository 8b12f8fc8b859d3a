import Arx.Consensus.SafetyRules

/-!
# What the safety rules leave behind

What each request has checked, what it returns and the safety data that are stored afterwards,
whether it succeeds or fails.
-/

namespace Arx.Consensus.SafetyRules
open Movelib Arx.Types Option

open Effect

def Coherent (s : SafetyRules) : Prop :=
  ∀ d, s.persistentStorage.cachedSafetyData = some d → d = s.persisted

structure Leaves (s t : SafetyRules) (d : SafetyData) : Prop where
  persisted : t.persisted = d
  coherent : t.Coherent
  validatorSigner : t.validatorSigner = s.validatorSigner
  epochState : t.epochState = s.epochState

variable {s t u : SafetyRules} {d d' : SafetyData}

theorem Leaves.refl (h : s.Coherent) : Leaves s s s.persisted := ⟨rfl,h,rfl,rfl⟩

theorem Leaves.trans (h : Leaves s t d) (h' : Leaves t u d') : Leaves s u d' :=
  ⟨h'.persisted,h'.coherent,h'.validatorSigner.trans h.validatorSigner,
    h'.epochState.trans h.epochState⟩

theorem Leaves.then (h : Leaves s t s.persisted) (h' : Leaves t u t.persisted) :
    Leaves s u s.persisted := by
  rw [h.persisted] at h'
  exact h.trans h'

theorem readStore_ends {α : Type} {field : Storage → α} (h : s.Coherent) :
    Ends (readStore field) s
      (fun a t => a = field s.persistentStorage.internalStore ∧ Leaves s t s.persisted)
      (fun t => Leaves s t s.persisted) := by
  have hnext : Leaves s (nextAccess s).2 s.persisted := ⟨rfl,h,rfl,rfl⟩
  refine Ends.bind (Q := fun a t => t = (nextAccess s).2) (.update rfl) ?_
  rintro a _ rfl
  cases a with
  | succeeds =>
    refine .inspect (fun v hv => ?_) hnext
    cases hv
    exact ⟨rfl,hnext⟩
  | fails e | failsWritten e => exact .throw hnext

theorem writeStore_ends {change : Storage → Storage} :
    Ends (writeStore change) s
      (fun r t => t.persistentStorage.cachedSafetyData = s.persistentStorage.cachedSafetyData ∧
        t.validatorSigner = s.validatorSigner ∧ t.epochState = s.epochState ∧
        (t.persistentStorage.internalStore = change s.persistentStorage.internalStore ∨
          r ≠ none ∧ t.persistentStorage.internalStore = s.persistentStorage.internalStore))
      (fun _ => False) := by
  refine Ends.bind (Q := fun _ t => t = (nextAccess s).2) (.update rfl) ?_
  rintro a _ rfl
  cases a with
  | succeeds | failsWritten e =>
    refine Ends.bind (Q := fun _ t => t.persistentStorage =
      { s.persistentStorage with internalStore := change s.persistentStorage.internalStore } ∧
        t.validatorSigner = s.validatorSigner ∧ t.epochState = s.epochState)
      (.update ⟨rfl,rfl,rfl⟩) ?_
    rintro _ t ⟨hp,hv,he⟩
    exact .pure ⟨by rw [hp],hv,he,.inl (by rw [hp])⟩
  | fails e => exact .pure ⟨rfl,rfl,rfl,.inr ⟨nofun,rfl⟩⟩

theorem safetyData_ends (h : s.Coherent) :
    Ends safetyData s (fun d t => d = s.persisted ∧ Leaves s t s.persisted)
      (fun t => Leaves s t s.persisted) := by
  refine Ends.bind (Q := fun a t => a = s.persistentStorage ∧ t = s)
    (.inspect (fun a ha => ⟨(Except.ok.inj ha).symm,rfl⟩) (.refl h)) ?_
  rintro _ _ ⟨rfl,rfl⟩
  split
  · split
    · next d hd => exact .pure ⟨h d hd,.refl h⟩
    · refine (readStore_ends h).bind ?_
      rintro d t ⟨rfl,ht⟩
      refine Ends.bind (Q := fun _ u => Leaves t u t.persisted) (.update ?_) ?_
      · refine ⟨rfl,?_,rfl,rfl⟩
        intro d hd
        exact (some.inj hd).symm.trans ht.persisted.symm
      · intro _ u hu
        exact .pure ⟨rfl,ht.then hu⟩
  · exact readStore_ends h

theorem setSafetyData_ends :
    Ends (setSafetyData d) s (fun _ t => Leaves s t d)
      (fun t => Leaves s t d ∨ Leaves s t s.persisted) := by
  refine (writeStore_ends.mono (fun _ _ h => h) fun _ h => h.elim).bind ?_
  rintro r t ⟨hc,hv,he,hstore⟩
  cases r with
  | none =>
    have hp : t.persisted = d := by
      rcases hstore with hstore | ⟨hr,-⟩
      · rw [persisted,hstore]
      · exact absurd rfl hr
    refine .update ⟨hp,?_,hv,he⟩
    intro d' hd'
    exact (some.inj hd').symm.trans hp.symm
  | some e =>
    refine Ends.bind (Q := fun _ u => Leaves s u d ∨ Leaves s u s.persisted) (.update ?_)
      fun _ _ hu => .throw hu
    have hempty : Coherent { t with persistentStorage :=
        { t.persistentStorage with cachedSafetyData := none } } :=
      fun d h => absurd h.symm (some_ne_none d)
    rcases hstore with hstore | ⟨-,hstore⟩
    · exact .inl ⟨congrArg Storage.safetyData hstore,hempty,hv,he⟩
    · exact .inr ⟨congrArg Storage.safetyData hstore,hempty,hv,he⟩

theorem inspect_ends {α : Type} {g : SafetyRules → Except Error α} {E : SafetyRules → Prop}
    (he : E s) : Ends (inspect g) s (fun a t => g s = .ok a ∧ s = t) E :=
  .inspect (fun _ ha => ⟨ha,rfl⟩) he

variable (c : Crypto)

def TcVerified (tc : Option TwoChainTimeoutCertificate) (v : ValidatorVerifier) : Prop :=
  ∀ cert, tc = some cert → cert.verify c v = .ok ()

structure TimeoutChecked (timeout : TwoChainTimeout) (tc : Option TwoChainTimeoutCertificate)
    (s : SafetyRules) (es : EpochState) : Prop where
  epochState : s.epochState = some es
  epoch : timeout.epoch = s.persisted.epoch
  verified : timeout.verify c es.verifier = .ok ()
  certificate : TcVerified c tc es.verifier
  safe : safeToTimeout timeout tc s.persisted = .ok ()
  round : s.persisted.lastVotedRound ≤ timeout.round

structure ProposalChecked (now : ℕ) (p : VoteProposal) (tc : Option TwoChainTimeoutCertificate)
    (s : SafetyRules) (es : EpochState) (voteData : VoteData) : Prop where
  epochState : s.epochState = some es
  epoch : p.block.epoch = s.persisted.epoch
  qc : p.block.quorumCert.verify c es.verifier = .ok ()
  wellFormed : p.block.verifyWellFormed now = .ok ()
  certificate : TcVerified c tc es.verifier
  voteData : p.genVoteData c = .ok voteData

structure Constructed (now : ℕ) (p : VoteProposal) (tc : Option TwoChainTimeoutCertificate)
    (s : SafetyRules) (v : Vote) (d : SafetyData) : Prop where
  checked : ∃ es, ProposalChecked c now p tc s es v.voteData
  round : s.persisted.lastVotedRound < p.block.round
  safe : safeToVote p.block tc = .ok ()
  ledgerInfo : constructLedgerInfo2chain p.block (c.hashVoteData v.voteData) = .ok v.ledgerInfo
  data : d = { observeQc p.block.quorumCert { s.persisted with lastVotedRound := p.block.round } with
    lastVote := some v }

variable {c} {now : ℕ} {p : VoteProposal} {tc : Option TwoChainTimeoutCertificate}
  {timeout : TwoChainTimeout} {es : EpochState} {voteData : VoteData} {v : Vote}
  {proof : EpochChangeProof}

theorem verifyMaybeTc_ok (hes : s.epochState = some es) (h : verifyMaybeTc c tc s = .ok ()) :
    TcVerified c tc es.verifier := by
  rintro cert rfl
  rw [verifyMaybeTc,verifyTc,getEpochState,hes] at h
  exact mapError_eq_ok.mp h

theorem validateProposal_ok (h : validateProposal c now p s = .ok voteData) :
    ∃ es, s.epochState = some es ∧ p.block.quorumCert.verify c es.verifier = .ok () ∧
      p.block.verifyWellFormed now = .ok () ∧ p.genVoteData c = .ok voteData := by
  simp only [validateProposal,verifyQc,bind_eq_ok,getEpochState,okOr_ok,mapError_eq_ok] at h
  obtain ⟨_,⟨es,hes,hqc⟩,-,-,-,-,_,hwf,hdata⟩ := h
  exact ⟨es,hes,hqc,hwf,hdata⟩

theorem constructVote_ok (h : constructVote c p tc voteData d s = .ok (v,d')) :
    d.lastVotedRound < p.block.round ∧ safeToVote p.block tc = .ok () ∧ v.voteData = voteData ∧
      constructLedgerInfo2chain p.block (c.hashVoteData voteData) = .ok v.ledgerInfo ∧
      d' = { observeQc p.block.quorumCert { d with lastVotedRound := p.block.round } with
        lastVote := some v } := by
  simp only [constructVote,verifyAndUpdateLastVoteRound,bind_eq_ok,check_ok,
    Except.ok.injEq,Prod.mk.injEq] at h
  obtain ⟨_,⟨_,hround,rfl⟩,_,hsafe,-,-,li,hli,-,-,rfl,rfl⟩ := h
  exact ⟨hround,hsafe,rfl,hli,rfl⟩

theorem checkTimeout_ok (hes : t.epochState = s.epochState)
    (h : checkTimeout c timeout tc s.persisted t = .ok ()) :
    ∃ es, TimeoutChecked c timeout tc s es := by
  simp only [checkTimeout,bind_eq_ok,getEpochState,okOr_ok,mapError_eq_ok,verifyEpoch,
    check_ok] at h
  obtain ⟨_,hepoch,es,he,_,hverified,_,htc,_,hsafe,hround⟩ := h
  exact ⟨es,hes ▸ he,hepoch,hverified,verifyMaybeTc_ok he htc,hsafe,hround⟩

section

variable (h : s.Coherent)

include h

theorem recordTimeout_ends (hround : s.persisted.lastVotedRound ≤ timeout.round) :
    Ends (recordTimeout timeout s.persisted) s
      (fun _ t => Leaves s t { s.persisted with lastVotedRound := timeout.round })
      (fun t => Leaves s t s.persisted ∨
        Leaves s t { s.persisted with lastVotedRound := timeout.round }) := by
  unfold recordTimeout
  split
  · refine (inspect_ends (.inl (.refl h))).bind ?_
    rintro d _ ⟨hd,rfl⟩
    obtain ⟨-,-,⟨⟩⟩ := bind_eq_ok.mp hd
    exact setSafetyData_ends.mono (fun _ _ ht => ht) fun _ ht => ht.symm
  · next hle =>
    -- the round is the last voted one, so the data stay as they are
    have hr : s.persisted.lastVotedRound = timeout.round := by omega
    refine .pure ?_
    rw [← hr]
    exact .refl h

theorem timeout_ends : Ends (guardedSignTimeoutWithQc c timeout tc) s
      (fun _ t => (∃ es, TimeoutChecked c timeout tc s es) ∧
        Leaves s t { s.persisted with lastVotedRound := timeout.round })
      (fun t => Leaves s t s.persisted ∨ (∃ es, TimeoutChecked c timeout tc s es) ∧
        Leaves s t { s.persisted with lastVotedRound := timeout.round }) := by
  refine (inspect_ends (.inl (.refl h))).bind ?_
  rintro _ _ ⟨-,rfl⟩
  refine ((safetyData_ends h).mono (fun _ _ hd => hd) fun _ ht => .inl ht).bind ?_
  rintro _ t ⟨rfl,ht⟩
  refine (inspect_ends (.inl ht)).bind ?_
  rintro _ _ ⟨hcheck,rfl⟩
  obtain ⟨es,hchecked⟩ := checkTimeout_ok ht.epochState hcheck
  have hround : t.persisted.lastVotedRound ≤ timeout.round := by
    rw [ht.persisted]
    exact hchecked.round
  have hrecord := recordTimeout_ends ht.coherent hround
  rw [ht.persisted] at hrecord
  refine (hrecord.mono (fun _ _ hu => ht.trans hu) fun u hu => ?_).bind fun _ u hu => ?_
  · exact hu.imp ht.trans fun hu => ⟨⟨es,hchecked⟩,ht.trans hu⟩
  · exact .inspect (fun _ _ => ⟨⟨es,hchecked⟩,hu⟩) (.inr ⟨⟨es,hchecked⟩,hu⟩)

theorem verifyProposal_ends : Ends (verifyProposal c now p) s
      (fun voteData t => p.block.epoch = s.persisted.epoch ∧ Leaves s t s.persisted ∧
        ∃ es, s.epochState = some es ∧ p.block.quorumCert.verify c es.verifier = .ok () ∧
          p.block.verifyWellFormed now = .ok () ∧ p.genVoteData c = .ok voteData)
      (fun t => Leaves s t s.persisted) := by
  refine (safetyData_ends h).bind ?_
  rintro _ t ⟨rfl,ht⟩
  refine (inspect_ends ht).bind ?_
  rintro _ _ ⟨hepoch,rfl⟩
  refine .inspect (fun voteData hdata => ?_) ht
  rw [← ht.epochState]
  exact ⟨check_ok.mp hepoch,ht,validateProposal_ok hdata⟩

theorem vote_ends : Ends (guardedConstructAndSignVoteTwoChain c now p tc) s
      (fun v t => (s.persisted.lastVote = some v ∧ v.round = p.block.round ∧
          p.block.epoch = s.persisted.epoch ∧ Leaves s t s.persisted) ∨
        ∃ d, Constructed c now p tc s v d ∧ Leaves s t d)
      (fun t => Leaves s t s.persisted ∨ ∃ v d, Constructed c now p tc s v d ∧ Leaves s t d) := by
  refine (inspect_ends (.inl (.refl h))).bind ?_
  rintro _ _ ⟨-,rfl⟩
  refine ((verifyProposal_ends h).mono (fun _ _ hd => hd) fun _ ht => .inl ht).bind ?_
  rintro voteData t ⟨hepoch,ht,es,hes,hqc,hwf,hdata⟩
  refine (inspect_ends (.inl ht)).bind ?_
  rintro _ _ ⟨htc,rfl⟩
  have hchecked : ProposalChecked c now p tc s es voteData :=
    ⟨hes,hepoch,hqc,hwf,verifyMaybeTc_ok (ht.epochState ▸ hes) htc,hdata⟩
  refine ((safetyData_ends ht.coherent).mono (fun _ _ hd => hd)
    fun _ hu => .inl (ht.then hu)).bind ?_
  rintro _ u ⟨rfl,hu⟩
  replace hu := ht.then hu
  rw [ht.persisted]
  split
  · next v hv =>
    rw [filter_eq_some_iff,decide_eq_true_eq] at hv
    exact .pure (.inl ⟨hv.1,hv.2,hepoch,hu⟩)
  · refine (inspect_ends (.inl hu)).bind ?_
    rintro ⟨v,d⟩ _ ⟨hvote,rfl⟩
    obtain ⟨hround,hsafe,rfl,hli,hd⟩ := constructVote_ok hvote
    have hnew : Constructed c now p tc s v d := ⟨⟨es,hchecked⟩,hround,hsafe,hli,hd⟩
    refine (setSafetyData_ends.mono (fun _ _ hw => hu.trans hw) fun w hw => ?_).bind
      fun _ w hw => .pure (.inr ⟨d,hnew,hw⟩)
    rcases hw with hw | hw
    · exact .inr ⟨v,d,hnew,hu.trans hw⟩
    · exact .inl (hu.then hw)

theorem proposal_ends {block : BlockData} :
    Ends (guardedSignProposal c block) s (fun _ t => Leaves s t s.persisted)
      (fun t => Leaves s t s.persisted) := by
  refine (inspect_ends (.refl h)).bind ?_
  rintro _ _ ⟨-,rfl⟩
  refine (inspect_ends (.refl h)).bind ?_
  rintro _ _ ⟨-,rfl⟩
  refine (safetyData_ends h).bind ?_
  rintro _ t ⟨rfl,ht⟩
  refine (inspect_ends ht).bind ?_
  rintro _ _ ⟨-,rfl⟩
  exact .inspect (fun _ _ => ht) ht

theorem setWaypoint_ends {waypoint : Waypoint} :
    Ends (setWaypoint waypoint) s (fun _ t => Leaves s t s.persisted)
      (fun t => Leaves s t s.persisted) := by
  refine (writeStore_ends.mono (fun _ _ ht => ht) fun _ ht => ht.elim).bind ?_
  rintro r t ⟨hc,hv,he,hstore⟩
  have ht : Leaves s t s.persisted := by
    have hp : t.persisted = s.persisted := by
      rcases hstore with hstore | ⟨-,hstore⟩
      · rw [persisted,hstore,persisted]
      · rw [persisted,hstore,persisted]
    refine ⟨hp,?_,hv,he⟩
    intro d hd
    rw [hc] at hd
    exact (h d hd).trans hp.symm
  cases r with
  | none => exact .pure ht
  | some e => exact .throw ht

theorem enterEpoch_ends {waypoint newWaypoint : Waypoint} :
    Ends (enterEpoch waypoint newWaypoint es) s
      (fun _ t => Leaves s t s.persisted ∨
        s.persisted.epoch < es.epoch ∧ Leaves s t (.new es.epoch))
      (fun t => Leaves s t s.persisted ∨
        s.persisted.epoch < es.epoch ∧ Leaves s t (.new es.epoch)) := by
  refine ((safetyData_ends h).mono (fun _ _ hd => hd) fun _ ht => .inl ht).bind ?_
  rintro _ t ⟨rfl,ht⟩
  split
  · exact .throw (.inl ht)
  · split
    · next hlt =>
      refine setSafetyData_ends.mono (fun _ u hu => .inr ⟨hlt,ht.trans hu⟩) fun u hu => ?_
      rcases hu with hu | hu
      · exact .inr ⟨hlt,ht.trans hu⟩
      · exact .inl (ht.then hu)
    · exact .pure (.inl ht)

end

structure Keeps (s t : SafetyRules) : Prop where
  persisted : t.persisted = s.persisted
  coherent : t.Coherent
  epochState : t.epochState = s.epochState

theorem Leaves.keeps (h : Leaves s t s.persisted) : Keeps s t := ⟨h.persisted,h.coherent,h.epochState⟩

theorem Keeps.setSigner {signer : Option ValidatorSigner} (h : Keeps s t) :
    Keeps s { t with validatorSigner := signer } := ⟨h.persisted,h.coherent,h.epochState⟩

theorem reconcileKey_ends {author : Author} (h : s.Coherent) :
    Ends (reconcileKey c es author) s (fun _ t => Keeps s t) (fun t => Keeps s t) := by
  unfold reconcileKey
  have hrefl : Keeps s s := (Leaves.refl h).keeps
  split
  · exact .throw hrefl
  · next expected _ =>
    refine (inspect_ends hrefl).bind ?_
    rintro current _ ⟨-,rfl⟩
    split
    · exact .pure hrefl
    · have hkey : Ends (consensusKeyForVersion c expected) s (fun _ t => Keeps s t)
          (fun t => Keeps s t) := by
        refine ((readStore_ends h).mono (fun _ _ ht => ht) fun _ ht => ht.keeps).bind ?_
        rintro key t ⟨-,ht⟩
        refine (inspect_ends ht.keeps).bind ?_
        rintro _ _ ⟨-,rfl⟩
        exact .pure ht.keeps
      refine (Ends.tryCatch hkey fun e t ht => ?_).bind fun key t ht => .update ht.setSigner
      split
      · exact .throw ht
      · exact .throw ht

def Names (proof : EpochChangeProof) (es : EpochState) : Prop :=
  ∃ last, proof.ledgerInfoWithSigs.getLast? = some last ∧ last.ledgerInfo.nextEpochState = some es

structure Entered (proof : EpochChangeProof) (s t : SafetyRules) : Prop where
  coherent : t.Coherent
  persisted : t.persisted = s.persisted ∨
    ∃ es, Names proof es ∧ s.persisted.epoch < es.epoch ∧ t.persisted = .new es.epoch
  epochState : t.epochState = s.epochState ∨ ∃ es, Names proof es ∧ t.epochState = some es

theorem Entered.keeps (h : Entered proof s t) (h' : Keeps t u) : Entered proof s u :=
  ⟨h'.coherent,h'.persisted ▸ h.persisted,h'.epochState ▸ h.epochState⟩

theorem Leaves.entered (h : Leaves s t s.persisted) :
    Entered proof s t := ⟨h.coherent,.inl h.persisted,.inl h.epochState⟩

theorem initialize_ends (h : s.Coherent) :
    Ends (guardedInitialize c proof) s (fun _ t => Entered proof s t)
      (fun t => Entered proof s t) := by
  refine ((readStore_ends h).mono (fun _ _ ht => ht) fun _ ht => ht.entered).bind ?_
  rintro waypoint t ⟨-,ht⟩
  refine (inspect_ends ht.entered).bind ?_
  rintro last _ ⟨hlast,rfl⟩
  refine (inspect_ends ht.entered).bind ?_
  rintro es _ ⟨hes,rfl⟩
  refine (inspect_ends ht.entered).bind ?_
  rintro newWaypoint _ ⟨-,rfl⟩
  have hnames : Names proof es := by
    rw [mapError_eq_ok] at hlast
    simp only [EpochChangeProof.verify,bind_eq_ok,okOr_ok,Except.ok.injEq] at hlast
    obtain ⟨last',hlast',-,-,-,-,rfl⟩ := hlast
    exact ⟨last',hlast',okOr_ok.mp hes⟩
  have hway : Ends (updateWaypoint waypoint newWaypoint) t (fun _ u => Leaves s u s.persisted)
      (fun u => Entered proof s u) := by
    unfold updateWaypoint
    split
    · exact (setWaypoint_ends ht.coherent).mono (fun _ u hu => ht.then hu)
        fun u hu => (ht.then hu).entered
    · exact .pure ht
  refine hway.bind fun _ u hu => ?_
  have hstart : ∀ w, (Leaves u w u.persisted ∨
      u.persisted.epoch < es.epoch ∧ Leaves u w (.new es.epoch)) → Entered proof s w := by
    rintro w (hw | ⟨hlt,hw⟩)
    · exact (hu.then hw).entered
    · exact ⟨hw.coherent,.inr ⟨es,hnames,hu.persisted ▸ hlt,hw.persisted⟩,
        .inl (hu.trans hw).epochState⟩
  refine ((enterEpoch_ends hu.coherent).mono (fun _ _ hw => hw) hstart).bind fun _ w hw => ?_
  have hw' := hstart w hw
  refine Ends.bind (Q := fun _ x => Entered proof s x)
    (.update ⟨hw'.coherent,hw'.persisted,.inr ⟨es,hnames,rfl⟩⟩) fun _ x hx => ?_
  refine ((readStore_ends hx.coherent).mono (fun _ _ hy => hx.keeps hy.2.keeps)
    fun _ hy => hx.keeps hy.keeps).bind fun author y hy => ?_
  refine Ends.tryCatch ((reconcileKey_ends hy.coherent).mono (fun _ _ hz => hy.keeps hz)
    fun _ hz => hy.keeps hz) fun e z hz => ?_
  split
  · exact .throw hz
  · exact Ends.bind (Q := fun _ x => Entered proof s x)
      (.update ⟨hz.coherent,hz.persisted,hz.epochState⟩) fun _ _ hx => .throw hx

end Arx.Consensus.SafetyRules
