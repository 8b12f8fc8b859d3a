import Arx.Consensus.Epochs

/-!
# The check of timeout certificates

It pairs the voters with the rounds and stops at the shorter of the two; the greatest round is taken
of all rounds.
-/

namespace Arx.Consensus
open Movelib Arx.Types List

/-- What is known of an aggregate that `bls12381` accepts: there are messages, one for each key. -/
def Pairs {M : Type} (S : Scheme M) : Prop :=
  ∀ sig ms keys, S.verifyAggregate sig ms keys = true → ms ≠ [] ∧ keys.length = ms.length

def NoPanic (e : Failure) : Prop := ∀ message, e ≠ .panic message

variable {c : Crypto} {V : ValidatorVerifier}

section Checks

variable {tc : TwoChainTimeoutCertificate}

theorem ensure_returns (p : Prop) [Decidable p] (message : String) :
    Returns NoPanic (fun _ => p) (ensure p message) := by
  by_cases hp : p
  · rw [ensure,check,if_pos hp]
    exact hp
  · rw [ensure,check,if_neg hp]
    exact fun _ => Failure.noConfusion

theorem mapError_returns {ε α : Type} (x : Except ε α) (f : ε → String) :
    Returns NoPanic (fun a => x = .ok a) (x.mapError fun e => .error (f e)) := by
  cases x with
  | error e => exact fun _ => Failure.noConfusion
  | ok a => exact rfl

theorem voteData_verify_returns (d : VoteData) : Returns NoPanic (fun _ => True) d.verify :=
  (ensure_returns _ _).bind fun _ _ => (ensure_returns _ _).bind fun _ _ =>
    (ensure_returns _ _).bind fun _ _ => (ensure_returns _ _).imp fun _ _ => trivial

theorem quorumCert_verify_returns (qc : QuorumCert) :
    Returns NoPanic (fun _ => True) (qc.verify c V) := by
  refine (ensure_returns _ _).bind fun _ _ => ?_
  split
  · exact (ensure_returns _ _).bind fun _ _ => (ensure_returns _ _).bind fun _ _ =>
      (ensure_returns _ _).imp fun _ _ => trivial
  · exact (mapError_returns _ _).bind fun _ _ => voteData_verify_returns _

theorem timeoutCert_verify_ok (h : tc.verify c V = .ok ()) :
    V.verifyAggregateSignatures c.timeouts (tc.messages V) tc.signaturesWithRounds.sig = .ok () ∧
      tc.signaturesWithRounds.rounds.max? = some tc.highestHqcRound := by
  simp only [TwoChainTimeoutCertificate.verify,bind_eq_ok,ensure,check_ok,mapError_eq_ok,
    okOr_ok] at h
  obtain ⟨-,-,_,hsig,r,hr,hmax⟩ := h
  exact ⟨hsig,hr.trans (congrArg some hmax.symm)⟩

variable (hS : Pairs c.timeouts)

include hS

theorem verifyAggregate_voters {messages : List TimeoutSigningRepr} {agg : AggregateSignature}
    (h : V.verifyAggregateSignatures c.timeouts messages agg = .ok ()) :
    messages ≠ [] ∧ ∃ voters, V.checkVoters agg.validatorBitmask = .ok voters ∧
      voters.length = messages.length := by
  simp only [ValidatorVerifier.verifyAggregateSignatures,bind_eq_ok,check_ok] at h
  obtain ⟨voters,hvoters,sig,-,hsig⟩ := h
  obtain ⟨hne,hlen⟩ := hS _ _ _ hsig
  exact ⟨hne,voters,hvoters,(length_map _).symm.trans hlen⟩

/-- The check of a timeout certificate does not panic: where there is no round, there is no message
either. -/
theorem timeoutCert_verify_noPanic : Returns NoPanic (fun _ => True) (tc.verify c V) := by
  refine ((ensure_returns _ _).bind fun _ _ => quorumCert_verify_returns _).bind fun _ _ => ?_
  refine (mapError_returns _ _).bind fun _ hsig => ?_
  obtain ⟨hne,-⟩ := verifyAggregate_voters hS hsig
  cases hmax : tc.signaturesWithRounds.rounds.max? with
  | some r => exact (ensure_returns _ _).imp fun _ _ => trivial
  | none =>
    rw [List.max?_eq_none_iff] at hmax
    rw [TwoChainTimeoutCertificate.messages,AggregateSignatureWithRounds.getVotersAndRounds,hmax,
      zip_nil_right] at hne
    exact absurd rfl hne

end Checks

/-- The rounds that are paired with a voter. -/
def TwoChainTimeoutCertificate.pairedRounds (tc : TwoChainTimeoutCertificate)
    (v : ValidatorVerifier) : List ℕ :=
  (tc.signaturesWithRounds.getVotersAndRounds v.getOrderedAccountAddresses).map Prod.snd

/-- A quorum of distinct validators has signed the epoch and the round of the certificate, each with
a round of its own, and the highest of these rounds is that of the certificate. -/
def TwoChainTimeoutCertificate.SignedByQuorum (tc : TwoChainTimeoutCertificate)
    (v : ValidatorVerifier) (Signed : PublicKey → TimeoutSigningRepr → Prop) : Prop :=
  ∃ signed : List (ValidatorConsensusInfo × ℕ),
    (signed.map (·.1.address)).Nodup ∧ v.IsQuorum (signed.map (·.1.address)).toFinset ∧
    (∀ p ∈ signed, p.1 ∈ v.validatorInfos ∧ Signed p.1.publicKey ⟨tc.epoch,tc.round,p.2⟩) ∧
    (signed.map (·.2)).max? = some tc.highestHqcRound

/-- The check of a certificate does not panic. Where it passes, a quorum has signed the highest round
whatever else was signed if and only if the greatest of all rounds is paired with a voter. -/
theorem timeoutCert_signed_iff (tc : TwoChainTimeoutCertificate) (hV : V.Distinct)
    (hS : Pairs c.timeouts) :
    (∀ message, tc.verify c V ≠ .error (.panic message)) ∧
    (tc.verify c V = .ok () →
      ((∀ Signed : PublicKey → TimeoutSigningRepr → Prop,
        (∀ p ∈ (V.votersOf tc.signaturesWithRounds.sig.validatorBitmask).zip (tc.messages V),
          Signed p.1.publicKey p.2) → tc.SignedByQuorum V Signed) ↔
        (tc.pairedRounds V).max? = tc.signaturesWithRounds.rounds.max?)) := by
  refine ⟨fun message h => ?_,fun h => ?_⟩
  · have hno : Returns NoPanic (fun _ => True) (tc.verify c V) := timeoutCert_verify_noPanic hS
    rw [h] at hno
    exact hno message rfl
  obtain ⟨hsig,hmax⟩ := timeoutCert_verify_ok h
  obtain ⟨-,voters,hvoters,hlen⟩ := verifyAggregate_voters hS hsig
  have hmessages : tc.messages V = (tc.pairedRounds V).map (TimeoutSigningRepr.mk tc.epoch tc.round) :=
    map_map.symm
  rw [ValidatorVerifier.checkVoters_voters hvoters,hmax,hmessages]
  rw [hmessages,length_map] at hlen
  constructor
  · -- nothing else is signed than what the certificate shows
    intro hall
    obtain ⟨signed,-,-,hsigned,hhighest⟩ := hall (fun _ m => m ∈ (tc.pairedRounds V).map _)
      fun p hp => (of_mem_zip hp).2
    obtain ⟨p,hp,hround⟩ := mem_map.mp (max?_mem hhighest)
    obtain ⟨r,hr,heq⟩ := mem_map.mp (hsigned p hp).2
    cases heq
    refine max?_eq_some_iff.mpr ⟨hround ▸ hr,fun r hr => ?_⟩
    obtain ⟨q,hq,rfl⟩ := mem_map.mp hr
    exact (max?_eq_some_iff.mp hmax).2 _ (of_mem_zip hq).2
  · intro hpaired Signed hsigned
    have hfst : ((voters.zip (tc.pairedRounds V)).map (·.1.address)) = voters.map (·.address) := by
      conv_rhs => rw [← map_fst_zip hlen.le,map_map]
      rfl
    refine ⟨voters.zip (tc.pairedRounds V),?_,?_,fun p hp => ⟨?_,?_⟩,?_⟩
    · rw [hfst]
      exact ValidatorVerifier.nodup_addresses hV (ValidatorVerifier.checkVoters_forall₂ hvoters)
        (ValidatorVerifier.iterOnes_nodup _)
    · rw [hfst]
      exact ValidatorVerifier.checkVoters_isQuorum hV hvoters
    · obtain ⟨i,-,hi⟩ := forall₂_mem_right (ValidatorVerifier.checkVoters_forall₂ hvoters)
        (of_mem_zip hp).1
      exact mem_of_getElem? hi
    · refine hsigned (p.1,_) ?_
      rw [zip_map_right]
      exact mem_map.mpr ⟨p,hp,rfl⟩
    · rw [map_snd_zip hlen.ge]
      exact hpaired

section Runs
open SafetyRules

/-- A scheme that knows one signature: that of the one validator for the round 1 of the epoch 1. -/
theorem timeoutCert_signed_one :
    let c : Crypto := { numeric with timeouts := { numeric.timeouts with
      verifyAggregate := fun sig ms keys => sig = 12 ∧ ms = [⟨1,1,0⟩] ∧ keys = [1] } }
    (timeoutCertOne 1).verify c solo = .ok () ∧
      (timeoutCertOne 1).SignedByQuorum solo fun key m => key = 1 ∧ m = ⟨1,1,0⟩ := by
  intro c
  have hS : Pairs c.timeouts := by
    intro sig ms keys h
    obtain ⟨-,rfl,rfl⟩ := of_decide_eq_true h
    exact ⟨cons_ne_nil _ _,rfl⟩
  have hok : (timeoutCertOne 1).verify c solo = .ok () := by decide
  refine ⟨hok,((timeoutCert_signed_iff (timeoutCertOne 1) (by decide) hS).2 hok).mpr (by decide) _ ?_⟩
  decide

/-- One voter has signed a timeout of round 2 with the round 0, and there are two rounds. -/
theorem timeoutCert_unsigned_round :
    let tc : TwoChainTimeoutCertificate := ⟨⟨1,2,certOne⟩,⟨soloSignature 22,[0,1]⟩⟩
    tc.verify numeric solo = .ok () ∧ tc.messages solo = [⟨1,2,0⟩] ∧ tc.highestHqcRound = 1 := by
  decide

end Runs

end Arx.Consensus
