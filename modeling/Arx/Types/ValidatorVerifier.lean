import Arx.Movelib.Except
import Arx.Movelib.TwoChain

/-!
# The validators of an epoch, their signatures and their quorums

A `Scheme` says what `bls12381` does with messages of one type. Addresses, hashes, keys and
signatures are numbers. Two quorums share a validator that is not faulty, as long as the faulty ones
have at most the power that a quorum leaves.
-/

namespace Arx.Types
open Movelib

abbrev AccountAddress := ℕ

abbrev HashValue := ℕ

abbrev PublicKey := ℕ

abbrev PrivateKey := ℕ

abbrev Signature := ℕ

/-- Signatures of messages of type `M`. -/
structure Scheme (M : Type) where
  sign : PrivateKey → M → Option Signature
  verify : PublicKey → M → Signature → Bool
  aggregateKeys : List PublicKey → Option PublicKey
  aggregateSignatures : List Signature → Option Signature
  verifyAggregate : Signature → List M → List PublicKey → Bool

/-- The algebra of `bls12381` signatures over numbers: a signature is the key times the digest of the
message, keys and signatures are aggregated by adding them. -/
def Scheme.linear {M : Type} (digest : M → ℕ) : Scheme M where
  sign key m := some (key * digest m)
  verify key m signature := signature = key * digest m
  aggregateKeys keys := if keys.isEmpty then none else some keys.sum
  aggregateSignatures signatures := if signatures.isEmpty then none else some signatures.sum
  verifyAggregate signature ms keys :=
    ms.length = keys.length ∧ signature = (List.zipWith (fun key m => key * digest m) keys ms).sum

/-- A byte of a bit vector, read from left to right. -/
abbrev Bucket := Fin 8 → Bool

/-- `BitVec` of the crate `arx_bitvec`. -/
structure ArxBitVec where
  inner : List Bucket
  deriving DecidableEq

namespace ArxBitVec

def empty : ArxBitVec := ⟨[]⟩

def requiredBuckets (numBits : ℕ) : ℕ := if numBits = 0 then 0 else (numBits - 1) / 8 + 1

def withNumBits (numBits : ℕ) : ArxBitVec :=
  ⟨List.replicate (requiredBuckets numBits) fun _ => false⟩

variable (b : ArxBitVec)

def numBuckets : ℕ := b.inner.length

def isSet (pos : ℕ) : Bool :=
  match b.inner[pos / 8]? with
  | none => false
  | some bucket => bucket ⟨pos % 8,Nat.mod_lt _ (by decide)⟩

def set (pos : ℕ) : ArxBitVec :=
  ⟨(b.inner ++ List.replicate (pos / 8 + 1 - b.inner.length) fun _ => false).modify (pos / 8)
    fun bucket => Function.update bucket ⟨pos % 8,Nat.mod_lt _ (by decide)⟩ true⟩

/-- The positions of the set bits, in order; a position is cast to `u16`. -/
def iterOnes : List ℕ :=
  (List.range (b.inner.length * 8)).filter fun pos => b.isSet (pos % 2 ^ 16)

def countOnes : ℕ :=
  (b.inner.map fun bucket => (Finset.univ.filter fun i => bucket i = true).card).sum

def lastSetBit : Option ℕ :=
  ((List.range (b.inner.length * 8)).filter fun pos => b.isSet pos).getLast?

end ArxBitVec

structure AggregateSignature where
  validatorBitmask : ArxBitVec
  sig : Option Signature
  deriving DecidableEq

namespace AggregateSignature

def empty : AggregateSignature := ⟨.empty,none⟩

def getNumVoters (s : AggregateSignature) : ℕ := s.validatorBitmask.countOnes

/-- The addresses at the set bits; an index is cast to `u16`. -/
def getVoterAddresses (s : AggregateSignature) (addresses : List AccountAddress) :
    List AccountAddress :=
  addresses.zipIdx.filterMap fun p =>
    if s.validatorBitmask.isSet (p.2 % 2 ^ 16) then some p.1 else none

end AggregateSignature

inductive VerifyError
  | unknownAuthor
  | tooLittleVotingPower (votingPower expectedVotingPower : ℕ)
  | emptySignature
  | invalidMultiSignature
  | invalidAggregatedSignature
  | failedToAggregatePubKey
  | failedToAggregateSignature
  | invalidBitVec
  deriving DecidableEq

namespace VerifyError

def display : VerifyError → String
  | unknownAuthor => "Author is unknown"
  | tooLittleVotingPower p e =>
    s!"The voting power ({p}) is less than expected voting power ({e})"
  | emptySignature => "Signature is empty"
  | invalidMultiSignature => "Multi signature is invalid"
  | invalidAggregatedSignature => "Aggregated signature is invalid"
  | failedToAggregatePubKey => "Failed to aggregate public keys"
  | failedToAggregateSignature => "Failed to aggregate signatures"
  | invalidBitVec => "Invalid bitvec from the multi-signature"

end VerifyError

structure ValidatorConsensusInfo where
  address : AccountAddress
  publicKey : PublicKey
  votingPower : ℕ
  deriving DecidableEq

/-- The index of the addresses is computed where the source keeps it in a map. -/
structure ValidatorVerifier where
  validatorInfos : List ValidatorConsensusInfo
  quorumVotingPower : ℕ
  totalVotingPower : ℕ
  deriving DecidableEq

def sumVotingPower (infos : List ValidatorConsensusInfo) : ℕ := (infos.map (·.votingPower)).sum

namespace ValidatorVerifier

/-- The quorum is zero if there is no validator. -/
def new (infos : List ValidatorConsensusInfo) : ValidatorVerifier where
  validatorInfos := infos
  quorumVotingPower := if infos.isEmpty then 0 else sumVotingPower infos * 2 / 3 + 1
  totalVotingPower := sumVotingPower infos

variable (v : ValidatorVerifier) (author : AccountAddress)

def len : ℕ := v.validatorInfos.length

/-- The index that the map from addresses holds: of two validators with one address the later. -/
def addressToValidatorIndex : Option ℕ :=
  (v.validatorInfos.zipIdx.reverse.find? fun p => p.1.address = author).map (·.2)

def getInfo : Option ValidatorConsensusInfo :=
  (v.addressToValidatorIndex author).bind fun i => v.validatorInfos[i]?

def getPublicKey : Option PublicKey :=
  (v.getInfo author).map (·.publicKey)

def getVotingPower : Option ℕ :=
  (v.getInfo author).map (·.votingPower)

def getOrderedAccountAddresses : List AccountAddress :=
  v.validatorInfos.map (·.address)

def aggregateVotingPower (v : ValidatorVerifier) :
    List AccountAddress → Except VerifyError ℕ
  | [] => .ok 0
  | a :: rest => do
    let power ← okOr (v.getVotingPower a) .unknownAuthor
    let others ← v.aggregateVotingPower rest
    .ok (power + others)

def checkVotingPower (authors : List AccountAddress) : Except VerifyError Unit := do
  let power ← v.aggregateVotingPower authors
  check (v.quorumVotingPower ≤ power) (.tooLittleVotingPower power v.quorumVotingPower)

def checkNumOfVoters (numValidators : ℕ) (b : ArxBitVec) : Except VerifyError Unit := do
  check (b.numBuckets = ArxBitVec.requiredBuckets numValidators) .invalidBitVec
  check (∀ last ∈ b.lastSetBit, last < numValidators) .invalidBitVec

/-- The validators at the set bits, whose voting power is a quorum. -/
def checkVoters (b : ArxBitVec) : Except VerifyError (List ValidatorConsensusInfo) := do
  checkNumOfVoters (v.len % 2 ^ 16) b
  let voters ← b.iterOnes.mapM fun i => okOr v.validatorInfos[i]? .unknownAuthor
  v.checkVotingPower (voters.map (·.address))
  .ok voters

variable {M : Type} (S : Scheme M)

variable (v : ValidatorVerifier)

def verify (author : AccountAddress) (message : M) (signature : Signature) :
    Except VerifyError Unit := do
  let key ← okOr (v.getPublicKey author) .unknownAuthor
  check (S.verify key message signature) .invalidMultiSignature

def verifyMultiSignatures (message : M) (multi : AggregateSignature) : Except VerifyError Unit := do
  let voters ← v.checkVoters multi.validatorBitmask
  let sig ← okOr multi.sig .emptySignature
  let key ← okOr (S.aggregateKeys (voters.map (·.publicKey))) .failedToAggregatePubKey
  check (S.verify key message sig) .invalidMultiSignature

def verifyAggregateSignatures (messages : List M) (aggregated : AggregateSignature) :
    Except VerifyError Unit := do
  let voters ← v.checkVoters aggregated.validatorBitmask
  let sig ← okOr aggregated.sig .emptySignature
  check (S.verifyAggregate sig messages (voters.map (·.publicKey))) .invalidAggregatedSignature

end ValidatorVerifier

namespace ValidatorVerifier
open List Option

variable {v : ValidatorVerifier} {b : ArxBitVec} {voters : List ValidatorConsensusInfo}
    {info : ValidatorConsensusInfo}

/-- No two validators have one address. -/
def Distinct (v : ValidatorVerifier) : Prop := v.getOrderedAccountAddresses.Nodup

instance : Decidable v.Distinct := inferInstanceAs (Decidable (List.Nodup _))

def power (v : ValidatorVerifier) (a : AccountAddress) : ℕ := (v.getVotingPower a).getD 0

def votersOf (v : ValidatorVerifier) (b : ArxBitVec) : List ValidatorConsensusInfo :=
  match v.checkVoters b with
  | .ok voters => voters
  | .error _ => []

def IsQuorum (v : ValidatorVerifier) (A : Finset AccountAddress) : Prop :=
  A ⊆ v.getOrderedAccountAddresses.toFinset ∧ v.quorumVotingPower ≤ ∑ a ∈ A, v.power a

theorem index_unique (hv : v.Distinct) {i j : ℕ} {x y : ValidatorConsensusInfo}
    (hi : v.validatorInfos[i]? = some x) (hj : v.validatorInfos[j]? = some y)
    (h : x.address = y.address) : i = j := by
  have hlt : i < v.getOrderedAccountAddresses.length := by
    rw [getOrderedAccountAddresses,length_map]
    exact (List.getElem?_eq_some_iff.mp hi).1
  refine (List.getElem?_inj hlt hv).mp ?_
  rw [getOrderedAccountAddresses,List.getElem?_map,List.getElem?_map,hi,hj,map_some,
    map_some,h]

theorem addressToValidatorIndex_eq (hv : v.Distinct) {i : ℕ}
    (hi : v.validatorInfos[i]? = some info) : v.addressToValidatorIndex info.address = some i := by
  have hmem : (info,i) ∈ v.validatorInfos.zipIdx.reverse := by
    rw [mem_reverse,mem_zipIdx_iff_getElem?]
    exact hi
  have hsome : (v.validatorInfos.zipIdx.reverse.find?
      fun p => p.1.address = info.address).isSome := by
    rw [List.find?_isSome]
    exact ⟨(info,i),hmem,by simp⟩
  obtain ⟨⟨info',j⟩,hfind⟩ := isSome_iff_exists.mp hsome
  rw [addressToValidatorIndex,hfind,map_some]
  -- the one that is found has the same address, so the same index
  have haddr : info'.address = info.address := by simpa using List.find?_some hfind
  have hj := mem_of_find?_eq_some hfind
  rw [mem_reverse,mem_zipIdx_iff_getElem?] at hj
  rw [index_unique hv hj hi haddr]

theorem getVotingPower_eq (hv : v.Distinct) (hi : info ∈ v.validatorInfos) :
    v.getVotingPower info.address = some info.votingPower := by
  obtain ⟨i,hi⟩ := mem_iff_getElem?.mp hi
  rw [getVotingPower,getInfo,addressToValidatorIndex_eq hv hi,bind_some,hi,map_some]

theorem aggregateVotingPower_ok {authors : List AccountAddress} {p : ℕ}
    (h : v.aggregateVotingPower authors = .ok p) : p = (authors.map v.power).sum := by
  induction authors generalizing p with
  | nil =>
    cases h
    rfl
  | cons a authors ih =>
    simp only [aggregateVotingPower,bind_eq_ok,okOr_ok,Except.ok.injEq] at h
    obtain ⟨q,hq,r,hr,rfl⟩ := h
    rw [map_cons,sum_cons,← ih hr,power,hq,getD_some]

theorem checkVoters_voters (h : v.checkVoters b = .ok voters) : v.votersOf b = voters := by
  rw [votersOf,h]

theorem checkVoters_forall₂ (h : v.checkVoters b = .ok voters) :
    List.Forall₂ (fun i info => v.validatorInfos[i]? = some info) b.iterOnes voters := by
  simp only [checkVoters,bind_eq_ok,mapM_eq_ok,Except.ok.injEq,okOr_ok] at h
  obtain ⟨-,-,l,hl,-,-,rfl⟩ := h
  exact hl

theorem checkVoters_power (h : v.checkVoters b = .ok voters) :
    v.quorumVotingPower ≤ ((voters.map (·.address)).map v.power).sum := by
  simp only [checkVoters,bind_eq_ok,checkVotingPower,check_ok,Except.ok.injEq] at h
  obtain ⟨-,-,l,-,_,⟨p,hp,hle⟩,rfl⟩ := h
  rw [← aggregateVotingPower_ok hp]
  exact hle

theorem iterOnes_nodup (b : ArxBitVec) : b.iterOnes.Nodup := nodup_range.filter _

theorem nodup_addresses (hv : v.Distinct) {is : List ℕ}
    (h : List.Forall₂ (fun i info => v.validatorInfos[i]? = some info) is voters)
    (his : is.Nodup) : (voters.map (·.address)).Nodup := by
  induction h with
  | nil => exact nodup_nil
  | @cons i info is voters hi hall ih =>
    obtain ⟨hni,his⟩ := nodup_cons.mp his
    refine nodup_cons.mpr ⟨fun hmem => ?_,ih his⟩
    obtain ⟨info',hinfo',haddr⟩ := mem_map.mp hmem
    obtain ⟨j,hj,hij⟩ := forall₂_mem_right hall hinfo'
    exact hni (index_unique hv hi hij haddr.symm ▸ hj)

theorem checkVoters_isQuorum (hv : v.Distinct) (h : v.checkVoters b = .ok voters) :
    v.IsQuorum (voters.map (·.address)).toFinset := by
  have hall := checkVoters_forall₂ h
  constructor
  · intro a ha
    obtain ⟨info,hinfo,rfl⟩ := mem_map.mp (mem_toFinset.mp ha)
    obtain ⟨i,-,hi⟩ := forall₂_mem_right hall hinfo
    exact mem_toFinset.mpr (mem_map_of_mem (mem_of_getElem? hi))
  · rw [sum_toFinset _ (nodup_addresses hv hall (iterOnes_nodup b))]
    exact checkVoters_power h

theorem sum_power (hv : v.Distinct) :
    ∑ a ∈ v.getOrderedAccountAddresses.toFinset, v.power a = sumVotingPower v.validatorInfos := by
  rw [List.sum_toFinset _ hv,getOrderedAccountAddresses,List.map_map]
  congr 1
  apply map_congr_left
  intro info hinfo
  rw [Function.comp_apply,power,getVotingPower_eq hv hinfo,getD_some]

theorem isQuorum_meet {infos : List ValidatorConsensusInfo} {A B F : Finset AccountAddress}
    (hne : infos ≠ []) (hv : (new infos).Distinct) (hA : (new infos).IsQuorum A)
    (hB : (new infos).IsQuorum B)
    (hF : ∑ a ∈ F, (new infos).power a ≤
      (new infos).totalVotingPower - (new infos).quorumVotingPower) :
    ∃ a ∈ A, a ∈ B ∧ a ∉ F := by
  have hq : (new infos).quorumVotingPower = sumVotingPower infos * 2 / 3 + 1 := by
    rw [new,isEmpty_eq_false_iff.mpr hne]
    rfl
  have hsum := sum_power hv
  refine quorums_meet hA.1 hB.1 hA.2 hB.2 ?_ ?_
  · rw [hsum]
    change 2 * sumVotingPower infos < _
    omega
  · rw [hsum]
    exact hF

end ValidatorVerifier

end Arx.Types
