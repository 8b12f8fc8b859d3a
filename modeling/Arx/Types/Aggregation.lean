import Arx.Movelib.SortedMap
import Arx.Types.LedgerInfo

/-!
# Aggregating partial signatures

Signatures are aggregated in the order of the addresses, and verified with the keys in the order of
the validators.
-/

namespace Arx.Types
open Movelib List Option

/-- What is known of aggregating with `bls12381`: the order does not matter, and an aggregate of valid
signatures is valid. -/
structure Scheme.Aggregates {M : Type} (S : Scheme M) : Prop where
  empty : S.aggregateSignatures [] = none
  total : ∀ sigs, sigs ≠ [] → ∃ s, S.aggregateSignatures sigs = some s
  multi : ∀ (m : M) (l : List (PublicKey × Signature)), l ≠ [] → (∀ p ∈ l, S.verify p.1 m p.2) →
    ∀ keys sigs s, keys.Perm (l.map (·.1)) → sigs.Perm (l.map (·.2)) →
      S.aggregateSignatures sigs = some s →
      ∃ key, S.aggregateKeys keys = some key ∧ S.verify key m s
  aggregate : ∀ l : List (PublicKey × M × Signature), (∀ p ∈ l, S.verify p.1 p.2.1 p.2.2) →
    ∀ sigs s, sigs.Perm (l.map (·.2.2)) → S.aggregateSignatures sigs = some s →
      S.verifyAggregate s (l.map (·.2.1)) (l.map (·.1))

theorem Scheme.linear_aggregates {M : Type} (digest : M → ℕ) : (Scheme.linear digest).Aggregates := by
  have hsum' : ∀ sigs s, (Scheme.linear digest).aggregateSignatures sigs = some s →
      sigs.sum = s := by
    intro sigs s hs
    unfold linear at hs
    dsimp only at hs
    split_ifs at hs
    exact some.inj hs
  constructor
  case empty => rfl
  case total =>
    intro sigs hne
    exact ⟨sigs.sum,if_neg (by simpa using hne)⟩
  case multi =>
    intro m l hne hl keys sigs s hkeys hsigs hs
    have hsum : (l.map (·.2)).sum = (l.map (·.1)).sum * digest m := by
      rw [← sum_map_mul_right]
      congr 1
      exact map_congr_left fun p hp => of_decide_eq_true (hl p hp)
    have hnil : keys ≠ [] := by
      rintro rfl
      exact hne (map_eq_nil_iff.mp (nil_perm.mp hkeys))
    obtain rfl := hsum' sigs s hs
    refine ⟨keys.sum,if_neg (by simpa using hnil),decide_eq_true ?_⟩
    rw [hsigs.sum_eq,hkeys.sum_eq,hsum]
  case aggregate =>
    intro l hl sigs s hsigs hs
    obtain rfl := hsum' sigs s hs
    refine decide_eq_true ⟨by rw [length_map,length_map],?_⟩
    rw [hsigs.sum_eq,zipWith_map,zipWith_self]
    congr 1
    exact map_congr_left fun p hp => of_decide_eq_true (hl p hp)

structure PartialSignatures where
  signatures : SortedMap AccountAddress Signature
  deriving DecidableEq

namespace PartialSignatures

def empty : PartialSignatures := ⟨.empty⟩

def addSignature (p : PartialSignatures) (validator : AccountAddress) (signature : Signature) :
    PartialSignatures := ⟨p.signatures.orInsert validator signature⟩

end PartialSignatures

structure LedgerInfoWithPartialSignatures where
  ledgerInfo : LedgerInfo
  partialSigs : PartialSignatures
  deriving DecidableEq

namespace LedgerInfoWithPartialSignatures

variable (l : LedgerInfoWithPartialSignatures)

def commitInfo : BlockInfo := l.ledgerInfo.commitInfo

def addSignature (validator : AccountAddress) (signature : Signature) :
    LedgerInfoWithPartialSignatures :=
  { l with partialSigs := l.partialSigs.addSignature validator signature }

def signatures : SortedMap AccountAddress Signature :=
  l.partialSigs.signatures

end LedgerInfoWithPartialSignatures

namespace ArxBitVec

variable {b : ArxBitVec} {pos q n : ℕ} {is : List ℕ}

def setAll (b : ArxBitVec) (is : List ℕ) : ArxBitVec := is.foldl set b

theorem isSet_append_zeros (k : ℕ) :
    isSet ⟨b.inner ++ List.replicate k fun _ => false⟩ q = b.isSet q := by
  unfold isSet
  rcases lt_or_ge (q / 8) b.inner.length with hlt | hge
  · rw [List.getElem?_append_left hlt]
  · rw [List.getElem?_append_right hge,List.getElem?_eq_none hge,List.getElem?_replicate]
    split_ifs <;> rfl

theorem isSet_set : (b.set pos).isSet q = (decide (q = pos) || b.isSet q) := by
  rw [← isSet_append_zeros (b := b) (pos / 8 + 1 - b.inner.length)]
  have hlen : pos / 8 < (b.inner ++ List.replicate (pos / 8 + 1 - b.inner.length)
      (fun _ => false : Bucket)).length := by
    rw [length_append,length_replicate]
    omega
  unfold set isSet
  by_cases hq : pos / 8 = q / 8
  · rw [← hq,List.getElem?_modify_eq,List.getElem?_eq_getElem hlen]
    dsimp only [Option.map_eq_map,Option.map_some]
    by_cases hm : q % 8 = pos % 8
    · have heq : q = pos := by omega
      subst heq
      simp
    · have hne : q ≠ pos := fun h => hm (by rw [h])
      rw [Function.update_of_ne (fun h => hm (Fin.mk.inj h))]
      simp [hne]
  · have hne : q ≠ pos := fun h => hq (by rw [h])
    simp [hq,hne]

theorem numBuckets_set (h : pos / 8 < b.numBuckets) : (b.set pos).numBuckets = b.numBuckets := by
  have hzero : pos / 8 + 1 - b.inner.length = 0 := Nat.sub_eq_zero_of_le h
  unfold set numBuckets
  rw [length_modify,hzero,replicate_zero,append_nil]

theorem isSet_setAll : (b.setAll is).isSet q = (decide (q ∈ is) || b.isSet q) := by
  induction is generalizing b with
  | nil => rfl
  | cons i is ih =>
    rw [setAll,foldl_cons,← setAll,ih,isSet_set]
    by_cases hi : q = i
    · simp [hi]
    · simp [hi]

theorem numBuckets_setAll (h : ∀ i ∈ is, i / 8 < b.numBuckets) :
    (b.setAll is).numBuckets = b.numBuckets := by
  induction is generalizing b with
  | nil => rfl
  | cons i is ih =>
    have hi := numBuckets_set (h i mem_cons_self)
    rw [setAll,foldl_cons,← setAll,ih,hi]
    intro j hj
    rw [hi]
    exact h j (mem_cons_of_mem i hj)

theorem isSet_withNumBits : (withNumBits n).isSet q = false := by
  unfold isSet withNumBits
  rw [List.getElem?_replicate]
  split_ifs <;> rfl

theorem requiredBuckets_bounds (n : ℕ) : n ≤ requiredBuckets n * 8 ∧ requiredBuckets n * 8 < n + 8 := by
  unfold requiredBuckets
  split <;> omega

theorem isSet_mask : ((withNumBits n).setAll is).isSet q = decide (q ∈ is) := by
  rw [isSet_setAll,isSet_withNumBits,Bool.or_false]

section Mask

variable (his : ∀ i ∈ is, i < n)
include his

theorem numBuckets_mask : ((withNumBits n).setAll is).numBuckets = requiredBuckets n := by
  rw [numBuckets_setAll,withNumBits,numBuckets,length_replicate]
  intro i hi
  rw [withNumBits,numBuckets,length_replicate]
  have hlt := his i hi
  have hle := (requiredBuckets_bounds n).1
  omega

theorem mem_iterOnes_mask (hn : n < 2 ^ 16) : q ∈ ((withNumBits n).setAll is).iterOnes ↔ q ∈ is := by
  obtain ⟨hge,hlt⟩ := requiredBuckets_bounds n
  have hlen : ((withNumBits n).setAll is).inner.length = requiredBuckets n := numBuckets_mask his
  rw [iterOnes,mem_filter,mem_range,hlen]
  -- the number of bits is a multiple of eight and at most 2 ^ 16
  have hmod : ∀ r, r < requiredBuckets n * 8 → r % 2 ^ 16 = r := fun r hr =>
    Nat.mod_eq_of_lt (by omega)
  constructor
  · rintro ⟨hq,hset⟩
    rw [hmod q hq,isSet_mask] at hset
    exact of_decide_eq_true hset
  · intro hq
    have hlt' := (his q hq).trans_le hge
    refine ⟨hlt',?_⟩
    rw [hmod q hlt',isSet_mask]
    exact decide_eq_true hq

theorem checkNumOfVoters_mask :
    ValidatorVerifier.checkNumOfVoters n ((withNumBits n).setAll is) = .ok () := by
  rw [ValidatorVerifier.checkNumOfVoters,bind_eq_ok]
  refine ⟨(),check_ok.mpr (numBuckets_mask his),check_ok.mpr fun last hlast => ?_⟩
  have hmem := mem_of_getLast? hlast
  have hset := (mem_filter.mp hmem).2
  rw [isSet_mask] at hset
  exact his last (of_decide_eq_true hset)

end Mask

end ArxBitVec

namespace ValidatorVerifier

variable {M : Type} (S : Scheme M)

/-- The aggregate of the signatures, with the bits of the validators; an index is cast to `u16`. -/
def aggregateSignatures (v : ValidatorVerifier) (p : PartialSignatures) :
    Except VerifyError AggregateSignature := do
  let indices ← p.signatures.entries.mapM fun e =>
    okOr (v.addressToValidatorIndex e.1) .unknownAuthor
  let sig ← okOr (S.aggregateSignatures (p.signatures.entries.map (·.2)))
    .failedToAggregateSignature
  .ok ⟨(ArxBitVec.withNumBits (v.len % 2 ^ 16)).setAll (indices.map (· % 2 ^ 16)),some sig⟩

variable {S} {v : ValidatorVerifier} {p : PartialSignatures} {agg : AggregateSignature} {m : M}
  {a : AccountAddress}

theorem addressToValidatorIndex_some {i : ℕ} (h : v.addressToValidatorIndex a = some i) :
    ∃ info, v.validatorInfos[i]? = some info ∧ info.address = a := by
  obtain ⟨⟨info,j⟩,hfind,rfl⟩ := map_eq_some_iff.mp h
  have hmem := mem_of_find?_eq_some hfind
  rw [mem_reverse,mem_zipIdx_iff_getElem?] at hmem
  exact ⟨info,hmem,by simpa using List.find?_some hfind⟩

theorem aggregateVotingPower_iff {authors : List AccountAddress} {n : ℕ} :
    v.aggregateVotingPower authors = .ok n ↔
      (∀ a ∈ authors, ∃ power, v.getVotingPower a = some power) ∧ n = (authors.map v.power).sum := by
  constructor
  · intro h
    refine ⟨?_,aggregateVotingPower_ok h⟩
    induction authors generalizing n with
    | nil => exact fun a ha => absurd ha not_mem_nil
    | cons a authors ih =>
      simp only [aggregateVotingPower,bind_eq_ok,okOr_ok] at h
      obtain ⟨power,hpower,rest,hrest,-⟩ := h
      intro b hb
      rcases mem_cons.mp hb with rfl | hb
      · exact ⟨power,hpower⟩
      · exact ih hrest b hb
  · rintro ⟨hknown,rfl⟩
    induction authors with
    | nil => rfl
    | cons a authors ih =>
      obtain ⟨power,hpower⟩ := hknown a mem_cons_self
      have hrest := ih fun b hb => hknown b (mem_cons_of_mem a hb)
      rw [aggregateVotingPower,okOr_ok.mpr hpower,hrest,map_cons,sum_cons,
        ValidatorVerifier.power,hpower]
      rfl

theorem checkVotingPower_perm {authors authors' : List AccountAddress} (h : authors.Perm authors') :
    v.checkVotingPower authors = .ok () → v.checkVotingPower authors' = .ok () := by
  simp only [checkVotingPower,bind_eq_ok,check_ok,aggregateVotingPower_iff]
  rintro ⟨n,⟨hknown,rfl⟩,hle⟩
  exact ⟨_,⟨fun a ha => hknown a (h.mem_iff.mpr ha),(h.map _).sum_eq⟩,hle⟩

def indexOf (v : ValidatorVerifier) (a : AccountAddress) : ℕ := (v.addressToValidatorIndex a).getD 0

def infoAt (v : ValidatorVerifier) (i : ℕ) : ValidatorConsensusInfo :=
  (v.validatorInfos[i]?).getD ⟨0,0,0⟩

def Known (v : ValidatorVerifier) (a : AccountAddress) : Prop :=
  ∃ i, v.addressToValidatorIndex a = some i

theorem Known.getInfo (h : v.Known a) : v.indexOf a < v.len ∧ (v.infoAt (v.indexOf a)).address = a ∧
      v.getInfo a = some (v.infoAt (v.indexOf a)) := by
  obtain ⟨i,hi⟩ := h
  obtain ⟨info,hinfo,haddr⟩ := addressToValidatorIndex_some hi
  have hindex : v.indexOf a = i := by rw [indexOf,hi,getD_some]
  have hat : v.infoAt i = info := by rw [infoAt,hinfo,getD_some]
  rw [hindex,hat]
  refine ⟨(List.getElem?_eq_some_iff.mp hinfo).1,haddr,?_⟩
  rw [ValidatorVerifier.getInfo,hi,bind_some,hinfo]

theorem known_of_getInfo {info : ValidatorConsensusInfo}
    (h : v.getInfo a = some info) : v.Known a := by
  obtain ⟨i,hi,-⟩ := bind_eq_some_iff.mp h
  exact ⟨i,hi⟩

theorem known_of_getVotingPower {power : ℕ} (h : v.getVotingPower a = some power) : v.Known a := by
  obtain ⟨info,hinfo,-⟩ := map_eq_some_iff.mp h
  exact known_of_getInfo hinfo

theorem verify_ok {s : Signature} (h : v.verify S a m s = .ok ()) :
    v.Known a ∧ S.verify (v.infoAt (v.indexOf a)).publicKey m s := by
  simp only [verify,bind_eq_ok,okOr_ok,check_ok] at h
  obtain ⟨key,hkey,hverify⟩ := h
  obtain ⟨info,hinfo,rfl⟩ := map_eq_some_iff.mp hkey
  have hknown := known_of_getInfo hinfo
  obtain ⟨-,-,hget⟩ := hknown.getInfo
  cases hinfo.symm.trans hget
  exact ⟨hknown,hverify⟩

def maskOf (v : ValidatorVerifier) (p : PartialSignatures) : ArxBitVec :=
  (ArxBitVec.withNumBits (v.len % 2 ^ 16)).setAll
    (p.signatures.keys.map fun a => v.indexOf a % 2 ^ 16)

theorem aggregateSignatures_iff : v.aggregateSignatures S p = .ok agg ↔
    (∀ a ∈ p.signatures.keys, v.Known a) ∧
      ∃ sig, S.aggregateSignatures (p.signatures.entries.map (·.2)) = some sig ∧
        agg = ⟨v.maskOf p,some sig⟩ := by
  simp only [aggregateSignatures,bind_eq_ok,mapM_eq_ok,okOr_ok,Except.ok.injEq]
  constructor
  · rintro ⟨indices,hindices,sig,hsig,rfl⟩
    have heq : indices = p.signatures.keys.map v.indexOf := by
      rw [SortedMap.keys,List.map_map,← List.forall₂_eq_eq_eq,List.forall₂_map_right_iff]
      exact hindices.flip.imp fun i e he => by rw [Function.comp_apply,indexOf,he,getD_some]
    refine ⟨fun a ha => ?_,sig,hsig,?_⟩
    · obtain ⟨s,hs⟩ := SortedMap.mem_keys.mp ha
      obtain ⟨i,-,hi⟩ := forall₂_mem_right hindices.flip hs
      exact ⟨i,hi⟩
    · rw [heq,List.map_map]
      rfl
  · rintro ⟨hknown,sig,hsig,rfl⟩
    refine ⟨p.signatures.keys.map v.indexOf,?_,sig,hsig,?_⟩
    · rw [SortedMap.keys,List.map_map,List.forall₂_map_right_iff,List.forall₂_same]
      intro e he
      obtain ⟨i,hi⟩ := hknown e.1 (mem_map_of_mem he)
      rw [Function.comp_apply,indexOf,hi,getD_some]
    · rw [List.map_map]
      rfl

theorem mask_index_lt (hknown : ∀ a ∈ p.signatures.keys, v.Known a) :
    ∀ i ∈ p.signatures.keys.map v.indexOf, i < v.len := by
  intro i hi
  obtain ⟨a,ha,rfl⟩ := mem_map.mp hi
  exact (hknown a ha).getInfo.1

section Voters

variable (hlen : v.len < 2 ^ 16) (hknown : ∀ a ∈ p.signatures.keys, v.Known a)
include hlen hknown

theorem maskOf_eq : v.maskOf p =
    (ArxBitVec.withNumBits v.len).setAll (p.signatures.keys.map v.indexOf) := by
  rw [maskOf,Nat.mod_eq_of_lt hlen]
  congr 1
  refine map_congr_left fun a ha => Nat.mod_eq_of_lt ?_
  exact (hknown a ha).getInfo.1.trans hlen

theorem iterOnes_maskOf : (v.maskOf p).iterOnes.Perm (p.signatures.keys.map v.indexOf) := by
  have hinj : (p.signatures.keys.map v.indexOf).Nodup := by
    refine List.Nodup.of_map (fun i => (v.infoAt i).address) ?_
    have hid : (p.signatures.keys.map v.indexOf).map (fun i => (v.infoAt i).address) =
        p.signatures.keys := by
      rw [List.map_map]
      exact (map_congr_left fun a ha => (hknown a ha).getInfo.2.1).trans (map_id _)
    rw [hid]
    exact p.signatures.keys_nodup
  rw [maskOf_eq hlen hknown]
  refine (perm_ext_iff_of_nodup (iterOnes_nodup _) hinj).mpr fun i => ?_
  exact ArxBitVec.mem_iterOnes_mask (mask_index_lt hknown) hlen

/-- The validators at the set bits pass the check if those that have signed are a quorum. -/
theorem checkVoters_maskOf (hpower : v.checkVotingPower p.signatures.keys = .ok ()) :
    v.checkVoters (v.maskOf p) = .ok ((v.maskOf p).iterOnes.map v.infoAt) := by
  have hperm := iterOnes_maskOf hlen hknown
  simp only [checkVoters,bind_eq_ok,mapM_eq_ok,okOr_ok,Except.ok.injEq]
  refine ⟨(),?_,_,?_,(),?_,rfl⟩
  · rw [Nat.mod_eq_of_lt hlen,maskOf_eq hlen hknown]
    exact ArxBitVec.checkNumOfVoters_mask (mask_index_lt hknown)
  · rw [forall₂_map_right_iff,forall₂_same]
    intro i hi
    have hlt := mask_index_lt hknown i (hperm.mem_iff.mp hi)
    rw [infoAt,List.getElem?_eq_getElem hlt,getD_some]
  · refine checkVotingPower_perm ?_ hpower
    rw [List.map_map]
    refine List.Perm.trans ?_ (hperm.map _).symm
    rw [List.map_map]
    refine List.Perm.of_eq ?_
    exact (map_id _).symm.trans
      (map_congr_left fun a ha => (hknown a ha).getInfo.2.1.symm)

end Voters

theorem verifyMultiSignatures_aggregate (hS : S.Aggregates) (hlen : v.len < 2 ^ 16)
    (hvalid : ∀ a s, (a,s) ∈ p.signatures.entries → v.verify S a m s = .ok ())
    (hpower : v.checkVotingPower p.signatures.keys = .ok ())
    (hagg : v.aggregateSignatures S p = .ok agg) : v.verifyMultiSignatures S m agg = .ok () := by
  obtain ⟨hknown,sig,hsig,rfl⟩ := aggregateSignatures_iff.mp hagg
  have hperm := iterOnes_maskOf hlen hknown
  have hvoters := checkVoters_maskOf hlen hknown hpower
  let l := p.signatures.entries.map fun e => ((v.infoAt (v.indexOf e.1)).publicKey,e.2)
  have hne : l ≠ [] := by
    intro hnil
    rw [map_eq_nil_iff.mp hnil,map_nil,hS.empty] at hsig
    cases hsig
  have hl : ∀ q ∈ l, S.verify q.1 m q.2 := by
    intro q hq
    obtain ⟨⟨a,s⟩,he,rfl⟩ := mem_map.mp hq
    exact (verify_ok (hvalid a s he)).2
  have hkeys : (((v.maskOf p).iterOnes.map v.infoAt).map (·.publicKey)).Perm (l.map (·.1)) := by
    refine ((hperm.map v.infoAt).map _).trans (List.Perm.of_eq ?_)
    rw [SortedMap.keys,List.map_map,List.map_map,List.map_map,List.map_map]
    rfl
  have hsigs : (p.signatures.entries.map (·.2)).Perm (l.map (·.2)) := by
    rw [List.map_map]
    exact .refl _
  obtain ⟨key,hkey,hverify⟩ := hS.multi m l hne hl _ _ sig hkeys hsigs hsig
  simp only [verifyMultiSignatures,bind_eq_ok,okOr_ok,check_ok]
  exact ⟨_,hvoters,sig,rfl,key,hkey,hverify⟩

end ValidatorVerifier

end Arx.Types
