import Arx.Consensus.BufferManager
import Arx.Consensus.SafetyRulesRuns

/-!
# The commit proofs that the buffer manager sends

A vote is added to an item when its commit info is that of the item, whatever its consensus data
hash is. The proofs verify as long as no vote makes use of that.
-/

namespace Arx.Consensus
open Movelib Arx.Types Option

section Buffers

variable {T : Type} {b b' : Buffer T} {P : T → Prop} {e : T} {cursor : Cursor}

def Buffer.All (P : T → Prop) (b : Buffer T) : Prop :=
  ∀ k item e, b.map.lookup k = some item → item.elem = some e → P e

namespace Buffer.All

theorem insert {k : HashValue} {item : LinkedItem T} (h : b.All P) (hi : ∀ e ∈ item.elem, P e)
    {count : ℕ} {head tail : Cursor} : Buffer.All P ⟨b.map.insert k item,count,head,tail⟩ := by
  intro k' item' e hlook helem
  by_cases hk : k' = k
  · subst hk
    rw [AList.lookup_insert] at hlook
    cases hlook
    exact hi e helem
  · rw [AList.lookup_insert_ne hk] at hlook
    exact h k' item' e hlook helem

theorem take (h : b.All P) (htake : b.take cursor = .ok (e,b')) :
    P e ∧ b'.All P := by
  simp only [Buffer.take,bind_eq_ok,unwrap,okOr_ok,Except.ok.injEq,Prod.mk.injEq] at htake
  obtain ⟨k,-,item,hlook,_,helem,rfl,rfl⟩ := htake
  exact ⟨h k item _ hlook helem,h.insert fun e he => absurd he (not_mem_none e)⟩

theorem set (h : b.All P) (he : P e) (hset : b.set cursor e = .ok b') : b'.All P := by
  simp only [Buffer.set,bind_eq_ok,unwrap,okOr_ok,Except.ok.injEq] at hset
  obtain ⟨k,-,item,-,rfl⟩ := hset
  refine h.insert fun e' he' => ?_
  rw [← some.inj he']
  exact he

theorem pushBack {hash : HashValue} (h : b.All P) (he : P e) (hpush : b.pushBack hash e = .ok b') :
    b'.All P := by
  simp only [Buffer.pushBack,bind_eq_ok,check_ok,Except.ok.injEq] at hpush
  obtain ⟨-,-,map,hlink,rfl⟩ := hpush
  have hinsert : Buffer.All P ⟨b.map.insert hash ⟨some e,b.count + 1,none⟩,0,none,none⟩ := by
    refine h.insert fun e' he' => ?_
    rw [← some.inj he']
    exact he
  revert hlink
  cases b.tail with
  | none =>
    intro hlink
    cases hlink
    exact hinsert
  | some tail =>
    intro hlink
    simp only [linkTail,bind_eq_ok,unwrap,okOr_ok,Except.ok.injEq] at hlink
    obtain ⟨item,hitem,rfl⟩ := hlink
    refine hinsert.insert ?_
    exact fun e' he' => hinsert tail item e' hitem he'

theorem popFront {popped : Option T} (h : b.All P) (hpop : b.popFront = .ok (popped,b')) :
    (∀ e ∈ popped, P e) ∧ b'.All P := by
  unfold Buffer.popFront at hpop
  split at hpop
  · cases hpop
    exact ⟨nofun,h⟩
  · rename_i head _
    simp only [bind_eq_ok,unwrap,okOr_ok,Except.ok.injEq,Prod.mk.injEq] at hpop
    obtain ⟨item,hitem,e,he,rfl,rfl⟩ := hpop
    refine ⟨fun e' he' => ?_,fun k item' e' hlook helem => ?_⟩
    · rw [← some.inj he']
      exact h head item e hitem he
    · by_cases hk : k = head
      · rw [hk,AList.lookup_erase] at hlook
        cases hlook
      · rw [AList.lookup_erase_ne hk] at hlook
        exact h k item' e' hlook helem

end Buffer.All

theorem Buffer.findElemByKey_some {k key : HashValue}
    (h : b.findElemByKey cursor key = .ok (some k)) : k = key := by
  cases cursor with
  | none => exact absurd (Except.ok.inj h) nofun
  | some start =>
    simp only [findElemByKey,bind_eq_ok,Except.ok.injEq,bind_eq_some_iff,
      ite_none_right_eq_some] at h
    obtain ⟨-,-,-,-,-,heq⟩ := h
    exact (some.inj heq).symm

theorem Buffer.new_all : (Buffer.new : Buffer T).All P := fun _ _ _ h => absurd h nofun

end Buffers

theorem isOk_unit {ε : Type} {x : Except ε Unit} (h : x.isOk) : x = .ok () := by
  cases x with
  | error e => cases h
  | ok u => rfl

section Items

variable {c : Crypto} {v : ValidatorVerifier} {proof : LedgerInfoWithSignatures}

def SignaturesValid (c : Crypto) (v : ValidatorVerifier) (li : LedgerInfo) (p : PartialSignatures) :
    Prop := ∀ a s, (a,s) ∈ p.signatures.entries → v.verify c.ledgerInfos a li s = .ok ()

theorem verifySignatures_valid (unverified : PartialSignatures) (li : LedgerInfo) :
    SignaturesValid c v li (verifySignatures c unverified v li) :=
  fun _ _ h => isOk_unit (SortedMap.mem_filter.mp h).2

theorem SignaturesValid.add {li : LedgerInfo} {p : PartialSignatures} {a : Author} {s : Signature}
    (h : SignaturesValid c v li p) (hs : v.verify c.ledgerInfos a li s = .ok ()) :
    SignaturesValid c v li (p.addSignature a s) := by
  intro a' s' hmem
  rcases SortedMap.mem_orInsert.mp hmem with hold | ⟨-,rfl,rfl⟩
  · exact h a' s' hold
  · exact hs

def Verifies (c : Crypto) (v : ValidatorVerifier) (proof : LedgerInfoWithSignatures) : Prop :=
  proof.verifySignatures c.ledgerInfos v = .ok ()

theorem aggregateCommitProof_verifies (hS : c.ledgerInfos.Aggregates) (hlen : v.len < 2 ^ 16)
    {li : LedgerInfo} {p : PartialSignatures} (hp : SignaturesValid c v li p)
    (hpower : (v.checkVotingPower p.signatures.keys).isOk)
    (h : aggregateCommitProof c li p v = .ok proof) : Verifies c v proof := by
  simp only [aggregateCommitProof,bind_eq_ok,mapError_eq_ok,Except.ok.injEq] at h
  obtain ⟨aggregated,hagg,rfl⟩ := h
  exact v.verifyMultiSignatures_aggregate hS hlen hp (isOk_unit hpower) hagg

namespace BufferItem

/-- The proofs of an item verify, and so do the signatures from which one will be aggregated. -/
def Valid (c : Crypto) (v : ValidatorVerifier) : BufferItem → Prop
  | ordered i => ∀ proof ∈ i.commitProof, Verifies c v proof
  | executed i => i.partialCommitProof.commitInfo = i.commitInfo ∧
      SignaturesValid c v i.partialCommitProof.ledgerInfo i.partialCommitProof.partialSigs
  | signed i =>
      SignaturesValid c v i.partialCommitProof.ledgerInfo i.partialCommitProof.partialSigs
  | aggregated i => Verifies c v i.commitProof

def VoteFits (vote : CommitVote) : BufferItem → Prop
  | executed i => i.commitInfo = vote.commitInfo → i.partialCommitProof.ledgerInfo = vote.ledgerInfo
  | signed i => i.partialCommitProof.commitInfo = vote.commitInfo →
      i.partialCommitProof.ledgerInfo = vote.ledgerInfo
  | _ => True

variable {item item' : BufferItem} {blocks : List ExecutedBlock}

theorem Valid.advanceToSigned {author : Author} {s : Signature} (hi : item.Valid c v)
    (h : item.advanceToSigned author s = .ok item') : item'.Valid c v := by
  cases item with
  | ordered i | signed i | aggregated i => cases h
  | executed i =>
    cases h
    exact hi.2

theorem tryAdvanceToAggregatedWithLedgerInfo_valid (hproof : Verifies c v proof)
    (h : item.tryAdvanceToAggregatedWithLedgerInfo proof = .ok item') : item'.Valid c v := by
  cases item with
  | aggregated i => cases h
  | ordered i =>
    obtain ⟨-,-,⟨⟩⟩ := bind_eq_ok.mp h
    intro proof' heq
    rw [← some.inj heq]
    exact hproof
  | executed i | signed i =>
    obtain ⟨-,-,⟨⟩⟩ := bind_eq_ok.mp h
    exact hproof

theorem Valid.addSignatureIfMatched {vote : CommitVote} (hi : item.Valid c v)
    (hvote : v.verify c.ledgerInfos vote.author vote.ledgerInfo vote.signature = .ok ())
    (hfits : item.VoteFits vote) (h : item.addSignatureIfMatched vote = some item') :
    item'.Valid c v := by
  cases item with
  | ordered i | aggregated i =>
    simp only [BufferItem.addSignatureIfMatched,ite_none_right_eq_some] at h
    obtain ⟨-,heq⟩ := h
    cases heq
    exact hi
  | executed i =>
    simp only [BufferItem.addSignatureIfMatched,ite_none_right_eq_some] at h
    obtain ⟨hmatch,heq⟩ := h
    cases heq
    refine ⟨hi.1,hi.2.add ?_⟩
    rw [hfits hmatch]
    exact hvote
  | signed i =>
    simp only [BufferItem.addSignatureIfMatched,ite_none_right_eq_some] at h
    obtain ⟨hmatch,heq⟩ := h
    cases heq
    have hsig : v.verify c.ledgerInfos vote.author i.partialCommitProof.ledgerInfo vote.signature =
        .ok () := by
      rw [hfits hmatch]
      exact hvote
    exact SignaturesValid.add hi hsig

variable (hS : c.ledgerInfos.Aggregates) (hlen : v.len < 2 ^ 16)

include hS hlen

theorem executedOrAggregated_valid {i : OrderedItem} {info : BlockInfo}
    (h : executedOrAggregated c i blocks info v = .ok item) : item.Valid c v := by
  have hvalid := verifySignatures_valid (c := c) (v := v) i.unverifiedSignatures
    (generateCommitLedgerInfo info i.orderedProof)
  unfold executedOrAggregated at h
  dsimp only at h
  split_ifs at h with hpower
  · obtain ⟨proof,hproof,⟨⟩⟩ := bind_eq_ok.mp h
    exact aggregateCommitProof_verifies hS hlen hvalid hpower hproof
  · cases h
    exact ⟨rfl,hvalid⟩

theorem Valid.advanceToExecutedOrAggregated {timestamp : Option ℕ} (hi : item.Valid c v)
    (h : item.advanceToExecutedOrAggregated c blocks v timestamp = .ok item') :
    item'.Valid c v := by
  cases item with
  | executed i | signed i | aggregated i => cases h
  | ordered i =>
    simp only [BufferItem.advanceToExecutedOrAggregated,bind_eq_ok,check_ok] at h
    obtain ⟨-,-,-,-,last,-,info,-,h⟩ := h
    split at h
    · rename_i proof hproof
      obtain ⟨-,-,⟨⟩⟩ := bind_eq_ok.mp h
      exact hi proof hproof
    · exact executedOrAggregated_valid hS hlen h

theorem aggregateIfQuorum_valid {p : LedgerInfoWithPartialSignatures} (hi : item.Valid c v)
    (hp : SignaturesValid c v p.ledgerInfo p.partialSigs)
    (h : aggregateIfQuorum c item blocks p v = .ok item') : item'.Valid c v := by
  unfold aggregateIfQuorum at h
  split_ifs at h with hpower
  · obtain ⟨proof,hproof,⟨⟩⟩ := bind_eq_ok.mp h
    exact aggregateCommitProof_verifies hS hlen hp hpower hproof
  · cases h
    exact hi

theorem Valid.tryAdvanceToAggregated (hi : item.Valid c v)
    (h : item.tryAdvanceToAggregated c v = .ok item') : item'.Valid c v := by
  cases item with
  | ordered i | aggregated i =>
    cases h
    exact hi
  | executed i => exact aggregateIfQuorum_valid hS hlen hi hi.2 h
  | signed i => exact aggregateIfQuorum_valid hS hlen hi hi h

end BufferItem

end Items

namespace BufferManager

def Action.proofs : Action → List LedgerInfoWithSignatures
  | persistingRequest _ proof => [proof]
  | broadcastCommitProof proof => [proof]
  | sendEpochChange proof => proof.ledgerInfoWithSigs
  | _ => []

variable {c : Crypto} {v : ValidatorVerifier} {m m' : BufferManager} {sent : List Action}
  {f : BufferManager → Except Failure (List Action × BufferManager)} {blocks : List ExecutedBlock}

def ProofsVerify (c : Crypto) (v : ValidatorVerifier) (sent : List Action) : Prop :=
  ∀ a ∈ sent, ∀ proof ∈ a.proofs, Verifies c v proof

theorem ProofsVerify.append {sent' : List Action} (h : ProofsVerify c v sent)
    (h' : ProofsVerify c v sent') : ProofsVerify c v (sent ++ sent') :=
  fun a ha => (List.mem_append.mp ha).elim (h a) (h' a)

theorem proofsVerify_nil : ProofsVerify c v [] := nofun

structure Sound (c : Crypto) (v : ValidatorVerifier) (m : BufferManager) : Prop where
  verifier : m.verifier = v
  items : m.buffer.All (BufferItem.Valid c v)

def Keeps (c : Crypto) (v : ValidatorVerifier)
    (f : BufferManager → Except Failure (List Action × BufferManager)) : Prop :=
  ∀ m sent m', Sound c v m → f m = .ok (sent,m') → Sound c v m' ∧ ProofsVerify c v sent

structure Outcome.Good (c : Crypto) (v : ValidatorVerifier) (r : Outcome) : Prop where
  sent : ProofsVerify c v r.1
  manager : ∀ m, r.2 = .ok m → Sound c v m

theorem Sound.good (h : Sound c v m) : Outcome.Good c v ([],.ok m) :=
  ⟨proofsVerify_nil,fun _ hm => Except.ok.inj hm ▸ h⟩

theorem Outcome.Good.andThen {r : Outcome} (h : r.Good c v)
    (hf : Keeps c v f) : (r.andThen f).Good c v := by
  obtain ⟨sent,result⟩ := r
  cases result with
  | error e => exact ⟨h.sent,nofun⟩
  | ok m =>
    have hm := h.manager m rfl
    unfold Outcome.andThen
    dsimp only
    cases hfm : f m with
    | error e => exact ⟨h.sent,nofun⟩
    | ok p =>
      obtain ⟨sent',m'⟩ := p
      obtain ⟨hm',hsent⟩ := hf m sent' m' hm hfm
      exact ⟨h.sent.append hsent,fun _ heq => Except.ok.inj heq ▸ hm'⟩

theorem Sound.idle (hm : Sound c v m) (h : Except.ok (ε := Failure) ([],m) = .ok (sent,m')) :
    Sound c v m' ∧ ProofsVerify c v sent := by
  cases h
  exact ⟨hm,proofsVerify_nil⟩

theorem executionRequests_verify {cursor root : Cursor}
    (h : m.executionRequests cursor root = .ok sent) : ProofsVerify c v sent := by
  unfold executionRequests at h
  split_ifs at h
  · obtain ⟨item,-,⟨⟩⟩ := bind_eq_ok.mp h
    simp [ProofsVerify,Action.proofs]
  · cases h
    exact proofsVerify_nil

theorem advanceExecutionRoot_keeps : Keeps c v advanceExecutionRoot := by
  intro m sent m' hm h
  simp only [advanceExecutionRoot,bind_eq_ok,Except.ok.injEq,Prod.mk.injEq] at h
  obtain ⟨root,-,requests,hreq,rfl,rfl⟩ := h
  exact ⟨⟨hm.verifier,hm.items⟩,executionRequests_verify hreq⟩

theorem signingRequests_verify {cursor root : Cursor}
    (h : m.signingRequests cursor root = .ok sent) : ProofsVerify c v sent := by
  unfold signingRequests at h
  split_ifs at h
  · simp only [bind_eq_ok,Except.ok.injEq] at h
    obtain ⟨item,-,executed,-,rfl⟩ := h
    simp [ProofsVerify,Action.proofs]
  · cases h
    exact proofsVerify_nil

theorem advanceSigningRoot_keeps : Keeps c v advanceSigningRoot := by
  intro m sent m' hm h
  simp only [advanceSigningRoot,bind_eq_ok,Except.ok.injEq,Prod.mk.injEq] at h
  obtain ⟨root,-,requests,hreq,rfl,rfl⟩ := h
  exact ⟨⟨hm.verifier,hm.items⟩,signingRequests_verify hreq⟩

theorem keeps_ite {p : BufferManager → Bool} (hf : Keeps c v f) :
    Keeps c v fun m => if p m then f m else .ok ([],m) := by
  intro m sent m' hm h
  dsimp only at h
  split_ifs at h
  · exact hf m sent m' hm h
  · exact hm.idle h

theorem processOrderedBlocks_keeps {proof : LedgerInfoWithSignatures} :
    Keeps c v fun m => m.processOrderedBlocks c blocks proof := by
  intro m sent m' hm h
  simp only [processOrderedBlocks,bind_eq_ok,Except.ok.injEq,Prod.mk.injEq] at h
  obtain ⟨hash,-,buffer,hpush,rfl,rfl⟩ := h
  have hitem : (BufferItem.newOrdered blocks proof).Valid c v := fun _ h => absurd h nofun
  exact ⟨⟨hm.verifier,hm.items.pushBack hitem hpush⟩,proofsVerify_nil⟩

theorem Sound.reset (hm : Sound c v m) : Sound c v m.reset := ⟨hm.verifier,Buffer.new_all⟩

theorem commitHead_keeps {item : BufferItem}
    (hitem : item.Valid c v) : Keeps c v fun m => m.commitHead blocks item := by
  intro m sent m' hm h
  simp only [commitHead,bind_eq_ok] at h
  obtain ⟨aggregated,hagg,last,-,h⟩ := h
  cases item with
  | ordered i | executed i | signed i => cases hagg
  | aggregated i =>
    obtain rfl := Except.ok.inj hagg
    have hproof : Verifies c v i.commitProof := hitem
    split_ifs at h
    all_goals
      cases h
    · exact ⟨hm.reset,by simpa [ProofsVerify,Action.proofs] using hproof⟩
    · exact ⟨hm.reset,by simpa [ProofsVerify,Action.proofs] using hproof⟩
    · exact ⟨hm,by simpa [ProofsVerify,Action.proofs] using hproof⟩
    · exact ⟨hm,by simpa [ProofsVerify,Action.proofs] using hproof⟩

theorem popUntil_keeps {target : HashValue} {fuel : ℕ} :
    Keeps c v (popUntil c target fuel blocks) := by
  induction fuel generalizing blocks with
  | zero => exact fun m sent m' _ h => absurd h nofun
  | succ fuel ih =>
    intro m sent m' hm h
    obtain ⟨⟨first,buffer⟩,hpop,h⟩ := bind_eq_ok.mp h
    obtain ⟨hfirst,hbuffer⟩ := hm.items.popFront hpop
    cases first with
    | none => cases h
    | some item =>
      obtain ⟨id,-,h⟩ := bind_eq_ok.mp h
      have hsound : Sound c v (m.popped buffer id) := ⟨hm.verifier,hbuffer⟩
      split_ifs at h
      · exact commitHead_keeps (hfirst item rfl) _ sent m' hsound h
      · exact ih _ sent m' hsound h

theorem advanceHead_keeps {target : HashValue} : Keeps c v fun m => m.advanceHead c target :=
  fun m sent m' hm h => popUntil_keeps m sent m' hm h

variable {cursor : Cursor} {id : Option HashValue}

theorem signAt_keeps {signature : Signature} : Keeps c v fun m => m.signAt cursor signature := by
  intro m sent m' hm h
  simp only [signAt,bind_eq_ok] at h
  obtain ⟨⟨item,buffer⟩,htake,h⟩ := h
  obtain ⟨hitem,hbuffer⟩ := hm.items.take htake
  split_ifs at h
  · simp only [bind_eq_ok] at h
    obtain ⟨item',hadvance,signed,-,last,-,buffer',hset,h⟩ := h
    cases h
    refine ⟨⟨hm.verifier,hbuffer.set (hitem.advanceToSigned hadvance) hset⟩,?_⟩
    cases last.block.blockData.author <;> simp [ProofsVerify,Action.proofs]
  · simp only [bind_eq_ok,Except.ok.injEq,Prod.mk.injEq] at h
    obtain ⟨buffer',hset,rfl,rfl⟩ := h
    exact ⟨⟨hm.verifier,hbuffer.set hitem hset⟩,proofsVerify_nil⟩

theorem processSigningResponse_keeps {result : Except String Signature} {li : LedgerInfo} :
    Keeps c v fun m => m.processSigningResponse result li := by
  intro m sent m' hm h
  unfold processSigningResponse at h
  split at h
  · exact hm.idle h
  · obtain ⟨cursor,-,h⟩ := bind_eq_ok.mp h
    split_ifs at h
    · exact signAt_keeps m sent m' hm h
    · exact hm.idle h

theorem Sound.updateAt {key : HashValue} {f : BufferItem → Except Failure BufferItem}
    (hm : Sound c v m)
    (hf : ∀ item entry, m.buffer.map.lookup key = some entry → entry.elem = some item →
      ∀ item', f item = .ok item' → item'.Valid c v)
    (h : m.updateAt key f = .ok (id,m')) : Sound c v m' := by
  simp only [BufferManager.updateAt,bind_eq_ok,Except.ok.injEq,Prod.mk.injEq] at h
  obtain ⟨⟨item,buffer⟩,htake,item',hitem,buffer',hset,-,rfl⟩ := h
  have hbuffer := (hm.items.take htake).2
  simp only [Buffer.take,bind_eq_ok,unwrap,okOr_ok,Except.ok.injEq,Prod.mk.injEq] at htake
  obtain ⟨_,hkey,entry,hlook,_,helem,rfl,-⟩ := htake
  cases hkey
  exact ⟨hm.verifier,hbuffer.set (hf _ entry hlook helem item' hitem) hset⟩

def VoteAgrees (m : BufferManager) (vote : CommitVote) : Prop :=
  ∀ entry ∈ m.buffer.map.lookup vote.commitInfo.id, ∀ item ∈ entry.elem, item.VoteFits vote

theorem Sound.processCommitDecision {decision : CommitDecision}
    (hm : Sound c v m) (hdecision : decision.verify c v = .ok ())
    (h : m.processCommitDecision decision = .ok (id,m')) : Sound c v m' := by
  obtain ⟨cursor,-,h⟩ := bind_eq_ok.mp h
  split at h
  · cases h
    exact hm
  · refine hm.updateAt (fun item _ _ _ item' hitem => ?_) h
    exact BufferItem.tryAdvanceToAggregatedWithLedgerInfo_valid (mapError_eq_ok.mp hdecision) hitem

theorem afterCommitMessage_good {r : Except Failure (Option HashValue × BufferManager)}
    (hr : ∀ id m, r = .ok (id,m) → Sound c v m) : (afterCommitMessage c r).Good c v := by
  cases r with
  | error e => exact ⟨proofsVerify_nil,nofun⟩
  | ok p =>
    obtain ⟨id,m⟩ := p
    have hm := (hr id m rfl).good
    cases id with
    | none => exact hm
    | some target =>
      exact ((hm.andThen advanceHead_keeps).andThen (keeps_ite advanceExecutionRoot_keeps)).andThen
        (keeps_ite advanceSigningRoot_keeps)

theorem rebroadcastFrom_verify {fuel : ℕ}
    (h : m.rebroadcastFrom fuel cursor = .ok sent) : ProofsVerify c v sent := by
  induction fuel generalizing cursor sent with
  | zero =>
    cases cursor with
    | none => exact Except.ok.inj h ▸ proofsVerify_nil
    | some key => cases h
  | succ fuel ih =>
    cases cursor with
    | none => exact Except.ok.inj h ▸ proofsVerify_nil
    | some key =>
      obtain ⟨item,-,h⟩ := bind_eq_ok.mp h
      split at h
      · simp only [bind_eq_ok,Except.ok.injEq] at h
        obtain ⟨next,-,rest,hrest,rfl⟩ := h
        have hvote : ∀ vote, ProofsVerify c v [Action.broadcastCommitVote vote] := by
          simp [ProofsVerify,Action.proofs]
        exact (hvote _).append (ih hrest)
      · cases h
        exact proofsVerify_nil

theorem rebroadcastCommitVotesIfNeeded_keeps {rebroadcast : Bool} :
    Keeps c v fun m => m.rebroadcastCommitVotesIfNeeded rebroadcast := by
  intro m sent m' hm h
  unfold rebroadcastCommitVotesIfNeeded at h
  split_ifs at h
  · simp only [bind_eq_ok,Except.ok.injEq,Prod.mk.injEq] at h
    obtain ⟨votes,hvotes,rfl,rfl⟩ := h
    exact ⟨hm,rebroadcastFrom_verify hvotes⟩
  · exact hm.idle h

def Event.Verified (c : Crypto) (v : ValidatorVerifier) : Event → Prop
  | commitVote vote => vote.verify c v = .ok ()
  | commitDecision decision => decision.verify c v = .ok ()
  | _ => True

/-- A vote is for the ledger info of the executed item whose commit info it has. -/
def VotesAgree (m : BufferManager) : Event → Prop
  | .commitVote vote => m.VoteAgrees vote
  | _ => True

def Admits (c : Crypto) (v : ValidatorVerifier) (m : BufferManager) (e : Event) : Prop :=
  e.Verified c v ∧ m.VotesAgree e

section

variable (hS : c.ledgerInfos.Aggregates) (hlen : v.len < 2 ^ 16)

include hS hlen

theorem executeAt_keeps {id : HashValue} {blocks : List ExecutedBlock} :
    Keeps c v fun m => m.executeAt c cursor id blocks := by
  intro m sent m' hm h
  simp only [executeAt,bind_eq_ok] at h
  obtain ⟨-,-,⟨item,buffer⟩,htake,item',hadvance,buffer',hset,h⟩ := h
  obtain ⟨hitem,hbuffer⟩ := hm.items.take htake
  rw [hm.verifier] at hadvance
  have hitem' := hitem.advanceToExecutedOrAggregated hS hlen hadvance
  have hsound : Sound c v { m with
      buffer := buffer', endEpochTimestamp := m.updatedEndEpochTimestamp c blocks } :=
    ⟨hm.verifier,hbuffer.set hitem' hset⟩
  split_ifs at h
  · exact advanceHead_keeps _ sent m' hsound h
  · exact hsound.idle h

theorem processExecutionResponse_keeps {id : HashValue}
    {inner : Except String (List ExecutedBlock)} :
    Keeps c v fun m => m.processExecutionResponse c id inner := by
  intro m sent m' hm h
  obtain ⟨cursor,-,h⟩ := bind_eq_ok.mp h
  split at h
  · exact hm.idle h
  · exact hm.idle h
  · exact executeAt_keeps hS hlen m sent m' hm h

theorem Sound.processCommitVote {vote : CommitVote} (hm : Sound c v m)
    (hvote : vote.verify c v = .ok ()) (hagrees : m.VoteAgrees vote)
    (h : m.processCommitVote c vote = .ok (id,m')) : Sound c v m' := by
  obtain ⟨cursor,hcursor,h⟩ := bind_eq_ok.mp h
  split at h
  · cases h
    exact hm
  · rename_i key
    obtain rfl := Buffer.findElemByKey_some hcursor
    refine hm.updateAt (fun item entry hlook helem item' hitem => ?_) h
    have hvalid := hm.items _ entry item hlook helem
    unfold addVote at hitem
    split at hitem
    · rename_i added hadded
      rw [hm.verifier] at hitem
      have hadd := hvalid.addSignatureIfMatched (mapError_eq_ok.mp hvote)
        (hagrees entry hlook item helem) hadded
      exact hadd.tryAdvanceToAggregated hS hlen hitem
    · cases hitem
      exact hvalid

theorem Sound.handle {e : Event} (hm : Sound c v m) (he : Admits c v m e) :
    (m.handle c e).Good c v := by
  unfold BufferManager.handle
  split_ifs
  · exact hm.good
  cases e with
  | orderedBlocks blocks proof =>
    exact (hm.good.andThen processOrderedBlocks_keeps).andThen
      (keeps_ite advanceExecutionRoot_keeps)
  | resetRequest stop =>
    refine ⟨by simp [processResetRequest,ProofsVerify,Action.proofs],fun m' h => ?_⟩
    cases h
    exact ⟨hm.verifier,Buffer.new_all⟩
  | executionResponse id inner =>
    exact ((hm.good.andThen (processExecutionResponse_keeps hS hlen)).andThen
      advanceExecutionRoot_keeps).andThen (keeps_ite advanceSigningRoot_keeps)
  | signingResponse result li =>
    exact (hm.good.andThen processSigningResponse_keeps).andThen advanceSigningRoot_keeps
  | commitVote vote =>
    exact afterCommitMessage_good fun _ _ h => hm.processCommitVote hS hlen he.1 he.2 h
  | commitDecision decision =>
    exact afterCommitMessage_good fun _ _ h => hm.processCommitDecision he.1 h
  | tick rebroadcast => exact hm.good.andThen rebroadcastCommitVotesIfNeeded_keeps

end

theorem Sound.new (author : Author) : Sound c v (.new author v) := ⟨rfl,Buffer.new_all⟩

/-- Whatever the events are, each commit proof that is sent verifies, also when the manager panics
after it, if each vote for the commit info of an executed item is for its ledger info. -/
theorem commit_proofs_verify (hS : c.ledgerInfos.Aggregates) (hlen : v.len < 2 ^ 16)
    {author : Author} (hm : Reached (step c) (Admits c v) (.new author v) m) {e : Event}
    (he : Admits c v m e) :
    ∀ a ∈ (m.handle c e).1, ∀ proof ∈ a.proofs,
      proof.verifySignatures c.ledgerInfos v = .ok () := by
  have hsound : Sound c v m := hm.invariant (Sound.new author) fun t o u ht hg hs =>
    (ht.handle hS hlen hg).manager u hs
  exact (hsound.handle hS hlen he).sent

section Samples
open SafetyRules (numeric)

def quartet : ValidatorVerifier := .new [⟨1,1,1⟩,⟨2,2,1⟩,⟨3,3,1⟩,⟨4,4,1⟩]

def sampleBlock (rootHash : HashValue) : ExecutedBlock :=
  ⟨⟨⟨1,1,10,SafetyRules.genesisCert 1 2,.nilBlock []⟩,none⟩,⟨rootHash,1,none,[]⟩⟩

def sampleVote (author : Author) (consensusDataHash : HashValue) : CommitVote :=
  let li : LedgerInfo := ⟨(sampleBlock 5).blockInfo numeric,consensusDataHash⟩
  ⟨author,li,author * (1 + li.commitInfo.id + 1000 * li.consensusDataHash)⟩

def applied (m : BufferManager) (e : Event) : BufferManager := (m.step numeric e).toOption.getD m

instance (vote : CommitVote) : (item : BufferItem) → Decidable (item.VoteFits vote)
  | .ordered _ => .isTrue trivial
  | .executed _ => inferInstanceAs (Decidable (_ → _))
  | .signed _ => inferInstanceAs (Decidable (_ → _))
  | .aggregated _ => .isTrue trivial

instance (vote : CommitVote) : Decidable (m.VoteAgrees vote) :=
  inferInstanceAs (Decidable (∀ entry ∈ m.buffer.map.lookup vote.commitInfo.id,
    ∀ item ∈ entry.elem, item.VoteFits vote))

theorem applied_ok {e : Event} (h : (m.step numeric e).toOption.isSome) :
    m.step numeric e = .ok (m.applied e) := eq_ok_of_isSome h m

def sampleExecuted : BufferManager :=
  (applied (.new 1 quartet)
    (.orderedBlocks [sampleBlock 0] ⟨⟨(sampleBlock 0).blockInfo numeric,7⟩,.empty⟩)).applied
    (.executionResponse ((sampleBlock 0).id numeric) (.ok [sampleBlock 5]))

def sampleManager : BufferManager :=
  (sampleExecuted.applied (.commitVote (sampleVote 1 7))).applied (.commitVote (sampleVote 2 7))

theorem sampleManager_reached :
    Reached (step numeric) (Admits numeric quartet) (.new 1 quartet) sampleManager := by
  have hordered : Reached (step numeric) (Admits numeric quartet) (.new 1 quartet) _ :=
    .tail (.orderedBlocks [sampleBlock 0] ⟨⟨(sampleBlock 0).blockInfo numeric,7⟩,.empty⟩) .refl
      ⟨trivial,trivial⟩ (applied_ok (by decide +kernel))
  have hexecuted : Reached (step numeric) (Admits numeric quartet) (.new 1 quartet) sampleExecuted :=
    .tail (.executionResponse ((sampleBlock 0).id numeric) (.ok [sampleBlock 5])) hordered
      ⟨trivial,trivial⟩ (applied_ok (by decide +kernel))
  have hagree : sampleExecuted.VoteAgrees (sampleVote 1 7) := by decide +kernel
  have hfirst : Reached (step numeric) (Admits numeric quartet) (.new 1 quartet)
      (sampleExecuted.applied (.commitVote (sampleVote 1 7))) :=
    .tail (.commitVote (sampleVote 1 7)) hexecuted ⟨rfl,hagree⟩ (applied_ok (by decide +kernel))
  have hagree' : (sampleExecuted.applied (.commitVote (sampleVote 1 7))).VoteAgrees
      (sampleVote 2 7) := by
    decide +kernel
  exact .tail (.commitVote (sampleVote 2 7)) hfirst ⟨rfl,hagree'⟩ (applied_ok (by decide +kernel))

theorem numeric_aggregates : numeric.ledgerInfos.Aggregates := Scheme.linear_aggregates _

/-- With the vote of the third validator a proof is sent, and it verifies. -/
theorem commit_proofs_verify_quartet :
    ((sampleManager.handle numeric (.commitVote (sampleVote 3 7))).1.flatMap Action.proofs).length = 1 ∧
      ∀ a ∈ (sampleManager.handle numeric (.commitVote (sampleVote 3 7))).1, ∀ proof ∈ a.proofs,
        proof.verifySignatures numeric.ledgerInfos quartet = .ok () := by
  refine ⟨by decide +kernel,?_⟩
  have hagree : sampleManager.VoteAgrees (sampleVote 3 7) := by decide +kernel
  have hverified : (sampleVote 3 7).verify numeric quartet = .ok () := rfl
  exact commit_proofs_verify numeric_aggregates (by decide) sampleManager_reached ⟨hverified,hagree⟩

/-- The vote of the third validator has another consensus data hash. It passes its verification, is
aggregated with the others, and the proof that is sent does not verify. -/
theorem commit_proof_mismatched :
    Reached (step numeric) (fun _ e => e.Verified numeric quartet) (.new 1 quartet) sampleManager ∧
      (sampleVote 3 8).verify numeric quartet = .ok () ∧
      ∃ a ∈ (sampleManager.handle numeric (.commitVote (sampleVote 3 8))).1, ∃ proof ∈ a.proofs,
        proof.verifySignatures numeric.ledgerInfos quartet = .error .invalidMultiSignature := by
  refine ⟨sampleManager_reached.mono fun _ _ h => h.1,rfl,?_⟩
  decide +kernel

end Samples

end BufferManager

end Arx.Consensus
