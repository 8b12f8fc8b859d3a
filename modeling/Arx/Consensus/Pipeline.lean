import Arx.Consensus.BufferManager

/-!
# The blocks that go through the pipeline

What executing the blocks of an epoch gives, and the events that may reach the manager.
-/

namespace Arx.Consensus
open Movelib Arx.Types List Option

/-- The execution of the blocks of an epoch, which has the same result whenever it is repeated. -/
structure Execution where
  exec : ExecutedBlock → ExecutedBlock
  /-- The time of the block that ends the epoch. -/
  epochEnd : Option ℕ
  exec_block : ∀ b, (exec b).block = b.block

namespace Execution

variable (x : Execution) (c : Crypto)

def ends (b : ExecutedBlock) : Bool := (x.exec b).computeResult.hasReconfiguration

def commitInfo (b : ExecutedBlock) : BlockInfo :=
  match x.epochEnd with
  | none => (x.exec b).blockInfo c
  | some t =>
    if x.ends b then { (x.exec b).blockInfo c with timestampUsecs := t }
    else (x.exec b).blockInfo c

/-- The blocks come one after the other: the first that ends the epoch gives its time, those after it
execute no transactions and are not earlier. -/
def Follows : Bool → List ExecutedBlock → Prop
  | _, [] => True
  | true, b :: rest => ((x.exec b).isReconfigurationSuffix ∧
      ∃ t ∈ x.epochEnd, t ≤ b.timestampUsecs) ∧ Follows true rest
  | false, b :: rest => (x.ends b → x.epochEnd = some b.timestampUsecs) ∧ Follows (x.ends b) rest

variable {x c} {ended : Bool} {bs bs' : List ExecutedBlock} {b last : ExecutedBlock}

theorem exec_id (b : ExecutedBlock) : (x.exec b).id c = b.id c := by
  unfold ExecutedBlock.id
  rw [x.exec_block]

theorem exec_timestampUsecs (b : ExecutedBlock) :
    (x.exec b).timestampUsecs = b.timestampUsecs := by
  unfold ExecutedBlock.timestampUsecs
  rw [x.exec_block]

theorem ends_of_suffix (h : (x.exec b).isReconfigurationSuffix) : x.ends b :=
  (Bool.and_eq_true_iff.mp h).1

theorem follows_append : x.Follows ended (bs ++ bs') ↔
    x.Follows ended bs ∧ x.Follows (ended || bs.any x.ends) bs' := by
  induction bs generalizing ended with
  | nil => cases ended <;> simp [Follows]
  | cons b rest ih =>
    cases ended with
    | true =>
      simp only [cons_append,Follows,ih,Bool.true_or,and_assoc]
    | false =>
      simp only [cons_append,Follows,ih,any_cons,Bool.false_or,and_assoc]

theorem Follows.suffix (h : x.Follows true bs) (hb : b ∈ bs) :
    (x.exec b).isReconfigurationSuffix ∧ ∃ t ∈ x.epochEnd, t ≤ b.timestampUsecs := by
  induction bs with
  | nil => cases hb
  | cons a rest ih =>
    rcases mem_cons.mp hb with rfl | hb
    · exact h.1
    · exact ih h.2 hb

theorem Follows.end_le (h : x.Follows ended bs) (hb : b ∈ bs) (hends : x.ends b) :
    ∃ t ∈ x.epochEnd, t ≤ b.timestampUsecs ∧
      (b.timestampUsecs ≠ t → (x.exec b).isReconfigurationSuffix) := by
  induction bs generalizing ended with
  | nil => cases hb
  | cons a rest ih =>
    cases ended with
    | true =>
      obtain ⟨hsuffix,t,ht,hle⟩ := h.suffix hb
      exact ⟨t,ht,hle,fun _ => hsuffix⟩
    | false =>
      rcases mem_cons.mp hb with rfl | hb
      · exact ⟨_,h.1 hends,le_rfl,fun hne => absurd rfl hne⟩
      · exact ih h.2 hb

theorem Follows.first_end (h : x.Follows false bs) (hfind : bs.find? x.ends = some b) :
    x.epochEnd = some b.timestampUsecs := by
  induction bs with
  | nil => cases hfind
  | cons a rest ih =>
    rw [List.find?_cons] at hfind
    cases hends : x.ends a with
    | true =>
      rw [hends] at hfind
      cases hfind
      exact h.1 hends
    | false =>
      rw [hends] at hfind
      have hrest := h.2
      rw [hends] at hrest
      exact ih hrest hfind

theorem Follows.last_ends (h : x.Follows ended bs) (hends : (ended || bs.any x.ends) = true)
    (hlast : bs.getLast? = some last) : x.ends last := by
  obtain ⟨front,rfl⟩ := List.getLast?_eq_some_iff.mp hlast
  obtain ⟨-,hone⟩ := follows_append.mp h
  rw [any_append,← Bool.or_assoc,Bool.or_eq_true] at hends
  rcases hends with hfront | hlast
  · rw [hfront] at hone
    exact ends_of_suffix hone.1.1
  · simpa using hlast

theorem find_executed : (((bs.map x.exec).find? fun b => (b.blockInfo c).hasReconfiguration).map
    (·.timestampUsecs)) = (bs.find? x.ends).map (·.timestampUsecs) := by
  rw [List.find?_map,Option.map_map]
  have hts : ExecutedBlock.timestampUsecs ∘ x.exec = ExecutedBlock.timestampUsecs :=
    funext exec_timestampUsecs
  rw [hts]
  rfl

section Reconcile

variable {e : Option ℕ} (hfollows : x.Follows e.isSome bs) (he : ∀ t ∈ e, x.epochEnd = some t)

include hfollows he

theorem updated_end : ∀ t ∈ e.or ((bs.find? x.ends).map (·.timestampUsecs)), x.epochEnd = some t := by
  intro t ht
  cases e with
  | some t' => exact he t ht
  | none =>
    obtain ⟨b,hb,rfl⟩ := map_eq_some_iff.mp ht
    exact hfollows.first_end hb

omit hfollows he in
theorem updated_isSome (x : Execution) (e : Option ℕ) (bs : List ExecutedBlock) : (e.or ((bs.find? x.ends).map (·.timestampUsecs))).isSome =
    (e.isSome || bs.any x.ends) := by
  rw [isSome_or,isSome_map,any_eq]
  congr 1
  rw [Bool.eq_iff_iff,List.find?_isSome,decide_eq_true_iff]

/-- The commit info that the manager computes is the one that validators sign. -/
theorem reconciledInfo_eq (hlast : bs.getLast? = some last) :
    reconciledInfo c (x.exec last) (e.or ((bs.find? x.ends).map (·.timestampUsecs))) =
      .ok (x.commitInfo c last) := by
  have hsome := updated_isSome x e bs
  have hend := updated_end hfollows he
  cases he' : e.or ((bs.find? x.ends).map (·.timestampUsecs)) with
  | none =>
    rw [he'] at hsome
    have hno : x.ends last = false := by
      have hany : bs.any x.ends = false := (Bool.or_eq_false_iff.mp hsome.symm).2
      exact Bool.eq_false_iff.mpr (any_eq_false.mp hany last (mem_of_getLast? hlast))
    unfold reconciledInfo commitInfo
    cases x.epochEnd with
    | none => rfl
    | some t => simp [hno]
  | some t =>
    rw [he'] at hsome hend
    have hends := hfollows.last_ends hsome.symm hlast
    obtain ⟨t',ht',hle,hsuffix⟩ := hfollows.end_le (mem_of_getLast? hlast) hends
    obtain rfl : t' = t := some.inj (ht'.symm.trans (hend t rfl))
    have hts : ((x.exec last).blockInfo c).timestampUsecs = last.timestampUsecs :=
      exec_timestampUsecs last
    have hinfo : x.commitInfo c last =
        { (x.exec last).blockInfo c with timestampUsecs := t' } := by
      unfold commitInfo
      rw [hend t' rfl]
      exact if_pos hends
    unfold reconciledInfo
    dsimp only
    split_ifs with hne
    · -- the time is changed back to that of the end
      have hallow : allowTimestampChange ((x.exec last).blockInfo c) t' := by
        unfold allowTimestampChange
        rw [Bool.and_eq_true,decide_eq_true_iff,hts]
        exact ⟨hends,hle⟩
      rw [hts] at hne
      simp only [bind_eq_ok,check_ok,changeTimestamp]
      exact ⟨(),hsuffix hne,(),hallow,by rw [hinfo]⟩
    · rw [hinfo]
      rw [not_not] at hne
      rw [← hne]

end Reconcile

theorem commitInfo_id (b : ExecutedBlock) : (x.commitInfo c b).id = b.id c := by
  unfold commitInfo
  split
  · exact exec_id b
  · split_ifs
    · exact exec_id b
    · exact exec_id b

theorem matchOrderedOnly_commitInfo {info : BlockInfo} (hfollows : x.Follows ended bs)
    (hb : b ∈ bs) (hepoch : info.epoch = b.epoch) (hround : info.round = b.round)
    (hid : info.id = b.id c) (hts : info.timestampUsecs = b.timestampUsecs) :
    info.matchOrderedOnly (x.commitInfo c b) := by
  have hblock := x.exec_block b
  have hbase : info.matchOrderedOnly ((x.exec b).blockInfo c) := by
    unfold BlockInfo.matchOrderedOnly ExecutedBlock.blockInfo Block.genBlockInfo
    rw [hblock]
    exact decide_eq_true ⟨hepoch,hround,hid,.inl hts⟩
  unfold commitInfo
  split
  · exact hbase
  · rename_i t ht
    split_ifs with hends
    · obtain ⟨t',ht',hle,-⟩ := hfollows.end_le hb hends
      obtain rfl : t = t' := some.inj (ht.symm.trans ht')
      obtain ⟨h₁,h₂,h₃,-⟩ := of_decide_eq_true hbase
      refine decide_eq_true ⟨h₁,h₂,h₃,?_⟩
      rcases hle.eq_or_lt with heq | hlt
      · exact .inl (hts.trans heq.symm)
      · exact .inr ⟨hts ▸ hlt,hends⟩
    · exact hbase

end Execution

namespace BufferManager

/-- What has gone through the manager. A reset ends a period; the blocks that are received and those
that are persisted are counted for each period. -/
structure History where
  /-- All blocks that have been ordered. -/
  ordered : List ExecutedBlock
  received : List ExecutedBlock
  requested : List (List ExecutedBlock)
  /-- What the execution phase has returned. -/
  executed : List ExecutedBlock
  persisted : List ExecutedBlock

namespace History

def start : History := ⟨[],[],[],[],[]⟩

def receive (h : History) : Event → History
  | .orderedBlocks blocks _ =>
    { h with ordered := h.ordered ++ blocks, received := h.received ++ blocks }
  | .executionResponse _ (.ok results) => { h with executed := h.executed ++ results }
  | _ => h

def send (h : History) : Action → History
  | .executionRequest blocks _ => { h with requested := h.requested ++ [blocks] }
  | .persistingRequest blocks _ => { h with persisted := h.persisted ++ blocks }
  | _ => h

def sendAll (h : History) (sent : List Action) : History := sent.foldl send h

def cleared (h : History) : History := { h with received := [], persisted := [] }

theorem sendAll_append (h : History) (sent sent' : List Action) :
    h.sendAll (sent ++ sent') = (h.sendAll sent).sendAll sent' := foldl_append

end History

def Action.isPurge : Action → Bool
  | purge => true
  | _ => false

/-- The history after actions; those of one event belong to the period in which it came. -/
def History.after (h : History) (sent : List Action) : History :=
  if sent.any Action.isPurge then (h.sendAll sent).cleared else h.sendAll sent

structure Announces (c : Crypto) (proof : LedgerInfoWithSignatures) (b : ExecutedBlock) : Prop where
  epoch : proof.commitInfo.epoch = b.epoch
  round : proof.commitInfo.round = b.round
  id : proof.commitInfo.id = b.id c
  timestampUsecs : proof.commitInfo.timestampUsecs = b.timestampUsecs

def CommitsTo (info : BlockInfo) : BufferItem → Prop
  | .ordered _ => False
  | .executed i => i.commitInfo = info ∧ i.partialCommitProof.commitInfo = info
  | .signed i => i.partialCommitProof.commitInfo = info
  | .aggregated i => i.commitProof.commitInfo = info

section Items

variable (x : Execution) (c : Crypto) (h : History)

def Waiting (p : HashValue × BufferItem) : Prop :=
  ∃ i last, p.2 = .ordered i ∧ i.orderedBlocks.getLast? = some last ∧ p.1 = last.id c ∧
    Announces c i.orderedProof last ∧
    (∀ proof ∈ i.commitProof, proof.commitInfo = x.commitInfo c last) ∧
    ∀ b ∈ i.orderedBlocks, b ∈ h.ordered

def Finished (p : HashValue × BufferItem) : Prop :=
  ∃ (bs : List ExecutedBlock) (last : ExecutedBlock), bs.getLast? = some last ∧ p.1 = last.id c ∧ p.2.getBlocks = bs.map x.exec ∧
    (∀ b ∈ bs, b ∈ h.ordered) ∧ (∀ b ∈ p.2.getBlocks, b ∈ h.executed) ∧
    CommitsTo (x.commitInfo c last) p.2

end Items

variable {x : Execution} {c : Crypto} {h h' : History} {v : ValidatorVerifier}
    {p : HashValue × BufferItem} {k : HashValue} {item item' : BufferItem}
    {proof : LedgerInfoWithSignatures}

theorem Waiting.mono (hp : Waiting x c h p) (hordered : h.ordered ⊆ h'.ordered) :
    Waiting x c h' p := by
  obtain ⟨i,last,hi,hlast,hk,hproof,hcommit,hmem⟩ := hp
  exact ⟨i,last,hi,hlast,hk,hproof,hcommit,fun b hb => hordered (hmem b hb)⟩

theorem Finished.mono (hp : Finished x c h p) (hordered : h.ordered ⊆ h'.ordered)
    (hexecuted : h.executed ⊆ h'.executed) : Finished x c h' p := by
  obtain ⟨bs,last,hlast,hk,hblocks,hmem,hexec,hcommit⟩ := hp
  exact ⟨bs,last,hlast,hk,hblocks,fun b hb => hordered (hmem b hb),
    fun b hb => hexecuted (hexec b hb),hcommit⟩

theorem Finished.blockId (hp : Finished x c h p) : p.2.blockId c = .ok p.1 := by
  obtain ⟨bs,last,hlast,hk,hblocks,-⟩ := hp
  rw [BufferItem.blockId,hblocks,List.getLast?_map,hlast,hk,← x.exec_id]
  rfl

theorem Waiting.isOrdered (hp : Waiting x c h p) : p.2.isOrdered = true := by
  obtain ⟨i,last,hi,-⟩ := hp
  rw [hi]
  rfl

theorem Finished.isOrdered (hp : Finished x c h p) : p.2.isOrdered = false := by
  obtain ⟨bs,last,-,-,-,-,-,hcommit⟩ := hp
  cases hitem : p.2 with
  | ordered i =>
    rw [hitem] at hcommit
    exact absurd hcommit not_false
  | executed i => rfl
  | signed i => rfl
  | aggregated i => rfl

theorem Waiting.key_mem (hp : Waiting x c h p) : p.1 ∈ h.ordered.map (·.id c) := by
  obtain ⟨i,last,-,hlast,hk,-,-,hmem⟩ := hp
  rw [hk]
  exact mem_map_of_mem (hmem last (mem_of_getLast? hlast))

theorem Finished.key_mem (hp : Finished x c h p) : p.1 ∈ h.ordered.map (·.id c) := by
  obtain ⟨bs,last,hlast,hk,-,hmem,-⟩ := hp
  rw [hk]
  exact mem_map_of_mem (hmem last (mem_of_getLast? hlast))

section Totality

variable (hS : c.ledgerInfos.Aggregates) (hquorum : 0 < v.quorumVotingPower)

include hS hquorum

theorem aggregateCommitProof_total (li : LedgerInfo) {p : PartialSignatures}
    (hpower : (v.checkVotingPower p.signatures.keys).isOk) :
    ∃ agg, aggregateCommitProof c li p v = .ok ⟨li,agg⟩ := by
  have hok : v.checkVotingPower p.signatures.keys = .ok () := by
    cases hcheck : v.checkVotingPower p.signatures.keys with
    | error e =>
      rw [hcheck] at hpower
      cases hpower
    | ok u => rfl
  simp only [ValidatorVerifier.checkVotingPower,bind_eq_ok,check_ok,
    ValidatorVerifier.aggregateVotingPower_iff] at hok
  obtain ⟨n,⟨hpowers,rfl⟩,hle⟩ := hok
  have hknown : ∀ a ∈ p.signatures.keys, v.Known a := fun a ha =>
    v.known_of_getVotingPower (hpowers a ha).choose_spec
  have hne : p.signatures.entries.map (·.2) ≠ [] := by
    intro hnil
    have hkeys : p.signatures.keys = [] := map_eq_nil_iff.mpr (map_eq_nil_iff.mp hnil)
    rw [hkeys] at hle
    exact absurd (hquorum.trans_le hle) (lt_irrefl 0)
  obtain ⟨sig,hsig⟩ := hS.total _ hne
  have hagg := ValidatorVerifier.aggregateSignatures_iff.mpr ⟨hknown,sig,hsig,rfl⟩
  refine ⟨⟨v.maskOf p,some sig⟩,?_⟩
  simp only [aggregateCommitProof,bind_eq_ok,mapError_eq_ok]
  exact ⟨_,hagg,rfl⟩

theorem Waiting.advanceToExecutedOrAggregated {e : Option ℕ} (hp : Waiting x c h (k,item))
    (hfollows : x.Follows e.isSome item.getBlocks) (he : ∀ t ∈ e, x.epochEnd = some t)
    (hexec : ∀ b ∈ item.getBlocks, x.exec b ∈ h.executed) :
    ∃ item', item.advanceToExecutedOrAggregated c (item.getBlocks.map x.exec) v
        (e.or ((item.getBlocks.find? x.ends).map (·.timestampUsecs))) = .ok item' ∧
      Finished x c h (k,item') ∧ item'.getBlocks = item.getBlocks.map x.exec := by
  obtain ⟨i,last,rfl,hlast,rfl,hproof,hcommit,hmem⟩ := hp
  have hinfo := x.reconciledInfo_eq (c := c) hfollows he hlast
  have hids : ∀ q ∈ i.orderedBlocks.zip (i.orderedBlocks.map x.exec), q.1.id c = q.2.id c := by
    intro q hq
    rw [List.zip_eq_zipWith,List.zipWith_map_right,List.zipWith_self,List.mem_map] at hq
    obtain ⟨b,-,rfl⟩ := hq
    exact (x.exec_id b).symm
  have hlast' : (i.orderedBlocks.map x.exec).getLast? = some (x.exec last) := by
    rw [List.getLast?_map,hlast]
    rfl
  have hfinished : ∀ item', item'.getBlocks = i.orderedBlocks.map x.exec →
      CommitsTo (x.commitInfo c last) item' → Finished x c h (last.id c,item') := by
    intro item' hblocks hto
    refine ⟨i.orderedBlocks,last,hlast,rfl,hblocks,hmem,fun b hb => ?_,hto⟩
    rw [hblocks] at hb
    obtain ⟨a,ha,rfl⟩ := mem_map.mp hb
    exact hexec a ha
  simp only [BufferItem.advanceToExecutedOrAggregated,bind_eq_ok,check_ok,unwrap,okOr_ok]
  cases hstored : i.commitProof with
  | some proof =>
    have hto := hcommit proof hstored
    exact ⟨.aggregated ⟨_,proof⟩,⟨(),hids,(),(length_map _).symm,_,hlast',_,hinfo,
      bind_eq_ok.mpr ⟨(),check_ok.mpr hto,rfl⟩⟩,hfinished _ rfl hto,rfl⟩
  | none =>
    obtain ⟨item',hitem',hto,hblocks⟩ : ∃ item', BufferItem.executedOrAggregated c i
        (i.orderedBlocks.map x.exec) (x.commitInfo c last) v = .ok item' ∧
          CommitsTo (x.commitInfo c last) item' ∧
          item'.getBlocks = i.orderedBlocks.map x.exec := by
      unfold BufferItem.executedOrAggregated
      dsimp only
      split_ifs with hpower
      · obtain ⟨agg,hagg⟩ := aggregateCommitProof_total hS hquorum
          (generateCommitLedgerInfo (x.commitInfo c last) i.orderedProof) hpower
        rw [hagg]
        exact ⟨_,rfl,rfl,rfl⟩
      · exact ⟨_,rfl,⟨rfl,rfl⟩,rfl⟩
    exact ⟨item',⟨(),hids,(),(length_map _).symm,_,hlast',_,hinfo,hitem'⟩,
      hfinished item' hblocks hto,hblocks⟩

theorem Finished.addVote {m : BufferManager} {vote : CommitVote} (hm : m.verifier = v)
    (hp : Finished x c h (k,item)) (hagg : item.isAggregated = false) :
    ∃ item', m.addVote c vote item = .ok item' ∧ Finished x c h (k,item') ∧
      item'.getBlocks = item.getBlocks := by
  obtain ⟨bs,last,hlast,rfl,hblocks,hmem,hexec,hto⟩ := hp
  have hquorumed : ∀ (item₀ : BufferItem) (q : LedgerInfoWithPartialSignatures),
      item₀.getBlocks = item.getBlocks → CommitsTo (x.commitInfo c last) item₀ →
      q.commitInfo = x.commitInfo c last →
      ∃ item', BufferItem.aggregateIfQuorum c item₀ item.getBlocks q v = .ok item' ∧
        CommitsTo (x.commitInfo c last) item' ∧ item'.getBlocks = item.getBlocks := by
    intro item₀ q hsame hto₀ hq
    unfold BufferItem.aggregateIfQuorum
    split_ifs with hpower
    · obtain ⟨agg,hagg⟩ := aggregateCommitProof_total hS hquorum q.ledgerInfo hpower
      rw [hagg]
      exact ⟨_,rfl,hq,rfl⟩
    · exact ⟨item₀,rfl,hto₀,hsame⟩
  obtain ⟨item',hitem',hto',hsame⟩ : ∃ item', m.addVote c vote item = .ok item' ∧
      CommitsTo (x.commitInfo c last) item' ∧ item'.getBlocks = item.getBlocks := by
    unfold BufferManager.addVote
    cases item with
    | ordered i => exact absurd hto not_false
    | aggregated i => cases hagg
    | executed i =>
      unfold BufferItem.addSignatureIfMatched
      dsimp only
      split_ifs with hmatch
      · rw [hm]
        exact hquorumed _ _ rfl ⟨hto.1,hto.2⟩ hto.2
      · exact ⟨_,rfl,hto,rfl⟩
    | signed i =>
      unfold BufferItem.addSignatureIfMatched
      dsimp only
      split_ifs with hmatch
      · rw [hm]
        exact hquorumed _ _ rfl hto hto
      · exact ⟨_,rfl,hto,rfl⟩
  refine ⟨item',hitem',⟨bs,last,hlast,rfl,hsame.trans hblocks,hmem,?_,hto'⟩,hsame⟩
  rw [hsame]
  exact hexec

end Totality

theorem Waiting.addVote {m : BufferManager} {vote : CommitVote} (hp : Waiting x c h (k,item)) :
    ∃ item', m.addVote c vote item = .ok item' ∧ Waiting x c h (k,item') ∧
      item'.getBlocks = item.getBlocks := by
  obtain ⟨i,last,rfl,hrest⟩ := hp
  unfold BufferManager.addVote BufferItem.addSignatureIfMatched
  dsimp only
  split_ifs
  · exact ⟨_,rfl,⟨_,last,rfl,hrest⟩,rfl⟩
  · exact ⟨_,rfl,⟨i,last,rfl,hrest⟩,rfl⟩

theorem Finished.decide (hp : Finished x c h (k,item)) (hagg : item.isAggregated = false)
    (hproof : ∀ b ∈ h.ordered, b.id c = k → proof.commitInfo = x.commitInfo c b) :
    ∃ item', item.tryAdvanceToAggregatedWithLedgerInfo proof = .ok item' ∧
      Finished x c h (k,item') ∧ item'.getBlocks = item.getBlocks := by
  obtain ⟨bs,last,hlast,rfl,hblocks,hmem,hexec,hto⟩ := hp
  have hinfo := hproof last (hmem last (mem_of_getLast? hlast)) rfl
  cases item with
  | ordered i => exact absurd hto not_false
  | aggregated i => cases hagg
  | executed i =>
    refine ⟨.aggregated ⟨i.executedBlocks,proof⟩,?_,⟨bs,last,hlast,rfl,hblocks,hmem,hexec,hinfo⟩,rfl⟩
    exact bind_eq_ok.mpr ⟨(),check_ok.mpr (hto.1.trans hinfo.symm),rfl⟩
  | signed i =>
    refine ⟨.aggregated ⟨i.executedBlocks,proof⟩,?_,⟨bs,last,hlast,rfl,hblocks,hmem,hexec,hinfo⟩,rfl⟩
    exact bind_eq_ok.mpr ⟨(),check_ok.mpr (Eq.trans hto hinfo.symm),rfl⟩

theorem Waiting.decide {ended : Bool} {bs : List ExecutedBlock} (hp : Waiting x c h (k,item))
    (hfollows : x.Follows ended bs) (hblocks : ∀ b ∈ item.getBlocks, b ∈ bs)
    (hproof : ∀ b ∈ h.ordered, b.id c = k → proof.commitInfo = x.commitInfo c b) :
    ∃ item', item.tryAdvanceToAggregatedWithLedgerInfo proof = .ok item' ∧
      Waiting x c h (k,item') ∧ item'.getBlocks = item.getBlocks := by
  obtain ⟨i,last,rfl,hlast,rfl,hannounce,-,hmem⟩ := hp
  have hlast_mem := mem_of_getLast? hlast
  have hinfo := hproof last (hmem last hlast_mem) rfl
  have hmatch : i.orderedProof.commitInfo.matchOrderedOnly proof.commitInfo := by
    rw [hinfo]
    exact x.matchOrderedOnly_commitInfo hfollows (hblocks last hlast_mem) hannounce.epoch
      hannounce.round hannounce.id hannounce.timestampUsecs
  refine ⟨_,bind_eq_ok.mpr ⟨(),check_ok.mpr hmatch,rfl⟩,
    ⟨_,last,rfl,hlast,rfl,hannounce,fun proof' heq => ?_,hmem⟩,rfl⟩
  rw [← some.inj heq]
  exact hinfo

theorem Finished.advanceToSigned {i : ExecutedItem} (author : Author) (s : Signature)
    (hp : Finished x c h (k,.executed i)) :
    Finished x c h (k,.signed ⟨i.executedBlocks,i.partialCommitProof,
      ⟨author,i.partialCommitProof.ledgerInfo,s⟩⟩) := by
  obtain ⟨bs,last,hlast,hk,hblocks,hmem,hexec,hto⟩ := hp
  exact ⟨bs,last,hlast,hk,hblocks,hmem,hexec,hto.2⟩

end BufferManager

end Arx.Consensus
