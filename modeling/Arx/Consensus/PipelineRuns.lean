import Arx.Consensus.PipelineSteps
import Arx.Consensus.SafetyRulesRuns

/-!
# The runs of the pipeline

Whatever the order of the events is, the blocks are persisted in the order in which they are
received.
-/

namespace Arx.Consensus.BufferManager
open Movelib Arx.Types List Option

variable {x : Execution} {c : Crypto} {v : ValidatorVerifier} {h : History} {m : BufferManager}
    {done todo : Items} {sent : List Action}
    {f : BufferManager → Except Failure (List Action × BufferManager)} {k : HashValue}
    {R : BufferManager → Items → Items → Prop} {item : BufferItem}

/-- What is left by an event: the history of the period is in order and the items are laid out, with
the execution root as `R` says. -/
structure Settled (x : Execution) (c : Crypto) (v : ValidatorVerifier) (h : History)
    (R : BufferManager → Items → Items → Prop) (sent : List Action) (m : BufferManager) : Prop where
  ordered : Ordered (h.sendAll sent)
  named : ProofsName c sent
  layout : ∃ done todo, Layout x c v (h.after sent) m done todo ∧ Resting done ∧ R m done todo

def Outcome.Fine (x : Execution) (c : Crypto) (v : ValidatorVerifier) (h : History)
    (R : BufferManager → Items → Items → Prop) (r : Outcome) : Prop :=
  ∃ m, r.2 = .ok m ∧ Settled x c v h R r.1 m

theorem Layout.settled (hl : Layout x c v h m done todo) (hrest : Resting done)
    (hroot : R m done todo) :
    Settled x c v h R [] m :=
  ⟨hl.ordered,Quiet.nil.proofsName,done,todo,hl,hrest,hroot⟩

theorem Outcome.Fine.andThen {R R' : BufferManager → Items → Items → Prop} {r : Outcome}
    (hr : r.Fine x c v h R)
    (hf : Advances x c v R R' f) : (r.andThen f).Fine x c v h R' := by
  obtain ⟨sent,result⟩ := r
  obtain ⟨m,rfl,hs⟩ := hr
  obtain ⟨done,todo,hl,hrest,hroot⟩ := hs.layout
  obtain ⟨sent',m',hfm,hquiet,hlayout⟩ := hf _ m done todo hl hrest hroot
  have hthen : Outcome.andThen (sent,.ok m) f = (sent ++ sent',.ok m') := by
    unfold Outcome.andThen
    simp only [hfm]
  rw [hthen]
  refine ⟨m',rfl,?_,hs.named.append hquiet.proofsName,?_⟩
  · rw [h.sendAll_append]
    exact hs.ordered.quiet hquiet
  · rw [hquiet.after_append]
    exact hlayout

theorem Settled.fine {m' : BufferManager} (hf : f m = .ok (sent,m'))
    (hs : Settled x c v h R sent m') : (Outcome.andThen ([],.ok m) f).Fine x c v h R := by
  have hthen : Outcome.andThen ([],.ok m) f = (sent,.ok m') := by
    unfold Outcome.andThen
    simp only [hf,nil_append]
  rw [hthen]
  exact ⟨m',rfl,hs⟩

theorem Layout.take (hl : Layout x c v h m done todo) (hk : k ∈ (done ++ todo).map (·.1)) :
    ∃ item b, m.buffer.take (some k) = .ok (item,b) ∧
      ((∃ d₁ d₂, done = d₁ ++ (k,item) :: d₂ ∧ ∀ item', Finished x c h (k,item') →
          item'.getBlocks = item.getBlocks → ∃ b', b.set (some k) item' = .ok b' ∧
            Layout x c v h { m with buffer := b' } (d₁ ++ (k,item') :: d₂) todo) ∨
        ∃ t₁ t₂, todo = t₁ ++ (k,item) :: t₂ ∧ ∀ item', Waiting x c h (k,item') →
          item'.getBlocks = item.getBlocks → ∃ b', b.set (some k) item' = .ok b' ∧
            Layout x c v h { m with buffer := b' } done (t₁ ++ (k,item') :: t₂)) := by
  obtain ⟨⟨k,item⟩,hp,rfl⟩ := mem_map.mp hk
  rcases mem_append.mp hp with hp | hp
  · obtain ⟨d₁,d₂,rfl⟩ := append_of_mem hp
    have hrep : m.buffer.Represents (d₁ ++ (k,item) :: (d₂ ++ todo)) := by
      have hrep := hl.represents
      rw [append_assoc] at hrep
      exact hrep
    obtain ⟨b,htake⟩ := hrep.take
    refine ⟨item,b,htake,.inl ⟨d₁,d₂,rfl,fun item' hitem hblocks => ?_⟩⟩
    obtain ⟨b',hset,hrep',hcount⟩ := hrep.set item'
    refine ⟨b',(Buffer.set_of_take htake).trans hset,hl.replace_done ?_ hcount hitem hblocks⟩
    rw [append_assoc]
    exact hrep'
  · obtain ⟨t₁,t₂,rfl⟩ := append_of_mem hp
    have hrep : m.buffer.Represents ((done ++ t₁) ++ (k,item) :: t₂) := by
      rw [append_assoc]
      exact hl.represents
    obtain ⟨b,htake⟩ := hrep.take
    refine ⟨item,b,htake,.inr ⟨t₁,t₂,rfl,fun item' hitem hblocks => ?_⟩⟩
    obtain ⟨b',hset,hrep',hcount⟩ := hrep.set item'
    refine ⟨b',(Buffer.set_of_take htake).trans hset,hl.replace_todo ?_ hcount hitem hblocks⟩
    rw [← append_assoc]
    exact hrep'

theorem Resting.replace {d₁ d₂ : Items} {item item' : BufferItem}
    (h : Resting (d₁ ++ (k,item) :: d₂)) (hitem : item'.isAggregated = false) :
    Resting (d₁ ++ (k,item') :: d₂) := by
  intro p hp
  exact (mem_replaced hp).elim (fun heq => heq ▸ hitem) (h p)

theorem signed_quiet (vote : CommitVote) (author : Option Author) :
    Quiet [match author with
      | some proposer => Action.sendCommitVote vote proposer
      | none => .broadcastCommitVote vote] ∧
    h.sendAll [match author with
      | some proposer => Action.sendCommitVote vote proposer
      | none => .broadcastCommitVote vote] = h := by
  refine ⟨fun a ha => ?_,?_⟩
  · rw [mem_singleton.mp ha]
    cases author <;> rfl
  · cases author <;> rfl

theorem Layout.signAt (s : Signature) (hl : Layout x c v h m done todo)
    (hrest : Resting done) (hk : k ∈ (done ++ todo).map (·.1)) (hroot : RootAt m done todo) :
    ∃ sent m', m.signAt (some k) s = .ok (sent,m') ∧ Quiet sent ∧ (h.sendAll sent = h) ∧
      ∃ done' todo', Layout x c v h m' done' todo' ∧ Resting done' ∧ RootAt m' done' todo' := by
  obtain ⟨item,b,htake,hcases⟩ := hl.take hk
  simp only [BufferManager.signAt,bind_eq_ok]
  rcases hcases with ⟨d₁,d₂,rfl,hset⟩ | ⟨t₁,t₂,rfl,hset⟩
  · have hitem := hl.finished (k,item) (mem_append_right _ mem_cons_self)
    cases item with
    | ordered i => cases hitem.isOrdered
    | aggregated i =>
      cases hrest (k,.aggregated i) (mem_append_right _ mem_cons_self)
    | executed i =>
      obtain ⟨b',hb',hl'⟩ := hset _ (hitem.advanceToSigned m.author s) rfl
      obtain ⟨bs,last,hlast,-,hblocks,-⟩ := hitem
      have hlast' : i.executedBlocks.getLast? = some (x.exec last) := by
        change (BufferItem.executed i).getBlocks.getLast? = _
        rw [hblocks,List.getLast?_map,hlast]
        rfl
      obtain ⟨hquiet,hsend⟩ := signed_quiet ⟨m.author,i.partialCommitProof.ledgerInfo,s⟩
        (x.exec last).block.blockData.author
      refine ⟨_,_,⟨_,htake,?_⟩,hquiet,hsend,_,todo,hl',hrest.replace rfl,hroot⟩
      simp only [BufferItem.isExecuted,if_true,bind_eq_ok,unwrap,okOr_ok]
      exact ⟨_,rfl,_,rfl,_,hlast',b',hb',rfl⟩
    | signed i =>
      obtain ⟨b',hb',hl'⟩ := hset _ hitem rfl
      refine ⟨[],_,⟨_,htake,?_⟩,Quiet.nil,rfl,_,todo,hl',hrest,hroot⟩
      simp only [BufferItem.isExecuted,Bool.false_eq_true,if_false,bind_eq_ok]
      exact ⟨b',hb',rfl⟩
  · have hitem := hl.waiting (k,item) (mem_append_right _ mem_cons_self)
    obtain ⟨i,last,hi,-⟩ := id hitem
    subst hi
    obtain ⟨b',hb',hl'⟩ := hset _ hitem rfl
    refine ⟨[],_,⟨_,htake,?_⟩,Quiet.nil,rfl,done,_,hl',hrest,hroot⟩
    simp only [BufferItem.isExecuted,Bool.false_eq_true,if_false,bind_eq_ok]
    exact ⟨b',hb',rfl⟩

theorem processSigningResponse_advances {result : Except String Signature} {li : LedgerInfo} :
    Advances x c v RootAt RootAt fun m => m.processSigningResponse result li := by
  intro h m done todo hl hrest hroot
  unfold BufferManager.processSigningResponse
  cases result with
  | error e => exact ⟨[],m,rfl,Quiet.nil,done,todo,hl,hrest,hroot⟩
  | ok s =>
    obtain ⟨before,after,hitems,hcursor⟩ : ∃ before after, done ++ todo = before ++ after ∧
        m.signingRoot = after.head?.map (·.1) := by
      cases hs : m.signingRoot with
      | none => exact ⟨done ++ todo,[],(append_nil _).symm,rfl⟩
      | some k => exact split_at_key (hl.signingRoot k hs)
    have hrep := hl.represents
    rw [hitems] at hrep
    have hfound := hrep.findElemByKey li.commitInfo.id
    rw [← hcursor] at hfound
    simp only [bind_eq_ok]
    split_ifs at hfound with hmem
    · have hk : li.commitInfo.id ∈ (done ++ todo).map (·.1) := by
        rw [hitems,map_append]
        exact mem_append_right _ hmem
      obtain ⟨sent,m',hsign,hquiet,hsend,hlayout⟩ := hl.signAt s hrest hk hroot
      refine ⟨sent,m',⟨_,hfound,?_⟩,hquiet,?_⟩
      · exact hsign
      · rw [hsend]
        exact hlayout
    · exact ⟨[],m,⟨_,hfound,rfl⟩,Quiet.nil,done,todo,hl,hrest,hroot⟩

theorem exists_aggregated (h : item.isAggregated = true) : ∃ i, item = .aggregated i := by
  cases item with
  | aggregated i => exact ⟨i,rfl⟩
  | ordered i | executed i | signed i => cases h

/-- What a commit message may do to the item of a key: it keeps the blocks, and only an item with
results may be aggregated. -/
def Keeping (x : Execution) (c : Crypto) (h : History) (k : HashValue) (todo : Items)
    (f : BufferItem → Except Failure BufferItem) : Prop :=
  (∀ item, Finished x c h (k,item) → item.isAggregated = false →
    ∃ item', f item = .ok item' ∧ Finished x c h (k,item') ∧ item'.getBlocks = item.getBlocks) ∧
  ∀ item, (k,item) ∈ todo → Waiting x c h (k,item) →
    ∃ item', f item = .ok item' ∧ Waiting x c h (k,item') ∧ item'.getBlocks = item.getBlocks

theorem Waiting.not_aggregated (hp : Waiting x c h (k,item)) : item.isAggregated = false := by
  obtain ⟨i,last,hi,-⟩ := hp
  dsimp only at hi
  rw [hi]
  rfl

theorem Layout.updateAt {f : BufferItem → Except Failure BufferItem}
    (hl : Layout x c v h m done todo) (hrest : Resting done) (hroot : RootAt m done todo)
    (hk : k ∈ (done ++ todo).map (·.1)) (hf : Keeping x c h k todo f) :
    (∃ m' done' todo', m.updateAt k f = .ok (none,m') ∧ Layout x c v h m' done' todo' ∧
        Resting done' ∧ RootAt m' done' todo') ∨
      ∃ m' before i mid, m.updateAt k f = .ok (some k,m') ∧
        Layout x c v h m' ((before ++ [(k,.aggregated i)]) ++ mid) todo ∧ Resting mid ∧
        RootAt m' mid todo := by
  obtain ⟨item,b,htake,hcases⟩ := hl.take hk
  simp only [BufferManager.updateAt,bind_eq_ok]
  rcases hcases with ⟨d₁,d₂,rfl,hset⟩ | ⟨t₁,t₂,rfl,hset⟩
  · have hmem : (k,item) ∈ d₁ ++ (k,item) :: d₂ := mem_append_right _ mem_cons_self
    obtain ⟨item',hitem',hfin,hblocks⟩ := hf.1 item (hl.finished _ hmem) (hrest _ hmem)
    obtain ⟨b',hb',hl'⟩ := hset item' hfin hblocks
    cases hagg : item'.isAggregated with
    | false =>
      refine .inl ⟨_,_,todo,⟨_,htake,item',hitem',b',hb',?_⟩,hl',hrest.replace hagg,hroot⟩
      rw [hagg]
      rfl
    | true =>
      obtain ⟨i,rfl⟩ := exists_aggregated hagg
      refine .inr ⟨_,d₁,i,d₂,⟨_,htake,_,hitem',b',hb',rfl⟩,?_,?_,hroot⟩
      · rw [append_assoc]
        exact hl'
      · exact fun p hp => hrest p (mem_append_right _ (mem_cons_of_mem _ hp))
  · have hmem : (k,item) ∈ t₁ ++ (k,item) :: t₂ := mem_append_right _ mem_cons_self
    obtain ⟨item',hitem',hwait,hblocks⟩ := hf.2 item hmem (hl.waiting _ hmem)
    obtain ⟨b',hb',hl'⟩ := hset item' hwait hblocks
    refine .inl ⟨_,done,_,⟨_,htake,item',hitem',b',hb',?_⟩,hl',hrest,?_⟩
    · rw [hwait.not_aggregated]
      rfl
    · unfold RootAt
      rw [head_replace]
      exact hroot

theorem Layout.commitMessage {f : BufferItem → Except Failure BufferItem}
    {r : Except Failure (Option HashValue × BufferManager)} (hl : Layout x c v h m done todo)
    (hrest : Resting done) (hroot : RootAt m done todo)
    (hr : r = (m.buffer.findElemByKey m.buffer.head k >>= fun cursor => match cursor with
      | none => .ok (none,m)
      | some key => m.updateAt key f)) (hf : Keeping x c h k todo f) :
    (afterCommitMessage c r).Fine x c v h RootAt := by
  have hrep : m.buffer.Represents ([] ++ (done ++ todo)) := hl.represents
  have hfound := hrep.findElemByKey k
  rw [← hl.represents.head] at hfound
  rw [hfound] at hr
  by_cases hk : k ∈ (done ++ todo).map (·.1)
  · rw [if_pos hk] at hr
    have hr : r = m.updateAt k f := hr
    rcases hl.updateAt hrest hroot hk hf with ⟨m',done',todo',heq,hl',hrest',hroot'⟩ |
      ⟨m',before,i,mid,heq,hl',hmid,hroot'⟩
    · rw [hr,heq]
      exact ⟨m',rfl,hl'.settled hrest' hroot'⟩
    · rw [hr,heq]
      obtain ⟨sent,m'',hhead,hordered,hnamed,hlayout⟩ := hl'.advanceHead hmid (.inr hroot')
      have hfine : (Outcome.andThen ([],.ok m') fun m => m.advanceHead c k).Fine x c v h RootReady :=
        Settled.fine hhead ⟨hordered,hnamed,hlayout⟩
      exact (hfine.andThen advanceExecutionRootIfNone_advances).andThen
        advanceSigningRootIfNone_advances
  · rw [if_neg hk] at hr
    have hr : r = .ok (none,m) := hr
    rw [hr]
    exact ⟨m,rfl,hl.settled hrest hroot⟩

def Answers (x : Execution) (c : Crypto) (h : History) (id : HashValue)
    (inner : Except String (List ExecutedBlock)) : Prop :=
  ∃ blocks ∈ h.requested, (∀ last ∈ blocks.getLast?, id = last.id c) ∧
    ∀ results, inner = .ok results → results = blocks.map x.exec

theorem Layout.receive_executed (hl : Layout x c v h m done todo) (id : HashValue)
    (inner : Except String (List ExecutedBlock)) :
    Layout x c v (h.receive (.executionResponse id inner)) m done todo := by
  cases inner with
  | error e => exact hl
  | ok results =>
    have hsub : h.executed ⊆ h.executed ++ results := subset_append_left _ _
    exact { hl with
      finished := fun p hp => (hl.finished p hp).mono (List.Subset.refl _) hsub
      executed := fun b hb => hsub (hl.executed b hb) }

section Handling

variable (hS : c.ledgerInfos.Aggregates) (hquorum : 0 < v.quorumVotingPower)

include hS hquorum

theorem Layout.executeAt {rest : Items} {k : HashValue}
    (hl : Layout x c v h m done ((k,item) :: rest)) (hrest : Resting done)
    (hroot : RootAt m done ((k,item) :: rest))
    (hexec : ∀ b ∈ item.getBlocks, x.exec b ∈ h.executed) :
    ∃ sent m', m.executeAt c (some k) k (item.getBlocks.map x.exec) = .ok (sent,m') ∧
      Settled x c v h RootBefore sent m' := by
  have hwait := hl.waiting (k,item) mem_cons_self
  obtain ⟨b,htake⟩ := hl.represents.take
  have hfollows : x.Follows m.endEpochTimestamp.isSome item.getBlocks := by
    have hall := hl.follows
    have hcons : blocksOf ((k,item) :: rest) = item.getBlocks ++ blocksOf rest := flatMap_cons
    rw [hcons,x.follows_append] at hall
    exact hall.1
  obtain ⟨item',hadvance,hfin,hblocks⟩ := hwait.advanceToExecutedOrAggregated hS hquorum hfollows
    hl.ended hexec
  have hupdated : m.updatedEndEpochTimestamp c (item.getBlocks.map x.exec) =
      m.endEpochTimestamp.or ((item.getBlocks.find? x.ends).map (·.timestampUsecs)) := by
    unfold updatedEndEpochTimestamp
    rw [x.find_executed]
  obtain ⟨b',hset,hrep,hcount⟩ := hl.represents.set item'
  let m₁ : BufferManager := { m with
    buffer := b'
    endEpochTimestamp := m.updatedEndEpochTimestamp c (item.getBlocks.map x.exec) }
  have hl' := hl.execute hrep hcount hfin hblocks
  have hlast : ∃ last, (item.getBlocks.map x.exec).getLast? = some last := by
    obtain ⟨bs,last,hlast,-,hsame,-⟩ := hfin
    exact ⟨x.exec last,by rw [← hblocks,hsame,List.getLast?_map,hlast]; rfl⟩
  obtain ⟨last,hlast⟩ := hlast
  rw [← hupdated] at hl' hadvance
  rw [← hl.verifier] at hadvance
  simp only [BufferManager.executeAt,bind_eq_ok,unwrap,okOr_ok]
  cases hagg : item'.isAggregated with
  | false =>
    refine ⟨[],m₁,
      ⟨last,hlast,_,htake,item',hadvance,b',(Buffer.set_of_take htake).trans hset,?_⟩,?_⟩
    · rw [hagg]
      rfl
    · refine hl'.settled (forall_mem_append.mpr ⟨hrest,forall_mem_singleton.mpr hagg⟩)
        ⟨done,[(k,item')],rfl,?_⟩
      rw [hroot]
      rfl
  | true =>
    obtain ⟨i,rfl⟩ := exists_aggregated hagg
    have hl'' : Layout x c v h m₁ ((done ++ [(k,.aggregated i)]) ++ []) rest := by
      rw [append_nil]
      exact hl'
    obtain ⟨sent,m',hhead,hordered,hnamed,done',todo',hlayout,hrest',hready⟩ :=
      hl''.advanceHead (forall_mem_nil _) (.inl hroot)
    exact ⟨sent,m',⟨last,hlast,_,htake,_,hadvance,b',(Buffer.set_of_take htake).trans hset,hhead⟩,
      hordered,hnamed,done',todo',hlayout,hrest',hready.before hlayout⟩

theorem Layout.processExecutionResponse {id : HashValue}
    {inner : Except String (List ExecutedBlock)} (hl : Layout x c v h m done todo)
    (hrest : Resting done) (hroot : RootAt m done todo) (hanswers : Answers x c h id inner) :
    ∃ sent m', m.processExecutionResponse c id inner = .ok (sent,m') ∧
      Settled x c v (h.receive (.executionResponse id inner)) RootBefore sent m' := by
  have hl' := hl.receive_executed id inner
  have hstay := hl'.settled hrest (RootReady.before (.inr hroot) hl')
  have hfound := hl.represents.findElemByKey id
  rw [← hroot] at hfound
  simp only [BufferManager.processExecutionResponse,bind_eq_ok]
  split_ifs at hfound with hmem
  · cases inner with
    | error e => exact ⟨[],m,⟨_,hfound,rfl⟩,hstay⟩
    | ok results =>
      -- the response is to the request of the first item
      obtain ⟨blocks,hreq,hid,hresults⟩ := hanswers
      obtain ⟨p,hp,hpid⟩ := mem_map.mp hmem
      obtain ⟨last,hlast,-,huniq⟩ := hl.requested blocks hreq
      obtain ⟨hhead,hblocks⟩ := huniq p hp (hpid.trans (hid last hlast))
      cases todo with
      | nil => cases hp
      | cons q rest =>
        obtain rfl := hl.todo_unique hp mem_cons_self (some.inj hhead).symm
        obtain ⟨k,item⟩ := p
        subst hpid
        have hres : results = item.getBlocks.map x.exec := by
          rw [hblocks]
          exact hresults results rfl
        subst hres
        have hexec : ∀ b ∈ item.getBlocks, x.exec b ∈
            (h.receive (.executionResponse k (.ok (item.getBlocks.map x.exec)))).executed :=
          fun b hb => mem_append_right _ (mem_map_of_mem hb)
        obtain ⟨sent,m',heq,hsettled⟩ := hl'.executeAt hS hquorum hrest hroot hexec
        exact ⟨sent,m',⟨_,hfound,heq⟩,hsettled⟩
  · exact ⟨[],m,⟨_,hfound,rfl⟩,hstay⟩

omit hS hquorum in
theorem rebroadcastFrom_ok {before after : Items} {fuel : ℕ}
    (hrep : m.buffer.Represents (before ++ after)) (hfuel : after.length ≤ fuel) :
    ∃ sent, m.rebroadcastFrom fuel (after.head?.map (·.1)) = .ok sent ∧ Quiet sent ∧
      ∀ h : History, h.sendAll sent = h := by
  induction after generalizing before fuel with
  | nil => cases fuel <;> exact ⟨[],rfl,Quiet.nil,fun _ => rfl⟩
  | cons p after ih =>
    obtain ⟨k,item⟩ := p
    cases fuel with
    | zero => exact absurd hfuel (Nat.not_succ_le_zero _)
    | succ fuel =>
      have hnext : m.buffer.Represents ((before ++ [(k,item)]) ++ after) := by
        rw [append_assoc]
        exact hrep
      obtain ⟨sent,hsent,hquiet,hsilent⟩ := ih hnext (Nat.le_of_succ_le_succ hfuel)
      simp only [List.head?_cons,map_some,rebroadcastFrom,bind_eq_ok]
      cases item with
      | ordered i => exact ⟨[],⟨_,hrep.get,rfl⟩,Quiet.nil,fun _ => rfl⟩
      | executed i => exact ⟨[],⟨_,hrep.get,rfl⟩,Quiet.nil,fun _ => rfl⟩
      | aggregated i => exact ⟨[],⟨_,hrep.get,rfl⟩,Quiet.nil,fun _ => rfl⟩
      | signed i =>
        refine ⟨.broadcastCommitVote i.commitVote :: sent,⟨_,hrep.get,?_⟩,fun a ha => ?_,fun h => ?_⟩
        · simp only [bind_eq_ok]
          exact ⟨_,hrep.getNext,sent,hsent,rfl⟩
        · rcases mem_cons.mp ha with rfl | ha
          · rfl
          · exact hquiet a ha
        · exact hsilent h

omit hS hquorum in
theorem rebroadcastCommitVotesIfNeeded_advances {rebroadcast : Bool} :
    Advances x c v RootAt RootAt fun m => m.rebroadcastCommitVotesIfNeeded rebroadcast := by
  intro h m done todo hl hrest hroot
  unfold BufferManager.rebroadcastCommitVotesIfNeeded
  split_ifs
  · have hrep : m.buffer.Represents ([] ++ (done ++ todo)) := hl.represents
    obtain ⟨sent,hsent,hquiet,hsilent⟩ := rebroadcastFrom_ok hrep hl.represents.length_le
    rw [← hl.represents.head] at hsent
    refine ⟨sent,m,?_,hquiet,done,todo,?_,hrest,hroot⟩
    · simp only [bind_eq_ok]
      exact ⟨sent,hsent,rfl⟩
    · rw [hsilent]
      exact hl
  · exact ⟨[],m,rfl,Quiet.nil,done,todo,hl,hrest,hroot⟩

structure Tracked where
  manager : BufferManager
  history : History

/-- The events that may come while the manager runs: new blocks in the order of their chain, answers
to requests of execution, and decisions with the commit info of the block that they name. Votes,
responses of the signing phase and resets come as they like. -/
def Tracked.Admits (x : Execution) (c : Crypto) (s : Tracked) (e : Event) : Prop :=
  s.manager.stop = false ∧
  match e with
  | .orderedBlocks blocks proof => Arrives x c s.history s.manager blocks proof
  | .executionResponse id inner => Answers x c s.history id inner
  | .commitDecision decision => ∀ b ∈ s.history.ordered,
      b.id c = decision.ledgerInfo.commitInfo.id →
      decision.ledgerInfo.commitInfo = x.commitInfo c b
  | _ => True

theorem Layout.handle {e : Event} (hl : Layout x c v h m done todo) (hrest : Resting done)
    (hroot : RootAt m done todo) (he : Tracked.Admits x c ⟨m,h⟩ e) :
    (m.handle c e).Fine x c v (h.receive e) RootAt := by
  obtain ⟨hrun,he⟩ := he
  have hstart : ∀ h, Layout x c v h m done todo →
      Outcome.Fine x c v h RootAt ([],.ok m) := fun h hl => ⟨m,rfl,hl.settled hrest hroot⟩
  unfold BufferManager.handle
  rw [if_neg (by rw [hrun]; exact Bool.false_ne_true)]
  cases e with
  | orderedBlocks blocks proof =>
    obtain ⟨m',p,heq,hl',hready⟩ := hl.processOrderedBlocks he hroot
    exact Outcome.Fine.andThen (Settled.fine heq (hl'.settled hrest hready))
      advanceExecutionRootIfNone_advances
  | resetRequest stop =>
    refine ⟨_,rfl,hl.ordered,fun _ _ hmem => ?_,[],[],?_,nofun,rfl⟩
    · simp [processResetRequest] at hmem
    · refine Layout.empty hl.verifier rfl rfl rfl rfl (fun blocks hb => ?_) hl.ended
      obtain ⟨last,hlast,hmem,-⟩ := hl.requested blocks hb
      exact ⟨last,hlast,hmem⟩
  | executionResponse id inner =>
    obtain ⟨sent,m',heq,hsettled⟩ := hl.processExecutionResponse hS hquorum hrest hroot he
    exact ((Settled.fine heq hsettled).andThen advanceExecutionRoot_advances).andThen
      advanceSigningRootIfNone_advances
  | signingResponse result li =>
    exact ((hstart h hl).andThen processSigningResponse_advances).andThen
      advanceSigningRoot_advances
  | commitVote vote =>
    refine hl.commitMessage hrest hroot rfl ⟨fun item hitem hagg => ?_,fun item _ hitem => ?_⟩
    · exact hitem.addVote hS hquorum hl.verifier hagg
    · exact hitem.addVote
  | commitDecision decision =>
    refine hl.commitMessage hrest hroot rfl ⟨fun item hitem hagg => ?_,fun item hmem hitem => ?_⟩
    · exact hitem.decide hagg he
    · refine hitem.decide hl.follows (fun b hb => ?_) he
      exact mem_flatMap.mpr ⟨_,hmem,hb⟩
  | tick rebroadcast => exact (hstart h hl).andThen rebroadcastCommitVotesIfNeeded_advances

omit hS hquorum in
theorem Layout.new (author : Author) : Layout x c v .start (.new author v) [] [] :=
  Layout.empty rfl rfl rfl rfl rfl nofun nofun

omit hS hquorum in
def Tracked.step (c : Crypto) (s : Tracked) (e : Event) : Except Failure Tracked :=
  match s.manager.handle c e with
  | (_,.error f) => .error f
  | (sent,.ok m) => .ok ⟨m,(s.history.receive e).after sent⟩

theorem Tracked.reached_layout {author : Author} {s : Tracked}
    (hs : Reached (Tracked.step c) (Tracked.Admits x c) ⟨.new author v,.start⟩ s) :
    ∃ done todo, Layout x c v s.history s.manager done todo ∧ Resting done ∧
      RootAt s.manager done todo := by
  have hnew : ∃ done todo, Layout x c v .start (.new author v) done todo ∧ Resting done ∧
      RootAt (.new author v) done todo := ⟨[],[],Layout.new author,nofun,rfl⟩
  refine hs.invariant (I := fun s => ∃ done todo, Layout x c v s.history s.manager done todo ∧
    Resting done ∧ RootAt s.manager done todo) hnew ?_
  rintro t e u ⟨done,todo,hl,hrest,hroot⟩ he hstep
  obtain ⟨m',hm',hsettled⟩ := hl.handle hS hquorum hrest hroot he
  unfold Tracked.step at hstep
  split at hstep
  · cases hstep
  · rename_i sent m heq
    cases hstep
    rw [heq] at hm' hsettled
    cases hm'
    exact hsettled.layout

/-- Whatever the events are, the manager does not panic; what it has persisted in the period is what
it has received first, each block with its result, and a proof names the last block it is sent with. -/
theorem persisted_in_order {author : Author} {s : Tracked}
    (hs : Reached (Tracked.step c) (Tracked.Admits x c) ⟨.new author v,.start⟩ s) {e : Event}
    (he : s.Admits x c e) :
    (∃ m, (s.manager.handle c e).2 = .ok m) ∧
      Ordered ((s.history.receive e).sendAll (s.manager.handle c e).1) ∧
      ProofsName c (s.manager.handle c e).1 := by
  obtain ⟨done,todo,hl,hrest,hroot⟩ := Tracked.reached_layout hS hquorum hs
  obtain ⟨m',hm',hsettled⟩ := hl.handle hS hquorum hrest hroot he
  exact ⟨⟨m',hm'⟩,hsettled.ordered,hsettled.named⟩

end Handling

section Samples
open SafetyRules (numeric solo)

def soloBlock : ExecutedBlock :=
  ⟨⟨⟨1,1,10,SafetyRules.genesisCert 1 2,.nilBlock []⟩,none⟩,⟨0,0,none,[]⟩⟩

def nextBlock : ExecutedBlock :=
  ⟨⟨⟨1,2,11,SafetyRules.genesisCert 1 2,.nilBlock []⟩,none⟩,⟨0,0,none,[]⟩⟩

def soloExecution : Execution where
  exec b := ⟨b.block,⟨5,1,none,[]⟩⟩
  epochEnd := none
  exec_block _ := rfl

def orderedProof : LedgerInfoWithSignatures :=
  ⟨⟨nextBlock.blockInfo numeric,7⟩,
    ⟨(ArxBitVec.withNumBits 1).set 0,some (1 + nextBlock.id numeric + 7000)⟩⟩

def Tracked.next (s : Tracked) (e : Event) : Tracked := (s.step numeric e).toOption.getD s

theorem Tracked.next_ok {s : Tracked} {e : Event} (h : (s.step numeric e).toOption.isSome) :
    s.step numeric e = .ok (s.next e) := eq_ok_of_isSome h s

def soloOrdered : Tracked :=
  Tracked.next ⟨.new 1 solo,.start⟩ (.orderedBlocks [soloBlock,nextBlock] orderedProof)

def soloExecuted : Tracked := soloOrdered.next (.executionResponse (nextBlock.id numeric)
  (.ok [soloExecution.exec soloBlock,soloExecution.exec nextBlock]))

theorem soloExecuted_reached : Reached (Tracked.step numeric)
    (Tracked.Admits soloExecution numeric) ⟨.new 1 solo,.start⟩ soloExecuted := by
  have harrives : Arrives soloExecution numeric .start (.new 1 solo) [soloBlock,nextBlock]
      orderedProof := by
    refine ⟨⟨nextBlock,rfl,rfl,rfl,rfl,rfl⟩,nofun,fun b hb => ?_,nofun,nofun,trivial⟩
    obtain rfl | rfl := mem_pair.mp hb
    · exact ⟨nofun,by decide,by decide⟩
    · exact ⟨nofun,by decide,by decide⟩
  have hordered : Reached (Tracked.step numeric) (Tracked.Admits soloExecution numeric)
      ⟨.new 1 solo,.start⟩ soloOrdered :=
    .tail (.orderedBlocks [soloBlock,nextBlock] orderedProof) .refl ⟨rfl,harrives⟩
      (Tracked.next_ok (by decide +kernel))
  have hanswers : Answers soloExecution numeric soloOrdered.history (nextBlock.id numeric)
      (.ok [soloExecution.exec soloBlock,soloExecution.exec nextBlock]) := by
    refine ⟨[soloBlock,nextBlock],by decide +kernel,fun last hlast => ?_,fun results hres => ?_⟩
    · have hsame : nextBlock = last := some.inj hlast
      rw [hsame]
    · exact (Except.ok.inj hres).symm
  exact .tail (.executionResponse (nextBlock.id numeric)
      (.ok [soloExecution.exec soloBlock,soloExecution.exec nextBlock]))
    hordered ⟨by decide +kernel,hanswers⟩ (Tracked.next_ok (by decide +kernel))

def soloVote : CommitVote :=
  ⟨1,⟨(soloExecution.exec nextBlock).blockInfo numeric,7⟩,1 + nextBlock.id numeric + 7000⟩

/-- With the vote the two blocks are persisted. -/
theorem persisted_in_order_solo :
    let sent := (soloExecuted.manager.handle numeric (.commitVote soloVote)).1
    ((soloExecuted.history.receive (.commitVote soloVote)).sendAll sent).persisted =
        [soloExecution.exec soloBlock,soloExecution.exec nextBlock] ∧
      Ordered ((soloExecuted.history.receive (.commitVote soloVote)).sendAll sent) ∧
      ProofsName numeric sent := by
  have hS : numeric.ledgerInfos.Aggregates := Scheme.linear_aggregates _
  have hquorum : 0 < solo.quorumVotingPower := by decide
  obtain ⟨-,hordered,hnamed⟩ := persisted_in_order hS hquorum soloExecuted_reached
    (e := .commitVote soloVote) ⟨by decide +kernel,trivial⟩
  exact ⟨by decide +kernel,hordered,hnamed⟩

/-- The proof that the blocks are ordered passes as a commit decision for them, and the manager panics. -/
theorem decision_of_order_panics :
    Reached (Tracked.step numeric) (Tracked.Admits soloExecution numeric) ⟨.new 1 solo,.start⟩
        soloExecuted ∧
      CommitDecision.verify numeric ⟨orderedProof⟩ solo = .ok () ∧
      (match soloExecuted.manager.step numeric (.commitDecision ⟨orderedProof⟩) with
        | .error f => some f
        | .ok _ => none) =
        some (.panic "assertion failed: commit_info == commit_proof.commit_info()") := by
  refine ⟨soloExecuted_reached,by decide +kernel,by decide +kernel⟩

end Samples

end Arx.Consensus.BufferManager
