import Arx.Consensus.Pipeline

/-!
# The steps of the pipeline

The items of the buffer are first those with results and then those without; each function succeeds
on such a buffer and leaves one.
-/

namespace Arx.Consensus.BufferManager
open Movelib Arx.Types List Option

abbrev Items := List (HashValue × BufferItem)

def blocksOf (items : Items) : List ExecutedBlock := items.flatMap (·.2.getBlocks)

/-- The buffer holds `done`, the items with results, and then `todo`. -/
structure Layout (x : Execution) (c : Crypto) (v : ValidatorVerifier) (h : History)
    (m : BufferManager) (done todo : Items) : Prop where
  verifier : m.verifier = v
  represents : m.buffer.Represents (done ++ todo)
  finished : ∀ p ∈ done, Finished x c h p
  waiting : ∀ p ∈ todo, Waiting x c h p
  signingRoot : ∀ k ∈ m.signingRoot, k ∈ (done ++ todo).map (·.1)
  accounted : h.received.map (·.block) =
    h.persisted.map (·.block) ++ (blocksOf (done ++ todo)).map (·.block)
  executed : ∀ b ∈ h.persisted, b ∈ h.executed
  /-- Of the items without results only the first has been requested to be executed. -/
  requested : ∀ blocks ∈ h.requested, ∃ last, blocks.getLast? = some last ∧ last ∈ h.ordered ∧
    ∀ p ∈ todo, p.1 = last.id c → todo.head?.map (·.1) = some p.1 ∧ p.2.getBlocks = blocks
  count : m.buffer.count = 0 ∨ ∃ a ∈ h.ordered, m.buffer.count ≤ a.round
  ended : ∀ t ∈ m.endEpochTimestamp, x.epochEnd = some t
  follows : x.Follows m.endEpochTimestamp.isSome (blocksOf todo)
  pending : ∀ b ∈ blocksOf todo, b ∈ h.received
  known : ∀ b ∈ h.received, x.ends b → m.endEpochTimestamp.isSome ∨ b ∈ blocksOf todo

def Resting (done : Items) : Prop := ∀ p ∈ done, p.2.isAggregated = false

def RootAt (m : BufferManager) (_done todo : Items) : Prop :=
  m.executionRoot = todo.head?.map (·.1)

/-- The execution root is there, or it is to be found from the head. -/
def RootReady (m : BufferManager) (done todo : Items) : Prop :=
  m.executionRoot = none ∨ RootAt m done todo

/-- The search for the execution root starts at an item before those without results. -/
def RootBefore (m : BufferManager) (done todo : Items) : Prop :=
  ∃ d₁ d₂, done = d₁ ++ d₂ ∧ m.executionRoot.or m.buffer.head = (d₂ ++ todo).head?.map (·.1)

structure Ordered (h : History) : Prop where
  of_received : h.persisted.map (·.block) <+: h.received.map (·.block)
  executed : ∀ b ∈ h.persisted, b ∈ h.executed

/-- The proof of each persisting request names the last of its blocks. -/
def ProofsName (c : Crypto) (sent : List Action) : Prop :=
  ∀ blocks proof, Action.persistingRequest blocks proof ∈ sent →
    ∃ last, blocks.getLast? = some last ∧ proof.commitInfo.id = last.id c

def Action.isQuiet : Action → Bool
  | persistingRequest _ _ => false
  | purge => false
  | _ => true

def Quiet (sent : List Action) : Prop := ∀ a ∈ sent, a.isQuiet = true

section Histories

variable {h : History} {sent sent' : List Action}

theorem Quiet.nil : Quiet [] := nofun

theorem Quiet.not_purge (hq : Quiet sent) : sent.any Action.isPurge = false := by
  rw [List.any_eq_false]
  intro a ha
  have hquiet := hq a ha
  cases a <;> first | exact Bool.false_ne_true | cases hquiet

theorem Quiet.send {a : Action} (ha : a.isQuiet = true) :
    (h.send a).ordered = h.ordered ∧ (h.send a).received = h.received ∧
      (h.send a).executed = h.executed ∧ (h.send a).persisted = h.persisted ∧
      h.cleared.send a = (h.send a).cleared := by
  cases a <;> first | exact ⟨rfl,rfl,rfl,rfl,rfl⟩ | cases ha

theorem Quiet.sendAll (hq : Quiet sent) (h : History) :
    (h.sendAll sent).ordered = h.ordered ∧ (h.sendAll sent).received = h.received ∧
      (h.sendAll sent).executed = h.executed ∧ (h.sendAll sent).persisted = h.persisted ∧
      h.cleared.sendAll sent = (h.sendAll sent).cleared := by
  induction sent generalizing h with
  | nil => exact ⟨rfl,rfl,rfl,rfl,rfl⟩
  | cons a rest ih =>
    obtain ⟨h₁,h₂,h₃,h₄,h₅⟩ := Quiet.send (h := h) (hq a mem_cons_self)
    obtain ⟨r₁,r₂,r₃,r₄,r₅⟩ := ih (fun b hb => hq b (mem_cons_of_mem _ hb)) (h.send a)
    refine ⟨r₁.trans h₁,r₂.trans h₂,r₃.trans h₃,r₄.trans h₄,?_⟩
    change (h.cleared.send a).sendAll rest = _
    rw [h₅,r₅]
    rfl

theorem Quiet.proofsName {c : Crypto} (hq : Quiet sent) : ProofsName c sent :=
  fun _ _ hmem => absurd (hq _ hmem) nofun

theorem ProofsName.append {c : Crypto} (hs : ProofsName c sent) (hs' : ProofsName c sent') :
    ProofsName c (sent ++ sent') :=
  fun blocks proof hmem => (mem_append.mp hmem).elim (hs blocks proof) (hs' blocks proof)

theorem Ordered.quiet (ho : Ordered h) (hq : Quiet sent) : Ordered (h.sendAll sent) := by
  obtain ⟨-,hreceived,hexecuted,hpersisted,-⟩ := hq.sendAll h
  refine ⟨?_,?_⟩
  · rw [hpersisted,hreceived]
    exact ho.of_received
  · rw [hpersisted,hexecuted]
    exact ho.executed

theorem Quiet.after_append (hq : Quiet sent') (h : History) :
    h.after (sent ++ sent') = (h.after sent).sendAll sent' := by
  have hpurge := hq.not_purge
  unfold History.after
  rw [any_append,hpurge,Bool.or_false,h.sendAll_append]
  split_ifs
  · exact ((hq.sendAll _).2.2.2.2).symm
  · rfl

end Histories

section Layouts

variable {x : Execution} {c : Crypto} {v : ValidatorVerifier} {h : History} {m : BufferManager}
  {done todo : Items} {sent : List Action} {k : HashValue} {buffer : Buffer BufferItem}
  {item item' : BufferItem}

theorem Layout.ordered (hl : Layout x c v h m done todo) : Ordered h :=
  ⟨⟨_,hl.accounted.symm⟩,hl.executed⟩

theorem Layout.keys_nodup (hl : Layout x c v h m done todo) : ((done ++ todo).map (·.1)).Nodup :=
  hl.represents.nodup

theorem Layout.todo_unique (hl : Layout x c v h m done todo) {p q : HashValue × BufferItem}
    (hp : p ∈ todo) (hq : q ∈ todo) (heq : p.1 = q.1) : p = q := by
  have hnodup := hl.keys_nodup
  rw [map_append] at hnodup
  exact inj_on_of_nodup_map (nodup_append'.mp hnodup).2.1 hp hq heq

theorem Layout.empty {h : History} (hv : m.verifier = v) (hbuffer : m.buffer = .new)
    (hroot : m.signingRoot = none) (hreceived : h.received = []) (hpersisted : h.persisted = [])
    (hrequested : ∀ blocks ∈ h.requested, ∃ last, blocks.getLast? = some last ∧ last ∈ h.ordered)
    (hended : ∀ t ∈ m.endEpochTimestamp, x.epochEnd = some t) : Layout x c v h m [] [] where
  verifier := hv
  represents := by
    rw [hbuffer]
    exact Buffer.new_represents
  finished := nofun
  waiting := nofun
  signingRoot := by
    rw [hroot]
    exact nofun
  accounted := by
    rw [hreceived,hpersisted]
    rfl
  executed := by
    rw [hpersisted]
    exact nofun
  requested blocks hb := by
    obtain ⟨last,hlast,hmem⟩ := hrequested blocks hb
    exact ⟨last,hlast,hmem,nofun⟩
  count := by
    rw [hbuffer]
    exact .inl rfl
  ended := hended
  follows := by
    cases m.endEpochTimestamp.isSome <;> trivial
  pending := nofun
  known := by
    rw [hreceived]
    exact nofun

theorem RootReady.before (hr : RootReady m done todo) (hl : Layout x c v h m done todo) :
    RootBefore m done todo := by
  have hhead := hl.represents.head
  rcases hr with hnone | hat
  · refine ⟨[],done,rfl,?_⟩
    rw [hnone]
    exact hhead
  · cases todo with
    | nil =>
      refine ⟨[],done,rfl,?_⟩
      rw [hat]
      exact hhead
    | cons p rest =>
      refine ⟨done,[],(append_nil done).symm,?_⟩
      rw [hat]
      rfl

/-- From a layout with the root as `R` says the function leads to one with the root as `R'` says. -/
def Advances (x : Execution) (c : Crypto) (v : ValidatorVerifier)
    (R R' : BufferManager → Items → Items → Prop)
    (f : BufferManager → Except Failure (List Action × BufferManager)) : Prop :=
  ∀ h m done todo, Layout x c v h m done todo → Resting done → R m done todo →
    ∃ sent m', f m = .ok (sent,m') ∧ Quiet sent ∧
      ∃ done' todo', Layout x c v (h.sendAll sent) m' done' todo' ∧ Resting done' ∧ R' m' done' todo'

theorem advanceExecutionRoot_advances : Advances x c v RootBefore RootAt advanceExecutionRoot := by
  rintro h m done todo hl hrest ⟨d₁,d₂,rfl,hcursor⟩
  have hrep : m.buffer.Represents (d₁ ++ (d₂ ++ todo)) := by
    rw [← append_assoc]
    exact hl.represents
  have hfind : ((d₂ ++ todo).find? fun p => p.2.isOrdered) = todo.head? := by
    have hnone : (d₂.find? fun p => p.2.isOrdered) = none := by
      rw [List.find?_eq_none]
      intro p hp
      rw [(hl.finished p (mem_append_right d₁ hp)).isOrdered]
      exact Bool.false_ne_true
    rw [List.find?_append,hnone]
    cases todo with
    | nil => rfl
    | cons p rest =>
      rw [List.find?_cons,(hl.waiting p mem_cons_self).isOrdered]
      rfl
  have hfound := hrep.findElemFrom BufferItem.isOrdered
  rw [hfind,← hcursor] at hfound
  cases todo with
  | nil =>
    refine ⟨[],{ m with executionRoot := none },?_,Quiet.nil,_,[],{ hl with },hrest,rfl⟩
    simp only [BufferManager.advanceExecutionRoot,bind_eq_ok]
    exact ⟨_,hfound,_,rfl,rfl⟩
  | cons p rest =>
    obtain ⟨k,item⟩ := p
    have hget := hl.represents.get
    have hreq : m.executionRequests m.executionRoot (some k) =
        .ok [.executionRequest item.getBlocks (m.executionRoot = some k)] := by
      simp only [executionRequests,isSome_some,if_true,bind_eq_ok]
      exact ⟨item,hget,rfl⟩
    refine ⟨[.executionRequest item.getBlocks (m.executionRoot = some k)],
      { m with executionRoot := some k },?_,?_,_,_,{ hl with requested := ?_ },hrest,rfl⟩
    · simp only [BufferManager.advanceExecutionRoot,bind_eq_ok]
      exact ⟨_,hfound,_,hreq,rfl⟩
    · intro a ha
      rw [mem_singleton.mp ha]
      rfl
    · intro blocks hb
      rcases mem_append.mp hb with hb | hb
      · exact hl.requested blocks hb
      · obtain rfl := mem_singleton.mp hb
        have hp : ((k,item) : HashValue × BufferItem) ∈ (k,item) :: rest := mem_cons_self
        obtain ⟨i,last,hitem,hlast,hk,-,-,hmem⟩ := hl.waiting _ hp
        subst hitem
        refine ⟨last,hlast,hmem last (mem_of_getLast? hlast),fun q hq heq => ?_⟩
        obtain rfl := hl.todo_unique hq hp (heq.trans hk.symm)
        exact ⟨rfl,rfl⟩

theorem advanceExecutionRootIfNone_advances :
    Advances x c v RootReady RootAt advanceExecutionRootIfNone := by
  intro h m done todo hl hrest hroot
  unfold BufferManager.advanceExecutionRootIfNone
  split_ifs with hnone
  · exact advanceExecutionRoot_advances h m done todo hl hrest (hroot.before hl)
  · rcases hroot with hroot | hat
    · rw [hroot] at hnone
      exact absurd rfl hnone
    · exact ⟨[],m,rfl,Quiet.nil,done,todo,hl,hrest,hat⟩

theorem split_at_key {items : Items} {k : HashValue} (h : k ∈ items.map (·.1)) :
    ∃ before after, items = before ++ after ∧ some k = after.head?.map (·.1) := by
  obtain ⟨p,hp,rfl⟩ := mem_map.mp h
  obtain ⟨before,after,hitems⟩ := append_of_mem hp
  exact ⟨before,p :: after,hitems,rfl⟩

theorem advanceSigningRoot_advances : Advances x c v RootAt RootAt advanceSigningRoot := by
  intro h m done todo hl hrest hroot
  obtain ⟨before,after,hitems,hcursor⟩ : ∃ before after, done ++ todo = before ++ after ∧
      m.signingRoot.or m.buffer.head = after.head?.map (·.1) := by
    cases hs : m.signingRoot with
    | none => exact ⟨[],done ++ todo,rfl,hl.represents.head⟩
    | some k => exact split_at_key (hl.signingRoot k hs)
  have hrep := hl.represents
  rw [hitems] at hrep
  have hfound := hrep.findElemFrom BufferItem.isExecuted
  rw [← hcursor] at hfound
  cases hfind : after.find? fun p => p.2.isExecuted with
  | none =>
    rw [hfind] at hfound
    refine ⟨[],{ m with signingRoot := none },?_,Quiet.nil,done,todo,
      { hl with signingRoot := nofun },hrest,hroot⟩
    simp only [BufferManager.advanceSigningRoot,bind_eq_ok]
    exact ⟨_,hfound,_,rfl,rfl⟩
  | some p =>
    rw [hfind] at hfound
    obtain ⟨k,item⟩ := p
    have hmem : (k,item) ∈ done ++ todo := by
      rw [hitems]
      exact mem_append_right before (mem_of_find?_eq_some hfind)
    have hexecuted : item.isExecuted = true :=
      List.find?_some (p := fun q : HashValue × BufferItem => q.2.isExecuted) hfind
    obtain ⟨i,rfl⟩ : ∃ i, item = .executed i := by
      cases item with
      | executed i => exact ⟨i,rfl⟩
      | ordered i => cases hexecuted
      | signed i => cases hexecuted
      | aggregated i => cases hexecuted
    obtain ⟨before',after',hitems'⟩ := append_of_mem hmem
    have hrep' := hl.represents
    rw [hitems'] at hrep'
    have hreq : m.signingRequests m.signingRoot (some k) = .ok [.signingRequest i.orderedProof
        i.partialCommitProof.ledgerInfo (m.signingRoot = some k)] := by
      simp only [signingRequests,isSome_some,if_true,bind_eq_ok]
      exact ⟨_,hrep'.get,_,rfl,rfl⟩
    refine ⟨[.signingRequest i.orderedProof i.partialCommitProof.ledgerInfo
      (m.signingRoot = some k)],{ m with signingRoot := some k },?_,?_,done,todo,
      { hl with signingRoot := ?_ },hrest,hroot⟩
    · simp only [BufferManager.advanceSigningRoot,bind_eq_ok]
      exact ⟨_,hfound,_,hreq,rfl⟩
    · intro a ha
      rw [mem_singleton.mp ha]
      rfl
    · intro k' hk'
      cases hk'
      exact mem_map_of_mem hmem

theorem advanceSigningRootIfNone_advances :
    Advances x c v RootAt RootAt advanceSigningRootIfNone := by
  intro h m done todo hl hrest hroot
  unfold BufferManager.advanceSigningRootIfNone
  split_ifs
  · exact advanceSigningRoot_advances h m done todo hl hrest hroot
  · exact ⟨[],m,rfl,Quiet.nil,done,todo,hl,hrest,hroot⟩

structure Arrives (x : Execution) (c : Crypto) (h : History) (m : BufferManager)
    (blocks : List ExecutedBlock) (proof : LedgerInfoWithSignatures) : Prop where
  announces : ∃ last, blocks.getLast? = some last ∧ Announces c proof last
  fresh : ∀ b ∈ blocks, b.id c ∉ h.ordered.map (·.id c)
  later : ∀ b ∈ blocks, (∀ a ∈ h.ordered, a.round < b.round) ∧ 0 < b.round ∧ b.round < 2 ^ 64
  follows : x.Follows (m.endEpochTimestamp.isSome || h.received.any x.ends) blocks

theorem Layout.known_eq (hl : Layout x c v h m done todo) :
    (m.endEpochTimestamp.isSome || (blocksOf todo).any x.ends) =
      (m.endEpochTimestamp.isSome || h.received.any x.ends) := by
  rw [Bool.eq_iff_iff,Bool.or_eq_true,Bool.or_eq_true,List.any_eq_true,List.any_eq_true]
  constructor
  · rintro (hsome | ⟨b,hb,hends⟩)
    · exact .inl hsome
    · exact .inr ⟨b,hl.pending b hb,hends⟩
  · rintro (hsome | ⟨b,hb,hends⟩)
    · exact .inl hsome
    · exact (hl.known b hb hends).imp_right fun hmem => ⟨b,hmem,hends⟩

theorem Layout.processOrderedBlocks {blocks : List ExecutedBlock}
    {proof : LedgerInfoWithSignatures} (hl : Layout x c v h m done todo)
    (ha : Arrives x c h m blocks proof) (hroot : RootAt m done todo) :
    ∃ m' p, m.processOrderedBlocks c blocks proof = .ok ([],m') ∧
      Layout x c v (h.receive (.orderedBlocks blocks proof)) m' done (todo ++ [p]) ∧
      RootReady m' done (todo ++ [p]) := by
  obtain ⟨last,hlast,hannounces⟩ := ha.announces
  have hlast_mem := mem_of_getLast? hlast
  let item := BufferItem.newOrdered blocks proof
  have hid : item.blockId c = .ok (last.id c) := by
    simp only [BufferItem.blockId,bind_eq_ok,unwrap,okOr_ok]
    exact ⟨last,hlast,rfl⟩
  have hkey : last.id c ∉ (done ++ todo).map (·.1) := by
    intro hmem
    obtain ⟨p,hp,hpk⟩ := mem_map.mp hmem
    refine ha.fresh last hlast_mem ?_
    rw [← hpk]
    rcases mem_append.mp hp with hp | hp
    · exact (hl.finished p hp).key_mem
    · exact (hl.waiting p hp).key_mem
  obtain ⟨hlater,hpos,hbound⟩ := ha.later last hlast_mem
  have hcount : m.buffer.count + 1 ≤ last.round := by
    rcases hl.count with hzero | ⟨a,ha,hle⟩
    · omega
    · have := hlater a ha
      omega
  obtain ⟨buffer,hpush,hrep,hbuffer⟩ := hl.represents.pushBack hkey (by omega) item
  have hsub : h.ordered ⊆ h.ordered ++ blocks := subset_append_left _ _
  have hblocks : blocksOf (todo ++ [(last.id c,item)]) = blocksOf todo ++ blocks := by
    simp [blocksOf,item,BufferItem.newOrdered,BufferItem.getBlocks]
  refine ⟨{ m with buffer := buffer },(last.id c,item),?_,?_,?_⟩
  · simp only [BufferManager.processOrderedBlocks,bind_eq_ok]
    exact ⟨_,hid,_,hpush,rfl⟩
  · constructor
    case verifier => exact hl.verifier
    case represents =>
      rw [← append_assoc]
      exact hrep
    case finished => exact fun p hp => (hl.finished p hp).mono hsub (List.Subset.refl _)
    case waiting =>
      refine forall_mem_append.mpr ⟨fun p hp => (hl.waiting p hp).mono hsub,
        forall_mem_singleton.mpr ?_⟩
      exact ⟨_,last,rfl,hlast,rfl,hannounces,by rintro _ ⟨⟩,fun b hb => mem_append_right _ hb⟩
    case signingRoot =>
      intro k hk
      rw [← append_assoc,map_append]
      exact mem_append_left _ (hl.signingRoot k hk)
    case accounted =>
      rw [← append_assoc]
      have hall : blocksOf (done ++ todo ++ [(last.id c,item)]) = blocksOf (done ++ todo) ++ blocks := by
        simp [blocksOf,item,BufferItem.newOrdered,BufferItem.getBlocks]
      change (h.received ++ blocks).map _ = h.persisted.map _ ++ _
      rw [hall,map_append,map_append,← append_assoc,← hl.accounted]
    case executed => exact hl.executed
    case requested =>
      intro bs hbs
      obtain ⟨l,hl',hmem,huniq⟩ := hl.requested bs hbs
      refine ⟨l,hl',hsub hmem,fun p hp heq => ?_⟩
      rcases mem_append.mp hp with hp | hp
      · obtain ⟨hhead,hsame⟩ := huniq p hp heq
        refine ⟨?_,hsame⟩
        rw [List.head?_append,map_or,hhead]
        rfl
      · -- a block that has been requested is not new
        rw [mem_singleton.mp hp] at heq
        dsimp only at heq
        exact absurd (heq ▸ mem_map_of_mem hmem) (ha.fresh last hlast_mem)
    case count =>
      refine .inr ⟨last,mem_append_right _ hlast_mem,?_⟩
      exact hbuffer.le.trans hcount
    case ended => exact hl.ended
    case follows =>
      rw [hblocks,x.follows_append,hl.known_eq]
      exact ⟨hl.follows,ha.follows⟩
    case pending =>
      intro b hb
      rw [hblocks] at hb
      rcases mem_append.mp hb with hb | hb
      · exact mem_append_left _ (hl.pending b hb)
      · exact mem_append_right _ hb
    case known =>
      intro b hb hends
      rw [hblocks]
      rcases mem_append.mp hb with hb | hb
      · exact (hl.known b hb hends).imp_right (mem_append_left _)
      · exact .inr (mem_append_right _ hb)
  · cases todo with
    | nil => exact .inl hroot
    | cons p rest => exact .inr hroot

def left (m : BufferManager) (keys : List HashValue) (buffer : Buffer BufferItem) : BufferManager :=
  { m with
    buffer := buffer
    signingRoot := m.signingRoot.filter (· ∉ keys)
    executionRoot := m.executionRoot.filter (· ∉ keys) }

theorem popped_left {keys : List HashValue} {b b' : Buffer BufferItem} :
    (m.popped b k).left keys b' = m.left (k :: keys) b' := by
  have hroot : ∀ r : Cursor, (if r = some k then none else r).filter (· ∉ keys) =
      r.filter (· ∉ k :: keys) := by
    intro r
    cases r with
    | none => rfl
    | some k' =>
      by_cases hk : k' = k
      · simp [hk,Option.filter]
      · simp [hk,Option.filter]
  simp only [left,popped,hroot]

theorem popUntil_eq {item : BufferItem} {before after : Items} (fuel : ℕ)
    (blocks : List ExecutedBlock) (hrep : m.buffer.Represents (before ++ (k,item) :: after))
    (hids : ∀ p ∈ before ++ [(k,item)], p.2.blockId c = .ok p.1) (hfuel : before.length < fuel) :
    ∃ buffer, buffer.Represents after ∧ buffer.count = m.buffer.count ∧
      popUntil c k fuel blocks m = (m.left ((before ++ [(k,item)]).map (·.1)) buffer).commitHead
        (blocks ++ blocksOf (before ++ [(k,item)])) item := by
  induction before generalizing m blocks fuel with
  | nil =>
    obtain ⟨fuel,rfl⟩ := Nat.exists_eq_succ_of_ne_zero hfuel.ne'
    obtain ⟨buffer,hpop,hafter,hcount⟩ := hrep.popFront
    refine ⟨buffer,hafter,hcount,?_⟩
    have hid := hids (k,item) (mem_singleton_self _)
    have hleft : m.popped buffer k = m.left [k] buffer := by
      have hnil : ∀ r : Cursor, r.filter (· ∉ []) = r := by
        intro r
        cases r <;> simp [Option.filter]
      rw [← popped_left (b := buffer)]
      simp only [left,hnil]
      rfl
    rw [popUntil,hpop]
    change (item.blockId c >>= fun id => _) = _
    rw [hid]
    change (if k = k then _ else _) = _
    rw [hleft]
    simp [blocksOf]
  | cons p before ih =>
    obtain ⟨fuel,rfl⟩ := Nat.exists_eq_succ_of_ne_zero (Nat.ne_of_gt (Nat.zero_lt_of_lt hfuel))
    obtain ⟨k₀,item₀⟩ := p
    have hne : k₀ ≠ k := by
      have hnodup := hrep.nodup
      rw [cons_append,map_cons,nodup_cons] at hnodup
      rintro rfl
      exact hnodup.1 (mem_map.mpr ⟨(k₀,item),mem_append_right _ mem_cons_self,rfl⟩)
    obtain ⟨buffer,hpop,hrest,hcount⟩ := Buffer.Represents.popFront hrep
    obtain ⟨buffer',hafter,hcount',heq⟩ := ih (m := m.popped buffer k₀) fuel
      (blocks ++ item₀.getBlocks) hrest
      (fun q hq => hids q (mem_cons_of_mem _ hq)) (Nat.lt_of_succ_lt_succ hfuel)
    refine ⟨buffer',hafter,hcount'.trans hcount,?_⟩
    have hid := hids (k₀,item₀) mem_cons_self
    rw [popUntil,hpop]
    change (item₀.blockId c >>= fun id => _) = _
    rw [hid]
    change (if k₀ = k then _ else _) = _
    rw [if_neg hne,heq,popped_left]
    simp [blocksOf]

theorem commitHead_eq {i : AggregatedItem} {last : ExecutedBlock} (blocks : List ExecutedBlock)
    (hlast : i.executedBlocks.getLast? = some last) :
    ∃ notices, m.commitHead blocks (.aggregated i) =
        .ok (notices ++ [.persistingRequest blocks i.commitProof],
          if i.commitProof.ledgerInfo.endsEpoch then m.reset else m) ∧
      (∀ a ∈ notices, ∀ h : History, h.send a = h) ∧
      (∀ blocks proof, Action.persistingRequest blocks proof ∉ notices) ∧
      notices.any Action.isPurge = i.commitProof.ledgerInfo.endsEpoch := by
  let broadcast := if last.block.blockData.author = some m.author
    then [Action.broadcastCommitProof i.commitProof] else []
  have hb : ∀ a ∈ broadcast, a = .broadcastCommitProof i.commitProof := by
    intro a ha
    unfold broadcast at ha
    split_ifs at ha
    · exact mem_singleton.mp ha
    · cases ha
  have hnp : broadcast.any Action.isPurge = false := by
    rw [List.any_eq_false]
    intro a ha
    rw [hb a ha]
    exact Bool.false_ne_true
  have hhead : m.commitHead blocks (.aggregated i) =
      if i.commitProof.ledgerInfo.endsEpoch then
        .ok (broadcast ++ [.sendEpochChange ⟨[i.commitProof]⟩,.purge,
          .persistingRequest blocks i.commitProof],m.reset)
      else .ok (broadcast ++ [.persistingRequest blocks i.commitProof],m) := by
    change (unwrap i.executedBlocks.getLast? >>= fun last => _) = _
    rw [hlast]
    rfl
  rw [hhead]
  split_ifs with hends
  · refine ⟨broadcast ++ [.sendEpochChange ⟨[i.commitProof]⟩,.purge],?_,?_,?_,?_⟩
    · rw [append_assoc]
      rfl
    · intro a ha h
      rcases mem_append.mp ha with ha | ha
      · rw [hb a ha]
        rfl
      · rcases mem_cons.mp ha with rfl | ha
        · rfl
        · rw [mem_singleton.mp ha]
          rfl
    · intro bs proof hmem
      rcases mem_append.mp hmem with hmem | hmem
      · exact absurd (hb _ hmem) nofun
      · simp at hmem
    · rw [any_append,hnp,hends]
      rfl
  · refine ⟨broadcast,rfl,?_,?_,?_⟩
    · intro a ha h
      rw [hb a ha]
      rfl
    · exact fun bs proof hmem => absurd (hb _ hmem) nofun
    · rw [hnp,Bool.eq_false_iff.mpr hends]

theorem sendAll_silent (hs : ∀ a ∈ sent, ∀ h : History, h.send a = h) : h.sendAll sent = h := by
  induction sent generalizing h with
  | nil => rfl
  | cons a rest ih =>
    change (h.send a).sendAll rest = h
    rw [hs a mem_cons_self,ih fun b hb => hs b (mem_cons_of_mem _ hb)]

theorem blocksOf_append (items items' : Items) :
    blocksOf (items ++ items') = blocksOf items ++ blocksOf items' := flatMap_append

def History.persist (h : History) (blocks : List ExecutedBlock) : History :=
  { h with persisted := h.persisted ++ blocks }

theorem Layout.left {front mid : Items}
    (hl : Layout x c v h m (front ++ mid) todo) (hrep : buffer.Represents (mid ++ todo))
    (hcount : buffer.count = m.buffer.count) :
    Layout x c v (h.persist (blocksOf front)) (m.left (front.map (·.1)) buffer) mid todo :=
  { hl with
    represents := hrep
    finished := fun p hp => hl.finished p (mem_append_right _ hp)
    signingRoot := by
      intro k hk
      obtain ⟨hk,hnot⟩ := mem_filter_iff.mp hk
      have hold := hl.signingRoot k hk
      rw [append_assoc,map_append] at hold
      exact (mem_append.mp hold).resolve_left (of_decide_eq_true hnot)
    accounted := by
      have hacc := hl.accounted
      rw [append_assoc,blocksOf_append,map_append,← append_assoc,← map_append]
        at hacc
      exact hacc
    executed := by
      intro b hb
      rcases mem_append.mp hb with hb | hb
      · exact hl.executed b hb
      · obtain ⟨p,hp,hb⟩ := mem_flatMap.mp hb
        obtain ⟨_,_,_,_,_,_,hexec,_⟩ := hl.finished p (mem_append_left _ hp)
        exact hexec b hb
    count := hcount.symm ▸ hl.count }

theorem Layout.left_root {front mid : Items} (hl : Layout x c v h m (front ++ mid) todo)
    (hroot : (∃ k ∈ front.map (·.1), m.executionRoot = some k) ∨ RootAt m mid todo) :
    RootReady (m.left (front.map (·.1)) buffer) mid todo := by
  have hfilter : (m.left (front.map (·.1)) buffer).executionRoot =
      m.executionRoot.filter (· ∉ front.map (·.1)) := rfl
  rcases hroot with ⟨k,hk,hroot⟩ | hroot
  · refine .inl ?_
    rw [hfilter,hroot]
    exact filter_some_neg (by simpa using hk)
  · unfold RootReady RootAt at *
    rw [hfilter,hroot]
    cases todo with
    | nil => exact .inl rfl
    | cons p rest =>
      -- the keys of the items that are not popped are others than those that are
      have hnodup := hl.keys_nodup
      rw [append_assoc,map_append] at hnodup
      have hnot : p.1 ∉ front.map (·.1) := fun hmem => (nodup_append'.mp hnodup).2.2 hmem
        (mem_map_of_mem (mem_append_right _ mem_cons_self))
      exact .inr (filter_some_pos (decide_eq_true hnot))

theorem Layout.advanceHead {before mid : Items} {i : AggregatedItem}
    (hl : Layout x c v h m ((before ++ [(k,.aggregated i)]) ++ mid) todo) (hmid : Resting mid)
    (hroot : m.executionRoot = some k ∨ RootAt m mid todo) :
    ∃ sent m', m.advanceHead c k = .ok (sent,m') ∧ Ordered (h.sendAll sent) ∧ ProofsName c sent ∧
      ∃ done' todo', Layout x c v (h.after sent) m' done' todo' ∧ Resting done' ∧
        RootReady m' done' todo' := by
  let front : Items := before ++ [(k,.aggregated i)]
  have htarget : (k,.aggregated i) ∈ front := mem_append_right _ (mem_singleton_self _)
  have hfront : ∀ p ∈ front, Finished x c h p := fun p hp =>
    hl.finished p (mem_append_left _ hp)
  have hrep : m.buffer.Represents (before ++ (k,.aggregated i) :: (mid ++ todo)) := by
    have hrep := hl.represents
    rw [append_assoc,append_assoc] at hrep
    exact hrep
  have hfuel : before.length < m.buffer.map.keys.length + 1 := by
    have hlen := hrep.length_le
    rw [length_append] at hlen
    omega
  obtain ⟨buffer,hafter,hcount,hpop⟩ := popUntil_eq (c := c) _ [] hrep
    (fun p hp => (hfront p hp).blockId) hfuel
  obtain ⟨bs,last,hlast,-,hblocks,-,-,hto⟩ := hfront _ htarget
  have hlast' : i.executedBlocks.getLast? = some (x.exec last) := by
    change (BufferItem.aggregated i).getBlocks.getLast? = _
    rw [hblocks,List.getLast?_map,hlast]
    rfl
  obtain ⟨notices,hcommit,hsilent,hnopersist,hpurge⟩ := commitHead_eq
    (m := m.left (front.map (·.1)) buffer) (blocksOf front) hlast'
  have hsend : h.sendAll (notices ++ [.persistingRequest (blocksOf front) i.commitProof]) =
      h.persist (blocksOf front) := by
    rw [h.sendAll_append,sendAll_silent hsilent]
    rfl
  have hleft := hl.left hafter hcount
  refine ⟨_,_,hpop.trans hcommit,?_,?_,?_⟩
  · rw [hsend]
    exact hleft.ordered
  · intro blocks proof hmem
    rcases mem_append.mp hmem with hmem | hmem
    · exact absurd hmem (hnopersist blocks proof)
    · obtain ⟨rfl,rfl⟩ : blocks = blocksOf front ∧ proof = i.commitProof := by
        simpa using hmem
      refine ⟨x.exec last,?_,?_⟩
      · have hb : blocksOf front = blocksOf before ++ i.executedBlocks := by
          simp [front,blocksOf,BufferItem.getBlocks]
        rw [hb,List.getLast?_append,hlast']
        rfl
      · have hinfo : i.commitProof.commitInfo = x.commitInfo c last := hto
        rw [hinfo,x.commitInfo_id,x.exec_id]
  · have hperiod : h.after (notices ++ [.persistingRequest (blocksOf front) i.commitProof]) =
        if i.commitProof.ledgerInfo.endsEpoch then (h.persist (blocksOf front)).cleared
        else h.persist (blocksOf front) := by
      unfold History.after
      rw [hsend,any_append,hpurge]
      simp [Action.isPurge]
    rw [hperiod]
    split_ifs with hends
    · -- the manager has reset itself at the end of the epoch
      refine ⟨[],[],Layout.empty hl.verifier rfl rfl rfl rfl ?_ hl.ended,nofun,.inl rfl⟩
      intro blocks hb
      obtain ⟨l,hl',hmem,-⟩ := hl.requested blocks hb
      exact ⟨l,hl',hmem⟩
    · refine ⟨mid,todo,hleft,hmid,hl.left_root ?_⟩
      exact hroot.imp_left fun hk => ⟨k,mem_map_of_mem htarget,hk⟩

theorem mem_replaced {l₁ l₂ : Items} {p : HashValue × BufferItem} (hp : p ∈ l₁ ++ (k,item') :: l₂) :
    p = (k,item') ∨ p ∈ l₁ ++ (k,item) :: l₂ := by
  rcases mem_append.mp hp with hp | hp
  · exact .inr (mem_append_left _ hp)
  · exact (mem_cons.mp hp).imp_right fun hp =>
      mem_append_right _ (mem_cons_of_mem _ hp)

theorem head_replace {t₁ t₂ : Items} :
    (t₁ ++ (k,item') :: t₂).head?.map (·.1) = (t₁ ++ (k,item) :: t₂).head?.map (·.1) := by
  cases t₁ <;> rfl

theorem Layout.replace_done {d₁ d₂ : Items} (hl : Layout x c v h m (d₁ ++ (k,item) :: d₂) todo)
    (hrep : buffer.Represents (d₁ ++ (k,item') :: d₂ ++ todo))
    (hcount : buffer.count = m.buffer.count) (hitem : Finished x c h (k,item'))
    (hblocks : item'.getBlocks = item.getBlocks) :
    Layout x c v h { m with buffer := buffer } (d₁ ++ (k,item') :: d₂) todo :=
  { hl with
    represents := hrep
    finished := fun p hp => (mem_replaced hp).elim (fun heq => heq ▸ hitem) (hl.finished p)
    signingRoot := by
      intro k' hk'
      have hold := hl.signingRoot k' hk'
      simp only [map_append,map_cons] at hold ⊢
      exact hold
    accounted := by
      rw [hl.accounted]
      simp only [blocksOf,flatMap_append,flatMap_cons,hblocks]
    count := hcount.symm ▸ hl.count }

theorem Layout.replace_todo {t₁ t₂ : Items} (hl : Layout x c v h m done (t₁ ++ (k,item) :: t₂))
    (hrep : buffer.Represents (done ++ (t₁ ++ (k,item') :: t₂)))
    (hcount : buffer.count = m.buffer.count) (hitem : Waiting x c h (k,item'))
    (hblocks : item'.getBlocks = item.getBlocks) :
    Layout x c v h { m with buffer := buffer } done (t₁ ++ (k,item') :: t₂) := by
  have hsame : blocksOf (t₁ ++ (k,item') :: t₂) = blocksOf (t₁ ++ (k,item) :: t₂) := by
    simp only [blocksOf,flatMap_append,flatMap_cons,hblocks]
  exact { hl with
    represents := hrep
    waiting := fun p hp => (mem_replaced hp).elim (fun heq => heq ▸ hitem) (hl.waiting p)
    signingRoot := by
      intro k' hk'
      have hold := hl.signingRoot k' hk'
      simp only [map_append,map_cons] at hold ⊢
      exact hold
    accounted := by rw [hl.accounted,blocksOf_append done,blocksOf_append done,hsame]
    requested := by
      intro blocks hb
      obtain ⟨last,hlast,hmem,huniq⟩ := hl.requested blocks hb
      refine ⟨last,hlast,hmem,fun p hp heq => ?_⟩
      rw [head_replace]
      rcases mem_replaced hp with rfl | hp
      · rw [hblocks]
        exact huniq (k,item) (mem_append_right _ mem_cons_self) heq
      · exact huniq p hp heq
    count := hcount.symm ▸ hl.count
    follows := hsame ▸ hl.follows
    pending := hsame ▸ hl.pending
    known := hsame ▸ hl.known }

theorem Layout.execute {rest : Items} (hl : Layout x c v h m done ((k,item) :: rest))
    (hrep : buffer.Represents (done ++ (k,item') :: rest))
    (hcount : buffer.count = m.buffer.count) (hitem : Finished x c h (k,item'))
    (hblocks : item'.getBlocks = item.getBlocks.map x.exec) :
    Layout x c v h
      { m with
        buffer := buffer
        endEpochTimestamp := m.endEpochTimestamp.or
          ((item.getBlocks.find? x.ends).map (·.timestampUsecs)) } (done ++ [(k,item')]) rest := by
  have htodo : blocksOf ((k,item) :: rest) = item.getBlocks ++ blocksOf rest := flatMap_cons
  have hfollows := hl.follows
  rw [htodo,x.follows_append] at hfollows
  have hsome := x.updated_isSome m.endEpochTimestamp item.getBlocks
  constructor
  case verifier => exact hl.verifier
  case represents =>
    rw [append_assoc]
    exact hrep
  case finished => exact forall_mem_append.mpr ⟨hl.finished,forall_mem_singleton.mpr hitem⟩
  case waiting => exact fun p hp => hl.waiting p (mem_cons_of_mem _ hp)
  case signingRoot =>
    intro k' hk'
    have hold := hl.signingRoot k' hk'
    rw [append_assoc]
    simp only [map_append,map_cons,singleton_append] at hold ⊢
    exact hold
  case accounted =>
    have hsame : item'.getBlocks.map (·.block) = item.getBlocks.map (·.block) := by
      rw [hblocks,List.map_map]
      exact map_congr_left fun b _ => x.exec_block b
    rw [hl.accounted]
    simp only [blocksOf,flatMap_append,flatMap_cons,flatMap_nil,append_nil,
      map_append,hsame,append_assoc]
  case executed => exact hl.executed
  case requested =>
    intro blocks hb
    obtain ⟨last,hlast,hmem,huniq⟩ := hl.requested blocks hb
    refine ⟨last,hlast,hmem,fun p hp heq => ?_⟩
    -- what has been requested is the item that is executed now
    obtain ⟨hhead,-⟩ := huniq p (mem_cons_of_mem _ hp) heq
    have hnodup := hl.keys_nodup
    rw [map_append] at hnodup
    have hnot := (nodup_cons.mp (nodup_append'.mp hnodup).2.1).1
    have hkp : k = p.1 := some.inj hhead
    exact absurd (mem_map.mpr ⟨p,hp,hkp.symm⟩) hnot
  case count => exact hcount.symm ▸ hl.count
  case ended => exact x.updated_end hfollows.1 hl.ended
  case follows =>
    rw [hsome]
    exact hfollows.2
  case pending =>
    intro b hb
    refine hl.pending b ?_
    exact mem_append_right _ hb
  case known =>
    intro b hb hends
    rw [hsome,Bool.or_eq_true,List.any_eq_true]
    rcases hl.known b hb hends with hk | hk
    · exact .inl (.inl hk)
    · rcases mem_append.mp hk with hk | hk
      · exact .inl (.inr ⟨b,hk,hends⟩)
      · exact .inr hk

end Layouts

end Arx.Consensus.BufferManager
