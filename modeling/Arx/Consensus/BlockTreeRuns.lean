import Arx.Consensus.BlockTree
import Arx.Consensus.SafetyRulesRuns

/-!
# Runs of the block tree

As long as no block is inserted below a pruned one, every stored block is below the commit root or
waits in the queue.
-/

namespace Arx.Consensus.BlockTree
open Movelib Arx.Types List Option

variable {c : Crypto} {t t' : BlockTree} {x y : HashValue} {b : ExecutedBlock}

inductive Op
  | insertBlock (b : ExecutedBlock)
  | insertQuorumCert (qc : QuorumCert)
  | commitCallback (order : Iteration) (blocksToCommit : List ExecutedBlock)
      (finalityProof : QuorumCert) (commitDecision : LedgerInfoWithSignatures)
  | updateOrderedRoot (rootId : HashValue)

def step (c : Crypto) (t : BlockTree) : Op → Except Failure BlockTree
  | .insertBlock b => do
    let (t,_) ← t.insertBlock c b
    .ok t
  | .insertQuorumCert qc => t.insertQuorumCert c qc
  | .commitCallback order blocksToCommit finalityProof commitDecision =>
    t.commitCallback c order blocksToCommit finalityProof commitDecision
  | .updateOrderedRoot rootId => t.updateOrderedRoot rootId

structure Commits (c : Crypto) (t : BlockTree) (b : ExecutedBlock)
    (blocksToCommit : List ExecutedBlock) (commitDecision : LedgerInfoWithSignatures) : Prop where
  last : blocksToCommit.getLast? = some b
  live : t.Live (b.id c)
  id : commitDecision.commitInfo.id = b.id c
  round : commitDecision.commitInfo.round = t.roundOf (b.id c)

/-- Blocks have larger rounds than their parents and pass the round check, and committed blocks are
below the commit root. -/
def Admits (c : Crypto) (t : BlockTree) : Op → Prop
  | .insertBlock b => t.getBlock (b.id c) = none →
    t.checkRound b.block = .ok () ∧ ∀ parent, t.getBlock b.parentId = some parent →
      parent.round < b.round
  | .insertQuorumCert _ => True
  | .commitCallback _ blocksToCommit _ commitDecision =>
    ∃ b, t.Commits c b blocksToCommit commitDecision
  | .updateOrderedRoot _ => True

/-- A new block is not inserted below a pruned one. -/
def ParentLive (c : Crypto) (t : BlockTree) : Op → Prop
  | .insertBlock b => t.getBlock (b.id c) = none → t.Live b.parentId
  | _ => True

structure Invariant (c : Crypto) (t : BlockTree) : Prop where
  linked : Linked c t
  length : t.prunedBlockIds.length ≤ t.maxPrunedBlocksInMem

section Insert

theorem getBlock_eq_none : t.getBlock x = none ↔ t.getLinkableBlock x = none :=
  map_eq_none_iff

def withChild (c : Crypto) (t : BlockTree) (b : ExecutedBlock) (parent : LinkableBlock) :
    BlockTree :=
  let parent : LinkableBlock := { parent with children := parent.children ++ [b.id c] }
  { t with idToBlock := (t.idToBlock.insert b.parentId parent).insert (b.id c) (.new b) }

theorem insertBlock_ok {b' : ExecutedBlock} (h : t.insertBlock c b = .ok (t',b')) : t' = t ∨
    t.getLinkableBlock (b.id c) = none ∧
      ∃ parent, t.getLinkableBlock b.parentId = some parent ∧ t' = t.withChild c b parent := by
  unfold insertBlock at h
  dsimp only at h
  split at h
  · simp only [bind_eq_ok,Except.ok.injEq,Prod.mk.injEq] at h
    obtain ⟨-,-,rfl,-⟩ := h
    exact .inl rfl
  · next hnone =>
    split at h
    · next parent hparent =>
      simp only [LinkableBlock.addChild,bind_eq_ok,Except.ok.injEq,Prod.mk.injEq] at h
      obtain ⟨-,⟨-,-,rfl⟩,-,-,rfl,-⟩ := h
      exact .inr ⟨getBlock_eq_none.mp hnone,parent,hparent,rfl⟩
    · cases h

section Child

variable {parent : LinkableBlock} (hnone : t.getLinkableBlock (b.id c) = none)
  (hparent : t.getLinkableBlock b.parentId = some parent)

include hnone hparent in
theorem parentId_ne : b.parentId ≠ b.id c := by
  intro he
  rw [he,hnone] at hparent
  cases hparent

theorem withChild_getLinkableBlock : (t.withChild c b parent).getLinkableBlock x =
    if x = b.id c then some (.new b)
    else if x = b.parentId then some { parent with children := parent.children ++ [b.id c] }
    else t.getLinkableBlock x := by
  unfold withChild getLinkableBlock
  by_cases hx : x = b.id c
  · rw [if_pos hx,hx]
    exact AList.lookup_insert _
  · rw [if_neg hx,AList.lookup_insert_ne hx]
    by_cases hp : x = b.parentId
    · rw [if_pos hp,hp]
      exact AList.lookup_insert _
    · rw [if_neg hp,AList.lookup_insert_ne hp]

include hparent

theorem withChild_childIds : (t.withChild c b parent).childIds x =
    if x = b.id c then [] else if x = b.parentId then t.childIds x ++ [b.id c]
    else t.childIds x := by
  rw [childIds,withChild_getLinkableBlock]
  split
  · rfl
  · split
    · next hp =>
      rw [hp,childIds_eq hparent]
      rfl
    · rfl

include hnone in
theorem mem_withChild_childIds : y ∈ (t.withChild c b parent).childIds x ↔
    y ∈ t.childIds x ∨ x = b.parentId ∧ y = b.id c := by
  rw [withChild_childIds hparent]
  have hne := parentId_ne hnone hparent
  have hempty : t.childIds (b.id c) = [] := by
    rw [childIds,hnone]
    rfl
  by_cases hx : x = b.id c
  · rw [hx,hempty]
    simp [hne.symm]
  · rw [if_neg hx]
    by_cases hp : x = b.parentId
    · simp [hp]
    · simp [hp]

theorem withChild_stored : (t.withChild c b parent).Stored x ↔ t.Stored x ∨ x = b.id c := by
  have hp : t.Stored b.parentId := stored_iff.mpr ⟨parent,hparent⟩
  have hiff : (t.withChild c b parent).Stored x ↔ x = b.id c ∨ x = b.parentId ∨ t.Stored x := by
    refine (AList.mem_insert _).trans (or_congr_right (AList.mem_insert _))
  rw [hiff]
  constructor
  · rintro (rfl | rfl | hx)
    · exact .inr rfl
    · exact .inl hp
    · exact .inl hx
  · rintro (hx | rfl)
    · exact .inr (.inr hx)
    · exact .inl rfl

theorem withChild_roundOf : (t.withChild c b parent).roundOf x =
    if x = b.id c then b.round else t.roundOf x := by
  rw [roundOf,getBlock,withChild_getLinkableBlock]
  split
  · rfl
  · split
    · next hp =>
      rw [roundOf,getBlock,hp,hparent]
      rfl
    · rfl

include hnone in
theorem withChild_live (hlive : t.Live b.parentId) :
    (t.withChild c b parent).Live x ↔ t.Live x ∨ x = b.id c := by
  have hmono : ∀ x, t.Live x → (t.withChild c b parent).Live x := fun x =>
    Descends.mono fun z w _ hw => (mem_withChild_childIds hnone hparent).mpr (.inl hw)
  constructor
  · intro hx
    refine hx.mem (S := {x | t.Live x ∨ x = b.id c}) ?_ (.inl .refl)
    rintro z hz w hw
    rcases (mem_withChild_childIds hnone hparent).mp hw with hw | ⟨-,rfl⟩
    · rcases hz with hz | rfl
      · exact .inl (hz.tail hw)
      · obtain ⟨z',hz'⟩ := stored_iff.mp (stored_of_childIds hw)
        exact absurd (hnone.symm.trans hz') nofun
    · exact .inr rfl
  · rintro (hx | rfl)
    · exact hmono x hx
    · exact (hmono _ hlive).tail ((mem_withChild_childIds hnone hparent).mpr (.inr ⟨rfl,rfl⟩))

end Child

theorem Linked.withChild {parent : LinkableBlock} (h : Linked c t)
    (hnone : t.getLinkableBlock (b.id c) = none)
    (hparent : t.getLinkableBlock b.parentId = some parent) (hlive : t.Live b.parentId)
    (hround : parent.executedBlock.round < b.round) : Linked c (t.withChild c b parent) := by
  have hfresh : ¬ t.Stored (b.id c) := by
    rw [stored_iff,hnone]
    rintro ⟨_,hb⟩
    cases hb
  have hold : ∀ {x}, t.Stored x → x ≠ b.id c := by
    rintro x hx rfl
    exact hfresh hx
  have hstored : ∀ {x}, t.Stored x → (t.withChild c b parent).Stored x := fun hx =>
    (withChild_stored hparent).mpr (.inl hx)
  have hliveIff : ∀ {x}, t.Stored x → ((t.withChild c b parent).Live x ↔ t.Live x) := fun hx => by
    rw [withChild_live hnone hparent hlive]
    exact or_iff_left (hold hx)
  constructor
  case root => exact hstored h.root
  case key =>
    intro x b' hb'
    rw [withChild_getLinkableBlock] at hb'
    split at hb'
    · next hx =>
      rw [← some.inj hb',hx]
      rfl
    · split at hb'
      · next hx =>
        rw [← some.inj hb',hx]
        exact h.key _ parent hparent
      · exact h.key x b' hb'
  case child =>
    intro x y hy
    rcases (mem_withChild_childIds hnone hparent).mp hy with hy | ⟨-,rfl⟩
    · exact hstored (h.child x y hy)
    · exact (withChild_stored hparent).mpr (.inr rfl)
  case parent =>
    intro x y b' hy hb'
    rw [withChild_getLinkableBlock] at hb'
    rcases (mem_withChild_childIds hnone hparent).mp hy with hy | ⟨rfl,rfl⟩
    · rw [if_neg (hold (h.child x y hy))] at hb'
      split at hb'
      · next hyp =>
        rw [← some.inj hb']
        exact h.parent x y parent hy (by rw [hyp]; exact hparent)
      · exact h.parent x y b' hy hb'
    · rw [if_pos rfl] at hb'
      rw [← some.inj hb']
      rfl
  case round =>
    intro x y hy
    rw [withChild_roundOf hparent,withChild_roundOf hparent]
    rcases (mem_withChild_childIds hnone hparent).mp hy with hy | ⟨rfl,rfl⟩
    · rw [if_neg (hold (stored_of_childIds hy)),if_neg (hold (h.child x y hy))]
      exact h.round x y hy
    · rw [if_neg (parentId_ne hnone hparent),if_pos rfl,roundOf,getBlock,hparent]
      exact hround
  case nodup =>
    intro x
    rw [withChild_childIds hparent]
    split
    · exact nodup_nil
    · split
      · refine nodup_append.mpr ⟨h.nodup x,nodup_singleton _,?_⟩
        rintro y hy _ hb rfl
        exact hold (h.child x y hy) (mem_singleton.mp hb)
      · exact h.nodup x
  case listed =>
    intro x hx
    rw [withChild_live hnone hparent hlive]
    rcases (withChild_stored hparent).mp hx with hx | rfl
    · exact (h.listed x hx).imp_left .inl
    · exact .inl (.inr rfl)
  case pruned_nodup => exact h.pruned_nodup
  case pruned_stored => exact fun x hx => hstored (h.pruned_stored x hx)
  case pruned_not_live =>
    intro x hx
    rw [hliveIff (h.pruned_stored x hx)]
    exact h.pruned_not_live x hx
  case order =>
    intro front x back y hsplit hy
    rcases (mem_withChild_childIds hnone hparent).mp hy with hy | ⟨-,rfl⟩
    · rw [hliveIff (h.child x y hy)]
      exact h.order front x back y hsplit hy
    · exact .inr ((withChild_live hnone hparent hlive).mpr (.inr rfl))
  case certs => exact fun x hx => hstored (h.certs x hx)
  case commitRound =>
    refine h.commitRound.trans (le_of_eq ?_)
    exact ((withChild_roundOf hparent).trans (if_neg (hold h.root))).symm

end Insert

theorem insertQuorumCert_invariant {qc : QuorumCert} (h : Invariant c t)
    (hs : t.insertQuorumCert c qc = .ok t') : Invariant c t' := by
  obtain ⟨hl,hlen⟩ := h
  unfold insertQuorumCert at hs
  dsimp only at hs
  split at hs
  · next block hblock =>
    obtain ⟨highest,-,⟨⟩⟩ := bind_eq_ok.mp hs
    have hstored : t.Stored qc.certifiedBlock.id := by
      rw [stored_iff]
      obtain ⟨b,hb,-⟩ := map_eq_some_iff.mp hblock
      exact ⟨b,hb⟩
    have hcerts : ∀ x, x ∈ (if qc.certifiedBlock.id ∈ t.idToQuorumCert then t.idToQuorumCert
        else t.idToQuorumCert.insert qc.certifiedBlock.id qc) → t.Stored x := by
      intro x hx
      split at hx
      · exact hl.certs x hx
      · rcases (AList.mem_insert _).mp hx with rfl | hx
        · exact hstored
        · exact hl.certs x hx
    unfold raiseCertified
    split
    all_goals
      exact ⟨{ hl with certs := hcerts },hlen⟩
  · cases hs

section Commit

variable {blocksToCommit : List ExecutedBlock} {finalityProof cert : QuorumCert}
  {commitDecision : LedgerInfoWithSignatures}

theorem Linked.moveRoot {out : List HashValue} {next : HashValue} (h : Linked c t)
    (hnext : t.Live next) (hnodup : out.Nodup)
    (hout : ∀ x, x ∈ out ↔ t.Live x ∧ ¬ Descends t.childIds next x)
    (horder : ∀ front x back y, out = front ++ x :: back → y ∈ t.childIds x →
      y ∈ back ∨ y = next) (hround : cert.commitInfo.round = t.roundOf next) :
    Linked c { t with
      prunedBlockIds := t.prunedBlockIds ++ out
      commitRootId := next
      highestCommitCert := cert } := by
  have hsub : ∀ x, Descends t.childIds next x → t.Live x := fun x => hnext.trans
  -- a live block is below the new root or newly pruned
  have hcases : ∀ x, t.Live x → Descends t.childIds next x ∨ x ∈ out := fun x hx => by
    by_cases hd : Descends t.childIds next x
    · exact .inl hd
    · exact .inr ((hout x).mpr ⟨hx,hd⟩)
  refine ⟨h.live_stored hnext,h.key,h.child,h.parent,h.round,h.nodup,?_,?_,?_,?_,?_,h.certs,
    hround.le⟩
  · intro x hx
    rcases h.listed x hx with hlive | hpruned
    · exact (hcases x hlive).imp_right (mem_append_right _)
    · exact .inr (mem_append_left _ hpruned)
  · refine nodup_append.mpr ⟨h.pruned_nodup,hnodup,?_⟩
    rintro x hx _ hx' rfl
    exact h.pruned_not_live x hx ((hout x).mp hx').1
  · intro x hx
    rcases mem_append.mp hx with hx | hx
    · exact h.pruned_stored x hx
    · exact h.live_stored ((hout x).mp hx).1
  · intro x hx
    rcases mem_append.mp hx with hx | hx
    · exact fun hd => h.pruned_not_live x hx (hsub x hd)
    · exact ((hout x).mp hx).2
  · intro front x back y hsplit hy
    -- `x` was pruned before or is pruned now
    rcases append_eq_append_iff.mp hsplit with ⟨mid,rfl,hmid⟩ | ⟨mid,hpruned,hmid⟩
    · rcases horder mid x back y hmid hy with hback | rfl
      · exact .inl hback
      · exact .inr .refl
    · cases mid with
      | nil =>
        rcases horder [] x back y hmid.symm hy with hback | rfl
        · exact .inl hback
        · exact .inr .refl
      | cons z mid =>
        obtain ⟨rfl,rfl⟩ := List.cons.inj hmid
        rcases h.order front x mid y hpruned hy with hback | hlive
        · exact .inl (mem_append_left _ hback)
        · exact (hcases y hlive).symm.imp_left (mem_append_right _)

theorem updateHighestCommitCert_eq (h : t.Stored cert.commitInfo.id)
    (hlt : t.highestCommitCert.commitInfo.round < cert.commitInfo.round) :
    t.updateHighestCommitCert cert =
      .ok { t with commitRootId := cert.commitInfo.id, highestCommitCert := cert } := by
  rw [updateHighestCommitCert,if_pos hlt,updateCommitRoot,check,if_pos]
  · rfl
  · obtain ⟨b,hb⟩ := stored_iff.mp h
    exact isSome_iff_exists.mpr ⟨b,hb⟩

theorem commitCallback_ok (order : Iteration) (h : Invariant c t)
    (hproof : finalityProof.createMergedWithExecutedState commitDecision = .ok cert)
    (hb : t.Commits c b blocksToCommit commitDecision) :
    ∃ t', t.commitCallback c order blocksToCommit finalityProof commitDecision = .ok t' ∧
      Invariant c t' ∧ t'.commitRootId = b.id c ∧
      ∀ x, t'.Live x ↔ Descends t.childIds (b.id c) x := by
  have hinfo : cert.commitInfo = commitDecision.commitInfo := by
    obtain ⟨-,-,⟨⟩⟩ := bind_eq_ok.mp hproof
    rfl
  have hid : cert.commitInfo.id = b.id c := by rw [hinfo,hb.id]
  have hround : cert.commitInfo.round = t.roundOf (b.id c) := by rw [hinfo,hb.round]
  obtain ⟨root,hroot⟩ := stored_iff.mp h.linked.root
  have hcommitRoot : t.commitRoot = .ok root.executedBlock := by
    rw [commitRoot,getBlock,hroot]
    rfl
  have hrun : ∀ out, t.findBlocksToPrune c order (b.id c) = .ok out →
      t.commitCallback c order blocksToCommit finalityProof commitDecision =
        (t.processPrunedBlocks out).updateHighestCommitCert cert := by
    intro out hout
    rw [commitCallback,hproof,hb.last,hcommitRoot]
    change (do let idToRemove ← t.findBlocksToPrune c order (b.id c); _) = _
    rw [hout]
    rfl
  by_cases heq : b.id c = t.commitRootId
  · -- nothing is pruned
    have hnone : t.findBlocksToPrune c order (b.id c) = .ok [] := if_pos heq
    have hsame : t.processPrunedBlocks [] = t := by
      have hzero : t.prunedBlockIds.length - t.maxPrunedBlocksInMem = 0 :=
        Nat.sub_eq_zero_of_le h.length
      simp only [processPrunedBlocks,append_nil,hzero]
      rfl
    rw [hrun [] hnone,hsame]
    by_cases hlt : t.highestCommitCert.commitInfo.round < cert.commitInfo.round
    · have hstored : t.Stored cert.commitInfo.id := by
        rw [hid,heq]
        exact h.linked.root
      refine ⟨_,updateHighestCommitCert_eq hstored hlt,?_,hid,fun x => by rw [← hid]; rfl⟩
      have hl := h.linked
      rw [hid,heq]
      exact ⟨{ hl with commitRound := le_of_eq (hround.trans (congrArg t.roundOf heq)) },h.length⟩
    · refine ⟨t,if_neg hlt,h,heq.symm,fun x => ?_⟩
      rw [heq]
      rfl
  · obtain ⟨out,hfind,hnodup,hout,horder⟩ := findBlocksToPrune_ok h.linked hb.live heq
    -- the tree with the new root, of which the oldest blocks of the queue are then removed
    have hmoved := h.linked.moveRoot hb.live hnodup hout horder hround
    obtain ⟨hlinked,hlive⟩ := hmoved.removeOldest
      ((t.prunedBlockIds ++ out).length - t.maxPrunedBlocksInMem)
    have hcert : (t.processPrunedBlocks out).highestCommitCert = t.highestCommitCert :=
      (removeOldest_fields _ _).2
    rw [removeOldest_with _ { t with prunedBlockIds := t.prunedBlockIds ++ out }] at hlinked hlive
    have hlt : (t.processPrunedBlocks out).highestCommitCert.commitInfo.round <
        cert.commitInfo.round := by
      rw [hcert,hround]
      exact h.linked.commitRound.trans_lt (h.linked.forest.rank_lt_of_ne hb.live (Ne.symm heq))
    have hstored : (t.processPrunedBlocks out).Stored cert.commitInfo.id := by
      rw [hid]
      exact hlinked.root
    rw [hrun out hfind]
    refine ⟨_,updateHighestCommitCert_eq hstored hlt,⟨?_,?_⟩,hid,?_⟩
    · rw [hid]
      exact hlinked
    · exact processPrunedBlocks_length t out
    · rw [hid]
      exact hlive

end Commit

theorem step_invariant (h : Invariant c t) {op : Op} (hop : t.Admits c op)
    (hparent : t.ParentLive c op) (hs : t.step c op = .ok t') : Invariant c t' := by
  cases op with
  | insertBlock b =>
    obtain ⟨⟨t'',b'⟩,hins,⟨⟩⟩ := bind_eq_ok.mp hs
    rcases insertBlock_ok hins with rfl | ⟨hnone,parent,hstored,rfl⟩
    · exact h
    · have hnew := getBlock_eq_none.mpr hnone
      have hround := (hop hnew).2 parent.executedBlock (by rw [getBlock,hstored]; rfl)
      exact ⟨h.linked.withChild hnone hstored (hparent hnew) hround,h.length⟩
  | insertQuorumCert qc => exact insertQuorumCert_invariant h hs
  | commitCallback order blocksToCommit finalityProof commitDecision =>
    obtain ⟨b,hb⟩ := hop
    have hs' := hs
    simp only [step,commitCallback,bind_eq_ok,mapError_eq_ok] at hs'
    obtain ⟨cert,hproof,-⟩ := hs'
    obtain ⟨t'',ht'',hinv,-⟩ := commitCallback_ok order h hproof hb
    cases hs.symm.trans ht''
    exact hinv
  | updateOrderedRoot rootId =>
    obtain ⟨-,-,⟨⟩⟩ := bind_eq_ok.mp hs
    exact ⟨{ h.linked with },h.length⟩

section Start

variable {root : ExecutedBlock} {rootQuorumCert rootOrderedCert rootCommitCert : QuorumCert}
  {maxPruned : ℕ}

section

variable (hnew : new c root rootQuorumCert rootOrderedCert rootCommitCert maxPruned = .ok t)

include hnew

theorem new_getLinkableBlock :
    t.getLinkableBlock x = if x = root.id c then some (.new root) else none := by
  obtain ⟨-,-,⟨⟩⟩ := bind_eq_ok.mp hnew
  rw [getLinkableBlock,← AList.insert_empty]
  split
  · next hx =>
    rw [hx]
    exact AList.lookup_insert _
  · next hx =>
    rw [AList.lookup_insert_ne hx]
    exact AList.lookup_empty x

theorem new_invariant (hqc : rootQuorumCert.certifiedBlock.id = root.id c)
    (hcommit : rootCommitCert.commitInfo.round ≤ root.round) : Invariant c t := by
  have hlookup : ∀ x, t.getLinkableBlock x = if x = root.id c then some (.new root) else none :=
    fun x => new_getLinkableBlock hnew
  have hchild : ∀ x, t.childIds x = [] := by
    intro x
    rw [childIds,hlookup]
    split <;> rfl
  have hnone : ∀ x y, y ∉ t.childIds x := fun x y => by
    rw [hchild]
    exact not_mem_nil
  have hstored : ∀ x, t.Stored x ↔ x = root.id c := by
    intro x
    rw [stored_iff,hlookup]
    split
    · next hx => exact ⟨fun _ => hx,fun _ => ⟨_,rfl⟩⟩
    · next hx => exact ⟨by rintro ⟨_,⟨⟩⟩,fun h => absurd h hx⟩
  have hround : t.roundOf (root.id c) = root.round := by
    rw [roundOf,getBlock,hlookup,if_pos rfl]
    rfl
  obtain ⟨-,-,⟨⟩⟩ := bind_eq_ok.mp hnew
  refine ⟨?_,Nat.zero_le _⟩
  constructor
  case root => exact (hstored _).mpr rfl
  case key =>
    intro x b hb
    rw [hlookup] at hb
    split at hb
    · next hx =>
      rw [← some.inj hb,hx]
      rfl
    · cases hb
  case child => exact fun x y hy => absurd hy (hnone x y)
  case parent => exact fun x y _ hy => absurd hy (hnone x y)
  case round => exact fun x y hy => absurd hy (hnone x y)
  case nodup =>
    intro x
    rw [hchild]
    exact nodup_nil
  case listed =>
    intro x hx
    rw [(hstored x).mp hx]
    exact .inl .refl
  case pruned_nodup => exact nodup_nil
  case pruned_stored => exact fun x hx => absurd hx not_mem_nil
  case pruned_not_live => exact fun x hx => absurd hx not_mem_nil
  case order => exact fun _ x _ y _ hy => absurd hy (hnone x y)
  case certs =>
    intro x hx
    rw [hstored,mem_singleton.mp hx,hqc]
  case commitRound => exact hcommit.trans hround.ge

end

/-- The parts of the invariant that speak of links, the queue and the certificates. -/
structure Consistent (t : BlockTree) : Prop where
  child_stored : ∀ x y, y ∈ t.childIds x → t.Stored y
  live_or_pruned : ∀ x, t.Stored x → (t.Live x ∧ x ∉ t.prunedBlockIds) ∨
    (¬ t.Live x ∧ t.prunedBlockIds.count x = 1)
  pruned_length : t.prunedBlockIds.length ≤ t.maxPrunedBlocksInMem
  cert_stored : ∀ x ∈ t.idToQuorumCert, t.Stored x

theorem Invariant.consistent (h : Invariant c t) : t.Consistent where
  child_stored := h.linked.child
  live_or_pruned x hx := by
    rcases h.linked.listed x hx with hlive | hpruned
    · exact .inl ⟨hlive,fun hpruned => h.linked.pruned_not_live x hpruned hlive⟩
    · exact .inr ⟨h.linked.pruned_not_live x hpruned,
        count_eq_one_of_mem h.linked.pruned_nodup hpruned⟩
  pruned_length := h.length
  cert_stored := h.linked.certs

/-- Along any run in which no block is inserted below a pruned one the links lead to stored blocks,
every stored block is live or in the queue once, and the certificates belong to stored blocks; and a
commit succeeds and leaves the blocks below the committed one as the live ones. -/
theorem runs_consistent {t₀ : BlockTree}
    (hnew : new c root rootQuorumCert rootOrderedCert rootCommitCert maxPruned = .ok t₀)
    (hqc : rootQuorumCert.certifiedBlock.id = root.id c)
    (hcommit : rootCommitCert.commitInfo.round ≤ root.round)
    (h : Reached (step c) (fun t op => t.Admits c op ∧ t.ParentLive c op) t₀ t) :
    t.Consistent ∧ ∀ b order blocksToCommit finalityProof commitDecision cert,
      finalityProof.createMergedWithExecutedState commitDecision = .ok cert →
      t.Commits c b blocksToCommit commitDecision →
      ∃ t', t.step c (.commitCallback order blocksToCommit finalityProof commitDecision) = .ok t' ∧
        ∀ x, t'.Live x ↔ Descends t.childIds (b.id c) x := by
  have hinv := h.invariant (new_invariant hnew hqc hcommit)
    fun t op u ht hop hs => step_invariant ht hop.1 hop.2 hs
  refine ⟨hinv.consistent,fun b order blocksToCommit finalityProof commitDecision cert hproof hb => ?_⟩
  obtain ⟨t',ht',-,-,hlive⟩ := commitCallback_ok order hinv hproof hb
  exact ⟨t',ht',hlive⟩

end Start

section Samples
open SafetyRules (numeric)

def sampleCert (id round : ℕ) : QuorumCert :=
  let info : BlockInfo := ⟨1,round,id,0,0,0,none⟩
  ⟨⟨info,info⟩,⟨⟨info,0⟩,.empty⟩⟩

def sampleBlock (round parentId parentRound : ℕ) : ExecutedBlock :=
  ⟨⟨⟨1,round,0,sampleCert parentId parentRound,.nilBlock []⟩,none⟩,⟨0,0,none,[]⟩⟩

def sampleTree : BlockTree where
  idToBlock := AList.singleton 2 (.new (sampleBlock 0 0 0))
  orderedRootId := 2
  commitRootId := 2
  highestCertifiedBlockId := 2
  highestQuorumCert := sampleCert 2 0
  highestOrderedCert := sampleCert 2 0
  highestCommitCert := sampleCert 2 0
  idToQuorumCert := AList.singleton 2 (sampleCert 2 0)
  prunedBlockIds := []
  maxPrunedBlocksInMem := 10

theorem sampleTree_new : new numeric (sampleBlock 0 0 0) (sampleCert 2 0) (sampleCert 2 0)
    (sampleCert 2 0) 10 = .ok sampleTree := rfl

def applied (t : BlockTree) (op : Op) : BlockTree := (t.step numeric op).toOption.getD t

theorem applied_ok {op : Op} (h : (t.step numeric op).toOption.isSome) :
    t.step numeric op = .ok (t.applied op) := eq_ok_of_isSome h t

def sampleCommit : Op :=
  .commitCallback ⟨id,fun _ => .refl _⟩ [sampleBlock 1 2 0] (sampleCert 212 1)
    ⟨⟨⟨1,1,212,0,0,0,none⟩,0⟩,.empty⟩

def forkTree : BlockTree :=
  applied (applied sampleTree (.insertBlock (sampleBlock 1 2 0))) (.insertBlock (sampleBlock 2 2 0))

theorem forkTree_reached : Reached (step numeric)
    (fun t op => t.Admits numeric op ∧ t.ParentLive numeric op) sampleTree forkTree := by
  refine .tail (.insertBlock (sampleBlock 2 2 0)) (.tail (.insertBlock (sampleBlock 1 2 0)) .refl
    ⟨fun _ => ⟨rfl,?_⟩,fun _ => .refl⟩ rfl) ⟨fun _ => ⟨rfl,?_⟩,fun _ => .refl⟩ rfl
  · rintro parent hparent
    cases hparent
    decide
  · rintro parent hparent
    cases hparent
    decide

theorem forkTree_commits : forkTree.Commits numeric (sampleBlock 1 2 0) [sampleBlock 1 2 0]
    ⟨⟨⟨1,1,212,0,0,0,none⟩,0⟩,.empty⟩ where
  last := rfl
  live := by
    refine .single ?_
    decide
  id := rfl
  round := rfl

/-- After the commit of 212 the blocks below it are the live ones. -/
theorem runs_consistent_fork : forkTree.Consistent ∧ ∃ t', forkTree.step numeric sampleCommit = .ok t' ∧
    ∀ x, t'.Live x ↔ Descends forkTree.childIds 212 x := by
  obtain ⟨hcons,hcommit⟩ := runs_consistent sampleTree_new rfl (le_refl 0) forkTree_reached
  exact ⟨hcons,hcommit (sampleBlock 1 2 0) _ _ _ _ _ rfl forkTree_commits⟩

/-- After the commit of 212 the former root is pruned but still stored. A block of a later round that
is inserted below it is neither live nor in the queue. -/
theorem orphan_below_pruned : ∃ t, Reached (step numeric) (Admits numeric) sampleTree t ∧
    t.Stored 222 ∧ ¬ t.Live 222 ∧ 222 ∉ t.prunedBlockIds := by
  let t₁ := applied sampleTree (.insertBlock (sampleBlock 1 2 0))
  let t₂ := applied t₁ (.updateOrderedRoot 212)
  let t₃ := applied t₂ sampleCommit
  let t₄ := applied t₃ (.insertBlock (sampleBlock 2 2 0))
  have h₁ : Reached (step numeric) (Admits numeric) sampleTree t₁ := by
    refine .tail (.insertBlock (sampleBlock 1 2 0)) .refl (fun _ => ⟨rfl,?_⟩) rfl
    rintro parent hparent
    cases hparent
    decide
  have h₂ : Reached (step numeric) (Admits numeric) sampleTree t₂ :=
    .tail (.updateOrderedRoot 212) h₁ trivial (applied_ok (by decide +kernel))
  have h₃ : Reached (step numeric) (Admits numeric) sampleTree t₃ := by
    refine .tail sampleCommit h₂ ⟨sampleBlock 1 2 0,rfl,.single ?_,rfl,?_⟩
      (applied_ok (by decide +kernel))
    · decide +kernel
    · decide +kernel
  have h₄ : Reached (step numeric) (Admits numeric) sampleTree t₄ := by
    refine .tail (.insertBlock (sampleBlock 2 2 0)) h₃ (fun _ => ⟨?_,fun parent hparent => ?_⟩)
      (applied_ok (by decide +kernel))
    · decide +kernel
    · have hroot : t₃.getBlock 2 = some (sampleBlock 0 0 0) := by decide +kernel
      rw [some.inj (hparent.symm.trans hroot)]
      decide
  refine ⟨t₄,h₄,AList.lookup_isSome.mp (by decide +kernel),fun hlive => ?_,by decide +kernel⟩
  -- the root 212 has no children
  have hcommit : t₄.commitRootId = 212 := by decide +kernel
  have hroot : (222 : HashValue) = 212 := by
    refine hlive.mem (S := {x | x = 212}) ?_ hcommit
    rintro x rfl y hy
    have hnil : t₄.childIds 212 = [] := by decide +kernel
    rw [hnil] at hy
    cases hy
  exact absurd hroot (by decide)

end Samples

end Arx.Consensus.BlockTree
