import Mathlib.Data.List.AList
import Arx.Consensus.Types
import Arx.Movelib.Forest

/-!
# The block tree

The blocks that a validator knows. A commit moves the root; the blocks that are not below it wait
in a queue and are removed when it becomes too long.

The child links form a forest, and the queue lists every stored block that is not below the root, a
parent before its children.
-/

namespace Arx.Consensus
open Movelib Arx.Types

structure LinkableBlock where
  executedBlock : ExecutedBlock
  /-- The set of the children. -/
  children : List HashValue

namespace LinkableBlock

def new (b : ExecutedBlock) : LinkableBlock := ⟨b,[]⟩

def id (c : Crypto) (b : LinkableBlock) : HashValue := b.executedBlock.id c

def addChild (b : LinkableBlock) (childId : HashValue) : Except Failure LinkableBlock := do
  check (childId ∉ b.children)
    (.panic ("Block " ++ HashValue.toHex childId ++ " already existed."))
  .ok { b with children := b.children ++ [childId] }

end LinkableBlock

structure Iteration where
  toFun : List HashValue → List HashValue
  perm : ∀ l, (toFun l).Perm l

structure BlockTree where
  idToBlock : AList fun _ : HashValue => LinkableBlock
  orderedRootId : HashValue
  commitRootId : HashValue
  highestCertifiedBlockId : HashValue
  highestQuorumCert : QuorumCert
  highestOrderedCert : QuorumCert
  highestCommitCert : QuorumCert
  idToQuorumCert : AList fun _ : HashValue => QuorumCert
  prunedBlockIds : List HashValue
  maxPrunedBlocksInMem : ℕ

namespace BlockTree

variable (c : Crypto)

def new (root : ExecutedBlock) (rootQuorumCert rootOrderedCert rootCommitCert : QuorumCert)
    (maxPrunedBlocksInMem : ℕ) : Except Failure BlockTree := do
  check (root.id c = rootOrderedCert.commitInfo.id) (.panic "inconsistent root and ledger info")
  .ok
    { idToBlock := AList.singleton (root.id c) (.new root)
      orderedRootId := root.id c
      commitRootId := root.id c
      highestCertifiedBlockId := root.id c
      highestQuorumCert := rootQuorumCert
      highestOrderedCert := rootOrderedCert
      highestCommitCert := rootCommitCert
      idToQuorumCert := AList.singleton rootQuorumCert.certifiedBlock.id rootQuorumCert
      prunedBlockIds := []
      maxPrunedBlocksInMem := maxPrunedBlocksInMem }

variable (t : BlockTree)

variable (blockId : HashValue)

def getLinkableBlock : Option LinkableBlock := t.idToBlock.lookup blockId

def linkableRoot : Except Failure LinkableBlock :=
  okOr (t.getLinkableBlock t.commitRootId) (.panic "Root must exist")

def removeBlock : BlockTree :=
  { t with
    idToBlock := t.idToBlock.erase blockId
    idToQuorumCert := t.idToQuorumCert.erase blockId }

def blockExists : Bool := (t.getLinkableBlock blockId).isSome

def getBlock : Option ExecutedBlock :=
  (t.getLinkableBlock blockId).map (·.executedBlock)

def orderedRoot : Except Failure ExecutedBlock :=
  okOr (t.getBlock t.orderedRootId) (.panic "Root must exist")

def commitRoot : Except Failure ExecutedBlock :=
  okOr (t.getBlock t.commitRootId) (.panic "Commit root must exist")

def highestCertifiedBlock : Except Failure ExecutedBlock :=
  okOr (t.getBlock t.highestCertifiedBlockId) (.panic "Highest cerfified block must exist")

/-- The tree and the block that it holds under the id of `block`. -/
def insertBlock (block : ExecutedBlock) : Except Failure (BlockTree × ExecutedBlock) :=
  let blockId := block.id c
  match t.getBlock blockId with
  | some existing => do
    check (existing.computeResult = block.computeResult) (.panic "assertion failed")
    .ok (t,existing)
  | none =>
    match t.getLinkableBlock block.parentId with
    | some parent => do
      let parent ← parent.addChild blockId
      let idToBlock := t.idToBlock.insert block.parentId parent
      check (idToBlock.lookup blockId).isNone (.panic "assertion failed")
      .ok ({ t with idToBlock := idToBlock.insert blockId (.new block) },block)
    | none => .error (.error ("Parent block " ++ HashValue.display block.parentId ++ " not found"))

def checkRound (block : Block) : Except Failure Unit := do
  let root ← t.orderedRoot
  ensure (root.round < block.round) "Block with old round"

def raiseCertified (qc : QuorumCert) (block highest : ExecutedBlock) : BlockTree :=
  if highest.round < block.round then
    { t with highestCertifiedBlockId := block.id c, highestQuorumCert := qc }
  else t

def insertQuorumCert (qc : QuorumCert) : Except Failure BlockTree :=
  let blockId := qc.certifiedBlock.id
  match t.getBlock blockId with
  | some block => do
    let highest ← t.highestCertifiedBlock
    let t := t.raiseCertified c qc block highest
    let t :=
      { t with
        idToQuorumCert :=
          if blockId ∈ t.idToQuorumCert then t.idToQuorumCert else t.idToQuorumCert.insert blockId qc
        highestOrderedCert :=
          if t.highestOrderedCert.commitInfo.round < qc.commitInfo.round then qc
          else t.highestOrderedCert }
    .ok t
  | none => .error (.error ("Block " ++ HashValue.display blockId ++ " not found"))

def pushChildren (nextRootId : HashValue) :
    List HashValue → List LinkableBlock → Except Failure (List LinkableBlock)
  | [], stack => .ok stack
  | childId :: children, stack =>
    if nextRootId = childId then pushChildren nextRootId children stack
    else do
      let child ← okOr (t.getLinkableBlock childId) (.panic "Child must exist in the tree")
      pushChildren nextRootId children (child :: stack)

/-- The blocks to be pruned stand on the stack, the last one that was pushed first. `fuel` bounds the
number of blocks. -/
def pruneLoop (order : Iteration) (nextRootId : HashValue) :
    ℕ → List LinkableBlock → Except Failure (List HashValue)
  | _, [] => .ok []
  | 0, _ :: _ => .error (.panic "out of fuel")
  | fuel + 1, block :: stack => do
    let stack ← t.pushChildren nextRootId (order.toFun block.children) stack
    let rest ← pruneLoop order nextRootId fuel stack
    .ok (block.id c :: rest)

def findBlocksToPrune (order : Iteration) (nextRootId : HashValue) :
    Except Failure (List HashValue) :=
  if nextRootId = t.commitRootId then .ok []
  else do
    let root ← t.linkableRoot
    t.pruneLoop c order nextRootId t.idToBlock.keys.length [root]

def updateOrderedRoot (rootId : HashValue) : Except Failure BlockTree := do
  check (t.blockExists rootId) (.panic "assertion failed: self.block_exists(&root_id)")
  .ok { t with orderedRootId := rootId }

def updateCommitRoot (rootId : HashValue) : Except Failure BlockTree := do
  check (t.blockExists rootId) (.panic "assertion failed: self.block_exists(&root_id)")
  .ok { t with commitRootId := rootId }

def removeOldest : ℕ → BlockTree → BlockTree
  | 0, t => t
  | n + 1, t =>
    match t.prunedBlockIds with
    | [] => removeOldest n t
    | blockId :: rest => removeOldest n (removeBlock { t with prunedBlockIds := rest } blockId)

def processPrunedBlocks (newlyPruned : List HashValue) : BlockTree :=
  let t := { t with prunedBlockIds := t.prunedBlockIds ++ newlyPruned }
  removeOldest (t.prunedBlockIds.length - t.maxPrunedBlocksInMem) t

def updateHighestCommitCert (cert : QuorumCert) : Except Failure BlockTree :=
  if t.highestCommitCert.commitInfo.round < cert.commitInfo.round then
    updateCommitRoot { t with highestCommitCert := cert } cert.commitInfo.id
  else .ok t

def commitCallback (order : Iteration) (blocksToCommit : List ExecutedBlock)
    (finalityProof : QuorumCert) (commitDecision : LedgerInfoWithSignatures) :
    Except Failure BlockTree := do
  let commitProof ← (finalityProof.createMergedWithExecutedState commitDecision).mapError fun _ =>
    .panic "Inconsistent commit proof and evaluation decision, cannot commit block"
  let blockToCommit ← okOr blocksToCommit.getLast?
    (.panic "called Option::unwrap() on a None value")
  let _ ← t.commitRoot
  let idToRemove ← t.findBlocksToPrune c order (blockToCommit.id c)
  (t.processPrunedBlocks idToRemove).updateHighestCommitCert commitProof

end BlockTree

namespace BlockTree
open List Option

variable {c : Crypto} {t : BlockTree} {x y z : HashValue} {stack : List LinkableBlock}

section

variable (t : BlockTree) (x : HashValue)

def childIds : List HashValue :=
  ((t.getLinkableBlock x).map (·.children)).getD []

def roundOf : ℕ := ((t.getBlock x).map (·.round)).getD 0

def Stored : Prop := x ∈ t.idToBlock

def Live : Prop := Descends t.childIds t.commitRootId x

/-- What holds of the tree, but for the length of the queue. -/
structure Linked (c : Crypto) (t : BlockTree) : Prop where
  root : t.Stored t.commitRootId
  key : ∀ x b, t.getLinkableBlock x = some b → b.id c = x
  child : ∀ x y, y ∈ t.childIds x → t.Stored y
  parent : ∀ x y b, y ∈ t.childIds x → t.getLinkableBlock y = some b →
    b.executedBlock.parentId = x
  round : ∀ x y, y ∈ t.childIds x → t.roundOf x < t.roundOf y
  nodup : ∀ x, (t.childIds x).Nodup
  listed : ∀ x, t.Stored x → t.Live x ∨ x ∈ t.prunedBlockIds
  pruned_nodup : t.prunedBlockIds.Nodup
  pruned_stored : ∀ x ∈ t.prunedBlockIds, t.Stored x
  pruned_not_live : ∀ x ∈ t.prunedBlockIds, ¬ t.Live x
  /-- The children of a pruned block come after it in the queue, but for one that became the root. -/
  order : ∀ front x back y, t.prunedBlockIds = front ++ x :: back → y ∈ t.childIds x →
    y ∈ back ∨ t.Live y
  certs : ∀ x ∈ t.idToQuorumCert, t.Stored x
  commitRound : t.highestCommitCert.commitInfo.round ≤ t.roundOf t.commitRootId

end

theorem stored_iff : t.Stored x ↔ ∃ b, t.getLinkableBlock x = some b := by
  rw [← isSome_iff_exists]
  exact AList.lookup_isSome.symm

theorem childIds_eq {b : LinkableBlock} (h : t.getLinkableBlock x = some b) :
    t.childIds x = b.children := by
  rw [childIds,h]
  rfl

theorem stored_of_childIds (h : y ∈ t.childIds x) : t.Stored x := by
  rw [stored_iff]
  cases hx : t.getLinkableBlock x with
  | none =>
    rw [childIds,hx] at h
    cases h
  | some b => exact ⟨b,rfl⟩

namespace Linked

theorem forest (h : Linked c t) : IsForest t.childIds t.roundOf where
  nodup := h.nodup
  unique x x' y hx hx' := by
    obtain ⟨b,hb⟩ := stored_iff.mp (h.child x y hx)
    rw [← h.parent x y b hx hb,h.parent x' y b hx' hb]
  rank_lt := h.round

theorem live_stored (h : Linked c t) (hx : t.Live x) : t.Stored x := by
  refine hx.mem (S := {x | t.Stored x}) ?_ h.root
  intro x _ y hy
  exact h.child x y hy

theorem head_not_child {rest : List HashValue} (h : Linked c t)
    (hq : t.prunedBlockIds = x :: rest) : x ∉ t.childIds y := by
  intro hy
  have hx : x ∈ t.prunedBlockIds := by
    rw [hq]
    exact mem_cons_self
  have hnodup := h.pruned_nodup
  rw [hq,nodup_cons] at hnodup
  rcases h.listed y (stored_of_childIds hy) with hlive | hpruned
  · exact h.pruned_not_live x hx (hlive.tail hy)
  · obtain ⟨front,back,hsplit⟩ := append_of_mem hpruned
    rcases h.order front y back x hsplit hy with hback | hlive
    · -- so `x` would stand in the queue twice
      rw [hq] at hsplit
      cases front with
      | nil => exact hnodup.1 (by rw [(List.cons.inj hsplit).2]; exact hback)
      | cons a front =>
        apply hnodup.1
        rw [(List.cons.inj hsplit).2]
        exact mem_append_right _ (mem_cons_of_mem _ hback)
    · exact h.pruned_not_live x hx hlive

end Linked

def pop (t : BlockTree) (x : HashValue) (rest : List HashValue) : BlockTree :=
  removeBlock { t with prunedBlockIds := rest } x

section Pop

variable {rest : List HashValue}

theorem pop_getLinkableBlock : (t.pop x rest).getLinkableBlock y =
    if y = x then none else t.getLinkableBlock y := by
  by_cases hy : y = x
  · rw [if_pos hy,hy]
    exact AList.lookup_erase x t.idToBlock
  · rw [if_neg hy]
    exact AList.lookup_erase_ne hy

theorem pop_childIds : (t.pop x rest).childIds y = if y = x then [] else t.childIds y := by
  rw [childIds,pop_getLinkableBlock]
  split <;> rfl

theorem pop_roundOf (hy : y ≠ x) : (t.pop x rest).roundOf y = t.roundOf y := by
  rw [roundOf,getBlock,pop_getLinkableBlock,if_neg hy]
  rfl

theorem pop_stored : (t.pop x rest).Stored y ↔ y ≠ x ∧ t.Stored y := AList.mem_erase

variable (h : Linked c t) (hq : t.prunedBlockIds = x :: rest)
include h hq

theorem Linked.head_not_live : ¬ t.Live x := by
  apply h.pruned_not_live
  rw [hq]
  exact mem_cons_self

theorem Linked.pop_live : (t.pop x rest).Live y ↔ t.Live y := by
  constructor
  · refine Descends.mono fun z w _ hw => ?_
    rw [pop_childIds] at hw
    split at hw
    · cases hw
    · exact hw
  · refine Descends.mono fun z w hz hw => ?_
    rw [pop_childIds,if_neg]
    · exact hw
    · rintro rfl
      exact h.head_not_live hq hz

theorem Linked.pop_childIds_mem (hy : y ∈ (t.pop x rest).childIds z) :
    z ≠ x ∧ y ≠ x ∧ y ∈ t.childIds z := by
  rw [pop_childIds] at hy
  split at hy
  · cases hy
  · refine ⟨‹_›,?_,hy⟩
    rintro rfl
    exact h.head_not_child hq hy

theorem Linked.pop : Linked c (t.pop x rest) := by
  have hnodup := h.pruned_nodup
  rw [hq,nodup_cons] at hnodup
  have hne : ∀ y ∈ rest, y ≠ x := fun y hy he => hnodup.1 (he ▸ hy)
  have hmem : ∀ y ∈ rest, y ∈ t.prunedBlockIds := fun y hy => by
    rw [hq]
    exact mem_cons_of_mem x hy
  have hroot : t.commitRootId ≠ x := by
    rintro rfl
    exact h.head_not_live hq .refl
  constructor
  case root => exact pop_stored.mpr ⟨hroot,h.root⟩
  case key =>
    intro y b hb
    rw [pop_getLinkableBlock] at hb
    split at hb
    · cases hb
    · exact h.key y b hb
  case child =>
    intro z y hy
    obtain ⟨-,hyx,hy⟩ := h.pop_childIds_mem hq hy
    exact pop_stored.mpr ⟨hyx,h.child z y hy⟩
  case parent =>
    intro z y b hy hb
    obtain ⟨-,hyx,hy⟩ := h.pop_childIds_mem hq hy
    rw [pop_getLinkableBlock,if_neg hyx] at hb
    exact h.parent z y b hy hb
  case round =>
    intro z y hy
    obtain ⟨hzx,hyx,hy⟩ := h.pop_childIds_mem hq hy
    rw [pop_roundOf hzx,pop_roundOf hyx]
    exact h.round z y hy
  case nodup =>
    intro y
    rw [pop_childIds]
    split
    · exact nodup_nil
    · exact h.nodup y
  case listed =>
    intro y hy
    obtain ⟨hyx,hy⟩ := pop_stored.mp hy
    rw [h.pop_live hq]
    refine (h.listed y hy).imp_right fun hyq => ?_
    rw [hq] at hyq
    exact (mem_cons.mp hyq).resolve_left hyx
  case pruned_nodup => exact hnodup.2
  case pruned_stored => exact fun y hy => pop_stored.mpr ⟨hne y hy,h.pruned_stored y (hmem y hy)⟩
  case pruned_not_live =>
    intro y hy
    rw [h.pop_live hq]
    exact h.pruned_not_live y (hmem y hy)
  case order =>
    intro front z back y hsplit hy
    obtain ⟨-,-,hy⟩ := h.pop_childIds_mem hq hy
    rw [h.pop_live hq]
    refine h.order (x :: front) z back y ?_ hy
    rw [hq]
    exact congrArg (x :: ·) hsplit
  case certs =>
    intro y hy
    obtain ⟨hyx,hy⟩ := AList.mem_erase.mp hy
    exact pop_stored.mpr ⟨hyx,h.certs y hy⟩
  case commitRound =>
    refine h.commitRound.trans (le_of_eq ?_)
    exact (pop_roundOf hroot).symm

end Pop

theorem Linked.removeOldest (h : Linked c t) (n : ℕ) :
    Linked c (removeOldest n t) ∧ ∀ x, (removeOldest n t).Live x ↔ t.Live x := by
  induction n generalizing t with
  | zero => exact ⟨h,fun _ => Iff.rfl⟩
  | succ n ih =>
    rw [BlockTree.removeOldest]
    split
    · exact ih h
    · next x rest hq =>
      obtain ⟨hlinked,hlive⟩ := ih (h.pop hq)
      exact ⟨hlinked,fun y => (hlive y).trans (h.pop_live hq)⟩

theorem removeOldest_length (n : ℕ) (t : BlockTree) :
    (removeOldest n t).prunedBlockIds.length = t.prunedBlockIds.length - n := by
  induction n generalizing t with
  | zero => rfl
  | succ n ih =>
    rw [BlockTree.removeOldest]
    split
    · next hq => rw [ih,hq,length_nil,Nat.zero_sub,Nat.zero_sub]
    · next x rest hq =>
      rw [ih,hq]
      simp only [removeBlock,length_cons]
      omega

theorem removeOldest_fields (n : ℕ) (t : BlockTree) :
    (removeOldest n t).maxPrunedBlocksInMem = t.maxPrunedBlocksInMem ∧
      (removeOldest n t).highestCommitCert = t.highestCommitCert := by
  induction n generalizing t with
  | zero => exact ⟨rfl,rfl⟩
  | succ n ih =>
    rw [BlockTree.removeOldest]
    split
    · exact ih t
    · exact ih _

theorem processPrunedBlocks_length (t : BlockTree) (newlyPruned : List HashValue) :
    (t.processPrunedBlocks newlyPruned).prunedBlockIds.length ≤
      (t.processPrunedBlocks newlyPruned).maxPrunedBlocksInMem := by
  unfold processPrunedBlocks
  rw [removeOldest_length,(removeOldest_fields _ _).1]
  omega

theorem removeOldest_with (n : ℕ) (t : BlockTree) (rootId : HashValue) (cert : QuorumCert) :
    removeOldest n { t with commitRootId := rootId, highestCommitCert := cert } =
      { removeOldest n t with commitRootId := rootId, highestCommitCert := cert } := by
  induction n generalizing t with
  | zero => rfl
  | succ n ih =>
    rw [BlockTree.removeOldest,BlockTree.removeOldest]
    cases hq : t.prunedBlockIds with
    | nil =>
      have h := ih t
      rw [hq] at h
      exact h
    | cons x rest => exact ih (t.pop x rest)

section Walk

variable {order : Iteration} {next : HashValue}

def pushed (t : BlockTree) (order : Iteration) (next x : HashValue) : List HashValue :=
  ((order.toFun (t.childIds x)).filter (next ≠ ·)).reverse

theorem mem_pushed : y ∈ t.pushed order next x ↔ y ∈ t.childIds x ∧ y ≠ next := by
  rw [pushed,mem_reverse,mem_filter,(order.perm _).mem_iff,decide_eq_true_iff]
  exact and_congr_right fun _ => ne_comm

theorem Linked.pushed_forest (h : Linked c t) : IsForest (t.pushed order next) t.roundOf := by
  refine h.forest.of_subset (fun x => ?_) fun x y hy => (mem_pushed.mp hy).1
  exact nodup_reverse.mpr (((order.perm _).nodup_iff.mpr (h.nodup x)).filter _)

def OfTree (c : Crypto) (t : BlockTree) (stack : List LinkableBlock) : Prop :=
  ∀ b ∈ stack, t.getLinkableBlock (b.id c) = some b

theorem pushChildren_ok (h : Linked c t) (next : HashValue) {ids : List HashValue}
    (hids : ∀ y ∈ ids, t.Stored y) (hst : OfTree c t stack) :
    ∃ stack', t.pushChildren next ids stack = .ok stack' ∧ OfTree c t stack' ∧
      stack'.map (·.id c) = (ids.filter (next ≠ ·)).reverse ++ stack.map (·.id c) := by
  induction ids generalizing stack with
  | nil => exact ⟨stack,rfl,hst,rfl⟩
  | cons y ids ih =>
    have htail : ∀ z ∈ ids, t.Stored z := fun z hz => hids z (mem_cons_of_mem y hz)
    rw [pushChildren]
    split
    · next heq =>
      obtain ⟨stack',hpush,hof,hmap⟩ := ih htail hst
      refine ⟨stack',hpush,hof,?_⟩
      rw [hmap,filter_cons_of_neg (by simpa using heq)]
    · next hne =>
      obtain ⟨b,hb⟩ := stored_iff.mp (hids y mem_cons_self)
      have hid := h.key y b hb
      have hst' : OfTree c t (b :: stack) := by
        intro b' hb'
        rcases mem_cons.mp hb' with rfl | hb'
        · rw [hid]
          exact hb
        · exact hst b' hb'
      obtain ⟨stack',hpush,hof,hmap⟩ := ih htail hst'
      refine ⟨stack',?_,hof,?_⟩
      · rw [okOr_ok.mpr hb]
        exact hpush
      · rw [hmap,filter_cons_of_pos (by simpa using hne),reverse_cons,map_cons,hid,
          append_assoc,singleton_append]

theorem pruneLoop_walk (h : Linked c t) {n : ℕ} {out : List HashValue} (hst : OfTree c t stack)
    (hwalk : walk (t.pushed order next) n (stack.map (·.id c)) = some out) :
    t.pruneLoop c order next n stack = .ok out := by
  induction n generalizing stack out with
  | zero =>
    cases stack with
    | nil =>
      cases hwalk
      rfl
    | cons b stack => cases hwalk
  | succ n ih =>
    cases stack with
    | nil =>
      cases hwalk
      rfl
    | cons b stack =>
      obtain ⟨rest,hrest,rfl⟩ := map_eq_some_iff.mp hwalk
      have hb := hst b mem_cons_self
      have hchildren := childIds_eq hb
      have hids : ∀ y ∈ order.toFun b.children, t.Stored y := by
        intro y hy
        refine h.child (b.id c) y ?_
        rw [hchildren]
        exact (order.perm _).mem_iff.mp hy
      obtain ⟨stack',hpush,hof,hmap⟩ := pushChildren_ok h next hids fun b' hb' =>
        hst b' (mem_cons_of_mem b hb')
      have hwalk' : walk (t.pushed order next) n (stack'.map (·.id c)) = some rest := by
        rw [hmap,← hchildren]
        exact hrest
      have hloop := ih hof hwalk'
      rw [pruneLoop,hpush]
      change (do let rest ← t.pruneLoop c order next n stack'; _) = _
      rw [hloop]
      rfl

/-- The walk does not end early, and finds the blocks below the root that are not below the next one,
parents first. -/
theorem findBlocksToPrune_ok (h : Linked c t) (hnext : t.Live next) (hne : next ≠ t.commitRootId) :
    ∃ out, t.findBlocksToPrune c order next = .ok out ∧ out.Nodup ∧
      (∀ x, x ∈ out ↔ t.Live x ∧ ¬ Descends t.childIds next x) ∧
      ∀ front x back y, out = front ++ x :: back → y ∈ t.childIds x → y ∈ back ∨ y = next := by
  have hforest : IsForest (t.pushed order next) t.roundOf := h.pushed_forest
  obtain ⟨b,hb⟩ := stored_iff.mp h.root
  have hid := h.key _ b hb
  have hapart : Apart (t.pushed order next) [t.commitRootId] := pairwise_singleton _ _
  obtain ⟨out,hout⟩ := walk_total hforest hapart (S := t.idToBlock.keys.toFinset) (by
    intro x hx y hy
    rw [mem_singleton.mp hx] at hy
    rw [List.mem_toFinset]
    exact h.live_stored (hy.mono fun z w _ hw => (mem_pushed.mp hw).1)) (toFinset_card_le _)
  have hwalked := walk_walked hout
  refine ⟨out,?_,hwalked.nodup hforest hapart,fun x => ?_,fun front x back y hsplit hy => ?_⟩
  · rw [findBlocksToPrune,if_neg hne,linkableRoot,okOr_ok.mpr hb]
    refine pruneLoop_walk h (fun b' hb' => ?_) ?_
    · rw [mem_singleton.mp hb',hid]
      exact hb
    · rw [map_singleton,hid]
      exact hout
  · rw [hwalked.mem]
    simp only [mem_singleton,exists_eq_left]
    exact h.forest.descends_without (fun _ _ => mem_pushed) hnext hne.symm
  · by_cases hyn : y = next
    · exact .inr hyn
    · exact .inl (hwalked.parent_first hsplit (mem_pushed.mpr ⟨hy,hyn⟩))

end Walk

end BlockTree

end Arx.Consensus
