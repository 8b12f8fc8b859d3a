import Arx.JellyfishMerkle.TreeRuns

/-!
# The nodes of the state tree and their pruners

The commit of snapshots, and the two `StateMerklePruner`s over the one table of nodes: stale nodes
are routed to one of them by the end of the previous epoch. What the pruners have deleted are nodes
that are stale since versions they have recorded.
-/

namespace Arx.Arxdb
open Movelib JellyfishMerkle Function

variable {H K : Type}

/-- The versions stand first in the row, in big endian, and are thus compared as numbers. -/
def staleNodeIndexRow (index : StaleNodeIndex) : ℕ ×ₗ ℕ ×ₗ ℕ ×ₗ List Nibble :=
  toLex (index.staleSinceVersion,toLex (index.nodeKey.version,
    toLex (index.nodeKey.nibblePath.length,index.nodeKey.nibblePath)))

inductive StaleNodeIndexSchema where
  | staleNodeIndex
  | staleNodeIndexCrossEpoch
  deriving DecidableEq

structure StateMerklePruner where
  targetVersion : ℕ
  /-- The min readable version, and whether things before that version are fully cleaned. -/
  progress : ℕ × Bool
  deriving DecidableEq

inductive PruneError where
  /-- `assert_ne!(batch_size, 0)`. -/
  | batchSizeZero
  | tree (error : TreeError)
  /-- "{} at version {} is pruned. snapshots are available at >= {}, epoch snapshots are available at
  >= {}". -/
  | pruned (version minReadableVersion minReadableEpochSnapshotVersion : ℕ)
  /-- "Version {} is not epoch ending." -/
  | notEpochEnding (version : ℕ)
  deriving DecidableEq

namespace StateMerklePruner

/-- `new` and `initialize`, with the progress recorded under the tag of the schema. -/
def new (recorded : Option ℕ) : StateMerklePruner := ⟨0,(recorded.getD 0,false)⟩

variable (pruner : StateMerklePruner)

def minReadableVersion : ℕ := pruner.progress.1

def isPruningPending : Bool :=
  pruner.targetVersion > pruner.minReadableVersion ∨ pruner.progress.2 = false

def setTargetDbVersion (targetDbVersion : ℕ) : StateMerklePruner :=
  if targetDbVersion > pruner.targetVersion then { pruner with targetVersion := targetDbVersion }
  else pruner

/-- `maybe_set_pruner_target_db_version`; a pruner without a window is not enabled. -/
def maybeSetPrunerTargetDbVersion (window : Option ℕ) (latestVersion : ℕ) : StateMerklePruner :=
  match window with
  | some pruneWindow => pruner.setTargetDbVersion (latestVersion - pruneWindow)
  | none => pruner

/-- The indices are over fetched by one. -/
def getStaleNodeIndices (rows : Column staleNodeIndexRow Unit)
    (startVersion targetVersion batchSize : ℕ) : List StaleNodeIndex × Bool :=
  let indices := (((rows.seek (staleNodeIndexRow ⟨startVersion,.newEmptyPath 0⟩)).takeWhile
    fun row => row.1.staleSinceVersion ≤ targetVersion).take (batchSize + 1)).map Prod.fst
  if indices.length > batchSize then (indices.dropLast,false) else (indices,true)

end StateMerklePruner

structure StateMerkleDb (H K : Type) where
  nodes : Store H K
  stale : StaleNodeIndexSchema → Column staleNodeIndexRow Unit
  /-- The progress of each pruner in `DbMetadataSchema`. -/
  metadata : StaleNodeIndexSchema → Option ℕ

namespace StateMerkleDb

def empty : StateMerkleDb H K := ⟨fun _ => none,fun _ => .empty,fun _ => none⟩

def deleteStale (db : StateMerkleDb H K) (schema : StaleNodeIndexSchema)
    (indices : List StaleNodeIndex) (progress : ℕ) : StateMerkleDb H K where
  nodes := fun key => if indices.any fun i => decide (i.nodeKey = key) then none else db.nodes key
  stale := update db.stale schema (indices.foldl Column.delete (db.stale schema))
  metadata := update db.metadata schema (some progress)

/-- These are processed by the epoch snapshot pruner, or by the state merkle pruner. -/
def columnOf (previousEpochEndingVersion : Option ℕ) (row : StaleNodeIndex) :
    StaleNodeIndexSchema :=
  match previousEpochEndingVersion with
  | some version =>
    if row.nodeKey.version ≤ version then .staleNodeIndexCrossEpoch else .staleNodeIndex
  | none => .staleNodeIndex

def putStale (previousEpochEndingVersion : Option ℕ)
    (stale : StaleNodeIndexSchema → Column staleNodeIndexRow Unit) (row : StaleNodeIndex) :
    StaleNodeIndexSchema → Column staleNodeIndexRow Unit :=
  let schema := columnOf previousEpochEndingVersion row
  update stale schema ((stale schema).put row ())

/-- `merklize_value_set`, and the write of its batch. -/
def merklizeValueSet (hs : Hasher H) (db : StateMerkleDb H K) (u : ValueSetUpdate H K)
    (baseVersion previousEpochEndingVersion : Option ℕ) : Except PruneError (StateMerkleDb H K) := do
  let (_,batch) ←
    (batchPutValueSet hs u.nodeHashes u.version db.nodes u.valueSet baseVersion).mapError .tree
  pure { db with
    nodes := db.nodes.write batch.nodeBatch
    stale := batch.staleNodeIndexBatch.foldl (putStale previousEpochEndingVersion) db.stale }

end StateMerkleDb

/-- The tree database with its pruners, the version of the last snapshot and the versions that end an
epoch. -/
structure StateDb (H K : Type) where
  stateMerkleDb : StateMerkleDb H K
  pruner : StaleNodeIndexSchema → StateMerklePruner
  latestSnapshot : Option ℕ
  epochEndings : List ℕ

inductive StateDbAction (H K : Type) where
  /-- A snapshot is committed; its version may end an epoch. -/
  | commit (u : ValueSetUpdate H K) (endsEpoch : Bool)
  /-- The worker of a pruner takes one step. -/
  | prune (schema : StaleNodeIndexSchema) (batchSize : ℕ)
  | restart

namespace StateDb

def new : StateDb H K := ⟨.empty,fun _ => .new none,none,[]⟩

def getPreviousEpochEnding (db : StateDb H K) (version : ℕ) : Option ℕ :=
  (db.epochEndings.filter fun ending => ending < version).max?

def ensureEpochEnding (db : StateDb H K) (version : ℕ) : Except PruneError Unit :=
  if version ∈ db.epochEndings then .ok () else .error (.notEpochEnding version)

def errorIfStateMerklePruned (db : StateDb H K) (version : ℕ) : Except PruneError Unit :=
  let minReadableVersion := (db.pruner .staleNodeIndex).minReadableVersion
  if version ≥ minReadableVersion then .ok ()
  else
    let minReadableEpochSnapshotVersion := (db.pruner .staleNodeIndexCrossEpoch).minReadableVersion
    if version ≥ minReadableEpochSnapshotVersion then db.ensureEpochEnding version
    else .error (.pruned version minReadableVersion minReadableEpochSnapshotVersion)

/-- `record_progress_impl`. -/
def recordProgress (db : StateDb H K) (schema : StaleNodeIndexSchema) (minReadableVersion : ℕ)
    (isFullyPruned : Bool) : StaleNodeIndexSchema → StateMerklePruner :=
  update db.pruner schema
    ⟨(db.pruner schema).targetVersion,(minReadableVersion,isFullyPruned)⟩

def pruneStateMerkle (db : StateDb H K) (schema : StaleNodeIndexSchema) (batchSize : ℕ) :
    Except PruneError (StateDb H K) :=
  let pruner := db.pruner schema
  if batchSize = 0 then .error .batchSizeZero
  else
    let (indices,isEndOfTargetVersion) := StateMerklePruner.getStaleNodeIndices
      (db.stateMerkleDb.stale schema) pruner.minReadableVersion pruner.targetVersion batchSize
    match indices.getLast? with
    | none => .ok { db with
        pruner := db.recordProgress schema pruner.targetVersion isEndOfTargetVersion }
    | some last => .ok { db with
        stateMerkleDb := db.stateMerkleDb.deleteStale schema indices last.staleSinceVersion
        pruner := db.recordProgress schema last.staleSinceVersion isEndOfTargetVersion }

def prune (db : StateDb H K) (schema : StaleNodeIndexSchema) (batchSize : ℕ) :
    Except PruneError (StateDb H K) :=
  if (db.pruner schema).isPruningPending then db.pruneStateMerkle schema batchSize else .ok db

def commit (hs : Hasher H) (window : StaleNodeIndexSchema → Option ℕ) (db : StateDb H K)
    (u : ValueSetUpdate H K) (endsEpoch : Bool) : Except PruneError (StateDb H K) := do
  let stateMerkleDb ← db.stateMerkleDb.merklizeValueSet hs u db.latestSnapshot
    (db.getPreviousEpochEnding u.version)
  pure {
    stateMerkleDb := stateMerkleDb
    pruner := fun schema =>
      (db.pruner schema).maybeSetPrunerTargetDbVersion (window schema) u.version
    latestSnapshot := some u.version
    epochEndings := if endsEpoch then db.epochEndings ++ [u.version] else db.epochEndings }

/-- Pruners that are not enabled have no worker. -/
def step (hs : Hasher H) (window : StaleNodeIndexSchema → Option ℕ) (db : StateDb H K) :
    StateDbAction H K → Except PruneError (StateDb H K)
  | .commit u endsEpoch => db.commit hs window u endsEpoch
  | .prune schema batchSize => if (window schema).isSome then db.prune schema batchSize else .ok db
  | .restart => .ok { db with pruner := fun schema => .new (db.stateMerkleDb.metadata schema) }

end StateDb

open List

variable {i : StaleNodeIndex} {rows : Column staleNodeIndexRow Unit}

theorem staleNodeIndexRow_injective : Function.Injective staleNodeIndexRow := by
  rintro ⟨since,version,path⟩ ⟨since',version',path'⟩ h
  simp only [staleNodeIndexRow,EmbeddingLike.apply_eq_iff_eq,Prod.mk.injEq] at h
  obtain ⟨rfl,rfl,-,rfl⟩ := h
  rfl

theorem since_le_of_row_lt {i j : StaleNodeIndex} (h : staleNodeIndexRow i < staleNodeIndexRow j) :
    i.staleSinceVersion ≤ j.staleSinceVersion := by
  rcases Prod.Lex.toLex_lt_toLex.mp h with h | h
  · exact h.le
  · exact h.1.le

/-- The row of a node: the version, the number of nibbles and the nibbles. -/
def nodeRow (key : NodeKey) : ℕ ×ₗ ℕ ×ₗ List Nibble :=
  toLex (key.version,toLex (key.nibblePath.length,key.nibblePath))

theorem nodeRow_root_le {v : ℕ} {k : NodeKey} :
    nodeRow (.newEmptyPath v) ≤ nodeRow k ↔ v ≤ k.version := by
  have hpath : toLex (0,([] : List Nibble)) ≤ toLex (k.nibblePath.length,k.nibblePath) := by
    refine Prod.Lex.toLex_le_toLex.mpr ?_
    cases k.nibblePath with
    | nil => exact .inr ⟨rfl,le_rfl⟩
    | cons c path => exact .inl (Nat.succ_pos _)
  refine Prod.Lex.toLex_le_toLex.trans ⟨fun h => h.elim le_of_lt fun h => h.1.le,fun h => ?_⟩
  exact h.lt_or_eq.imp_right fun h => ⟨h,hpath⟩

theorem seek_le_row {start : ℕ} : staleNodeIndexRow ⟨start,.newEmptyPath 0⟩ ≤ staleNodeIndexRow i ↔
      start ≤ i.staleSinceVersion := by
  have hkey : nodeRow (.newEmptyPath 0) ≤ nodeRow i.nodeKey := nodeRow_root_le.mpr (Nat.zero_le _)
  refine Prod.Lex.toLex_le_toLex.trans ⟨fun h => h.elim le_of_lt fun h => h.1.le,fun h => ?_⟩
  exact h.lt_or_eq.imp_right fun h => ⟨h,hkey⟩

def indices (rows : Column staleNodeIndexRow Unit) : List StaleNodeIndex := rows.rows.map Prod.fst

theorem mem_indices : i ∈ indices rows ↔ (i,()) ∈ rows.rows :=
  Column.mem_keys.trans ⟨fun ⟨_,h⟩ => h,fun h => ⟨(),h⟩⟩

theorem mem_indices_put {i j : StaleNodeIndex} :
    i ∈ indices (rows.put j ()) ↔ i = j ∨ i ∈ indices rows :=
  Column.mem_keys_put staleNodeIndexRow_injective

theorem mem_indices_delete {l : List StaleNodeIndex} :
    i ∈ indices (l.foldl Column.delete rows) ↔ i ∈ indices rows ∧ i ∉ l := by
  rw [mem_indices,mem_indices,Column.mem_foldl_delete_self]
  refine and_congr_right fun _ => ⟨fun h hi => h i hi rfl,fun h k hk heq => ?_⟩
  have hik : i = k := staleNodeIndexRow_injective heq
  exact h (hik ▸ hk)

namespace StateMerklePruner

variable {rows : Column staleNodeIndexRow Unit} {start target batchSize : ℕ} {i : StaleNodeIndex}

def due (rows : Column staleNodeIndexRow Unit) (start target : ℕ) : List StaleNodeIndex :=
  ((rows.seek (staleNodeIndexRow ⟨start,.newEmptyPath 0⟩)).takeWhile
    fun row => row.1.staleSinceVersion ≤ target).map Prod.fst

theorem mem_due : i ∈ due rows start target ↔
    i ∈ indices rows ∧ start ≤ i.staleSinceVersion ∧ i.staleSinceVersion ≤ target := by
  have hdown : ∀ p q : StaleNodeIndex × Unit, staleNodeIndexRow p.1 < staleNodeIndexRow q.1 →
      decide (q.1.staleSinceVersion ≤ target) → decide (p.1.staleSinceVersion ≤ target) := by
    intro p q hpq hq
    exact decide_eq_true ((since_le_of_row_lt hpq).trans (of_decide_eq_true hq))
  rw [due,mem_map,mem_indices]
  constructor
  · rintro ⟨⟨j,⟨⟩⟩,hj,rfl⟩
    obtain ⟨hrow,hstart,htarget⟩ := (Column.mem_takeWhile_seek hdown).mp hj
    exact ⟨hrow,seek_le_row.mp hstart,of_decide_eq_true htarget⟩
  · rintro ⟨hrow,hstart,htarget⟩
    exact ⟨(i,()),(Column.mem_takeWhile_seek hdown).mpr
      ⟨hrow,seek_le_row.mpr hstart,decide_eq_true htarget⟩,rfl⟩

theorem due_sorted : (due rows start target).Pairwise fun i j =>
    i.staleSinceVersion ≤ j.staleSinceVersion := by
  refine pairwise_map.mpr ?_
  refine (Column.seek_sorted.sublist (takeWhile_sublist _)).imp fun h => ?_
  exact since_le_of_row_lt h

theorem getStaleNodeIndices_eq : getStaleNodeIndices rows start target batchSize =
    ((due rows start target).take batchSize,
      decide ((due rows start target).length ≤ batchSize)) := by
  rw [getStaleNodeIndices]
  simp only [map_take]
  change (if ((due rows start target).take (batchSize + 1)).length > batchSize then
    (((due rows start target).take (batchSize + 1)).dropLast,false)
    else ((due rows start target).take (batchSize + 1),true)) = _
  rw [length_take]
  split_ifs with hlen
  · have hfull : min (batchSize + 1) (due rows start target).length - 1 = batchSize := by omega
    rw [dropLast_eq_take,length_take,hfull,take_take,
      min_eq_left (Nat.le_succ batchSize),
      decide_eq_false (by omega : ¬ (due rows start target).length ≤ batchSize)]
  · rw [take_of_length_le (by omega : (due rows start target).length ≤ batchSize + 1),
      take_of_length_le (by omega : (due rows start target).length ≤ batchSize),
      decide_eq_true (by omega : (due rows start target).length ≤ batchSize)]

/-- The last of the indices of a batch: what is left is not older, and younger than the target at the
end of the target version. -/
theorem getStaleNodeIndices_rest (habove : ∀ i ∈ indices rows, start ≤ i.staleSinceVersion)
    (hbatch : batchSize ≠ 0) (hi : i ∈ indices rows)
    (hrest : i ∉ (getStaleNodeIndices rows start target batchSize).1) :
    (∀ j ∈ (getStaleNodeIndices rows start target batchSize).1,
      j.staleSinceVersion ≤ i.staleSinceVersion) ∧
    ((getStaleNodeIndices rows start target batchSize).1 = [] → target < i.staleSinceVersion) ∧
    ((getStaleNodeIndices rows start target batchSize).2 = true → target < i.staleSinceVersion) := by
  rw [getStaleNodeIndices_eq] at hrest ⊢
  have hout : i ∉ due rows start target → target < i.staleSinceVersion := by
    intro hnot
    by_contra hle
    exact hnot (mem_due.mpr ⟨hi,habove i hi,not_lt.mp hle⟩)
  refine ⟨fun j hj => ?_,fun hnil => hout fun hmem => ?_,fun hend => hout fun hmem => hrest ?_⟩
  · have hjdue := mem_of_mem_take hj
    by_cases hmem : i ∈ due rows start target
    · -- the rest of the rows that are due come later
      have hsplit := take_append_drop batchSize (due rows start target)
      rw [← hsplit] at hmem
      have hdrop := (mem_append.mp hmem).resolve_left hrest
      have hsorted : (due rows start target).Pairwise _ := due_sorted
      rw [← hsplit] at hsorted
      exact (pairwise_append.mp hsorted).2.2 j hj i hdrop
    · exact ((mem_due.mp hjdue).2.2).trans (hout hmem).le
  · rcases take_eq_nil_iff.mp hnil with h | h
    · exact hbatch h
    · rw [h] at hmem
      cases hmem
  · rw [take_of_length_le (of_decide_eq_true hend)]
    exact hmem

theorem getStaleNodeIndices_mem (hi : i ∈ (getStaleNodeIndices rows start target batchSize).1) :
    i ∈ indices rows ∧ i.staleSinceVersion ≤ target := by
  rw [getStaleNodeIndices_eq] at hi
  obtain ⟨hrow,-,htarget⟩ := mem_due.mp (mem_of_mem_take hi)
  exact ⟨hrow,htarget⟩

theorem getStaleNodeIndices_last {i last : StaleNodeIndex}
    (hlast : (getStaleNodeIndices rows start target batchSize).1.getLast? = some last)
    (hi : i ∈ (getStaleNodeIndices rows start target batchSize).1) :
    i.staleSinceVersion ≤ last.staleSinceVersion := by
  have hsorted : (getStaleNodeIndices rows start target batchSize).1.Pairwise fun i j =>
      i.staleSinceVersion ≤ j.staleSinceVersion := by
    rw [getStaleNodeIndices_eq]
    exact due_sorted.sublist (take_sublist _ _)
  obtain ⟨front,hfront⟩ := List.getLast?_eq_some_iff.mp hlast
  rw [hfront] at hi hsorted
  rcases mem_append.mp hi with hi | hi
  · exact (pairwise_append.mp hsorted).2.2 i hi last (mem_singleton_self last)
  · rw [mem_singleton.mp hi]

end StateMerklePruner

end Arx.Arxdb
