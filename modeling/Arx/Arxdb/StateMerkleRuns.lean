import Arx.Arxdb.StateMerkleDb

/-!
# Runs of the tree database with its pruners

Snapshots are committed, the pruners take steps and the database is restarted, in any order. Beside
it stands the tree that is never pruned.
-/

namespace Arx.Arxdb
open Movelib JellyfishMerkle Function List StateMerklePruner StateMerkleDb

variable {H K : Type} {i : StaleNodeIndex} {schema : StaleNodeIndexSchema} {l : List StaleNodeIndex}

theorem write_perm (store : Store H K) {nodes nodes' : List (NodeKey × Node H K)}
    (hnodup : (nodes.map Prod.fst).Nodup) (hperm : nodes'.Perm nodes) (k : NodeKey) :
    (∃ n, store.write nodes k = some n ∧ ∀ store', Store.write store' nodes' k = some n) ∨
      store.write nodes k = store k ∧ ∀ store', Store.write store' nodes' k = store' k := by
  by_cases hk : ∃ e ∈ nodes, e.1 = k
  · obtain ⟨e,he,rfl⟩ := hk
    refine .inl ⟨e.2,Store.write_of_mem hnodup he,fun store' => ?_⟩
    exact Store.write_of_mem ((hperm.map Prod.fst).nodup_iff.mpr hnodup) (hperm.mem_iff.mpr he)
  · push Not at hk
    refine .inr ⟨Store.write_of_notMem hk,fun store' => ?_⟩
    exact Store.write_of_notMem fun e he => hk e (hperm.mem_iff.mp he)

theorem stale_versions {hs : Hasher H} {us : List (ValueSetUpdate H K)} {base : TreeDb H K}
    (h : Tracks hs us base) (hinc : Increasing hs us) (hi : i ∈ base.staleNodeIndices) :
    i.nodeKey.version < i.staleSinceVersion ∧ i.staleSinceVersion ≤ base.latest.getD 0 := by
  obtain ⟨earlier,u,later,hus,hsince,hprevious,-⟩ := h.stale i hi
  rw [hsince]
  refine ⟨previousKeys_version (hinc.upTo hus) hprevious,?_⟩
  rw [h.latest]
  rcases eq_nil_or_concat us with rfl | ⟨us',last,rfl⟩
  · exact absurd hus (by simp)
  · rw [concat_eq_append] at hus hinc ⊢
    rw [List.getLast?_concat]
    have hmem : u ∈ us' ++ [last] := by
      rw [hus]
      simp
    rcases mem_append.mp hmem with hmem | hmem
    · exact (hinc.lt_last hmem).le
    · rw [mem_singleton.mp hmem]
      exact le_rfl

namespace StateDb

def recorded (db : StateDb H K) (schema : StaleNodeIndexSchema) : ℕ :=
  (db.stateMerkleDb.metadata schema).getD 0

def schemaOf (db : StateDb H K) (i : StaleNodeIndex) : StaleNodeIndexSchema :=
  columnOf (db.getPreviousEpochEnding i.staleSinceVersion) i

variable {db : StateDb H K} {batchSize : ℕ}

theorem getPreviousEpochEnding_append {v w : ℕ} (h : v ≤ w) :
    ((db.epochEndings ++ [w]).filter fun ending => ending < v).max? = db.getPreviousEpochEnding v := by
  rw [getPreviousEpochEnding,filter_append,filter_singleton,
    decide_eq_false (by omega : ¬ w < v)]
  simp

theorem commit_eq {hs : Hasher H} {u : ValueSetUpdate H K} {rootHash : H}
    {batch : TreeUpdateBatch H K} (window : StaleNodeIndexSchema → Option ℕ) (endsEpoch : Bool)
    (hok : batchPutValueSet hs u.nodeHashes u.version db.stateMerkleDb.nodes u.valueSet
      db.latestSnapshot = .ok (rootHash,batch)) :
    db.commit hs window u endsEpoch = .ok {
      stateMerkleDb := { db.stateMerkleDb with
        nodes := db.stateMerkleDb.nodes.write batch.nodeBatch
        stale := batch.staleNodeIndexBatch.foldl
          (putStale (db.getPreviousEpochEnding u.version)) db.stateMerkleDb.stale }
      pruner := fun schema =>
        (db.pruner schema).maybeSetPrunerTargetDbVersion (window schema) u.version
      latestSnapshot := some u.version
      epochEndings := if endsEpoch then db.epochEndings ++ [u.version] else db.epochEndings } := by
  rw [commit,merklizeValueSet,hok]
  rfl

/-- What a step of a pruner does: it deletes the first rows up to the target, or finds none. -/
theorem pruneStateMerkle_cases (db : StateDb H K) (schema : StaleNodeIndexSchema)
    (hbatch : batchSize ≠ 0) :
    let found := getStaleNodeIndices (db.stateMerkleDb.stale schema)
      (db.pruner schema).minReadableVersion (db.pruner schema).targetVersion batchSize
    (found.1 = [] ∧ db.pruneStateMerkle schema batchSize = .ok { db with
      pruner := db.recordProgress schema (db.pruner schema).targetVersion found.2 }) ∨
    ∃ last, found.1.getLast? = some last ∧ db.pruneStateMerkle schema batchSize = .ok { db with
      stateMerkleDb := db.stateMerkleDb.deleteStale schema found.1 last.staleSinceVersion
      pruner := db.recordProgress schema last.staleSinceVersion found.2 } := by
  intro found
  rw [pruneStateMerkle]
  simp only [if_neg hbatch]
  cases hlast : found.1.getLast? with
  | none =>
    refine .inl ⟨List.getLast?_eq_none_iff.mp hlast,?_⟩
    simp only [found] at hlast ⊢
  | some last =>
    refine .inr ⟨last,rfl,?_⟩
    simp only [found] at hlast ⊢

end StateDb

theorem maybeSetPrunerTargetDbVersion_spec (pruner : StateMerklePruner) (window : Option ℕ)
    (version : ℕ) :
    (pruner.maybeSetPrunerTargetDbVersion window version).progress = pruner.progress ∧
    (pruner.maybeSetPrunerTargetDbVersion window version).targetVersion ≤
      max pruner.targetVersion version := by
  cases window with
  | none => exact ⟨rfl,le_max_left _ _⟩
  | some window =>
    simp only [maybeSetPrunerTargetDbVersion,setTargetDbVersion]
    split_ifs
    · exact ⟨rfl,(Nat.sub_le _ _).trans (le_max_right _ _)⟩
    · exact ⟨rfl,le_max_left _ _⟩

theorem mem_indices_putStale {ending : Option ℕ} {batch : List StaleNodeIndex}
    {stale : StaleNodeIndexSchema → Column staleNodeIndexRow Unit} :
    i ∈ indices (batch.foldl (putStale ending) stale schema) ↔
      (i ∈ batch ∧ columnOf ending i = schema) ∨ i ∈ indices (stale schema) := by
  induction batch generalizing stale with
  | nil => simp
  | cons j batch ih =>
    rw [foldl_cons,ih]
    have hput : i ∈ indices (putStale ending stale j schema) ↔
        (i = j ∧ columnOf ending i = schema) ∨ i ∈ indices (stale schema) := by
      rw [putStale]
      by_cases hschema : columnOf ending j = schema
      · subst hschema
        rw [update_self,mem_indices_put]
        constructor
        · rintro (rfl | h)
          · exact .inl ⟨rfl,rfl⟩
          · exact .inr h
        · rintro (⟨rfl,-⟩ | h)
          · exact .inl rfl
          · exact .inr h
      · rw [update_of_ne (Ne.symm hschema)]
        refine ⟨.inr,?_⟩
        rintro (⟨rfl,h⟩ | h)
        · exact absurd h hschema
        · exact h
    rw [hput,mem_cons,or_and_right]
    tauto

/-- Beside the database stands the tree that is never pruned: what has been deleted is stale since a
version that its pruner has recorded, and what is stale and not deleted has a row above the progress
of its pruner. -/
structure Follows (hs : Hasher H) (us : List (ValueSetUpdate H K)) (base : TreeDb H K)
    (db : StateDb H K) : Prop where
  tracks : Tracks hs us base
  latest : db.latestSnapshot = base.latest
  nodes : ∀ k, db.stateMerkleDb.nodes k = base.store k ∨ db.stateMerkleDb.nodes k = none ∧
    ∃ i ∈ base.staleNodeIndices, i.nodeKey = k ∧
      i.staleSinceVersion ≤ db.recorded (db.schemaOf i)
  rows : ∀ schema, ∀ i ∈ indices (db.stateMerkleDb.stale schema),
    i ∈ base.staleNodeIndices ∧ db.schemaOf i = schema
  gone : ∀ i ∈ base.staleNodeIndices,
    i ∈ indices (db.stateMerkleDb.stale (db.schemaOf i)) ∨ db.stateMerkleDb.nodes i.nodeKey = none
  above : ∀ schema, ∀ i ∈ indices (db.stateMerkleDb.stale schema),
    db.recorded schema ≤ i.staleSinceVersion ∧
    (db.pruner schema).minReadableVersion ≤ i.staleSinceVersion ∧
    ((db.pruner schema).progress.2 = true →
      (db.pruner schema).minReadableVersion < i.staleSinceVersion)
  bounds : ∀ schema, db.recorded schema ≤ base.latest.getD 0 ∧
    (db.pruner schema).minReadableVersion ≤ base.latest.getD 0 ∧
    (db.pruner schema).targetVersion ≤ base.latest.getD 0

namespace Follows

variable {hs : Hasher H} {us : List (ValueSetUpdate H K)} {u : ValueSetUpdate H K}
  {base : TreeDb H K} {db : StateDb H K} {schema : StaleNodeIndexSchema} {batchSize : ℕ}

theorem start : Follows hs ([] : List (ValueSetUpdate H K)) .empty .new where
  tracks := .start
  latest := rfl
  nodes := fun _ => .inl rfl
  rows := fun _ _ hi => absurd hi not_mem_nil
  gone := fun _ hi => absurd hi not_mem_nil
  above := fun _ _ hi => absurd hi not_mem_nil
  bounds := fun _ => ⟨le_rfl,le_rfl,le_rfl⟩

theorem restart (h : Follows hs us base db) : Follows hs us base
    { db with pruner := fun schema => .new (db.stateMerkleDb.metadata schema) } where
  tracks := h.tracks
  latest := h.latest
  nodes := h.nodes
  rows := h.rows
  gone := h.gone
  above := fun schema i hi => ⟨(h.above schema i hi).1,(h.above schema i hi).1,fun hfalse =>
    absurd hfalse Bool.false_ne_true⟩
  bounds := fun schema => ⟨(h.bounds schema).1,(h.bounds schema).1,Nat.zero_le _⟩

theorem advance (h : Follows hs us base db) {ended : Bool}
    (hnone : ∀ i ∈ indices (db.stateMerkleDb.stale schema),
      (db.pruner schema).targetVersion < i.staleSinceVersion) :
    Follows hs us base { db with
      pruner := db.recordProgress schema (db.pruner schema).targetVersion ended } where
  tracks := h.tracks
  latest := h.latest
  nodes := h.nodes
  rows := h.rows
  gone := h.gone
  above := by
    intro s i hi
    refine ⟨(h.above s i hi).1,?_⟩
    simp only [StateDb.recordProgress]
    by_cases hs : s = schema
    · subst hs
      rw [update_self]
      exact ⟨(hnone i hi).le,fun _ => hnone i hi⟩
    · rw [update_of_ne hs]
      exact (h.above s i hi).2
  bounds := by
    intro s
    refine ⟨(h.bounds s).1,?_⟩
    simp only [StateDb.recordProgress]
    by_cases hs : s = schema
    · subst hs
      rw [update_self]
      exact ⟨(h.bounds s).2.2,(h.bounds s).2.2⟩
    · rw [update_of_ne hs]
      exact (h.bounds s).2

theorem recorded_deleteStale {v : ℕ} {pruner : StaleNodeIndexSchema → StateMerklePruner}
    (s : StaleNodeIndexSchema) :
    StateDb.recorded { db with
        stateMerkleDb := db.stateMerkleDb.deleteStale schema l v, pruner := pruner } s =
      if s = schema then v else db.recorded s := by
  simp only [StateDb.recorded,deleteStale]
  by_cases hs : s = schema
  · subst hs
    rw [update_self,if_pos rfl]
    rfl
  · rw [update_of_ne hs,if_neg hs]

section

variable (h : Follows hs us base db)

include h

/-- A pruner deletes rows: those left are not older than the last one deleted. -/
theorem delete {last : StaleNodeIndex} {ended : Bool} (hlast : last ∈ l)
    (hrows : ∀ i ∈ l, i ∈ indices (db.stateMerkleDb.stale schema))
    (hmax : ∀ i ∈ l, i.staleSinceVersion ≤ last.staleSinceVersion)
    (hrest : ∀ i ∈ indices (db.stateMerkleDb.stale schema), i ∉ l →
      last.staleSinceVersion ≤ i.staleSinceVersion ∧
      (ended = true → last.staleSinceVersion < i.staleSinceVersion))
    (hbound : last.staleSinceVersion ≤ base.latest.getD 0) :
    Follows hs us base { db with
      stateMerkleDb := db.stateMerkleDb.deleteStale schema l last.staleSinceVersion
      pruner := db.recordProgress schema last.staleSinceVersion ended } := by
  have hold := (h.above schema last (hrows _ hlast)).1
  have hstale : ∀ s, ∀ i ∈ indices ((db.stateMerkleDb.deleteStale schema l
      last.staleSinceVersion).stale s), i ∈ indices (db.stateMerkleDb.stale s) ∧
        (s = schema → i ∉ l) := by
    intro s i hi
    simp only [deleteStale] at hi
    by_cases hs : s = schema
    · subst hs
      rw [update_self,mem_indices_delete] at hi
      exact ⟨hi.1,fun _ => hi.2⟩
    · rw [update_of_ne hs] at hi
      exact ⟨hi,fun heq => absurd heq hs⟩
  constructor
  case tracks => exact h.tracks
  case latest => exact h.latest
  case nodes =>
    intro k
    simp only [recorded_deleteStale]
    by_cases hk : ∃ i ∈ l, i.nodeKey = k
    · obtain ⟨i,hi,rfl⟩ := hk
      obtain ⟨hbase,hschema⟩ := h.rows schema i (hrows i hi)
      refine .inr ⟨?_,i,hbase,rfl,?_⟩
      · exact if_pos (any_eq_true.mpr ⟨i,hi,decide_eq_true rfl⟩)
      · exact (hmax i hi).trans_eq (if_pos hschema).symm
    · have hsame : (db.stateMerkleDb.deleteStale schema l last.staleSinceVersion).nodes k =
          db.stateMerkleDb.nodes k := by
        refine if_neg fun hany => hk ?_
        obtain ⟨i,hi,hik⟩ := any_eq_true.mp hany
        exact ⟨i,hi,of_decide_eq_true hik⟩
      rw [hsame]
      refine (h.nodes k).imp_right ?_
      rintro ⟨hnone,i,hi,hkey,hsince⟩
      refine ⟨hnone,i,hi,hkey,?_⟩
      change _ ≤ if db.schemaOf i = schema then _ else db.recorded (db.schemaOf i)
      split_ifs with hs
      · rw [hs] at hsince
        exact hsince.trans hold
      · exact hsince
  case rows => exact fun s i hi => h.rows s i (hstale s i hi).1
  case gone =>
    intro i hi
    by_cases hdel : i ∈ l
    · exact .inr (if_pos (any_eq_true.mpr ⟨i,hdel,decide_eq_true rfl⟩))
    · rcases h.gone i hi with hrow | hnone
      · left
        change i ∈ indices (update db.stateMerkleDb.stale schema _ (db.schemaOf i))
        by_cases hs : db.schemaOf i = schema
        · rw [hs] at hrow ⊢
          rw [update_self,mem_indices_delete]
          exact ⟨hrow,hdel⟩
        · rw [update_of_ne hs]
          exact hrow
      · right
        change (if _ then none else db.stateMerkleDb.nodes i.nodeKey) = none
        rw [hnone,ite_self]
  case above =>
    intro s i hi
    obtain ⟨hrow,hnot⟩ := hstale s i hi
    rw [recorded_deleteStale]
    simp only [StateDb.recordProgress]
    by_cases hs : s = schema
    · subst hs
      rw [update_self,if_pos rfl]
      obtain ⟨hle,hlt⟩ := hrest i hrow (hnot rfl)
      exact ⟨hle,hle,hlt⟩
    · rw [update_of_ne hs,if_neg hs]
      exact h.above s i hrow
  case bounds =>
    intro s
    rw [recorded_deleteStale]
    simp only [StateDb.recordProgress]
    by_cases hs : s = schema
    · subst hs
      rw [update_self,if_pos rfl]
      exact ⟨hbound,hbound,(h.bounds s).2.2⟩
    · rw [update_of_ne hs,if_neg hs]
      exact h.bounds s

theorem pruneStateMerkle (schema : StaleNodeIndexSchema) (hbatch : batchSize ≠ 0) :
    ∃ db', db.pruneStateMerkle schema batchSize = .ok db' ∧ Follows hs us base db' := by
  have habove : ∀ i ∈ indices (db.stateMerkleDb.stale schema),
      (db.pruner schema).minReadableVersion ≤ i.staleSinceVersion :=
    fun i hi => (h.above schema i hi).2.1
  rcases StateDb.pruneStateMerkle_cases db schema hbatch with
    ⟨hnil,hok⟩ | ⟨last,hlast,hok⟩
  · refine ⟨_,hok,h.advance fun i hi => ?_⟩
    refine (getStaleNodeIndices_rest habove hbatch hi ?_).2.1 hnil
    rw [hnil]
    exact not_mem_nil
  · have hmem := mem_of_getLast? hlast
    obtain ⟨-,htarget⟩ := getStaleNodeIndices_mem hmem
    refine ⟨_,hok,h.delete hmem ?_ ?_ ?_ (htarget.trans (h.bounds schema).2.2)⟩
    · exact fun i hi => (getStaleNodeIndices_mem hi).1
    · exact fun i hi => getStaleNodeIndices_last hlast hi
    · intro i hi hnot
      obtain ⟨hle,-,hend⟩ := getStaleNodeIndices_rest habove hbatch hi hnot
      exact ⟨hle last hmem,fun hended => htarget.trans_lt (hend hended)⟩

theorem storedAt (hinc : Increasing hs us) :
    (treeOf us).StoredAt hs db.stateMerkleDb.nodes base.latest := by
  have hstored := h.tracks.storedAt
  rcases eq_nil_or_concat us with rfl | ⟨us',u,rfl⟩
  · rw [h.tracks.latest] at hstored ⊢
    exact hstored
  · rw [concat_eq_append] at *
    have hlatest : base.latest = some u.version := by
      rw [h.tracks.latest,List.getLast?_concat]
      rfl
    rw [hlatest] at hstored ⊢
    refine ⟨hstored.1,fun e he => ?_⟩
    rcases h.nodes e.1 with heq | ⟨-,i,hi,hkey,-⟩
    · rw [heq]
      exact hstored.2 e he
    · -- a node of the last tree is not stale yet
      exfalso
      have hroot : i.nodeKey ∈ (treeOf (us' ++ [u])).rootKeys u.version := by
        rw [hkey,← Shape.rootEntries_keys hs]
        exact mem_map_of_mem he
      have hlt := h.tracks.not_stale hinc rfl hi hroot
      have hle := (stale_versions h.tracks hinc hi).2
      rw [hlatest] at hle
      exact absurd hle (not_le.mpr hlt)

theorem commit (hinc : Increasing hs (us ++ [u]))
    (window : StaleNodeIndexSchema → Option ℕ) (endsEpoch : Bool) :
    ∃ base' db', base.commit hs u = .ok base' ∧ db.commit hs window u endsEpoch = .ok db' ∧
      Follows hs (us ++ [u]) base' db' := by
  obtain ⟨batch,hbatch,hbase,hbasestale⟩ := h.tracks.commit_ok hinc h.tracks.storedAt
  obtain ⟨batch',hbatch',hnodes,hstale⟩ := h.tracks.commit_ok hinc (h.storedAt hinc.init)
  obtain ⟨base',hcommit,htracks⟩ := h.tracks.commit hinc
  cases hcommit.symm.trans (TreeDb.commit_eq hbatch)
  refine ⟨_,_,hcommit,StateDb.commit_eq window endsEpoch (h.latest ▸ hbatch'),?_⟩
  have hlt : ∀ w, base.latest = some w → w < u.version := fun w hw =>
    Tracks.previous_lt hinc (h.tracks.latest.symm.trans hw)
  have hbefore : base.latest.getD 0 ≤ u.version := by
    cases hlatest : base.latest with
    | none => exact Nat.zero_le _
    | some w => exact (hlt w hlatest).le
  have hperm := hstale.trans hbasestale.symm
  -- a row of the batch is new: there is a tree before
  have hnew : ∀ i ∈ batch'.staleNodeIndexBatch, i.staleSinceVersion = u.version ∧
      base.latest.getD 0 < u.version := by
    intro i hi
    obtain ⟨k,hk,rfl⟩ := mem_map.mp (hstale.mem_iff.mp hi)
    refine ⟨rfl,?_⟩
    cases hlatest : base.latest with
    | none =>
      rw [hlatest] at hk
      exact absurd (mem_filter.mp hk).1 not_mem_nil
    | some w => exact hlt w hlatest
  have hschema : ∀ i : StaleNodeIndex, i.staleSinceVersion ≤ u.version →
      columnOf (((if endsEpoch then db.epochEndings ++ [u.version] else
        db.epochEndings).filter fun ending => ending < i.staleSinceVersion).max?) i =
        db.schemaOf i := by
    intro i hi
    cases endsEpoch with
    | false => rfl
    | true =>
      rw [if_pos rfl,StateDb.getPreviousEpochEnding_append hi]
      rfl
  have hold : ∀ i ∈ base.staleNodeIndices, i.staleSinceVersion ≤ u.version := fun i hi =>
    (stale_versions h.tracks hinc.init hi).2.trans hbefore
  constructor
  case tracks => exact htracks
  case latest => rfl
  case nodes =>
    intro k
    change db.stateMerkleDb.nodes.write batch'.nodeBatch k = base.store.write batch.nodeBatch k ∨ _
    rcases write_perm db.stateMerkleDb.nodes (Tracks.batch_nodup hnodes)
      (hbase.trans hnodes.symm) k with ⟨n,hn,hall⟩ | ⟨hsame,hall⟩
    · left
      rw [hn,hall]
    · rw [hall]
      change Store.write db.stateMerkleDb.nodes batch'.nodeBatch k = base.store k ∨
        Store.write db.stateMerkleDb.nodes batch'.nodeBatch k = none ∧ _
      rw [hsame]
      refine (h.nodes k).imp_right ?_
      rintro ⟨hnone,i,hi,hkey,hrecorded⟩
      refine ⟨hnone,i,mem_append_left _ hi,hkey,?_⟩
      refine hrecorded.trans_eq ?_
      exact congrArg db.recorded (hschema i (hold i hi)).symm
  case rows =>
    intro schema i hi
    rcases mem_indices_putStale.mp hi with ⟨hi,hcolumn⟩ | hi
    · refine ⟨mem_append_right _ (hperm.mem_iff.mp hi),?_⟩
      refine (hschema i (hnew i hi).1.le).trans ?_
      rw [StateDb.schemaOf,(hnew i hi).1]
      exact hcolumn
    · obtain ⟨hmem,hcolumn⟩ := h.rows schema i hi
      exact ⟨mem_append_left _ hmem,(hschema i (hold i hmem)).trans hcolumn⟩
  case gone =>
    intro i hi
    rcases mem_append.mp hi with hi | hi
    · refine (h.gone i hi).imp (fun hrow => ?_) fun hnone => ?_
      · refine mem_indices_putStale.mpr (.inr ?_)
        exact (congrArg (fun s => i ∈ indices (db.stateMerkleDb.stale s))
          (hschema i (hold i hi))).mpr hrow
      · have hversion := (stale_versions h.tracks hinc.init hi).1
        have hle := hold i hi
        change Store.write db.stateMerkleDb.nodes batch'.nodeBatch i.nodeKey = none
        rw [Tracks.write_other hnodes (by omega)]
        exact hnone
    · have hi' := hperm.mem_iff.mpr hi
      refine .inl (mem_indices_putStale.mpr (.inl ⟨hi',?_⟩))
      refine Eq.trans ?_ (hschema i (hnew i hi').1.le).symm
      rw [StateDb.schemaOf,(hnew i hi').1]
  case above =>
    intro schema i hi
    obtain ⟨hrecorded,hmin,-⟩ := h.bounds schema
    have hprogress := (maybeSetPrunerTargetDbVersion_spec (db.pruner schema) (window schema)
      u.version).1
    simp only [minReadableVersion,hprogress]
    rcases mem_indices_putStale.mp hi with ⟨hi,-⟩ | hi
    · obtain ⟨hsince,hlatest⟩ := hnew i hi
      rw [hsince]
      exact ⟨(hrecorded.trans_lt hlatest).le,(hmin.trans_lt hlatest).le,fun _ =>
        hmin.trans_lt hlatest⟩
    · exact h.above schema i hi
  case bounds =>
    intro schema
    obtain ⟨hrecorded,hmin,htarget⟩ := h.bounds schema
    refine ⟨hrecorded.trans hbefore,?_⟩
    obtain ⟨hprogress,hnext⟩ := maybeSetPrunerTargetDbVersion_spec (db.pruner schema)
      (window schema) u.version
    simp only [minReadableVersion,hprogress]
    exact ⟨hmin.trans hbefore,hnext.trans (max_le (htarget.trans hbefore) le_rfl)⟩

end

end Follows

def StateDb.run (hs : Hasher H) (window : StaleNodeIndexSchema → Option ℕ)
    (actions : List (StateDbAction H K)) : Except PruneError (StateDb H K) :=
  actions.foldlM (StateDb.step hs window) .new

def updatesOf (actions : List (StateDbAction H K)) : List (ValueSetUpdate H K) :=
  actions.filterMap fun
    | .commit u _ => some u
    | .prune _ _ => none
    | .restart => none

/-- No pruner takes a step while its target is below its progress, as it is after a restart until a
snapshot is committed. -/
def Timely (hs : Hasher H) (window : StaleNodeIndexSchema → Option ℕ)
    (actions : List (StateDbAction H K)) : Prop :=
  ∀ earlier schema batchSize later, actions = earlier ++ .prune schema batchSize :: later →
    ∀ db, StateDb.run hs window earlier = .ok db →
      (db.pruner schema).minReadableVersion ≤ (db.pruner schema).targetVersion

section Runs

variable {hs : Hasher H} {window : StaleNodeIndexSchema → Option ℕ}
  {actions : List (StateDbAction H K)} {action : StateDbAction H K} {us : List (ValueSetUpdate H K)}
  {base : TreeDb H K} {db db' : StateDb H K}

theorem updatesOf_snoc : updatesOf (actions ++ [action]) = updatesOf actions ++ updatesOf [action] :=
  filterMap_append

theorem Timely.init (h : Timely hs window (actions ++ [action])) : Timely hs window actions := by
  intro earlier schema batchSize later heq
  refine h earlier schema batchSize (later ++ [action]) ?_
  rw [heq,append_assoc,cons_append]

/-- A pruner whose target is not below its progress does not fall behind what it has recorded. -/
theorem recorded_pruneStateMerkle {batchSize : ℕ} (hbatch : batchSize ≠ 0)
    (htimely : (db.pruner schema).minReadableVersion ≤ (db.pruner schema).targetVersion)
    (hrecorded : ∀ s, db.recorded s ≤ (db.pruner s).minReadableVersion)
    (hok : db.pruneStateMerkle schema batchSize = .ok db') (s : StaleNodeIndexSchema) :
    db'.recorded s ≤ (db'.pruner s).minReadableVersion := by
  rcases StateDb.pruneStateMerkle_cases db schema hbatch with
    ⟨-,hcase⟩ | ⟨last,-,hcase⟩
  · cases hok.symm.trans hcase
    simp only [StateDb.recordProgress]
    by_cases hs : s = schema
    · subst hs
      rw [update_self]
      exact (hrecorded s).trans htimely
    · rw [update_of_ne hs]
      exact hrecorded s
  · cases hok.symm.trans hcase
    rw [Follows.recorded_deleteStale]
    simp only [StateDb.recordProgress]
    by_cases hs : s = schema
    · subst hs
      rw [update_self,if_pos rfl]
      exact le_rfl
    · rw [update_of_ne hs,if_neg hs]
      exact hrecorded s

theorem follows_run (window : StaleNodeIndexSchema → Option ℕ)
    (hinc : Increasing hs (updatesOf actions))
    (hbatch : ∀ schema, .prune schema 0 ∉ actions) :
    ∃ base db, TreeDb.run hs (updatesOf actions) = .ok base ∧
      StateDb.run hs window actions = .ok db ∧ Follows hs (updatesOf actions) base db ∧
      (Timely hs window actions → ∀ s, db.recorded s ≤ (db.pruner s).minReadableVersion) := by
  induction actions using List.reverseRecOn with
  | nil => exact ⟨_,_,rfl,rfl,.start,fun _ _ => le_rfl⟩
  | append_singleton actions action ih =>
    rw [updatesOf_snoc] at hinc ⊢
    obtain ⟨base,db,hbase,hdb,hfollows,hrecorded⟩ := ih hinc.init fun schema hmem =>
      hbatch schema (mem_append_left _ hmem)
    rw [StateDb.run,foldlM_snoc hdb]
    cases action with
    | commit u endsEpoch =>
      obtain ⟨base',db',hbase',hdb',hfollows'⟩ := hfollows.commit hinc window endsEpoch
      refine ⟨base',db',(foldlM_snoc hbase).trans hbase',hdb',hfollows',fun htimely s => ?_⟩
      obtain ⟨batch,hok,-,-⟩ := hfollows.tracks.commit_ok hinc (hfollows.storedAt hinc.init)
      have hcommit := StateDb.commit_eq window endsEpoch (hfollows.latest ▸ hok)
      cases hdb'.symm.trans hcommit
      have hprogress := (maybeSetPrunerTargetDbVersion_spec (db.pruner s) (window s) u.version).1
      simp only [minReadableVersion,hprogress]
      exact hrecorded htimely.init s
    | prune schema batchSize =>
      have hzero : batchSize ≠ 0 := by
        rintro rfl
        exact hbatch schema (mem_append_right _ (mem_singleton_self _))
      simp only [updatesOf,filterMap_cons,filterMap_nil,append_nil]
      change ∃ base db', _ ∧ (if (window schema).isSome then db.prune schema batchSize else .ok db) =
        _ ∧ _
      rw [StateDb.prune]
      split_ifs with hwindow hpending
      · obtain ⟨db',hok,hfollows'⟩ := hfollows.pruneStateMerkle schema hzero
        refine ⟨base,db',hbase,hok,hfollows',fun htimely s => ?_⟩
        have hle := htimely actions schema batchSize [] rfl db hdb
        exact recorded_pruneStateMerkle hzero hle (hrecorded htimely.init) hok s
      · exact ⟨base,db,hbase,rfl,hfollows,fun htimely => hrecorded htimely.init⟩
      · exact ⟨base,db,hbase,rfl,hfollows,fun htimely => hrecorded htimely.init⟩
    | restart =>
      simp only [updatesOf,filterMap_cons,filterMap_nil,append_nil]
      exact ⟨base,_,hbase,rfl,hfollows.restart,fun _ s => le_rfl⟩

theorem Follows.readable (h : Follows hs us base db) (hinc : Increasing hs us)
    (hrecorded : ∀ s, db.recorded s ≤ (db.pruner s).minReadableVersion)
    {earlier later : List (ValueSetUpdate H K)} {u : ValueSetUpdate H K}
    (hus : us = earlier ++ u :: later) (hguard : db.errorIfStateMerklePruned u.version = .ok ())
    (hepoch : (db.pruner .staleNodeIndexCrossEpoch).minReadableVersion ≤ u.version)
    {k : NodeKey} (hk : k ∈ (treeOf (earlier ++ [u])).rootKeys u.version) :
    db.stateMerkleDb.nodes k = base.store k := by
  rcases h.nodes k with heq | ⟨-,i,hi,rfl,hdeleted⟩
  · exact heq
  exfalso
  have hlater := h.tracks.not_stale hinc hus hi hk
  have hmin := hdeleted.trans (hrecorded (db.schemaOf i))
  -- the node was left to the state merkle pruner, which has passed the snapshot
  have hschema : db.schemaOf i = .staleNodeIndex := by
    cases hcase : db.schemaOf i with
    | staleNodeIndex => rfl
    | staleNodeIndexCrossEpoch =>
      rw [hcase] at hmin
      omega
  rw [hschema] at hmin
  have hbelow : ¬ u.version ≥ (db.pruner .staleNodeIndex).minReadableVersion := by omega
  rw [StateDb.errorIfStateMerklePruned] at hguard
  simp only [if_neg hbelow,ge_iff_le,if_pos hepoch,StateDb.ensureEpochEnding] at hguard
  have hending : u.version ∈ db.epochEndings := by
    by_contra hnot
    rw [if_neg hnot] at hguard
    cases hguard
  -- but the snapshot ends an epoch before the node is stale, and the node is not younger
  have hmem : u.version ∈ db.epochEndings.filter fun ending => ending < i.staleSinceVersion :=
    mem_filter.mpr ⟨hending,decide_eq_true hlater⟩
  obtain ⟨previous,hprevious⟩ := Option.isSome_iff_exists.mp
    (isSome_max?_of_mem hmem)
  have hle := (List.max?_eq_some_iff.mp hprevious).2 u.version hmem
  have hversion := Shape.rootKeys_version (Tracks.older_at hinc hus) hk
  have hcolumn : db.schemaOf i = .staleNodeIndexCrossEpoch := by
    rw [StateDb.schemaOf,StateDb.getPreviousEpochEnding,hprevious]
    exact if_pos (hversion.trans hle)
  rw [hschema] at hcolumn
  cases hcolumn

theorem Follows.pruned (h : Follows hs us base db) (hi : i ∈ base.staleNodeIndices)
    (hpending : (db.pruner (db.schemaOf i)).isPruningPending = false)
    (htarget : i.staleSinceVersion ≤ (db.pruner (db.schemaOf i)).targetVersion) :
    db.stateMerkleDb.nodes i.nodeKey = none := by
  have hdone := of_decide_eq_false hpending
  push Not at hdone
  refine (h.gone i hi).resolve_left fun hrow => ?_
  have hlt := (h.above _ i hrow).2.2 (Bool.eq_true_of_not_eq_false hdone.2)
  omega

end Runs

/-- Of a history of snapshots, steps of the pruners and restarts: snapshots that the guard accepts are
complete, if no pruner takes a step with its target below its progress and the snapshot is not below
the progress of the epoch snapshot pruner; and a pruner without pending work has deleted all that was
left to it up to its target. -/
theorem state_merkle_pruning (hs : Hasher H) (window : StaleNodeIndexSchema → Option ℕ)
    (actions : List (StateDbAction H K)) (hinc : Increasing hs (updatesOf actions))
    (hbatch : ∀ schema, .prune schema 0 ∉ actions) :
    ∃ base db, TreeDb.run hs (updatesOf actions) = .ok base ∧
      StateDb.run hs window actions = .ok db ∧
      (Timely hs window actions → ∀ u ∈ updatesOf actions,
        db.errorIfStateMerklePruned u.version = .ok () →
        (db.pruner .staleNodeIndexCrossEpoch).minReadableVersion ≤ u.version →
        ∃ keys, getAllNodesReferenced base.store u.version = .ok keys ∧
          ∀ k ∈ keys, (base.store k).isSome ∧ db.stateMerkleDb.nodes k = base.store k) ∧
      ∀ i ∈ base.staleNodeIndices, (db.pruner (db.schemaOf i)).isPruningPending = false →
        i.staleSinceVersion ≤ (db.pruner (db.schemaOf i)).targetVersion →
        db.stateMerkleDb.nodes i.nodeKey = none := by
  obtain ⟨base,db,hbase,hdb,hfollows,hrecorded⟩ := follows_run window hinc hbatch
  refine ⟨base,db,hbase,hdb,fun htimely u hu hguard hepoch => ?_,fun i hi => hfollows.pruned hi⟩
  obtain ⟨earlier,later,hus⟩ := append_of_mem hu
  obtain ⟨keys,hok,hkeys⟩ := hfollows.tracks.referenced_ok hus
  refine ⟨keys,hok,fun k hk => ⟨(hkeys k hk).2,?_⟩⟩
  exact hfollows.readable hinc (hrecorded htimely) hus hguard hepoch (hkeys k hk).1

def sampleActions (endsEpoch : Bool) (schema : StaleNodeIndexSchema) : List (StateDbAction ℕ ℕ) :=
  [.commit ⟨0,[(uniformKey 1,some (7,1)),(uniformKey 2,some (8,2))],none⟩ endsEpoch,
    .commit ⟨5,[(uniformKey 1,none),(uniformKey 3,none)],none⟩ false,.prune schema 10]

/-- What a reader of the snapshot at version 0 meets: the guard, and whether the root is there. -/
def readFirst (db : StateDb ℕ ℕ) : Except PruneError Unit × Bool :=
  (db.errorIfStateMerklePruned 0,(db.stateMerkleDb.nodes (.newEmptyPath 0)).isSome)

theorem state_merkle_pruning_sample : ∃ base db,
    TreeDb.run sampleHasher (updatesOf (sampleActions true .staleNodeIndex)) = .ok base ∧
    StateDb.run sampleHasher (fun _ => some 0) (sampleActions true .staleNodeIndex) = .ok db ∧
    ∃ keys, getAllNodesReferenced base.store 0 = .ok keys ∧
      ∀ k ∈ keys, (base.store k).isSome ∧ db.stateMerkleDb.nodes k = base.store k := by
  obtain ⟨base,db,hbase,hdb,hread,-⟩ := state_merkle_pruning sampleHasher (fun _ => some 0)
    (sampleActions true .staleNodeIndex) sampleUpdates_increasing (by simp [sampleActions])
  have htimely : Timely sampleHasher (fun _ => some 0) (sampleActions true .staleNodeIndex) := by
    intro earlier schema batchSize later heq db hrun
    have hstart : earlier = (sampleActions true .staleNodeIndex).take 2 ∧
        schema = .staleNodeIndex := by
      rcases earlier with _ | ⟨a,_ | ⟨b,_ | ⟨c,rest⟩⟩⟩ <;> simp_all [sampleActions]
    obtain ⟨rfl,rfl⟩ := hstart
    have hmin : (StateDb.run sampleHasher (fun _ => some 0)
        ((sampleActions true .staleNodeIndex).take 2)).map
        (fun db => (db.pruner .staleNodeIndex).minReadableVersion) = .ok 0 := by decide +kernel
    rw [hrun] at hmin
    exact (Except.ok.inj hmin).le.trans (Nat.zero_le _)
  have hguard : (StateDb.run sampleHasher (fun _ => some 0)
      (sampleActions true .staleNodeIndex)).map (fun db =>
        (db.errorIfStateMerklePruned 0,(db.pruner .staleNodeIndexCrossEpoch).minReadableVersion)) =
      .ok (.ok (),0) := by decide +kernel
  rw [hdb] at hguard
  obtain ⟨hok,hmin⟩ := Prod.mk.inj (Except.ok.inj hguard)
  exact ⟨base,db,hbase,hdb,hread htimely _ mem_cons_self hok hmin.le⟩

/-- After a restart a pruner goes back to its target, which is zero, and the guard accepts a snapshot
whose nodes are deleted; and so it does while only the epoch snapshot pruner has taken a step. -/
theorem pruned_snapshot_accepted :
    ((StateDb.run sampleHasher (fun _ => some 0) (sampleActions false .staleNodeIndex ++
        [.restart,.prune .staleNodeIndex 10])).map readFirst = .ok (.ok (),false) ∧
      (StateDb.run sampleHasher (fun _ => some 0)
        (sampleActions true .staleNodeIndexCrossEpoch)).map readFirst = .ok (.ok (),false)) ∧
    ∃ base keys, TreeDb.run sampleHasher sampleUpdates = .ok base ∧
      getAllNodesReferenced base.store 0 = .ok keys ∧ .newEmptyPath 0 ∈ keys := by
  refine ⟨⟨by decide +kernel,by decide +kernel⟩,?_⟩
  have hkeys : ((TreeDb.run sampleHasher sampleUpdates).map fun base =>
      (getAllNodesReferenced base.store 0).map fun keys => decide (.newEmptyPath 0 ∈ keys)) =
      .ok (.ok true) := by decide +kernel
  obtain ⟨base,hrun,hwalk⟩ := except_map_eq_ok.mp hkeys
  obtain ⟨keys,hok,hmem⟩ := except_map_eq_ok.mp hwalk
  exact ⟨base,keys,hrun,hok,of_decide_eq_true hmem⟩

end Arx.Arxdb
