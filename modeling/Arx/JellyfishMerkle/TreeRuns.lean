import Arx.JellyfishMerkle.ReadProof
import Arx.Movelib.Run

/-!
# Runs of a versioned tree

The tree at each version is the canonical one of its map, and the nodes marked as stale are those
that the later trees do without.
-/

namespace Arx.JellyfishMerkle
open Movelib Function List Shape

variable {H K : Type} {store : Store H K} {nodes : List (NodeKey × Node H K)} {k : NodeKey}

def Store.write (store : Store H K) (nodes : List (NodeKey × Node H K)) : Store H K :=
  nodes.foldl (fun store e => update store e.1 (some e.2)) store

theorem Store.write_of_notMem (h : ∀ e ∈ nodes, e.1 ≠ k) : store.write nodes k = store k := by
  induction nodes generalizing store with
  | nil => rfl
  | cons e nodes ih =>
    change (Store.write (update store e.1 (some e.2)) nodes) k = store k
    rw [ih fun e' he' => h e' (mem_cons_of_mem e he'),
      update_of_ne (h e mem_cons_self).symm]

theorem Store.write_of_mem (hnodup : (nodes.map Prod.fst).Nodup) {e : NodeKey × Node H K}
    (he : e ∈ nodes) :
    store.write nodes e.1 = some e.2 := by
  induction nodes generalizing store with
  | nil => cases he
  | cons e' nodes ih =>
    change (Store.write (update store e'.1 (some e'.2)) nodes) e.1 = some e.2
    obtain ⟨hnot,hnodup⟩ := nodup_cons.mp hnodup
    rcases mem_cons.mp he with rfl | he
    · have hother : ∀ e' ∈ nodes, e'.1 ≠ e.1 := fun e' he' h => hnot (h ▸ mem_map_of_mem he')
      rw [Store.write_of_notMem hother,update_self]
    · exact ih hnodup he

structure ValueSetUpdate (H K : Type) where
  version : ℕ
  valueSet : KeyValues H K
  nodeHashes : Option (HashCache H)

/-- The nodes and stale indices written so far, the hashes that have been returned and the last
version. -/
structure TreeDb (H K : Type) where
  store : Store H K
  staleNodeIndices : List StaleNodeIndex
  rootHashes : ℕ → Option H
  latest : Option ℕ

namespace TreeDb

def empty : TreeDb H K := ⟨fun _ => none,[],fun _ => none,none⟩

def commit (hs : Hasher H) (db : TreeDb H K) (u : ValueSetUpdate H K) :
    Except TreeError (TreeDb H K) := do
  let (rootHash,batch) ←
    batchPutValueSet hs u.nodeHashes u.version db.store u.valueSet db.latest
  pure ⟨db.store.write batch.nodeBatch,db.staleNodeIndices ++ batch.staleNodeIndexBatch,
    update db.rootHashes u.version (some rootHash),some u.version⟩

theorem commit_eq {hs : Hasher H} {db : TreeDb H K} {u : ValueSetUpdate H K} {rootHash : H}
    {batch : TreeUpdateBatch H K}
    (hok : batchPutValueSet hs u.nodeHashes u.version db.store u.valueSet db.latest =
      .ok (rootHash,batch)) :
    db.commit hs u = .ok ⟨db.store.write batch.nodeBatch,
      db.staleNodeIndices ++ batch.staleNodeIndexBatch,
      update db.rootHashes u.version (some rootHash),some u.version⟩ := by
  rw [commit,hok]
  rfl

def run (hs : Hasher H) (us : List (ValueSetUpdate H K)) : Except TreeError (TreeDb H K) :=
  us.foldlM (commit hs) empty

end TreeDb

def mapOf (us : List (ValueSetUpdate H K)) : StateMap H K :=
  us.foldl (fun m u => m.writeAll u.version u.valueSet) Column.empty

def treeOf (us : List (ValueSetUpdate H K)) : Shape H K :=
  us.foldl (fun t u => t.update u.version u.valueSet) .empty

/-- Updates at increasing versions. Hashes that are given to an update are those of the nodes it
creates. -/
structure Increasing (hs : Hasher H) (us : List (ValueSetUpdate H K)) : Prop where
  versions : us.Pairwise fun a b => a.version < b.version
  hashes : ∀ earlier u later, us = earlier ++ u :: later → ∀ cache, u.nodeHashes = some cache →
    ∀ e ∈ (treeOf (earlier ++ [u])).fresh hs u.version [],
      cache e.1.nibblePath = some (e.2.hash hs)

namespace Increasing

variable {hs : Hasher H} {us : List (ValueSetUpdate H K)} {u : ValueSetUpdate H K}

theorem init {rest : List (ValueSetUpdate H K)} (h : Increasing hs (us ++ rest)) :
    Increasing hs us where
  versions := (pairwise_append.mp h.versions).1
  hashes := fun earlier u' later heq =>
    h.hashes earlier u' (later ++ rest) (by rw [heq,append_assoc,cons_append])

theorem upTo {earlier later : List (ValueSetUpdate H K)} (h : Increasing hs us)
    (hus : us = earlier ++ u :: later) : Increasing hs (earlier ++ [u]) := by
  rw [hus,← singleton_append,← append_assoc] at h
  exact h.init

theorem of_no_hashes (h : us.Pairwise fun a b => a.version < b.version)
    (hnone : ∀ u ∈ us, u.nodeHashes = none) : Increasing hs us where
  versions := h
  hashes := fun _ u _ heq _ hcache =>
    absurd ((hnone u (heq ▸ mem_append_right _ mem_cons_self)).symm.trans hcache) nofun

theorem lt_last (h : Increasing hs (us ++ [u])) {u' : ValueSetUpdate H K} (hu' : u' ∈ us) :
    u'.version < u.version :=
  (pairwise_append.mp h.versions).2.2 u' hu' u (mem_singleton_self u)

theorem getHash_ok (h : Increasing hs (us ++ [u])) :
    (treeOf (us ++ [u])).Hashed hs u.nodeHashes u.version [] := by
  intro e he
  cases hcache : u.nodeHashes with
  | none => rfl
  | some cache => rw [getHash,h.hashes us u [] rfl cache hcache e he]

end Increasing

section Trees

variable {hs : Hasher H} {us : List (ValueSetUpdate H K)} {u : ValueSetUpdate H K}

theorem treeOf_snoc : treeOf (us ++ [u]) = (treeOf us).update u.version u.valueSet := by
  rw [treeOf,foldl_append]
  rfl

theorem mapOf_snoc : mapOf (us ++ [u]) = (mapOf us).writeAll u.version u.valueSet := by
  rw [mapOf,foldl_append]
  rfl

theorem treeOf_canonical (us : List (ValueSetUpdate H K)) :
    (treeOf us).Canonical [] ∧ (treeOf us).leaves = (mapOf us).leaves := by
  induction us using List.reverseRecOn with
  | nil => exact ⟨trivial,rfl⟩
  | append_singleton us u ih =>
    rw [treeOf_snoc,mapOf_snoc]
    exact ⟨canonical_update ih.1,leaves_update ih.1 ih.2⟩

theorem treeOf_older (hs : Hasher H) {v : ℕ} (hinc : us.Pairwise fun a b => a.version < b.version)
    (hv : ∀ u ∈ us, u.version < v) : (treeOf us).Older v := by
  induction us using List.reverseRecOn generalizing v with
  | nil => trivial
  | append_singleton us u ih =>
    obtain ⟨hinit,-,hlast⟩ := pairwise_append.mp hinc
    have hold := ih hinit fun u' hu' => hlast u' hu' u (mem_singleton_self u)
    rw [treeOf_snoc]
    refine older_of_keys (p := []) fun k hk => ?_
    have hlt := (older_insertAt hs hold).keys hk
    have hu := hv u (mem_append_right _ (mem_singleton_self u))
    omega

end Trees

/-- What holds along a run: the trees of all its versions are stored, the roots returned are theirs,
and the stale nodes are those that an update leaves behind. -/
structure Tracks (hs : Hasher H) (us : List (ValueSetUpdate H K)) (db : TreeDb H K) : Prop where
  latest : db.latest = us.getLast?.map ValueSetUpdate.version
  stored : ∀ earlier u later, us = earlier ++ u :: later →
    ∀ e ∈ (treeOf (earlier ++ [u])).rootEntries hs u.version, db.store e.1 = some e.2
  roots : ∀ earlier u later, us = earlier ++ u :: later →
    db.rootHashes u.version = some ((treeOf (earlier ++ [u])).rootHash hs)
  stale : ∀ i ∈ db.staleNodeIndices, ∃ earlier u later, us = earlier ++ u :: later ∧
    i.staleSinceVersion = u.version ∧
    i.nodeKey ∈ (treeOf earlier).previousKeys (earlier.getLast?.map ValueSetUpdate.version) ∧
    i.nodeKey ∉ (treeOf (earlier ++ [u])).rootKeys u.version

namespace Tracks

variable {hs : Hasher H} {us earlier later : List (ValueSetUpdate H K)} {u u' : ValueSetUpdate H K}
  {db : TreeDb H K}

theorem start : Tracks hs ([] : List (ValueSetUpdate H K)) TreeDb.empty where
  latest := rfl
  stored := fun earlier u later h => absurd h (by simp)
  roots := fun earlier u later h => absurd h (by simp)
  stale := fun i hi => absurd hi not_mem_nil

theorem previous_lt (h : Increasing hs (us ++ [u])) {w : ℕ}
    (hw : us.getLast?.map ValueSetUpdate.version = some w) : w < u.version := by
  obtain ⟨u',hu',rfl⟩ := Option.map_eq_some_iff.mp hw
  exact h.lt_last (mem_of_getLast? hu')

theorem storedAt_version (h : Tracks hs us db) (hus : us = earlier ++ u :: later) :
    (treeOf (earlier ++ [u])).StoredAt hs db.store (some u.version) := by
  refine ⟨?_,h.stored earlier u later hus⟩
  rw [treeOf_snoc]
  exact update_version

theorem storedAt (h : Tracks hs us db) : (treeOf us).StoredAt hs db.store db.latest := by
  rw [h.latest]
  rcases eq_nil_or_concat us with rfl | ⟨us',u',rfl⟩
  · rfl
  · rw [concat_eq_append,List.getLast?_concat] at *
    exact h.storedAt_version rfl

theorem older_at (h : Increasing hs us) (heq : us = earlier ++ u' :: later) :
    (treeOf (earlier ++ [u'])).Older (u'.version + 1) := by
  have hinc := h.upTo heq
  refine treeOf_older hs hinc.versions fun u hu => ?_
  rcases mem_append.mp hu with hu | hu
  · exact Nat.lt_succ_of_lt (hinc.lt_last hu)
  · rw [mem_singleton.mp hu]
    exact Nat.lt_succ_self _

section

variable {batch : TreeUpdateBatch H K} {t : Shape H K} {v : ℕ}
    (hnodes : batch.nodeBatch.Perm ((t.rootEntries hs v).filter fun e => decide (e.1.version = v)))

include hnodes

theorem write_other (hk : k.version ≠ v) : store.write batch.nodeBatch k = store k := by
  refine Store.write_of_notMem fun e he heq => hk ?_
  rw [← heq]
  exact of_decide_eq_true (mem_filter.mp (hnodes.mem_iff.mp he)).2

theorem batch_nodup : (batch.nodeBatch.map Prod.fst).Nodup := by
  refine (hnodes.map Prod.fst).nodup_iff.mpr ?_
  refine List.Nodup.sublist (List.Sublist.map _ filter_sublist) ?_
  rw [rootEntries_keys]
  exact rootKeys_nodup

end

theorem commit_ok (h : Tracks hs us db) (hinc : Increasing hs (us ++ [u]))
    (hstored : (treeOf us).StoredAt hs store db.latest) :
    ∃ batch, batchPutValueSet hs u.nodeHashes u.version store u.valueSet db.latest =
        .ok ((treeOf (us ++ [u])).rootHash hs,batch) ∧
      batch.nodeBatch.Perm (((treeOf (us ++ [u])).rootEntries hs u.version).filter fun e =>
        decide (e.1.version = u.version)) ∧
      batch.staleNodeIndexBatch.Perm
        ((((treeOf us).previousKeys db.latest).filter fun k =>
          decide (k ∉ (treeOf (us ++ [u])).rootKeys u.version)).map fun k => ⟨u.version,k⟩) := by
  have hhash := hinc.getHash_ok
  rw [treeOf_snoc] at hhash ⊢
  refine batchPutValueSet_ok (treeOf_canonical _).1 (treeOf_older hs hinc.init.versions ?_) ?_
    hstored hhash
  · exact fun u' hu' => hinc.lt_last hu'
  · intro w hw
    exact previous_lt hinc (h.latest.symm.trans hw)

theorem commit (h : Tracks hs us db) (hinc : Increasing hs (us ++ [u])) :
    ∃ db', db.commit hs u = .ok db' ∧ Tracks hs (us ++ [u]) db' := by
  obtain ⟨batch,hok,hnodes,hstale⟩ := h.commit_ok hinc h.storedAt
  refine ⟨_,TreeDb.commit_eq hok,?_⟩
  constructor
  case latest => rw [List.getLast?_concat]; rfl
  case stored =>
    intro earlier u' later heq e he
    change db.store.write batch.nodeBatch e.1 = some e.2
    rcases snoc_eq_append_cons heq with ⟨rfl,rfl,rfl⟩ | ⟨rest,hus,rfl⟩
    · by_cases hv : e.1.version = u.version
      · exact Store.write_of_mem (batch_nodup hnodes) (hnodes.mem_iff.mpr
          (mem_filter.mpr ⟨he,decide_eq_true hv⟩))
      · rw [write_other hnodes hv]
        rw [treeOf_snoc] at he
        have hold := (mem_rootEntries_update he).resolve_left hv
        have hstored := h.storedAt
        cases hlatest : db.latest with
        | none =>
          rw [hlatest] at hstored
          rw [show treeOf us = .empty from hstored] at hold
          cases hold
        | some w =>
          rw [hlatest] at hstored
          exact hstored.2 e (entries_sub_rootEntries hold)
    · have hlt : u'.version < u.version := hinc.lt_last (by rw [hus]; simp)
      have hle : e.1.version ≤ u'.version := by
        refine rootKeys_version (older_at hinc.init hus) ?_
        rw [← rootEntries_keys hs]
        exact mem_map_of_mem he
      rw [write_other hnodes (by omega)]
      exact h.stored earlier u' rest hus e he
  case roots =>
    intro earlier u' later heq
    change update db.rootHashes u.version _ u'.version = _
    rcases snoc_eq_append_cons heq with ⟨rfl,rfl,rfl⟩ | ⟨rest,hus,rfl⟩
    · exact update_self _ _ _
    · have hlt : u'.version < u.version := hinc.lt_last (by rw [hus]; simp)
      rw [update_of_ne hlt.ne]
      exact h.roots earlier u' rest hus
  case stale =>
    intro i hi
    rcases mem_append.mp hi with hi | hi
    · obtain ⟨earlier,u',later,hus,hrest⟩ := h.stale i hi
      exact ⟨earlier,u',later ++ [u],by rw [hus,append_assoc,cons_append],hrest⟩
    · obtain ⟨k,hk,rfl⟩ := mem_map.mp (hstale.mem_iff.mp hi)
      obtain ⟨hprev,hnot⟩ := mem_filter.mp hk
      exact ⟨us,u,[],rfl,rfl,h.latest ▸ hprev,of_decide_eq_true hnot⟩

theorem run_ok (hinc : Increasing hs us) : ∃ db, TreeDb.run hs us = .ok db ∧ Tracks hs us db := by
  induction us using List.reverseRecOn with
  | nil => exact ⟨_,rfl,start⟩
  | append_singleton us u ih =>
    obtain ⟨db,hrun,hdb⟩ := ih hinc.init
    obtain ⟨db',hcommit,hdb'⟩ := hdb.commit hinc
    exact ⟨db',(foldlM_snoc hrun).trans hcommit,hdb'⟩

end Tracks

section Read

variable {hs : Hasher H} {store : Store H K} {t : Shape H K} {v : ℕ}
  (h : t.StoredAt hs store (some v))

include h

theorem root_mem_rootEntries :
    (.newEmptyPath v,(t.node hs).getD .null) ∈ t.rootEntries hs v := by
  have hroot := mem_cons_self (a := ((.newEmptyPath v : NodeKey),(t.node hs).getD .null))
    (l := t.fresh hs v [])
  rw [← filter_rootEntries h.1] at hroot
  exact (mem_filter.mp hroot).1

theorem getRootNode_ok : getRootNode store v = .ok ((t.node hs).getD .null) := by
  rw [getRootNode,h.2 _ (root_mem_rootEntries h)]

theorem getRootHash_ok : getRootHash hs store v = .ok (t.rootHash hs) := by
  rw [getRootHash,getRootNode_ok h,rootHash]
  cases t.node hs <;> rfl

theorem getLeafCount_ok : getLeafCount store v = .ok t.leaves.length := by
  rw [getLeafCount,getRootNode_ok h]
  cases hnode : t.node hs with
  | none =>
    rw [node_eq_none hnode]
    rfl
  | some n =>
    rw [← leafCount_node hnode]
    rfl

theorem getWithProof_ok [DecidableEq H] (ht : t.Canonical []) (key : HashValue) : ∃ proof,
    getWithProof hs store key v =
        .ok ((t.lookup key).map fun l => (l.valueHash,l.valueIndex),proof) ∧
      proof.verifyByHash hs (t.rootHash hs) key ((t.lookup key).map LeafNode.valueHash) = .ok () := by
  obtain ⟨hver,hstored⟩ := h
  by_cases hempty : t = .empty
  · subst hempty
    have hproves : Shape.Proves hs key [] (.empty : Shape H K) none [] :=
      ⟨Nat.zero_le _,fun _ _ h => absurd h nofun,rfl⟩
    refine ⟨_,?_,verifyByHash_ok hproves⟩
    have hread : store.getNode (.newEmptyPath v) = .ok .null := by
      rw [Store.getNode,hstored _ (mem_singleton_self _)]
    rw [getWithProof,getWithProofExt,getWithProofFrom,hread]
    rfl
  · obtain ⟨known,s,hok,hproves⟩ := getWithProofFrom_ok ht hempty
      (fun e he => hstored e (entries_sub_rootEntries he)) nil_prefix v
      (by decide : rootNibbleHeight < [].length + (rootNibbleHeight + 1)) []
    refine ⟨_,?_,verifyByHash_ok hproves⟩
    rw [hver hempty] at hok
    replace hok : getWithProofFrom hs store key v (rootNibbleHeight + 1) 0 (.newEmptyPath v) [] = _ :=
      hok
    rw [getWithProof,getWithProofExt,hok]
    rfl

omit h in
theorem lookup_eq_get {m : StateMap H K} (hm : t.leaves = m.leaves) (key : HashValue) :
    ((t.lookup key).map fun l => (l.valueHash,l.valueIndex)) = m.get key ∧
      (t.lookup key).map LeafNode.valueHash = (m.get key).map Prod.fst := by
  cases hfound : t.lookup key with
  | none =>
    have hget : m.get key = none := by
      by_contra hne
      obtain ⟨x,hx⟩ := Option.ne_none_iff_exists'.mp hne
      have hl : (⟨key,x.1,x.2⟩ : LeafNode H K) ∈ t.leaves := by
        rw [hm,StateMap.mem_leaves]
        exact (Column.get_eq_some injective_id).mp hx
      exact lookup_eq_none.mp hfound _ hl rfl
    rw [hget]
    exact ⟨rfl,rfl⟩
  | some l =>
    obtain ⟨hl,rfl⟩ := lookup_mem hfound
    rw [hm,StateMap.mem_leaves] at hl
    rw [(Column.get_eq_some injective_id).mpr hl]
    exact ⟨rfl,rfl⟩

end Read

/-- The tree at every version is the canonical one of its map. -/
theorem tree_canonical [DecidableEq H] (hs : Hasher H) (us : List (ValueSetUpdate H K))
    (hinc : Increasing hs us) : ∃ db, TreeDb.run hs us = .ok db ∧
      ∀ earlier u later, us = earlier ++ u :: later →
        let m := mapOf (earlier ++ [u])
        let root := referenceRoot hs 256 0 m.leaves
        db.rootHashes u.version = some root ∧
        getRootHash hs db.store u.version = .ok root ∧
        getLeafCount db.store u.version = .ok m.rows.length ∧
        ∀ key, ∃ proof, getWithProof hs db.store key u.version = .ok (m.get key,proof) ∧
          proof.verifyByHash hs root key ((m.get key).map Prod.fst) = .ok () := by
  obtain ⟨db,hrun,hdb⟩ := Tracks.run_ok hinc
  refine ⟨db,hrun,fun earlier u later hus => ?_⟩
  obtain ⟨hcan,hleaves⟩ := treeOf_canonical (earlier ++ [u])
  have hstored := hdb.storedAt_version hus
  have hroot : (treeOf (earlier ++ [u])).rootHash hs =
      referenceRoot hs 256 0 (mapOf (earlier ++ [u])).leaves := by
    rw [← hleaves]
    exact rootHash_eq hcan rfl
  refine ⟨?_,?_,?_,fun key => ?_⟩
  · rw [hdb.roots earlier u later hus,hroot]
  · rw [getRootHash_ok hstored,hroot]
  · rw [getLeafCount_ok hstored,hleaves,StateMap.leaves,length_map]
  · obtain ⟨proof,hread,hverify⟩ := getWithProof_ok hstored hcan key
    obtain ⟨hget,hhash⟩ := lookup_eq_get hleaves key
    rw [hget] at hread
    rw [hhash,hroot] at hverify
    exact ⟨proof,hread,hverify⟩

theorem length_uniform (c : Nibble) : (List.replicate 64 c).length = 64 := length_replicate

def uniformKey (c : Nibble) : HashValue := ⟨List.replicate 64 c,length_uniform c⟩

def sampleUpdates : List (ValueSetUpdate ℕ ℕ) :=
  [⟨0,[(uniformKey 1,some (7,1)),(uniformKey 2,some (8,2))],none⟩,
    ⟨5,[(uniformKey 1,none),(uniformKey 3,none)],none⟩]

def sampleHasher : Hasher ℕ := ⟨0,fun a b => a + 2 * b,fun _ h => h⟩

theorem sampleUpdates_increasing : Increasing sampleHasher sampleUpdates :=
  .of_no_hashes (by simp [sampleUpdates]) (by simp [sampleUpdates])

theorem tree_canonical_sample : ∃ db, TreeDb.run sampleHasher sampleUpdates = .ok db ∧
    getRootHash sampleHasher db.store 5 = .ok 8 ∧ getLeafCount db.store 5 = .ok 1 := by
  obtain ⟨db,hrun,hdb⟩ := tree_canonical sampleHasher sampleUpdates sampleUpdates_increasing
  obtain ⟨-,hroot,hcount,-⟩ := hdb [_] _ [] rfl
  refine ⟨db,hrun,hroot.trans ?_,hcount.trans ?_⟩
  · decide +kernel
  · decide +kernel

def TreeDb.reachable (db : TreeDb H K) : Except TreeError (List NodeKey) :=
  match db.latest with
  | some version => getAllNodesReferenced db.store version
  | none => .ok []

/-- The store without the nodes that are stale since a version or earlier. -/
def TreeDb.pruned (db : TreeDb H K) (version : ℕ) : Store H K := fun key =>
  if db.staleNodeIndices.any fun i => decide (i.staleSinceVersion ≤ version ∧ i.nodeKey = key)
  then none
  else db.store key

section Reachable

variable {hs : Hasher H} {store : Store H K} {t : Shape H K} {v : ℕ} {db : TreeDb H K}
  {us : List (ValueSetUpdate H K)} {u : ValueSetUpdate H K}
  {earlier later : List (ValueSetUpdate H K)}

theorem getAllNodesReferenced_ok (ht : t.Canonical []) (h : t.StoredAt hs store (some v)) :
    ∃ keys, getAllNodesReferenced store v = .ok keys ∧ keys.Perm (t.rootKeys v) := by
  obtain ⟨hver,hstored⟩ := h
  by_cases hempty : t = .empty
  · subst hempty
    have hread : store.getNode (.newEmptyPath v) = .ok .null := by
      rw [Store.getNode,hstored _ (mem_singleton_self _)]
    refine ⟨[.newEmptyPath v],?_,List.Perm.refl _⟩
    change allNodesReferencedFrom store (63 + 1) (.newEmptyPath v) = _
    rw [allNodesReferencedFrom,hread]
    rfl
  · obtain ⟨keys,hok,hkeys⟩ := allNodesReferencedFrom_ok hempty
      (fun e he => hstored e (entries_sub_rootEntries he)) ht.fits (Nat.zero_add _)
    rw [hver hempty] at hok
    exact ⟨keys,hok,hkeys.trans (List.Perm.of_eq (rootKeys_of_ne_empty hempty).symm)⟩

theorem Tracks.reachable_ok (h : Tracks hs us db) : ∃ keys, db.reachable = .ok keys ∧
    keys.Perm ((treeOf us).previousKeys db.latest) := by
  have hstored := h.storedAt
  rw [TreeDb.reachable]
  cases hlatest : db.latest with
  | none => exact ⟨[],rfl,List.Perm.refl _⟩
  | some w =>
    rw [hlatest] at hstored
    exact getAllNodesReferenced_ok (treeOf_canonical _).1 hstored

theorem Tracks.referenced_ok (h : Tracks hs us db) (hus : us = earlier ++ u :: later) :
    ∃ keys, getAllNodesReferenced db.store u.version = .ok keys ∧
      ∀ k ∈ keys, k ∈ (treeOf (earlier ++ [u])).rootKeys u.version ∧ (db.store k).isSome := by
  have hstored := h.storedAt_version hus
  obtain ⟨keys,hok,hkeys⟩ := getAllNodesReferenced_ok (treeOf_canonical _).1 hstored
  refine ⟨keys,hok,fun k hk => ?_⟩
  have hroot := hkeys.mem_iff.mp hk
  refine ⟨hroot,?_⟩
  rw [← rootEntries_keys hs] at hroot
  obtain ⟨e,he,rfl⟩ := mem_map.mp hroot
  rw [hstored.2 e he]
  rfl

theorem Tracks.stale_exact (h : Tracks hs us db) (hinc : Increasing hs (us ++ [u])) :
    ∃ rootHash batch after previous new,
      batchPutValueSet hs u.nodeHashes u.version db.store u.valueSet db.latest =
        .ok (rootHash,batch) ∧
      db.commit hs u = .ok after ∧ db.reachable = .ok previous ∧ after.reachable = .ok new ∧
      batch.staleNodeIndexBatch.Nodup ∧
      ∀ i, i ∈ batch.staleNodeIndexBatch ↔
        i.staleSinceVersion = u.version ∧ i.nodeKey ∈ previous ∧ i.nodeKey ∉ new := by
  obtain ⟨batch,hok,-,hstale⟩ := h.commit_ok hinc h.storedAt
  obtain ⟨after,hcommit,hafter⟩ := h.commit hinc
  obtain ⟨previous,hprev,hprevious⟩ := h.reachable_ok
  obtain ⟨new,hnew,hkeys⟩ := hafter.reachable_ok
  have hlatest : after.latest = some u.version := by
    rw [hafter.latest,List.getLast?_concat]
    rfl
  rw [hlatest] at hkeys
  refine ⟨_,batch,after,previous,new,hok,hcommit,hprev,hnew,?_,fun i => ?_⟩
  · refine hstale.nodup_iff.mpr (List.Nodup.map ?_ (List.Nodup.filter _ ?_))
    · exact fun k k' heq => congrArg StaleNodeIndex.nodeKey heq
    · cases db.latest with
      | none => exact nodup_nil
      | some w => exact rootKeys_nodup
  · rw [hstale.mem_iff,hprevious.mem_iff,hkeys.mem_iff,mem_map]
    constructor
    · rintro ⟨k,hk,rfl⟩
      obtain ⟨hmem,hnot⟩ := mem_filter.mp hk
      exact ⟨rfl,hmem,of_decide_eq_true hnot⟩
    · rintro ⟨hversion,hmem,hnot⟩
      exact ⟨i.nodeKey,mem_filter.mpr ⟨hmem,decide_eq_true hnot⟩,by rw [← hversion]⟩

theorem mem_keys_earlier (hs : Hasher H) (middle : List (ValueSetUpdate H K))
    (hk : k ∈ (treeOf (us ++ middle)).keys []) (hversion : ∀ u ∈ middle, k.version < u.version) :
    k ∈ (treeOf us).keys [] := by
  induction middle using List.reverseRecOn with
  | nil => rwa [append_nil] at hk
  | append_singleton middle u ih =>
    have hlt := hversion u (mem_append_right _ (mem_singleton_self u))
    rw [← append_assoc,treeOf_snoc] at hk
    exact ih ((mem_keys_insertAt hs hk).resolve_left hlt.ne) fun u' hu' =>
      hversion u' (mem_append_left _ hu')

theorem splits_ordered (hinc : us.Pairwise fun a b => a.version < b.version)
    {earlier later earlier' later' : List (ValueSetUpdate H K)} {u' : ValueSetUpdate H K}
    (heq : us = earlier ++ u :: later) (heq' : us = earlier' ++ u' :: later')
    (hle : u.version ≤ u'.version) : ∃ middle, earlier' ++ [u'] = earlier ++ [u] ++ middle ∧
      ∀ x ∈ middle, u.version < x.version := by
  have hpre : earlier ++ [u] <+: us := ⟨later,by rw [heq,append_assoc,singleton_append]⟩
  have hpre' : earlier' ++ [u'] <+: us :=
    ⟨later',by rw [heq',append_assoc,singleton_append]⟩
  have hcmp : earlier ++ [u] <+: earlier' ++ [u'] := by
    rcases prefix_or_prefix_of_prefix hpre hpre' with h | h
    · exact h
    · -- otherwise the other one would have the lower version
      obtain ⟨rest,hrest⟩ := h
      rcases eq_nil_or_concat rest with rfl | ⟨rest,x,rfl⟩
      · rw [append_nil] at hrest
        rw [hrest]
      · rw [concat_eq_append,← append_assoc] at hrest
        obtain ⟨hinit,hlast⟩ := append_inj' hrest rfl
        obtain rfl := singleton_inj.mp hlast
        have hmem : u' ∈ earlier := by
          rw [← hinit]
          simp
        rw [heq] at hinc
        have hlt := (pairwise_append.mp hinc).2.2 u' hmem x mem_cons_self
        omega
  obtain ⟨middle,hmiddle⟩ := hcmp
  refine ⟨middle,hmiddle.symm,fun x hx => ?_⟩
  have hsub : (earlier ++ [u] ++ middle).Pairwise fun a b => a.version < b.version := by
    rw [hmiddle]
    exact hinc.sublist hpre'.sublist
  exact (pairwise_append.mp hsub).2.2 u (by simp) x hx

theorem previousKeys_version (hinc : Increasing hs (us ++ [u]))
    (hk : k ∈ (treeOf us).previousKeys (us.getLast?.map ValueSetUpdate.version)) :
    k.version < u.version := by
  rcases eq_nil_or_concat us with rfl | ⟨us',u',rfl⟩
  · cases hk
  · rw [concat_eq_append] at hk hinc
    rw [List.getLast?_concat] at hk
    have hle := rootKeys_version (Tracks.older_at hinc.init rfl) hk
    have hlt := hinc.lt_last (mem_append_right us' (mem_singleton_self u'))
    omega

theorem Tracks.not_stale (h : Tracks hs us db) (hinc : Increasing hs us)
    (heq : us = earlier ++ u :: later)
    {i : StaleNodeIndex} (hi : i ∈ db.staleNodeIndices)
    (hk : i.nodeKey ∈ (treeOf (earlier ++ [u])).rootKeys u.version) :
    u.version < i.staleSinceVersion := by
  by_contra hle
  obtain ⟨earlier',u',later',heq',hversion,hprevious,hnot⟩ := h.stale i hi
  have hold := previousKeys_version (hinc.upTo heq') hprevious
  obtain ⟨middle,hmiddle,hlater⟩ := splits_ordered hinc.versions heq' heq (by omega)
  refine hnot ((mem_rootKeys_of_older hold).mpr ?_)
  refine mem_keys_earlier hs middle ?_ fun x hx => hold.trans (hlater x hx)
  rw [← hmiddle]
  exact (mem_rootKeys_of_older (by omega)).mp hk

theorem Tracks.pruned_eq (h : Tracks hs us db) (hinc : Increasing hs us)
    (heq : us = earlier ++ u :: later)
    (hv : v ≤ u.version) (hk : k ∈ (treeOf (earlier ++ [u])).rootKeys u.version) :
    db.pruned v k = db.store k := by
  rw [TreeDb.pruned,if_neg]
  rw [any_eq_true]
  rintro ⟨i,hi,hcond⟩
  obtain ⟨hsince,rfl⟩ := of_decide_eq_true hcond
  have hlt := h.not_stale hinc heq hi hk
  omega

end Reachable

/-- The nodes marked as stale by an update are exactly those that only the tree before it needs;
without the nodes that are stale since a version, all trees from that version on are complete. -/
theorem stale_nodes_exact (hs : Hasher H) (us : List (ValueSetUpdate H K))
    (hinc : Increasing hs us) : ∃ db, TreeDb.run hs us = .ok db ∧
      (∀ earlier u later, us = earlier ++ u :: later →
        ∃ before rootHash batch after previous new, TreeDb.run hs earlier = .ok before ∧
          batchPutValueSet hs u.nodeHashes u.version before.store u.valueSet before.latest =
            .ok (rootHash,batch) ∧
          before.commit hs u = .ok after ∧ before.reachable = .ok previous ∧
          after.reachable = .ok new ∧ batch.staleNodeIndexBatch.Nodup ∧
          ∀ i, i ∈ batch.staleNodeIndexBatch ↔
            i.staleSinceVersion = u.version ∧ i.nodeKey ∈ previous ∧ i.nodeKey ∉ new) ∧
      ∀ v earlier u later, us = earlier ++ u :: later → v ≤ u.version →
        ∃ keys, getAllNodesReferenced db.store u.version = .ok keys ∧
          ∀ k ∈ keys, (db.store k).isSome ∧ db.pruned v k = db.store k := by
  obtain ⟨db,hrun,hdb⟩ := Tracks.run_ok hinc
  refine ⟨db,hrun,fun earlier u later hus => ?_,fun v earlier u later hus hv => ?_⟩
  · have hinc' := hinc.upTo hus
    obtain ⟨before,hbefore,htracks⟩ := Tracks.run_ok hinc'.init
    obtain ⟨rootHash,batch,after,previous,new,hrest⟩ := htracks.stale_exact hinc'
    exact ⟨before,rootHash,batch,after,previous,new,hbefore,hrest⟩
  · obtain ⟨keys,hok,hkeys⟩ := hdb.referenced_ok hus
    refine ⟨keys,hok,fun k hk => ?_⟩
    obtain ⟨hroot,hsome⟩ := hkeys k hk
    exact ⟨hsome,hdb.pruned_eq hinc hus hv hroot⟩

theorem stale_nodes_exact_sample : ∃ db, TreeDb.run sampleHasher sampleUpdates = .ok db ∧
    ∃ keys, getAllNodesReferenced db.store 5 = .ok keys ∧
      ∀ k ∈ keys, (db.store k).isSome ∧ db.pruned 5 k = db.store k := by
  obtain ⟨db,hrun,-,hdb⟩ := stale_nodes_exact sampleHasher sampleUpdates sampleUpdates_increasing
  exact ⟨db,hrun,hdb 5 [_] _ [] rfl le_rfl⟩

end Arx.JellyfishMerkle
