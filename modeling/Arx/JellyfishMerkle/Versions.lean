import Arx.JellyfishMerkle.RootHash

/-!
# The tree at a version

A call of `batch_put_value_set`: the tree at the new version holds the map that the writes make of the
old one. Its new nodes are in the batch, and the stale ones are marked.
-/

namespace Arx.JellyfishMerkle
open Movelib List

variable {H K : Type} {kv : HashValue × Option (H × K)} {e : NodeKey × Node H K}

abbrev StateMap (H K : Type) := Column (id : HashValue → HashValue) (H × (K × ℕ))

namespace StateMap

def write (v : ℕ) (m : StateMap H K) (kv : HashValue × Option (H × K)) : StateMap H K :=
  match kv.2 with
  | some value => m.put kv.1 (value.1,(value.2,v))
  | none => m.delete kv.1

def writeAll (v : ℕ) (m : StateMap H K) (valueSet : KeyValues H K) : StateMap H K :=
  valueSet.foldl (write v) m

def leaves (m : StateMap H K) : List (LeafNode H K) :=
  m.rows.map fun row => ⟨row.1,row.2.1,row.2.2⟩

variable {v : ℕ} {m : StateMap H K} {l : LeafNode H K}

theorem mem_leaves : l ∈ m.leaves ↔ (l.accountKey,(l.valueHash,l.valueIndex)) ∈ m.rows := by
  rw [leaves,mem_map]
  constructor
  · rintro ⟨row,hrow,rfl⟩
    exact hrow
  · exact fun h => ⟨_,h,rfl⟩

theorem leaves_sorted : m.leaves.Pairwise fun a b => a.accountKey < b.accountKey :=
  pairwise_map.mpr m.sorted

theorem mem_leaves_write :
    l ∈ (write v m kv).leaves ↔ leafOf v kv = some l ∨ l ∈ m.leaves ∧ l.accountKey ≠ kv.1 := by
  obtain ⟨key,_ | value⟩ := kv
  · simp [write,mem_leaves,Column.mem_delete,leafOf]
  · rw [write,mem_leaves,Column.mem_put,← mem_leaves]
    refine or_congr ?_ Iff.rfl
    obtain ⟨accountKey,valueHash,index⟩ := l
    simp only [leafOf,Option.map_some,Option.some.injEq,Prod.mk.injEq,LeafNode.mk.injEq]
    constructor
    · rintro ⟨rfl,rfl,rfl⟩
      exact ⟨rfl,rfl,rfl⟩
    · rintro ⟨rfl,rfl,rfl⟩
      exact ⟨rfl,rfl,rfl⟩

theorem written_put {old : List (LeafNode H K)}
    {kvs : Column (id : HashValue → HashValue) (Option (H × K))} :
    Written v (kvs.put kv.1 kv.2).rows old l ↔
      leafOf v kv = some l ∨ Written v kvs.rows old l ∧ l.accountKey ≠ kv.1 := by
  simp only [Written,Column.mem_put,mem_map]
  constructor
  · rintro (⟨kv',rfl | ⟨hkv',hne⟩,hl⟩ | ⟨hl,hkey⟩)
    · exact .inl hl
    · exact .inr ⟨.inl ⟨kv',hkv',hl⟩,by rw [leafOf_key hl]; exact hne⟩
    · have hne : l.accountKey ≠ kv.1 := fun h => hkey ⟨kv,.inl rfl,h.symm⟩
      refine .inr ⟨.inr ⟨hl,?_⟩,hne⟩
      rintro ⟨kv',hkv',hkey'⟩
      exact hkey ⟨kv',.inr ⟨hkv',hkey' ▸ hne⟩,hkey'⟩
  · rintro (hl | ⟨⟨kv',hkv',hl⟩ | ⟨hl,hkey⟩,hne⟩)
    · exact .inl ⟨kv,.inl rfl,hl⟩
    · exact .inl ⟨kv',.inr ⟨hkv',by rw [← leafOf_key hl]; exact hne⟩,hl⟩
    · refine .inr ⟨hl,?_⟩
      rintro ⟨kv',rfl | ⟨hkv',-⟩,hkey'⟩
      · exact hne hkey'.symm
      · exact hkey ⟨kv',hkv',hkey'⟩

theorem mem_leaves_writeAll {valueSet : KeyValues H K} :
    l ∈ (writeAll v m valueSet).leaves ↔ Written v valueSet.dedupedAndSorted m.leaves l := by
  have hfold : ∀ (kvs : Column (id : HashValue → HashValue) (Option (H × K))) (m' : StateMap H K),
      (∀ l, l ∈ m'.leaves ↔ Written v kvs.rows m.leaves l) →
      (l ∈ (valueSet.foldl (write v) m').leaves ↔
        Written v (valueSet.foldl (fun c kv => c.put kv.1 kv.2) kvs).rows m.leaves l) := by
    induction valueSet with
    | nil => exact fun _ _ h => h l
    | cons kv valueSet ih =>
      intro kvs m' h
      refine ih _ _ fun l => ?_
      rw [mem_leaves_write,written_put,h]
  exact hfold Column.empty m fun l => Shape.written_nil.symm

end StateMap

theorem placed_dedupedAndSorted (valueSet : KeyValues H K) :
    valueSet.dedupedAndSorted.Placed [] := by
  have hsorted : ∀ kvs : Column (id : HashValue → HashValue) (Option (H × K)),
      kvs.rows.Pairwise fun a b => a.1 < b.1 := fun kvs => kvs.sorted
  exact ⟨hsorted _,fun _ _ => nil_prefix⟩

namespace Shape

def update (v : ℕ) (t : Shape H K) (valueSet : KeyValues H K) : Shape H K :=
  insertAt v rootNibbleHeight 0 t valueSet.dedupedAndSorted

variable {v : ℕ} {t : Shape H K} {m : StateMap H K} {valueSet : KeyValues H K}

theorem canonical_update (ht : t.Canonical []) : (t.update v valueSet).Canonical [] :=
  (canonicalFor_insertAt ht (placed_dedupedAndSorted valueSet) (Nat.zero_add _)).canonical

theorem leaves_update (ht : t.Canonical []) (hm : t.leaves = m.leaves) :
    (t.update v valueSet).leaves = (m.writeAll v valueSet).leaves := by
  have hmem : ∀ l, l ∈ (t.update v valueSet).leaves ↔ l ∈ (m.writeAll v valueSet).leaves := by
    intro l
    rw [StateMap.mem_leaves_writeAll,← hm]
    exact (canonicalFor_insertAt ht (placed_dedupedAndSorted valueSet) (Nat.zero_add _)).leaves _
  have hsorted : (t.update v valueSet).leaves.Pairwise fun a b => a.accountKey < b.accountKey :=
    (canonical_update ht).sorted
  have hsorted' : (m.writeAll v valueSet).leaves.Pairwise fun a b => a.accountKey < b.accountKey :=
    StateMap.leaves_sorted
  have hperm : (t.update v valueSet).leaves.Perm (m.writeAll v valueSet).leaves :=
    (perm_ext_iff_of_nodup (hsorted.imp fun h => by rintro rfl; exact lt_irrefl _ h)
      (hsorted'.imp fun h => by rintro rfl; exact lt_irrefl _ h)).mpr hmem
  exact hperm.eq_of_pairwise (fun a b _ _ hab hba => absurd hab (lt_asymm hba)) hsorted hsorted'

def rootEntries (hs : Hasher H) (v : ℕ) : Shape H K → List (NodeKey × Node H K)
  | empty => [(.newEmptyPath v,.null)]
  | leaf w l => (leaf w l).entries hs []
  | internal w children => (internal w children).entries hs []

def rootKeys (v : ℕ) : Shape H K → List NodeKey
  | empty => [.newEmptyPath v]
  | leaf w l => (leaf w l).keys []
  | internal w children => (internal w children).keys []

def previousKeys (t : Shape H K) : Option ℕ → List NodeKey
  | none => []
  | some w => t.rootKeys w

def StoredAt (hs : Hasher H) (store : Store H K) (t : Shape H K) : Option ℕ → Prop
  | none => t = empty
  | some w => (t ≠ empty → t.version = w) ∧ ∀ e ∈ t.rootEntries hs w, store e.1 = some e.2

variable {hs : Hasher H} {hashCache : Option (HashCache H)} {store : Store H K}

theorem update_version (h : t.update v valueSet ≠ empty) : (t.update v valueSet).version = v :=
  insertAt_version h

theorem filter_rootEntries {t : Shape H K} (hver : t ≠ empty → t.version = v) :
    ((t.rootEntries hs v).filter fun e => decide (e.1.version = v)) =
      (.newEmptyPath v,(t.node hs).getD .null) :: t.fresh hs v [] := by
  cases t with
  | empty => simp [rootEntries,NodeKey.newEmptyPath,fresh,inner]
  | leaf w l =>
    obtain rfl : w = v := hver (by rintro ⟨⟩)
    simp [rootEntries,entries,NodeKey.newEmptyPath,fresh,inner]
  | internal w children =>
    obtain rfl : w = v := hver (by rintro ⟨⟩)
    rw [rootEntries,entries,filter_cons_of_pos (by exact decide_eq_true rfl)]
    rfl

theorem mem_rootKeys_of_older {t : Shape H K} {k : NodeKey} (hk : k.version < v) :
    k ∈ t.rootKeys v ↔ k ∈ t.keys [] := by
  cases t with
  | empty =>
    refine ⟨fun h => ?_,fun h => absurd h not_mem_nil⟩
    rw [mem_singleton.mp h] at hk
    exact absurd hk (lt_irrefl v)
  | leaf w l | internal w children => exact Iff.rfl

theorem rootEntries_keys (hs : Hasher H) : (t.rootEntries hs v).map Prod.fst = t.rootKeys v := by
  cases t with
  | empty => rfl
  | leaf w l => rfl
  | internal w children => exact entries_keys hs

theorem rootKeys_nodup : (t.rootKeys v).Nodup := by
  cases t with
  | empty | leaf w l => exact nodup_singleton _
  | internal w children => exact List.Nodup.of_map _ keys_nodup

theorem rootKeys_of_ne_empty (h : t ≠ empty) : t.rootKeys v = t.keys [] := by
  cases t with
  | empty => exact absurd rfl h
  | leaf w l | internal w children => rfl

theorem rootKeys_version (ht : t.Older (v + 1)) {k : NodeKey} (hk : k ∈ t.rootKeys v) :
    k.version ≤ v := by
  cases t with
  | empty =>
    rw [mem_singleton.mp hk]
    exact le_rfl
  | leaf w l | internal w children => exact Nat.le_of_lt_succ (ht.keys hk)

theorem entries_sub_rootEntries {w : ℕ} (he : e ∈ t.entries hs []) : e ∈ t.rootEntries hs w := by
  cases t with
  | empty => cases he
  | leaf w l => exact he
  | internal w children => exact he

theorem mem_rootEntries_update (he : e ∈ (t.update v valueSet).rootEntries hs v) :
    e.1.version = v ∨ e ∈ t.entries hs [] := by
  rw [update] at he
  cases hnew : insertAt v rootNibbleHeight 0 t valueSet.dedupedAndSorted with
  | empty =>
    rw [hnew] at he
    rw [mem_singleton.mp he]
    exact .inl rfl
  | leaf w l | internal w children =>
    rw [hnew,rootEntries,← hnew] at he
    exact mem_entries_insertAt he

theorem batchInsertAt_null {w : ℕ} {kvs : KeyValues H K} (hp : kvs.Placed [])
    (hread : store.getNode (.newEmptyPath w) = .ok .null)
    (hhash : (build v rootNibbleHeight 0 kvs).Hashed hs hashCache v []) :
    ∃ updated, batchInsertAt hs hashCache v store rootNibbleHeight (.newEmptyPath w) kvs 0 =
        .ok updated ∧
      Inserted hs v [] (build v rootNibbleHeight 0 kvs) [.newEmptyPath w] updated := by
  obtain ⟨updated,hok,href⟩ := @batchUpdateSubtree_ok _ _ hs hashCache v (.newEmptyPath w)
    kvs rootNibbleHeight hp (Nat.zero_add _) (.inr (by decide)) hhash
  refine ⟨_,?_,href.visited (.newEmptyPath w)⟩
  change batchInsertAt hs hashCache v store (63 + 1) (.newEmptyPath w) kvs 0 = _
  rw [batchInsertAt,hread]
  change (batchUpdateSubtree hs hashCache v rootNibbleHeight (.newEmptyPath w) kvs 0 >>= _) = _
  rw [show batchUpdateSubtree hs hashCache v rootNibbleHeight (.newEmptyPath w) kvs 0 = .ok updated
    from hok]
  rfl

section Written

variable {previous : Option ℕ} (ht : t.Canonical []) (holder : t.Older v)
  (hprevious : ∀ w, previous = some w → w < v) (hstored : t.StoredAt hs store previous)
  (hhash : (t.update v valueSet).Hashed hs hashCache v [])

include ht holder hprevious hstored hhash

theorem update_inserted : ∃ updated stale, (match previous with
        | some w => batchInsertAt hs hashCache v store rootNibbleHeight (.newEmptyPath w)
            valueSet.dedupedAndSorted 0
        | none => batchUpdateSubtree hs hashCache v rootNibbleHeight (.newEmptyPath v)
            valueSet.dedupedAndSorted 0) = .ok updated ∧
      Inserted hs v [] (t.update v valueSet) stale updated ∧
      stale.Perm ((t.previousKeys previous).filter fun k =>
        decide (k ∉ (t.update v valueSet).rootKeys v)) := by
  have hp := placed_dedupedAndSorted valueSet
  cases previous with
  | none =>
    obtain rfl : t = empty := hstored
    obtain ⟨updated,hok,href⟩ := @batchUpdateSubtree_ok _ _ hs hashCache v (.newEmptyPath v)
      _ rootNibbleHeight hp (Nat.zero_add _) (.inr (by decide)) hhash
    exact ⟨updated,[],hok,href,List.Perm.refl _⟩
  | some w =>
    have hw := hprevious w rfl
    obtain ⟨hver,hstored⟩ := hstored
    by_cases hempty : t = empty
    · -- the root was `Null`
      subst hempty
      have hread : store.getNode (.newEmptyPath w) = .ok .null := by
        rw [Store.getNode,hstored _ (mem_singleton_self _)]
      obtain ⟨updated,hok,hins⟩ := batchInsertAt_null hp hread hhash
      refine ⟨updated,_,hok,hins,?_⟩
      rw [previousKeys,rootKeys,filter_cons_of_pos]
      · exact List.Perm.refl _
      · rw [decide_eq_true_iff,mem_rootKeys_of_older hw]
        intro h
        exact hw.ne (keys_new hs build_allNew build_version h)
    · have hentries : t.Stored hs store [] := fun e he => hstored e (entries_sub_rootEntries he)
      obtain ⟨updated,hok,hins⟩ := batchInsertAt_ok hempty hentries holder ht.fits hp
        (Nat.zero_add _) (.inr (by decide)) hhash
      rw [hver hempty] at hok
      refine ⟨updated,_,hok,hins,?_⟩
      refine (staleKeys_perm hs holder ht.fits (Nat.zero_add _)).trans (List.Perm.of_eq ?_)
      rw [previousKeys,rootKeys_of_ne_empty hempty]
      refine filter_congr fun k hk => decide_eq_decide.mpr (not_congr ?_)
      exact (mem_rootKeys_of_older (holder.keys hk)).symm

theorem batchPutValueSet_ok : ∃ batch, batchPutValueSet hs hashCache v store valueSet previous =
        .ok ((t.update v valueSet).rootHash hs,batch) ∧
      batch.nodeBatch.Perm (((t.update v valueSet).rootEntries hs v).filter fun e =>
        decide (e.1.version = v)) ∧
      batch.staleNodeIndexBatch.Perm (((t.previousKeys previous).filter fun k =>
        decide (k ∉ (t.update v valueSet).rootKeys v)).map fun k => ⟨v,k⟩) := by
  obtain ⟨updated,stale,hok,hins,hstale⟩ := update_inserted ht holder hprevious hstored hhash
  refine ⟨updated.2.putNodes [(.newEmptyPath v,((t.update v valueSet).node hs).getD .null)],?_,?_,?_⟩
  · -- the root is put last
    obtain ⟨root,batch⟩ := updated
    obtain rfl : root = (t.update v valueSet).node hs := hins.node
    rw [rootHash]
    cases previous with
    | none =>
      have hok : batchUpdateSubtree hs hashCache v rootNibbleHeight (.newEmptyPath v)
          valueSet.dedupedAndSorted 0 = .ok (_,batch) := hok
      rw [batchPutValueSet,hok]
      cases (t.update v valueSet).node hs <;> rfl
    | some w =>
      have hok : batchInsertAt hs hashCache v store rootNibbleHeight (.newEmptyPath w)
          valueSet.dedupedAndSorted 0 = .ok (_,batch) := hok
      rw [batchPutValueSet,hok]
      cases (t.update v valueSet).node hs <;> rfl
  · rw [filter_rootEntries update_version]
    exact perm_append_comm.trans (hins.nodes.cons _)
  · exact hins.stale.trans (hstale.map _)

end Written

end Shape

end Arx.JellyfishMerkle
