import Arx.JellyfishMerkle.Update

/-!
# Writes to a stored tree and its stale nodes

The update of a stored tree follows `Shape.insertAt`; the nodes that were read are stale, with a
leaf that moves up out of its parent.
The nodes that an update leaves behind are those of the old tree that are not in the new one. What
the new tree has beside its new nodes it has from the old one.
-/

namespace Arx.JellyfishMerkle
open Movelib List Shape

variable {H K : Type} {p : List Nibble} {kvs : KeyValues H K}

namespace Shape

def insertChildren (v n d : ℕ) (children : Nibble → Shape H K) (kvs : KeyValues H K) :
    Nibble → Shape H K := fun c =>
  if kvs.under d c = [] then children c else insertAt v n (d + 1) (children c) (kvs.under d c)

def staleKeys (v : ℕ) : ℕ → ℕ → Shape H K → KeyValues H K → List Nibble → List NodeKey
  | _, _, empty, _, _ => []
  | _, _, leaf w _, _, p => [⟨w,p⟩]
  | 0, _, internal w _, _, p => [⟨w,p⟩]
  | n + 1, d, internal w children, kvs, p =>
    ⟨w,p⟩ :: (((List.finRange 16).flatMap fun c =>
      if kvs.under d c = [] then [] else
        staleKeys v n (d + 1) (children c) (kvs.under d c) (p ++ [c])) ++
      movedKey p (fun c => kvs.under d c ≠ []) (insertChildren v n d children kvs))

variable {hs : Hasher H} {v n d : ℕ} {p : List Nibble} {t : Shape H K}
  {children : Nibble → Shape H K} {kvs : KeyValues H K} {store : Store H K}

theorem insertAt_internal {w : ℕ} : insertAt v (n + 1) d (internal w children) kvs =
    mk v (insertChildren v n d children kvs) := rfl

theorem insertAt_version (h : insertAt v n d t kvs ≠ empty) : (insertAt v n d t kvs).version = v := by
  match n, t, h with
  | _, empty, h => rw [insertAt] at h ⊢; exact build_version h
  | _, leaf w l, h => rw [insertAt] at h ⊢; exact withLeaf_version h
  | 0, internal w children, h => exact absurd rfl h
  | n + 1, internal w children, h => exact mk_version h

theorem inner_mk_cases (hs : Hasher H) (v : ℕ) (children : Nibble → Shape H K) (p : List Nibble) :
    (mk v children).inner hs p = [] ∧ (∀ c, (children c).inner hs (p ++ [c]) = []) ∨
    (mk v children).inner hs p =
      (List.finRange 16).flatMap fun c => (children c).entries hs (p ++ [c]) := by
  rcases mk_cases v children with ⟨hocc,hmk⟩ | ⟨c,w,l,hocc,hc,hmk⟩ | ⟨-,hmk⟩
  · refine .inl ⟨by rw [hmk]; rfl,fun c => ?_⟩
    rw [eq_empty_of_occupied hocc]
    rfl
  · refine .inl ⟨by rw [hmk]; rfl,fun c' => ?_⟩
    by_cases hcc : c' = c
    · rw [hcc,hc]
      rfl
    · have hempty : children c' = empty :=
        eq_empty_of_notMem_occupied (hocc ▸ by simpa using hcc)
      rw [hempty]
      rfl
  · exact .inr (by rw [hmk]; rfl)

def AllNew (v : ℕ) (t : Shape H K) : Prop :=
  ∀ (hs : Hasher H) (p : List Nibble), ∀ e ∈ t.inner hs p, e.1.version = v

theorem AllNew.mk (hver : ∀ c, children c ≠ empty → (children c).version = v)
    (hnew : ∀ c, (children c).AllNew v) : (mk v children).AllNew v := by
  intro hs p e he
  rcases inner_mk_cases hs v children p with ⟨hnil,-⟩ | hinner
  · rw [hnil] at he
    cases he
  · rw [hinner] at he
    obtain ⟨c,-,he⟩ := mem_flatMap.mp he
    rw [entries_eq] at he
    rcases mem_append.mp he with he | he
    · obtain ⟨n,hn,rfl⟩ := Option.map_eq_some_iff.mp (Option.mem_toList.mp he)
      refine hver c fun hempty => ?_
      rw [hempty] at hn
      cases hn
    · exact hnew c hs _ e he

theorem put_allNew {kv : HashValue × Option (H × K)} : (put v kv).AllNew v := by
  intro hs p e he
  rw [inner_put] at he
  cases he

theorem build_allNew : (build v n d kvs).AllNew v := by
  induction n generalizing d kvs with
  | zero =>
    match kvs with
    | [] => exact fun _ _ _ he => absurd he not_mem_nil
    | [kv] => exact put_allNew
    | _ :: _ :: _ => exact fun _ _ _ he => absurd he not_mem_nil
  | succ n ih =>
    by_cases hone : ∃ kv, kvs = [kv]
    · obtain ⟨kv,rfl⟩ := hone
      exact put_allNew
    · rw [build_succ fun kv h => hone ⟨kv,h⟩]
      exact AllNew.mk (fun c hc => build_version hc) fun c => ih

theorem putHead_allNew : ((kvs.head?.map (put v)).getD empty).AllNew v := by
  cases kvs with
  | nil => exact fun _ _ _ he => absurd he not_mem_nil
  | cons kv rest => exact put_allNew

theorem withLeaf_allNew {l : LeafNode H K} : (withLeaf v l n d kvs).AllNew v := by
  induction n generalizing d kvs with
  | zero =>
    rw [withLeaf]
    split_ifs
    · exact putHead_allNew
    · exact fun _ _ _ he => absurd he not_mem_nil
  | succ n ih =>
    rw [withLeaf]
    split_ifs
    · exact putHead_allNew
    · refine AllNew.mk (fun c hc => ?_) fun c => ?_
      · split_ifs at hc ⊢
        · rfl
        · exact withLeaf_version hc
        · exact build_version hc
      · split_ifs
        · exact fun _ _ _ he => absurd he not_mem_nil
        · exact ih
        · exact build_allNew

end Shape

/-- Leaves are under the paths of their keys, and internal nodes above the full paths. -/
def Shape.Fits : List Nibble → Shape H K → Prop
  | _, .empty => True
  | p, .leaf _ l => p <+: l.accountKey.nibbles
  | p, .internal _ children => p.length < rootNibbleHeight ∧ ∀ c, Fits (p ++ [c]) (children c)

section InsertAt

variable {hs : Hasher H} {hashCache : Option (HashCache H)} {v : ℕ} {store : Store H K}
  {t : Shape H K} {children : Nibble → Shape H K}

theorem Inserted.visited {stale : List NodeKey} {updated : Updated H K}
    (h : Inserted hs v p t stale updated) (key : NodeKey) :
    Inserted hs v p t (key :: stale)
      (updated.1,(TreeUpdateBatch.new.putStaleNode key v).combine updated.2) where
  node := h.node
  nodes := h.nodes
  stale := h.stale.cons _

theorem Shape.Stored.read {node : Node H K} (h : t.Stored hs store p)
    (hnode : t.node hs = some node) :
    store.getNode ⟨t.version,p⟩ = .ok node := by
  have hmem : ((⟨t.version,p⟩ : NodeKey),node) ∈ t.entries hs p := by
    rw [entries_eq,hnode]
    exact mem_cons_self
  rw [Store.getNode,h _ hmem]

theorem Shape.Stored.child {w : ℕ} (h : (internal w children).Stored hs store p) (c : Nibble) :
    (children c).Stored hs store (p ++ [c]) := fun e he =>
  h e (mem_cons_of_mem _ (mem_flatMap.mpr ⟨c,mem_finRange c,he⟩))

theorem batchInsertAt_leaf {n w : ℕ} {l : LeafNode H K} (hstored : (leaf w l).Stored hs store p)
    (hl : p <+: l.accountKey.nibbles) (hp : kvs.Placed p) (hlen : p.length + n = rootNibbleHeight)
    (hne : kvs ≠ [] ∨ 0 < n) (hhash : (withLeaf v l n p.length kvs).Hashed hs hashCache v p) :
    ∃ updated, batchInsertAt hs hashCache v store n ⟨w,p⟩ kvs p.length = .ok updated ∧
      Inserted hs v p (withLeaf v l n p.length kvs) [⟨w,p⟩] updated := by
  obtain ⟨updated,hok,href⟩ := batchUpdateSubtreeWithExistingLeaf_ok ⟨w,p⟩ hp hl hlen hne hhash
  refine ⟨_,?_,href.visited ⟨w,p⟩⟩
  have hread : store.getNode ⟨w,p⟩ = .ok (.leaf l) := hstored.read rfl
  cases n with
  | zero =>
    rw [batchInsertAt,hread]
    change (batchUpdateSubtreeWithExistingLeaf hs hashCache v l 0 ⟨w,p⟩ kvs p.length >>= _) = _
    rw [hok]
    rfl
  | succ n =>
    rw [batchInsertAt,hread]
    change (batchUpdateSubtreeWithExistingLeaf hs hashCache v l (n + 1) ⟨w,p⟩ kvs p.length >>=
      _) = _
    rw [hok]
    rfl

theorem Shape.exists_node (hs : Hasher H) {c : Nibble} (hc : children c ≠ empty) :
    ∃ node, (children c).node hs = some node ∧
      childrenOf hs children c = some ⟨node.hash hs,(children c).version,node.nodeType⟩ := by
  rw [childrenOf]
  cases hch : children c with
  | empty => exact absurd hch hc
  | leaf w l | internal w grand => exact ⟨_,rfl,rfl⟩

/-- The update of a child of an internal node that has been read. -/
def insertAtChild (hs : Hasher H) (hashCache : Option (HashCache H)) (v : ℕ) (store : Store H K)
    (n d : ℕ) (nodeKey : NodeKey) (children : Children H) (c : Nibble) (kvs : KeyValues H K) :
    Except TreeError (Updated H K) :=
  match children c with
  | some child =>
    batchInsertAt hs hashCache v store n (nodeKey.genChildNodeKey child.version c) kvs (d + 1)
  | none => batchUpdateSubtree hs hashCache v n (nodeKey.genChildNodeKey v c) kvs (d + 1)

theorem renews_insertChildren {n d : ℕ} (holder : ∀ c, (children c).Older v) :
    Renews v (fun c => decide (kvs.under d c ≠ [])) children (insertChildren v n d children kvs) := by
  refine ⟨fun c hc => ?_,fun c hc h => ?_,holder⟩
  · rw [insertChildren,if_pos (not_not.mp (of_decide_eq_false hc))]
  · rw [insertChildren,if_neg (of_decide_eq_true hc)] at h ⊢
    exact insertAt_version h

theorem batchInsertAt_ok {n : ℕ} (ht : t ≠ .empty) (hstored : t.Stored hs store p)
    (holder : t.Older v) (hfits : t.Fits p) (hp : kvs.Placed p)
    (hlen : p.length + n = rootNibbleHeight) (hne : kvs ≠ [] ∨ 0 < n)
    (hhash : (insertAt v n p.length t kvs).Hashed hs hashCache v p) :
    ∃ updated, batchInsertAt hs hashCache v store n ⟨t.version,p⟩ kvs p.length = .ok updated ∧
      Inserted hs v p (insertAt v n p.length t kvs)
        (staleKeys v n p.length t kvs p) updated := by
  induction t generalizing n p kvs with
  | empty => exact absurd rfl ht
  | leaf w l =>
    rw [insertAt] at hhash ⊢
    rw [staleKeys]
    exact batchInsertAt_leaf hstored hfits hp hlen hne hhash
  | internal w children ih =>
    cases n with
    | zero => exact absurd hfits.1 (by omega)
    | succ n =>
      have hlt : p.length < rootNibbleHeight := hfits.1
      rw [insertAt_internal] at hhash
      generalize hd : p.length = d at hlt hlen hhash ⊢
      have hpath : ∀ c : Nibble, (p ++ [c]).length = d + 1 := fun c => by simp [hd]
      have hchild : ∀ c, kvs.under d c ≠ [] → ∃ updated,
          insertAtChild hs hashCache v store n d ⟨w,p⟩ (childrenOf hs children) c
            (kvs.under d c) = .ok updated ∧
          Inserted hs v (p ++ [c]) (insertAt v n (d + 1) (children c) (kvs.under d c))
            (staleKeys v n (d + 1) (children c) (kvs.under d c) (p ++ [c])) updated := by
        intro c hc
        have hplaced : (kvs.under d c).Placed (p ++ [c]) := by
          rw [← hd]
          exact hp.child (hd ▸ hlt) c
        have hfresh := hhash.child c
        rw [insertChildren,if_neg hc] at hfresh
        rw [insertAtChild]
        by_cases hempty : children c = .empty
        · have hnone : childrenOf hs children c = none := childrenOf_eq_none.mpr hempty
          rw [hempty,insertAt] at hfresh
          have hkey : (NodeKey.genChildNodeKey ⟨w,p⟩ v c).nibblePath = p ++ [c] := rfl
          have hres := @batchUpdateSubtree_ok _ _ hs hashCache v
            (NodeKey.genChildNodeKey ⟨w,p⟩ v c) _ n hplaced (by rw [hkey,hpath]; omega) (.inl hc)
          rw [hkey,hpath] at hres
          obtain ⟨updated,hok,href⟩ := hres hfresh
          rw [hnone,hempty,insertAt,staleKeys]
          exact ⟨updated,hok,href⟩
        · obtain ⟨node,-,hentry⟩ := exists_node hs hempty
          rw [hentry]
          have hres := ih c (n := n) (p := p ++ [c]) hempty (hstored.child c) (holder.2 c) (hfits.2 c) hplaced
            (by rw [hpath]; omega) (.inl hc)
          rw [hpath] at hres
          exact hres hfresh
      choose! result hok hresult using hchild
      obtain ⟨cs,hcs,hloop⟩ := forRanges_ok
        (insertAtChild hs hashCache v store n d ⟨w,p⟩ (childrenOf hs children)) (hd ▸ hp.nibblesSorted (hd ▸ hlt)) hok
      obtain ⟨updated,hfinish,hins⟩ := finishInternal_inserted store ⟨w,p⟩
        (insertChildren v n d children kvs)
        (fun c => if kvs.under d c = [] then [] else
          staleKeys v n (d + 1) (children c) (kvs.under d c) (p ++ [c])) hcs
        (fun c hc => by
          have hc : kvs.under d c ≠ [] := of_decide_eq_true hc
          rw [insertChildren,if_neg hc,if_neg hc]
          exact hresult c hc)
        (renews_insertChildren holder.2)
        (fun c hc => by rw [if_pos (not_not.mp (of_decide_eq_false hc))])
        (fun c => hstored.child c) hhash
      refine ⟨_,?_,hins.visited ⟨w,p⟩⟩
      have hread : store.getNode ⟨w,p⟩ = .ok (.internal (internalOf hs children)) :=
        hstored.read rfl
      change batchInsertAt hs hashCache v store (n + 1) ⟨w,p⟩ kvs d = _
      rw [batchInsertAt,hread]
      change (updateNode hs hashCache v store (n + 1) ⟨w,p⟩ kvs d _
        (.internal (internalOf hs children)) >>= _) = _
      change ((forRanges kvs d (insertAtChild hs hashCache v store n d ⟨w,p⟩
        (childrenOf hs children)) >>= _) >>= _) = _
      rw [hloop]
      change (finishInternal hs hashCache v store ⟨w,p⟩ (withoutEmptied (childrenOf hs children)
        _) _ _ >>= _) = _
      rw [hfinish]
      rfl

end InsertAt

variable {e : NodeKey × Node H K}

namespace Shape

variable {hs : Hasher H} {v n d : ℕ} {p : List Nibble} {t : Shape H K}
  {children children' : Nibble → Shape H K} {kvs : KeyValues H K} {k : NodeKey} {c : Nibble}

theorem keys_path (h : k ∈ t.keys p) : p <+: k.nibblePath := by
  induction t generalizing p with
  | empty => cases h
  | leaf w l =>
    rw [mem_singleton.mp h]
  | internal w children ih =>
    rcases mem_cons.mp h with rfl | h
    · exact prefix_refl p
    · obtain ⟨c,-,h⟩ := mem_flatMap.mp h
      exact (prefix_append p [c]).trans (ih c h)

theorem eq_of_child_path {q : List Nibble} {c c' : Nibble} (h : p ++ [c] <+: q)
    (h' : p ++ [c'] <+: q) : c = c' := by
  obtain ⟨rest,hrest⟩ := h
  obtain ⟨rest',hrest'⟩ := h'
  have heq := hrest.trans hrest'.symm
  simp only [append_assoc,append_cancel_left_eq] at heq
  exact (cons_eq_cons.mp heq).1

theorem keys_nodup : ((t.keys p).map NodeKey.nibblePath).Nodup := by
  induction t generalizing p with
  | empty => exact nodup_nil
  | leaf w l => exact nodup_singleton _
  | internal w children ih =>
    rw [keys,map_cons,map_flatMap,nodup_cons,nodup_flatMap]
    refine ⟨fun hmem => ?_,fun c _ => ih c,?_⟩
    · obtain ⟨c,-,hmem⟩ := mem_flatMap.mp hmem
      obtain ⟨k,hk,hpath⟩ := mem_map.mp hmem
      have hlen := (keys_path hk).length_le
      rw [hpath] at hlen
      simp at hlen
    · refine (nodup_finRange 16).imp fun {c c'} hcc q hq hq' => ?_
      obtain ⟨k,hk,rfl⟩ := mem_map.mp hq
      obtain ⟨k',hk',hpath⟩ := mem_map.mp hq'
      exact hcc (eq_of_child_path (keys_path hk) (hpath ▸ keys_path hk'))

theorem mem_keys_internal (hk : p ++ [c] <+: k.nibblePath) :
    k ∈ (internal v children).keys p ↔ k ∈ (children c).keys (p ++ [c]) := by
  rw [keys,mem_cons,mem_flatMap]
  constructor
  · rintro (rfl | ⟨c',-,h⟩)
    · have hlen := hk.length_le
      simp at hlen
    · rwa [eq_of_child_path hk (keys_path h)]
  · exact fun h => .inr ⟨c,mem_finRange c,h⟩

theorem version_of_root {w : ℕ} (h : (⟨w,p⟩ : NodeKey) ∈ t.keys p) : w = t.version := by
  cases t with
  | empty => cases h
  | leaf w' l => exact congrArg NodeKey.version (mem_singleton.mp h)
  | internal w' children =>
    rcases mem_cons.mp h with h | h
    · exact congrArg NodeKey.version h
    · obtain ⟨c,-,h⟩ := mem_flatMap.mp h
      have hlen := (keys_path h).length_le
      simp at hlen

theorem ne_empty_of_mem_keys (h : k ∈ t.keys p) : t ≠ empty := by
  rintro rfl
  cases h

theorem keys_new (hs : Hasher H) (hnew : t.AllNew v) (hver : t ≠ empty → t.version = v)
    (h : k ∈ t.keys p) : k.version = v := by
  rw [← entries_keys hs] at h
  obtain ⟨e,he,rfl⟩ := mem_map.mp h
  rw [entries_eq] at he
  rcases mem_append.mp he with he | he
  · obtain ⟨n,hn,rfl⟩ := Option.map_eq_some_iff.mp (Option.mem_toList.mp he)
    refine hver fun hempty => ?_
    rw [hempty] at hn
    cases hn
  · exact hnew hs p e he

theorem flatMap_perm_extra {α : Type} {f g : Nibble → List α} {extra : List α} (c : Nibble)
    (hne : ∀ c', c' ≠ c → (f c').Perm (g c')) (hc : (f c).Perm (g c ++ extra)) :
    ((List.finRange 16).flatMap f).Perm ((List.finRange 16).flatMap g ++ extra) := by
  have hf : ∀ c', (f c').Perm (g c' ++ if c' = c then extra else []) := by
    intro c'
    split_ifs with h
    · exact h ▸ hc
    · rw [append_nil]
      exact hne c' h
  have hextra : ((List.finRange 16).flatMap fun c' => if c' = c then extra else []) = extra := by
    rw [← flatMap_filter_eq (f := fun c' => decide (c' = c)) fun c' h => if_neg (of_decide_eq_false h)]
    have hone : ∀ c : Nibble, ((List.finRange 16).filter fun c' => decide (c' = c)) = [c] := by
      decide
    simp [hone]
  refine (List.Perm.flatMap_left _ fun c' _ => hf c').trans ?_
  refine (flatMap_append_perm _ _ _).symm.trans ?_
  rw [hextra]

theorem filter_notMem_empty {l : List NodeKey} :
    (l.filter fun k => decide (k ∉ (empty : Shape H K).keys p)) = l := by
  simp [keys]

theorem staleKeys_internal {w : ℕ} {stale : Nibble → List NodeKey} {touched : Nibble → Bool}
    (hw : w < v) (hr : Renews v touched children children')
    (hstale : ∀ c, (stale c).Perm (((children c).keys (p ++ [c])).filter fun k =>
      decide (k ∉ (children' c).keys (p ++ [c])))) :
    (⟨w,p⟩ :: ((List.finRange 16).flatMap stale ++ movedKey p touched children')).Perm
      (((internal w children).keys p).filter fun k =>
        decide (k ∉ (mk v children').keys p)) := by
  have hroot : (⟨w,p⟩ : NodeKey) ∉ (mk v children').keys p := by
    intro h
    have heq := version_of_root h
    rw [mk_version (ne_empty_of_mem_keys h)] at heq
    exact absurd heq hw.ne
  rw [keys,filter_cons_of_pos (by exact decide_eq_true hroot),filter_flatMap]
  refine (List.Perm.symm ?_).cons _
  -- a child that has been emptied leaves all its keys
  have hemptied : ∀ c, children' c = empty → ((children c).keys (p ++ [c])).Perm (stale c) := by
    intro c hc
    refine List.Perm.trans (List.Perm.of_eq ?_) (hstale c).symm
    rw [hc,filter_notMem_empty]
  rcases mk_cases v children' with ⟨hocc,hmk⟩ | ⟨c,w',l,hocc,hc,hmk⟩ | ⟨hb,hmk⟩
  · have hmoved : movedKey p touched children' = [] := by rw [movedKey,hocc]
    rw [hmoved,append_nil,hmk]
    refine List.Perm.flatMap_left _ fun c _ => ?_
    rw [filter_notMem_empty]
    exact hemptied c (eq_empty_of_occupied hocc c)
  · have hall : ∀ c', (((children c').keys (p ++ [c'])).filter fun k =>
        decide (k ∉ (mk v children').keys p)) = (children c').keys (p ++ [c']) := by
      intro c'
      refine filter_eq_self.mpr fun k hk => decide_eq_true fun h => ?_
      rw [hmk] at h
      have hlen := (keys_path hk).length_le
      rw [mem_singleton.mp h] at hlen
      simp at hlen
    simp only [hall]
    refine flatMap_perm_extra c (fun c' hcc => hemptied c' ?_) ?_
    · exact eq_empty_of_notMem_occupied (hocc ▸ by simpa using hcc)
    · cases ht : touched c with
      | true =>
        -- the leaf is new
        have hmoved : movedKey p touched children' = [] := by simp [movedKey,hocc,hc,ht]
        have hw' : w' = v := by simpa [hc,version] using hr.version c ht (by rw [hc]; rintro ⟨⟩)
        rw [hmoved,append_nil]
        refine List.Perm.trans (List.Perm.of_eq ?_) (hstale c).symm
        refine (filter_eq_self.mpr fun k hk => ?_).symm
        rw [decide_eq_true_iff,hc]
        intro h
        have hlt := (hr.older c).keys hk
        rw [mem_singleton.mp h,hw'] at hlt
        exact absurd hlt (lt_irrefl v)
      | false =>
        -- the leaf has been left alone and moves up
        have hmoved : movedKey p touched children' = [⟨w',p ++ [c]⟩] := by
          simp [movedKey,hocc,hc,ht]
        have hnone : stale c = [] := by
          refine perm_nil.mp ((hstale c).trans (List.Perm.of_eq ?_))
          rw [hr.keep c ht]
          exact filter_eq_nil_iff.mpr fun k hk => by simpa using hk
        rw [hmoved,hnone,← hr.keep c ht,hc]
        exact List.Perm.refl _
  · rw [movedKey_branches hb,append_nil,hmk]
    refine List.Perm.flatMap_left _ fun c _ => (List.Perm.of_eq ?_).trans (hstale c).symm
    refine filter_congr fun k hk => decide_eq_decide.mpr (not_congr ?_)
    exact mem_keys_internal (keys_path hk)

theorem staleKeys_leaf {w : ℕ} {l : LeafNode H K} (hs : Hasher H) (hw : w < v) :
    [(⟨w,p⟩ : NodeKey)].Perm (((leaf w l).keys p).filter fun k =>
      decide (k ∉ (withLeaf v l n d kvs).keys p)) := by
  rw [keys,filter_cons_of_pos]
  · exact List.Perm.refl _
  · refine decide_eq_true fun h => hw.ne ?_
    exact keys_new hs withLeaf_allNew withLeaf_version h

theorem staleKeys_perm (hs : Hasher H) (holder : t.Older v) (hfits : t.Fits p)
    (hlen : p.length + n = rootNibbleHeight) :
    (staleKeys v n p.length t kvs p).Perm ((t.keys p).filter fun k =>
      decide (k ∉ (insertAt v n p.length t kvs).keys p)) := by
  induction t generalizing n p kvs with
  | empty => rw [staleKeys]; exact List.Perm.refl _
  | leaf w l => rw [staleKeys,insertAt]; exact staleKeys_leaf hs holder
  | internal w children ih =>
    cases n with
    | zero => exact absurd hfits.1 (by omega)
    | succ n =>
      have hpath : ∀ c : Nibble, (p ++ [c]).length = p.length + 1 := fun c => length_append
      refine staleKeys_internal holder.1 (renews_insertChildren holder.2) fun c => ?_
      rw [insertChildren]
      split_ifs with hc
      · exact List.Perm.of_eq (filter_eq_nil_iff.mpr fun k hk => by simpa using hk).symm
      · have := @ih c n (p ++ [c]) (kvs.under p.length c) (holder.2 c) (hfits.2 c)
          (by rw [hpath]; omega)
        rwa [hpath] at this

theorem entries_new (hnew : t.AllNew v) (hver : t ≠ empty → t.version = v)
    (he : e ∈ t.entries hs p) : e.1.version = v := by
  refine keys_new hs hnew hver (p := p) ?_
  rw [← entries_keys hs]
  exact mem_map_of_mem he

theorem mem_entries_insertAt (he : e ∈ (insertAt v n d t kvs).entries hs p) :
    e.1.version = v ∨ e ∈ t.entries hs p := by
  induction t generalizing n d p kvs with
  | empty =>
    rw [insertAt] at he
    exact .inl (entries_new build_allNew build_version he)
  | leaf w l =>
    rw [insertAt] at he
    exact .inl (entries_new withLeaf_allNew withLeaf_version he)
  | internal w children ih =>
    cases n with
    | zero => cases he
    | succ n =>
      rw [insertAt_internal] at he
      rcases mk_cases v (insertChildren v n d children kvs) with
        ⟨-,hmk⟩ | ⟨c,w',l,-,-,hmk⟩ | ⟨-,hmk⟩
      · rw [hmk] at he
        cases he
      · rw [hmk] at he
        rw [mem_singleton.mp he]
        exact .inl rfl
      · rw [hmk] at he
        rcases mem_cons.mp he with rfl | he
        · exact .inl rfl
        · obtain ⟨c,hc,he⟩ := mem_flatMap.mp he
          have hchild : e.1.version = v ∨ e ∈ (children c).entries hs (p ++ [c]) := by
            rw [insertChildren] at he
            split_ifs at he
            · exact .inr he
            · exact ih c he
          exact hchild.imp_right fun h =>
            mem_cons_of_mem _ (mem_flatMap.mpr ⟨c,hc,h⟩)

theorem older_of_keys (h : ∀ k ∈ t.keys p, k.version < v) : t.Older v := by
  induction t generalizing p with
  | empty => trivial
  | leaf w l => exact h _ (mem_singleton_self _)
  | internal w children ih =>
    refine ⟨h _ mem_cons_self,fun c => ih c (p := p ++ [c]) fun k hk => ?_⟩
    exact h k (mem_cons_of_mem _ (mem_flatMap.mpr ⟨c,mem_finRange c,hk⟩))

theorem mem_keys_insertAt (hs : Hasher H) (h : k ∈ (insertAt v n d t kvs).keys p) :
    k.version = v ∨ k ∈ t.keys p := by
  rw [← entries_keys hs] at h ⊢
  obtain ⟨e,he,rfl⟩ := mem_map.mp h
  exact (mem_entries_insertAt he).imp_right mem_map_of_mem

theorem older_insertAt (hs : Hasher H) (ht : t.Older v) : (insertAt v n d t kvs).Older (v + 1) := by
  refine older_of_keys (p := []) fun k hk => ?_
  rcases mem_keys_insertAt hs hk with h | h
  · omega
  · exact (ht.keys h).trans (Nat.lt_succ_self v)

end Shape

theorem allNodesReferencedFrom_ok {hs : Hasher H} {store : Store H K} {n : ℕ} {p : List Nibble}
    {t : Shape H K} (hne : t ≠ .empty) (hstored : t.Stored hs store p) (hfits : t.Fits p)
    (hlen : p.length + n = rootNibbleHeight) :
    ∃ keys, allNodesReferencedFrom store n ⟨t.version,p⟩ = .ok keys ∧ keys.Perm (t.keys p) := by
  induction t generalizing n p with
  | empty => exact absurd rfl hne
  | leaf w l =>
    have hread : store.getNode ⟨w,p⟩ = .ok (.leaf l) := hstored.read rfl
    refine ⟨[⟨w,p⟩],?_,List.Perm.refl _⟩
    cases n with
    | zero =>
      change allNodesReferencedFrom store 0 ⟨w,p⟩ = _
      rw [allNodesReferencedFrom,hread]
      rfl
    | succ n =>
      change allNodesReferencedFrom store (n + 1) ⟨w,p⟩ = _
      rw [allNodesReferencedFrom,hread]
      rfl
  | internal w children ih =>
    have hlt := hfits.1
    obtain ⟨n,rfl⟩ : ∃ m, n = m + 1 := ⟨n - 1,by omega⟩
    have hread : store.getNode ⟨w,p⟩ = .ok (.internal (Shape.internalOf hs children)) :=
      hstored.read rfl
    have hchild : ∀ c, children c ≠ .empty → ∃ keys,
        allNodesReferencedFrom store n ⟨(children c).version,p ++ [c]⟩ = .ok keys ∧
          keys.Perm ((children c).keys (p ++ [c])) := fun c hc =>
      ih c hc (hstored.child c) (hfits.2 c) (by rw [length_append,length_singleton]; omega)
    choose! below hok hbelow using hchild
    refine ⟨((Shape.occupied children).map below).flatten ++ [⟨w,p⟩],?_,?_⟩
    · change allNodesReferencedFrom store (n + 1) ⟨w,p⟩ = _
      rw [allNodesReferencedFrom,hread]
      change (List.mapM (m := Except TreeError) _ (Shape.childrenOf hs children).existence >>= _) = _
      rw [Shape.existence_childrenOf,mapM_ok (g := below) fun c hc => ?_]
      · rfl
      · have hc := Shape.mem_occupied.mp hc
        obtain ⟨node,-,hentry⟩ := Shape.exists_node hs hc
        rw [show (Shape.internalOf hs children).children c = _ from hentry]
        exact hok c hc
    · refine perm_append_comm.trans (List.Perm.cons _ ?_)
      have hperm : ((Shape.occupied children).flatMap below).Perm
          ((Shape.occupied children).flatMap fun c => (children c).keys (p ++ [c])) :=
        List.Perm.flatMap_left _ fun c hc => hbelow c (Shape.mem_occupied.mp hc)
      refine hperm.trans (List.Perm.of_eq (flatMap_filter_eq fun c hc => ?_))
      cases hch : children c with
      | empty => rfl
      | leaf w' l => rw [hch] at hc; cases hc
      | internal w' grand => rw [hch] at hc; cases hc

end Arx.JellyfishMerkle
