import Arx.JellyfishMerkle.Shape

/-!
# The end of an update

An internal node is built again from the old children that remain and the new ones, or a single leaf
that is left moves up. The nodes of the new shape that are new go into the batch.
-/

namespace Arx.JellyfishMerkle
open Movelib List Shape

variable {H K : Type} {cs : List Nibble} {p : List Nibble} {result : Nibble → Updated H K}
    {touched : Nibble → Bool} {e : NodeKey × Node H K}

theorem TreeUpdateBatch.combineAll_eq (batches : List (TreeUpdateBatch H K)) :
    combineAll batches = ⟨batches.flatMap nodeBatch,batches.flatMap staleNodeIndexBatch⟩ := by
  have hfold : ∀ b : TreeUpdateBatch H K, batches.foldl combine b =
      b.combine ⟨batches.flatMap nodeBatch,batches.flatMap staleNodeIndexBatch⟩ := by
    induction batches with
    | nil => simp [combine]
    | cons a l ih =>
      intro b
      rw [foldl_cons,ih]
      simp [combine,append_assoc]
  exact hfold new

theorem flatMap_filter_eq {ι α : Type} {l : List ι} {f : ι → Bool} {g : ι → List α}
    (hg : ∀ c, f c = false → g c = []) : (l.filter f).flatMap g = l.flatMap g := by
  induction l with
  | nil => rfl
  | cons c l ih =>
    by_cases hc : f c
    · rw [filter_cons_of_pos hc,flatMap_cons,flatMap_cons,ih]
    · rw [filter_cons_of_neg hc,flatMap_cons,hg c (by simpa using hc),nil_append,ih]

/-- Lists taken together over the children with a property are those over all children, if there is
nothing at the others. -/
theorem flatMap_perm_finRange {α : Type} {f : Nibble → Bool} {g : Nibble → List α}
    (hcs : cs.Perm ((List.finRange 16).filter f)) (hg : ∀ c, f c = false → g c = []) :
    (cs.flatMap g).Perm ((List.finRange 16).flatMap g) :=
  (hcs.flatMap_right g).trans (List.Perm.of_eq (flatMap_filter_eq hg))

theorem foldl_update_eq {α : Type} {l : List (Nibble × α)} {f g : Nibble → Option α}
    (hnew : ∀ c x, (c,x) ∈ l → g c = some x) (hold : ∀ c, c ∉ l.map Prod.fst → g c = f c) :
    l.foldl (fun (f : Nibble → Option α) a => Function.update f a.1 (some a.2)) f = g := by
  induction l generalizing f with
  | nil => exact funext fun c => (hold c not_mem_nil).symm
  | cons a l ih =>
    refine ih (fun c x hx => hnew c x (mem_cons_of_mem a hx)) fun c hc => ?_
    simp only [Function.update_apply]
    split_ifs with hca
    · rw [hca]
      exact hnew a.1 a.2 mem_cons_self
    · refine hold c fun hmem => ?_
      rcases mem_cons.mp hmem with heq | hmem
      · exact hca heq
      · exact hc hmem

section CreateInternal

variable {hs : Hasher H} {hashCache : Option (HashCache H)} {v : ℕ} {nodeKey : NodeKey}
  {children : Nibble → Shape H K} {batch : TreeUpdateBatch H K} {cs : List Nibble}
  {result : Nibble → Updated H K}

def nodeList (hs : Hasher H) (children : Nibble → Shape H K) : List (Nibble × Node H K) :=
  (List.finRange 16).flatMap fun c => (((children c).node hs).map fun node => (c,node)).toList

theorem mem_nodeList {c : Nibble} {n : Node H K} :
    (c,n) ∈ nodeList hs children ↔ (children c).node hs = some n := by
  simp [nodeList]

theorem nodeList_fst (hs : Hasher H) : (nodeList hs children).map Prod.fst = occupied children := by
  rw [nodeList,occupied]
  generalize List.finRange 16 = l
  induction l with
  | nil => rfl
  | cons c l ih =>
    rw [flatMap_cons,map_append,ih]
    cases hc : children c <;> simp [hc,Shape.isEmpty,Shape.node]

theorem createInternal_ok {old : Children H} {new : List (Nibble × Node H K)}
    (hnew : ∀ c n, (c,n) ∈ new → (children c).node hs = some n ∧ (children c).version = v)
    (hold : ∀ c, c ∉ new.map Prod.fst → childrenOf hs children c = old c)
    (hb : Shape.Branches children)
    (hhash : ∀ c n, (c,n) ∈ new →
      getHash hs hashCache (nodeKey.genChildNodeKey v c) n = .ok (n.hash hs)) :
    createInternal hs hashCache v nodeKey old new batch =
      .ok (some (.internal (internalOf hs children)),batch.putNodes
        (new.map fun child => (nodeKey.genChildNodeKey v child.1,child.2))) := by
  have hcreated : (new.mapM fun child => do
      let hash ← getHash hs hashCache (nodeKey.genChildNodeKey v child.1) child.2
      pure (child.1,(⟨hash,v,child.2.nodeType⟩ : Child H))) =
      .ok (new.map fun child => (child.1,⟨child.2.hash hs,v,child.2.nodeType⟩)) := by
    refine mapM_ok fun child hchild => ?_
    rw [hhash child.1 child.2 hchild]
    rfl
  have hfold :
      (new.map fun child => (child.1,(⟨child.2.hash hs,v,child.2.nodeType⟩ : Child H))).foldl
        (fun (children : Children H) child => Function.update children child.1 (some child.2)) old =
      childrenOf hs children := by
    refine foldl_update_eq (fun c x hx => ?_) fun c hc => hold c ?_
    · obtain ⟨⟨c,n⟩,hn,heq⟩ := mem_map.mp hx
      cases heq
      obtain ⟨hnode,hver⟩ := hnew c n hn
      rw [childrenOf,hnode,hver]
      rfl
    · rw [map_map] at hc
      exact hc
  rw [createInternal,hcreated]
  change (InternalNode.new (List.foldl _ old _) >>= _) = _
  rw [hfold,new_childrenOf hb]
  rfl

theorem nodes_map : ChildUpdates.nodes (cs.map fun c => (c,result c)) =
      cs.flatMap fun c => ((result c).1.map fun node => (c,node)).toList := by
  rw [ChildUpdates.nodes,filterMap_map,filterMap_eq_flatMap_toList]
  rfl

theorem batch_map : ChildUpdates.batch (cs.map fun c => (c,result c)) =
    ⟨cs.flatMap fun c => (result c).2.nodeBatch,
      cs.flatMap fun c => (result c).2.staleNodeIndexBatch⟩ := by
  rw [ChildUpdates.batch,TreeUpdateBatch.combineAll_eq,map_map,flatMap_map,
    flatMap_map]
  rfl

theorem mem_inner_mk {c : Nibble} (he : e ∈ (children c).inner hs (p ++ [c])) :
    e ∈ (mk v children).inner hs p := by
  rcases mk_cases v children with ⟨hocc,-⟩ | ⟨c',w,l,hocc,hc',-⟩ | ⟨-,hmk⟩
  · rw [eq_empty_of_occupied hocc] at he
    cases he
  · by_cases hcc : c = c'
    · rw [hcc,hc'] at he
      cases he
    · have hempty : children c = .empty :=
        eq_empty_of_notMem_occupied (hocc ▸ by simpa using hcc)
      rw [hempty] at he
      cases he
  · rw [hmk,Shape.inner,mem_flatMap]
    refine ⟨c,mem_finRange c,?_⟩
    rw [entries_eq]
    exact mem_append_right _ he

end CreateInternal

namespace Shape

def movedKey (p : List Nibble) (touched : Nibble → Bool) (children : Nibble → Shape H K) :
    List NodeKey :=
  match occupied children with
  | [c] =>
    match children c with
    | leaf w _ => if touched c then [] else [⟨w,p ++ [c]⟩]
    | empty => []
    | internal _ _ => []
  | _ => []

def Stored (hs : Hasher H) (store : Store H K) (p : List Nibble) (t : Shape H K) : Prop :=
  ∀ e ∈ t.entries hs p, store e.1 = some e.2

def Older (v : ℕ) : Shape H K → Prop
  | empty => True
  | leaf w _ => w < v
  | internal w children => w < v ∧ ∀ c, Older v (children c)

def fresh (hs : Hasher H) (v : ℕ) (p : List Nibble) (t : Shape H K) : List (NodeKey × Node H K) :=
  (t.inner hs p).filter fun e => e.1.version = v

/-- The hashes of the fresh nodes are found. -/
def Hashed (hs : Hasher H) (hashCache : Option (HashCache H)) (v : ℕ) (p : List Nibble)
    (t : Shape H K) : Prop :=
  ∀ e ∈ t.fresh hs v p, getHash hs hashCache e.1 e.2 = .ok (e.2.hash hs)

def keys : List Nibble → Shape H K → List NodeKey
  | _, empty => []
  | p, leaf w _ => [⟨w,p⟩]
  | p, internal w children =>
    ⟨w,p⟩ :: (List.finRange 16).flatMap fun c => keys (p ++ [c]) (children c)

variable {v : ℕ} {t : Shape H K} {k : NodeKey}

theorem entries_keys (hs : Hasher H) : (t.entries hs p).map Prod.fst = t.keys p := by
  induction t generalizing p with
  | empty => rfl
  | leaf w l => rfl
  | internal w children ih =>
    rw [entries,keys,map_cons,map_flatMap]
    simp only [ih]

theorem Older.keys (ht : t.Older v) (h : k ∈ t.keys p) : k.version < v := by
  induction t generalizing p with
  | empty => cases h
  | leaf w l =>
    rw [mem_singleton.mp h]
    exact ht
  | internal w children ih =>
    rcases mem_cons.mp h with rfl | h
    · exact ht.1
    · obtain ⟨c,-,h⟩ := mem_flatMap.mp h
      exact ih c (ht.2 c) h

end Shape

section FinishInternal

variable {hs : Hasher H} {hashCache : Option (HashCache H)} {v : ℕ} {nodeKey : NodeKey}
  {store : Store H K} {children children' : Nibble → Shape H K} {touched : Nibble → Bool}
  {cs : List Nibble} {result : Nibble → Updated H K} {c : Nibble} {list : List (Nibble × Node H K)}
  {p : List Nibble}

def remaining (touched : Nibble → Bool) (children children' : Nibble → Shape H K) :
    Nibble → Shape H K := fun c =>
  if touched c && (children' c).isEmpty then .empty else children c

def renewed (touched : Nibble → Bool) (children' : Nibble → Shape H K) : Nibble → Shape H K :=
  fun c => if touched c then children' c else .empty

theorem withoutEmptied_eq
    {old : Children H} : withoutEmptied old (cs.map fun c => (c,result c)) c =
      if c ∈ cs ∧ (result c).1 = none then none else old c := by
  induction cs generalizing old with
  | nil => simp [withoutEmptied]
  | cons a cs ih =>
    rw [map_cons,withoutEmptied,foldl_cons]
    change withoutEmptied _ _ c = _
    rw [ih]
    by_cases hca : c = a
    · subst hca
      cases hres : (result c).1 <;> simp
    · cases hres : (result a).1 <;> simp [hca]

section

variable (hcs : cs.Perm ((List.finRange 16).filter touched))
    (hresult : ∀ c, touched c → (result c).1 = (children' c).node hs)

include hcs hresult

theorem withoutEmptied_remaining :
    withoutEmptied (childrenOf hs children) (cs.map fun c => (c,result c)) =
      childrenOf hs (remaining touched children children') := by
  funext c
  have hmem : c ∈ cs ↔ touched c = true := by
    rw [hcs.mem_iff]
    simp
  rw [withoutEmptied_eq]
  simp only [hmem]
  by_cases ht : touched c
  · rw [hresult c ht,Shape.childrenOf,Shape.childrenOf,remaining]
    cases hc : children' c <;> simp [ht,Shape.isEmpty,Shape.node]
  · rw [Shape.childrenOf,Shape.childrenOf,remaining]
    simp [ht]

theorem nodes_renewed :
    (ChildUpdates.nodes (cs.map fun c => (c,result c))).Perm
      (nodeList hs (renewed touched children')) := by
  have ht : ∀ c ∈ cs, touched c := fun c hc => (mem_filter.mp (hcs.mem_iff.mp hc)).2
  rw [nodes_map]
  have hroots : (cs.flatMap fun c => ((result c).1.map fun node => (c,node)).toList) =
      cs.flatMap fun c =>
        (((renewed touched children' c).node hs).map fun node => (c,node)).toList :=
    flatMap_congr fun c hc => by rw [hresult c (ht c hc),renewed,if_pos (ht c hc)]
  rw [hroots]
  refine flatMap_perm_finRange hcs fun c hc => ?_
  rw [renewed,hc]
  rfl

end

theorem Shape.occupied_singleton (h : ∀ c', children c' ≠ .empty ↔ c' = c) :
    occupied children = [c] := by
  refine perm_singleton.mp ((perm_ext_iff_of_nodup occupied_nodup (by simp)).mpr ?_)
  intro c'
  rw [mem_occupied,h,mem_singleton]

theorem Shape.occupied_nil (h : ∀ c, children c = .empty) : occupied children = [] :=
  eq_nil_iff_forall_not_mem.mpr fun c hc => mem_occupied.mp hc (h c)

section

variable (hlist : list.Perm (nodeList hs children))

include hlist

theorem list_fst : (list.map Prod.fst).Perm (occupied children) := by
  rw [← nodeList_fst hs]
  exact hlist.map Prod.fst

theorem nodeList_singleton {w : ℕ} {l : LeafNode H K} (hocc : occupied children = [c])
    (hc : children c = .leaf w l) :
    list = [(c,.leaf l)] := by
  obtain ⟨⟨c',n⟩,rfl,rfl⟩ := map_eq_singleton_iff.mp
    (perm_singleton.mp (hocc ▸ list_fst hlist))
  have hn := mem_nodeList.mp (hlist.mem_iff.mp (mem_singleton_self _))
  rw [hc] at hn
  rw [Option.some.inj hn]

theorem nodeList_nil (hempty : ∀ c, children c = .empty) : list = [] :=
  map_eq_nil_iff.mp (perm_nil.mp (occupied_nil hempty ▸ list_fst hlist))

end

theorem mem_list {n : Node H K} (hlist : list.Perm (nodeList hs (renewed touched children')))
    (hn : (c,n) ∈ list) : touched c ∧ (children' c).node hs = some n := by
  have hnode := mem_nodeList.mp (hlist.mem_iff.mp hn)
  rw [renewed] at hnode
  split_ifs at hnode with ht
  · exact ⟨ht,hnode⟩
  · cases hnode

/-- What is touched is new, and the rest is as before. -/
structure Renews (v : ℕ) (touched : Nibble → Bool) (children children' : Nibble → Shape H K) :
    Prop where
  keep : ∀ c, touched c = false → children' c = children c
  version : ∀ c, touched c → children' c ≠ .empty → (children' c).version = v
  older : ∀ c, (children c).Older v

theorem mem_remaining_or_renewed (hr : Renews v touched children children') (c : Nibble) :
    children' c ≠ .empty ↔
      c ∈ occupied (remaining touched children children') ∨
        c ∈ occupied (renewed touched children') := by
  rw [mem_occupied,mem_occupied,remaining,renewed]
  cases ht : touched c with
  | false => simp [hr.keep c ht]
  | true => cases hc : children' c <;> simp [Shape.isEmpty]

theorem remaining_eq (hr : Renews v touched children children')
    (hc : c ∉ occupied (renewed touched children')) :
    remaining touched children children' c = children' c := by
  rw [mem_occupied,renewed] at hc
  rw [remaining]
  cases ht : touched c with
  | false => simp [hr.keep c ht]
  | true =>
    rw [ht,if_pos rfl,not_not] at hc
    simp [hc,Shape.isEmpty]

theorem finishInternal_rebuild {batch : TreeUpdateBatch H K}
    (hlist : list.Perm (nodeList hs (renewed touched children')))
    (hr : Renews v touched children children') (hb : Shape.Branches children') :
    finishInternal hs hashCache v store nodeKey
        (childrenOf hs (remaining touched children children')) list batch =
      createInternal hs hashCache v nodeKey
        (childrenOf hs (remaining touched children children')) list batch := by
  have hfst := list_fst hlist
  have hocc : ∀ c, children' c ≠ .empty ↔
      c ∈ occupied (remaining touched children children') ∨ c ∈ list.map Prod.fst := by
    intro c
    rw [hfst.mem_iff]
    exact mem_remaining_or_renewed hr c
  have hleaf : ∀ c n, (c,n) ∈ list → n.isLeaf = (children' c).isLeaf :=
    fun c n hn => isLeaf_node (mem_list hlist hn).2
  have hsingle : ∀ c, (∀ c', children' c' ≠ .empty ↔ c' = c) → (children' c).isLeaf = false :=
    fun c h => Bool.eq_false_iff.mpr (hb.2 c (occupied_singleton h))
  simp only [finishInternal,existence_childrenOf]
  match hold : occupied (remaining touched children children'), list, hfst, hocc, hleaf with
  | [], [], _, hocc, _ =>
    refine absurd (occupied_nil fun c => ?_) hb.1
    exact not_not.mp fun h => by simpa [hold] using (hocc c).mp h
  | [o], [(c,n)], _, hocc, hleaf =>
    simp only
    rw [if_neg]
    rintro ⟨rfl,hn⟩
    rw [hleaf o n (mem_singleton_self _),hsingle o fun c' => by simpa [hold] using hocc c'] at hn
    cases hn
  | [], [(c,n)], _, hocc, hleaf =>
    simp only
    rw [if_neg]
    rw [hleaf c n (mem_singleton_self _),hsingle c fun c' => by simpa [hold] using hocc c']
    exact nofun
  | [o], [], hfst, hocc, _ =>
    have ho : (remaining touched children children' o).isLeaf = false := by
      rw [remaining_eq hr (by rw [← hfst.mem_iff]; exact not_mem_nil)]
      exact hsingle o fun c' => by simpa [hold] using hocc c'
    have hne := mem_occupied.mp (hold ▸ mem_singleton_self o)
    cases hrem : remaining touched children children' o with
    | empty => exact absurd hrem hne
    | leaf w l => rw [hrem] at ho; cases ho
    | internal w grand =>
      have hchild : childrenOf hs (remaining touched children children') o =
          some ⟨(Node.internal (K := K) (internalOf hs grand)).hash hs,w,
            (Node.internal (K := K) (internalOf hs grand)).nodeType⟩ := by
        rw [childrenOf,hrem]
        rfl
      simp only [hchild]
      rfl
  | [], _ :: _ :: _, _, _, _ => rfl
  | [_], _ :: _ :: _, _, _, _ => rfl
  | _ :: _ :: _, [], _, _, _ => rfl
  | _ :: _ :: _, _ :: _, _, _, _ => rfl

theorem Shape.movedKey_branches (hb : Branches children') : movedKey p touched children' = [] := by
  rw [movedKey]
  match hocc : occupied children' with
  | [] => rfl
  | [c] =>
    have hc := hb.2 c hocc
    cases hch : children' c with
    | empty | internal w grand => simp only [hch]
    | leaf w l => rw [hch] at hc; exact absurd rfl hc
  | _ :: _ :: _ => rfl

theorem Shape.filter_entries {t : Shape H K} :
    ((t.entries hs p).filter fun e => decide (e.1.version = v)) =
      (if t.version = v then ((t.node hs).map fun node => ((⟨t.version,p⟩ : NodeKey),node)).toList
        else []) ++ t.fresh hs v p := by
  rw [entries_eq,filter_append]
  congr 1
  cases hnode : t.node hs with
  | none => simp
  | some n => simp [filter_singleton]

theorem Shape.fresh_mk_leafless (h : ∀ c, children' c ≠ .empty → (children' c).isLeaf) :
    ((List.finRange 16).flatMap fun c => (children' c).fresh hs v (p ++ [c])) = [] := by
  refine flatMap_eq_nil_iff.mpr fun c _ => ?_
  have hc := h c
  cases hch : children' c with
  | empty => rfl
  | leaf w l => rfl
  | internal w grand => rw [hch] at hc; exact absurd (hc nofun) nofun

theorem list_perm_fresh (p : List Nibble)
    (hlist : list.Perm (nodeList hs (renewed touched children')))
    (hr : Renews v touched children children') :
    (list.map fun child => ((⟨v,p ++ [child.1]⟩ : NodeKey),child.2)).Perm
      ((List.finRange 16).flatMap fun c => if (children' c).version = v then
        (((children' c).node hs).map fun node =>
          ((⟨(children' c).version,p ++ [c]⟩ : NodeKey),node)).toList else []) := by
  refine (hlist.map _).trans (List.Perm.of_eq ?_)
  rw [nodeList,map_flatMap]
  refine flatMap_congr fun c _ => ?_
  rw [renewed]
  cases ht : touched c with
  | true =>
    cases hnode : (children' c).node hs with
    | none => simp [hnode]
    | some n =>
      have hv := hr.version c ht fun hempty => by rw [hempty] at hnode; cases hnode
      simp [hnode,hv]
  | false =>
    have hold := hr.older c
    rw [hr.keep c ht]
    cases hc : children c with
    | empty => simp
    | leaf w l =>
      rw [hc] at hold
      simp [version,(show w < v from hold).ne]
    | internal w grand =>
      rw [hc] at hold
      simp [version,(show w < v from hold.1).ne]

theorem finishInternal_ok (batch : TreeUpdateBatch H K)
    (hlist : list.Perm (nodeList hs (renewed touched children')))
    (hr : Renews v touched children children')
    (hstored : ∀ c, (children c).Stored hs store (nodeKey.nibblePath ++ [c]))
    (hhash : (mk v children').Hashed hs hashCache v nodeKey.nibblePath) :
    ∃ nodes, finishInternal hs hashCache v store nodeKey
        (childrenOf hs (remaining touched children children')) list batch =
        .ok ((mk v children').node hs,⟨batch.nodeBatch ++ nodes,batch.staleNodeIndexBatch ++
          (movedKey nodeKey.nibblePath touched children').map fun k => ⟨v,k⟩⟩) ∧
      (nodes ++ (List.finRange 16).flatMap fun c =>
        (children' c).fresh hs v (nodeKey.nibblePath ++ [c])).Perm
          ((mk v children').fresh hs v nodeKey.nibblePath) := by
  have hremain : ∀ c, remaining touched children children' c ≠ .empty → children' c ≠ .empty :=
    fun c h => (mem_remaining_or_renewed hr c).mpr (.inl (mem_occupied.mpr h))
  have hrenew : ∀ c, renewed touched children' c ≠ .empty → children' c ≠ .empty :=
    fun c h => (mem_remaining_or_renewed hr c).mpr (.inr (mem_occupied.mpr h))
  rcases mk_cases v children' with ⟨hocc,hmk⟩ | ⟨c,w,l,hocc,hc,hmk⟩ | ⟨hb,hmk⟩
  · -- nothing is left
    have hempty := eq_empty_of_occupied hocc
    have hnone : ∀ c, remaining touched children children' c = .empty :=
      fun c => not_not.mp fun h => hremain c h (hempty c)
    have hnil : list = [] :=
      nodeList_nil hlist fun c => not_not.mp fun h => hrenew c h (hempty c)
    refine ⟨[],?_,?_⟩
    · simp only [finishInternal,existence_childrenOf,hnil,occupied_nil hnone,hmk,
        movedKey,hocc,map_nil,append_nil]
      rfl
    · rw [fresh_mk_leafless fun c h => absurd (hempty c) h,hmk]
      exact List.Perm.refl _
  · -- one leaf is left
    have honly : ∀ c', children' c' ≠ .empty ↔ c' = c := fun c' => by
      rw [← mem_occupied,hocc,mem_singleton]
    have hfresh : ((List.finRange 16).flatMap fun c =>
        (children' c).fresh hs v (nodeKey.nibblePath ++ [c])) = [] :=
      fresh_mk_leafless fun c' h => by rw [(honly c').mp h,hc]; rfl
    refine ⟨[],?_,by rw [hfresh,hmk]; exact List.Perm.refl _⟩
    cases ht : touched c with
    | true =>
      have hnew : list = [(c,.leaf l)] := by
        refine nodeList_singleton hlist (occupied_singleton fun c' => ⟨fun h => ?_,?_⟩)
          (by rw [renewed,if_pos ht,hc])
        · exact (honly c').mp (hrenew c' h)
        · rintro rfl
          rw [renewed,if_pos ht,hc]
          exact nofun
      have hmoved : movedKey nodeKey.nibblePath touched children' = [] := by
        simp [movedKey,hocc,hc,ht]
      have hold : occupied (remaining touched children children') = [] ∨
          occupied (remaining touched children children') = [c] := by
        by_cases hrem : remaining touched children children' c = .empty
        · refine .inl (occupied_nil fun c' => not_not.mp fun h => h ?_)
          rw [(honly c').mp (hremain c' h)]
          exact hrem
        · exact .inr (occupied_singleton fun c' =>
            ⟨fun h => (honly c').mp (hremain c' h),fun h => h ▸ hrem⟩)
      rw [hmoved,hmk,hnew]
      rcases hold with hold | hold
      · simp [finishInternal,existence_childrenOf,hold,Node.isLeaf]
      · simp [finishInternal,existence_childrenOf,hold,Node.isLeaf]
    | false =>
      -- the leaf has been left alone
      have hchild : children c = .leaf w l := by rw [← hr.keep c ht,hc]
      have hnil : list = [] := nodeList_nil hlist fun c' => by
        rw [renewed]
        split_ifs with ht'
        · refine not_not.mp fun h => ?_
          rw [(honly c').mp h,ht] at ht'
          cases ht'
        · rfl
      have hrem : remaining touched children children' c = .leaf w l := by
        simp [remaining,ht,hchild]
      have hold : occupied (remaining touched children children') = [c] :=
        occupied_singleton fun c' =>
          ⟨fun h => (honly c').mp (hremain c' h),fun h => by rw [h,hrem]; exact nofun⟩
      have hmoved : movedKey nodeKey.nibblePath touched children' =
          [nodeKey.genChildNodeKey w c] := by
        simp [movedKey,hocc,hc,ht,NodeKey.genChildNodeKey]
      have hentry : childrenOf hs (remaining touched children children') c =
          some ⟨(Node.leaf l).hash hs,w,.leaf⟩ := by
        rw [childrenOf,hrem]
        rfl
      have hread : store.getNode (nodeKey.genChildNodeKey w c) = .ok (.leaf l) := by
        have := hstored c (⟨w,nodeKey.nibblePath ++ [c]⟩,.leaf l) (by
          rw [hchild]; exact mem_singleton_self _)
        rw [Store.getNode,NodeKey.genChildNodeKey,this]
      rw [hmoved,hmk,hnil]
      simp [finishInternal,existence_childrenOf,hold,hentry,Child.isLeaf]
      rw [hread]
      rfl
  · -- the node is built again
    have hnew : ∀ c n, (c,n) ∈ list →
        (children' c).node hs = some n ∧ (children' c).version = v := by
      intro c n hn
      obtain ⟨ht,hnode⟩ := mem_list hlist hn
      refine ⟨hnode,hr.version c ht fun hempty => ?_⟩
      rw [hempty] at hnode
      cases hnode
    have hroots := list_perm_fresh nodeKey.nibblePath hlist hr
    have hfresh : (mk v children').fresh hs v nodeKey.nibblePath =
        (List.finRange 16).flatMap fun c =>
          ((children' c).entries hs (nodeKey.nibblePath ++ [c])).filter fun e =>
            decide (e.1.version = v) := by
      rw [hmk,Shape.fresh,Shape.inner,filter_flatMap]
    refine ⟨list.map fun child => (nodeKey.genChildNodeKey v child.1,child.2),?_,?_⟩
    · rw [finishInternal_rebuild hlist hr hb,movedKey_branches hb,hmk,node_internal,
        createInternal_ok hnew (fun c hc => ?_) hb fun c n hn => ?_]
      · rw [map_nil,append_nil]
        rfl
      · rw [childrenOf,childrenOf,
          remaining_eq hr fun h => hc ((list_fst hlist).mem_iff.mpr h)]
      · refine hhash (nodeKey.genChildNodeKey v c,n) ?_
        obtain ⟨hnode,hv⟩ := hnew c n hn
        rw [hfresh,mem_flatMap]
        refine ⟨c,mem_finRange c,mem_filter.mpr ⟨?_,decide_eq_true rfl⟩⟩
        rw [entries_eq,hnode,hv]
        exact mem_cons_self
    · rw [hfresh]
      simp only [filter_entries]
      exact (hroots.append_right _).trans (flatMap_append_perm _ _ _)

end FinishInternal

section Inserted

variable {hs : Hasher H} {hashCache : Option (HashCache H)} {v : ℕ} {store : Store H K}
  {t : Shape H K} {children : Nibble → Shape H K}

/-- An update of a stored tree: the node at the root, what is new below it and what is left behind. -/
structure Inserted (hs : Hasher H) (v : ℕ) (p : List Nibble) (t : Shape H K) (stale : List NodeKey)
    (updated : Updated H K) : Prop where
  node : updated.1 = t.node hs
  nodes : updated.2.nodeBatch.Perm (t.fresh hs v p)
  stale : updated.2.staleNodeIndexBatch.Perm (stale.map fun k => ⟨v,k⟩)

theorem Shape.Hashed.child (h : (mk v children).Hashed hs hashCache v p) (c : Nibble) :
    (children c).Hashed hs hashCache v (p ++ [c]) :=fun e he => by
  obtain ⟨hinner,hv⟩ := mem_filter.mp he
  exact h e (mem_filter.mpr ⟨mem_inner_mk hinner,hv⟩)

theorem finishInternal_inserted (store : Store H K) (nodeKey : NodeKey)
    (children' : Nibble → Shape H K) (stale : Nibble → List NodeKey)
    (hcs : cs.Perm ((List.finRange 16).filter touched))
    (hresult : ∀ c, touched c →
      Inserted hs v (nodeKey.nibblePath ++ [c]) (children' c) (stale c) (result c))
    (hr : Renews v touched children children') (hnone : ∀ c, touched c = false → stale c = [])
    (hstored : ∀ c, (children c).Stored hs store (nodeKey.nibblePath ++ [c]))
    (hhash : (mk v children').Hashed hs hashCache v nodeKey.nibblePath) :
    ∃ updated, finishInternal hs hashCache v store nodeKey
        (withoutEmptied (childrenOf hs children) (cs.map fun c => (c,result c)))
        (ChildUpdates.nodes (cs.map fun c => (c,result c)))
        (ChildUpdates.batch (cs.map fun c => (c,result c))) = .ok updated ∧
      Inserted hs v nodeKey.nibblePath (mk v children')
        ((List.finRange 16).flatMap stale ++
          movedKey nodeKey.nibblePath touched children') updated := by
  have ht : ∀ c ∈ cs, touched c := fun c hc => (mem_filter.mp (hcs.mem_iff.mp hc)).2
  have hroot : ∀ c, touched c → (result c).1 = (children' c).node hs := fun c hc =>
    (hresult c hc).node
  obtain ⟨nodes,hok,hperm⟩ := finishInternal_ok
    (ChildUpdates.batch (cs.map fun c => (c,result c))) (nodes_renewed hcs hroot) hr hstored hhash
  rw [withoutEmptied_remaining hcs hroot]
  refine ⟨_,hok,rfl,?_,?_⟩
  · rw [batch_map]
    refine perm_append_comm.trans ((List.Perm.append_left nodes ?_).trans hperm)
    have hfresh : (cs.flatMap fun c => (result c).2.nodeBatch).Perm
        (cs.flatMap fun c => (children' c).fresh hs v (nodeKey.nibblePath ++ [c])) :=
      List.Perm.flatMap_left _ fun c hc => (hresult c (ht c hc)).nodes
    refine hfresh.trans (flatMap_perm_finRange hcs fun c hc => ?_)
    rw [hr.keep c hc]
    refine filter_eq_nil_iff.mpr fun e he => ?_
    have hlt := (hr.older c).keys (entries_keys hs ▸ mem_map_of_mem (by
      rw [entries_eq]
      exact mem_append_right _ he))
    simpa using hlt.ne
  · rw [map_append,batch_map,map_flatMap]
    refine List.Perm.append_right _ ?_
    have hstale : (cs.flatMap fun c => (result c).2.staleNodeIndexBatch).Perm
        (cs.flatMap fun c => (stale c).map fun k => ⟨v,k⟩) :=
      List.Perm.flatMap_left _ fun c hc => (hresult c (ht c hc)).stale
    exact hstale.trans (flatMap_perm_finRange hcs fun c hc => by rw [hnone c hc]; rfl)

theorem finishSubtree_eq (store : Store H K) (nodeKey : NodeKey) (list : List (Nibble × Node H K))
    (batch : TreeUpdateBatch H K) : finishSubtree hs hashCache v nodeKey list batch =
      finishInternal hs hashCache v store nodeKey (fun _ => none) list batch := by
  have hnone : Children.existence (fun _ => none : Children H) = [] := by
    simp [Children.existence]
  match list with
  | [] => simp only [finishSubtree,finishInternal,hnone]
  | [(c,n)] => simp only [finishSubtree,finishInternal,hnone]
  | _ :: _ :: _ => simp only [finishSubtree,finishInternal,hnone]

theorem finishSubtree_inserted {nodeKey : NodeKey}
    (hcs : cs.Perm ((List.finRange 16).filter touched))
    (hresult : ∀ c, touched c →
      Inserted hs v (nodeKey.nibblePath ++ [c]) (children c) [] (result c))
    (hempty : ∀ c, touched c = false → children c = .empty)
    (hver : ∀ c, children c ≠ .empty → (children c).version = v)
    (hhash : (mk v children).Hashed hs hashCache v nodeKey.nibblePath) :
    ∃ updated, finishSubtree hs hashCache v nodeKey
        (ChildUpdates.nodes (cs.map fun c => (c,result c)))
        (ChildUpdates.batch (cs.map fun c => (c,result c))) = .ok updated ∧
      Inserted hs v nodeKey.nibblePath (mk v children) [] updated := by
  have hnone : withoutEmptied (childrenOf hs fun _ => (.empty : Shape H K))
      (cs.map fun c => (c,result c)) = fun _ => none := by
    funext c
    rw [withoutEmptied_eq]
    split_ifs <;> rfl
  have hmoved : movedKey nodeKey.nibblePath touched children = [] := by
    rw [movedKey]
    match hocc : occupied children with
    | [] => rfl
    | [c] =>
      have hc : touched c = true := Bool.of_not_eq_false fun hf =>
        mem_occupied.mp (hocc ▸ mem_singleton_self c) (hempty c hf)
      cases hch : children c <;> simp only [hch,hc,if_true]
    | _ :: _ :: _ => rfl
  obtain ⟨updated,hok,hins⟩ := finishInternal_inserted (fun _ => none) nodeKey children
    (fun _ => []) hcs hresult ⟨hempty,fun c _ => hver c,fun _ => trivial⟩ (fun _ _ => rfl)
    (fun _ _ => nofun) hhash
  rw [hnone,← finishSubtree_eq] at hok
  rw [hmoved,append_nil] at hins
  exact ⟨updated,hok,hins⟩

end Inserted

end Arx.JellyfishMerkle
