import Arx.JellyfishMerkle.Finish

/-!
# The update of a shape, and the store that follows it

The batched updates return the node at the root of the updated shape and put the nodes below it
that are new into their batch.
-/

namespace Arx.JellyfishMerkle
open Movelib Function List Shape

variable {H K : Type} {kvs : KeyValues H K} {p : List Nibble} {n d : ℕ}

namespace Shape

def put (v : ℕ) (kv : HashValue × Option (H × K)) : Shape H K :=
  match kv.2 with
  | some value => leaf v ⟨kv.1,value.1,(value.2,v)⟩
  | none => empty

def build (v : ℕ) : ℕ → ℕ → KeyValues H K → Shape H K
  | _, _, [kv] => put v kv
  | 0, _, _ => empty
  | n + 1, d, kvs => mk v fun c => build v n (d + 1) (kvs.under d c)

def withLeaf (v : ℕ) (l : LeafNode H K) : ℕ → ℕ → KeyValues H K → Shape H K
  | 0, _, kvs =>
    if isUpdateOf l kvs then (kvs.head?.map (put v)).getD empty else leaf v l
  | n + 1, d, kvs =>
    if isUpdateOf l kvs then (kvs.head?.map (put v)).getD empty
    else mk v fun c =>
      if l.accountKey.getNibble d = c then
        if kvs.under d c = [] then leaf v l else withLeaf v l n (d + 1) (kvs.under d c)
      else build v n (d + 1) (kvs.under d c)

def insertAt (v : ℕ) : ℕ → ℕ → Shape H K → KeyValues H K → Shape H K
  | n, d, empty, kvs => build v n d kvs
  | n, d, leaf _ l, kvs => withLeaf v l n d kvs
  | 0, _, internal _ _, _ => empty
  | n + 1, d, internal _ children, kvs => mk v fun c =>
    if kvs.under d c = [] then children c else insertAt v n (d + 1) (children c) (kvs.under d c)

end Shape

structure KeyValues.Placed (p : List Nibble) (kvs : KeyValues H K) : Prop where
  sorted : kvs.Pairwise fun a b => a.1 < b.1
  under : ∀ kv ∈ kvs, p <+: kv.1.nibbles

namespace KeyValues.Placed

variable {p : List Nibble} {kvs : KeyValues H K}

theorem nibbles_eq {key : HashValue} (hp : p <+: key.nibbles) (hlen : p.length < rootNibbleHeight) :
    ∃ rest, key.nibbles = p ++ key.getNibble p.length :: rest := by
  obtain ⟨rest,hrest⟩ := hp
  cases rest with
  | nil =>
    have := congrArg List.length hrest
    rw [append_nil,key.length_eq] at this
    omega
  | cons c rest =>
    refine ⟨rest,?_⟩
    rw [HashValue.getNibble,← hrest]
    simp

theorem nibblesSorted (hp : kvs.Placed p) (hlen : p.length < rootNibbleHeight) :
    kvs.NibblesSorted p.length := by
  refine hp.sorted.imp_of_mem fun {a b} ha hb hab => ?_
  obtain ⟨rest,hrest⟩ := nibbles_eq (hp.under a ha) hlen
  obtain ⟨rest',hrest'⟩ := nibbles_eq (hp.under b hb) hlen
  have hlt : a.1.nibbles < b.1.nibbles := hab
  rw [hrest,hrest',append_lt_append_iff,cons_lt_cons_iff] at hlt
  rcases hlt with hlt | ⟨heq,-⟩
  · exact hlt.le
  · exact heq.le

theorem nibbles_child {key : HashValue} (hp : p <+: key.nibbles)
    (hlen : p.length < rootNibbleHeight) : p ++ [key.getNibble p.length] <+: key.nibbles := by
  obtain ⟨rest,hrest⟩ := nibbles_eq hp hlen
  exact ⟨rest,by rw [hrest]; simp⟩

theorem child (hp : kvs.Placed p) (hlen : p.length < rootNibbleHeight) (c : Nibble) :
    (kvs.under p.length c).Placed (p ++ [c]) := by
  refine ⟨hp.sorted.filter _,fun kv hkv => ?_⟩
  obtain ⟨hkv,hc⟩ := mem_filter.mp hkv
  rw [← of_decide_eq_true hc]
  exact nibbles_child (hp.under kv hkv) hlen

theorem length_le_one (hp : kvs.Placed p) (hlen : p.length = rootNibbleHeight) :
    kvs.length ≤ 1 := by
  have heq : ∀ kv ∈ kvs, p = kv.1.nibbles := fun kv hkv =>
    (hp.under kv hkv).eq_of_length (hlen.trans kv.1.length_eq.symm)
  match kvs, hp, heq with
  | [], _, _ => exact Nat.zero_le 1
  | [_], _, _ => exact le_rfl
  | a :: b :: rest, hp, heq =>
    have hlt : a.1.nibbles < b.1.nibbles :=
      (pairwise_cons.mp hp.sorted).1 b mem_cons_self
    rw [← heq a mem_cons_self,← heq b (mem_cons_of_mem _ mem_cons_self)] at hlt
    exact absurd hlt (lt_irrefl p)

end KeyValues.Placed

section Updates

variable {hs : Hasher H} {hashCache : Option (HashCache H)} {v : ℕ} {nodeKey : NodeKey}
  {children : Nibble → Shape H K} {cs : List Nibble} {result : Nibble → Updated H K}
  {kvs : KeyValues H K} {l : LeafNode H K}

namespace Shape

theorem mk_version (h : mk v children ≠ empty) : (mk v children).version = v := by
  rcases mk_cases v children with ⟨-,hmk⟩ | ⟨_,_,_,-,-,hmk⟩ | ⟨-,hmk⟩
  · exact absurd hmk h
  · rw [hmk]; rfl
  · rw [hmk]; rfl

variable {kv : HashValue × Option (H × K)}

theorem put_version (h : put v kv ≠ empty) : (put v kv).version = v := by
  obtain ⟨key,_ | value⟩ := kv
  · exact absurd rfl h
  · rfl

theorem node_put : (put v kv).node hs = newLeaf v kv := by
  obtain ⟨key,_ | value⟩ := kv <;> rfl

theorem inner_put : (put v kv).inner hs p = [] := by
  obtain ⟨key,_ | value⟩ := kv <;> rfl

theorem build_succ (h : ∀ kv, kvs ≠ [kv]) :
    build v (n + 1) d kvs = mk v fun c => build v n (d + 1) (kvs.under d c) := by
  match kvs, h with
  | [], _ => rfl
  | [kv], h => exact absurd rfl (h kv)
  | _ :: _ :: _, _ => rfl

theorem build_nil : build v n d ([] : KeyValues H K) = empty := by
  induction n generalizing d with
  | zero => rfl
  | succ n ih =>
    have hnot : ∀ kv : HashValue × Option (H × K), ([] : KeyValues H K) ≠ [kv] := fun _ => nofun
    rcases mk_cases v fun c => build v n (d + 1) (KeyValues.under ([] : KeyValues H K) d c) with
      ⟨-,hmk⟩ | ⟨c,w,l,-,hc,-⟩ | ⟨hb,-⟩
    · exact hmk
    · have hleaf : (empty : Shape H K) = leaf w l := ih.symm.trans hc
      cases hleaf
    · obtain ⟨c,hc⟩ := exists_mem_of_ne_nil _ hb.1
      exact absurd ih (mem_occupied.mp hc)

theorem build_version (h : build v n d kvs ≠ empty) : (build v n d kvs).version = v := by
  match n, kvs, h with
  | _, [kv], h => rw [build] at h ⊢; exact put_version h
  | 0, [], h => exact absurd rfl h
  | 0, _ :: _ :: _, h => exact absurd rfl h
  | n + 1, [], h => exact absurd build_nil h
  | n + 1, a :: b :: l, h => exact mk_version h

end Shape

theorem batchUpdateSubtree_succ {n depth : ℕ} (h : ∀ kv, kvs ≠ [kv]) :
    batchUpdateSubtree hs hashCache v (n + 1) nodeKey kvs depth =
      forRanges kvs depth (fun childIndex kvs => batchUpdateSubtree hs hashCache v n
        (nodeKey.genChildNodeKey v childIndex) kvs (depth + 1)) >>= fun updates =>
          finishSubtree hs hashCache v nodeKey updates.nodes updates.batch := by
  match kvs, h with
  | [], _ => rfl
  | [kv], h => exact absurd rfl (h kv)
  | _ :: _ :: _, _ => rfl

theorem inserted_put {kv : HashValue × Option (H × K)} :
    Inserted hs v p (put v kv) [] (newLeaf v kv,.new) :=
  ⟨node_put.symm,by rw [fresh,inner_put]; exact List.Perm.refl _,List.Perm.refl _⟩

theorem batchUpdateSubtree_ok {n : ℕ} (hp : kvs.Placed nodeKey.nibblePath)
    (hlen : nodeKey.nibblePath.length + n = rootNibbleHeight) (hne : kvs ≠ [] ∨ 0 < n)
    (hhash : (build v n nodeKey.nibblePath.length kvs).Hashed hs hashCache v nodeKey.nibblePath) :
    ∃ updated, batchUpdateSubtree hs hashCache v n nodeKey kvs nodeKey.nibblePath.length =
        .ok updated ∧
      Inserted hs v nodeKey.nibblePath (build v n nodeKey.nibblePath.length kvs) [] updated := by
  induction n generalizing nodeKey kvs with
  | zero =>
    -- the path is full, so there is one key
    have hone := hp.length_le_one hlen
    match kvs, hne, hone with
    | [], hne, _ => exact absurd (hne.resolve_left (not_not.mpr rfl)) (lt_irrefl 0)
    | [kv], _, _ => exact ⟨_,rfl,inserted_put⟩
    | _ :: _ :: _, _, h => exact absurd h (by simp)
  | succ n ih =>
    by_cases hone : ∃ kv, kvs = [kv]
    · obtain ⟨kv,rfl⟩ := hone
      exact ⟨_,rfl,inserted_put⟩
    have hone : ∀ kv, kvs ≠ [kv] := fun kv h => hone ⟨kv,h⟩
    have hlt : nodeKey.nibblePath.length < rootNibbleHeight := by omega
    rw [build_succ hone] at hhash ⊢
    rw [batchUpdateSubtree_succ hone]
    have hchild : ∀ c, kvs.under nodeKey.nibblePath.length c ≠ [] →
        ∃ updated, batchUpdateSubtree hs hashCache v n (nodeKey.genChildNodeKey v c)
            (kvs.under nodeKey.nibblePath.length c) (nodeKey.nibblePath.length + 1) = .ok updated ∧
          Inserted hs v (nodeKey.nibblePath ++ [c]) (build v n (nodeKey.nibblePath.length + 1)
            (kvs.under nodeKey.nibblePath.length c)) [] updated := by
      intro c hc
      have hpath : (nodeKey.genChildNodeKey v c).nibblePath.length =
          nodeKey.nibblePath.length + 1 := length_append
      have hres := @ih (nodeKey.genChildNodeKey v c) _ (hp.child hlt c) (by omega) (.inl hc)
      rw [hpath] at hres
      exact hres (hhash.child c)
    choose! result hok hresult using hchild
    obtain ⟨cs,hcs,hloop⟩ := forRanges_ok (fun c kvs => batchUpdateSubtree hs hashCache v n
      (nodeKey.genChildNodeKey v c) kvs (nodeKey.nibblePath.length + 1)) (hp.nibblesSorted hlt) hok
    rw [hloop]
    refine finishSubtree_inserted hcs (fun c hc => hresult c (of_decide_eq_true hc)) (fun c hc => ?_)
      (fun c hc => build_version hc) hhash
    rw [not_not.mp (of_decide_eq_false hc)]
    exact build_nil

namespace Shape

theorem putHead_version (h : (kvs.head?.map (put v)).getD empty ≠ empty) :
    ((kvs.head?.map (put v)).getD empty).version = v := by
  cases kvs with
  | nil => exact absurd rfl h
  | cons kv rest => exact put_version h

theorem withLeaf_version {l : LeafNode H K} (h : withLeaf v l n d kvs ≠ empty) :
    (withLeaf v l n d kvs).version = v := by
  cases n with
  | zero =>
    rw [withLeaf] at h ⊢
    split_ifs at h ⊢ with hup
    · exact putHead_version h
    · rfl
  | succ n =>
    rw [withLeaf] at h ⊢
    split_ifs at h ⊢ with hup
    · exact putHead_version h
    · exact mk_version h

end Shape

theorem isUpdateOf_eq (h : isUpdateOf l kvs) : ∃ kv, kvs = [kv] ∧ kv.1 = l.accountKey := by
  match kvs, h with
  | [kv], h => exact ⟨kv,rfl,of_decide_eq_true h⟩

/-- Under a full path there is nothing to write but the key of the leaf. -/
theorem isUpdateOf_of_full (hp : kvs.Placed p) (hl : p <+: l.accountKey.nibbles)
    (hlen : p.length = rootNibbleHeight) (hne : kvs ≠ []) : isUpdateOf l kvs := by
  have hone := hp.length_le_one hlen
  match kvs, hne, hone, hp with
  | [kv], _, _, hp =>
    have hkv := (hp.under kv (mem_singleton_self kv)).eq_of_length
      (hlen.trans kv.1.length_eq.symm)
    have hkey := hl.eq_of_length (hlen.trans l.accountKey.length_eq.symm)
    exact decide_eq_true (HashValue.ext (hkv.symm.trans hkey))
  | _ :: _ :: _, _, h, _ => exact absurd h (by simp)

theorem batch_snoc_new (updates : ChildUpdates H K) (c : Nibble) (node : Option (Node H K)) :
    ChildUpdates.batch (updates ++ [(c,node,.new)]) = ChildUpdates.batch updates := by
  rw [ChildUpdates.batch,ChildUpdates.batch,TreeUpdateBatch.combineAll,TreeUpdateBatch.combineAll,
    map_append,foldl_append]
  simp [TreeUpdateBatch.combine,TreeUpdateBatch.new]

theorem withExistingLeaf_update {n depth : ℕ} (hup : isUpdateOf l kvs) : ∃ updated,
      batchUpdateSubtreeWithExistingLeaf hs hashCache v l n nodeKey kvs depth = .ok updated ∧
      Inserted hs v nodeKey.nibblePath (withLeaf v l n depth kvs) [] updated := by
  obtain ⟨kv,rfl,-⟩ := isUpdateOf_eq hup
  cases n with
  | zero | succ n =>
    rw [batchUpdateSubtreeWithExistingLeaf,withLeaf,if_pos hup,if_pos hup]
    exact ⟨_,rfl,inserted_put⟩

theorem finishSubtree_isolated {bucket : Nibble} {depth : ℕ}
    (hcs : cs.Perm (kvs.touched depth)) (hbucket : kvs.under depth bucket = [])
    (hresult : ∀ c, kvs.under depth c ≠ [] →
      Inserted hs v (nodeKey.nibblePath ++ [c]) (children c) [] (result c))
    (hleaf : children bucket = .leaf v l)
    (hempty : ∀ c, kvs.under depth c = [] → c ≠ bucket → children c = .empty)
    (hver : ∀ c, children c ≠ .empty → (children c).version = v)
    (hhash : (mk v children).Hashed hs hashCache v nodeKey.nibblePath) :
    ∃ updated, finishSubtree hs hashCache v nodeKey
        (ChildUpdates.nodes (cs.map fun c => (c,result c)) ++ [(bucket,.leaf l)])
        (ChildUpdates.batch (cs.map fun c => (c,result c))) = .ok updated ∧
      Inserted hs v nodeKey.nibblePath (mk v children) [] updated := by
  have hfresh : bucket ∉ cs := fun h => KeyValues.mem_touched.mp (hcs.mem_iff.mp h) hbucket
  have hupdates : (cs.map fun c => (c,result c)) ++ [(bucket,some (.leaf l),.new)] =
      (cs ++ [bucket]).map fun c =>
        (c,(update result bucket (some (.leaf l),.new) : Nibble → Updated H K) c) := by
    rw [map_append,map_singleton,update_self]
    congr 1
    refine map_congr_left fun c hc => ?_
    have hne : c ≠ bucket := fun h => hfresh (h ▸ hc)
    rw [update_of_ne hne]
  have hperm : (cs ++ [bucket]).Perm ((List.finRange 16).filter fun c =>
      decide (kvs.under depth c ≠ [] ∨ c = bucket)) := by
    refine (perm_ext_iff_of_nodup ?_ ((nodup_finRange 16).filter _)).mpr fun c => ?_
    · refine nodup_append.mpr ⟨hcs.nodup_iff.mpr KeyValues.touched_nodup,by simp,?_⟩
      rintro a ha b hb rfl
      exact hfresh (mem_singleton.mp hb ▸ ha)
    · rw [mem_append,hcs.mem_iff,KeyValues.mem_touched]
      simp
  have hnodes : ChildUpdates.nodes (cs.map fun c => (c,result c)) ++ [(bucket,.leaf l)] =
      ChildUpdates.nodes ((cs.map fun c => (c,result c)) ++ [(bucket,some (.leaf l),.new)]) := by
    rw [ChildUpdates.nodes,ChildUpdates.nodes,filterMap_append]
    rfl
  rw [hnodes,← batch_snoc_new _ bucket (some (.leaf l)),hupdates]
  refine finishSubtree_inserted hperm (fun c hc => ?_) (fun c hc => ?_) hver hhash
  · by_cases hcb : c = bucket
    · subst hcb
      rw [update_self,hleaf]
      exact ⟨rfl,List.Perm.refl _,List.Perm.refl _⟩
    · rw [update_of_ne hcb]
      exact hresult c ((of_decide_eq_true hc).resolve_right hcb)
  · have hnot := not_or.mp (of_decide_eq_false hc)
    exact hempty c (not_not.mp hnot.1) hnot.2

theorem batchUpdateSubtreeWithExistingLeaf_ok (nodeKey : NodeKey) {n : ℕ}
    (hp : kvs.Placed nodeKey.nibblePath) (hl : nodeKey.nibblePath <+: l.accountKey.nibbles)
    (hlen : nodeKey.nibblePath.length + n = rootNibbleHeight) (hne : kvs ≠ [] ∨ 0 < n)
    (hhash : (withLeaf v l n nodeKey.nibblePath.length kvs).Hashed hs hashCache v
      nodeKey.nibblePath) :
    ∃ updated, batchUpdateSubtreeWithExistingLeaf hs hashCache v l n nodeKey kvs
        nodeKey.nibblePath.length = .ok updated ∧
      Inserted hs v nodeKey.nibblePath (withLeaf v l n nodeKey.nibblePath.length kvs) []
        updated := by
  induction n generalizing nodeKey kvs with
  | zero =>
    exact withExistingLeaf_update
      (isUpdateOf_of_full hp hl hlen (hne.resolve_right (lt_irrefl 0)))
  | succ n ih =>
    by_cases hup : isUpdateOf l kvs
    · exact withExistingLeaf_update hup
    have hlt : nodeKey.nibblePath.length < rootNibbleHeight := by omega
    rw [withLeaf,if_neg hup] at hhash ⊢
    rw [batchUpdateSubtreeWithExistingLeaf,if_neg hup]
    generalize hd : nodeKey.nibblePath.length = d at hlt hlen hhash ⊢
    generalize hbucket : l.accountKey.getNibble d = bucket at hhash ⊢
    generalize hch : (fun c => if bucket = c then
      if kvs.under d c = [] then leaf v l else withLeaf v l n (d + 1) (kvs.under d c)
      else build v n (d + 1) (kvs.under d c)) = children at hhash ⊢
    have hchild : ∀ c, kvs.under d c ≠ [] → ∃ updated,
        (if bucket = c then batchUpdateSubtreeWithExistingLeaf hs hashCache v l n
            (nodeKey.genChildNodeKey v c) (kvs.under d c) (d + 1)
          else batchUpdateSubtree hs hashCache v n (nodeKey.genChildNodeKey v c) (kvs.under d c)
            (d + 1)) = .ok updated ∧
          Inserted hs v (nodeKey.nibblePath ++ [c]) (children c) [] updated := by
      intro c hc
      have hpath : (nodeKey.genChildNodeKey v c).nibblePath.length = d + 1 := by
        rw [← hd]
        exact length_append
      have hplaced : (kvs.under d c).Placed (nodeKey.genChildNodeKey v c).nibblePath := by
        rw [← hd]
        exact hp.child (hd ▸ hlt) c
      have hinner := hhash.child c
      rw [← hch] at hinner ⊢
      by_cases hb : bucket = c
      · simp only [if_pos hb,if_neg hc] at hinner ⊢
        have hl' : (nodeKey.genChildNodeKey v c).nibblePath <+: l.accountKey.nibbles := by
          rw [← hb,← hbucket,← hd]
          exact KeyValues.Placed.nibbles_child hl (hd ▸ hlt)
        have hres := ih (nodeKey.genChildNodeKey v c) hplaced hl' (by omega) (.inl hc)
        rw [hpath] at hres
        exact hres hinner
      · simp only [if_neg hb] at hinner ⊢
        have hres := @batchUpdateSubtree_ok _ _ hs hashCache v (nodeKey.genChildNodeKey v c) _ n
          hplaced (by omega) (.inl hc)
        rw [hpath] at hres
        exact hres hinner
    choose! result hok hresult using hchild
    obtain ⟨cs,hcs,hloop⟩ := forRanges_ok (fun c kvs => if bucket = c then
        batchUpdateSubtreeWithExistingLeaf hs hashCache v l n (nodeKey.genChildNodeKey v c) kvs
          (d + 1)
      else batchUpdateSubtree hs hashCache v n (nodeKey.genChildNodeKey v c) kvs (d + 1))
      (hd ▸ hp.nibblesSorted (hd ▸ hlt)) hok
    have hver : ∀ c, children c ≠ .empty → (children c).version = v := by
      intro c hc
      rw [← hch] at hc ⊢
      simp only at hc ⊢
      split_ifs at hc ⊢ with hb hu
      · rfl
      · exact withLeaf_version hc
      · exact build_version hc
    have hempty : ∀ c, kvs.under d c = [] → c ≠ bucket → children c = .empty := by
      intro c hc hb
      rw [← hch]
      simp only [if_neg (Ne.symm hb),hc]
      exact build_nil
    dsimp only
    rw [hloop]
    change ∃ updated, finishSubtree hs hashCache v nodeKey (ChildUpdates.nodes _ ++ _) _ = _ ∧ _
    have hany : ((cs.map fun c => (c,result c)).any fun u => decide (bucket = u.1)) =
        decide (kvs.under d bucket ≠ []) := by
      rw [Bool.eq_iff_iff,decide_eq_true_iff,← KeyValues.mem_touched,← hcs.mem_iff]
      simp
    rw [hany]
    by_cases hb : kvs.under d bucket = []
    · simp only [hb,ne_eq,not_true_eq_false,decide_false,Bool.not_false,if_true]
      refine finishSubtree_isolated hcs hb hresult ?_ hempty hver hhash
      rw [← hch]
      simp only [if_true,hb]
    · simp only [hb,ne_eq,not_false_eq_true,decide_true,Bool.not_true,Bool.false_eq_true,if_false,
        append_nil]
      refine finishSubtree_inserted hcs (fun c hc => hresult c (of_decide_eq_true hc))
        (fun c hc => ?_) hver hhash
      have hc := not_not.mp (of_decide_eq_false hc)
      exact hempty c hc fun h => hb (h ▸ hc)

end Updates

end Arx.JellyfishMerkle
