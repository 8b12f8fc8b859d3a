import Arx.JellyfishMerkle.Insert

/-!
# The leaves of a tree

A shape is canonical if its leaves are under the paths of their keys and each of its internal nodes
has at least two leaves below it.
-/

namespace Arx.JellyfishMerkle
open Movelib List

variable {H K : Type} {c : Nibble} {kv : HashValue × Option (H × K)} {all : List (LeafNode H K)}

def leafOf (v : ℕ) (kv : HashValue × Option (H × K)) : Option (LeafNode H K) :=
  kv.2.map fun value => ⟨kv.1,value.1,(value.2,v)⟩

theorem leafOf_key {v : ℕ} {l : LeafNode H K} (h : leafOf v kv = some l) : l.accountKey = kv.1 := by
  obtain ⟨value,-,rfl⟩ := Option.map_eq_some_iff.mp h
  rfl

theorem KeyValues.mem_under {kvs : KeyValues H K} {d : ℕ} :
    kv ∈ kvs.under d c ↔ kv ∈ kvs ∧ kv.1.getNibble d = c := by
  rw [KeyValues.under,mem_filter,decide_eq_true_iff]

def Written (v : ℕ) (kvs : KeyValues H K) (old : List (LeafNode H K)) (l : LeafNode H K) : Prop :=
  (∃ kv ∈ kvs, leafOf v kv = some l) ∨ l ∈ old ∧ l.accountKey ∉ kvs.map Prod.fst

theorem getNibble_of_under {p : List Nibble} {key : HashValue} (h : p ++ [c] <+: key.nibbles) :
    key.getNibble p.length = c := by
  obtain ⟨rest,hrest⟩ := h
  rw [HashValue.getNibble,← hrest]
  simp

namespace Shape

def leaves : Shape H K → List (LeafNode H K)
  | empty => []
  | leaf _ l => [l]
  | internal _ children => (List.finRange 16).flatMap fun c => (children c).leaves

def Canonical : List Nibble → Shape H K → Prop
  | _, empty => True
  | p, leaf _ l => p <+: l.accountKey.nibbles
  | p, internal _ children =>
    p.length < rootNibbleHeight ∧ Branches children ∧ ∀ c, Canonical (p ++ [c]) (children c)

variable {v n : ℕ} {p : List Nibble} {t : Shape H K} {children : Nibble → Shape H K}
  {kvs : KeyValues H K} {l : LeafNode H K} {kv : HashValue × Option (H × K)} {d : ℕ}
  {old : List (LeafNode H K)}

theorem Canonical.fits (h : t.Canonical p) : t.Fits p := by
  induction t generalizing p with
  | empty => trivial
  | leaf w l => exact h
  | internal w children ih => exact ⟨h.1,fun c => ih c (h.2.2 c)⟩

theorem Canonical.under (h : t.Canonical p) (hl : l ∈ t.leaves) : p <+: l.accountKey.nibbles := by
  induction t generalizing p with
  | empty => cases hl
  | leaf w l' =>
    rw [mem_singleton.mp hl]
    exact h
  | internal w children ih =>
    obtain ⟨c,-,hl⟩ := mem_flatMap.mp hl
    exact (prefix_append p [c]).trans (ih c (h.2.2 c) hl)

theorem Canonical.sorted (h : t.Canonical p) :
    t.leaves.Pairwise fun a b => a.accountKey < b.accountKey := by
  induction t generalizing p with
  | empty => exact List.Pairwise.nil
  | leaf w l => exact pairwise_singleton _ _
  | internal w children ih =>
    refine pairwise_flatMap.mpr ⟨fun c _ => ih c (h.2.2 c),?_⟩
    refine (pairwise_lt_finRange 16).imp fun {c c'} hcc a ha b hb => ?_
    obtain ⟨rest,hrest⟩ := (h.2.2 c).under ha
    obtain ⟨rest',hrest'⟩ := (h.2.2 c').under hb
    change a.accountKey.nibbles < b.accountKey.nibbles
    rw [← hrest,← hrest',append_assoc,append_assoc,append_lt_append_iff]
    exact cons_lt_cons_iff.mpr (.inl hcc)

theorem mem_leaves_mk : l ∈ (mk v children).leaves ↔ ∃ c, l ∈ (children c).leaves := by
  rcases mk_cases v children with ⟨hocc,hmk⟩ | ⟨c,w,l',hocc,hc,hmk⟩ | ⟨-,hmk⟩
  · simp [hmk,leaves,eq_empty_of_occupied hocc]
  · rw [hmk]
    refine ⟨fun hl => ⟨c,hc ▸ hl⟩,fun ⟨c',hl⟩ => ?_⟩
    by_cases hcc : c' = c
    · rw [hcc,hc] at hl
      exact hl
    · have hempty : children c' = empty :=
        eq_empty_of_notMem_occupied (hocc ▸ by simpa using hcc)
      rw [hempty] at hl
      cases hl
  · simp [hmk,leaves]

theorem canonical_mk (hlen : p.length < rootNibbleHeight)
    (h : ∀ c, (children c).Canonical (p ++ [c])) : (mk v children).Canonical p := by
  rcases mk_cases v children with ⟨-,hmk⟩ | ⟨c,w,l,-,hc,hmk⟩ | ⟨hb,hmk⟩
  · rw [hmk]
    trivial
  · have hl := h c
    rw [hc] at hl
    rw [hmk]
    exact (prefix_append p [c]).trans hl
  · rw [hmk]
    exact ⟨hlen,hb,h⟩

/-- A canonical shape with exactly the leaves of `W`. -/
structure CanonicalFor (p : List Nibble) (W : LeafNode H K → Prop) (t : Shape H K) : Prop where
  canonical : t.Canonical p
  leaves : ∀ l, l ∈ t.leaves ↔ W l

theorem CanonicalFor.congr {W W' : LeafNode H K → Prop} (h : t.CanonicalFor p W)
    (hW : ∀ l, W l ↔ W' l) : t.CanonicalFor p W' :=
  ⟨h.canonical,fun l => (h.leaves l).trans (hW l)⟩

theorem canonicalFor_put (h : p <+: kv.1.nibbles) :
    (put v kv).CanonicalFor p fun l => leafOf v kv = some l := by
  obtain ⟨key,_ | value⟩ := kv
  · exact ⟨trivial,fun l => by simp [put,Shape.leaves,leafOf]⟩
  · exact ⟨h,fun l => by simp [put,Shape.leaves,leafOf,eq_comm]⟩

theorem withLeaf_update (h : kv.1 = l.accountKey) : withLeaf v l n d [kv] = put v kv := by
  have hup : isUpdateOf l [kv] := decide_eq_true h
  cases n with
  | zero | succ n => rw [withLeaf,if_pos hup]; rfl

theorem written_update {l' : LeafNode H K}
    (h : kv.1 = l.accountKey) : Written v [kv] [l] l' ↔ leafOf v kv = some l' := by
  constructor
  · rintro (⟨kv',hkv,hl⟩ | ⟨hl,hkey⟩)
    · rwa [mem_singleton.mp hkv] at hl
    · rw [mem_singleton.mp hl] at hkey
      exact absurd (mem_singleton.mpr h.symm) hkey
  · exact fun hl => .inl ⟨kv,mem_singleton_self kv,hl⟩

theorem mem_keys_under {key : HashValue} (h : key.getNibble d = c) :
    key ∈ (kvs.under d c).map Prod.fst ↔ key ∈ kvs.map Prod.fst := by
  rw [mem_map,mem_map]
  constructor
  · exact fun ⟨kv,hkv,hkey⟩ => ⟨kv,(KeyValues.mem_under.mp hkv).1,hkey⟩
  · exact fun ⟨kv,hkv,hkey⟩ => ⟨kv,KeyValues.mem_under.mpr ⟨hkv,hkey ▸ h⟩,hkey⟩

theorem written_child (hl : l.accountKey.getNibble d = c) :
    Written v (kvs.under d c) old l ↔ Written v kvs old l := by
  refine or_congr ?_ (and_congr_right fun _ => not_congr (mem_keys_under hl))
  constructor
  · exact fun ⟨kv,hkv,h⟩ => ⟨kv,(KeyValues.mem_under.mp hkv).1,h⟩
  · exact fun ⟨kv,hkv,h⟩ => ⟨kv,KeyValues.mem_under.mpr ⟨hkv,by rw [← leafOf_key h,hl]⟩,h⟩

theorem written_nibble (h : Written v (kvs.under d c) old l)
    (hold : ∀ l ∈ old, l.accountKey.getNibble d = c) :
    l.accountKey.getNibble d = c := by
  rcases h with ⟨kv,hkv,hl⟩ | ⟨hl,-⟩
  · rw [leafOf_key hl]
    exact (KeyValues.mem_under.mp hkv).2
  · exact hold l hl

theorem exists_written_child {old : Nibble → List (LeafNode H K)}
    (hold : ∀ c, ∀ l ∈ old c, l.accountKey.getNibble d = c) (hall : ∀ l, l ∈ all ↔ ∃ c, l ∈ old c) :
    (∃ c, Written v (kvs.under d c) (old c) l) ↔ Written v kvs all l := by
  constructor
  · rintro ⟨c,h⟩
    have hnibble := written_nibble h (hold c)
    refine ((written_child hnibble).mp h).imp_right fun hl => ⟨?_,hl.2⟩
    exact (hall l).mpr ⟨c,hl.1⟩
  · intro h
    refine ⟨l.accountKey.getNibble d,(written_child rfl).mpr (h.imp_right fun hl => ⟨?_,hl.2⟩)⟩
    obtain ⟨c,hl⟩ := (hall l).mp hl.1
    rw [hold c l hl]
    exact hl

theorem canonicalFor_mk (old : Nibble → List (LeafNode H K)) (hlen : p.length < rootNibbleHeight)
    (hold : ∀ c, ∀ l ∈ old c, l.accountKey.getNibble p.length = c)
    (hall : ∀ l, l ∈ all ↔ ∃ c, l ∈ old c)
    (h : ∀ c, (children c).CanonicalFor (p ++ [c]) (Written v (kvs.under p.length c) (old c))) :
    (mk v children).CanonicalFor p (Written v kvs all) := by
  refine ⟨canonical_mk hlen fun c => (h c).canonical,fun l => mem_leaves_mk.trans ?_⟩
  exact Iff.trans (exists_congr fun c => (h c).leaves l) (exists_written_child hold hall)

theorem written_nil : Written v ([] : KeyValues H K) old l ↔ l ∈ old := by
  simp [Written]

theorem canonicalFor_single (hp : KeyValues.Placed p [kv]) :
    (put v kv).CanonicalFor p (Written v [kv] []) :=
  (canonicalFor_put (hp.under kv (mem_singleton_self kv))).congr fun l => by simp [Written]

theorem canonicalFor_build (hp : kvs.Placed p) (hlen : p.length + n = rootNibbleHeight) :
    (build v n p.length kvs).CanonicalFor p (Written v kvs []) := by
  induction n generalizing p kvs with
  | zero =>
    have hone := hp.length_le_one hlen
    rcases kvs with _ | ⟨kv,_ | ⟨_,_⟩⟩
    · exact ⟨trivial,fun l => by simp [build,leaves,Written]⟩
    · exact canonicalFor_single hp
    · exact absurd hone (by simp)
  | succ n ih =>
    by_cases hone : ∃ kv, kvs = [kv]
    · obtain ⟨kv,rfl⟩ := hone
      exact canonicalFor_single hp
    · have hlt : p.length < rootNibbleHeight := by omega
      rw [build_succ fun kv h => hone ⟨kv,h⟩]
      refine canonicalFor_mk (fun _ => []) hlt (by rintro _ _ ⟨⟩) (fun l => by simp) fun c => ?_
      have := ih (hp.child hlt c) (by rw [length_append]; simp; omega)
      rwa [length_append] at this

theorem canonicalFor_update (hp : kvs.Placed p) (hup : isUpdateOf l kvs) :
    (withLeaf v l n d kvs).CanonicalFor p (Written v kvs [l]) := by
  obtain ⟨kv,rfl,hkv⟩ := isUpdateOf_eq hup
  rw [withLeaf_update hkv]
  exact (canonicalFor_put (hp.under kv (mem_singleton_self kv))).congr fun l' =>
    (written_update hkv).symm

theorem canonicalFor_withLeaf (hp : kvs.Placed p) (hl : p <+: l.accountKey.nibbles)
    (hlen : p.length + n = rootNibbleHeight) :
    (withLeaf v l n p.length kvs).CanonicalFor p (Written v kvs [l]) := by
  induction n generalizing p kvs with
  | zero =>
    by_cases hup : isUpdateOf l kvs
    · exact canonicalFor_update hp hup
    · have hnil : kvs = [] := not_not.mp fun h => hup (isUpdateOf_of_full hp hl hlen h)
      rw [withLeaf,if_neg hup,hnil]
      exact ⟨hl,fun l' => written_nil.symm⟩
  | succ n ih =>
    by_cases hup : isUpdateOf l kvs
    · exact canonicalFor_update hp hup
    · have hlt : p.length < rootNibbleHeight := by omega
      have hpath : ∀ c : Nibble, (p ++ [c]).length = p.length + 1 := fun c => length_append
      have hold : ∀ c, ∀ l' ∈ (if l.accountKey.getNibble p.length = c then [l] else []),
          l'.accountKey.getNibble p.length = c := by
        intro c l' hl'
        split_ifs at hl' with hc
        · rw [mem_singleton.mp hl',hc]
        · cases hl'
      rw [withLeaf,if_neg hup]
      refine canonicalFor_mk _ hlt hold (fun l' => by simp) fun c => ?_
      split_ifs with hc hempty
      · rw [hempty]
        exact ⟨hc ▸ KeyValues.Placed.nibbles_child hl hlt,fun l' => written_nil.symm⟩
      · have := ih (hp.child hlt c) (hc ▸ KeyValues.Placed.nibbles_child hl hlt)
          (by rw [hpath]; omega)
        rwa [hpath] at this
      · have := canonicalFor_build (v := v) (n := n) (hp.child hlt c) (by rw [hpath]; omega)
        rwa [hpath] at this

theorem canonicalFor_insertAt (ht : t.Canonical p) (hp : kvs.Placed p)
    (hlen : p.length + n = rootNibbleHeight) :
    (insertAt v n p.length t kvs).CanonicalFor p (Written v kvs t.leaves) := by
  induction t generalizing n p kvs with
  | empty => rw [insertAt]; exact canonicalFor_build hp hlen
  | leaf w l => rw [insertAt]; exact canonicalFor_withLeaf hp ht hlen
  | internal w children ih =>
    cases n with
    | zero => exact absurd ht.1 (by omega)
    | succ n =>
      have hpath : ∀ c : Nibble, (p ++ [c]).length = p.length + 1 := fun c => length_append
      have hold : ∀ c, ∀ l ∈ (children c).leaves, l.accountKey.getNibble p.length = c :=
        fun c l hl => getNibble_of_under ((ht.2.2 c).under hl)
      rw [insertAt_internal]
      refine canonicalFor_mk _ ht.1 hold (fun l => by simp [leaves]) fun c => ?_
      rw [insertChildren]
      split_ifs with hc
      · rw [hc]
        exact ⟨ht.2.2 c,fun l => written_nil.symm⟩
      · have := ih c (n := n) (ht.2.2 c) (hp.child ht.1 c) (by rw [hpath]; omega)
        rwa [hpath] at this

end Shape

end Arx.JellyfishMerkle
