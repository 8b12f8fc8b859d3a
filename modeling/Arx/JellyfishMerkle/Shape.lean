import Arx.JellyfishMerkle.Ranges
import Arx.Movelib.Bytes

/-!
# The shape of a stored tree

Each node carries the version of the key it is stored under. An update of the shape is what the
batched update of the store amounts to.
-/

namespace Arx.JellyfishMerkle
open Movelib List Option

variable {H K : Type}

inductive Shape (H K : Type) where
  | empty
  | leaf (version : ℕ) (node : LeafNode H K)
  | internal (version : ℕ) (children : Nibble → Shape H K)

namespace Shape

def version : Shape H K → ℕ
  | empty => 0
  | leaf version _ => version
  | internal version _ => version

def isEmpty : Shape H K → Bool
  | empty => true
  | leaf _ _ => false
  | internal _ _ => false

def isLeaf : Shape H K → Bool
  | empty => false
  | leaf _ _ => true
  | internal _ _ => false

def node (hs : Hasher H) : Shape H K → Option (Node H K)
  | empty => none
  | leaf _ node => some (.leaf node)
  | internal _ children =>
    let entries : Children H := fun c =>
      ((children c).node hs).map fun node => ⟨node.hash hs,(children c).version,node.nodeType⟩
    some (.internal ⟨entries,entries.leafCount⟩)

def childrenOf (hs : Hasher H) (children : Nibble → Shape H K) : Children H := fun c =>
  ((children c).node hs).map fun node => ⟨node.hash hs,(children c).version,node.nodeType⟩

def internalOf (hs : Hasher H) (children : Nibble → Shape H K) : InternalNode H :=
  ⟨childrenOf hs children,(childrenOf hs children).leafCount⟩

def entries (hs : Hasher H) : Shape H K → List Nibble → List (NodeKey × Node H K)
  | empty, _ => []
  | leaf version node, path => [(⟨version,path⟩,.leaf node)]
  | internal version children, path =>
    (⟨version,path⟩,.internal (internalOf hs children)) ::
      (List.finRange 16).flatMap fun c => (children c).entries hs (path ++ [c])

def inner (hs : Hasher H) (path : List Nibble) : Shape H K → List (NodeKey × Node H K)
  | empty => []
  | leaf _ _ => []
  | internal _ children => (List.finRange 16).flatMap fun c => (children c).entries hs (path ++ [c])

def occupied (children : Nibble → Shape H K) : List Nibble :=
  (List.finRange 16).filter fun c => !(children c).isEmpty

/-- An internal node over children, unless there is none or only a leaf, which then moves up. -/
def mk (version : ℕ) (children : Nibble → Shape H K) : Shape H K :=
  match occupied children with
  | [] => empty
  | [c] =>
    match children c with
    | leaf _ node => leaf version node
    | empty => empty
    | internal _ _ => internal version children
  | _ :: _ :: _ => internal version children

def Branches (children : Nibble → Shape H K) : Prop :=
  occupied children ≠ [] ∧ ∀ c, occupied children = [c] → ¬ (children c).isLeaf

variable {hs : Hasher H} {children : Nibble → Shape H K} {v : ℕ} {c : Nibble} {t : Shape H K}
  {p : List Nibble}

@[simp] theorem node_empty : (empty : Shape H K).node hs = none := rfl

@[simp] theorem node_leaf {l : LeafNode H K} : (leaf v l).node hs = some (.leaf l) := rfl

theorem node_internal : (internal v children).node hs = some (.internal (internalOf hs children)) :=
  rfl

theorem node_isSome : (t.node hs).isSome = !t.isEmpty := by
  cases t <;> rfl

theorem node_eq_none (h : t.node hs = none) : t = empty := by
  cases t with
  | empty => rfl
  | leaf w l | internal w children => cases h

theorem isLeaf_node {n : Node H K} (h : t.node hs = some n) : n.isLeaf = t.isLeaf := by
  cases t with
  | empty => cases h
  | leaf w l | internal w children => rw [← some.inj h]; rfl

theorem nodeType_ne_null {n : Node H K} (h : t.node hs = some n) : n.nodeType ≠ .null := by
  cases t with
  | empty => cases h
  | leaf w l | internal w children => rw [← some.inj h]; exact nofun

theorem mem_occupied : c ∈ occupied children ↔ children c ≠ empty := by
  rw [occupied,mem_filter]
  cases h : children c <;> simp [isEmpty]

theorem eq_empty_of_notMem_occupied (h : c ∉ occupied children) : children c = empty :=
  not_not.mp fun hc => h (mem_occupied.mpr hc)

theorem eq_empty_of_occupied (h : occupied children = []) (c : Nibble) : children c = empty :=
  eq_empty_of_notMem_occupied (h ▸ not_mem_nil)

theorem occupied_nodup : (occupied children).Nodup := (nodup_finRange 16).filter _

theorem mk_cases (v : ℕ) (children : Nibble → Shape H K) :
    (occupied children = [] ∧ mk v children = empty) ∨
    (∃ c w l, occupied children = [c] ∧ children c = leaf w l ∧ mk v children = leaf v l) ∨
    (Branches children ∧ mk v children = internal v children) := by
  rw [mk]
  match hocc : occupied children with
  | [] => exact .inl ⟨rfl,rfl⟩
  | [c] =>
    have hc := mem_occupied.mp (hocc ▸ mem_singleton_self c)
    match hch : children c with
    | empty => exact absurd hch hc
    | leaf w l => exact .inr (.inl ⟨c,w,l,rfl,hch,by simp only [hch]⟩)
    | internal w grand =>
      refine .inr (.inr ⟨⟨hocc ▸ nofun,fun c' hc' => ?_⟩,by simp only [hch]⟩)
      obtain rfl : c = c' := singleton_inj.mp (hocc.symm.trans hc')
      rw [hch]
      exact nofun
  | c :: c' :: rest =>
    exact .inr (.inr ⟨⟨hocc ▸ nofun,fun _ h => absurd (hocc.symm.trans h) nofun⟩,rfl⟩)

theorem entries_eq : t.entries hs p =
    ((t.node hs).map fun node => (⟨t.version,p⟩,node)).toList ++ t.inner hs p := by
  cases t <;> rfl

theorem childrenOf_eq_none : childrenOf hs children c = none ↔ children c = empty := by
  rw [childrenOf,map_eq_none_iff]
  exact ⟨node_eq_none,fun h => by rw [h]; rfl⟩

theorem existence_childrenOf : (childrenOf hs children).existence = occupied children := by
  refine filter_congr fun c _ => ?_
  rw [childrenOf,isSome_map,node_isSome]

theorem leaves_childrenOf :
    (childrenOf hs children).leaves = (List.finRange 16).filter fun c => (children c).isLeaf := by
  refine List.filter_congr fun c _ => ?_
  rw [childrenOf]
  cases hc : children c <;> rfl

theorem new_childrenOf (hb : Branches children) :
    InternalNode.new (childrenOf hs children) = .ok (internalOf hs children) := by
  rw [InternalNode.new,existence_childrenOf,if_neg hb.1,if_neg,if_neg]
  · rfl
  · rw [List.any_eq_true]
    rintro ⟨c,-,hc⟩
    rw [childrenOf,Option.any_map,Option.any_eq_true] at hc
    obtain ⟨n,hn,htype⟩ := hc
    exact nodeType_ne_null hn (of_decide_eq_true htype)
  · rintro ⟨hlen,hleaves⟩
    rw [Children.len,existence_childrenOf,length_eq_one_iff] at hlen
    obtain ⟨c,hc⟩ := hlen
    obtain ⟨c',hc'⟩ := exists_mem_of_ne_nil _ hleaves
    rw [leaves_childrenOf,mem_filter] at hc'
    have hocc : c' ∈ occupied children := by
      rw [mem_occupied]
      intro hempty
      rw [hempty] at hc'
      exact absurd hc'.2 nofun
    obtain rfl : c' = c := by simpa [hc] using hocc
    exact hb.2 c' hc hc'.2

end Shape

end Arx.JellyfishMerkle
