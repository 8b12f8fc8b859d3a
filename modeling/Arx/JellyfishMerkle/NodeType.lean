import Mathlib.Tactic

/-!
# Nodes of the Jellyfish Merkle tree

Keys as sequences of nibbles, the nodes with their sixteen-fold children and the hash of an internal
node, which is that of the four binary levels it stands for.
-/

namespace Arx.JellyfishMerkle

abbrev Nibble := Fin 16

instance Nibble.neZero : NeZero 16 := ⟨by decide⟩

def rootNibbleHeight : ℕ := 64

@[ext] structure HashValue where
  nibbles : List Nibble
  length_eq : nibbles.length = rootNibbleHeight
  deriving DecidableEq

def nibbleBit (c : Nibble) (j : ℕ) : Bool := c.val.testBit (3 - j)

namespace HashValue

variable (key : HashValue)

def getNibble (index : ℕ) : Nibble := key.nibbles.getD index 0

def bit (index : ℕ) : Bool := nibbleBit (key.getNibble (index / 4)) (index % 4)

def iterBits : List Bool := (List.range 256).map key.bit

def commonPrefixBitsLen (other : HashValue) : ℕ :=
  ((key.iterBits.zip other.iterBits).takeWhile fun p => p.1 == p.2).length

instance : LinearOrder HashValue :=
  LinearOrder.lift' HashValue.nibbles fun _ _ h => HashValue.ext h

end HashValue

/-- The hash functions of the nodes, with `SPARSE_MERKLE_PLACEHOLDER_HASH`. -/
structure Hasher (H : Type) where
  placeholder : H
  /-- `SparseMerkleInternalNode`. -/
  internal : H → H → H
  /-- `SparseMerkleLeafNode`, of a key and the hash of a value. -/
  leaf : HashValue → H → H

structure NodeKey where
  version : ℕ
  nibblePath : List Nibble
  deriving DecidableEq

namespace NodeKey

def newEmptyPath (version : ℕ) : NodeKey := ⟨version,[]⟩

def genChildNodeKey (key : NodeKey) (version : ℕ) (n : Nibble) : NodeKey :=
  ⟨version,key.nibblePath ++ [n]⟩

end NodeKey

inductive NodeType where
  | leaf
  | null
  | internal (leafCount : ℕ)
  deriving DecidableEq

structure Child (H : Type) where
  hash : H
  version : ℕ
  nodeType : NodeType
  deriving DecidableEq

variable {H K : Type}

namespace Child

def isLeaf (child : Child H) : Bool :=
  match child.nodeType with
  | .leaf => true
  | .null => false
  | .internal _ => false

/-- A child is never `Null`. -/
def leafCount (child : Child H) : ℕ :=
  match child.nodeType with
  | .leaf => 1
  | .null => 0
  | .internal leafCount => leafCount

end Child

abbrev Children (H : Type) := Nibble → Option (Child H)

namespace Children

variable (children : Children H)

def existence : List Nibble :=
  (List.finRange 16).filter fun c => (children c).isSome

def leaves : List Nibble :=
  (List.finRange 16).filter fun c => (children c).any Child.isLeaf

def len : ℕ := children.existence.length

def leafCount : ℕ :=
  ((List.finRange 16).map fun c => ((children c).map Child.leafCount).getD 0).sum

abbrev Bitmaps := List Nibble × List Nibble

def generateBitmaps : Bitmaps := (children.existence,children.leaves)

def inRange (start width : ℕ) (c : Nibble) : Bool := start ≤ c.val ∧ c.val < start + width

def rangeBitmaps (start width : ℕ) (bitmaps : Bitmaps) : Bitmaps :=
  (bitmaps.1.filter (inRange start width),bitmaps.2.filter (inRange start width))

def hashAt (hs : Hasher H) (children : Children H) (c : Nibble) : H :=
  ((children c).map Child.hash).getD hs.placeholder

/-- The hash of the subtree of the children from `start` on, `2 ^ height` of them. -/
def merkleHash (hs : Hasher H) (children : Children H) : ℕ → ℕ → Bitmaps → H
  | 0, start, bitmaps =>
    match (rangeBitmaps start 1 bitmaps).1 with
    | [] => hs.placeholder
    | c :: _ => children.hashAt hs c
  | height + 1, start, bitmaps =>
    let range := rangeBitmaps start (2 ^ (height + 1)) bitmaps
    match range.1 with
    | [] => hs.placeholder
    | c :: rest =>
      if rest = [] ∧ range.2 ≠ [] then children.hashAt hs c
      else hs.internal (merkleHash hs children height start range)
        (merkleHash hs children height (start + 2 ^ height) range)

end Children

structure InternalNode (H : Type) where
  children : Children H
  leafCount : ℕ

def InternalNode.hash (hs : Hasher H) (node : InternalNode H) : H :=
  node.children.merkleHash hs 4 0 node.children.generateBitmaps

structure LeafNode (H K : Type) where
  accountKey : HashValue
  valueHash : H
  valueIndex : K × ℕ
  deriving DecidableEq

def LeafNode.hash (hs : Hasher H) (leaf : LeafNode H K) : H :=
  hs.leaf leaf.accountKey leaf.valueHash

inductive Node (H K : Type) where
  | internal (node : InternalNode H)
  | leaf (node : LeafNode H K)
  | null

namespace Node

def isLeaf : Node H K → Bool
  | internal _ => false
  | leaf _ => true
  | null => false

def nodeType : Node H K → NodeType
  | internal node => .internal node.leafCount
  | leaf _ => .leaf
  | null => .null

def leafCount : Node H K → ℕ
  | internal node => node.leafCount
  | leaf _ => 1
  | null => 0

def hash (hs : Hasher H) : Node H K → H
  | internal node => node.hash hs
  | leaf node => node.hash hs
  | null => hs.placeholder

end Node

/-- The errors of the tree, and its panics. -/
inductive TreeError where
  /-- "Missing node at {:?}." -/
  | missingNode (key : NodeKey)
  /-- `MissingRootError`, "Missing state root node at version {version}, probably pruned." -/
  | missingRoot (version : ℕ)
  /-- "Root node not found for version {}." -/
  | rootNotFound (version : ℕ)
  /-- "Null node can only exist at depth 0". -/
  | nullNodeBelowRoot
  /-- "Children must not be empty". -/
  | noChildren
  /-- "If there's only one child, it must not be a leaf." -/
  | onlyChildLeaf
  /-- "Child cannot be Null". -/
  | nullChild
  /-- "{:?} can not be found in hash cache". -/
  | notInHashCache (key : NodeKey)
  /-- "ran out of nibbles", and the assertions on the depth. -/
  | outOfNibbles
  /-- "Corrupted internal node: in-memory leaf child is internal node on disk". -/
  | corrupted
  /-- "Jellyfish Merkle tree has cyclic graph inside." -/
  | cyclic
  deriving DecidableEq

def InternalNode.new (children : Children H) : Except TreeError (InternalNode H) :=
  if children.existence = [] then .error .noChildren
  else if children.len = 1 ∧ children.leaves ≠ [] then .error .onlyChildLeaf
  else if children.existence.any fun c => (children c).any fun child => child.nodeType = .null
  then .error .nullChild
  else .ok ⟨children,children.leafCount⟩

/-- A sibling in a proof; leaves are given in full. -/
inductive NodeInProof (H : Type) where
  | leaf (key : HashValue) (valueHash : H)
  | other (hash : H)

def NodeInProof.hash (hs : Hasher H) : NodeInProof H → H
  | leaf key valueHash => hs.leaf key valueHash
  | other hash => hash

abbrev Store (H K : Type) := NodeKey → Option (Node H K)

def Store.getNode (store : Store H K) (key : NodeKey) : Except TreeError (Node H K) :=
  match store key with
  | some node => .ok node
  | none => .error (.missingNode key)

namespace InternalNode

variable (n : Nibble) (height : ℕ) (hs : Hasher H) (store : Store H K)

/-- The only child of a range, in full if it is a leaf. -/
def onlyChildInProof (children : Children H) (nodeKey : NodeKey) (hs : Hasher H) (c : Nibble) :
    Except TreeError (NodeInProof H) :=
  match children c with
  | none => .error .corrupted
  | some child =>
    if child.isLeaf then do
      match ← store.getNode (nodeKey.genChildNodeKey child.version c) with
      | .internal _ => .error .corrupted
      | .leaf leaf => pure (.leaf leaf.accountKey leaf.valueHash)
      | .null => .error .nullChild
    else .ok (.other (children.hashAt hs c))

def genNodeInProof (children : Children H) (nodeKey : NodeKey) (height start : ℕ)
    (bitmaps : Children.Bitmaps) : Except TreeError (NodeInProof H) :=
  let range := Children.rangeBitmaps start (2 ^ height) bitmaps
  match range.1 with
  | [] => .ok (.other hs.placeholder)
  | c :: rest =>
    if height = 0 ∨ rest = [] ∧ range.2 ≠ [] then onlyChildInProof store children nodeKey hs c
    else .ok (.other (hs.internal (children.merkleHash hs (height - 1) start range)
      (children.merkleHash hs (height - 1) (start + 2 ^ (height - 1)) range)))

def childHalfStart : ℕ := n.val / 2 ^ height * 2 ^ height

def siblingHalfStart : ℕ := childHalfStart n height ^^^ 2 ^ height

def childWithSiblings (hs : Hasher H) (store : Store H K) (children : Children H)
    (nodeKey : NodeKey) (n : Nibble) :
    ℕ → List (NodeInProof H) → Except TreeError (Option NodeKey × List (NodeInProof H))
  | 0, _ => .error .corrupted
  | height + 1, siblings => do
    let bitmaps := children.generateBitmaps
    let sibling ← genNodeInProof hs store children nodeKey height (siblingHalfStart n height) bitmaps
    let range := Children.rangeBitmaps (childHalfStart n height) (2 ^ height) bitmaps
    match range.1 with
    | [] => pure (none,siblings ++ [sibling])
    | c :: rest =>
      if height = 0 ∨ rest = [] ∧ range.2 ≠ [] then
        match children c with
        | none => .error .corrupted
        | some child =>
          pure (some (nodeKey.genChildNodeKey child.version c),siblings ++ [sibling])
      else childWithSiblings hs store children nodeKey n height (siblings ++ [sibling])

def getChildWithSiblings (node : InternalNode H) (nodeKey : NodeKey) (n : Nibble) :
    Except TreeError (Option NodeKey × List (NodeInProof H)) :=
  childWithSiblings hs store node.children nodeKey n 4 []

end InternalNode

end Arx.JellyfishMerkle
