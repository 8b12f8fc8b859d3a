import Arx.JellyfishMerkle.NodeType
import Arx.Movelib.Column
import Arx.Movelib.Except

/-!
# `JellyfishMerkleTree`

Batched updates of the tree at a version, with the nodes they create and the stale ones they leave
behind, and the reading of values with their proofs.
-/

namespace Arx.JellyfishMerkle
open Movelib

variable {H K : Type}

structure StaleNodeIndex where
  staleSinceVersion : ℕ
  nodeKey : NodeKey
  deriving DecidableEq

structure TreeUpdateBatch (H K : Type) where
  nodeBatch : List (NodeKey × Node H K)
  staleNodeIndexBatch : List StaleNodeIndex

namespace TreeUpdateBatch

def new : TreeUpdateBatch H K := ⟨[],[]⟩

instance : Inhabited (TreeUpdateBatch H K) := ⟨new⟩

def combine (batch other : TreeUpdateBatch H K) : TreeUpdateBatch H K :=
  ⟨batch.nodeBatch ++ other.nodeBatch,batch.staleNodeIndexBatch ++ other.staleNodeIndexBatch⟩

def combineAll (batches : List (TreeUpdateBatch H K)) : TreeUpdateBatch H K :=
  batches.foldl combine new

def putNodes (batch : TreeUpdateBatch H K) (nodes : List (NodeKey × Node H K)) :
    TreeUpdateBatch H K :=
  { batch with nodeBatch := batch.nodeBatch ++ nodes }

def putStaleNode (batch : TreeUpdateBatch H K) (key : NodeKey) (version : ℕ) :
    TreeUpdateBatch H K :=
  { batch with staleNodeIndexBatch := batch.staleNodeIndexBatch ++ [⟨version,key⟩] }

end TreeUpdateBatch

abbrev KeyValues (H K : Type) := List (HashValue × Option (H × K))

namespace KeyValues

variable (kvs : KeyValues H K)

def nibbleAt (nibbleIdx pos : ℕ) : Nibble :=
  match kvs[pos]? with
  | some kv => kv.1.getNibble nibbleIdx
  | none => 0

def lastOfNibble (kvs : KeyValues H K) (nibbleIdx : ℕ) (curNibble : Nibble) : ℕ → ℕ → ℕ → ℕ
  | 0, i, _ => i
  | fuel + 1, i, j =>
    if i < j then
      let mid := j - (j - i) / 2
      if kvs.nibbleAt nibbleIdx mid > curNibble
      then lastOfNibble kvs nibbleIdx curNibble fuel i (mid - 1)
      else lastOfNibble kvs nibbleIdx curNibble fuel mid j
    else i

def nibbleRangesFrom (kvs : KeyValues H K) (nibbleIdx : ℕ) : ℕ → ℕ → List (ℕ × ℕ)
  | 0, _ => []
  | fuel + 1, left =>
    if left < kvs.length then
      let right := lastOfNibble kvs nibbleIdx (kvs.nibbleAt nibbleIdx left) kvs.length left
        (kvs.length - 1)
      (left,right) :: nibbleRangesFrom kvs nibbleIdx fuel (right + 1)
    else []

def nibbleRanges (nibbleIdx : ℕ) : List (ℕ × ℕ) :=
  kvs.nibbleRangesFrom nibbleIdx kvs.length 0

def slice (range : ℕ × ℕ) : KeyValues H K :=
  (kvs.drop range.1).take (range.2 - range.1 + 1)

/-- The collection into an ordered map: later entries replace earlier ones. -/
def dedupedAndSorted (valueSet : KeyValues H K) : KeyValues H K :=
  (valueSet.foldl (fun c kv => c.put kv.1 kv.2)
    (.empty : Column (id : HashValue → HashValue) (Option (H × K)))).rows

end KeyValues

abbrev HashCache (H : Type) := List Nibble → Option H

/-- An update may yield a node for the place it is about, and has put others into its batch. -/
abbrev Updated (H K : Type) := Option (Node H K) × TreeUpdateBatch H K

section Update

variable (hs : Hasher H) (hashCache : Option (HashCache H)) (version : ℕ)

def getHash (key : NodeKey) (node : Node H K) : Except TreeError H :=
  match hashCache with
  | some cache =>
    match cache key.nibblePath with
    | some hash => .ok hash
    | none => .error (.notInHashCache key)
  | none => .ok (node.hash hs)

def createInternal (nodeKey : NodeKey) (oldChildren : Children H)
    (newChildren : List (Nibble × Node H K)) (batch : TreeUpdateBatch H K) :
    Except TreeError (Updated H K) := do
  let created ← newChildren.mapM fun child => do
    let hash ← getHash hs hashCache (nodeKey.genChildNodeKey version child.1) child.2
    pure (child.1,(⟨hash,version,child.2.nodeType⟩ : Child H))
  let node ← InternalNode.new (created.foldl
    (fun children child => Function.update children child.1 (some child.2)) oldChildren)
  pure (some (.internal node),batch.putNodes
    (newChildren.map fun child => (nodeKey.genChildNodeKey version child.1,child.2)))

/-- The end of the update of a subtree: a single leaf moves up. -/
def finishSubtree (nodeKey : NodeKey) (children : List (Nibble × Node H K))
    (batch : TreeUpdateBatch H K) : Except TreeError (Updated H K) :=
  match children with
  | [] => pure (none,batch)
  | [(c,child)] =>
    if child.isLeaf then pure (some child,batch)
    else createInternal hs hashCache version nodeKey (fun _ => none) [(c,child)] batch
  | children => createInternal hs hashCache version nodeKey (fun _ => none) children batch

def newLeaf (kv : HashValue × Option (H × K)) : Option (Node H K) :=
  kv.2.map fun value => .leaf ⟨kv.1,value.1,(value.2,version)⟩

abbrev ChildUpdates (H K : Type) := List (Nibble × Option (Node H K) × TreeUpdateBatch H K)

namespace ChildUpdates

def nodes (updates : ChildUpdates H K) : List (Nibble × Node H K) :=
  updates.filterMap fun u => u.2.1.map fun node => (u.1,node)

def batch (updates : ChildUpdates H K) : TreeUpdateBatch H K :=
  .combineAll (updates.map fun u => u.2.2)

end ChildUpdates

/-- The loop over the ranges of the keys by their nibble at a depth. -/
def forRanges (kvs : KeyValues H K) (depth : ℕ)
    (update : Nibble → KeyValues H K → Except TreeError (Updated H K)) :
    Except TreeError (ChildUpdates H K) :=
  (kvs.nibbleRanges depth).mapM fun range => do
    let childIndex := kvs.nibbleAt depth range.1
    let updated ← update childIndex (kvs.slice range)
    pure (childIndex,updated)

def batchUpdateSubtree : ℕ → NodeKey → KeyValues H K → ℕ → Except TreeError (Updated H K)
  | _, _, [kv], _ => pure (newLeaf version kv,.new)
  | 0, _, _, _ => .error .outOfNibbles
  | height + 1, nodeKey, kvs, depth => do
    let updates ← forRanges kvs depth fun childIndex kvs =>
      batchUpdateSubtree height (nodeKey.genChildNodeKey version childIndex) kvs (depth + 1)
    finishSubtree hs hashCache version nodeKey updates.nodes updates.batch

def isUpdateOf (leaf : LeafNode H K) : KeyValues H K → Bool
  | [kv] => kv.1 = leaf.accountKey
  | _ => false

def batchUpdateSubtreeWithExistingLeaf (leaf : LeafNode H K) :
    ℕ → NodeKey → KeyValues H K → ℕ → Except TreeError (Updated H K)
  | 0, _, kvs, _ =>
    if isUpdateOf leaf kvs then pure (kvs.head?.bind (newLeaf version),.new)
    else .error .outOfNibbles
  | height + 1, nodeKey, kvs, depth =>
    if isUpdateOf leaf kvs then pure (kvs.head?.bind (newLeaf version),.new)
    else do
      let bucket := leaf.accountKey.getNibble depth
      let updates ← forRanges kvs depth fun childIndex kvs =>
        if bucket = childIndex then
          batchUpdateSubtreeWithExistingLeaf leaf height
            (nodeKey.genChildNodeKey version childIndex) kvs (depth + 1)
        else
          batchUpdateSubtree hs hashCache version height
            (nodeKey.genChildNodeKey version childIndex) kvs (depth + 1)
      let isolated := !(updates.any fun u => bucket = u.1)
      finishSubtree hs hashCache version nodeKey
        (updates.nodes ++ if isolated then [(bucket,.leaf leaf)] else []) updates.batch

def withoutEmptied (children : Children H) (updates : ChildUpdates H K) : Children H :=
  updates.foldl
    (fun children u => if u.2.1.isNone then Function.update children u.1 none else children) children

variable (store : Store H K)

/-- The end of the update of an internal node: if one leaf is left it moves up. -/
def finishInternal (nodeKey : NodeKey) (oldChildren : Children H)
    (newChildren : List (Nibble × Node H K)) (batch : TreeUpdateBatch H K) :
    Except TreeError (Updated H K) :=
  let rebuild := createInternal hs hashCache version nodeKey oldChildren newChildren batch
  match oldChildren.existence, newChildren with
  | [], [] => pure (none,batch)
  | [oldNibble], [(newNibble,newChild)] =>
    if oldNibble = newNibble ∧ newChild.isLeaf then pure (some newChild,batch) else rebuild
  | [], [(_,newChild)] => if newChild.isLeaf then pure (some newChild,batch) else rebuild
  | [oldNibble], [] =>
    match oldChildren oldNibble with
    | none => .error .corrupted
    | some oldChild =>
      if oldChild.isLeaf then do
        let oldChildNodeKey := nodeKey.genChildNodeKey oldChild.version oldNibble
        let oldChildNode ← store.getNode oldChildNodeKey
        pure (some oldChildNode,batch.putStaleNode oldChildNodeKey version)
      else rebuild
  | _, _ => rebuild

/-- The update of a node that has been read, with the update of the children one level below. -/
def updateNode (height : ℕ) (nodeKey : NodeKey) (kvs : KeyValues H K) (depth : ℕ)
    (insertAtChild : InternalNode H → Nibble → KeyValues H K → Except TreeError (Updated H K)) :
    Node H K → Except TreeError (Updated H K)
  | .internal internalNode => do
    let updates ← forRanges kvs depth (insertAtChild internalNode)
    finishInternal hs hashCache version store nodeKey
      (withoutEmptied internalNode.children updates) updates.nodes updates.batch
  | .leaf leaf =>
    batchUpdateSubtreeWithExistingLeaf hs hashCache version leaf height nodeKey kvs depth
  | .null => do
    check (depth = 0) .nullNodeBelowRoot
    batchUpdateSubtree hs hashCache version height nodeKey kvs 0

def batchInsertAt (store : Store H K) :
    ℕ → NodeKey → KeyValues H K → ℕ → Except TreeError (Updated H K)
  | 0, nodeKey, kvs, depth => do
    let node ← store.getNode nodeKey
    let updated ← updateNode hs hashCache version store 0 nodeKey kvs depth
      (fun _ _ _ => .error .outOfNibbles) node
    pure (updated.1,(TreeUpdateBatch.new.putStaleNode nodeKey version).combine updated.2)
  | height + 1, nodeKey, kvs, depth => do
    let node ← store.getNode nodeKey
    let updated ← updateNode hs hashCache version store (height + 1) nodeKey kvs depth
      (fun internalNode childIndex kvs =>
        match internalNode.children childIndex with
        | some child => batchInsertAt store height
            (nodeKey.genChildNodeKey child.version childIndex) kvs (depth + 1)
        | none => batchUpdateSubtree hs hashCache version height
            (nodeKey.genChildNodeKey version childIndex) kvs (depth + 1)) node
    pure (updated.1,(TreeUpdateBatch.new.putStaleNode nodeKey version).combine updated.2)

def batchPutValueSet (valueSet : KeyValues H K) (persistedVersion : Option ℕ) :
    Except TreeError (H × TreeUpdateBatch H K) := do
  let kvs := valueSet.dedupedAndSorted
  let updated ←
    match persistedVersion with
    | some persistedVersion =>
      batchInsertAt hs hashCache version store rootNibbleHeight (.newEmptyPath persistedVersion) kvs 0
    | none =>
      batchUpdateSubtree hs hashCache version rootNibbleHeight (.newEmptyPath version) kvs 0
  let nodeKey := NodeKey.newEmptyPath version
  match updated.1 with
  | some root => pure (root.hash hs,updated.2.putNodes [(nodeKey,root)])
  | none => pure (hs.placeholder,updated.2.putNodes [(nodeKey,.null)])

end Update

section Read

variable (hs : Hasher H) (store : Store H K)

structure SparseMerkleProofExt (H : Type) where
  leaf : Option (HashValue × H)
  siblings : List (NodeInProof H)

def getWithProofFrom (key : HashValue) (version : ℕ) :
    ℕ → ℕ → NodeKey → List (NodeInProof H) →
      Except TreeError (Option (H × (K × ℕ)) × SparseMerkleProofExt H)
  | 0, _, _, _ => .error .cyclic
  | fuel + 1, nibbleDepth, nodeKey, siblings => do
    let node ← (store.getNode nodeKey).mapError fun err =>
      if nibbleDepth = 0 then .missingRoot version else err
    match node with
    | .internal internalNode => do
      check (nibbleDepth < rootNibbleHeight) .outOfNibbles
      let child ← internalNode.getChildWithSiblings hs store nodeKey (key.getNibble nibbleDepth)
      match child.1 with
      | some childKey =>
        getWithProofFrom key version fuel (nibbleDepth + 1) childKey (siblings ++ child.2)
      | none => pure (none,⟨none,(siblings ++ child.2).reverse⟩)
    | .leaf leaf =>
      pure (if leaf.accountKey = key then some (leaf.valueHash,leaf.valueIndex) else none,
        ⟨some (leaf.accountKey,leaf.valueHash),siblings.reverse⟩)
    | .null => pure (none,⟨none,[]⟩)

def getWithProofExt (key : HashValue) (version : ℕ) :
    Except TreeError (Option (H × (K × ℕ)) × SparseMerkleProofExt H) :=
  getWithProofFrom hs store key version (rootNibbleHeight + 1) 0 (.newEmptyPath version) []

/-- Siblings are ordered from the bottom level to the root level. -/
structure SparseMerkleProof (H : Type) where
  leaf : Option (HashValue × H)
  siblings : List H

def SparseMerkleProofExt.toProof (proof : SparseMerkleProofExt H) : SparseMerkleProof H :=
  ⟨proof.leaf,proof.siblings.map (NodeInProof.hash hs)⟩

def getWithProof (key : HashValue) (version : ℕ) :
    Except TreeError (Option (H × (K × ℕ)) × SparseMerkleProof H) := do
  let (value,proof) ← getWithProofExt hs store key version
  pure (value,proof.toProof hs)

variable (version : ℕ)

def getRootNode : Except TreeError (Node H K) :=
  match store (.newEmptyPath version) with
  | some node => .ok node
  | none => .error (.rootNotFound version)

def getRootHash : Except TreeError H :=
  (getRootNode store version).map (Node.hash hs)

def getLeafCount : Except TreeError ℕ :=
  (getRootNode store version).map Node.leafCount

/-- The keys below come before that of the node itself. -/
def allNodesReferencedFrom : ℕ → NodeKey → Except TreeError (List NodeKey)
  | 0, key => do
    match ← store.getNode key with
    | .internal _ => .error .outOfNibbles
    | .leaf _ => pure [key]
    | .null => pure [key]
  | height + 1, key => do
    match ← store.getNode key with
    | .internal internalNode =>
      let below ← internalNode.children.existence.mapM fun c =>
        match internalNode.children c with
        | some child => allNodesReferencedFrom height (key.genChildNodeKey child.version c)
        | none => .error .corrupted
      pure (below.flatten ++ [key])
    | .leaf _ => pure [key]
    | .null => pure [key]

def getAllNodesReferenced : Except TreeError (List NodeKey) :=
  allNodesReferencedFrom store rootNibbleHeight (.newEmptyPath version)

end Read

inductive ProofError where
  /-- "Sparse Merkle Tree proof has more than {} ({}) siblings." -/
  | tooManySiblings
  /-- "Keys do not match." -/
  | keysDoNotMatch
  /-- "Value hashes do not match for key {:x}." -/
  | valueHashesDoNotMatch
  /-- "Expected inclusion proof, value hash: {:x}. Found non-inclusion proof." -/
  | expectedInclusion
  /-- "Expected non-inclusion proof, but key exists in proof." -/
  | keyExists
  /-- "Key would not have ended up in the subtree where the provided key in proof is the only existing
  key, if it existed." -/
  | otherSubtree
  /-- "Root hashes do not match." -/
  | rootHashesDoNotMatch
  deriving DecidableEq

namespace SparseMerkleProof

def checkLeaf [DecidableEq H] (proof : SparseMerkleProof H) (elementKey : HashValue) :
    Option H → Except ProofError Unit
  | some hash =>
    match proof.leaf with
    | some leaf => do
      check (elementKey = leaf.1) .keysDoNotMatch
      check (hash = leaf.2) .valueHashesDoNotMatch
    | none => .error .expectedInclusion
  | none =>
    match proof.leaf with
    | some leaf => do
      check (elementKey ≠ leaf.1) .keyExists
      check (elementKey.commonPrefixBitsLen leaf.1 ≥ proof.siblings.length) .otherSubtree
    | none => .ok ()

def actualRootHash (hs : Hasher H) (proof : SparseMerkleProof H) (elementKey : HashValue) : H :=
  (proof.siblings.zip (elementKey.iterBits.reverse.drop (256 - proof.siblings.length))).foldl
    (fun hash p => if p.2 then hs.internal p.1 hash else hs.internal hash p.1)
    (match proof.leaf with
      | some leaf => hs.leaf leaf.1 leaf.2
      | none => hs.placeholder)

def verifyByHash [DecidableEq H] (hs : Hasher H) (proof : SparseMerkleProof H) (expectedRootHash : H)
    (elementKey : HashValue) (elementHash : Option H) : Except ProofError Unit := do
  check (proof.siblings.length ≤ 256) .tooManySiblings
  proof.checkLeaf elementKey elementHash
  check (proof.actualRootHash hs elementKey = expectedRootHash) .rootHashesDoNotMatch

end SparseMerkleProof

end Arx.JellyfishMerkle
