import Arx.JellyfishMerkle.Versions

/-!
# Reading with proofs, and their soundness

What `get_with_proof` returns from a stored canonical tree: the leaf of the key, if there is one,
and siblings that climb back to the root of the tree. A proof that is accepted for the root of a map
says of a key what the map says, whoever made the proof.
-/

namespace Arx.JellyfishMerkle
open Movelib List InternalNode SparseMerkle

variable {H K : Type} {known : Option (HashValue × H)} {c : Nibble}

namespace Shape

variable {hs : Hasher H} {store : Store H K} {p : List Nibble} {t : Shape H K}
  {children : Nibble → Shape H K} {w : ℕ} {h : ℕ} {key : HashValue} {l : LeafNode H K}
  {s : List (NodeInProof H)}

theorem onlyChildInProof_ok (hc : children c ≠ empty)
    (hstored : (children c).Stored hs store (p ++ [c])) :
    ∃ s, onlyChildInProof store (childrenOf hs children) ⟨w,p⟩ hs c = .ok s ∧
      s.hash hs = (childrenOf hs children).hashAt hs c := by
  obtain ⟨node,hnode,hentry⟩ := exists_node hs hc
  have hhash : (childrenOf hs children).hashAt hs c = node.hash hs := by
    rw [Children.hashAt,hentry]
    rfl
  rw [onlyChildInProof,hentry,hhash]
  cases hch : children c with
  | empty => exact absurd hch hc
  | leaf w' l =>
    rw [hch] at hnode hstored
    cases hnode
    have hread : store.getNode (NodeKey.genChildNodeKey ⟨w,p⟩ w' c) = .ok (.leaf l) :=
      hstored.read rfl
    refine ⟨.leaf l.accountKey l.valueHash,?_,rfl⟩
    change (store.getNode (NodeKey.genChildNodeKey ⟨w,p⟩ w' c) >>= _) = _
    rw [hread]
    rfl
  | internal w' grand =>
    rw [hch] at hnode
    cases hnode
    exact ⟨_,rfl,rfl⟩

theorem genNodeInProof_ok (w h start : ℕ)
    (hstored : ∀ c, (children c).Stored hs store (p ++ [c])) :
    ∃ s, genNodeInProof hs store (childrenOf hs children) ⟨w,p⟩ h start
        (childrenOf hs children).generateBitmaps = .ok s ∧
      s.hash hs = (childrenOf hs children).merkleHash hs h start
        (childrenOf hs children).generateBitmaps := by
  have hone : ∀ c ∈ inside children start (2 ^ h), ∃ s, onlyChildInProof store
      (childrenOf hs children) ⟨w,p⟩ hs c = .ok s ∧
        s.hash hs = (childrenOf hs children).hashAt hs c := fun c hc =>
    onlyChildInProof_ok (mem_inside.mp hc).1 (hstored c)
  simp only [genNodeInProof]
  cases h with
  | zero =>
    simp only [Children.merkleHash,rangeBitmaps_childrenOf,pow_zero]
    cases hin : inside children start 1 with
    | nil => exact ⟨_,rfl,rfl⟩
    | cons c rest =>
      exact hone c (hin ▸ mem_cons_self)
  | succ h =>
    simp only [Children.merkleHash,rangeBitmaps_childrenOf]
    cases hin : inside children start (2 ^ (h + 1)) with
    | nil => exact ⟨_,rfl,rfl⟩
    | cons c rest =>
      simp only [Nat.add_one_ne_zero,false_or]
      split_ifs with hleaf
      · exact hone c (hin ▸ mem_cons_self)
      · exact ⟨_,rfl,rfl⟩

open InternalNode in
theorem half_starts (c : Nibble) (hh : h < 4) :
    childHalfStart c (h + 1) % 2 ^ (h + 1) = 0 ∧ siblingHalfStart c h % 2 ^ h = 0 ∧
    if c.val.testBit h then childHalfStart c h = childHalfStart c (h + 1) + 2 ^ h ∧
      siblingHalfStart c h = childHalfStart c (h + 1)
    else childHalfStart c h = childHalfStart c (h + 1) ∧
      siblingHalfStart c h = childHalfStart c (h + 1) + 2 ^ h := by
  interval_cases h <;> (revert c; decide)

/-- The children from which the way of a nibble goes on, `h` levels above them. -/
def window (children : Nibble → Shape H K) (c : Nibble) (h : ℕ) : List Nibble :=
  inside children (childHalfStart c h) (2 ^ h)

def EndsAt (children : Nibble → Shape H K) (p : List Nibble) (c : Nibble) (h : ℕ)
    (child : Option NodeKey) : Prop :=
  child = none ∧ window children c h = [] ∨
  ∃ c', child = some ⟨(children c').version,p ++ [c']⟩ ∧ window children c h = [c'] ∧
    (h = 0 ∨ (children c').isLeaf)

theorem climb_window (hs : Hasher H) (m : ℕ) (hcan : ∀ c, (children c).Canonical (p ++ [c]))
    (hh : h < 4) (c : Nibble) {path : ℕ → Bool}
    (hpath : ∀ j < 4, path (4 * p.length + j) = c.val.testBit (3 - j))
    (htwo : 2 ≤ (leavesOf children (window children c (h + 1))).length) :
    referenceRoot hs (m + (h + 1)) (4 * p.length + (4 - (h + 1)))
        (leavesOf children (window children c (h + 1))) =
      climb hs.internal path (4 * p.length + (4 - (h + 1)))
        [referenceRoot hs (m + h) (4 * p.length + (4 - h))
          (leavesOf children (inside children (siblingHalfStart c h) (2 ^ h)))]
        (referenceRoot hs (m + h) (4 * p.length + (4 - h))
          (leavesOf children (window children c h))) := by
  obtain ⟨halign,-,hstarts⟩ := half_starts c hh
  obtain ⟨hleft,hright⟩ := filter_inside hcan hh halign
  have hbit : path (4 * p.length + (4 - (h + 1))) = c.val.testBit h := by
    rw [hpath _ (by omega),show 3 - (4 - (h + 1)) = h by omega]
  have hnext : 4 * p.length + (4 - (h + 1)) + 1 = 4 * p.length + (4 - h) := by omega
  rw [climb,climb,hbit,referenceRoot,← Nat.add_assoc,
    root_of_two htwo,window,hleft,hright,hnext]
  split_ifs at hstarts ⊢
  · rw [window,hstarts.1,hstarts.2]
    rfl
  · rw [window,hstarts.1,hstarts.2]
    rfl

theorem childWithSiblings_ok (hcan : ∀ c, (children c).Canonical (p ++ [c])) {m : ℕ}
    (hroot : ∀ c, (children c).rootHash hs =
      referenceRoot hs m (4 * p.length + 4) (children c).leaves)
    (hstored : ∀ c, (children c).Stored hs store (p ++ [c])) (c : Nibble) (path : ℕ → Bool)
    (hpath : ∀ j < 4, path (4 * p.length + j) = c.val.testBit (3 - j)) (hpos : 0 < h)
    (hh : h ≤ 4) (htwo : 2 ≤ (leavesOf children (window children c h)).length)
    (siblings : List (NodeInProof H)) :
    ∃ child s h', childWithSiblings hs store (childrenOf hs children) ⟨w,p⟩ c h
        siblings = .ok (child,siblings ++ s) ∧
      h' + s.length = h ∧ EndsAt children p c h' child ∧
      climb hs.internal path (4 * p.length + (4 - h)) (s.map (NodeInProof.hash hs))
          (referenceRoot hs (m + h') (4 * p.length + (4 - h'))
            (leavesOf children (window children c h'))) =
        referenceRoot hs (m + h) (4 * p.length + (4 - h))
          (leavesOf children (window children c h)) := by
  induction h generalizing siblings with
  | zero => exact absurd hpos (lt_irrefl 0)
  | succ h ih =>
    obtain ⟨sibling,hsib,hhash⟩ :=
      genNodeInProof_ok w h (siblingHalfStart c h) hstored
    obtain ⟨-,halign,-⟩ := half_starts c (by omega : h < 4)
    rw [merkleHash_eq hcan hroot (by omega : h ≤ 4) halign rfl] at hhash
    have hstep := climb_window hs m hcan (by omega : h < 4) c hpath htwo
    rw [← hhash] at hstep
    have hcode := childWithSiblings.eq_2 hs store (childrenOf hs children) ⟨w,p⟩ c
      siblings h
    rw [hsib] at hcode
    simp only [rangeBitmaps_childrenOf] at hcode
    match hin : window children c h with
    | [] =>
      refine ⟨none,[sibling],h,?_,rfl,.inl ⟨rfl,hin⟩,hstep.symm⟩
      rw [hcode,show inside children (childHalfStart c h) (2 ^ h) = [] from hin]
      rfl
    | c' :: rest =>
      rw [show inside children (childHalfStart c h) (2 ^ h) = c' :: rest from hin]
        at hcode
      have hne : children c' ≠ empty :=
        (mem_inside.mp (hin ▸ mem_cons_self : c' ∈ window children c h)).1
      by_cases hone : h = 0 ∨ rest = [] ∧
          leavesInside children (childHalfStart c h) (2 ^ h) ≠ []
      · -- the only child
        have hrest : rest = [] := by
          rcases hone with rfl | hone
          · exact inside_one hin
          · exact hone.1
        subst hrest
        refine ⟨_,[sibling],h,?_,rfl,.inr ⟨c',rfl,hin,?_⟩,hstep.symm⟩
        · obtain ⟨node,-,hentry⟩ := exists_node hs hne
          rw [hcode]
          change (if _ then _ else _) = _
          rw [if_pos hone,hentry]
          rfl
        · exact hone.imp_right fun hone => isLeaf_of_only hin hone.2
      · -- on to the half of the nibble
        have hpos : 0 < h := Nat.pos_of_ne_zero fun h0 => hone (.inl h0)
        have htwo' := two_le_inside hcan hin fun hone' => hone (.inr hone')
        obtain ⟨child,s,h',hrec,hlen,hends,hclimb⟩ := ih hpos (by omega) htwo' (siblings ++ [sibling])
        refine ⟨child,sibling :: s,h',?_,by rw [length_cons]; omega,hends,?_⟩
        · rw [hcode]
          change (if _ then _ else _) = _
          rw [if_neg hone,hrec,append_assoc]
          rfl
        · rw [map_cons,← singleton_append,climb_append,hstep,← hclimb]
          congr 2
          simp
          omega

def lookup (t : Shape H K) (key : HashValue) : Option (LeafNode H K) :=
  t.leaves.find? fun l => l.accountKey = key

theorem lookup_eq_none : t.lookup key = none ↔ ∀ l ∈ t.leaves, l.accountKey ≠ key := by
  rw [lookup]
  simp

theorem lookup_mem (h : t.lookup key = some l) : l ∈ t.leaves ∧ l.accountKey = key := by
  exact ⟨mem_of_find?_eq_some h,by simpa using List.find?_some h⟩

theorem lookup_leaf : (leaf w l).lookup key = if l.accountKey = key then some l else none := by
  split_ifs with h <;> simp [lookup,leaves,h]

theorem Canonical.lookup_eq (ht : t.Canonical p) (hl : l ∈ t.leaves) :
    t.lookup l.accountKey = some l := by
  cases h : t.lookup l.accountKey with
  | none => exact absurd rfl (lookup_eq_none.mp h l hl)
  | some l' =>
    obtain ⟨hl',hkey⟩ := lookup_mem h
    have hnodup : (t.leaves.map LeafNode.accountKey).Nodup := by
      rw [List.Nodup,pairwise_map]
      exact ht.sorted.imp fun hlt => hlt.ne
    rw [inj_on_of_nodup_map hnodup hl' hl hkey]

theorem leaf_of_nibble (ht : (internal w children).Canonical p)
    (hl : l ∈ (internal w children).leaves) :
    l ∈ (children (l.accountKey.getNibble p.length)).leaves := by
  obtain ⟨c,-,hl⟩ := mem_flatMap.mp hl
  rwa [getNibble_of_under ((ht.2.2 c).under hl)]

theorem lookup_child (ht : (internal w children).Canonical p) :
    (internal w children).lookup key = (children (key.getNibble p.length)).lookup key := by
  cases h : (children (key.getNibble p.length)).lookup key with
  | none =>
    refine lookup_eq_none.mpr fun l hl hkey => lookup_eq_none.mp h l ?_ hkey
    exact hkey ▸ leaf_of_nibble ht hl
  | some l =>
    obtain ⟨hl,hkey⟩ := lookup_mem h
    rw [← hkey]
    exact ht.lookup_eq (mem_flatMap.mpr ⟨_,mem_finRange _,hl⟩)

/-- A nibble is in its own window, and shares its upper bits with all that are in it. -/
theorem window_bits {c c' : Nibble} {h b : ℕ} (hb : h ≤ b)
    (hstart : childHalfStart c h ≤ c'.val)
    (hend : c'.val < childHalfStart c h + 2 ^ h) :
    c'.val.testBit b = c.val.testBit b := by
  have hdiv : c'.val / 2 ^ h = c.val / 2 ^ h := by
    exact Nat.div_eq_of_lt_le hstart (by rw [Nat.add_mul,one_mul]; exact hend)
  obtain ⟨j,rfl⟩ := Nat.exists_eq_add_of_le' hb
  rw [← Nat.testBit_div_two_pow,← Nat.testBit_div_two_pow,hdiv]

theorem mem_window_self (hc : children c ≠ empty) : c ∈ window children c h := by
  refine mem_inside.mpr ⟨hc,Nat.div_mul_le_self _ _,?_⟩
  rw [childHalfStart]
  have hmod := Nat.mod_lt c.val (Nat.two_pow_pos h)
  have hsum := Nat.div_add_mod' c.val (2 ^ h)
  omega

theorem bit_of_under {a b : HashValue} (ha : p <+: a.nibbles) (hb : p <+: b.nibbles) {i : ℕ}
    (hi : i < 4 * p.length) : a.bit i = b.bit i := by
  obtain ⟨rest,hrest⟩ := ha
  obtain ⟨rest',hrest'⟩ := hb
  have hlt : i / 4 < p.length := by omega
  rw [HashValue.bit,HashValue.bit,HashValue.getNibble,HashValue.getNibble,← hrest,← hrest']
  simp [getD_eq_getElem?_getD,List.getElem?_append_left hlt]

theorem bit_nibble (key : HashValue) {d j : ℕ} (hj : j < 4) :
    key.bit (4 * d + j) = (key.getNibble d).val.testBit (3 - j) := by
  rw [HashValue.bit,nibbleBit,show (4 * d + j) / 4 = d by omega,show (4 * d + j) % 4 = j by omega]

def startHash (hs : Hasher H) : Option (HashValue × H) → H
  | some known => hs.leaf known.1 known.2
  | none => hs.placeholder

/-- What a proof says about a key: its leaf is that of the key, or if the key has none then no leaf or
another one on the way of the key. -/
def Shows (key : HashValue) (found : Option (LeafNode H K))
    (known : Option (HashValue × H)) (depth : ℕ) : Prop :=
  match found with
  | some l => known = some (key,l.valueHash)
  | none => ∀ k h, known = some (k,h) → k ≠ key ∧ ∀ i < depth, k.bit i = key.bit i

/-- A proof below a path: the siblings climb back to the hash of the tree. -/
structure Proves (hs : Hasher H) (key : HashValue) (p : List Nibble) (t : Shape H K)
    (known : Option (HashValue × H)) (siblings : List (NodeInProof H)) : Prop where
  depth : 4 * p.length + siblings.length ≤ 256
  shows : Shows key (t.lookup key) known (4 * p.length + siblings.length)
  climbs : climb hs.internal key.bit (4 * p.length)
    (siblings.map (NodeInProof.hash hs)) (startHash hs known) = t.rootHash hs

theorem shows_leaf {d : ℕ} (hbits : ∀ i < d, l.accountKey.bit i = key.bit i) :
    Shows key ((leaf w l).lookup key) (some (l.accountKey,l.valueHash)) d := by
  rw [lookup_leaf]
  split_ifs with heq
  · simp [Shows,heq]
  · rintro k h hk
    cases hk
    exact ⟨heq,hbits⟩

theorem provesLeaf (hp : p.length ≤ 64)
    (hkey : p <+: key.nibbles) (hl : p <+: l.accountKey.nibbles) :
    Proves hs key p (leaf w l) (some (l.accountKey,l.valueHash)) [] where
  depth := by rw [length_nil]; omega
  shows := shows_leaf fun _ hi => bit_of_under hl hkey hi
  climbs := rfl

theorem getWithProofFrom_leaf {version fuel depth : ℕ}
    (hread : store.getNode ⟨w,p⟩ = .ok (.leaf l)) (siblings : List (NodeInProof H)) :
    getWithProofFrom hs store key version (fuel + 1) depth ⟨w,p⟩ siblings =
      .ok (((leaf w l).lookup key).map fun l => (l.valueHash,l.valueIndex),
        ⟨some (l.accountKey,l.valueHash),siblings.reverse⟩) := by
  rw [getWithProofFrom,hread,lookup_leaf]
  change Except.ok (if l.accountKey = key then some (l.valueHash,l.valueIndex) else none,_) = _
  split_ifs <;> rfl

section

variable (ht : (internal w children).Canonical p)

include ht

theorem Proves.child {s s' : List (NodeInProof H)}
    (hroot : (internal w children).rootHash hs = climb hs.internal key.bit (4 * p.length)
      (s.map (NodeInProof.hash hs)) ((children (key.getNibble p.length)).rootHash hs))
    (hlen : s.length = 4)
    (h : Proves hs key (p ++ [key.getNibble p.length]) (children (key.getNibble p.length)) known s') :
    Proves hs key p (internal w children) known (s ++ s') := by
  have hpath := length_child_path (p := p) (key.getNibble p.length)
  have hdepth : 4 * p.length + (s ++ s').length =
      4 * (p ++ [key.getNibble p.length]).length + s'.length := by
    rw [length_append]
    omega
  refine ⟨hdepth ▸ h.depth,?_,?_⟩
  · rw [lookup_child ht,hdepth]
    exact h.shows
  · rw [map_append,climb_append,length_map,hlen,hroot,← h.climbs,hpath]

theorem proves_none (hlen : h + s.length = 4)
    (hwindow : window children (key.getNibble p.length) h = [])
    (hclimb : climb hs.internal key.bit (4 * p.length) (s.map (NodeInProof.hash hs))
      hs.placeholder = (internal w children).rootHash hs) :
    Proves hs key p (internal w children) none s where
  depth := by
    have hlt : p.length < 64 := ht.1
    omega
  shows := by
    have hempty : children (key.getNibble p.length) = empty := by
      by_contra hne
      exact absurd (hwindow ▸ mem_window_self (h := h) hne) not_mem_nil
    rw [lookup_child ht,hempty]
    exact fun k h hk => absurd hk nofun
  climbs := hclimb

theorem proves_leaf {h w' : ℕ} (hkey : p <+: key.nibbles) (hlen : h + s.length = 4)
    (hwindow : window children (key.getNibble p.length) h = [c]) (hc : children c = leaf w' l)
    (hclimb : climb hs.internal key.bit (4 * p.length) (s.map (NodeInProof.hash hs))
      (l.hash hs) = (internal w children).rootHash hs) :
    Proves hs key p (internal w children) (some (l.accountKey,l.valueHash)) s ∧
      (internal w children).lookup key = (leaf w' l).lookup key := by
  have hl : l ∈ (internal w children).leaves :=
    mem_flatMap.mpr ⟨c,mem_finRange c,hc ▸ mem_singleton_self l⟩
  have hunder : p ++ [c] <+: l.accountKey.nibbles := by
    have := ht.2.2 c
    rwa [hc] at this
  have hfound : (internal w children).lookup key = (leaf w' l).lookup key := by
    rw [lookup_leaf]
    split_ifs with heq
    · rw [← heq,ht.lookup_eq hl]
    · rw [lookup_child ht]
      refine lookup_eq_none.mpr fun l' hl' => ?_
      have hne : children (key.getNibble p.length) ≠ empty := by
        intro hempty
        rw [hempty] at hl'
        cases hl'
      have hmem := mem_window_self (h := h) hne
      rw [hwindow,mem_singleton] at hmem
      rw [hmem,hc] at hl'
      rwa [mem_singleton.mp hl']
  have hlt : p.length < 64 := ht.1
  refine ⟨⟨by omega,?_,hclimb⟩,hfound⟩
  rw [hfound]
  refine shows_leaf fun i hi => ?_
  -- the upper nibbles are those of the path, the next one is in the window
  by_cases hpi : i < 4 * p.length
  · exact bit_of_under ((prefix_append p [c]).trans hunder) hkey hpi
  · obtain ⟨j,rfl⟩ := Nat.exists_eq_add_of_le (not_lt.mp hpi)
    have hmem := mem_inside.mp (hwindow ▸ mem_singleton_self c :
      c ∈ window children (key.getNibble p.length) h)
    rw [bit_nibble _ (by omega),bit_nibble _ (by omega),getNibble_of_under hunder]
    exact window_bits (by omega) hmem.2.1 hmem.2.2

end

theorem getWithProofFrom_internal (version fuel : ℕ) {child : Option NodeKey}
    (hread : store.getNode ⟨w,p⟩ = .ok (.internal (internalOf hs children)))
    (hlt : p.length < rootNibbleHeight)
    (hok : childWithSiblings hs store (childrenOf hs children) ⟨w,p⟩
      (key.getNibble p.length) 4 [] = .ok (child,s)) (siblings : List (NodeInProof H)) :
    getWithProofFrom hs store key version (fuel + 1) p.length ⟨w,p⟩ siblings =
      child.elim (.ok (none,⟨none,(siblings ++ s).reverse⟩)) fun childKey =>
        getWithProofFrom hs store key version fuel (p.length + 1) childKey (siblings ++ s) := by
  rw [getWithProofFrom,hread]
  change (check (p.length < rootNibbleHeight) TreeError.outOfNibbles >>= fun _ =>
    childWithSiblings hs store (childrenOf hs children) ⟨w,p⟩
      (key.getNibble p.length) 4 [] >>= _) = _
  rw [hok,check,if_pos hlt]
  cases child <;> rfl

theorem getWithProofFrom_ok (ht : t.Canonical p) (hne : t ≠ empty) (hstored : t.Stored hs store p)
    (hkey : p <+: key.nibbles) (version : ℕ) {fuel : ℕ}
    (hfuel : rootNibbleHeight < p.length + fuel) (siblings : List (NodeInProof H)) :
    ∃ known s, getWithProofFrom hs store key version fuel p.length ⟨t.version,p⟩ siblings =
        .ok ((t.lookup key).map fun l => (l.valueHash,l.valueIndex),
          ⟨known,(siblings ++ s).reverse⟩) ∧
      Proves hs key p t known s := by
  have hp := hkey.length_le.trans_eq key.length_eq
  have hroot64 : rootNibbleHeight = 64 := rfl
  induction t generalizing p fuel siblings with
  | empty => exact absurd rfl hne
  | leaf w l =>
    obtain ⟨fuel,rfl⟩ : ∃ f, fuel = f + 1 := ⟨fuel - 1,by omega⟩
    refine ⟨_,[],?_,provesLeaf hp hkey ht⟩
    rw [append_nil]
    exact getWithProofFrom_leaf (hstored.read rfl) siblings
  | internal w children ih =>
    have hlt : p.length < 64 := ht.1
    obtain ⟨fuel,rfl⟩ : ∃ f, fuel = f + 2 := ⟨fuel - 2,by omega⟩
    obtain ⟨m,hm⟩ : ∃ m, 4 * p.length + (m + 4) = 256 := ⟨256 - 4 * p.length - 4,by omega⟩
    have hroot : ∀ c, (children c).rootHash hs =
        referenceRoot hs m (4 * p.length + 4) (children c).leaves := by
      intro c
      rw [← length_child_path c]
      exact rootHash_eq (ht.2.2 c) (by rw [length_child_path]; omega)
    have hall : window children (key.getNibble p.length) 4 = occupied children := by
      have hzero : childHalfStart (key.getNibble p.length) 4 = 0 := by
        rw [childHalfStart,Nat.div_eq_of_lt (by omega),zero_mul]
      rw [window,hzero]
      exact filter_eq_self.mpr fun c _ => decide_eq_true ⟨Nat.zero_le _,by omega⟩
    have htwo : 2 ≤ (leavesOf children (window children (key.getNibble p.length) 4)).length := by
      rw [hall,leavesOf_occupied]
      exact ht.two_le nofun nofun
    obtain ⟨child,s,h,hok,hlen,hends,hclimb⟩ := childWithSiblings_ok (w := w) ht.2.2 hroot
      (fun c => hstored.child c) (key.getNibble p.length) key.bit (fun j hj => bit_nibble key hj)
      (by omega : 0 < 4) le_rfl htwo []
    rw [hall,leavesOf_occupied] at hclimb
    have hwhole : (internal w children).rootHash hs = referenceRoot hs (m + 4) (4 * p.length)
        (internal w children).leaves := rootHash_eq ht hm
    replace hclimb := hclimb.trans hwhole.symm
    have hread := hstored.read rfl
    have hcode := getWithProofFrom_internal version (fuel + 1) hread ht.1 hok siblings
    rcases hends with ⟨rfl,hwindow⟩ | ⟨c,rfl,hwindow,hstop⟩
    · -- no child
      rw [hwindow,leavesOf,flatMap_nil,referenceRoot,root_nil] at hclimb
      have hproves := proves_none ht hlen hwindow hclimb
      refine ⟨none,s,?_,hproves⟩
      have hnone : (internal w children).lookup key = none := by
        cases hfound : (internal w children).lookup key with
        | none => rfl
        | some l =>
          have hshows := hproves.shows
          rw [hfound] at hshows
          cases hshows
      rw [hnone]
      exact hcode
    · have hcne : children c ≠ empty := (mem_inside.mp (hwindow ▸ mem_singleton_self c :
        c ∈ window children (key.getNibble p.length) h)).1
      rw [hwindow,leavesOf,flatMap_singleton] at hclimb
      by_cases hleaf : (children c).isLeaf
      · -- a leaf
        cases hch : children c with
        | empty => exact absurd hch hcne
        | leaf w' l =>
          rw [hch,leaves,referenceRoot,root_singleton] at hclimb
          obtain ⟨hproves,hfound⟩ := proves_leaf ht hkey hlen hwindow hch hclimb
          refine ⟨_,s,?_,hproves⟩
          have hread' : store.getNode ⟨w',p ++ [c]⟩ = .ok (.leaf l) := by
            have := hstored.child c
            rw [hch] at this
            exact this.read rfl
          rw [hch] at hcode
          rw [hfound]
          exact hcode.trans (getWithProofFrom_leaf hread' _)
        | internal w' grand => rw [hch] at hleaf; cases hleaf
      · -- on with the child of the nibble
        obtain rfl : h = 0 := hstop.resolve_right hleaf
        obtain rfl : c = key.getNibble p.length := by
          obtain ⟨-,h1,h2⟩ := mem_inside.mp (hwindow ▸ mem_singleton_self c :
            c ∈ window children (key.getNibble p.length) 0)
          rw [childHalfStart,pow_zero,Nat.div_one] at h1 h2
          exact Fin.ext (by omega)
        have hpath : (p ++ [key.getNibble p.length]).length = p.length + 1 := length_append
        have hfuel' : rootNibbleHeight < (p ++ [key.getNibble p.length]).length + (fuel + 1) := by
          omega
        obtain ⟨known,s',hrec,hproves⟩ := ih (key.getNibble p.length) (ht.2.2 _) hcne
          (hstored.child _) (KeyValues.Placed.nibbles_child hkey ht.1) hfuel' (siblings ++ s)
          (by rw [hpath]; omega)
        rw [hpath] at hrec
        refine ⟨known,s ++ s',?_,hproves.child ht ?_ (by omega)⟩
        · rw [lookup_child ht,← append_assoc]
          exact hcode.trans hrec
        · rw [hroot]
          exact hclimb.symm

end Shape

theorem iterBits_length (key : HashValue) : key.iterBits.length = 256 := by
  rw [HashValue.iterBits,length_map,length_range]

theorem le_commonPrefixBitsLen {a b : HashValue} {n : ℕ} (hn : n ≤ 256)
    (h : ∀ i < n, a.bit i = b.bit i) : n ≤ a.commonPrefixBitsLen b := by
  have hzip : a.iterBits.zip b.iterBits =
      (List.range n).map (fun i => (a.bit i,b.bit i)) ++
        (List.range' n (256 - n)).map fun i => (a.bit i,b.bit i) := by
    have hrange : List.range 256 = List.range n ++ List.range' n (256 - n) := by
      have happ := @List.range'_append_1 0 n (256 - n)
      rw [Nat.zero_add,Nat.add_sub_cancel' hn] at happ
      rw [range_eq_range',range_eq_range',happ]
    rw [HashValue.iterBits,HashValue.iterBits,zip_map',hrange,map_append]
  rw [HashValue.commonPrefixBitsLen,hzip,takeWhile_append_of_pos,length_append,
    length_map,length_range]
  · exact Nat.le_add_right _ _
  · intro p hp
    obtain ⟨i,hi,rfl⟩ := mem_map.mp hp
    simpa using h i (mem_range.mp hi)

theorem actualRootHash_eq {hs : Hasher H} {siblings : List H} (key : HashValue)
    (hlen : siblings.length ≤ 256) :
    SparseMerkleProof.actualRootHash hs ⟨known,siblings.reverse⟩ key =
      climb hs.internal key.bit 0 siblings (Shape.startHash hs known) := by
  have hbits : key.iterBits.reverse.drop (256 - siblings.length) =
      ((List.range' 0 siblings.length).map key.bit).reverse := by
    rw [drop_reverse,iterBits_length,HashValue.iterBits,← map_take,take_range,
      show min (256 - (256 - siblings.length)) 256 = siblings.length by omega,range_eq_range']
  have hzip : siblings.reverse.zip ((List.range' 0 siblings.length).map key.bit).reverse =
      ((siblings.zipIdx 0).map (Prod.map id key.bit)).reverse := by
    rw [List.zip,← reverse_zipWith (by simp),← List.zip,zip_map_right,
      zipIdx_eq_zip_range']
  rw [climb_eq_foldl,SparseMerkleProof.actualRootHash]
  simp only [length_reverse]
  rw [hbits,hzip,← map_reverse,foldl_map]
  cases known <;> rfl

theorem verifyByHash_ok [DecidableEq H] {hs : Hasher H} {key : HashValue} {t : Shape H K}
    {s : List (NodeInProof H)} (h : Shape.Proves hs key [] t known s) :
    SparseMerkleProof.verifyByHash hs ⟨known,s.reverse.map (NodeInProof.hash hs)⟩ (t.rootHash hs) key
      ((t.lookup key).map LeafNode.valueHash) = .ok () := by
  have hdepth : s.length ≤ 256 := by
    have := h.depth
    omega
  have hroot : SparseMerkleProof.actualRootHash hs ⟨known,s.reverse.map (NodeInProof.hash hs)⟩ key =
      t.rootHash hs := by
    rw [map_reverse,actualRootHash_eq key (by rwa [length_map])]
    exact h.climbs
  have hleaf : SparseMerkleProof.checkLeaf ⟨known,s.reverse.map (NodeInProof.hash hs)⟩ key
      ((t.lookup key).map LeafNode.valueHash) = .ok () := by
    have hshows := h.shows
    rw [length_nil,Nat.mul_zero,Nat.zero_add] at hshows
    cases hfound : t.lookup key with
    | some l =>
      rw [hfound] at hshows
      obtain rfl : known = some (key,l.valueHash) := hshows
      simp [SparseMerkleProof.checkLeaf,check]
      rfl
    | none =>
      rw [hfound] at hshows
      cases known with
      | none => rfl
      | some known =>
        obtain ⟨hne,hbits⟩ := hshows known.1 known.2 rfl
        have hlen := le_commonPrefixBitsLen hdepth fun i hi => (hbits i hi).symm
        simp [SparseMerkleProof.checkLeaf,check,Ne.symm hne,hlen]
        rfl
  rw [SparseMerkleProof.verifyByHash,hleaf,hroot]
  simp [check,hdepth]
  rfl

/-- Hashes do not collide, and those of leaves, of internal nodes and the placeholder are different. -/
structure Hasher.Separates (hs : Hasher H) : Prop where
  internal : ∀ a b c d, hs.internal a b = hs.internal c d → a = c ∧ b = d
  leaf : ∀ key h key' h', hs.leaf key h = hs.leaf key' h' → key = key' ∧ h = h'
  internal_ne : ∀ a b, hs.internal a b ≠ hs.placeholder
  leaf_ne : ∀ key h, hs.leaf key h ≠ hs.placeholder
  apart : ∀ a b key h, hs.internal a b ≠ hs.leaf key h

theorem HashValue.eq_of_bits {a b : HashValue} (h : ∀ i < 256, a.bit i = b.bit i) : a = b := by
  have hnibble : ∀ c d : Nibble, (∀ j < 4, c.val.testBit (3 - j) = d.val.testBit (3 - j)) → c = d := by
    decide
  refine HashValue.ext (ext_getElem (a.length_eq.trans b.length_eq.symm) fun d ha hb => ?_)
  have hd : d < 64 := ha.trans_eq a.length_eq
  have hget : a.getNibble d = b.getNibble d := hnibble _ _ fun j hj => by
    rw [← Shape.bit_nibble a hj,← Shape.bit_nibble b hj]
    exact h _ (by omega)
  simpa [HashValue.getNibble,ha,hb] using hget

namespace SparseMerkleProof

variable {hs : Hasher H} {m : StateMap H K} {key : HashValue} {known : Option (HashValue × H)} {n : ℕ}

/-- What a proof starts from is a leaf of the map or there is no leaf on the path of the key. -/
theorem start_sound (hsep : hs.Separates) {i : ℕ} {l : List (LeafNode H K)}
    (h : Shape.startHash hs known = referenceRoot hs n i l) :
    known = none ∧ l = [] ∨
      ∃ a ∈ l, known = some (a.accountKey,a.valueHash) ∧ (n = 0 ∨ l = [a]) := by
  rw [referenceRoot] at h
  obtain ⟨hl,hroot⟩ | ⟨a,ha,hroot,hone⟩ | ⟨x,y,hroot⟩ :=
    @root_cases _ _ hs.placeholder hs.internal (LeafNode.hash hs) LeafNode.bit n i l
  all_goals rw [hroot] at h
  all_goals cases known with
  | none => ?_
  | some known => ?_
  · exact .inl ⟨rfl,hl⟩
  · exact absurd h (hsep.leaf_ne _ _)
  · exact absurd h.symm (hsep.leaf_ne _ _)
  · obtain ⟨hkey,hhash⟩ := hsep.leaf _ _ _ _ h
    exact .inr ⟨a,ha,congrArg some (Prod.ext hkey hhash),hone⟩
  · exact absurd h.symm (hsep.internal_ne _ _)
  · exact absurd h.symm (hsep.apart _ _ _ _)

/-- An accepted proof for a key shows the hash of its value in the map, or that there is none. -/
theorem verifyByHash_sound [DecidableEq H] (hsep : hs.Separates) (m : StateMap H K)
    (proof : SparseMerkleProof H) {elementHash : Option H}
    (h : proof.verifyByHash hs (referenceRoot hs 256 0 m.leaves) key elementHash = .ok ()) :
    (m.get key).map Prod.fst = elementHash := by
  obtain ⟨known,siblings⟩ := proof
  obtain ⟨s,rfl⟩ : ∃ s, siblings = s.reverse := ⟨siblings.reverse,(reverse_reverse _).symm⟩
  simp only [verifyByHash,bind_eq_ok,check_ok,length_reverse] at h
  obtain ⟨_,hlen,_,hleaf,hroot⟩ := h
  rw [actualRootHash_eq key hlen] at hroot
  have hsep' : Separates hs.placeholder hs.internal (LeafNode.hash (K := K) hs) :=
    ⟨hsep.internal,hsep.internal_ne,fun a b x => hsep.apart a b _ _⟩
  obtain ⟨l,hstart,hmem⟩ := hsep'.climb_sound hlen hroot
  have hget : ∀ x, m.get key = some x ↔ (⟨key,x.1,x.2⟩ : LeafNode H K) ∈ l := by
    intro x
    rw [hmem,StateMap.mem_leaves,Column.get_eq_some Function.injective_id]
    exact ⟨fun hx => ⟨hx,fun _ _ _ => rfl⟩,And.left⟩
  obtain ⟨rfl,rfl⟩ | ⟨a,ha,rfl,hone⟩ := start_sound hsep hstart
  · have hnone : m.get key = none := by
      rw [Option.eq_none_iff_forall_ne_some]
      exact fun x hx => not_mem_nil ((hget x).mp hx)
    cases elementHash with
    | none => rw [hnone]; rfl
    | some hash => cases hleaf
  · cases elementHash with
    | some hash =>
      simp only [checkLeaf,bind_eq_ok,check_ok] at hleaf
      obtain ⟨-,rfl,rfl⟩ := hleaf
      rw [(hget (a.valueHash,a.valueIndex)).mpr ha]
      rfl
    | none =>
      simp only [checkLeaf,bind_eq_ok,check_ok] at hleaf
      obtain ⟨_,hne,-⟩ := hleaf
      have hnone : m.get key = none := by
        rw [Option.eq_none_iff_forall_ne_some]
        intro x hx
        obtain hzero | rfl := hone
        · refine hne (HashValue.eq_of_bits fun i hi => ?_)
          exact (((hmem a).mp ha).2 i (Nat.zero_le i) (by omega)).symm
        · exact hne (congrArg LeafNode.accountKey (mem_singleton.mp ((hget x).mp hx)))
      rw [hnone]
      rfl

end SparseMerkleProof

inductive FreeHash
  | placeholder
  | value (n : ℕ)
  | leaf (key : HashValue) (h : FreeHash)
  | internal (left right : FreeHash)
  deriving DecidableEq

namespace FreeHash

def hasher : Hasher FreeHash := ⟨.placeholder,.internal,.leaf⟩

theorem separates : hasher.Separates :=
  ⟨fun _ _ _ _ h => ⟨(internal.inj h).1,(internal.inj h).2⟩,
    fun _ _ _ _ h => ⟨(leaf.inj h).1,(leaf.inj h).2⟩,nofun,nofun,nofun⟩

def key (c : Nibble) : HashValue := ⟨replicate 64 c,length_replicate⟩

def one : FreeHash := .leaf (key 1) (.value 7)

def two : FreeHash := .leaf (key 2) (.value 8)

/-- The two keys go apart at the third bit. -/
def map : StateMap FreeHash ℕ :=
  (Column.empty.put (key 1) (.value 7,(0,0))).put (key 2) (.value 8,(0,0))

end FreeHash

open FreeHash in
theorem SparseMerkleProof.verifyByHash_sound_sample :
    (map.get (key 1)).map Prod.fst = some (.value 7) ∧ (map.get (key 9)).map Prod.fst = none ∧
      (map.get (key 3)).map Prod.fst = none := by
  refine ⟨verifyByHash_sound separates map
    ⟨some (key 1,.value 7),[two,.placeholder,.placeholder]⟩ (by decide +kernel),
    verifyByHash_sound separates map ⟨none,[.internal (.internal one two) .placeholder]⟩
      (by decide +kernel),
    verifyByHash_sound separates map
      ⟨some (key 2,.value 8),[one,.placeholder,.placeholder]⟩ (by decide +kernel)⟩

end Arx.JellyfishMerkle
