import Arx.JellyfishMerkle.Leaves
import Arx.Movelib.SparseMerkle

/-!
# The hash of a canonical tree

The four binary levels that an internal node stands for, and with them the whole tree: the hash of a
canonical tree is the reference root of its leaves.
-/

namespace Arx.JellyfishMerkle
open Movelib List Children

variable {H K : Type}

namespace LeafNode

def bit (i : ℕ) (l : LeafNode H K) : Bool := l.accountKey.bit i

end LeafNode

/-- The reference root of leaves over the bits from `i` on, of which there are `n`. -/
def referenceRoot (hs : Hasher H) (n i : ℕ) (leaves : List (LeafNode H K)) : H :=
  SparseMerkle.root hs.placeholder hs.internal (LeafNode.hash hs) LeafNode.bit n i leaves

namespace Shape

def rootHash (hs : Hasher H) (t : Shape H K) : H :=
  ((t.node hs).map (Node.hash hs)).getD hs.placeholder

variable {hs : Hasher H} {p : List Nibble} {t : Shape H K} {children : Nibble → Shape H K}
  {l : LeafNode H K} {c : Nibble} {start width : ℕ}

theorem hashAt_childrenOf : (childrenOf hs children).hashAt hs c = (children c).rootHash hs := by
  rw [hashAt,childrenOf,rootHash,Option.map_map]
  rfl

theorem leaves_ne_nil (ht : t.Canonical p) (hne : t ≠ empty) : t.leaves ≠ [] := by
  induction t generalizing p with
  | empty => exact absurd rfl hne
  | leaf w l => exact cons_ne_nil _ _
  | internal w children ih =>
    obtain ⟨c,hc⟩ := exists_mem_of_ne_nil _ ht.2.1.1
    intro hnil
    exact ih c (ht.2.2 c) (mem_occupied.mp hc) (flatMap_eq_nil_iff.mp hnil c (mem_finRange c))

def leavesOf (children : Nibble → Shape H K) (cs : List Nibble) : List (LeafNode H K) :=
  cs.flatMap fun c => (children c).leaves

theorem leavesOf_occupied : leavesOf children (occupied children) =
    (List.finRange 16).flatMap fun c => (children c).leaves := by
  refine flatMap_filter_eq fun c hc => ?_
  cases hch : children c with
  | empty => rfl
  | leaf w l | internal w grand => rw [hch] at hc; cases hc

theorem two_le_leavesOf (hcan : ∀ c, (children c).Canonical (p ++ [c])) {cs : List Nibble}
    (hcs : ∀ c ∈ cs, children c ≠ empty) (hne : cs ≠ [])
    (hone : ∀ c, cs = [c] → 2 ≤ (children c).leaves.length) : 2 ≤ (leavesOf children cs).length := by
  have hpos : ∀ c ∈ cs, 1 ≤ (children c).leaves.length := fun c hc =>
    length_pos_iff.mpr (leaves_ne_nil (hcan c) (hcs c hc))
  match cs, hne, hpos, hone with
  | [c], _, _, hone => simpa [leavesOf] using hone c rfl
  | c :: c' :: rest, _, hpos, _ =>
    have hc := hpos c mem_cons_self
    have hc' := hpos c' (mem_cons_of_mem _ mem_cons_self)
    rw [leavesOf,flatMap_cons,flatMap_cons,length_append,length_append]
    omega

theorem Canonical.two_le (ht : t.Canonical p) (hne : t ≠ empty) (hleaf : ¬ t.isLeaf) :
    2 ≤ t.leaves.length := by
  induction t generalizing p with
  | empty => exact absurd rfl hne
  | leaf w l => exact absurd rfl hleaf
  | internal w children ih =>
    rw [leaves,← leavesOf_occupied]
    refine two_le_leavesOf ht.2.2 (fun c hc => mem_occupied.mp hc) ht.2.1.1 fun c hc => ?_
    exact ih c (ht.2.2 c) (mem_occupied.mp (hc ▸ mem_singleton_self c)) (ht.2.1.2 c hc)

theorem leafCount_node {n : Node H K} (h : t.node hs = some n) : n.leafCount = t.leaves.length := by
  induction t generalizing n with
  | empty => cases h
  | leaf w l => rw [← Option.some.inj h]; rfl
  | internal w children ih =>
    rw [← Option.some.inj h]
    change (childrenOf hs children).leafCount = _
    rw [leafCount,leaves,length_flatMap]
    congr 1
    refine map_congr_left fun c _ => ?_
    rw [childrenOf]
    cases hnode : (children c).node hs with
    | none =>
      rw [node_eq_none hnode]
      rfl
    | some n =>
      rw [← ih c hnode]
      cases n <;> rfl

def inside (children : Nibble → Shape H K) (start width : ℕ) : List Nibble :=
  (occupied children).filter (inRange start width)

def leavesInside (children : Nibble → Shape H K) (start width : ℕ) : List Nibble :=
  ((List.finRange 16).filter fun c => (children c).isLeaf).filter (inRange start width)

theorem mem_inside : c ∈ inside children start width ↔
    children c ≠ empty ∧ start ≤ c.val ∧ c.val < start + width := by
  rw [inside,mem_filter,mem_occupied,inRange,decide_eq_true_iff]

theorem rangeBitmaps_part {start width start' width' : ℕ} {bitmaps : Children.Bitmaps}
    (hstart : start ≤ start') (hend : start' + width' ≤ start + width) :
    rangeBitmaps start' width' (rangeBitmaps start width bitmaps) =
      rangeBitmaps start' width' bitmaps := by
  have hsub : ∀ c : Nibble, (inRange start' width' c && inRange start width c) =
      inRange start' width' c := by
    intro c
    rw [Bool.and_eq_left_iff_imp,inRange,inRange,decide_eq_true_iff,
      decide_eq_true_iff]
    omega
  simp only [rangeBitmaps,filter_filter,hsub]

theorem rangeBitmaps_childrenOf (hs : Hasher H) :
    rangeBitmaps start width (childrenOf hs children).generateBitmaps =
      (inside children start width,leavesInside children start width) := by
  rw [generateBitmaps,existence_childrenOf,leaves_childrenOf]
  rfl

theorem bit_of_child (hcan : (children c).Canonical (p ++ [c])) (hl : l ∈ (children c).leaves)
    {j : ℕ} (hj : j < 4) : l.bit (4 * p.length + j) = c.val.testBit (3 - j) := by
  have hnibble := getNibble_of_under (hcan.under hl)
  rw [LeafNode.bit,HashValue.bit,nibbleBit]
  have hdiv : (4 * p.length + j) / 4 = p.length := by omega
  have hmod : (4 * p.length + j) % 4 = j := by omega
  rw [hdiv,hmod,hnibble]

theorem filter_leavesOf {cs : List Nibble} {f : LeafNode H K → Bool} {g : Nibble → Bool}
    (h : ∀ c ∈ cs, ∀ l ∈ (children c).leaves, f l = g c) :
    (leavesOf children cs).filter f = leavesOf children (cs.filter g) := by
  induction cs with
  | nil => rfl
  | cons c cs ih =>
    have hcs := ih fun c' hc' => h c' (mem_cons_of_mem _ hc')
    have hc := h c mem_cons_self
    rw [leavesOf,flatMap_cons,filter_append]
    rw [leavesOf] at hcs
    rw [hcs]
    cases hg : g c with
    | true =>
      rw [filter_cons_of_pos hg,filter_eq_self.mpr fun l hl => (hc l hl).trans hg]
      rfl
    | false =>
      rw [filter_cons_of_neg (by simp [hg]),filter_eq_nil_iff.mpr fun l hl => by
        simp [hc l hl,hg]]
      rfl

theorem testBit_half {h start c : ℕ} (hh : h < 4) (halign : start % 2 ^ (h + 1) = 0)
    (hstart : start ≤ c) (hend : c < start + 2 ^ (h + 1)) :
    c.testBit h = decide (start + 2 ^ h ≤ c) := by
  rw [Nat.testBit_eq_decide_div_mod_eq]
  refine decide_eq_decide.mpr ?_
  interval_cases h <;> omega

theorem inside_nodup : (inside children start width).Nodup :=
  occupied_nodup.filter _

theorem filter_inside (hcan : ∀ c, (children c).Canonical (p ++ [c])) {h start : ℕ} (hh : h < 4)
    (halign : start % 2 ^ (h + 1) = 0) :
    ((leavesOf children (inside children start (2 ^ (h + 1)))).filter fun l =>
        !l.bit (4 * p.length + (4 - (h + 1)))) = leavesOf children (inside children start (2 ^ h)) ∧
    ((leavesOf children (inside children start (2 ^ (h + 1)))).filter fun l =>
        l.bit (4 * p.length + (4 - (h + 1)))) =
      leavesOf children (inside children (start + 2 ^ h) (2 ^ h)) := by
  have hbit : ∀ c ∈ inside children start (2 ^ (h + 1)), ∀ l ∈ (children c).leaves,
      l.bit (4 * p.length + (4 - (h + 1))) = decide (start + 2 ^ h ≤ c.val) := by
    intro c hc l hl
    obtain ⟨-,hstart,hend⟩ := mem_inside.mp hc
    rw [bit_of_child (hcan c) hl (by omega),show 3 - (4 - (h + 1)) = h by omega]
    exact testBit_half hh halign hstart hend
  constructor
  · rw [filter_leavesOf fun c hc l hl => congrArg (! ·) (hbit c hc l hl),inside,filter_filter]
    congr 1
    refine filter_congr fun c _ => ?_
    rw [inRange,← decide_not,Bool.and_comm,← Bool.decide_and]
    exact decide_eq_decide.mpr (by omega)
  · rw [filter_leavesOf hbit,inside,filter_filter]
    congr 1
    refine filter_congr fun c _ => ?_
    rw [inRange,Bool.and_comm,← Bool.decide_and]
    exact decide_eq_decide.mpr (by omega)

theorem inside_one {start : ℕ} {rest : List Nibble} (hin : inside children start 1 = c :: rest) :
    rest = [] := by
  refine eq_nil_iff_forall_not_mem.mpr fun c' hc' => ?_
  have hnodup : (inside children start 1).Nodup := inside_nodup
  rw [hin] at hnodup
  obtain ⟨-,h1⟩ := mem_inside.mp (hin ▸ mem_cons_self : c ∈ inside children start 1)
  obtain ⟨-,h2⟩ := mem_inside.mp (hin ▸ mem_cons_of_mem _ hc' : c' ∈ inside children start 1)
  have heq : c = c' := Fin.ext (by omega)
  exact (nodup_cons.mp hnodup).1 (heq ▸ hc')

theorem isLeaf_of_only (hin : inside children start width = [c])
    (hleaves : leavesInside children start width ≠ []) : (children c).isLeaf := by
  obtain ⟨c',hc'⟩ := exists_mem_of_ne_nil _ hleaves
  rw [leavesInside,mem_filter,mem_filter] at hc'
  obtain ⟨⟨-,hleaf⟩,hrange⟩ := hc'
  have hmem : c' ∈ inside children start width := by
    refine mem_inside.mpr ⟨fun hempty => ?_,of_decide_eq_true hrange⟩
    rw [hempty] at hleaf
    cases hleaf
  rw [hin,mem_singleton] at hmem
  exact hmem ▸ hleaf

/-- A range with children has two leaves, unless it has only one child and that is a leaf. -/
theorem two_le_inside (hcan : ∀ c, (children c).Canonical (p ++ [c]))
    {rest : List Nibble} (hin : inside children start width = c :: rest)
    (hone : ¬ (rest = [] ∧ leavesInside children start width ≠ [])) :
    2 ≤ (leavesOf children (inside children start width)).length := by
  refine two_le_leavesOf hcan (fun c' hc' => (mem_inside.mp hc').1) (hin ▸ cons_ne_nil _ _)
    fun c' hc' => ?_
  have hmem := mem_inside.mp (hc' ▸ mem_singleton_self c' : c' ∈ inside children start width)
  obtain ⟨rfl,hrest⟩ := cons_eq_cons.mp (hin.symm.trans hc')
  refine (hcan c).two_le hmem.1 fun hleaf => hone ⟨hrest,ne_nil_of_mem (a := c) ?_⟩
  refine mem_filter.mpr ⟨mem_filter.mpr ⟨mem_finRange c,hleaf⟩,?_⟩
  exact decide_eq_true hmem.2

theorem merkleHash_eq (hcan : ∀ c, (children c).Canonical (p ++ [c])) {m : ℕ}
    (hroot : ∀ c, (children c).rootHash hs =
      referenceRoot hs m (4 * p.length + 4) (children c).leaves)
    {h start : ℕ} (hh : h ≤ 4) (halign : start % 2 ^ h = 0) {bitmaps : Children.Bitmaps}
    (hbm : rangeBitmaps start (2 ^ h) bitmaps =
      rangeBitmaps start (2 ^ h) (childrenOf hs children).generateBitmaps) :
    (childrenOf hs children).merkleHash hs h start bitmaps =
      referenceRoot hs (m + h) (4 * p.length + (4 - h))
        (leavesOf children (inside children start (2 ^ h))) := by
  induction h generalizing start bitmaps with
  | zero =>
    rw [pow_zero] at hbm ⊢
    rw [merkleHash,hbm,rangeBitmaps_childrenOf]
    match hin : inside children start 1 with
    | [] => exact (SparseMerkle.root_nil _ _).symm
    | c :: rest =>
      rw [inside_one hin]
      simp only [hashAt_childrenOf,leavesOf,flatMap_cons,flatMap_nil,append_nil]
      exact hroot c
  | succ h ih =>
    have hmod : start % 2 ^ h = 0 := by
      rw [← Nat.mod_mod_of_dvd start (pow_dvd_pow 2 (Nat.le_succ h)),halign,Nat.zero_mod]
    rw [merkleHash,hbm]
    have hpart : ∀ start', start ≤ start' → start' + 2 ^ h ≤ start + 2 ^ (h + 1) →
        rangeBitmaps start' (2 ^ h) (inside children start (2 ^ (h + 1)),
          leavesInside children start (2 ^ (h + 1))) =
        rangeBitmaps start' (2 ^ h) (childrenOf hs children).generateBitmaps := by
      intro start' hstart hend
      rw [← rangeBitmaps_childrenOf hs]
      exact rangeBitmaps_part hstart hend
    have hhalves := filter_inside hcan (by omega : h < 4) halign
    simp only [rangeBitmaps_childrenOf]
    match hin : inside children start (2 ^ (h + 1)) with
    | [] => exact (SparseMerkle.root_nil _ _).symm
    | c :: rest =>
      have hcne : children c ≠ empty := (mem_inside.mp
        (hin ▸ mem_cons_self : c ∈ inside children start (2 ^ (h + 1)))).1
      simp only
      split_ifs with hone
      · -- the only child is a leaf
        obtain ⟨rfl,hleaves⟩ := hone
        have hleaf := isLeaf_of_only hin hleaves
        cases hch : children c with
        | empty => exact absurd hch hcne
        | leaf w l =>
          rw [hashAt_childrenOf,leavesOf,flatMap_singleton,hch]
          rfl
        | internal w grand => rw [hch] at hleaf; cases hleaf
      · -- two halves
        have htwo := two_le_inside hcan hin hone
        rw [hin] at hpart hhalves htwo
        rw [ih (by omega) hmod (hpart start le_rfl (by omega)),
          ih (by omega) (by rw [Nat.add_mod,hmod]; simp) (hpart _ (by omega) (by omega)),
          referenceRoot,referenceRoot,referenceRoot,← Nat.add_assoc,SparseMerkle.root_of_two htwo,
          hhalves.1,hhalves.2,show 4 * p.length + (4 - (h + 1)) + 1 = 4 * p.length + (4 - h) by omega]

theorem length_child_path (c : Nibble) : 4 * (p ++ [c]).length = 4 * p.length + 4 := by
  rw [length_append,length_singleton,Nat.mul_succ]

/-- The hash of a canonical tree is the reference root of its leaves. -/
theorem rootHash_eq {m : ℕ} (ht : t.Canonical p) (hm : 4 * p.length + m = 256) :
    t.rootHash hs = referenceRoot hs m (4 * p.length) t.leaves := by
  induction t generalizing p m with
  | empty => exact (SparseMerkle.root_nil _ _).symm
  | leaf w l =>
    rw [referenceRoot,leaves,SparseMerkle.root_singleton]
    rfl
  | internal w children ih =>
    have hlt : p.length < 64 := ht.1
    obtain ⟨m,rfl⟩ : ∃ m', m = m' + 4 := ⟨m - 4,by omega⟩
    have hroot : ∀ c, (children c).rootHash hs =
        referenceRoot hs m (4 * p.length + 4) (children c).leaves := by
      intro c
      rw [← length_child_path c]
      exact ih c (ht.2.2 c) (by rw [length_child_path]; omega)
    have hmerkle := @merkleHash_eq _ _ hs p children ht.2.2 m hroot 4 0 le_rfl rfl _ rfl
    have hall : inside children 0 (2 ^ 4) = occupied children :=
      filter_eq_self.mpr fun c _ => decide_eq_true ⟨Nat.zero_le _,by omega⟩
    rw [hall,leavesOf_occupied] at hmerkle
    exact hmerkle

end Shape

end Arx.JellyfishMerkle
