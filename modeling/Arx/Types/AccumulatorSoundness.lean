import Arx.Types.AccumulatorProof

/-!
# What the proofs of accumulators show

The bits of an index that lie above the root are not looked at. For an index below them a proof that
is accepted shows what the leaves are.
-/

namespace Arx.Types
open Movelib List

variable {H : Type} {hs : AccumulatorHasher H}

/-- The node `pos` of a level, over the leaves: what has no leaf below it is a placeholder. -/
def AccumulatorHasher.node (hs : AccumulatorHasher H) (leaves : List H) : ℕ → ℕ → H
  | 0, pos => leaves[pos]?.getD hs.placeholder
  | level + 1, pos =>
    if pos * 2 ^ (level + 1) < leaves.length then
      hs.internal (hs.node leaves level (2 * pos)) (hs.node leaves level (2 * pos + 1))
    else hs.placeholder

/-- An accumulator has as many leaves as positions have room for. -/
structure Accumulator (H : Type) where
  leaves : List H
  nonempty : leaves ≠ []
  length_le : leaves.length ≤ 2 ^ MAX_ACCUMULATOR_PROOF_DEPTH

namespace Accumulator

variable (acc : Accumulator H)

/-- The levels of the smallest tree for the leaves. -/
def depth : ℕ := Nat.clog 2 acc.leaves.length

def rootHash (hs : AccumulatorHasher H) : H := hs.node acc.leaves acc.depth 0

end Accumulator

/-- Hashes do not collide, and the hash of a leaf is neither a placeholder nor that of a node. -/
structure AccumulatorHasher.Separates (hs : AccumulatorHasher H) (leaf : H → Prop) : Prop where
  injective : ∀ a b c d, hs.internal a b = hs.internal c d → a = c ∧ b = d
  placeholder : ∀ a b, hs.internal a b ≠ hs.placeholder
  leaf : ∀ h, leaf h → h ≠ hs.placeholder ∧ ∀ a b, h ≠ hs.internal a b

namespace AccumulatorHasher

variable {leaf : H → Prop} {leaves : List H} {level pos : ℕ} {a b : H} (hsep : hs.Separates leaf)

include hsep

theorem Separates.children (hleaves : ∀ h ∈ leaves, leaf h)
    (h : hs.internal a b = hs.node leaves level pos) :
    ∃ m, level = m + 1 ∧ a = hs.node leaves m (2 * pos) ∧ b = hs.node leaves m (2 * pos + 1) := by
  cases level with
  | zero =>
    rw [node] at h
    cases hget : leaves[pos]? with
    | none =>
      rw [hget] at h
      exact absurd h (hsep.placeholder a b)
    | some x =>
      rw [hget] at h
      exact absurd h.symm ((hsep.leaf x (hleaves x (mem_of_getElem? hget))).2 a b)
  | succ m =>
    rw [node] at h
    split_ifs at h
    · exact ⟨m,rfl,hsep.injective _ _ _ _ h⟩
    · exact absurd h (hsep.placeholder a b)

/-- Only at the lowest level a node is a leaf. -/
theorem Separates.eq_leaf (ha : leaf a) (h : a = hs.node leaves level pos) :
    level = 0 ∧ leaves[pos]? = some a := by
  obtain ⟨hne,hinternal⟩ := hsep.leaf a ha
  cases level with
  | zero =>
    rw [node] at h
    cases hget : leaves[pos]? with
    | none =>
      rw [hget] at h
      exact absurd h hne
    | some x =>
      rw [hget] at h
      exact ⟨rfl,congrArg some h.symm⟩
  | succ m =>
    rw [node] at h
    split_ifs at h
    · exact absurd h (hinternal _ _)
    · exact absurd h hne

end AccumulatorHasher

theorem two_mul_mod_add (pos r : ℕ) : 2 * (pos / 2 % 2 ^ r) + pos % 2 = pos % 2 ^ (r + 1) := by
  rw [Nat.pow_succ',Nat.mod_mul]
  omega

section Climbing

variable {leaf : H → Prop} {leaves : List H} (hsep : hs.Separates leaf)
  (hleaves : ∀ h ∈ leaves, leaf h)

include hsep hleaves

theorem AccumulatorProof.fold_sound {depth : ℕ} {siblings : List H} {a : H} {index : ℕ}
    (h : (siblings.foldl (fun (hash,index) siblingHash =>
      (if index % 2 = 0 then hs.internal hash siblingHash else hs.internal siblingHash hash,index / 2))
      (a,index)).1 = hs.node leaves depth 0) :
    ∃ m, depth = m + siblings.length ∧ a = hs.node leaves m (index % 2 ^ siblings.length) := by
  induction siblings generalizing a index with
  | nil => exact ⟨depth,rfl,by rw [length_nil,Nat.pow_zero,Nat.mod_one]; exact h⟩
  | cons x siblings ih =>
    obtain ⟨_,rfl,hnode⟩ := ih h
    rw [length_cons,← two_mul_mod_add]
    split_ifs at hnode with heven
    · obtain ⟨m,rfl,ha,-⟩ := hsep.children hleaves hnode
      exact ⟨m,by omega,by rw [heven]; exact ha⟩
    · obtain ⟨m,rfl,-,ha⟩ := hsep.children hleaves hnode
      exact ⟨m,by omega,by rw [Nat.mod_two_ne_zero.mp heven]; exact ha⟩

namespace AccumulatorRangeProof

variable {s t : Climb H} {row parents : List H} {depth : ℕ}

omit hsep hleaves in
theorem pairs_child {i : ℕ} {x : H} (h : pairs hs row = (parents,none)) (hx : row[i]? = some x) :
    ∃ y, parents[i / 2]? =
      some (if i % 2 = 0 then hs.internal x y else hs.internal y x) := by
  fun_induction pairs hs row generalizing parents i with
  | case1 a b rest ih =>
    obtain ⟨rfl,hrest⟩ := Prod.mk.inj h
    rcases i with _ | _ | i
    · exact ⟨b,by rw [← Option.some.inj hx]; rfl⟩
    · exact ⟨a,by rw [← Option.some.inj hx]; rfl⟩
    · obtain ⟨y,hy⟩ := ih (Prod.ext rfl hrest) hx
      rw [show i + 1 + 1 = i + 2 from rfl,Nat.add_div_right _ (by decide),Nat.add_mod_right]
      exact ⟨y,hy⟩
  | case2 a => cases h
  | case3 => cases hx

theorem row_sound {level q : ℕ} (h : pairs hs row = (parents,none)) (hne : row ≠ [])
    (hparents : ∀ j p, parents[j]? = some p → p = hs.node leaves level (q + j)) :
    ∃ m, level = m + 1 ∧ ∀ i x, row[i]? = some x → x = hs.node leaves m (2 * q + i) := by
  have hchild : ∀ i x, row[i]? = some x →
      ∃ m, level = m + 1 ∧ x = hs.node leaves m (2 * q + i) := by
    intro i x hx
    obtain ⟨y,hy⟩ := pairs_child h hx
    have hnode := hparents _ _ hy
    split_ifs at hnode with heven
    · obtain ⟨m,hm,hx,-⟩ := hsep.children hleaves hnode
      exact ⟨m,hm,by rw [hx]; congr 1; omega⟩
    · obtain ⟨m,hm,-,hx⟩ := hsep.children hleaves hnode
      exact ⟨m,hm,by rw [hx]; congr 1; omega⟩
  obtain ⟨a,rest,rfl⟩ := exists_cons_of_ne_nil hne
  obtain ⟨m,rfl,-⟩ := hchild 0 a rfl
  refine ⟨m,rfl,fun i x hx => ?_⟩
  obtain ⟨m',hm,hx⟩ := hchild i x hx
  rw [hx,Nat.succ.inj hm]

/-- What leads to the root are nodes of one level, from the position on. -/
theorem climb_sound {fuel : ℕ} (hclimb : climb hs fuel s = .ok t)
    (hroot : t.hashes.head? = some (hs.node leaves depth 0)) (hne : s.hashes ≠ []) :
    ∃ r m q, depth = m + r ∧ (∀ j a, s.hashes[j]? = some a → a = hs.node leaves m (q + j)) ∧
      ∀ level pos, level + r ≤ 63 → s.firstPos.At level pos → q = pos % 2 ^ r := by
  induction fuel generalizing s with
  | zero => cases hclimb
  | succ fuel ih =>
    rw [climb] at hclimb
    split_ifs at hclimb with hmore
    · obtain ⟨u,hround,hclimb⟩ := bind_eq_ok.mp hclimb
      have hreturns : Returns (fun _ => True) _ (round hs s) :=
        round_returns hne (fun _ => trivial) (fun _ _ => trivial) fun _ _ _ _ => trivial
      obtain ⟨xs,ys,hu⟩ := hreturns.of_ok hround
      obtain ⟨r,_,q,rfl,hnodes,hq⟩ := ih hclimb (hu.ne_nil hne)
      have hrow : xs ++ s.hashes ++ ys ≠ [] := by
        simp [hne]
      obtain ⟨m,rfl,hchildren⟩ := row_sound hsep hleaves hu.row hrow hnodes
      refine ⟨r + 1,m,2 * q + xs.length,by omega,fun j a ha => ?_,fun level pos hlevel hat => ?_⟩
      · have hget : (xs ++ s.hashes ++ ys)[xs.length + j]? = some a := by
          rw [append_assoc,getElem?_append_right (Nat.le_add_right _ _),Nat.add_sub_cancel_left,
            getElem?_append_left (List.getElem?_eq_some_iff.mp ha).1,ha]
        rw [Nat.add_assoc]
        exact hchildren _ a hget
      · have hright := hat.isRightChild (by omega) (Position.valid_of_parent hu.parent)
        rw [hu.isRight,Option.some.injEq,decide_eq_decide] at hright
        have hxs : xs.length = pos % 2 := by
          have hle := hu.lengths.1
          omega
        rw [hq _ _ (by omega) (hat.parent (by omega) hu.parent),hxs,two_mul_mod_add]
    · cases hclimb
      obtain ⟨a,rest,hcons⟩ := exists_cons_of_ne_nil hne
      have hrest : rest = [] := by
        refine eq_nil_of_length_eq_zero ?_
        rw [hcons,length_cons] at hmore
        omega
      rw [hcons] at hroot
      refine ⟨0,depth,0,rfl,fun j b hb => ?_,fun level pos _ _ => by rw [Nat.pow_zero,Nat.mod_one]⟩
      rw [hcons,hrest] at hb
      cases j with
      | zero => exact (Option.some.inj hb).symm.trans (Option.some.inj hroot)
      | succ j => cases hb

end AccumulatorRangeProof

end Climbing

variable (hs) in
/-- Siblings that lead from a node to the one `r` levels above it; of the index only as many bits
are looked at. -/
theorem AccumulatorProof.fold_complete (leaves : List H) {level pos index : ℕ} (r : ℕ)
    (hpos : pos * 2 ^ level < leaves.length) (hindex : index % 2 ^ r = pos % 2 ^ r) :
    ∃ siblings : List H, siblings.length = r ∧ (siblings.foldl (fun (hash,index) siblingHash =>
      (if index % 2 = 0 then hs.internal hash siblingHash else hs.internal siblingHash hash,index / 2))
      (hs.node leaves level pos,index)).1 = hs.node leaves (level + r) (pos / 2 ^ r) := by
  induction r generalizing level pos index with
  | zero => exact ⟨[],rfl,by rw [Nat.pow_zero,Nat.div_one]; rfl⟩
  | succ r ih =>
    rw [← two_mul_mod_add,← two_mul_mod_add] at hindex
    have hlt : pos / 2 * 2 ^ (level + 1) < leaves.length := by
      rw [Nat.pow_succ',← Nat.mul_assoc]
      exact (Nat.mul_le_mul_right _ (Nat.div_mul_le_self _ _)).trans_lt hpos
    obtain ⟨siblings,hlen,hfold⟩ := ih hlt (by omega : index / 2 % 2 ^ r = pos / 2 % 2 ^ r)
    rw [Nat.div_div_eq_div_mul,← Nat.pow_succ',Nat.add_right_comm,AccumulatorHasher.node,
      if_pos hlt] at hfold
    by_cases heven : pos % 2 = 0
    · refine ⟨hs.node leaves level (pos + 1) :: siblings,by rw [length_cons,hlen],?_⟩
      rw [show 2 * (pos / 2) = pos by omega] at hfold
      rw [foldl_cons]
      dsimp only
      rw [if_pos (by omega)]
      exact hfold
    · refine ⟨hs.node leaves level (2 * (pos / 2)) :: siblings,by rw [length_cons,hlen],?_⟩
      rw [show 2 * (pos / 2) + 1 = pos by omega] at hfold
      rw [foldl_cons]
      dsimp only
      rw [if_neg (by omega)]
      exact hfold

theorem Accumulator.depth_le (acc : Accumulator H) : acc.depth ≤ 63 :=
  Nat.clog_le_of_le_pow acc.length_le

section Accepted

variable [DecidableEq H] {leaf : H → Prop} (hsep : hs.Separates leaf) (acc : Accumulator H)
  (hleaves : ∀ h ∈ acc.leaves, leaf h) {i : BitVec 64}

include hsep hleaves

theorem AccumulatorProof.verify_shows {proof : AccumulatorProof H} {h : H} (hleaf : leaf h)
    (hverify : proof.verify hs (acc.rootHash hs) h i = .ok ()) :
    acc.leaves[i.toNat % 2 ^ acc.depth]? = some h := by
  simp only [AccumulatorProof.verify,bind_eq_ok,check_ok] at hverify
  obtain ⟨-,-,hroot⟩ := hverify
  obtain ⟨m,hm,hnode⟩ := AccumulatorProof.fold_sound hsep hleaves hroot
  obtain ⟨rfl,hget⟩ := hsep.eq_leaf hleaf hnode
  rwa [← Nat.zero_add proof.siblings.length,← hm] at hget

theorem AccumulatorRangeProof.verify_shows {proof : AccumulatorRangeProof H} {hashes : List H}
    (hleaf : ∀ h ∈ hashes, leaf h) (hne : hashes ≠ [])
    (hverify : proof.verify hs (acc.rootHash hs) (some i) hashes = .ok ()) {j : ℕ} {a : H}
    (ha : hashes[j]? = some a) : acc.leaves[i.toNat % 2 ^ acc.depth + j]? = some a := by
  simp only [AccumulatorRangeProof.verify,bind_eq_ok,check_ok,okOr_ok] at hverify
  obtain ⟨-,-,-,-,-,-,t,hclimb,_,hhead,rfl⟩ := hverify
  obtain ⟨r,m,q,hm,hnodes,hq⟩ := AccumulatorRangeProof.climb_sound hsep hleaves hclimb hhead hne
  have hdepth := acc.depth_le
  obtain ⟨hzero,hget⟩ := hsep.eq_leaf (hleaf a (mem_of_getElem? ha)) (hnodes j a ha)
  rw [hzero,Nat.zero_add] at hm
  rw [hq 0 _ (by omega) (Position.fromLeafIndex_at i),← hm,
    Nat.mod_mod_of_dvd _ (pow_dvd_pow 2 hdepth)] at hget
  exact hget

end Accepted

/-- The proofs that are accepted for an index show the leaves from there on if and only if the index
is below the leaves that the tree of the accumulator has room for, or its bits below the root are
those of no leaf. -/
theorem accumulator_proofs_sound_iff [DecidableEq H] {leaf : H → Prop} (hsep : hs.Separates leaf)
    (acc : Accumulator H) (hleaves : ∀ h ∈ acc.leaves, leaf h) (i : BitVec 64) :
    ((∀ (proof : AccumulatorProof H) (h : H), leaf h →
        proof.verify hs (acc.rootHash hs) h i = .ok () → acc.leaves[i.toNat]? = some h) ∧
      ∀ (proof : AccumulatorRangeProof H) (hashes : List H), (∀ h ∈ hashes, leaf h) → hashes ≠ [] →
        proof.verify hs (acc.rootHash hs) (some i) hashes = .ok () →
        i.toNat + hashes.length ≤ acc.leaves.length ∧
          (acc.leaves.drop i.toNat).take hashes.length = hashes) ↔
      (i.toNat < 2 ^ acc.depth ∨ acc.leaves.length ≤ i.toNat % 2 ^ acc.depth) := by
  constructor
  · rintro ⟨hsound,-⟩
    by_contra hcond
    obtain ⟨hbeyond,hlt⟩ := not_or.mp hcond
    rw [not_le] at hlt
    -- the leaf below the root is shown at the index as well
    obtain ⟨siblings,hlen,hfold⟩ := AccumulatorProof.fold_complete hs acc.leaves acc.depth
      (by rwa [pow_zero,mul_one] : i.toNat % 2 ^ acc.depth * 2 ^ 0 < acc.leaves.length)
      (Nat.mod_mod i.toNat (2 ^ acc.depth)).symm
    rw [Nat.zero_add,Nat.div_eq_of_lt (Nat.mod_lt _ (Nat.two_pow_pos _)),AccumulatorHasher.node,
      getElem?_eq_getElem hlt] at hfold
    have hget := hsound ⟨siblings⟩ _ (hleaves _ (getElem_mem hlt)) (by
      have hdepth := hlen.trans_le acc.depth_le
      simp only [AccumulatorProof.verify,bind_eq_ok,check_ok]
      exact ⟨(),hdepth,hfold⟩)
    have hle : acc.leaves.length ≤ 2 ^ acc.depth := Nat.le_pow_clog (by decide) _
    have hi := (List.getElem?_eq_some_iff.mp hget).1
    omega
  · intro hcond
    have hindex : ∀ {a : H}, acc.leaves[i.toNat % 2 ^ acc.depth]? = some a →
        i.toNat % 2 ^ acc.depth = i.toNat := by
      intro a ha
      have hlt := (List.getElem?_eq_some_iff.mp ha).1
      exact Nat.mod_eq_of_lt (hcond.resolve_right (by omega))
    refine ⟨fun proof h hleaf hverify => ?_,fun proof hashes hleaf hne hverify => ?_⟩
    · have hget := AccumulatorProof.verify_shows hsep acc hleaves hleaf hverify
      rwa [hindex hget] at hget
    · have hshows : ∀ {j : ℕ} {a : H}, hashes[j]? = some a →
          acc.leaves[i.toNat % 2 ^ acc.depth + j]? = some a := fun ha =>
        AccumulatorRangeProof.verify_shows hsep acc hleaves hleaf hne hverify ha
      have hpos := length_pos_of_ne_nil hne
      rw [hindex (hshows (getElem?_eq_getElem hpos))] at hshows
      refine ⟨?_,List.ext_getElem? fun j => ?_⟩
      · have hlast := hshows (getElem?_eq_getElem (by omega : hashes.length - 1 < hashes.length))
        have hlt := (List.getElem?_eq_some_iff.mp hlast).1
        omega
      · by_cases hj : j < hashes.length
        · rw [getElem?_take_of_lt hj,getElem?_drop,hshows (getElem?_eq_getElem hj),
            getElem?_eq_getElem hj]
        · rw [getElem?_eq_none (by rw [length_take]; omega),getElem?_eq_none (by omega)]

inductive FreeHash
  | placeholder
  | leaf (n : ℕ)
  | internal (left right : FreeHash)
  deriving DecidableEq

namespace FreeHash

def hasher : AccumulatorHasher FreeHash := ⟨.internal,.placeholder⟩

theorem separates : hasher.Separates fun h => ∃ n, h = .leaf n :=
  ⟨fun _ _ _ _ h => ⟨(internal.inj h).1,(internal.inj h).2⟩,nofun,by
    rintro _ ⟨n,rfl⟩
    exact ⟨nofun,nofun⟩⟩

def leaves (n : ℕ) : List FreeHash := (List.range n).map .leaf

def sample : Accumulator FreeHash := ⟨leaves 3,by decide,by decide⟩

def single : Accumulator FreeHash := ⟨leaves 1,by decide,by decide⟩

end FreeHash

open FreeHash in
theorem accumulator_proofs_sound_sample :
    sample.leaves[1]? = some (.leaf 1) ∧
      (sample.leaves.drop 1).take 2 = [.leaf 1,.leaf 2] := by
  have hsound := (accumulator_proofs_sound_iff separates sample
    (fun h hh => by obtain ⟨n,-,rfl⟩ := mem_map.mp hh; exact ⟨n,rfl⟩) 1).mpr (by decide)
  refine ⟨hsound.1 ⟨[.leaf 0,.internal (.leaf 2) .placeholder]⟩ _ ⟨1,rfl⟩ (by decide),
    (hsound.2 ⟨[.leaf 0],[.placeholder]⟩ [.leaf 1,.leaf 2] ?_ nofun (by decide)).2⟩
  intro h hh
  obtain rfl | hh := mem_cons.mp hh
  · exact ⟨1,rfl⟩
  · exact ⟨2,mem_singleton.mp hh⟩

open FreeHash in
/-- An accumulator of one leaf: the leaf is shown at the index 5. -/
theorem accumulator_proofs_unsound :
    (⟨[]⟩ : AccumulatorProof FreeHash).verify hasher (single.rootHash hasher) (.leaf 0) 5 = .ok () ∧
      (⟨[],[]⟩ : AccumulatorRangeProof FreeHash).verify hasher (single.rootHash hasher) (some 5)
        [.leaf 0] = .ok () ∧
      ¬ (5 : BitVec 64).toNat < single.leaves.length := by
  decide

end Arx.Types
