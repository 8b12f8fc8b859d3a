import Arx.Types.Position
import Mathlib.Data.BitVec

/-!
# Proofs of accumulators

`AccumulatorProof` shows that an element is a leaf of an accumulator, and `AccumulatorRangeProof`
that a list of elements are consecutive leaves.
-/

namespace Arx.Types
open Movelib List

def MAX_ACCUMULATOR_PROOF_DEPTH : ℕ := 63

/-- The hash of `MerkleTreeInternalNode` and `ACCUMULATOR_PLACEHOLDER_HASH`. -/
structure AccumulatorHasher (H : Type) where
  internal : H → H → H
  placeholder : H

inductive ProofError
  | siblings (len : ℕ)
  | rootHash
  | leavesWithoutIndex
  | siblingsWithoutIndex
  | leftSiblings (len : ℕ)
  | rightSiblings (len : ℕ)
  | noLeaves
  | missingLeft
  | missingRight
  /-- An assertion fails, or an element is expected that is not there. -/
  | panic
  /-- The fuel of the loop does not last. -/
  | fuel
  deriving DecidableEq

variable {H : Type} (hs : AccumulatorHasher H)

structure AccumulatorProof (H : Type) where
  /-- From the bottom level to the root level. -/
  siblings : List H

def AccumulatorProof.verify [DecidableEq H] (proof : AccumulatorProof H)
    (expectedRootHash elementHash : H) (elementIndex : BitVec 64) : Except ProofError Unit := do
  check (proof.siblings.length ≤ MAX_ACCUMULATOR_PROOF_DEPTH) (.siblings proof.siblings.length)
  let actualRootHash := (proof.siblings.foldl (fun (hash,index) siblingHash =>
    (if index % 2 = 0 then hs.internal hash siblingHash else hs.internal siblingHash hash,index / 2))
    (elementHash,elementIndex.toNat)).1
  check (actualRootHash = expectedRootHash) .rootHash

structure AccumulatorRangeProof (H : Type) where
  leftSiblings : List H
  rightSiblings : List H

namespace AccumulatorRangeProof

/-- The siblings and hashes that are left, and the position of the first hash. -/
structure Climb (H : Type) where
  left : List H
  right : List H
  firstPos : Position
  hashes : List H

/-- The parents of two children at a time, and the child that remains. -/
def pairs : List H → List H × Option H
  | a :: b :: rest => (hs.internal a b :: (pairs rest).1,(pairs rest).2)
  | [a] => ([],some a)
  | [] => ([],none)

/-- A first position that is a right child takes a sibling on the left. -/
def takeLeft : Bool → List H → List H → Except ProofError (List H × List H × List H)
  | true, [], _ => .error .missingLeft
  | true, _, [] => .error .panic
  | true, leftHash :: left, rightHash :: rest => .ok (left,[hs.internal leftHash rightHash],rest)
  | false, left, hashes => .ok (left,[],hashes)

/-- A child that remains takes a sibling on the right. -/
def takeRight : Option H → List H → Except ProofError (List H × List H)
  | none, right => .ok (right,[])
  | some _, [] => .error .missingRight
  | some leftHash, rightHash :: right => .ok (right,[hs.internal leftHash rightHash])

def round (s : Climb H) : Except ProofError (Climb H) := do
  let isRight ← okOr s.firstPos.isRightChild .panic
  let (left,first,rest) ← takeLeft hs isRight s.left s.hashes
  let (parents,remainder) := pairs hs rest
  let (right,last) ← takeRight hs remainder s.right
  let firstPos ← okOr s.firstPos.parent .panic
  pure ⟨left,right,firstPos,first ++ parents ++ last⟩

def climb : ℕ → Climb H → Except ProofError (Climb H)
  | 0, _ => .error .fuel
  | fuel + 1, s =>
    if 1 < s.hashes.length ∨ s.left ≠ [] ∨ s.right ≠ [] then do
      let s ← round hs s
      climb fuel s
    else .ok s

def verify [DecidableEq H] (proof : AccumulatorRangeProof H) (expectedRootHash : H)
    (firstLeafIndex : Option (BitVec 64)) (leafHashes : List H) : Except ProofError Unit :=
  match firstLeafIndex with
  | none => do
    check (leafHashes = []) .leavesWithoutIndex
    check (proof.leftSiblings = [] ∧ proof.rightSiblings = []) .siblingsWithoutIndex
  | some index => do
    let left := proof.leftSiblings
    let right := proof.rightSiblings
    check (left.length ≤ MAX_ACCUMULATOR_PROOF_DEPTH) (.leftSiblings left.length)
    check (right.length ≤ MAX_ACCUMULATOR_PROOF_DEPTH) (.rightSiblings right.length)
    check (leafHashes ≠ []) .noLeaves
    let s ← climb hs (left.length + right.length + leafHashes.length)
      ⟨left,right,.fromLeafIndex index,leafHashes⟩
    let actual ← okOr s.hashes.head? .panic
    check (actual = expectedRootHash) .rootHash

variable {hs}

theorem pairs_append {l : List H} {a : H} (h : (pairs hs l).2 = some a) (b : H) :
    pairs hs (l ++ [b]) = ((pairs hs l).1 ++ [hs.internal a b],none) := by
  fun_induction pairs hs l with
  | case1 x y rest ih =>
    rw [cons_append,cons_append,pairs,ih h]
    rfl
  | case2 x =>
    cases h
    rfl
  | case3 => cases h

theorem length_pairs {l parents : List H} {r : Option H} (h : pairs hs l = (parents,r)) :
    l.length = 2 * parents.length + r.toList.length := by
  fun_induction pairs hs l generalizing parents r with
  | case1 a b rest ih =>
    cases h
    rw [length_cons,length_cons,ih rfl,length_cons]
    omega
  | case2 a | case3 =>
    cases h
    rfl

/-- A round: the siblings that are taken complete the row, in which neighbours are combined. -/
structure Combines (hs : AccumulatorHasher H) (s t : Climb H) (xs ys : List H) : Prop where
  left : s.left = xs ++ t.left
  right : s.right = ys ++ t.right
  row : pairs hs (xs ++ s.hashes ++ ys) = (t.hashes,none)
  isRight : s.firstPos.isRightChild = some (decide (xs.length = 1))
  lengths : xs.length ≤ 1 ∧ ys.length ≤ 1
  parent : s.firstPos.parent = some t.firstPos

variable {allowed : ProofError → Prop} {s t : Climb H} {xs ys : List H}

theorem takeLeft_returns {isRight : Bool} {left hashes : List H} (hne : hashes ≠ [])
    (hleft : isRight = true → left = [] → allowed .missingLeft) :
    Returns allowed (fun r => ∃ xs, left = xs ++ r.1 ∧ xs.length = isRight.toNat ∧
      ∀ ys, pairs hs (xs ++ hashes ++ ys) =
        (r.2.1 ++ (pairs hs (r.2.2 ++ ys)).1,(pairs hs (r.2.2 ++ ys)).2))
      (takeLeft hs isRight left hashes) := by
  cases isRight with
  | false => exact ⟨[],rfl,rfl,fun ys => rfl⟩
  | true =>
    cases left with
    | nil => exact hleft rfl rfl
    | cons x left =>
      cases hashes with
      | nil => exact absurd rfl hne
      | cons a rest => exact ⟨[x],rfl,rfl,fun ys => rfl⟩

theorem takeRight_returns {rest right : List H}
    (hright : (pairs hs rest).2 ≠ none → right = [] → allowed .missingRight) :
    Returns allowed (fun r => ∃ ys, right = ys ++ r.1 ∧ ys.length ≤ 1 ∧
      pairs hs (rest ++ ys) = ((pairs hs rest).1 ++ r.2,none))
      (takeRight hs (pairs hs rest).2 right) := by
  cases hr : (pairs hs rest).2 with
  | none =>
    refine ⟨[],rfl,Nat.zero_le _,?_⟩
    rw [append_nil,append_nil,← hr]
  | some a =>
    cases right with
    | nil => exact hright (hr ▸ nofun) rfl
    | cons y right => exact ⟨[y],rfl,le_rfl,pairs_append hr y⟩

theorem round_invalid (h : ¬ s.firstPos.Valid) : round hs s = .error .panic := by
  rw [round,Position.isRightChild,Position.isLeftChild,if_neg h]
  rfl

/-- A round panics only where the position does, and turns a proof down that lacks a sibling. -/
theorem round_returns (hne : s.hashes ≠ []) (hpos : ¬ s.firstPos.Valid → allowed .panic)
    (hleft : s.firstPos.isRightChild = some true → s.left = [] → allowed .missingLeft)
    (hright : ∀ isRight, s.firstPos.isRightChild = some isRight →
      (isRight.toNat + s.hashes.length) % 2 = 1 → s.right = [] → allowed .missingRight) :
    Returns allowed (fun t => ∃ xs ys, Combines hs s t xs ys) (round hs s) := by
  rw [round]
  by_cases hv : s.firstPos.Valid
  · obtain ⟨isRight,hisRight⟩ : ∃ b, s.firstPos.isRightChild = some b := ⟨_,by
      rw [Position.isRightChild,Position.isLeftChild,if_pos hv]; rfl⟩
    obtain ⟨firstPos,hparent⟩ : ∃ q, s.firstPos.parent = some q := ⟨_,if_pos hv⟩
    rw [hisRight,hparent]
    refine (takeLeft_returns hne fun hb => hleft (hb ▸ hisRight)).bind ?_
    rintro ⟨left,first,rest⟩ ⟨xs,hxs,hlen,hrow⟩
    refine (takeRight_returns fun hsome => hright isRight hisRight ?_).bind ?_
    · have hrest := hrow []
      rw [append_nil,append_nil] at hrest
      obtain ⟨a,ha⟩ := Option.ne_none_iff_exists'.mp hsome
      have hodd := length_pairs hrest
      rw [length_append,hlen,ha,Option.toList_some,length_singleton] at hodd
      omega
    · rintro ⟨right,last⟩ ⟨ys,hys,hle,hpairs⟩
      refine ⟨xs,ys,hxs,hys,?_,?_,?_,hparent⟩
      · rw [hrow,hpairs,append_assoc]
      · rw [hisRight,hlen]
        cases isRight <;> rfl
      · exact ⟨hlen.trans_le isRight.toNat_le,hle⟩
  · rw [← round,round_invalid hv]
    exact hpos hv

theorem Combines.length_eq (h : Combines hs s t xs ys) :
    xs.length + s.hashes.length + ys.length = 2 * t.hashes.length := by
  have hlen := length_pairs h.row
  rwa [length_append,length_append,Option.toList_none,length_nil,Nat.add_zero] at hlen

theorem Combines.ne_nil (h : Combines hs s t xs ys) (hne : s.hashes ≠ []) : t.hashes ≠ [] := by
  have hlen := h.length_eq
  have hpos := length_pos_of_ne_nil hne
  exact ne_nil_of_length_pos (by omega)

/-- The ones among the low `d` bits of a number. -/
def ones : ℕ → ℕ → ℕ
  | 0, _ => 0
  | d + 1, n => n % 2 + ones d (n / 2)

theorem ones_le (d n : ℕ) : ones d n ≤ d := by
  induction d generalizing n with
  | zero => exact le_rfl
  | succ d ih =>
    have hrest := ih (n / 2)
    rw [ones]
    omega

/-- With `d` levels above a row, there is a sibling on the left for each one of the first position and
on the right for each zero of the last, and something is left at the top. -/
def LeadsOut (d first last left right : ℕ) : Prop :=
  ones d first ≤ left ∧ d ≤ right + ones d last ∧
    (ones d first < left ∨ d < right + ones d last ∨ 2 ^ d ≤ last)

instance (d first last left right : ℕ) : Decidable (LeadsOut d first last left right) :=
  inferInstanceAs (Decidable (_ ∧ _))

section LeadsOut

variable {d first last left right : ℕ}

theorem leadsOut_zero : LeadsOut 0 first last left right ↔ 0 < left ∨ 0 < right ∨ 0 < last := by
  simp only [LeadsOut,ones,Nat.pow_zero]
  omega

theorem not_leadsOut_left (h : first % 2 = 1) : ¬ LeadsOut (d + 1) first last 0 right := by
  rintro ⟨hones,-⟩
  rw [ones] at hones
  omega

theorem not_leadsOut_right (h : last % 2 = 0) : ¬ LeadsOut (d + 1) first last left 0 := by
  rintro ⟨-,hzeros,-⟩
  have hle := ones_le d (last / 2)
  rw [ones] at hzeros
  omega

/-- One level up, where `x` and `y` siblings are taken on the left and on the right. -/
theorem leadsOut_succ {x y : ℕ} (hx : x = first % 2) (hy : y + last % 2 = 1) :
    LeadsOut (d + 1) first last (x + left) (y + right) ↔
      LeadsOut d (first / 2) (last / 2) left right := by
  simp only [LeadsOut,ones,Nat.pow_succ]
  omega

end LeadsOut

/-- A position with `d` levels above it; the one above the root is not valid. -/
def Below (p : Position) (d pos : ℕ) : Prop :=
  match d with
  | 0 => ¬ p.Valid ∧ pos = 0
  | d + 1 => p.Valid ∧ p.At (63 - d) pos

theorem below_parent {p q : Position} {d pos : ℕ} (h : Below p (d + 1) pos) (hd : d < 64)
    (hq : p.parent = some q) : Below q d (pos / 2) := by
  obtain ⟨-,hat⟩ := h
  cases d with
  | zero =>
    have hlt := p.index.isLt
    rw [Position.At] at hat
    have hp : p = ⟨2 ^ 63 - 1⟩ := by
      refine congrArg Position.mk (BitVec.eq_of_toNat_eq (?_ : p.index.toNat = _))
      rw [show (2 ^ 63 - 1 : BitVec 64).toNat = 2 ^ 63 - 1 by decide +kernel]
      omega
    have htop : Position.parent ⟨2 ^ 63 - 1⟩ = some ⟨BitVec.allOnes 64⟩ := by decide +kernel
    rw [hp,htop] at hq
    cases hq
    exact ⟨by decide,by omega⟩
  | succ d =>
    have hup := hat.parent (by omega) hq
    rw [show 63 - (d + 1) + 1 = 63 - d by omega] at hup
    exact ⟨hup.valid (by omega) fun hbottom => by omega,hup⟩

theorem climb_returns {fuel d pos : ℕ} (hne : s.hashes ≠ []) (hd : d ≤ 64)
    (hfuel : s.left.length + s.right.length + s.hashes.length ≤ fuel)
    (hpos : Below s.firstPos d pos) :
    Returns (fun e => e ≠ .fuel ∧ (e = .panic ↔ LeadsOut d pos (pos + s.hashes.length - 1)
        s.left.length s.right.length))
      (fun t => t.hashes ≠ [] ∧ ¬ LeadsOut d pos (pos + s.hashes.length - 1) s.left.length
        s.right.length) (climb hs fuel s) := by
  have hlen := length_pos_of_ne_nil hne
  induction fuel generalizing s d pos with
  | zero => omega
  | succ fuel ih =>
    rw [climb]
    split_ifs with hmore
    · cases d with
      | zero =>
        obtain ⟨hinvalid,rfl⟩ := hpos
        rw [round_invalid hinvalid]
        refine ⟨nofun,iff_of_true rfl (leadsOut_zero.mpr ?_)⟩
        simp only [← length_pos_iff] at hmore
        omega
      | succ d =>
        obtain ⟨hv,hat⟩ := hpos
        have hisRight := hat.isRightChild (by omega) hv
        refine (round_returns hne (fun hinvalid => absurd hv hinvalid) (fun hr hnil => ?_)
          fun isRight hr hodd hnil => ?_).bind ?_
        · rw [hisRight,Option.some.injEq,decide_eq_true_iff] at hr
          rw [hnil]
          exact ⟨nofun,iff_of_false nofun (not_leadsOut_left (by omega))⟩
        · rw [hisRight,Option.some.injEq] at hr
          have hparity : isRight.toNat = pos % 2 := by
            obtain heven | hodd := Nat.mod_two_eq_zero_or_one pos
            · rw [← hr,heven]
              rfl
            · rw [← hr,hodd]
              rfl
          rw [hnil]
          exact ⟨nofun,iff_of_false nofun (not_leadsOut_right (by omega))⟩
        · rintro t ⟨xs,ys,ht⟩
          have hlength := ht.length_eq
          have hxs : xs.length = pos % 2 := by
            have hle := ht.lengths.1
            have heq := ht.isRight.symm.trans hisRight
            rw [Option.some.injEq,decide_eq_decide] at heq
            omega
          have hys := ht.lengths.2
          have hlast : (pos + s.hashes.length - 1) / 2 = pos / 2 + t.hashes.length - 1 := by omega
          rw [ht.left,ht.right,length_append,length_append] at hfuel
          rw [ht.left,ht.right,length_append,length_append,leadsOut_succ hxs (by omega),hlast]
          exact ih (ht.ne_nil hne) (by omega) (by omega) (below_parent ⟨hv,hat⟩ (by omega) ht.parent)
            (by omega)
    · refine ⟨hne,?_⟩
      simp only [not_or,not_not,not_lt] at hmore
      obtain ⟨hone,hleft,hright⟩ := hmore
      rw [hleft,hright,show pos + s.hashes.length - 1 = pos by omega]
      cases d with
      | zero =>
        obtain ⟨-,rfl⟩ := hpos
        rw [leadsOut_zero]
        simp
      | succ d =>
        rintro ⟨hones,hzeros,-⟩
        simp only [length_nil] at hones hzeros
        omega

/-- The leaves lead to a position that the assertions do not admit: that of the last leaf, or the one
above the root. -/
def LeavesTree (first count left right : ℕ) : Prop :=
  first + 1 = 2 ^ 63 ∧ (1 < count ∨ 0 < left ∨ 0 < right) ∨
    LeadsOut 64 first (first + count - 1) left right

/-- The call passes the checks of the lengths, and leaves the tree. -/
def Overruns (proof : AccumulatorRangeProof H) (index : Option (BitVec 64)) (count : ℕ) : Prop :=
  let left := proof.leftSiblings.length
  let right := proof.rightSiblings.length
  ∃ i ∈ index, left ≤ MAX_ACCUMULATOR_PROOF_DEPTH ∧ right ≤ MAX_ACCUMULATOR_PROOF_DEPTH ∧ 0 < count ∧
    LeavesTree (i.toNat % 2 ^ 63) count left right

theorem climb_leaf {i : BitVec 64} {left right leaves : List H} (hne : leaves ≠ []) {bad : Prop}
    (hbad : bad ↔ LeavesTree (i.toNat % 2 ^ 63) leaves.length left.length right.length) :
    Returns (fun e => e ≠ .fuel ∧ (e = .panic ↔ bad)) (fun t => t.hashes ≠ [] ∧ ¬ bad)
      (climb hs (left.length + right.length + leaves.length)
        ⟨left,right,.fromLeafIndex i,leaves⟩) := by
  have hat := Position.fromLeafIndex_at i
  have hpos := length_pos_of_ne_nil hne
  by_cases hlast : i.toNat % 2 ^ 63 + 1 = 2 ^ 63
  · have hinvalid : ¬ (Position.fromLeafIndex i).Valid := by
      intro hv
      have hlt : (Position.fromLeafIndex i).index.toNat < 2 ^ 64 - 2 := hv
      rw [hat] at hlt
      omega
    rw [show left.length + right.length + leaves.length =
      left.length + right.length + (leaves.length - 1) + 1 by omega,climb]
    split_ifs with hmore
    · rw [round_invalid hinvalid]
      refine ⟨nofun,iff_of_true rfl (hbad.mpr (.inl ⟨hlast,?_⟩))⟩
      simpa only [← length_pos_iff] using hmore
    · refine ⟨hne,fun h => ?_⟩
      simp only [← length_pos_iff] at hmore
      obtain ⟨-,hsome⟩ | hout := hbad.mp h
      · exact hmore hsome
      · obtain ⟨hones,hzeros,-⟩ := hout
        rw [show i.toNat % 2 ^ 63 + leaves.length - 1 = i.toNat % 2 ^ 63 by omega] at hzeros
        omega
  · have hbad' := hbad.trans (or_iff_right fun h => hlast h.1)
    rw [hbad']
    exact climb_returns hne le_rfl le_rfl ⟨hat.valid (by decide) fun _ => hlast,hat⟩

/-- The verifier ends, and panics exactly on the inputs that overrun the tree. -/
theorem verify_returns_iff [DecidableEq H] (hs : AccumulatorHasher H)
    (proof : AccumulatorRangeProof H) (root : H) (index : Option (BitVec 64)) (leaves : List H) :
    proof.verify hs root index leaves ≠ .error .fuel ∧
      (proof.verify hs root index leaves ≠ .error .panic ↔
        ¬ proof.Overruns index leaves.length) := by
  have hends : Returns (fun e => e ≠ .fuel ∧ (e = .panic ↔ proof.Overruns index leaves.length))
      (fun _ => ¬ proof.Overruns index leaves.length) (proof.verify hs root index leaves) := by
    cases index with
    | none =>
      have hnone : ¬ proof.Overruns none leaves.length := nofun
      exact (Returns.check fun _ => ⟨nofun,iff_of_false nofun hnone⟩).bind fun _ _ =>
        (Returns.check fun _ => ⟨nofun,iff_of_false nofun hnone⟩).imp fun _ _ => hnone
    | some i =>
      refine (Returns.check fun hlong => ⟨nofun,iff_of_false nofun ?_⟩).bind fun _ hleft =>
        (Returns.check fun hlong => ⟨nofun,iff_of_false nofun ?_⟩).bind fun _ hright =>
        (Returns.check fun hnil => ⟨nofun,iff_of_false nofun ?_⟩).bind fun _ hne => ?_
      · refine (climb_leaf hne ⟨?_,?_⟩).bind fun t ht => ?_
        · rintro ⟨_,⟨⟩,-,-,-,hout⟩
          exact hout
        · intro hout
          exact ⟨i,rfl,hleft,hright,length_pos_of_ne_nil hne,hout⟩
        · obtain ⟨a,hashes,hcons⟩ := exists_cons_of_ne_nil ht.1
          rw [hcons]
          exact (Returns.check fun _ => ⟨nofun,iff_of_false nofun ht.2⟩).imp fun _ _ => ht.2
      · rintro ⟨_,-,hle,-⟩
        exact hlong hle
      · rintro ⟨_,-,-,hle,-⟩
        exact hlong hle
      · rintro ⟨_,-,-,-,hpos,-⟩
        exact hnil (ne_nil_of_length_pos hpos)
  cases hv : proof.verify hs root index leaves with
  | error e =>
    rw [hv] at hends
    refine ⟨?_,?_⟩
    · rintro ⟨⟩
      exact hends.1 rfl
    · rw [← hends.2]
      exact not_congr ⟨Except.error.inj,congrArg _⟩
  | ok =>
    rw [hv] at hends
    exact ⟨nofun,iff_of_true nofun hends⟩

def unitHasher : AccumulatorHasher Unit := ⟨fun _ _ => (),()⟩

theorem verify_returns_sample :
    (⟨[()],[()]⟩ : AccumulatorRangeProof Unit).verify unitHasher () (some 1) [(),()] ≠
      .error .panic := by
  refine (verify_returns_iff _ _ _ _ _).2.mpr ?_
  rintro ⟨i,hi,hout⟩
  cases hi
  revert hout
  unfold LeavesTree
  decide

/-- The last index, and as many siblings as lead out of the tree. -/
theorem verify_panics :
    (⟨[()],[]⟩ : AccumulatorRangeProof Unit).verify unitHasher () (some (2 ^ 63 - 1)) [()] =
        .error .panic ∧
      (⟨replicate 2 (),replicate 63 ()⟩ : AccumulatorRangeProof Unit).verify unitHasher () (some 3)
        [()] = .error .panic := by
  decide +kernel

end AccumulatorRangeProof

end Arx.Types
