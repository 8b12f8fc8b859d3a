import Arx.Movelib.Except
import Mathlib.Data.Nat.Bitwise

/-!
# Positions in an accumulator

A node is told by its number in the in-order traversal: as many ones as its level, then a zero,
then the bits of its place in the level.
-/

namespace Arx.Types
open Movelib

structure Position where
  index : BitVec 64
  deriving DecidableEq

def isolateRightmostZeroBit (v : BitVec 64) : BitVec 64 := ~~~v &&& (v + 1)

namespace Position

variable (p : Position)

/-- The position of a leaf; the highest bit of its index is shifted out. -/
def fromLeafIndex (leafIndex : BitVec 64) : Position := ⟨leafIndex <<< 1⟩

/-- The invariant that the functions assert. There is no result if it fails. -/
def Valid : Prop := p.index < BitVec.allOnes 64 - 1

instance : Decidable p.Valid := inferInstanceAs (Decidable (_ < _))

def parent : Option Position :=
  let bit := isolateRightmostZeroBit p.index
  if p.Valid then some ⟨(p.index ||| bit) &&& ~~~(bit <<< 1)⟩ else none

def isLeftChild : Option Bool :=
  if p.Valid then some (p.index &&& (isolateRightmostZeroBit p.index <<< 1) == 0) else none

def isRightChild : Option Bool := p.isLeftChild.map not

/-- The node `pos` of a level. -/
def At (level pos : ℕ) : Prop := p.index.toNat = 2 ^ (level + 1) * pos + (2 ^ level - 1)

variable {p} {level pos : ℕ}

theorem fromLeafIndex_at (i : BitVec 64) : (fromLeafIndex i).At 0 (i.toNat % 2 ^ 63) := by
  simp only [At,fromLeafIndex,BitVec.toNat_shiftLeft,Nat.shiftLeft_eq]
  omega

theorem At.testBit (h : p.At level pos) (i : ℕ) : p.index.getLsbD i =
    if i < level + 1 then decide (i < level) else pos.testBit (i - (level + 1)) := by
  have hlt : 2 ^ level - 1 < 2 ^ (level + 1) :=
    (Nat.sub_lt (Nat.two_pow_pos level) Nat.one_pos).trans_le (Nat.pow_le_pow_right (by decide) (by omega))
  rw [← BitVec.testBit_toNat,h,Nat.testBit_two_pow_mul_add _ hlt,Nat.testBit_two_pow_sub_one]

section

variable (h : p.At level pos) (hlevel : level < 64)

include h hlevel

theorem At.succ : (p.index + 1).toNat = 2 ^ (level + 1) * pos + 2 ^ level := by
  have hlt := p.index.isLt
  have hone := Nat.two_pow_pos level
  have hsplit : 2 ^ 64 = 2 ^ (level + 1) * 2 ^ (63 - level) := by
    rw [← Nat.pow_add]
    congr 1
    omega
  have hpos : pos < 2 ^ (63 - level) := by
    refine Nat.lt_of_mul_lt_mul_left (a := 2 ^ (level + 1)) ?_
    rw [← hsplit]
    exact (Nat.le_add_right _ _).trans_lt (h ▸ hlt)
  have hmul : 2 ^ (level + 1) * (pos + 1) ≤ 2 ^ 64 := hsplit ▸ Nat.mul_le_mul_left _ hpos
  rw [Nat.mul_succ,Nat.pow_succ] at hmul
  have hadd : p.index.toNat + 1 = 2 ^ (level + 1) * pos + 2 ^ level := by
    rw [h]
    omega
  change (p.index.toNat + 1) % 2 ^ 64 = _
  rw [hadd,Nat.mod_eq_of_lt (by rw [Nat.pow_succ]; omega)]

theorem At.isolate : isolateRightmostZeroBit p.index = BitVec.twoPow 64 level := by
  have hlt : 2 ^ level < 2 ^ (level + 1) := Nat.pow_lt_pow_succ (by decide)
  refine BitVec.eq_of_getLsbD_eq fun i hi => ?_
  rw [isolateRightmostZeroBit,BitVec.getLsbD_and,BitVec.getLsbD_not,h.testBit,
    ← BitVec.testBit_toNat (p.index + 1),h.succ hlevel,Nat.testBit_two_pow_mul_add _ hlt,
    Nat.testBit_two_pow,BitVec.getLsbD_twoPow]
  by_cases heq : level = i
  · simp [← heq,hlevel]
  · by_cases hlow : i < level + 1
    · simp [heq,hlow]
    · simp [heq,hlow]

/-- The last of all leaves is the one that the assertions do not admit. -/
theorem At.valid (hlast : level = 0 → pos + 1 ≠ 2 ^ 63) : p.Valid := by
  have hsucc := h.succ hlevel
  have hlt := (p.index + 1).isLt
  have hone := Nat.two_pow_pos level
  change p.index.toNat < 2 ^ 64 - 2
  rw [h]
  cases level with
  | zero =>
    have hne := hlast rfl
    omega
  | succ l =>
    have heven : 2 ∣ 2 ^ (l + 1 + 1) * pos + 2 ^ (l + 1) :=
      dvd_add ((dvd_pow_self 2 (by omega)).mul_right pos) (dvd_pow_self 2 (by omega))
    omega

end

theorem and_twoPow_beq_zero (v : BitVec 64) (i : ℕ) :
    (v &&& BitVec.twoPow 64 i == 0) = !v.getLsbD i := by
  rw [BitVec.and_twoPow]
  cases hbit : v.getLsbD i with
  | false => rfl
  | true =>
    have hlt := BitVec.lt_of_getLsbD hbit
    rw [Bool.not_true,beq_eq_false_iff_ne]
    intro hzero
    have hget := congrArg (BitVec.getLsbD · i) hzero
    simp [hlt] at hget

theorem At.isRightChild (h : p.At level pos) (hlevel : level < 64) (hp : p.Valid) :
    p.isRightChild = some (decide (pos % 2 = 1)) := by
  rw [Position.isRightChild,isLeftChild,if_pos hp,h.isolate hlevel,BitVec.twoPow_eq,
    ← BitVec.shiftLeft_add,← BitVec.twoPow_eq,and_twoPow_beq_zero,h.testBit,if_neg (Nat.lt_irrefl _),
    Nat.sub_self,Nat.testBit_zero,Option.map_some,Bool.not_not]

theorem valid_of_parent {q : Position} (h : p.parent = some q) : p.Valid :=
  (Option.ite_none_right_eq_some.mp h).1

theorem At.parent {q : Position} (h : p.At level pos) (hlevel : level < 63)
    (hq : p.parent = some q) : q.At (level + 1) (pos / 2) := by
  obtain ⟨-,hq⟩ := Option.ite_none_right_eq_some.mp hq
  cases hq
  have hfits : 2 ^ (level + 1) - 1 < 2 ^ (level + 1 + 1) :=
    (Nat.sub_le _ _).trans_lt (Nat.pow_lt_pow_succ (by decide))
  refine Nat.eq_of_testBit_eq fun i => ?_
  rw [h.isolate (by omega),BitVec.testBit_toNat,BitVec.getLsbD_and,BitVec.getLsbD_or,BitVec.getLsbD_not,
    BitVec.twoPow_eq,← BitVec.shiftLeft_add,← BitVec.twoPow_eq,← BitVec.twoPow_eq,
    BitVec.getLsbD_twoPow,BitVec.getLsbD_twoPow,h.testBit,Nat.testBit_two_pow_mul_add _ hfits,
    Nat.testBit_two_pow_sub_one,Nat.testBit_div_two]
  obtain hlow | rfl | rfl | hhigh : i < level ∨ i = level ∨ i = level + 1 ∨ level + 1 < i := by omega
  · simp [hlow,show i < 64 by omega,show i < level + 1 by omega,show i < level + 1 + 1 by omega,
      show level + 1 ≠ i by omega]
  · simp
    omega
  · simp
  · have hget := h.testBit i
    rw [if_neg (by omega)] at hget ⊢
    rw [if_neg (by omega),show i - (level + 1 + 1) + 1 = i - (level + 1) by omega,← hget]
    by_cases hi : i < 64
    · simp [hi,show level ≠ i by omega,show level + 1 ≠ i by omega]
    · simp [hi,BitVec.getLsbD_of_ge p.index i (by omega)]

end Position

end Arx.Types
