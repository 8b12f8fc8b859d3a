import Arx.Movelib.Abort
import Arx.Movelib.Bytes

/-!
# `std::u256`

Numbers of four words of 64 bits, lowest word first. The bitwise operations are left out:
they are private to the source module and no function calls them.

Sums, differences, products and comparisons are exact: the words are read as a function on indices,
and the loops are described by what they do to its `value` in base `2 ^ 64`.
-/

namespace Arx
open Movelib

/-- The `U256` resource: four `u64` words. -/
structure U256 where
  v0 : ℕ
  v1 : ℕ
  v2 : ℕ
  v3 : ℕ
  deriving DecidableEq

/-- The eight words in which `mul` collects the product. -/
structure DU256 where
  v0 : ℕ
  v1 : ℕ
  v2 : ℕ
  v3 : ℕ
  v4 : ℕ
  v5 : ℕ
  v6 : ℕ
  v7 : ℕ
  deriving DecidableEq

namespace U256

def EWORDS_OVERFLOW : Abort := .code 1
def EOVERFLOW : Abort := .code 2
def EDIV_BY_ZERO : Abort := .code 3

def U64_MAX : ℕ := 18446744073709551615
def WORDS : ℕ := 4

def EQUAL : ℕ := 0
def LESS_THAN : ℕ := 1
def GREATER_THAN : ℕ := 2

def zero : U256 := ⟨0,0,0,0⟩

variable (a b : U256) (b1 i val shift : ℕ)

def get : Result ℕ :=
  match i with
  | 0 => .ok a.v0
  | 1 => .ok a.v1
  | 2 => .ok a.v2
  | 3 => .ok a.v3
  | _ => .error EWORDS_OVERFLOW

def getD (a : DU256) (i : ℕ) : Result ℕ :=
  match i with
  | 0 => .ok a.v0
  | 1 => .ok a.v1
  | 2 => .ok a.v2
  | 3 => .ok a.v3
  | 4 => .ok a.v4
  | 5 => .ok a.v5
  | 6 => .ok a.v6
  | 7 => .ok a.v7
  | _ => .error EWORDS_OVERFLOW

def put : Result U256 :=
  match i with
  | 0 => .ok { a with v0 := val }
  | 1 => .ok { a with v1 := val }
  | 2 => .ok { a with v2 := val }
  | 3 => .ok { a with v3 := val }
  | _ => .error EWORDS_OVERFLOW

def putD (a : DU256) (i val : ℕ) : Result DU256 :=
  match i with
  | 0 => .ok { a with v0 := val }
  | 1 => .ok { a with v1 := val }
  | 2 => .ok { a with v2 := val }
  | 3 => .ok { a with v3 := val }
  | 4 => .ok { a with v4 := val }
  | 5 => .ok { a with v5 := val }
  | 6 => .ok { a with v6 := val }
  | 7 => .ok { a with v7 := val }
  | _ => .error EWORDS_OVERFLOW

def du256ToU256 (a : DU256) : U256 × Bool :=
  (⟨a.v0,a.v1,a.v2,a.v3⟩, decide (a.v4 ≠ 0 ∨ a.v5 ≠ 0 ∨ a.v6 ≠ 0 ∨ a.v7 ≠ 0))

def splitU128 (a : ℕ) : Result (ℕ × ℕ) := do
  let a1 ← castChecked 64 (a >>> 64)
  let a2 ← castChecked 64 (a &&& 0xFFFFFFFFFFFFFFFF)
  pure (a1, a2)

def overflowingAdd (a b : ℕ) : Result (ℕ × Bool) := do
  let r ← addChecked 128 a b
  if r > U64_MAX then do
    let d ← subChecked r U64_MAX
    let overflow ← subChecked d 1
    let overflow ← castChecked 64 overflow
    pure (overflow, true)
  else do
    let r ← addChecked 128 a b
    let r ← castChecked 64 r
    pure (r, false)

def overflowingSub (a b : ℕ) : Result (ℕ × Bool) :=
  if a < b then do
    let r ← subChecked b a
    let d ← subChecked U64_MAX r
    let d ← addChecked 64 d 1
    pure (d, true)
  else do
    let d ← subChecked a b
    pure (d, false)

def fromU128 : Result U256 := do
  let (a2, a1) ← splitU128 val
  pure ⟨a1,a2,0,0⟩

def fromU64 : Result U256 := fromU128 val

/-- `add` and `sub` combine the words of one index with the carry from the index before:
first the two words, then the carry if there is one. -/
def withCarry (op : ℕ → ℕ → Result (ℕ × Bool)) (a1 b1 carry : ℕ) : Result (ℕ × ℕ) :=
  if carry ≠ 0 then do
    let (res1, isOverflow1) ← op a1 b1
    let (res2, isOverflow2) ← op res1 carry
    pure (res2, isOverflow1.toNat + isOverflow2.toNat)
  else do
    let (res, isOverflow) ← op a1 b1
    pure (res, isOverflow.toNat)

def wordwise (op : ℕ → ℕ → Result (ℕ × Bool)) (a b : U256) : Result U256 := do
  let (ret, carry) ← forRange 0 WORDS (fun i st => do
    let a1 ← a.get i
    let b1 ← b.get i
    let (res, carry) ← withCarry op a1 b1 st.2
    let ret ← st.1.put i res
    pure (ret, carry)) (zero, 0)
  ensure (carry = 0) EOVERFLOW
  pure ret

def add : U256 → U256 → Result U256 := wordwise overflowingAdd

def sub : U256 → U256 → Result U256 := wordwise overflowingSub

def compareFrom (a b : U256) : ℕ → Result ℕ
  | 0 => .ok EQUAL
  | i + 1 => do
    let a1 ← a.get i
    let b1 ← b.get i
    if a1 ≠ b1 then
      if a1 < b1 then .ok LESS_THAN else .ok GREATER_THAN
    else compareFrom a b i

def compare : Result ℕ := compareFrom a b WORDS

/-- One product of words, added to the words `k` and `k + 1` of the result. -/
def mulWord (a1 b1 k : ℕ) (ret : DU256) (carry : ℕ) : Result (DU256 × ℕ) :=
  if a1 ≠ 0 ∨ carry ≠ 0 then do
    let product ← mulChecked 128 a1 b1
    let (hi, low) ← splitU128 product
    let existingLow ← getD ret k
    let (low, o) ← overflowingAdd low existingLow
    let ret ← putD ret k low
    let existingHi ← getD ret (k + 1)
    let hi ← addChecked 64 hi o.toNat
    let (hi, o0) ← overflowingAdd hi carry
    let (hi, o1) ← overflowingAdd hi existingHi
    let ret ← putD ret (k + 1) hi
    pure (ret, (o0 || o1).toNat)
  else .ok (ret, carry)

/-- The products of the word `b1` at index `i` with all words of `a`. -/
def mulRow (ret : DU256) : Result (DU256 × ℕ) :=
  forRange 0 WORDS (fun j st => do
    let a1 ← a.get j
    mulWord a1 b1 (i + j) st.1 st.2) (ret, 0)

def mul : Result U256 := do
  let ret ← forRange 0 WORDS (fun i ret => do
    let b1 ← b.get i
    let (ret, _) ← mulRow a b1 i ret
    pure ret) ⟨0,0,0,0,0,0,0,0⟩
  let (r, overflow) := du256ToU256 ret
  ensure (overflow = false) EOVERFLOW
  pure r

def shr : Result U256 := do
  let wordShift := shift / 64
  let bitShift := shift % 64
  let ret ← forRange wordShift WORDS (fun i ret => do
    let w ← a.get i
    let m ← shrChecked 64 w bitShift
    ret.put (i - wordShift) m) zero
  if 0 < bitShift then
    forRange (wordShift + 1) WORDS (fun j ret => do
      let low ← ret.get (j - wordShift - 1)
      let w ← a.get j
      let high ← shlChecked 64 w (64 - bitShift)
      let m ← addChecked 64 low high
      ret.put (j - wordShift - 1) m) ret
  else pure ret

def shl : Result U256 := do
  let wordShift := shift / 64
  let bitShift := shift % 64
  let ret ← forRange wordShift WORDS (fun i ret => do
    let w ← a.get (i - wordShift)
    let m ← shlChecked 64 w bitShift
    ret.put i m) zero
  if 0 < bitShift then
    forRange (wordShift + 1) WORDS (fun j ret => do
      let high ← ret.get j
      let w ← a.get (j - 1 - wordShift)
      let low ← shrChecked 64 w (64 - bitShift)
      let m ← addChecked 64 high low
      ret.put j m) ret
  else pure ret

/-- The loop of `leading_zeros_u64`: the number of bits up to the highest one set. -/
def topBit (a : ℕ) : ℕ → ℕ
  | 0 => 0
  | bit + 1 => if (a >>> bit) &&& 1 ≠ 0 then bit + 1 else topBit a bit

def leadingZerosU64 (a : ℕ) : ℕ :=
  if a = 0 then 64
  else if a >>> 32 = 0 then (32 - topBit (a &&& 0xFFFFFFFF) 32) + 32
  else 64 - topBit a 64

def bitsFrom (a : U256) : ℕ → Result ℕ
  | 0 => do
    let a1 ← a.get 0
    subChecked 0x40 (leadingZerosU64 a1)
  | k + 1 => do
    let a1 ← a.get (k + 1)
    if 0 < a1 then subChecked (0x40 * (k + 2)) (leadingZerosU64 a1) else bitsFrom a k

def bits : Result ℕ := bitsFrom a (WORDS - 1)

/-- One round of the long division: subtract `b` from `a` if it fits and set the bit. -/
def divStep (a b ret : U256) : Result (U256 × U256) := do
  let cmp ← compare a b
  if cmp = GREATER_THAN ∨ cmp = EQUAL then do
    let m ← ret.get (shift / 64)
    let bit ← shlChecked 64 1 (shift % 64)
    let ret ← ret.put (shift / 64) (m ||| bit)
    let a ← sub a b
    pure (a, ret)
  else pure (a, ret)

def divLoop : ℕ → U256 → U256 → U256 → Result U256
  | 0, a, b, ret => do
    let (_, ret) ← divStep 0 a b ret
    let _ ← shr b 1
    pure ret
  | shift + 1, a, b, ret => do
    let (a, ret) ← divStep (shift + 1) a b ret
    let b ← shr b 1
    divLoop shift a b ret

def div : Result U256 := do
  let aBits ← bits a
  let bBits ← bits b
  ensure (bBits ≠ 0) EDIV_BY_ZERO
  if aBits < bBits then pure zero
  else do
    let shift ← castChecked 8 (aBits - bBits)
    let b ← shl b shift
    divLoop (aBits - bBits) a b zero

end U256

namespace U256
open Function

def word (a : U256) (i : ℕ) : ℕ :=
  match i with
  | 0 => a.v0
  | 1 => a.v1
  | 2 => a.v2
  | 3 => a.v3
  | _ => 0

def wordD (a : DU256) (i : ℕ) : ℕ :=
  match i with
  | 0 => a.v0
  | 1 => a.v1
  | 2 => a.v2
  | 3 => a.v3
  | 4 => a.v4
  | 5 => a.v5
  | 6 => a.v6
  | 7 => a.v7
  | _ => 0

def Wf (a : U256) : Prop := ∀ i, a.word i < 2 ^ 64

def toNat (a : U256) : ℕ := value (2 ^ 64) a.word WORDS

/-- The number `n` is computed if `p` holds, and there is an overflow otherwise. -/
def Yields (x : Result U256) (p : Prop) (n : ℕ) : Prop :=
  (p → ∃ r, x = .ok r ∧ r.Wf ∧ r.toNat = n) ∧ (¬p → x = .error EOVERFLOW)

section Words

variable {a b r : U256} {d : DU256} {i x n : ℕ}

theorem zero_wf : zero.Wf := fun j => by
  rcases j with _ | _ | _ | _ | j <;> exact Nat.two_pow_pos 64

theorem Wf.toNat_lt (h : a.Wf) : a.toNat < 2 ^ 256 :=
  (value_lt fun i _ => h i).trans_eq (by norm_num [WORDS])

theorem Yields.ensure {p q : Prop} [Decidable p] (hpq : p ↔ q) (hwf : r.Wf)
    (hn : q → r.toNat = n) : Yields (ensure p EOVERFLOW >>= fun _ => pure r) q n := by
  refine ⟨fun hq => ⟨r,?_,hwf,hn hq⟩,fun hq => ?_⟩
  · rw [Movelib.ensure,if_pos (hpq.mpr hq)]
    rfl
  · rw [Movelib.ensure,if_neg (fun hp => hq (hpq.mp hp))]
    rfl

theorem Yields.of_ok {y : Result U256} {p : Prop} (h : Yields y p n) (hy : y = .ok r) :
    r.Wf ∧ r.toNat = n := by
  by_cases hp : p
  · obtain ⟨r',hr,hwf⟩ := h.1 hp
    cases hy.symm.trans hr
    exact hwf
  · exact absurd (hy.symm.trans (h.2 hp)) nofun

theorem get_eq (h : i < WORDS) : a.get i = .ok (a.word i) := by
  rw [WORDS] at h
  interval_cases i <;> rfl

theorem put_eq (h : i < WORDS) : ∃ r, a.put i x = .ok r ∧ r.word = update a.word i x := by
  rw [WORDS] at h
  interval_cases i <;> refine ⟨_,rfl,funext fun j => ?_⟩ <;>
    rcases j with _ | _ | _ | _ | j <;> simp [word]

theorem getD_eq (h : i < 8) : getD d i = .ok (wordD d i) := by
  interval_cases i <;> rfl

theorem putD_eq (h : i < 8) :
    ∃ d', putD d i x = .ok d' ∧ wordD d' = update (wordD d) i x := by
  have hupd : ∀ d' : DU256, (∀ j, wordD d' j = if j = i then x else wordD d j) →
      wordD d' = update (wordD d) i x := by
    intro d' hd
    funext j
    rw [hd,update_apply]
  interval_cases i <;> refine ⟨_,rfl,hupd _ ?_⟩ <;>
    · intro j
      rcases j with _ | _ | _ | _ | _ | _ | _ | _ | j <;> simp [wordD]

end Words

section Compare

variable {a b : U256}

/-- The words below index `n` decide by the numbers that they are the digits of. -/
theorem compareFrom_eq (ha : a.Wf) (hb : b.Wf) {n : ℕ} (hn : n ≤ WORDS) :
    compareFrom a b n = .ok
      (if value (2 ^ 64) a.word n = value (2 ^ 64) b.word n then EQUAL
      else if value (2 ^ 64) a.word n < value (2 ^ 64) b.word n then LESS_THAN else GREATER_THAN) := by
  induction n with
  | zero => rfl
  | succ n ih =>
    rw [compareFrom,get_eq (by omega),get_eq (by omega),ok_bind,ok_bind]
    by_cases heq : a.word n = b.word n
    · rw [if_neg (not_not.mpr heq),ih (by omega),value_succ,value_succ,heq]
      simp only [Nat.add_right_cancel_iff,Nat.add_lt_add_iff_right]
    · rw [if_pos heq]
      by_cases hlt : a.word n < b.word n
      · have hv := value_lt_value (fun i _ => ha i) hlt
        rw [if_pos hlt,if_neg hv.ne,if_pos hv]
      · have hv := value_lt_value (fun i _ => hb i) (show b.word n < a.word n by omega)
        rw [if_neg hlt,if_neg hv.ne',if_neg hv.not_gt]

theorem compare_eq_greater (ha : a.Wf) (hb : b.Wf) :
    compare a b = .ok GREATER_THAN ↔ b.toNat < a.toNat := by
  rw [compare,compareFrom_eq ha hb le_rfl]
  change Except.ok (if a.toNat = b.toNat then _ else if a.toNat < b.toNat then _ else _) = _ ↔ _
  by_cases heq : a.toNat = b.toNat
  · simp [heq,EQUAL,GREATER_THAN]
  · by_cases hlt : a.toNat < b.toNat
    · simp [heq,hlt,hlt.le,LESS_THAN,GREATER_THAN]
    · simp only [heq,hlt,if_false,true_iff]
      omega

end Compare

section Limbs

variable {a b : ℕ}

theorem splitU128_eq (h : a < 2 ^ 128) : splitU128 a = .ok (a / 2 ^ 64, a % 2 ^ 64) := by
  have hmask := Nat.and_two_pow_sub_one_eq_mod a 64
  have hshift := Nat.shiftRight_eq_div_pow a 64
  have hhi : castChecked 64 (a / 2 ^ 64) = .ok (a / 2 ^ 64) := castChecked_of_lt (by omega)
  have hlo : castChecked 64 (a % 2 ^ 64) = .ok (a % 2 ^ 64) :=
    castChecked_of_lt (Nat.mod_lt _ (by decide))
  rw [splitU128,hmask,hshift,hhi,hlo]
  rfl

theorem overflowingAdd_carry (ha : a < 2 ^ 64) (hb : b < 2 ^ 64) :
    ∃ x o, overflowingAdd a b = .ok (x, o) ∧ x < 2 ^ 64 ∧ a + b = o.toNat * 2 ^ 64 + x := by
  have hmax : U64_MAX + 1 = 2 ^ 64 := by decide
  rw [overflowingAdd,addChecked_of_lt (by omega),ok_bind]
  split_ifs with hgt
  · rw [subChecked_of_le (by omega),ok_bind,subChecked_of_le (by omega),ok_bind,
      castChecked_of_lt (by omega)]
    exact ⟨_,true,rfl,by omega,by rw [Bool.toNat_true]; omega⟩
  · rw [ok_bind,castChecked_of_lt (by omega)]
    exact ⟨_,false,rfl,by omega,by rw [Bool.toNat_false]; omega⟩

theorem overflowingSub_carry (ha : a < 2 ^ 64) (hb : b < 2 ^ 64) :
    ∃ x o, overflowingSub a b = .ok (x, o) ∧ x < 2 ^ 64 ∧ x + b = o.toNat * 2 ^ 64 + a := by
  have hmax : U64_MAX + 1 = 2 ^ 64 := by decide
  rw [overflowingSub]
  split_ifs with hlt
  · rw [subChecked_of_le hlt.le,ok_bind,subChecked_of_le (by omega),ok_bind,
      addChecked_of_lt (by omega)]
    exact ⟨_,true,rfl,by omega,by rw [Bool.toNat_true]; omega⟩
  · rw [subChecked_of_le (not_lt.mp hlt)]
    exact ⟨_,false,rfl,by omega,by rw [Bool.toNat_false]; omega⟩

end Limbs

section Wordwise

variable {a b : U256} {op : ℕ → ℕ → Result (ℕ × Bool)} {sign : ℤ}

/-- A word is added or subtracted, which a carry makes up for. -/
def Carries (sign : ℤ) (op : ℕ → ℕ → Result (ℕ × Bool)) : Prop :=
  ∀ a b, a < 2 ^ 64 → b < 2 ^ 64 → ∃ x o, op a b = .ok (x, o) ∧ x < 2 ^ 64 ∧
    (x : ℤ) = a + sign * (b - o.toNat * 2 ^ 64)

theorem carries_add : Carries 1 overflowingAdd := fun a b ha hb => by
  obtain ⟨x,o,hok,hlt,hx⟩ := overflowingAdd_carry ha hb
  exact ⟨x,o,hok,hlt,by omega⟩

theorem carries_sub : Carries (-1) overflowingSub := fun a b ha hb => by
  obtain ⟨x,o,hok,hlt,hx⟩ := overflowingSub_carry ha hb
  exact ⟨x,o,hok,hlt,by omega⟩

theorem withCarry_spec (hop : Carries sign op) (hsign : sign = 1 ∨ sign = -1) {a b carry : ℕ}
    (ha : a < 2 ^ 64) (hb : b < 2 ^ 64) (hc : carry ≤ 1) :
    ∃ x carry', withCarry op a b carry = .ok (x, carry') ∧ x < 2 ^ 64 ∧ carry' ≤ 1 ∧
      (x : ℤ) = a + sign * (b + carry - carry' * 2 ^ 64) := by
  obtain ⟨x,o,hok,hlt,hx⟩ := hop a b ha hb
  rw [withCarry]
  split_ifs with hzero
  · obtain ⟨y,o',hok',hlt',hy⟩ := hop x carry hlt (by omega)
    simp only [hok,hok',ok_bind]
    refine ⟨y,_,rfl,hlt',?_,?_⟩
    · rcases hsign with rfl | rfl
      · omega
      · omega
    · rw [hy,hx]
      push_cast
      ring
  · rw [hok,ok_bind]
    refine ⟨x,_,rfl,hlt,o.toNat_le,?_⟩
    rw [hx,not_not.mp hzero]
    push_cast
    ring

theorem wordwise_spec (hop : Carries sign op) (hsign : sign = 1 ∨ sign = -1) (ha : a.Wf)
    (hb : b.Wf) : ∃ (r : U256) (carry : ℕ),
      wordwise op a b = (ensure (carry = 0) EOVERFLOW >>= fun _ => pure r) ∧ r.Wf ∧ carry ≤ 1 ∧
      (r.toNat : ℤ) = a.toNat + sign * (b.toNat - carry * 2 ^ 256) := by
  rw [wordwise]
  refine forRange_elim (P := fun y => ∃ (r : U256) (carry : ℕ),
      y = (ensure (carry = 0) EOVERFLOW >>= fun _ => pure r) ∧ r.Wf ∧ carry ≤ 1 ∧
      (r.toNat : ℤ) = a.toNat + sign * (b.toNat - carry * 2 ^ 256))
    (I := fun i (st : U256 × ℕ) => st.1.Wf ∧ st.2 ≤ 1 ∧ (value (2 ^ 64) st.1.word i : ℤ) =
      value (2 ^ 64) a.word i + sign * (value (2 ^ 64) b.word i - st.2 * (2 ^ 64) ^ i))
    (Nat.zero_le _) ⟨zero_wf,Nat.zero_le _,by simp [value_zero]⟩ ?_ fun st hst => ?_
  · rintro i ⟨r,carry⟩ - hi ⟨hwf,hc,hv⟩
    obtain ⟨x,carry',hok,hlt,hc',hx⟩ := withCarry_spec hop hsign (ha i) (hb i) hc
    obtain ⟨r',hr',hw⟩ := put_eq (a := r) (x := x) hi
    refine ⟨(r', carry'),?_,fun j => ?_,hc',?_⟩
    · simp only [get_eq hi,ok_bind,hok,hr']
      rfl
    · rw [hw]
      exact update_lt hwf hlt j
    · rw [hw,value_succ,value_succ,value_succ,value_update_of_le le_rfl,update_self]
      simp only [Nat.cast_add,Nat.cast_mul,Nat.cast_pow,Nat.cast_ofNat]
      linear_combination hv + (2 ^ 64 : ℤ) ^ i * hx
  · obtain ⟨hwf,hc,hv⟩ := hst
    exact ⟨st.1,st.2,rfl,hwf,hc,hv.trans (by norm_num [toNat,WORDS])⟩

theorem add_yields (ha : a.Wf) (hb : b.Wf) :
    Yields (add a b) (a.toNat + b.toNat < 2 ^ 256) (a.toNat + b.toNat) := by
  obtain ⟨r,carry,hok,hwf,hc,hv⟩ := wordwise_spec carries_add (.inl rfl) ha hb
  have hlt := hwf.toNat_lt
  rw [add,hok]
  exact .ensure (by omega) hwf (by omega)

theorem sub_yields (ha : a.Wf) (hb : b.Wf) :
    Yields (sub a b) (b.toNat ≤ a.toNat) (a.toNat - b.toNat) := by
  obtain ⟨r,carry,hok,hwf,hc,hv⟩ := wordwise_spec carries_sub (.inr rfl) ha hb
  have hlt := hwf.toNat_lt
  have ha' := ha.toNat_lt
  rw [sub,hok]
  exact .ensure (by omega) hwf (by omega)

end Wordwise

section Mul

variable {a b : U256} {ret : DU256}

/-- The carries of one word: the high word of a product leaves room for the carry of its low
word, so at most one of the two later sums overflows. -/
theorem mulWord_spec {a1 b1 k carry : ℕ} (ha : a1 < 2 ^ 64) (hb : b1 < 2 ^ 64) (hc : carry ≤ 1)
    (hk : k + 1 < 8) (hret : ∀ i, wordD ret i < 2 ^ 64) :
    ∃ ret' carry', mulWord a1 b1 k ret carry = .ok (ret', carry') ∧ carry' ≤ 1 ∧
      (∀ i, wordD ret' i < 2 ^ 64) ∧
      value (2 ^ 64) (wordD ret') 8 + carry' * (2 ^ 64) ^ (k + 2) =
        value (2 ^ 64) (wordD ret) 8 + carry * (2 ^ 64) ^ (k + 1) + a1 * b1 * (2 ^ 64) ^ k := by
  by_cases hskip : a1 ≠ 0 ∨ carry ≠ 0
  · have hprod : a1 * b1 ≤ (2 ^ 64 - 1) * (2 ^ 64 - 1) := Nat.mul_le_mul (by omega) (by omega)
    have hmul : mulChecked 128 a1 b1 = .ok (a1 * b1) := mulChecked_of_lt (by omega)
    have hsplit := splitU128_eq (a := a1 * b1) (by omega)
    have hp : a1 * b1 = a1 * b1 / 2 ^ 64 * 2 ^ 64 + a1 * b1 % 2 ^ 64 := (Nat.div_add_mod' _ _).symm
    generalize a1 * b1 / 2 ^ 64 = hi at hsplit hp
    generalize hlo : a1 * b1 % 2 ^ 64 = lo at hsplit hp
    have hlo_lt : lo < 2 ^ 64 := hlo ▸ Nat.mod_lt _ (by decide)
    -- The low word, then the high word with both carries.
    obtain ⟨x,o,hx,hx_lt,hxo⟩ := overflowingAdd_carry hlo_lt (hret k)
    obtain ⟨d₁,hd₁,hw₁⟩ := putD_eq (d := ret) (x := x) (show k < 8 by omega)
    have hget : getD d₁ (k + 1) = .ok (wordD ret (k + 1)) := by
      rw [getD_eq hk,hw₁,update_of_ne (by omega)]
    have ho_le := o.toNat_le
    have hadd : addChecked 64 hi o.toNat = .ok (hi + o.toNat) :=
      addChecked_of_lt (by omega)
    obtain ⟨h₂,o₀,hh₂,hh₂_lt,hho₀⟩ :=
      overflowingAdd_carry (show hi + o.toNat < 2 ^ 64 by omega) (show carry < 2 ^ 64 by omega)
    obtain ⟨y,o₁,hy,hy_lt,hyo₁⟩ := overflowingAdd_carry hh₂_lt (hret (k + 1))
    obtain ⟨d₂,hd₂,hw₂⟩ := putD_eq (d := d₁) (x := y) hk
    have hor : (o₀ || o₁).toNat = o₀.toNat + o₁.toNat := by
      have hword := hret (k + 1)
      -- After a first overflow the sum is zero, and a second one is impossible.
      cases o₀ <;> cases o₁ <;> simp only [Bool.toNat_true,Bool.toNat_false] at * <;>
        first | rfl | omega
    refine ⟨d₂,(o₀ || o₁).toNat,?_,Bool.toNat_le _,?_,?_⟩
    · have hget₀ : getD ret k = .ok (wordD ret k) := getD_eq (by omega)
      rw [mulWord,if_pos hskip]
      simp only [hmul,hsplit,hget₀,hx,hd₁,hget,hadd,hh₂,hy,hd₂,ok_bind]
      rfl
    · rw [hw₂,hw₁]
      exact update_lt (update_lt hret hx_lt) hy_lt
    · rw [hw₂,hw₁]
      exact value_add_product hk hp hxo (by rw [hor]; omega)
  · have hz : a1 = 0 ∧ carry = 0 := by
      simpa only [not_or,not_not] using hskip
    refine ⟨ret,carry,by rw [mulWord,if_neg hskip],hc,hret,?_⟩
    rw [hz.1,hz.2]
    simp

/-- The words of `a` are multiplied by `b1` and added at index `i`. -/
theorem mulRow_spec {b1 i : ℕ} (ha : a.Wf) (hb : b1 < 2 ^ 64) (hi : i < WORDS)
    (hret : ∀ j, wordD ret j < 2 ^ 64) :
    ∃ st, mulRow a b1 i ret = .ok st ∧ st.2 ≤ 1 ∧ (∀ j, wordD st.1 j < 2 ^ 64) ∧
      value (2 ^ 64) (wordD st.1) 8 + st.2 * (2 ^ 64) ^ (i + WORDS + 1) =
        value (2 ^ 64) (wordD ret) 8 + a.toNat * b1 * (2 ^ 64) ^ i := by
  rw [WORDS] at hi
  refine forRange_total (I := fun j (st : DU256 × ℕ) => st.2 ≤ 1 ∧ (∀ k, wordD st.1 k < 2 ^ 64) ∧
    value (2 ^ 64) (wordD st.1) 8 + st.2 * (2 ^ 64) ^ (i + j + 1) =
      value (2 ^ 64) (wordD ret) 8 + value (2 ^ 64) a.word j * b1 * (2 ^ 64) ^ i)
    (Nat.zero_le _) ⟨Nat.zero_le _,hret,by simp [value_zero]⟩ ?_
  rintro j ⟨d,carry⟩ - hj ⟨hc,hd,hv⟩
  have hj' : j < 4 := hj
  obtain ⟨d',carry',hm,hc',hd',hv'⟩ :=
    mulWord_spec (ha j) hb hc (show i + j + 1 < 8 by omega) hd
  refine ⟨(d', carry'),?_,hc',hd',?_⟩
  · rw [get_eq hj,ok_bind]
    exact hm
  · rw [show i + (j + 1) + 1 = i + j + 2 by omega,hv',hv,value_succ (w := a.word)]
    generalize (2 ^ 64 : ℕ) = B
    ring

theorem mul_yields (ha : a.Wf) (hb : b.Wf) :
    Yields (mul a b) (a.toNat * b.toNat < 2 ^ 256) (a.toNat * b.toNat) := by
  rw [mul]
  refine forRange_elim (P := fun y => Yields y _ _) (I := fun i ret => (∀ j, wordD ret j < 2 ^ 64) ∧
    value (2 ^ 64) (wordD ret) 8 = a.toNat * value (2 ^ 64) b.word i) (Nat.zero_le _) ⟨?_,rfl⟩ ?_
    fun ret hend => ?_
  · intro j
    rcases j with _ | _ | _ | _ | _ | _ | _ | _ | j <;> exact Nat.two_pow_pos 64
  · rintro i ret - hi ⟨hret,hv⟩
    obtain ⟨⟨ret',carry⟩,hrow,-,hret',hv'⟩ := mulRow_spec ha (hb i) hi hret
    refine ⟨ret',?_,hret',?_⟩
    · rw [get_eq hi,ok_bind,hrow]
      rfl
    · -- The product so far is below the place of the carry, so there is none.
      have hprod : value (2 ^ 64) (wordD ret') 8 + carry * (2 ^ 64) ^ (i + WORDS + 1) =
          a.toNat * value (2 ^ 64) b.word (i + 1) := by
        rw [hv',hv,value_succ (w := b.word)]
        ring
      have hbound := Nat.mul_lt_mul'' (value_lt (n := WORDS) fun j _ => ha j)
        (value_lt (n := i + 1) fun j _ => hb j)
      rw [← pow_add,Nat.add_left_comm,← Nat.add_assoc] at hbound
      have hcarry : carry = 0 := by
        by_contra hne
        have hle := Nat.le_mul_of_pos_left ((2 ^ 64) ^ (i + WORDS + 1)) (Nat.pos_of_ne_zero hne)
        exact absurd (hle.trans (Nat.le_add_left _ _)) (not_le.mpr (hprod.trans_lt hbound))
      rwa [hcarry,Nat.zero_mul,Nat.add_zero] at hprod
  obtain ⟨hret,hv : _ = a.toNat * b.toNat⟩ := hend
  have hlow : ∀ j, word ⟨ret.v0,ret.v1,ret.v2,ret.v3⟩ j =
      if j < WORDS then wordD ret j else 0 := by
    intro j
    rw [WORDS]
    rcases j with _ | _ | _ | _ | j <;> simp [word,wordD]
  have hwf : Wf ⟨ret.v0,ret.v1,ret.v2,ret.v3⟩ := by
    intro j
    rw [hlow]
    split
    · exact hret j
    · decide
  have hcut : value (2 ^ 64) (wordD ret) WORDS = toNat ⟨ret.v0,ret.v1,ret.v2,ret.v3⟩ :=
    value_congr fun j hj => by rw [hlow,if_pos hj]
  -- The overflow check sees the four high words, which are zero if and only if the product fits.
  have hhigh : (∀ j, WORDS ≤ j → j < WORDS + 4 → wordD ret j = 0) ↔
      a.toNat * b.toNat < 2 ^ 256 := by
    rw [← hv]
    refine ⟨fun h => ?_,fun h j hj hj' => eq_zero_of_value_lt (by decide) h hj hj'⟩
    exact (value_add_of_zero h).trans_lt (hcut.trans_lt hwf.toNat_lt)
  have hcheck : (du256ToU256 ret).2 = false ↔
      ∀ j, WORDS ≤ j → j < WORDS + 4 → wordD ret j = 0 := by
    simp only [du256ToU256,decide_eq_false_iff_not,not_or,not_not]
    refine ⟨fun h j hj hj' => ?_,fun h => ⟨h 4 (by decide) (by decide),h 5 (by decide) (by decide),
      h 6 (by decide) (by decide),h 7 (by decide) (by decide)⟩⟩
    unfold WORDS at hj hj'
    interval_cases j
    · exact h.1
    · exact h.2.1
    · exact h.2.2.1
    · exact h.2.2.2
  refine .ensure (hcheck.trans hhigh) hwf fun hlt => ?_
  rw [← hcut,← hv]
  exact (value_add_of_zero (hhigh.mpr hlt)).symm

end Mul

section FromU128

theorem fromU128_ok {n : ℕ} {r : U256} (hn : n < 2 ^ 128) (h : fromU128 n = .ok r) :
    r.Wf ∧ r.toNat = n := by
  rw [fromU128,splitU128_eq hn,ok_bind,pure_eq_ok] at h
  subst h
  refine ⟨?_,?_⟩
  · intro j
    rcases j with _ | _ | _ | _ | j <;> simp only [word] <;> omega
  · simp only [toNat,WORDS,value,word]
    omega

end FromU128

/-- Sums, differences and products are those of the numbers, with an overflow exactly when there is
no such number of four words, and a comparison tells which number is less. -/
theorem arithmetic_exact {a b : U256} (ha : a.Wf) (hb : b.Wf) :
    Yields (add a b) (a.toNat + b.toNat < 2 ^ 256) (a.toNat + b.toNat) ∧
    Yields (sub a b) (b.toNat ≤ a.toNat) (a.toNat - b.toNat) ∧
    Yields (mul a b) (a.toNat * b.toNat < 2 ^ 256) (a.toNat * b.toNat) ∧
    compare a b = .ok (if a.toNat = b.toNat then EQUAL
      else if a.toNat < b.toNat then LESS_THAN else GREATER_THAN) :=
  ⟨add_yields ha hb,sub_yields ha hb,mul_yields ha hb,compareFrom_eq ha hb le_rfl⟩

/-- The sum carries into a word that both leave empty, and the difference borrows from the second. -/
theorem arithmetic_exact_carries : ∃ sum difference product,
    add ⟨1,U64_MAX,0,0⟩ ⟨2,1,0,0⟩ = .ok sum ∧ sum.toNat = 2 ^ 128 + 3 ∧
    sub ⟨1,U64_MAX,0,0⟩ ⟨2,1,0,0⟩ = .ok difference ∧ difference.toNat = 2 ^ 128 - 2 ^ 65 - 1 ∧
    mul ⟨1,U64_MAX,0,0⟩ ⟨2,1,0,0⟩ = .ok product ∧
    product.toNat = (2 ^ 128 - 2 ^ 64 + 1) * (2 ^ 64 + 2) ∧
    compare ⟨1,U64_MAX,0,0⟩ ⟨2,1,0,0⟩ = .ok GREATER_THAN := by
  have ha : Wf ⟨1,U64_MAX,0,0⟩ := fun i => by rcases i with _ | _ | _ | _ | i <;> simp [word,U64_MAX]
  have hb : Wf ⟨2,1,0,0⟩ := fun i => by rcases i with _ | _ | _ | _ | i <;> simp [word]
  obtain ⟨hadd,hsub,hmul,hcompare⟩ := arithmetic_exact ha hb
  obtain ⟨sum,hsum,-,hsum'⟩ := hadd.1 (by decide)
  obtain ⟨difference,hdiff,-,hdiff'⟩ := hsub.1 (by decide)
  obtain ⟨product,hproduct,-,hproduct'⟩ := hmul.1 (by decide)
  exact ⟨sum,difference,product,hsum,hsum',hdiff,hdiff',hproduct,hproduct',hcompare⟩

end U256

end Arx
