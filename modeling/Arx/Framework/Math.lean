import Arx.Movelib.Abort
import Arx.Movelib.Bytes

/-!
# `std::error`, `std::math64`, `std::math128`, `std::uq64x64`, `std::bcs` and `std::from_bcs`

The number formats that the coin, solaris and liquidity pool modules compute with, and the canonical
bytes of a flag and of a `u64`, the two types that the framework keeps as bytes.
-/

namespace Arx
open Movelib

namespace Error

def canonical (category reason : ℕ) : Abort := .code (category <<< 16 + reason)

def invalidArgument : ℕ → Abort := canonical 0x1
def outOfRange : ℕ → Abort := canonical 0x2
def invalidState : ℕ → Abort := canonical 0x3
def unauthenticated : ℕ → Abort := canonical 0x4
def permissionDenied : ℕ → Abort := canonical 0x5
def notFound : ℕ → Abort := canonical 0x6
def alreadyExists : ℕ → Abort := canonical 0x8

end Error

namespace Math64

def min (a b : ℕ) : ℕ := if a < b then a else b

theorem min_eq (a b : ℕ) : Math64.min a b = Min.min a b := by
  rw [Math64.min]
  split <;> omega

def pow10Loop : ℕ → ℕ → Result ℕ
  | 0, res => .ok res
  | degree + 1, res => do
    let res ← mulChecked 64 res 10
    pow10Loop degree res

/-- `10 ^ degree`. -/
def pow10 (degree : ℕ) : Result ℕ := pow10Loop degree 1

def mulToU128 (x y : ℕ) : Result ℕ := mulChecked 128 x y

end Math64

namespace Math128

def EDIVIDE_BY_ZERO : Abort := .code 2000

def MAX_U128 : ℕ := 340282366920938463463374607431768211455

theorem max_succ : MAX_U128 + 1 = 2 ^ 128 := by decide

/-- Addition that wraps around instead of aborting. -/
def overflowAdd (a b : ℕ) : Result ℕ := do
  let r ← subChecked MAX_U128 b
  if r < a then do
    let d ← subChecked a r
    subChecked d 1
  else do
    let r ← subChecked MAX_U128 a
    if r < b then do
      let d ← subChecked b r
      subChecked d 1
    else addChecked 128 a b

theorem overflowAdd_eq {a b : ℕ} (ha : a < 2 ^ 128) (hb : b < 2 ^ 128) :
    overflowAdd a b = .ok ((a + b) % 2 ^ 128) := by
  have hmax := max_succ
  have hsb : subChecked MAX_U128 b = .ok (MAX_U128 - b) := subChecked_of_le (by omega)
  have hsa : subChecked MAX_U128 a = .ok (MAX_U128 - a) := subChecked_of_le (by omega)
  simp only [overflowAdd,hsb,hsa,ok_bind]
  by_cases hwrap : MAX_U128 - b < a
  · have hd : subChecked a (MAX_U128 - b) = .ok (a - (MAX_U128 - b)) :=
      subChecked_of_le (by omega)
    rw [if_pos hwrap,hd,ok_bind,subChecked_eq_ok]
    omega
  · rw [if_neg hwrap,if_neg (by omega),addChecked_eq_ok]
    omega

def mulDiv (x y z : ℕ) : Result ℕ := do
  ensure (z ≠ 0) EDIVIDE_BY_ZERO
  let p ← mulChecked 128 x y
  let r ← divChecked p z
  castChecked 64 r

theorem mulDiv_eq_ok {x y z q : ℕ} :
    mulDiv x y z = .ok q ↔ z ≠ 0 ∧ x * y < 2 ^ 128 ∧ x * y / z < 2 ^ 64 ∧ x * y / z = q := by
  simp only [mulDiv,bind_eq_ok,ensure_eq_ok,mulChecked_eq_ok,divChecked_eq_ok,castChecked_eq_ok]
  constructor
  · rintro ⟨_,hz,_,⟨hp,rfl⟩,_,⟨_,rfl⟩,hq,rfl⟩
    exact ⟨hz,hp,hq,rfl⟩
  · rintro ⟨hz,hp,hq,rfl⟩
    exact ⟨(),hz,_,⟨hp,rfl⟩,_,⟨hz,rfl⟩,hq,rfl⟩

/-- The Babylonian loop of `sqrt`: `z` strictly decreases. -/
def sqrtLoop (y z x : ℕ) : Result ℕ :=
  if x < z then do
    let q ← divChecked y x
    let sum ← addChecked 128 q x
    sqrtLoop y x (sum / 2)
  else castChecked 64 z
termination_by z

def sqrt (y : ℕ) : Result ℕ :=
  if y < 4 then
    if y = 0 then .ok 0 else .ok 1
  else sqrtLoop y y (y / 2 + 1)

/-- The arithmetic mean of `x` and `y / x` is not below the root of `y`. -/
theorem sqrt_le_mean {y x : ℕ} (hpos : 0 < x) (hx : Nat.sqrt y ≤ x) :
    Nat.sqrt y ≤ (y / x + x) / 2 := by
  have hroot := Nat.sqrt_le y
  obtain ⟨d,hd⟩ := Nat.exists_eq_add_of_le hx
  have hdiv : Nat.sqrt y - d ≤ y / x := by
    rw [Nat.le_div_iff_mul_le hpos,hd]
    refine le_trans ?_ hroot
    rcases le_total d (Nat.sqrt y) with hle | hle
    · obtain ⟨e,he⟩ := Nat.exists_eq_add_of_le hle
      rw [he,Nat.add_sub_cancel_left]
      nlinarith
    · rw [Nat.sub_eq_zero_of_le hle,Nat.zero_mul]
      exact Nat.zero_le _
  omega

theorem sqrtLoop_eq {y z x : ℕ} (hfour : 4 ≤ y) (hy : y < 2 ^ 128) (hx : Nat.sqrt y ≤ x)
    (hle : x ≤ y / 2 + 1) (hz : z ≤ x → z = Nat.sqrt y) :
    sqrtLoop y z x = .ok (Nat.sqrt y) := by
  induction z using Nat.strong_induction_on generalizing x with
  | _ z ih =>
    rw [sqrtLoop]
    split_ifs with hlt
    · have htwo : 2 ≤ x := (Nat.le_sqrt.mpr hfour).trans hx
      have hhalf : y / x ≤ y / 2 := Nat.div_le_div_left htwo (by decide)
      rw [divChecked,if_pos (by omega),ok_bind,addChecked_of_lt (by omega),ok_bind]
      refine ih x hlt (sqrt_le_mean (by omega) hx) (by omega) fun hend => ?_
      -- the mean does not decrease only at the root
      have hquot : x ≤ y / x := by omega
      rw [Nat.le_div_iff_mul_le (by omega)] at hquot
      exact le_antisymm (Nat.le_sqrt.mpr hquot) hx
    · rw [hz (by omega)]
      exact castChecked_of_lt (Nat.sqrt_lt.mpr hy)

theorem sqrt_eq {y : ℕ} (hy : y < 2 ^ 128) : sqrt y = .ok (Nat.sqrt y) := by
  rw [sqrt]
  split_ifs with hsmall hzero
  · rw [hzero,Nat.sqrt_zero]
  · rw [← Nat.eq_sqrt.mpr ⟨show 1 * 1 ≤ y by omega,by omega⟩]
  · have hhalf : y ≤ 2 * (y / 2) + 1 := by omega
    have hroot : Nat.sqrt y < y / 2 + 2 := Nat.sqrt_lt.mpr (by nlinarith)
    exact sqrtLoop_eq (by omega) hy (by omega) le_rfl fun h => by omega

theorem sqrt_floor {y : ℕ} (hy : y < 2 ^ 128) :
    ∃ r, sqrt y = .ok r ∧ r * r ≤ y ∧ y < (r + 1) * (r + 1) :=
  ⟨_,sqrt_eq hy,Nat.sqrt_le y,Nat.lt_succ_sqrt y⟩

theorem sqrt_floor_max : ∃ r, sqrt MAX_U128 = .ok r ∧ r * r ≤ MAX_U128 ∧
    MAX_U128 < (r + 1) * (r + 1) := sqrt_floor (by decide)

end Math128

namespace Uq64x64

def ERR_DIVIDE_BY_ZERO : Abort := .code 100

/-- The scale of the format is `2 ^ 64 - 1`, not `2 ^ 64`. -/
def Q64 : ℕ := 18446744073709551615

structure UQ64x64 where
  v : ℕ
  deriving DecidableEq

def decode (uq : UQ64x64) : Result ℕ := castChecked 64 (uq.v / Q64)

def toU128 (uq : UQ64x64) : ℕ := uq.v

def fraction (numerator denominator : ℕ) : Result UQ64x64 := do
  ensure (denominator ≠ 0) ERR_DIVIDE_BY_ZERO
  let r ← mulChecked 128 numerator Q64
  let v ← divChecked r denominator
  pure ⟨v⟩

def fraction128128 (numerator denominator : ℕ) : Result UQ64x64 := fraction numerator denominator

theorem fraction_eq_ok {n d : ℕ} {uq : UQ64x64} :
    fraction n d = .ok uq ↔ d ≠ 0 ∧ n * Q64 < 2 ^ 128 ∧ uq = ⟨n * Q64 / d⟩ := by
  simp only [fraction,bind_eq_ok,ensure_eq_ok,mulChecked_eq_ok,divChecked_eq_ok,pure_eq_ok]
  constructor
  · rintro ⟨_,hd,_,⟨hp,rfl⟩,_,⟨_,rfl⟩,rfl⟩
    exact ⟨hd,hp,rfl⟩
  · rintro ⟨hd,hp,rfl⟩
    exact ⟨(),hd,_,⟨hp,rfl⟩,_,⟨hd,rfl⟩,rfl⟩

/-- The scale cancels, so decoding a fraction is floor division. -/
theorem scaled_div (n d : ℕ) : n * Q64 / d / Q64 = n / d := by
  rw [Nat.div_div_eq_div_mul]
  exact Nat.mul_div_mul_right n d (by decide)

/-- `decode (fraction n d)`, the way every module rounds a ratio, after the bind
between the two calls has been taken apart. -/
theorem fraction_decode_eq_ok {n d q : ℕ} :
    (∃ uq, fraction n d = .ok uq ∧ decode uq = .ok q) ↔
      d ≠ 0 ∧ n * Q64 < 2 ^ 128 ∧ n / d < 2 ^ 64 ∧ n / d = q := by
  simp only [fraction_eq_ok]
  constructor
  · rintro ⟨_,⟨hd,hp,rfl⟩,hq⟩
    simp only [decode,scaled_div,castChecked_eq_ok] at hq
    exact ⟨hd,hp,hq⟩
  · rintro ⟨hd,hp,hq⟩
    refine ⟨_,⟨hd,hp,rfl⟩,?_⟩
    simpa only [decode,scaled_div,castChecked_eq_ok] using hq

theorem mul_Q64_lt {n : ℕ} (hn : n < 2 ^ 64) : n * Q64 < 2 ^ 128 := by
  have h : n * Q64 ≤ (2 ^ 64 - 1) * Q64 := Nat.mul_le_mul_right _ (by omega)
  exact lt_of_le_of_lt h (by decide)

end Uq64x64

abbrev Bytes := List UInt8

namespace Bcs

def ofBool (b : Bool) : Bytes := if b then [1] else [0]

def ofU64 (n : ℕ) : Bytes := leBytes 8 n

end Bcs

namespace FromBcs

/-- The natives stop with this on bytes that encode no value of the type. -/
def invalidBytes : Abort := Error.invalidArgument 1

def toBool (bytes : Bytes) : Result Bool :=
  if bytes = [0] then .ok false
  else if bytes = [1] then .ok true
  else .error invalidBytes

def toU64 (bytes : Bytes) : Result ℕ :=
  if bytes.length = 8 then .ok (ofLeBytes bytes) else .error invalidBytes

@[simp] theorem toBool_ofBool (b : Bool) : toBool (Bcs.ofBool b) = .ok b := by
  cases b <;> rfl

theorem toU64_ofU64 {n : ℕ} (h : n < 2 ^ 64) : toU64 (Bcs.ofU64 n) = .ok n := by
  rw [toU64,Bcs.ofU64,if_pos (length_leBytes 8 n),ofLeBytes_leBytes (h.trans_eq (by norm_num))]

end FromBcs

end Arx
