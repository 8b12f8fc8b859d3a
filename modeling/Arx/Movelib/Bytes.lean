import Mathlib.Tactic

/-!
# Words and bytes of unsigned integers

`value B w n` is the number whose `n` lowest digits in base `B` are `w 0, …, w (n - 1)`. The
fixed-width encodings have the highest byte first, under which the byte strings lie in the order of
the numbers, or the lowest byte first.
-/

namespace Movelib

section
open Function

def value (B : ℕ) (w : ℕ → ℕ) : ℕ → ℕ
  | 0 => 0
  | n + 1 => value B w n + w n * B ^ n

variable {B : ℕ} {w w' : ℕ → ℕ} {m n i x : ℕ}

theorem value_zero : value B w 0 = 0 := rfl

theorem value_succ : value B w (n + 1) = value B w n + w n * B ^ n := rfl

theorem value_congr (h : ∀ i < n, w i = w' i) : value B w n = value B w' n := by
  induction n with
  | zero => rfl
  | succ n ih =>
    rw [value_succ,value_succ,h n (Nat.lt_succ_self n),ih fun i hi => h i (by omega)]

theorem value_lt (h : ∀ i < n, w i < B) : value B w n < B ^ n := by
  induction n with
  | zero => simp [value_zero]
  | succ n ih =>
    have hlow := ih fun i hi => h i (by omega)
    have htop : (w n + 1) * B ^ n ≤ B * B ^ n := Nat.mul_le_mul_right _ (h n (Nat.lt_succ_self n))
    rw [value_succ,pow_succ,Nat.mul_comm (B ^ n)]
    rw [Nat.add_mul] at htop
    omega

theorem update_lt (h : ∀ j, w j < B) (hx : x < B) (j : ℕ) : update w i x j < B := by
  by_cases hj : j = i
  · rw [hj,update_self]
    exact hx
  · rw [update_of_ne hj]
    exact h j

theorem value_update_of_le (h : n ≤ i) : value B (update w i x) n = value B w n := by
  apply value_congr
  intro j hj
  exact update_of_ne (by omega) _ _

theorem value_update (h : i < n) :
    value B (update w i x) n + w i * B ^ i = value B w n + x * B ^ i := by
  induction n with
  | zero => omega
  | succ n ih =>
    by_cases hi : i = n
    · subst hi
      rw [value_succ,value_succ,value_update_of_le le_rfl,update_self]
      omega
    · have hlow := ih (by omega)
      rw [value_succ,value_succ,update_of_ne (by omega)]
      omega

theorem eq_zero_of_value_lt (hB : 0 < B) (h : value B w n < B ^ m) (hm : m ≤ i) (hi : i < n) :
    w i = 0 := by
  have hupdate := value_update (B := B) (w := w) (x := 0) hi
  have hpow := Nat.pow_le_pow_right hB hm
  by_contra hne
  have hle := Nat.le_mul_of_pos_left (B ^ i) (Nat.pos_of_ne_zero hne)
  omega

/-- A product `p = hi * B + lo` added to the words `k` and `k + 1`, with a carry `c` into word
`k + 1` and a carry `c'` out of it. -/
theorem value_add_product {k p hi lo o y c c' : ℕ} (hk : k + 1 < n) (hp : p = hi * B + lo)
    (hlo : lo + w k = o * B + x) (hhi : hi + o + c + w (k + 1) = c' * B + y) :
    value B (update (update w k x) (k + 1) y) n + c' * B ^ (k + 2) =
      value B w n + c * B ^ (k + 1) + p * B ^ k := by
  have hfst : value B (update w k x) n + w k * B ^ k = value B w n + x * B ^ k :=
    value_update (by omega)
  have hsnd : value B (update (update w k x) (k + 1) y) n +
      w (k + 1) * B ^ (k + 1) = value B (update w k x) n + y * B ^ (k + 1) := by
    have h := value_update (B := B) (w := update w k x) (x := y) hk
    rwa [update_of_ne (by omega)] at h
  zify at hfst hsnd hp hlo hhi ⊢
  linear_combination hfst + hsnd - (B : ℤ) ^ k * hp - (B : ℤ) ^ k * hlo -
    (B : ℤ) ^ (k + 1) * hhi

theorem value_add_of_zero (h : ∀ i, m ≤ i → i < m + n → w i = 0) :
    value B w (m + n) = value B w m := by
  induction n with
  | zero => rfl
  | succ n ih =>
    have hlow := ih fun i hmi hin => h i hmi (by omega)
    rw [← Nat.add_assoc,value_succ,hlow,h (m + n) (by omega) (by omega),Nat.zero_mul,Nat.add_zero]

/-- The highest digit that differs decides. -/
theorem value_lt_value (hw : ∀ i < n, w i < B) (h : w n < w' n) :
    value B w (n + 1) < value B w' (n + 1) := by
  have hlow := value_lt hw
  have htop : (w n + 1) * B ^ n ≤ w' n * B ^ n := Nat.mul_le_mul_right _ h
  rw [Nat.add_mul] at htop
  rw [value_succ,value_succ]
  omega

end

open List

abbrev Byte := Fin 256

instance Byte.neZero : NeZero 256 := ⟨by decide⟩

/-- The `w` lowest bytes of `n`, the highest of them first. -/
def beBytes : ℕ → ℕ → List Byte
  | 0, _ => []
  | w + 1, n => Fin.ofNat 256 (n / 256 ^ w) :: beBytes w n

@[simp] theorem length_beBytes (w n : ℕ) : (beBytes w n).length = w := by
  induction w with
  | zero => rfl
  | succ w ih => rw [beBytes,length_cons,ih]

theorem beBytes_lt_iff {w m n : ℕ} :
    beBytes w m < beBytes w n ↔ m % 256 ^ w < n % 256 ^ w := by
  induction w with
  | zero => simp [beBytes,Nat.mod_one]
  | succ w ih =>
    rw [beBytes,beBytes,cons_lt_cons_iff,ih,Nat.mod_pow_succ,Nat.mod_pow_succ]
    simp only [Fin.lt_def,Fin.ext_iff,Fin.val_ofNat]
    have hm : m % 256 ^ w < 256 ^ w := Nat.mod_lt _ (by positivity)
    have hn : n % 256 ^ w < 256 ^ w := Nat.mod_lt _ (by positivity)
    generalize m / 256 ^ w % 256 = a
    generalize n / 256 ^ w % 256 = b
    generalize m % 256 ^ w = c at hm
    generalize n % 256 ^ w = d at hn
    generalize 256 ^ w = p at hm hn
    -- the highest byte decides unless it is the same in both
    rcases lt_trichotomy a b with hab | rfl | hab
    · have hp : p * (a + 1) ≤ p * b := Nat.mul_le_mul_left p hab
      rw [mul_add] at hp
      exact ⟨fun _ => by omega,fun _ => .inl hab⟩
    · constructor
      · rintro (h | ⟨-,h⟩)
        · exact absurd h (lt_irrefl a)
        · omega
      · intro h
        exact .inr ⟨rfl,by omega⟩
    · have hp : p * (b + 1) ≤ p * a := Nat.mul_le_mul_left p hab
      rw [mul_add] at hp
      constructor
      · rintro (h | ⟨rfl,-⟩)
        · exact absurd h hab.asymm
        · exact absurd hab (lt_irrefl a)
      · intro h
        omega

theorem beBytes_lt_beBytes {w m n : ℕ} (hm : m < 256 ^ w) (hn : n < 256 ^ w) :
    beBytes w m < beBytes w n ↔ m < n := by
  rw [beBytes_lt_iff,Nat.mod_eq_of_lt hm,Nat.mod_eq_of_lt hn]

/-- Strings with a common start are in the order of what follows it. -/
theorem append_lt_append_iff {α : Type} [LinearOrder α] {l a b : List α} :
    l ++ a < l ++ b ↔ a < b := by
  induction l with
  | nil => rfl
  | cons x l ih =>
    rw [cons_append,cons_append,cons_lt_cons_iff,ih]
    exact ⟨fun h => h.elim (fun hx => absurd hx (lt_irrefl x)) And.right,fun h => .inr ⟨rfl,h⟩⟩

/-- Where neither of two strings starts the other, what follows them does not matter. -/
theorem append_lt_append_of_not_isPrefixOf {α : Type} [LinearOrder α] {a b : List α}
    (hab : ¬ a <+: b) (hba : ¬ b <+: a) (x y : List α) : a ++ x < b ++ y ↔ a < b := by
  induction a generalizing b with
  | nil => exact absurd nil_prefix hab
  | cons c a ih =>
    cases b with
    | nil => exact absurd nil_prefix hba
    | cons d b =>
      rw [cons_append,cons_append,cons_lt_cons_iff,cons_lt_cons_iff]
      refine or_congr_right (and_congr_right fun hcd => ih ?_ ?_)
      · intro h
        exact hab (cons_prefix_cons.mpr ⟨hcd,h⟩)
      · intro h
        exact hba (cons_prefix_cons.mpr ⟨hcd.symm,h⟩)

/-- The `w` lowest bytes of `n`, the lowest first. -/
def leBytes : ℕ → ℕ → List UInt8
  | 0, _ => []
  | w + 1, n => UInt8.ofNat n :: leBytes w (n / 256)

def ofLeBytes : List UInt8 → ℕ
  | [] => 0
  | b :: bs => b.toNat + 256 * ofLeBytes bs

@[simp] theorem length_leBytes (w n : ℕ) : (leBytes w n).length = w := by
  induction w generalizing n with
  | zero => rfl
  | succ w ih => rw [leBytes,length_cons,ih]

theorem ofLeBytes_leBytes {w n : ℕ} (h : n < 256 ^ w) : ofLeBytes (leBytes w n) = n := by
  induction w generalizing n with
  | zero =>
    rw [leBytes,ofLeBytes]
    omega
  | succ w ih =>
    have hdiv : n / 256 < 256 ^ w := by
      rw [Nat.div_lt_iff_lt_mul (by decide)]
      exact h
    have hbyte : (UInt8.ofNat n).toNat = n % 256 := by simp
    rw [leBytes,ofLeBytes,ih hdiv]
    exact Nat.mod_add_div n 256

end Movelib
