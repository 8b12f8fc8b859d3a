import Mathlib.Tactic

/-!
# Rounded proportions and means

Facts about the floor divisions with which a ledger hands out proportional shares, and the mean of a
list, which lies between its smallest and its largest entry.
-/

namespace Movelib

/-- Rounding down `x / f` takes no more from a larger balance than the balances differ by. -/
theorem sub_div_le_sub_div {x y : ℕ} (f : ℕ) (h : x ≤ y) : x - x / f ≤ y - y / f := by
  have hd : y / f ≤ x / f + (y - x) := by
    obtain rfl | hf := Nat.eq_zero_or_pos f
    · simp
    · rw [Nat.div_le_iff_le_mul_add_pred hf]
      have hx := Nat.div_add_mod x f
      have hm := Nat.mod_lt x hf
      have hk : y - x ≤ f * (y - x) := Nat.le_mul_of_pos_left _ hf
      rw [Nat.mul_add]
      omega
  have hxf := Nat.div_le_self x f
  omega

/-- Ratios `a / s ≤ b / t ≤ c / u`, cross-multiplied; a zero denominator must stay zero. -/
theorem cross_le_trans {a b c s t u : ℕ} (h₁ : a * t ≤ b * s) (h₂ : b * u ≤ c * t)
    (h0 : t = 0 → u = 0) : a * u ≤ c * s := by
  obtain rfl | ht := Nat.eq_zero_or_pos t
  · rw [h0 rfl]
    exact Nat.zero_le _
  · apply Nat.le_of_mul_le_mul_right _ ht
    calc
      a * u * t = a * t * u := by ring
      _ ≤ b * s * u := Nat.mul_le_mul_right _ h₁
      _ = b * u * s := by ring
      _ ≤ c * t * s := Nat.mul_le_mul_right _ h₂
      _ = c * s * t := by ring

/-- A share of `S` for `x` added to `X`, rounded down, does not lower `X / S`. -/
theorem mint_share_le {x X S : ℕ} (liq : ℕ) (h : liq ≤ x * S / X) :
    X * (S + liq) ≤ (X + x) * S := by
  have hliq : X * liq ≤ x * S := (Nat.mul_le_mul_left X h).trans (Nat.mul_div_le _ _)
  rw [Nat.mul_add,Nat.add_mul]
  exact Nat.add_le_add_left hliq _

/-- A part of `X` paid for `b` of the `S` shares, rounded down, does not lower `X / S`. -/
theorem burn_share_le {b X S : ℕ} : X * (S - b) ≤ (X - b * X / S) * S := by
  have hret : b * X / S * S ≤ b * X := Nat.div_mul_le_self _ _
  rw [Nat.mul_sub,Nat.sub_mul,Nat.mul_comm X b]
  omega

/-- The rounded parts of `X` do not add up to more than the part of the sum. -/
theorem sum_div_le {α : Type} (l : List α) (f : α → ℕ) (X S : ℕ) :
    (l.map fun a => f a * X / S).sum ≤ (l.map f).sum * X / S := by
  induction l with
  | nil => exact Nat.zero_le _
  | cons a l ih =>
    rw [List.map_cons,List.sum_cons,List.map_cons,List.sum_cons,Nat.add_mul]
    exact (Nat.add_le_add_left ih _).trans (Nat.div_add_div_le_add_div)

/-- What was minted for `x` pays back no more than `x`. -/
theorem round_trip_le {x X S liq : ℕ} (h : X * liq ≤ x * S) :
    liq * (X + x) / (S + liq) ≤ x := by
  apply Nat.div_le_of_le_mul
  rw [Nat.mul_add,Nat.add_mul,Nat.mul_comm liq X,Nat.mul_comm S x]
  omega

/-- `v` is at least the smallest and at most the largest entry of `l`. -/
def Between (v : ℕ) (l : List ℕ) : Prop := (∃ a ∈ l, a ≤ v) ∧ ∃ b ∈ l, v ≤ b

variable {l : List ℕ} {B : ℕ}

theorem mean_between (hl : l ≠ []) : Between (l.sum / l.length) l := by
  have hlen := List.length_pos_of_ne_nil hl
  have hdiv := Nat.div_add_mod l.sum l.length
  have hmod := Nat.mod_lt l.sum hlen
  constructor
  -- Otherwise every entry exceeds the mean, and the sum exceeds itself.
  · by_contra hcon
    have hall : ∀ a ∈ l, l.sum / l.length + 1 ≤ a := by
      intro a ha
      by_contra hlt
      exact hcon ⟨a,ha,by omega⟩
    have hsum := List.card_nsmul_le_sum l _ hall
    rw [smul_eq_mul,Nat.mul_add] at hsum
    omega
  · by_contra hcon
    have hall : ∀ a ∈ l, a + 1 ≤ l.sum / l.length := by
      intro a ha
      by_contra hlt
      exact hcon ⟨a,ha,by omega⟩
    have hpos : 0 < l.sum / l.length := by
      obtain ⟨a,ha⟩ := List.exists_mem_of_ne_nil l hl
      have := hall a ha
      omega
    have hsum := List.sum_le_card_nsmul l (l.sum / l.length - 1) fun a ha => by
      have := hall a ha
      omega
    rw [smul_eq_mul,Nat.mul_sub] at hsum
    have hge := Nat.le_mul_of_pos_right l.length hpos
    omega

theorem mean_lt (hl : l ≠ []) (h : ∀ a ∈ l, a < B) : l.sum / l.length < B := by
  obtain ⟨_,b,hb,hle⟩ := mean_between hl
  exact hle.trans_lt (h b hb)

end Movelib
