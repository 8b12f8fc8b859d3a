import Arx.Movelib.Abort

/-!
# Totals of a ledger

`BoundedBy f S` says that the balances `f` of any finitely many accounts add up to at most `S`, and
`HasTotal f S` that finitely many accounts hold something, and together exactly `S`.
-/

namespace Movelib
open Function List

section Ledger

variable {κ : Type} {f f' : κ → ℕ} {S S' : ℕ}

def BoundedBy (f : κ → ℕ) (S : ℕ) : Prop := ∀ t : Finset κ, ∑ k ∈ t, f k ≤ S

theorem BoundedBy.zero (S : ℕ) : BoundedBy (fun _ : κ => 0) S := by
  intro t
  simp

theorem BoundedBy.le (h : BoundedBy f S) (k : κ) : f k ≤ S := by
  simpa using h {k}

/-- One balance changes. -/
theorem sum_move [DecidableEq κ] {t : Finset κ} {k : κ} (hk : k ∈ t)
    (hframe : ∀ j, j ≠ k → f' j = f j) : ∑ j ∈ t, f' j + f k = ∑ j ∈ t, f j + f' k := by
  have hrest : ∑ j ∈ t.erase k, f' j = ∑ j ∈ t.erase k, f j :=
    Finset.sum_congr rfl fun j hj => hframe j (Finset.ne_of_mem_erase hj)
  rw [← Finset.add_sum_erase t f' hk,← Finset.add_sum_erase t f hk]
  omega

theorem BoundedBy.move [DecidableEq κ] (h : BoundedBy f S) (k : κ)
    (hframe : ∀ j, j ≠ k → f' j = f j) (hpaid : S' + f k = S + f' k) : BoundedBy f' S' := by
  intro t
  have hsum := sum_move (Finset.mem_insert_self k t) hframe
  have hold := h (insert k t)
  have hsub : ∑ j ∈ t, f' j ≤ ∑ j ∈ insert k t, f' j :=
    Finset.sum_le_sum_of_subset (Finset.subset_insert k t)
  omega

theorem BoundedBy.transfer [DecidableEq κ] (h : BoundedBy f S) {x y : κ} (hxy : x ≠ y)
    (hframe : ∀ j, j ≠ x → j ≠ y → f' j = f j) (hsum : f' x + f' y = f x + f y) :
    BoundedBy f' S := by
  have hx := h.le x
  -- First `x` alone changes, and the supply with it; then `y` undoes the change of the supply.
  have hmid : BoundedBy (update f x (f' x)) (S + f' x - f x) := by
    refine h.move x (fun j hj => update_of_ne hj _ _) ?_
    rw [update_self]
    omega
  refine hmid.move y (fun j hj => ?_) ?_
  · by_cases hjx : j = x
    · rw [hjx,update_self]
    · rw [update_of_ne hjx,hframe j hjx hj]
  · rw [update_of_ne hxy.symm]
    omega

theorem BoundedBy.mono (h : BoundedBy f S) (hle : ∀ k, f' k ≤ f k) : BoundedBy f' S :=
  fun t => (Finset.sum_le_sum fun k _ => hle k).trans (h t)

/-- Accounts outside the range of `e` are empty. -/
theorem BoundedBy.of_injective {ι : Type} {e : ι → κ} (he : Function.Injective e)
    (h : BoundedBy (fun i => f (e i)) S) (hout : ∀ k, k ∉ Set.range e → f k = 0) :
    BoundedBy f S := by
  intro t
  rw [← Finset.sum_preimage e t he.injOn f fun k _ hk => hout k hk]
  exact h _

/-- Distinct accounts in a vector. -/
theorem BoundedBy.list_sum [DecidableEq κ] (h : BoundedBy f S) {l : List κ} (hl : l.Nodup) :
    (l.map f).sum ≤ S := by
  rw [← sum_toFinset f hl]
  exact h _

/-- The balances that are not zero are finitely many and add up to `S`. -/
def HasTotal (f : κ → ℕ) (S : ℕ) : Prop :=
  ∃ t : Finset κ, (∀ k, k ∉ t → f k = 0) ∧ ∑ k ∈ t, f k = S

theorem HasTotal.zero : HasTotal (fun _ : κ => 0) 0 := ⟨∅,fun _ _ => rfl,rfl⟩

theorem HasTotal.move [DecidableEq κ] (h : HasTotal f S) (k : κ)
    (hframe : ∀ j, j ≠ k → f' j = f j) (hpaid : S' + f k = S + f' k) : HasTotal f' S' := by
  obtain ⟨t,hout,hsum⟩ := h
  refine ⟨insert k t,fun j hj => ?_,?_⟩
  · rw [Finset.mem_insert,not_or] at hj
    rw [hframe j hj.1,hout j hj.2]
  · have hold : ∑ j ∈ t, f j = ∑ j ∈ insert k t, f j :=
      Finset.sum_subset (Finset.subset_insert k t) fun j _ hj => hout j hj
    have hnew := sum_move (Finset.mem_insert_self k t) hframe
    omega

theorem HasTotal.le (h : HasTotal f S) (k : κ) : f k ≤ S := by
  obtain ⟨t,hout,rfl⟩ := h
  by_cases hk : k ∈ t
  · exact Finset.single_le_sum (fun _ _ => Nat.zero_le _) hk
  · rw [hout k hk]
    exact Nat.zero_le _

end Ledger

section Lists

variable {κ : Type} [DecidableEq κ] {f : κ → ℕ} {l : List κ} {a : κ} {v : ℕ}

theorem sum_map_update_of_notMem (ha : a ∉ l) :
    (l.map (update f a v)).sum = (l.map f).sum := by
  rw [map_congr_left]
  intro b hb
  have hne : b ≠ a := fun heq => ha (heq ▸ hb)
  exact update_of_ne hne ..

theorem sum_map_update_of_mem (hl : l.Nodup) (ha : a ∈ l) :
    (l.map (update f a v)).sum + f a = (l.map f).sum + v := by
  induction l with
  | nil => cases ha
  | cons b l ih =>
    obtain ⟨hb,hl⟩ := nodup_cons.mp hl
    rw [map_cons,sum_cons,map_cons,sum_cons]
    by_cases hab : a = b
    · subst hab
      rw [update_self,sum_map_update_of_notMem hb]
      omega
    · have htail := ih hl ((mem_cons.mp ha).resolve_left hab)
      rw [update_of_ne (Ne.symm hab)]
      omega

end Lists

section SumChecked

variable {α : Type}

/-- The loop that adds up `f` over a vector in a `w`-bit accumulator. -/
def sumChecked (w : ℕ) (f : α → ℕ) : ℕ → List α → Result ℕ
  | total, [] => .ok total
  | total, x :: xs => do
    let total ← addChecked w total (f x)
    sumChecked w f total xs

/-- The loop goes through exactly when the final sum fits. -/
theorem sumChecked_eq_ok {w : ℕ} {f : α → ℕ} {total r : ℕ} {xs : List α} (h : total < 2 ^ w) :
    sumChecked w f total xs = .ok r ↔
      total + (xs.map f).sum < 2 ^ w ∧ total + (xs.map f).sum = r := by
  induction xs generalizing total with
  | nil => simp [sumChecked,h]
  | cons x xs ih =>
    simp only [sumChecked,bind_eq_ok,addChecked_eq_ok,map_cons,sum_cons]
    constructor
    · rintro ⟨_,⟨hx,rfl⟩,hr⟩
      rw [ih hx,add_assoc] at hr
      exact hr
    · rintro ⟨hlt,rfl⟩
      have hx : total + f x < 2 ^ w := by omega
      refine ⟨_,⟨hx,rfl⟩,?_⟩
      rw [ih hx,add_assoc]
      exact ⟨hlt,rfl⟩

end SumChecked

end Movelib
