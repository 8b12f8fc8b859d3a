import Arx.Movelib.Abort

/-!
# Vector operations

The loops that move the elements of one vector to the end of another, and the
constant-time removal that fills the gap with the last element.
-/

namespace Movelib
open List

variable {α : Type}

/-- Pop the elements of `other` from its end and push them onto `lhs`. The second
argument is the reversed vector, whose head is the next element to pop. -/
def popOnto : List α → List α → List α
  | lhs, [] => lhs
  | lhs, x :: rev => popOnto (lhs ++ [x]) rev

/-- `while (!is_empty(other)) push_back(lhs, pop_back(other))`. -/
def drain (lhs other : List α) : List α := popOnto lhs other.reverse

/-- The same loop after a `reverse(other)`. -/
def appendNondestructive (lhs other : List α) : List α := drain lhs other.reverse

theorem popOnto_eq (lhs rev : List α) : popOnto lhs rev = lhs ++ rev := by
  induction rev generalizing lhs with
  | nil => simp [popOnto]
  | cons x rev ih => simp [popOnto,ih]

@[simp] theorem drain_eq (lhs other : List α) : drain lhs other = lhs ++ other.reverse :=
  popOnto_eq lhs other.reverse

@[simp] theorem appendNondestructive_eq (lhs other : List α) :
    appendNondestructive lhs other = lhs ++ other := by
  simp [appendNondestructive]

/-- `vector::swap_remove`: the element at `i` is exchanged with the last one and popped. -/
def swapRemove (v : List α) (i : ℕ) : Result (List α × α) :=
  match v.getLast? with
  | none => .error (.code 0x20000)
  | some last => do
    let x ← vectorBorrow v i
    pure ((v.set i last).dropLast, x)

theorem set_perm {v : List α} {i : ℕ} (hi : i < v.length) (x : α) :
    (x :: v).Perm (v[i] :: v.set i x) := by
  induction v generalizing i with
  | nil => cases hi
  | cons y v ih =>
    cases i with
    | zero => exact .swap y x v
    | succ i =>
      have h := ih (Nat.lt_of_succ_lt_succ hi)
      exact (List.Perm.swap y x v).trans ((h.cons y).trans (.swap _ _ _))

theorem swapRemove_perm {v rest : List α} {i : ℕ} {x : α} (h : swapRemove v i = .ok (rest, x)) :
    v[i]? = some x ∧ v.Perm (x :: rest) := by
  rw [swapRemove] at h
  cases hlast : v.getLast? with
  | none => rw [hlast] at h; cases h
  | some last =>
    rw [hlast] at h
    simp only [bind_eq_ok,vectorBorrow_eq_ok,pure_eq_ok,Prod.mk.injEq] at h
    obtain ⟨_,hx,rfl,rfl⟩ := h
    refine ⟨hx,?_⟩
    obtain ⟨init,rfl⟩ := List.getLast?_eq_some_iff.mp hlast
    by_cases hi : i < init.length
    · -- the gap is filled with the last element
      rw [List.getElem?_append_left hi,List.getElem?_eq_getElem hi,Option.some_inj] at hx
      rw [set_append_left i last hi,dropLast_concat,← hx]
      exact (perm_append_singleton last init).trans (set_perm hi last)
    · -- the last element is the one taken out
      have hlen : i < (init ++ [last]).length := List.getElem?_eq_some_iff.mp hx |>.1
      rw [length_append,length_singleton] at hlen
      obtain rfl : i = init.length := by omega
      rw [List.getElem?_concat_length,Option.some_inj] at hx
      rw [set_append_right _ _ le_rfl,Nat.sub_self,set_cons_zero,dropLast_concat,
        ← hx]
      exact perm_append_singleton last init

theorem isSome_findIdx?_eq_mem [DecidableEq α] (v : List α) (x : α) :
    (v.findIdx? (fun y => y = x)).isSome = true ↔ x ∈ v := by
  simp [List.findIdx?_isSome,any_eq_true]

/-- The computation does not stop at an index out of bounds. -/
def InBounds (x : Result α) : Prop := x ≠ .error .vectorOperationError

section InBounds

variable {β : Type} {w a b : ℕ}

theorem InBounds.bind {x : Result α} {f : α → Result β} (hx : InBounds x)
    (hf : ∀ a, x = .ok a → InBounds (f a)) : InBounds (x >>= f) := by
  cases x with
  | error e => exact fun h => hx (congrArg Except.error (Except.error.inj h))
  | ok a => exact hf a rfl

theorem InBounds.ite {c : Prop} [Decidable c] {x y : Result α} (hx : InBounds x)
    (hy : InBounds y) : InBounds (if c then x else y) := by
  split
  · exact hx
  · exact hy

theorem inBounds_ok (x : α) : InBounds (.ok x) := nofun

theorem inBounds_ensure (p : Prop) [Decidable p] (n : ℕ) : InBounds (ensure p (.code n)) :=
  .ite (inBounds_ok ()) nofun

theorem inBounds_borrowGlobal (r : Option α) : InBounds (borrowGlobal r) := by
  cases r with
  | none => exact nofun
  | some x => exact inBounds_ok x

theorem inBounds_addChecked : InBounds (addChecked w a b) := .ite (inBounds_ok _) nofun

theorem inBounds_mulChecked : InBounds (mulChecked w a b) := .ite (inBounds_ok _) nofun

theorem inBounds_castChecked : InBounds (castChecked w a) := .ite (inBounds_ok _) nofun

theorem inBounds_vectorBorrow {v : List α} {i : ℕ} (h : i < v.length) :
    InBounds (vectorBorrow v i) := by
  rw [vectorBorrow]
  rw [List.getElem?_eq_getElem h]
  exact inBounds_ok _

end InBounds

end Movelib
