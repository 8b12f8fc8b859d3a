import Arx.Movelib.Except

/-!
# Aborting computations over bounded unsigned integers

Unsigned integers are natural numbers whose width is checked at every operation that can leave it,
so a computation that returns has never wrapped.
-/

namespace Movelib

/-- The ways in which a transaction stops. `code` is an explicit `abort`; the
other cases are raised by the virtual machine itself. -/
inductive Abort
  | code (reason : ℕ)
  | arithmeticError
  | missingData
  | resourceAlreadyExists
  | vectorOperationError
  deriving DecidableEq

abbrev Result (α : Type) := Except Abort α

section Bind

variable {α β : Type}

@[simp] theorem ok_bind (a : α) (f : α → Result β) : (Except.ok a >>= f) = f a := rfl

@[simp] theorem error_bind (e : Abort) (f : α → Result β) :
    (Except.error e >>= f) = .error e := rfl

@[simp] theorem map_eq_ok {x : Result α} {f : α → β} {b : β} :
    (f <$> x) = .ok b ↔ ∃ a, x = .ok a ∧ f a = b := by
  cases x with
  | error e | ok a => simp [Functor.map,Except.map]

end Bind

/-- `assert!(p, e)`. -/
def ensure (p : Prop) [Decidable p] (e : Abort) : Result Unit :=
  if p then .ok () else .error e

/-- `borrow_global`: a resource that is not published raises `missingData`. -/
def borrowGlobal {α : Type} (r : Option α) : Result α :=
  match r with
  | some a => .ok a
  | none => .error .missingData

/-- `vector::borrow`. -/
def vectorBorrow {α : Type} (v : List α) (i : ℕ) : Result α :=
  match v[i]? with
  | some a => .ok a
  | none => .error .vectorOperationError

/-- `a + b` at width `w`. -/
def addChecked (w a b : ℕ) : Result ℕ :=
  if a + b < 2 ^ w then .ok (a + b) else .error .arithmeticError

/-- `a - b`, which aborts below zero at every width. -/
def subChecked (a b : ℕ) : Result ℕ :=
  if b ≤ a then .ok (a - b) else .error .arithmeticError

/-- `a * b` at width `w`. -/
def mulChecked (w a b : ℕ) : Result ℕ :=
  if a * b < 2 ^ w then .ok (a * b) else .error .arithmeticError

/-- `a / b`, which aborts on a zero divisor. -/
def divChecked (a b : ℕ) : Result ℕ :=
  if b ≠ 0 then .ok (a / b) else .error .arithmeticError

/-- `(a as uw)`. -/
def castChecked (w a : ℕ) : Result ℕ :=
  if a < 2 ^ w then .ok a else .error .arithmeticError

/-- `a << n` at width `w`: the bits shifted out are lost. -/
def shlChecked (w a n : ℕ) : Result ℕ :=
  if n < w then .ok ((a <<< n) % 2 ^ w) else .error .arithmeticError

/-- `a >> n` at width `w`. -/
def shrChecked (w a n : ℕ) : Result ℕ :=
  if n < w then .ok (a >>> n) else .error .arithmeticError

section Inversion

variable {w a b c : ℕ}

/-- Every check is of this form: a value, or an abort. -/
theorem check_eq_ok {α : Type} {p : Prop} [Decidable p] {e : Abort} {x y : α} :
    (if p then .ok x else .error e : Result α) = .ok y ↔ p ∧ x = y := by
  by_cases hp : p
  · rw [if_pos hp,Except.ok.injEq,and_iff_right hp]
  · rw [if_neg hp]
    exact ⟨nofun,fun h => absurd h.1 hp⟩

@[simp] theorem ensure_eq_ok {p : Prop} [Decidable p] {e : Abort} {u : Unit} :
    ensure p e = .ok u ↔ p := check_eq_ok.trans (and_iff_left rfl)

@[simp] theorem borrowGlobal_eq_ok {α : Type} {r : Option α} {x : α} :
    borrowGlobal r = .ok x ↔ r = some x := by
  cases r <;> simp [borrowGlobal]

@[simp] theorem vectorBorrow_eq_ok {α : Type} {v : List α} {i : ℕ} {x : α} :
    vectorBorrow v i = .ok x ↔ v[i]? = some x := by
  rw [vectorBorrow]
  cases v[i]? <;> simp

@[simp] theorem addChecked_eq_ok : addChecked w a b = .ok c ↔ a + b < 2 ^ w ∧ a + b = c :=
  check_eq_ok

@[simp] theorem subChecked_eq_ok : subChecked a b = .ok c ↔ b ≤ a ∧ a - b = c :=
  check_eq_ok

@[simp] theorem mulChecked_eq_ok : mulChecked w a b = .ok c ↔ a * b < 2 ^ w ∧ a * b = c :=
  check_eq_ok

@[simp] theorem divChecked_eq_ok : divChecked a b = .ok c ↔ b ≠ 0 ∧ a / b = c :=
  check_eq_ok

@[simp] theorem castChecked_eq_ok : castChecked w a = .ok c ↔ a < 2 ^ w ∧ a = c :=
  check_eq_ok

theorem addChecked_of_lt (h : a + b < 2 ^ w) : addChecked w a b = .ok (a + b) := if_pos h

theorem subChecked_of_le (h : b ≤ a) : subChecked a b = .ok (a - b) := if_pos h

theorem mulChecked_of_lt (h : a * b < 2 ^ w) : mulChecked w a b = .ok (a * b) := if_pos h

theorem castChecked_of_lt (h : a < 2 ^ w) : castChecked w a = .ok a := if_pos h

end Inversion

variable {σ : Type}

def forRounds (body : ℕ → σ → Result σ) : ℕ → ℕ → σ → Result σ
  | 0, _, s => .ok s
  | n + 1, i, s => do
    let s ← body i s
    forRounds body n (i + 1) s

/-- `let i = lo; while (i < hi) { body; i = i + 1 }` on a state. -/
def forRange (lo hi : ℕ) (body : ℕ → σ → Result σ) (s : σ) : Result σ :=
  forRounds body (hi - lo) lo s

variable {body : ℕ → σ → Result σ} {I : ℕ → σ → Prop} {s : σ} {lo hi : ℕ}

theorem forRounds_total {n i : ℕ} (h0 : I i s)
    (hstep : ∀ j s, i ≤ j → j < i + n → I j s → ∃ s', body j s = .ok s' ∧ I (j + 1) s') :
    ∃ s', forRounds body n i s = .ok s' ∧ I (i + n) s' := by
  induction n generalizing i s with
  | zero => exact ⟨s,rfl,h0⟩
  | succ n ih =>
    obtain ⟨s₁,hs₁,h₁⟩ := hstep i s le_rfl (by omega) h0
    obtain ⟨s₂,hs₂,h₂⟩ := ih h₁ fun j t hij hj => hstep j t (by omega) (by omega)
    refine ⟨s₂,?_,?_⟩
    · rw [forRounds,hs₁]
      exact hs₂
    · rwa [show i + (n + 1) = i + 1 + n by omega]

/-- A loop whose body goes through and keeps the invariant ends with it. -/
theorem forRange_total (hle : lo ≤ hi) (h0 : I lo s)
    (hstep : ∀ i s, lo ≤ i → i < hi → I i s → ∃ s', body i s = .ok s' ∧ I (i + 1) s') :
    ∃ s', forRange lo hi body s = .ok s' ∧ I hi s' := by
  have h := forRounds_total (n := hi - lo) h0 fun j t hij hj => hstep j t hij (by omega)
  rwa [show lo + (hi - lo) = hi by omega] at h

theorem forRange_elim {α : Type} {f : σ → Result α} {P : Result α → Prop} (hle : lo ≤ hi)
    (h0 : I lo s)
    (hstep : ∀ i s, lo ≤ i → i < hi → I i s → ∃ s', body i s = .ok s' ∧ I (i + 1) s')
    (hend : ∀ s, I hi s → P (f s)) : P (forRange lo hi body s >>= f) := by
  obtain ⟨s',hs',h⟩ := forRange_total hle h0 hstep
  rw [hs']
  exact hend s' h

end Movelib
