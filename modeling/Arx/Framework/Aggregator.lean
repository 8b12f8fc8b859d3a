import Arx.Framework.Coin

/-!
# `arx::aggregator`, `arx::optional_aggregator` and the aggregatable coins of `arx::coin`

An aggregator is a counter with a limit; the natives are taken by their documentation. The supply
of a coin is kept in an aggregator or in an integer, and an aggregatable coin is an aggregator
whose limit is the largest coin.
-/

namespace Arx
open Movelib

structure Aggregator where
  value : ℕ
  limit : ℕ
  deriving DecidableEq

namespace Aggregator

def EAGGREGATOR_OVERFLOW : ℕ := 1
def EAGGREGATOR_UNDERFLOW : ℕ := 2

/-- `create_aggregator`. -/
def create (limit : ℕ) : Aggregator := ⟨0,limit⟩

def add (g : Aggregator) (n : ℕ) : Result Aggregator := do
  ensure (g.value + n ≤ g.limit) (Error.outOfRange EAGGREGATOR_OVERFLOW)
  pure { g with value := g.value + n }

def sub (g : Aggregator) (n : ℕ) : Result Aggregator := do
  ensure (n ≤ g.value) (Error.outOfRange EAGGREGATOR_UNDERFLOW)
  pure { g with value := g.value - n }

abbrev read (g : Aggregator) : ℕ := g.value

variable {g g' : Aggregator} {n : ℕ}

@[simp] theorem add_eq_ok :
    g.add n = .ok g' ↔ g.value + n ≤ g.limit ∧ { g with value := g.value + n } = g' := by
  simp [add]

@[simp] theorem sub_eq_ok :
    g.sub n = .ok g' ↔ n ≤ g.value ∧ { g with value := g.value - n } = g' := by
  simp [sub]

end Aggregator

namespace AggregatableCoin

def MAX_U64 : ℕ := 18446744073709551615
def EAGGREGATABLE_COIN_VALUE_TOO_LARGE : ℕ := 14

/-- `initialize_aggregatable_coin`. -/
def init : Aggregator := .create MAX_U64

/-- `is_aggregatable_coin_zero`. -/
def isZero (coin : Aggregator) : Bool := decide (coin.read = 0)

/-- `drain_aggregatable_coin`: what is left, and the coin. -/
def drain (coin : Aggregator) : Result (Aggregator × ℕ) := do
  let amount := coin.read
  ensure (amount ≤ MAX_U64) (Error.outOfRange EAGGREGATABLE_COIN_VALUE_TOO_LARGE)
  let rest ← coin.sub amount
  pure (rest, amount)

/-- `merge_aggregatable_coin`. -/
def merge (dst : Aggregator) (coin : ℕ) : Result Aggregator := dst.add coin

/-- `collect_into_aggregatable_coin` from the store of an account. A frozen store pays as well. -/
def collectInto (store : Option CoinStore) (amount : ℕ) (dst : Aggregator) :
    Result (Option CoinStore × Aggregator) :=
  if amount = 0 then .ok (store, dst)
  else do
    let store ← borrowGlobal store
    let (rest, coin) ← Coin.extract store.coin amount
    let dst ← merge dst coin
    pure (some { store with coin := rest }, dst)

end AggregatableCoin

/-- The `Integer` of `optional_aggregator`. -/
structure Integer where
  value : ℕ
  limit : ℕ
  deriving DecidableEq

structure OptionalAggregator where
  /-- Parallelizable. -/
  aggregator : Option Aggregator
  /-- Non-parallelizable. -/
  integer : Option Integer
  deriving DecidableEq

namespace OptionalAggregator

def EAGGREGATOR_OVERFLOW : ℕ := 1
def EAGGREGATOR_UNDERFLOW : ℕ := 2

/-- `option::EOPTION_IS_SET`, raised by `option::fill`. -/
def EOPTION_IS_SET : Abort := .code 0x40000

/-- `option::EOPTION_NOT_SET`, raised by `option::borrow` and `option::extract`. -/
def EOPTION_NOT_SET : Abort := .code 0x40001

def newInteger (limit : ℕ) : Integer := ⟨0,limit⟩

def addInteger (i : Integer) (value : ℕ) : Result Integer := do
  let room ← subChecked i.limit i.value
  ensure (value ≤ room) (Error.outOfRange EAGGREGATOR_OVERFLOW)
  let value ← addChecked 128 i.value value
  pure { i with value }

def subInteger (i : Integer) (value : ℕ) : Result Integer := do
  ensure (value ≤ i.value) (Error.outOfRange EAGGREGATOR_UNDERFLOW)
  pure { i with value := i.value - value }

def borrow {α : Type} (o : Option α) : Result α := o.elim (.error EOPTION_NOT_SET) .ok

/-- `option::fill`: the option that is left. -/
def fill {α : Type} (o : Option α) (x : α) : Result (Option α) := do
  ensure (o.isNone = true) EOPTION_IS_SET
  pure (some x)

def new (limit : ℕ) (parallelizable : Bool) : OptionalAggregator :=
  if parallelizable then ⟨some (.create limit),none⟩ else ⟨none,some (newInteger limit)⟩

variable (g : OptionalAggregator)

def isParallelizable : Bool := g.aggregator.isSome

def add (value : ℕ) : Result OptionalAggregator :=
  match g.aggregator with
  | some aggregator => do
    let aggregator ← aggregator.add value
    pure { g with aggregator := some aggregator }
  | none => do
    let integer ← borrow g.integer
    let integer ← addInteger integer value
    pure { g with integer := some integer }

def sub (value : ℕ) : Result OptionalAggregator :=
  match g.aggregator with
  | some aggregator => do
    let aggregator ← aggregator.sub value
    pure { g with aggregator := some aggregator }
  | none => do
    let integer ← borrow g.integer
    let integer ← subInteger integer value
    pure { g with integer := some integer }

def read : Result ℕ :=
  match g.aggregator with
  | some aggregator => .ok aggregator.read
  | none => do
    let integer ← borrow g.integer
    pure integer.value

def switchToIntegerAndZeroOut : Result OptionalAggregator := do
  let aggregator ← borrow g.aggregator
  let integer ← fill g.integer (newInteger aggregator.limit)
  pure ⟨none,integer⟩

def switchToAggregatorAndZeroOut : Result OptionalAggregator := do
  let integer ← borrow g.integer
  let aggregator ← fill g.aggregator (.create integer.limit)
  pure ⟨aggregator,none⟩

def switchAndZeroOut : Result OptionalAggregator :=
  if g.isParallelizable then g.switchToIntegerAndZeroOut else g.switchToAggregatorAndZeroOut

def switch : Result OptionalAggregator := do
  let value ← g.read
  let g ← g.switchAndZeroOut
  g.add value

/-- Exactly one of the two implementations is there, and its value is `n`. -/
inductive Counts : OptionalAggregator → ℕ → Prop
  | aggregator (n limit : ℕ) : Counts ⟨some ⟨n,limit⟩,none⟩ n
  | integer (n limit : ℕ) : Counts ⟨none,some ⟨n,limit⟩⟩ n

theorem counts_new (limit : ℕ) (parallelizable : Bool) : Counts (new limit parallelizable) 0 := by
  cases parallelizable with
  | false => exact .integer 0 limit
  | true => exact .aggregator 0 limit

variable {g} {g' : OptionalAggregator} {n m : ℕ}

theorem Counts.read_eq (h : Counts g n) : g.read = .ok n := by
  cases h with
  | aggregator => rfl
  | integer => rfl

theorem Counts.add (h : Counts g n) (ha : g.add m = .ok g') : Counts g' (n + m) := by
  cases h with
  | aggregator n limit =>
    simp only [OptionalAggregator.add,bind_eq_ok,Aggregator.add_eq_ok,pure_eq_ok] at ha
    obtain ⟨_,⟨-,rfl⟩,rfl⟩ := ha
    exact .aggregator _ _
  | integer n limit =>
    simp only [OptionalAggregator.add,borrow,addInteger,bind_eq_ok,Option.elim_some,Except.ok.injEq,
      addChecked_eq_ok,pure_eq_ok] at ha
    obtain ⟨_,rfl,_,⟨_,-,_,-,_,⟨-,rfl⟩,rfl⟩,rfl⟩ := ha
    exact .integer _ _

theorem Counts.sub (h : Counts g n) (hs : g.sub m = .ok g') : m ≤ n ∧ Counts g' (n - m) := by
  cases h with
  | aggregator n limit =>
    simp only [OptionalAggregator.sub,bind_eq_ok,Aggregator.sub_eq_ok,pure_eq_ok] at hs
    obtain ⟨_,⟨hle,rfl⟩,rfl⟩ := hs
    exact ⟨hle,.aggregator _ _⟩
  | integer n limit =>
    simp only [OptionalAggregator.sub,borrow,subInteger,bind_eq_ok,Option.elim_some,Except.ok.injEq,
      ensure_eq_ok,pure_eq_ok] at hs
    obtain ⟨_,rfl,_,⟨_,hle,rfl⟩,rfl⟩ := hs
    exact ⟨hle,.integer _ _⟩

/-- The switch zeroes the counter out and adds the old value to the new one. -/
theorem Counts.switch (h : Counts g n) (hs : g.switch = .ok g') : Counts g' n := by
  simp only [OptionalAggregator.switch,h.read_eq,bind_eq_ok,Except.ok.injEq] at hs
  obtain ⟨_,rfl,z,hz,hs⟩ := hs
  have hzero : Counts z 0 := by
    cases h with
    | aggregator n limit =>
      cases hz
      exact .integer 0 limit
    | integer n limit =>
      cases hz
      exact .aggregator 0 limit
  rw [← zero_add n]
  exact hzero.add hs

end OptionalAggregator

end Arx
