import Arx.Framework.Math

/-!
# `arx::coin`

A coin is its value; the supply of a coin type with `monitor_supply` is the
`u128` counter of its `CoinInfo`, whose limit is `MAX_U128`.
-/

namespace Arx
open Movelib

abbrev Address := ℕ

inductive CoinType
  | arxCoin
  /-- `LP<ArxCoin, XUSDCoin, Stable>` -/
  | lpArxXusdStable
  | other (tag : ℕ)
  deriving DecidableEq

structure CoinStore where
  coin : ℕ
  frozen : Bool
  deriving DecidableEq

namespace Coin

def ECOIN_STORE_NOT_PUBLISHED : ℕ := 5
def EINSUFFICIENT_BALANCE : ℕ := 6
def EDESTRUCTION_OF_NONZERO_TOKEN : ℕ := 7
def EZERO_COIN_AMOUNT : ℕ := 9
def EFROZEN : ℕ := 10
def EAGGREGATOR_OVERFLOW : ℕ := 1
def EAGGREGATOR_UNDERFLOW : ℕ := 2

def extract (coin amount : ℕ) : Result (ℕ × ℕ) := do
  ensure (amount ≤ coin) (Error.invalidArgument EINSUFFICIENT_BALANCE)
  pure (coin - amount, amount)

def extractAll (coin : ℕ) : ℕ × ℕ := (0, coin)

def merge (dst source : ℕ) : Result ℕ := addChecked 64 dst source

def destroyZero (coin : ℕ) : Result Unit :=
  ensure (coin = 0) (Error.invalidArgument EDESTRUCTION_OF_NONZERO_TOKEN)

/-- `optional_aggregator::add` on a supply. -/
def addSupply (supply amount : ℕ) : Result ℕ := do
  ensure (amount ≤ Math128.MAX_U128 - supply) (Error.outOfRange EAGGREGATOR_OVERFLOW)
  pure (supply + amount)

/-- `optional_aggregator::sub` on a supply. -/
def subSupply (supply amount : ℕ) : Result ℕ := do
  ensure (amount ≤ supply) (Error.outOfRange EAGGREGATOR_UNDERFLOW)
  pure (supply - amount)

def mint (supply amount : ℕ) : Result (ℕ × ℕ) :=
  if amount = 0 then .ok (supply, 0)
  else do
    let supply ← addSupply supply amount
    pure (supply, amount)

def burn (supply coin : ℕ) : Result ℕ := do
  ensure (0 < coin) (Error.invalidArgument EZERO_COIN_AMOUNT)
  subSupply supply coin

def withdraw (store : Option CoinStore) (amount : ℕ) : Result (CoinStore × ℕ) :=
  match store with
  | none => .error (Error.notFound ECOIN_STORE_NOT_PUBLISHED)
  | some store => do
    ensure (store.frozen = false) (Error.permissionDenied EFROZEN)
    let (rest, coins) ← extract store.coin amount
    pure ({ store with coin := rest }, coins)

def deposit (store : Option CoinStore) (coin : ℕ) : Result CoinStore :=
  match store with
  | none => .error (Error.notFound ECOIN_STORE_NOT_PUBLISHED)
  | some store => do
    ensure (store.frozen = false) (Error.permissionDenied EFROZEN)
    let value ← merge store.coin coin
    pure { store with coin := value }

section Inversion

variable {coin amount supply : ℕ} {store : Option CoinStore}

@[simp] theorem extract_eq_ok {p : ℕ × ℕ} :
    extract coin amount = .ok p ↔ amount ≤ coin ∧ (coin - amount, amount) = p := by
  simp [extract]

@[simp] theorem merge_eq_ok {dst v : ℕ} :
    merge dst coin = .ok v ↔ dst + coin < 2 ^ 64 ∧ dst + coin = v := addChecked_eq_ok

@[simp] theorem destroyZero_eq_ok {u : Unit} : destroyZero coin = .ok u ↔ coin = 0 := ensure_eq_ok

/-- Minting zero skips the supply check, so the bound is only met by a real mint. -/
@[simp] theorem mint_eq_ok {p : ℕ × ℕ} :
    mint supply amount = .ok p ↔
      (amount = 0 ∨ amount ≤ Math128.MAX_U128 - supply) ∧ (supply + amount, amount) = p := by
  rw [mint]
  by_cases h : amount = 0
  · simp [h]
  · simp [h,addSupply]

@[simp] theorem burn_eq_ok {v : ℕ} :
    burn supply coin = .ok v ↔ 0 < coin ∧ coin ≤ supply ∧ supply - coin = v := by
  simp [burn,subSupply,bind_eq_ok]

theorem withdraw_eq_ok {p : CoinStore × ℕ} :
    withdraw store amount = .ok p ↔ ∃ cs, store = some cs ∧ cs.frozen = false ∧ amount ≤ cs.coin ∧
      ({ cs with coin := cs.coin - amount }, amount) = p := by
  cases store with
  | none => simp [withdraw]
  | some cs => simp [withdraw,bind_eq_ok]

theorem deposit_eq_ok {cs' : CoinStore} :
    deposit store coin = .ok cs' ↔ ∃ cs, store = some cs ∧ cs.frozen = false ∧
      cs.coin + coin < 2 ^ 64 ∧ { cs with coin := cs.coin + coin } = cs' := by
  cases store with
  | none => simp [deposit]
  | some cs => simp [deposit,bind_eq_ok]

end Inversion

end Coin

end Arx
