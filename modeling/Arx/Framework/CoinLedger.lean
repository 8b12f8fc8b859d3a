import Arx.Framework.Aggregator

/-!
# The ledger of `arx::coin`

The resources of every coin type, and the coins outside of the stores. A coin cannot be copied or
dropped, so each one has a name: a function that takes a coin takes it off its name, and one that
is handed out gets a free name.
-/

namespace Arx
open Movelib Function

namespace SystemAddresses

def ARX : Address := 0x1

def ENOT_OPEN_LIBRA_ADDRESS : ℕ := 3

def assertArx (account : Address) : Result Unit :=
  ensure (account = ARX) (Error.permissionDenied ENOT_OPEN_LIBRA_ADDRESS)

end SystemAddresses

structure CoinInfo where
  name : Bytes
  symbol : Bytes
  decimals : ℕ
  supply : Option OptionalAggregator
  deriving DecidableEq

structure CoinState where
  info : Option CoinInfo
  stores : Address → Option CoinStore
  held : ℕ → Option ℕ
  aggregatable : ℕ → Option Aggregator

namespace Coin

def ECOIN_INFO_ADDRESS_MISMATCH : ℕ := 1
def ECOIN_INFO_ALREADY_PUBLISHED : ℕ := 2
def ECOIN_SUPPLY_UPGRADE_NOT_SUPPORTED : ℕ := 11
def ECOIN_NAME_TOO_LONG : ℕ := 12
def ECOIN_SYMBOL_TOO_LONG : ℕ := 13

def MAX_COIN_NAME_LENGTH : ℕ := 32
def MAX_COIN_SYMBOL_LENGTH : ℕ := 10

end Coin

namespace CoinState
open Coin SystemAddresses

variable (c : CoinState)

def empty : CoinState := ⟨none,fun _ => none,fun _ => none,fun _ => none⟩

variable (coinAddress account a : Address) (amount id coin : ℕ)

def putStore (store : Option CoinStore) : CoinState :=
  { c with stores := update c.stores a store }

def putHeld (coin : Option ℕ) : CoinState :=
  { c with held := update c.held id coin }

def putAggregatable (coin : Option Aggregator) : CoinState :=
  { c with aggregatable := update c.aggregatable id coin }

def take : Result (CoinState × ℕ) := do
  let coin ← borrowGlobal (c.held id)
  pure (c.putHeld id none, coin)

def keep : Result CoinState := do
  ensure (c.held id = none) .missingData
  pure (c.putHeld id (some coin))

def supply : Result (Option ℕ) := do
  let info ← borrowGlobal c.info
  match info.supply with
  | some g => do
    let value ← g.read
    pure (some value)
  | none => pure none

def onSupply (f : OptionalAggregator → Result OptionalAggregator) : Result CoinState := do
  let info ← borrowGlobal c.info
  match info.supply with
  | some g => do
    let g ← f g
    pure { c with info := some { info with supply := some g } }
  | none => pure c

/-- `burn`, of a coin of the given value. -/
def burn : Result CoinState := do
  ensure (0 < amount) (Error.invalidArgument EZERO_COIN_AMOUNT)
  c.onSupply (·.sub amount)

/-- `burn_from`. A frozen store is burned from as well. -/
def burnFrom : Result CoinState :=
  if amount = 0 then .ok c
  else do
    let store ← borrowGlobal (c.stores a)
    let (rest, coinToBurn) ← Coin.extract store.coin amount
    (c.putStore a (some { store with coin := rest })).burn coinToBurn

def mint : Result (CoinState × ℕ) :=
  if amount = 0 then .ok (c, 0)
  else do
    let c ← c.onSupply (·.add amount)
    pure (c, amount)

def deposit : Result CoinState := do
  let store ← Coin.deposit (c.stores a) coin
  pure (c.putStore a (some store))

def withdraw : Result (CoinState × ℕ) := do
  let (store, coin) ← Coin.withdraw (c.stores a) amount
  pure (c.putStore a (some store), coin)

def transfer (source dst : Address) (amount : ℕ) : Result CoinState := do
  let (c, coin) ← c.withdraw source amount
  c.deposit dst coin

def setFrozen (frozen : Bool) : Result CoinState := do
  let store ← borrowGlobal (c.stores a)
  pure (c.putStore a (some { store with frozen }))

def register : CoinState :=
  match c.stores a with
  | some _ => c
  | none => c.putStore a (some ⟨0,false⟩)

def upgradeSupply (allowUpgrades : Bool) : Result CoinState := do
  ensure (coinAddress = account) (Error.invalidArgument ECOIN_INFO_ADDRESS_MISMATCH)
  ensure (allowUpgrades = true) (Error.permissionDenied ECOIN_SUPPLY_UPGRADE_NOT_SUPPORTED)
  c.onSupply fun g => if g.isParallelizable then .ok g else g.switch

def initializeInternal (name symbol : Bytes) (decimals : ℕ) (monitorSupply parallelizable : Bool) :
    Result CoinState := do
  ensure (coinAddress = account) (Error.invalidArgument ECOIN_INFO_ADDRESS_MISMATCH)
  ensure (c.info.isNone = true) (Error.alreadyExists ECOIN_INFO_ALREADY_PUBLISHED)
  ensure (name.length ≤ MAX_COIN_NAME_LENGTH) (Error.invalidArgument ECOIN_NAME_TOO_LONG)
  ensure (symbol.length ≤ MAX_COIN_SYMBOL_LENGTH) (Error.invalidArgument ECOIN_SYMBOL_TOO_LONG)
  let supply := if monitorSupply then some (.new Math128.MAX_U128 parallelizable) else none
  pure { c with info := some ⟨name,symbol,decimals,supply⟩ }

def initializeWithParallelizableSupply (name symbol : Bytes) (decimals : ℕ) (monitorSupply : Bool) :
    Result CoinState := do
  assertArx account
  c.initializeInternal coinAddress account name symbol decimals monitorSupply true

def initializeAggregatableCoin : Result CoinState := do
  assertArx account
  ensure (c.aggregatable id = none) .missingData
  pure (c.putAggregatable id (some AggregatableCoin.init))

def drainAggregatableCoin : Result (CoinState × ℕ) := do
  let g ← borrowGlobal (c.aggregatable id)
  let (rest, coin) ← AggregatableCoin.drain g
  pure (c.putAggregatable id (some rest), coin)

def mergeAggregatableCoin : Result CoinState := do
  let g ← borrowGlobal (c.aggregatable id)
  let g ← AggregatableCoin.merge g coin
  pure (c.putAggregatable id (some g))

def collectIntoAggregatableCoin : Result CoinState := do
  let g ← borrowGlobal (c.aggregatable id)
  let (store, g) ← AggregatableCoin.collectInto (c.stores a) amount g
  pure ((c.putStore a store).putAggregatable id (some g))

end CoinState

/-- The calls of the module for one coin type. The names of the coins a call takes come first, and
the name of the coin it hands out comes last. -/
inductive CoinOp
  | initializeCoin (account : Address) (name symbol : Bytes) (decimals : ℕ) (monitorSupply : Bool)
  | initializeWithParallelizableSupply (account : Address) (name symbol : Bytes) (decimals : ℕ)
      (monitorSupply : Bool)
  | register (a : Address)
  | freezeCoinStore (a : Address)
  | unfreezeCoinStore (a : Address)
  | zero (new : ℕ)
  | mint (amount new : ℕ)
  | burn (coin : ℕ)
  | burnFrom (a : Address) (amount : ℕ)
  | deposit (a : Address) (coin : ℕ)
  | withdraw (a : Address) (amount new : ℕ)
  | transfer (source dst : Address) (amount : ℕ)
  | extract (coin amount new : ℕ)
  | extractAll (coin new : ℕ)
  | merge (dst source : ℕ)
  | destroyZero (coin : ℕ)
  | upgradeSupply (account : Address)
  | initializeAggregatableCoin (account : Address) (new : ℕ)
  | mergeAggregatableCoin (dst coin : ℕ)
  | drainAggregatableCoin (coin new : ℕ)
  | collectIntoAggregatableCoin (a : Address) (amount dst : ℕ)
  deriving DecidableEq

def CoinState.step (coinAddress : Address) (allowUpgrades : Bool) (c : CoinState) :
    CoinOp → Result CoinState
  | .initializeCoin account name symbol decimals monitorSupply =>
    c.initializeInternal coinAddress account name symbol decimals monitorSupply false
  | .initializeWithParallelizableSupply account name symbol decimals monitorSupply =>
    c.initializeWithParallelizableSupply coinAddress account name symbol decimals monitorSupply
  | .register a => .ok (c.register a)
  | .freezeCoinStore a => c.setFrozen a true
  | .unfreezeCoinStore a => c.setFrozen a false
  | .zero new => c.keep new 0
  | .mint amount new => do
    let (c, coin) ← c.mint amount
    c.keep new coin
  | .burn coin => do
    let (c, amount) ← c.take coin
    c.burn amount
  | .burnFrom a amount => c.burnFrom a amount
  | .deposit a coin => do
    let (c, value) ← c.take coin
    c.deposit a value
  | .withdraw a amount new => do
    let (c, coin) ← c.withdraw a amount
    c.keep new coin
  | .transfer source dst amount => c.transfer source dst amount
  | .extract coin amount new => do
    let (c, value) ← c.take coin
    let (rest, taken) ← Coin.extract value amount
    let c ← c.keep coin rest
    c.keep new taken
  | .extractAll coin new => do
    let (c, value) ← c.take coin
    let (rest, taken) := Coin.extractAll value
    let c ← c.keep coin rest
    c.keep new taken
  | .merge dst source => do
    let (c, sourceValue) ← c.take source
    let (c, dstValue) ← c.take dst
    let value ← Coin.merge dstValue sourceValue
    c.keep dst value
  | .destroyZero coin => do
    let (c, value) ← c.take coin
    Coin.destroyZero value
    pure c
  | .upgradeSupply account => c.upgradeSupply coinAddress account allowUpgrades
  | .initializeAggregatableCoin account new => c.initializeAggregatableCoin account new
  | .mergeAggregatableCoin dst coin => do
    let (c, value) ← c.take coin
    c.mergeAggregatableCoin dst value
  | .drainAggregatableCoin coin new => do
    let (c, value) ← c.drainAggregatableCoin coin
    c.keep new value
  | .collectIntoAggregatableCoin a amount dst => c.collectIntoAggregatableCoin a amount dst

structure CoinModule where
  coins : CoinType → CoinState
  allowUpgrades : Bool

inductive CoinModuleOp
  /-- `allow_supply_upgrades` -/
  | allowSupplyUpgrades (account : Address) (allowed : Bool)
  | coin (type : CoinType) (o : CoinOp)
  deriving DecidableEq

namespace CoinModule

def genesis : CoinModule := ⟨fun _ => .empty,false⟩

def step (coinAddress : CoinType → Address) (s : CoinModule) : CoinModuleOp → Result CoinModule
  | .allowSupplyUpgrades account allowed => do
    SystemAddresses.assertArx account
    pure { s with allowUpgrades := allowed }
  | .coin type o => do
    let c ← (s.coins type).step (coinAddress type) s.allowUpgrades o
    pure { s with coins := update s.coins type c }

end CoinModule

end Arx
