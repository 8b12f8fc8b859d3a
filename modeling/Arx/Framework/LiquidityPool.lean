import Arx.Framework.Coin
import Arx.Framework.UInt256
import Arx.Movelib.Run

/-!
# `arx::liquidity_pool`

One pool of a pair `X`, `Y` with a curve. The order of the pair and the existence of the pool hold
of every registered pool, so only `register` has its checks. The lemmas say what a call does to the
funds: the checks it has passed, the reserves and the supply after it, and its oracle update.
-/

namespace Arx
open Movelib

inductive Curve
  | uncorrelated
  | stable
  | other
  deriving DecidableEq

namespace StableCurve

def ONE_E_8 : ℕ := 100000000

def rescale (coin scale : ℕ) : Result U256 := do
  let coinU256 ← U256.fromU128 coin
  let oneE8 ← U256.fromU128 ONE_E_8
  let scaleU256 ← U256.fromU64 scale
  let scaled ← U256.mul coinU256 oneE8
  U256.div scaled scaleU256

def lpValue (xCoin xScale yCoin yScale : ℕ) : Result U256 := do
  let x ← rescale xCoin xScale
  let y ← rescale yCoin yScale
  let a ← U256.mul x y
  let xx ← U256.mul x x
  let yy ← U256.mul y y
  let b ← U256.add xx yy
  U256.mul a b

end StableCurve

/-- `arx::delta`: the sign is `0` for equal, `1` for positive and `2` for negative. -/
structure Delta where
  sign : ℕ
  value : ℕ
  deriving DecidableEq

structure LiquidityPool where
  curve : Curve
  coinXReserve : ℕ
  coinYReserve : ℕ
  reconfigurationTimestamp : ℕ
  lastEpochTimestamp : ℕ
  lastBlockTimestamp : ℕ
  lastPriceXCumulative : ℕ
  lastPriceYCumulative : ℕ
  lastXReserveCumulative : ℕ
  lastYReserveCumulative : ℕ
  epochSamples : ℕ
  epochTwapX : ℕ
  epochTwapY : ℕ
  epochTwarX : ℕ
  epochTwarY : ℕ
  xScale : ℕ
  yScale : ℕ
  lpSupply : ℕ
  deriving DecidableEq

namespace LiquidityPool

def EINSUFFICIENT_INITIAL_LIQUIDITY : Abort := .code 3
def EINSUFFICIENT_LIQUIDITY : Abort := .code 4
def EZERO_COIN_IN : Abort := .code 5
def EINVALID_SWAP : Abort := .code 6
def EINVALID_CURVE : Abort := .code 7
def EINVALID_BURN_VALUES : Abort := .code 8

def MINIMUM_LIQUIDITY : ℕ := 1000

def scaleOf (curve : Curve) (decimals : ℕ) : Result ℕ :=
  if curve = .stable then Math64.pow10 decimals else .ok 0

def register (curve : Curve) (xDecimals yDecimals : ℕ) : Result LiquidityPool := do
  ensure (curve = .uncorrelated ∨ curve = .stable) (.code 1)
  let xScale ← scaleOf curve xDecimals
  let yScale ← scaleOf curve yDecimals
  pure ⟨curve,0,0,0,0,0,0,0,0,0,0,0,0,0,0,xScale,yScale,0⟩

variable (p : LiquidityPool)

def enterEpoch : LiquidityPool :=
  if p.lastEpochTimestamp < p.reconfigurationTimestamp then
    { p with epochSamples := 0, lastEpochTimestamp := p.reconfigurationTimestamp }
  else p

/-- The first sample of an epoch drops the sums of the epoch before. -/
def dropSums : LiquidityPool :=
  if p.epochSamples = 0 then
    { p with
      lastXReserveCumulative := 0
      lastYReserveCumulative := 0
      lastPriceXCumulative := 0
      lastPriceYCumulative := 0 }
  else p

/-- Add `rate * elapsed` to a cumulative sum, which may wrap around. -/
def accumulate (sum rate elapsed : ℕ) : Result ℕ := do
  let product ← mulChecked 128 rate elapsed
  Math128.overflowAdd sum product

/-- One sample. The averages are taken over the number of samples. -/
def takeSample (elapsed xReserve yReserve : ℕ) : Result LiquidityPool := do
  let priceX ← Uq64x64.fraction yReserve xReserve
  let priceY ← Uq64x64.fraction xReserve yReserve
  let lastPriceXCumulative ← accumulate p.lastPriceXCumulative (Uq64x64.toU128 priceX) elapsed
  let lastPriceYCumulative ← accumulate p.lastPriceYCumulative (Uq64x64.toU128 priceY) elapsed
  let lastXReserveCumulative ← accumulate p.lastXReserveCumulative xReserve elapsed
  let lastYReserveCumulative ← accumulate p.lastYReserveCumulative yReserve elapsed
  let epochSamples ← addChecked 128 p.epochSamples 1
  let epochTwapX ← divChecked lastPriceXCumulative epochSamples
  let epochTwapY ← divChecked lastPriceYCumulative epochSamples
  let epochTwarX ← divChecked lastXReserveCumulative epochSamples
  let epochTwarY ← divChecked lastYReserveCumulative epochSamples
  pure { p with
    lastPriceXCumulative
    lastPriceYCumulative
    lastXReserveCumulative
    lastYReserveCumulative
    epochSamples
    epochTwapX
    epochTwapY
    epochTwarX
    epochTwarY }

/-- A sample is taken once in a second at most, and only of a pool with reserves. -/
def sampleReserves (elapsed xReserve yReserve : ℕ) : Result LiquidityPool :=
  if 0 < elapsed ∧ xReserve ≠ 0 ∧ yReserve ≠ 0 then
    p.dropSums.takeSample elapsed xReserve yReserve
  else .ok p

/-- `update_oracle` at the block time `now`, for the reserves before the operation. -/
def updateOracle (now xReserve yReserve : ℕ) : Result LiquidityPool := do
  let timeElapsed ← subChecked now p.lastBlockTimestamp
  let q ← p.enterEpoch.sampleReserves timeElapsed xReserve yReserve
  -- The clock moves without a sample too.
  pure { q with lastBlockTimestamp := now }

def providedLiq (xProvided yProvided : ℕ) : Result ℕ :=
  -- A first deposit counts alone, whatever the reserves hold.
  if p.lpSupply = 0 then do
    let product ← Math64.mulToU128 xProvided yProvided
    let initialLiq ← Math128.sqrt product
    ensure (initialLiq > MINIMUM_LIQUIDITY) EINSUFFICIENT_INITIAL_LIQUIDITY
    subChecked initialLiq MINIMUM_LIQUIDITY
  else do
    let xLiq ← Math128.mulDiv xProvided p.lpSupply p.coinXReserve
    let yLiq ← Math128.mulDiv yProvided p.lpSupply p.coinYReserve
    if xLiq < yLiq then pure xLiq else pure yLiq

def mint (now xProvided yProvided : ℕ) : Result (LiquidityPool × ℕ) := do
  let liq ← p.providedLiq xProvided yProvided
  ensure (liq > 0) EINSUFFICIENT_LIQUIDITY
  let coinXReserve ← Coin.merge p.coinXReserve xProvided
  let coinYReserve ← Coin.merge p.coinYReserve yProvided
  let (lpSupply, lpCoins) ← Coin.mint p.lpSupply liq
  let q ← { p with coinXReserve, coinYReserve, lpSupply }.updateOracle now
    p.coinXReserve p.coinYReserve
  pure (q, lpCoins)

def burn (now lpCoins : ℕ) : Result (LiquidityPool × ℕ × ℕ) := do
  let xToReturn ← Math128.mulDiv lpCoins p.coinXReserve p.lpSupply
  let yToReturn ← Math128.mulDiv lpCoins p.coinYReserve p.lpSupply
  ensure (xToReturn > 0 ∧ yToReturn > 0) EINVALID_BURN_VALUES
  let (coinXReserve, xCoin) ← Coin.extract p.coinXReserve xToReturn
  let (coinYReserve, yCoin) ← Coin.extract p.coinYReserve yToReturn
  let q ← { p with coinXReserve, coinYReserve }.updateOracle now p.coinXReserve p.coinYReserve
  let lpSupply ← Coin.burn q.lpSupply lpCoins
  pure ({ q with lpSupply }, xCoin, yCoin)

/-- `burn_destructive` leaves the reserves intact. -/
def burnDestructive (lpCoins : ℕ) : Result LiquidityPool := do
  let lpSupply ← Coin.burn p.lpSupply lpCoins
  pure { p with lpSupply }

def assertLpValueIncrease (curve : Curve) (xScale yScale xRes yRes newXRes newYRes : ℕ) :
    Result Unit :=
  match curve with
  | .stable => do
    let before ← StableCurve.lpValue xRes xScale yRes yScale
    let after ← StableCurve.lpValue newXRes xScale newYRes yScale
    let cmp ← U256.compare after before
    ensure (cmp = 2) EINVALID_SWAP
  | .uncorrelated => do
    let product ← mulChecked 128 xRes yRes
    let before ← U256.fromU128 product
    let newX ← U256.fromU128 newXRes
    let newY ← U256.fromU128 newYRes
    let after ← U256.mul newX newY
    let cmp ← U256.compare after before
    ensure (cmp = 2) EINVALID_SWAP
  | .other => .error EINVALID_CURVE

def swap (now xIn xOut yIn yOut : ℕ) : Result (LiquidityPool × ℕ × ℕ) := do
  ensure (xIn > 0 ∨ yIn > 0) EZERO_COIN_IN
  let x ← Coin.merge p.coinXReserve xIn
  let y ← Coin.merge p.coinYReserve yIn
  let (coinXReserve, xSwapped) ← Coin.extract x xOut
  let (coinYReserve, ySwapped) ← Coin.extract y yOut
  assertLpValueIncrease p.curve p.xScale p.yScale p.coinXReserve p.coinYReserve coinXReserve
    coinYReserve
  let q ← { p with coinXReserve, coinYReserve }.updateOracle now p.coinXReserve p.coinYReserve
  pure (q, xSwapped, ySwapped)

def setReconfigurationTimestamp (ts : ℕ) : LiquidityPool :=
  { p with reconfigurationTimestamp := ts }

def getLastEpochDelta : Result Delta :=
  if p.epochTwarX > p.epochTwarY then do
    let value ← castChecked 64 (p.epochTwarX - p.epochTwarY)
    pure ⟨2,value⟩
  else if p.epochTwarY > p.epochTwarX then do
    let value ← castChecked 64 (p.epochTwarY - p.epochTwarX)
    pure ⟨1,value⟩
  else .ok ⟨0,0⟩

end LiquidityPool

inductive PoolOp
  | mint (now x y : ℕ)
  | burn (now lpCoins : ℕ)
  | burnDestructive (lpCoins : ℕ)
  | swap (now xIn xOut yIn yOut : ℕ)
  | setReconfigurationTimestamp (ts : ℕ)
  deriving DecidableEq

def LiquidityPool.step (p : LiquidityPool) : PoolOp → Result LiquidityPool
  | .mint now x y => do
    let (q, _) ← p.mint now x y
    pure q
  | .burn now lpCoins => do
    let (q, _) ← p.burn now lpCoins
    pure q
  | .burnDestructive lpCoins => p.burnDestructive lpCoins
  | .swap now xIn xOut yIn yOut => do
    let (q, _) ← p.swap now xIn xOut yIn yOut
    pure q
  | .setReconfigurationTimestamp ts => .ok (p.setReconfigurationTimestamp ts)

namespace LiquidityPool

variable {p q : LiquidityPool} {now x y liq : ℕ}

structure SameFunds (p q : LiquidityPool) : Prop where
  curve : q.curve = p.curve
  coinX : q.coinXReserve = p.coinXReserve
  coinY : q.coinYReserve = p.coinYReserve
  lpSupply : q.lpSupply = p.lpSupply

theorem enterEpoch_sameFunds (p : LiquidityPool) : SameFunds p p.enterEpoch := by
  rw [enterEpoch]
  split
  · exact ⟨rfl,rfl,rfl,rfl⟩
  · exact ⟨rfl,rfl,rfl,rfl⟩

theorem dropSums_sameFunds (p : LiquidityPool) : SameFunds p p.dropSums := by
  rw [dropSums]
  split
  · exact ⟨rfl,rfl,rfl,rfl⟩
  · exact ⟨rfl,rfl,rfl,rfl⟩

theorem SameFunds.trans {r : LiquidityPool} (h : SameFunds p q) (h' : SameFunds q r) :
    SameFunds p r :=
  ⟨h'.curve.trans h.curve,h'.coinX.trans h.coinX,h'.coinY.trans h.coinY,
    h'.lpSupply.trans h.lpSupply⟩

theorem takeSample_sameFunds {elapsed : ℕ} (h : p.takeSample elapsed x y = .ok q) :
    SameFunds p q := by
  simp only [takeSample,bind_eq_ok,pure_eq_ok] at h
  obtain ⟨_,_,_,_,_,_,_,_,_,_,_,_,_,_,_,_,_,_,_,_,_,_,rfl⟩ := h
  exact ⟨rfl,rfl,rfl,rfl⟩

theorem updateOracle_sameFunds (h : p.updateOracle now x y = .ok q) : SameFunds p q := by
  simp only [updateOracle,bind_eq_ok,pure_eq_ok] at h
  obtain ⟨elapsed,_,r,hr,rfl⟩ := h
  have hsame : SameFunds p r := by
    rw [sampleReserves] at hr
    split at hr
    · exact ((enterEpoch_sameFunds p).trans (dropSums_sameFunds _)).trans (takeSample_sameFunds hr)
    · cases hr
      exact enterEpoch_sameFunds p
  exact ⟨hsame.curve,hsame.coinX,hsame.coinY,hsame.lpSupply⟩

theorem updateOracle_isOk (h : p.lastBlockTimestamp = now) :
    ∃ q, p.updateOracle now x y = .ok q := by
  have hsub : subChecked now p.lastBlockTimestamp = .ok 0 := by
    rw [h,subChecked_eq_ok]
    exact ⟨le_rfl,Nat.sub_self now⟩
  rw [updateOracle,hsub,ok_bind,sampleReserves]
  exact ⟨_,rfl⟩

theorem updateOracle_now (h : p.updateOracle now x y = .ok q) : q.lastBlockTimestamp = now := by
  simp only [updateOracle,bind_eq_ok,pure_eq_ok] at h
  obtain ⟨_,_,_,_,rfl⟩ := h
  rfl

section Inversion

theorem mint_ok (h : p.mint now x y = .ok (q, liq)) :
    p.providedLiq x y = .ok liq ∧ 0 < liq ∧
      p.coinXReserve + x < 2 ^ 64 ∧ p.coinYReserve + y < 2 ^ 64 ∧
      q.curve = p.curve ∧ q.coinXReserve = p.coinXReserve + x ∧
      q.coinYReserve = p.coinYReserve + y ∧ q.lpSupply = p.lpSupply + liq ∧
      q.lastBlockTimestamp = now := by
  simp only [mint,bind_eq_ok,ensure_eq_ok,Coin.merge_eq_ok,Coin.mint_eq_ok,pure_eq_ok] at h
  obtain ⟨l,hl,_,hpos,_,⟨hx,rfl⟩,_,⟨hy,rfl⟩,_,⟨_,rfl⟩,r,hr,hq⟩ := h
  cases hq
  have hsame := updateOracle_sameFunds hr
  exact ⟨hl,hpos,hx,hy,hsame.curve,hsame.coinX,hsame.coinY,hsame.lpSupply,updateOracle_now hr⟩

theorem burn_ok {b xr yr : ℕ} (h : p.burn now b = .ok (q, xr, yr)) :
    p.lpSupply ≠ 0 ∧ b ≤ p.lpSupply ∧ xr = b * p.coinXReserve / p.lpSupply ∧
      yr = b * p.coinYReserve / p.lpSupply ∧ xr ≤ p.coinXReserve ∧ yr ≤ p.coinYReserve ∧
      q.curve = p.curve ∧ q.coinXReserve = p.coinXReserve - xr ∧
      q.coinYReserve = p.coinYReserve - yr ∧ q.lpSupply = p.lpSupply - b := by
  simp only [burn,bind_eq_ok,ensure_eq_ok,Math128.mulDiv_eq_ok,Coin.extract_eq_ok,Coin.burn_eq_ok,
    pure_eq_ok] at h
  obtain ⟨_,⟨hS,_,_,rfl⟩,_,⟨_,_,_,rfl⟩,_,_,_,⟨hx,rfl⟩,_,⟨hy,rfl⟩,r,hr,_,⟨_,hb,rfl⟩,hq⟩ := h
  obtain ⟨rfl,hxy⟩ := Prod.mk.inj hq
  cases hxy
  have hsame := updateOracle_sameFunds hr
  rw [hsame.lpSupply] at hb
  refine ⟨hS,hb,rfl,rfl,hx,hy,hsame.curve,hsame.coinX,hsame.coinY,?_⟩
  rw [hsame.lpSupply]

theorem burnDestructive_ok {b : ℕ} (h : p.burnDestructive b = .ok q) :
    b ≤ p.lpSupply ∧ q = { p with lpSupply := p.lpSupply - b } := by
  simp only [burnDestructive,bind_eq_ok,Coin.burn_eq_ok,pure_eq_ok] at h
  obtain ⟨_,⟨_,hb,rfl⟩,rfl⟩ := h
  exact ⟨hb,rfl⟩

/-- A swap on an uncorrelated pool is admitted only if it raises the product of the reserves. -/
theorem assertLpValueIncrease_uncorrelated {xs ys X Y X' Y' : ℕ} {u : Unit} (hX : X' < 2 ^ 128)
    (hY : Y' < 2 ^ 128) (h : assertLpValueIncrease .uncorrelated xs ys X Y X' Y' = .ok u) :
    X * Y < X' * Y' := by
  simp only [assertLpValueIncrease,bind_eq_ok,ensure_eq_ok,mulChecked_eq_ok] at h
  obtain ⟨_,⟨hlt,rfl⟩,before,hbefore,nx,hnx,ny,hny,after,hafter,cmp,hcmp,rfl⟩ := h
  obtain ⟨hwb,hvb⟩ := U256.fromU128_ok hlt hbefore
  obtain ⟨hwx,hvx⟩ := U256.fromU128_ok hX hnx
  obtain ⟨hwy,hvy⟩ := U256.fromU128_ok hY hny
  obtain ⟨hwa,hva⟩ := (U256.mul_yields hwx hwy).of_ok hafter
  have hgt := (U256.compare_eq_greater hwa hwb).mp hcmp
  rwa [hvb,hva,hvx,hvy] at hgt

theorem swap_ok {xIn xOut yIn yOut xr yr : ℕ}
    (h : p.swap now xIn xOut yIn yOut = .ok (q, xr, yr)) :
    p.coinXReserve + xIn < 2 ^ 64 ∧ p.coinYReserve + yIn < 2 ^ 64 ∧ q.curve = p.curve ∧
      q.coinXReserve = p.coinXReserve + xIn - xOut ∧
      q.coinYReserve = p.coinYReserve + yIn - yOut ∧ q.lpSupply = p.lpSupply ∧
      assertLpValueIncrease p.curve p.xScale p.yScale p.coinXReserve p.coinYReserve
        q.coinXReserve q.coinYReserve = .ok () := by
  simp only [swap,bind_eq_ok,ensure_eq_ok,Coin.merge_eq_ok,Coin.extract_eq_ok,pure_eq_ok] at h
  obtain ⟨_,_,_,⟨hx,rfl⟩,_,⟨hy,rfl⟩,_,⟨_,rfl⟩,_,⟨_,rfl⟩,u,hassert,r,hr,hq⟩ := h
  cases hq
  have hsame := updateOracle_sameFunds hr
  refine ⟨hx,hy,hsame.curve,hsame.coinX,hsame.coinY,hsame.lpSupply,?_⟩
  rw [hsame.coinX,hsame.coinY]
  exact hassert

theorem providedLiq_ok (hS : 0 < p.lpSupply) (h : p.providedLiq x y = .ok liq) :
    liq ≤ x * p.lpSupply / p.coinXReserve ∧ liq ≤ y * p.lpSupply / p.coinYReserve := by
  rw [providedLiq,if_neg hS.ne'] at h
  simp only [bind_eq_ok,Math128.mulDiv_eq_ok] at h
  obtain ⟨_,⟨_,_,_,rfl⟩,_,⟨_,_,_,rfl⟩,h⟩ := h
  split at h
  · rw [pure_eq_ok] at h
    omega
  · rw [pure_eq_ok] at h
    omega

end Inversion

end LiquidityPool

end Arx
