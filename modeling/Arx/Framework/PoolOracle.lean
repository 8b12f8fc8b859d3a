import Arx.Framework.LiquidityPool
import Arx.Movelib.Proportion

/-!
# The averages of the pool's oracle

The oracle adds up reserves and prices weighted by the seconds since the last update, and divides
by the number of samples.
-/

namespace Arx
open Movelib List

structure Sample where
  x : ℕ
  y : ℕ
  elapsed : ℕ
  deriving DecidableEq

namespace Sample

def priceX (s : Sample) : ℕ := s.y * Uq64x64.Q64 / s.x

def priceY (s : Sample) : ℕ := s.x * Uq64x64.Q64 / s.y

end Sample

def PoolOp.now? : PoolOp → Option ℕ
  | .mint now _ _ => some now
  | .burn now _ => some now
  | .swap now _ _ _ _ => some now
  | .burnDestructive _ => none
  | .setReconfigurationTimestamp _ => none

namespace LiquidityPool

variable {p q : LiquidityPool} {now x y elapsed : ℕ} {samples : List Sample} {f : Sample → ℕ}
    {o : PoolOp}

def newSample (p : LiquidityPool) (now x y : ℕ) : List Sample :=
  if 0 < now - p.lastBlockTimestamp ∧ x ≠ 0 ∧ y ≠ 0 then [⟨x,y,now - p.lastBlockTimestamp⟩]
  else []

def epochSoFar (p : LiquidityPool) (samples : List Sample) : List Sample :=
  if p.lastEpochTimestamp < p.reconfigurationTimestamp then [] else samples

def cumulative (f : Sample → ℕ) (samples : List Sample) : ℕ :=
  (samples.map fun s => f s * s.elapsed).sum

/-- A cumulative sum and its average are those of the measure `f`, as soon as there is a sample. -/
def Tracks (f : Sample → ℕ) (samples : List Sample) (sum average : ℕ) : Prop :=
  samples ≠ [] → sum = cumulative f samples % 2 ^ 128 ∧ average = sum / samples.length

/-- The oracle fields of a pool whose epoch has the given samples. -/
structure OracleOf (p : LiquidityPool) (samples : List Sample) : Prop where
  count : p.epochSamples = samples.length
  priceX : Tracks Sample.priceX samples p.lastPriceXCumulative p.epochTwapX
  priceY : Tracks Sample.priceY samples p.lastPriceYCumulative p.epochTwapY
  reserveX : Tracks Sample.x samples p.lastXReserveCumulative p.epochTwarX
  reserveY : Tracks Sample.y samples p.lastYReserveCumulative p.epochTwarY

theorem Tracks.nil (f : Sample → ℕ) (sum average : ℕ) : Tracks f [] sum average :=
  fun h => absurd rfl h

theorem accumulate_eq_ok {sum rate r : ℕ} (hsum : sum < 2 ^ 128) :
    accumulate sum rate elapsed = .ok r ↔
      rate * elapsed < 2 ^ 128 ∧ (sum + rate * elapsed) % 2 ^ 128 = r := by
  simp only [accumulate,bind_eq_ok,mulChecked_eq_ok]
  constructor
  · rintro ⟨_,⟨hlt,rfl⟩,h⟩
    rw [Math128.overflowAdd_eq hsum hlt,Except.ok.injEq] at h
    exact ⟨hlt,h⟩
  · rintro ⟨hlt,rfl⟩
    exact ⟨_,⟨hlt,rfl⟩,Math128.overflowAdd_eq hsum hlt⟩

theorem accumulate_ok {sum rate S r : ℕ} (hsum : sum = S % 2 ^ 128)
    (h : accumulate sum rate elapsed = .ok r) : r = (S + rate * elapsed) % 2 ^ 128 := by
  have hlt : sum < 2 ^ 128 := hsum ▸ Nat.mod_lt _ (by decide)
  rw [← ((accumulate_eq_ok hlt).mp h).2,hsum,Nat.mod_add_mod]

theorem OracleOf.dropSums_sum {sum average : ℕ} (h : p.OracleOf samples)
    (ht : Tracks f samples sum average) :
    (if p.epochSamples = 0 then 0 else sum) = cumulative f samples % 2 ^ 128 := by
  by_cases hnil : samples = []
  · rw [if_pos (by rw [h.count,hnil]; rfl),hnil]
    rfl
  · have hne : p.epochSamples ≠ 0 := by
      rw [h.count]
      exact fun h0 => hnil (length_eq_zero_iff.mp h0)
    rw [if_neg hne]
    exact (ht hnil).1

theorem Tracks.snoc {s : Sample} {sum sum' average rate n : ℕ}
    (hsum : sum = cumulative f samples % 2 ^ 128)
    (hacc : accumulate sum rate s.elapsed = .ok sum') (hf : f s = rate)
    (hn : n = (samples ++ [s]).length) (havg : divChecked sum' n = .ok average) :
    Tracks f (samples ++ [s]) sum' average := by
  intro _
  rw [divChecked_eq_ok] at havg
  obtain ⟨_,rfl⟩ := havg
  refine ⟨?_,by rw [hn]⟩
  rw [accumulate_ok hsum hacc,← hf]
  simp [cumulative]

theorem dropSums_fields (p : LiquidityPool) :
    p.dropSums.lastPriceXCumulative = (if p.epochSamples = 0 then 0 else p.lastPriceXCumulative) ∧
    p.dropSums.lastPriceYCumulative = (if p.epochSamples = 0 then 0 else p.lastPriceYCumulative) ∧
    p.dropSums.lastXReserveCumulative =
      (if p.epochSamples = 0 then 0 else p.lastXReserveCumulative) ∧
    p.dropSums.lastYReserveCumulative =
      (if p.epochSamples = 0 then 0 else p.lastYReserveCumulative) ∧
    p.dropSums.epochSamples = p.epochSamples := by
  rw [dropSums]
  by_cases h : p.epochSamples = 0
  · simp [h]
  · simp [h]

theorem OracleOf.takeSample (h : p.OracleOf samples)
    (hs : p.dropSums.takeSample elapsed x y = .ok q) :
    q.OracleOf (samples ++ [⟨x,y,elapsed⟩]) := by
  obtain ⟨hpx,hpy,hrx,hry,hcount⟩ := dropSums_fields p
  simp only [LiquidityPool.takeSample,bind_eq_ok,Uq64x64.fraction_eq_ok,addChecked_eq_ok,
    pure_eq_ok,hpx,hpy,hrx,hry,hcount] at hs
  obtain ⟨_,⟨_,_,rfl⟩,_,⟨_,_,rfl⟩,sx,hsx,sy,hsy,rx,hrx',ry,hry',_,⟨_,rfl⟩,ax,hax,ay,hay,bx,hbx,
    yr,hby,rfl⟩ := hs
  have hn : p.epochSamples + 1 = (samples ++ [(⟨x,y,elapsed⟩ : Sample)]).length := by
    rw [h.count,length_append,length_singleton]
  exact ⟨hn,.snoc (h.dropSums_sum h.priceX) hsx rfl hn hax,
    .snoc (h.dropSums_sum h.priceY) hsy rfl hn hay,
    .snoc (h.dropSums_sum h.reserveX) hrx' rfl hn hbx,
    .snoc (h.dropSums_sum h.reserveY) hry' rfl hn hby⟩

/-- The sums of the oracle are `u128` values, and so is the next number of samples. -/
structure FitsU128 (p : LiquidityPool) : Prop where
  priceX : p.lastPriceXCumulative < 2 ^ 128
  priceY : p.lastPriceYCumulative < 2 ^ 128
  reserveX : p.lastXReserveCumulative < 2 ^ 128
  reserveY : p.lastYReserveCumulative < 2 ^ 128
  samples : p.epochSamples + 1 < 2 ^ 128

theorem FitsU128.enterEpoch (h : p.FitsU128) : p.enterEpoch.FitsU128 := by
  rw [LiquidityPool.enterEpoch]
  split
  · exact { h with samples := show 0 + 1 < 2 ^ 128 by decide }
  · exact h

theorem FitsU128.dropSums (h : p.FitsU128) : p.dropSums.FitsU128 := by
  rw [LiquidityPool.dropSums]
  split
  · exact ⟨Nat.two_pow_pos _,Nat.two_pow_pos _,Nat.two_pow_pos _,Nat.two_pow_pos _,h.samples⟩
  · exact h

/-- A sample can be taken exactly if the two prices, weighted by the elapsed time, fit. -/
theorem FitsU128.takeSample_iff (h : p.FitsU128) (hx : x ≠ 0) (hy : y ≠ 0) (hxu : x < 2 ^ 64)
    (hyu : y < 2 ^ 64) (he : elapsed < 2 ^ 64) :
    (∃ q, p.takeSample elapsed x y = .ok q) ↔
      y * Uq64x64.Q64 / x * elapsed < 2 ^ 128 ∧ x * Uq64x64.Q64 / y * elapsed < 2 ^ 128 := by
  -- The reserves are `u64` values, so their products with the time always fit.
  have hreserve : ∀ r, r < 2 ^ 64 → r * elapsed < 2 ^ 128 := fun r hr =>
    (Nat.mul_lt_mul'' hr he).trans_eq (by decide)
  simp only [LiquidityPool.takeSample,bind_eq_ok,Uq64x64.fraction_eq_ok,
    accumulate_eq_ok h.priceX,accumulate_eq_ok h.priceY,accumulate_eq_ok h.reserveX,
    accumulate_eq_ok h.reserveY,addChecked_eq_ok,divChecked_eq_ok,pure_eq_ok]
  constructor
  · rintro ⟨_,_,⟨_,_,rfl⟩,_,⟨_,_,rfl⟩,_,⟨hpx,_⟩,_,⟨hpy,_⟩,_⟩
    exact ⟨hpx,hpy⟩
  · rintro ⟨hpx,hpy⟩
    exact ⟨_,_,⟨hx,Uq64x64.mul_Q64_lt hyu,rfl⟩,_,⟨hy,Uq64x64.mul_Q64_lt hxu,rfl⟩,_,⟨hpx,rfl⟩,
      _,⟨hpy,rfl⟩,_,⟨hreserve x hxu,rfl⟩,_,⟨hreserve y hyu,rfl⟩,_,⟨h.samples,rfl⟩,
      _,⟨Nat.succ_ne_zero _,rfl⟩,_,⟨Nat.succ_ne_zero _,rfl⟩,_,⟨Nat.succ_ne_zero _,rfl⟩,
      _,⟨Nat.succ_ne_zero _,rfl⟩,rfl⟩

/-- For reserves that are not zero the oracle is updated exactly if the two prices, weighted by the
elapsed time, fit a `u128`. -/
theorem updateOracle_isOk_iff (h : p.FitsU128) (hx : x ≠ 0) (hy : y ≠ 0) (hxu : x < 2 ^ 64)
    (hyu : y < 2 ^ 64) (hle : p.lastBlockTimestamp ≤ now) (hnow : now < 2 ^ 64) :
    (∃ q, p.updateOracle now x y = .ok q) ↔
      y * Uq64x64.Q64 / x * (now - p.lastBlockTimestamp) < 2 ^ 128 ∧
        x * Uq64x64.Q64 / y * (now - p.lastBlockTimestamp) < 2 ^ 128 := by
  by_cases h0 : now - p.lastBlockTimestamp = 0
  · have hok := updateOracle_isOk (p := p) (x := x) (y := y) (by omega : p.lastBlockTimestamp = now)
    simp [h0,hok]
  · rw [← h.enterEpoch.dropSums.takeSample_iff hx hy hxu hyu (by omega)]
    simp only [updateOracle,subChecked_of_le hle,ok_bind,sampleReserves,
      if_pos (show 0 < now - p.lastBlockTimestamp ∧ x ≠ 0 ∧ y ≠ 0 from ⟨by omega,hx,hy⟩),
      bind_eq_ok,pure_eq_ok]
    constructor
    · rintro ⟨_,q,hq,-⟩
      exact ⟨q,hq⟩
    · rintro ⟨q,hq⟩
      exact ⟨_,q,hq,rfl⟩

theorem updateOracle_isOk_iff_balanced :
    ∃ q, (⟨.uncorrelated,1000,3000,0,0,10,0,0,0,0,0,0,0,0,0,0,0,500⟩ : LiquidityPool).updateOracle
      (10 ^ 9) 1000 3000 = .ok q := by
  refine (updateOracle_isOk_iff ⟨?_,?_,?_,?_,?_⟩ ?_ ?_ ?_ ?_ ?_ ?_).mpr ?_ <;> decide

/-- One coin of `X` against `2 ^ 64 - 1` of `Y`: two seconds later the oracle aborts, and with it
every swap. -/
theorem updateOracle_aborts :
    ∃ p q, register .uncorrelated 8 8 = .ok p ∧ exec step p [.mint 10 1 (2 ^ 64 - 1)] = .ok q ∧
      q.updateOracle 12 q.coinXReserve q.coinYReserve = .error .arithmeticError ∧
      q.step (.swap 12 1 0 0 0) = .error .arithmeticError := by
  exact ⟨_,⟨.uncorrelated,1,2 ^ 64 - 1,0,0,10,0,0,0,0,0,0,0,0,0,0,0,4294966295⟩,rfl,
    by decide +kernel,by decide +kernel,by decide +kernel⟩

theorem OracleOf.enterEpoch (h : p.OracleOf samples) :
    p.enterEpoch.OracleOf (p.epochSoFar samples) := by
  unfold LiquidityPool.enterEpoch epochSoFar
  split
  · exact ⟨rfl,.nil _ _ _,.nil _ _ _,.nil _ _ _,.nil _ _ _⟩
  · exact h

theorem OracleOf.updateOracle (h : p.OracleOf samples) (hu : p.updateOracle now x y = .ok q) :
    q.OracleOf (p.epochSoFar samples ++ p.newSample now x y) := by
  simp only [LiquidityPool.updateOracle,bind_eq_ok,subChecked_eq_ok,pure_eq_ok] at hu
  obtain ⟨_,⟨_,rfl⟩,r,hr,rfl⟩ := hu
  have hepoch := h.enterEpoch
  have hor : r.OracleOf (p.epochSoFar samples ++ p.newSample now x y) := by
    rw [sampleReserves] at hr
    rw [newSample]
    by_cases hs : 0 < now - p.lastBlockTimestamp ∧ x ≠ 0 ∧ y ≠ 0
    · rw [if_pos hs] at hr ⊢
      exact hepoch.takeSample hr
    · rw [if_neg hs] at hr ⊢
      cases hr
      rw [append_nil]
      exact hepoch
  exact { hor with }

theorem updateOracle_twar (hu : p.updateOracle now x y = .ok q) (hs : p.newSample now x y = []) :
    q.epochTwarX = p.epochTwarX ∧ q.epochTwarY = p.epochTwarY := by
  simp only [LiquidityPool.updateOracle,bind_eq_ok,subChecked_eq_ok,pure_eq_ok] at hu
  obtain ⟨_,⟨_,rfl⟩,r,hr,rfl⟩ := hu
  have hno : ¬ (0 < now - p.lastBlockTimestamp ∧ x ≠ 0 ∧ y ≠ 0) := by
    intro hyes
    rw [newSample,if_pos hyes] at hs
    cases hs
  rw [sampleReserves,if_neg hno] at hr
  cases hr
  rw [enterEpoch]
  split
  · exact ⟨rfl,rfl⟩
  · exact ⟨rfl,rfl⟩

structure ReservesFit (p : LiquidityPool) : Prop where
  coinX : p.coinXReserve < 2 ^ 64
  coinY : p.coinYReserve < 2 ^ 64

theorem step_reservesFit (hf : p.ReservesFit) (h : p.step o = .ok q) : q.ReservesFit := by
  obtain ⟨hX,hY⟩ := hf
  cases o with
  | mint now x y =>
    obtain ⟨⟨_,liq⟩,h,⟨⟩⟩ := bind_eq_ok.mp h
    obtain ⟨_,_,hx,hy,_,hX',hY',_⟩ := mint_ok h
    exact ⟨hX' ▸ hx,hY' ▸ hy⟩
  | burn now b =>
    obtain ⟨⟨_,xr,yr⟩,h,⟨⟩⟩ := bind_eq_ok.mp h
    obtain ⟨_,_,_,_,_,_,_,hX',hY',_⟩ := burn_ok h
    exact ⟨hX'.trans_lt (by omega),hY'.trans_lt (by omega)⟩
  | burnDestructive b =>
    obtain ⟨_,rfl⟩ := burnDestructive_ok h
    exact ⟨hX,hY⟩
  | swap now xIn xOut yIn yOut =>
    obtain ⟨⟨_,xr,yr⟩,h,⟨⟩⟩ := bind_eq_ok.mp h
    obtain ⟨hx,hy,_,hX',hY',_⟩ := swap_ok h
    exact ⟨hX'.trans_lt (by omega),hY'.trans_lt (by omega)⟩
  | setReconfigurationTimestamp ts =>
    cases h
    exact ⟨hX,hY⟩

theorem step_updates (h : p.step o = .ok q) (hnow : o.now? = some now) :
    ∃ X Y S q' S', { p with coinXReserve := X, coinYReserve := Y, lpSupply := S }.updateOracle now
      p.coinXReserve p.coinYReserve = .ok q' ∧ q = { q' with lpSupply := S' } := by
  cases o with
  | mint now' x y =>
    cases hnow
    simp only [step,mint,bind_eq_ok,pure_eq_ok] at h
    obtain ⟨_,⟨_,_,_,_,X,_,Y,_,S,_,r,hr,rfl⟩,rfl⟩ := h
    exact ⟨X,Y,S.1,r,_,hr,rfl⟩
  | burn now' b =>
    cases hnow
    simp only [step,burn,bind_eq_ok,pure_eq_ok] at h
    obtain ⟨_,⟨_,_,_,_,_,_,X,_,Y,_,r,hr,S',_,rfl⟩,rfl⟩ := h
    exact ⟨X.1,Y.1,_,r,S',hr,rfl⟩
  | swap now' xIn xOut yIn yOut =>
    cases hnow
    simp only [step,swap,bind_eq_ok,pure_eq_ok] at h
    obtain ⟨_,⟨_,_,_,_,_,_,X,_,Y,_,_,_,r,hr,rfl⟩,rfl⟩ := h
    exact ⟨X.1,Y.1,_,r,_,hr,rfl⟩
  | burnDestructive | setReconfigurationTimestamp => cases hnow

theorem step_keeps_oracle (h : p.step o = .ok q) (hnow : o.now? = none) (ho : p.OracleOf samples) :
    q.OracleOf samples ∧ q.epochTwarX = p.epochTwarX ∧ q.epochTwarY = p.epochTwarY := by
  cases o with
  | mint | burn | swap => cases hnow
  | burnDestructive b =>
    obtain ⟨_,rfl⟩ := burnDestructive_ok h
    exact ⟨{ ho with },rfl,rfl⟩
  | setReconfigurationTimestamp ts =>
    cases h
    exact ⟨{ ho with },rfl,rfl⟩

theorem cumulative_eq_sum (hsec : ∀ s ∈ samples, s.elapsed = 1) :
    cumulative f samples = (samples.map f).sum := by
  refine congrArg List.sum (map_congr_left fun s hs => ?_)
  rw [hsec s hs,Nat.mul_one]

/-- With one second for each sample, a tracked average is the mean of what was sampled, as
long as the sum has not wrapped. -/
theorem Tracks.between {sum average : ℕ} (h : Tracks f samples sum average)
    (hne : samples ≠ []) (hsec : ∀ s ∈ samples, s.elapsed = 1)
    (hwrap : cumulative f samples < 2 ^ 128) : Between average (samples.map f) := by
  obtain ⟨rfl,rfl⟩ := h hne
  rw [Nat.mod_eq_of_lt hwrap,cumulative_eq_sum hsec,← length_map f]
  exact mean_between (by simpa using hne)

/-- A wrapped sum only lowers the average, so it stays below any bound on the samples. -/
theorem Tracks.lt {sum average B : ℕ} (h : Tracks f samples sum average)
    (hne : samples ≠ []) (hsec : ∀ s ∈ samples, s.elapsed = 1) (hB : ∀ s ∈ samples, f s < B) :
    average < B := by
  obtain ⟨rfl,rfl⟩ := h hne
  calc
    cumulative f samples % 2 ^ 128 / samples.length ≤ (samples.map f).sum / samples.length := by
      rw [cumulative_eq_sum hsec]
      exact Nat.div_le_div_right (Nat.mod_le _ _)
    _ = (samples.map f).sum / (samples.map f).length := by rw [length_map]
    _ < B := by
      apply mean_lt
      · simpa using hne
      · intro a ha
        obtain ⟨s,hs,rfl⟩ := mem_map.mp ha
        exact hB s hs

theorem getLastEpochDelta_isOk (hx : p.epochTwarX < 2 ^ 64) (hy : p.epochTwarY < 2 ^ 64) :
    ∃ d, p.getLastEpochDelta = .ok d := by
  rw [getLastEpochDelta]
  split
  · rw [castChecked_of_lt (by omega)]
    exact ⟨_,rfl⟩
  · split
    · rw [castChecked_of_lt (by omega)]
      exact ⟨_,rfl⟩
    · exact ⟨_,rfl⟩

end LiquidityPool

structure Traced where
  pool : LiquidityPool
  samples : List Sample
  deriving DecidableEq

namespace Traced
open LiquidityPool

variable {t u : Traced} {o : PoolOp} {os : List PoolOp}

def record (t : Traced) (o : PoolOp) : List Sample :=
  match o.now? with
  | none => t.samples
  | some now => t.pool.epochSoFar t.samples ++
      t.pool.newSample now t.pool.coinXReserve t.pool.coinYReserve

def step (t : Traced) (o : PoolOp) : Result Traced := do
  let pool ← t.pool.step o
  pure ⟨pool,t.record o⟩

def SampledEachSecond (t : Traced) (o : PoolOp) : Prop :=
  ∀ now, o.now? = some now →
    ∀ s ∈ t.pool.newSample now t.pool.coinXReserve t.pool.coinYReserve, s.elapsed = 1

structure Steady (t : Traced) : Prop where
  oracle : t.pool.OracleOf t.samples
  fit : t.pool.ReservesFit
  seconds : ∀ s ∈ t.samples, s.elapsed = 1
  reserves : ∀ s ∈ t.samples, s.x < 2 ^ 64 ∧ s.y < 2 ^ 64
  twarX : t.pool.epochTwarX < 2 ^ 64
  twarY : t.pool.epochTwarY < 2 ^ 64

theorem newSample_reserves {p : LiquidityPool} {now x y : ℕ} {s : Sample}
    (hs : s ∈ p.newSample now x y) : s.x = x ∧ s.y = y := by
  rw [newSample] at hs
  split at hs
  · obtain rfl := mem_singleton.mp hs
    exact ⟨rfl,rfl⟩
  · cases hs

theorem mem_record {s : Sample} (hs : s ∈ t.record o) :
    s ∈ t.samples ∨ ∃ now, o.now? = some now ∧
      s ∈ t.pool.newSample now t.pool.coinXReserve t.pool.coinYReserve := by
  cases hnow : o.now? with
  | none =>
    rw [record,hnow] at hs
    exact .inl hs
  | some now =>
    rw [record,hnow] at hs
    obtain hs | hs := mem_append.mp hs
    · rw [epochSoFar] at hs
      split at hs
      · cases hs
      · exact .inl hs
    · exact .inr ⟨now,rfl,hs⟩

/-- The oracle follows the record, and without a sample on record the averages stay. -/
theorem record_oracle {q : LiquidityPool} (ho : t.pool.OracleOf t.samples)
    (h : t.pool.step o = .ok q) :
    q.OracleOf (t.record o) ∧ (t.record o ≠ [] ∨
      q.epochTwarX = t.pool.epochTwarX ∧ q.epochTwarY = t.pool.epochTwarY) := by
  cases hnow : o.now? with
  | none =>
    have hrec : t.record o = t.samples := by rw [record,hnow]
    obtain ⟨hq,htwar⟩ := step_keeps_oracle h hnow ho
    exact ⟨hrec ▸ hq,.inr htwar⟩
  | some now =>
    have hrec : t.record o = t.pool.epochSoFar t.samples ++
        t.pool.newSample now t.pool.coinXReserve t.pool.coinYReserve := by rw [record,hnow]
    obtain ⟨X,Y,S,q',S',hup,rfl⟩ := step_updates h hnow
    have hbase : OracleOf { t.pool with coinXReserve := X, coinYReserve := Y, lpSupply := S }
        t.samples := { ho with }
    have hq : q'.OracleOf (t.record o) := hrec ▸ hbase.updateOracle hup
    refine ⟨{ hq with },?_⟩
    by_cases hnil : t.record o = []
    · rw [hrec,append_eq_nil_iff] at hnil
      obtain ⟨hx,hy⟩ := updateOracle_twar hup hnil.2
      exact .inr ⟨hx,hy⟩
    · exact .inl hnil

theorem Steady.step (h : t.Steady) (hg : t.SampledEachSecond o) (hs : t.step o = .ok u) :
    u.Steady := by
  obtain ⟨q,hq,⟨⟩⟩ := bind_eq_ok.mp hs
  obtain ⟨ho,hkept⟩ := record_oracle h.oracle hq
  have hsec : ∀ s ∈ t.record o, s.elapsed = 1 := by
    intro s hs
    obtain hs | ⟨now,hnow,hs⟩ := mem_record hs
    · exact h.seconds s hs
    · exact hg now hnow s hs
  have hres : ∀ s ∈ t.record o, s.x < 2 ^ 64 ∧ s.y < 2 ^ 64 := by
    intro s hs
    obtain hs | ⟨now,_,hs⟩ := mem_record hs
    · exact h.reserves s hs
    · obtain ⟨hx,hy⟩ := newSample_reserves hs
      exact ⟨hx ▸ h.fit.coinX,hy ▸ h.fit.coinY⟩
  -- Until the first sample of an epoch the averages of the last one stand.
  have htwar : q.epochTwarX < 2 ^ 64 ∧ q.epochTwarY < 2 ^ 64 := by
    obtain hne | ⟨hx,hy⟩ := hkept
    · exact ⟨ho.reserveX.lt hne hsec fun s hs => (hres s hs).1,
        ho.reserveY.lt hne hsec fun s hs => (hres s hs).2⟩
    · exact ⟨hx ▸ h.twarX,hy ▸ h.twarY⟩
  exact ⟨ho,step_reservesFit h.fit hq,hsec,hres,htwar.1,htwar.2⟩

theorem register_steady {curve : Curve} {dx dy : ℕ} {p : LiquidityPool}
    (h : register curve dx dy = .ok p) : Steady ⟨p,[]⟩ := by
  simp only [register,bind_eq_ok,pure_eq_ok] at h
  obtain ⟨_,_,_,_,_,_,rfl⟩ := h
  exact ⟨⟨rfl,.nil _ _ _,.nil _ _ _,.nil _ _ _,.nil _ _ _⟩,
    ⟨Nat.two_pow_pos 64,Nat.two_pow_pos 64⟩,by simp,by simp,Nat.two_pow_pos 64,
    Nat.two_pow_pos 64⟩

/-- Along every run from the registration of a pool that samples once a second, each average
lies between the smallest and the largest value sampled in the epoch, as long as its sum has
not wrapped, and the delta of the reserves can be computed. -/
theorem averages_between {curve : Curve} {dx dy : ℕ} {p : LiquidityPool}
    (hreg : register curve dx dy = .ok p)
    (h : Run step SampledEachSecond ⟨p,[]⟩ os t) :
    (0 < t.pool.epochSamples →
      (cumulative Sample.x t.samples < 2 ^ 128 →
        Between t.pool.epochTwarX (t.samples.map Sample.x)) ∧
      (cumulative Sample.y t.samples < 2 ^ 128 →
        Between t.pool.epochTwarY (t.samples.map Sample.y)) ∧
      (cumulative Sample.priceX t.samples < 2 ^ 128 →
        Between t.pool.epochTwapX (t.samples.map Sample.priceX)) ∧
      (cumulative Sample.priceY t.samples < 2 ^ 128 →
        Between t.pool.epochTwapY (t.samples.map Sample.priceY))) ∧
    ∃ d, t.pool.getLastEpochDelta = .ok d := by
  have hst : t.Steady := h.invariant (register_steady hreg) fun _ _ _ hi hg hs => hi.step hg hs
  refine ⟨?_,getLastEpochDelta_isOk hst.twarX hst.twarY⟩
  intro hpos
  have hne : t.samples ≠ [] := by
    rintro hnil
    rw [hst.oracle.count,hnil] at hpos
    exact absurd hpos (by decide)
  exact ⟨hst.oracle.reserveX.between hne hst.seconds,hst.oracle.reserveY.between hne hst.seconds,
    hst.oracle.priceX.between hne hst.seconds,hst.oracle.priceY.between hne hst.seconds⟩

instance (t : Traced) (o : PoolOp) : Decidable (t.SampledEachSecond o) :=
  decidable_of_iff (∀ now ∈ o.now?.toList,
    ∀ s ∈ t.pool.newSample now t.pool.coinXReserve t.pool.coinYReserve, s.elapsed = 1)
    (by simp only [Option.mem_toList,SampledEachSecond])

/-- Two deposits and a swap, each a second after the one before. -/
theorem averages_between_three_calls :
    ∃ p t, register .uncorrelated 8 8 = .ok p ∧
      Run step SampledEachSecond ⟨p,[]⟩
        [.mint 10 3000 3000,.mint 11 1000 1000,.swap 12 100 0 0 50] t ∧
      t.pool.epochSamples = 2 ∧ Between t.pool.epochTwarX (t.samples.map Sample.x) ∧
      ∃ d, t.pool.getLastEpochDelta = .ok d := by
  have hreg : register .uncorrelated 8 8 = .ok _ := rfl
  have hr : Run step SampledEachSecond ⟨⟨.uncorrelated,0,0,0,0,0,0,0,0,0,0,0,0,0,0,0,0,0⟩,[]⟩
      [.mint 10 3000 3000,.mint 11 1000 1000,.swap 12 100 0 0 50] _ :=
    .cons (by decide) (t := ⟨⟨.uncorrelated,3000,3000,0,0,10,0,0,0,0,0,0,0,0,0,0,0,2000⟩,[]⟩)
      (by decide +kernel) (.cons (by decide) rfl (.cons (by decide) rfl (.nil _)))
  have hbetween := averages_between hreg hr
  exact ⟨_,_,hreg,hr,rfl,(hbetween.1 (by decide)).1 (by decide),hbetween.2⟩

/-- One sample after four seconds: the average reserve of `X` is four times the only reserve
sampled, and the difference of the averages does not fit a `u64`. -/
theorem average_exceeds_samples :
    ∃ p t, register .uncorrelated 8 8 = .ok p ∧
      Reaches step ⟨p,[]⟩ [.mint 10 (2 ^ 63) 2,.swap 14 1 0 0 0] t ∧
      t.samples = [⟨2 ^ 63,2,4⟩] ∧ t.pool.epochSamples = 1 ∧
      cumulative Sample.x t.samples < 2 ^ 128 ∧ cumulative Sample.y t.samples < 2 ^ 128 ∧
      cumulative Sample.priceX t.samples < 2 ^ 128 ∧
      cumulative Sample.priceY t.samples < 2 ^ 128 ∧
      t.pool.epochTwarX = 2 ^ 65 ∧ ¬ Between t.pool.epochTwarX (t.samples.map Sample.x) ∧
      t.pool.getLastEpochDelta = .error .arithmeticError := by
  refine ⟨_,⟨⟨.uncorrelated,2 ^ 63 + 1,2,0,0,14,12,
    340282366920938463444927863358058659840,2 ^ 65,8,1,12,
    340282366920938463444927863358058659840,2 ^ 65,8,0,0,4294966296⟩,[⟨2 ^ 63,2,4⟩]⟩,rfl,?_,rfl,rfl,
    by decide,by decide,by decide,by decide,rfl,?_,by decide +kernel⟩
  · rw [reaches_iff_exec]
    decide +kernel
  · rintro ⟨-,b,hb,hle⟩
    obtain rfl := mem_singleton.mp hb
    exact absurd hle (by decide)

end Traced

end Arx
