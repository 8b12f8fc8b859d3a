import Arx.Framework.LiquidityPool
import Arx.Movelib.Proportion

/-!
# The value of a share of the pool

The reserves behind one `LP` coin never fall. The exception is `mint` for a pool without shares: it
ignores the reserves that `burn_destructive` leaves.
-/

namespace Arx
open Movelib

namespace PoolOp

/-- Every call except the first mint of a pool. -/
def Admitted (p : LiquidityPool) : PoolOp → Prop
  | .mint _ _ _ => 0 < p.lpSupply
  | _ => True

def IsSwap : PoolOp → Prop
  | .swap _ _ _ _ _ => True
  | _ => False

end PoolOp

namespace LiquidityPool

variable {p q r : LiquidityPool} {now x y liq : ℕ} {o : PoolOp} {os : List PoolOp}

structure CoinsKept (p q : LiquidityPool) : Prop where
  coinX : p.coinXReserve * q.lpSupply ≤ q.coinXReserve * p.lpSupply
  coinY : p.coinYReserve * q.lpSupply ≤ q.coinYReserve * p.lpSupply

def ProductKept (p q : LiquidityPool) : Prop :=
  p.coinXReserve * p.coinYReserve * q.lpSupply ^ 2 ≤
    q.coinXReserve * q.coinYReserve * p.lpSupply ^ 2

theorem CoinsKept.product (h : CoinsKept p q) : ProductKept p q := by
  have hmul := Nat.mul_le_mul h.coinX h.coinY
  calc
    p.coinXReserve * p.coinYReserve * q.lpSupply ^ 2 =
        p.coinXReserve * q.lpSupply * (p.coinYReserve * q.lpSupply) := by ring
    _ ≤ q.coinXReserve * p.lpSupply * (q.coinYReserve * p.lpSupply) := hmul
    _ = q.coinXReserve * q.coinYReserve * p.lpSupply ^ 2 := by ring

theorem mint_coinsKept (hS : 0 < p.lpSupply) (h : p.mint now x y = .ok (q, liq)) :
    CoinsKept p q := by
  obtain ⟨hliq,_,_,_,_,hX,hY,hS',_⟩ := mint_ok h
  obtain ⟨hx,hy⟩ := providedLiq_ok hS hliq
  refine ⟨?_,?_⟩
  · rw [hX,hS']
    exact mint_share_le liq hx
  · rw [hY,hS']
    exact mint_share_le liq hy

theorem burn_coinsKept {b xr yr : ℕ} (h : p.burn now b = .ok (q, xr, yr)) : CoinsKept p q := by
  obtain ⟨_,_,rfl,rfl,_,_,_,hX,hY,hS'⟩ := burn_ok h
  refine ⟨?_,?_⟩
  · rw [hX,hS']
    exact burn_share_le
  · rw [hY,hS']
    exact burn_share_le

theorem swap_productKept {xIn xOut yIn yOut xr yr : ℕ} (hc : p.curve = .uncorrelated)
    (h : p.swap now xIn xOut yIn yOut = .ok (q, xr, yr)) : ProductKept p q := by
  obtain ⟨hx,hy,_,hX,hY,hS,hassert⟩ := swap_ok h
  rw [hc] at hassert
  have hlt := assertLpValueIncrease_uncorrelated (by omega) (by omega) hassert
  rw [ProductKept]
  rw [hS]
  exact Nat.mul_le_mul_right _ hlt.le

theorem step_share (hc : p.curve = .uncorrelated) (ho : o.Admitted p) (h : p.step o = .ok q) :
    q.curve = .uncorrelated ∧ (p.lpSupply = 0 → q.lpSupply = 0) ∧ ProductKept p q ∧
      (¬ o.IsSwap → CoinsKept p q) := by
  cases o with
  | mint now x y =>
    obtain ⟨⟨_,liq⟩,h,⟨⟩⟩ := bind_eq_ok.mp h
    have hS : 0 < p.lpSupply := ho
    have hk := mint_coinsKept hS h
    exact ⟨(mint_ok h).2.2.2.2.1.trans hc,fun h0 => absurd h0 hS.ne',hk.product,fun _ => hk⟩
  | burn now b =>
    obtain ⟨⟨_,xr,yr⟩,h,⟨⟩⟩ := bind_eq_ok.mp h
    have hk := burn_coinsKept h
    obtain ⟨hS,_,_,_,_,_,hcurve,_,_,_⟩ := burn_ok h
    exact ⟨hcurve.trans hc,fun h0 => absurd h0 hS,hk.product,fun _ => hk⟩
  | burnDestructive b =>
    obtain ⟨hb,rfl⟩ := burnDestructive_ok h
    have hk : CoinsKept p { p with lpSupply := p.lpSupply - b } :=
      ⟨Nat.mul_le_mul_left _ (Nat.sub_le _ _),Nat.mul_le_mul_left _ (Nat.sub_le _ _)⟩
    exact ⟨hc,fun h0 => by simp [h0],hk.product,fun _ => hk⟩
  | swap now xIn xOut yIn yOut =>
    obtain ⟨⟨_,xr,yr⟩,h,⟨⟩⟩ := bind_eq_ok.mp h
    obtain ⟨_,_,hcurve,_,_,hS,_⟩ := swap_ok h
    exact ⟨hcurve.trans hc,fun h0 => hS.trans h0,swap_productKept hc h,
      fun hn => absurd trivial hn⟩
  | setReconfigurationTimestamp ts =>
    cases h
    have hk : CoinsKept p (p.setReconfigurationTimestamp ts) := ⟨le_rfl,le_rfl⟩
    exact ⟨hc,fun h0 => h0,hk.product,fun _ => hk⟩

/-- Along every run on an uncorrelated pool that does not start from an empty supply, the
product of the reserves per share never falls, and without swaps neither reserve does. -/
theorem reserves_per_share (hc : p.curve = .uncorrelated)
    (h : Run step (fun r o => o.Admitted r) p os q) :
    p.coinXReserve * p.coinYReserve * q.lpSupply ^ 2 ≤
        q.coinXReserve * q.coinYReserve * p.lpSupply ^ 2 ∧
      ((∀ o ∈ os, ¬ o.IsSwap) →
        p.coinXReserve * q.lpSupply ≤ q.coinXReserve * p.lpSupply ∧
        p.coinYReserve * q.lpSupply ≤ q.coinYReserve * p.lpSupply) := by
  have hcurve : ∀ {t os'}, Run step (fun r o => o.Admitted r) p os' t →
      t.curve = .uncorrelated := fun ht =>
    ht.invariant (I := fun t => t.curve = .uncorrelated) hc
      fun _ _ _ hcu ho hs => (step_share hcu ho hs).1
  induction h with
  | nil => exact ⟨le_rfl,fun _ => ⟨le_rfl,le_rfl⟩⟩
  | @snoc t u os' o ht ho hs ih =>
    obtain ⟨_,hzero,hprod,hcoins⟩ := step_share (hcurve ht) ho hs
    -- The ratios compose only if a supply of zero stays at zero.
    have hzero' : t.lpSupply ^ 2 = 0 → u.lpSupply ^ 2 = 0 := by
      intro h0
      rw [hzero (pow_eq_zero_iff (by decide) |>.mp h0)]
      rfl
    refine ⟨cross_le_trans ih.1 hprod hzero',?_⟩
    intro hno
    have hk := hcoins (hno o (List.mem_append_right _ (List.mem_singleton_self o)))
    obtain ⟨hx,hy⟩ := ih.2 fun o' ho' => hno o' (List.mem_append_left _ ho')
    exact ⟨cross_le_trans hx hk.coinX hzero,cross_le_trans hy hk.coinY hzero⟩

def twoThousand : LiquidityPool :=
  ⟨.uncorrelated,2000,2000,0,0,10,0,0,0,0,0,0,0,0,0,0,0,1000⟩

theorem reserves_per_share_three_calls :
    ∃ q, Run step (fun r o => o.Admitted r) twoThousand
        [.mint 20 301 300, .burn 20 77, .swap 21 10 0 0 9] q ∧
      twoThousand.coinXReserve * twoThousand.coinYReserve * q.lpSupply ^ 2 ≤
        q.coinXReserve * q.coinYReserve * twoThousand.lpSupply ^ 2 := by
  have hq : Run step (fun r o => o.Admitted r) twoThousand
      [.mint 20 301 300, .burn 20 77, .swap 21 10 0 0 9] _ :=
    .cons (by decide : 0 < 1000) rfl (.cons trivial rfl (.cons trivial rfl (.nil _)))
  exact ⟨_,hq,(reserves_per_share rfl hq).1⟩

section RoundTrip

theorem providedLiq_first (hS : p.lpSupply = 0) (h : p.providedLiq x y = .ok liq) :
    0 < x ∧ 0 < y ∧ liq < 2 ^ 64 := by
  rw [providedLiq,if_pos hS] at h
  simp only [bind_eq_ok,ensure_eq_ok,Math64.mulToU128,mulChecked_eq_ok,subChecked_eq_ok] at h
  obtain ⟨_,⟨hp,rfl⟩,root,hroot,_,hmin,_,rfl⟩ := h
  have hne : x * y ≠ 0 := by
    intro h0
    rw [h0] at hroot
    cases hroot
    exact absurd hmin (by decide)
  have hlt : Nat.sqrt (x * y) < 2 ^ 64 := Nat.sqrt_lt.mpr hp
  rw [Math128.sqrt_eq hp] at hroot
  cases hroot
  refine ⟨Nat.pos_of_ne_zero fun hx => hne (by rw [hx,Nat.zero_mul]),
    Nat.pos_of_ne_zero fun hy => hne (by rw [hy,Nat.mul_zero]),by omega⟩

theorem burn_all (hS : 0 < p.lpSupply) (hS' : p.lpSupply < 2 ^ 64) (hX : 0 < p.coinXReserve)
    (hX' : p.coinXReserve < 2 ^ 64) (hY : 0 < p.coinYReserve) (hY' : p.coinYReserve < 2 ^ 64)
    (hnow : p.lastBlockTimestamp = now) :
    ∃ q, p.burn now p.lpSupply = .ok (q, p.coinXReserve, p.coinYReserve) := by
  have hdiv : ∀ c, c < 2 ^ 64 → Math128.mulDiv p.lpSupply c p.lpSupply = .ok c := by
    intro c hc
    have hquot := Nat.mul_div_cancel_left c hS
    have hprod : p.lpSupply * c ≤ (2 ^ 64 - 1) * (2 ^ 64 - 1) :=
      Nat.mul_le_mul (by omega) (by omega)
    rw [Math128.mulDiv_eq_ok,hquot]
    exact ⟨hS.ne',by omega,hc,rfl⟩
  have hext : ∀ c, Coin.extract c c = .ok (0, c) := by
    intro c
    rw [Coin.extract_eq_ok,Nat.sub_self]
    exact ⟨le_rfl,rfl⟩
  obtain ⟨r,hr⟩ := updateOracle_isOk (p := { p with coinXReserve := 0, coinYReserve := 0 })
    (x := p.coinXReserve) (y := p.coinYReserve) hnow
  have hsame := updateOracle_sameFunds hr
  have hburn : Coin.burn r.lpSupply p.lpSupply = .ok 0 := by
    rw [hsame.lpSupply,Coin.burn_eq_ok]
    exact ⟨hS,le_rfl,Nat.sub_self _⟩
  refine ⟨{ r with lpSupply := 0 },?_⟩
  simp only [burn,hdiv _ hX',hdiv _ hY',hext,ok_bind,hr,hburn]
  rw [ensure,if_pos ⟨hX,hY⟩]
  rfl

/-- Minting and burning at once returns no more than was put in, exactly when the pool has
shares or has no reserves. -/
theorem mint_burn_le_iff (h : p.mint now x y = .ok (q, liq)) :
    (∀ now' r xr yr, q.burn now' liq = .ok (r, xr, yr) → xr ≤ x ∧ yr ≤ y) ↔
      0 < p.lpSupply ∨ (p.coinXReserve = 0 ∧ p.coinYReserve = 0) := by
  obtain ⟨hliq,hpos,hx64,hy64,_,hX,hY,hS,hnow⟩ := mint_ok h
  constructor
  · intro hle
    by_contra hcon
    obtain ⟨hzero,hres⟩ := not_or.mp hcon
    have hS0 : p.lpSupply = 0 := by omega
    have hsupply : q.lpSupply = liq := by omega
    obtain ⟨hx,hy,hlt⟩ := providedLiq_first hS0 hliq
    -- The minter holds every share, so a burn at the same time pays out all reserves.
    obtain ⟨r,hr⟩ := burn_all (p := q) (by omega) (by omega) (by omega) (by omega) (by omega)
      (by omega) hnow
    rw [hsupply] at hr
    obtain ⟨hxr,hyr⟩ := hle _ _ _ _ hr
    apply hres
    omega
  · rintro hcase now' r xr yr hb
    obtain ⟨_,_,rfl,rfl,_⟩ := burn_ok hb
    rw [hX,hY,hS]
    obtain hpos' | ⟨hX0,hY0⟩ := hcase
    · obtain ⟨hlx,hly⟩ := providedLiq_ok hpos' hliq
      have hmul : ∀ {a A : ℕ}, liq ≤ a * p.lpSupply / A → A * liq ≤ a * p.lpSupply :=
        fun hle => (Nat.mul_le_mul_left _ hle).trans (Nat.mul_div_le _ _)
      exact ⟨round_trip_le (hmul hlx),round_trip_le (hmul hly)⟩
    · rw [hX0,hY0]
      exact ⟨round_trip_le (by simp),round_trip_le (by simp)⟩

theorem mint_burn_le_twoThousand :
    ∃ q, twoThousand.mint 10 301 300 = .ok (q, 150) ∧
      ∀ now' r xr yr, q.burn now' 150 = .ok (r, xr, yr) → xr ≤ 301 ∧ yr ≤ 300 := by
  have hmint : twoThousand.mint 10 301 300 = .ok
      ({ twoThousand with coinXReserve := 2301, coinYReserve := 2300, lpSupply := 1150 }, 150) := by
    decide +kernel
  exact ⟨_,hmint,(mint_burn_le_iff hmint).mpr (.inl (by decide))⟩

def genesisPool : LiquidityPool :=
  ⟨.stable,1001,1001,0,0,10,0,0,0,0,0,0,0,0,0,100000000,100000000,0⟩

/-- Whoever mints first after genesis gets the genesis reserves on top of the deposit. -/
theorem mint_burn_takes_reserves :
    (register .stable 8 8 >>= fun p =>
      exec step p [.mint 10 1001 1001, .burnDestructive 1]) = .ok genesisPool ∧
    ∃ q r, genesisPool.mint 10 1001 1001 = .ok (q, 1) ∧ q.burn 10 1 = .ok (r, 2002, 2002) := by
  refine ⟨by decide +kernel,
    { genesisPool with coinXReserve := 2002, coinYReserve := 2002, lpSupply := 1 },
    { genesisPool with coinXReserve := 0, coinYReserve := 0 },?_,?_⟩
  · decide +kernel
  · decide +kernel

end RoundTrip

end LiquidityPool

end Arx
