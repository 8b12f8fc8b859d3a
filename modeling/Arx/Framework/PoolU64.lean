import Arx.Framework.Coin
import Arx.Framework.SimpleMap
import Arx.Movelib.Proportion
import Arx.Movelib.Run
import Arx.Movelib.Totals

/-!
# `std::pool_u64`

The holders are kept in a vector and their shares in a map; the pool never owes more coins than it
has.
-/

namespace Arx.PoolU64
open Movelib Function List

def ESHAREHOLDER_NOT_FOUND : ℕ := 1
def ETOO_MANY_SHAREHOLDERS : ℕ := 2
def EINSUFFICIENT_SHARES : ℕ := 4
def ESHAREHOLDER_SHARES_OVERFLOW : ℕ := 5
def EPOOL_TOTAL_COINS_OVERFLOW : ℕ := 6

def MAX_U64 : ℕ := 18446744073709551615

structure Pool where
  shareholdersLimit : ℕ
  totalCoins : ℕ
  totalShares : ℕ
  shares : SimpleMap Address ℕ
  shareholders : List Address
  scalingFactor : ℕ
  deriving DecidableEq

def createWithScalingFactor (shareholdersLimit scalingFactor : ℕ) : Pool :=
  ⟨shareholdersLimit,0,0,.create,[],scalingFactor⟩

def create (shareholdersLimit : ℕ) : Pool := createWithScalingFactor shareholdersLimit 1

def indexOf (v : List Address) (e : Address) : Bool × ℕ :=
  if e ∈ v then (true,v.idxOf e) else (false,0)

/-- `vector::remove`. -/
def vectorRemove (v : List Address) (i : ℕ) : Result (List Address) :=
  if i < v.length then .ok (v.eraseIdx i) else .error (.code 0x20000)

def multiplyThenDivide (x y z : ℕ) : Result ℕ := do
  let product ← mulChecked 128 x y
  let result ← divChecked product z
  castChecked 64 result

namespace Pool

variable (p : Pool) (shareholder : Address)

def contains : Bool := p.shares.containsKey shareholder

def sharesOf : Result ℕ :=
  if p.contains shareholder then p.shares.borrow shareholder else pure 0

def amountToSharesWithTotalCoins (coinsAmount totalCoins : ℕ) : Result ℕ :=
  if p.totalCoins = 0 ∨ p.totalShares = 0 then mulChecked 64 coinsAmount p.scalingFactor
  else multiplyThenDivide coinsAmount p.totalShares totalCoins

def amountToShares (coinsAmount : ℕ) : Result ℕ :=
  p.amountToSharesWithTotalCoins coinsAmount p.totalCoins

def sharesToAmountWithTotalCoins (shares totalCoins : ℕ) : Result ℕ :=
  if p.totalCoins = 0 ∨ p.totalShares = 0 then pure 0
  else multiplyThenDivide shares totalCoins p.totalShares

def sharesToAmount (shares : ℕ) : Result ℕ := p.sharesToAmountWithTotalCoins shares p.totalCoins

def balance : Result ℕ := do
  let numShares ← p.sharesOf shareholder
  p.sharesToAmount numShares

def updateTotalCoins (newTotalCoins : ℕ) : Pool := { p with totalCoins := newTotalCoins }

def addShares (newShares : ℕ) : Result (Pool × ℕ) :=
  if p.contains shareholder then do
    let currentShares ← p.shares.borrow shareholder
    let room ← subChecked MAX_U64 currentShares
    ensure (newShares ≤ room) (Error.invalidArgument ESHAREHOLDER_SHARES_OVERFLOW)
    let existingShares ← addChecked 64 currentShares newShares
    let shares ← p.shares.set shareholder existingShares
    pure ({ p with shares },existingShares)
  else if 0 < newShares then do
    ensure (p.shareholders.length < p.shareholdersLimit) (Error.invalidState ETOO_MANY_SHAREHOLDERS)
    let shares ← p.shares.add shareholder newShares
    pure ({ p with shares, shareholders := p.shareholders ++ [shareholder] },newShares)
  else pure (p,newShares)

def deductShares (numShares : ℕ) : Result (Pool × ℕ) := do
  ensure (p.contains shareholder) (Error.invalidArgument ESHAREHOLDER_NOT_FOUND)
  let current ← p.sharesOf shareholder
  ensure (numShares ≤ current) (Error.invalidArgument EINSUFFICIENT_SHARES)
  let existingShares ← p.shares.borrow shareholder
  let remainingShares ← subChecked existingShares numShares
  let shares ← p.shares.set shareholder remainingShares
  if remainingShares = 0 then do
    let shareholders ← vectorRemove p.shareholders (indexOf p.shareholders shareholder).2
    let (shares,_) ← shares.remove shareholder
    pure ({ p with shares, shareholders },remainingShares)
  else pure ({ p with shares },remainingShares)

def buyIn (coinsAmount : ℕ) : Result (Pool × ℕ) :=
  if coinsAmount = 0 then pure (p,0) else do
    let newShares ← p.amountToShares coinsAmount
    let coinsRoom ← subChecked MAX_U64 p.totalCoins
    ensure (coinsAmount ≤ coinsRoom) (Error.invalidArgument EPOOL_TOTAL_COINS_OVERFLOW)
    let sharesRoom ← subChecked MAX_U64 p.totalShares
    ensure (newShares ≤ sharesRoom) (Error.invalidArgument EPOOL_TOTAL_COINS_OVERFLOW)
    let totalCoins ← addChecked 64 p.totalCoins coinsAmount
    let totalShares ← addChecked 64 p.totalShares newShares
    let (q,_) ← addShares { p with totalCoins, totalShares } shareholder newShares
    pure (q,newShares)

def redeemShares (sharesToRedeem : ℕ) : Result (Pool × ℕ) := do
  ensure (p.contains shareholder) (Error.invalidArgument ESHAREHOLDER_NOT_FOUND)
  let current ← p.sharesOf shareholder
  ensure (sharesToRedeem ≤ current) (Error.invalidArgument EINSUFFICIENT_SHARES)
  if sharesToRedeem = 0 then pure (p,0) else do
    let redeemedCoins ← p.sharesToAmount sharesToRedeem
    let totalCoins ← subChecked p.totalCoins redeemedCoins
    let totalShares ← subChecked p.totalShares sharesToRedeem
    let (q,_) ← deductShares { p with totalCoins, totalShares } shareholder sharesToRedeem
    pure (q,redeemedCoins)

def transferShares (shareholder1 shareholder2 : Address) (sharesToTransfer : ℕ) : Result Pool := do
  ensure (p.contains shareholder1) (Error.invalidArgument ESHAREHOLDER_NOT_FOUND)
  let current ← p.sharesOf shareholder1
  ensure (sharesToTransfer ≤ current) (Error.invalidArgument EINSUFFICIENT_SHARES)
  if sharesToTransfer = 0 then pure p else do
    let (q,_) ← p.deductShares shareholder1 sharesToTransfer
    let (q,_) ← q.addShares shareholder2 sharesToTransfer
    pure q

end Pool

inductive Op
  | buyIn (shareholder : Address) (coinsAmount : ℕ)
  | redeemShares (shareholder : Address) (sharesToRedeem : ℕ)
  | transferShares (shareholder1 shareholder2 : Address) (sharesToTransfer : ℕ)
  | updateTotalCoins (newTotalCoins : UInt64)

def Pool.step (p : Pool) : Op → Result Pool
  | .buyIn shareholder amount => Prod.fst <$> p.buyIn shareholder amount
  | .redeemShares shareholder shares => Prod.fst <$> p.redeemShares shareholder shares
  | .transferShares shareholder1 shareholder2 shares =>
    p.transferShares shareholder1 shareholder2 shares
  | .updateTotalCoins coins => .ok (p.updateTotalCoins coins.toNat)

namespace Pool

def held (p : Pool) (a : Address) : ℕ := (p.shares.lookup a).getD 0

/-- The vector and the map are of the same holders, and together they have `total` shares. -/
structure Holds (p : Pool) (total : ℕ) : Prop where
  nodup : p.shareholders.Nodup
  keys : ∀ a, a ∈ p.shareholders ↔ (p.shares.lookup a).isSome
  positive : ∀ a, p.shares.lookup a ≠ some 0
  sum : (p.shareholders.map p.held).sum = total
  limit : p.shareholders.length ≤ p.shareholdersLimit

variable {p q : Pool} {a : Address} {n r total total' current : ℕ} {shares : SimpleMap Address ℕ}

theorem Holds.change {o : Option ℕ} {l : List Address} (h : Holds p total)
    (hl : shares.lookup = update p.shares.lookup a o) (ho : o ≠ some 0) (hnodup : l.Nodup)
    (hself : a ∈ l ↔ o.isSome) (hothers : ∀ b, b ≠ a → (b ∈ l ↔ b ∈ p.shareholders))
    (hsum : (l.map (update p.held a (o.getD 0))).sum = total')
    (hlimit : l.length ≤ p.shareholdersLimit) :
    Holds { p with shares, shareholders := l } total' := by
  have hheld : held { p with shares, shareholders := l } = update p.held a (o.getD 0) := by
    funext b
    change (shares.lookup b).getD 0 = _
    rw [hl]
    by_cases hb : b = a
    · rw [hb,update_self,update_self]
    · rw [update_of_ne hb,update_of_ne hb,held]
  refine ⟨hnodup,fun b => ?_,fun b => ?_,hheld ▸ hsum,hlimit⟩
  · rw [hl]
    by_cases hb : b = a
    · rw [hb,update_self,hself]
    · rw [update_of_ne hb,hothers b hb,h.keys]
  · rw [hl]
    by_cases hb : b = a
    · rwa [hb,update_self]
    · rw [update_of_ne hb]
      exact h.positive b

theorem held_of_ne {o : Option ℕ} {l : List Address} {b : Address}
    (hl : shares.lookup = update p.shares.lookup a o) (hb : b ≠ a) :
    held { p with shares, shareholders := l } b = p.held b := by
  change (shares.lookup b).getD 0 = _
  rw [hl,update_of_ne hb]
  rfl

theorem Holds.mem (h : Holds p total) (ha : p.shares.lookup a = some current) :
    a ∈ p.shareholders ∧ p.held a = current := by
  rw [h.keys,held,ha]
  exact ⟨rfl,rfl⟩

theorem Holds.set (h : Holds p total) (ha : p.shares.lookup a = some current)
    (hset : p.shares.set a n = .ok shares) (hn : n ≠ 0) (htotal : total' + current = total + n) :
    Holds { p with shares } total' := by
  obtain ⟨hmem,hheld⟩ := h.mem ha
  have hsum := sum_map_update_of_mem (f := p.held) (v := n) h.nodup hmem
  rw [h.sum] at hsum
  have hsum : (p.shareholders.map (update p.held a n)).sum = total' := by omega
  exact h.change (SimpleMap.set_ok hset).2 (fun h0 => hn (Option.some.inj h0)) h.nodup
    (iff_of_true hmem rfl) (fun _ _ => Iff.rfl) hsum h.limit

theorem addShares_holds (hadd : p.addShares a n = .ok (q,r)) (h : Holds p total) :
    Holds q (total + n) ∧ q.totalCoins = p.totalCoins ∧ q.totalShares = p.totalShares ∧
      ∀ b, b ≠ a → q.held b = p.held b := by
  rw [addShares,contains,SimpleMap.containsKey_eq] at hadd
  split_ifs at hadd with hin hpos
  · simp only [bind_eq_ok,SimpleMap.borrow_eq_ok,addChecked_eq_ok,pure_eq_ok,Prod.mk.injEq] at hadd
    obtain ⟨current,hcur,_,-,_,-,_,⟨-,rfl⟩,shares,hset,rfl,-⟩ := hadd
    have hpos : current ≠ 0 := fun h0 => h.positive a (h0 ▸ hcur)
    exact ⟨h.set hcur hset (by omega) (by omega),rfl,rfl,fun b => held_of_ne (SimpleMap.set_ok hset).2⟩
  · -- a new holder
    simp only [bind_eq_ok,ensure_eq_ok,pure_eq_ok,Prod.mk.injEq] at hadd
    obtain ⟨_,hlimit,shares,hset,rfl,-⟩ := hadd
    have ha : a ∉ p.shareholders := fun ha => hin ((h.keys a).mp ha)
    refine ⟨h.change (SimpleMap.add_ok hset).2 (fun h0 => hpos.ne' (Option.some.inj h0))
      (nodup_append.mpr ⟨h.nodup,nodup_singleton a,fun b hb c hc heq => ?_⟩)
      (iff_of_true (mem_append_right _ (mem_singleton_self a)) rfl) (fun b hb => ?_) ?_ ?_,rfl,rfl,
      fun b => held_of_ne (SimpleMap.add_ok hset).2⟩
    · exact ha (mem_singleton.mp hc ▸ heq ▸ hb)
    · rw [mem_append,mem_singleton,or_iff_left hb]
    · rw [map_append,sum_append,sum_map_update_of_notMem ha,h.sum,map_singleton,update_self]
      rfl
    · rw [length_append]
      exact hlimit
  · cases hadd
    obtain rfl : n = 0 := by omega
    exact ⟨h,rfl,rfl,fun _ _ => rfl⟩

theorem deductShares_holds (hded : p.deductShares a n = .ok (q,r)) (h : Holds p total) :
    (Holds q (total - n) ∧ n ≤ total) ∧ q.totalCoins = p.totalCoins ∧
      q.totalShares = p.totalShares ∧ ∀ b, b ≠ a → q.held b = p.held b := by
  simp only [deductShares,bind_eq_ok,SimpleMap.borrow_eq_ok,subChecked_eq_ok] at hded
  obtain ⟨_,-,_,-,_,-,current,hcur,_,⟨hle,rfl⟩,shares,hset,hded⟩ := hded
  obtain ⟨ha,hheld⟩ := h.mem hcur
  have hsum := h.sum
  rw [((perm_cons_erase ha).map p.held).sum_eq,map_cons,sum_cons] at hsum
  split_ifs at hded with hzero
  · -- all of the shares: the holder is taken out
    simp only [bind_eq_ok,pure_eq_ok,Prod.mk.injEq] at hded
    obtain ⟨rest,hrest,⟨shares',e⟩,hremove,rfl,-⟩ := hded
    rw [indexOf,if_pos ha,vectorRemove,if_pos (idxOf_lt_length_iff.mpr ha),
      eraseIdx_idxOf_eq_erase] at hrest
    cases hrest
    have hl : shares'.lookup = update p.shares.lookup a none := by
      rw [(SimpleMap.remove_ok hremove).2,(SimpleMap.set_ok hset).2,update_idem]
    have hrest : ((p.shareholders.erase a).map (update p.held a 0)).sum = total - n := by
      rw [sum_map_update_of_notMem h.nodup.not_mem_erase]
      omega
    exact ⟨⟨h.change hl (Option.some_ne_none 0).symm (h.nodup.erase a)
      (iff_of_false h.nodup.not_mem_erase Bool.false_ne_true)
      (fun _ => mem_erase_of_ne) hrest (length_erase_le.trans h.limit),by omega⟩,rfl,rfl,
      fun b => held_of_ne hl⟩
  · cases hded
    exact ⟨⟨h.set hcur hset hzero (by omega),by omega⟩,rfl,rfl,
      fun b => held_of_ne (SimpleMap.set_ok hset).2⟩

structure Sound (p : Pool) : Prop where
  holds : Holds p p.totalShares
  coins : p.totalCoins < 2 ^ 64
  shares : p.totalShares < 2 ^ 64

/-- Shares are not sold below their value. -/
theorem buyIn_price (hn : p.amountToShares r = .ok n) (hpos : 0 < p.totalShares) :
    p.totalCoins * (p.totalShares + n) ≤ (p.totalCoins + r) * p.totalShares := by
  rw [amountToShares,amountToSharesWithTotalCoins] at hn
  split_ifs at hn with hzero
  · rw [hzero.resolve_right hpos.ne',Nat.zero_mul]
    exact Nat.zero_le _
  · simp only [multiplyThenDivide,bind_eq_ok,mulChecked_eq_ok,divChecked_eq_ok,castChecked_eq_ok] at hn
    obtain ⟨_,⟨-,rfl⟩,_,⟨-,rfl⟩,-,rfl⟩ := hn
    have hle := Nat.mul_div_le (r * p.totalShares) p.totalCoins
    rw [Nat.mul_add,Nat.add_mul]
    omega

/-- Shares are not bought back above their value. -/
theorem redeemShares_price (hr : p.sharesToAmount n = .ok r) :
    p.totalCoins * (p.totalShares - n) ≤ (p.totalCoins - r) * p.totalShares := by
  have hle : p.totalShares * r ≤ n * p.totalCoins := by
    rw [sharesToAmount,sharesToAmountWithTotalCoins] at hr
    split_ifs at hr with hzero
    · cases hr
      exact Nat.zero_le _
    · simp only [multiplyThenDivide,bind_eq_ok,mulChecked_eq_ok,divChecked_eq_ok,
        castChecked_eq_ok] at hr
      obtain ⟨_,⟨-,rfl⟩,_,⟨-,rfl⟩,-,rfl⟩ := hr
      exact Nat.mul_div_le _ _
  rw [Nat.mul_comm] at hle
  rw [Nat.mul_sub,Nat.sub_mul,Nat.mul_comm p.totalCoins n]
  omega

/-- The holder `a` has no part in the call, and the coins are not set. -/
def LeavesOut (a : Address) : Op → Prop
  | .buyIn b _ => a ≠ b
  | .redeemShares b _ => a ≠ b
  | .transferShares b c _ => a ≠ b ∧ a ≠ c
  | .updateTotalCoins _ => False

/-- What a call does to the pool as a whole and to those who have no part in it. -/
structure Steps (p q : Pool) (o : Op) : Prop where
  sound : Sound q
  price : (∀ coins, o ≠ .updateTotalCoins coins) → 0 < p.totalShares →
    p.totalCoins * q.totalShares ≤ q.totalCoins * p.totalShares
  held : ∀ a, LeavesOut a o → q.held a = p.held a

theorem step_spec {o : Op} (h : Sound p) (hstep : p.step o = .ok q) : Steps p q o := by
  cases o with
  | buyIn a amount =>
    simp only [step,map_eq_ok,buyIn] at hstep
    obtain ⟨⟨q',_⟩,hbuy,rfl⟩ := hstep
    split_ifs at hbuy
    · cases hbuy
      exact ⟨h,fun _ _ => le_rfl,fun _ _ => rfl⟩
    · simp only [bind_eq_ok,addChecked_eq_ok,pure_eq_ok,Prod.mk.injEq] at hbuy
      obtain ⟨n,hn,_,-,_,-,_,-,_,-,_,⟨hcoins,rfl⟩,_,⟨hshares,rfl⟩,⟨q,_⟩,hadd,rfl,-⟩ := hbuy
      obtain ⟨hholds,hc,hs,hheld⟩ := addShares_holds hadd { h.holds with }
      refine ⟨⟨hs ▸ hholds,hc ▸ hcoins,hs ▸ hshares⟩,fun _ hpos => ?_,hheld⟩
      rw [hc,hs]
      exact buyIn_price hn hpos
  | redeemShares a n =>
    simp only [step,map_eq_ok,redeemShares,bind_eq_ok] at hstep
    obtain ⟨⟨q',_⟩,⟨_,-,_,-,_,-,hredeem⟩,rfl⟩ := hstep
    split_ifs at hredeem
    · cases hredeem
      exact ⟨h,fun _ _ => le_rfl,fun _ _ => rfl⟩
    · simp only [bind_eq_ok,subChecked_eq_ok,pure_eq_ok,Prod.mk.injEq] at hredeem
      obtain ⟨_,hr,_,⟨-,rfl⟩,_,⟨-,rfl⟩,⟨q,_⟩,hded,rfl,-⟩ := hredeem
      obtain ⟨⟨hholds,-⟩,hc,hs,hheld⟩ := deductShares_holds hded { h.holds with }
      refine ⟨⟨hs ▸ hholds,hc ▸ (Nat.sub_le _ _).trans_lt h.coins,
        hs ▸ (Nat.sub_le _ _).trans_lt h.shares⟩,fun _ _ => ?_,hheld⟩
      rw [hc,hs]
      exact redeemShares_price hr
  | transferShares a b n =>
    simp only [step,transferShares,bind_eq_ok] at hstep
    obtain ⟨_,-,_,-,_,-,hstep⟩ := hstep
    split_ifs at hstep
    · cases hstep
      exact ⟨h,fun _ _ => le_rfl,fun _ _ => rfl⟩
    · simp only [bind_eq_ok,pure_eq_ok] at hstep
      obtain ⟨⟨m,_⟩,hded,⟨q,_⟩,hadd,rfl⟩ := hstep
      obtain ⟨⟨hmid,hle⟩,hc,hs,hheld⟩ := deductShares_holds hded h.holds
      obtain ⟨hholds,hc',hs',hheld'⟩ := addShares_holds hadd hmid
      rw [Nat.sub_add_cancel hle] at hholds
      rw [hc] at hc'
      rw [hs] at hs'
      refine ⟨⟨hs' ▸ hholds,hc' ▸ h.coins,hs' ▸ h.shares⟩,fun _ _ => ?_,
        fun c hne => (hheld' c hne.2).trans (hheld c hne.1)⟩
      rw [hc',hs']
  | updateTotalCoins coins =>
    cases hstep
    exact ⟨⟨{ h.holds with },coins.toNat_lt,h.shares⟩,fun h => absurd rfl (h coins),fun _ => False.elim⟩

theorem sharesOf_eq : p.sharesOf a = .ok (p.held a) := by
  rw [sharesOf,contains,SimpleMap.containsKey_eq,held]
  cases hl : p.shares.lookup a with
  | none => rfl
  | some n => exact SimpleMap.borrow_eq_ok.mpr hl

theorem Sound.held_le (h : Sound p) : p.held a ≤ p.totalShares := by
  by_cases ha : a ∈ p.shareholders
  · rw [← h.holds.sum]
    exact single_le_sum (fun _ _ => Nat.zero_le _) _ (mem_map_of_mem ha)
  · have hnone : p.shares.lookup a = none := by
      rw [← Option.not_isSome_iff_eq_none]
      exact fun hsome => ha ((h.holds.keys a).mpr hsome)
    rw [held,hnone]
    exact Nat.zero_le _

theorem Sound.balance_eq (h : Sound p) :
    p.balance a = .ok (p.held a * p.totalCoins / p.totalShares) := by
  rw [balance,sharesOf_eq,ok_bind,sharesToAmount,sharesToAmountWithTotalCoins]
  split_ifs with hzero
  · rcases hzero with hzero | hzero
    · rw [hzero,Nat.mul_zero,Nat.zero_div]
      rfl
    · rw [hzero,Nat.div_zero]
      rfl
  · have hle : p.held a * p.totalCoins / p.totalShares ≤ p.totalCoins :=
      Nat.div_le_of_le_mul (Nat.mul_le_mul_right _ h.held_le)
    have hlt : p.held a * p.totalCoins < 2 ^ 128 :=
      (Nat.mul_lt_mul'' (h.held_le.trans_lt h.shares) h.coins).trans_eq (pow_add 2 64 64).symm
    rw [multiplyThenDivide,mulChecked_of_lt hlt,ok_bind,divChecked,if_pos (fun h0 => hzero (.inr h0)),
      ok_bind]
    exact castChecked_of_lt (hle.trans_lt h.coins)

theorem sound_of_reachable {shareholdersLimit scalingFactor : ℕ}
    (h : Reachable step (createWithScalingFactor shareholdersLimit scalingFactor) p) : Sound p :=
  h.invariant ⟨⟨nodup_nil,fun _ => ⟨nofun,nofun⟩,nofun,rfl,Nat.zero_le _⟩,Nat.two_pow_pos 64,
    Nat.two_pow_pos 64⟩ fun _ _ _ hs hstep => (step_spec hs hstep).sound

/-- The vector and the map hold the same holders, each with some shares, which add up to the total;
the balances do not add up to more than the coins. -/
structure Consistent (p : Pool) : Prop where
  totalShares : ∃ shares, p.shareholders.mapM p.sharesOf = .ok shares ∧ p.totalShares = shares.sum
  nodup : p.shareholders.Nodup
  keys : ∀ a, a ∈ p.shareholders ↔ a ∈ p.shares.data.map Prod.fst
  positive : ∀ e ∈ p.shares.data, 0 < e.2
  limit : p.shareholders.length ≤ p.shareholdersLimit
  balances : ∃ balances, p.shareholders.mapM p.balance = .ok balances ∧
    balances.sum ≤ p.totalCoins

/-- A pool stays consistent whatever is done with it. -/
theorem consistent_of_reachable {shareholdersLimit scalingFactor : ℕ}
    (h : Reachable step (createWithScalingFactor shareholdersLimit scalingFactor) p) :
    p.Consistent := by
  have hs := sound_of_reachable h
  refine ⟨⟨_,mapM_ok fun _ _ => sharesOf_eq,hs.holds.sum.symm⟩,hs.holds.nodup,fun a => ?_,
    fun e he => ?_,hs.holds.limit,_,mapM_ok fun _ _ => hs.balance_eq,?_⟩
  · rw [hs.holds.keys,Option.isSome_iff_ne_none,Ne,SimpleMap.lookup_eq_none,not_not]
  · exact Nat.pos_of_ne_zero fun h0 => hs.holds.positive e.1 (SimpleMap.lookup_eq_some.mpr (h0 ▸ he))
  · refine (sum_div_le p.shareholders p.held p.totalCoins p.totalShares).trans ?_
    rw [hs.holds.sum]
    exact Nat.div_le_of_le_mul le_rfl

def samplePool : Pool := ⟨2,1868,934,⟨[(1,500),(2,434)],by decide⟩,[1,2],1⟩

theorem reachable_samplePool : Reachable step (create 2) samplePool :=
  .of_exec (show exec step (create 2) [.buyIn 1 1000,.updateTotalCoins 2000,.buyIn 2 300,
    .transferShares 1 2 400,.redeemShares 1 100,.redeemShares 2 116] = .ok samplePool by decide)

theorem consistent_of_reachable_sample : samplePool.Consistent :=
  consistent_of_reachable reachable_samplePool

/-- The value of a holder's shares does not fall with a call of others. -/
theorem Steps.balance_le {o : Op} (h : Steps p q o) (hp : Sound p) (hout : LeavesOut a o) :
    p.held a * p.totalCoins / p.totalShares ≤ q.held a * q.totalCoins / q.totalShares := by
  rw [h.held a hout]
  rcases Nat.eq_zero_or_pos (p.held a) with hzero | hpos
  · rw [hzero,Nat.zero_mul,Nat.zero_div]
    exact Nat.zero_le _
  · have hS := hpos.trans_le hp.held_le
    have hS' : 0 < q.totalShares := hpos.trans_le (h.held a hout ▸ h.sound.held_le)
    have hprice := h.price (fun coins ho => by rw [ho] at hout; exact hout) hS
    rw [Nat.le_div_iff_mul_le hS',← Nat.mul_le_mul_right_iff hS]
    calc p.held a * p.totalCoins / p.totalShares * q.totalShares * p.totalShares
        = p.held a * p.totalCoins / p.totalShares * p.totalShares * q.totalShares :=
          Nat.mul_right_comm _ _ _
      _ ≤ p.held a * p.totalCoins * q.totalShares := Nat.mul_le_mul_right _ (Nat.div_mul_le_self _ _)
      _ ≤ p.held a * q.totalCoins * p.totalShares := by
        rw [Nat.mul_assoc,Nat.mul_assoc]
        exact Nat.mul_le_mul_left _ hprice

/-- The value of a share never falls but by a change of the coins, nor do the balances of those who
have no part in the calls. -/
theorem share_value_kept {shareholdersLimit scalingFactor : ℕ}
    (h : Reachable step (createWithScalingFactor shareholdersLimit scalingFactor) p) :
    (∀ o, (∀ coins, o ≠ .updateTotalCoins coins) → 0 < p.totalShares → p.step o = .ok q →
      p.totalCoins * q.totalShares ≤ q.totalCoins * p.totalShares) ∧
    ∀ a, Reached step (fun _ => LeavesOut a) p q →
      ∃ n n', p.balance a = .ok n ∧ q.balance a = .ok n' ∧ n ≤ n' := by
  have hs := sound_of_reachable h
  refine ⟨fun o ho hpos hstep => (step_spec hs hstep).price ho hpos,fun a hreached => ?_⟩
  obtain ⟨hq,hle⟩ := hreached.invariant (I := fun q => Sound q ∧
      p.held a * p.totalCoins / p.totalShares ≤ q.held a * q.totalCoins / q.totalShares)
    ⟨hs,le_rfl⟩ fun q o q' ⟨hq,hle⟩ hout hstep =>
      have hsteps := step_spec hq hstep
      ⟨hsteps.sound,hle.trans (hsteps.balance_le hq hout)⟩
  exact ⟨_,_,hs.balance_eq,hq.balance_eq,hle⟩

theorem share_value_kept_sample : ∃ q n n', samplePool.step (.redeemShares 1 49) = .ok q ∧
    samplePool.balance 2 = .ok n ∧ q.balance 2 = .ok n' ∧ n ≤ n' := by
  have hstep := eq_ok_of_isSome (x := samplePool.step (.redeemShares 1 49)) (by decide) samplePool
  obtain ⟨n,n',h⟩ := (share_value_kept reachable_samplePool).2 2
    (.tail (.redeemShares 1 49) .refl (show (2 : Address) ≠ 1 by decide) hstep)
  exact ⟨_,n,n',hstep,h⟩

end Pool

end Arx.PoolU64
