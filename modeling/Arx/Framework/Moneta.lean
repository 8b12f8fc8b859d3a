import Arx.Framework.LiquidityPool
import Arx.Framework.Subsidialis

/-!
# `arx::moneta`

For a shortage of `ARX` in the pool the moneta is to mint, and the subsidialis is to hand the mints
out to its members in proportion to their active lux.
-/

namespace Arx
open Movelib Function List

namespace State

/-- The loop of `distribute_mints`: the share of a member is taken of what is left in the pot. -/
def distributeShares (c : CoinType) (totalPower : ℕ) :
    SolarisStorage → ℕ → List Address → Result (SolarisStorage × ℕ)
  | st, coins, [] => .ok (st, coins)
  | st, coins, a :: members => do
    let fraction ← Uq64x64.fraction (st.getActiveLuxValue c a) totalPower
    let activeLuxShare ← Uq64x64.decode fraction
    let coinShare ← mulChecked 64 activeLuxShare coins
    let (coins, share) ← Coin.extract coins coinShare
    let store ← Coin.deposit (st.stores .arxCoin a) share
    distributeShares c totalPower (st.putStore .arxCoin a store) coins members

def distributeMints (s : State) (c : CoinType) (coins : ℕ) : Result State := do
  let totalPower ← castChecked 64 s.subsidialis.totalActivePower
  let (solaris, coins) ← distributeShares c totalPower s.solaris coins s.subsidialis.active
  Coin.destroyZero coins
  pure { s with solaris }

/-- The coin type is not looked at. -/
def getTotalActivePower (s : State) (_ : CoinType) : ℕ := s.subsidialis.totalActivePower

def arxBalance (s : State) (a : Address) : ℕ := (s.solaris.stores .arxCoin a).elim 0 CoinStore.coin

def putWallet (s : State) (a : Address) (store : CoinStore) : State :=
  { s with solaris := s.solaris.putStore .arxCoin a store }

end State

def SolarisStorage.Receives (st : SolarisStorage) (a : Address) (n : ℕ) : Prop :=
  ∃ store, st.stores .arxCoin a = some store ∧ store.frozen = false ∧ store.coin + n < 2 ^ 64

namespace State

variable {s : State} {st : SolarisStorage} {c : CoinType} {a : Address} {total coins : ℕ}
  {front : List Address}

theorem distributeShares_cons (members : List Address) {r : SolarisStorage × ℕ} (htotal : total ≠ 0)
    (hlux : st.getActiveLuxValue c a < 2 ^ 64) :
    distributeShares c total st coins (a :: members) = .ok r ↔
      ∃ store, st.stores .arxCoin a = some store ∧ store.frozen = false ∧
        store.coin + st.getActiveLuxValue c a / total * coins < 2 ^ 64 ∧
        st.getActiveLuxValue c a / total * coins ≤ coins ∧
        distributeShares c total (st.putStore .arxCoin a
          { store with coin := store.coin + st.getActiveLuxValue c a / total * coins })
          (coins - st.getActiveLuxValue c a / total * coins) members = .ok r := by
  obtain ⟨uq,huq,hdecode⟩ := Uq64x64.fraction_decode_eq_ok.mpr
    ⟨htotal,Uq64x64.mul_Q64_lt hlux,(Nat.div_le_self ..).trans_lt hlux,rfl⟩
  rw [distributeShares,huq,ok_bind,hdecode,ok_bind]
  simp only [bind_eq_ok,mulChecked_eq_ok,Coin.extract_eq_ok,Coin.deposit_eq_ok]
  constructor
  · rintro ⟨_,⟨-,rfl⟩,_,⟨hle,rfl⟩,_,⟨store,hstore,hfrozen,hroom,rfl⟩,hrest⟩
    exact ⟨store,hstore,hfrozen,hroom,hle,hrest⟩
  · rintro ⟨store,hstore,hfrozen,hroom,hle,hrest⟩
    exact ⟨_,⟨by omega,rfl⟩,_,⟨hle,rfl⟩,_,⟨store,hstore,hfrozen,hroom,rfl⟩,hrest⟩

/-- Members without a share leave all as it is, but need a wallet that is open. -/
theorem distributeShares_idle (members : List Address) {r : SolarisStorage × ℕ} (htotal : total ≠ 0)
    (h : ∀ a ∈ front, st.getActiveLuxValue c a < 2 ^ 64 ∧
      st.getActiveLuxValue c a / total * coins = 0) :
    distributeShares c total st coins (front ++ members) = .ok r ↔
      (∀ a ∈ front, st.Receives a 0) ∧ distributeShares c total st coins members = .ok r := by
  induction front with
  | nil => simp
  | cons a front ih =>
    obtain ⟨hlux,hzero⟩ := h a mem_cons_self
    have hsame : ∀ {store}, st.stores .arxCoin a = some store → st.putStore .arxCoin a store = st := by
      intro store hstore
      rw [SolarisStorage.putStore,← hstore,update_eq_self,update_eq_self]
    rw [cons_append,distributeShares_cons _ htotal hlux,forall_mem_cons,and_assoc,
      ← ih fun b hb => h b (mem_cons_of_mem a hb)]
    simp only [hzero,Nat.add_zero,Nat.sub_zero,Nat.zero_le,true_and]
    constructor
    · rintro ⟨store,hstore,hfrozen,hroom,hrest⟩
      exact ⟨⟨store,hstore,hfrozen,hroom⟩,by rwa [hsame hstore] at hrest⟩
    · rintro ⟨⟨store,hstore,hfrozen,hroom⟩,hrest⟩
      exact ⟨store,hstore,hfrozen,hroom,by rwa [hsame hstore]⟩

theorem distributeMints_eq_ok {t : State} : s.distributeMints c coins = .ok t ↔
    s.subsidialis.totalActivePower < 2 ^ 64 ∧ ∃ solaris,
      distributeShares c s.subsidialis.totalActivePower s.solaris coins s.subsidialis.active =
        .ok (solaris,0) ∧ { s with solaris } = t := by
  simp only [distributeMints,bind_eq_ok,castChecked_eq_ok,Coin.destroyZero_eq_ok,pure_eq_ok]
  constructor
  · rintro ⟨_,⟨hlt,rfl⟩,⟨solaris,_⟩,hshares,_,rfl,rfl⟩
    exact ⟨hlt,solaris,hshares,rfl⟩
  · rintro ⟨hlt,solaris,hshares,rfl⟩
    exact ⟨_,⟨hlt,rfl⟩,_,hshares,(),rfl,rfl⟩

theorem distributeMints_idle {t : State} (htotal : s.subsidialis.totalActivePower ≠ 0)
    (h : ∀ a ∈ s.subsidialis.active, s.solaris.getActiveLuxValue c a < 2 ^ 64 ∧
      s.solaris.getActiveLuxValue c a / s.subsidialis.totalActivePower * coins = 0) :
    s.distributeMints c coins = .ok t ↔ s.subsidialis.totalActivePower < 2 ^ 64 ∧
      (∀ a ∈ s.subsidialis.active, s.solaris.Receives a 0) ∧ coins = 0 ∧ s = t := by
  have hloop : ∀ r, _ ↔ _ := fun r => distributeShares_idle (r := r) [] htotal h
  simp only [append_nil] at hloop
  simp only [distributeMints_eq_ok,hloop,distributeShares,Except.ok.injEq,Prod.mk.injEq]
  constructor
  · rintro ⟨hlt,_,⟨hopen,rfl,hzero⟩,rfl⟩
    exact ⟨hlt,hopen,hzero,rfl⟩
  · rintro ⟨hlt,hopen,hzero,rfl⟩
    exact ⟨hlt,_,⟨hopen,rfl,hzero⟩,rfl⟩

theorem distributeMints_whole {back : List Address} {t : State}
    (hactive : s.subsidialis.active = front ++ a :: back)
    (ha : s.solaris.getActiveLuxValue c a = s.subsidialis.totalActivePower)
    (hpos : 0 < s.subsidialis.totalActivePower) (hlt : s.subsidialis.totalActivePower < 2 ^ 64)
    (hzero : ∀ b ∈ front ++ back, s.solaris.getActiveLuxValue c b = 0) :
    s.distributeMints c coins = .ok t ↔ (∀ b ∈ front ++ back, s.solaris.Receives b 0) ∧
      ∃ store, s.solaris.stores .arxCoin a = some store ∧ store.frozen = false ∧
        store.coin + coins < 2 ^ 64 ∧
        s.putWallet a { store with coin := store.coin + coins } = t := by
  have hidle : ∀ n, ∀ b ∈ front ++ back, s.solaris.getActiveLuxValue c b < 2 ^ 64 ∧
      s.solaris.getActiveLuxValue c b / s.subsidialis.totalActivePower * n = 0 := by
    intro n b hb
    rw [hzero b hb,Nat.zero_div,Nat.zero_mul]
    exact ⟨by decide,rfl⟩
  have hone : s.solaris.getActiveLuxValue c a / s.subsidialis.totalActivePower * coins = coins := by
    rw [ha,Nat.div_self hpos,Nat.one_mul]
  -- Those after `a` find an empty pot and wallets that the payment has not touched.
  have hback : ∀ (store : CoinStore) r, distributeShares c s.subsidialis.totalActivePower
      (s.solaris.putStore .arxCoin a store) 0 back = .ok r ↔
      (∀ b ∈ back, s.solaris.Receives b 0) ∧ (s.solaris.putStore .arxCoin a store,0) = r := by
    intro store r
    have hloop : distributeShares c s.subsidialis.totalActivePower
        (s.solaris.putStore .arxCoin a store) 0 (back ++ []) = .ok r ↔ _ :=
      distributeShares_idle [] hpos.ne' fun b hb => hidle 0 b (mem_append_right front hb)
    rw [append_nil] at hloop
    rw [hloop,distributeShares,Except.ok.injEq]
    refine and_congr_left fun _ => forall₂_congr fun b hb => ?_
    have hne : b ≠ a := by
      rintro rfl
      have hb := hzero b (mem_append_right front hb)
      omega
    simp [SolarisStorage.Receives,SolarisStorage.putStore,hne]
  rw [distributeMints_eq_ok,hactive]
  simp only [distributeShares_idle (a :: back) hpos.ne' fun b hb =>
    hidle coins b (mem_append_left back hb),distributeShares_cons back hpos.ne' (ha ▸ hlt),hone,
    Nat.sub_self,hback,forall_mem_append]
  constructor
  · rintro ⟨-,_,⟨hfront,store,hstore,hfrozen,hroom,-,hopen,heq⟩,rfl⟩
    cases heq
    exact ⟨⟨hfront,hopen⟩,store,hstore,hfrozen,hroom,rfl⟩
  · rintro ⟨⟨hfront,hopen⟩,store,hstore,hfrozen,hroom,rfl⟩
    exact ⟨hlt,_,⟨hfront,store,hstore,hfrozen,hroom,le_rfl,hopen,rfl⟩,rfl⟩

/-- The mints are handed out in full and, up to one coin for each member, in proportion if and only
if there are none or one member has all of the active power, and every member has an open wallet with
room for what it gets: every other share rounds down to zero. -/
theorem distributeMints_proportional_iff (s : State) (c : CoinType) (amount : ℕ)
    (hsum : (s.subsidialis.active.map (s.solaris.getActiveLuxValue c)).sum =
      s.subsidialis.totalActivePower)
    (hpos : 0 < s.subsidialis.totalActivePower) (hlt : s.subsidialis.totalActivePower < 2 ^ 64) :
    (∃ t, s.distributeMints c amount = .ok t ∧
      (∀ a ∈ s.subsidialis.active,
        (t.arxBalance a - s.arxBalance a) * s.subsidialis.totalActivePower ≤
          amount * s.solaris.getActiveLuxValue c a +
            s.subsidialis.active.length * s.subsidialis.totalActivePower ∧
        amount * s.solaris.getActiveLuxValue c a ≤ (t.arxBalance a - s.arxBalance a +
          s.subsidialis.active.length) * s.subsidialis.totalActivePower) ∧
      ∑ a ∈ s.subsidialis.active.toFinset, (t.arxBalance a - s.arxBalance a) = amount) ↔
    (amount = 0 ∨ ∃ a ∈ s.subsidialis.active,
      s.solaris.getActiveLuxValue c a = s.subsidialis.totalActivePower) ∧
      ∀ a ∈ s.subsidialis.active, s.solaris.Receives a
        (if s.solaris.getActiveLuxValue c a = s.subsidialis.totalActivePower then amount else 0) := by
  have hle : ∀ a ∈ s.subsidialis.active,
      s.solaris.getActiveLuxValue c a ≤ s.subsidialis.totalActivePower := fun a ha =>
    hsum ▸ le_sum_of_mem (mem_map_of_mem ha)
  by_cases hwhole : ∃ a ∈ s.subsidialis.active,
      s.solaris.getActiveLuxValue c a = s.subsidialis.totalActivePower
  · obtain ⟨a,ha,hall⟩ := hwhole
    obtain ⟨front,back,hactive⟩ := append_of_mem ha
    have hzero : ∀ b ∈ front ++ back, s.solaris.getActiveLuxValue c b = 0 := by
      rw [hactive,map_append,map_cons,sum_append,sum_cons] at hsum
      have hnone : ((front ++ back).map (s.solaris.getActiveLuxValue c)).sum = 0 := by
        rw [map_append,sum_append]
        omega
      exact fun b hb => sum_eq_zero_iff.mp hnone _ (mem_map_of_mem hb)
    have hmem : ∀ b, b ∈ s.subsidialis.active ↔ b = a ∨ b ∈ front ++ back := by
      intro b
      rw [hactive,mem_append,mem_cons,mem_append]
      tauto
    have hopen : (∀ b ∈ s.subsidialis.active, s.solaris.Receives b
        (if s.solaris.getActiveLuxValue c b = s.subsidialis.totalActivePower then amount else 0)) ↔
        (∀ b ∈ front ++ back, s.solaris.Receives b 0) ∧ s.solaris.Receives a amount := by
      simp only [hmem,forall_eq_or_imp,hall,if_true]
      rw [and_comm]
      refine and_congr_left fun _ => forall₂_congr fun b hb => ?_
      rw [hzero b hb,if_neg hpos.ne]
    rw [hopen,and_iff_right (.inr ⟨a,ha,hall⟩)]
    simp only [distributeMints_whole hactive hall hpos hlt hzero]
    constructor
    · rintro ⟨t,⟨hothers,store,hstore,hfrozen,hroom,-⟩,-⟩
      exact ⟨hothers,store,hstore,hfrozen,hroom⟩
    · rintro ⟨hothers,store,hstore,hfrozen,hroom⟩
      refine ⟨_,⟨hothers,store,hstore,hfrozen,hroom,rfl⟩,?_⟩
      have hgain : ∀ b, (s.putWallet a { store with coin := store.coin + amount }).arxBalance b -
          s.arxBalance b = if b = a then amount else 0 := by
        intro b
        by_cases hb : b = a
        · simp [arxBalance,putWallet,SolarisStorage.putStore,hb,hstore]
        · simp [arxBalance,putWallet,SolarisStorage.putStore,hb]
      simp only [hgain]
      constructor
      · intro b hb
        by_cases hba : b = a
        · rw [if_pos hba,hba,hall,Nat.add_mul]
          exact ⟨Nat.le_add_right _ _,Nat.le_add_right _ _⟩
        · rw [if_neg hba,hzero b (((hmem b).mp hb).resolve_left hba)]
          simp
      · rw [Finset.sum_ite_eq',if_pos (mem_toFinset.mpr ha)]
  · -- all shares round down to zero
    have hless : ∀ a ∈ s.subsidialis.active,
        s.solaris.getActiveLuxValue c a < s.subsidialis.totalActivePower := fun a ha =>
      lt_of_le_of_ne (hle a ha) fun h => hwhole ⟨a,ha,h⟩
    have hidle : ∀ a ∈ s.subsidialis.active, s.solaris.getActiveLuxValue c a < 2 ^ 64 ∧
        s.solaris.getActiveLuxValue c a / s.subsidialis.totalActivePower * amount = 0 := by
      intro a ha
      rw [Nat.div_eq_of_lt (hless a ha),Nat.zero_mul]
      exact ⟨(hless a ha).trans hlt,rfl⟩
    have hopen : (∀ a ∈ s.subsidialis.active, s.solaris.Receives a
        (if s.solaris.getActiveLuxValue c a = s.subsidialis.totalActivePower then amount else 0)) ↔
        ∀ a ∈ s.subsidialis.active, s.solaris.Receives a 0 :=
      forall₂_congr fun a ha => by rw [if_neg (hless a ha).ne]
    rw [hopen,or_iff_left hwhole]
    simp only [distributeMints_idle hpos.ne' hidle]
    constructor
    · rintro ⟨t,⟨-,hothers,hzero,-⟩,-⟩
      exact ⟨hzero,hothers⟩
    · rintro ⟨rfl,hothers⟩
      exact ⟨s,⟨hlt,hothers,rfl,rfl⟩,by simp,by simp⟩

def twoDomini (lux lux' : ℕ) : State where
  solaris :=
    { solarii := fun _ => update (update (fun _ => none) 1
        (some { Solaris.empty with activeLux := lux })) 2
        (some { Solaris.empty with activeLux := lux' })
      formae := fun _ => none
      stores := fun _ _ => some ⟨0,false⟩
      luxSupply := 0
      noxSupply := 0 }
  subsidialis := ⟨[1,2],[],[],lux + lux',0⟩
  epoch := 0

/-- One of two members has all of the power. -/
theorem distributeMints_proportional_whole :
    ∃ t, (twoDomini 5 0).distributeMints .arxCoin 10 = .ok t ∧
      ∑ a ∈ ({1,2} : Finset Address), (t.arxBalance a - (twoDomini 5 0).arxBalance a) = 10 := by
  obtain ⟨t,ht,-,hsum⟩ := (distributeMints_proportional_iff (twoDomini 5 0) .arxCoin 10 rfl (by decide)
    (by decide)).mpr ⟨.inr ⟨1,by decide,rfl⟩,fun a _ => ⟨⟨0,false⟩,rfl,rfl,by split <;> decide⟩⟩
  exact ⟨t,ht,hsum⟩

/-- Two members with equal power: nothing is handed out, and the call aborts. -/
theorem distributeMints_aborts : ((twoDomini 1 1).distributeMints .arxCoin 10).isOk = false := rfl

end State

/-- The resources of `moneta::on_new_epoch`: the pool of `ARX` and `XUSD`, the subsidialis with its
wallets, and the supply of `ARX`. -/
structure MonetaState where
  pool : LiquidityPool
  state : State
  supply : ℕ

namespace MonetaState

def calculateMintShares (delta : Delta) : ℕ × ℕ := (delta.value / 2,delta.value / 2)

def calculateSubsidialisMints (s : State) (shareOfMints : ℕ) : Result (ℕ × ℕ) := do
  let arxPower := s.getTotalActivePower .arxCoin
  let lpPower := s.getTotalActivePower .lpArxXusdStable
  let combinedPower ← addChecked 128 arxPower lpPower
  let arxFraction ← Uq64x64.fraction128128 arxPower combinedPower
  let arxPowerFraction ← Uq64x64.decode arxFraction
  let lpFraction ← Uq64x64.fraction128128 lpPower combinedPower
  let lpPowerFraction ← Uq64x64.decode lpFraction
  let arxMints ← mulChecked 64 arxPowerFraction shareOfMints
  let lpMints ← mulChecked 64 lpPowerFraction shareOfMints
  pure (arxMints, lpMints)

/-- The branch for a positive delta. -/
def mintAndDistribute (m : MonetaState) (delta : Delta) : Result MonetaState := do
  let (subsidialisShare, _) := calculateMintShares delta
  let (arxMints, lpMints) ← calculateSubsidialisMints m.state subsidialisShare
  let (supply, arxCoins) ← Coin.mint m.supply arxMints
  let (supply, lpCoins) ← Coin.mint supply lpMints
  let state ← m.state.distributeMints .arxCoin arxCoins
  let state ← state.distributeMints .lpArxXusdStable lpCoins
  pure { m with state, supply }

/-- `on_new_epoch`. The tests are on the value of the delta, not on its sign. -/
def onNewEpoch (m : MonetaState) : Result MonetaState := do
  let delta ← m.pool.getLastEpochDelta
  if delta.value = 1 then m.mintAndDistribute delta
  else if delta.value = 2 then pure m
  else pure m

def Distributes (m : MonetaState) : Prop :=
  0 < m.state.subsidialis.totalActivePower ∧ m.state.subsidialis.totalActivePower < 2 ^ 64 ∧
    ∀ a ∈ m.state.subsidialis.active, m.state.solaris.Receives a 0

variable {m : MonetaState} {delta : Delta}

/-- Without a share to distribute there are no mints, but there has to be some power. -/
theorem calculateSubsidialisMints_zero {s : State} {mints : ℕ × ℕ} :
    calculateSubsidialisMints s 0 = .ok mints →
      0 < s.subsidialis.totalActivePower ∧ mints = (0, 0) := by
  intro h
  simp only [calculateSubsidialisMints,bind_eq_ok,addChecked_eq_ok,Uq64x64.fraction128128,
    Uq64x64.fraction_eq_ok,mulChecked_eq_ok,pure_eq_ok,Nat.mul_zero] at h
  obtain ⟨_,⟨-,rfl⟩,_,⟨hne,-⟩,_,-,_,-,_,-,_,⟨-,rfl⟩,_,⟨-,rfl⟩,rfl⟩ := h
  rw [State.getTotalActivePower,State.getTotalActivePower] at hne
  exact ⟨by omega,rfl⟩

/-- Half of the total of both powers is less than one of them. -/
theorem calculateSubsidialisMints_eq {s : State} (hpos : 0 < s.subsidialis.totalActivePower)
    (hlt : s.subsidialis.totalActivePower < 2 ^ 64) (share : ℕ) :
    calculateSubsidialisMints s share = .ok (0, 0) := by
  obtain ⟨uq,huq,hdecode⟩ := Uq64x64.fraction_decode_eq_ok.mpr
    ⟨(Nat.add_pos_left hpos _).ne',Uq64x64.mul_Q64_lt hlt,(Nat.div_le_self ..).trans_lt hlt,
      Nat.div_eq_of_lt (Nat.lt_add_of_pos_left hpos)⟩
  simp only [calculateSubsidialisMints,State.getTotalActivePower,Uq64x64.fraction128128,
    addChecked_of_lt (w := 128) (show s.subsidialis.totalActivePower +
      s.subsidialis.totalActivePower < 2 ^ 128 by omega),ok_bind,huq,hdecode]
  simp [mulChecked]

theorem mintAndDistribute_eq_ok {m' : MonetaState} (hvalue : delta.value = 1)
    (hlux : ∀ c a, m.state.solaris.getActiveLuxValue c a < 2 ^ 64) :
    m.mintAndDistribute delta = .ok m' ↔ m.Distributes ∧ m = m' := by
  have hdistribute : 0 < m.state.subsidialis.totalActivePower → ∀ c t,
      (m.state.distributeMints c 0 = .ok t ↔ _) := fun hpos c t =>
    State.distributeMints_idle hpos.ne' fun a _ => ⟨hlux c a,rfl⟩
  constructor
  · intro h
    simp only [mintAndDistribute,calculateMintShares,hvalue,bind_eq_ok] at h
    obtain ⟨mints,hmints,h⟩ := h
    obtain ⟨hpos,rfl⟩ := calculateSubsidialisMints_zero hmints
    simp only [Coin.mint,if_true,Except.ok.injEq,pure_eq_ok] at h
    obtain ⟨_,rfl,_,rfl,t,ht,_,ht',rfl⟩ := h
    obtain ⟨hlt,hopen,-,rfl⟩ := (hdistribute hpos _ _).mp ht
    obtain ⟨-,-,-,rfl⟩ := (hdistribute hpos _ _).mp ht'
    exact ⟨⟨hpos,hlt,hopen⟩,rfl⟩
  · rintro ⟨⟨hpos,hlt,hopen⟩,rfl⟩
    simp only [mintAndDistribute,calculateSubsidialisMints_eq hpos hlt,ok_bind,Coin.mint,if_true,
      (hdistribute hpos _ _).mpr ⟨hlt,hopen,rfl,rfl⟩]
    rfl

theorem onNewEpoch_eq_ok {m' : MonetaState} (hdelta : m.pool.getLastEpochDelta = .ok delta)
    (hlux : ∀ c a, m.state.solaris.getActiveLuxValue c a < 2 ^ 64) :
    m.onNewEpoch = .ok m' ↔ (delta.value = 1 → m.Distributes) ∧ m = m' := by
  rw [onNewEpoch,hdelta,ok_bind]
  by_cases hvalue : delta.value = 1
  · rw [if_pos hvalue,mintAndDistribute_eq_ok hvalue hlux,forall_prop_of_true hvalue]
  · rw [if_neg hvalue,ite_self,pure_eq_ok,and_iff_right fun h => absurd h hvalue]

def reserves (x y : ℕ) : LiquidityPool := ⟨.stable,0,0,0,0,0,0,0,0,0,1,0,0,x,y,1,1,0⟩

end MonetaState

end Arx
