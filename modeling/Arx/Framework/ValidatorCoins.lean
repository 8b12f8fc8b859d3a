import Arx.Framework.ValidatorIndices
import Arx.Movelib.Totals

/-!
# Every staked coin is one of the supply

The coins of the stake locks, the coin stores and the fee table, and those in the hands of the
caller, add up to at most the supply of `ArxCoin`.
-/

namespace Arx
open Movelib Function Option

inductive Holder
  | lock (a : Address)
  | store (a : Address)
  | fee (a : Address)
  | hand
  deriving DecidableEq

namespace ValidatorStorage

variable {s t : ValidatorStorage} {n m : ℕ}

def holdings (s : ValidatorStorage) (n : ℕ) : Holder → ℕ
  | .lock a => (s.stakeLocks a).elim 0 StakeLock.value
  | .store a => (s.stores a).elim 0 CoinStore.coin
  | .fee a => (s.fees.bind (· a)).getD 0
  | .hand => n

def Covered (s : ValidatorStorage) (n : ℕ) : Prop := BoundedBy (s.holdings n) s.supply

theorem Covered.mono (h : s.Covered n) (hle : m ≤ n) : s.Covered m := by
  refine BoundedBy.mono h fun k => ?_
  cases k with
  | hand => exact hle
  | _ => exact le_rfl

theorem Covered.of_eq (h : s.Covered n) (hs : t.supply = s.supply)
    (hold : t.holdings m = s.holdings n) : t.Covered m := by
  rw [Covered,hs,hold]
  exact h

section

variable (s : ValidatorStorage) (n : ℕ) (a : Address)

theorem holdings_putLock (l : StakeLock) :
    (s.putLock a l).holdings n = update (s.holdings n) (.lock a) l.value := by
  refine eq_update_iff.mpr ⟨by simp [holdings,putLock],fun k hk => ?_⟩
  cases k with
  | lock b =>
    have hb : b ≠ a := fun hb => hk (hb ▸ rfl)
    simp [holdings,putLock,update_of_ne hb]
  | _ => rfl

theorem holdings_putStore (store : CoinStore) :
    { s with stores := update s.stores a (some store) }.holdings n =
      update (s.holdings n) (.store a) store.coin := by
  refine eq_update_iff.mpr ⟨by simp [holdings],fun k hk => ?_⟩
  cases k with
  | store b =>
    have hb : b ≠ a := fun hb => hk (hb ▸ rfl)
    simp [holdings,update_of_ne hb]
  | _ => rfl

theorem holdings_putFee {table : Address → Option ℕ} (htable : s.fees = some table)
    (fee : Option ℕ) :
    { s with fees := some (update table a fee) }.holdings n =
      update (s.holdings n) (.fee a) (fee.getD 0) := by
  refine eq_update_iff.mpr ⟨by simp [holdings],fun k hk => ?_⟩
  cases k with
  | fee b =>
    have hb : b ≠ a := fun hb => hk (hb ▸ rfl)
    simp [holdings,update_of_ne hb,htable]
  | _ => rfl

end

theorem Covered.exchange {k : Holder} {v : ℕ} (h : s.Covered n) (hk : k ≠ .hand)
    (hs : t.supply = s.supply) (hold : t.holdings m = update (s.holdings m) k v)
    (hsum : v + m = s.holdings n k + n) : t.Covered m := by
  have hother : ∀ j, j ≠ .hand → s.holdings m j = s.holdings n j := by
    intro j hj
    cases j <;> first | rfl | exact absurd rfl hj
  rw [Covered,hs,hold]
  refine BoundedBy.transfer h hk (fun j hjk hj => ?_) ?_
  · rw [update_of_ne hjk,hother j hj]
  · rw [update_self,update_of_ne hk.symm]
    exact hsum

theorem Covered.putLock {a : Address} {l : StakeLock} (h : s.Covered n)
    (hsum : l.value + m = (s.stakeLocks a).elim 0 StakeLock.value + n) : (s.putLock a l).Covered m :=
  h.exchange (k := .lock a) nofun rfl (holdings_putLock s m a l) hsum

end ValidatorStorage

open ValidatorStorage

variable {x y : ValidatorStorage × ℕ}

theorem QuietChange.covered (h : QuietChange x y) (hx : x.1.Covered x.2) : y.1.Covered y.2 := by
  cases h with
  | registry | ownerCap => exact hx.of_eq rfl (by funext k; cases k <;> rfl)
  | publish s n a hnone => exact hx.putLock (by simp [hnone,StakeLock.new,StakeLock.value])
  | move s n a l l' hl hv _ => exact hx.putLock (by simp [hl,hv])
  | unstake s n a l l' m hl hv _ =>
    refine hx.putLock ?_
    rw [hl,elim_some]
    omega
  | withdraw s n a store m hstore hle =>
    refine hx.exchange (k := .store a) (by rintro ⟨⟩) rfl (holdings_putStore s (n + m) a _) ?_
    simp only [holdings,hstore,elim_some]
    omega
  | deposit s n a store m hstore =>
    refine hx.exchange (k := .store a) (by rintro ⟨⟩) rfl (holdings_putStore s n a _) ?_
    simp only [holdings,hstore,elim_some]
    omega

theorem Change.covered (h : Change x y) (hx : x.1.Covered x.2) : y.1.Covered y.2 := by
  cases h with
  | quiet h => exact h.covered hx
  | stake s n a l l' m hl hv =>
    refine hx.putLock ?_
    rw [hl,elim_some]
    omega
  | mint s n m =>
    refine BoundedBy.move hx .hand (fun k hk => ?_) ?_
    · cases k <;> first | rfl | exact absurd rfl hk
    · simp only [holdings]
      omega
  | collect s n a table m htable ha =>
    refine hx.exchange (k := .fee a) nofun rfl (holdings_putFee s (n + m) a htable none) ?_
    simp only [holdings,htable,ha,bind_some,getD_some,getD_none]
    omega
  | set | config | flag => exact hx.of_eq rfl (by funext k; cases k <;> rfl)
  | openFees s n hnone =>
    refine hx.of_eq rfl ?_
    funext k
    cases k with
    | fee b => simp [holdings,hnone]
    | _ => rfl
  | credit s n a table m htable =>
    refine hx.exchange (k := .fee a) nofun rfl (holdings_putFee s n a htable _) ?_
    simp only [holdings,htable,bind_some,getD_some]
    omega

theorem Changes.covered (h : Changes x y) (hx : x.1.Covered x.2) : y.1.Covered y.2 := by
  induction h with
  | refl => exact hx
  | tail _ hc ih => exact hc.covered ih

namespace ValidatorStorage

variable {s t : ValidatorStorage} {pop : Bytes → Bytes → Bool} {o : ValidatorOp}

/-- The coins that come with a call exist, and other modules move the coins of the supply only. -/
def Backed (s : ValidatorStorage) : ValidatorOp → Prop
  | .lockStakeWithCap _ coins => s.Covered coins
  | .addTransactionFee _ fee => s.Covered fee
  | .wallets stores supply => { s with stores, supply }.Covered 0
  | _ => True

theorem step_covered (h : s.step pop o = .ok t) (hb : s.Backed o) (hs : s.Covered 0) :
    t.Covered 0 := by
  obtain ⟨m,hc⟩ | ⟨stores,supply,rfl⟩ := step_changes h
  · have hbrings : s.Covered (0 + o.brings) := by
      rw [Nat.zero_add]
      cases o <;> first | exact hs | exact hb
    exact (Changes.covered (hc 0) hbrings).mono (Nat.zero_le _)
  · cases h
    exact hb

theorem genesis_covered {config : ValidationConfig} {stores : Address → Option CoinStore}
    {supply : ℕ} (h : BoundedBy (fun a => (stores a).elim 0 CoinStore.coin) supply) :
    (genesis config stores supply).Covered 0 := by
  have hinj : Function.Injective Holder.store := fun _ _ h => Holder.store.inj h
  refine BoundedBy.of_injective hinj h fun k hk => ?_
  cases k with
  | store a => exact absurd ⟨a,rfl⟩ hk
  | _ => rfl

theorem Covered.stake_le (h : s.Covered n) (pools : Finset Address) {w : Address → ℕ}
    (hw : ∀ a ∈ pools, ∃ l, s.stakeLocks a = some l ∧ w a ≤ l.nonInactive) :
    ∑ a ∈ pools, w a ≤ s.supply := by
  have hinj : Function.Injective Holder.lock := fun _ _ h => Holder.lock.inj h
  have hle := h (pools.map ⟨Holder.lock,hinj⟩)
  rw [Finset.sum_map] at hle
  refine (Finset.sum_le_sum fun a ha => ?_).trans hle
  obtain ⟨l,hl,hwl⟩ := hw a ha
  simp only [Function.Embedding.coeFn_mk,holdings,hl,elim_some]
  refine hwl.trans ?_
  simp only [StakeLock.nonInactive,StakeLock.value]
  omega

def purse : ValidatorStorage :=
  genesis .small (update (fun _ => none) 1 (some ⟨100,false⟩)) 100

theorem purse_bounded : BoundedBy (fun a => (purse.stores a).elim 0 CoinStore.coin) 100 := by
  refine (BoundedBy.zero 0).move 1 (fun a ha => ?_) rfl
  show Option.elim (update (fun _ => none) 1 (some ⟨100,false⟩) a) 0 CoinStore.coin = 0
  rw [update_of_ne ha]
  rfl

end ValidatorStorage

end Arx
