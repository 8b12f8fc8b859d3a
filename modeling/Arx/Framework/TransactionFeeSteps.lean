import Arx.Framework.TransactionFee
import Arx.Framework.ValidatorCoins
import Arx.Framework.ValidatorContinuity

/-!
# What the steps of the fee collection do

`process_collected_fees` empties the collected coin: all of it is burned, or the burn percentage is
and the proposer is credited with the rest.
-/

namespace Arx
open Movelib Function Option CollectedFeesPerBlock

namespace ValidatorStorage

variable {s t : ValidatorStorage} {pop : Bytes → Bytes → Bool} {o : ValidatorOp}

def voters (s : ValidatorStorage) : List Address := s.roster.active ++ s.roster.leaving

theorem mem_voters_of_state {a : Address} (h : s.set.getValidatorState a = .active ∨
    s.set.getValidatorState a = .pendingInactive) : a ∈ s.voters := by
  rw [ValidatorSet.getValidatorState] at h
  split at h
  · obtain h | h := h <;> cases h
  · split at h
    · next hactive => exact List.mem_append_left _ (isSome_findValidator.mp hactive)
    · split at h
      · next hleaving => exact List.mem_append_right _ (isSome_findValidator.mp hleaving)
      · obtain h | h := h <;> cases h

structure Spares (s t : ValidatorStorage) : Prop where
  fees : t.fees = s.fees
  collectFees : t.collectFees = s.collectFees
  voters : ∀ a ∈ s.voters, a ∈ t.voters

theorem step_spares_fees (ho : o.isPublic = true) (h : s.step pop o = .ok t) :
    t.fees = s.fees ∧ t.collectFees = s.collectFees := by
  cases step_effect h with
  | quiet _ he => exact QuietChanges.fees (he.changes 0)
  | stake _ _ he =>
    obtain ⟨s₁,s₂,hbefore,hlock,hafter⟩ := he
    obtain ⟨hf,hc⟩ := QuietChanges.fees (hbefore.changes 0)
    obtain ⟨hf',hc'⟩ := QuietChanges.fees (hafter.changes 0)
    obtain ⟨-,rfl⟩ | ⟨_,_,_,-,-,rfl,-⟩ := lockStakeWithCap_ok hlock
    · exact ⟨hf'.trans hf,hc'.trans hc⟩
    · exact ⟨hf'.trans hf,hc'.trans hc⟩
  | joinInternal he | join he =>
    obtain ⟨_,_,-,-,-,-,-,rfl⟩ := joinValidatorSetInternal_ok he
    exact ⟨rfl,rfl⟩
  | leave he =>
    obtain ⟨_,_,_,-,-,⟨-,rfl⟩ | ⟨-,-,rfl⟩⟩ := leaveValidatorSet_ok he
    · exact ⟨rfl,rfl⟩
    · exact ⟨rfl,rfl⟩
  | openFees | credit | flag | epoch => cases ho
  | clock | wallets | config => exact ⟨rfl,rfl⟩

theorem step_spares (ho : o.isPublic = true) (h : s.step pop o = .ok t) : Spares s t := by
  obtain ⟨hfees,hcollect⟩ := step_spares_fees ho h
  refine ⟨hfees,hcollect,?_⟩
  by_cases hw : o.withinEpoch = true
  · exact (step_limited hw h).voters
  cases step_effect h with
  | config => exact fun _ => id
  | epoch => cases ho
  | stake _ _ he => exact (limited_stake he).voters
  | quiet _ he => exact (limited_quiet (he.changes 0)).voters
  | _ => exact absurd rfl hw

theorem assignIndices_lock {i : ℕ} {infos infos' : List ValidatorInfo} {a : Address}
    {l : StakeLock} (h : assignIndices s i infos = .ok (t, infos')) (hl : s.stakeLocks a = some l) :
    ∃ secs, t.stakeLocks a = some { l with lockedUntilSecs := secs } := by
  induction infos generalizing s i infos' l with
  | nil =>
    cases h
    exact ⟨l.lockedUntilSecs,hl⟩
  | cons info infos ih =>
    simp only [assignIndices,bind_eq_ok,pure_eq_ok,Prod.mk.injEq] at h
    obtain ⟨m,hm,⟨_,rest⟩,hrest,rfl,rfl⟩ := h
    obtain ⟨config,k,secs,-,hk,-,rfl⟩ := assignIndex_ok hm
    have hlock : ∃ secs', update s.stakeLocks info.address
        (some { k with lockedUntilSecs := secs }) a = some { l with lockedUntilSecs := secs' } := by
      by_cases ha : a = info.address
      · cases hl.symm.trans (ha ▸ hk)
        rw [ha,update_self]
        exact ⟨secs,rfl⟩
      · rw [update_of_ne ha]
        exact ⟨l.lockedUntilSecs,hl⟩
    obtain ⟨secs,hlock⟩ := hlock
    obtain ⟨secs',hlock'⟩ := ih hrest hlock
    exact ⟨secs',hlock'⟩

theorem onNewEpoch_fees {table : Address → Option ℕ} (hwf : s.roster.Wf)
    (hcollect : s.collectFees = true) (htable : s.fees = some table)
    (hkeys : ∀ a, (table a).isSome = true → a ∈ s.voters) (h : s.onNewEpoch = .ok t) :
    t.fees = some (fun _ => none) ∧ t.collectFees = true ∧
      ∀ a ∈ s.voters, ∃ l l', s.stakeLocks a = some l ∧ t.stakeLocks a = some l' ∧
        l'.active = l.active + s.earns a l.active + l.pendingActive + (table a).getD 0 := by
  obtain ⟨s₁,next,total,s₂,infos,hpaid,-,hassign,rfl⟩ := onNewEpoch_paid hwf h
  obtain ⟨hfees,hflag⟩ := QuietChanges.fees ((assignIndices_renumbered hassign).2.2 0)
  have hfees : s₂.fees = s₁.fees := hfees
  have hflag : s₂.collectFees = s₁.collectFees := hflag
  refine ⟨?_,?_,fun a ha => ?_⟩
  · rw [hfees,hpaid.fees,if_pos hcollect,htable]
    simp only [map_some,some.injEq]
    funext a
    by_cases ha : a ∈ s.roster.active ++ s.roster.leaving
    · rw [if_pos ha]
    · rw [if_neg ha]
      cases hheld : table a with
      | none => rfl
      | some coin => exact absurd (hkeys a (by rw [hheld]; rfl)) ha
  · obtain ⟨_,_,_,rfl⟩ := hpaid.rest
    exact hflag.trans hcollect
  · have ha : a ∈ s.roster.active ++ s.roster.leaving := ha
    obtain ⟨l,hl⟩ := isSome_iff_exists.mp (hpaid.registered a ha)
    have hl₁ : s₁.stakeLocks a = some (s.settled a l) := by
      rw [hpaid.locks,if_pos ha,hl]
      rfl
    obtain ⟨secs,hl₂⟩ := assignIndices_lock hassign hl₁
    refine ⟨l,_,hl,hl₂,?_⟩
    have hfee : s.feeOf a = (table a).getD 0 := by
      rw [feeOf,if_pos hcollect,htable]
      rfl
    rw [← hfee]
    rw [settled]
    split <;> rfl

end ValidatorStorage

namespace CollectedFeesPerBlock

/-- Who gets the collected coin: the proposer, unless it is the VM. -/
def recipient (fees : CollectedFeesPerBlock) : Option Address :=
  fees.proposer.filter fun proposer => decide (proposer ≠ VM_RESERVED)

def burned (fees : CollectedFeesPerBlock) : ℕ :=
  match fees.recipient with
  | some _ => fees.burnPercentage * fees.amount.value / 100
  | none => fees.amount.value

def emptied (fees : CollectedFeesPerBlock) : CollectedFeesPerBlock :=
  { fees with amount := { fees.amount with value := 0 }, proposer := none }

variable {fees : CollectedFeesPerBlock}

theorem recipient_eq_some {a : Address} :
    fees.recipient = some a ↔ fees.proposer = some a ∧ a ≠ VM_RESERVED := by
  simp [recipient,filter_eq_some_iff]

theorem burned_le (h : fees.burnPercentage ≤ 100) : fees.burned ≤ fees.amount.value := by
  rw [burned]
  split
  · calc fees.burnPercentage * fees.amount.value / 100
        ≤ 100 * fees.amount.value / 100 := Nat.div_le_div_right (Nat.mul_le_mul_right _ h)
      _ = fees.amount.value := Nat.mul_div_cancel_left _ (by omega)
  · exact le_rfl

theorem burned_eq_zero (h : fees.amount.value = 0) : fees.burned = 0 := by
  rw [burned,h]
  split
  · rw [Nat.mul_zero]
  · rfl

end CollectedFeesPerBlock

namespace TransactionFee

variable {supply coin percentage supply' coin' : ℕ}

theorem burnCoinFraction_ok
    (h : burnCoinFraction supply coin percentage = .ok (supply', coin')) :
    percentage * coin / 100 ≤ supply ∧ supply' = supply - percentage * coin / 100 ∧
      coin' = coin - percentage * coin / 100 := by
  simp only [burnCoinFraction,bind_eq_ok,ensure_eq_ok,mulChecked_eq_ok] at h
  obtain ⟨_,-,_,⟨-,rfl⟩,h⟩ := h
  split at h
  · simp only [bind_eq_ok,Coin.extract_eq_ok,Coin.burn_eq_ok,pure_eq_ok,Prod.mk.injEq] at h
    obtain ⟨⟨_,_⟩,⟨-,heq⟩,_,⟨-,hle,rfl⟩,rfl,rfl⟩ := h
    obtain ⟨rfl,rfl⟩ := Prod.mk.injEq .. ▸ heq
    exact ⟨hle,rfl,rfl⟩
  · next hzero =>
    cases h
    have hzero := Nat.eq_zero_of_not_pos hzero
    rw [hzero]
    exact ⟨Nat.zero_le _,rfl,rfl⟩

theorem burnCoinFraction_isOk (hp : percentage ≤ 100) (hcoin : coin ≤ supply)
    (hsupply : 100 * supply < 2 ^ 64) :
    burnCoinFraction supply coin percentage =
      .ok (supply - percentage * coin / 100, coin - percentage * coin / 100) := by
  have hproduct : percentage * coin ≤ 100 * supply := Nat.mul_le_mul hp hcoin
  have hle : percentage * coin ≤ 100 * coin := Nat.mul_le_mul_right _ hp
  have hpart : percentage * coin / 100 ≤ coin := by omega
  simp only [burnCoinFraction,bind_eq_ok,ensure_eq_ok,mulChecked_eq_ok]
  refine ⟨(),hp,_,⟨by omega,rfl⟩,?_⟩
  split
  · next hpos =>
    simp only [bind_eq_ok,Coin.extract_eq_ok,Coin.burn_eq_ok,pure_eq_ok]
    exact ⟨_,⟨hpart,rfl⟩,_,⟨hpos,hpart.trans hcoin,rfl⟩,rfl⟩
  · next hzero =>
    rw [Nat.eq_zero_of_not_pos hzero]
    rfl

end TransactionFee

namespace FeeState
open TransactionFee

variable {s t : FeeState} {fees : CollectedFeesPerBlock} {table : Address → Option ℕ} {n : ℕ}

def credit (fees : CollectedFeesPerBlock) (table : Address → Option ℕ) (a : Address) : Option ℕ :=
  if fees.amount.value ≠ 0 ∧ fees.recipient = some a then
    some ((table a).getD 0 + (fees.amount.value - fees.burned))
  else table a

theorem credit_eq_update {p : Address} (hpos : fees.amount.value ≠ 0)
    (hp : fees.recipient = some p) : credit fees table =
      update table p (some ((table p).getD 0 + (fees.amount.value - fees.burned))) := by
  funext a
  by_cases ha : a = p
  · rw [ha,credit,if_pos ⟨hpos,hp⟩,update_self]
  · rw [credit,if_neg fun h => ha (some.inj (h.2.symm.trans hp)),update_of_ne ha]

theorem credit_eq_self (h : fees.amount.value = 0 ∨ fees.recipient = none) :
    credit fees table = table := by
  funext a
  rw [credit,if_neg]
  rintro ⟨hpos,hp⟩
  obtain hzero | hnone := h
  · exact hpos hzero
  · rw [hnone] at hp
    cases hp

def processed (s : FeeState) (fees : CollectedFeesPerBlock) (table : Address → Option ℕ) :
    FeeState :=
  { s with
    validators := { s.validators with
      supply := s.validators.supply - fees.burned
      fees := some (credit fees table) }
    collected := some fees.emptied }

theorem burnAll_ok (h : s.burnAll n = .ok t) :
    n ≤ s.validators.supply ∧
      t = { s with validators := { s.validators with supply := s.validators.supply - n } } := by
  simp only [burnAll,bind_eq_ok,Coin.destroyZero_eq_ok,pure_eq_ok] at h
  obtain ⟨⟨_,_⟩,hburn,_,-,rfl⟩ := h
  obtain ⟨hle,rfl,-⟩ := burnCoinFraction_ok hburn
  rw [Nat.mul_div_cancel_left _ (by omega)] at hle ⊢
  exact ⟨hle,rfl⟩

theorem distribute_ok {proposer : Address} {coin percentage : ℕ}
    (h : s.distribute proposer coin percentage = .ok t) (ht : s.validators.fees = some table) :
    percentage * coin / 100 ≤ s.validators.supply ∧
      t = { s with validators := { s.validators with
        supply := s.validators.supply - percentage * coin / 100
        fees := some (update table proposer
          (some ((table proposer).getD 0 + (coin - percentage * coin / 100)))) } } := by
  simp only [distribute,bind_eq_ok,pure_eq_ok] at h
  obtain ⟨⟨_,_⟩,hburn,v,hv,rfl⟩ := h
  obtain ⟨hle,rfl,rfl⟩ := burnCoinFraction_ok hburn
  simp only [ValidatorStorage.addTransactionFee,bind_eq_ok,borrowGlobal_eq_ok,pure_eq_ok] at hv
  obtain ⟨table',htable',coin',hcoin',rfl⟩ := hv
  cases ht.symm.trans htable'
  rw [ValidatorStorage.mergeFee_ok hcoin']
  exact ⟨hle,rfl⟩

theorem processed_of_recipient_eq_none (hrecipient : fees.recipient = none)
    (ht : s.validators.fees = some table) :
    s.processed fees table = { s with
      validators := { s.validators with supply := s.validators.supply - fees.amount.value }
      collected := some fees.emptied } := by
  have hburned : fees.burned = fees.amount.value := by
    rw [burned,hrecipient]
  rw [processed,credit_eq_self (.inr hrecipient),hburned,← ht]

theorem processed_of_amount_eq_zero (hzero : fees.amount.value = 0)
    (ht : s.validators.fees = some table) :
    s.processed fees table = { s with collected := some { fees with proposer := none } } := by
  have hburned := burned_eq_zero hzero
  have hemptied : fees.emptied = { fees with proposer := none } := by
    rw [emptied,← hzero]
  rw [processed,credit_eq_self (.inl hzero),hburned,hemptied,← ht]
  rfl

theorem isZero_iff {amount : Aggregator} :
    AggregatableCoin.isZero amount = true ↔ amount.value = 0 := decide_eq_true_iff

theorem drain_eq_ok {amount rest : Aggregator} {coin : ℕ} :
    AggregatableCoin.drain amount = .ok (rest, coin) ↔ amount.value ≤ AggregatableCoin.MAX_U64 ∧
      rest = { amount with value := 0 } ∧ coin = amount.value := by
  simp only [AggregatableCoin.drain,bind_eq_ok,ensure_eq_ok,Aggregator.sub_eq_ok,
    pure_eq_ok,Prod.mk.injEq]
  constructor
  · rintro ⟨_,hle,_,⟨-,rfl⟩,rfl,rfl⟩
    exact ⟨hle,by rw [Nat.sub_self],rfl⟩
  · rintro ⟨hle,rfl,rfl⟩
    exact ⟨(),hle,_,⟨le_rfl,rfl⟩,by rw [Nat.sub_self],rfl⟩

theorem processCollectedFees_ok (hc : s.collected = some fees) (ht : s.validators.fees = some table)
    (h : s.processCollectedFees = .ok t) :
    fees.burned ≤ s.validators.supply ∧ t = s.processed fees table := by
  simp only [processCollectedFees,hc] at h
  by_cases hzero : fees.amount.value = 0
  · rw [if_pos (isZero_iff.mpr hzero)] at h
    cases h
    rw [processed_of_amount_eq_zero hzero ht,burned_eq_zero hzero]
    exact ⟨Nat.zero_le _,rfl⟩
  · rw [if_neg (mt isZero_iff.mp hzero)] at h
    obtain ⟨⟨rest,coin⟩,hdrain,h⟩ := bind_eq_ok.mp h
    obtain ⟨-,rfl,rfl⟩ := drain_eq_ok.mp hdrain
    cases hp : fees.proposer with
    | none =>
      have hrecipient : fees.recipient = none := by rw [recipient,hp]; rfl
      rw [hp] at h
      obtain ⟨hle,rfl⟩ := burnAll_ok h
      rw [processed_of_recipient_eq_none hrecipient ht,burned,hrecipient]
      exact ⟨hle,rfl⟩
    | some p =>
      rw [hp] at h
      by_cases hvm : p = VM_RESERVED
      · have hrecipient : fees.recipient = none := by
          simp [recipient,hp,hvm]
        simp only [if_pos hvm] at h
        obtain ⟨hle,rfl⟩ := burnAll_ok h
        rw [processed_of_recipient_eq_none hrecipient ht,burned,hrecipient]
        exact ⟨hle,rfl⟩
      · have hrecipient : fees.recipient = some p :=
          recipient_eq_some.mpr ⟨hp,hvm⟩
        simp only [if_neg hvm] at h
        obtain ⟨hle,rfl⟩ := distribute_ok h ht
        rw [processed,credit_eq_update hzero hrecipient,burned,hrecipient]
        exact ⟨hle,rfl⟩

theorem burnAll_isOk (hcoin : n ≤ s.validators.supply)
    (hsupply : 100 * s.validators.supply < 2 ^ 64) : ∃ t, s.burnAll n = .ok t := by
  have hburn := burnCoinFraction_isOk (le_refl 100) hcoin hsupply
  rw [Nat.mul_div_cancel_left _ (by omega),Nat.sub_self] at hburn
  exact ⟨_,by rw [burnAll,hburn]; rfl⟩

theorem distribute_isOk {proposer : Address} {percentage : ℕ}
    (ht : s.validators.fees = some table) (hp : percentage ≤ 100)
    (hcoin : n ≤ s.validators.supply) (hsupply : 100 * s.validators.supply < 2 ^ 64)
    (hroom : (table proposer).getD 0 + n ≤ s.validators.supply) :
    ∃ t, s.distribute proposer n percentage = .ok t := by
  have hmerge : ∀ coin ≤ n, ∃ v, ValidatorStorage.mergeFee (table proposer) coin = .ok v := by
    intro coin hle
    cases hheld : table proposer with
    | none => exact ⟨coin,rfl⟩
    | some held =>
      rw [hheld,getD_some] at hroom
      exact ⟨held + coin,Coin.merge_eq_ok.mpr ⟨by omega,rfl⟩⟩
  obtain ⟨v,hv⟩ := hmerge (n - percentage * n / 100) (Nat.sub_le _ _)
  refine ⟨{ s with validators := { s.validators with
    supply := s.validators.supply - percentage * n / 100
    fees := some (update table proposer (some v)) } },?_⟩
  simp only [distribute,burnCoinFraction_isOk hp hcoin hsupply,ok_bind,
    ValidatorStorage.addTransactionFee,ht,borrowGlobal,hv]
  rfl

theorem fee_add_le (hcovered : s.validators.Covered n) (ht : s.validators.fees = some table)
    (p : Address) : (table p).getD 0 + n ≤ s.validators.supply := by
  have hle := hcovered {.fee p,.hand}
  have hne : Holder.fee p ≠ Holder.hand := nofun
  simpa [ValidatorStorage.holdings,ht] using hle

theorem processCollectedFees_isOk (hc : s.collected = some fees)
    (ht : s.validators.fees = some table) (hp : fees.burnPercentage ≤ 100)
    (hcovered : s.validators.Covered fees.amount.value)
    (hsupply : s.validators.supply ≤ AggregatableCoin.MAX_U64 / 100) :
    ∃ t, s.processCollectedFees = .ok t := by
  have hmax : 100 * s.validators.supply < 2 ^ 64 := by
    rw [AggregatableCoin.MAX_U64] at hsupply
    omega
  have hle : fees.amount.value ≤ s.validators.supply := hcovered.le .hand
  simp only [processCollectedFees,hc]
  split
  · exact ⟨_,rfl⟩
  · have hdrain : AggregatableCoin.drain fees.amount =
        .ok ({ fees.amount with value := 0 }, fees.amount.value) := by
      refine drain_eq_ok.mpr ⟨?_,rfl,rfl⟩
      omega
    rw [hdrain]
    cases fees.proposer with
    | none => exact burnAll_isOk hle hmax
    | some p =>
      by_cases hvm : p = VM_RESERVED
      · simp only [if_pos hvm]
        exact burnAll_isOk hle hmax
      · simp only [if_neg hvm]
        exact distribute_isOk ht hp hle hmax (fee_add_le hcovered ht p)

theorem covered_processed (hburned : fees.burned ≤ fees.amount.value)
    (ht : s.validators.fees = some table) (hcovered : s.validators.Covered fees.amount.value) :
    (s.processed fees table).validators.Covered 0 := by
  have hle : fees.amount.value ≤ s.validators.supply := hcovered.le .hand
  have hburn : { s.validators with supply := s.validators.supply - fees.burned }.Covered
      (fees.amount.value - fees.burned) := by
    refine BoundedBy.move hcovered .hand (fun k hk => ?_) ?_
    · cases k <;> first | rfl | exact absurd rfl hk
    · simp only [ValidatorStorage.holdings]
      omega
  by_cases hself : fees.amount.value = 0 ∨ fees.recipient = none
  · rw [processed,credit_eq_self hself,← ht]
    exact hburn.mono (Nat.zero_le _)
  · rw [not_or] at hself
    obtain ⟨p,hp⟩ := ne_none_iff_exists'.mp hself.2
    rw [← Nat.zero_add (fees.amount.value - fees.burned)] at hburn
    rw [processed,credit_eq_update hself.1 hp]
    exact (Change.credit { s.validators with supply := s.validators.supply - fees.burned } 0 p table
      (fees.amount.value - fees.burned) ht).covered hburn

end FeeState

end Arx
