import Arx.Framework.TransactionFeeSteps

/-!
# The account of the collected fees

The fees are collected into a pending batch, which is closed when the fees are processed and paid
at the end of the epoch.
-/

namespace Arx
open Movelib List ValidatorStorage

structure Batch where
  /-- The proposer of the block in which they were collected. -/
  block : Option Address
  fees : List ℕ
  recipient : Option Address
  burnPercentage : ℕ

namespace Batch

variable (b : Batch)

def amount : ℕ := b.fees.sum

def burned : ℕ :=
  match b.recipient with
  | some _ => b.burnPercentage * b.amount / 100
  | none => b.amount

def credited : ℕ := b.amount - b.burned

def creditTo (a : Address) : ℕ := if b.recipient = some a then b.credited else 0

/-- All is burned, or the proposer of the block gets what is left of the exact split. -/
def Fair : Prop :=
  b.burned + b.credited = b.amount ∧
    (b.recipient = none ∧ b.credited = 0 ∨
      ∃ p, b.recipient = some p ∧ b.block = some p ∧ p ≠ VM_RESERVED ∧
        b.burned = b.burnPercentage * b.amount / 100)

end Batch

structure FeeHistory where
  /-- The proposer of the current block. -/
  block : Option Address
  /-- Every collected fee, with the proposer of its block. -/
  collected : List (Option Address × ℕ)
  pending : List ℕ
  closed : List Batch
  /-- Closed in this epoch, and not merged into the stakes yet. -/
  unpaid : List Batch

namespace FeeHistory

variable (h : FeeHistory)

def batch (fees : CollectedFeesPerBlock) : Batch :=
  ⟨h.block,h.pending,fees.recipient,fees.burnPercentage⟩

def close (fees : CollectedFeesPerBlock) : FeeHistory :=
  { h with
    pending := []
    closed := h.closed ++ [h.batch fees]
    unpaid := h.unpaid ++ [h.batch fees] }

def closeAny (collected : Option CollectedFeesPerBlock) : FeeHistory :=
  collected.elim h h.close

def owed (a : Address) : ℕ := (h.unpaid.map fun b => b.creditTo a).sum

theorem owed_close (fees : CollectedFeesPerBlock) (a : Address) :
    (h.close fees).owed a = h.owed a + (h.batch fees).creditTo a := by
  simp [owed,close]

/-- The history after an operation that leads from `s` to `t`. The operations that end an epoch
are told by the epoch counter. -/
def next (s t : FeeState) : FeeOp → FeeHistory
  | .collectFee _ fee =>
    { h with pending := h.pending ++ [fee], collected := h.collected ++ [(h.block, fee)] }
  | .upgradeBurnPercentage _ => h.closeAny s.collected
  | .blockPrologue proposer _ _ =>
    let h := { h.closeAny s.collected with block := some proposer }
    if t.epoch = s.epoch then h else { h with unpaid := [] }
  | .reconfigure => if t.epoch = s.epoch then h else { h.closeAny s.collected with unpaid := [] }
  | .updateEpochInterval _ | .validator _ _ => h

end FeeHistory

structure FeeRecord where
  state : FeeState
  history : FeeHistory

def FeeRecord.step (pop : Bytes → Bytes → Bool) (x : FeeRecord) (o : FeeOp) :
    Result FeeRecord := do
  let t ← x.state.step pop o
  pure ⟨t,x.history.next x.state t o⟩

def FeeRecord.start (s : FeeState) : FeeRecord := ⟨s,⟨none,[],[],[],[]⟩⟩

structure Accounts (s : FeeState) (h : FeeHistory) (fees : CollectedFeesPerBlock)
    (table : Address → Option ℕ) : Prop where
  wf : s.validators.roster.Wf
  enabled : s.validators.collectFees = true
  collected : s.collected = some fees
  percentage : fees.burnPercentage ≤ 100
  covered : s.validators.Covered fees.amount.value
  published : s.validators.fees = some table
  keys : ∀ a, (table a).isSome = true → a ∈ s.validators.voters
  proposer : ∀ p, fees.proposer = some p →
    h.block = some p ∧ (p = VM_RESERVED ∨ p ∈ s.validators.voters)
  pending : fees.amount.value = h.pending.sum
  complete : h.collected = (h.closed.flatMap fun b => b.fees.map fun fee => (b.block, fee)) ++
    h.pending.map fun fee => (h.block, fee)
  fair : ∀ b ∈ h.closed, b.Fair
  owed : ∀ a, (table a).getD 0 = h.owed a

namespace Accounts

variable {s t : FeeState} {h : FeeHistory} {fees : CollectedFeesPerBlock}
    {table : Address → Option ℕ} {v : ValidatorStorage}

section

variable (ha : Accounts s h fees table)

include ha

theorem batch_burned : (h.batch fees).burned = fees.burned := by
  rw [Batch.burned,CollectedFeesPerBlock.burned,Batch.amount,ha.pending]
  rfl

theorem batch_fair : (h.batch fees).Fair := by
  have hle : (h.batch fees).burned ≤ (h.batch fees).amount := by
    rw [ha.batch_burned]
    exact (CollectedFeesPerBlock.burned_le ha.percentage).trans ha.pending.le
  refine ⟨Nat.add_sub_cancel' hle,?_⟩
  cases hr : fees.recipient with
  | none =>
    have hr : (h.batch fees).recipient = none := hr
    left
    refine ⟨hr,?_⟩
    rw [Batch.credited,Batch.burned,hr]
    exact Nat.sub_self _
  | some p =>
    have hr' : (h.batch fees).recipient = some p := hr
    obtain ⟨hp,hvm⟩ := CollectedFeesPerBlock.recipient_eq_some.mp hr
    right
    refine ⟨p,hr',(ha.proposer p hp).1,hvm,?_⟩
    rw [Batch.burned,hr']

theorem process (hp : s.processCollectedFees = .ok t) :
    Accounts t (h.close fees) fees.emptied (FeeState.credit fees table) := by
  obtain ⟨-,rfl⟩ := FeeState.processCollectedFees_ok ha.collected ha.published hp
  have hburned := CollectedFeesPerBlock.burned_le ha.percentage
  refine ⟨ha.wf,ha.enabled,rfl,ha.percentage,FeeState.covered_processed hburned ha.published ha.covered,
    rfl,?_,nofun,rfl,?_,?_,?_⟩
  · intro a hsome
    rw [FeeState.credit] at hsome
    split at hsome
    · next hcredit =>
      obtain ⟨hprop,hvm⟩ := CollectedFeesPerBlock.recipient_eq_some.mp hcredit.2
      exact (ha.proposer a hprop).2.resolve_left hvm
    · exact ha.keys a hsome
  · show h.collected = ((h.closed ++ [h.batch fees]).flatMap _) ++ _
    rw [ha.complete,flatMap_append,flatMap_singleton]
    exact (append_nil _).symm
  · intro b hb
    obtain hb | hb := mem_append.mp hb
    · exact ha.fair b hb
    · rw [mem_singleton.mp hb]
      exact ha.batch_fair
  · intro a
    have hcredited : (h.batch fees).credited = fees.amount.value - fees.burned := by
      rw [Batch.credited,ha.batch_burned,Batch.amount,ha.pending]
      rfl
    rw [FeeHistory.owed_close,← ha.owed a,Batch.creditTo,hcredited,FeeState.credit]
    by_cases hr : fees.recipient = some a
    · rw [if_pos (show (h.batch fees).recipient = some a from hr)]
      by_cases hzero : fees.amount.value = 0
      · rw [if_neg fun hc => hc.1 hzero,hzero,Nat.zero_sub,Nat.add_zero]
      · rw [if_pos ⟨hzero,hr⟩,Option.getD_some]
    · rw [if_neg fun hc => hr hc.2,if_neg (show (h.batch fees).recipient ≠ some a from hr),
        Nat.add_zero]

theorem validators (hwf : v.roster.Wf) (hspares : ValidatorStorage.Spares s.validators v)
    (hcovered : v.Covered fees.amount.value) :
    Accounts { s with validators := v } h fees table :=
  { ha with
    wf := hwf
    enabled := hspares.collectFees.trans ha.enabled
    covered := hcovered
    published := hspares.fees.trans ha.published
    keys := fun a hsome => hspares.voters a (ha.keys a hsome)
    proposer := fun p hp => ⟨(ha.proposer p hp).1,(ha.proposer p hp).2.imp_right (hspares.voters p)⟩ }

theorem of_eq (hv : t.validators = s.validators)
    (hc : t.collected = s.collected) : Accounts t h fees table := by
  exact { ha with
    wf := hv ▸ ha.wf
    enabled := hv ▸ ha.enabled
    collected := hc.trans ha.collected
    covered := hv ▸ ha.covered
    published := hv ▸ ha.published
    keys := hv ▸ ha.keys
    proposer := hv ▸ ha.proposer }

theorem register {p : Address} (hpending : h.pending = [])
    (hp : p = VM_RESERVED ∨ p ∈ s.validators.voters) :
    Accounts (s.registerProposer p) { h with block := some p } { fees with proposer := some p }
      table := by
  have hcomplete := ha.complete
  rw [hpending] at hcomplete
  refine { ha with collected := ?_, proposer := ?_, complete := ?_ }
  · rw [FeeState.registerProposer,ha.collected]
    rfl
  · rintro q hq
    cases hq
    exact ⟨rfl,hp⟩
  · rw [hpending]
    exact hcomplete

theorem newEpoch (hproposer : fees.proposer = none) (hv : s.validators.onNewEpoch = .ok v) :
    Accounts { s with validators := v } { h with unpaid := [] } fees fun _ => none := by
  obtain ⟨hfees,hflag,-⟩ :=
    onNewEpoch_fees ha.wf ha.enabled ha.published ha.keys hv
  have hstep : s.validators.step (fun _ _ => true) .onNewEpoch = .ok v := hv
  have hwf := step_roster_wf ha.wf hstep
  have hcovered := Changes.covered (onNewEpoch_changes hv) ha.covered
  exact ⟨hwf,hflag,ha.collected,ha.percentage,hcovered,hfees,nofun,by rw [hproposer]; nofun,
    ha.pending,ha.complete,ha.fair,fun _ => rfl⟩

theorem collect {account : Address} {fee : ℕ} (hc : s.collectFee account fee = .ok t) : ∃ fees',
      Accounts t { h with
        pending := h.pending ++ [fee]
        collected := h.collected ++ [(h.block, fee)] } fees' table := by
  have hcomplete : h.collected ++ [(h.block, fee)] =
      (h.closed.flatMap fun b => b.fees.map fun fee => (b.block, fee)) ++
        (h.pending ++ [fee]).map fun fee => (h.block, fee) := by
    rw [ha.complete,map_append,append_assoc]
    rfl
  have hsum : (h.pending ++ [fee]).sum = fees.amount.value + fee := by
    rw [sum_append,sum_singleton,ha.pending]
  simp only [FeeState.collectFee,ha.collected,borrowGlobal,ok_bind,bind_eq_ok,pure_eq_ok] at hc
  obtain ⟨⟨store,amount⟩,hstore,rfl⟩ := hc
  rw [AggregatableCoin.collectInto] at hstore
  by_cases hzero : fee = 0
  · rw [if_pos hzero] at hstore
    cases hstore
    have hstores : Function.update s.validators.stores account (s.validators.stores account) =
      s.validators.stores := Function.update_eq_self ..
    refine ⟨fees,{ ha.of_eq ?_ ha.collected.symm with complete := hcomplete, pending := ?_ }⟩
    · exact congrArg (fun stores => { s.validators with stores }) hstores
    · rw [hsum,hzero]
      rfl
  · rw [if_neg hzero] at hstore
    simp only [bind_eq_ok,borrowGlobal_eq_ok,Coin.extract_eq_ok,AggregatableCoin.merge,
      Aggregator.add_eq_ok,pure_eq_ok,Prod.mk.injEq] at hstore
    obtain ⟨cs,hcs,⟨_,_⟩,⟨hle,heq⟩,_,⟨-,rfl⟩,rfl,rfl⟩ := hstore
    obtain ⟨rfl,rfl⟩ := heq
    refine ⟨{ fees with amount := { fees.amount with value := fees.amount.value + fee } },
      { ha with collected := rfl, covered := ?_, complete := hcomplete, pending := hsum.symm }⟩
    exact (QuietChange.withdraw s.validators fees.amount.value account cs fee hcs hle).covered
      ha.covered

theorem processEmpty (hpending : h.pending = []) (hp : s.processCollectedFees = .ok t) :
    Accounts t h { fees with proposer := none } table := by
  have hzero : fees.amount.value = 0 := by rw [ha.pending,hpending]; rfl
  obtain ⟨-,rfl⟩ := FeeState.processCollectedFees_ok ha.collected ha.published hp
  rw [FeeState.processed_of_amount_eq_zero hzero ha.published]
  exact { ha with collected := rfl, proposer := nofun }

theorem feeOf_eq (a : Address) : s.validators.feeOf a = h.owed a := by
  rw [feeOf,if_pos ha.enabled,ha.published,← ha.owed a]
  rfl

theorem paid (hv : s.validators.onNewEpoch = .ok v) :
    v.fees = some (fun _ => none) ∧ ∀ a, 0 < h.owed a → ∃ l l',
      s.validators.stakeLocks a = some l ∧ v.stakeLocks a = some l' ∧
      l'.active = l.active + s.validators.earns a l.active + l.pendingActive + h.owed a := by
  obtain ⟨hfees,-,hlocks⟩ :=
    onNewEpoch_fees ha.wf ha.enabled ha.published ha.keys hv
  refine ⟨hfees,fun a hpos => ?_⟩
  have hsome : (table a).isSome = true := by
    rw [← ha.owed a] at hpos
    cases hheld : table a with
    | none => simp [hheld] at hpos
    | some coin => rfl
  rw [← ha.owed a]
  exact hlocks a (ha.keys a hsome)

end

end Accounts

namespace FeeState

variable {s t : FeeState} {p : Address} {pop : Bytes → Bytes → Bool}

theorem reconfigure_ok (henabled : s.validators.collectFees = true) (h : s.reconfigure = .ok t) :
    t = s ∨ ∃ m v, s.processCollectedFees = .ok m ∧ m.validators.onNewEpoch = .ok v ∧
      t = { m with
        validators := v
        epoch := m.epoch + 1
        lastReconfigurationTime := s.validators.microseconds } := by
  rw [reconfigure] at h
  split at h
  · right
    simp only [processIfEnabled,henabled,if_true,bind_eq_ok,addChecked_eq_ok,pure_eq_ok] at h
    obtain ⟨m,hm,v,hv,_,-,_,⟨-,rfl⟩,rfl⟩ := h
    exact ⟨m,v,hm,hv,rfl⟩
  · left
    cases h
    rfl

theorem checkProposer_ok {u : Unit} (h : s.checkProposer p = .ok u) :
    p = VM_RESERVED ∨ p ∈ s.validators.voters := by
  by_cases hvm : p = VM_RESERVED
  · exact .inl hvm
  · right
    rw [checkProposer,if_neg hvm] at h
    simp only [isCurrentEpochValidator,bind_eq_ok,ensure_eq_ok,pure_eq_ok] at h
    obtain ⟨_,⟨_,-,rfl⟩,hstatus⟩ := h
    rw [decide_eq_true_iff] at hstatus
    exact mem_voters_of_state hstatus

theorem blockPrologue_ok {failed : List ℕ} {timestamp : ℕ}
    (henabled : s.validators.collectFees = true) (h : s.blockPrologue p failed timestamp = .ok t) :
    (p = VM_RESERVED ∨ p ∈ s.validators.voters) ∧
    ∃ microseconds m index v u,
      { s with validators := { s.validators with microseconds } }.processCollectedFees = .ok m ∧
      m.validators.updatePerformanceStatistics index failed = .ok v ∧
      u = { m.registerProposer p with validators := v } ∧ (t = u ∨ u.reconfigure = .ok t) := by
  simp only [blockPrologue,bind_eq_ok] at h
  obtain ⟨_,hcheck,index,-,us,-,m,hm,v,hv,h⟩ := h
  refine ⟨checkProposer_ok hcheck,?_⟩
  have henabled : ({ s with validators := { s.validators with microseconds := us } } :
    FeeState).validators.collectFees = true := henabled
  rw [turnFees,if_pos henabled] at hm
  simp only [bind_eq_ok,pure_eq_ok] at hm
  obtain ⟨m,hm,rfl⟩ := hm
  refine ⟨us,m,index,v,_,hm,hv,rfl,?_⟩
  simp only [endEpoch,bind_eq_ok] at h
  obtain ⟨_,-,h⟩ := h
  split at h
  · exact .inr h
  · exact .inl (Except.ok.inj h).symm

def enable (s : FeeState) : FeeState :=
  { s with validators := { s.validators with collectFees := true } }

/-- The coins that come with a call exist, and other modules move the coins of the supply only. -/
def Backed (s : FeeState) : FeeOp → Prop
  | .validator (.lockStakeWithCap _ coins) _ =>
    s.validators.Covered (coins + (s.collected.elim 0 fun fees => fees.amount.value))
  | .validator (.wallets stores supply) _ =>
    { s.validators with stores, supply }.Covered (s.collected.elim 0 fun fees => fees.amount.value)
  | _ => True

/-- An epoch has ended: all fees are paid, and what was owed is in the active stakes. -/
structure EpochPaid (s t : FeeState) (owed : Address → ℕ) : Prop where
  empty : t.validators.fees = some fun _ => none
  merged : ∃ m : ValidatorStorage, m.stakeLocks = s.validators.stakeLocks ∧
    m.onNewEpoch = .ok t.validators ∧ ∀ a, 0 < owed a → ∃ l l',
      s.validators.stakeLocks a = some l ∧ t.validators.stakeLocks a = some l' ∧
      l'.active = l.active + m.earns a l.active + l.pendingActive + owed a

end FeeState

namespace Accounts

variable {s t : FeeState} {h : FeeHistory} {fees : CollectedFeesPerBlock}
  {table : Address → Option ℕ} {p : Address} {pop : Bytes → Bytes → Bool}

theorem reconfigure (ha : Accounts s h fees table) (hr : s.reconfigure = .ok t) :
    t = s ∨ t.epoch ≠ s.epoch ∧ s.EpochPaid t (h.close fees).owed ∧
      ∃ fees' table', Accounts t { h.close fees with unpaid := [] } fees' table' := by
  obtain rfl | ⟨m,v,hm,hv,rfl⟩ := FeeState.reconfigure_ok ha.enabled hr
  · exact .inl rfl
  have hprocessed := ha.process hm
  obtain ⟨-,rfl⟩ := FeeState.processCollectedFees_ok ha.collected ha.published hm
  obtain ⟨hempty,hlocks⟩ := hprocessed.paid hv
  refine .inr ⟨Nat.succ_ne_self s.epoch,⟨hempty,(s.processed fees table).validators,rfl,hv,hlocks⟩,
    _,_,(hprocessed.newEpoch rfl hv).of_eq rfl rfl⟩

theorem blockPrologue {failed : List ℕ} {timestamp : ℕ} (ha : Accounts s h fees table)
    (hb : s.blockPrologue p failed timestamp = .ok t) :
    t.epoch = s.epoch ∧
        (∃ fees' table', Accounts t { h.close fees with block := some p } fees' table') ∨
      t.epoch ≠ s.epoch ∧ s.EpochPaid t (h.close fees).owed ∧
        ∃ fees' table', Accounts t { h.close fees with block := some p, unpaid := [] }
          fees' table' := by
  obtain ⟨hp,us,m,index,v,u,hm,hv,hu,ht⟩ := FeeState.blockPrologue_ok ha.enabled hb
  -- The clock and the scores leave the fees alone.
  have hclock := ha.validators (v := { s.validators with microseconds := us }) ha.wf
    ⟨rfl,rfl,fun _ => id⟩ ((QuietChange.registry s.validators fees.amount.value _ _ _ us).covered
      ha.covered)
  have hprocessed := hclock.process hm
  obtain ⟨-,rfl⟩ := FeeState.processCollectedFees_ok hclock.collected hclock.published hm
  have hregistered := hprocessed.register rfl hp
  have hwf := step_roster_wf hregistered.wf
    (show step (fun _ _ => true) _ (.updatePerformanceStatistics index failed) = _
      from hv)
  simp only [updatePerformanceStatistics,bind_eq_ok,pure_eq_ok] at hv
  obtain ⟨_,-,performance,-,rfl⟩ := hv
  have hscored : Accounts u { h.close fees with block := some p }
      { fees.emptied with proposer := some p } (FeeState.credit fees table) := by
    rw [hu]
    refine hregistered.validators hwf ⟨rfl,rfl,fun _ => id⟩ ?_
    exact (QuietChange.registry _ _ _ performance _ _).covered hregistered.covered
  have hlocks : u.validators.stakeLocks = s.validators.stakeLocks := by
    rw [hu]
    rfl
  have hepoch : u.epoch = s.epoch := by
    rw [hu]
    rfl
  obtain rfl | hr := ht
  · exact .inl ⟨hepoch,_,_,hscored⟩
  obtain rfl | ⟨m,v,hm,hv,rfl⟩ := FeeState.reconfigure_ok hscored.enabled hr
  · exact .inl ⟨hepoch,_,_,hscored⟩
  have hdone := hscored.processEmpty rfl hm
  obtain ⟨-,rfl⟩ := FeeState.processCollectedFees_ok hscored.collected hscored.published hm
  obtain ⟨hempty,hpaid⟩ := hdone.paid hv
  refine .inr ⟨?_,⟨hempty,_,?_,hv,?_⟩,_,_,(hdone.newEpoch rfl hv).of_eq rfl rfl⟩
  · show u.epoch + 1 ≠ s.epoch
    rw [hepoch]
    exact Nat.succ_ne_self _
  · exact hlocks
  · rw [← hlocks]
    exact hpaid

theorem upgrade {n : ℕ} (ha : Accounts s h fees table) (hu : s.upgradeBurnPercentage n = .ok t) :
    t.epoch = s.epoch ∧ ∃ fees' table', Accounts t (h.close fees) fees' table' := by
  simp only [FeeState.upgradeBurnPercentage,bind_eq_ok,ensure_eq_ok,pure_eq_ok] at hu
  obtain ⟨_,hle,m,hm,rfl⟩ := hu
  have hprocessed := ha.process hm
  obtain ⟨-,rfl⟩ := FeeState.processCollectedFees_ok ha.collected ha.published hm
  exact ⟨rfl,{ fees.emptied with burnPercentage := n },_,
    { hprocessed with collected := rfl, percentage := hle, proposer := by rintro _ ⟨⟩ }⟩

theorem validator {o : ValidatorOp} {ho : o.isPublic = true} {v : ValidatorStorage}
    (ha : Accounts s h fees table) (hb : s.Backed (.validator o ho))
    (hv : s.validators.step pop o = .ok v) : Accounts { s with validators := v } h fees table := by
  refine ha.validators (step_roster_wf ha.wf hv)
    (step_spares ho hv) ?_
  obtain ⟨m,hc⟩ | ⟨stores,supply,rfl⟩ := step_changes hv
  · have hbrings : s.validators.Covered (fees.amount.value + o.brings) := by
      cases o with
      | lockStakeWithCap cap coins =>
        have hb : s.validators.Covered
          (coins + (s.collected.elim 0 fun fees => fees.amount.value)) := hb
        rw [ha.collected] at hb
        exact Nat.add_comm .. ▸ hb
      | addTransactionFee => cases ho
      | _ => exact ha.covered
    exact (Changes.covered (hc _) hbrings).mono (Nat.le_add_right _ _)
  · cases hv
    have hb : { s.validators with stores, supply }.Covered
      (s.collected.elim 0 fun fees => fees.amount.value) := hb
    rw [ha.collected] at hb
    exact hb

end Accounts

namespace FeeRecord

variable {x y : FeeRecord} {o : FeeOp} {pop : Bytes → Bytes → Bool}

def Accounted (x : FeeRecord) : Prop := ∃ fees table, Accounts x.state x.history fees table

theorem step_accounted (hx : x.Accounted) (hb : x.state.Backed o) (hs : x.step pop o = .ok y) :
    y.Accounted ∧ (y.state.epoch ≠ x.state.epoch →
      x.state.EpochPaid y.state (x.history.closeAny x.state.collected).owed) := by
  obtain ⟨fees,table,ha⟩ := hx
  obtain ⟨t,ht,⟨⟩⟩ := bind_eq_ok.mp hs
  have hclose : x.history.closeAny x.state.collected = x.history.close fees := by
    rw [ha.collected]
    rfl
  cases o with
  | blockPrologue p failed timestamp =>
    show (∃ fees table, Accounts t (if t.epoch = x.state.epoch then _ else _) fees table) ∧ _
    rw [hclose]
    obtain ⟨hepoch,haccounts⟩ | ⟨hepoch,hpaid,haccounts⟩ := ha.blockPrologue ht
    · rw [if_pos hepoch]
      exact ⟨haccounts,fun hne => absurd hepoch hne⟩
    · rw [if_neg hepoch]
      exact ⟨haccounts,fun _ => hpaid⟩
  | reconfigure =>
    show (∃ fees table, Accounts t (if t.epoch = x.state.epoch then _ else _) fees table) ∧ _
    rw [hclose]
    obtain rfl | ⟨hepoch,hpaid,haccounts⟩ := ha.reconfigure ht
    · rw [if_pos rfl]
      exact ⟨⟨fees,table,ha⟩,fun hne => absurd rfl hne⟩
    · rw [if_neg hepoch]
      exact ⟨haccounts,fun _ => hpaid⟩
  | collectFee account fee =>
    have hcollected := ha.collect ht
    simp only [FeeState.step,FeeState.collectFee,bind_eq_ok,pure_eq_ok] at ht
    obtain ⟨_,-,_,-,rfl⟩ := ht
    obtain ⟨fees',haccounts⟩ := hcollected
    exact ⟨⟨fees',table,haccounts⟩,fun hne => absurd rfl hne⟩
  | upgradeBurnPercentage n =>
    obtain ⟨hepoch,haccounts⟩ := ha.upgrade ht
    refine ⟨?_,fun hne => absurd hepoch hne⟩
    show ∃ fees table, Accounts t (x.history.closeAny x.state.collected) fees table
    rw [hclose]
    exact haccounts
  | updateEpochInterval n =>
    obtain ⟨_,-,⟨⟩⟩ := bind_eq_ok.mp ht
    exact ⟨⟨fees,table,ha.of_eq rfl rfl⟩,fun hne => absurd rfl hne⟩
  | validator o ho =>
    obtain ⟨v,hv,⟨⟩⟩ := bind_eq_ok.mp ht
    exact ⟨⟨fees,table,ha.validator hb hv⟩,fun hne => absurd rfl hne⟩

theorem start_accounted {s₀ s : FeeState} {percentage : ℕ} (hwf : s₀.validators.roster.Wf)
    (hcovered : s₀.validators.Covered 0)
    (hinit : s₀.initializeFeeCollectionAndDistribution percentage = .ok s) :
    (start s.enable).Accounted := by
  simp only [FeeState.initializeFeeCollectionAndDistribution,bind_eq_ok,ensure_eq_ok,
    pure_eq_ok] at hinit
  obtain ⟨_,-,_,hle,v,hv,rfl⟩ := hinit
  obtain ⟨hnone,rfl⟩ := initializeValidatorFees_ok hv
  have hopened := (Change.openFees _ 0 hnone).covered hcovered
  have henabled := (Change.flag _ 0 true).covered hopened
  exact ⟨_,fun _ => none,hwf,rfl,rfl,hle,henabled,rfl,by rintro _ ⟨⟩,by rintro _ ⟨⟩,rfl,rfl,
    by rintro _ ⟨⟩,fun _ => rfl⟩

structure FeesAccounted (pop : Bytes → Bytes → Bool) (x : FeeRecord) : Prop where
  /-- `process_collected_fees` does not abort. -/
  processes : x.state.validators.supply ≤ AggregatableCoin.MAX_U64 / 100 →
    ∃ t, x.state.processCollectedFees = .ok t
  /-- It splits the pending batch by the recorded percentage and proposer, burns one part and credits
  the other. -/
  splits : ∀ t, x.state.processCollectedFees = .ok t → ∃ fees, x.state.collected = some fees ∧
    (∀ p, fees.recipient = some p ↔ fees.proposer = some p ∧ p ≠ VM_RESERVED) ∧
    (x.history.batch fees).Fair ∧
    t.validators.supply + (x.history.batch fees).burned = x.state.validators.supply ∧
    (∀ a, t.validators.feeOf a =
      x.state.validators.feeOf a + (x.history.batch fees).creditTo a) ∧
    t.collected.map (fun fees => (fees.amount.value, fees.proposer)) = some (0, none)
  /-- Every collected fee is in one batch, with the proposer of its block, or pending. -/
  complete : x.history.collected =
    (x.history.closed.flatMap fun b => b.fees.map fun fee => (b.block, fee)) ++
      x.history.pending.map fun fee => (x.history.block, fee)
  fair : ∀ b ∈ x.history.closed, b.Fair
  /-- Every block and every end of an epoch closes the pending batch. -/
  closes : ∀ o y, x.step pop o = .ok y →
    (∃ p failed timestamp, o = .blockPrologue p failed timestamp) ∨
      o = .reconfigure ∧ y.state.epoch ≠ x.state.epoch → y.history.pending = []
  /-- After the end of an epoch the table is empty, and what it held is staked. -/
  epochs : ∀ o y, x.state.Backed o → x.step pop o = .ok y → y.state.epoch ≠ x.state.epoch →
    x.state.EpochPaid y.state (x.history.closeAny x.state.collected).owed

theorem Accounted.feesAccounted (hx : x.Accounted) : x.FeesAccounted pop := by
  obtain ⟨fees,table,ha⟩ := hx
  refine ⟨?_,?_,ha.complete,ha.fair,?_,fun o y hb hs => (step_accounted ⟨fees,table,ha⟩ hb hs).2⟩
  · exact FeeState.processCollectedFees_isOk ha.collected ha.published ha.percentage ha.covered
  · intro t ht
    have hprocessed := ha.process ht
    refine ⟨fees,ha.collected,fun p => CollectedFeesPerBlock.recipient_eq_some,ha.batch_fair,?_,
      fun a => ?_,?_⟩
    · obtain ⟨hle,rfl⟩ := FeeState.processCollectedFees_ok ha.collected ha.published ht
      rw [ha.batch_burned]
      exact Nat.sub_add_cancel hle
    · rw [hprocessed.feeOf_eq,ha.feeOf_eq,FeeHistory.owed_close]
    · rw [hprocessed.collected]
      rfl
  · intro o y hs hcloses
    obtain ⟨t,ht,⟨⟩⟩ := bind_eq_ok.mp hs
    have hempty : (x.history.closeAny x.state.collected).pending = [] := by
      rw [ha.collected]
      rfl
    obtain ⟨p,failed,timestamp,rfl⟩ | ⟨rfl,hepoch⟩ := hcloses
    · rw [FeeHistory.next]
      split
      · exact hempty
      · exact hempty
    · rw [FeeHistory.next,if_neg hepoch]
      exact hempty

/-- With fee collection enabled, along every run of blocks, fees, upgrades, reconfigurations and
calls of the validator module, the fees are accounted for. -/
theorem fees_accounted {config : ValidationConfig} {stores : Address → Option CoinStore}
    {supply percentage : ℕ} {vs : List ValidatorOp} {os : List FeeOp} {s₀ s : FeeState}
    (hstores : BoundedBy (fun a => (stores a).elim 0 CoinStore.coin) supply)
    (hv : Run (ValidatorStorage.step pop) ValidatorStorage.Backed (.genesis config stores supply)
      vs s₀.validators)
    (hinit : s₀.initializeFeeCollectionAndDistribution percentage = .ok s)
    (hrun : Run (step pop) (fun x o => x.state.Backed o) (start s.enable) os x) :
    x.FeesAccounted pop := by
  have hwf : s₀.validators.roster.Wf := hv.invariant (I := fun t => t.roster.Wf)
    (ValidatorStorage.genesis_roster_wf config stores supply)
    fun _ _ _ ht _ hs => step_roster_wf ht hs
  have hcovered : s₀.validators.Covered 0 := hv.invariant (I := fun t => t.Covered 0)
    (genesis_covered hstores)
    fun _ _ _ ht hb hs => step_covered hs hb ht
  have hx := hrun.invariant (start_accounted hwf hcovered hinit)
    fun _ _ _ ht hb hs => (step_accounted ht hb hs).1
  exact hx.feesAccounted

/-- Validator 1 pays a fee of 10 in its own block and the epoch ends: 2 coins are burned, and the
other 8 are staked. -/
theorem fees_accounted_epoch :
    ∃ (x y : FeeRecord) (l l' : StakeLock),
      x.step (fun _ _ => true) .reconfigure = .ok y ∧
      y.state.validators.fees = some (fun _ => none) ∧
      x.state.validators.supply = 100 ∧ y.state.validators.supply = 98 ∧
      x.state.validators.stakeLocks 1 = some l ∧ y.state.validators.stakeLocks 1 = some l' ∧
      l.active = 80 ∧ l'.active = 88 ∧
      x.state.EpochPaid y.state (x.history.closeAny x.state.collected).owed := by
  have hrun : ∃ (v : ValidatorStorage) (s : FeeState) (x y : FeeRecord) (l l' : StakeLock),
      exec (ValidatorStorage.step fun _ _ => true) .purse
        (ValidatorStorage.enter 1 80 ++ [.onNewEpoch]) = .ok v ∧
      (⟨v,none,1,0,1000000,false,false⟩ :
        FeeState).initializeFeeCollectionAndDistribution 25 = .ok s ∧
      exec (step fun _ _ => true) (start s.enable) [.blockPrologue 1 [] 5,.collectFee 1 10] =
        .ok x ∧
      x.step (fun _ _ => true) .reconfigure = .ok y ∧ y.state.epoch = 2 ∧ x.state.epoch = 1 ∧
      x.state.validators.supply = 100 ∧ y.state.validators.supply = 98 ∧
      x.state.validators.stakeLocks 1 = some l ∧ y.state.validators.stakeLocks 1 = some l' ∧
      l.active = 80 ∧ l'.active = 88 :=
    ⟨_,_,_,_,_,_,rfl,rfl,rfl,rfl,rfl,rfl,rfl,rfl,rfl,rfl,rfl,rfl⟩
  obtain ⟨v,s,x,y,l,l',hv,hs,hx,hy,hepoch',hepoch,hsupply,hsupply',hl,hl',hactive,hactive'⟩ := hrun
  have hvalidators : Run (ValidatorStorage.step fun _ _ => true) ValidatorStorage.Backed .purse
      (enter 1 80 ++ [.onNewEpoch]) v := by
    refine .of_reaches (reaches_iff_exec.mpr hv) ?_
    simp [enter,ValidatorStorage.Backed]
  have hfees : Run (step fun _ _ => true) (fun x o => x.state.Backed o) (start s.enable)
      [.blockPrologue 1 [] 5,.collectFee 1 10] x := by
    refine .of_reaches (reaches_iff_exec.mpr hx) ?_
    simp [FeeState.Backed]
  have haccounted := fees_accounted purse_bounded hvalidators hs hfees
  have hpaid := haccounted.epochs .reconfigure y trivial hy (by omega)
  exact ⟨x,y,l,l',hy,hpaid.empty,hsupply,hsupply',hl,hl',hactive,hactive',hpaid⟩

end FeeRecord

end Arx
