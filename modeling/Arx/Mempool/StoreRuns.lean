import Arx.Mempool.Collection

/-!
# Runs of the mempool

What each call does to the store, and that the indexes stay in step with the main map over all calls.
-/

namespace Arx.Mempool
open Movelib Function List Option

variable {A P H : Type} {action : MempoolAction A P H}

def Admitted (U : Set (SignedTransaction A P H)) (fresh : Prop) : MempoolAction A P H → Prop
  | .addTxn txn _ _ timelineState _ _ =>
    txn ∈ U ∧ (fresh → ∀ timelineId, timelineState ≠ .ready timelineId)
  | _ => True

def submitted (actions : List (MempoolAction A P H)) : Set (SignedTransaction A P H) :=
  { txn | ∃ rankingScore sequenceInfo timelineState now rng,
    .addTxn txn rankingScore sequenceInfo timelineState now rng ∈ actions }

def WithoutIds (actions : List (MempoolAction A P H)) : Prop :=
  ∀ txn rankingScore sequenceInfo timelineId now rng,
    .addTxn txn rankingScore sequenceInfo (.ready timelineId) now rng ∉ actions

theorem admitted_univ (action : MempoolAction A P H) : Admitted Set.univ False action := by
  cases action with
  | addTxn => exact ⟨trivial,False.elim⟩
  | _ => trivial

theorem admitted_submitted {actions : List (MempoolAction A P H)} (h : action ∈ actions) :
    Admitted (submitted actions) (WithoutIds actions) action := by
  cases action with
  | addTxn txn rankingScore sequenceInfo timelineState now rng =>
    refine ⟨⟨_,_,_,_,_,h⟩,fun hfresh timelineId => ?_⟩
    rintro rfl
    exact hfresh _ _ _ _ _ _ h
  | _ => trivial

abbrev MempoolTransaction.number (t : MempoolTransaction A P H) : ℕ :=
  t.sequenceInfo.transactionSequenceNumber

/-- The number of the account that the transaction came with. -/
abbrev MempoolTransaction.minSeq (t : MempoolTransaction A P H) : ℕ :=
  t.sequenceInfo.accountSequenceNumberType.minSeq

variable [LinearOrder A]

namespace TransactionStore

variable {config : MempoolConfig} {U : Set (SignedTransaction A P H)} {fresh : Prop}
  {s s₁ s₂ s₃ s' : TransactionStore A P H} {t current : MempoolTransaction A P H}
  {l l' : List (MempoolTransaction A P H)} {gt ge : List (TxnPointer A)} {a b : A} {n m e : ℕ}
  {txns : AccountTransactions A P H}

structure Entered (s s' : TransactionStore A P H) (t : MempoolTransaction A P H) : Prop where
  get : ∀ b m, s'.getMempoolTxn b m = if (b,m) = t.pointer then some t else s.getMempoolTxn b m
  queued : ∀ p, s'.Queued p ↔ s.Queued p
  parked : ∀ p, s'.Parked p ↔ s.Parked p
  recorded : s'.sequenceNumbers = update s.sequenceNumbers t.getSender
    (some t.minSeq)

structure Same (s s' : TransactionStore A P H) : Prop where
  get : s'.getMempoolTxn = s.getMempoolTxn
  queued : s'.Queued = s.Queued
  parked : s'.Parked = s.Parked
  recorded : s'.sequenceNumbers = s.sequenceNumbers

theorem Entered.of_same (hsame : Same s s₁) (h : Entered s₁ s' t) : Entered s s' t where
  get := fun b m => (h.get b m).trans (by rw [hsame.get])
  queued := fun p => (h.queued p).trans (by rw [hsame.queued])
  parked := fun p => (h.parked p).trans (by rw [hsame.parked])
  recorded := h.recorded.trans (by rw [hsame.recorded])

theorem Removed.stored (h : Removed s s' D) (p : TxnPointer A) :
    s'.Stored p ↔ s.Stored p ∧ ¬ D p := (Collected.of_removed h).stored p

theorem Same.stored (h : Same s s') (p : TxnPointer A) : s'.Stored p ↔ s.Stored p := by
  rw [Stored,h.get]
  exact Iff.rfl

theorem Removed.of_absent (h : Holds config U fresh s l [] [] [])
    (hnew : s.getMempoolTxn a n = none) : Removed s s (· = (a,n)) := by
  refine (Removed.refl s).congr h fun p ⟨t,ht⟩ => iff_of_false id ?_
  rintro rfl
  exact absurd (hnew.symm.trans ht) nofun

/-- An account that is as full as it may be has kept all its transactions. -/
theorem not_removed_of_many {D : TxnPointer A → Prop} (h : Holds config U fresh s l [] [] [])
    (hremoved : Removed s s₂ D) (hsame : Same s₂ s') (htxns : s'.transactions a = some txns)
    (hmany : config.capacityPerUser ≤ txns.rows.length) (hn : s.Stored (a,n)) : ¬ D (a,n) := by
  have hstored : ∀ m u, (m,u) ∈ txns.rows → s.Stored (a,m) ∧ ¬ D (a,m) := fun m u hu =>
    (hremoved.stored _).mp ((hsame.stored _).mp ⟨u,get_of_mem htxns hu⟩)
  obtain ⟨t,ht⟩ := hn
  obtain ⟨old,hold,hrow⟩ := transactions_of_get ht
  have hkeys : txns.keys ⊆ old.keys := by
    intro m hm
    obtain ⟨u,hu⟩ := Column.mem_keys.mp hm
    obtain ⟨⟨v,hv⟩,-⟩ := hstored m u hu
    obtain ⟨old',hold',hrow'⟩ := transactions_of_get hv
    rw [hold,some_inj] at hold'
    subst hold'
    exact Column.mem_keys.mpr ⟨v,hrow'⟩
  have hlength : old.keys.length ≤ txns.keys.length := by
    rw [Column.keys,Column.keys,List.length_map,List.length_map]
    exact (h.perUser a old hold).trans hmany
  have hperm := (Column.keys_nodup.subperm hkeys).perm_of_length_le hlength
  obtain ⟨u,hu⟩ := Column.mem_keys.mp (hperm.mem_iff.mpr (Column.mem_keys.mpr ⟨t,hrow⟩))
  exact (hstored n u hu).2

theorem isFull_eq_false (h : Holds config U fresh s l [] [] []) (hfull : s.isFull config = false) :
    l.length < config.capacity := by
  rw [isFull,decide_eq_false_iff_not,h.systemTtl.length_eq h.unique] at hfull
  omega

/-- When a transaction is removed, the store is only full if the others take too many bytes. -/
theorem isFull_of_perm (h : Holds config U fresh s l [] [] []) (hperm : l.Perm (t :: l'))
    (h' : Holds config U fresh s' l' [] [] []) : s'.isFull config = true ↔
      config.capacityBytes ≤ s.sizeBytes - t.getEstimatedBytes config.fixedEstimatedBytes := by
  have hlength := hperm.length_eq
  have hsize := (hperm.map (·.getEstimatedBytes config.fixedEstimatedBytes)).sum_eq
  have hcapacity := h.capacity
  rw [map_cons,sum_cons,← h.size,← h'.size] at hsize
  rw [length_cons] at hlength
  rw [isFull,decide_eq_true_iff,h'.systemTtl.length_eq h'.unique]
  omega

/-- The parked transaction that makes room for another one in a full store. -/
def evicted (s : TransactionStore A P H) (parkingLotIndex : ParkingLotIndex A) (rng : ℕ)
    (t : MempoolTransaction A P H) : Option (MempoolTransaction A P H) :=
  if (s.checkTxnReady t t.minSeq).toOption = some true then
    (parkingLotIndex.getPoppable rng).bind fun p => s.getMempoolTxn p.1 p.2
  else none

/-- The store is full, and still is without the transaction that would make room. -/
def StaysFull (config : MempoolConfig) (s : TransactionStore A P H) (rng : ℕ)
    (t : MempoolTransaction A P H) : Prop :=
  s.isFull config = true ∧ ∀ u, s.evicted s.parkingLotIndex rng t = some u →
    config.capacityBytes ≤ s.sizeBytes - u.getEstimatedBytes config.fixedEstimatedBytes

theorem checkTxnReady_ok (h : m ≤ t.sequenceInfo.transactionSequenceNumber) :
    ∃ ready, s.checkTxnReady t m = .ok ready := by
  simp only [checkTxnReady]
  split_ifs with heq hzero
  · exact ⟨true,rfl⟩
  · omega
  · split
    · split <;> exact ⟨_,rfl⟩
    · exact ⟨false,rfl⟩

theorem openAccount (h : Holds config U fresh s l [] gt ge) (a : A) :
    let s' := { s with
      transactions := update s.transactions a (some ((s.transactions a).getD .empty)) }
    Holds config U fresh s' l [] gt ge ∧ Same s s' := by
  have hget : ∀ b m, getMempoolTxn { s with
      transactions := update s.transactions a (some ((s.transactions a).getD .empty)) } b m =
      s.getMempoolTxn b m := by
    intro b m
    rw [getMempoolTxn_update]
    split_ifs with hb
    · subst hb
      rw [getMempoolTxn]
      cases s.transactions b with
      | none => rfl
      | some txns => rfl
    · rfl
  refine ⟨{ h with main := ?_, perUser := ?_ },⟨funext fun b => funext (hget b),rfl,rfl,rfl⟩⟩
  · intro b m t
    rw [hget]
    exact h.main b m t
  · intro b txns hb
    change update s.transactions a _ b = some txns at hb
    by_cases hba : b = a
    · subst hba
      rw [update_self,some_inj] at hb
      subst hb
      cases htxns : s.transactions b with
      | none => exact Nat.zero_le _
      | some txns => exact h.perUser b txns htxns
    · rw [update_of_ne hba] at hb
      exact h.perUser b txns hb

section Calls

variable [DecidableEq H]

section

variable (h : Holds config U fresh s l [] [] [])

include h

theorem store_spec
    (hnew : s.getMempoolTxn t.getSender t.number = none)
    (htxns : s.transactions t.getSender = some txns)
    (hroom : txns.rows.length < config.capacityPerUser) (hcapacity : l.length < config.capacity)
    (hknown : t.txn ∈ U) (hfresh : fresh → ∀ timelineId, t.timelineState ≠ .ready timelineId) :
    Holds config U fresh (s.store config t) (t :: l) [] [] [] ∧ Entered s (s.store config t) t := by
  have hnotMem := h.notMem_of_get hnew
  have hget : ∀ b m, (s.store config t).getMempoolTxn b m =
      if (b,m) = t.pointer then some t else s.getMempoolTxn b m := by
    intro b m
    refine (getMempoolTxn_putTxn ?_).trans rfl
    exact isSome_iff_exists.mpr ⟨txns,htxns⟩
  refine ⟨?_,hget,fun _ => Iff.rfl,fun _ => Iff.rfl,rfl⟩
  constructor
  case unique => exact nodup_cons.mpr ⟨hnotMem,h.unique⟩
  case known => exact forall_mem_cons.mpr ⟨hknown,h.known⟩
  case main => exact main_putTxn hget hnotMem fun b m u _ => by simp [h.main]
  case systemTtl => exact h.systemTtl.insert
  case expirationTime => exact h.expirationTime.insert
  case priority => exact fun k hk => exists_mem_cons_of_exists (h.priority k hk)
  case parking => exact h.parking
  case parked => exact fun p hp => exists_mem_cons_of_exists (h.parked p hp)
  case size =>
    rw [map_cons,sum_cons,← h.size,add_comm]
    rfl
  case hash =>
    intro hinj hash p
    change update s.hashIndex t.getCommittedHash (some t.pointer) hash = some p ↔ _
    rw [exists_mem_cons_iff]
    by_cases hh : hash = t.getCommittedHash
    · subst hh
      rw [update_self,some_inj]
      refine ⟨fun hp => .inl ⟨rfl,hp⟩,?_⟩
      rintro (⟨-,hp⟩ | ⟨u,hu,hash,-⟩)
      · exact hp
      · -- the hash of another transaction is another one
        have htxn := hinj (h.known u hu) hknown hash
        refine absurd (mem_map_of_mem hu) (?_ : u.pointer ∉ _)
        rw [pointer_of_txn htxn]
        exact hnotMem
    · rw [update_of_ne hh,h.hash hinj]
      exact (or_iff_right fun ht => hh ht.1.symm).symm
  case buckets => exact h.buckets
  case timeline => exact fun hf => (h.timeline hf).cons (hfresh hf)
  case capacity => exact hcapacity
  case perUser =>
    rw [getMempoolTxn,htxns] at hnew
    refine perUser_putTxn h.perUser htxns ?_
    rw [Column.length_put_of_get_none injective_id hnew]
    exact hroom

theorem checkIsFullAfterEviction_spec (hle : t.minSeq ≤ t.number) (rng : ℕ) :
    ∃ s' full l' D, s.checkIsFullAfterEviction config rng t t.minSeq = .ok (s',full) ∧
      Holds config U fresh s' l' [] [] [] ∧ Removed s s' D ∧ (∀ p, D p → s.Parked p) ∧
      (full = false → l'.length < config.capacity) ∧ (full = true ↔ s.StaysFull config rng t) ∧
      (full = true → ∀ p, D p ↔ ∃ u, s.evicted s.parkingLotIndex rng t = some u ∧ u.pointer = p) := by
  obtain ⟨ready,hready⟩ := checkTxnReady_ok (s := s) hle
  by_cases hfull : s.isFull config = true
  · have hnone : ∀ {x : Option (MempoolTransaction A P H)}, x = none →
        s.evicted s.parkingLotIndex rng t = x →
        (s.isFull config = true ↔ s.StaysFull config rng t) ∧ (s.isFull config = true →
          ∀ p, False ↔ ∃ u, s.evicted s.parkingLotIndex rng t = some u ∧ u.pointer = p) := by
      rintro _ rfl heq
      simp [StaysFull,heq]
    simp only [checkIsFullAfterEviction,hready,if_pos hfull]
    cases ready with
    | false =>
      obtain ⟨hstays,hnot⟩ := hnone rfl (by simp [evicted,hready,Except.toOption])
      exact ⟨s,_,l,_,rfl,h,.refl s,nofun,isFull_eq_false h,hstays,hnot⟩
    | true =>
      cases hpop : s.parkingLotIndex.getPoppable rng with
      | none =>
        obtain ⟨hstays,hnot⟩ := hnone rfl (by simp [evicted,hpop])
        exact ⟨s,_,l,_,rfl,h,.refl s,nofun,isFull_eq_false h,hstays,hnot⟩
      | some p =>
        have hparked := ParkingLotIndex.contains_of_getPoppable h.parking hpop
        obtain ⟨u,hmem,hpointer⟩ := h.parked p hparked
        have hget : s.getMempoolTxn p.1 p.2 = some u :=
          (h.main _ _ _).mpr ⟨hmem,hpointer,not_mem_nil⟩
        have hevicted : s.evicted s.parkingLotIndex rng t = some u := by
          simp [evicted,hready,Except.toOption,hpop,hget]
        obtain ⟨s',l',hok,hperm,hholds,hremoved⟩ := removeTxn_indexRemove_spec h hget
        refine ⟨s',s'.isFull config,l',_,?_,hholds,hremoved,?_,isFull_eq_false hholds,?_,fun _ q => ?_⟩
        · simp only [Except.bind,bind,if_true,hget,hok]
          rfl
        · rintro q rfl
          exact hparked
        · rw [isFull_of_perm h hperm hholds]
          simp [StaysFull,hfull,hevicted]
        · rw [hevicted]
          simp only [some_inj,exists_eq_left',hpointer]
          exact eq_comm
  · simp only [checkIsFullAfterEviction,if_neg hfull]
    exact ⟨s,false,l,_,rfl,h,.refl s,nofun,
      fun _ => isFull_eq_false h (Bool.eq_false_of_not_eq_true hfull),
      iff_of_false nofun fun hstays => hfull hstays.1,nofun⟩

/-- Without those bytes, and without the transaction that would make room, too many are left. -/
def Overfull (config : MempoolConfig) (s : TransactionStore A P H)
    (parkingLotIndex : ParkingLotIndex A) (rng : ℕ) (t : MempoolTransaction A P H) (bytes : ℕ) : Prop :=
  config.capacityBytes ≤ s.sizeBytes - bytes ∧ ∀ u, s.evicted parkingLotIndex rng t = some u →
    config.capacityBytes ≤ s.sizeBytes - bytes - u.getEstimatedBytes config.fixedEstimatedBytes

/-- The stored version that the submission replaces, with nothing but a higher price, is thrown out,
and the other transactions still take too many bytes. -/
def LosesVersion (config : MempoolConfig) (s : TransactionStore A P H) (rng : ℕ)
    (t : MempoolTransaction A P H) : Prop :=
  ∃ current parkingLotIndex,
    s.getMempoolTxn t.getSender t.number = some current ∧
    current.txn.payload = t.txn.payload ∧
    current.txn.expirationTimestampSecs = t.txn.expirationTimestampSecs ∧
    current.txn.maxGasAmount = t.txn.maxGasAmount ∧ current.txn.gasUnitPrice < t.getGasPrice ∧
    s.parkingLotIndex.remove current = .ok parkingLotIndex ∧
    s.Overfull config parkingLotIndex rng t (current.getEstimatedBytes config.fixedEstimatedBytes)

/-- Without the version, the transaction that makes room is taken from the parking lot without it. -/
theorem staysFull_without
    (hget : s.getMempoolTxn t.getSender t.number = some current)
    (hok : (s.removeTxn t.getSender t.number).indexRemove config current = .ok s₁) (rng : ℕ) :
    ∃ parkingLotIndex, s.parkingLotIndex.remove current = .ok parkingLotIndex ∧
      (s₁.StaysFull config rng t ↔ s.Overfull config parkingLotIndex rng t
        (current.getEstimatedBytes config.fixedEstimatedBytes)) := by
  obtain ⟨_,l₁,hok',hperm,hholds,hremoved⟩ := removeTxn_indexRemove_spec h hget
  obtain rfl := Except.ok.inj (hok.symm.trans hok')
  have hfull := isFull_of_perm h hperm hholds
  obtain ⟨lot,hlot,hlot₁,hsize₁⟩ : ∃ lot, s.parkingLotIndex.remove current = .ok lot ∧
      s₁.parkingLotIndex = lot ∧
      s₁.sizeBytes = s.sizeBytes - current.getEstimatedBytes config.fixedEstimatedBytes := by
    rw [indexRemove] at hok
    obtain ⟨lot,hlot,hok⟩ := bind_eq_ok.mp hok
    split_ifs at hok
    obtain ⟨txns,numbers,hdrop⟩ := dropEmptyAccount_eq
      ((s.removeTxn t.getSender t.number).leaveIndexes config current lot) current.getSender
    rw [hdrop] at hok
    cases hok
    exact ⟨lot,hlot,rfl,rfl⟩
  have hready : s₁.checkTxnReady t t.minSeq = s.checkTxnReady t t.minSeq := by
    simp only [checkTxnReady]
    split_ifs with heq hzero
    · rfl
    · rfl
    · rw [hremoved.get _ _ fun hp => ?_]
      have hnumber := congrArg Prod.snd hp
      dsimp only [MempoolTransaction.number] at hnumber
      omega
  have hevicted : s₁.evicted s₁.parkingLotIndex rng t = s.evicted lot rng t := by
    rw [evicted,evicted,hready,hlot₁]
    congr 1
    cases hpop : lot.getPoppable rng with
    | none => rfl
    | some p =>
      have hparked : s₁.Parked p :=
        ParkingLotIndex.contains_of_getPoppable hholds.parking (hlot₁ ▸ hpop)
      exact hremoved.get _ _ ((hremoved.parked p).mp hparked).2
  refine ⟨lot,hlot,?_⟩
  rw [StaysFull,hfull,hevicted,hsize₁,Overfull]

/-- What becomes of a transaction that is not stored: at most a parked one makes room for it, those of
its account below the recorded number are removed, and it is stored and may be ready with others. -/
inductive Inserts (config : MempoolConfig) (rng : ℕ) (s : TransactionStore A P H)
    (t : MempoolTransaction A P H) : MempoolStatusCode → TransactionStore A P H → Prop
  | full {D : TxnPointer A → Prop} {s' : TransactionStore A P H} (hD : ∀ p, D p → s.Parked p)
      (hremoved : Removed s s' D)
      (hfull : s.StaysFull config rng t)
      (hevicted : ∀ p, D p ↔ ∃ u, s.evicted s.parkingLotIndex rng t = some u ∧ u.pointer = p) :
      Inserts config rng s t .mempoolIsFull s'
  | tooMany {D : TxnPointer A → Prop} {s₁ s₂ s' : TransactionStore A P H}
      (hD : ∀ p, D p → s.Parked p) (hremoved : Removed s s₁ D)
      (hclean : Removed s₁ s₂ fun p => p.1 = t.getSender ∧ p.2 < t.minSeq)
      (hsame : Same s₂ s') {txns : AccountTransactions A P H}
      (htxns : s'.transactions t.getSender = some txns)
      (hmany : config.capacityPerUser ≤ txns.rows.length) :
      Inserts config rng s t .tooManyTransactions s'
  | accepted {D : TxnPointer A → Prop} {s₁ s₂ s₃ s' : TransactionStore A P H} {e : ℕ}
      (hD : ∀ p, D p → s.Parked p) (hremoved : Removed s s₁ D)
      (hclean : Removed s₁ s₂ fun p => p.1 = t.getSender ∧ p.2 < t.minSeq)
      (hentered : Entered s₂ s₃ t)
      (hprocessed : Processed s₃ s' t.getSender t.minSeq e) :
      Inserts config rng s t .accepted s'

theorem insertNew_full (rng : ℕ) (hle : t.minSeq ≤ t.number)
    (hfull : s.StaysFull config rng t) :
    ∃ r D, s.insertNew config rng t = .ok r ∧ r.2.code = .mempoolIsFull ∧ Removed s r.1 D ∧
      (∀ p, D p → s.Parked p) ∧
      ∀ p, D p ↔ ∃ u, s.evicted s.parkingLotIndex rng t = some u ∧ u.pointer = p := by
  obtain ⟨s₁,full,l₁,D,hok,-,hremoved,hD,-,hstays,hevicted⟩ := checkIsFullAfterEviction_spec h hle rng
  obtain rfl := hstays.mpr hfull
  rw [insertNew]
  simp only [hok,Except.bind,bind]
  exact ⟨_,D,rfl,rfl,hremoved,hD,hevicted rfl⟩

theorem insertNew_spec
    (hnew : s.getMempoolTxn t.getSender t.number = none) (hle : t.minSeq ≤ t.number)
    (hknown : t.txn ∈ U) (hfresh : fresh → ∀ timelineId, t.timelineState ≠ .ready timelineId)
    (rng : ℕ) :
    Returns Overflows (fun r => ∃ l', Holds config U fresh r.1 l' [] [] [] ∧
      Inserts config rng s t r.2.code r.1) (s.insertNew config rng t) := by
  obtain ⟨s₁,full,l₁,D,hok,hholds₁,hremoved,hD,hroom,hstays,hevicted⟩ :=
    checkIsFullAfterEviction_spec h hle rng
  rw [insertNew]
  simp only [hok,Except.bind,bind]
  cases full with
  | true => exact ⟨l₁,hholds₁,.full hD hremoved (hstays.mp rfl) (hevicted rfl)⟩
  | false =>
    obtain ⟨s₂,l₂,hok₂,hlength,hholds₂,hclean⟩ := cleanCommittedTransactions_spec hholds₁
      t.getSender t.minSeq
    obtain ⟨hopen,hsame⟩ := openAccount hholds₂ t.getSender
    simp only [hok₂,Bool.false_eq_true,if_false]
    split_ifs with hmany
    · exact ⟨l₂,hopen,.tooMany hD hremoved hclean hsame (update_self _ _ _) hmany⟩
    · have hnew₂ : s₂.getMempoolTxn t.getSender t.number = none := by
        rw [hclean.get _ _ fun hlt => absurd hlt.2 (not_lt.mpr hle)]
        by_cases hDt : D t.pointer
        · exact hremoved.gone _ _ hDt
        · exact (hremoved.get _ _ hDt).trans hnew
      obtain ⟨hholds₃,hentered⟩ := store_spec hopen ((congrFun (congrFun hsame.get _) _).trans hnew₂)
        (update_self _ _ _) (not_le.mp hmany)
        (hlength.trans_lt (hroom rfl)) hknown hfresh
      refine (processReadyTransactions_spec hholds₃ t.getSender _).bind fun s' hs' => ?_
      obtain ⟨l',e,-,hholds',hprocessed⟩ := hs'
      exact ⟨l',hholds',.accepted hD hremoved hclean (hentered.of_same hsame) hprocessed⟩

inductive Steps (config : MempoolConfig) (s : TransactionStore A P H) :
    MempoolAction A P H → TransactionStore A P H → Prop
  | unchanged (action : MempoolAction A P H) : Steps config s action s
  | added {txn : SignedTransaction A P H} {rankingScore : ℕ} {sequenceInfo : AccountSequenceInfo}
      {timelineState : TimelineState} {now rng : ℕ} {code : MempoolStatusCode}
      {s₁ s' : TransactionStore A P H} (hle : sequenceInfo.minSeq ≤ txn.sequenceNumber)
      (hloses : s₁.StaysFull config rng (.new txn (now + config.systemTransactionTimeout) rankingScore
        timelineState (.sequential sequenceInfo.minSeq)) → s.Stored (txn.sender,txn.sequenceNumber) →
        s.LosesVersion config rng (.new txn (now + config.systemTransactionTimeout) rankingScore
          timelineState (.sequential sequenceInfo.minSeq)))
      (hremoved : Removed s s₁ (· = (txn.sender,txn.sequenceNumber)))
      (hinserts : Inserts config rng s₁ (.new txn (now + config.systemTransactionTimeout) rankingScore
        timelineState (.sequential sequenceInfo.minSeq)) code s') :
      Steps config s (.addTxn txn rankingScore sequenceInfo timelineState now rng) s'
  | committed {sender : A} {sequenceNumber number e : ℕ} {s₂ s' : TransactionStore A P H}
      (hnumber : number = max ((s.sequenceNumbers sender).getD 0) (sequenceNumber + 1))
      (hclean : Removed { s with
        sequenceNumbers := update s.sequenceNumbers sender (some number) } s₂
        fun p => p.1 = sender ∧ p.2 < number)
      (hprocessed : Processed s₂ s' sender number e) :
      Steps config s (.commitTransaction sender sequenceNumber) s'
  | rejected {sender : A} {sequenceNumber : ℕ} {hash : H} {s' : TransactionStore A P H}
      (hhash : s.hashIndex hash = some (sender,sequenceNumber))
      (hremoved : Removed s s' (· = (sender,sequenceNumber))) :
      Steps config s (.rejectTransaction sender sequenceNumber hash) s'
  | collected {action : MempoolAction A P H} {keys : List (TTLOrderingKey A)} {now : ℕ}
      {s' : TransactionStore A P H} (hgc : action = .gc now ∨ action = .gcByExpirationTime now)
      (hstored : ∀ k ∈ keys, s.Stored (k.address,k.sequenceNumber))
      (hcollected : Collected s s' (Expired keys) (AfterExpired keys)) : Steps config s action s'

theorem commitTransaction_spec (a : A) (n : ℕ) :
    Returns Overflows (fun s' => ∃ l', Holds config U fresh s' l' [] [] [] ∧
      Steps config s (.commitTransaction a n) s') (s.commitTransaction config a n) := by
  refine (returns_checkedSucc n).bind fun next hnext => ?_
  obtain ⟨rfl,-⟩ := hnext
  obtain ⟨s₂,l₂,hok,-,hholds₂,hclean⟩ := cleanCommittedTransactions_spec (s := { s with
    sequenceNumbers := update s.sequenceNumbers a
      (some (max ((s.getSequenceNumber a).getD 0) (n + 1))) }) { h with } a
    (max ((s.getSequenceNumber a).getD 0) (n + 1))
  simp only [AccountSequenceInfo.minSeq,hok]
  refine (processReadyTransactions_spec hholds₂ a _).imp fun s' hs' => ?_
  obtain ⟨l',e,-,hholds',hprocessed⟩ := hs'
  exact ⟨l',hholds',.committed rfl hclean hprocessed⟩

theorem rejectTransaction_spec (a : A) (n : ℕ) (hash : H) :
    Returns Overflows (fun s' => ∃ l', Holds config U fresh s' l' [] [] [] ∧
      Steps config s (.rejectTransaction a n hash) s') (s.rejectTransaction config a n hash) := by
  rw [rejectTransaction]
  split_ifs with hhash
  · cases hget : s.getMempoolTxn a n with
    | none => exact ⟨l,h,.unchanged _⟩
    | some t =>
      obtain ⟨s',l',hok,-,hholds,hremoved⟩ := removeTxn_indexRemove_spec h hget
      simp only [hok]
      exact ⟨l',hholds,.rejected hhash hremoved⟩
  · exact ⟨l,h,.unchanged _⟩

variable [DecidableEq P]

theorem insert_spec (hle : t.minSeq ≤ t.number)
    (hknown : t.txn ∈ U) (hfresh : fresh → ∀ timelineId, t.timelineState ≠ .ready timelineId)
    (rng : ℕ) :
    Returns Overflows (fun r => ∃ l', Holds config U fresh r.1 l' [] [] [] ∧ (r.1 = s ∨
      s.getMempoolTxn t.getSender t.number = none ∧
        Inserts config rng s t r.2.code r.1 ∨
      ∃ s₁, (s₁.StaysFull config rng t → s.LosesVersion config rng t) ∧
        Removed s s₁ (· = t.pointer) ∧ Inserts config rng s₁ t r.2.code r.1))
      (s.insert config rng t) := by
  rw [insert]
  cases hget : s.getMempoolTxn t.getSender t.number with
  | none =>
    refine (insertNew_spec h hget hle hknown hfresh rng).imp fun r hr => ?_
    obtain ⟨l',hholds,hinserts⟩ := hr
    exact ⟨l',hholds,.inr (.inl ⟨rfl,hinserts⟩)⟩
  | some current =>
    obtain ⟨s₁,l₁,hok,hperm,hholds₁,hremoved⟩ := removeTxn_indexRemove_spec h hget
    simp only [hok]
    split_ifs with hpayload hexpiration hgas hprice
    · exact ⟨l,h,.inl rfl⟩
    · exact ⟨l,h,.inl rfl⟩
    · exact ⟨l,h,.inl rfl⟩
    · refine (insertNew_spec hholds₁ (hremoved.gone _ _ rfl) hle hknown hfresh rng).imp fun r hr => ?_
      obtain ⟨l',hholds,hinserts⟩ := hr
      obtain ⟨lot,hlot,hstays⟩ := staysFull_without h hget hok rng
      exact ⟨l',hholds,.inr (.inr ⟨s₁,fun hfull => ⟨current,lot,hget,not_not.mp hpayload,
        not_not.mp hexpiration,not_not.mp hgas,hprice,hlot,hstays.mp hfull⟩,hremoved,hinserts⟩)⟩
    · exact ⟨l,h,.inl rfl⟩
    · exact ⟨l,h,.inl rfl⟩

theorem addTxn_spec {txn : SignedTransaction A P H} {timelineState : TimelineState}
    (rankingScore : ℕ) (sequenceInfo : AccountSequenceInfo) (now rng : ℕ) (hknown : txn ∈ U)
    (hfresh : fresh → ∀ timelineId, timelineState ≠ .ready timelineId) :
    Returns Overflows (fun r => ∃ l', Holds config U fresh r.1 l' [] [] [] ∧
      Steps config s (.addTxn txn rankingScore sequenceInfo timelineState now rng) r.1)
      (s.addTxn config txn rankingScore sequenceInfo timelineState now rng) := by
  simp only [addTxn]
  split_ifs with hlt
  · exact ⟨l,h,.unchanged _⟩
  · have hle := not_lt.mp hlt
    refine (insert_spec (t := .new txn (now + config.systemTransactionTimeout) rankingScore
      timelineState (.sequential sequenceInfo.minSeq)) h hle hknown hfresh rng).imp fun r hr => ?_
    obtain ⟨l',hholds,heq | ⟨hnew,hinserts⟩ | ⟨s₁,hloses,hremoved,hinserts⟩⟩ := hr
    · rw [heq] at hholds ⊢
      exact ⟨l',hholds,.unchanged _⟩
    · refine ⟨l',hholds,.added hle (fun _ ⟨t,ht⟩ => ?_) (.of_absent h hnew) hinserts⟩
      exact absurd (hnew.symm.trans ht) nofun
    · exact ⟨l',hholds,.added hle (fun hfull _ => hloses hfull) hremoved hinserts⟩

theorem step_spec [OrderBot A] (hadmitted : Admitted U fresh action) :
    Returns Overflows (fun s' => ∃ l', Holds config U fresh s' l' [] [] [] ∧ Steps config s action s')
      (s.step config action) := by
  cases action with
  | addTxn txn rankingScore sequenceInfo timelineState now rng =>
    exact (addTxn_spec h rankingScore sequenceInfo now rng hadmitted.1 hadmitted.2).map fun r hr => hr
  | commitTransaction sender sequenceNumber => exact commitTransaction_spec h sender sequenceNumber
  | rejectTransaction sender sequenceNumber hash =>
    exact rejectTransaction_spec h sender sequenceNumber hash
  | gc now =>
    obtain ⟨s',l',keys,hok,hholds,hstored,hcollected⟩ := gc_spec h now true
    rw [step,hok]
    exact ⟨l',hholds,.collected (.inl rfl) hstored hcollected⟩
  | gcByExpirationTime blockTime =>
    obtain ⟨s',l',keys,hok,hholds,hstored,hcollected⟩ := gc_spec h blockTime false
    rw [step,hok]
    exact ⟨l',hholds,.collected (.inr rfl) hstored hcollected⟩

end

variable [DecidableEq P] [OrderBot A] {actions : List (MempoolAction A P H)}

theorem reached_holds {G : TransactionStore A P H → MempoolAction A P H → Prop}
    {I : TransactionStore A P H → Prop} (h : Reached (step config) G (new config) s)
    (hnew : I (new config))
    (hstep : ∀ s l action s', Holds config Set.univ False s l [] [] [] → I s → G s action →
      s.step config action = .ok s' → Steps config s action s' → I s') :
    (∃ l, Holds config Set.univ False s l [] [] []) ∧ I s := by
  refine h.invariant (I := fun s => (∃ l, Holds config Set.univ False s l [] [] []) ∧ I s)
    ⟨⟨[],.start⟩,hnew⟩ ?_
  rintro s action s' ⟨⟨l,hs⟩,hI⟩ hG hok
  obtain ⟨l',hholds,hsteps⟩ := (step_spec hs (admitted_univ action)).of_ok hok
  exact ⟨⟨l',hholds⟩,hstep s l action s' hs hI hG hok hsteps⟩

theorem run_spec (hadmitted : ∀ action ∈ actions, Admitted U fresh action) :
    Returns Overflows (fun s => ∃ l, Holds config U fresh s l [] [] []) (run config actions) := by
  refine Returns.foldlM ⟨[],.start⟩ fun s ⟨l,hs⟩ action haction => ?_
  refine (step_spec hs (hadmitted action haction)).imp fun s' hs' => ?_
  obtain ⟨l',hholds,-⟩ := hs'
  exact ⟨l',hholds⟩

end Calls

/-- The indexes hold exactly the stored transactions, which are those of a list. -/
structure InStep (config : MempoolConfig) (s : TransactionStore A P H)
    (l : List (MempoolTransaction A P H)) : Prop where
  nodup : l.Nodup
  stored : ∀ a n t, s.getMempoolTxn a n = some t ↔ t ∈ l ∧ t.pointer = (a,n)
  systemTtl : ∀ k, k ∈ s.systemTtlIndex.keys ↔ ∃ t ∈ l, TTLIndex.makeKey systemExpiration t = k
  expirationTime :
    ∀ k, k ∈ s.expirationTimeIndex.keys ↔ ∃ t ∈ l, TTLIndex.makeKey clientExpiration t = k
  hash : ∀ h p, s.hashIndex h = some p ↔ ∃ t ∈ l, t.getCommittedHash = h ∧ t.pointer = p
  timeline : ∀ i timelineId p, (timelineId,p) ∈ (s.timelineIndex.timelines i).timeline.rows ↔
    ∃ t ∈ l, t.timelineState = .ready timelineId ∧
      MultiBucketTimelineIndex.bucketOf config.broadcastBuckets t.rankingScore = i ∧ t.pointer = p
  parking : s.parkingLotIndex.WellFormed
  parked : ∀ a n, s.parkingLotIndex.contains a n = true → ∃ t ∈ l, t.pointer = (a,n)
  size : s.sizeBytes = (l.map (·.getEstimatedBytes config.fixedEstimatedBytes)).sum
  capacity : l.length ≤ config.capacity
  perUser : ∀ a txns, s.transactions a = some txns → txns.rows.length ≤ config.capacityPerUser

/-- The main map and the indexes stay in step over every run whose transactions have different hashes
and come in without an id. No call fails but for a sequence number out of range. -/
theorem mempool_in_step [DecidableEq H] [DecidableEq P] [OrderBot A] (config : MempoolConfig)
    (actions : List (MempoolAction A P H))
    (hhash : (submitted actions).InjOn SignedTransaction.committedHash)
    (hids : WithoutIds actions) :
    Returns (· = .sequenceNumberOverflow)
      (fun s => ∃ l : List (MempoolTransaction A P H), InStep config s l) (run config actions) := by
  refine (run_spec fun action => admitted_submitted).imp fun s hs => ?_
  obtain ⟨l,h⟩ := hs
  refine ⟨l,h.unique.of_map,fun a n t => ?_,fun k => ?_,fun k => ?_,h.hash hhash,
    h.buckets ▸ (h.timeline hids).rows,h.parking,fun a n => h.parked (a,n),h.size,h.capacity,h.perUser⟩
  · simpa using h.main a n t
  · simpa using h.systemTtl k
  · simpa using h.expirationTime k

def sampleConfig : MempoolConfig := ⟨3,1000,2,[0],10,1⟩

def sampleTxn (sender sequenceNumber gasUnitPrice : ℕ) : SignedTransaction ℕ Unit (ℕ × ℕ × ℕ) :=
  ⟨sender,sequenceNumber,(),1,gasUnitPrice,5,10,(sender,sequenceNumber,gasUnitPrice)⟩

def sampleActions : List (MempoolAction ℕ Unit (ℕ × ℕ × ℕ)) :=
  [.addTxn (sampleTxn 0 1 1) 1 (.sequential 0) .notReady 0 0,
    .addTxn (sampleTxn 0 0 1) 1 (.sequential 0) .notReady 0 0,.commitTransaction 0 0]

def after (s : TransactionStore ℕ Unit (ℕ × ℕ × ℕ)) (action : MempoolAction ℕ Unit (ℕ × ℕ × ℕ)) :
    TransactionStore ℕ Unit (ℕ × ℕ × ℕ) :=
  (s.step sampleConfig action).toOption.getD s

theorem reached_after {G : TransactionStore ℕ Unit (ℕ × ℕ × ℕ) → MempoolAction ℕ Unit (ℕ × ℕ × ℕ) → Prop}
    {s : TransactionStore ℕ Unit (ℕ × ℕ × ℕ)} {action : MempoolAction ℕ Unit (ℕ × ℕ × ℕ)}
    (h : Reached (step sampleConfig) G (new sampleConfig) s) (hG : G s action)
    (hok : (s.step sampleConfig action).toOption.isSome) :
    Reached (step sampleConfig) G (new sampleConfig) (s.after action) :=
  .tail action h hG (eq_ok_of_isSome hok s)

theorem mempool_in_step_sample :
    ∃ s, run sampleConfig sampleActions = .ok s ∧ ∃ l, InStep sampleConfig s l := by
  have hok := eq_ok_of_isSome (x := run sampleConfig sampleActions) (by decide +kernel)
    (new sampleConfig)
  refine ⟨_,hok,(mempool_in_step sampleConfig sampleActions ?_ ?_).of_ok hok⟩
  · rintro txn ⟨_,_,_,_,_,h⟩ txn' ⟨_,_,_,_,_,h'⟩ heq
    simp only [sampleActions,mem_cons,MempoolAction.addTxn.injEq,reduceCtorEq,not_mem_nil,
      or_false] at h h'
    rcases h with ⟨rfl,-⟩ | ⟨rfl,-⟩ <;> rcases h' with ⟨rfl,-⟩ | ⟨rfl,-⟩
    · rfl
    · exact absurd heq (by decide)
    · exact absurd heq (by decide)
    · rfl
  · intro txn _ _ _ _ _ h
    simp [sampleActions] at h

/-- A transaction that comes in with an id is stored in that state and is not in the timeline. -/
theorem id_not_in_timeline :
    ((run sampleConfig [.addTxn (sampleTxn 0 0 1) 1 (.sequential 0) (.ready 5) 0 0]).map fun s =>
      ((s.getMempoolTxn 0 0).map (·.timelineState),(s.timelineIndex.timelines 0).timeline.rows)) =
      .ok (some (.ready 5),[]) := by
  decide +kernel

/-- The submission is refused because the store stays full: it has then thrown out the version it was
to replace, or evicted another transaction of its sender. -/
def Loses (config : MempoolConfig) (s : TransactionStore A P H) (rng : ℕ)
    (t : MempoolTransaction A P H) : Prop :=
  t.minSeq ≤ t.number ∧ (s.LosesVersion config rng t ∨
    s.getMempoolTxn t.getSender t.number = none ∧ s.StaysFull config rng t ∧
      ∃ u n, s.evicted s.parkingLotIndex rng t = some u ∧ u.pointer = (t.getSender,n) ∧ t.minSeq ≤ n)

/-- The transactions of a sender from a number on are stored and indexed as before. -/
def Keeps (s s' : TransactionStore A P H) (a : A) (m : ℕ) : Prop :=
  ∀ n t, m ≤ n → s.getMempoolTxn a n = some t → s'.getMempoolTxn a n = some t ∧
    (s'.Queued (a,n) ↔ s.Queued (a,n)) ∧ (s'.Parked (a,n) ↔ s.Parked (a,n))

theorem Removed.keeps {D : TxnPointer A → Prop} (h : Removed s s' D)
    (hD : ∀ n, m ≤ n → s.Stored (a,n) → ¬ D (a,n)) : s.Keeps s' a m := by
  intro n t hn ht
  have hnot := hD n hn ⟨t,ht⟩
  rw [h.get _ _ hnot,h.queued,h.parked]
  exact ⟨ht,and_iff_left hnot,and_iff_left hnot⟩

section Refused

variable [DecidableEq H] [DecidableEq P] {rng : ℕ} {r : TransactionStore A P H × MempoolStatus}
  (h : Holds config U fresh s l [] [] [])
  (hle : t.minSeq ≤ t.number)

include h hle

theorem keeps_of_refused (hknown : t.txn ∈ U)
    (hfresh : fresh → ∀ timelineId, t.timelineState ≠ .ready timelineId)
    (hadd : s.insert config rng t = .ok r) (hcode : r.2.code ≠ .accepted)
    (hkept : ¬ s.Loses config rng t) :
    s.Keeps r.1 t.getSender t.minSeq := by
  obtain ⟨s',code,message⟩ := r
  obtain ⟨l',-,hinsert⟩ := (insert_spec h hle hknown hfresh rng).of_ok hadd
  have hmany : ∀ {s₁}, Removed s s₁ (· = t.pointer) → Inserts config rng s₁ t code s' →
      code ≠ .mempoolIsFull →
      s.Keeps s' t.getSender t.minSeq := by
    intro s₁ hremoved hinserts hfull
    cases hinserts with
    | full => exact absurd rfl hfull
    | tooMany _ hevicted hclean hsame htxns hmany =>
      have htotal := (hremoved.trans hevicted).trans hclean
      intro n t' hn ht'
      rw [hsame.get,hsame.queued,hsame.parked]
      exact htotal.keeps (fun k _ hk => not_removed_of_many h htotal hsame htxns hmany hk) n t' hn ht'
    | accepted => exact absurd rfl hcode
  rcases hinsert with rfl | ⟨hnew,hinserts⟩ | ⟨s₁,hloses,hremoved,hinserts⟩
  · exact fun n t _ ht => ⟨ht,Iff.rfl,Iff.rfl⟩
  · by_cases hfull : code = .mempoolIsFull
    · subst hfull
      cases hinserts with
      | full hD hremoved hfull hevicted =>
        refine hremoved.keeps fun n hn _ hDn => hkept ⟨hle,.inr ⟨hnew,hfull,?_⟩⟩
        obtain ⟨u,hu,hpointer⟩ := (hevicted _).mp hDn
        exact ⟨u,n,hu,hpointer,hn⟩
    · exact hmany (.of_absent h hnew) hinserts hfull
  · refine hmany hremoved hinserts ?_
    rintro rfl
    cases hinserts with
    | full _ _ hfull => exact hkept ⟨hle,.inl (hloses hfull)⟩

theorem refused_of_loses (hloses : s.Loses config rng t) :
    ∃ r, s.insert config rng t = .ok r ∧ r.2.code = .mempoolIsFull ∧
      ¬ s.Keeps r.1 t.getSender t.minSeq := by
  rw [insert]
  obtain ⟨current,lot,hget,hpayload,hexpiration,hgas,hprice,hlot,hfull⟩ |
    ⟨hnew,hfull,u,n,hu,hpointer,hn⟩ := hloses.2
  · obtain ⟨s₁,l₁,hok,-,hholds,hremoved⟩ := removeTxn_indexRemove_spec h hget
    obtain ⟨_,hlot',hstays⟩ := staysFull_without h hget hok rng
    obtain rfl := Except.ok.inj (hlot.symm.trans hlot')
    obtain ⟨r,D,hr,hcode,hevicted,-⟩ := insertNew_full hholds rng hle (hstays.mpr hfull)
    simp only [hget,hok]
    rw [if_neg (not_not.mpr hpayload),if_neg (not_not.mpr hexpiration),if_neg (not_not.mpr hgas),
      if_pos hprice]
    refine ⟨r,hr,hcode,fun hkeeps => ?_⟩
    have hstored := (hevicted.stored t.pointer).mp ⟨_,(hkeeps _ _ hle hget).1⟩
    exact ((hremoved.stored _).mp hstored.1).2 rfl
  · obtain ⟨r,D,hr,hcode,hremoved,hD,hevicted⟩ := insertNew_full h rng hle hfull
    simp only [hnew]
    refine ⟨r,hr,hcode,fun hkeeps => ?_⟩
    have hDn : D (t.getSender,n) := (hevicted _).mpr ⟨u,hu,hpointer⟩
    obtain ⟨v,hv⟩ := h.stored_of_parked (hD _ hDn)
    exact ((hremoved.stored (t.getSender,n)).mp ⟨_,(hkeeps _ _ hn hv).1⟩).2 hDn

end Refused

/-- A submission that is not accepted keeps the transactions of its sender, those below the given
number apart, unless the store stays full and the submission has made room on the way. -/
theorem sender_kept_iff [DecidableEq H] [DecidableEq P] [OrderBot A]
    (config : MempoolConfig) (actions : List (MempoolAction A P H)) (s : TransactionStore A P H)
    (hrun : run config actions = .ok s) (txn : SignedTransaction A P H) (rankingScore : ℕ)
    (sequenceInfo : AccountSequenceInfo) (timelineState : TimelineState) (now rng : ℕ) :
    (∀ r, s.addTxn config txn rankingScore sequenceInfo timelineState now rng = .ok r →
      r.2.code ≠ .accepted → s.Keeps r.1 txn.sender sequenceInfo.minSeq) ↔
      ¬ s.Loses config rng (.new txn (now + config.systemTransactionTimeout) rankingScore
        timelineState (.sequential sequenceInfo.minSeq)) := by
  obtain ⟨l,h⟩ := (run_spec fun action _ => admitted_univ action).of_ok hrun
  constructor
  · intro hkept hloses
    obtain ⟨r,hr,hcode,hlost⟩ := refused_of_loses h hloses.1 hloses
    refine hlost (hkept r ?_ fun haccepted => absurd (hcode.symm.trans haccepted) nofun)
    rw [addTxn]
    exact (if_neg (not_lt.mpr hloses.1)).trans hr
  · intro hkept r hadd hcode
    simp only [addTxn] at hadd
    split_ifs at hadd with hlt
    · cases hadd
      exact fun n t _ ht => ⟨ht,Iff.rfl,Iff.rfl⟩
    · exact keeps_of_refused h (not_lt.mp hlt) trivial nofun hadd hcode hkept

def fullConfig : MempoolConfig :=
  { sampleConfig with capacityBytes := 15 }

def fullActions : List (MempoolAction ℕ Unit (ℕ × ℕ × ℕ)) :=
  [.addTxn (sampleTxn 0 0 1) 1 (.sequential 0) .notReady 0 0,
    .addTxn { sampleTxn 1 0 1 with rawTxnBytesLen := 20 } 1 (.sequential 0) .notReady 0 0]

theorem sender_kept_full : ∃ s r, run fullConfig fullActions = .ok s ∧
    s.addTxn fullConfig (sampleTxn 0 1 1) 1 (.sequential 0) .notReady 0 0 = .ok r ∧
    r.2.code = .mempoolIsFull ∧ (s.getMempoolTxn 0 0).isSome ∧ s.Keeps r.1 0 0 := by
  let s := (run fullConfig fullActions).toOption.getD (new fullConfig)
  have hrun : run fullConfig fullActions = .ok s := eq_ok_of_isSome (by decide +kernel) _
  have hadd := eq_ok_of_isSome (x := s.addTxn fullConfig (sampleTxn 0 1 1) 1 (.sequential 0)
    .notReady 0 0) (by decide +kernel) (s,⟨.accepted,""⟩)
  have hnew : s.getMempoolTxn 0 1 = none := by decide +kernel
  have hnone : s.evicted s.parkingLotIndex 0 (.new (sampleTxn 0 1 1) (0 +
    fullConfig.systemTransactionTimeout) 1 .notReady (.sequential 0)) = none := by decide +kernel
  have hkept : ¬ s.Loses fullConfig 0 (.new (sampleTxn 0 1 1) (0 +
      fullConfig.systemTransactionTimeout) 1 .notReady (.sequential 0)) := by
    rintro ⟨-,⟨_,_,hget,-⟩ | ⟨-,-,u,_,hu,-⟩⟩
    · exact absurd (hnew.symm.trans hget) nofun
    · exact absurd (hnone.symm.trans hu) nofun
  exact ⟨s,_,hrun,hadd,by decide +kernel,by decide +kernel,(sender_kept_iff fullConfig fullActions s
    hrun (sampleTxn 0 1 1) 1 (.sequential 0) .notReady 0 0).mpr hkept _ hadd (by decide +kernel)⟩

/-- The stored version is gone when the mempool is found to be full of bytes without it. -/
theorem replaced_version_lost :
    (run fullConfig fullActions >>= fun s => (s.addTxn fullConfig (sampleTxn 0 0 2) 1
      (.sequential 0) .notReady 0 0).map fun r =>
        ((s.getMempoolTxn 0 0).isSome,r.2.code,(r.1.getMempoolTxn 0 0).isSome)) =
      .ok (true,.mempoolIsFull,false) := by
  decide +kernel

end TransactionStore

end Arx.Mempool
