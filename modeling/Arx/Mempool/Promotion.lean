import Arx.Mempool.StoreSteps

/-!
# Ready and parked transactions

Transactions without a gap from the number of their account on are promoted, and those after a gap
or an expired one are parked.
-/

namespace Arx.Mempool
open Movelib List

variable {A P H : Type}

def Overflows (e : Panic) : Prop := e = .sequenceNumberOverflow

theorem returns_checkedSucc (n : ℕ) :
    Returns Overflows (fun next => next = n + 1 ∧ n + 1 < 2^64) (checkedSucc n) := by
  rw [checkedSucc]
  split_ifs with hlt
  · exact ⟨rfl,hlt⟩
  · exact (rfl : Panic.sequenceNumberOverflow = _)

def MempoolTransaction.withState (t : MempoolTransaction A P H) (state : TimelineState) :
    MempoolTransaction A P H :=
  { t with timelineState := state }

def Readied (state state' : TimelineState) : Prop :=
  if state = .notReady then ∃ timelineId, state' = .ready timelineId else state' = state

variable [LinearOrder A]

namespace TransactionStore

variable {config : MempoolConfig} {U : Set (SignedTransaction A P H)} {fresh : Prop}
  {s s' : TransactionStore A P H} {t : MempoolTransaction A P H}
  {l : List (MempoolTransaction A P H)} {gt ge : List (TxnPointer A)} {a b : A} {n m e : ℕ}

namespace Holds

section

variable (h : Holds config U fresh s (t :: l) [] gt ge)

include h

theorem get_head : s.getMempoolTxn t.getSender t.sequenceInfo.transactionSequenceNumber = some t :=
  (h.main _ _ t).mpr ⟨mem_cons_self,rfl,not_mem_nil⟩

theorem get_same (b : A) (m : ℕ) :
    s.getMempoolTxn b m = if (b,m) = t.pointer then some t else s.getMempoolTxn b m := by
  split_ifs with hp
  · cases hp
    exact h.get_head
  · rfl

theorem setState (state : TimelineState) {index : MultiBucketTimelineIndex A}
    (hmins : index.bucketMins = config.broadcastBuckets)
    (htimeline : fresh → index.Follows (t.withState state :: l)) :
    Holds config U fresh ({ s with timelineIndex := index }.putTxn (t.withState state))
      (t.withState state :: l) [] gt ge ∧
    ∀ b m, ({ s with timelineIndex := index }.putTxn (t.withState state)).getMempoolTxn b m =
      if (b,m) = t.pointer then some (t.withState state) else s.getMempoolTxn b m := by
  obtain ⟨txns,htxns,hrow⟩ := transactions_of_get h.get_head
  have hget : ∀ b m, ({ s with timelineIndex := index }.putTxn
      (t.withState state)).getMempoolTxn b m =
      if (b,m) = t.pointer then some (t.withState state) else s.getMempoolTxn b m := by
    intro b m
    refine getMempoolTxn_putTxn (s := { s with timelineIndex := index }) (t := t.withState state) ?_
    exact Option.isSome_iff_exists.mpr ⟨txns,htxns⟩
  refine ⟨?_,hget⟩
  constructor
  case unique => exact h.unique
  case known => exact forall_mem_cons.mpr (forall_mem_cons.mp h.known)
  case main =>
    refine main_putTxn hget h.notMem fun b m u hp => ?_
    rw [h.main,mem_cons,and_iff_left (not_mem_nil : (b,m) ∉ [])]
    refine and_congr_left fun hpointer => or_iff_right ?_
    rintro rfl
    exact hp hpointer.symm
  case systemTtl => exact h.systemTtl.change rfl rfl
  case expirationTime => exact h.expirationTime.change rfl rfl
  case priority =>
    exact fun k hk => (exists_mem_cons_iff ..).mpr ((exists_mem_cons_iff ..).mp (h.priority k hk))
  case parking => exact h.parking
  case parked =>
    exact fun p hp => (exists_mem_cons_iff ..).mpr ((exists_mem_cons_iff ..).mp (h.parked p hp))
  case size => exact h.size
  case hash =>
    intro hinj hash p
    refine (h.hash hinj hash p).trans ?_
    rw [exists_mem_cons_iff,exists_mem_cons_iff]
    rfl
  case buckets => exact hmins
  case timeline => exact htimeline
  case capacity => exact h.capacity
  case perUser =>
    refine perUser_putTxn (s := { s with timelineIndex := index }) h.perUser htxns ?_
    change (txns.put t.sequenceInfo.transactionSequenceNumber (t.withState state)).rows.length ≤ _
    rw [Column.length_put_of_get_some Function.injective_id
      ((Column.get_eq_some Function.injective_id).mpr hrow)]
    exact h.perUser _ txns htxns

end

end Holds

theorem promote_spec (h : Holds config U fresh s (t :: l) [] gt ge) : ∃ s' state,
    s.promote t = .ok s' ∧ Holds config U fresh s' (t.withState state :: l) [] gt ge ∧
    Readied t.timelineState state ∧
    (∀ b m, s'.getMempoolTxn b m =
      if (b,m) = t.pointer then some (t.withState state) else s.getMempoolTxn b m) ∧
    (∀ p, s'.Queued p ↔ s.Queued p ∨ p = t.pointer) ∧
    (∀ p, s'.Parked p ↔ s.Parked p ∧ p ≠ t.pointer) ∧
    s'.sequenceNumbers = s.sequenceNumbers := by
  obtain ⟨parking,hparking,hwf,hcontains⟩ := ParkingLotIndex.remove_spec h.parking t
  -- the queue and the parking lot are changed in the same way whatever the state
  have hmoved : ∀ (s₁ : TransactionStore A P H) (state : TimelineState),
      Holds config U fresh s₁ (t.withState state :: l) [] gt ge →
      s₁.priorityIndex = s.priorityIndex → s₁.parkingLotIndex = s.parkingLotIndex →
      Holds config U fresh { s₁ with
        priorityIndex := s.priorityIndex.insert t
        parkingLotIndex := parking } (t.withState state :: l) [] gt ge ∧
      (∀ p, Queued { s₁ with
        priorityIndex := s.priorityIndex.insert t
        parkingLotIndex := parking } p ↔ s.Queued p ∨ p = t.pointer) ∧
      ∀ p, Parked { s₁ with
        priorityIndex := s.priorityIndex.insert t
        parkingLotIndex := parking } p ↔ s.Parked p ∧ p ≠ t.pointer := by
    intro s₁ state h₁ hpriority hlot
    have hkeys : ∀ k, k ∈ (s.priorityIndex.insert t).keys ↔
        k = PriorityIndex.makeKey t ∨ k ∈ s.priorityIndex.keys :=
      fun k => Column.mem_keys_put OrderedQueueKey.order_injective
    refine ⟨{ h₁ with priority := ?_, parking := hwf, parked := ?_ },fun p => ?_,fun p => ?_⟩
    · intro k hk
      rcases (hkeys k).mp hk with rfl | hk
      · exact ⟨_,mem_cons_self,rfl⟩
      · exact h₁.priority k (hpriority ▸ hk)
    · intro p hp
      refine h₁.parked p ?_
      rw [Parked,hlot]
      exact ((hcontains p.1 p.2).mp hp).2
    · constructor
      · rintro ⟨k,hk,rfl⟩
        rcases (hkeys k).mp hk with rfl | hk
        · exact .inr rfl
        · exact .inl ⟨k,hk,rfl⟩
      · rintro (⟨k,hk,rfl⟩ | rfl)
        · exact ⟨k,(hkeys k).mpr (.inr hk),rfl⟩
        · exact ⟨_,(hkeys _).mpr (.inl rfl),rfl⟩
    · exact (hcontains p.1 p.2).trans and_comm
  by_cases hstate : t.timelineState = .notReady
  · have hmins : (s.timelineIndex.insert t).1.bucketMins = config.broadcastBuckets := h.buckets
    have htail : fresh → s.timelineIndex.Follows l := by
      intro hfresh
      have hfollows := h.timeline hfresh
      refine ⟨fun i timelineId p => ?_,fun u hu => hfollows.ids u (mem_cons_of_mem t hu),
        hfollows.positive⟩
      rw [hfollows.rows,exists_mem_cons_iff]
      refine or_iff_right ?_
      rintro ⟨hready,-⟩
      rw [hstate] at hready
      cases hready
    obtain ⟨hholds,hget⟩ := h.setState _ hmins fun hfresh => (htail hfresh).insert
    obtain ⟨hholds',hqueued,hparked⟩ := hmoved _ _ hholds rfl rfl
    refine ⟨_,_,?_,hholds',?_,hget,hqueued,hparked,rfl⟩
    · rw [promote]
      simp only [if_pos hstate]
      change (s.parkingLotIndex.remove t >>= _) = _
      rw [hparking]
      rfl
    · rw [Readied,if_pos hstate]
      exact ⟨_,rfl⟩
  · obtain ⟨hholds,hqueued,hparked⟩ := hmoved s t.timelineState h rfl rfl
    refine ⟨_,t.timelineState,?_,hholds,?_,h.get_same,hqueued,hparked,rfl⟩
    · rw [promote]
      simp only [if_neg hstate]
      rw [hparking]
      rfl
    · rw [Readied,if_neg hstate]

/-- The transactions of an account from a number on are queued, up to the first gap at `e`. -/
structure Lined (s s' : TransactionStore A P H) (a : A) (m e : ℕ) : Prop where
  le : m ≤ e
  run : ∀ j, m ≤ j → j < e → ∃ t state, s.getMempoolTxn a j = some t ∧
    s'.getMempoolTxn a j = some (t.withState state) ∧ Readied t.timelineState state
  stop : s.getMempoolTxn a e = none
  get : ∀ b j, ¬ (b = a ∧ m ≤ j ∧ j < e) → s'.getMempoolTxn b j = s.getMempoolTxn b j
  queued : ∀ p, s'.Queued p ↔ s.Queued p ∨ (p.1 = a ∧ m ≤ p.2 ∧ p.2 < e)
  recorded : s'.sequenceNumbers = s.sequenceNumbers
  bounded : ∀ j, m ≤ j → j < e → j + 1 < 2^64

structure Promoted (s s' : TransactionStore A P H) (a : A) (m e : ℕ) : Prop
    extends Lined s s' a m e where
  parked : ∀ p, s'.Parked p ↔ s.Parked p ∧ ¬ (p.1 = a ∧ m ≤ p.2 ∧ p.2 < e)

theorem Promoted.refl (hstop : s.getMempoolTxn a m = none) : Promoted s s a m m where
  le := le_rfl
  run := fun _ hj hlt => absurd hj (not_le.mpr hlt)
  stop := hstop
  get := fun _ _ _ => rfl
  queued := fun _ => (or_iff_left (by omega)).symm
  parked := fun _ => (and_iff_left (by omega)).symm
  recorded := rfl
  bounded := fun _ hj hlt => absurd hj (not_le.mpr hlt)

def SamePointers (l l' : List (MempoolTransaction A P H)) : Prop :=
  (l'.map (·.pointer)).Perm (l.map (·.pointer))

theorem promoteAll_spec {rows : List (ℕ × MempoolTransaction A P H)}
    (h : Holds config U fresh s l [] gt ge) (hsorted : rows.Pairwise fun p q => p.1 < q.1)
    (hrows : ∀ n t, (n,t) ∈ rows ↔ m ≤ n ∧ s.getMempoolTxn a n = some t) :
    Returns Overflows (fun r => ∃ l', SamePointers l l' ∧ Holds config U fresh r.1 l' [] gt ge ∧
      Promoted s r.1 a m r.2) (s.promoteAll m rows) := by
  induction rows generalizing s m l with
  | nil =>
    refine ⟨l,List.Perm.refl _,h,.refl ?_⟩
    by_contra hne
    obtain ⟨t,ht⟩ := Option.ne_none_iff_exists'.mp hne
    exact absurd ((hrows m t).mpr ⟨le_rfl,ht⟩) not_mem_nil
  | cons row rows ih =>
    obtain ⟨n,t⟩ := row
    obtain ⟨hfirst,hsorted⟩ := pairwise_cons.mp hsorted
    obtain ⟨hmn,ht⟩ := (hrows n t).mp mem_cons_self
    rw [promoteAll]
    split_ifs with hn
    · subst hn
      obtain ⟨rest,hholds,hperm,hpointer⟩ := h.split ht
      obtain ⟨s₁,state,hok,hholds₁,hready,hget,hqueued,hparked,hnumbers⟩ := promote_spec hholds
      rw [hpointer] at hget hqueued hparked
      rw [hok]
      refine (returns_checkedSucc n).bind fun n' hn' => ?_
      obtain ⟨rfl,hbound⟩ := hn'
      have hrows₁ : ∀ n' t', (n',t') ∈ rows ↔ n + 1 ≤ n' ∧ s₁.getMempoolTxn a n' = some t' := by
        intro n' t'
        rw [hget]
        constructor
        · intro hmem
          have hlt := hfirst _ hmem
          obtain ⟨-,ht'⟩ := (hrows n' t').mp (mem_cons_of_mem _ hmem)
          rw [if_neg (fun heq => hlt.ne' (Prod.mk.inj heq).2)]
          exact ⟨hlt,ht'⟩
        · rintro ⟨hlt,ht'⟩
          rw [if_neg (fun heq => (Nat.ne_of_gt hlt) (Prod.mk.inj heq).2)] at ht'
          rcases mem_cons.mp ((hrows n' t').mpr ⟨by omega,ht'⟩) with heq | hmem
          · exact absurd (Prod.mk.inj heq).1 (Nat.ne_of_gt hlt)
          · exact hmem
      refine (ih hholds₁ hsorted hrows₁).imp fun r hr => ?_
      obtain ⟨l',hsame,hholds',hpromoted⟩ := hr
      refine ⟨l',?_,hholds',?_⟩
      · exact hsame.trans (hperm.map (·.pointer)).symm
      · have hle := hpromoted.le
        refine ⟨⟨?le,?run,?stop,?get,?queued,?recorded,?bounded⟩,?parked⟩
        case le => omega
        case run =>
          intro j hj hlt
          by_cases hjn : j = n
          · subst hjn
            refine ⟨t,state,ht,?_,hready⟩
            rw [hpromoted.get a j (by omega),hget,if_pos rfl]
          · obtain ⟨u,state',hu,hu',hready'⟩ := hpromoted.run j (by omega) hlt
            rw [hget,if_neg (fun heq => hjn (Prod.mk.inj heq).2)] at hu
            exact ⟨u,state',hu,hu',hready'⟩
        case stop =>
          have hstop := hpromoted.stop
          rwa [hget,if_neg (fun heq => by have := (Prod.mk.inj heq).2; omega)] at hstop
        case get =>
          intro b j hout
          rw [hpromoted.get b j (fun hin => hout ⟨hin.1,by omega,hin.2.2⟩),hget,if_neg]
          intro heq
          cases heq
          exact hout ⟨rfl,le_rfl,by omega⟩
        case queued =>
          intro p
          rw [hpromoted.queued,hqueued,or_assoc]
          refine or_congr_right ⟨?_,?_⟩
          · rintro (rfl | hin)
            · exact ⟨rfl,le_rfl,by omega⟩
            · exact ⟨hin.1,by omega,hin.2.2⟩
          · rintro ⟨hp,hlow,hhigh⟩
            by_cases hpn : p.2 = n
            · exact .inl (Prod.ext hp hpn)
            · exact .inr ⟨hp,by omega,hhigh⟩
        case parked =>
          intro p
          rw [hpromoted.parked,hparked,and_assoc]
          refine and_congr_right fun _ => ⟨?_,?_⟩
          · rintro ⟨hne,hout⟩ ⟨hp,hlow,hhigh⟩
            by_cases hpn : p.2 = n
            · exact hne (Prod.ext hp hpn)
            · exact hout ⟨hp,by omega,hhigh⟩
          · intro hout
            refine ⟨?_,fun hin => hout ⟨hin.1,by omega,hin.2.2⟩⟩
            rintro rfl
            exact hout ⟨rfl,le_rfl,by omega⟩
        case recorded => exact hpromoted.recorded.trans hnumbers
        case bounded =>
          intro j hj hlt
          rcases hj.lt_or_eq with hj | rfl
          · exact hpromoted.bounded j hj hlt
          · exact hbound
    · -- the first row is beyond a gap
      refine ⟨l,List.Perm.refl _,h,.refl ?_⟩
      by_contra hne
      obtain ⟨u,hu⟩ := Option.ne_none_iff_exists'.mp hne
      rcases mem_cons.mp ((hrows m u).mpr ⟨le_rfl,hu⟩) with heq | hmem
      · exact hn (Prod.mk.inj heq).1.symm
      · have := hfirst _ hmem
        exact absurd hmn (not_le.mpr this)

theorem parkRows_spec (rows : List (ℕ × MempoolTransaction A P H))
    (h : Holds config U fresh s l [] gt ge) (hrows : ∀ row ∈ rows, row.2 ∈ l) :
    let s' := rows.foldl (fun s row => s.park row.2) s
    Holds config U fresh s' l [] gt ge ∧ s'.getMempoolTxn = s.getMempoolTxn ∧
      s'.Queued = s.Queued ∧ s'.sequenceNumbers = s.sequenceNumbers ∧
      ∀ p, s'.Parked p ↔ s.Parked p ∨ ∃ row ∈ rows, row.2.pointer = p ∧
        ∀ timelineId, row.2.timelineState ≠ .ready timelineId := by
  induction rows generalizing s with
  | nil => exact ⟨h,rfl,rfl,rfl,fun p => by simp⟩
  | cons row rows ih =>
    obtain ⟨hmem,hrows⟩ := forall_mem_cons.mp hrows
    obtain ⟨hwf,hcontains⟩ := ParkingLotIndex.insert_spec (t := row.2) h.parking
    have hpark : Holds config U fresh (s.park row.2) l [] gt ge ∧
        (s.park row.2).getMempoolTxn = s.getMempoolTxn ∧ (s.park row.2).Queued = s.Queued ∧
        (s.park row.2).sequenceNumbers = s.sequenceNumbers ∧
        ∀ p, (s.park row.2).Parked p ↔ s.Parked p ∨ row.2.pointer = p ∧
          ∀ timelineId, row.2.timelineState ≠ .ready timelineId := by
      have hinsert : Holds config U fresh { s with
          parkingLotIndex := s.parkingLotIndex.insert row.2 } l [] gt ge := by
        refine { h with parking := hwf, parked := fun p hp => ?_ }
        rcases (hcontains p.1 p.2).mp hp with heq | hp
        · exact ⟨row.2,hmem,heq.symm⟩
        · exact h.parked p hp
      have hparked : ∀ p, Parked { s with
          parkingLotIndex := s.parkingLotIndex.insert row.2 } p ↔ s.Parked p ∨ row.2.pointer = p :=
        fun p => (hcontains p.1 p.2).trans (or_comm.trans (or_congr_right eq_comm))
      rw [park]
      cases hstate : row.2.timelineState with
      | ready timelineId => exact ⟨h,rfl,rfl,rfl,fun p => by simp⟩
      | notReady => exact ⟨hinsert,rfl,rfl,rfl,fun p => (hparked p).trans (by simp)⟩
      | nonQualified => exact ⟨hinsert,rfl,rfl,rfl,fun p => (hparked p).trans (by simp)⟩
    obtain ⟨hholds,hget,hqueued,hnumbers,hparked⟩ := hpark
    obtain ⟨hholds',hget',hqueued',hnumbers',hparked'⟩ := ih hholds hrows
    refine ⟨hholds',hget'.trans hget,hqueued'.trans hqueued,hnumbers'.trans hnumbers,fun p => ?_⟩
    rw [foldl_cons,hparked',hparked,exists_mem_cons_iff,or_assoc]

def Waits (s : TransactionStore A P H) (a : A) (e : ℕ) (p : TxnPointer A) : Prop :=
  p.1 = a ∧ e < p.2 ∧ ∃ t, s.getMempoolTxn p.1 p.2 = some t ∧
    ∀ timelineId, t.timelineState ≠ .ready timelineId

theorem parkAll_spec (h : Holds config U fresh s l [] gt ge) (a : A) (e : ℕ) :
    Holds config U fresh (s.parkAll a e) l [] gt ge ∧
      (s.parkAll a e).getMempoolTxn = s.getMempoolTxn ∧ (s.parkAll a e).Queued = s.Queued ∧
      (s.parkAll a e).sequenceNumbers = s.sequenceNumbers ∧
      ∀ p, (s.parkAll a e).Parked p ↔ s.Parked p ∨ s.Waits a e p := by
  rw [parkAll]
  cases htxns : s.transactions a with
  | none =>
    refine ⟨h,rfl,rfl,rfl,fun p => (or_iff_left ?_).symm⟩
    rintro ⟨hp,-,t,ht,-⟩
    rw [getMempoolTxn,hp,htxns] at ht
    cases ht
  | some txns =>
    have hrow : ∀ row ∈ txns.rows, row.2 ∈ l ∧ row.2.pointer = (a,row.1) := by
      intro row hrow
      have hget := get_of_mem htxns (hrow : (row.1,row.2) ∈ txns.rows)
      obtain ⟨hmem,hpointer,-⟩ := (h.main _ _ _).mp hget
      exact ⟨hmem,hpointer⟩
    obtain ⟨hholds,hget,hqueued,hnumbers,hparked⟩ := parkRows_spec
      (txns.rows.filter fun row => e < row.1) h
      fun row hmem => (hrow row (mem_filter.mp hmem).1).1
    refine ⟨hholds,hget,hqueued,hnumbers,fun p => (hparked p).trans (or_congr_right ?_)⟩
    constructor
    · rintro ⟨row,hmem,rfl,hstate⟩
      obtain ⟨hmem,hlt⟩ := mem_filter.mp hmem
      rw [(hrow row hmem).2]
      exact ⟨rfl,of_decide_eq_true hlt,row.2,get_of_mem htxns hmem,hstate⟩
    · rintro ⟨hp,hlt,t,ht,hstate⟩
      obtain ⟨txns',htxns',hmem⟩ := transactions_of_get ht
      rw [hp,htxns,Option.some_inj] at htxns'
      subst htxns'
      refine ⟨(p.2,t),mem_filter.mpr ⟨hmem,decide_eq_true hlt⟩,?_,hstate⟩
      exact ((h.main _ _ _).mp ht).2.1

/-- What `process_ready_transactions` does for an account: up to the first gap at `e` the transactions
are promoted, and after it those that are not ready are parked. -/
structure Processed (s s' : TransactionStore A P H) (a : A) (m e : ℕ) : Prop
    extends Lined s s' a m e where
  parked : ∀ p, s'.Parked p ↔
    (s.Parked p ∧ ¬ (p.1 = a ∧ m ≤ p.2 ∧ p.2 < e)) ∨ s.Waits a e p

theorem processReadyTransactions_spec (h : Holds config U fresh s l [] gt ge) (a : A)
    (sequenceInfo : AccountSequenceInfo) :
    Returns Overflows (fun s' => ∃ l' e, SamePointers l l' ∧ Holds config U fresh s' l' [] gt ge ∧
      Processed s s' a sequenceInfo.minSeq e) (s.processReadyTransactions a sequenceInfo) := by
  rw [processReadyTransactions]
  cases htxns : s.transactions a with
  | none =>
    have hnone : ∀ j, s.getMempoolTxn a j = none := by
      intro j
      rw [getMempoolTxn,htxns,Option.bind_none]
    refine ⟨l,_,List.Perm.refl _,h,(Promoted.refl (hnone _)).toLined,fun p => ?_⟩
    rw [and_iff_left (by omega)]
    refine (or_iff_left ?_).symm
    rintro ⟨hp,-,t,ht,-⟩
    rw [hp,hnone] at ht
    cases ht
  | some txns =>
    have hrows : ∀ n t, (n,t) ∈ txns.seek sequenceInfo.minSeq ↔
        sequenceInfo.minSeq ≤ n ∧ s.getMempoolTxn a n = some t := by
      intro n t
      rw [Column.mem_seek,and_comm,getMempoolTxn,htxns,Option.bind_some,
        Column.get_eq_some Function.injective_id]
      rfl
    have hsorted : (txns.seek sequenceInfo.minSeq).Pairwise fun p q => p.1 < q.1 := txns.seek_sorted
    refine (promoteAll_spec h hsorted hrows).bind fun r hr => ?_
    obtain ⟨l',hsame,hholds,hpromoted⟩ := hr
    obtain ⟨hholds',hget,hqueued,hnumbers,hparked⟩ := parkAll_spec hholds a r.2
    have hle := hpromoted.le
    refine ⟨l',r.2,hsame,hholds',⟨hle,?_,hpromoted.stop,?_,?_,hnumbers.trans hpromoted.recorded,
      hpromoted.bounded⟩,?_⟩
    · rw [hget]
      exact hpromoted.run
    · rw [hget]
      exact hpromoted.get
    · rw [hqueued]
      exact hpromoted.queued
    · intro p
      rw [hparked,hpromoted.parked]
      refine or_congr_right (and_congr_right fun hp => and_congr_right fun hlt => ?_)
      rw [hpromoted.get p.1 p.2 (by omega)]

end TransactionStore

end Arx.Mempool
