import Arx.Mempool.TransactionStore
import Arx.Mempool.IndexSteps

/-!
# Steps of the store

The store is seen as the transactions that its main map holds. Between the removal from the main
map and from the indexes these are ahead of the map.
-/

namespace Arx.Mempool.TransactionStore
open Movelib Function List Option

variable {A P H : Type} [LinearOrder A] {rows : List (ℕ × MempoolTransaction A P H)}
    {l : List (MempoolTransaction A P H)}

variable {config : MempoolConfig} {s : TransactionStore A P H} {t : MempoolTransaction A P H} {a b : A}
  {n m : ℕ} {txns : AccountTransactions A P H}

def Queued (s : TransactionStore A P H) (p : TxnPointer A) : Prop :=
  ∃ k ∈ s.priorityIndex.keys, (k.address,k.sequenceNumber) = p

def Parked (s : TransactionStore A P H) (p : TxnPointer A) : Prop :=
  s.parkingLotIndex.contains p.1 p.2 = true

def Stored (s : TransactionStore A P H) (p : TxnPointer A) : Prop :=
  ∃ t, s.getMempoolTxn p.1 p.2 = some t

theorem getMempoolTxn_update {txns' : Option (AccountTransactions A P H)} :
    getMempoolTxn { s with transactions := update s.transactions a txns' } b m =
      if b = a then txns'.bind fun txns => txns.get m else s.getMempoolTxn b m := by
  simp only [getMempoolTxn]
  split_ifs with hb
  · rw [hb,update_self]
  · rw [update_of_ne hb]

theorem getMempoolTxn_putTxn (h : (s.transactions t.getSender).isSome) :
    (s.putTxn t).getMempoolTxn b m = if (b,m) = t.pointer then some t else s.getMempoolTxn b m := by
  obtain ⟨txns,htxns⟩ := isSome_iff_exists.mp h
  rw [putTxn,getMempoolTxn_update,htxns,MempoolTransaction.pointer]
  by_cases hb : b = t.getSender
  · subst hb
    rw [if_pos rfl,map_some,bind_some]
    by_cases hm : m = t.sequenceInfo.transactionSequenceNumber
    · rw [hm,if_pos rfl,Column.get_put_self injective_id]
    · rw [if_neg (fun heq => hm (Prod.mk.inj heq).2),
        Column.get_put_of_ne injective_id hm,getMempoolTxn,htxns,bind_some]
  · rw [if_neg hb,if_neg (fun heq => hb (Prod.mk.inj heq).1)]

theorem main_putTxn {s' : TransactionStore A P H}
    (hget : ∀ b m, s'.getMempoolTxn b m = if (b,m) = t.pointer then some t else s.getMempoolTxn b m)
    (hnotMem : t.pointer ∉ l.map (·.pointer))
    (hmain : ∀ b m u, (b,m) ≠ t.pointer → (s.getMempoolTxn b m = some u ↔ u ∈ l ∧ u.pointer = (b,m)))
    (b : A) (m : ℕ) (u : MempoolTransaction A P H) :
    s'.getMempoolTxn b m = some u ↔ u ∈ t :: l ∧ u.pointer = (b,m) ∧ (b,m) ∉ [] := by
  rw [hget,mem_cons,and_iff_left (not_mem_nil : (b,m) ∉ [])]
  split_ifs with hp
  · rw [some_inj,hp]
    refine ⟨?_,fun ⟨hu,hpointer⟩ => (hu.resolve_right fun hu => ?_).symm⟩
    · rintro rfl
      exact ⟨.inl rfl,rfl⟩
    · exact hnotMem (hpointer ▸ mem_map_of_mem hu)
  · rw [hmain b m u hp]
    refine and_congr_left fun hpointer => (or_iff_right ?_).symm
    rintro rfl
    exact hp hpointer.symm

theorem perUser_putTxn {capacity : ℕ}
    (h : ∀ a txns, s.transactions a = some txns → txns.rows.length ≤ capacity)
    (htxns : s.transactions t.getSender = some txns)
    (hlen : (txns.put t.sequenceInfo.transactionSequenceNumber t).rows.length ≤ capacity) (b : A)
    (txns' : AccountTransactions A P H) (hb : (s.putTxn t).transactions b = some txns') :
    txns'.rows.length ≤ capacity := by
  rw [putTxn,htxns] at hb
  dsimp only [map_some] at hb
  by_cases hba : b = t.getSender
  · rw [hba,update_self,some_inj] at hb
    exact hb ▸ hlen
  · rw [update_of_ne hba] at hb
    exact h b txns' hb

theorem transactions_of_get (h : s.getMempoolTxn a n = some t) :
    ∃ txns, s.transactions a = some txns ∧ (n,t) ∈ txns.rows := by
  obtain ⟨txns,htxns,hget⟩ := bind_eq_some_iff.mp h
  exact ⟨txns,htxns,(Column.get_eq_some injective_id).mp hget⟩

theorem get_of_mem (htxns : s.transactions a = some txns) (h : (n,t) ∈ txns.rows) :
    s.getMempoolTxn a n = some t := by
  rw [getMempoolTxn,htxns]
  exact (Column.get_eq_some injective_id).mpr h

theorem getMempoolTxn_dropEmptyAccount :
    (s.dropEmptyAccount a).getMempoolTxn b m = s.getMempoolTxn b m := by
  rw [dropEmptyAccount]
  split
  · next txns htxns =>
    split_ifs with hempty
    · change getMempoolTxn { s with transactions := update s.transactions a none } b m = _
      rw [getMempoolTxn_update]
      split_ifs with hb
      · subst hb
        symm
        rw [getMempoolTxn,htxns,bind_some,bind_none,
          Column.get_eq_none injective_id,Column.keys,isEmpty_iff.mp hempty]
        exact not_mem_nil
      · rfl
    · rfl
  · rfl

theorem sequenceNumbers_dropEmptyAccount (h : (s.transactions a).isSome) :
    (b = a ∧ (∀ m, s.getMempoolTxn a m = none) → (s.dropEmptyAccount a).sequenceNumbers b = none) ∧
    (¬ (b = a ∧ ∀ m, s.getMempoolTxn a m = none) →
      (s.dropEmptyAccount a).sequenceNumbers b = s.sequenceNumbers b) := by
  obtain ⟨txns,htxns⟩ := isSome_iff_exists.mp h
  have hempty : (∀ m, s.getMempoolTxn a m = none) ↔ txns.rows = [] := by
    constructor
    · intro hnone
      refine eq_nil_iff_forall_not_mem.mpr fun row hrow => ?_
      have hget := get_of_mem htxns (hrow : (row.1,row.2) ∈ _)
      rw [hnone] at hget
      cases hget
    · intro hnil m
      by_contra hne
      obtain ⟨t,ht⟩ := ne_none_iff_exists'.mp hne
      obtain ⟨txns',htxns',hmem⟩ := transactions_of_get ht
      rw [htxns] at htxns'
      rw [← some.inj htxns',hnil] at hmem
      cases hmem
  rw [dropEmptyAccount,htxns,hempty]
  simp only [List.isEmpty_iff]
  refine ⟨fun hb => ?_,fun hb => ?_⟩
  · rw [if_pos hb.2,hb.1]
    exact Function.update_self _ _ _
  · split_ifs with hnil
    · exact Function.update_of_ne (fun h => hb ⟨h,hnil⟩) _ _
    · rfl

/-- The main map holds the transactions of a list but for those taken out, and the indexes follow the
list; hashes are followed if they do not collide, and the timelines if no transaction comes in with an
id of its own. -/
structure Holds (config : MempoolConfig) (U : Set (SignedTransaction A P H)) (fresh : Prop)
    (s : TransactionStore A P H) (l : List (MempoolTransaction A P H))
    (out goneSystem goneClient : List (TxnPointer A)) : Prop where
  unique : (l.map (·.pointer)).Nodup
  known : ∀ t ∈ l, t.txn ∈ U
  main : ∀ a n t, s.getMempoolTxn a n = some t ↔ t ∈ l ∧ t.pointer = (a,n) ∧ (a,n) ∉ out
  systemTtl : s.systemTtlIndex.Follows systemExpiration l goneSystem
  expirationTime : s.expirationTimeIndex.Follows clientExpiration l goneClient
  priority : ∀ k ∈ s.priorityIndex.keys, ∃ t ∈ l, PriorityIndex.makeKey t = k
  parking : s.parkingLotIndex.WellFormed
  parked : ∀ p, s.Parked p → ∃ t ∈ l, t.pointer = p
  size : s.sizeBytes = (l.map (·.getEstimatedBytes config.fixedEstimatedBytes)).sum
  hash : U.InjOn SignedTransaction.committedHash → ∀ h p,
    s.hashIndex h = some p ↔ ∃ t ∈ l, t.getCommittedHash = h ∧ t.pointer = p
  buckets : s.timelineIndex.bucketMins = config.broadcastBuckets
  timeline : fresh → s.timelineIndex.Follows l
  capacity : l.length ≤ config.capacity
  perUser : ∀ a txns, s.transactions a = some txns → txns.rows.length ≤ config.capacityPerUser

namespace Holds

variable {U : Set (SignedTransaction A P H)} {fresh : Prop} {l l' : List (MempoolTransaction A P H)}
  {out gt ge : List (TxnPointer A)}

theorem start : Holds config U fresh (new config : TransactionStore A P H) [] [] [] [] where
  unique := nodup_nil
  known := fun _ h => absurd h not_mem_nil
  main := fun _ _ _ => ⟨nofun,fun h => absurd h.1 not_mem_nil⟩
  systemTtl := fun _ => ⟨fun h => absurd h not_mem_nil,fun ⟨_,h,_⟩ => absurd h not_mem_nil⟩
  expirationTime := fun _ =>
    ⟨fun h => absurd h not_mem_nil,fun ⟨_,h,_⟩ => absurd h not_mem_nil⟩
  priority := fun _ h => absurd h not_mem_nil
  parking := .new
  parked := fun _ h => absurd h Bool.false_ne_true
  size := rfl
  hash := fun _ _ _ => ⟨nofun,fun ⟨_,h,_⟩ => absurd h not_mem_nil⟩
  buckets := rfl
  timeline := fun _ => {
    rows := fun _ _ _ =>
      ⟨fun h => absurd h not_mem_nil,fun ⟨_,h,_⟩ => absurd h not_mem_nil⟩
    ids := fun _ h => absurd h not_mem_nil
    positive := fun _ => Nat.one_pos }
  capacity := Nat.zero_le _
  perUser := fun _ _ h => absurd h nofun

theorem perm (h : Holds config U fresh s l out gt ge) (hperm : l.Perm l') :
    Holds config U fresh s l' out gt ge where
  unique := (hperm.map _).nodup_iff.mp h.unique
  known := fun t ht => h.known t (hperm.mem_iff.mpr ht)
  main := by
    intro a n t
    rw [h.main,hperm.mem_iff]
  systemTtl := fun k => (h.systemTtl k).trans
    (exists_congr fun t => and_congr_left fun _ => hperm.mem_iff)
  expirationTime := fun k => (h.expirationTime k).trans
    (exists_congr fun t => and_congr_left fun _ => hperm.mem_iff)
  priority := by
    intro k hk
    obtain ⟨t,ht,hkey⟩ := h.priority k hk
    exact ⟨t,hperm.mem_iff.mp ht,hkey⟩
  parking := h.parking
  parked := by
    intro p hp
    obtain ⟨t,ht,hpointer⟩ := h.parked p hp
    exact ⟨t,hperm.mem_iff.mp ht,hpointer⟩
  size := h.size.trans (hperm.map _).sum_eq
  hash := fun hinj hash p => (h.hash hinj hash p).trans
    (exists_congr fun t => and_congr_left fun _ => hperm.mem_iff)
  buckets := h.buckets
  timeline := fun hfresh => (h.timeline hfresh).perm hperm
  capacity := hperm.length_eq ▸ h.capacity
  perUser := h.perUser

theorem split (h : Holds config U fresh s l out gt ge) (ht : s.getMempoolTxn a n = some t) :
    ∃ rest, Holds config U fresh s (t :: rest) out gt ge ∧ l.Perm (t :: rest) ∧
      t.pointer = (a,n) := by
  obtain ⟨hmem,hpointer,-⟩ := (h.main a n t).mp ht
  obtain ⟨front,back,rfl⟩ := append_of_mem hmem
  exact ⟨front ++ back,h.perm perm_middle,perm_middle,hpointer⟩

theorem notMem (h : Holds config U fresh s (t :: l) out gt ge) : t.pointer ∉ l.map (·.pointer) :=
  (nodup_cons.mp h.unique).1

theorem notMem_of_get (h : Holds config U fresh s l [] gt ge)
    (hnew : s.getMempoolTxn t.getSender t.sequenceInfo.transactionSequenceNumber = none) :
    t.pointer ∉ l.map (·.pointer) := by
  intro hmem
  obtain ⟨u,hu,hpointer⟩ := mem_map.mp hmem
  have hget := (h.main _ _ u).mpr ⟨hu,hpointer,not_mem_nil⟩
  exact absurd (hnew.symm.trans hget) nofun

theorem weaken {out' gt' ge' : List (TxnPointer A)} (h : Holds config U fresh s l out gt ge)
    (hout : ∀ t ∈ l, t.pointer ∈ out ↔ t.pointer ∈ out')
    (hgt : ∀ t ∈ l, t.pointer ∈ gt ↔ t.pointer ∈ gt')
    (hge : ∀ t ∈ l, t.pointer ∈ ge ↔ t.pointer ∈ ge') : Holds config U fresh s l out' gt' ge' :=
  { h with
    main := by
      intro a n t
      rw [h.main]
      refine and_congr_right fun ht => and_congr_right fun hpointer => ?_
      rw [← hpointer,hout t ht]
    systemTtl := fun k => (h.systemTtl k).trans (exists_congr fun t => and_congr_right fun ht =>
      and_congr_left fun _ => not_congr (hgt t ht))
    expirationTime := fun k => (h.expirationTime k).trans (exists_congr fun t => and_congr_right
      fun ht => and_congr_left fun _ => not_congr (hge t ht)) }

theorem queued_iff (h : Holds config U fresh s l out gt ge) (ht : t ∈ l) :
    s.Queued t.pointer ↔ PriorityIndex.makeKey t ∈ s.priorityIndex.keys := by
  constructor
  · rintro ⟨k,hk,hpointer⟩
    obtain ⟨u,hu,rfl⟩ := h.priority k hk
    rw [eq_of_pointer h.unique ht hu hpointer.symm]
    exact hk
  · exact fun hk => ⟨_,hk,rfl⟩

theorem mem_remove_priority (k : OrderedQueueKey A) : k ∈ (s.priorityIndex.remove t).keys ↔
    k ∈ s.priorityIndex.keys ∧ k ≠ PriorityIndex.makeKey t :=
  Column.mem_keys_delete OrderedQueueKey.order_injective

theorem queued_remove (h : Holds config U fresh s l out gt ge) (ht : t ∈ l) (p : TxnPointer A) :
    (∃ k ∈ (s.priorityIndex.remove t).keys, (k.address,k.sequenceNumber) = p) ↔
      s.Queued p ∧ p ≠ t.pointer := by
  constructor
  · rintro ⟨k,hk,rfl⟩
    obtain ⟨hk,hne⟩ := (mem_remove_priority k).mp hk
    refine ⟨⟨k,hk,rfl⟩,fun heq => hne ?_⟩
    obtain ⟨u,hu,rfl⟩ := h.priority k hk
    rw [eq_of_pointer h.unique hu ht heq]
  · rintro ⟨⟨k,hk,rfl⟩,hne⟩
    exact ⟨k,(mem_remove_priority k).mpr ⟨hk,fun heq => hne (by rw [heq]; rfl)⟩,rfl⟩

theorem stored_of_queued (h : Holds config U fresh s l [] gt ge) {p : TxnPointer A}
    (hp : s.Queued p) : s.Stored p := by
  obtain ⟨k,hk,rfl⟩ := hp
  obtain ⟨t,ht,rfl⟩ := h.priority k hk
  exact ⟨t,(h.main _ _ t).mpr ⟨ht,rfl,not_mem_nil⟩⟩

theorem stored_of_parked (h : Holds config U fresh s l [] gt ge) {p : TxnPointer A}
    (hp : s.Parked p) : s.Stored p := by
  obtain ⟨t,ht,hpointer⟩ := h.parked p hp
  exact ⟨t,(h.main _ _ t).mpr ⟨ht,hpointer,not_mem_nil⟩⟩

end Holds

theorem dropEmptyAccount_eq (s : TransactionStore A P H) (a : A) : ∃ txns numbers,
    s.dropEmptyAccount a = { s with transactions := txns, sequenceNumbers := numbers } := by
  rw [dropEmptyAccount]
  split
  · split_ifs
    · exact ⟨_,_,rfl⟩
    · exact ⟨_,_,rfl⟩
  · exact ⟨_,_,rfl⟩

theorem transactions_dropEmptyAccount
    (h : (s.dropEmptyAccount a).transactions b = some txns) : s.transactions b = some txns := by
  rw [dropEmptyAccount] at h
  split at h
  · split_ifs at h with hempty
    · by_cases hb : b = a
      · subst hb
        exact absurd ((update_self b none s.transactions).symm.trans h) nofun
      · exact (update_of_ne hb none s.transactions).symm.trans h
    · exact h
  · exact h

/-- The recorded number of an account is kept until its last transaction leaves. -/
structure NumbersFollow (s s' : TransactionStore A P H) : Prop where
  recorded : ∀ b, s'.sequenceNumbers b = s.sequenceNumbers b ∨
    (∀ m, s'.getMempoolTxn b m = none) ∧ s'.sequenceNumbers b = none
  dropped : ∀ b, (∃ m u, s.getMempoolTxn b m = some u) → (∀ m, s'.getMempoolTxn b m = none) →
    s'.sequenceNumbers b = none

theorem NumbersFollow.trans {s₁ s' : TransactionStore A P H} (h₁ : NumbersFollow s s₁)
    (h₂ : NumbersFollow s₁ s')
    (habsent : ∀ b m, s₁.getMempoolTxn b m = none → s'.getMempoolTxn b m = none) :
    NumbersFollow s s' where
  recorded := by
    intro b
    rcases h₂.recorded b with heq | hnone
    · rcases h₁.recorded b with heq₁ | ⟨hnone,hseq⟩
      · exact .inl (heq.trans heq₁)
      · exact .inr ⟨fun m => habsent b m (hnone m),heq.trans hseq⟩
    · exact .inr hnone
  dropped := by
    intro b hstored hnone
    by_cases hstored₁ : ∃ m u, s₁.getMempoolTxn b m = some u
    · exact h₂.dropped b hstored₁ hnone
    · push Not at hstored₁
      have hseq := h₁.dropped b hstored fun m => eq_none_iff_forall_ne_some.mpr (hstored₁ m)
      exact (h₂.recorded b).elim (fun heq => heq.trans hseq) And.right

structure Removed (s s' : TransactionStore A P H) (D : TxnPointer A → Prop) : Prop
    extends NumbersFollow s s' where
  gone : ∀ b m, D (b,m) → s'.getMempoolTxn b m = none
  get : ∀ b m, ¬ D (b,m) → s'.getMempoolTxn b m = s.getMempoolTxn b m
  queued : ∀ p, s'.Queued p ↔ s.Queued p ∧ ¬ D p
  parked : ∀ p, s'.Parked p ↔ s.Parked p ∧ ¬ D p

namespace Removed

variable {s₁ s' : TransactionStore A P H} {D D₁ D₂ : TxnPointer A → Prop}

theorem refl (s : TransactionStore A P H) : Removed s s fun _ => False where
  gone := nofun
  get := fun _ _ _ => rfl
  queued := fun p => by simp
  parked := fun p => by simp
  recorded := fun b => .inl rfl
  dropped := by
    rintro b ⟨m,u,hu⟩ hnone
    rw [hnone] at hu
    cases hu

theorem absent (h : Removed s s' D) (b : A) (m : ℕ) (hnone : s.getMempoolTxn b m = none) :
    s'.getMempoolTxn b m = none := by
  by_cases hD : D (b,m)
  · exact h.gone b m hD
  · exact (h.get b m hD).trans hnone

theorem trans (h₁ : Removed s s₁ D₁) (h₂ : Removed s₁ s' D₂) :
    Removed s s' fun p => D₁ p ∨ D₂ p where
  toNumbersFollow := h₁.toNumbersFollow.trans h₂.toNumbersFollow h₂.absent
  gone := by
    rintro b m (hD | hD)
    · exact h₂.absent b m (h₁.gone b m hD)
    · exact h₂.gone b m hD
  get := by
    intro b m hD
    obtain ⟨hD₁,hD₂⟩ := not_or.mp hD
    exact (h₂.get b m hD₂).trans (h₁.get b m hD₁)
  queued := fun p => by rw [h₂.queued,h₁.queued,not_or,and_assoc]
  parked := fun p => by rw [h₂.parked,h₁.parked,not_or,and_assoc]

theorem congr {config : MempoolConfig} {U : Set (SignedTransaction A P H)} {fresh : Prop}
    {gt ge : List (TxnPointer A)} (h : Removed s s' D₁) (hs : Holds config U fresh s l [] gt ge)
    (hD : ∀ p, s.Stored p → (D₁ p ↔ D₂ p)) :
    Removed s s' D₂ where
  toNumbersFollow := h.toNumbersFollow
  gone := by
    intro b m hD₂
    by_cases hD₁ : D₁ (b,m)
    · exact h.gone b m hD₁
    · rw [h.get b m hD₁]
      exact eq_none_iff_forall_ne_some.mpr fun u hu => hD₁ ((hD (b,m) ⟨u,hu⟩).mpr hD₂)
  get := by
    intro b m hD₂
    by_cases hD₁ : D₁ (b,m)
    · rw [h.gone b m hD₁]
      exact (eq_none_iff_forall_ne_some.mpr fun u hu => hD₂ ((hD (b,m) ⟨u,hu⟩).mp hD₁)).symm
    · exact h.get b m hD₁
  queued := fun p => (h.queued p).trans
    (and_congr_right fun hp => not_congr (hD p (hs.stored_of_queued hp)))
  parked := fun p => (h.parked p).trans
    (and_congr_right fun hp => not_congr (hD p (hs.stored_of_parked hp)))

end Removed

section Removal

variable [DecidableEq H] {U : Set (SignedTransaction A P H)} {fresh : Prop}
  {l : List (MempoolTransaction A P H)} {out gt ge : List (TxnPointer A)}

theorem indexRemove_spec (h : Holds config U fresh s (t :: l) out gt ge) (hout : t.pointer ∈ out) :
    ∃ s', s.indexRemove config t = .ok s' ∧ Holds config U fresh s' l out gt ge ∧
      Removed s s' (· = t.pointer) ∧
      ((s.transactions t.getSender).isSome → (∀ m, s.getMempoolTxn t.getSender m = none) →
        s'.sequenceNumbers t.getSender = none) := by
  obtain ⟨index,hindex,hwf,hcontains⟩ := ParkingLotIndex.remove_spec h.parking t
  have hsize := h.size
  rw [map_cons,sum_cons] at hsize
  have hle : ¬ s.sizeBytes < t.getEstimatedBytes config.fixedEstimatedBytes := by omega
  have hok : s.indexRemove config t =
      .ok ((s.leaveIndexes config t index).dropEmptyAccount t.getSender) := by
    rw [indexRemove,hindex]
    exact if_neg hle
  obtain ⟨txns,numbers,hdrop⟩ := dropEmptyAccount_eq (s.leaveIndexes config t index) t.getSender
  have hget : ∀ b m, ((s.leaveIndexes config t index).dropEmptyAccount t.getSender).getMempoolTxn b m =
      s.getMempoolTxn b m := fun b m => getMempoolTxn_dropEmptyAccount
  have hnumbers := fun b (hsome : (s.transactions t.getSender).isSome) =>
    sequenceNumbers_dropEmptyAccount (s := s.leaveIndexes config t index) (b := b) hsome
  refine ⟨_,hok,?_,?_,fun hsome hnone => (hnumbers _ hsome).1 ⟨rfl,hnone⟩⟩
  · constructor
    case unique => exact (nodup_cons.mp h.unique).2
    case known => exact fun u hu => h.known u (mem_cons_of_mem t hu)
    case main =>
      intro b m u
      rw [hget,h.main,mem_cons,or_and_right]
      refine or_iff_right fun hu => ?_
      obtain ⟨rfl,hpointer,hnot⟩ := hu
      exact hnot (hpointer ▸ hout)
    case systemTtl => rw [hdrop]; exact h.systemTtl.remove h.notMem
    case expirationTime => rw [hdrop]; exact h.expirationTime.remove h.notMem
    case priority =>
      rw [hdrop]
      intro k hk
      obtain ⟨hk,hne⟩ := (Holds.mem_remove_priority k).mp hk
      obtain ⟨u,hu,rfl⟩ := h.priority k hk
      exact ⟨u,(mem_cons.mp hu).resolve_left fun heq => hne (by rw [heq]),rfl⟩
    case parking => rw [hdrop]; exact hwf
    case parked =>
      rw [hdrop]
      intro p hp
      obtain ⟨hne,hold⟩ := (hcontains p.1 p.2).mp hp
      obtain ⟨u,hu,rfl⟩ := h.parked p hold
      exact ⟨u,(mem_cons.mp hu).resolve_left fun heq => hne (by rw [heq]),rfl⟩
    case size =>
      rw [hdrop]
      change s.sizeBytes - _ = _
      omega
    case hash =>
      rw [hdrop]
      intro hinj hash p
      change update s.hashIndex t.getCommittedHash none hash = some p ↔ _
      by_cases hh : hash = t.getCommittedHash
      · subst hh
        rw [update_self]
        refine ⟨nofun,fun ⟨u,hu,hash,_⟩ => ?_⟩
        -- the hash of another transaction is another one
        have htxn := hinj (h.known u (mem_cons_of_mem t hu)) (h.known t mem_cons_self) hash
        refine absurd (mem_map_of_mem hu) (?_ : u.pointer ∉ _)
        rw [pointer_of_txn htxn]
        exact h.notMem
      · rw [update_of_ne hh,h.hash hinj,exists_mem_cons_iff]
        exact or_iff_right fun ht => hh ht.1.symm
    case buckets => rw [hdrop]; exact h.buckets
    case timeline => rw [hdrop]; exact fun hfresh => (h.timeline hfresh).remove h.notMem
    case capacity => exact (Nat.le_succ _).trans h.capacity
    case perUser =>
      intro b txns hb
      have hold : (s.leaveIndexes config t index).transactions b = some txns :=
        transactions_dropEmptyAccount hb
      exact h.perUser b txns hold
  · refine ⟨⟨?recorded,?dropped⟩,?gone,?get,?queued,?parked⟩
    case gone =>
      intro b m hD
      rw [hget]
      refine eq_none_iff_forall_ne_some.mpr fun u hu => ?_
      exact ((h.main b m u).mp hu).2.2 (hD ▸ hout)
    case get => exact fun b m _ => hget b m
    case queued =>
      rw [hdrop]
      exact h.queued_remove mem_cons_self
    case parked =>
      rw [hdrop]
      exact fun p => (hcontains p.1 p.2).trans and_comm
    case recorded =>
      intro b
      by_cases hsome : (s.transactions t.getSender).isSome
      · by_cases hb : b = t.getSender ∧ ∀ m, s.getMempoolTxn t.getSender m = none
        · refine .inr ⟨fun m => ?_,(hnumbers b hsome).1 hb⟩
          rw [hget,hb.1]
          exact hb.2 m
        · exact .inl ((hnumbers b hsome).2 hb)
      · left
        rw [dropEmptyAccount,show (s.leaveIndexes config t index).transactions t.getSender = none
          from not_isSome_iff_eq_none.mp hsome]
        rfl
    case dropped =>
      rintro b ⟨m,u,hu⟩ hnone
      exact absurd (((hget b m).symm.trans (hnone m)).symm.trans hu) nofun

theorem foldlM_indexRemove (h : Holds config U fresh s (rows.map Prod.snd ++ l) out gt ge)
    (hrows : ∀ row ∈ rows, row.2.pointer ∈ out ∧ row.2.getSender = a) :
    ∃ s', rows.foldlM (fun s row => s.indexRemove config row.2) s = .ok s' ∧
      Holds config U fresh s' l out gt ge ∧ Removed s s' (fun p => ∃ row ∈ rows, p = row.2.pointer) ∧
      (rows ≠ [] → (s.transactions a).isSome → (∀ m, s.getMempoolTxn a m = none) →
        s'.sequenceNumbers a = none) := by
  induction rows generalizing s with
  | nil =>
    refine ⟨s,rfl,h,?_,fun hne => absurd rfl hne⟩
    simpa using Removed.refl s
  | cons row rows ih =>
    obtain ⟨hout,rfl⟩ := hrows row mem_cons_self
    obtain ⟨s₁,hok,hholds,hremoved,hdropped⟩ := indexRemove_spec h hout
    obtain ⟨s',hok',hholds',hremoved',-⟩ := ih hholds fun r hr => hrows r (mem_cons_of_mem row hr)
    refine ⟨s',?_,hholds',?_,fun _ hsome hnone => ?_⟩
    · rw [foldlM_cons,hok]
      exact hok'
    · simpa using hremoved.trans hremoved'
    · have hseq := hdropped hsome hnone
      exact (hremoved'.recorded _).elim (fun heq => heq.trans hseq) And.right

theorem removeRows_spec (column : AccountTransactions A P H) (h : Holds config U fresh s l [] gt ge)
    (htxns : s.transactions a = some txns) (hnodup : rows.Nodup) (hsub : rows ⊆ txns.rows)
    (hcolumn : ∀ row, row ∈ column.rows ↔ row ∈ txns.rows ∧ row ∉ rows)
    (hlen : column.rows.length ≤ txns.rows.length) :
    ∃ s' l', rows.foldlM (fun s row => s.indexRemove config row.2)
        { s with transactions := update s.transactions a (some column) } = .ok s' ∧
      l.Perm (rows.map Prod.snd ++ l') ∧ Holds config U fresh s' l' [] gt ge ∧
      Removed s s' fun p => ∃ row ∈ rows, p = row.2.pointer := by
  have hpointer : ∀ row ∈ rows, row.2 ∈ l ∧ row.2.pointer = (a,row.1) := by
    intro row hrow
    have hmain := (h.main _ _ _).mp (get_of_mem htxns (hsub hrow : (row.1,row.2) ∈ txns.rows))
    exact ⟨hmain.1,hmain.2.1⟩
  obtain ⟨l',hperm⟩ : ∃ l', l.Perm (rows.map Prod.snd ++ l') := by
    have hnodup' : (rows.map Prod.snd).Nodup := by
      refine hnodup.map_on fun p hp q hq heq => Prod.ext ?_ heq
      have hp' := (hpointer p hp).2
      rw [heq,(hpointer q hq).2] at hp'
      exact (Prod.mk.inj hp').2.symm
    obtain ⟨l₁,hl₁,hsub₁⟩ := hnodup'.subperm fun u hu => by
      obtain ⟨row,hrow,rfl⟩ := mem_map.mp hu
      exact (hpointer row hrow).1
    obtain ⟨l',hl'⟩ := hsub₁.exists_perm_append
    exact ⟨l',hl'.trans (hl₁.append_right l')⟩
  have hget : ∀ b m u, getMempoolTxn { s with
      transactions := update s.transactions a (some column) } b m = some u ↔
      s.getMempoolTxn b m = some u ∧ (b,m) ∉ rows.map (·.2.pointer) := by
    intro b m u
    by_cases hb : b = a
    · subst hb
      simp only [getMempoolTxn,update_self,htxns,bind_some,
        Column.get_eq_some injective_id,hcolumn]
      refine and_congr_right fun hrow => not_congr ⟨fun hmem => ?_,fun hmem => ?_⟩
      · exact mem_map.mpr ⟨_,hmem,(hpointer _ hmem).2⟩
      · obtain ⟨row,hmem,heq⟩ := mem_map.mp hmem
        rw [(hpointer row hmem).2] at heq
        rwa [Column.row_unique hrow (hsub hmem) (Prod.mk.inj heq).2.symm]
    · rw [getMempoolTxn_update,if_neg hb,iff_self_and]
      intro _ hmem
      obtain ⟨row,hrow,heq⟩ := mem_map.mp hmem
      exact hb (Prod.mk.inj (heq.symm.trans (hpointer row hrow).2)).1
  have hout : Holds config U fresh { s with transactions := update s.transactions a (some column) }
      (rows.map Prod.snd ++ l') (rows.map (·.2.pointer)) gt ge := by
    refine { h.perm hperm with
      main := fun b m t => by simp [hget,(h.perm hperm).main,and_assoc]
      perUser := fun b txns' (hb : update _ _ _ b = _) => ?_ }
    by_cases hba : b = a
    · subst hba
      rw [update_self,some_inj] at hb
      exact hb ▸ hlen.trans (h.perUser b txns htxns)
    · rw [update_of_ne hba] at hb
      exact h.perUser b txns' hb
  obtain ⟨s',hok,hholds,hremoved,hdropped⟩ := foldlM_indexRemove (a := a) hout fun row hrow =>
    ⟨mem_map_of_mem hrow,(Prod.mk.inj (hpointer row hrow).2).1⟩
  refine ⟨s',l',hok,hperm,hholds.weaken (fun u hu => ?_) (fun _ _ => Iff.rfl) (fun _ _ => Iff.rfl),?_⟩
  · have hdisjoint := (hperm.map (·.pointer)).nodup_iff.mp h.unique
    rw [List.map_append,List.map_map] at hdisjoint
    exact iff_of_false (fun hmem => (nodup_append'.mp hdisjoint).2.2 hmem
      (mem_map_of_mem hu)) not_mem_nil
  · refine ⟨⟨hremoved.recorded,?dropped⟩,hremoved.gone,fun b m hD => ?get,hremoved.queued,
      hremoved.parked⟩
    case get =>
      refine (hremoved.get b m hD).trans (Option.ext fun u => (hget b m u).trans (and_iff_left ?_))
      rintro hmem
      obtain ⟨row,hrow,heq⟩ := mem_map.mp hmem
      exact hD ⟨row,hrow,heq.symm⟩
    case dropped =>
      rintro b ⟨m,u,hu⟩ hnone
      by_cases hstored : ∃ m u, getMempoolTxn { s with
          transactions := update s.transactions a (some column) } b m = some u
      · exact hremoved.dropped b hstored hnone
      · -- all that the account had has been removed
        have hmem : (b,m) ∈ rows.map (·.2.pointer) := by
          by_contra hmem
          exact hstored ⟨m,u,(hget b m u).mpr ⟨hu,hmem⟩⟩
        obtain ⟨row,hrow,heq⟩ := mem_map.mp hmem
        obtain rfl : b = a := (Prod.mk.inj (heq.symm.trans (hpointer row hrow).2)).1
        push Not at hstored
        refine hdropped (ne_nil_of_mem hrow) ?_ fun m =>
          eq_none_iff_forall_ne_some.mpr (hstored m)
        dsimp only
        rw [update_self]
        rfl

theorem removeTxn_indexRemove_spec (h : Holds config U fresh s l [] gt ge)
    (ht : s.getMempoolTxn a n = some t) :
    ∃ s' rest, (s.removeTxn a n).indexRemove config t = .ok s' ∧ l.Perm (t :: rest) ∧
      Holds config U fresh s' rest [] gt ge ∧ Removed s s' (· = (a,n)) := by
  obtain ⟨txns,htxns,hrow⟩ := transactions_of_get ht
  have hpointer : t.pointer = (a,n) := ((h.main a n t).mp ht).2.1
  obtain ⟨s',rest,hok,hperm,hholds,hremoved⟩ := removeRows_spec (txns.delete n) h htxns
    (nodup_singleton (n,t)) (cons_subset.mpr ⟨hrow,nil_subset _⟩) (fun row => by
      rw [Column.mem_delete,mem_singleton]
      exact and_congr_right fun hmem => not_congr
        ⟨fun heq => Column.row_unique hmem hrow heq,fun heq => by rw [heq]⟩)
    Column.length_delete_le
  simp only [foldlM_cons,foldlM_nil,bind_pure,mem_singleton,exists_eq_left,
    hpointer] at hok hremoved
  refine ⟨s',rest,?_,hperm,hholds,hremoved⟩
  rw [removeTxn,htxns]
  exact hok

theorem cleanCommittedTransactions_spec (h : Holds config U fresh s l [] gt ge) (a : A) (m : ℕ) :
    ∃ s' l', s.cleanCommittedTransactions config a m = .ok s' ∧ l'.length ≤ l.length ∧
      Holds config U fresh s' l' [] gt ge ∧ Removed s s' (fun p => p.1 = a ∧ p.2 < m) := by
  rw [cleanCommittedTransactions]
  cases htxns : s.transactions a with
  | none =>
    refine ⟨s,l,rfl,le_rfl,h,(Removed.refl s).congr h fun p hp => iff_of_false id ?_⟩
    rintro ⟨rfl,-⟩
    obtain ⟨u,hu⟩ := hp
    rw [getMempoolTxn,htxns] at hu
    cases hu
  | some txns =>
    have hbelow : ∀ row, row ∈ txns.below m ↔ row ∈ txns.rows ∧ row.1 < m := by
      intro row
      rw [Column.below,mem_filter,decide_eq_true_eq]
      rfl
    obtain ⟨s',l',hok,hperm,hholds,hremoved⟩ := removeRows_spec (txns.splitOff m) h htxns
      (Column.rows_nodup.filter _) (filter_subset_self _) (fun row => by
        rw [← Column.below,hbelow,not_and]
        exact mem_filter.trans (and_congr_right fun hmem => by simp [hmem]))
      Column.length_splitOff_le
    have hlength := hperm.length_eq
    rw [length_append] at hlength
    refine ⟨s',l',hok,by omega,hholds,hremoved.congr h fun p ⟨u,hu⟩ => ?_⟩
    have hpointer : u.pointer = p := ((h.main _ _ u).mp hu).2.1
    constructor
    · rintro ⟨row,hrow,rfl⟩
      obtain ⟨hmem,hlt⟩ := (hbelow row).mp hrow
      rw [((h.main _ _ _).mp (get_of_mem htxns (hmem : (row.1,row.2) ∈ txns.rows))).2.1]
      exact ⟨rfl,hlt⟩
    · rintro ⟨rfl,hlt⟩
      obtain ⟨txns',htxns',hmem⟩ := transactions_of_get hu
      cases htxns.symm.trans htxns'
      exact ⟨(p.2,u),(hbelow _).mpr ⟨hmem,hlt⟩,hpointer.symm⟩

end Removal

end Arx.Mempool.TransactionStore
