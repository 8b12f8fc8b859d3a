import Arx.Mempool.Promotion

/-!
# Collection of expired transactions

Expired transactions leave the store, and those of their accounts with higher numbers are parked.
-/

namespace Arx.Mempool.TransactionStore
open Movelib List Option

variable {A P H : Type} [LinearOrder A]

variable {config : MempoolConfig} {U : Set (SignedTransaction A P H)} {fresh : Prop}
  {s s₁ s' : TransactionStore A P H} {t : MempoolTransaction A P H}
  {l : List (MempoolTransaction A P H)} {gt ge : List (TxnPointer A)} {a b : A} {n m e : ℕ}

/-- The transactions of `K` leave the store, and the others of `D` that are stored wait. -/
structure Collected (s s' : TransactionStore A P H) (K D : TxnPointer A → Prop) : Prop
    extends NumbersFollow s s' where
  gone : ∀ b m, K (b,m) → s'.getMempoolTxn b m = none
  absent : ∀ b m, s.getMempoolTxn b m = none → s'.getMempoolTxn b m = none
  moved : ∀ b m t, ¬ K (b,m) → D (b,m) → s.getMempoolTxn b m = some t → ∃ state,
    (∀ timelineId, state ≠ .ready timelineId) ∧ s'.getMempoolTxn b m = some (t.withState state)
  get : ∀ b m, ¬ K (b,m) → ¬ D (b,m) → s'.getMempoolTxn b m = s.getMempoolTxn b m
  queued : ∀ p, s'.Queued p ↔ s.Queued p ∧ ¬ K p ∧ ¬ D p
  parked : ∀ p, s'.Parked p ↔ (s.Parked p ∨ D p ∧ s.Stored p) ∧ ¬ K p

namespace Collected

variable {K D K₁ D₁ K₂ D₂ : TxnPointer A → Prop}

theorem congr (h : Collected s s' K D) {K' D' : TxnPointer A → Prop} (hK : ∀ p, K p ↔ K' p)
    (hD : ∀ p, D p ↔ D' p) : Collected s s' K' D' := by
  rwa [← funext fun p => propext (hK p),← funext fun p => propext (hD p)]

theorem of_removed (h : Removed s s' K) : Collected s s' K fun _ => False where
  toNumbersFollow := h.toNumbersFollow
  gone := h.gone
  absent := h.absent
  moved := nofun
  get := fun b m hK _ => h.get b m hK
  queued := fun p => (h.queued p).trans (by simp)
  parked := fun p => (h.parked p).trans (by simp)

theorem refl (s : TransactionStore A P H) : Collected s s (fun _ => False) fun _ => False :=
  of_removed (.refl s)

theorem stored (h : Collected s s' K D) (p : TxnPointer A) : s'.Stored p ↔ s.Stored p ∧ ¬ K p := by
  constructor
  · rintro ⟨t,ht⟩
    refine ⟨ne_none_iff_exists'.mp fun hnone => ?_,fun hK => ?_⟩
    · exact absurd ((h.absent _ _ hnone).symm.trans ht) nofun
    · exact absurd ((h.gone _ _ hK).symm.trans ht) nofun
  · rintro ⟨⟨t,ht⟩,hK⟩
    by_cases hD : D p
    · obtain ⟨state,-,hget⟩ := h.moved _ _ t hK hD ht
      exact ⟨_,hget⟩
    · exact ⟨t,(h.get _ _ hK hD).trans ht⟩

theorem trans (h₁ : Collected s s₁ K₁ D₁) (h₂ : Collected s₁ s' K₂ D₂) :
    Collected s s' (fun p => K₁ p ∨ K₂ p) fun p => D₁ p ∨ D₂ p where
  toNumbersFollow := h₁.toNumbersFollow.trans h₂.toNumbersFollow h₂.absent
  gone := by
    rintro b m (hK | hK)
    · exact h₂.absent b m (h₁.gone b m hK)
    · exact h₂.gone b m hK
  absent := fun b m hnone => h₂.absent b m (h₁.absent b m hnone)
  moved := by
    intro b m t hK hD ht
    obtain ⟨hK₁,hK₂⟩ := not_or.mp hK
    by_cases hD₁ : D₁ (b,m)
    · obtain ⟨state,hstate,hget⟩ := h₁.moved b m t hK₁ hD₁ ht
      by_cases hD₂ : D₂ (b,m)
      · obtain ⟨state',hstate',hget'⟩ := h₂.moved b m _ hK₂ hD₂ hget
        exact ⟨state',hstate',hget'⟩
      · exact ⟨state,hstate,(h₂.get b m hK₂ hD₂).trans hget⟩
    · exact h₂.moved b m t hK₂ (hD.resolve_left hD₁) ((h₁.get b m hK₁ hD₁).trans ht)
  get := by
    intro b m hK hD
    obtain ⟨hK₁,hK₂⟩ := not_or.mp hK
    obtain ⟨hD₁,hD₂⟩ := not_or.mp hD
    exact (h₂.get b m hK₂ hD₂).trans (h₁.get b m hK₁ hD₁)
  queued := by
    intro p
    rw [h₂.queued,h₁.queued]
    tauto
  parked := by
    intro p
    rw [h₂.parked,h₁.parked,h₁.stored]
    tauto

theorem change (h : Collected s s' K D) {D' : TxnPointer A → Prop}
    (hqueued : ∀ p, s.Queued p → s.Stored p) (hD : ∀ p, s.Stored p → ¬ K p → (D p ↔ D' p)) :
    Collected s s' K D' where
  toNumbersFollow := h.toNumbersFollow
  gone := h.gone
  absent := h.absent
  moved := fun b m t hK hD' ht => h.moved b m t hK ((hD (b,m) ⟨t,ht⟩ hK).mpr hD') ht
  get := by
    intro b m hK hD'
    cases ht : s.getMempoolTxn b m with
    | none => exact h.absent b m ht
    | some t => exact (h.get b m hK fun hDp => hD' ((hD (b,m) ⟨t,ht⟩ hK).mp hDp)).trans ht
  queued := by
    intro p
    rw [h.queued]
    refine and_congr_right fun hp => and_congr_right fun hK => ?_
    rw [hD p (hqueued p hp) hK]
  parked := by
    intro p
    rw [h.parked]
    refine and_congr_left fun hK => or_congr_right (and_congr_left fun hp => hD p hp hK)

end Collected

theorem unready_spec (h : Holds config U fresh s (t :: l) [] gt ge) : ∃ state,
    Holds config U fresh (s.unready t) (t.withState state :: l) [] gt ge ∧
    Collected s (s.unready t) (fun _ => False) (· = t.pointer) := by
  obtain ⟨hwf,hcontains⟩ := ParkingLotIndex.insert_spec (t := t) h.parking
  -- the state becomes one that is not ready, and the rest of the store is changed in the same way
  have hmoved : ∀ (s₁ : TransactionStore A P H) (state : TimelineState),
      (∀ timelineId, state ≠ .ready timelineId) →
      Holds config U fresh s₁ (t.withState state :: l) [] gt ge →
      (∀ b m, s₁.getMempoolTxn b m =
        if (b,m) = t.pointer then some (t.withState state) else s.getMempoolTxn b m) →
      s₁.priorityIndex = s.priorityIndex → s₁.sequenceNumbers = s.sequenceNumbers →
      Holds config U fresh { s₁ with
        parkingLotIndex := s.parkingLotIndex.insert t
        priorityIndex := s.priorityIndex.remove t } (t.withState state :: l) [] gt ge ∧
      Collected s { s₁ with
        parkingLotIndex := s.parkingLotIndex.insert t
        priorityIndex := s.priorityIndex.remove t } (fun _ => False) (· = t.pointer) := by
    intro s₁ state hstate h₁ hget hpriority hnumbers
    constructor
    · refine { h₁ with priority := ?_, parking := hwf, parked := ?_ }
      · intro k hk
        exact h₁.priority k (hpriority ▸ ((Holds.mem_remove_priority k).mp hk).1)
      · intro p hp
        rcases (hcontains p.1 p.2).mp hp with heq | hp
        · exact ⟨_,mem_cons_self,heq.symm⟩
        · exact (exists_mem_cons_iff ..).mpr ((exists_mem_cons_iff ..).mp (h.parked p hp))
    · have hhead := h.get_head
      refine ⟨⟨?recorded,?dropped⟩,?gone,?absent,?moved,?get,?queued,?parked⟩
      case gone => exact nofun
      case absent =>
        intro b m hnone
        refine (hget b m).trans ?_
        rw [if_neg,hnone]
        intro heq
        cases heq
        exact absurd (hnone.symm.trans hhead) nofun
      case moved =>
        intro b m u _ hD hu
        cases hD
        rw [hhead,some_inj] at hu
        subst hu
        exact ⟨state,hstate,(hget _ _).trans (if_pos rfl)⟩
      case get => exact fun b m _ hD => (hget b m).trans (if_neg hD)
      case queued =>
        intro p
        rw [not_false_eq_true,true_and]
        exact h.queued_remove mem_cons_self p
      case parked =>
        intro p
        rw [not_false_eq_true,and_true]
        refine (hcontains p.1 p.2).trans (or_comm.trans (or_congr_right ?_))
        refine ⟨fun hp => ⟨hp,t,?_⟩,And.left⟩
        obtain ⟨hsender,hnumber⟩ := Prod.mk.inj hp
        rw [hsender,hnumber]
        exact hhead
      case recorded => exact fun b => .inl (congrFun hnumbers b)
      case dropped =>
        rintro b ⟨m,u,hu⟩ hnone
        have hm := (hget b m).symm.trans (hnone m)
        split_ifs at hm
        exact absurd (hm.symm.trans hu) nofun
  have hmins : (s.timelineIndex.remove t).bucketMins = config.broadcastBuckets := h.buckets
  have htimeline : ∀ state : TimelineState, (∀ timelineId, state ≠ .ready timelineId) → fresh →
      (s.timelineIndex.remove t).Follows (t.withState state :: l) :=
    fun state hstate hfresh => ((h.timeline hfresh).remove h.notMem).cons hstate
  rw [unready]
  cases hstate : t.timelineState with
  | ready timelineId =>
    obtain ⟨hholds,hget⟩ := h.setState .notReady hmins (htimeline _ nofun)
    exact ⟨.notReady,hmoved _ .notReady nofun hholds hget rfl rfl⟩
  | notReady | nonQualified =>
    have hnot : ∀ timelineId, t.timelineState ≠ .ready timelineId := by
      rw [hstate]
      exact nofun
    exact ⟨t.timelineState,hmoved { s with timelineIndex := s.timelineIndex.remove t } _ hnot
      { h with buckets := hmins, timeline := htimeline _ hnot } h.get_same rfl rfl⟩

theorem foldl_unready_spec {rows : List (ℕ × MempoolTransaction A P H)}
    (h : Holds config U fresh s l [] gt ge) (hnodup : (rows.map Prod.fst).Nodup)
    (hrows : ∀ row ∈ rows, s.getMempoolTxn a row.1 = some row.2) :
    ∃ l', SamePointers l l' ∧
      Holds config U fresh (rows.foldl (fun s row => s.unready row.2) s) l' [] gt ge ∧
      Collected s (rows.foldl (fun s row => s.unready row.2) s) (fun _ => False)
        fun p => p.1 = a ∧ p.2 ∈ rows.map Prod.fst := by
  induction rows generalizing s l with
  | nil =>
    exact ⟨l,List.Perm.refl _,h,(Collected.refl s).congr (fun _ => Iff.rfl) fun p => by simp⟩
  | cons row rows ih =>
    obtain ⟨hrow,hrows⟩ := forall_mem_cons.mp hrows
    obtain ⟨hnew,hnodup⟩ := nodup_cons.mp hnodup
    obtain ⟨rest,hholds,hperm,hpointer⟩ := h.split hrow
    obtain ⟨state,hholds₁,hcollected⟩ := unready_spec hholds
    have hrows₁ : ∀ r ∈ rows, (s.unready row.2).getMempoolTxn a r.1 = some r.2 := by
      intro r hr
      refine (hcollected.get a r.1 id fun heq => hnew ?_).trans (hrows r hr)
      rw [← (Prod.mk.inj (heq.trans hpointer)).2]
      exact mem_map_of_mem hr
    obtain ⟨l',hsame,hholds',hcollected'⟩ := ih hholds₁ hnodup hrows₁
    refine ⟨l',hsame.trans (hperm.map (·.pointer)).symm,hholds',?_⟩
    refine (hcollected.trans hcollected').congr (fun p => or_self_iff) fun p => ?_
    rw [hpointer,map_cons,mem_cons,Prod.ext_iff,← and_or_left]

def Sorted (keys : List (TTLOrderingKey A)) : Prop :=
  keys.Pairwise fun k k' =>
    k.address < k'.address ∨ k.address = k'.address ∧ k.sequenceNumber < k'.sequenceNumber

/-- A transaction whose key is among those of a list. -/
def Expired (keys : List (TTLOrderingKey A)) (p : TxnPointer A) : Prop :=
  ∃ k ∈ keys, (k.address,k.sequenceNumber) = p

/-- A transaction that comes after one of its account whose key is among those of a list. -/
def AfterExpired (keys : List (TTLOrderingKey A)) (p : TxnPointer A) : Prop :=
  ∃ k ∈ keys, k.address = p.1 ∧ k.sequenceNumber < p.2

/-- The range is one of numbers after the key; what is after it is not before the next key. -/
theorem parkRange_spec (txns : AccountTransactions A P H) {key : TTLOrderingKey A}
    {keys : List (TTLOrderingKey A)} (hsorted : Sorted (key :: keys)) :
    ∃ range, parkRange txns key keys.head? = .ok range ∧ range.Sublist txns.rows ∧
      (∀ row ∈ range, key.sequenceNumber < row.1) ∧
      ∀ row ∈ txns.rows, key.sequenceNumber < row.1 → row ∈ range ∨
        Expired keys (key.address,row.1) ∨ AfterExpired keys (key.address,row.1) := by
  rw [parkRange]
  cases hnext : keys.head?.filter fun nextKey => key.address = nextKey.address with
  | none =>
    exact ⟨_,rfl,filter_sublist,fun row hrow => of_decide_eq_true (mem_filter.mp hrow).2,
      fun row hrow hlt => .inl (mem_filter.mpr ⟨hrow,decide_eq_true hlt⟩)⟩
  | some next =>
    obtain ⟨hhead,hfilter⟩ := filter_eq_some_iff.mp hnext
    have hmem := mem_of_head? hhead
    have haddress := of_decide_eq_true hfilter
    have hlt : key.sequenceNumber < next.sequenceNumber := by
      rcases (pairwise_cons.mp hsorted).1 next hmem with hlt | ⟨-,hlt⟩
      · exact absurd haddress hlt.ne
      · exact hlt
    simp only [if_pos hlt]
    refine ⟨_,rfl,filter_sublist,?_,?_⟩
    · intro row hrow
      exact (of_decide_eq_true (mem_filter.mp hrow).2).1
    · intro row hrow hafter
      rcases lt_trichotomy row.1 next.sequenceNumber with hbefore | heq | hbeyond
      · exact .inl (mem_filter.mpr ⟨hrow,decide_eq_true ⟨hafter,hbefore⟩⟩)
      · exact .inr (.inl ⟨next,hmem,Prod.ext haddress.symm heq.symm⟩)
      · exact .inr (.inr ⟨next,hmem,haddress.symm,hbeyond⟩)

section Collection

variable [DecidableEq H] {keys : List (TTLOrderingKey A)}

theorem gcOne_spec {key : TTLOrderingKey A}
    (h : Holds config U fresh s l [] gt ge) (hsorted : Sorted (key :: keys))
    (hstored : s.Stored (key.address,key.sequenceNumber)) :
    ∃ s' l' D, s.gcOne config key keys.head? = .ok s' ∧ Holds config U fresh s' l' [] gt ge ∧
      Collected s s' (· = (key.address,key.sequenceNumber)) D ∧
      (∀ p, D p → p.1 = key.address ∧ key.sequenceNumber < p.2) ∧
      ∀ p, p.1 = key.address → key.sequenceNumber < p.2 → s.Stored p →
        D p ∨ Expired keys p ∨ AfterExpired keys p := by
  obtain ⟨t,ht⟩ := hstored
  obtain ⟨txns,htxns,hrow⟩ := transactions_of_get ht
  obtain ⟨range,hrange,hsub,hafter,hcover⟩ := parkRange_spec txns hsorted
  have hnodup := Column.keys_nodup.sublist (hsub.map _)
  obtain ⟨l₁,-,hholds₁,hcollected₁⟩ := foldl_unready_spec h hnodup
    fun row hrow => get_of_mem htxns (hsub.subset hrow)
  have ht₁ : (range.foldl (fun s row => s.unready row.2) s).getMempoolTxn key.address
      key.sequenceNumber = some t := by
    refine (hcollected₁.get _ _ id ?_).trans ht
    rintro ⟨-,hmem⟩
    obtain ⟨row,hrow,heq⟩ := mem_map.mp hmem
    exact absurd (hafter row hrow) (by omega)
  obtain ⟨s',l',hok,-,hholds',hremoved⟩ := removeTxn_indexRemove_spec hholds₁ ht₁
  refine ⟨s',l',fun p => p.1 = key.address ∧ p.2 ∈ range.map Prod.fst,?_,hholds',?_,?_,?_⟩
  · simp only [gcOne,htxns,hrange,Except.bind,bind,ht₁]
    exact hok
  · exact (hcollected₁.trans (.of_removed hremoved)).congr (fun p => by simp) fun p => by simp
  · rintro p ⟨hp,hmem⟩
    obtain ⟨row,hrow,heq⟩ := mem_map.mp hmem
    exact ⟨hp,heq ▸ hafter row hrow⟩
  · rintro p hp hlt ⟨u,hu⟩
    obtain ⟨txns',htxns',hmem⟩ := transactions_of_get hu
    rw [hp,htxns,some_inj] at htxns'
    subst htxns'
    rcases hcover _ hmem hlt with hrange | hlater
    · exact .inl ⟨hp,mem_map_of_mem hrange⟩
    · rw [← hp] at hlater
      exact .inr hlater

theorem gcAll_spec (h : Holds config U fresh s l [] gt ge)
    (hsorted : Sorted keys) (hstored : ∀ k ∈ keys, s.Stored (k.address,k.sequenceNumber)) :
    ∃ s' l', s.gcAll config keys = .ok s' ∧ Holds config U fresh s' l' [] gt ge ∧
      Collected s s' (Expired keys) (AfterExpired keys) := by
  induction keys generalizing s l with
  | nil =>
    exact ⟨s,l,rfl,h,(Collected.refl s).congr (fun p => by simp [Expired])
      fun p => by simp [AfterExpired]⟩
  | cons key keys ih =>
    obtain ⟨hkey,hstored⟩ := forall_mem_cons.mp hstored
    obtain ⟨s₁,l₁,D,hok,hholds₁,hcollected₁,hD,hcover⟩ := gcOne_spec h hsorted hkey
    obtain ⟨hfirst,hsorted⟩ := pairwise_cons.mp hsorted
    have hstored₁ : ∀ k ∈ keys, s₁.Stored (k.address,k.sequenceNumber) := by
      intro k hk
      refine (hcollected₁.stored _).mpr ⟨hstored k hk,fun heq => ?_⟩
      obtain ⟨haddress,hnumber⟩ := Prod.mk.inj heq
      rcases hfirst k hk with hlt | ⟨-,hlt⟩
      · exact absurd haddress hlt.ne'
      · exact absurd hnumber hlt.ne'
    obtain ⟨s',l',hok',hholds',hcollected'⟩ := ih hholds₁ hsorted hstored₁
    refine ⟨s',l',?_,hholds',?_⟩
    · rw [gcAll,hok]
      exact hok'
    · refine ((hcollected₁.trans hcollected').congr (fun p => ?_) fun _ => Iff.rfl).change
        (fun p => h.stored_of_queued) fun p hp hK => ?_
      · rw [Expired,Expired,exists_mem_cons_iff]
        exact or_congr_left eq_comm
      · rw [AfterExpired,AfterExpired,exists_mem_cons_iff]
        constructor
        · rintro (hDp | hlater)
          · exact .inl ⟨(hD p hDp).1.symm,(hD p hDp).2⟩
          · exact .inr hlater
        · rintro (⟨haddress,hlt⟩ | hlater)
          · rcases hcover p haddress.symm hlt hp with hDp | ⟨k,hk,heq⟩ | hlater
            · exact .inl hDp
            · exact absurd ⟨k,mem_cons_of_mem key hk,heq⟩ hK
            · exact .inr hlater
          · exact .inr hlater

/-- Keys with different pointers are sorted into the order in which they are collected. -/
theorem sorted_sortKeys
    (h : (keys.map fun k => (k.address,k.sequenceNumber)).Nodup) : Sorted (sortKeys keys) := by
  have hperm : (sortKeys keys).Perm keys := mergeSort_perm keys _
  have hne := pairwise_map.mp ((hperm.map _).nodup_iff.mpr h)
  have hle : (sortKeys keys).Pairwise fun k k' => decide
      (toLex (k.address,k.sequenceNumber) ≤ toLex (k'.address,k'.sequenceNumber)) = true := by
    refine pairwise_mergeSort (fun k k' k'' h h' => ?_) (fun k k' => ?_) keys
    · exact decide_eq_true ((of_decide_eq_true h).trans (of_decide_eq_true h'))
    · simpa using le_total _ _
  refine (hle.and hne).imp fun {k k'} hk => ?_
  rcases Prod.Lex.toLex_le_toLex.mp (of_decide_eq_true hk.1) with hlt | ⟨heq,hle⟩
  · exact .inl hlt
  · exact .inr ⟨heq,lt_of_le_of_ne hle fun hnumber => hk.2 (Prod.ext heq hnumber)⟩

theorem collect_spec (h : Holds config U fresh s l [] gt ge)
    (hnodup : (keys.map fun k => (k.address,k.sequenceNumber)).Nodup)
    (hkeys : ∀ k ∈ keys, ∃ t ∈ l, t.pointer = (k.address,k.sequenceNumber))
    (hgt : ∀ p ∈ gt, Expired keys p) (hge : ∀ p ∈ ge, Expired keys p) :
    ∃ s' l', s.gcAll config (sortKeys keys) = .ok s' ∧ Holds config U fresh s' l' [] [] [] ∧
      Collected s s' (Expired keys) (AfterExpired keys) := by
  have hmem : ∀ k, k ∈ sortKeys keys ↔ k ∈ keys := fun k => (mergeSort_perm keys _).mem_iff
  have hstored : ∀ k ∈ sortKeys keys, s.Stored (k.address,k.sequenceNumber) := by
    intro k hk
    obtain ⟨t,ht,hpointer⟩ := hkeys k ((hmem k).mp hk)
    exact ⟨t,(h.main _ _ t).mpr ⟨ht,hpointer,not_mem_nil⟩⟩
  obtain ⟨s',l',hok,hholds,hcollected⟩ := gcAll_spec h (sorted_sortKeys hnodup) hstored
  have hcollected' : Collected s s' (Expired keys) (AfterExpired keys) :=
    hcollected.congr (fun p => exists_congr fun k => and_congr_left fun _ => hmem k)
      fun p => exists_congr fun k => and_congr_left fun _ => hmem k
  -- what is still stored is not expired
  have hlive : ∀ t ∈ l', ¬ Expired keys t.pointer := by
    intro t ht
    exact ((hcollected'.stored t.pointer).mp
      ⟨t,(hholds.main _ _ t).mpr ⟨ht,rfl,not_mem_nil⟩⟩).2
  refine ⟨s',l',hok,hholds.weaken (fun _ _ => Iff.rfl) ?_ ?_,hcollected'⟩
  · exact fun t ht => iff_of_false (fun hp => hlive t ht (hgt _ hp)) not_mem_nil
  · exact fun t ht => iff_of_false (fun hp => hlive t ht (hge _ hp)) not_mem_nil

theorem gc_spec [OrderBot A] (h : Holds config U fresh s l [] [] []) (now : ℕ) (bySystemTtl : Bool) :
    ∃ s' l' keys, s.gc config now bySystemTtl = .ok s' ∧ Holds config U fresh s' l' [] [] [] ∧
      (∀ k ∈ keys, s.Stored (k.address,k.sequenceNumber)) ∧
      Collected s s' (Expired keys) (AfterExpired keys) := by
  have hstored : ∀ {f : MempoolTransaction A P H → ℕ} {keys : List (TTLOrderingKey A)},
      (∀ k ∈ keys, ∃ t ∈ l, TTLIndex.makeKey f t = k) →
      (∀ k ∈ keys, ∃ t ∈ l, t.pointer = (k.address,k.sequenceNumber)) ∧
      ∀ k ∈ keys, s.Stored (k.address,k.sequenceNumber) := by
    refine fun hkeys => ⟨fun k hk => ?_,fun k hk => ?_⟩
    · obtain ⟨t,ht,rfl⟩ := hkeys k hk
      exact ⟨t,ht,rfl⟩
    · obtain ⟨t,ht,rfl⟩ := hkeys k hk
      exact ⟨t,(h.main _ _ t).mpr ⟨ht,rfl,not_mem_nil⟩⟩
  cases bySystemTtl with
  | true =>
    obtain ⟨hfollows,hnodup,hkeys⟩ := h.systemTtl.gc h.unique now
    obtain ⟨s',l',hok,hholds,hcollected⟩ := collect_spec (s := { s with
      systemTtlIndex := (s.systemTtlIndex.gc now).2 }) { h with systemTtl := hfollows } hnodup
      (hstored hkeys).1 (fun p => mem_map.mp) nofun
    exact ⟨s',l',_,hok,hholds,(hstored hkeys).2,{ hcollected with }⟩
  | false =>
    obtain ⟨hfollows,hnodup,hkeys⟩ := h.expirationTime.gc h.unique now
    obtain ⟨s',l',hok,hholds,hcollected⟩ := collect_spec (s := { s with
      expirationTimeIndex := (s.expirationTimeIndex.gc now).2 }) { h with expirationTime := hfollows }
      hnodup (hstored hkeys).1 nofun fun p => mem_map.mp
    exact ⟨s',l',_,hok,hholds,(hstored hkeys).2,{ hcollected with }⟩

end Collection

end Arx.Mempool.TransactionStore
