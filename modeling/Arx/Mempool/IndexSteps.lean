import Arx.Mempool.ParkingLot

/-!
# What the indexes follow

An index follows a list of transactions when it has exactly their keys.
-/

namespace Arx.Mempool
open Movelib Function List

variable {A P H : Type} {u : MempoolTransaction A P H}

variable {t t' : MempoolTransaction A P H} {l : List (MempoolTransaction A P H)}
  {gone : List (TxnPointer A)}

theorem eq_of_pointer (hunique : (l.map (·.pointer)).Nodup) (ht : t ∈ l) (hu : u ∈ l)
    (h : t.pointer = u.pointer) : t = u :=
  inj_on_of_nodup_map hunique ht hu h

theorem pointer_of_txn (h : t.txn = t'.txn) : t.pointer = t'.pointer := by
  simp only [MempoolTransaction.pointer,MempoolTransaction.getSender,MempoolTransaction.sequence_eq,h]

theorem pointer_of_ttlKey {f : MempoolTransaction A P H → ℕ}
    (h : TTLIndex.makeKey f t = TTLIndex.makeKey f t') : t.pointer = t'.pointer := by
  obtain ⟨-,haddress,hnumber⟩ := TTLOrderingKey.mk.inj h
  exact Prod.ext haddress hnumber

section Ordered

variable [LinearOrder A]

def TTLIndex.Follows (f : MempoolTransaction A P H → ℕ) (index : TTLIndex A)
    (l : List (MempoolTransaction A P H)) (gone : List (TxnPointer A)) : Prop :=
  ∀ k, k ∈ index.keys ↔ ∃ t ∈ l, t.pointer ∉ gone ∧ TTLIndex.makeKey f t = k

namespace TTLIndex.Follows

variable {f : MempoolTransaction A P H → ℕ} {index : TTLIndex A}

theorem remove (h : Follows f index (t :: l) gone) (hnew : t.pointer ∉ l.map (·.pointer)) :
    Follows f (index.remove f t) l gone := by
  intro k
  rw [TTLIndex.remove,Column.mem_keys_delete TTLOrderingKey.order_injective,h k]
  constructor
  · rintro ⟨⟨u,hu,hgone,rfl⟩,hne⟩
    rcases mem_cons.mp hu with rfl | hu
    · exact absurd rfl hne
    · exact ⟨u,hu,hgone,rfl⟩
  · rintro ⟨u,hu,hgone,rfl⟩
    refine ⟨⟨u,mem_cons_of_mem t hu,hgone,rfl⟩,fun heq => hnew ?_⟩
    rw [← pointer_of_ttlKey heq]
    exact mem_map_of_mem hu

theorem insert (h : Follows f index l []) : Follows f (index.insert f t) (t :: l) [] := by
  intro k
  rw [TTLIndex.insert,Column.mem_keys_put TTLOrderingKey.order_injective,h k,
    exists_mem_cons_iff]
  simp only [not_mem_nil,not_false_eq_true,true_and]
  exact or_congr_left eq_comm

theorem change (h : Follows f index (t :: l) gone) (hpointer : t'.pointer = t.pointer)
    (hkey : makeKey f t' = makeKey f t) : Follows f index (t' :: l) gone := by
  intro k
  rw [h k,exists_mem_cons_iff,exists_mem_cons_iff,hpointer,hkey]

theorem length_eq (h : Follows f index l []) (hunique : (l.map (·.pointer)).Nodup) :
    index.rows.length = l.length := by
  have hnodup : (l.map (makeKey f)).Nodup := by
    refine List.Nodup.map_on (fun t ht u hu heq => ?_) hunique.of_map
    exact eq_of_pointer hunique ht hu (pointer_of_ttlKey heq)
  have hperm : index.keys.Perm (l.map (makeKey f)) := by
    refine (perm_ext_iff_of_nodup Column.keys_nodup hnodup).mpr fun k => ?_
    rw [h k]
    simp
  rw [← length_map (makeKey f),← hperm.length_eq,Column.keys,length_map]

theorem gc [OrderBot A] (h : Follows f index l []) (hunique : (l.map (·.pointer)).Nodup) (now : ℕ) :
    Follows f (index.gc now).2 l ((index.gc now).1.map fun k => (k.address,k.sequenceNumber)) ∧
    ((index.gc now).1.map fun k => (k.address,k.sequenceNumber)).Nodup ∧
    ∀ k ∈ (index.gc now).1, ∃ t ∈ l, makeKey f t = k := by
  have hkey : ∀ k ∈ index.keys, ∃ t ∈ l, makeKey f t = k := by
    intro k hk
    obtain ⟨t,ht,-,hkey⟩ := (h k).mp hk
    exact ⟨t,ht,hkey⟩
  have hsub : ∀ k, k ∈ (index.gc now).1 ↔ k ∈ index.keys ∧ k.order < (ttlKey now).order := by
    intro k
    rw [TTLIndex.gc,mem_map,Column.mem_keys]
    constructor
    · rintro ⟨row,hrow,rfl⟩
      obtain ⟨hrow,hlt⟩ := mem_filter.mp hrow
      exact ⟨⟨row.2,hrow⟩,of_decide_eq_true hlt⟩
    · rintro ⟨⟨v,hrow⟩,hlt⟩
      exact ⟨(k,v),mem_filter.mpr ⟨hrow,decide_eq_true hlt⟩,rfl⟩
  -- a key of the index is known by its pointer
  have hinj : ∀ k ∈ index.keys, ∀ k' ∈ index.keys,
      (k.address,k.sequenceNumber) = (k'.address,k'.sequenceNumber) → k = k' := by
    intro k hk k' hk' heq
    obtain ⟨t,ht,rfl⟩ := hkey k hk
    obtain ⟨t',ht',rfl⟩ := hkey k' hk'
    rw [eq_of_pointer hunique ht ht' heq]
  refine ⟨fun k => ?_,?_,fun k hk => hkey k ((hsub k).mp hk).1⟩
  · have hrest : k ∈ (index.gc now).2.keys ↔
        k ∈ index.keys ∧ ¬ k.order < (ttlKey now).order := by
      rw [TTLIndex.gc,Column.mem_keys,Column.mem_keys,not_lt,← exists_and_right]
      refine exists_congr fun v => ?_
      simp only [Column.splitOff,mem_filter,decide_eq_true_eq]
    rw [hrest]
    constructor
    · rintro ⟨hk,hlt⟩
      obtain ⟨t,ht,rfl⟩ := hkey k hk
      refine ⟨t,ht,fun hmem => hlt ?_,rfl⟩
      obtain ⟨k',hk',heq⟩ := mem_map.mp hmem
      obtain ⟨hmem',hlt'⟩ := (hsub k').mp hk'
      rw [← hinj k' hmem' _ hk heq]
      exact hlt'
    · rintro ⟨t,ht,hnot,rfl⟩
      have hmem : makeKey f t ∈ index.keys := (h _).mpr ⟨t,ht,not_mem_nil,rfl⟩
      exact ⟨hmem,fun hlt => hnot (mem_map.mpr ⟨_,(hsub _).mpr ⟨hmem,hlt⟩,rfl⟩)⟩
  · refine List.Nodup.map_on (fun k hk k' hk' => ?_) ?_
    · exact hinj k ((hsub k).mp hk).1 k' ((hsub k').mp hk').1
    · exact Column.keys_nodup.sublist (filter_sublist.map _)

end TTLIndex.Follows

end Ordered

structure MultiBucketTimelineIndex.Follows (index : MultiBucketTimelineIndex A)
    (l : List (MempoolTransaction A P H)) : Prop where
  rows : ∀ (i timelineId : ℕ) (p : TxnPointer A),
    (timelineId,p) ∈ (index.timelines i).timeline.rows ↔ ∃ t ∈ l,
      t.timelineState = .ready timelineId ∧ bucketOf index.bucketMins t.rankingScore = i ∧
      t.pointer = p
  ids : ∀ t ∈ l, ∀ timelineId, t.timelineState = .ready timelineId → 0 < timelineId ∧
    timelineId < (index.timelines (bucketOf index.bucketMins t.rankingScore)).timelineId
  positive : ∀ i, 0 < (index.timelines i).timelineId

namespace MultiBucketTimelineIndex.Follows

variable {index : MultiBucketTimelineIndex A}

theorem mem_remove {i timelineId : ℕ} {p : TxnPointer A} :
    (timelineId,p) ∈ ((index.remove t).timelines i).timeline.rows ↔
      (timelineId,p) ∈ (index.timelines i).timeline.rows ∧
      ¬ (bucketOf index.bucketMins t.rankingScore = i ∧ t.timelineState = .ready timelineId) := by
  simp only [MultiBucketTimelineIndex.remove]
  by_cases hi : i = bucketOf index.bucketMins t.rankingScore
  · rw [← hi,update_self,TimelineIndex.remove]
    cases hstate : t.timelineState with
    | ready id' =>
      rw [Column.mem_delete]
      refine and_congr_right fun _ => ?_
      simp [eq_comm]
    | notReady => simp
    | nonQualified => simp
  · rw [update_of_ne hi]
    exact (and_iff_left fun h => hi h.1.symm).symm

theorem timelineId_remove (i : ℕ) :
    ((index.remove t).timelines i).timelineId = (index.timelines i).timelineId := by
  simp only [MultiBucketTimelineIndex.remove]
  by_cases hi : i = bucketOf index.bucketMins t.rankingScore
  · rw [hi,update_self,TimelineIndex.remove]
    split <;> rfl
  · rw [update_of_ne hi]

theorem pointer_of_id (h : index.Follows l) (ht : t ∈ l) (hu : u ∈ l) {timelineId : ℕ}
    (hstate : t.timelineState = .ready timelineId) (hustate : u.timelineState = .ready timelineId)
    (hbucket : bucketOf index.bucketMins t.rankingScore = bucketOf index.bucketMins u.rankingScore) :
    t.pointer = u.pointer := by
  have hrow := (h.rows _ timelineId _).mpr ⟨t,ht,hstate,rfl,rfl⟩
  have hrow' := (h.rows _ timelineId _).mpr ⟨u,hu,hustate,hbucket.symm,rfl⟩
  exact (Prod.mk.inj (Column.row_unique hrow hrow' rfl)).2

theorem remove (h : index.Follows (t :: l)) (hnew : t.pointer ∉ l.map (·.pointer)) :
    (index.remove t).Follows l where
  rows := by
    intro i timelineId p
    rw [mem_remove,h.rows]
    constructor
    · rintro ⟨⟨u,hu,hstate,hbucket,rfl⟩,hnot⟩
      rcases mem_cons.mp hu with rfl | hu
      · exact absurd ⟨hbucket,hstate⟩ hnot
      · exact ⟨u,hu,hstate,hbucket,rfl⟩
    · rintro ⟨u,hu,hstate,hbucket,rfl⟩
      refine ⟨⟨u,mem_cons_of_mem t hu,hstate,hbucket,rfl⟩,fun ⟨htbucket,htstate⟩ => hnew ?_⟩
      have heq := h.pointer_of_id mem_cons_self (mem_cons_of_mem t hu) htstate hstate
        (htbucket.trans hbucket.symm)
      rw [heq]
      exact mem_map_of_mem hu
  ids := by
    intro u hu timelineId hstate
    rw [timelineId_remove]
    exact h.ids u (mem_cons_of_mem t hu) timelineId hstate
  positive := by
    intro i
    rw [timelineId_remove]
    exact h.positive i

theorem cons (h : index.Follows l) (ht : ∀ timelineId, t.timelineState ≠ .ready timelineId) :
    index.Follows (t :: l) where
  rows := by
    intro i timelineId p
    rw [h.rows,exists_mem_cons_iff]
    exact (or_iff_right fun hstate => ht timelineId hstate.1).symm
  ids := by
    intro u hu timelineId hstate
    rcases mem_cons.mp hu with rfl | hu
    · exact absurd hstate (ht timelineId)
    · exact h.ids u hu timelineId hstate
  positive := h.positive

theorem insert (h : index.Follows l) :
    (index.insert t).1.Follows ((index.insert t).2 :: l) := by
  have hold : ∀ p, ((index.timelines (bucketOf index.bucketMins t.rankingScore)).timelineId,p) ∉
      (index.timelines (bucketOf index.bucketMins t.rankingScore)).timeline.rows := by
    intro p hp
    obtain ⟨u,hu,hstate,hbucket,-⟩ := (h.rows _ _ _).mp hp
    have hlt := (h.ids u hu _ hstate).2
    rw [hbucket] at hlt
    exact absurd hlt (lt_irrefl _)
  constructor
  case rows =>
    intro i timelineId p
    simp only [MultiBucketTimelineIndex.insert,TimelineIndex.insert]
    rw [exists_mem_cons_iff]
    by_cases hi : i = bucketOf index.bucketMins t.rankingScore
    · subst hi
      rw [update_self]
      rw [Column.mem_put,h.rows]
      constructor
      · rintro (heq | ⟨hu,-⟩)
        · cases heq
          exact .inl ⟨rfl,rfl,rfl⟩
        · exact .inr hu
      · rintro (⟨hstate,-,rfl⟩ | hu)
        · rw [TimelineState.ready.inj hstate]
          exact .inl rfl
        · refine .inr ⟨hu,?_⟩
          rintro rfl
          exact hold p ((h.rows _ _ _).mpr hu)
    · rw [update_of_ne hi,h.rows]
      refine (or_iff_right ?_).symm
      rintro ⟨-,hbucket,-⟩
      exact hi hbucket.symm
  case ids =>
    intro u hu timelineId hstate
    simp only [MultiBucketTimelineIndex.insert,TimelineIndex.insert] at hu ⊢
    rcases mem_cons.mp hu with rfl | hu
    · rw [← TimelineState.ready.inj hstate,update_self]
      exact ⟨h.positive _,Nat.lt_succ_self _⟩
    · obtain ⟨hpos,hlt⟩ := h.ids u hu timelineId hstate
      refine ⟨hpos,?_⟩
      by_cases hi : bucketOf index.bucketMins u.rankingScore =
          bucketOf index.bucketMins t.rankingScore
      · rw [hi] at hlt ⊢
        rw [update_self]
        exact Nat.lt_succ_of_lt hlt
      · rw [update_of_ne hi]
        exact hlt
  case positive =>
    intro i
    simp only [MultiBucketTimelineIndex.insert,TimelineIndex.insert]
    by_cases hi : i = bucketOf index.bucketMins t.rankingScore
    · subst hi
      rw [update_self]
      exact Nat.succ_pos _
    · rw [update_of_ne hi]
      exact h.positive i

theorem perm {l' : List (MempoolTransaction A P H)} (h : index.Follows l) (hperm : l.Perm l') :
    index.Follows l' where
  rows := by
    intro i timelineId p
    rw [h.rows]
    exact exists_congr fun u => and_congr_left fun _ => hperm.mem_iff
  ids := fun u hu => h.ids u (hperm.mem_iff.mpr hu)
  positive := h.positive

end MultiBucketTimelineIndex.Follows

end Arx.Mempool
