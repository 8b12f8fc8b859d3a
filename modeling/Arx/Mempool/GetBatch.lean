import Arx.Mempool.StoreRuns

/-!
# Batches for consensus

`get_batch` walks the queue from the highest gas price down. A transaction that is met before the one it
follows is skipped, and taken when that one is.
-/

namespace Arx.Mempool
open Movelib List

variable {A P H : Type} [LinearOrder A] {visited : List (OrderedQueueKey A)}

/-- The walk over the queue: what has been seen and skipped, what is taken, and whether the limit has
been reached. -/
structure Pulling (A : Type) [LinearOrder A] where
  seen : Finset (TxnPointer A)
  skipped : Finset (TxnPointer A)
  result : List (TxnPointer A)
  full : Bool

namespace Pulling

def push (maxTxns : ℕ) (w : Pulling A) (p : TxnPointer A) : Pulling A :=
  ⟨insert p w.seen,w.skipped,w.result ++ [p],decide (w.result.length + 1 = maxTxns)⟩

def skip (w : Pulling A) (p : TxnPointer A) : Pulling A := { w with skipped := insert p w.skipped }

/-- The transactions skipped before that can be included now; there are no more than were skipped. -/
def drain (maxTxns : ℕ) : ℕ → Pulling A → TxnPointer A → Except Panic (Pulling A)
  | 0,w,_ => .ok w
  | fuel + 1,w,p =>
    if p ∈ w.skipped then
      let w := w.push maxTxns p
      if w.full then .ok w
      else do
        let next ← checkedSucc p.2
        drain maxTxns fuel w (p.1,next)
    else .ok w

end Pulling

namespace TransactionStore

def visit (s : TransactionStore A P H) (maxTxns : ℕ) (w : Pulling A) (txn : OrderedQueueKey A) :
    Except Panic (Pulling A) :=
  let p : TxnPointer A := (txn.address,txn.sequenceNumber)
  if w.full then .ok w
  else if p ∈ w.seen then .ok w
  else
    let seenPrevious := 0 < txn.sequenceNumber ∧ (txn.address,txn.sequenceNumber - 1) ∈ w.seen
    if seenPrevious ∨ s.getSequenceNumber txn.address = some txn.sequenceNumber then
      let w := w.push maxTxns p
      if w.full then .ok w
      else do
        let next ← checkedSucc txn.sequenceNumber
        w.drain maxTxns w.skipped.card (txn.address,next)
    else .ok (w.skip p)

def fill (s : TransactionStore A P H) (maxBytes : ℕ) :
    ℕ → List (TxnPointer A) → List (SignedTransaction A P H)
  | _,[] => []
  | totalBytes,(address,seq) :: result =>
    match s.getMempoolTxn address seq with
    | some t =>
      if totalBytes + t.txn.rawTxnBytesLen > maxBytes then []
      else t.txn :: s.fill maxBytes (totalBytes + t.txn.rawTxnBytesLen) result
    | none => s.fill maxBytes totalBytes result

def getBatch (s : TransactionStore A P H) (maxTxns maxBytes : ℕ) (seen : Finset (TxnPointer A)) :
    Except Panic (List (SignedTransaction A P H)) := do
  let w ← s.priorityIndex.keys.reverse.foldlM (s.visit maxTxns) ⟨seen,∅,[],false⟩
  pure (s.fill maxBytes 0 w.result)

variable {s : TransactionStore A P H} {seen : Finset (TxnPointer A)} {maxTxns : ℕ} {w w' : Pulling A}
  {p : TxnPointer A} {a : A} {n : ℕ}

/-- A transaction is at the number of its account, or follows another one of a set. -/
def Follows (s : TransactionStore A P H) (S : TxnPointer A → Prop) (p : TxnPointer A) : Prop :=
  s.sequenceNumbers p.1 = some p.2 ∨ ∃ n, p.2 = n + 1 ∧ S (p.1,n)

structure Pulls (s : TransactionStore A P H) (maxTxns : ℕ) (seen : Finset (TxnPointer A))
    (w : Pulling A) : Prop where
  nodup : w.result.Nodup
  mem_seen : ∀ p, p ∈ w.seen ↔ p ∈ seen ∨ p ∈ w.result
  unseen : ∀ p ∈ w.result, p ∉ seen
  queued : ∀ p ∈ w.result, s.Queued p
  order : ∀ front p back, w.result = front ++ p :: back → s.Follows (fun q => q ∈ seen ∨ q ∈ front) p
  skipped : ∀ p ∈ w.skipped, s.Queued p
  full : w.full = true → w.result.length = maxTxns
  room : w.full = false → w.result.length < maxTxns

/-- A skipped transaction does not follow one that was seen, unless it has been taken after that one. -/
def SkipsAt (s : TransactionStore A P H) (w : Pulling A) (p : TxnPointer A) : Prop :=
  s.sequenceNumbers p.1 ≠ some p.2 ∧ (p ∈ w.seen ↔ ∃ n, p.2 = n + 1 ∧ (p.1,n) ∈ w.seen)

theorem Pulls.start (h : 0 < maxTxns) : Pulls s maxTxns seen ⟨seen,∅,[],false⟩ where
  nodup := nodup_nil
  mem_seen := fun p => by simp
  unseen := nofun
  queued := nofun
  order := fun front p back heq => by simp at heq
  skipped := fun p hp => absurd hp (Finset.notMem_empty p)
  full := nofun
  room := fun _ => h

theorem Pulls.push (h : Pulls s maxTxns seen w) (hroom : w.full = false) (hnew : p ∉ w.seen)
    (hqueued : s.Queued p) (hfollows : s.Follows (· ∈ w.seen) p) :
    Pulls s maxTxns seen (w.push maxTxns p) := by
  have hlt := h.room hroom
  have hnot : p ∉ seen ∧ p ∉ w.result := by
    rw [h.mem_seen] at hnew
    exact not_or.mp hnew
  constructor
  case nodup => exact nodup_append.mpr ⟨h.nodup,nodup_singleton p,by
    rintro q hq r hr rfl
    rw [mem_singleton] at hr
    exact hnot.2 (hr ▸ hq)⟩
  case mem_seen =>
    intro q
    simp only [Pulling.push,Finset.mem_insert,mem_append,mem_singleton,h.mem_seen]
    tauto
  case unseen => exact forall_mem_append.mpr ⟨h.unseen,forall_mem_singleton.mpr hnot.1⟩
  case queued => exact forall_mem_append.mpr ⟨h.queued,forall_mem_singleton.mpr hqueued⟩
  case order =>
    intro front q back heq
    rcases eq_nil_or_concat back with rfl | ⟨back,last,rfl⟩
    · obtain ⟨rfl,hq⟩ := append_inj' heq rfl
      obtain rfl := singleton_inj.mp hq
      simpa only [Follows,h.mem_seen] using hfollows
    · refine h.order front q back ?_
      rw [concat_eq_append,← cons_append,← append_assoc] at heq
      exact (append_inj' heq rfl).1
  case skipped => exact h.skipped
  case full =>
    intro hfull
    rw [Pulling.push,decide_eq_true_eq] at hfull
    simp [Pulling.push,hfull]
  case room =>
    intro hfull
    rw [Pulling.push,decide_eq_false_iff_not] at hfull
    simp only [Pulling.push,length_append,length_singleton]
    omega

theorem SkipsAt.push {q : TxnPointer A} (h : s.SkipsAt w q) (hqp : q ≠ p) (hqne : q ≠ (p.1,p.2 + 1)) :
    s.SkipsAt (w.push maxTxns p) q := by
  refine ⟨h.1,?_⟩
  simp only [Pulling.push,Finset.mem_insert]
  rw [or_iff_right hqp,h.2]
  refine exists_congr fun n => and_congr_right fun hn => (or_iff_right ?_).symm
  rintro rfl
  exact hqne (Prod.ext rfl hn)

theorem SkipsAt.next_notMem (h : s.SkipsAt w (p.1,p.2 + 1)) (hp : p ∉ w.seen) :
    (p.1,p.2 + 1) ∉ (w.push maxTxns p).seen := by
  intro hmem
  rcases Finset.mem_insert.mp hmem with heq | hmem
  · exact absurd (congrArg Prod.snd heq) (Nat.succ_ne_self _)
  · obtain ⟨n,hn,hbefore⟩ := h.2.mp hmem
    rw [← Nat.succ.inj hn] at hbefore
    exact hp hbefore

def waiting (w : Pulling A) (p : TxnPointer A) : Finset (TxnPointer A) :=
  w.skipped.filter fun q => q.1 = p.1 ∧ p.2 ≤ q.2

section

variable (hbounded : ∀ p, s.Queued p → p.2 + 1 < 2^64)

include hbounded

theorem drain_spec {fuel : ℕ} (h : Pulls s maxTxns seen w) (hroom : w.full = false)
    (hbefore : ∃ n, p.2 = n + 1 ∧ (p.1,n) ∈ w.seen) (hnew : p ∈ w.skipped → p ∉ w.seen)
    (hskips : ∀ q ∈ w.skipped, q ≠ p → s.SkipsAt w q)
    (hnumber : p ∈ w.skipped → s.sequenceNumbers p.1 ≠ some p.2)
    (hfuel : (waiting w p).card ≤ fuel) :
    ∃ w', w.drain maxTxns fuel p = .ok w' ∧ Pulls s maxTxns seen w' ∧ w'.skipped = w.skipped ∧
      w.seen ⊆ w'.seen ∧ (w'.full = false → ∀ q ∈ w'.skipped, s.SkipsAt w' q) := by
  induction fuel generalizing w p with
  | zero =>
    have hp : p ∉ w.skipped := fun hp =>
      absurd hfuel (not_le.mpr (Finset.card_pos.mpr ⟨p,Finset.mem_filter.mpr ⟨hp,rfl,le_rfl⟩⟩))
    exact ⟨w,rfl,h,rfl,subset_rfl,fun _ q hq => hskips q hq (ne_of_mem_of_not_mem hq hp)⟩
  | succ fuel ih =>
    rw [Pulling.drain]
    by_cases hp : p ∈ w.skipped
    · rw [if_pos hp]
      have hpush : Pulls s maxTxns seen (w.push maxTxns p) :=
        h.push hroom (hnew hp) (h.skipped p hp) (.inr hbefore)
      have hself : p ∈ (w.push maxTxns p).seen := Finset.mem_insert_self p w.seen
      have hsub : w.seen ⊆ (w.push maxTxns p).seen := Finset.subset_insert p w.seen
      cases hfull : (w.push maxTxns p).full with
      | true =>
        exact ⟨_,if_pos hfull,hpush,rfl,hsub,fun hf => absurd (hfull.symm.trans hf) nofun⟩
      | false =>
        have hne : ((p.1,p.2 + 1) : TxnPointer A) ≠ p := fun heq =>
          absurd (congrArg Prod.snd heq) (Nat.succ_ne_self _)
        have hskips' : ∀ q ∈ w.skipped, q ≠ (p.1,p.2 + 1) → s.SkipsAt (w.push maxTxns p) q := by
          intro q hq hqne
          by_cases hqp : q = p
          · subst hqp
            obtain ⟨n,hn,hmem⟩ := hbefore
            exact ⟨hnumber hp,iff_of_true hself ⟨n,hn,hsub hmem⟩⟩
          · exact (hskips q hq hqp).push hqp hqne
        -- `p` itself does not wait any more
        have hlt : (waiting (w.push maxTxns p) (p.1,p.2 + 1)).card < (waiting w p).card := by
          refine Finset.card_lt_card (Finset.ssubset_iff_of_subset ?_ |>.mpr ⟨p,?_,?_⟩)
          · intro q hq
            obtain ⟨hmem,haddress,hle⟩ := Finset.mem_filter.mp hq
            exact Finset.mem_filter.mpr ⟨hmem,haddress,(Nat.le_succ _).trans hle⟩
          · exact Finset.mem_filter.mpr ⟨hp,rfl,le_rfl⟩
          · intro hq
            exact absurd (Finset.mem_filter.mp hq).2.2 (Nat.not_succ_le_self _)
        obtain ⟨w',hok,hpulls,hskipped,hsub',hskips''⟩ := ih (p := (p.1,p.2 + 1)) hpush hfull
          ⟨p.2,rfl,hself⟩ (fun hmem => (hskips _ hmem hne).next_notMem (hnew hp)) hskips'
          (fun hmem => (hskips _ hmem hne).1) (by omega)
        refine ⟨w',?_,hpulls,hskipped,hsub.trans hsub',hskips''⟩
        rw [if_neg (by rw [hfull]; exact Bool.false_ne_true),checkedSucc,
          if_pos (hbounded p (h.skipped p hp))]
        exact hok
    · rw [if_neg hp]
      exact ⟨w,rfl,h,rfl,subset_rfl,fun _ q hq => hskips q hq (ne_of_mem_of_not_mem hq hp)⟩

structure Walks (s : TransactionStore A P H) (maxTxns : ℕ) (seen : Finset (TxnPointer A))
    (visited : List (OrderedQueueKey A)) (w : Pulling A) : Prop where
  pulls : Pulls s maxTxns seen w
  skips : w.full = false → ∀ q ∈ w.skipped, s.SkipsAt w q
  met : w.full = false → ∀ k ∈ visited, (k.address,k.sequenceNumber) ∈ w.seen ∨
    (k.address,k.sequenceNumber) ∈ w.skipped
  skipped : ∀ p ∈ w.skipped, ∃ k ∈ visited, (k.address,k.sequenceNumber) = p

theorem visit_spec {key : OrderedQueueKey A} (h : s.Walks maxTxns seen visited w)
    (hkey : key ∈ s.priorityIndex.keys)
    (hfirst : ∀ k ∈ visited, (k.address,k.sequenceNumber) ≠ (key.address,key.sequenceNumber)) :
    ∃ w', s.visit maxTxns w key = .ok w' ∧ s.Walks maxTxns seen (visited ++ [key]) w' := by
  have hqueued : s.Queued (key.address,key.sequenceNumber) := ⟨key,hkey,rfl⟩
  have hnotSkipped : (key.address,key.sequenceNumber) ∉ w.skipped := by
    intro hmem
    obtain ⟨k,hk,heq⟩ := h.skipped _ hmem
    exact hfirst k hk heq
  have hearlier : ∀ p ∈ w.skipped, ∃ k ∈ visited ++ [key], (k.address,k.sequenceNumber) = p := by
    intro p hp
    obtain ⟨k,hk,heq⟩ := h.skipped p hp
    exact ⟨k,mem_append_left _ hk,heq⟩
  have hmet : ∀ {w' : Pulling A}, (key.address,key.sequenceNumber) ∈ w'.seen ∨
      (key.address,key.sequenceNumber) ∈ w'.skipped → w.seen ⊆ w'.seen → w.skipped ⊆ w'.skipped →
      w.full = false → ∀ k ∈ visited ++ [key], (k.address,k.sequenceNumber) ∈ w'.seen ∨
        (k.address,k.sequenceNumber) ∈ w'.skipped := by
    intro w' hself hsub hsub' hfull
    exact forall_mem_append.mpr ⟨fun k hk => (h.met hfull k hk).imp (@hsub _) (@hsub' _),
      forall_mem_singleton.mpr hself⟩
  simp only [visit]
  by_cases hfull : w.full = true
  · rw [if_pos hfull]
    exact ⟨w,rfl,h.pulls,h.skips,fun hf => absurd (hfull.symm.trans hf) nofun,hearlier⟩
  · have hroom := Bool.eq_false_of_not_eq_true hfull
    rw [if_neg hfull]
    by_cases hseen : (key.address,key.sequenceNumber) ∈ w.seen
    · rw [if_pos hseen]
      exact ⟨w,rfl,h.pulls,h.skips,hmet (.inl hseen) subset_rfl subset_rfl,hearlier⟩
    · rw [if_neg hseen]
      have hiff : (0 < key.sequenceNumber ∧ (key.address,key.sequenceNumber - 1) ∈ w.seen) ↔
          ∃ n, key.sequenceNumber = n + 1 ∧ (key.address,n) ∈ w.seen := by
        constructor
        · rintro ⟨hpos,hmem⟩
          exact ⟨key.sequenceNumber - 1,(Nat.succ_pred_eq_of_pos hpos).symm,hmem⟩
        · rintro ⟨n,hn,hmem⟩
          rw [hn]
          exact ⟨Nat.succ_pos n,hmem⟩
      by_cases hnext : (∃ n, key.sequenceNumber = n + 1 ∧ (key.address,n) ∈ w.seen) ∨
          s.getSequenceNumber key.address = some key.sequenceNumber
      · rw [if_pos (hnext.imp_left hiff.mpr)]
        have hpush := h.pulls.push hroom hseen hqueued hnext.symm
        have hself := Finset.mem_insert_self (key.address,key.sequenceNumber) w.seen
        have hsub := Finset.subset_insert (key.address,key.sequenceNumber) w.seen
        by_cases hlast : (w.push maxTxns (key.address,key.sequenceNumber)).full = true
        · rw [if_pos hlast]
          refine ⟨_,rfl,hpush,fun hf => ?_,fun hf => ?_,hearlier⟩
          · exact absurd (hlast.symm.trans hf) nofun
          · exact absurd (hlast.symm.trans hf) nofun
        · rw [if_neg hlast,checkedSucc,if_pos (hbounded _ hqueued)]
          obtain ⟨w',hok,hpulls,hskipped,hsub',hskips⟩ := drain_spec hbounded
            (p := (key.address,key.sequenceNumber + 1)) hpush (Bool.eq_false_of_not_eq_true hlast)
            ⟨_,rfl,hself⟩ (fun hmem => SkipsAt.next_notMem (h.skips hroom _ hmem) hseen)
            (fun q hq hne => (h.skips hroom q hq).push (fun heq => hnotSkipped (heq ▸ hq)) hne)
            (fun hmem => (h.skips hroom _ hmem).1) (Finset.card_filter_le _ _)
          refine ⟨w',hok,hpulls,hskips,fun _ => ?_,fun p hp => hearlier p (hskipped ▸ hp)⟩
          exact hmet (.inl (hsub' hself)) (hsub.trans hsub') (by rw [hskipped]; rfl) hroom
      · rw [if_neg fun hor => hnext (hor.imp_left hiff.mp)]
        obtain ⟨hbefore,hnumber⟩ := not_or.mp hnext
        refine ⟨_,rfl,?_,fun _ q hq => ?_,?_,fun p hp => ?_⟩
        · refine { h.pulls with skipped := fun p hp => ?_ }
          rcases Finset.mem_insert.mp hp with rfl | hp
          · exact hqueued
          · exact h.pulls.skipped p hp
        · rcases Finset.mem_insert.mp hq with rfl | hq
          · exact ⟨hnumber,iff_of_false hseen hbefore⟩
          · exact h.skips hroom q hq
        · exact hmet (.inr (Finset.mem_insert_self _ _)) subset_rfl (Finset.subset_insert _ _)
        · rcases Finset.mem_insert.mp hp with rfl | hp
          · exact ⟨key,mem_append_right _ (mem_singleton_self key),rfl⟩
          · exact hearlier p hp

theorem walk_spec {visited rest : List (OrderedQueueKey A)} (h : s.Walks maxTxns seen visited w)
    (hrest : ∀ k ∈ rest, k ∈ s.priorityIndex.keys)
    (hnodup : ((visited ++ rest).map fun k => (k.address,k.sequenceNumber)).Nodup) :
    ∃ w', rest.foldlM (s.visit maxTxns) w = .ok w' ∧ s.Walks maxTxns seen (visited ++ rest) w' := by
  induction rest generalizing visited w with
  | nil => exact ⟨w,rfl,by rwa [append_nil]⟩
  | cons key rest ih =>
    obtain ⟨hkey,hrest⟩ := forall_mem_cons.mp hrest
    have hfirst : ∀ k ∈ visited, (k.address,k.sequenceNumber) ≠ (key.address,key.sequenceNumber) := by
      rw [map_append,nodup_append] at hnodup
      intro k hk
      exact hnodup.2.2 _ (mem_map_of_mem hk) _ (mem_map_of_mem mem_cons_self)
    obtain ⟨w₁,hok,hwalks⟩ := visit_spec hbounded h hkey hfirst
    rw [append_cons] at hnodup ⊢
    obtain ⟨w',hok',hwalks'⟩ := ih hwalks hrest hnodup
    refine ⟨w',?_,hwalks'⟩
    rw [foldlM_cons,hok]
    exact hok'

end

def pointerOf (txn : SignedTransaction A P H) : TxnPointer A := (txn.sender,txn.sequenceNumber)

theorem fill_spec {maxBytes totalBytes : ℕ} {result : List (TxnPointer A)}
    (hstored : ∀ p ∈ result, ∃ t, s.getMempoolTxn p.1 p.2 = some t ∧ t.pointer = p)
    (hfits : totalBytes ≤ maxBytes) :
    let block := s.fill maxBytes totalBytes result
    ∃ back, result = block.map pointerOf ++ back ∧
      (∀ txn ∈ block, ∃ t, s.getMempoolTxn txn.sender txn.sequenceNumber = some t ∧ t.txn = txn) ∧
      totalBytes + (block.map (·.rawTxnBytesLen)).sum ≤ maxBytes ∧
      ∀ p rest, back = p :: rest → ∃ t, s.getMempoolTxn p.1 p.2 = some t ∧
        maxBytes < totalBytes + (block.map (·.rawTxnBytesLen)).sum + t.txn.rawTxnBytesLen := by
  induction result generalizing totalBytes with
  | nil => exact ⟨[],rfl,nofun,hfits,nofun⟩
  | cons p result ih =>
    obtain ⟨⟨t,ht,hpointer⟩,hstored⟩ := forall_mem_cons.mp hstored
    have htxn : pointerOf t.txn = p := by
      rw [← hpointer,t.pointer_eq]
      rfl
    simp only [fill,ht]
    split_ifs with hlarge
    · refine ⟨p :: result,rfl,nofun,hfits,fun q rest heq => ?_⟩
      obtain ⟨rfl,rfl⟩ := List.cons.inj heq
      exact ⟨t,ht,hlarge⟩
    · obtain ⟨back,hresult,hblock,hsum,hback⟩ := ih hstored (not_lt.mp hlarge)
      refine ⟨back,?_,?_,?_,?_⟩
      · rw [map_cons,cons_append,htxn,← hresult]
      · refine forall_mem_cons.mpr ⟨⟨t,?_,rfl⟩,hblock⟩
        rw [← htxn] at ht
        exact ht
      · rw [map_cons,sum_cons,← add_assoc]
        exact hsum
      · intro q rest heq
        rw [map_cons,sum_cons,← add_assoc]
        exact hback q rest heq

inductive Pullable (s : TransactionStore A P H) (seen : Finset (TxnPointer A)) : TxnPointer A → Prop
  | first {p : TxnPointer A} (hqueued : s.Queued p) (hunseen : p ∉ seen)
      (hnumber : s.sequenceNumbers p.1 = some p.2) : Pullable s seen p
  | afterSeen {a : A} {n : ℕ} (hqueued : s.Queued (a,n + 1)) (hunseen : (a,n + 1) ∉ seen)
      (hseen : (a,n) ∈ seen) : Pullable s seen (a,n + 1)
  | afterPulled {a : A} {n : ℕ} (hqueued : s.Queued (a,n + 1)) (hunseen : (a,n + 1) ∉ seen)
      (hpulled : Pullable s seen (a,n)) : Pullable s seen (a,n + 1)

theorem Pulls.pullable (h : Pulls s maxTxns seen w) (hp : (a,n) ∈ w.result) :
    s.Pullable seen (a,n) := by
  induction n with
  | zero =>
    obtain ⟨front,back,heq⟩ := append_of_mem hp
    rcases h.order front _ back heq with hnumber | ⟨n,hn,-⟩
    · exact .first (h.queued _ hp) (h.unseen _ hp) hnumber
    · cases hn
  | succ n ih =>
    obtain ⟨front,back,heq⟩ := append_of_mem hp
    rcases h.order front _ back heq with hnumber | ⟨m,hm,hbefore⟩
    · exact .first (h.queued _ hp) (h.unseen _ hp) hnumber
    · cases hm
      rcases hbefore with hseen | hfront
      · exact .afterSeen (h.queued _ hp) (h.unseen _ hp) hseen
      · refine .afterPulled (h.queued _ hp) (h.unseen _ hp) (ih ?_)
        rw [heq]
        exact mem_append_left _ hfront

theorem Walks.mem_of_pullable (h : s.Walks maxTxns seen visited w)
    (hall : ∀ k ∈ s.priorityIndex.keys, k ∈ visited) (hroom : w.full = false)
    (hp : s.Pullable seen p) : p ∈ w.result := by
  -- what follows something seen is not skipped for good
  have hmem : ∀ q, s.Queued q → q ∉ seen → s.Follows (· ∈ w.seen) q → q ∈ w.result := by
    rintro q ⟨k,hk,rfl⟩ hunseen hfollows
    have hseen : (k.address,k.sequenceNumber) ∈ w.seen := by
      rcases h.met hroom k (hall k hk) with hseen | hskipped
      · exact hseen
      · obtain ⟨hnumber,hiff⟩ := h.skips hroom _ hskipped
        exact hiff.mpr (hfollows.resolve_left hnumber)
    exact ((h.pulls.mem_seen _).mp hseen).resolve_left hunseen
  induction hp with
  | first hqueued hunseen hnumber => exact hmem _ hqueued hunseen (.inl hnumber)
  | afterSeen hqueued hunseen hseen =>
    exact hmem _ hqueued hunseen (.inr ⟨_,rfl,(h.pulls.mem_seen _).mpr (.inl hseen)⟩)
  | afterPulled hqueued hunseen _ ih =>
    exact hmem _ hqueued hunseen (.inr ⟨_,rfl,(h.pulls.mem_seen _).mpr (.inr ih)⟩)

def InRange (s : TransactionStore A P H) : Prop := ∀ p, s.Queued p → p.2 + 1 < 2^64

section Runs

variable {config : MempoolConfig} {s₁ s' : TransactionStore A P H} {K D : TxnPointer A → Prop} {m e : ℕ}
  {t : MempoolTransaction A P H}

theorem InRange.collected (h : s.InRange) (hcollected : Collected s s' K D) : s'.InRange :=
  fun p hp => h p ((hcollected.queued p).mp hp).1

theorem InRange.removed (h : s.InRange) (hremoved : Removed s s' D) : s'.InRange :=
  h.collected (.of_removed hremoved)

theorem InRange.processed (h : s.InRange) (hprocessed : Processed s s' a m e) : s'.InRange := by
  intro p hp
  rcases (hprocessed.queued p).mp hp with hp | ⟨-,hlow,hhigh⟩
  · exact h p hp
  · exact hprocessed.bounded p.2 hlow hhigh

theorem InRange.inserts {code : MempoolStatusCode} (h : s.InRange)
    {rng : ℕ} (hinserts : Inserts config rng s t code s') : s'.InRange := by
  cases hinserts with
  | full _ hevicted => exact h.removed hevicted
  | tooMany _ hevicted hclean hsame =>
    rw [InRange,hsame.queued]
    exact (h.removed hevicted).removed hclean
  | accepted _ hevicted hclean hentered hprocessed =>
    refine InRange.processed (fun p hp => ?_) hprocessed
    exact ((h.removed hevicted).removed hclean) p ((hentered.queued p).mp hp)

theorem Steps.inRange {action : MempoolAction A P H} (hsteps : Steps config s action s')
    (h : s.InRange) : s'.InRange := by
  cases hsteps with
  | unchanged => exact h
  | added _ _ hremoved hinserts => exact (h.removed hremoved).inserts hinserts
  | @committed sender _ number _ _ _ _ hclean hprocessed =>
    have hset : InRange { s with
        sequenceNumbers := Function.update s.sequenceNumbers sender (some number) } := h
    exact (hset.removed hclean).processed hprocessed
  | rejected _ hremoved => exact h.removed hremoved
  | collected _ _ hcollected => exact h.collected hcollected

/-- A batch has different stored transactions that were not seen, within both limits, each of them at
the number of its account or after one that was seen or is earlier in the batch. It has all that can be
pulled in this way, unless it has as many as asked for or one more does not fit. -/
theorem getBatch_pulls [DecidableEq H] [DecidableEq P] [OrderBot A] (config : MempoolConfig)
    (s : TransactionStore A P H) (h : Reached (step config) (fun _ _ => True) (new config) s)
    (maxTxns maxBytes : ℕ) (hmax : 1 ≤ maxTxns) (seen : Finset (TxnPointer A)) :
    ∃ block, s.getBatch maxTxns maxBytes seen = .ok block ∧ (block.map pointerOf).Nodup ∧
      (∀ txn ∈ block, (∃ t, s.getMempoolTxn txn.sender txn.sequenceNumber = some t ∧ t.txn = txn) ∧
        pointerOf txn ∉ seen) ∧
      block.length ≤ maxTxns ∧ (block.map (·.rawTxnBytesLen)).sum ≤ maxBytes ∧
      (∀ front txn back, block = front ++ txn :: back →
        s.Follows (fun q => q ∈ seen ∨ q ∈ front.map pointerOf) (pointerOf txn)) ∧
      (block.length = maxTxns ∨
        (∃ p t, s.Pullable seen p ∧ p ∉ block.map pointerOf ∧ s.getMempoolTxn p.1 p.2 = some t ∧
          maxBytes < (block.map (·.rawTxnBytesLen)).sum + t.txn.rawTxnBytesLen) ∨
        ∀ p, s.Pullable seen p → p ∈ block.map pointerOf) := by
  obtain ⟨⟨l,hs⟩,hrange⟩ : _ ∧ s.InRange := by
    refine reached_holds h ?_ fun _ _ _ _ _ hrange _ _ hsteps => hsteps.inRange hrange
    rintro p ⟨k,hk,-⟩
    cases hk
  have hnodup : (s.priorityIndex.keys.reverse.map fun k => (k.address,k.sequenceNumber)).Nodup := by
    refine List.Nodup.map_on (fun k hk k' hk' heq => ?_) (nodup_reverse.mpr Column.keys_nodup)
    obtain ⟨t,ht,rfl⟩ := hs.priority k (mem_reverse.mp hk)
    obtain ⟨t',ht',rfl⟩ := hs.priority k' (mem_reverse.mp hk')
    rw [eq_of_pointer hs.unique ht ht' heq]
  have hstart : s.Walks maxTxns seen [] ⟨seen,∅,[],false⟩ :=
    ⟨.start hmax,fun _ q hq => absurd hq (Finset.notMem_empty q),nofun,
      fun q hq => absurd hq (Finset.notMem_empty q)⟩
  obtain ⟨w,hok,hwalks⟩ := walk_spec hrange hstart (fun k => mem_reverse.mp) hnodup
  have hpulls := hwalks.pulls
  have hstored : ∀ p ∈ w.result, ∃ t, s.getMempoolTxn p.1 p.2 = some t ∧ t.pointer = p := by
    intro p hp
    obtain ⟨t,ht⟩ := hs.stored_of_queued (hpulls.queued p hp)
    exact ⟨t,ht,((hs.main _ _ t).mp ht).2.1⟩
  obtain ⟨back,hresult,hblock,hsum,hback⟩ := fill_spec hstored (Nat.zero_le maxBytes)
  rw [Nat.zero_add] at hsum
  have hdistinct := hpulls.nodup
  rw [hresult,nodup_append] at hdistinct
  have hlength : w.result.length ≤ maxTxns := by
    cases hfull : w.full with
    | true => exact (hpulls.full hfull).le
    | false => exact (hpulls.room hfull).le
  refine ⟨s.fill maxBytes 0 w.result,?_,hdistinct.1,?_,?_,hsum,?_,?_⟩
  · rw [getBatch,hok]
    rfl
  · refine fun txn htxn => ⟨hblock txn htxn,hpulls.unseen _ ?_⟩
    rw [hresult]
    exact mem_append_left _ (mem_map_of_mem htxn)
  · rw [hresult,length_append,length_map] at hlength
    omega
  · intro front txn rest heq
    refine hpulls.order (front.map pointerOf) (pointerOf txn) (rest.map pointerOf ++ back) ?_
    rw [hresult,heq,map_append,map_cons,append_assoc,cons_append]
  · cases back with
    | cons p rest =>
      obtain ⟨t,ht,hlarge⟩ := hback p rest rfl
      rw [Nat.zero_add] at hlarge
      refine .inr (.inl ⟨p,t,hpulls.pullable ?_,?_,ht,hlarge⟩)
      · rw [hresult]
        exact mem_append_right _ mem_cons_self
      · exact fun hp => hdistinct.2.2 p hp p mem_cons_self rfl
    | nil =>
      rw [append_nil] at hresult
      cases hfull : w.full with
      | true =>
        left
        rw [← hpulls.full hfull,← length_map pointerOf,← hresult]
      | false =>
        refine .inr (.inr fun p hp => ?_)
        rw [← hresult]
        exact hwalks.mem_of_pullable (fun k => mem_reverse.mpr) hfull hp

end Runs

/-- The transaction with the higher price is met first, and comes second. -/
theorem getBatch_pulls_sample : ∃ s : TransactionStore ℕ Unit (ℕ × ℕ × ℕ),
    Reached (step sampleConfig) (fun _ _ => True) (new sampleConfig) s ∧
    (∃ block, s.getBatch 2 100 ∅ = .ok block ∧ (block.map pointerOf).Nodup ∧ block.length ≤ 2) ∧
    s.getBatch 2 100 ∅ = .ok [sampleTxn 0 0 1,sampleTxn 0 1 10] := by
  let s₁ := after (new sampleConfig) (.addTxn (sampleTxn 0 1 10) 10 (.sequential 0) .notReady 0 0)
  let s₂ := s₁.after (.addTxn (sampleTxn 0 0 1) 1 (.sequential 0) .notReady 0 0)
  have hreached : Reached (step sampleConfig) (fun _ _ => True) (new sampleConfig) s₂ :=
    reached_after (reached_after .refl trivial (by decide +kernel)) trivial (by decide +kernel)
  obtain ⟨block,hok,hnodup,-,hlength,-⟩ :=
    getBatch_pulls sampleConfig s₂ hreached 2 100 (by decide) ∅
  exact ⟨s₂,hreached,⟨block,hok,hnodup,hlength⟩,by decide +kernel⟩

end TransactionStore

end Arx.Mempool
