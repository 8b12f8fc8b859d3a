import Arx.Mempool.StoreRuns

/-!
# Ready transactions and recorded sequence numbers over runs

A stored transaction should be queued exactly when its account has no gap from the recorded
sequence number up to it. A commit to an account without transactions leaves a number behind, and an
insertion with an old number lowers it.
-/

namespace Arx.Mempool.TransactionStore
open Movelib Function Option

variable {A P H : Type} [LinearOrder A]

variable {config : MempoolConfig} {U : Set (SignedTransaction A P H)} {fresh : Prop}
  {s s₁ s₂ s' : TransactionStore A P H} {t : MempoolTransaction A P H}
  {l : List (MempoolTransaction A P H)} {a b : A} {n m r e : ℕ}
  {D D₁ D₂ : TxnPointer A → Prop}

def RunsTo (s : TransactionStore A P H) (a : A) (r n : ℕ) : Prop :=
  ∀ j, r ≤ j → j ≤ n → s.Stored (a,j)

structure ReadyAt (s : TransactionStore A P H) (a : A) : Prop where
  queued : ∀ n, s.Stored (a,n) →
    ∃ r, s.sequenceNumbers a = some r ∧ r ≤ n ∧ (s.Queued (a,n) ↔ s.RunsTo a r n)
  parked : ∀ n, s.Stored (a,n) → (s.Parked (a,n) ↔ ¬ s.Queued (a,n))

/-- The number of an account stays as long as some of its transactions do. -/
theorem Collected.recorded_of_stored (h : Collected s s' D₁ D₂) (hstored : s'.Stored (a,n)) :
    s'.sequenceNumbers a = s.sequenceNumbers a := by
  rcases h.recorded a with heq | ⟨hnone,-⟩
  · exact heq
  · obtain ⟨t,ht⟩ := hstored
    exact absurd ((hnone n).symm.trans ht) nofun

theorem Removed.recorded_of_stored (h : Removed s s' D) (hstored : s'.Stored (a,n)) :
    s'.sequenceNumbers a = s.sequenceNumbers a := (Collected.of_removed h).recorded_of_stored hstored

namespace ReadyAt

theorem congr (h : s.ReadyAt a) (hstored : ∀ n, s'.Stored (a,n) ↔ s.Stored (a,n))
    (hqueued : ∀ n, s'.Queued (a,n) ↔ s.Queued (a,n))
    (hparked : ∀ n, s'.Parked (a,n) ↔ s.Parked (a,n))
    (hrecorded : ∀ n, s'.Stored (a,n) → s'.sequenceNumbers a = s.sequenceNumbers a) : s'.ReadyAt a where
  queued := by
    intro n hn
    obtain ⟨r,hr,hle,hiff⟩ := h.queued n ((hstored n).mp hn)
    refine ⟨r,(hrecorded n hn).trans hr,hle,(hqueued n).trans (hiff.trans ?_)⟩
    exact forall_congr' fun j => imp_congr_right fun _ => imp_congr_right fun _ => (hstored j).symm
  parked := by
    intro n hn
    rw [hparked,hqueued]
    exact h.parked n ((hstored n).mp hn)

theorem not_runsTo (h : s.ReadyAt a) {j : ℕ} (hr : s.sequenceNumbers a = some r) (hj : j ≤ n)
    (hparked : s.Parked (a,j)) (hstored : s.Stored (a,j)) : ¬ s.RunsTo a r n := by
  intro hrun
  obtain ⟨r',hr',-,hiff⟩ := h.queued j hstored
  rw [hr,some_inj] at hr'
  subst hr'
  refine (h.parked j hstored).mp hparked (hiff.mpr fun i hi hij => hrun i hi (hij.trans hj))

/-- A removal keeps an account as it is if what it removes was parked, or was the last before a gap. -/
theorem removed (h : s.ReadyAt a) (hremoved : Removed s s' D)
    (hD : ∀ n, D (a,n) → s.Stored (a,n) → s.Parked (a,n) ∨ ¬ s'.Stored (a,n + 1)) : s'.ReadyAt a where
  queued := by
    intro n hn
    obtain ⟨hstored,hnot⟩ := (hremoved.stored (a,n)).mp hn
    obtain ⟨r,hr,hle,hiff⟩ := h.queued n hstored
    refine ⟨r,(hremoved.recorded_of_stored hn).trans hr,hle,?_⟩
    rw [hremoved.queued,and_iff_left hnot,hiff]
    refine ⟨fun hrun => ?_,fun hrun j hj hjn => ((hremoved.stored (a,j)).mp (hrun j hj hjn)).1⟩
    -- a gap in the run would reach up to the transaction itself
    intro j hj hjn
    by_contra hgap
    have hall : ∀ k, j + k ≤ n → ¬ s'.Stored (a,j + k) := by
      intro k
      induction k with
      | zero => exact fun _ => hgap
      | succ k ih =>
        intro hk
        have hmissing := ih (by omega)
        have hold := hrun (j + k) (by omega) (by omega)
        have hDk : D (a,j + k) := by
          by_contra hDk
          exact hmissing ((hremoved.stored _).mpr ⟨hold,hDk⟩)
        rcases hD _ hDk hold with hparked | hnext
        · exact absurd hrun (h.not_runsTo hr (by omega) hparked hold)
        · exact hnext
    have hlast := hall (n - j) (by omega)
    rw [Nat.add_sub_cancel' hjn] at hlast
    exact hlast hn
  parked := by
    intro n hn
    obtain ⟨hstored,hnot⟩ := (hremoved.stored (a,n)).mp hn
    rw [hremoved.parked,hremoved.queued,and_iff_left hnot,and_iff_left hnot]
    exact h.parked n hstored

theorem collected {keys : List (TTLOrderingKey A)} (h : s.ReadyAt a)
    (hcollected : Collected s s' (Expired keys) (AfterExpired keys))
    (hkeys : ∀ k ∈ keys, s.Stored (k.address,k.sequenceNumber)) : s'.ReadyAt a where
  queued := by
    intro n hn
    obtain ⟨hstored,hlive⟩ := (hcollected.stored (a,n)).mp hn
    obtain ⟨r,hr,hle,hiff⟩ := h.queued n hstored
    refine ⟨r,(hcollected.recorded_of_stored hn).trans hr,hle,?_⟩
    rw [hcollected.queued,and_iff_right hlive,hiff]
    constructor
    · rintro ⟨hrun,hafter⟩ j hj hjn
      refine (hcollected.stored (a,j)).mpr ⟨hrun j hj hjn,?_⟩
      rintro ⟨k,hk,heq⟩
      obtain ⟨haddress,hnumber⟩ := Prod.mk.inj heq
      rcases hjn.lt_or_eq with hlt | rfl
      · exact hafter ⟨k,hk,haddress,hnumber ▸ hlt⟩
      · exact hlive ⟨k,hk,heq⟩
    · refine fun hrun => ⟨fun j hj hjn => ((hcollected.stored (a,j)).mp (hrun j hj hjn)).1,?_⟩
      -- an expired transaction before it is not below the recorded number
      rintro ⟨k,hk,haddress,hlt⟩
      have hkey := hkeys k hk
      rw [haddress] at hkey
      obtain ⟨r',hr',hle',-⟩ := h.queued k.sequenceNumber hkey
      rw [hr,some_inj] at hr'
      subst hr'
      exact ((hcollected.stored _).mp (hrun k.sequenceNumber hle' hlt.le)).2
        ⟨k,hk,Prod.ext haddress rfl⟩
  parked := by
    intro n hn
    obtain ⟨hstored,hlive⟩ := (hcollected.stored (a,n)).mp hn
    rw [hcollected.parked,hcollected.queued,and_iff_left hlive,and_iff_right hlive,
      and_iff_left hstored,h.parked n hstored]
    tauto

end ReadyAt

/-- An account before its ready transactions are processed: from its number on, what is after a gap is
not queued, and is parked or not ready. -/
structure Prepared (s : TransactionStore A P H) (a : A) (m : ℕ) : Prop where
  recorded : ∀ n, s.Stored (a,n) → s.sequenceNumbers a = some m ∧ m ≤ n
  late : ∀ n, s.Stored (a,n) → ¬ s.RunsTo a m n → ¬ s.Queued (a,n) ∧ (s.Parked (a,n) ∨
    ∃ t, s.getMempoolTxn a n = some t ∧ ∀ timelineId, t.timelineState ≠ .ready timelineId)

theorem Processed.stored (h : Processed s s' a m e) (p : TxnPointer A) :
    s'.Stored p ↔ s.Stored p := by
  by_cases hp : p.1 = a ∧ m ≤ p.2 ∧ p.2 < e
  · obtain ⟨t,state,ht,ht',-⟩ := h.run p.2 hp.2.1 hp.2.2
    rw [← hp.1] at ht ht'
    exact iff_of_true ⟨_,ht'⟩ ⟨_,ht⟩
  · rw [Stored,h.get p.1 p.2 hp]
    exact Iff.rfl

theorem Prepared.processed (h : s.Prepared a m) (hprocessed : Processed s s' a m e) :
    s'.ReadyAt a := by
  have hgap : ¬ s.Stored (a,e) := by
    rintro ⟨t,ht⟩
    exact absurd (hprocessed.stop.symm.trans ht) nofun
  have hrun : ∀ j, m ≤ j → j < e → s.Stored (a,j) := by
    intro j hj hlt
    obtain ⟨t,-,ht,-⟩ := hprocessed.run j hj hlt
    exact ⟨t,ht⟩
  have hle := hprocessed.le
  have hcases : ∀ n, s.Stored (a,n) → (n < e ∧ s.RunsTo a m n) ∨ (e < n ∧ ¬ s.RunsTo a m n) := by
    intro n hn
    rcases lt_trichotomy n e with hlt | rfl | hlt
    · exact .inl ⟨hlt,fun j hj hjn => hrun j hj (hjn.trans_lt hlt)⟩
    · exact absurd hn hgap
    · exact .inr ⟨hlt,fun hall => hgap (hall e hle hlt.le)⟩
  constructor
  case queued =>
    intro n hn
    rw [hprocessed.stored] at hn
    obtain ⟨hr,hmn⟩ := h.recorded n hn
    refine ⟨m,hprocessed.recorded ▸ hr,hmn,?_⟩
    have hruns : s'.RunsTo a m n ↔ s.RunsTo a m n := forall_congr' fun j => imp_congr_right fun _ =>
      imp_congr_right fun _ => hprocessed.stored (a,j)
    rw [hprocessed.queued,hruns]
    rcases hcases n hn with ⟨hlt,hall⟩ | ⟨hlt,hnot⟩
    · exact iff_of_true (.inr ⟨rfl,hmn,hlt⟩) hall
    · refine iff_of_false ?_ hnot
      rintro (hqueued | ⟨-,-,hlt'⟩)
      · exact (h.late n hn hnot).1 hqueued
      · exact absurd hlt' (by omega)
  case parked =>
    intro n hn
    rw [hprocessed.stored] at hn
    obtain ⟨-,hmn⟩ := h.recorded n hn
    rw [hprocessed.queued,hprocessed.parked]
    rcases hcases n hn with ⟨hlt,hall⟩ | ⟨hlt,hnot⟩
    · refine iff_of_false ?_ (not_not.mpr (.inr ⟨rfl,hmn,hlt⟩))
      rintro (⟨-,hout⟩ | ⟨-,hlt',-⟩)
      · exact hout ⟨rfl,hmn,hlt⟩
      · exact absurd hlt' (by omega)
    · obtain ⟨hqueued,hwaits⟩ := h.late n hn hnot
      refine iff_of_true ?_ ?_
      · rcases hwaits with hparked | ⟨t,ht,hstate⟩
        · exact .inl ⟨hparked,fun hin => absurd hin.2.2 (by omega)⟩
        · exact .inr ⟨rfl,hlt,t,ht,hstate⟩
      · rintro (hq | ⟨-,-,hlt'⟩)
        · exact hqueued hq
        · exact absurd hlt' (by omega)

theorem Processed.readyAt (h : Processed s s' a m e) (hb : b ≠ a) (hready : s.ReadyAt b) :
    s'.ReadyAt b := by
  refine hready.congr (fun n => h.stored (b,n)) (fun n => ?_) (fun n => ?_) fun _ _ => by rw [h.recorded]
  · rw [h.queued]
    exact or_iff_left fun hin => hb hin.1
  · rw [h.parked,and_iff_left fun hin => hb hin.1]
    exact or_iff_left fun hwaits => hb hwaits.1

theorem Entered.stored {s₃ : TransactionStore A P H} (h : Entered s s₃ t) (p : TxnPointer A) :
    s₃.Stored p ↔ p = t.pointer ∨ s.Stored p := by
  rw [Stored,h.get]
  split_ifs with hp
  · exact iff_of_true ⟨t,rfl⟩ (.inl hp)
  · exact (or_iff_right hp).symm

section Insertion

variable {s₀ s₃ : TransactionStore A P H} {code : MempoolStatusCode} {rng : ℕ}

/-- A transaction that enters an account makes it one whose ready transactions can be processed. -/
theorem Entered.prepared (hready : s.ReadyAt t.getSender)
    (hremoved : Removed s s₀ (· = t.pointer)) (hD : ∀ p, D p → s₀.Parked p)
    (hevicted : Removed s₀ s₁ D) (hclean : Removed s₁ s₂ fun p => p.1 = t.getSender ∧ p.2 < m)
    (hentered : Entered s₂ s₃ t) (hm : t.minSeq = m) (hle : m ≤ t.number)
    (hrecorded : ∀ r, s.sequenceNumbers t.getSender = some r → r ≤ m)
    (hstored : ∀ p, s.Parked p → s.Stored p)
    (hstate : ∀ timelineId, t.timelineState ≠ .ready timelineId) : s₃.Prepared t.getSender m := by
  have hremains : ∀ p, s₂.Stored p ↔ (((s.Stored p ∧ p ≠ t.pointer) ∧ ¬ D p) ∧
      ¬ (p.1 = t.getSender ∧ p.2 < m)) := by
    intro p
    rw [hclean.stored,hevicted.stored,hremoved.stored]
  constructor
  case recorded =>
    intro n hn
    rw [hentered.recorded,hm]
    refine ⟨update_self _ _ _,?_⟩
    rcases (hentered.stored _).mp hn with heq | hn
    · rw [(Prod.mk.inj heq).2]
      exact hle
    · exact not_lt.mp fun hlt => ((hremains _).mp hn).2 ⟨rfl,hlt⟩
  case late =>
    intro n hn hgap
    rw [hentered.queued,hentered.parked,hclean.queued,hclean.parked,hevicted.queued,hevicted.parked,
      hremoved.queued,hremoved.parked]
    rcases (hentered.stored _).mp hn with heq | hn
    · refine ⟨fun hq => hq.1.1.2 heq,.inr ⟨t,?_,hstate⟩⟩
      rw [hentered.get,if_pos heq]
    · obtain ⟨⟨⟨hold,hne⟩,hkept⟩,habove⟩ := (hremains _).mp hn
      obtain ⟨r,hr,hrn,hiff⟩ := hready.queued n hold
      have hrm := hrecorded r hr
      -- a gap after the new number is one after the old number
      have hruns : ¬ s.RunsTo t.getSender r n := by
        intro hall
        refine hgap fun j hj hjn => (hentered.stored _).mpr ?_
        by_cases hjt : (t.getSender,j) = t.pointer
        · exact .inl hjt
        · refine .inr ((hremains _).mpr ⟨⟨⟨hall j (hrm.trans hj) hjn,hjt⟩,fun hDj => ?_⟩,
            fun hlow => absurd hlow.2 (not_lt.mpr hj)⟩)
          have hparked := ((hremoved.parked _).mp (hD _ hDj)).1
          exact hready.not_runsTo hr hjn hparked (hstored _ hparked) hall
      have hqueued : ¬ s.Queued (t.getSender,n) := fun hq => hruns (hiff.mp hq)
      exact ⟨fun hq => hqueued hq.1.1.1,
        .inl ⟨⟨⟨(hready.parked n hold).mpr hqueued,hne⟩,hkept⟩,habove⟩⟩

/-- A transaction that can go: it is not queued, or no other one of its account comes right after it. -/
def Spare (s : TransactionStore A P H) (p : TxnPointer A) : Prop :=
  s.Parked p ∨ ¬ s.Stored (p.1,p.2 + 1)

/-- An insertion keeps all accounts as they should be, if the version that is thrown out of a store
that stays full can be spared. -/
theorem Inserts.readyAt (h : Holds config U fresh s l [] [] []) (hready : ∀ a, s.ReadyAt a)
    (hremoved : Removed s s₀ (· = t.pointer)) (hinserts : Inserts config rng s₀ t code s')
    (hle : t.minSeq ≤ t.number)
    (hrecorded : ∀ r, s.sequenceNumbers t.getSender = some r → r ≤ t.minSeq)
    (hstate : ∀ timelineId, t.timelineState ≠ .ready timelineId)
    (hspare : s₀.StaysFull config rng t → s.Stored t.pointer → s.Spare t.pointer) (a : A) :
    s'.ReadyAt a := by
  have hparked : ∀ {p}, s₀.Parked p → s.Parked p := fun hp => ((hremoved.parked _).mp hp).1
  cases hinserts with
  | full hD hevicted hfull =>
    have htotal := hremoved.trans hevicted
    refine (hready a).removed htotal ?_
    rintro n (heq | hDn) hstored
    · cases heq
      exact (hspare hfull hstored).imp_right fun hnext hs' => hnext ((htotal.stored _).mp hs').1
    · exact .inl (hparked (hD _ hDn))
  | @tooMany _ _ s₂ _ hD hevicted hclean hsame txns htxns hmany =>
    have htotal := (hremoved.trans hevicted).trans hclean
    have hready₂ : s₂.ReadyAt a := by
      refine (hready a).removed htotal ?_
      rintro n hDn hstored
      rcases hDn with (heq | hDn) | hlow
      · cases heq
        exact absurd (.inl (.inl rfl)) (not_removed_of_many h htotal hsame htxns hmany hstored)
      · exact .inl (hparked (hD _ hDn))
      · obtain ⟨rfl,-⟩ := id hlow
        exact absurd (.inr hlow) (not_removed_of_many h htotal hsame htxns hmany hstored)
    refine hready₂.congr (fun n => hsame.stored _) (fun n => ?_) (fun n => ?_)
      fun _ _ => congrFun hsame.recorded a
    · rw [hsame.queued]
    · rw [hsame.parked]
  | @accepted D s₁ s₂ s₃ _ e hD hevicted hclean hentered hprocessed =>
    by_cases ha : a = t.getSender
    · subst ha
      exact (hentered.prepared (hready _) hremoved hD hevicted hclean rfl hle hrecorded
        (fun p => h.stored_of_parked) hstate).processed hprocessed
    · have hready₂ : s₂.ReadyAt a := by
        refine (hready a).removed ((hremoved.trans hevicted).trans hclean) ?_
        rintro n ((heq | hDn) | hlow) hstored
        · exact absurd (Prod.mk.inj heq).1 ha
        · exact .inl (hparked (hD _ hDn))
        · exact absurd hlow.1 ha
      refine hprocessed.readyAt ha (hready₂.congr (fun n => ?_) (fun n => hentered.queued _)
        (fun n => hentered.parked _) fun _ _ => ?_)
      · exact (hentered.stored _).trans (or_iff_right fun heq => ha (Prod.mk.inj heq).1)
      · rw [hentered.recorded,update_of_ne ha]

end Insertion

theorem readyAt_commit {number : ℕ} {sender : A} (hready : ∀ a, s.ReadyAt a)
    (hrecorded : ∀ r, s.sequenceNumbers sender = some r → r ≤ number)
    (hclean : Removed { s with
      sequenceNumbers := update s.sequenceNumbers sender (some number) } s₂
      fun p => p.1 = sender ∧ p.2 < number)
    (hprocessed : Processed s₂ s' sender number e) (a : A) : s'.ReadyAt a := by
  have hstored := hclean.stored
  by_cases ha : a = sender
  · subst ha
    refine Prepared.processed ⟨fun n hn => ?_,fun n hn hgap => ?_⟩ hprocessed
    · refine ⟨(hclean.recorded_of_stored hn).trans (update_self _ _ _),?_⟩
      exact not_lt.mp fun hlt => ((hstored _).mp hn).2 ⟨rfl,hlt⟩
    · obtain ⟨hold,habove⟩ := (hstored _).mp hn
      obtain ⟨r,hr,hrn,hiff⟩ := (hready a).queued n hold
      have hruns : ¬ s.RunsTo a r n := fun hall => hgap fun j hj hjn => (hstored _).mpr
        ⟨hall j ((hrecorded r hr).trans hj) hjn,fun hlow => absurd hlow.2 (not_lt.mpr hj)⟩
      have hqueued : ¬ s.Queued (a,n) := fun hq => hruns (hiff.mp hq)
      rw [hclean.queued,hclean.parked]
      exact ⟨fun hq => hqueued hq.1,.inl ⟨((hready a).parked n hold).mpr hqueued,habove⟩⟩
  · refine hprocessed.readyAt ha ((hready a).congr (fun n => ?_) (fun n => ?_) (fun n => ?_)
      fun n hn => ?_)
    · exact (hstored _).trans (and_iff_left fun hlow => ha hlow.1)
    · exact (hclean.queued _).trans (and_iff_left fun hlow => ha hlow.1)
    · exact (hclean.parked _).trans (and_iff_left fun hlow => ha hlow.1)
    · exact (hclean.recorded_of_stored hn).trans (update_of_ne ha _ _)

/-- What keeps the queue in order: transactions come in without an id of the timeline and with a number
of their account that is not below the recorded one, and the versions thrown out by a refused
replacement and the rejected transactions can be spared. -/
def KeepsQueue (config : MempoolConfig) (s : TransactionStore A P H) :
    MempoolAction A P H → Prop
  | .addTxn txn rankingScore sequenceInfo timelineState now rng =>
    (∀ timelineId, timelineState ≠ .ready timelineId) ∧
    (∀ r, s.sequenceNumbers txn.sender = some r → r ≤ sequenceInfo.minSeq) ∧
    (s.LosesVersion config rng (.new txn (now + config.systemTransactionTimeout) rankingScore
      timelineState (.sequential sequenceInfo.minSeq)) → s.Spare (txn.sender,txn.sequenceNumber))
  | .rejectTransaction sender sequenceNumber hash =>
    s.hashIndex hash = some (sender,sequenceNumber) → s.Spare (sender,sequenceNumber)
  | _ => True

theorem Steps.readyAt {action : MempoolAction A P H} (h : Holds config U fresh s l [] [] [])
    (hready : ∀ a, s.ReadyAt a)
    (hsteps : Steps config s action s') (hkeeps : s.KeepsQueue config action) (a : A) :
    s'.ReadyAt a := by
  cases hsteps with
  | unchanged => exact hready a
  | added hle hloses hremoved hinserts =>
    obtain ⟨hstate,hrecorded,hspare⟩ := hkeeps
    exact hinserts.readyAt h hready hremoved hle hrecorded hstate
      (fun hfull hstored => hspare (hloses hfull hstored)) a
  | committed hnumber hclean hprocessed =>
    refine readyAt_commit hready (fun r hr => ?_) hclean hprocessed a
    rw [hnumber,hr]
    exact le_max_left _ _
  | rejected hhash hremoved =>
    refine (hready a).removed hremoved fun n heq hn => ?_
    cases heq
    exact (hkeeps hhash).imp_right fun hnext hs' => hnext ((hremoved.stored _).mp hs').1
  | collected hgc hkeys hcollected => exact (hready a).collected hcollected hkeys

/-- Every stored transaction is either queued or parked, and it is queued exactly when its account has
no gap from the recorded number up to it. -/
theorem queued_iff_runsTo [DecidableEq H] [DecidableEq P] [OrderBot A]
    (config : MempoolConfig) (s : TransactionStore A P H)
    (h : Reached (step config) (KeepsQueue config) (new config) s) (a : A) (n : ℕ)
    (t : MempoolTransaction A P H) (ht : s.getMempoolTxn a n = some t) :
    (PriorityIndex.makeKey t ∈ s.priorityIndex.keys ↔ s.parkingLotIndex.contains a n = false) ∧
    (PriorityIndex.makeKey t ∈ s.priorityIndex.keys ↔ ∃ r, s.sequenceNumbers a = some r ∧ r ≤ n ∧
      ∀ j, r ≤ j → j ≤ n → ∃ u, s.getMempoolTxn a j = some u) := by
  obtain ⟨⟨l,hs⟩,hready⟩ : (∃ l, Holds config Set.univ False s l [] [] []) ∧ ∀ a, s.ReadyAt a := by
    refine reached_holds h (fun a => ⟨?_,?_⟩) fun s l action s' hs hready hkeeps hok hsteps =>
      hsteps.readyAt hs hready hkeeps
    · rintro n ⟨t,ht⟩
      cases ht
    · rintro n ⟨t,ht⟩
      cases ht
  obtain ⟨hmem,hpointer,-⟩ := (hs.main a n t).mp ht
  have hqueued := hs.queued_iff hmem
  rw [hpointer] at hqueued
  obtain ⟨r,hr,hle,hiff⟩ := (hready a).queued n ⟨t,ht⟩
  rw [← hqueued]
  constructor
  · rw [← Bool.not_eq_true]
    exact iff_not_comm.mp ((hready a).parked n ⟨t,ht⟩)
  · rw [hiff]
    refine ⟨fun hrun => ⟨r,hr,hle,hrun⟩,?_⟩
    rintro ⟨r',hr',-,hrun⟩
    rw [hr,some_inj] at hr'
    subst hr'
    exact hrun

/-- The transaction that waited is queued when the one before it is there. -/
theorem queued_iff_runsTo_sample : ∃ (s : TransactionStore ℕ Unit (ℕ × ℕ × ℕ)) (t : _),
    Reached (step sampleConfig) (KeepsQueue sampleConfig) (new sampleConfig) s ∧
    s.getMempoolTxn 0 1 = some t ∧ PriorityIndex.makeKey t ∈ s.priorityIndex.keys ∧
    s.parkingLotIndex.contains 0 1 = false := by
  let a₁ : MempoolAction ℕ Unit (ℕ × ℕ × ℕ) :=
    .addTxn (sampleTxn 0 1 1) 1 (.sequential 0) .notReady 0 0
  let a₂ : MempoolAction ℕ Unit (ℕ × ℕ × ℕ) :=
    .addTxn (sampleTxn 0 0 1) 1 (.sequential 0) .notReady 0 0
  let s₁ := (new sampleConfig).after a₁
  let s₂ := s₁.after a₂
  have hfirst : KeepsQueue sampleConfig (new sampleConfig) a₁ := by
    refine ⟨nofun,nofun,fun hloses => ?_⟩
    obtain ⟨t,-,ht,-⟩ := hloses
    cases ht
  have hsecond : s₁.KeepsQueue sampleConfig a₂ := by
    refine ⟨nofun,fun r hr => ?_,fun hloses => ?_⟩
    · have hzero : s₁.sequenceNumbers 0 = some 0 := by decide +kernel
      exact (some.inj (hr.symm.trans hzero)).le
    · obtain ⟨t,-,ht,-⟩ := hloses
      have hnone : s₁.getMempoolTxn 0 0 = none := by decide +kernel
      exact absurd (hnone.symm.trans ht) nofun
  have hreached := reached_after (reached_after .refl hfirst (by decide +kernel)) hsecond
    (by decide +kernel)
  obtain ⟨t,ht⟩ := isSome_iff_exists.mp
    (by decide +kernel : (s₂.getMempoolTxn 0 1).isSome = true)
  have hqueued : s₂.parkingLotIndex.contains 0 1 = false := by decide +kernel
  exact ⟨s₂,t,hreached,ht,(queued_iff_runsTo sampleConfig s₂ hreached 0 1 t ht).1.mpr hqueued,hqueued⟩

/-- A rejected transaction leaves the next one of its account in the queue. -/
theorem queued_after_gap :
    ((run sampleConfig [.addTxn (sampleTxn 0 0 1) 1 (.sequential 0) .notReady 0 0,
        .addTxn (sampleTxn 0 1 1) 1 (.sequential 0) .notReady 0 0,
        .rejectTransaction 0 0 (0,0,1)]).map fun s =>
      (s.priorityIndex.keys.map fun k => (k.address,k.sequenceNumber),
        (s.getMempoolTxn 0 0).isSome,(s.getMempoolTxn 0 1).isSome,s.sequenceNumbers 0)) =
      .ok ([(0,1)],false,true,some 0) := by
  decide +kernel

section

variable {A P H : Type} [LinearOrder A] {code : MempoolStatusCode} {rng : ℕ}

variable {config : MempoolConfig} {s s₀ s₁ s₂ s' : TransactionStore A P H}
  {t : MempoolTransaction A P H} {a : A} {n m r r' e : ℕ} {K D : TxnPointer A → Prop}

def NumbersExact (s : TransactionStore A P H) : Prop :=
  ∀ a, (∃ r, s.sequenceNumbers a = some r) ↔ ∃ n, s.Stored (a,n)

section

variable (h : s.NumbersExact)

include h

theorem NumbersExact.collected (hcollected : Collected s s' K D) : s'.NumbersExact := by
  intro a
  constructor
  · rintro ⟨r,hr⟩
    by_contra hnone
    push Not at hnone
    have hgone : ∀ m, s'.getMempoolTxn a m = none := fun m =>
      eq_none_iff_forall_ne_some.mpr fun t ht => hnone m ⟨t,ht⟩
    have hold : ∃ m u, s.getMempoolTxn a m = some u := by
      rcases hcollected.recorded a with heq | ⟨-,hseq⟩
      · obtain ⟨m,u,hu⟩ := (h a).mp ⟨r,heq ▸ hr⟩
        exact ⟨m,u,hu⟩
      · exact absurd (hseq.symm.trans hr) nofun
    exact absurd ((hcollected.dropped a hold hgone).symm.trans hr) nofun
  · rintro ⟨n,hn⟩
    rcases hcollected.recorded a with heq | ⟨hnone,-⟩
    · rw [heq]
      exact (h a).mpr ⟨n,((hcollected.stored _).mp hn).1⟩
    · obtain ⟨t,ht⟩ := hn
      exact absurd ((hnone n).symm.trans ht) nofun

theorem NumbersExact.removed (hremoved : Removed s s' D) : s'.NumbersExact :=
  h.collected (.of_removed hremoved)

theorem NumbersExact.entered (hentered : Entered s s' t) : s'.NumbersExact := by
  intro a
  simp only [hentered.recorded,hentered.stored]
  by_cases ha : a = t.getSender
  · subst ha
    rw [update_self]
    exact iff_of_true ⟨_,rfl⟩ ⟨_,.inl rfl⟩
  · rw [update_of_ne ha,h a]
    exact exists_congr fun n => (or_iff_right fun heq => ha (Prod.mk.inj heq).1).symm

theorem NumbersExact.processed (hprocessed : Processed s s' a m e) : s'.NumbersExact := by
  intro b
  simp only [hprocessed.recorded,hprocessed.stored]
  exact h b

theorem NumbersExact.inserts (hinserts : Inserts config rng s t code s') : s'.NumbersExact := by
  cases hinserts with
  | full _ hevicted => exact h.removed hevicted
  | tooMany _ hevicted hclean hsame =>
    intro a
    simp only [hsame.recorded,hsame.stored]
    exact (h.removed hevicted).removed hclean a
  | accepted _ hevicted hclean hentered hprocessed =>
    exact (((h.removed hevicted).removed hclean).entered hentered).processed hprocessed

end

def NumbersGrow (s s' : TransactionStore A P H) : Prop :=
  ∀ a r r', s.sequenceNumbers a = some r → s'.sequenceNumbers a = some r' → r ≤ r'

/-- Numbers only go. -/
def NumbersKept (s s' : TransactionStore A P H) : Prop :=
  ∀ a, s'.sequenceNumbers a = s.sequenceNumbers a ∨ s'.sequenceNumbers a = none

theorem NumbersKept.trans (h : NumbersKept s s₁) (h' : NumbersKept s₁ s') : NumbersKept s s' := by
  intro a
  rcases h' a with heq | hnone
  · rw [heq]
    exact h a
  · exact .inr hnone

theorem Collected.numbersKept (h : Collected s s' K D) : NumbersKept s s' :=
  fun a => (h.recorded a).imp_right And.right

theorem Removed.numbersKept (h : Removed s s' D) : NumbersKept s s' :=
  (Collected.of_removed h).numbersKept

theorem NumbersGrow.refl (s : TransactionStore A P H) : NumbersGrow s s :=
  fun _ _ _ hr hr' => (some.inj (hr.symm.trans hr')).le

theorem NumbersGrow.kept (h : NumbersGrow s s₁) (h' : NumbersKept s₁ s') : NumbersGrow s s' := by
  intro a r r' hr hr'
  rcases h' a with heq | hnone
  · exact h a r r' hr (heq ▸ hr')
  · exact absurd (hnone.symm.trans hr') nofun

theorem NumbersKept.grow (h : NumbersKept s s') : NumbersGrow s s' := (NumbersGrow.refl s).kept h

theorem NumbersKept.grow_update (h : NumbersKept s s₁)
    (hset : s'.sequenceNumbers = update s₁.sequenceNumbers a (some m))
    (hle : ∀ r, s.sequenceNumbers a = some r → r ≤ m) : NumbersGrow s s' := by
  intro b r r' hr hr'
  rw [hset] at hr'
  by_cases hb : b = a
  · subst hb
    rw [update_self,some_inj] at hr'
    exact hr' ▸ hle r hr
  · rw [update_of_ne hb] at hr'
    exact h.grow b r r' hr hr'

theorem Inserts.numbersGrow (hinserts : Inserts config rng s₀ t code s') (h : NumbersKept s s₀)
    (hle : ∀ r, s.sequenceNumbers t.getSender = some r → r ≤ t.minSeq) : NumbersGrow s s' := by
  cases hinserts with
  | full _ hevicted => exact (h.trans hevicted.numbersKept).grow
  | tooMany _ hevicted hclean hsame =>
    have hgrow := ((h.trans hevicted.numbersKept).trans hclean.numbersKept).grow
    rw [NumbersGrow,hsame.recorded]
    exact hgrow
  | accepted _ hevicted hclean hentered hprocessed =>
    exact ((h.trans hevicted.numbersKept).trans hclean.numbersKept).grow_update
      (hprocessed.recorded.trans hentered.recorded) hle

/-- What keeps the numbers: an insertion does not come with a number below the recorded one, and a
commit is for an account that has transactions. -/
def KeepsNumbers (s : TransactionStore A P H) : MempoolAction A P H → Prop
  | .addTxn txn _ sequenceInfo _ _ _ =>
    ∀ r, s.sequenceNumbers txn.sender = some r → r ≤ sequenceInfo.minSeq
  | .commitTransaction sender _ => ∃ n t, s.getMempoolTxn sender n = some t
  | _ => True

theorem Steps.numbers [DecidableEq H] [DecidableEq P] {action : MempoolAction A P H}
    (h : s.NumbersExact) (hsteps : Steps config s action s') (hkeeps : s.KeepsNumbers action) :
    s'.NumbersExact ∧ NumbersGrow s s' := by
  cases hsteps with
  | unchanged => exact ⟨h,.refl s⟩
  | added _ _ hremoved hinserts =>
    exact ⟨(h.removed hremoved).inserts hinserts,hinserts.numbersGrow hremoved.numbersKept hkeeps⟩
  | @committed sender _ number _ s₂ _ hnumber hclean hprocessed =>
    constructor
    · refine NumbersExact.processed (NumbersExact.removed (fun b => ?_) hclean) hprocessed
      change (∃ r, update s.sequenceNumbers sender (some number) b = some r) ↔ _
      by_cases hb : b = sender
      · subst hb
        rw [update_self]
        exact iff_of_true ⟨_,rfl⟩ hkeeps
      · rw [update_of_ne hb]
        exact h b
    · have hset : NumbersGrow s { s with
          sequenceNumbers := update s.sequenceNumbers sender (some number) } := by
        have hkept : NumbersKept s s := fun _ => .inl rfl
        refine hkept.grow_update rfl fun r hr => ?_
        rw [hnumber,hr]
        exact le_max_left _ _
      rw [NumbersGrow,hprocessed.recorded]
      exact hset.kept hclean.numbersKept
  | rejected _ hremoved => exact ⟨h.removed hremoved,hremoved.numbersKept.grow⟩
  | collected _ _ hcollected => exact ⟨h.collected hcollected,hcollected.numbersKept.grow⟩

theorem Holds.length_accounts {U : Set (SignedTransaction A P H)} {fresh : Prop}
    {l : List (MempoolTransaction A P H)} (h : Holds config U fresh s l [] [] []) {accounts : List A}
    (hnodup : accounts.Nodup) (hstored : ∀ a ∈ accounts, ∃ n, s.Stored (a,n)) :
    accounts.length ≤ config.capacity := by
  have hsub : accounts ⊆ l.map (·.getSender) := by
    intro a ha
    obtain ⟨n,t,ht⟩ := hstored a ha
    obtain ⟨hmem,hpointer,-⟩ := (h.main _ _ t).mp ht
    exact List.mem_map.mpr ⟨t,hmem,(Prod.mk.inj hpointer).1⟩
  have hlength := (hnodup.subperm hsub).length_le
  rw [List.length_map] at hlength
  exact hlength.trans h.capacity

/-- Exactly the accounts with transactions have a number, so that there are no more of them than the
capacity, and the number of an account does not decrease while it has transactions. -/
theorem sequenceNumbers_exact_monotone [DecidableEq H] [DecidableEq P] [OrderBot A]
    (config : MempoolConfig) (s : TransactionStore A P H)
    (h : Reached (step config) KeepsNumbers (new config) s) :
    (∀ a, (∃ r, s.sequenceNumbers a = some r) ↔ ∃ n t, s.getMempoolTxn a n = some t) ∧
    (∀ accounts : List A, accounts.Nodup → (∀ a ∈ accounts, ∃ r, s.sequenceNumbers a = some r) →
      accounts.length ≤ config.capacity) ∧
    ∀ action s', s.KeepsNumbers action → s.step config action = .ok s' → ∀ a r r',
      s.sequenceNumbers a = some r → s'.sequenceNumbers a = some r' → r ≤ r' := by
  obtain ⟨⟨l,hs⟩,hexact⟩ : (∃ l, Holds config Set.univ False s l [] [] []) ∧ s.NumbersExact := by
    refine reached_holds h (fun a => iff_of_false ?_ ?_) fun s l action s' hs hexact hkeeps _ hsteps =>
      (hsteps.numbers hexact hkeeps).1
    · rintro ⟨r,hr⟩
      cases hr
    · rintro ⟨n,t,ht⟩
      cases ht
  refine ⟨hexact,fun accounts hnodup hrecorded => ?_,fun action s' hkeeps hok => ?_⟩
  · exact hs.length_accounts hnodup fun a ha => (hexact a).mp (hrecorded a ha)
  · obtain ⟨-,-,hsteps⟩ := (step_spec hs (admitted_univ action)).of_ok hok
    exact (hsteps.numbers hexact hkeeps).2

/-- Two transactions are added, and the first is committed. -/
theorem sequenceNumbers_exact_monotone_sample : ∃ s : TransactionStore ℕ Unit (ℕ × ℕ × ℕ),
    Reached (step sampleConfig) KeepsNumbers (new sampleConfig) s ∧
    (∃ n t, s.getMempoolTxn 0 n = some t) := by
  let a₁ : MempoolAction ℕ Unit (ℕ × ℕ × ℕ) :=
    .addTxn (sampleTxn 0 0 1) 1 (.sequential 0) .notReady 0 0
  let a₂ : MempoolAction ℕ Unit (ℕ × ℕ × ℕ) :=
    .addTxn (sampleTxn 0 1 1) 1 (.sequential 0) .notReady 0 0
  let a₃ : MempoolAction ℕ Unit (ℕ × ℕ × ℕ) := .commitTransaction 0 0
  let s₁ := (new sampleConfig).after a₁
  let s₂ := s₁.after a₂
  let s₃ := s₂.after a₃
  have hfirst : KeepsNumbers (new sampleConfig) a₁ := by
    intro r hr
    cases hr
  have hsecond : s₁.KeepsNumbers a₂ := by
    intro r hr
    have hzero : s₁.sequenceNumbers 0 = some 0 := by decide +kernel
    exact (some.inj (hr.symm.trans hzero)).le
  have hthird : s₂.KeepsNumbers a₃ := by
    obtain ⟨t,ht⟩ := isSome_iff_exists.mp
      (by decide +kernel : (s₂.getMempoolTxn 0 0).isSome = true)
    exact ⟨0,t,ht⟩
  have hreached := reached_after (reached_after (reached_after .refl hfirst (by decide +kernel))
    hsecond (by decide +kernel)) hthird (by decide +kernel)
  have hrecorded : s₃.sequenceNumbers 0 = some 1 := by decide +kernel
  exact ⟨s₃,hreached,((sequenceNumbers_exact_monotone sampleConfig s₃ hreached).1 0).mp ⟨1,hrecorded⟩⟩

/-- A commit leaves a number for an account without transactions. An insertion with a number from
before a commit lowers that of an account with transactions. -/
theorem sequenceNumbers_stale :
    ((run sampleConfig [.commitTransaction 0 0] :
        Except Panic (TransactionStore ℕ Unit (ℕ × ℕ × ℕ))).map fun s =>
      (s.sequenceNumbers 0,(s.transactions 0).isSome)) = .ok (some 1,false) ∧
    ((run sampleConfig [.addTxn (sampleTxn 0 0 1) 1 (.sequential 0) .notReady 0 0,
        .addTxn (sampleTxn 0 1 1) 1 (.sequential 0) .notReady 0 0,.commitTransaction 0 0]).map fun s =>
      (s.sequenceNumbers 0,(s.getMempoolTxn 0 1).isSome)) = .ok (some 1,true) ∧
    ((run sampleConfig [.addTxn (sampleTxn 0 0 1) 1 (.sequential 0) .notReady 0 0,
        .addTxn (sampleTxn 0 1 1) 1 (.sequential 0) .notReady 0 0,.commitTransaction 0 0,
        .addTxn (sampleTxn 0 2 1) 1 (.sequential 0) .notReady 0 0]).map fun s =>
      (s.sequenceNumbers 0,(s.getMempoolTxn 0 1).isSome)) = .ok (some 0,true) := by
  decide +kernel

end

end Arx.Mempool.TransactionStore
