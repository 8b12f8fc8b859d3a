import Arx.Arxdb.StateStoreSteps

/-!
# What the state store returns in any run

Along every run readings from the last prune target on are exact, and below it nothing is left that
is not live there.
-/

namespace Arx.Arxdb
open Movelib List StateHistory

variable {h front sets : StateHistory} {T m u : ℕ} {store store' : StateStore} {key : StateKey}
  {x : Option StateValue} {expected : StateStorageUsage}

namespace StateHistory

theorem staleAt_append {v s : ℕ} (hs : s < front.length) :
    StaleAt (writes (front ++ sets) key) v s ↔ StaleAt (front.writes key) v s :=
  staleAt_congr fun _ hz => writes_append (lt_of_le_of_lt hz hs)

theorem lt_of_staleAt {v s : ℕ} (hs : StaleAt (h.writes key) v s) : s < h.length := by
  obtain ⟨x,hx,-⟩ := hs
  exact lt_of_writes hx

theorem kept_append {v : ℕ} (hT : T ≤ front.length) :
    Kept (writes (front ++ sets) key) T v ↔ Kept (front.writes key) T v := by
  constructor
  · intro hk s hs
    exact hk s ((staleAt_append (lt_of_staleAt hs)).mpr hs)
  · intro hk s hs
    by_cases hlt : s < front.length
    · exact hk s ((staleAt_append hlt).mp hs)
    · omega

end StateHistory

def RowsBelow (h : StateHistory) (T u : ℕ) (rows : Column stateValueRow (Option StateValue)) :
    Prop :=
  ∀ key version x, ((key,version),x) ∈ rows.rows ↔
    h.writes key version = some x ∧ Kept (h.writes key) T version ∧ version < u

theorem RowsBelow.putRows {rows : Column stateValueRow (Option StateValue)}
    (hr : RowsBelow h T u rows) (hsets : h.drop u = sets) (hT : T ≤ u) (hu : u ≤ h.length)
    (hlen : h.length ≤ maxVersion + 1) : RowsBelow h T h.length (StateStore.putRows u rows sets) := by
  induction sets generalizing u rows with
  | nil =>
    obtain rfl : u = h.length := le_antisymm hu (drop_eq_nil_iff.mp hsets)
    exact hr
  | cons kvs rest ih =>
    obtain ⟨hget,hlt,hrest⟩ := Stats.get_of_drop_eq_cons hsets
    have hwrites : ∀ key x, h.writes key u = some x ↔ (key,x) ∈ kvs.entries := by
      intro key x
      rw [writes_of_get hget,ValueStateSet.get_eq_some]
    refine ih ?_ hrest (by omega) hlt
    have hdistinct : kvs.entries.Pairwise fun a b =>
        stateValueRow (a.1,u) ≠ stateValueRow (b.1,u) := by
      refine (pairwise_map.mp kvs.nodup).imp fun hne heq => hne ?_
      exact (stateValueRow_inj (by omega) (by omega) heq).1
    intro key version x
    rw [Column.mem_foldl_put hdistinct,hr key version x]
    constructor
    · rintro (⟨kv,hkv,heq⟩ | ⟨⟨hw,hk,hv⟩,-⟩)
      · obtain ⟨hrow,rfl⟩ := Prod.mk.inj heq
        cases hrow
        exact ⟨(hwrites _ _).mpr hkv,fun s hs => hT.trans hs.le,by omega⟩
      · exact ⟨hw,hk,by omega⟩
    · rintro ⟨hw,hk,hv⟩
      rcases Nat.lt_succ_iff_lt_or_eq.mp hv with hv | rfl
      · refine .inr ⟨⟨hw,hk,hv⟩,fun kv hkv heq => ?_⟩
        have := (stateValueRow_inj (by omega) (by omega) heq).2
        omega
      · exact .inl ⟨(key,x),(hwrites key x).mp hw,rfl⟩

/-- The rows of the indices come in the order of the versions at which they are stale. -/
theorem StateStore.mem_staleIndices {e : ℕ} {index : StaleStateValueIndex} :
    index ∈ store.staleIndices m e ↔ (index,()) ∈ store.staleStateValueIndex.rows ∧
      m ≤ index.staleSinceVersion ∧ index.staleSinceVersion ≤ e := by
  have hdown : ∀ p q : StaleStateValueIndex × Unit, p.1.row < q.1.row →
      decide (¬ q.1.staleSinceVersion > e) → decide (¬ p.1.staleSinceVersion > e) := by
    intro p q hpq hq
    have hle : p.1.staleSinceVersion ≤ q.1.staleSinceVersion :=
      Prod.Lex.monotone_fst _ _ hpq.le
    have := of_decide_eq_true hq
    exact decide_eq_true (by omega)
  have hfrom : ∀ i : StaleStateValueIndex,
      toLex (m,toLex (0,[])) ≤ i.row ↔ m ≤ i.staleSinceVersion := by
    intro i
    rw [StaleStateValueIndex.row,Prod.Lex.toLex_le_toLex]
    constructor
    · rintro (hlt | ⟨heq,-⟩)
      · exact le_of_lt hlt
      · exact le_of_eq heq
    · intro hle
      rcases hle.lt_or_eq with hlt | heq
      · exact .inl hlt
      · refine .inr ⟨heq,Prod.Lex.toLex_le_toLex.mpr ?_⟩
        rcases Nat.eq_zero_or_pos i.version with hz | hpos
        · exact .inr ⟨hz.symm,not_lt.mp (not_lt_nil _)⟩
        · exact .inl hpos
  rw [staleIndices,mem_map]
  constructor
  · rintro ⟨⟨i,_⟩,hi,rfl⟩
    obtain ⟨hrow,hge,hle⟩ := (Column.mem_takeWhile_seek hdown).mp hi
    exact ⟨hrow,(hfrom i).mp hge,by simpa using hle⟩
  · rintro ⟨hrow,hge,hle⟩
    refine ⟨(index,()),(Column.mem_takeWhile_seek hdown).mpr ⟨hrow,(hfrom index).mpr hge,?_⟩,rfl⟩
    simpa using hle

namespace Represents

section

variable (hr : Represents front T m store) (hlen : front.length ≤ maxVersion + 1)
    (ha : RowsApart front) (hT : T ≤ front.length)

include hr hlen ha hT

theorem readCache (hkey : key ∈ StateStore.keySet sets) {usage : StateStorageUsage}
    {indices : Column StaleStateValueIndex.row Unit} {data : Column (id : ℕ → ℕ) VersionData} :
    (Stats.mk usage (store.readCache sets (StateStore.checkedPred front.length)) indices
      data).cached key = before (front.writes key) front.length := by
  cases hn : front.length with
  | zero => rfl
  | succ n =>
    simp only [Stats.cached,StateStore.checkedPred,StateStore.readCache,if_pos hkey]
    have hget : store.getStateValueWithVersionByVersion key n = front.valueAt key n :=
      hr.getStateValue hlen ha (by omega) (by omega)
    rw [hget,valueAt]
    cases before (front.writes key) (n + 1) with
    | none => rfl
    | some p => rfl

theorem putValueSets (hm : m < front.length ∨ front = [] ∧ m = 0)
    (hput : store.putValueSets sets front.length expected = .ok store') :
    Represents (front ++ sets) T m store' ∧ (front ++ sets).length ≤ maxVersion + 1 := by
  simp only [StateStore.putValueSets,StateStore.putStatsAndIndices,bind_eq_ok,
    pure_eq_ok,check_ok] at hput
  obtain ⟨-,hfits,_,⟨usage,husage,-,-,rfl⟩,rfl⟩ := hput
  have hlen' : (front ++ sets).length ≤ maxVersion + 1 := by
    rw [length_append]
    exact hfits
  have hdrop : (front ++ sets).drop front.length = sets := drop_left
  have hle : front.length ≤ (front ++ sets).length := by
    rw [length_append]
    omega
  have hsub : front.writtenKeys ⊆ writtenKeys (front ++ sets) := by
    intro key hkey
    rw [writtenKeys,StateStore.keySet,flatMap_append,toFinset_append]
    exact Finset.mem_union_left _ hkey
  have hC : (StateStore.keySet sets).toFinset ⊆ writtenKeys (front ++ sets) := by
    intro key hkey
    rw [writtenKeys,StateStore.keySet,flatMap_append,toFinset_append]
    exact Finset.mem_union_right _ hkey
  have hbefore : ∀ key, before (writes (front ++ sets) key) front.length =
      before (front.writes key) front.length := fun key => before_append le_rfl
  have hmle : m ≤ front.length := by omega
  have hstats : Stats.Advanced (front ++ sets) T m front.length (StateStore.keySet sets).toFinset
      ⟨usage,store.readCache sets (StateStore.checkedPred front.length),
        store.staleStateValueIndex,store.versionData⟩ := by
    refine ⟨⟨?_,?_⟩,fun index => ?_,fun version data => ?_⟩
    · rw [hr.getUsage_base (hm.imp_right And.left)] at husage
      have hnone : ∀ key ∉ front.writtenKeys, before (front.writes key) front.length = none :=
        fun key hkey => before_notMem hkey
      simp only [hbefore]
      rw [← Except.ok.inj husage,itemCount_superset hsub hnone,byteCount_superset hsub hnone]
    · intro key hkey
      rw [hr.readCache hlen ha hT (mem_toFinset.mp hkey),hbefore]
    · rw [hr.indices]
      constructor
      · rintro ⟨hs,hT⟩
        have hlt := lt_of_staleAt hs
        exact ⟨(staleAt_append hlt).mpr hs,hT,hlt⟩
      · rintro ⟨hs,hT,hlt⟩
        exact ⟨(staleAt_append hlt).mp hs,hT⟩
    · rw [hr.versionData]
      refine and_congr_right fun _ => and_congr_right fun hv => ?_
      rw [usageAt_append hv]
  have hadv := hstats.putSets hdrop hC (fun key hkey => mem_toFinset.mpr hkey) hT hmle hle
  have hrows : RowsBelow (front ++ sets) T front.length store.stateValue := by
    intro key version x
    rw [hr.stateValue,kept_append hT]
    constructor
    · rintro ⟨hw,hk⟩
      have hlt := lt_of_writes hw
      exact ⟨(writes_append hlt).trans hw,hk,hlt⟩
    · rintro ⟨hw,hk,hlt⟩
      exact ⟨(writes_append hlt).symm.trans hw,hk⟩
  refine ⟨⟨fun key version x => ?_,fun index => ?_,hadv.versionData⟩,hlen'⟩
  · rw [hrows.putRows hdrop hT hle hlen']
    refine and_congr_right fun hw => and_iff_left ?_
    exact lt_of_writes hw
  · rw [hadv.indices]
    refine and_congr_right fun hs => and_iff_left ?_
    exact lt_of_staleAt hs

end

theorem pruneStateValues {e : ℕ} (hr : Represents h T m store) (hlen : h.length ≤ maxVersion + 1)
    (hmT : m ≤ T) (hTe : T ≤ e + 1) (hme : m ≤ e) :
    Represents h (e + 1) e (store.pruneStateValues m e) := by
  have hindex : ∀ index, index ∈ store.staleIndices m e ↔
      StaleAt (h.writes index.stateKey) index.version index.staleSinceVersion ∧
        T ≤ index.staleSinceVersion ∧ index.staleSinceVersion ≤ e := by
    intro index
    rw [StateStore.mem_staleIndices,hr.indices,and_assoc]
    refine and_congr_right fun _ => and_congr_right fun hT => and_iff_right ?_
    exact hmT.trans hT
  refine ⟨fun key version x => ?_,fun index => ?_,fun version data => ?_⟩
  · rw [StateStore.pruneStateValues,Column.mem_foldl_delete,hr.stateValue,and_assoc]
    refine and_congr_right fun hw => ⟨?_,?_⟩
    · rintro ⟨hk,hgone⟩ s hs
      by_contra hse
      refine hgone ⟨s,version,key⟩ ((hindex _).mpr ⟨hs,hk s hs,by simpa using hse⟩) rfl
    · intro hk
      refine ⟨fun s hs => hTe.trans (hk s hs),fun index hi heq => ?_⟩
      obtain ⟨hs,-,hse⟩ := (hindex index).mp hi
      have hv := le_maxVersion hlen hw
      have hlt := lt_of_staleAt hs
      have hvi : index.version ≤ maxVersion := by
        have := hs.le
        omega
      obtain ⟨rfl,rfl⟩ := stateValueRow_inj hv hvi heq
      have := hk _ hs
      omega
  · rw [StateStore.pruneStateValues,Column.mem_foldl_delete_self,hr.indices]
    constructor
    · rintro ⟨⟨hs,hT⟩,hgone⟩
      refine ⟨hs,?_⟩
      by_contra hse
      exact hgone index ((hindex index).mpr ⟨hs,hT,by omega⟩) rfl
    · rintro ⟨hs,hse⟩
      refine ⟨⟨hs,by omega⟩,fun i hi heq => ?_⟩
      obtain rfl : index = i := StaleStateValueIndex.row_injective heq
      have := ((hindex index).mp hi).2.2
      omega
  · rw [StateStore.pruneStateValues,Column.mem_foldl_delete_self,hr.versionData]
    simp only [mem_range'_1,id_eq]
    constructor
    · rintro ⟨⟨hm,hv,hd⟩,hgone⟩
      refine ⟨?_,hv,hd⟩
      by_contra hlt
      exact hgone version ⟨hm,by omega⟩ rfl
    · rintro ⟨hm,hv,hd⟩
      refine ⟨⟨by omega,hv,hd⟩,fun v hv' heq => ?_⟩
      omega

theorem empty : Represents [] 0 0 .empty := by
  have hwrites : ∀ key v, writes [] key v = none := fun _ _ => rfl
  refine ⟨fun key version x => ?_,fun index => ?_,fun version data => ?_⟩
  · refine ⟨fun h => absurd h not_mem_nil,fun h => ?_⟩
    exact absurd h.1 nofun
  · refine ⟨fun h => absurd h not_mem_nil,fun h => ?_⟩
    exact absurd (lt_of_staleAt h.1) (Nat.not_lt_zero _)
  · exact ⟨fun h => absurd h not_mem_nil,fun h => absurd h.2.1 (Nat.not_lt_zero _)⟩

end Represents

namespace Ledger

def history (ops : List Op) : StateHistory :=
  ops.flatMap fun op =>
    match op with
    | .putValueSets valueStateSets _ => valueStateSets
    | .setTargetVersion _ => []
    | .prune _ => []

def Admits (ledger : Ledger) : Op → Prop
  | .putValueSets _ _ => True
  | .setTargetVersion t => t < ledger.nextVersion
  | .prune _ => True

instance (ledger : Ledger) (op : Op) : Decidable (ledger.Admits op) :=
  match op with
  | .putValueSets _ _ => inferInstanceAs (Decidable True)
  | .setTargetVersion t => inferInstanceAs (Decidable (t < ledger.nextVersion))
  | .prune _ => inferInstanceAs (Decidable True)

inductive Runs : List Op → Ledger → Prop
  | init : Runs [] init
  | step {ops : List Op} {ledger ledger' : Ledger} {op : Op} (hrun : Runs ops ledger)
      (hadmits : ledger.Admits op) (hstep : ledger.step op = .ok ledger') : Runs (ops ++ [op]) ledger'

theorem history_snoc (ops : List Op) (op : Op) :
    history (ops ++ [op]) = history ops ++ history [op] := flatMap_append

def keptFrom (ledger : Ledger) : ℕ :=
  match ledger.ledgerPrunerProgress with
  | none => 0
  | some t => t + 1

structure Follows (h : StateHistory) (ledger : Ledger) : Prop where
  represents : Represents h ledger.keptFrom ledger.minReadableVersion ledger.store
  nextVersion : ledger.nextVersion = h.length
  fits : h.length ≤ maxVersion + 1
  progress : ledger.ledgerPrunerProgress = none ∧ ledger.minReadableVersion = 0 ∨
    ledger.ledgerPrunerProgress = some ledger.minReadableVersion ∧
      ledger.minReadableVersion < h.length
  target : ledger.targetVersion < h.length ∨ ledger.targetVersion = 0

variable {ledger ledger' : Ledger} {ops : List Op} {op : Op}

theorem Follows.keptFrom_bounds (hf : Follows h ledger) :
    ledger.minReadableVersion ≤ ledger.keptFrom ∧
      ledger.keptFrom ≤ ledger.minReadableVersion + 1 ∧ ledger.keptFrom ≤ h.length := by
  rcases hf.progress with ⟨hp,hm⟩ | ⟨hp,hm⟩
  · simp only [keptFrom,hp,hm]
    omega
  · simp only [keptFrom,hp]
    omega

theorem Follows.readable (hf : Follows h ledger) :
    ledger.minReadableVersion < h.length ∨ h = [] ∧ ledger.minReadableVersion = 0 := by
  rcases hf.progress with ⟨-,hm⟩ | ⟨-,hm⟩
  · rw [hm]
    exact (eq_nil_or_concat h).symm.imp (by rintro ⟨l,kvs,rfl⟩; simp) fun h => ⟨h,rfl⟩
  · exact .inl hm

theorem Follows.prune (hf : Follows h ledger) (maxVersions : ℕ) :
    Follows h (ledger.prune maxVersions) := by
  rw [Ledger.prune]
  split_ifs with hpending
  · have hbounds := hf.keptFrom_bounds
    have hpending : ledger.minReadableVersion < ledger.targetVersion := hpending
    have htarget : ledger.targetVersion < h.length := hf.target.resolve_right (by omega)
    have hle : ledger.minReadableVersion ≤ ledger.getCurrentBatchTarget maxVersions :=
      le_min (Nat.le_add_right _ _) hpending.le
    have hlt : ledger.getCurrentBatchTarget maxVersions < h.length :=
      lt_of_le_of_lt (min_le_right _ _) htarget
    exact {
      represents := hf.represents.pruneStateValues hf.fits hbounds.1 (by omega) hle
      nextVersion := hf.nextVersion
      fits := hf.fits
      progress := .inr ⟨rfl,hlt⟩
      target := hf.target }
  · exact hf

theorem Follows.step (hf : Follows h ledger) (ha : RowsApart h)
    (hadmits : ledger.Admits op) (hstep : ledger.step op = .ok ledger') :
    Follows (h ++ history [op]) ledger' := by
  cases op with
  | putValueSets sets expected =>
    obtain ⟨store,hput,⟨⟩⟩ := bind_eq_ok.mp hstep
    rw [hf.nextVersion] at hput
    have hbounds := hf.keptFrom_bounds
    obtain ⟨hr,hfits⟩ := hf.represents.putValueSets hf.fits ha hbounds.2.2 hf.readable hput
    have hhist : h ++ history [.putValueSets sets expected] = h ++ sets := by simp [history]
    rw [hhist]
    refine ⟨hr,?_,hfits,?_,?_⟩
    · rw [length_append,hf.nextVersion]
    · refine hf.progress.imp_right fun hp => ⟨hp.1,?_⟩
      rw [length_append]
      exact Nat.lt_add_right _ hp.2
    · refine hf.target.imp_left fun ht => ?_
      rw [length_append]
      exact Nat.lt_add_right _ ht
  | setTargetVersion t =>
    cases hstep
    have hlt : t < ledger.nextVersion := hadmits
    rw [hf.nextVersion] at hlt
    rw [show h ++ history [.setTargetVersion t] = h from append_nil h]
    exact { hf with target := .inl hlt }
  | prune maxVersions =>
    cases hstep
    rw [show h ++ history [.prune maxVersions] = h from append_nil h]
    exact hf.prune maxVersions

theorem Runs.follows (hrun : Runs ops ledger) (ha : RowsApart (history ops)) :
    Follows (history ops) ledger := by
  induction hrun with
  | init => exact ⟨.empty,rfl,Nat.zero_le _,.inl ⟨rfl,rfl⟩,.inr rfl⟩
  | step _ hadmits hstep ih =>
    rw [history_snoc] at ha ⊢
    exact (ih ha.of_append).step ha.of_append hadmits hstep

/-- What is at or above the last prune target is read as it was written, the usage is exact there, and
the rows at or below the target are those of the values live at it. -/
theorem state_values_exact (hrun : Runs ops ledger) (ha : RowsApart (history ops)) :
    (∀ key version, (∀ t ∈ ledger.ledgerPrunerProgress, t ≤ version) → version ≤ maxVersion →
      ledger.store.getStateValueWithVersionByVersion key version =
        (history ops).valueAt key version) ∧
    (∀ version, (∀ t ∈ ledger.ledgerPrunerProgress, t ≤ version) →
      version < (history ops).length →
      ledger.store.getUsage (some version) = .ok ((history ops).usageAt version)) ∧
    (∀ t ∈ ledger.ledgerPrunerProgress, ∀ key version x, version ≤ t →
      (((key,version),x) ∈ ledger.store.stateValue.rows ↔
        ∃ y, x = some y ∧ (history ops).valueAt key t = some (version,y))) := by
  have hf := hrun.follows ha
  have hfrom : ∀ version, (∀ t ∈ ledger.ledgerPrunerProgress, t ≤ version) →
      ledger.keptFrom ≤ version + 1 ∧ ledger.minReadableVersion ≤ version := by
    intro version ht
    have hbounds := hf.keptFrom_bounds
    rcases hf.progress with ⟨hp,hm⟩ | ⟨hp,-⟩
    · omega
    · have := ht _ hp
      omega
  refine ⟨fun key version ht hmax => ?_,fun version ht hlt => ?_,fun t ht key version x hle => ?_⟩
  · exact hf.represents.getStateValue hf.fits ha (hfrom version ht).1 hmax
  · exact hf.represents.getUsage (hfrom version ht).2 hlt
  · have hkept : ledger.keptFrom = t + 1 := by rw [keptFrom,Option.mem_def.mp ht]
    rw [hf.represents.stateValue,hkept]
    constructor
    · rintro ⟨hw,hk⟩
      cases x with
      | none =>
        -- a tombstone is stale at its own version
        have := hk version (staleAt_tombstone hw)
        omega
      | some y => exact ⟨y,rfl,before_eq_some_iff_kept.mpr ⟨by omega,hw,hk⟩⟩
    · rintro ⟨y,rfl,hy⟩
      exact (before_eq_some_iff_kept.mp hy).2

def applied (ledger : Ledger) (op : Op) : Ledger := (ledger.step op).toOption.getD ledger

theorem Runs.applied (hrun : Runs ops ledger) (hadmits : ledger.Admits op)
    (hok : (ledger.step op).toOption.isSome) : Runs (ops ++ [op]) (ledger.applied op) :=
  hrun.step hadmits (eq_ok_of_isSome hok ledger)

def sampleKey (key : List Byte) : StateKey := .tableItem ⟨List.replicate 32 0,by decide⟩ key

def sampleSet (key : List Byte) (value : Option StateValue) : ValueStateSet :=
  ⟨[(sampleKey key,value)],nodup_singleton _⟩

def sampleFirst : Op :=
  .putValueSets [sampleSet [1] (some ⟨[7]⟩),sampleSet [2] (some ⟨[8,8]⟩)] .untracked

def sampleSecond : Op :=
  .putValueSets [sampleSet [1] (some ⟨[9]⟩),sampleSet [2] none] (.tracked 1 34)

def sampleOps : List Op := [] ++ [sampleFirst] ++ [sampleSecond] ++ [.setTargetVersion 3] ++ [.prune 2]

def sampleLedger : Ledger :=
  (((init.applied sampleFirst).applied sampleSecond).applied (.setTargetVersion 3)).applied (.prune 2)

theorem sampleLedger_runs : Runs sampleOps sampleLedger := by
  refine Runs.applied (Runs.applied (Runs.applied (Runs.applied .init ?_ ?_) ?_ ?_) ?_ ?_) ?_ ?_
  all_goals decide +kernel

theorem state_values_exact_pruned :
    sampleLedger.ledgerPrunerProgress = some 2 ∧
      sampleLedger.store.getStateValueWithVersionByVersion (sampleKey [1]) 2 =
        (history sampleOps).valueAt (sampleKey [1]) 2 := by
  have hfree : PrefixFree (history sampleOps) := by
    unfold PrefixFree
    decide +kernel
  have hprogress : sampleLedger.ledgerPrunerProgress = some 2 := by decide +kernel
  refine ⟨hprogress,(state_values_exact sampleLedger_runs hfree.rowsApart).1 _ 2 ?_ (by decide)⟩
  rw [hprogress]
  rintro t ⟨rfl⟩
  exact le_rfl

/-- The second key is the first one followed by the bytes of a version. -/
def nestedOp : Op :=
  .putValueSets [sampleSet [1] (some ⟨[7]⟩),
    sampleSet (1 :: (List.replicate 7 255 ++ [254])) (some ⟨[8]⟩)] .untracked

/-- A row of the second key comes between the place where the first one is sought at version 1 and its
value, which is then not found. -/
theorem nested_key_hides_value : Runs ([] ++ [nestedOp]) (init.applied nestedOp) ∧
    (init.applied nestedOp).ledgerPrunerProgress = none ∧
    (init.applied nestedOp).store.getStateValueWithVersionByVersion (sampleKey [1]) 1 = none ∧
    (history [nestedOp]).valueAt (sampleKey [1]) 1 = some (0,⟨[7]⟩) := by
  refine ⟨Runs.applied .init ?_ ?_,?_,?_,?_⟩
  all_goals decide +kernel

end Ledger

end Arx.Arxdb
