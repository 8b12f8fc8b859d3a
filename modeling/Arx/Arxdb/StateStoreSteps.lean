import Arx.Arxdb.StateStore
import Arx.Movelib.Totals
import Arx.Movelib.Versioned

/-!
# Reading, writing and pruning a represented store

`Represents` relates a store to a history of the writes of which everything stale below a version
has been pruned. Each operation on such a store, and what it represents afterwards.
-/

namespace Arx.Arxdb
open Movelib Function List

section
open Option

namespace ValueStateSet

def get (kvs : ValueStateSet) (key : StateKey) : Option (Option StateValue) :=
  (kvs.entries.find? fun kv => kv.1 = key).map Prod.snd

theorem get_eq_some {kvs : ValueStateSet} {key : StateKey} {x : Option StateValue} :
    kvs.get key = some x ↔ (key,x) ∈ kvs.entries := by
  rw [get,map_eq_some_iff]
  constructor
  · rintro ⟨kv,hkv,rfl⟩
    have hkey : kv.1 = key := by simpa using List.find?_some hkv
    rw [← hkey]
    exact mem_of_find?_eq_some hkv
  · intro h
    have hsome : (kvs.entries.find? fun kv => kv.1 = key).isSome :=
      List.find?_isSome.mpr ⟨(key,x),h,decide_eq_true rfl⟩
    obtain ⟨kv,hkv⟩ := isSome_iff_exists.mp hsome
    have hkey : kv.1 = key := by simpa using List.find?_some hkv
    refine ⟨kv,hkv,?_⟩
    rw [inj_on_of_nodup_map kvs.nodup (mem_of_find?_eq_some hkv) h hkey]

end ValueStateSet

abbrev StateHistory := List ValueStateSet

namespace StateHistory

variable (h : StateHistory) (key : StateKey) (version : ℕ)

def writes : Writes StateValue := fun version =>
  h[version]?.bind fun kvs => kvs.get key

/-- The newest value at or below a version, if it is not deleted. -/
def valueAt : Option (ℕ × StateValue) :=
  before (h.writes key) (version + 1)

def writtenKeys : Finset StateKey := (StateStore.keySet h).toFinset

def liveKeys : Finset StateKey :=
  h.writtenKeys.filter fun key => (h.valueAt key version).isSome

/-- The size of a key with its value. -/
def sizeWith : Option (ℕ × StateValue) → ℕ
  | some (_,value) => key.size + value.size
  | none => 0

def usageAt : StateStorageUsage :=
  .tracked (h.liveKeys version).card (∑ key ∈ h.liveKeys version, sizeWith key (h.valueAt key version))

variable {h front back : StateHistory} {key : StateKey} {version u : ℕ} {x : Option StateValue}

theorem writes_of_get {kvs : ValueStateSet} (hu : h[u]? = some kvs) :
    h.writes key u = kvs.get key := by
  rw [writes,hu,bind_some]

theorem lt_of_writes (hw : h.writes key u = some x) : u < h.length := by
  obtain ⟨kvs,hkvs,-⟩ := bind_eq_some_iff.mp hw
  exact (List.getElem?_eq_some_iff.mp hkvs).1

theorem writes_append (hu : u < front.length) :
    StateHistory.writes (front ++ back) key u = StateHistory.writes front key u := by
  rw [writes,writes,List.getElem?_append_left hu]

theorem before_append (hu : u ≤ front.length) :
    before (StateHistory.writes (front ++ back) key) u = before (StateHistory.writes front key) u :=
  before_congr fun _ hz => writes_append (lt_of_lt_of_le hz hu)

theorem mem_writtenKeys_of_writes (hw : h.writes key u = some x) : key ∈ h.writtenKeys := by
  obtain ⟨kvs,hkvs,hget⟩ := bind_eq_some_iff.mp hw
  refine mem_toFinset.mpr (mem_flatMap.mpr ⟨kvs,mem_of_getElem? hkvs,?_⟩)
  exact mem_map.mpr ⟨(key,x),ValueStateSet.get_eq_some.mp hget,rfl⟩

theorem before_notMem (hkey : key ∉ h.writtenKeys) : before (h.writes key) u = none := by
  cases hb : before (h.writes key) u with
  | none => rfl
  | some p => exact absurd (mem_writtenKeys_of_writes (before_eq_some.mp hb).2.1) hkey

end StateHistory

def itemCount (S : Finset StateKey) (f : StateKey → Option (ℕ × StateValue)) : ℕ :=
  ∑ key ∈ S, if (f key).isSome then 1 else 0

def byteCount (S : Finset StateKey) (f : StateKey → Option (ℕ × StateValue)) : ℕ :=
  ∑ key ∈ S, StateHistory.sizeWith key (f key)

variable {S S' : Finset StateKey} {f : StateKey → Option (ℕ × StateValue)} {key : StateKey}

theorem itemCount_superset (hS : S ⊆ S') (hf : ∀ key ∉ S, f key = none) :
    itemCount S f = itemCount S' f :=
  Finset.sum_subset hS fun key _ hkey => by rw [hf key hkey]; rfl

theorem byteCount_superset (hS : S ⊆ S') (hf : ∀ key ∉ S, f key = none) :
    byteCount S f = byteCount S' f :=
  Finset.sum_subset hS fun key _ hkey => by rw [hf key hkey]; rfl

theorem sum_update (g : StateKey → Option (ℕ × StateValue) → ℕ) (hkey : key ∈ S)
    (o : Option (ℕ × StateValue)) :
    ∑ k ∈ S, g k (update f key o k) + g key (f key) = ∑ k ∈ S, g k (f k) + g key o := by
  have hsum := sum_move (f := fun k => g k (f k)) hkey fun k hk => congrArg (g k) (update_of_ne hk o f)
  rwa [update_self] at hsum

theorem itemCount_update (hkey : key ∈ S) (o : Option (ℕ × StateValue)) :
    itemCount S (update f key o) + (if (f key).isSome then 1 else 0) =
      itemCount S f + if o.isSome then 1 else 0 :=
  sum_update (fun _ o => if o.isSome then 1 else 0) hkey o

theorem byteCount_update (hkey : key ∈ S) (o : Option (ℕ × StateValue)) :
    byteCount S (update f key o) + StateHistory.sizeWith key (f key) =
      byteCount S f + StateHistory.sizeWith key o :=
  sum_update StateHistory.sizeWith hkey o

namespace StateHistory

theorem usageAt_eq {h : StateHistory} {version : ℕ} (hS : h.writtenKeys ⊆ S) :
    h.usageAt version = .tracked (itemCount S fun key => before (h.writes key) (version + 1))
      (byteCount S fun key => before (h.writes key) (version + 1)) := by
  have hnone : ∀ key ∉ h.writtenKeys, before (h.writes key) (version + 1) = none :=
    fun key hkey => before_notMem hkey
  rw [usageAt,← itemCount_superset hS hnone,← byteCount_superset hS hnone,liveKeys,
    Finset.card_filter,Finset.sum_filter]
  congr 1
  refine Finset.sum_congr rfl fun key _ => ?_
  split_ifs with hsome
  · rfl
  · change 0 = sizeWith key (h.valueAt key version)
    rw [not_isSome_iff_eq_none.mp hsome]
    rfl

theorem usageAt_append {front back : StateHistory} {version : ℕ} (hv : version < front.length) :
    StateHistory.usageAt (front ++ back) version = front.usageAt version := by
  have hsub : front.writtenKeys ⊆ StateHistory.writtenKeys (front ++ back) := by
    intro key hkey
    rw [writtenKeys,StateStore.keySet,flatMap_append,toFinset_append]
    exact Finset.mem_union_left _ hkey
  rw [usageAt_eq (Finset.Subset.refl _),usageAt_eq hsub]
  simp only [before_append hv]

end StateHistory

/-- The store holds the rows of the history that are not stale below `T`, the indices of those that
are stale from `T` on, and the statistics from `m` on. -/
structure Represents (h : StateHistory) (T m : ℕ) (store : StateStore) : Prop where
  stateValue : ∀ key version x, ((key,version),x) ∈ store.stateValue.rows ↔
    h.writes key version = some x ∧ Kept (h.writes key) T version
  indices : ∀ index, (index,()) ∈ store.staleStateValueIndex.rows ↔
    StaleAt (h.writes index.stateKey) index.version index.staleSinceVersion ∧
      T ≤ index.staleSinceVersion
  versionData : ∀ version data, (version,data) ∈ store.versionData.rows ↔
    m ≤ version ∧ version < h.length ∧ data = .ofUsage (h.usageAt version)

end

open StateHistory

variable {h front back : StateHistory} {T m u q : ℕ} {store : StateStore} {key : StateKey}
    {x : Option StateValue} {o : Option (ℕ × StateValue)}

theorem StaleStateValueIndex.row_injective : Function.Injective StaleStateValueIndex.row := by
  rintro ⟨s,v,k⟩ ⟨s',v',k'⟩ heq
  have hs := Prod.mk.inj (toLex.injective heq)
  have hv := Prod.mk.inj (toLex.injective hs.2)
  obtain rfl : s = s' := hs.1
  obtain rfl : v = v' := hv.1
  obtain rfl : k = k' := StateKey.encode_injective hv.2
  rfl

/-- No row of another key stands between the place where a key is sought and a value of it. -/
def RowsApart (h : StateHistory) : Prop :=
  ∀ (k k' : StateKey) (q v v' : ℕ) (y : StateValue) (x : Option StateValue),
    h.writes k v = some (some y) → h.writes k' v' = some x → k ≠ k' → v ≤ q → q ≤ maxVersion →
      ¬ (stateValueRow (k,q) < stateValueRow (k',v') ∧ stateValueRow (k',v') < stateValueRow (k,v))

theorem RowsApart.of_append (ha : RowsApart (front ++ back)) : RowsApart front := by
  intro k k' q v v' y x hw hw'
  rw [← writes_append (lt_of_writes hw)] at hw
  rw [← writes_append (lt_of_writes hw')] at hw'
  exact ha k k' q v v' y x hw hw'

/-- The bytes of no written key start those of another one. -/
def PrefixFree (h : StateHistory) : Prop :=
  ∀ k ∈ h.writtenKeys, ∀ k' ∈ h.writtenKeys, k ≠ k' → ¬ k.encode <+: k'.encode

theorem PrefixFree.rowsApart (hp : PrefixFree h) : RowsApart h := by
  rintro k k' q v v' y x hw hw' hne - - ⟨hlt,hgt⟩
  have hk := mem_writtenKeys_of_writes hw
  have hk' := mem_writtenKeys_of_writes hw'
  have hkk' := hp k hk k' hk' hne
  have hk'k := hp k' hk' k hk hne.symm
  rw [stateValueRow,stateValueRow,append_lt_append_of_not_isPrefixOf hkk' hk'k] at hlt
  rw [stateValueRow,stateValueRow,append_lt_append_of_not_isPrefixOf hk'k hkk'] at hgt
  exact lt_asymm hlt hgt

namespace Represents

theorem le_maxVersion (hlen : h.length ≤ maxVersion + 1) (hw : h.writes key u = some x) :
    u ≤ maxVersion := by
  have := lt_of_writes hw
  omega

theorem getStateValue (hr : Represents h T m store) (hlen : h.length ≤ maxVersion + 1)
    (ha : RowsApart h) (hT : T ≤ q + 1) (hq : q ≤ maxVersion) :
    store.getStateValueWithVersionByVersion key q = h.valueAt key q := by
  -- the rows of the key at or below `q` lie from the start of the iterator on
  have hsought : ∀ z, z < q + 1 → h.writes key z ≠ none → Kept (h.writes key) T z →
      ∃ x, ((key,z),x) ∈ store.stateValue.rows ∧
        stateValueRow (key,q) ≤ stateValueRow (key,z) := by
    intro z hz hw hkept
    obtain ⟨x,hx⟩ := Option.ne_none_iff_exists'.mp hw
    refine ⟨x,(hr.stateValue key z x).mpr ⟨hx,hkept⟩,?_⟩
    exact (stateValueRow_le hq (by omega)).mpr (by omega)
  rw [StateStore.getStateValueWithVersionByVersion]
  cases hhead : (store.stateValue.seek (stateValueRow (key,q))).head? with
  | none =>
    refine (before_of_none_kept hT fun z hz hw hkept => ?_).symm
    obtain ⟨x,hx,hle⟩ := hsought z hz hw hkept
    exact absurd hle (not_le.mpr (Column.head?_seek_eq_none hhead hx))
  | some p =>
    obtain ⟨⟨k',v'⟩,x'⟩ := p
    obtain ⟨hrow,hle,hfirst⟩ := Column.head?_seek.mp hhead
    obtain ⟨hw',hkept'⟩ := (hr.stateValue k' v' x').mp hrow
    have hv' := le_maxVersion hlen hw'
    simp only [stateKeyExtractor_row,StateKey.encode_injective.eq_iff]
    split_ifs with hk
    · subst hk
      refine (before_of_newest hT ?_ hw' hkept' fun z hz hw hkept => ?_).symm
      · have := (stateValueRow_le hq hv').mp hle
        omega
      · obtain ⟨x,hx,hzle⟩ := hsought z hz hw hkept
        exact (stateValueRow_le hv' (by omega)).mp (hfirst _ hx hzle)
    · -- a row of another key comes first, so there is no value of this one to be found
      cases hb : h.valueAt key q with
      | none => rfl
      | some p =>
        obtain ⟨v,y⟩ := p
        obtain ⟨hv,hw,hkept⟩ := before_eq_some_iff_kept.mp hb
        obtain ⟨x,hx,hvle⟩ := hsought v hv (hw ▸ nofun) fun s hs => hT.trans (hkept s hs)
        have hlt : stateValueRow (k',v') < stateValueRow (key,v) := by
          refine lt_of_le_of_ne (hfirst _ hx hvle) fun heq => hk ?_
          exact (stateValueRow_inj hv' (by omega) heq).1
        have hgt : stateValueRow (key,q) < stateValueRow (k',v') := by
          refine lt_of_le_of_ne hle fun heq => hk ?_
          exact (stateValueRow_inj hq hv' heq).1.symm
        exact absurd ⟨hgt,hlt⟩
          (ha key k' q v v' y x' hw hw' (Ne.symm hk) (by omega) hq)

theorem getUsage (hr : Represents h T m store) (hm : m ≤ u) (hu : u < h.length) :
    store.getUsage (some u) = .ok (h.usageAt u) := by
  have hget : store.versionData.get u = some (.ofUsage (h.usageAt u)) :=
    (Column.get_eq_some injective_id).mpr ((hr.versionData u _).mpr ⟨hm,hu,rfl⟩)
  rw [StateStore.getUsage,hget]
  rfl

theorem getUsage_base (hr : Represents h T m store) (hm : m < h.length ∨ h = []) :
    store.getUsage (StateStore.checkedPred h.length) =
      .ok (.tracked (itemCount h.writtenKeys fun key => before (h.writes key) h.length)
        (byteCount h.writtenKeys fun key => before (h.writes key) h.length)) := by
  rcases hm with hm | rfl
  · obtain ⟨n,hn⟩ : ∃ n, h.length = n + 1 := ⟨h.length - 1,by omega⟩
    rw [hn,StateStore.checkedPred,hr.getUsage (by omega) (by omega),
      usageAt_eq (Finset.Subset.refl _)]
  · rfl

end Represents

namespace Stats

structure Tracks (S C : Finset StateKey) (f : StateKey → Option (ℕ × StateValue)) (stats : Stats) :
    Prop where
  usage : stats.usage = .tracked (itemCount S f) (byteCount S f)
  cached : ∀ key ∈ C, stats.cached key = f key

variable {S C : Finset StateKey} {f : StateKey → Option (ℕ × StateValue)} {stats : Stats}
  {version : ℕ} {index : StaleStateValueIndex} {l : List (StateKey × Option StateValue)}

@[simp] theorem putNew_cache : (putNew version stats key x).cache = stats.cache := by
  cases x <;> rfl

@[simp] theorem removeOld_cache : (removeOld version stats key o).cache = stats.cache := by
  cases o <;> rfl

theorem put_cached (k : StateKey) : (put version stats (key,x)).cached k =
    if k = key then x.map fun y => (version,y) else stats.cached k := by
  simp only [cached,put,removeOld_cache,insertCache,putNew_cache]
  by_cases hk : k = key
  · rw [if_pos hk,hk,update_self,Option.bind_some]
  · rw [if_neg hk,update_of_ne hk]

theorem Tracks.put (ht : Tracks S C f stats) (hC : C ⊆ S) (hkey : key ∈ C) :
    Tracks S C (update f key (x.map fun y => (version,y)))
      (Stats.put version stats (key,x)) := by
  constructor
  · have hitems := itemCount_update (f := f) (hC hkey) (x.map fun y => (version,y))
    have hbytes := byteCount_update (f := f) (hC hkey) (x.map fun y => (version,y))
    generalize itemCount S (update f key _) = items' at hitems ⊢
    generalize byteCount S (update f key _) = bytes' at hbytes ⊢
    rw [Stats.put,ht.cached key hkey]
    cases hf : f key with
    | none =>
      rw [hf] at hitems hbytes
      cases x with
      | none =>
        simp only [Option.map_none,Option.isSome_none,sizeWith] at hitems hbytes
        simp only [removeOld,insertCache,putNew,ht.usage]
        congr 1 <;> omega
      | some y =>
        simp only [Option.map_some,Option.isSome_none,Option.isSome_some,
          sizeWith] at hitems hbytes
        simp only [removeOld,insertCache,putNew,ht.usage,StateStorageUsage.addItem]
        congr 1 <;> simp at hitems hbytes <;> omega
    | some old =>
      obtain ⟨oldVersion,oldValue⟩ := old
      rw [hf] at hitems hbytes
      cases x with
      | none =>
        simp only [Option.map_none,Option.isSome_none,Option.isSome_some,
          sizeWith] at hitems hbytes
        simp only [removeOld,insertCache,putNew,ht.usage,StateStorageUsage.removeItem]
        congr 1 <;> simp at hitems hbytes <;> omega
      | some y =>
        simp only [Option.map_some,Option.isSome_some,sizeWith] at hitems hbytes
        simp only [removeOld,insertCache,putNew,ht.usage,StateStorageUsage.addItem,
          StateStorageUsage.removeItem]
        congr 1 <;> omega
  · intro k hk
    rw [put_cached,update_apply]
    split_ifs with hkk
    · rfl
    · exact ht.cached k hk

@[simp] theorem put_versionData {kv : StateKey × Option StateValue} :
    (put version stats kv).versionData = stats.versionData := by
  obtain ⟨k,x⟩ := kv
  rw [put]
  generalize stats.cached (k,x).1 = o
  cases o <;> cases x <;> rfl

theorem mem_put_index {index i : StaleStateValueIndex} {c : Column StaleStateValueIndex.row Unit} :
    (index,()) ∈ (c.put i ()).rows ↔ index = i ∨ (index,()) ∈ c.rows := by
  rw [Column.mem_put,StaleStateValueIndex.row_injective.ne_iff]
  by_cases hi : index = i
  · simp [hi]
  · simp [hi]

theorem mem_putNew_indices : (index,()) ∈ (putNew version stats key x).staleStateValueIndex.rows ↔
      (index,()) ∈ stats.staleStateValueIndex.rows ∨ x = none ∧ index = ⟨version,version,key⟩ := by
  cases x with
  | none =>
    rw [putNew,mem_put_index,or_comm]
    simp
  | some y => simp [putNew]

theorem mem_removeOld_indices :
    (index,()) ∈ (removeOld version stats key o).staleStateValueIndex.rows ↔
      (index,()) ∈ stats.staleStateValueIndex.rows ∨
        ∃ v y, o = some (v,y) ∧ index = ⟨version,v,key⟩ := by
  cases o with
  | none => simp [removeOld]
  | some old =>
    obtain ⟨v,y⟩ := old
    rw [removeOld,mem_put_index,or_comm]
    simp

theorem mem_put_indices : (index,()) ∈ (put version stats (key,x)).staleStateValueIndex.rows ↔
      (index,()) ∈ stats.staleStateValueIndex.rows ∨
      (index.stateKey = key ∧ index.staleSinceVersion = version ∧
        (x = none ∧ index.version = version ∨
          ∃ y, stats.cached key = some (index.version,y))) := by
  rw [put,mem_removeOld_indices,insertCache,mem_putNew_indices,or_assoc]
  obtain ⟨s,v,k⟩ := index
  simp only [StaleStateValueIndex.mk.injEq]
  refine or_congr_right ⟨?_,?_⟩
  · rintro (⟨hx,rfl,rfl,rfl⟩ | ⟨v',y,hold,rfl,rfl,rfl⟩)
    · exact ⟨rfl,rfl,.inl ⟨hx,rfl⟩⟩
    · exact ⟨rfl,rfl,.inr ⟨y,hold⟩⟩
  · rintro ⟨rfl,rfl,⟨hx,rfl⟩ | ⟨y,hold⟩⟩
    · exact .inl ⟨hx,rfl,rfl,rfl⟩
    · exact .inr ⟨v,y,hold,rfl,rfl,rfl⟩

theorem foldl_put_tracks
    {f' : StateKey → Option (ℕ × StateValue)} (ht : Tracks S C f stats) (hC : C ⊆ S)
    (hl : ∀ kv ∈ l, kv.1 ∈ C) (hnew : ∀ k x, (k,x) ∈ l → f' k = x.map fun y => (version,y))
    (hold : ∀ k, k ∉ l.map Prod.fst → f' k = f k) :
    Tracks S C f' (l.foldl (Stats.put version) stats) := by
  induction l generalizing f stats with
  | nil =>
    obtain rfl : f' = f := funext fun k => hold k not_mem_nil
    exact ht
  | cons kv l ih =>
    obtain ⟨k,x⟩ := kv
    refine ih (ht.put hC (hl _ mem_cons_self)) (fun kv h => hl kv (mem_cons_of_mem _ h))
      (fun k x h => hnew k x (mem_cons_of_mem _ h)) fun k' hk' => ?_
    rw [update_apply]
    split_ifs with hk
    · rw [hk]
      exact hnew k x mem_cons_self
    · refine hold k' fun hmem => ?_
      rcases mem_cons.mp hmem with heq | hmem
      · exact hk heq
      · exact hk' hmem

theorem foldl_put_versionData : (l.foldl (put version) stats).versionData = stats.versionData := by
  induction l generalizing stats with
  | nil => rfl
  | cons kv l ih => rw [foldl_cons,ih,put_versionData]

/-- Each key is written once in a version, so the cache still has the value from before. -/
theorem mem_foldl_put_indices (f : StateKey → Option (ℕ × StateValue)) (hl : (l.map Prod.fst).Nodup)
    (hcached : ∀ kv ∈ l, stats.cached kv.1 = f kv.1) :
    (index,()) ∈ (l.foldl (put version) stats).staleStateValueIndex.rows ↔
      (index,()) ∈ stats.staleStateValueIndex.rows ∨
      (index.staleSinceVersion = version ∧ ∃ x, (index.stateKey,x) ∈ l ∧
        (x = none ∧ index.version = version ∨ ∃ y, f index.stateKey = some (index.version,y))) := by
  induction l generalizing stats with
  | nil => simp
  | cons kv l ih =>
    obtain ⟨k,x⟩ := kv
    obtain ⟨hk,hl⟩ := nodup_cons.mp hl
    have hrest : ∀ kv ∈ l, (put version stats (k,x)).cached kv.1 = f kv.1 := by
      intro kv hkv
      have hne : kv.1 ≠ k := fun heq => hk (mem_map.mpr ⟨kv,hkv,heq⟩)
      rw [put_cached,if_neg hne]
      exact hcached kv (mem_cons_of_mem _ hkv)
    rw [foldl_cons,ih hl hrest,mem_put_indices,hcached _ mem_cons_self,or_assoc]
    refine or_congr_right ⟨?_,?_⟩
    · rintro (⟨hkey,hs,h⟩ | ⟨hs,x',hx',h⟩)
      · subst hkey
        exact ⟨hs,x,mem_cons_self,h⟩
      · exact ⟨hs,x',mem_cons_of_mem _ hx',h⟩
    · rintro ⟨hs,x',hx',h⟩
      rcases mem_cons.mp hx' with heq | hx'
      · cases heq
        exact .inl ⟨rfl,hs,h⟩
      · exact .inr ⟨hs,x',hx',h⟩

structure Advanced (h : StateHistory) (T m u : ℕ) (C : Finset StateKey) (stats : Stats) :
    Prop where
  tracks : Tracks h.writtenKeys C (fun key => before (h.writes key) u) stats
  indices : ∀ index, (index,()) ∈ stats.staleStateValueIndex.rows ↔
    StaleAt (h.writes index.stateKey) index.version index.staleSinceVersion ∧
      T ≤ index.staleSinceVersion ∧ index.staleSinceVersion < u
  versionData : ∀ version data, (version,data) ∈ stats.versionData.rows ↔
    m ≤ version ∧ version < u ∧ data = .ofUsage (h.usageAt version)

theorem Advanced.putSet {kvs : ValueStateSet} (ha : Advanced h T m u C stats)
    (hu : h[u]? = some kvs) (hC : C ⊆ h.writtenKeys) (hkvs : ∀ kv ∈ kvs.entries, kv.1 ∈ C)
    (hT : T ≤ u) (hm : m ≤ u) : Advanced h T m (u + 1) C (Stats.putSet u stats kvs) := by
  have hwrites : ∀ key x, h.writes key u = some x ↔ (key,x) ∈ kvs.entries := by
    intro key x
    rw [writes_of_get hu,ValueStateSet.get_eq_some]
  have htracks : Tracks h.writtenKeys C (fun key => before (h.writes key) (u + 1))
      (kvs.entries.foldl (Stats.put u) stats) := by
    refine foldl_put_tracks ha.tracks hC hkvs ?_ ?_
    · intro k x hx
      exact before_succ_of_write ((hwrites k x).mpr hx)
    · intro k hk
      refine before_succ_of_none (Option.eq_none_iff_forall_ne_some.mpr fun x hx => hk ?_)
      exact mem_map.mpr ⟨(k,x),(hwrites k x).mp hx,rfl⟩
  refine ⟨⟨htracks.usage,htracks.cached⟩,fun index => ?_,fun version data => ?_⟩
  · rw [Stats.putSet,putVersionData,mem_foldl_put_indices (fun key => before (h.writes key) u)
      kvs.nodup fun kv hkv => ha.tracks.cached kv.1 (hkvs kv hkv),ha.indices]
    constructor
    · rintro (⟨hs,hT,hu⟩ | ⟨hs,x,hx,h⟩)
      · exact ⟨hs,hT,by omega⟩
      · rw [hs]
        exact ⟨⟨x,(hwrites _ x).mpr hx,h⟩,hT,by omega⟩
    · rintro ⟨hs,hT,hu⟩
      rcases Nat.lt_succ_iff_lt_or_eq.mp hu with hu | hu
      · exact .inl ⟨hs,hT,hu⟩
      · rw [hu] at hs
        obtain ⟨x,hx,h⟩ := hs
        exact .inr ⟨hu,x,(hwrites _ x).mp hx,h⟩
  · rw [Stats.putSet,putVersionData,Column.mem_put,foldl_put_versionData,ha.versionData,
      htracks.usage,← usageAt_eq (Finset.Subset.refl _),Prod.mk.injEq]
    simp only [id_eq]
    constructor
    · rintro (⟨rfl,rfl⟩ | ⟨⟨hv,hu,hd⟩,-⟩)
      · exact ⟨hm,by omega,rfl⟩
      · exact ⟨hv,by omega,hd⟩
    · rintro ⟨hv,hu,rfl⟩
      rcases Nat.lt_succ_iff_lt_or_eq.mp hu with hu | rfl
      · exact .inr ⟨⟨hv,hu,rfl⟩,by omega⟩
      · exact .inl ⟨rfl,rfl⟩

theorem get_of_drop_eq_cons {kvs : ValueStateSet} {rest : List ValueStateSet}
    (hsets : h.drop u = kvs :: rest) : h[u]? = some kvs ∧ u < h.length ∧ h.drop (u + 1) = rest := by
  have hget : h[u]? = some kvs := by
    rw [← List.head?_drop,hsets,List.head?_cons]
  refine ⟨hget,(List.getElem?_eq_some_iff.mp hget).1,?_⟩
  rw [← tail_drop,hsets,tail_cons]

theorem Advanced.putSets {sets : List ValueStateSet} (ha : Advanced h T m u C stats)
    (hsets : h.drop u = sets) (hC : C ⊆ h.writtenKeys)
    (hkeys : ∀ key ∈ StateStore.keySet sets, key ∈ C) (hT : T ≤ u) (hm : m ≤ u)
    (hu : u ≤ h.length) : Advanced h T m h.length C (Stats.putSets u stats sets) := by
  induction sets generalizing u stats with
  | nil =>
    obtain rfl : u = h.length := le_antisymm hu (drop_eq_nil_iff.mp hsets)
    exact ha
  | cons kvs rest ih =>
    obtain ⟨hget,hlt,hrest⟩ := get_of_drop_eq_cons hsets
    have hkvs : ∀ kv ∈ kvs.entries, kv.1 ∈ C := fun kv hkv =>
      hkeys kv.1 (mem_flatMap.mpr ⟨kvs,mem_cons_self,mem_map_of_mem hkv⟩)
    refine ih (ha.putSet hget hC hkvs hT hm) hrest (fun key hkey => hkeys key ?_) (by omega)
      (by omega) hlt
    exact mem_append_right _ hkey

end Stats

end Arx.Arxdb
