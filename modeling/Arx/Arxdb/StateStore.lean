import Arx.Movelib.Bytes
import Arx.Movelib.Column
import Arx.Movelib.Except

/-!
# The values of the state store

The keys of the global state as they are laid out in the storage, and the values: the writing of a
chunk of value sets with its usage statistics and stale indices, and the pruning of what is stale.
-/

namespace Arx.Arxdb
open Movelib List

/-- The last version; versions are unsigned words. -/
def maxVersion : ℕ := 2 ^ 64 - 1

abbrev AccountAddress := { bytes : List Byte // bytes.length = 32 }

structure AccessPath where
  address : AccountAddress
  path : List Byte
  deriving DecidableEq

inductive StateKey where
  | accessPath (path : AccessPath)
  | tableItem (handle : AccountAddress) (key : List Byte)
  | raw (bytes : List Byte)
  deriving DecidableEq

structure StateValue where
  bytes : List Byte
  deriving DecidableEq

def uleb128 (n : ℕ) : List Byte :=
  if n < 128 then [Fin.ofNat 256 n] else Fin.ofNat 256 (128 + n % 128) :: uleb128 (n / 128)

def AccessPath.toBytes (p : AccessPath) : List Byte :=
  p.address.1 ++ (uleb128 p.path.length ++ p.path)

namespace StateKey

def encode : StateKey → List Byte
  | accessPath path => 0 :: path.toBytes
  | tableItem handle key => 1 :: (handle.1 ++ key)
  | raw bytes => 255 :: bytes

def size : StateKey → ℕ
  | accessPath path => path.address.1.length + path.path.length
  | tableItem handle key => handle.1.length + key.length
  | raw bytes => bytes.length

end StateKey

def StateValue.size (value : StateValue) : ℕ := value.bytes.length

theorem length_uleb128_mono {m n : ℕ} (h : m ≤ n) :
    (uleb128 m).length ≤ (uleb128 n).length := by
  induction n using Nat.strong_induction_on generalizing m with
  | _ n ih =>
    rw [uleb128.eq_def m,uleb128.eq_def n]
    by_cases hm : m < 128
    · split_ifs with hn
      · rfl
      · rw [length_cons,length_cons,length_nil]
        omega
    · rw [if_neg hm,if_neg (by omega),length_cons]
      exact Nat.succ_le_succ (ih (n / 128) (by omega) (Nat.div_le_div_right h))

/-- The total length determines the length of the path, so the bytes determine the path. -/
theorem AccessPath.toBytes_injective : Function.Injective AccessPath.toBytes := by
  rintro ⟨a,p⟩ ⟨b,q⟩ h
  obtain ⟨hab,hpq⟩ := append_inj h (a.2.trans b.2.symm)
  obtain rfl : a = b := Subtype.ext hab
  have hlen : p.length = q.length := by
    have htotal := congrArg List.length hpq
    simp only [length_append] at htotal
    rcases lt_trichotomy p.length q.length with hlt | heq | hlt
    · have := length_uleb128_mono hlt.le
      omega
    · exact heq
    · have := length_uleb128_mono hlt.le
      omega
  obtain rfl : p = q := (append_inj' hpq hlen).2
  rfl

theorem StateKey.encode_injective : Function.Injective StateKey.encode := by
  intro k k' h
  cases k with
  | accessPath p =>
    cases k' with
    | accessPath p' => rw [AccessPath.toBytes_injective (List.cons.inj h).2]
    | tableItem handle' key' => exact absurd (List.cons.inj h).1 (by decide)
    | raw bytes' => exact absurd (List.cons.inj h).1 (by decide)
  | tableItem handle key =>
    cases k' with
    | accessPath p' => exact absurd (List.cons.inj h).1 (by decide)
    | tableItem handle' key' =>
      obtain ⟨hh,rfl⟩ := append_inj (List.cons.inj h).2 (handle.2.trans handle'.2.symm)
      obtain rfl : handle = handle' := Subtype.ext hh
      rfl
    | raw bytes' => exact absurd (List.cons.inj h).1 (by decide)
  | raw bytes =>
    cases k' with
    | accessPath p' => exact absurd (List.cons.inj h).1 (by decide)
    | tableItem handle' key' => exact absurd (List.cons.inj h).1 (by decide)
    | raw bytes' => rw [(List.cons.inj h).2]

/-- The row of a state value: the newest version of a key comes first. -/
def stateValueRow (row : StateKey × ℕ) : List Byte :=
  row.1.encode ++ beBytes 8 (maxVersion - row.2)

/-- `state_key_extractor`: the row without the bytes of the version. -/
def stateKeyExtractor (bytes : List Byte) : List Byte := bytes.take (bytes.length - 8)

theorem stateKeyExtractor_row (row : StateKey × ℕ) :
    stateKeyExtractor (stateValueRow row) = row.1.encode := by
  rw [stateKeyExtractor,stateValueRow,length_append,length_beBytes,Nat.add_sub_cancel,
    take_left]

section

variable {v v' : ℕ} (hv : v ≤ maxVersion) (hv' : v' ≤ maxVersion)

include hv hv'

theorem stateValueRow_lt {k : StateKey} : stateValueRow (k,v) < stateValueRow (k,v') ↔ v' < v := by
  have hmax : maxVersion < 256 ^ 8 := by norm_num [maxVersion]
  rw [stateValueRow,stateValueRow,append_lt_append_iff,
    beBytes_lt_beBytes (lt_of_le_of_lt (Nat.sub_le _ _) hmax)
      (lt_of_le_of_lt (Nat.sub_le _ _) hmax)]
  omega

theorem stateValueRow_le {k : StateKey} : stateValueRow (k,v) ≤ stateValueRow (k,v') ↔ v' ≤ v := by
  rw [← not_lt,stateValueRow_lt hv' hv,not_lt]

theorem stateValueRow_inj {k k' : StateKey} (h : stateValueRow (k,v) = stateValueRow (k',v')) :
    k = k' ∧ v = v' := by
  have hk : k = k' := by
    have := congrArg stateKeyExtractor h
    rw [stateKeyExtractor_row,stateKeyExtractor_row] at this
    exact StateKey.encode_injective this
  subst hk
  refine ⟨rfl,le_antisymm ?_ ?_⟩
  · exact (stateValueRow_le hv' hv).mp h.symm.le
  · exact (stateValueRow_le hv hv').mp h.le

end

inductive StateStorageUsage where
  | tracked (items bytes : ℕ)
  | untracked
  deriving DecidableEq

namespace StateStorageUsage

def zero : StateStorageUsage := tracked 0 0

def items : StateStorageUsage → ℕ
  | tracked items _ => items
  | untracked => 0

def bytes : StateStorageUsage → ℕ
  | tracked _ bytes => bytes
  | untracked => 0

def addItem (usage : StateStorageUsage) (bytesDelta : ℕ) : StateStorageUsage :=
  match usage with
  | tracked items bytes => tracked (items + 1) (bytes + bytesDelta)
  | untracked => untracked

def removeItem (usage : StateStorageUsage) (bytesDelta : ℕ) : StateStorageUsage :=
  match usage with
  | tracked items bytes => tracked (items - 1) (bytes - bytesDelta)
  | untracked => untracked

end StateStorageUsage

structure VersionData where
  stateItems : ℕ
  totalStateBytes : ℕ
  deriving DecidableEq

namespace VersionData

def ofUsage (usage : StateStorageUsage) : VersionData := ⟨usage.items,usage.bytes⟩

def getStateStorageUsage (data : VersionData) : StateStorageUsage :=
  .tracked data.stateItems data.totalStateBytes

end VersionData

structure StaleStateValueIndex where
  staleSinceVersion : ℕ
  version : ℕ
  stateKey : StateKey
  deriving DecidableEq

/-- The versions stand first in the row, in big endian, and are thus compared as numbers. -/
def StaleStateValueIndex.row (index : StaleStateValueIndex) : ℕ ×ₗ ℕ ×ₗ List Byte :=
  toLex (index.staleSinceVersion,toLex (index.version,index.stateKey.encode))

/-- The writes of one version; a hash map has one entry for a key. -/
structure ValueStateSet where
  entries : List (StateKey × Option StateValue)
  nodup : (entries.map Prod.fst).Nodup
  deriving DecidableEq

structure StateStore where
  stateValue : Column stateValueRow (Option StateValue)
  staleStateValueIndex : Column StaleStateValueIndex.row Unit
  versionData : Column (id : ℕ → ℕ) VersionData
  deriving DecidableEq

inductive StoreError where
  /-- `NotFound`, "VersionData at {}". -/
  | versionDataNotFound (version : ℕ)
  /-- "Calculated state db usage not expected. expected: {:?}, calculated: {:?}". -/
  | usageNotExpected (expected calculated : StateStorageUsage)
  /-- The sum of a version and an index is no word. -/
  | versionOverflow
  deriving DecidableEq

namespace StateStore

def empty : StateStore := ⟨.empty,.empty,.empty⟩

/-- The iterator ends where the bytes of the state key change. -/
def getStateValueWithVersionByVersion (store : StateStore) (key : StateKey) (version : ℕ) :
    Option (ℕ × StateValue) :=
  let start := stateValueRow (key,version)
  match (store.stateValue.seek start).head? with
  | some (row,valueOpt) =>
    if stateKeyExtractor (stateValueRow row) = stateKeyExtractor start
    then valueOpt.map fun value => (row.2,value)
    else none
  | none => none

def getUsage (store : StateStore) : Option ℕ → Except StoreError StateStorageUsage
  | none => .ok .zero
  | some version =>
    match store.versionData.get version with
    | some data => .ok data.getStateStorageUsage
    | none => .error (.versionDataNotFound version)

end StateStore

structure Stats where
  usage : StateStorageUsage
  cache : StateKey → Option (ℕ × Option StateValue)
  staleStateValueIndex : Column StaleStateValueIndex.row Unit
  versionData : Column (id : ℕ → ℕ) VersionData

namespace Stats

variable (version : ℕ) (stats : Stats) (key : StateKey)

def cached : Option (ℕ × StateValue) :=
  (stats.cache key).bind fun old => old.2.map fun value => (old.1,value)

/-- Counts a new value; the tombstone of a deletion is stale at once. -/
def putNew : Option StateValue → Stats
  | some value => { stats with usage := stats.usage.addItem (key.size + value.size) }
  | none =>
    { stats with
      staleStateValueIndex := stats.staleStateValueIndex.put ⟨version,version,key⟩ () }

/-- Uncounts the value that was there, which is stale from this version on. -/
def removeOld : Option (ℕ × StateValue) → Stats
  | some (oldVersion,oldValue) =>
    { stats with
      usage := stats.usage.removeItem (key.size + oldValue.size)
      staleStateValueIndex := stats.staleStateValueIndex.put ⟨version,oldVersion,key⟩ () }
  | none => stats

def insertCache (value : Option StateValue) : Stats :=
  { stats with cache := Function.update stats.cache key (some (version,value)) }

def put (kv : StateKey × Option StateValue) : Stats :=
  removeOld version (insertCache version (putNew version stats kv.1 kv.2) kv.1 kv.2) kv.1
    (stats.cached kv.1)

def putVersionData : Stats :=
  { stats with versionData := stats.versionData.put version (.ofUsage stats.usage) }

def putSet (kvs : ValueStateSet) : Stats :=
  putVersionData version (kvs.entries.foldl (put version) stats)

def putSets : ℕ → Stats → List ValueStateSet → Stats
  | _, stats, [] => stats
  | version, stats, kvs :: rest => putSets (version + 1) (putSet version stats kvs) rest

end Stats

namespace StateStore

variable (store : StateStore) (valueStateSets : List ValueStateSet)

def keySet : List StateKey :=
  valueStateSets.flatMap fun kvs => kvs.entries.map Prod.fst

def readCache (baseVersion : Option ℕ) : StateKey → Option (ℕ × Option StateValue) := fun key =>
  match baseVersion with
  | none => none
  | some baseVersion =>
    if key ∈ keySet valueStateSets then
      match store.getStateValueWithVersionByVersion key baseVersion with
      | some (version,value) => some (version,some value)
      | none => some (baseVersion,none)
    else none

def checkedPred : ℕ → Option ℕ
  | 0 => none
  | version + 1 => some version

def putStatsAndIndices (firstVersion : ℕ) (expectedUsage : StateStorageUsage) :
    Except StoreError StateStore := do
  let baseVersion := checkedPred firstVersion
  let usage ← store.getUsage baseVersion
  let stats := Stats.putSets firstVersion
    ⟨usage,store.readCache valueStateSets baseVersion,store.staleStateValueIndex,store.versionData⟩
    valueStateSets
  check (expectedUsage = .untracked ∨ expectedUsage = stats.usage)
    (.usageNotExpected expectedUsage stats.usage)
  pure { store with
    staleStateValueIndex := stats.staleStateValueIndex
    versionData := stats.versionData }

def putRows : ℕ → Column stateValueRow (Option StateValue) → List ValueStateSet →
    Column stateValueRow (Option StateValue)
  | _, rows, [] => rows
  | version, rows, kvs :: rest =>
    putRows (version + 1) (kvs.entries.foldl (fun c kv => c.put (kv.1,version) kv.2) rows) rest

def putValueSets (firstVersion : ℕ) (expectedUsage : StateStorageUsage) :
    Except StoreError StateStore := do
  check (firstVersion + valueStateSets.length ≤ maxVersion + 1) .versionOverflow
  let store' ← store.putStatsAndIndices valueStateSets firstVersion expectedUsage
  pure { store' with stateValue := putRows firstVersion store'.stateValue valueStateSets }

def staleIndices (beginVersion endVersion : ℕ) : List StaleStateValueIndex :=
  ((store.staleStateValueIndex.seek (toLex (beginVersion,toLex (0,[])))).takeWhile fun r =>
    ¬ r.1.staleSinceVersion > endVersion).map Prod.fst

def pruneStateValues (beginVersion endVersion : ℕ) : StateStore where
  stateValue := (store.staleIndices beginVersion endVersion).foldl
    (fun c index => c.delete (index.stateKey,index.version)) store.stateValue
  staleStateValueIndex := (store.staleIndices beginVersion endVersion).foldl Column.delete
    store.staleStateValueIndex
  versionData := (List.range' beginVersion (endVersion - beginVersion)).foldl Column.delete
    store.versionData

end StateStore

/-- `LedgerPruner`, as far as it prunes state values, with the store that it prunes; the progress is
the row `LedgerPrunerProgress` of the metadata, and the next version that of the next chunk. -/
structure Ledger where
  store : StateStore
  nextVersion : ℕ
  ledgerPrunerProgress : Option ℕ
  targetVersion : ℕ
  minReadableVersion : ℕ
  deriving DecidableEq

namespace Ledger

def init : Ledger := ⟨.empty,0,none,0,0⟩

def isPruningPending (ledger : Ledger) : Prop := ledger.targetVersion > ledger.minReadableVersion

instance (ledger : Ledger) : Decidable ledger.isPruningPending :=
  inferInstanceAs (Decidable (ledger.targetVersion > ledger.minReadableVersion))

def getCurrentBatchTarget (ledger : Ledger) (maxVersions : ℕ) : ℕ :=
  min (ledger.minReadableVersion + maxVersions) ledger.targetVersion

def prune (ledger : Ledger) (maxVersions : ℕ) : Ledger :=
  if ledger.isPruningPending then
    let current := ledger.getCurrentBatchTarget maxVersions
    { ledger with
      store := ledger.store.pruneStateValues ledger.minReadableVersion current
      ledgerPrunerProgress := some current
      minReadableVersion := current }
  else ledger

inductive Op where
  | putValueSets (valueStateSets : List ValueStateSet) (expectedUsage : StateStorageUsage)
  | setTargetVersion (targetVersion : ℕ)
  | prune (maxVersions : ℕ)
  deriving DecidableEq

def step (ledger : Ledger) : Op → Except StoreError Ledger
  | .putValueSets valueStateSets expectedUsage => do
    let store ← ledger.store.putValueSets valueStateSets ledger.nextVersion expectedUsage
    pure { ledger with store := store, nextVersion := ledger.nextVersion + valueStateSets.length }
  | .setTargetVersion targetVersion => pure { ledger with targetVersion := targetVersion }
  | .prune maxVersions => pure (ledger.prune maxVersions)

end Ledger

end Arx.Arxdb
