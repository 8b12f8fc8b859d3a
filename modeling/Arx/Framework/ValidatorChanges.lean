import Arx.Framework.Validator
import Arx.Movelib.Roster

/-!
# The changes of the validator module

A call is a chain of elementary changes of the storage and of the coins that the caller has in
hand, so that a coin which leaves one place is seen to arrive in another.
-/

namespace Arx
open Movelib Function

/-- The moves of the coins of a lock at the time `now`. -/
inductive LockStep (now : ℕ) (l : StakeLock) : StakeLock → Prop
  | addActive (n : ℕ) : LockStep now l { l with active := l.active + n }
  | addPendingActive (n : ℕ) : LockStep now l { l with pendingActive := l.pendingActive + n }
  | addPendingInactive (n : ℕ) : LockStep now l { l with pendingInactive := l.pendingInactive + n }
  | activate : LockStep now l { l with active := l.active + l.pendingActive, pendingActive := 0 }
  | unlock (n : ℕ) (h : n ≤ l.active) :
      LockStep now l { l with active := l.active - n, pendingInactive := l.pendingInactive + n }
  | reactivate (n : ℕ) (h : n ≤ l.pendingInactive) :
      LockStep now l { l with active := l.active + n, pendingInactive := l.pendingInactive - n }
  | release (h : l.lockedUntilSecs ≤ now) :
      LockStep now l { l with inactive := l.inactive + l.pendingInactive, pendingInactive := 0 }
  | take (n : ℕ) (h : n ≤ l.inactive) : LockStep now l { l with inactive := l.inactive - n }
  | extend (secs : ℕ) (h : l.lockedUntilSecs ≤ secs) :
      LockStep now l { l with lockedUntilSecs := secs }
  | hand (operator vault : Address) :
      LockStep now l { l with operatorAddress := operator, vaultAddress := vault }

abbrev LockSteps (now : ℕ) : StakeLock → StakeLock → Prop := Relation.ReflTransGen (LockStep now)

def StakeLock.value (l : StakeLock) : ℕ :=
  l.active + l.inactive + l.pendingActive + l.pendingInactive

def StakeLock.nonInactive (l : StakeLock) : ℕ := l.active + l.pendingActive + l.pendingInactive

inductive QuietChange : ValidatorStorage × ℕ → ValidatorStorage × ℕ → Prop
  /-- What holds no coins and is neither the set nor a parameter. -/
  | registry (s : ValidatorStorage) (n : ℕ) (configs : Address → Option ValidatorConfig)
      (performance : List IndividualValidatorPerformance) (allowed : Option (List Address))
      (microseconds : ℕ) :
      QuietChange (s, n) ({ s with configs, performance, allowed, microseconds }, n)
  | ownerCap (s : ValidatorStorage) (n : ℕ) (a : Address) (cap : Option Address) :
      QuietChange (s, n) ({ s with ownerCaps := update s.ownerCaps a cap }, n)
  | publish (s : ValidatorStorage) (n : ℕ) (a : Address) (h : s.stakeLocks a = none) :
      QuietChange (s, n) (s.putLock a (.new a), n)
  | move (s : ValidatorStorage) (n : ℕ) (a : Address) (l l' : StakeLock)
      (h : s.stakeLocks a = some l) (hv : l'.value = l.value)
      (hle : l'.nonInactive ≤ l.nonInactive) : QuietChange (s, n) (s.putLock a l', n)
  | unstake (s : ValidatorStorage) (n : ℕ) (a : Address) (l l' : StakeLock) (m : ℕ)
      (h : s.stakeLocks a = some l) (hv : l'.value + m = l.value)
      (hle : l'.nonInactive ≤ l.nonInactive) : QuietChange (s, n) (s.putLock a l', n + m)
  | withdraw (s : ValidatorStorage) (n : ℕ) (a : Address) (store : CoinStore) (m : ℕ)
      (h : s.stores a = some store) (hle : m ≤ store.coin) :
      QuietChange (s, n) ({ s with
        stores := update s.stores a (some { store with coin := store.coin - m }) }, n + m)
  | deposit (s : ValidatorStorage) (n : ℕ) (a : Address) (store : CoinStore) (m : ℕ)
      (h : s.stores a = some store) :
      QuietChange (s, n + m) ({ s with
        stores := update s.stores a (some { store with coin := store.coin + m }) }, n)

inductive Change : ValidatorStorage × ℕ → ValidatorStorage × ℕ → Prop
  | quiet {x y : ValidatorStorage × ℕ} (h : QuietChange x y) : Change x y
  | stake (s : ValidatorStorage) (n : ℕ) (a : Address) (l l' : StakeLock) (m : ℕ)
      (h : s.stakeLocks a = some l) (hv : l'.value = l.value + m) :
      Change (s, n + m) (s.putLock a l', n)
  | mint (s : ValidatorStorage) (n m : ℕ) :
      Change (s, n) ({ s with supply := s.supply + m }, n + m)
  | collect (s : ValidatorStorage) (n : ℕ) (a : Address) (table : Address → Option ℕ) (m : ℕ)
      (h : s.fees = some table) (ha : table a = some m) :
      Change (s, n) ({ s with fees := some (update table a none) }, n + m)
  | set (s : ValidatorStorage) (n : ℕ) (set : ValidatorSet) : Change (s, n) ({ s with set }, n)
  | config (s : ValidatorStorage) (n : ℕ) (config : ValidationConfig) :
      Change (s, n) ({ s with config }, n)
  | flag (s : ValidatorStorage) (n : ℕ) (collectFees : Bool) :
      Change (s, n) ({ s with collectFees }, n)
  | openFees (s : ValidatorStorage) (n : ℕ) (h : s.fees = none) :
      Change (s, n) ({ s with fees := some fun _ => none }, n)
  | credit (s : ValidatorStorage) (n : ℕ) (a : Address) (table : Address → Option ℕ) (m : ℕ)
      (h : s.fees = some table) :
      Change (s, n + m) ({ s with
        fees := some (update table a (some ((table a).getD 0 + m))) }, n)

abbrev QuietChanges := Relation.ReflTransGen QuietChange

abbrev Changes := Relation.ReflTransGen Change

theorem QuietChanges.fees {x y : ValidatorStorage × ℕ} (h : QuietChanges x y) :
    y.1.fees = x.1.fees ∧ y.1.collectFees = x.1.collectFees := by
  induction h with
  | refl => exact ⟨rfl,rfl⟩
  | tail _ hc ih => cases hc <;> exact ih

theorem QuietChanges.changes {x y : ValidatorStorage × ℕ} (h : QuietChanges x y) : Changes x y :=
  Relation.ReflTransGen.mono (fun _ _ => Change.quiet) x y h

namespace ValidatorStorage

variable {s t u : ValidatorStorage} {a : Address} {l l' : StakeLock} {k : ℕ}

def indexOf (s : ValidatorStorage) (a : Address) : Option ℕ :=
  if (s.stakeLocks a).isSome then (s.configs a).map ValidatorConfig.validatorIndex else none

/-- The validator set as a roster; its slots are the performance scores. -/
def roster (s : ValidatorStorage) : Roster Address where
  active := s.set.activeValidators.map ValidatorInfo.address
  leaving := s.set.pendingInactive.map ValidatorInfo.address
  joining := s.set.pendingActive.map ValidatorInfo.address
  index := s.indexOf
  size := s.performance.length

structure Follows (s t : ValidatorStorage) : Prop where
  time : t.microseconds = s.microseconds
  locks : ∀ a l, s.stakeLocks a = some l →
    ∃ l', t.stakeLocks a = some l' ∧ LockSteps s.nowSeconds l l'
  roster : Relation.ReflTransGen Roster.Step s.roster t.roster

namespace Follows

theorem nowSeconds (h : Follows s t) : t.nowSeconds = s.nowSeconds := by
  rw [ValidatorStorage.nowSeconds,ValidatorStorage.nowSeconds,h.time]

theorem trans (h : Follows s t) (h' : Follows t u) : Follows s u := by
  refine ⟨h'.time.trans h.time,?_,h.roster.trans h'.roster⟩
  intro a l hl
  obtain ⟨l',hl',hs⟩ := h.locks a l hl
  obtain ⟨l'',hl'',hs'⟩ := h'.locks a l' hl'
  rw [h.nowSeconds] at hs'
  exact ⟨l'',hl'',hs.trans hs'⟩

theorem of_locks (ht : t.microseconds = s.microseconds) (hl : t.stakeLocks = s.stakeLocks)
    (hr : Relation.ReflTransGen Roster.Step s.roster t.roster) : Follows s t :=
  ⟨ht,fun _ l h => ⟨l,hl ▸ h,.refl⟩,hr⟩

theorem of_roster (ht : t.microseconds = s.microseconds) (hl : t.stakeLocks = s.stakeLocks)
    (hr : t.roster = s.roster) : Follows s t := of_locks ht hl (hr ▸ .refl)

theorem refl (s : ValidatorStorage) : Follows s s := of_locks rfl rfl .refl

end Follows

theorem indexOf_putLock_of_ne {b : Address} (hb : b ≠ a) :
    (s.putLock a l).indexOf b = s.indexOf b := by
  simp [indexOf,putLock,update_of_ne hb]

theorem indexOf_putConfig_of_ne {b : Address} {config : ValidatorConfig} (hb : b ≠ a) :
    (s.putConfig a config).indexOf b = s.indexOf b := by
  simp [indexOf,putConfig,update_of_ne hb]

theorem roster_eq (hr : t.roster = { s.roster with index := t.indexOf })
    (ha : t.indexOf a = s.indexOf a) (hother : ∀ b, b ≠ a → t.indexOf b = s.indexOf b) :
    t.roster = s.roster := by
  have hindex : t.indexOf = s.indexOf := by
    funext b
    by_cases hb : b = a
    · exact hb ▸ ha
    · exact hother b hb
  rw [hr,hindex]
  rfl

theorem roster_register (hr : t.roster = { s.roster with index := t.indexOf })
    (hold : s.indexOf a = none) (hother : ∀ b, b ≠ a → t.indexOf b = s.indexOf b) :
    Relation.ReflTransGen Roster.Step s.roster t.roster := by
  cases hnew : t.indexOf a with
  | none => rw [roster_eq hr (hnew.trans hold.symm) hother]
  | some i =>
    have hindex : t.indexOf = update s.indexOf a (some i) := by
      funext b
      by_cases hb : b = a
      · rw [hb,update_self,hnew]
      · rw [update_of_ne hb,hother b hb]
    rw [hr,hindex]
    exact .single (.register s.roster a i hold)

theorem roster_putLock (hl : s.stakeLocks a = some l) : (s.putLock a l').roster = s.roster :=
  roster_eq rfl (by simp [indexOf,putLock,hl]) fun _ hb => indexOf_putLock_of_ne hb

theorem roster_putConfig {config config' : ValidatorConfig} (hc : s.configs a = some config)
    (hi : config'.validatorIndex = config.validatorIndex) :
    (s.putConfig a config').roster = s.roster :=
  roster_eq rfl (by simp [indexOf,putConfig,hc,hi]) fun _ hb => indexOf_putConfig_of_ne hb

theorem follows_putLock (hl : s.stakeLocks a = some l) (hs : LockSteps s.nowSeconds l l') :
    Follows s (s.putLock a l') := by
  refine ⟨rfl,?_,roster_putLock hl ▸ .refl⟩
  intro b m hm
  by_cases hb : b = a
  · subst hb
    cases hl.symm.trans hm
    exact ⟨l',update_self ..,hs⟩
  · exact ⟨m,(update_of_ne hb ..).trans hm,.refl⟩

/-- What a quiet call does: it follows, and `k` more coins are in the hands of the caller. -/
structure Quiet (s t : ValidatorStorage) (k : ℕ) : Prop where
  follows : Follows s t
  changes : ∀ n, QuietChanges (s, n) (t, n + k)

namespace Quiet

theorem refl (s : ValidatorStorage) : Quiet s s 0 := ⟨.refl s,fun _ => .refl⟩

theorem trans (h : Quiet s t k) (h' : Quiet t u 0) : Quiet s u k :=
  ⟨h.follows.trans h'.follows,fun n => (h.changes n).trans (h'.changes (n + k))⟩

theorem of_roster (ht : t.microseconds = s.microseconds) (hl : t.stakeLocks = s.stakeLocks)
    (hr : t.roster = s.roster) (hq : ∀ n, QuietChange (s, n) (t, n + k)) : Quiet s t k :=
  ⟨.of_roster ht hl hr,fun n => .single (hq n)⟩

theorem putLock (hl : s.stakeLocks a = some l) (hs : LockSteps s.nowSeconds l l')
    (hv : l'.value = l.value) (hle : l'.nonInactive ≤ l.nonInactive) :
    Quiet s (s.putLock a l') 0 :=
  ⟨follows_putLock hl hs,fun n => .single (.move s n a l l' hl hv hle)⟩

end Quiet

end ValidatorStorage

end Arx
