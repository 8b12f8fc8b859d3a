import Arx.Framework.Solaris
import Arx.Movelib.Run
import Arx.Movelib.Totals
import Arx.Movelib.Vector

/-!
# `arx::subsidialis`

The set of domini that share the seignorage, and the two passes over it at every epoch change.
`initialize` publishes the resource, so the state holds it unconditionally.

A transaction moves the solarii by a `SolarisStorage.Trace`, a sequence of moves of single solarii,
and changes the three lists in one of three ways.
-/

namespace Arx
open Movelib

structure Subsidialis where
  active : List Address
  pendingInactive : List Address
  pendingActive : List Address
  totalActivePower : ℕ
  totalJoiningPower : ℕ
  deriving DecidableEq

/-- `DOMINUS_STATUS_*`. -/
inductive DominusStatus
  | pendingActive
  | active
  | pendingInactive
  | inactive
  deriving DecidableEq

/-- `epoch` is the `u64` counter of `reconfiguration::Configuration`. -/
structure State where
  solaris : SolarisStorage
  subsidialis : Subsidialis
  epoch : ℕ

namespace Subsidialis

def EDOMINUS_ALREADY_ACTIVE : ℕ := 2
def EDOMINUS_ALREADY_INACTIVE : ℕ := 3
def ESOLARIS_DOES_NOT_EXIST : ℕ := 4

def findDominus (v : List Address) (address : Address) : Option ℕ :=
  v.findIdx? fun x => x = address

def getDominusState (sub : Subsidialis) (lockAddress : Address) : DominusStatus :=
  if (findDominus sub.pendingActive lockAddress).isSome then .pendingActive
  else if (findDominus sub.active lockAddress).isSome then .active
  else if (findDominus sub.pendingInactive lockAddress).isSome then .pendingInactive
  else .inactive

end Subsidialis

namespace State
open Subsidialis

def genesis (stores : CoinType → Address → Option CoinStore) : State where
  solaris :=
    { solarii := fun _ _ => none
      formae := fun
        | .arxCoin => some ⟨1,1⟩
        | .lpArxXusdStable => some ⟨1,1⟩
        | .other _ => none
      stores
      luxSupply := 0
      noxSupply := 0 }
  subsidialis := ⟨[],[],[],0,0⟩
  epoch := 0

variable (s : State)

variable (c : CoinType) (owner : Address) (amount : ℕ)

/-- The first statement of `join`: a missing solaris is created. -/
def openSolaris : Result SolarisStorage :=
  if (s.solaris.solarii c owner).isSome then .ok s.solaris
  else s.solaris.initializeOwner c owner

def join : Result State := do
  let solaris ← s.openSolaris c owner
  ensure (s.subsidialis.getDominusState owner = .inactive)
    (Error.invalidState EDOMINUS_ALREADY_ACTIVE)
  pure { s with
    solaris
    subsidialis := { s.subsidialis with pendingActive := s.subsidialis.pendingActive ++ [owner] } }

/-- `leave` queues the dominus without taking it out of `active`. -/
def leave : Result State := do
  ensure ((s.solaris.solarii c owner).isSome = true) (Error.notFound Solaris.ESOLARIS_NOT_FOUND)
  ensure (s.subsidialis.getDominusState owner = .active)
    (Error.invalidState EDOMINUS_ALREADY_INACTIVE)
  pure { s with
    subsidialis :=
      { s.subsidialis with pendingInactive := s.subsidialis.pendingInactive ++ [owner] } }

def isActiveDominus (dominus : Address) : Result Bool := do
  ensure ((s.solaris.solarii .arxCoin dominus).isSome = true ∨
      (s.solaris.solarii .lpArxXusdStable dominus).isSome = true)
    (Error.invalidArgument ESOLARIS_DOES_NOT_EXIST)
  let status := s.subsidialis.getDominusState dominus
  pure (decide (status = .active ∨ status = .pendingInactive))

/-- The branch of `add_coins`: seignorage of an active dominus waits for the next epoch. -/
def addSeignorage (isActive : Bool) (c : CoinType) (owner : Address) (amount : ℕ) :
    Result SolarisStorage :=
  if isActive then s.solaris.addPendingCoins c owner amount
  else s.solaris.addActiveCoins c owner amount

def increaseJoiningPower : Result Subsidialis :=
  let sub := s.subsidialis
  if (findDominus sub.active owner).isSome ∨ (findDominus sub.pendingActive owner).isSome then do
    let totalJoiningPower ← addChecked 128 sub.totalJoiningPower amount
    pure { sub with totalJoiningPower }
  else .ok sub

def addCoins : Result State := do
  ensure ((s.solaris.solarii c owner).isSome = true) (Error.notFound Solaris.ESOLARIS_NOT_FOUND)
  let isActive ← s.isActiveDominus owner
  let solaris ← s.addSeignorage isActive c owner amount
  let subsidialis ← s.increaseJoiningPower owner amount
  pure { s with solaris, subsidialis }

def deactivateLeavers (c : CoinType) :
    SolarisStorage → ℕ → List Address → Result (SolarisStorage × ℕ)
  | st, power, [] => .ok (st, power)
  | st, power, a :: leavers => do
    let st ← st.onSubsidialisDeactivate c a
    let power ← addChecked 64 power (st.getActiveLuxValue c a)
    deactivateLeavers c st power leavers

def updateMembers (c : CoinType) : SolarisStorage → List Address → Result SolarisStorage
  | st, [] => .ok st
  | st, a :: members => do
    let st ← st.onSubsidialisUpdate c a
    updateMembers c st members

def sumLuxPower (st : SolarisStorage) (members : List Address) : Result ℕ :=
  sumChecked 64 (st.getActiveLuxValue c) 0 members

def onNewEpoch : Result State := do
  let sub := s.subsidialis
  let st ← updateMembers c s.solaris sub.active
  let active := appendNondestructive sub.active sub.pendingActive
  -- The leavers are still members, so their pending lux is active by now.
  let (st, leavingPower) ← deactivateLeavers c st 0 sub.pendingInactive
  let total ← subChecked sub.totalActivePower leavingPower
  let luxPower ← sumLuxPower c st active
  let totalActivePower ← addChecked 128 total luxPower
  pure { s with
    solaris := st
    subsidialis := { sub with
      active
      pendingActive := []
      pendingInactive := []
      totalActivePower } }

def epochPasses : Result State := do
  let s ← s.onNewEpoch .arxCoin
  s.onNewEpoch .lpArxXusdStable

def reconfigure : Result State := do
  let s ← s.epochPasses
  let epoch ← addChecked 64 s.epoch 1
  pure { s with epoch }

/-- `forma::register` for the governance account; `move_to` aborts on a second forma. -/
def registerForma (forma : Forma) : Result State := do
  ensure ((s.solaris.formae c).isNone = true) .resourceAlreadyExists
  pure { s with
    solaris := { s.solaris with formae := Function.update s.solaris.formae c (some forma) } }

end State

/-- The transactions that reach the two modules. `wallets` is any change of the
coin stores by other modules. -/
inductive Op
  | join (c : CoinType) (owner : Address)
  | leave (c : CoinType) (owner : Address)
  | addCoins (c : CoinType) (owner : Address) (amount : ℕ)
  | removeCoins (c : CoinType) (owner : Address) (amount : ℕ)
  | reactivateCoins (c : CoinType) (owner : Address) (amount : ℕ)
  | withdrawCoins (c : CoinType) (owner : Address) (amount : ℕ)
  | initializeAllocation (c : CoinType) (owner : Address) (amount : ℕ)
  | registerForma (c : CoinType) (forma : Forma)
  | wallets (stores : CoinType → Address → Option CoinStore)
  | reconfigure

namespace State

def step (s : State) : Op → Result State
  | .join c a => s.join c a
  | .leave c a => s.leave c a
  | .addCoins c a n => s.addCoins c a n
  | .removeCoins c a n => do
    let solaris ← s.solaris.removeCoins c a n
    pure { s with solaris }
  | .reactivateCoins c a n => do
    let solaris ← s.solaris.reactivateCoins c a n
    pure { s with solaris }
  | .withdrawCoins c a n => do
    let solaris ← s.solaris.withdrawCoins c a n
    pure { s with solaris }
  | .initializeAllocation c a n => do
    let solaris ← s.solaris.initializeAllocation c a n
    pure { s with solaris }
  | .registerForma c φ => s.registerForma c φ
  | .wallets stores => .ok { s with solaris := { s.solaris with stores } }
  | .reconfigure => s.reconfigure

end State

namespace SolarisStorage

/-- A sequence of moves of single solarii; `R` restricts the removals. -/
inductive Trace (R : CoinType → Address → Solaris → ℕ → Prop) (st : SolarisStorage) :
    SolarisStorage → Prop
  | refl : Trace R st st
  | wallets {st' st'' : SolarisStorage} (h : Trace R st st') (hs : st''.solarii = st'.solarii)
      (hf : st''.formae = st'.formae) (hl : st''.luxSupply = st'.luxSupply)
      (hn : st''.noxSupply = st'.noxSupply) : Trace R st st''
  | create {st' st'' : SolarisStorage} {c : CoinType} {a : Address} (h : Trace R st st')
      (hc : Change st' st'' c a none Solaris.empty) : Trace R st st''
  | move {st' st'' : SolarisStorage} {c : CoinType} {a : Address} {sol sol' : Solaris}
      (h : Trace R st st') (hs : Solaris.Step (st'.formae c) (R c a) sol sol')
      (hc : Change st' st'' c a (some sol) sol') : Trace R st st''

variable {R : CoinType → Address → Solaris → ℕ → Prop} {st st' st'' : SolarisStorage}
  {c : CoinType} {a : Address}

theorem Trace.trans (h : Trace R st st') (h' : Trace R st' st'') : Trace R st st'' := by
  induction h' with
  | refl => exact h
  | wallets _ hs hf hl hn ih => exact .wallets ih hs hf hl hn
  | create _ hc ih => exact .create ih hc
  | move _ hs hc ih => exact .move ih hs hc

theorem Trace.formae_eq (h : Trace R st st') : st'.formae = st.formae := by
  induction h with
  | refl => rfl
  | wallets _ _ hf _ _ ih => exact hf.trans ih
  | create _ hc ih | move _ _ hc ih => exact hc.formae.trans ih

theorem Trace.evolves (h : Trace R st st') (c : CoinType) (a : Address) :
    Solaris.Evolves (st.formae c) (R c a) (st.solarii c a) (st'.solarii c a) := by
  induction h with
  | refl => exact .refl _
  | wallets _ hs _ _ _ ih => rwa [hs]
  | @create t t' d b _ hc ih =>
    by_cases hk : c ≠ d ∨ a ≠ b
    · rwa [hc.frame c a hk]
    · obtain ⟨rfl,rfl⟩ : c = d ∧ a = b := by simpa only [not_or,not_not] using hk
      rw [hc.after]
      exact (hc.before ▸ ih).trans .create
  | @move t t' d b sol sol' ht hs hc ih =>
    by_cases hk : c ≠ d ∨ a ≠ b
    · rwa [hc.frame c a hk]
    · obtain ⟨rfl,rfl⟩ : c = d ∧ a = b := by simpa only [not_or,not_not] using hk
      rw [hc.after]
      rw [hc.before] at ih
      rw [ht.formae_eq] at hs
      exact .step ih hs

def luxLedger (st : SolarisStorage) (k : CoinType × Address) : ℕ := luxAt (st.solarii k.1 k.2)

def noxLedger (st : SolarisStorage) (k : CoinType × Address) : ℕ := noxAt (st.solarii k.1 k.2)

/-- The two supplies cover the solarii: every coin in one of them was minted. -/
structure Minted (st : SolarisStorage) : Prop where
  lux : BoundedBy st.luxLedger st.luxSupply
  nox : BoundedBy st.noxLedger st.noxSupply

theorem Change.minted {o : Option Solaris} {sol : Solaris} (hc : Change st st' c a o sol)
    (h : st.Minted) : st'.Minted := by
  have hframe : ∀ k : CoinType × Address, k ≠ (c, a) →
      st'.solarii k.1 k.2 = st.solarii k.1 k.2 := by
    rintro ⟨d,b⟩ hne
    apply hc.frame
    by_contra hcon
    simp only [not_or,not_not] at hcon
    exact hne (by rw [hcon.1,hcon.2])
  refine ⟨h.lux.move (c, a) (fun k hk => ?_) ?_,h.nox.move (c, a) (fun k hk => ?_) ?_⟩
  · simp only [luxLedger,hframe k hk]
  · simpa only [luxLedger,hc.before,hc.after,luxAt] using hc.luxSupply
  · simp only [noxLedger,hframe k hk]
  · simpa only [noxLedger,hc.before,hc.after,noxAt] using hc.noxSupply

theorem Minted.congr (h : st.Minted) (hs : st'.solarii = st.solarii)
    (hl : st'.luxSupply = st.luxSupply) (hn : st'.noxSupply = st.noxSupply) : st'.Minted := by
  obtain ⟨hlux,hnox⟩ := h
  refine ⟨fun t => ?_,fun t => ?_⟩
  · simpa only [luxLedger,hs,hl] using hlux t
  · simpa only [noxLedger,hs,hn] using hnox t

theorem Trace.minted (h : Trace R st st') (h0 : st.Minted) : st'.Minted := by
  induction h with
  | refl => exact h0
  | wallets _ hs _ hl hn ih => exact ih.congr hs hl hn
  | create _ hc ih | move _ _ hc ih => exact hc.minted ih

theorem onSubsidialisUpdate_trace (h : st.onSubsidialisUpdate c a = .ok st') :
    Trace R st st' := by
  cases hsol : st.solarii c a with
  | none =>
    rw [onSubsidialisUpdate_none hsol] at h
    cases h
    exact .refl
  | some sol =>
    obtain ⟨_,rfl⟩ := (onSubsidialisUpdate_eq_ok hsol).mp h
    refine .move .refl (.update sol) (.put (fun _ _ _ => rfl) rfl hsol ?_ rfl)
    simp only [luxAt,Solaris.lux,Solaris.update]
    omega

theorem onSubsidialisDeactivate_trace (h : st.onSubsidialisDeactivate c a = .ok st') :
    Trace R st st' := by
  cases hsol : st.solarii c a with
  | none =>
    rw [onSubsidialisDeactivate_none hsol] at h
    cases h
    exact .refl
  | some sol =>
    obtain ⟨_,rfl⟩ := (onSubsidialisDeactivate_eq_ok hsol).mp h
    exact .move .refl (.deactivate sol) (.put (fun _ _ _ => rfl) rfl hsol rfl rfl)

end SolarisStorage

namespace Subsidialis

variable {sub : Subsidialis} {a : Address}

theorem isSome_findDominus {v : List Address} : (findDominus v a).isSome = true ↔ a ∈ v :=
  isSome_findIdx?_eq_mem v a

theorem getDominusState_eq_inactive :
    sub.getDominusState a = .inactive ↔
      a ∉ sub.pendingActive ∧ a ∉ sub.active ∧ a ∉ sub.pendingInactive := by
  simp only [getDominusState,isSome_findDominus]
  split_ifs <;> simp_all

theorem getDominusState_eq_active :
    sub.getDominusState a = .active ↔ a ∉ sub.pendingActive ∧ a ∈ sub.active := by
  simp only [getDominusState,isSome_findDominus]
  split_ifs <;> simp_all

end Subsidialis

namespace State
open SolarisStorage Subsidialis

variable {R : CoinType → Address → Solaris → ℕ → Prop} {s s' : State} {c : CoinType} {a : Address}
    {n : ℕ} {st st' : SolarisStorage}

theorem join_ok (h : s.join c a = .ok s') :
    Trace R s.solaris s'.solaris ∧ s.subsidialis.getDominusState a = .inactive ∧
      s'.subsidialis =
        { s.subsidialis with pendingActive := s.subsidialis.pendingActive ++ [a] } ∧
      s'.epoch = s.epoch := by
  simp only [join,bind_eq_ok,ensure_eq_ok,pure_eq_ok] at h
  obtain ⟨st,hst,_,hina,rfl⟩ := h
  refine ⟨?_,hina,rfl,rfl⟩
  rw [openSolaris] at hst
  by_cases hex : (s.solaris.solarii c a).isSome = true
  · rw [if_pos hex] at hst
    cases hst
    exact .refl
  · rw [if_neg hex] at hst
    exact .create .refl (initializeOwner_ok hst).2.2

theorem leave_ok (h : s.leave c a = .ok s') :
    s.subsidialis.getDominusState a = .active ∧
      s' = { s with subsidialis :=
        { s.subsidialis with pendingInactive := s.subsidialis.pendingInactive ++ [a] } } := by
  simp only [leave,bind_eq_ok,ensure_eq_ok,pure_eq_ok] at h
  obtain ⟨_,_,_,hact,rfl⟩ := h
  exact ⟨hact,rfl⟩

theorem addSeignorage_trace {b : Bool} {st : SolarisStorage}
    (h : s.addSeignorage b c a n = .ok st) : Trace R s.solaris st := by
  cases b with
  | true =>
    obtain ⟨sol,φ,hφ,hc⟩ := addPendingCoins_ok h
    exact .move .refl (.addPending sol n hφ) hc
  | false =>
    obtain ⟨sol,φ,hφ,hc⟩ := addActiveCoins_ok h
    exact .move .refl (.addActive sol n hφ) hc

theorem increaseJoiningPower_ok {sub : Subsidialis} (h : s.increaseJoiningPower a n = .ok sub) :
    ∃ p, sub = { s.subsidialis with totalJoiningPower := p } := by
  rw [increaseJoiningPower] at h
  split at h
  · obtain ⟨p,_,⟨⟩⟩ := bind_eq_ok.mp h
    exact ⟨p,rfl⟩
  · cases h
    exact ⟨_,rfl⟩

theorem addCoins_ok (h : s.addCoins c a n = .ok s') :
    Trace R s.solaris s'.solaris ∧
      (∃ p, s'.subsidialis = { s.subsidialis with totalJoiningPower := p }) ∧
      s'.epoch = s.epoch := by
  simp only [addCoins,bind_eq_ok,ensure_eq_ok,pure_eq_ok] at h
  obtain ⟨_,_,act,_,st,hst,sub,hsub,rfl⟩ := h
  exact ⟨addSeignorage_trace hst,increaseJoiningPower_ok hsub,rfl⟩

theorem updateMembers_trace {members : List Address} (h : updateMembers c st members = .ok st') :
    Trace R st st' := by
  induction members generalizing st with
  | nil =>
    cases h
    exact .refl
  | cons a members ih =>
    obtain ⟨st₁,h₁,h₂⟩ := bind_eq_ok.mp h
    exact (onSubsidialisUpdate_trace h₁).trans (ih h₂)

theorem deactivateLeavers_trace {st : SolarisStorage} {power : ℕ} {leavers : List Address}
    {p : SolarisStorage × ℕ} (h : deactivateLeavers c st power leavers = .ok p) :
    Trace R st p.1 := by
  induction leavers generalizing st power with
  | nil =>
    cases h
    exact .refl
  | cons a leavers ih =>
    simp only [deactivateLeavers,bind_eq_ok] at h
    obtain ⟨st₁,h₁,power₁,_,h₂⟩ := h
    exact (onSubsidialisDeactivate_trace h₁).trans (ih h₂)

theorem onNewEpoch_eq_ok :
    s.onNewEpoch c = .ok s' ↔ ∃ st₁ st₂ leaving,
      updateMembers c s.solaris s.subsidialis.active = .ok st₁ ∧
      deactivateLeavers c st₁ 0 s.subsidialis.pendingInactive = .ok (st₂, leaving) ∧
      leaving ≤ s.subsidialis.totalActivePower ∧
      (let active := s.subsidialis.active ++ s.subsidialis.pendingActive
      let luxPower := (active.map (st₂.getActiveLuxValue c)).sum
      luxPower < 2 ^ 64 ∧ s.subsidialis.totalActivePower - leaving + luxPower < 2 ^ 128 ∧
      { s with
        solaris := st₂
        subsidialis := { s.subsidialis with
          active
          pendingActive := []
          pendingInactive := []
          totalActivePower := s.subsidialis.totalActivePower - leaving + luxPower } } = s') := by
  have hsum : ∀ (st : SolarisStorage) (l : List Address) (r : ℕ), sumLuxPower c st l = .ok r ↔
      (l.map (st.getActiveLuxValue c)).sum < 2 ^ 64 ∧
        (l.map (st.getActiveLuxValue c)).sum = r := by
    intro st l r
    rw [sumLuxPower,sumChecked_eq_ok (by decide),zero_add]
  simp only [onNewEpoch,bind_eq_ok,appendNondestructive_eq,hsum,subChecked_eq_ok,
    addChecked_eq_ok,pure_eq_ok]
  constructor
  · rintro ⟨st₁,h₁,⟨st₂,leaving⟩,h₂,_,⟨hle,rfl⟩,_,⟨hlt,rfl⟩,_,⟨hlt',rfl⟩,rfl⟩
    exact ⟨st₁,st₂,leaving,h₁,h₂,hle,hlt,hlt',rfl⟩
  · rintro ⟨st₁,st₂,leaving,h₁,h₂,hle,hlt,hlt',rfl⟩
    exact ⟨st₁,h₁,⟨st₂,leaving⟩,h₂,_,⟨hle,rfl⟩,_,⟨hlt,rfl⟩,_,⟨hlt',rfl⟩,rfl⟩

/-- A pass serves the joiners, and forgets the leavers without removing them. -/
theorem onNewEpoch_ok (h : s.onNewEpoch c = .ok s') :
    Trace R s.solaris s'.solaris ∧
      s'.subsidialis.active = s.subsidialis.active ++ s.subsidialis.pendingActive ∧
      s'.subsidialis.pendingActive = [] ∧ s'.subsidialis.pendingInactive = [] ∧
      s'.epoch = s.epoch := by
  obtain ⟨st₁,st₂,leaving,h₁,h₂,_,_,_,rfl⟩ := onNewEpoch_eq_ok.mp h
  exact ⟨(updateMembers_trace h₁).trans (deactivateLeavers_trace h₂),rfl,rfl,rfl,rfl⟩

theorem reconfigure_eq_ok :
    s.reconfigure = .ok s' ↔ ∃ s₂, s.epochPasses = .ok s₂ ∧ s₂.epoch + 1 < 2 ^ 64 ∧
      { s₂ with epoch := s₂.epoch + 1 } = s' := by
  simp only [reconfigure,bind_eq_ok,addChecked_eq_ok,pure_eq_ok]
  constructor
  · rintro ⟨s₂,h,_,⟨hlt,rfl⟩,rfl⟩
    exact ⟨s₂,h,hlt,rfl⟩
  · rintro ⟨s₂,h,hlt,rfl⟩
    exact ⟨s₂,h,_,⟨hlt,rfl⟩,rfl⟩

theorem epochPasses_ok (h : s.epochPasses = .ok s') :
    Trace R s.solaris s'.solaris ∧
      s'.subsidialis.active = s.subsidialis.active ++ s.subsidialis.pendingActive ∧
      s'.subsidialis.pendingActive = [] ∧ s'.subsidialis.pendingInactive = [] ∧
      s'.epoch = s.epoch := by
  rw [epochPasses,bind_eq_ok] at h
  obtain ⟨s₁,h₁,h₂⟩ := h
  obtain ⟨ht₁,ha₁,hp₁,_,he₁⟩ := onNewEpoch_ok (R := R) h₁
  obtain ⟨ht₂,ha₂,hp₂,hi₂,he₂⟩ := onNewEpoch_ok (R := R) h₂
  rw [hp₁,List.append_nil] at ha₂
  exact ⟨ht₁.trans ht₂,ha₂.trans ha₁,hp₂,hi₂,he₂.trans he₁⟩

theorem initializeAllocation_trace (h : st.initializeAllocation c a n = .ok st') :
    Trace R st st' := by
  obtain ⟨st₁,h₁,h₂⟩ := bind_eq_ok.mp h
  have htr : Trace R st st₁ := .create .refl (initializeOwner_ok h₁).2.2
  by_cases hpos : 0 < n
  · rw [if_pos hpos] at h₂
    obtain ⟨sol,φ,hφ,hc⟩ := addActiveCoins_ok h₂
    exact .move htr (.addActive sol n hφ) hc
  · rw [if_neg hpos,pure_eq_ok] at h₂
    exact h₂ ▸ htr

theorem registerForma_ok {φ : Forma} (h : s.registerForma c φ = .ok s') :
    s.solaris.formae c = none ∧
      s' = { s with solaris :=
        { s.solaris with formae := Function.update s.solaris.formae c (some φ) } } := by
  simp only [registerForma,bind_eq_ok,ensure_eq_ok,pure_eq_ok,Option.isNone_iff_eq_none] at h
  obtain ⟨_,hn,rfl⟩ := h
  exact ⟨hn,rfl⟩

section

variable {o : Op} (h : s.step o = .ok s')

include h

theorem step_trace (hreg : ∀ c φ, o ≠ .registerForma c φ)
    (hR : ∀ c a n sol, o = .removeCoins c a n → s.solaris.solarii c a = some sol →
      R c a sol (Math64.min n sol.lockedForma)) : Trace R s.solaris s'.solaris := by
  cases o with
  | join c a => exact (join_ok h).1
  | leave c a =>
    obtain ⟨_,rfl⟩ := leave_ok h
    exact .refl
  | addCoins c a n => exact (addCoins_ok h).1
  | removeCoins c a n =>
    obtain ⟨st,hst,⟨⟩⟩ := bind_eq_ok.mp h
    obtain rfl | ⟨sol,hpos,hc⟩ := removeCoins_ok hst
    · exact .refl
    · refine .move .refl (.remove sol _ hpos ?_ (hR c a n sol rfl hc.before)) hc
      rw [Math64.min_eq]
      exact min_le_right _ _
  | reactivateCoins c a n =>
    obtain ⟨st,hst,⟨⟩⟩ := bind_eq_ok.mp h
    obtain rfl | ⟨sol,φ,hle,hφ,hc⟩ := reactivateCoins_ok hst
    · exact .refl
    · exact .move .refl (.reactivate sol _ hφ hle) hc
  | withdrawCoins c a n =>
    obtain ⟨st,hst,⟨⟩⟩ := bind_eq_ok.mp h
    obtain rfl | ⟨sol,hle,hc⟩ := withdrawCoins_ok hst
    · exact .refl
    · exact .move .refl (.withdraw sol _ hle) hc
  | initializeAllocation c a n =>
    obtain ⟨st,hst,⟨⟩⟩ := bind_eq_ok.mp h
    exact initializeAllocation_trace hst
  | registerForma c φ => exact absurd rfl (hreg c φ)
  | wallets stores =>
    cases h
    exact .wallets .refl rfl rfl rfl rfl
  | reconfigure =>
    obtain ⟨s₂,h₂,_,rfl⟩ := reconfigure_eq_ok.mp h
    exact (epochPasses_ok h₂).1

inductive ListsStep (s s' : State) : Op → Prop
  | join (c : CoinType) (a : Address) (hina : s.subsidialis.getDominusState a = .inactive)
      (hs : s'.subsidialis =
        { s.subsidialis with pendingActive := s.subsidialis.pendingActive ++ [a] })
      (he : s'.epoch = s.epoch) : ListsStep s s' (.join c a)
  | leave (c : CoinType) (a : Address) (hact : s.subsidialis.getDominusState a = .active)
      (hs : s'.subsidialis =
        { s.subsidialis with pendingInactive := s.subsidialis.pendingInactive ++ [a] })
      (he : s'.epoch = s.epoch) : ListsStep s s' (.leave c a)
  | reconfigure (h : s.reconfigure = .ok s') : ListsStep s s' .reconfigure
  | other {o : Op} (hl : ∀ c a, o ≠ .leave c a) (hr : o ≠ .reconfigure) (p : ℕ)
      (hs : s'.subsidialis = { s.subsidialis with totalJoiningPower := p })
      (he : s'.epoch = s.epoch) : ListsStep s s' o

theorem step_lists : ListsStep s s' o := by
  -- The transactions of the solaris module do not touch the subsidialis.
  have hsol : ∀ {x : Result SolarisStorage} {o : Op}, (∀ c a, o ≠ .leave c a) →
      o ≠ .reconfigure → (x >>= fun st => pure { s with solaris := st }) = .ok s' →
      ListsStep s s' o := by
    intro x o hl hr hx
    rw [bind_eq_ok] at hx
    obtain ⟨st,_,hst⟩ := hx
    rw [pure_eq_ok] at hst
    subst hst
    exact .other hl hr _ rfl rfl
  cases o with
  | join c a =>
    obtain ⟨_,hina,hs,he⟩ := join_ok (R := fun _ _ _ _ => True) h
    exact .join c a hina hs he
  | leave c a =>
    obtain ⟨hact,rfl⟩ := leave_ok h
    exact .leave c a hact rfl rfl
  | addCoins c a n =>
    obtain ⟨_,⟨p,hp⟩,he⟩ := addCoins_ok (R := fun _ _ _ _ => True) h
    exact .other (by simp) (by simp) p hp he
  | removeCoins c a n | reactivateCoins c a n | withdrawCoins c a n | initializeAllocation c a n =>
    exact hsol (by simp) (by simp) h
  | registerForma c φ =>
    obtain ⟨_,rfl⟩ := registerForma_ok h
    exact .other (by simp) (by simp) _ rfl rfl
  | wallets stores =>
    cases h
    exact .other (by simp) (by simp) _ rfl rfl
  | reconfigure => exact .reconfigure h

/-- A registered forma is never replaced, and each solaris goes through moves of its own. -/
theorem step_evolves {φ : Forma} (hφ : s.solaris.formae c = some φ) (a : Address)
    {Q : Solaris → ℕ → Prop}
    (hQ : ∀ n sol, o = .removeCoins c a n → s.solaris.solarii c a = some sol →
      Q sol (Math64.min n sol.lockedForma)) :
    s'.solaris.formae c = some φ ∧
      Solaris.Evolves (some φ) Q (s.solaris.solarii c a) (s'.solaris.solarii c a) := by
  by_cases hreg : ∃ d ψ, o = .registerForma d ψ
  · obtain ⟨d,ψ,rfl⟩ := hreg
    obtain ⟨hn,rfl⟩ := registerForma_ok h
    have hne : c ≠ d := by
      rintro rfl
      rw [hφ] at hn
      cases hn
    refine ⟨?_,.refl _⟩
    simpa [Function.update_of_ne hne] using hφ
  · -- Only the removals of `a` in `c` are restricted.
    have htr : Trace (fun d b sol n => d = c → b = a → Q sol n) s.solaris s'.solaris := by
      apply step_trace h
      · exact fun d ψ ho => hreg ⟨d,ψ,ho⟩
      · rintro d b n sol ho hsol rfl rfl
        exact hQ n sol ho hsol
    have hev := htr.evolves c a
    refine ⟨htr.formae_eq ▸ hφ,?_⟩
    simpa [hφ] using hev

theorem step_minted (hm : s.solaris.Minted) : s'.solaris.Minted := by
  by_cases hreg : ∃ d ψ, o = .registerForma d ψ
  · obtain ⟨d,ψ,rfl⟩ := hreg
    obtain ⟨_,rfl⟩ := registerForma_ok h
    exact hm.congr rfl rfl rfl
  · have htr : Trace (fun _ _ _ _ => True) s.solaris s'.solaris :=
      step_trace h (fun d ψ ho => hreg ⟨d,ψ,ho⟩) (fun _ _ _ _ _ _ => trivial)
    exact htr.minted hm

end

theorem genesis_minted (stores : CoinType → Address → Option CoinStore) :
    (genesis stores).solaris.Minted := ⟨BoundedBy.zero 0,BoundedBy.zero 0⟩

end State

end Arx
