import Arx.Framework.Coin

/-!
# `arx::forma` and `arx::solaris`

A solaris locks forma coins of one coin type and earns lux and nox for them.
Event handles are left out: no function of the module reads them.

`Solaris.Step` is the machine that one solaris runs through, and `SolarisStorage.Change` says that
a call moved exactly one solaris.
-/

namespace Arx
open Movelib Function

structure Forma where
  luxIncentive : ℕ
  noxIncentive : ℕ
  deriving DecidableEq

structure Solaris where
  activeLux : ℕ
  pendingActiveLux : ℕ
  activeNox : ℕ
  pendingActiveNox : ℕ
  lockedForma : ℕ
  pendingUnlockedForma : ℕ
  unlockedForma : ℕ
  deriving DecidableEq

/-- The resources that the solaris module reads and writes: solarii, formae and
wallets by coin type and account, and the supplies of `LuxCoin` and `NoxCoin`. -/
@[ext]
structure SolarisStorage where
  solarii : CoinType → Address → Option Solaris
  formae : CoinType → Option Forma
  stores : CoinType → Address → Option CoinStore
  luxSupply : ℕ
  noxSupply : ℕ

namespace Solaris

def ESOLARIS_NOT_FOUND : ℕ := 1
def EEXISTING_SOLARIS : ℕ := 2
def EFORMA_NOT_FOUND : ℕ := 1

def empty : Solaris := ⟨0,0,0,0,0,0,0⟩

variable (sol : Solaris) (amount : ℕ)

/-- Seignorage that counts at once. -/
def creditActive (lux nox : ℕ) : Solaris :=
  { sol with activeLux := sol.activeLux + lux, activeNox := sol.activeNox + nox }

def creditPending (lux nox : ℕ) : Solaris :=
  { sol with
    pendingActiveLux := sol.pendingActiveLux + lux
    pendingActiveNox := sol.pendingActiveNox + nox }

def lock : Solaris :=
  { sol with lockedForma := sol.lockedForma + amount }

/-- `amount` leaves the locked forma, and the `lockedForma / amount`-th part of the
active seignorage is burned. -/
def remove : Solaris :=
  { sol with
    lockedForma := sol.lockedForma - amount
    pendingUnlockedForma := sol.pendingUnlockedForma + amount
    activeNox := sol.activeNox - sol.activeNox / (sol.lockedForma / amount)
    activeLux := sol.activeLux - sol.activeLux / (sol.lockedForma / amount) }

def unlockBack : Solaris :=
  { sol with
    pendingUnlockedForma := sol.pendingUnlockedForma - amount
    lockedForma := sol.lockedForma + amount }

def withdraw : Solaris :=
  { sol with unlockedForma := sol.unlockedForma - amount }

def luxReward : ℕ := (sol.activeNox + sol.pendingActiveNox) / 10000

def update : Solaris :=
  { sol with
    activeNox := sol.activeNox + sol.pendingActiveNox
    pendingActiveNox := 0
    activeLux := sol.activeLux + sol.pendingActiveLux
    pendingActiveLux := sol.luxReward }

def deactivate : Solaris :=
  { sol with
    pendingUnlockedForma := 0
    unlockedForma := sol.unlockedForma + sol.pendingUnlockedForma }

end Solaris

namespace SolarisStorage

variable (st : SolarisStorage) (c : CoinType) (a : Address)

variable (sol : Solaris) (amount : ℕ)

def putSolaris : SolarisStorage :=
  { st with solarii := update st.solarii c (update (st.solarii c) a (some sol)) }

def putStore (store : CoinStore) : SolarisStorage :=
  { st with stores := update st.stores c (update (st.stores c) a (some store)) }

def borrowSolaris : Result Solaris :=
  match st.solarii c a with
  | some sol => .ok sol
  | none => .error (Error.notFound Solaris.ESOLARIS_NOT_FOUND)

def initializeOwner : Result SolarisStorage := do
  ensure ((st.formae c).isSome = true) (Error.notFound Solaris.EFORMA_NOT_FOUND)
  ensure ((st.solarii c a).isNone = true) (Error.alreadyExists Solaris.EEXISTING_SOLARIS)
  pure (st.putSolaris c a Solaris.empty)

def addCoins : Result SolarisStorage := do
  let sol ← st.borrowSolaris c a
  let (store, coins) ← Coin.withdraw (st.stores c a) amount
  let st := st.putStore c a store
  if coins = 0 then do
    Coin.destroyZero coins
    pure st
  else do
    let lockedForma ← Coin.merge sol.lockedForma coins
    pure (st.putSolaris c a { sol with lockedForma })

/-- `mint_active_seignorage` and `mint_pending_seignorage` mint the same amounts and
differ in the pair of balances that they credit. -/
def mintSeignorage (credit : Solaris → ℕ → ℕ → Result Solaris) (amount : ℕ) :
    Result SolarisStorage := do
  let sol ← borrowGlobal (st.solarii c a)
  let forma ← borrowGlobal (st.formae c)
  let luxMintAmount ← mulChecked 64 amount forma.luxIncentive
  let (luxSupply, luxCoins) ← Coin.mint st.luxSupply luxMintAmount
  let noxMintAmount ← mulChecked 64 amount forma.noxIncentive
  let (noxSupply, noxCoins) ← Coin.mint st.noxSupply noxMintAmount
  let sol ← credit sol luxCoins noxCoins
  pure ({ st with luxSupply, noxSupply }.putSolaris c a sol)

def mergeActive (lux nox : ℕ) : Result Solaris := do
  let activeLux ← Coin.merge sol.activeLux lux
  let activeNox ← Coin.merge sol.activeNox nox
  pure { sol with activeLux, activeNox }

def mergePending (lux nox : ℕ) : Result Solaris := do
  let pendingActiveLux ← Coin.merge sol.pendingActiveLux lux
  let pendingActiveNox ← Coin.merge sol.pendingActiveNox nox
  pure { sol with pendingActiveLux, pendingActiveNox }

def mintActiveSeignorage : Result SolarisStorage :=
  st.mintSeignorage c a mergeActive amount

def mintPendingSeignorage : Result SolarisStorage :=
  st.mintSeignorage c a mergePending amount

def addActiveCoins : Result SolarisStorage := do
  let st ← st.addCoins c a amount
  st.mintActiveSeignorage c a amount

def addPendingCoins : Result SolarisStorage := do
  let st ← st.addCoins c a amount
  st.mintPendingSeignorage c a amount

def initializeAllocation (initialAllocation : ℕ) : Result SolarisStorage := do
  let st ← st.initializeOwner c a
  if 0 < initialAllocation then st.addActiveCoins c a initialAllocation else pure st

def removeCoins : Result SolarisStorage :=
  if amount = 0 then .ok st
  else do
    let sol ← st.borrowSolaris c a
    let lockedAmount := sol.lockedForma
    let removeAmount := Math64.min amount lockedAmount
    -- The source tests `amount` a second time, not `removeAmount`.
    if amount = 0 then pure st
    else do
      let (lockedForma, removedCoins) ← Coin.extract sol.lockedForma removeAmount
      let pendingUnlockedForma ← Coin.merge sol.pendingUnlockedForma removedCoins
      let burnFraction ← Uq64x64.fraction lockedAmount removeAmount >>= Uq64x64.decode
      let noxBurnAmount ← Uq64x64.fraction sol.activeNox burnFraction >>= Uq64x64.decode
      let (activeNox, noxCoins) ← Coin.extract sol.activeNox noxBurnAmount
      let noxSupply ← Coin.burn st.noxSupply noxCoins
      let luxBurnAmount ← Uq64x64.fraction sol.activeLux burnFraction >>= Uq64x64.decode
      let (activeLux, luxCoins) ← Coin.extract sol.activeLux luxBurnAmount
      let luxSupply ← Coin.burn st.luxSupply luxCoins
      pure ({ st with luxSupply, noxSupply }.putSolaris c a
        { sol with lockedForma, pendingUnlockedForma, activeNox, activeLux })

def withdrawCoins : Result SolarisStorage :=
  if amount = 0 then .ok st
  else do
    let sol ← st.borrowSolaris c a
    let withdrawAmount := Math64.min amount sol.unlockedForma
    if withdrawAmount = 0 then pure st
    else do
      let (unlockedForma, withdrawnCoins) ← Coin.extract sol.unlockedForma withdrawAmount
      let store ← Coin.deposit (st.stores c a) withdrawnCoins
      pure ((st.putSolaris c a { sol with unlockedForma }).putStore c a store)

def reactivateCoins : Result SolarisStorage :=
  if amount = 0 then .ok st
  else do
    let sol ← st.borrowSolaris c a
    let reactivateAmount := Math64.min amount sol.pendingUnlockedForma
    if reactivateAmount = 0 then pure st
    else do
      let (pendingUnlockedForma, reactivatedCoins) ←
        Coin.extract sol.pendingUnlockedForma reactivateAmount
      let lockedForma ← Coin.merge sol.lockedForma reactivatedCoins
      let st := st.putSolaris c a { sol with pendingUnlockedForma, lockedForma }
      st.mintActiveSeignorage c a reactivateAmount

/-- `on_subsidialis_update`. A member without a solaris of this coin type is skipped. -/
def onSubsidialisUpdate : Result SolarisStorage :=
  match st.solarii c a with
  | none => .ok st
  | some sol => do
    let (pendingActiveNox, pendingNox) ← Coin.extract sol.pendingActiveNox sol.pendingActiveNox
    let activeNox ← Coin.merge sol.activeNox pendingNox
    let (pendingActiveLux, pendingLux) ← Coin.extract sol.pendingActiveLux sol.pendingActiveLux
    let activeLux ← Coin.merge sol.activeLux pendingLux
    let pendingLuxReward ← Uq64x64.fraction activeNox 10000 >>= Uq64x64.decode
    let (luxSupply, luxReward) ← Coin.mint st.luxSupply pendingLuxReward
    let pendingActiveLux ← Coin.merge pendingActiveLux luxReward
    pure ({ st with luxSupply }.putSolaris c a
      { sol with pendingActiveNox, activeNox, pendingActiveLux, activeLux })

def onSubsidialisDeactivate : Result SolarisStorage :=
  match st.solarii c a with
  | none => .ok st
  | some sol => do
    let (pendingUnlockedForma, coins) ←
      Coin.extract sol.pendingUnlockedForma sol.pendingUnlockedForma
    let unlockedForma ← Coin.merge sol.unlockedForma coins
    pure (st.putSolaris c a { sol with pendingUnlockedForma, unlockedForma })

def getActiveLuxValue : ℕ :=
  match st.solarii c a with
  | none => 0
  | some sol => sol.activeLux

end SolarisStorage

namespace Solaris

def lux (sol : Solaris) : ℕ := sol.activeLux + sol.pendingActiveLux

def nox (sol : Solaris) : ℕ := sol.activeNox + sol.pendingActiveNox

/-- One move of a solaris whose coin type has the forma `f`; `R` restricts the
removals that are taken. -/
inductive Step (f : Option Forma) (R : Solaris → ℕ → Prop) : Solaris → Solaris → Prop
  | addActive (sol : Solaris) (n : ℕ) {φ : Forma} (hf : f = some φ) :
      Step f R sol ((sol.lock n).creditActive (n * φ.luxIncentive) (n * φ.noxIncentive))
  | addPending (sol : Solaris) (n : ℕ) {φ : Forma} (hf : f = some φ) :
      Step f R sol ((sol.lock n).creditPending (n * φ.luxIncentive) (n * φ.noxIncentive))
  | remove (sol : Solaris) (r : ℕ) (hr : 0 < r) (hle : r ≤ sol.lockedForma) (hR : R sol r) :
      Step f R sol (sol.remove r)
  | reactivate (sol : Solaris) (r : ℕ) {φ : Forma} (hf : f = some φ)
      (hle : r ≤ sol.pendingUnlockedForma) :
      Step f R sol ((sol.unlockBack r).creditActive (r * φ.luxIncentive) (r * φ.noxIncentive))
  | withdraw (sol : Solaris) (w : ℕ) (hle : w ≤ sol.unlockedForma) : Step f R sol (sol.withdraw w)
  | update (sol : Solaris) : Step f R sol sol.update
  | deactivate (sol : Solaris) : Step f R sol sol.deactivate

inductive Evolves (f : Option Forma) (R : Solaris → ℕ → Prop) :
    Option Solaris → Option Solaris → Prop
  | refl (o : Option Solaris) : Evolves f R o o
  | create : Evolves f R none (some empty)
  | step {o : Option Solaris} {sol sol' : Solaris} (h : Evolves f R o (some sol))
      (hs : Step f R sol sol') : Evolves f R o (some sol')

variable {f : Option Forma} {R : Solaris → ℕ → Prop}

theorem Evolves.trans {o p q : Option Solaris}
    (h : Evolves f R o p) (h' : Evolves f R p q) : Evolves f R o q := by
  induction h' with
  | refl => exact h
  | create =>
    generalize hp : (none : Option Solaris) = p at h
    cases h with
    | refl => exact hp ▸ .create
    | create => cases hp
    | step => cases hp
  | step _ hs ih => exact .step (ih h) hs

theorem Evolves.exists_some {sol : Solaris}
    {p : Option Solaris} (h : Evolves f R (some sol) p) : ∃ sol', p = some sol' := by
  cases h with
  | refl => exact ⟨sol,rfl⟩
  | step _ hs => exact ⟨_,rfl⟩

/-- A property of fresh solarii that every move preserves holds after any evolution. -/
theorem Evolves.invariant {I : Solaris → Prop}
    (h0 : I empty) (hstep : ∀ sol sol', I sol → Step f R sol sol' → I sol')
    {o p : Option Solaris} (h : Evolves f R o p) (ho : ∀ sol, o = some sol → I sol) :
    ∀ sol, p = some sol → I sol := by
  induction h with
  | refl => exact ho
  | create => rintro sol ⟨rfl⟩; exact h0
  | step _ hs ih => rintro sol ⟨rfl⟩; exact hstep _ _ (ih ho _ rfl) hs

end Solaris

namespace SolarisStorage

variable {st st' st'' : SolarisStorage} {c c' : CoinType} {a a' : Address} {amount : ℕ}
    {credit : Solaris → ℕ → ℕ → Result Solaris} {sol : Solaris}

section Put

variable (st : SolarisStorage) (c : CoinType) (a : Address) (sol : Solaris) (cs : CoinStore)

@[simp] theorem putSolaris_luxSupply : (st.putSolaris c a sol).luxSupply = st.luxSupply := rfl
@[simp] theorem putSolaris_noxSupply : (st.putSolaris c a sol).noxSupply = st.noxSupply := rfl
@[simp] theorem putStore_solarii : (st.putStore c a cs).solarii = st.solarii := rfl
@[simp] theorem putStore_luxSupply : (st.putStore c a cs).luxSupply = st.luxSupply := rfl
@[simp] theorem putStore_noxSupply : (st.putStore c a cs).noxSupply = st.noxSupply := rfl

@[simp] theorem putSolaris_self : (st.putSolaris c a sol).solarii c a = some sol := by
  simp [putSolaris]

theorem putSolaris_other (h : c' ≠ c ∨ a' ≠ a) :
    (st.putSolaris c a sol).solarii c' a' = st.solarii c' a' := by
  by_cases hc : c' = c
  · subst hc
    have ha : a' ≠ a := h.resolve_left (by simp)
    simp [putSolaris,update_of_ne ha]
  · simp [putSolaris,update_of_ne hc]

theorem putSolaris_eq_self (h : st.solarii c a = some sol) : st.putSolaris c a sol = st := by
  rw [putSolaris]
  rw [← h,update_eq_self,update_eq_self]

end Put

def luxAt (o : Option Solaris) : ℕ :=
  match o with
  | none => 0
  | some sol => sol.lux

def noxAt (o : Option Solaris) : ℕ :=
  match o with
  | none => 0
  | some sol => sol.nox

/-- Between `st` and `st'` the solaris of `a` went from `o` to `sol'`, every other
solaris and every forma stayed, and the two supplies moved with the lux and the nox of `a`. -/
structure Change (st st' : SolarisStorage) (c : CoinType) (a : Address) (o : Option Solaris)
    (sol' : Solaris) : Prop where
  before : st.solarii c a = o
  after : st'.solarii c a = some sol'
  frame : ∀ c' a', c' ≠ c ∨ a' ≠ a → st'.solarii c' a' = st.solarii c' a'
  formae : st'.formae = st.formae
  luxSupply : st'.luxSupply + luxAt o = st.luxSupply + sol'.lux
  noxSupply : st'.noxSupply + noxAt o = st.noxSupply + sol'.nox

theorem Change.put {o : Option Solaris} {sol' : Solaris}
    (hs : ∀ c' a', c' ≠ c ∨ a' ≠ a → st'.solarii c' a' = st.solarii c' a')
    (hf : st'.formae = st.formae) (hsol : st.solarii c a = o)
    (hlux : st'.luxSupply + luxAt o = st.luxSupply + sol'.lux)
    (hnox : st'.noxSupply + noxAt o = st.noxSupply + sol'.nox) :
    Change st (st'.putSolaris c a sol') c a o sol' := by
  refine ⟨hsol,putSolaris_self _ _ _ _,fun c' a' hne => ?_,hf,hlux,hnox⟩
  rw [putSolaris_other _ _ _ _ hne,hs c' a' hne]

theorem borrowSolaris_eq_ok : st.borrowSolaris c a = .ok sol ↔ st.solarii c a = some sol := by
  rw [borrowSolaris]
  cases st.solarii c a <;> simp

theorem initializeOwner_ok (h : st.initializeOwner c a = .ok st') :
    (st.formae c).isSome = true ∧ st' = st.putSolaris c a Solaris.empty ∧
      Change st st' c a none Solaris.empty := by
  simp only [initializeOwner,bind_eq_ok,ensure_eq_ok,pure_eq_ok] at h
  obtain ⟨_,hf,_,hn,rfl⟩ := h
  exact ⟨hf,rfl,.put (fun _ _ _ => rfl) rfl (by simpa using hn) rfl rfl⟩

theorem addCoins_ok (h : st.addCoins c a amount = .ok st') :
    ∃ sol store, st.solarii c a = some sol ∧
      st' = (st.putStore c a store).putSolaris c a (sol.lock amount) := by
  simp only [addCoins,bind_eq_ok,borrowSolaris_eq_ok,Coin.withdraw_eq_ok] at h
  obtain ⟨sol,hsol,_,⟨cs,_,_,_,rfl⟩,h⟩ := h
  refine ⟨sol,{ cs with coin := cs.coin - amount },hsol,?_⟩
  by_cases hz : amount = 0
  · subst hz
    obtain ⟨_,_,rfl⟩ := h
    exact (putSolaris_eq_self _ _ _ _ (by simpa [Solaris.lock] using hsol)).symm
  · simp only [hz,if_false,bind_eq_ok,Coin.merge_eq_ok,pure_eq_ok] at h
    obtain ⟨_,⟨_,rfl⟩,rfl⟩ := h
    rfl

theorem mergeActive_eq_ok {sol sol' : Solaris} {l n : ℕ} (h : mergeActive sol l n = .ok sol') :
    sol' = sol.creditActive l n := by
  simp only [mergeActive,bind_eq_ok,Coin.merge_eq_ok,pure_eq_ok] at h
  obtain ⟨_,⟨_,rfl⟩,_,⟨_,rfl⟩,rfl⟩ := h
  rfl

theorem mergePending_eq_ok {sol sol' : Solaris} {l n : ℕ} (h : mergePending sol l n = .ok sol') :
    sol' = sol.creditPending l n := by
  simp only [mergePending,bind_eq_ok,Coin.merge_eq_ok,pure_eq_ok] at h
  obtain ⟨_,⟨_,rfl⟩,_,⟨_,rfl⟩,rfl⟩ := h
  rfl

theorem mintSeignorage_ok (h : st.mintSeignorage c a credit amount = .ok st') :
    ∃ sol sol' φ, st.solarii c a = some sol ∧ st.formae c = some φ ∧
      credit sol (amount * φ.luxIncentive) (amount * φ.noxIncentive) = .ok sol' ∧
      st' = { st with
        luxSupply := st.luxSupply + amount * φ.luxIncentive
        noxSupply := st.noxSupply + amount * φ.noxIncentive }.putSolaris c a sol' := by
  simp only [mintSeignorage,bind_eq_ok,borrowGlobal_eq_ok,mulChecked_eq_ok,Coin.mint_eq_ok,
    pure_eq_ok] at h
  obtain ⟨sol,hsol,φ,hφ,_,⟨_,rfl⟩,_,⟨_,rfl⟩,_,⟨_,rfl⟩,_,⟨_,rfl⟩,sol',hc,rfl⟩ := h
  exact ⟨sol,sol',φ,hsol,hφ,hc,rfl⟩

theorem addCoins_mint_ok {credited : Solaris → ℕ → ℕ → Solaris}
    (hcredit : ∀ sol l n sol', credit sol l n = .ok sol' → sol' = credited sol l n)
    (hlux : ∀ sol l n, (credited sol l n).lux = sol.lux + l)
    (hnox : ∀ sol l n, (credited sol l n).nox = sol.nox + n)
    (h : (st.addCoins c a amount >>= fun st => st.mintSeignorage c a credit amount) = .ok st') :
    ∃ sol φ, st.formae c = some φ ∧ Change st st' c a (some sol)
      (credited (sol.lock amount) (amount * φ.luxIncentive) (amount * φ.noxIncentive)) := by
  rw [bind_eq_ok] at h
  obtain ⟨st₁,h₁,h₂⟩ := h
  obtain ⟨sol,store,hsol,rfl⟩ := addCoins_ok h₁
  obtain ⟨sol₁,sol₂,φ,hsol₁,hφ,hc,rfl⟩ := mintSeignorage_ok h₂
  simp only [putSolaris_self,Option.some.injEq] at hsol₁
  subst hsol₁
  have he := hcredit _ _ _ _ hc
  subst he
  refine ⟨sol,φ,hφ,.put (fun c' a' hne => putSolaris_other _ _ _ _ hne) rfl hsol ?_ ?_⟩
  · simp only [putSolaris_luxSupply,putStore_luxSupply,luxAt,hlux]
    simp only [Solaris.lux,Solaris.lock]
    omega
  · simp only [putSolaris_noxSupply,putStore_noxSupply,noxAt,hnox]
    simp only [Solaris.nox,Solaris.lock]
    omega

theorem addActiveCoins_ok (h : st.addActiveCoins c a amount = .ok st') :
    ∃ sol φ, st.formae c = some φ ∧ Change st st' c a (some sol)
      ((sol.lock amount).creditActive (amount * φ.luxIncentive) (amount * φ.noxIncentive)) := by
  apply addCoins_mint_ok (fun _ _ _ _ => mergeActive_eq_ok) _ _ h
  · exact fun sol l n => Nat.add_right_comm ..
  · exact fun sol l n => Nat.add_right_comm ..

theorem addPendingCoins_ok (h : st.addPendingCoins c a amount = .ok st') :
    ∃ sol φ, st.formae c = some φ ∧ Change st st' c a (some sol)
      ((sol.lock amount).creditPending (amount * φ.luxIncentive) (amount * φ.noxIncentive)) := by
  apply addCoins_mint_ok (fun _ _ _ _ => mergePending_eq_ok) _ _ h
  · exact fun sol l n => (Nat.add_assoc ..).symm
  · exact fun sol l n => (Nat.add_assoc ..).symm

theorem removeCoins_ok (h : st.removeCoins c a amount = .ok st') :
    st' = st ∨ ∃ sol, let r := Math64.min amount sol.lockedForma
      0 < r ∧ Change st st' c a (some sol) (sol.remove r) := by
  rw [removeCoins] at h
  by_cases hz : amount = 0
  · exact .inl (by simpa [hz,eq_comm] using h)
  · simp only [hz,if_false,bind_eq_ok,borrowSolaris_eq_ok,Coin.extract_eq_ok,Coin.merge_eq_ok,
      Uq64x64.fraction_decode_eq_ok,Coin.burn_eq_ok,pure_eq_ok] at h
    obtain ⟨sol,hsol,_,⟨hle,rfl⟩,_,⟨_,rfl⟩,_,⟨hr,_,_,rfl⟩,_,⟨_,_,_,rfl⟩,_,⟨hnb,rfl⟩,_,⟨_,hns,rfl⟩,
      _,⟨_,_,_,rfl⟩,_,⟨hlb,rfl⟩,_,⟨_,hls,rfl⟩,rfl⟩ := h
    refine .inr ⟨sol,Nat.pos_of_ne_zero hr,.put (fun _ _ _ => rfl) rfl hsol ?_ ?_⟩
    · simp only [luxAt,Solaris.lux]
      omega
    · simp only [noxAt,Solaris.nox]
      omega

theorem withdrawCoins_ok (h : st.withdrawCoins c a amount = .ok st') :
    st' = st ∨ ∃ sol, let w := Math64.min amount sol.unlockedForma
      w ≤ sol.unlockedForma ∧ Change st st' c a (some sol) (sol.withdraw w) := by
  rw [withdrawCoins] at h
  by_cases hz : amount = 0
  · exact .inl (by simpa [hz,eq_comm] using h)
  · simp only [hz,if_false,bind_eq_ok,borrowSolaris_eq_ok] at h
    obtain ⟨sol,hsol,h⟩ := h
    by_cases hw : Math64.min amount sol.unlockedForma = 0
    · rw [if_pos hw,pure_eq_ok] at h
      exact .inl h.symm
    · simp only [hw,if_false,bind_eq_ok,Coin.extract_eq_ok,pure_eq_ok] at h
      obtain ⟨_,⟨hle,rfl⟩,cs,_,rfl⟩ := h
      obtain ⟨hbefore,hafter,hframe,hf,hlux,hnox⟩ :
          Change st (st.putSolaris c a (sol.withdraw _)) c a (some sol) _ :=
        .put (fun _ _ _ => rfl) rfl hsol rfl rfl
      exact .inr ⟨sol,hle,hbefore,hafter,hframe,hf,hlux,hnox⟩

theorem reactivateCoins_ok (h : st.reactivateCoins c a amount = .ok st') :
    st' = st ∨ ∃ sol φ, let r := Math64.min amount sol.pendingUnlockedForma
      r ≤ sol.pendingUnlockedForma ∧ st.formae c = some φ ∧ Change st st' c a (some sol)
        ((sol.unlockBack r).creditActive (r * φ.luxIncentive) (r * φ.noxIncentive)) := by
  rw [reactivateCoins] at h
  by_cases hz : amount = 0
  · exact .inl (by simpa [hz,eq_comm] using h)
  · simp only [hz,if_false,bind_eq_ok,borrowSolaris_eq_ok] at h
    obtain ⟨sol,hsol,h⟩ := h
    by_cases hw : Math64.min amount sol.pendingUnlockedForma = 0
    · rw [if_pos hw,pure_eq_ok] at h
      exact .inl h.symm
    · simp only [hw,if_false,bind_eq_ok,Coin.extract_eq_ok,Coin.merge_eq_ok] at h
      obtain ⟨_,⟨hle,rfl⟩,_,⟨_,rfl⟩,h⟩ := h
      obtain ⟨sol₁,sol₂,φ,hsol₁,hφ,hc,rfl⟩ := mintSeignorage_ok h
      simp only [putSolaris_self,Option.some.injEq] at hsol₁
      subst hsol₁
      have he := mergeActive_eq_ok hc
      subst he
      refine .inr ⟨sol,φ,hle,hφ,.put (fun c' a' hne => putSolaris_other _ _ _ _ hne) rfl hsol ?_ ?_⟩
      · simp only [putSolaris_luxSupply,luxAt,Solaris.lux,Solaris.creditActive]
        omega
      · simp only [putSolaris_noxSupply,noxAt,Solaris.nox,Solaris.creditActive]
        omega

theorem onSubsidialisUpdate_eq_ok (hsol : st.solarii c a = some sol) :
    st.onSubsidialisUpdate c a = .ok st' ↔
      (sol.nox < 2 ^ 64 ∧ sol.lux < 2 ^ 64 ∧
        (sol.luxReward = 0 ∨ sol.luxReward ≤ Math128.MAX_U128 - st.luxSupply)) ∧
      { st with luxSupply := st.luxSupply + sol.luxReward }.putSolaris c a sol.update = st' := by
  simp only [onSubsidialisUpdate,hsol,bind_eq_ok,Coin.extract_eq_ok,Coin.merge_eq_ok,
    Uq64x64.fraction_decode_eq_ok,Coin.mint_eq_ok,pure_eq_ok]
  constructor
  · rintro ⟨_,⟨_,rfl⟩,_,⟨hn,rfl⟩,_,⟨_,rfl⟩,_,⟨hl,rfl⟩,_,⟨_,_,_,rfl⟩,_,⟨hm,rfl⟩,_,⟨_,rfl⟩,rfl⟩
    refine ⟨⟨hn,hl,hm⟩,?_⟩
    simp [Solaris.update,Solaris.luxReward]
  · rintro ⟨⟨hn,hl,hm⟩,rfl⟩
    have hq : (sol.activeNox + sol.pendingActiveNox) / 10000 < 2 ^ 64 :=
      lt_of_le_of_lt (Nat.div_le_self _ _) hn
    refine ⟨_,⟨le_rfl,rfl⟩,_,⟨hn,rfl⟩,_,⟨le_rfl,rfl⟩,_,⟨hl,rfl⟩,_,
      ⟨by decide,Uq64x64.mul_Q64_lt hn,hq,rfl⟩,_,⟨hm,rfl⟩,_,⟨?_,rfl⟩,?_⟩
    · simpa [Solaris.luxReward] using hq
    · simp [Solaris.update,Solaris.luxReward]

theorem onSubsidialisUpdate_none (hsol : st.solarii c a = none) :
    st.onSubsidialisUpdate c a = .ok st := by
  simp [onSubsidialisUpdate,hsol]

theorem onSubsidialisDeactivate_eq_ok (hsol : st.solarii c a = some sol) :
    st.onSubsidialisDeactivate c a = .ok st' ↔
      sol.unlockedForma + sol.pendingUnlockedForma < 2 ^ 64 ∧
      st.putSolaris c a sol.deactivate = st' := by
  simp only [onSubsidialisDeactivate,hsol,bind_eq_ok,Coin.extract_eq_ok,Coin.merge_eq_ok,pure_eq_ok]
  constructor
  · rintro ⟨_,⟨_,rfl⟩,_,⟨hn,rfl⟩,rfl⟩
    exact ⟨hn,by simp [Solaris.deactivate]⟩
  · rintro ⟨hn,rfl⟩
    exact ⟨_,⟨le_rfl,rfl⟩,_,⟨hn,rfl⟩,by simp [Solaris.deactivate]⟩

theorem onSubsidialisDeactivate_none (hsol : st.solarii c a = none) :
    st.onSubsidialisDeactivate c a = .ok st := by
  simp [onSubsidialisDeactivate,hsol]

end SolarisStorage

end Arx
