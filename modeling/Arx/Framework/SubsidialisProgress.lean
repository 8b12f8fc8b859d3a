import Arx.Framework.SubsidialisEpoch
import Arx.Movelib.Proportion

/-!
# The two passes of an epoch change

It runs the pass for `ArxCoin` and then the pass for the pool coin over one list of leavers and one
total. While the lux supply stays below `2 ^ 64` the two passes can only abort on the leavers: when
the total does not cover their lux, or when their balances do not fit.
-/

namespace Arx
open Movelib List

namespace State
open SolarisStorage

variable {s s' : State} {c d : CoinType} {a : Address} {sol : Solaris}

theorem pass_other (h : d ≠ c) : (s.pass c).solaris.solarii d a = s.solaris.solarii d a := by
  change (s.afterPass c).solarii d a = _
  rw [afterPass]
  rw [releaseAll_notMem (.inl h),updateAll_notMem (.inl h)]

theorem pass_membership (hm : s.subsidialis.Membership) : (s.pass c).subsidialis.Membership := by
  refine ⟨?_,by simp [pass]⟩
  change (s.subsidialis.active ++ s.subsidialis.pendingActive ++ []).Nodup
  rw [append_nil]
  exact hm.nodup

theorem luxPower_le : s.luxPower c ≤ ((s.subsidialis.active ++ s.subsidialis.pendingActive).map
    fun a => luxAt (s.solaris.solarii c a)).sum := by
  apply sum_le_sum
  intro a _
  rw [afterPass]
  rw [releaseAll_getActiveLuxValue]
  exact updateAll_getActiveLuxValue_le

theorem epochPasses_eq (hm : s.subsidialis.Membership) (h : s.epochPasses = .ok s') :
    s' = (s.pass .arxCoin).pass .lpArxXusdStable ∧
      s.leaversLux .arxCoin ≤ s.subsidialis.totalActivePower := by
  rw [epochPasses,bind_eq_ok] at h
  obtain ⟨s₁,h₁,h₂⟩ := h
  obtain ⟨_,_,_,hle,_,_,rfl⟩ := (onNewEpoch_closed hm).mp h₁
  obtain ⟨_,_,_,_,_,_,rfl⟩ := (onNewEpoch_closed (pass_membership hm)).mp h₂
  exact ⟨rfl,hle⟩

theorem reconfigure_eq (hm : s.subsidialis.Membership) (h : s.reconfigure = .ok s') :
    s' = { (s.pass .arxCoin).pass .lpArxXusdStable with epoch := s.epoch + 1 } ∧
      s.leaversLux .arxCoin ≤ s.subsidialis.totalActivePower := by
  obtain ⟨s₂,h₂,_,rfl⟩ := reconfigure_eq_ok.mp h
  obtain ⟨rfl,hle⟩ := epochPasses_eq hm h₂
  exact ⟨rfl,hle⟩

section Total

def memberPower (s : State) (a : Address) : ℕ :=
  s.solaris.getActiveLuxValue .arxCoin a + s.solaris.getActiveLuxValue .lpArxXusdStable a

theorem memberPower_sum (s : State) :
    let t := (s.pass .arxCoin).pass .lpArxXusdStable
    (t.subsidialis.active.map t.memberPower).sum =
      s.luxPower .arxCoin + (s.pass .arxCoin).luxPower .lpArxXusdStable := by
  intro t
  have hactive : t.subsidialis.active = s.subsidialis.active ++ s.subsidialis.pendingActive :=
    append_nil _
  have harx : ∀ b, t.solaris.getActiveLuxValue .arxCoin b =
      (s.afterPass .arxCoin).getActiveLuxValue .arxCoin b := by
    intro b
    rfl
  have hlp : (s.pass .arxCoin).luxPower .lpArxXusdStable =
      (t.subsidialis.active.map (t.solaris.getActiveLuxValue .lpArxXusdStable)).sum := rfl
  rw [hlp,luxPower,← hactive,← sum_map_add]
  refine congrArg List.sum (map_congr_left fun b _ => ?_)
  rw [memberPower,harx]

theorem pass_pass_total (s : State) :
    ((s.pass .arxCoin).pass .lpArxXusdStable).subsidialis.totalActivePower =
      s.subsidialis.totalActivePower - s.leaversLux .arxCoin +
        (s.luxPower .arxCoin + (s.pass .arxCoin).luxPower .lpArxXusdStable) := by
  rw [← add_assoc]
  rfl

theorem reconfigure_total (hm : s.subsidialis.Membership) (h : s.reconfigure = .ok s') :
    s'.subsidialis.totalActivePower =
      s.subsidialis.totalActivePower - s.leaversLux .arxCoin +
        (s'.subsidialis.active.map s'.memberPower).sum := by
  obtain ⟨rfl,_⟩ := reconfigure_eq hm h
  rw [pass_pass_total,← memberPower_sum]
  rfl

/-- The total is the power of the members exactly when the leavers take all of the old
total with them: nothing else ever resets it. -/
theorem totalActivePower_eq_iff {stores : CoinType → Address → Option CoinStore}
    (hreach : Reachable step (genesis stores) s) (h : s.reconfigure = .ok s') :
    s'.subsidialis.totalActivePower = (s'.subsidialis.active.map s'.memberPower).sum ↔
      s.subsidialis.totalActivePower = s.leaversLux .arxCoin := by
  have hm := reachable_membership hreach
  have hle := (reconfigure_eq hm h).2
  have htot := reconfigure_total hm h
  omega

def fundedStores : CoinType → Address → Option CoinStore := fun _ _ => some ⟨1000,false⟩

theorem totalActivePower_eq_iff_first_epoch :
    ∃ s s', exec step (genesis fundedStores) [.join .arxCoin 1, .addCoins .arxCoin 1 100] = .ok s ∧
      s.reconfigure = .ok s' ∧
      s'.subsidialis.totalActivePower = (s'.subsidialis.active.map s'.memberPower).sum := by
  have hrun : exec step (genesis fundedStores)
      [.join .arxCoin 1, .addCoins .arxCoin 1 100] = .ok _ := rfl
  exact ⟨_,_,hrun,rfl,(totalActivePower_eq_iff (.of_exec hrun) rfl).mpr rfl⟩

/-- Two epochs of one member with a hundred lux: the total is two hundred. -/
theorem totalActivePower_doubles :
    ∃ s', exec step (genesis fundedStores)
        [.join .arxCoin 1, .addCoins .arxCoin 1 100, .reconfigure, .reconfigure] = .ok s' ∧
      s'.subsidialis.totalActivePower = 200 ∧
      (s'.subsidialis.active.map s'.memberPower).sum = 100 := by
  exact ⟨_,rfl,rfl,rfl⟩

end Total

section Release

/-- The pending forma of `sol` is unlocked in `st`, and any part of the unlocked forma can
be withdrawn to a wallet that takes it. -/
def Released (st : SolarisStorage) (c : CoinType) (a : Address) (sol : Solaris) : Prop :=
  ∃ sol', st.solarii c a = some sol' ∧ sol'.pendingUnlockedForma = 0 ∧
    sol'.unlockedForma = sol.unlockedForma + sol.pendingUnlockedForma ∧
    ∀ n store, 0 < n → n ≤ sol'.unlockedForma → st.stores c a = some store →
      store.frozen = false → store.coin + n < 2 ^ 64 →
      ∃ st', st.withdrawCoins c a n = .ok st' ∧
        st'.stores c a = some { store with coin := store.coin + n }

theorem withdrawCoins_isOk {st : SolarisStorage} {n : ℕ} {store : CoinStore}
    (hsol : st.solarii c a = some sol) (hpos : 0 < n) (hle : n ≤ sol.unlockedForma)
    (hstore : st.stores c a = some store) (hfrozen : store.frozen = false)
    (hfit : store.coin + n < 2 ^ 64) :
    ∃ st', st.withdrawCoins c a n = .ok st' ∧
      st'.stores c a = some { store with coin := store.coin + n } := by
  have hn : n ≠ 0 := hpos.ne'
  have hmin : Math64.min n sol.unlockedForma = n := by
    rw [Math64.min_eq]
    exact min_eq_left hle
  have hdep : Coin.deposit (st.stores c a) n = .ok { store with coin := store.coin + n } := by
    rw [Coin.deposit_eq_ok]
    exact ⟨store,hstore,hfrozen,hfit,rfl⟩
  have hext : Coin.extract sol.unlockedForma n = .ok (sol.unlockedForma - n, n) :=
    Coin.extract_eq_ok.mpr ⟨hle,rfl⟩
  refine ⟨(st.putSolaris c a { sol with unlockedForma := sol.unlockedForma - n }).putStore c a
    { store with coin := store.coin + n },?_,by simp [putStore]⟩
  simp [withdrawCoins,hn,borrowSolaris_eq_ok.mpr hsol,hmin,hext,hdep]

theorem released_iff {st : SolarisStorage} {sol sol' : Solaris} (h : st.solarii c a = some sol') :
    Released st c a sol ↔ sol'.pendingUnlockedForma = 0 ∧
      sol'.unlockedForma = sol.unlockedForma + sol.pendingUnlockedForma := by
  constructor
  · rintro ⟨sol₁,h₁,hp,hu,_⟩
    cases h.symm.trans h₁
    exact ⟨hp,hu⟩
  · rintro ⟨hp,hu⟩
    exact ⟨sol',h,hp,hu,fun n store hpos hle hst hfr hfit =>
      withdrawCoins_isOk h hpos hle hst hfr hfit⟩

theorem pass_leaver (hm : s.subsidialis.Membership) (ha : a ∈ s.subsidialis.pendingInactive)
    (hsol : s.solaris.solarii c a = some sol) :
    (s.pass c).solaris.solarii c a = some sol.update.deactivate := by
  change (s.afterPass c).solarii c a = _
  rw [afterPass]
  rw [releaseAll_mem ha,updateAll_mem (hm.leavers a ha),hsol]
  rfl

theorem pass_member (hl : s.subsidialis.pendingInactive = []) (ha : a ∈ s.subsidialis.active)
    (hsol : s.solaris.solarii c a = some sol) :
    (s.pass c).solaris.solarii c a = some sol.update := by
  change (s.afterPass c).solarii c a = _
  rw [afterPass]
  rw [hl,releaseAll_nil,updateAll_mem ha,hsol]
  rfl

/-- Both passes run for a leaver, but the first has emptied the queue that the second reads. -/
theorem reconfigure_released_iff (hm : s.subsidialis.Membership)
    (ha : a ∈ s.subsidialis.pendingInactive) (hc : c = .arxCoin ∨ c = .lpArxXusdStable)
    (hsol : s.solaris.solarii c a = some sol) (h : s.reconfigure = .ok s') :
    Released s'.solaris c a sol ↔ c = .arxCoin ∨ sol.pendingUnlockedForma = 0 := by
  obtain ⟨rfl,_⟩ := reconfigure_eq hm h
  obtain rfl | rfl := hc
  · have hafter : ((s.pass .arxCoin).pass .lpArxXusdStable).solaris.solarii .arxCoin a =
        some sol.update.deactivate := by
      exact pass_leaver hm ha hsol
    rw [released_iff hafter]
    simp [Solaris.deactivate,Solaris.update]
  · have hafter : ((s.pass .arxCoin).pass .lpArxXusdStable).solaris.solarii .lpArxXusdStable a =
        some sol.update := by
      apply pass_member rfl
      · exact mem_append_left _ (hm.leavers a ha)
      · exact hsol
    rw [released_iff hafter]
    simp [Solaris.update]

/-- After a `leave`, whatever happens in the rest of the epoch, the epoch change releases
the pending forma of the coin types that its first pass serves. -/
theorem leave_released_iff {stores : CoinType → Address → Option CoinStore} {s₀ s₁ : State}
    {c₀ : CoinType} {os : List Op} {sol : Solaris} (hreach : Reachable step (genesis stores) s₀)
    (hleave : s₀.leave c₀ a = .ok s₁) (hrun : Reaches step s₁ os s) (hos : .reconfigure ∉ os)
    (hc : c = .arxCoin ∨ c = .lpArxXusdStable) (hsol : s.solaris.solarii c a = some sol)
    (h : s.reconfigure = .ok s') :
    Released s'.solaris c a sol ↔ c = .arxCoin ∨ sol.pendingUnlockedForma = 0 := by
  have hs₁ : Reachable step (genesis stores) s₁ := hreach.tail (o := .leave c₀ a) hleave
  have hm : s.subsidialis.Membership :=
    hrun.invariant (I := fun t => t.subsidialis.Membership) (reachable_membership hs₁)
      fun _ _ _ hm _ hs => step_membership hs hm
  have hepoch := hrun.of_forall (P := fun o => o ≠ .reconfigure) (by
    rintro o ho rfl
    exact hos ho)
  have ha : a ∈ s.subsidialis.pendingInactive :=
    hepoch.invariant (I := fun t => a ∈ t.subsidialis.pendingInactive) (leave_lists hleave).2
      fun _ _ _ hu ho hs => step_mem_pendingInactive hs ho hu
  exact reconfigure_released_iff hm ha hc hsol h

theorem leave_released_arxCoin :
    ∃ s s' sol, exec step (genesis fundedStores)
        [.join .arxCoin 1, .addCoins .arxCoin 1 100, .reconfigure, .removeCoins .arxCoin 1 50,
          .leave .arxCoin 1] = .ok s ∧
      s.reconfigure = .ok s' ∧ s.solaris.solarii .arxCoin 1 = some sol ∧
      sol.pendingUnlockedForma = 50 ∧ Released s'.solaris .arxCoin 1 sol := by
  have hrun : exec step (genesis fundedStores)
      [.join .arxCoin 1, .addCoins .arxCoin 1 100, .reconfigure, .removeCoins .arxCoin 1 50] =
        .ok _ := rfl
  exact ⟨_,_,_,rfl,rfl,rfl,rfl,(leave_released_iff (.of_exec hrun)
    (show State.leave _ .arxCoin 1 = .ok _ from rfl) (.nil _) (by simp) (.inl rfl) rfl rfl).mpr
      (.inl rfl)⟩

/-- A leaver with pool coins: the epoch change forgets the leaver and keeps the coins locked. -/
theorem leave_keeps_pool_forma :
    ∃ s s' sol, exec step (genesis fundedStores)
        [.join .lpArxXusdStable 1, .addCoins .lpArxXusdStable 1 100, .reconfigure,
          .removeCoins .lpArxXusdStable 1 50, .leave .lpArxXusdStable 1] = .ok s ∧
      s.reconfigure = .ok s' ∧ s'.solaris.solarii .lpArxXusdStable 1 = some sol ∧
      sol.pendingUnlockedForma = 50 ∧ sol.unlockedForma = 0 ∧
      s'.subsidialis.pendingInactive = [] := by
  exact ⟨_,_,_,rfl,rfl,rfl,rfl,rfl,rfl⟩

end Release

end State

namespace Solaris

/-- The lux of a solaris covers its nox, both the counted part and the pending one. -/
structure NoxCovered (sol : Solaris) : Prop where
  active : sol.activeNox ≤ sol.activeLux
  pending : sol.pendingActiveNox ≤ sol.pendingActiveLux

theorem NoxCovered.step {R : Solaris → ℕ → Prop} {sol sol' : Solaris} (h : sol.NoxCovered)
    (hs : Step (some ⟨1,1⟩) R sol sol') : sol'.NoxCovered := by
  obtain ⟨ha,hp⟩ := h
  cases hs with
  | addActive n hf | reactivate r hf hle =>
    cases hf
    exact ⟨Nat.add_le_add_right ha _,hp⟩
  | addPending n hf =>
    cases hf
    exact ⟨ha,Nat.add_le_add_right hp _⟩
  | remove r hr hle hR => exact ⟨sub_div_le_sub_div _ ha,hp⟩
  | withdraw w hle | deactivate => exact ⟨ha,hp⟩
  | update => exact ⟨Nat.add_le_add ha hp,Nat.zero_le _⟩

theorem NoxCovered.nox_le_lux {sol : Solaris} (h : sol.NoxCovered) : sol.nox ≤ sol.lux :=
  Nat.add_le_add h.active h.pending

theorem luxReward_le_nox (sol : Solaris) : sol.luxReward ≤ sol.nox := Nat.div_le_self _ _

end Solaris

namespace State
open SolarisStorage

variable {s s' : State} {c : CoinType} {a : Address}

def Counted (c : CoinType) : Prop := c = .arxCoin ∨ c = .lpArxXusdStable

structure Sound (s : State) : Prop where
  membership : s.subsidialis.Membership
  formae : ∀ c, Counted c → s.solaris.formae c = some ⟨1,1⟩
  covered : ∀ c, Counted c → ∀ a sol, s.solaris.solarii c a = some sol → sol.NoxCovered
  supply : s.solaris.Minted
  epoch : s.epoch < 2 ^ 64
  total : s.subsidialis.totalActivePower ≤ s.epoch * (2 ^ 64 - 1)

theorem genesis_sound (stores : CoinType → Address → Option CoinStore) :
    (genesis stores).Sound where
  membership := genesis_membership stores
  formae := by
    rintro c (rfl | rfl) <;> rfl
  covered := by
    intro c _ a sol hsol
    cases hsol
  supply := genesis_minted stores
  epoch := Nat.two_pow_pos 64
  total := Nat.zero_le _

theorem Sound.lux_le (h : s.Sound) :
    ((s.subsidialis.active ++ s.subsidialis.pendingActive).map
        fun a => luxAt (s.solaris.solarii .arxCoin a)).sum +
      ((s.subsidialis.active ++ s.subsidialis.pendingActive).map
        fun a => luxAt (s.solaris.solarii .lpArxXusdStable a)).sum ≤ s.solaris.luxSupply := by
  -- Every member counts once in each coin type, so the keys of the ledger are distinct.
  set l := s.subsidialis.active ++ s.subsidialis.pendingActive
  have hinj : ∀ c : CoinType, Function.Injective fun a : Address => (c, a) := by
    intro c a b hab
    exact (Prod.mk.inj hab).2
  have hnd : (l.map (fun a => (CoinType.arxCoin, a)) ++
      l.map (fun a => (CoinType.lpArxXusdStable, a))).Nodup := by
    have hm : l.Nodup := h.membership.nodup
    refine (hm.map (hinj _)).append (hm.map (hinj _)) ?_
    intro k hk hk'
    obtain ⟨a,_,rfl⟩ := mem_map.mp hk
    obtain ⟨b,_,hb⟩ := mem_map.mp hk'
    cases hb
  have hsum := h.supply.lux.list_sum hnd
  simpa only [map_append,map_map,sum_append,Function.comp_def,luxLedger] using hsum

theorem first_pass_solarii (s : State) (b : Address) :
    (s.pass .arxCoin).solaris.solarii .lpArxXusdStable b =
      s.solaris.solarii .lpArxXusdStable b := pass_other (by decide)

theorem first_pass_members (s : State) :
    (s.pass .arxCoin).subsidialis.active ++ (s.pass .arxCoin).subsidialis.pendingActive =
      s.subsidialis.active ++ s.subsidialis.pendingActive := append_nil _

theorem Sound.luxPower_le (h : s.Sound) :
    s.luxPower .arxCoin + (s.pass .arxCoin).luxPower .lpArxXusdStable ≤ s.solaris.luxSupply := by
  have harx := State.luxPower_le (s := s) (c := .arxCoin)
  have hlp := State.luxPower_le (s := s.pass .arxCoin) (c := .lpArxXusdStable)
  simp only [first_pass_solarii,first_pass_members] at hlp
  exact (Nat.add_le_add harx hlp).trans h.lux_le

theorem Sound.step {o : Op} (h : s.Sound) (hlux : s.solaris.luxSupply < 2 ^ 64)
    (hs : s.step o = .ok s') : s'.Sound := by
  have hev : ∀ c, Counted c → ∀ a, s'.solaris.formae c = some ⟨1,1⟩ ∧
      Solaris.Evolves (some ⟨1,1⟩) (fun _ _ => True) (s.solaris.solarii c a)
        (s'.solaris.solarii c a) :=
    fun c hc a => step_evolves hs (h.formae c hc) a fun _ _ _ _ => trivial
  have hcov : ∀ c, Counted c → ∀ a sol, s'.solaris.solarii c a = some sol → sol.NoxCovered := by
    intro c hc a sol hsol
    refine (hev c hc a).2.invariant ⟨le_rfl,le_rfl⟩ (fun _ _ hn hst => hn.step hst)
      (h.covered c hc a) sol hsol
  have hrest : s'.epoch < 2 ^ 64 ∧
      s'.subsidialis.totalActivePower ≤ s'.epoch * (2 ^ 64 - 1) := by
    cases step_lists hs with
    | join c a hina hsub he | leave c a hact hsub he | other _ _ p hsub he =>
      exact ⟨he ▸ h.epoch,by rw [hsub,he]; exact h.total⟩
    | reconfigure hrec =>
      have hpow := h.luxPower_le
      have hold := h.total
      obtain ⟨s₂,h₂,hlt,rfl⟩ := reconfigure_eq_ok.mp hrec
      obtain ⟨rfl,_⟩ := epochPasses_eq h.membership h₂
      refine ⟨hlt,?_⟩
      change ((s.pass .arxCoin).pass .lpArxXusdStable).subsidialis.totalActivePower ≤
        (s.epoch + 1) * (2 ^ 64 - 1)
      rw [pass_pass_total]
      omega
  exact ⟨step_membership hs h.membership,fun c hc => (hev c hc 0).1,hcov,
    step_minted hs h.supply,hrest.1,hrest.2⟩

theorem run_sound {stores : CoinType → Address → Option CoinStore} {os : List Op}
    (h : Run step (fun t _ => t.solaris.luxSupply < 2 ^ 64) (genesis stores) os s) : s.Sound :=
  h.invariant (genesis_sound stores) fun _ _ _ hi hg hs => hi.step hg hs

theorem reward_sum_le {st : SolarisStorage} (members : List Address)
    (hcov : ∀ a sol, st.solarii c a = some sol → sol.NoxCovered) :
    (members.map fun a => rewardAt (st.solarii c a)).sum ≤
      (members.map fun a => luxAt (st.solarii c a)).sum := by
  apply sum_le_sum
  intro a _
  cases hsol : st.solarii c a with
  | none => exact le_rfl
  | some sol => exact sol.luxReward_le_nox.trans (hcov a sol hsol).nox_le_lux

theorem onNewEpoch_isOk {S : ℕ} (hm : s.subsidialis.Membership)
    (hcov : ∀ a sol, s.solaris.solarii c a = some sol → sol.NoxCovered ∧ sol.lux ≤ S)
    (hsum : ((s.subsidialis.active ++ s.subsidialis.pendingActive).map
      fun a => luxAt (s.solaris.solarii c a)).sum ≤ S) (hS : S < 2 ^ 64)
    (hsupply : s.solaris.luxSupply + S ≤ Math128.MAX_U128)
    (hrel : ∀ a ∈ s.subsidialis.pendingInactive, Releasable (s.solaris.solarii c a))
    (hleave : s.leaversLux c < 2 ^ 64) (hle : s.leaversLux c ≤ s.subsidialis.totalActivePower)
    (htot : s.subsidialis.totalActivePower + s.luxPower c < 2 ^ 128) :
    s.onNewEpoch c = .ok (s.pass c) := by
  rw [onNewEpoch_closed hm]
  refine ⟨⟨_,updateMembers_isOk hm.nodup.of_append_left ?_ ?_⟩,hrel,hleave,hle,?_,by omega,rfl⟩
  · intro a _ sol hsol
    obtain ⟨hn,hl⟩ := hcov a sol hsol
    exact ⟨hn.nox_le_lux.trans_lt (hl.trans_lt hS),hl.trans_lt hS⟩
  · have hreward := reward_sum_le s.subsidialis.active
      fun a sol hsol => (hcov a sol hsol).1
    rw [map_append,sum_append] at hsum
    omega
  · exact (State.luxPower_le.trans hsum).trans_lt hS

theorem Sound.covered_lux {sol : Solaris} (h : s.Sound) (hc : Counted c)
    (hsol : s.solaris.solarii c a = some sol) :
    sol.NoxCovered ∧ sol.lux ≤ s.solaris.luxSupply := by
  refine ⟨h.covered c hc a sol hsol,?_⟩
  simpa only [luxLedger,hsol,luxAt] using h.supply.lux.le (c, a)

section

variable (h : s.Sound) (hlux : s.solaris.luxSupply < 2 ^ 64)

include h hlux

/-- Every epoch adds less than `2 ^ 64` to the total, and there are less than `2 ^ 64` epochs. -/
theorem Sound.total_lt : s.subsidialis.totalActivePower + s.solaris.luxSupply < 2 ^ 128 := by
  have he := h.epoch
  have ht := h.total
  omega

theorem Sound.first_pass
    (hrel : ∀ a ∈ s.subsidialis.pendingInactive, Releasable (s.solaris.solarii .arxCoin a))
    (hlt : s.leaversLux .arxCoin < 2 ^ 64)
    (hle : s.leaversLux .arxCoin ≤ s.subsidialis.totalActivePower) :
    s.onNewEpoch .arxCoin = .ok (s.pass .arxCoin) := by
  have hsum := h.lux_le
  have hpow := h.luxPower_le
  have htotal := h.total_lt hlux
  have hmax := Math128.max_succ
  refine onNewEpoch_isOk (S := s.solaris.luxSupply) h.membership ?_ ?_ hlux ?_ hrel hlt hle ?_
  · exact fun a sol hsol => h.covered_lux (.inl rfl) hsol
  · omega
  · omega
  · omega

theorem Sound.second_pass :
    (s.pass .arxCoin).onNewEpoch .lpArxXusdStable =
      .ok ((s.pass .arxCoin).pass .lpArxXusdStable) := by
  have hsum := h.lux_le
  have hpow := h.luxPower_le
  have htotal := h.total_lt hlux
  have hmax := Math128.max_succ
  have hreward := reward_sum_le s.subsidialis.active
    fun a sol hsol => (h.covered_lux (c := .arxCoin) (.inl rfl) hsol).1
  have hsupply : (s.pass .arxCoin).solaris.luxSupply = s.solaris.luxSupply +
      (s.subsidialis.active.map fun a => rewardAt (s.solaris.solarii .arxCoin a)).sum := rfl
  have htotal₁ : (s.pass .arxCoin).subsidialis.totalActivePower =
      s.subsidialis.totalActivePower - s.leaversLux .arxCoin + s.luxPower .arxCoin := rfl
  refine onNewEpoch_isOk (S := s.solaris.luxSupply) (pass_membership h.membership) ?_ ?_ hlux ?_
    nofun (Nat.two_pow_pos 64) (Nat.zero_le _) ?_
  · intro a sol hsol
    exact h.covered_lux (.inr rfl) hsol
  · simp only [first_pass_solarii,first_pass_members]
    omega
  · rw [map_append,sum_append] at hsum
    omega
  · omega

end

/-- The two passes go through exactly when the total covers the lux of the leavers and the
leavers' balances fit. -/
theorem epochPasses_ok_iff {stores : CoinType → Address → Option CoinStore} {os : List Op}
    (h : Run step (fun t _ => t.solaris.luxSupply < 2 ^ 64) (genesis stores) os s)
    (hlux : s.solaris.luxSupply < 2 ^ 64) :
    (∃ s', s.epochPasses = .ok s') ↔
      s.leaversLux .arxCoin ≤ s.subsidialis.totalActivePower ∧ s.leaversLux .arxCoin < 2 ^ 64 ∧
      ∀ a ∈ s.subsidialis.pendingInactive, ∀ sol, s.solaris.solarii .arxCoin a = some sol →
        sol.unlockedForma + sol.pendingUnlockedForma < 2 ^ 64 := by
  have hsd := run_sound h
  constructor
  · rintro ⟨s',hs'⟩
    rw [epochPasses,bind_eq_ok] at hs'
    obtain ⟨s₁,h₁,_⟩ := hs'
    obtain ⟨_,hrel,hlt,hle,_⟩ := (onNewEpoch_closed hsd.membership).mp h₁
    exact ⟨hle,hlt,hrel⟩
  · rintro ⟨hle,hlt,hrel⟩
    exact ⟨_,by rw [epochPasses,hsd.first_pass hlux hrel hlt hle,ok_bind,hsd.second_pass hlux]⟩

/-- The lux of the member that leaves was added when it joined. -/
theorem epochPasses_ok_leaver : ∃ s s', exec step (genesis fundedStores)
      [.join .arxCoin 1, .addCoins .arxCoin 1 100, .reconfigure, .leave .arxCoin 1] = .ok s ∧
    s.subsidialis.pendingInactive = [1] ∧ s.leaversLux .arxCoin = 100 ∧
    s.epochPasses = .ok s' := by
  have hrun : Run step (fun t _ => t.solaris.luxSupply < 2 ^ 64) (genesis fundedStores)
      [.join .arxCoin 1, .addCoins .arxCoin 1 100, .reconfigure, .leave .arxCoin 1] _ :=
    .cons (by decide) rfl (.cons (by decide) rfl (.cons (by decide) rfl
      (.cons (by decide) rfl (.nil _))))
  obtain ⟨s',hs'⟩ := (epochPasses_ok_iff hrun (by decide)).mpr ⟨by decide,by decide,by
    intro a ha sol hsol
    obtain rfl := List.mem_singleton.mp ha
    cases hsol
    decide⟩
  exact ⟨_,s',rfl,rfl,by decide,hs'⟩

/-- A member adds coins and leaves in the same epoch: its new lux is active when the pass
subtracts it, and was never added. -/
theorem epochPasses_aborts :
    ∃ s, Run step (fun t _ => t.solaris.luxSupply < 2 ^ 64) (genesis fundedStores)
        [.join .arxCoin 1, .reconfigure, .addCoins .arxCoin 1 100, .leave .arxCoin 1] s ∧
      s.solaris.luxSupply < 2 ^ 64 ∧ s.epochPasses = .error .arithmeticError := by
  refine ⟨_,.cons ?_ rfl (.cons ?_ rfl (.cons ?_ rfl (.cons ?_ rfl (.nil _)))),?_,rfl⟩ <;> decide

end State

end Arx
