import Arx.Framework.Subsidialis

/-!
# The three lists of the subsidialis and the epoch pass in closed form

`leave` copies a member to the leavers, and no epoch change takes it out of `active`: the lists are
disjoint exactly along the runs in which nobody leaves. Members are distinct and a second release of
a leaver changes nothing, so the storage after a pass is given at once by `updateAll` and
`releaseAll`.
-/

namespace Arx
open Movelib List

namespace Subsidialis

variable {sub : Subsidialis} {a : Address}

def ListsDistinct (sub : Subsidialis) : Prop :=
  (sub.active ++ (sub.pendingActive ++ sub.pendingInactive)).Nodup
  deriving Decidable

/-- What every run keeps: members and joiners are distinct, leavers are members. -/
structure Membership (sub : Subsidialis) : Prop where
  nodup : (sub.active ++ sub.pendingActive).Nodup
  leavers : ∀ a ∈ sub.pendingInactive, a ∈ sub.active

theorem Membership.join (h : sub.Membership) (ha : sub.getDominusState a = .inactive) :
    Membership { sub with pendingActive := sub.pendingActive ++ [a] } := by
  obtain ⟨hp,hact,_⟩ := getDominusState_eq_inactive.mp ha
  refine ⟨?_,h.leavers⟩
  rw [← append_assoc]
  apply h.nodup.append (nodup_singleton a)
  simp only [disjoint_singleton,mem_append,not_or]
  exact ⟨hact,hp⟩

theorem Membership.leave (h : sub.Membership) (ha : sub.getDominusState a = .active) :
    Membership { sub with pendingInactive := sub.pendingInactive ++ [a] } := by
  refine ⟨h.nodup,?_⟩
  intro b hb
  obtain hb | hb := mem_append.mp hb
  · exact h.leavers b hb
  · obtain rfl := mem_singleton.mp hb
    exact (getDominusState_eq_active.mp ha).2

theorem Membership.listsDistinct (h : sub.Membership) (hl : sub.pendingInactive = []) :
    sub.ListsDistinct := by
  rw [ListsDistinct]
  rw [hl,append_nil]
  exact h.nodup

theorem not_listsDistinct (hact : a ∈ sub.active) (hl : a ∈ sub.pendingInactive) :
    ¬ sub.ListsDistinct := by
  intro h
  exact (disjoint_of_nodup_append h) hact (mem_append_right _ hl)

end Subsidialis

namespace State

variable {s s' : State} {o : Op} {a : Address}

theorem genesis_membership (stores : CoinType → Address → Option CoinStore) :
    (genesis stores).subsidialis.Membership := ⟨nodup_nil,by simp [genesis]⟩

theorem reconfigure_lists (h : s.reconfigure = .ok s') :
    s'.subsidialis.active = s.subsidialis.active ++ s.subsidialis.pendingActive ∧
      s'.subsidialis.pendingActive = [] ∧ s'.subsidialis.pendingInactive = [] ∧
      s'.epoch = s.epoch + 1 := by
  obtain ⟨s₂,h₂,_,rfl⟩ := reconfigure_eq_ok.mp h
  obtain ⟨_,ha,hp,hi,he⟩ := epochPasses_ok (R := fun _ _ _ _ => True) h₂
  exact ⟨ha,hp,hi,by rw [← he]⟩

theorem step_membership (h : s.step o = .ok s') (hm : s.subsidialis.Membership) :
    s'.subsidialis.Membership := by
  cases step_lists h with
  | join c a hina hs he => exact hs ▸ hm.join hina
  | leave c a hact hs he => exact hs ▸ hm.leave hact
  | reconfigure h =>
    obtain ⟨ha,hp,hi,_⟩ := reconfigure_lists h
    refine ⟨?_,by simp [hi]⟩
    rw [ha,hp,append_nil]
    exact hm.nodup
  | other _ _ p hs he => exact hs ▸ ⟨hm.nodup,hm.leavers⟩

theorem reachable_membership {stores : CoinType → Address → Option CoinStore}
    (h : Reachable step (genesis stores) s) : s.subsidialis.Membership :=
  h.invariant (genesis_membership stores) fun _ _ _ hm hs => step_membership hs hm

theorem step_pendingInactive_nil (h : s.step o = .ok s') (ho : ∀ c a, o ≠ .leave c a)
    (hl : s.subsidialis.pendingInactive = []) : s'.subsidialis.pendingInactive = [] := by
  cases step_lists h with
  | join c a hina hs he | other _ _ p hs he => simpa [hs] using hl
  | leave c a => exact absurd rfl (ho c a)
  | reconfigure h => exact (reconfigure_lists h).2.2.1

theorem step_mem_pendingInactive (h : s.step o = .ok s') (ho : o ≠ .reconfigure)
    (ha : a ∈ s.subsidialis.pendingInactive) : a ∈ s'.subsidialis.pendingInactive := by
  cases step_lists h with
  | join c b hina hs he | other _ _ p hs he => simpa [hs] using ha
  | leave c b hact hs he => simp [hs,ha]
  | reconfigure h => exact absurd rfl ho

theorem leave_lists {c : CoinType} (h : s.leave c a = .ok s') :
    a ∈ s'.subsidialis.active ∧ a ∈ s'.subsidialis.pendingInactive := by
  obtain ⟨hact,rfl⟩ := leave_ok h
  refine ⟨(Subsidialis.getDominusState_eq_active.mp hact).2,?_⟩
  exact mem_append_right _ (mem_singleton_self a)

section Runs

variable {stores : CoinType → Address → Option CoinStore} {os : List Op}

/-- Every state of the run `os` keeps the three lists distinct, and no address that left
in the epoch before an epoch change of `os` is a member after it. -/
def LeaversMove (stores : CoinType → Address → Option CoinStore) (os : List Op) : Prop :=
  (∀ os₁ os₂ t, os = os₁ ++ os₂ → Reaches step (genesis stores) os₁ t →
    t.subsidialis.ListsDistinct) ∧
  (∀ os₁ c a os₂ os₃ t, os = (os₁ ++ .leave c a :: os₂ ++ [.reconfigure]) ++ os₃ →
    .reconfigure ∉ os₂ →
    Reaches step (genesis stores) (os₁ ++ .leave c a :: os₂ ++ [.reconfigure]) t →
    a ∉ t.subsidialis.active)

theorem leaversMove_iff (h : Reaches step (genesis stores) os s) :
    LeaversMove stores os ↔ ∀ c a, Op.leave c a ∉ os := by
  constructor
  -- The state right after the call has the leaver in two lists.
  · rintro ⟨hdist,_⟩ c a hmem
    obtain ⟨os₁,os₂,rfl⟩ := append_of_mem hmem
    obtain ⟨t,t',ht,_,hs,_⟩ := h.middle
    have ht' : Reaches step (genesis stores) (os₁ ++ [.leave c a]) t' := .snoc ht trivial hs
    obtain ⟨hact,hina⟩ := leave_lists hs
    exact Subsidialis.not_listsDistinct hact hina (hdist _ os₂ t' (by simp) ht')
  · intro hno
    refine ⟨?_,?_⟩
    -- Without a leave nobody is ever queued.
    · rintro os₁ os₂ t rfl ht
      have hrun := ht.of_forall (P := fun o => ∀ c a, o ≠ .leave c a) (by
        rintro o ho c a rfl
        exact hno c a (mem_append_left _ ho))
      have hl : t.subsidialis.pendingInactive = [] :=
        hrun.invariant (I := fun u => u.subsidialis.pendingInactive = []) rfl
          fun _ _ _ hu hg hs => step_pendingInactive_nil hs hg hu
      exact (reachable_membership ⟨_,ht⟩).listsDistinct hl
    · rintro os₁ c a os₂ os₃ t rfl
      exact absurd (by simp) (hno c a)

theorem leaversMove_join :
    LeaversMove (fun _ _ => none) [.join .arxCoin 1, .reconfigure, .join .lpArxXusdStable 2] := by
  have hrun : exec step (genesis fun _ _ => none)
      [.join .arxCoin 1, .reconfigure, .join .lpArxXusdStable 2] = .ok _ := rfl
  exact (leaversMove_iff (reaches_iff_exec.mpr hrun)).mpr (by simp)

/-- A dominus that leaves is in two lists at once, and is a member after the epoch. -/
theorem leave_keeps_member :
    ∃ s s', exec step (genesis fun _ _ => none)
        [.join .arxCoin 1, .reconfigure, .leave .arxCoin 1] = .ok s ∧
      s.step .reconfigure = .ok s' ∧
      ¬ s.subsidialis.ListsDistinct ∧ 1 ∈ s'.subsidialis.active := by
  refine ⟨_,_,rfl,rfl,?_,?_⟩ <;> decide

end Runs

end State

namespace SolarisStorage

variable {st st' : SolarisStorage} {c d : CoinType} {a : Address} {members leavers : List Address}

def rewardAt (o : Option Solaris) : ℕ :=
  match o with
  | none => 0
  | some sol => sol.luxReward

def updateAll (st : SolarisStorage) (c : CoinType) (members : List Address) : SolarisStorage :=
  { st with
    solarii := fun d a =>
      if d = c ∧ a ∈ members then (st.solarii d a).map Solaris.update else st.solarii d a
    luxSupply := st.luxSupply + (members.map fun a => rewardAt (st.solarii c a)).sum }

def releaseAll (st : SolarisStorage) (c : CoinType) (leavers : List Address) : SolarisStorage :=
  { st with
    solarii := fun d a =>
      if d = c ∧ a ∈ leavers then (st.solarii d a).map Solaris.deactivate else st.solarii d a }

theorem updateAll_mem (ha : a ∈ members) :
    (st.updateAll c members).solarii c a = (st.solarii c a).map Solaris.update := by
  simp [updateAll,ha]

theorem updateAll_notMem (h : d ≠ c ∨ a ∉ members) :
    (st.updateAll c members).solarii d a = st.solarii d a := by
  have hn : ¬ (d = c ∧ a ∈ members) := by tauto
  simp [updateAll,hn]

theorem releaseAll_mem (ha : a ∈ leavers) :
    (st.releaseAll c leavers).solarii c a = (st.solarii c a).map Solaris.deactivate := by
  simp [releaseAll,ha]

theorem releaseAll_notMem (h : d ≠ c ∨ a ∉ leavers) :
    (st.releaseAll c leavers).solarii d a = st.solarii d a := by
  have hn : ¬ (d = c ∧ a ∈ leavers) := by tauto
  simp [releaseAll,hn]

@[simp] theorem releaseAll_nil : st.releaseAll c [] = st := by
  simp [releaseAll]

theorem updateAll_nil : st.updateAll c [] = st := by
  simp [updateAll]

theorem updateAll_singleton {b : Address} (ha : a ∉ members) (hb : b ∈ members) :
    (st.updateAll c [a]).solarii c b = st.solarii c b := by
  apply updateAll_notMem
  right
  intro hba
  obtain rfl := mem_singleton.mp hba
  exact ha hb

theorem updateAll_cons (ha : a ∉ members) :
    (st.updateAll c [a]).updateAll c members = st.updateAll c (a :: members) := by
  have hrest : (members.map fun b => rewardAt ((st.updateAll c [a]).solarii c b)) =
      members.map fun b => rewardAt (st.solarii c b) :=
    map_congr_left fun b hb => congrArg rewardAt (updateAll_singleton ha hb)
  ext1
  · funext d b
    by_cases hb : b = a
    · subst hb
      simp [updateAll,ha]
    · simp [updateAll,hb]
  · rfl
  · rfl
  · change st.luxSupply + _ + _ = st.luxSupply + _
    rw [hrest]
    simp only [map_cons,map_nil,sum_cons,sum_nil]
    omega
  · rfl

theorem deactivate_deactivate (sol : Solaris) : sol.deactivate.deactivate = sol.deactivate := by
  simp [Solaris.deactivate]

theorem releaseAll_cons :
    (st.releaseAll c [a]).releaseAll c leavers = st.releaseAll c (a :: leavers) := by
  have hidem : Solaris.deactivate ∘ Solaris.deactivate = Solaris.deactivate :=
    funext deactivate_deactivate
  ext1
  · funext d b
    by_cases hd : d = c
    · subst hd
      by_cases hb : b = a
      · subst hb
        by_cases hl : b ∈ leavers
        · simp [releaseAll,hl,hidem]
        · simp [releaseAll,hl]
      · simp [releaseAll,hb]
    · simp [releaseAll,hd]
  all_goals rfl

theorem putSolaris_eq_update {sol sol' : Solaris} (hsol : st.solarii c a = some sol)
    (f : Solaris → Solaris) (hf : f sol = sol') :
    (st.putSolaris c a sol').solarii =
      fun d b => if d = c ∧ b ∈ [a] then (st.solarii d b).map f else st.solarii d b := by
  funext d b
  by_cases hk : d = c ∧ b = a
  · obtain ⟨rfl,rfl⟩ := hk
    simp [hsol,hf]
  · rw [putSolaris_other _ _ _ _ (by tauto)]
    simp [hk]

theorem onSubsidialisUpdate_eq_updateAll (h : st.onSubsidialisUpdate c a = .ok st') :
    st' = st.updateAll c [a] := by
  cases hsol : st.solarii c a with
  | none =>
    rw [onSubsidialisUpdate_none hsol] at h
    cases h
    ext1
    · funext d b
      by_cases hk : d = c ∧ b = a
      · obtain ⟨rfl,rfl⟩ := hk
        simp [updateAll,hsol]
      · simp [updateAll,hk]
    · rfl
    · rfl
    · simp [updateAll,hsol,rewardAt]
    · rfl
  | some sol =>
    obtain ⟨_,rfl⟩ := (onSubsidialisUpdate_eq_ok hsol).mp h
    ext1
    · exact putSolaris_eq_update hsol Solaris.update rfl
    · rfl
    · rfl
    · simp [updateAll,hsol,rewardAt]
    · rfl

theorem releaseAll_singleton {sol : Solaris} (hsol : st.solarii c a = some sol) :
    st.putSolaris c a sol.deactivate = st.releaseAll c [a] := by
  ext1
  · exact putSolaris_eq_update hsol Solaris.deactivate rfl
  all_goals rfl

theorem releaseAll_singleton_none (hsol : st.solarii c a = none) : st.releaseAll c [a] = st := by
  ext1
  · funext d b
    by_cases hk : d = c ∧ b = a
    · obtain ⟨rfl,rfl⟩ := hk
      simp [releaseAll,hsol]
    · simp [releaseAll,hk]
  all_goals rfl

def Releasable (o : Option Solaris) : Prop :=
  ∀ sol, o = some sol → sol.unlockedForma + sol.pendingUnlockedForma < 2 ^ 64

theorem onSubsidialisDeactivate_eq_releaseAll :
    st.onSubsidialisDeactivate c a = .ok st' ↔
      Releasable (st.solarii c a) ∧ st.releaseAll c [a] = st' := by
  cases hsol : st.solarii c a with
  | none => simp [onSubsidialisDeactivate_none hsol,releaseAll_singleton_none hsol,Releasable]
  | some sol => simp [onSubsidialisDeactivate_eq_ok hsol,releaseAll_singleton hsol,Releasable]

theorem releasable_releaseAll {b : Address} (ha : Releasable (st.solarii c a)) :
    Releasable ((st.releaseAll c [a]).solarii c b) ↔ Releasable (st.solarii c b) := by
  by_cases hb : b = a
  · subst hb
    rw [releaseAll_mem (mem_singleton_self b)]
    refine ⟨fun _ => ha,?_⟩
    rintro - sol hsol
    obtain ⟨sol₀,h₀,rfl⟩ := Option.map_eq_some_iff.mp hsol
    simpa [Solaris.deactivate] using ha sol₀ h₀
  · rw [releaseAll_notMem (.inr (by simpa using hb))]

@[simp] theorem releaseAll_getActiveLuxValue :
    (st.releaseAll c leavers).getActiveLuxValue = st.getActiveLuxValue := by
  funext d b
  rw [getActiveLuxValue,getActiveLuxValue]
  by_cases hk : d = c ∧ b ∈ leavers
  · obtain ⟨rfl,hb⟩ := hk
    rw [releaseAll_mem hb]
    cases st.solarii d b <;> rfl
  · rw [releaseAll_notMem (by tauto)]

theorem updateAll_getActiveLuxValue (ha : a ∈ members) :
    (st.updateAll c members).getActiveLuxValue c a = luxAt (st.solarii c a) := by
  rw [getActiveLuxValue]
  rw [updateAll_mem ha]
  cases st.solarii c a <;> rfl

theorem getActiveLuxValue_le_luxAt : st.getActiveLuxValue c a ≤ luxAt (st.solarii c a) := by
  unfold getActiveLuxValue luxAt
  cases st.solarii c a with
  | none => exact le_rfl
  | some sol => exact Nat.le_add_right _ _

theorem updateAll_getActiveLuxValue_le :
    (st.updateAll c members).getActiveLuxValue c a ≤ luxAt (st.solarii c a) := by
  by_cases ha : a ∈ members
  · exact (updateAll_getActiveLuxValue ha).le
  · have hsame : (st.updateAll c members).getActiveLuxValue c a = st.getActiveLuxValue c a := by
      rw [getActiveLuxValue,getActiveLuxValue,updateAll_notMem (.inr ha)]
    exact hsame.le.trans getActiveLuxValue_le_luxAt

end SolarisStorage

namespace State
open SolarisStorage

variable {s s' : State} {c : CoinType} {st st' : SolarisStorage} {members leavers : List Address}

theorem updateMembers_eq_updateAll (hnd : members.Nodup)
    (h : updateMembers c st members = .ok st') : st' = st.updateAll c members := by
  induction members generalizing st with
  | nil =>
    cases h
    exact updateAll_nil.symm
  | cons a members ih =>
    obtain ⟨hna,hnd⟩ := nodup_cons.mp hnd
    obtain ⟨st₁,h₁,h₂⟩ := bind_eq_ok.mp h
    rw [ih hnd h₂,onSubsidialisUpdate_eq_updateAll h₁,updateAll_cons hna]

theorem updateMembers_isOk (hnd : members.Nodup)
    (hfit : ∀ a ∈ members, ∀ sol, st.solarii c a = some sol →
      sol.nox < 2 ^ 64 ∧ sol.lux < 2 ^ 64)
    (hsupply : st.luxSupply + (members.map fun a => rewardAt (st.solarii c a)).sum ≤
      Math128.MAX_U128) : updateMembers c st members = .ok (st.updateAll c members) := by
  induction members generalizing st with
  | nil => simp [updateMembers,updateAll_nil]
  | cons a members ih =>
    obtain ⟨hna,hnd⟩ := nodup_cons.mp hnd
    simp only [map_cons,sum_cons] at hsupply
    have hstep : st.onSubsidialisUpdate c a = .ok (st.updateAll c [a]) := by
      have hok : ∃ st₁, st.onSubsidialisUpdate c a = .ok st₁ := by
        cases hsol : st.solarii c a with
        | none => exact ⟨_,onSubsidialisUpdate_none hsol⟩
        | some sol =>
          obtain ⟨hn,hl⟩ := hfit a mem_cons_self sol hsol
          rw [hsol,rewardAt] at hsupply
          exact ⟨_,(onSubsidialisUpdate_eq_ok hsol).mpr ⟨⟨hn,hl,.inr (by omega)⟩,rfl⟩⟩
      obtain ⟨st₁,h₁⟩ := hok
      rw [h₁,onSubsidialisUpdate_eq_updateAll h₁]
    -- The update of `a` leaves the other members and their rewards alone.
    simp only [updateMembers,hstep,ok_bind]
    rw [ih hnd,updateAll_cons hna]
    · intro b hb sol hsol
      rw [updateAll_singleton hna hb] at hsol
      exact hfit b (mem_cons_of_mem _ hb) sol hsol
    · rw [map_congr_left fun b hb => congrArg rewardAt (updateAll_singleton hna hb)]
      simpa [updateAll,add_assoc] using hsupply

theorem deactivateLeavers_eq_ok {power : ℕ} {p : SolarisStorage × ℕ} (hp : power < 2 ^ 64) :
    deactivateLeavers c st power leavers = .ok p ↔
      (∀ a ∈ leavers, Releasable (st.solarii c a)) ∧
      power + (leavers.map (st.getActiveLuxValue c)).sum < 2 ^ 64 ∧
      (st.releaseAll c leavers, power + (leavers.map (st.getActiveLuxValue c)).sum) = p := by
  induction leavers generalizing st power with
  | nil => simpa [deactivateLeavers] using fun _ => hp
  | cons a leavers ih =>
    simp only [deactivateLeavers,bind_eq_ok,onSubsidialisDeactivate_eq_releaseAll,
      addChecked_eq_ok,map_cons,sum_cons,forall_mem_cons]
    constructor
    · rintro ⟨_,⟨hrel,rfl⟩,_,⟨hlt,rfl⟩,h⟩
      rw [ih hlt,releaseAll_cons,releaseAll_getActiveLuxValue,add_assoc] at h
      obtain ⟨hall,hsum,hpe⟩ := h
      exact ⟨⟨hrel,fun b hb => (releasable_releaseAll hrel).mp (hall b hb)⟩,hsum,hpe⟩
    · rintro ⟨⟨hrel,hall⟩,hsum,rfl⟩
      have hlt : power + (st.releaseAll c [a]).getActiveLuxValue c a < 2 ^ 64 := by
        rw [releaseAll_getActiveLuxValue]
        omega
      refine ⟨_,⟨hrel,rfl⟩,_,⟨hlt,rfl⟩,?_⟩
      rw [ih hlt,releaseAll_cons,releaseAll_getActiveLuxValue,add_assoc]
      exact ⟨fun b hb => (releasable_releaseAll hrel).mpr (hall b hb),hsum,rfl⟩

def afterPass (s : State) (c : CoinType) : SolarisStorage :=
  (s.solaris.updateAll c s.subsidialis.active).releaseAll c s.subsidialis.pendingInactive

def leaversLux (s : State) (c : CoinType) : ℕ :=
  (s.subsidialis.pendingInactive.map fun a => luxAt (s.solaris.solarii c a)).sum

def luxPower (s : State) (c : CoinType) : ℕ :=
  ((s.subsidialis.active ++ s.subsidialis.pendingActive).map
    ((s.afterPass c).getActiveLuxValue c)).sum

def pass (s : State) (c : CoinType) : State :=
  { s with
    solaris := s.afterPass c
    subsidialis := { s.subsidialis with
      active := s.subsidialis.active ++ s.subsidialis.pendingActive
      pendingActive := []
      pendingInactive := []
      totalActivePower := s.subsidialis.totalActivePower - s.leaversLux c + s.luxPower c } }

/-- Leavers are members, so the pass has updated them before it counts their lux. -/
theorem leavers_sum (hm : s.subsidialis.Membership) :
    (s.subsidialis.pendingInactive.map
      ((s.solaris.updateAll c s.subsidialis.active).getActiveLuxValue c)).sum = s.leaversLux c := by
  congr 1
  apply map_congr_left
  intro a ha
  exact updateAll_getActiveLuxValue (hm.leavers a ha)

theorem onNewEpoch_closed (hm : s.subsidialis.Membership) :
    s.onNewEpoch c = .ok s' ↔
      (∃ st, updateMembers c s.solaris s.subsidialis.active = .ok st) ∧
      (∀ a ∈ s.subsidialis.pendingInactive, Releasable (s.solaris.solarii c a)) ∧
      s.leaversLux c < 2 ^ 64 ∧ s.leaversLux c ≤ s.subsidialis.totalActivePower ∧
      s.luxPower c < 2 ^ 64 ∧
      s.subsidialis.totalActivePower - s.leaversLux c + s.luxPower c < 2 ^ 128 ∧
      s.pass c = s' := by
  have hnd := hm.nodup.of_append_left
  -- An update leaves the forma balances alone.
  have hrel : ∀ a, Releasable ((s.solaris.updateAll c s.subsidialis.active).solarii c a) ↔
      Releasable (s.solaris.solarii c a) := by
    intro a
    by_cases ha : a ∈ s.subsidialis.active
    · rw [updateAll_mem ha]
      cases s.solaris.solarii c a <;> simp [Releasable,Solaris.update]
    · rw [updateAll_notMem (.inr ha)]
  rw [onNewEpoch_eq_ok]
  constructor
  · rintro ⟨st₁,st₂,leaving,h₁,h₂,hle,hlt,htot,rfl⟩
    obtain rfl := updateMembers_eq_updateAll hnd h₁
    rw [deactivateLeavers_eq_ok (by decide),zero_add,leavers_sum hm] at h₂
    obtain ⟨hall,hsum,hpe⟩ := h₂
    cases hpe
    exact ⟨⟨_,h₁⟩,fun a ha => (hrel a).mp (hall a ha),hsum,hle,hlt,htot,rfl⟩
  · rintro ⟨⟨st,h₁⟩,hall,hsum,hle,hlt,htot,rfl⟩
    obtain rfl := updateMembers_eq_updateAll hnd h₁
    refine ⟨_,_,_,h₁,?_,hle,hlt,htot,rfl⟩
    rw [deactivateLeavers_eq_ok (by decide),zero_add,leavers_sum hm]
    exact ⟨fun a ha => (hrel a).mpr (hall a ha),hsum,rfl⟩

end State

end Arx
