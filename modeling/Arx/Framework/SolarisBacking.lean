import Arx.Framework.SubsidialisProgress
import Arx.Movelib.Proportion

/-!
# The nox of a solaris and its locked forma

`remove_coins` burns a part of the active nox only. A solaris stays backed as long as the pending
nox at each removal is no more than what the rounding of the burned fraction leaves.
-/

namespace Arx
open Movelib

namespace Solaris

variable {k : ℕ} {sol sol' : Solaris}

/-- The nox is backed by the locked forma at `k` nox a coin. -/
def Backed (k : ℕ) (sol : Solaris) : Prop :=
  sol.activeNox + sol.pendingActiveNox ≤ k * sol.lockedForma
  deriving Decidable

/-- The removal of `r` coins leaves room for the pending nox. -/
def PendingFits (k : ℕ) (sol : Solaris) (r : ℕ) : Prop :=
  sol.pendingActiveNox ≤ k * (sol.lockedForma % r)

section

variable {r : ℕ} (hr : 0 < r) (hle : r ≤ sol.lockedForma)
    (hfull : sol.activeNox + sol.pendingActiveNox = k * sol.lockedForma)

include hr hle hfull

/-- In a fully backed solaris the burned part of the active nox is the part that backed the
removed coins, exactly when the pending nox fits. -/
theorem le_burned_iff : k * r ≤ sol.activeNox / (sol.lockedForma / r) ↔ sol.PendingFits k r := by
  have hf : 0 < sol.lockedForma / r := Nat.div_pos hle hr
  have hsplit : k * sol.lockedForma =
      k * r * (sol.lockedForma / r) + k * (sol.lockedForma % r) := by
    rw [mul_assoc,← Nat.mul_add,Nat.div_add_mod]
  rw [Nat.le_div_iff_mul_le hf,PendingFits]
  omega

theorem remove_backed_iff : (sol.remove r).Backed k ↔ sol.PendingFits k r := by
  rw [← le_burned_iff hr hle hfull]
  have hburn := Nat.div_le_self sol.activeNox (sol.lockedForma / r)
  have hlocked : k * (sol.lockedForma - r) = k * sol.lockedForma - k * r := Nat.mul_sub _ _ _
  have hkr := Nat.mul_le_mul_left k hle
  simp only [Backed,remove,hlocked]
  omega

end

/-- The burned part grows slower than the balance, so less nox is backed all the more. -/
theorem Backed.remove {r : ℕ} (h : sol.Backed k) (hr : 0 < r) (hle : r ≤ sol.lockedForma)
    (hfit : sol.PendingFits k r) : (sol.remove r).Backed k := by
  -- Fill the active nox up to a fully backed solaris and compare.
  let full : Solaris := { sol with activeNox := k * sol.lockedForma - sol.pendingActiveNox }
  have hnox : sol.activeNox + sol.pendingActiveNox ≤ k * sol.lockedForma := h
  have hfull : full.activeNox + full.pendingActiveNox = k * full.lockedForma := by
    simp only [full]
    omega
  have hbacked := (remove_backed_iff hr (show r ≤ full.lockedForma from hle) hfull).mpr hfit
  have hmono : sol.activeNox - sol.activeNox / (sol.lockedForma / r) ≤
      full.activeNox - full.activeNox / (sol.lockedForma / r) := by
    apply sub_div_le_sub_div
    simp only [full]
    omega
  exact (Nat.add_le_add_right hmono _).trans hbacked

theorem Backed.step {φ : Forma} (h : sol.Backed φ.noxIncentive)
    (hs : Step (some φ) (PendingFits φ.noxIncentive) sol sol') : sol'.Backed φ.noxIncentive := by
  have hnox : sol.activeNox + sol.pendingActiveNox ≤ φ.noxIncentive * sol.lockedForma := h
  cases hs with
  | addActive n hf =>
    cases hf
    simp only [Backed,creditActive,lock,Nat.mul_add,Nat.mul_comm n]
    omega
  | addPending n hf =>
    cases hf
    simp only [Backed,creditPending,lock,Nat.mul_add,Nat.mul_comm n]
    omega
  | remove r hr hle hR => exact h.remove hr hle hR
  | reactivate r hf hle =>
    cases hf
    simp only [Backed,creditActive,unlockBack,Nat.mul_add,Nat.mul_comm r]
    omega
  | withdraw w hle => exact h
  | update => simpa only [Backed,update,Nat.add_zero] using hnox
  | deactivate => exact h

/-- Dividing by a quotient that was rounded down gives the exact part, rounded down, as long as the
remainders make up for the rounding. -/
theorem div_div_eq_iff {x l r : ℕ} (hr : 0 < r) (hle : r ≤ l) :
    x / (l / r) = x * r / l ↔ x / (l / r) * (l % r) ≤ x % (l / r) * r := by
  have hq : 0 < l / r := Nat.div_pos hle hr
  have hx : x * r = x / (l / r) * (l / r) * r + x % (l / r) * r := by
    rw [← Nat.add_mul,Nat.div_add_mod']
  have hl : x / (l / r) * l = x / (l / r) * (l / r) * r + x / (l / r) * (l % r) := by
    rw [Nat.mul_assoc,← Nat.mul_add,Nat.div_add_mod']
  have hge : x * r / l ≤ x / (l / r) := by
    rw [Nat.le_div_iff_mul_le hq]
    refine Nat.le_of_mul_le_mul_right ?_ hr
    rw [Nat.mul_assoc]
    exact (Nat.mul_le_mul_left _ (Nat.div_mul_le_self l r)).trans (Nat.div_mul_le_self _ _)
  rw [← Nat.add_le_add_iff_left (n := x / (l / r) * (l / r) * r),← hl,← hx,
    ← Nat.le_div_iff_mul_le (hr.trans_le hle)]
  exact ⟨le_of_eq,fun h => le_antisymm h hge⟩

/-- A removal of up to `amount` coins finds coins to move, nox and lux to burn for them, and room
among the coins that are pending unlock. -/
structure Removable (sol : Solaris) (amount : ℕ) : Prop where
  locked : 0 < sol.lockedForma
  nox : sol.lockedForma / Math64.min amount sol.lockedForma ≤ sol.activeNox
  lux : sol.lockedForma / Math64.min amount sol.lockedForma ≤ sol.activeLux
  room : sol.pendingUnlockedForma + Math64.min amount sol.lockedForma < 2 ^ 64

/-- Rounding the divisor down for the removal of `r` coins takes no whole coin of `x`. -/
def RoundsWell (sol : Solaris) (r x : ℕ) : Prop :=
  x / (sol.lockedForma / r) * (sol.lockedForma % r) ≤ x % (sol.lockedForma / r) * r
  deriving Decidable

/-- `r` coins become pending unlock, and the corresponding part of the nox and the lux is burned. -/
def removePart (sol : Solaris) (r : ℕ) : Solaris :=
  { sol with
    lockedForma := sol.lockedForma - r
    pendingUnlockedForma := sol.pendingUnlockedForma + r
    activeNox := sol.activeNox - sol.activeNox * r / sol.lockedForma
    activeLux := sol.activeLux - sol.activeLux * r / sol.lockedForma }

theorem remove_eq_removePart_iff {r : ℕ} (hr : 0 < r) (hle : r ≤ sol.lockedForma) :
    sol.remove r = sol.removePart r ↔
      sol.RoundsWell r sol.activeNox ∧ sol.RoundsWell r sol.activeLux := by
  have hpart : ∀ x, x * r / sol.lockedForma ≤ x := fun x =>
    Nat.div_le_of_le_mul (by rw [Nat.mul_comm]; exact Nat.mul_le_mul_right x hle)
  have hnox := Nat.div_le_self sol.activeNox (sol.lockedForma / r)
  have hlux := Nat.div_le_self sol.activeLux (sol.lockedForma / r)
  rw [RoundsWell,RoundsWell,← div_div_eq_iff hr hle,← div_div_eq_iff hr hle,remove,removePart,
    Solaris.mk.injEq]
  have hnox' := hpart sol.activeNox
  have hlux' := hpart sol.activeLux
  constructor
  · rintro ⟨hx,-,hn,-⟩
    omega
  · rintro ⟨hn,hx⟩
    simp [hn,hx]

def FitsU64 (sol : Solaris) : Prop :=
  sol.lockedForma < 2 ^ 64 ∧ sol.activeNox < 2 ^ 64 ∧ sol.activeLux < 2 ^ 64

end Solaris

namespace SolarisStorage

variable {st : SolarisStorage} {c : CoinType} {a : Address} {sol : Solaris} {amount : ℕ}

theorem removeCoins_eq_ok (hm : st.Minted) (hsol : st.solarii c a = some sol) (hu : sol.FitsU64)
    (hz : amount ≠ 0) {st' : SolarisStorage} :
    st.removeCoins c a amount = .ok st' ↔ sol.Removable amount ∧
      let r := Math64.min amount sol.lockedForma
      { st with
        luxSupply := st.luxSupply - sol.activeLux / (sol.lockedForma / r)
        noxSupply := st.noxSupply - sol.activeNox / (sol.lockedForma / r) }.putSolaris c a
          (sol.remove r) = st' := by
  obtain ⟨hul,hun,hux⟩ := hu
  have hle : Math64.min amount sol.lockedForma ≤ sol.lockedForma := by
    rw [Math64.min_eq]
    exact min_le_right _ _
  have hpos : 0 < sol.lockedForma ↔ 0 < Math64.min amount sol.lockedForma := by
    rw [Math64.min_eq]
    omega
  have hnoxLe := Nat.div_le_self sol.activeNox (sol.lockedForma / Math64.min amount sol.lockedForma)
  have hluxLe := Nat.div_le_self sol.activeLux (sol.lockedForma / Math64.min amount sol.lockedForma)
  -- What is burned is part of the solaris, and the supply counts the whole solaris.
  have hnoxSupply : sol.nox ≤ st.noxSupply := by
    simpa only [noxLedger,hsol,noxAt] using hm.nox.le (c, a)
  have hluxSupply : sol.lux ≤ st.luxSupply := by
    simpa only [luxLedger,hsol,luxAt] using hm.lux.le (c, a)
  simp only [removeCoins,hz,if_false,bind_eq_ok,borrowSolaris_eq_ok,Coin.extract_eq_ok,
    Coin.merge_eq_ok,Uq64x64.fraction_decode_eq_ok,Coin.burn_eq_ok,pure_eq_ok]
  constructor
  · rintro ⟨_,hsol',_,⟨-,rfl⟩,_,⟨hroom,rfl⟩,_,⟨hr,-,-,rfl⟩,_,⟨hf,-,-,rfl⟩,_,⟨-,rfl⟩,_,⟨hnox,-,rfl⟩,
      _,⟨-,-,-,rfl⟩,_,⟨-,rfl⟩,_,⟨hlux,-,rfl⟩,rfl⟩
    obtain rfl := Option.some.inj (hsol.symm.trans hsol')
    exact ⟨⟨hpos.mpr (Nat.pos_of_ne_zero hr),(Nat.div_pos_iff.mp hnox).2,(Nat.div_pos_iff.mp hlux).2,
      hroom⟩,rfl⟩
  · rintro ⟨⟨hlocked,hnox,hlux,hroom⟩,rfl⟩
    have hr := hpos.mp hlocked
    have hf := Nat.div_pos hle hr
    exact ⟨sol,hsol,_,⟨hle,rfl⟩,_,⟨hroom,rfl⟩,
      _,⟨hr.ne',Uq64x64.mul_Q64_lt hul,(Nat.div_le_self _ _).trans_lt hul,rfl⟩,
      _,⟨hf.ne',Uq64x64.mul_Q64_lt hun,hnoxLe.trans_lt hun,rfl⟩,_,⟨hnoxLe,rfl⟩,
      _,⟨Nat.div_pos hnox hf,(hnoxLe.trans (Nat.le_add_right _ _)).trans hnoxSupply,rfl⟩,
      _,⟨hf.ne',Uq64x64.mul_Q64_lt hux,hluxLe.trans_lt hux,rfl⟩,_,⟨hluxLe,rfl⟩,
      _,⟨Nat.div_pos hlux hf,(hluxLe.trans (Nat.le_add_right _ _)).trans hluxSupply,rfl⟩,rfl⟩

end SolarisStorage

namespace State

variable {s₀ s : State} {os : List Op} {c : CoinType} {a : Address} {φ : Forma}

/-- The removals of `a` in `c` leave room for its pending nox. -/
def RemovesBacked (c : CoinType) (a : Address) (k : ℕ) (s : State) (o : Op) : Prop :=
  ∀ n sol, o = .removeCoins c a n → s.solaris.solarii c a = some sol →
    sol.pendingActiveNox ≤ k * (sol.lockedForma % Math64.min n sol.lockedForma)

/-- Along every run with such removals, the nox of a solaris that starts out empty is backed
by its locked forma. -/
theorem nox_backed (hφ : s₀.solaris.formae c = some φ)
    (hempty : s₀.solaris.solarii c a = some Solaris.empty)
    (h : Run step (RemovesBacked c a φ.noxIncentive) s₀ os s) :
    ∃ sol, s.solaris.solarii c a = some sol ∧
      sol.activeNox + sol.pendingActiveNox ≤ φ.noxIncentive * sol.lockedForma := by
  have hinv : s.solaris.formae c = some φ ∧
      ∃ sol, s.solaris.solarii c a = some sol ∧ sol.Backed φ.noxIncentive := by
    refine h.invariant (I := fun t => t.solaris.formae c = some φ ∧
      ∃ sol, t.solaris.solarii c a = some sol ∧ sol.Backed φ.noxIncentive)
      ⟨hφ,_,hempty,Nat.zero_le _⟩ ?_
    rintro t o u ⟨hf,sol,hsol,hb⟩ hg hs
    obtain ⟨hf',hev⟩ := step_evolves hs hf a (Q := Solaris.PendingFits φ.noxIncentive) hg
    rw [hsol] at hev
    obtain ⟨sol',hsol'⟩ := hev.exists_some
    refine ⟨hf',sol',hsol',?_⟩
    refine hev.invariant (Nat.zero_le _) (fun _ _ hi hst => hi.step hst) ?_ sol' hsol'
    rintro _ ⟨rfl⟩
    exact hb
  exact hinv.2

theorem nox_backed_two_deposits :
    ∃ s₀ s, exec step (genesis fundedStores) [.join .arxCoin 1] = .ok s₀ ∧
      exec step s₀ [.addCoins .arxCoin 1 5, .reconfigure, .addCoins .arxCoin 1 5, .reconfigure,
        .removeCoins .arxCoin 1 5] = .ok s ∧
      ∃ sol, s.solaris.solarii .arxCoin 1 = some sol ∧
        sol.activeNox + sol.pendingActiveNox ≤ 1 * sol.lockedForma := by
  obtain ⟨s₀,s,h₀,hf,he,hr⟩ : ∃ s₀ s, exec step (genesis fundedStores) [.join .arxCoin 1] =
      .ok s₀ ∧ s₀.solaris.formae .arxCoin = some ⟨1,1⟩ ∧
      s₀.solaris.solarii .arxCoin 1 = some Solaris.empty ∧
      Run step (RemovesBacked .arxCoin 1 1) s₀ [.addCoins .arxCoin 1 5, .reconfigure,
        .addCoins .arxCoin 1 5, .reconfigure, .removeCoins .arxCoin 1 5] s := by
    refine ⟨_,_,rfl,rfl,rfl,.cons ?_ rfl (.cons ?_ rfl (.cons ?_ rfl (.cons ?_ rfl
      (.cons ?_ rfl (.nil _)))))⟩
    -- Only the last step removes coins, and both deposits are active by then.
    · rintro _ _ ⟨⟩
    · rintro _ _ ⟨⟩
    · rintro _ _ ⟨⟩
    · rintro _ _ ⟨⟩
    · rintro _ _ ⟨⟩ ⟨⟩
      decide
  exact ⟨s₀,s,h₀,reaches_iff_exec.mp hr.reaches,nox_backed hf he hr⟩

/-- Five nox are active and five pending for ten locked coins. Removing five coins burns two
nox, and eight remain for five coins. -/
theorem nox_unbacked :
    ∃ s sol, exec step (genesis fundedStores)
        [.join .arxCoin 1, .addCoins .arxCoin 1 5, .reconfigure, .addCoins .arxCoin 1 5,
          .removeCoins .arxCoin 1 5] = .ok s ∧
      s.solaris.formae .arxCoin = some ⟨1,1⟩ ∧ s.solaris.solarii .arxCoin 1 = some sol ∧
      sol.activeNox + sol.pendingActiveNox = 8 ∧ 1 * sol.lockedForma = 5 := by
  exact ⟨_,_,rfl,rfl,rfl,rfl,rfl⟩

/-- A removal does not abort, moves the coins and burns the corresponding part of the nox and the
lux if and only if it is one of nothing, or it finds something to burn and the rounding of the
divisor takes no whole coin. -/
theorem removeCoins_goes_through_iff {stores : CoinType → Address → Option CoinStore} {sol : Solaris}
    (hreach : Reachable step (genesis stores) s)
    (hsol : s.solaris.solarii c a = some sol) (hu : sol.FitsU64) (amount : ℕ) :
    (∃ st', s.solaris.removeCoins c a amount = .ok st' ∧
      st'.solarii c a = some (sol.removePart (Math64.min amount sol.lockedForma)) ∧
      (Math64.min amount sol.lockedForma = 0 → st' = s.solaris)) ↔
    amount = 0 ∨ sol.Removable amount ∧
      sol.RoundsWell (Math64.min amount sol.lockedForma) sol.activeNox ∧
      sol.RoundsWell (Math64.min amount sol.lockedForma) sol.activeLux := by
  have hm : s.solaris.Minted :=
    hreach.invariant (I := fun t => t.solaris.Minted) (genesis_minted stores)
      fun _ _ _ ht hs => step_minted hs ht
  by_cases hz : amount = 0
  · subst hz
    refine iff_of_true ⟨s.solaris,rfl,?_,fun _ => rfl⟩ (.inl rfl)
    rw [hsol,Math64.min_eq]
    simp [Solaris.removePart]
  rw [or_iff_right hz]
  have hpart : sol.Removable amount → ∀ st : SolarisStorage,
      ((st.putSolaris c a (sol.remove (Math64.min amount sol.lockedForma))).solarii c a =
        some (sol.removePart (Math64.min amount sol.lockedForma)) ↔
        sol.RoundsWell (Math64.min amount sol.lockedForma) sol.activeNox ∧
          sol.RoundsWell (Math64.min amount sol.lockedForma) sol.activeLux) := by
    intro h st
    have hlocked := h.locked
    rw [SolarisStorage.putSolaris_self,Option.some.injEq]
    refine Solaris.remove_eq_removePart_iff ?_ ?_
    · rw [Math64.min_eq]
      omega
    · rw [Math64.min_eq]
      exact min_le_right _ _
  simp only [SolarisStorage.removeCoins_eq_ok hm hsol hu hz]
  constructor
  · rintro ⟨_,⟨h,rfl⟩,hafter,-⟩
    exact ⟨h,(hpart h _).mp hafter⟩
  · rintro ⟨h,hround⟩
    refine ⟨_,⟨h,rfl⟩,(hpart h _).mpr hround,fun hmin => ?_⟩
    have hlocked := h.locked
    rw [Math64.min_eq] at hmin
    omega

theorem removeCoins_goes_through_half :
    ∃ s st', exec step (genesis fundedStores) [.join .arxCoin 1, .addCoins .arxCoin 1 100] = .ok s ∧
      s.solaris.removeCoins .arxCoin 1 50 = .ok st' ∧
      st'.solarii .arxCoin 1 = some ⟨50,0,50,0,50,50,0⟩ := by
  obtain ⟨s,hs,hsol⟩ : ∃ s, exec step (genesis fundedStores) [.join .arxCoin 1,
      .addCoins .arxCoin 1 100] = .ok s ∧
      s.solaris.solarii .arxCoin 1 = some ⟨100,0,100,0,100,0,0⟩ := ⟨_,rfl,rfl⟩
  obtain ⟨st',hst',hafter,-⟩ := (removeCoins_goes_through_iff (.of_exec hs) hsol
    ⟨by decide,by decide,by decide⟩ 50).mpr
    (.inr ⟨⟨by decide,by decide,by decide,by decide⟩,by decide,by decide⟩)
  exact ⟨s,st',hs,hst',hafter⟩

/-- A removal from a solaris without locked coins divides by zero. And after the removal of two of
three coins, which burns all the seignorage, there is nothing to burn for the last one. -/
theorem removeCoins_aborts :
    (∃ s, exec step (genesis fundedStores) [.join .arxCoin 1] = .ok s ∧
      s.solaris.removeCoins .arxCoin 1 5 = .error Uq64x64.ERR_DIVIDE_BY_ZERO) ∧
    ∃ s, exec step (genesis fundedStores) [.join .arxCoin 1, .addCoins .arxCoin 1 3,
        .removeCoins .arxCoin 1 2] = .ok s ∧
      s.solaris.removeCoins .arxCoin 1 1 =
        .error (Error.invalidArgument Coin.EZERO_COIN_AMOUNT) := by
  obtain ⟨s,hs,hsol⟩ : ∃ s, exec step (genesis fundedStores) [.join .arxCoin 1,
      .addCoins .arxCoin 1 3, .removeCoins .arxCoin 1 2] = .ok s ∧
      s.solaris.solarii .arxCoin 1 = some ⟨0,0,0,0,1,2,0⟩ := ⟨_,rfl,rfl⟩
  refine ⟨⟨_,rfl,rfl⟩,s,hs,?_⟩
  rw [SolarisStorage.removeCoins,SolarisStorage.borrowSolaris,hsol]
  rfl

end State

end Arx
