import Mathlib.Tactic

/-!
# Cells with a history

What is written is stale from the version on at which nobody who reads from there on sees it; only
what is stale can be thrown away.
-/

namespace Movelib
open Option

variable {V : Type}

/-- What is written to a cell at each version; `none` inside deletes it. -/
abbrev Writes (V : Type) := ℕ → Option (Option V)

/-- The value before version `u`, with the version at which it was written. -/
def before (w : Writes V) : ℕ → Option (ℕ × V)
  | 0 => none
  | u + 1 =>
    match w u with
    | some x => x.map fun y => (u,y)
    | none => before w u

/-- What was written at `v` is stale from `s` on. -/
def StaleAt (w : Writes V) (v s : ℕ) : Prop :=
  ∃ x, w s = some x ∧ (x = none ∧ v = s ∨ ∃ y, before w s = some (v,y))

/-- What was written at `v` is not stale below `T`. -/
def Kept (w : Writes V) (T v : ℕ) : Prop := ∀ s, StaleAt w v s → T ≤ s

variable {w w' : Writes V} {u v s q T : ℕ} {x : Option V} {y : V}

@[simp] theorem before_zero : before w 0 = none := rfl

theorem before_succ_of_write (h : w u = some x) : before w (u + 1) = x.map fun y => (u,y) := by
  simp only [before,h]

theorem before_succ_of_none (h : w u = none) : before w (u + 1) = before w u := by
  simp only [before,h]

theorem before_congr (h : ∀ z < u, w z = w' z) : before w u = before w' u := by
  induction u with
  | zero => rfl
  | succ u ih =>
    have hu : w u = w' u := h u (Nat.lt_succ_self u)
    rw [before,before,hu,ih fun z hz => h z (Nat.lt_succ_of_lt hz)]

theorem staleAt_congr (h : ∀ z ≤ s, w z = w' z) : StaleAt w v s ↔ StaleAt w' v s := by
  rw [StaleAt,StaleAt,h s le_rfl,before_congr fun z hz => h z hz.le]

theorem before_eq_some : before w u = some (v,y) ↔
    v < u ∧ w v = some (some y) ∧ ∀ z, v < z → z < u → w z = none := by
  induction u with
  | zero => simp
  | succ u ih =>
    cases hw : w u with
    | none =>
      rw [before_succ_of_none hw,ih]
      constructor
      · rintro ⟨hv,hwv,hz⟩
        refine ⟨by omega,hwv,fun z hvz hzu => ?_⟩
        rcases Nat.lt_succ_iff_lt_or_eq.mp hzu with hzu | rfl
        · exact hz z hvz hzu
        · exact hw
      · rintro ⟨hv,hwv,hz⟩
        have hne : v ≠ u := by
          rintro rfl
          rw [hw] at hwv
          cases hwv
        exact ⟨by omega,hwv,fun z hvz hzu => hz z hvz (by omega)⟩
    | some x =>
      rw [before_succ_of_write hw]
      constructor
      · intro h
        obtain ⟨y',rfl,hp⟩ := map_eq_some_iff.mp h
        cases hp
        exact ⟨by omega,hw,fun z hvz hzu => by omega⟩
      · rintro ⟨hv,hwv,hz⟩
        have hvu : v = u := by
          by_contra hne
          have := hz u (by omega) (by omega)
          rw [hw] at this
          cases this
        subst hvu
        rw [hw] at hwv
        rw [some.inj hwv,map_some]

theorem StaleAt.le (h : StaleAt w v s) : v ≤ s := by
  obtain ⟨x,-,⟨-,rfl⟩ | ⟨y,hy⟩⟩ := h
  · exact le_rfl
  · exact (before_eq_some.mp hy).1.le

/-- The value before `u` is one written below `u` and not stale below `u`. -/
theorem before_eq_some_iff_kept : before w u = some (v,y) ↔
    v < u ∧ w v = some (some y) ∧ Kept w u v := by
  constructor
  · intro h
    obtain ⟨hv,hwv,hz⟩ := before_eq_some.mp h
    refine ⟨hv,hwv,fun s hs => ?_⟩
    by_contra hsu
    obtain ⟨x,hx,⟨rfl,rfl⟩ | ⟨y',hy'⟩⟩ := hs
    · rw [hwv] at hx
      cases hx
    · rw [hz s (before_eq_some.mp hy').1 (not_le.mp hsu)] at hx
      cases hx
  · rintro ⟨hv,hwv,hkept⟩
    refine before_eq_some.mpr ⟨hv,hwv,?_⟩
    -- the first write after `v` would make the value stale
    intro z
    induction z using Nat.strong_induction_on with
    | _ z ih =>
      intro hvz hzu
      cases hz : w z with
      | none => rfl
      | some x =>
        have hbefore : before w z = some (v,y) :=
          before_eq_some.mpr ⟨hvz,hwv,fun z' h h' => ih z' h' h (h'.trans hzu)⟩
        exact absurd (hkept z ⟨x,hz,.inr ⟨y,hbefore⟩⟩) (not_le.mpr hzu)

theorem not_staleAt_of_tombstone (h : w v = some none) (hs : StaleAt w v s) : s = v := by
  obtain ⟨x,-,⟨-,rfl⟩ | ⟨y,hy⟩⟩ := hs
  · rfl
  · rw [(before_eq_some.mp hy).2.1] at h
    cases h

theorem staleAt_tombstone (h : w v = some none) : StaleAt w v v := ⟨none,h,.inl ⟨rfl,rfl⟩⟩

/-- Where a cell has no value but a write, the last write is a deletion. -/
theorem exists_tombstone (h : before w u = none) (hv : v < u) (hw : w v ≠ none) :
    ∃ z, v ≤ z ∧ z < u ∧ w z = some none ∧ ∀ z', z < z' → z' < u → w z' = none := by
  induction u with
  | zero => omega
  | succ u ih =>
    cases hu : w u with
    | none =>
      rw [before_succ_of_none hu] at h
      have hne : v ≠ u := fun e => hw (e ▸ hu)
      obtain ⟨z,hvz,hzu,hz,hlast⟩ := ih h (by omega)
      refine ⟨z,hvz,by omega,hz,fun z' h h' => ?_⟩
      rcases Nat.lt_succ_iff_lt_or_eq.mp h' with h' | rfl
      · exact hlast z' h h'
      · exact hu
    | some x =>
      rw [before_succ_of_write hu,map_eq_none_iff] at h
      subst h
      exact ⟨u,by omega,by omega,hu,fun z' h h' => by omega⟩

/-- The newest write that is kept is what is read, as long as nothing was thrown away that is not
stale at the place of the reading. -/
theorem before_of_newest (hT : T ≤ u) (hv : v < u) (hw : w v = some x) (hkept : Kept w T v)
    (hnewest : ∀ z, z < u → w z ≠ none → Kept w T z → z ≤ v) :
    before w u = x.map fun y => (v,y) := by
  cases hb : before w u with
  | some p =>
    obtain ⟨v',y⟩ := p
    obtain ⟨hv',hw',hk'⟩ := before_eq_some_iff_kept.mp hb
    have hle : v' ≤ v := hnewest v' hv' (hw' ▸ nofun) fun s hs => hT.trans (hk' s hs)
    have heq : v' = v := by
      by_contra hne
      have := (before_eq_some.mp hb).2.2 v (by omega) hv
      rw [hw] at this
      cases this
    subst heq
    rw [hw] at hw'
    rw [some.inj hw',map_some]
  | none =>
    obtain ⟨z,hvz,hzu,hz,-⟩ := exists_tombstone hb hv (hw ▸ nofun)
    cases x with
    | none => rfl
    | some y =>
      -- the value at `v` is stale no later than the deletion, which is then kept too
      exfalso
      have hstale : ∃ s, StaleAt w v s ∧ s < u := by
        by_contra hnot
        have hk : Kept w u v := fun s hs => not_lt.mp fun hsu => hnot ⟨s,hs,hsu⟩
        rw [before_eq_some_iff_kept.mpr ⟨hv,hw,hk⟩] at hb
        cases hb
      obtain ⟨s,hs,hsu⟩ := hstale
      have hsz : s ≤ z := by
        obtain ⟨x,-,⟨-,rfl⟩ | ⟨y',hy'⟩⟩ := hs
        · exact hvz
        · by_contra hzs
          have hne : v ≠ z := by
            rintro rfl
            rw [hw] at hz
            cases hz
          have := (before_eq_some.mp hy').2.2 z (by omega) (not_le.mp hzs)
          rw [hz] at this
          cases this
      have hkz : Kept w T z := by
        intro s' hs'
        rw [not_staleAt_of_tombstone hz hs']
        exact (hkept s hs).trans hsz
      have hzv := hnewest z hzu (hz ▸ nofun) hkz
      obtain rfl : z = v := le_antisymm hzv hvz
      rw [hw] at hz
      cases hz

theorem before_of_none_kept (hT : T ≤ u) (hnone : ∀ z, z < u → w z ≠ none → ¬ Kept w T z) :
    before w u = none := by
  cases hb : before w u with
  | none => rfl
  | some p =>
    obtain ⟨v,y⟩ := p
    obtain ⟨hv,hw,hk⟩ := before_eq_some_iff_kept.mp hb
    exact absurd (fun s hs => hT.trans (hk s hs)) (hnone v hv (hw ▸ nofun))

end Movelib
