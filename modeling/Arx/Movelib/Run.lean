import Arx.Movelib.Abort

/-!
# Runs of a machine whose steps may abort

`Run step G s os t` says that the operations `os` are taken one after the other from `s`, that each
succeeds in a state where the guard `G` admits it, and that they end in `t`.
-/

namespace Movelib
open List

variable {σ ω : Type}

inductive Run (step : σ → ω → Result σ) (G : σ → ω → Prop) : σ → List ω → σ → Prop
  | nil (s : σ) : Run step G s [] s
  | snoc {s t u : σ} {os : List ω} {o : ω} (h : Run step G s os t) (hg : G t o)
      (hs : step t o = .ok u) : Run step G s (os ++ [o]) u

abbrev Reaches (step : σ → ω → Result σ) := Run step (fun _ _ => True)

def Reachable (step : σ → ω → Result σ) (s t : σ) : Prop := ∃ os, Reaches step s os t

/-- The operations executed one after the other, aborting with the first abort. -/
def exec (step : σ → ω → Result σ) : σ → List ω → Result σ
  | s, [] => .ok s
  | s, o :: os => do
    let t ← step s o
    exec step t os

variable {step : σ → ω → Result σ} {G G' : σ → ω → Prop} {s t u : σ} {os os' : List ω} {o : ω}

namespace Run

/-- A property that holds at the start and survives every admitted step holds
at the end of every run. -/
theorem invariant {I : σ → Prop} (hi : I s)
    (hstep : ∀ t o u, I t → G t o → step t o = .ok u → I u) (h : Run step G s os t) : I t := by
  induction h with
  | nil => exact hi
  | snoc _ hg hs ih => exact hstep _ _ _ ih hg hs

theorem mono (hG : ∀ t o, G t o → G' t o) (h : Run step G s os t) : Run step G' s os t := by
  induction h with
  | nil => exact .nil _
  | snoc _ hg hs ih => exact .snoc ih (hG _ _ hg) hs

theorem reaches (h : Run step G s os t) : Reaches step s os t := h.mono fun _ _ _ => trivial

theorem of_forall {P : ω → Prop} (h : Run step G s os t) (hP : ∀ o ∈ os, P o) :
    Run step (fun _ o => P o) s os t := by
  induction h with
  | nil => exact .nil _
  | snoc _ _ hs ih =>
    refine .snoc (ih fun o ho => hP o ?_) (hP _ ?_) hs
    · exact mem_append_left _ ho
    · exact mem_append_right _ (mem_singleton_self _)

/-- A guard that admits the operations in every state. -/
theorem of_reaches (h : Reaches step s os t) (hG : ∀ o ∈ os, ∀ s, G s o) : Run step G s os t :=
  (h.of_forall hG).mono fun s _ ho => ho s

theorem trans (h : Run step G s os t) (h' : Run step G t os' u) : Run step G s (os ++ os') u := by
  induction h' with
  | nil => simpa using h
  | snoc _ hg hs ih =>
    rw [← append_assoc]
    exact .snoc ih hg hs

theorem single (hg : G s o) (hs : step s o = .ok t) : Run step G s [o] t :=
  .snoc (.nil s) hg hs

theorem cons (hg : G s o) (hs : step s o = .ok t) (h : Run step G t os u) :
    Run step G s (o :: os) u := (single hg hs).trans h

theorem snoc_inv (h : Run step G s (os ++ [o]) u) :
    ∃ t, Run step G s os t ∧ G t o ∧ step t o = .ok u := by
  generalize hos : os ++ [o] = os' at h
  cases h with
  | nil => simp at hos
  | snoc h hg hs =>
    obtain ⟨rfl,ho⟩ := append_inj' hos rfl
    obtain rfl := singleton_inj.mp ho
    exact ⟨_,h,hg,hs⟩

theorem append_inv (h : Run step G s (os ++ os') u) :
    ∃ t, Run step G s os t ∧ Run step G t os' u := by
  induction os' using List.reverseRecOn generalizing u with
  | nil => exact ⟨u,by simpa using h,.nil u⟩
  | append_singleton os' o ih =>
    rw [← append_assoc] at h
    obtain ⟨m,hm,hg,hs⟩ := h.snoc_inv
    obtain ⟨t,ht,htm⟩ := ih hm
    exact ⟨t,ht,.snoc htm hg hs⟩

/-- Any operation of a run is a step between two states of the run. -/
theorem middle (h : Run step G s (os ++ o :: os') u) :
    ∃ t t', Run step G s os t ∧ G t o ∧ step t o = .ok t' ∧ Run step G t' os' u := by
  rw [show os ++ o :: os' = (os ++ [o]) ++ os' by simp] at h
  obtain ⟨t',h1,h2⟩ := h.append_inv
  obtain ⟨t,ht,hg,hs⟩ := h1.snoc_inv
  exact ⟨t,t',ht,hg,hs,h2⟩

/-- An operation that comes after `o` in a run is taken in a state that a run with `o` leads to. -/
theorem later {o' : ω} (h : Run step G s (os ++ o :: os') u) (ho' : o' ∈ os') :
    ∃ front t t', Run step G s front t ∧ o ∈ front ∧ step t o' = .ok t' := by
  obtain ⟨a,b,rfl⟩ := append_of_mem ho'
  rw [← cons_append,← append_assoc] at h
  obtain ⟨t,t',ht,-,hs,-⟩ := h.middle
  exact ⟨_,t,t',ht,by simp,hs⟩

end Run

theorem exec_append : exec step s (os ++ os') = exec step s os >>= fun t => exec step t os' := by
  induction os generalizing s with
  | nil => rfl
  | cons o os ih =>
    simp only [cons_append,exec]
    cases step s o with
    | error e => rfl
    | ok t => exact ih

theorem reaches_iff_exec : Reaches step s os t ↔ exec step s os = .ok t := by
  constructor
  · intro h
    induction h with
    | nil => rfl
    | snoc _ _ hs ih => simp [exec_append,ih,exec,hs]
  · intro h
    induction os using List.reverseRecOn generalizing t with
    | nil => obtain rfl := Except.ok.inj h; exact .nil _
    | append_singleton os o ih =>
      rw [exec_append,bind_eq_ok] at h
      obtain ⟨m,hm,hs⟩ := h
      obtain ⟨t',ht',hok⟩ := bind_eq_ok.mp hs
      cases hok
      exact .snoc (ih hm) trivial ht'

/-- The steps are functions, so a run determines its end. -/
theorem Reaches.unique (h : Reaches step s os t) (h' : Reaches step s os u) : t = u := by
  rw [reaches_iff_exec] at h h'
  exact Except.ok.inj (h.symm.trans h')

/-- Where a step keeps a property exactly if the guard admits it, the property holds all along a
run exactly if the guard admits all of its steps. -/
theorem Reaches.forall_iff {I : σ → Prop} (hi : I s)
    (hstep : ∀ t o u, I t → step t o = .ok u → (I u ↔ G t o)) (h : Reaches step s os t) :
    (∀ front back u, os = front ++ back → Reaches step s front u → I u) ↔ Run step G s os t := by
  constructor
  · intro hall
    induction h with
    | nil => exact .nil _
    | @snoc t u os o hrun _ hs ih =>
      have ht : I t := hall os [o] t rfl hrun
      have hu : I u := hall (os ++ [o]) [] u (by simp) (hrun.snoc trivial hs)
      refine .snoc (ih fun front back v hos hv => ?_) ((hstep t o u ht hs).mp hu) hs
      exact hall front (back ++ [o]) v (by rw [hos,append_assoc]) hv
  · rintro hrun front back u rfl hu
    obtain ⟨v,hv,-⟩ := hrun.append_inv
    obtain rfl := hu.unique hv.reaches
    exact hv.invariant hi fun a o b ha hg hs => (hstep a o b ha hs).mpr hg

theorem snoc_eq_append_cons {o' : ω} {front back : List ω} (h : os ++ [o] = front ++ o' :: back) :
    (os = front ∧ o = o' ∧ back = []) ∨ ∃ rest, os = front ++ o' :: rest ∧ back = rest ++ [o] := by
  induction back using List.reverseRecOn with
  | nil =>
    obtain ⟨hos,ho⟩ := append_inj' h rfl
    exact .inl ⟨hos,singleton_inj.mp ho,rfl⟩
  | append_singleton rest x _ =>
    rw [← cons_append,← append_assoc] at h
    obtain ⟨hos,ho⟩ := append_inj' h rfl
    exact .inr ⟨rest,hos,by rw [singleton_inj.mp ho]⟩

namespace Reachable

theorem refl (s : σ) : Reachable step s s := ⟨[],.nil s⟩

theorem tail (h : Reachable step s t) (hs : step t o = .ok u) : Reachable step s u := by
  obtain ⟨os,hos⟩ := h
  exact ⟨os ++ [o],.snoc hos trivial hs⟩

theorem of_exec (h : exec step s os = .ok t) : Reachable step s t := ⟨os,reaches_iff_exec.mpr h⟩

theorem invariant {I : σ → Prop} (h : Reachable step s t) (hi : I s)
    (hstep : ∀ t o u, I t → step t o = .ok u → I u) : I t := by
  obtain ⟨os,hos⟩ := h
  exact hos.invariant hi fun t o u ht _ hs => hstep t o u ht hs

end Reachable

/-- At most one thread holds each thing. -/
def Exclusive {τ κ : Type} (held : τ → Option κ) : Prop :=
  ∀ a b k, held a = some k → held b = some k → a = b

open Function in
/-- One thread changes what it holds, to something that no other thread holds. -/
theorem Exclusive.update {τ κ : Type} [DecidableEq τ] {held : τ → Option κ} (h : Exclusive held)
    (a : τ) (x : Option κ) (hx : ∀ k, x = some k → ∀ b, b ≠ a → held b ≠ some k) :
    Exclusive (update held a x) := by
  intro b c k hb hc
  by_cases hba : b = a
  · subst hba
    by_cases hcb : c = b
    · exact hcb.symm
    · rw [update_self] at hb
      rw [update_of_ne hcb] at hc
      exact absurd hc (hx k hb c hcb)
  · rw [update_of_ne hba] at hb
    by_cases hca : c = a
    · subst hca
      rw [update_self] at hc
      exact absurd hb (hx k hc b hba)
    · rw [update_of_ne hca] at hc
      exact h b c k hb hc

end Movelib
