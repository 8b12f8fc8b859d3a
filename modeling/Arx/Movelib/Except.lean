import Mathlib.Tactic

/-!
# Computations that may fail

Taking apart a computation that has returned, the states that a machine reaches whose steps may
fail, and computations with a state, of which a failure keeps what was changed before it.
-/

namespace Movelib
open List

variable {ε α β : Type} {x : Except ε α} {f : α → Except ε β} {l : List α}

theorem bind_eq_ok {b : β} : (x >>= f) = .ok b ↔ ∃ a, x = .ok a ∧ f a = .ok b := by
  cases x with
  | error e | ok a => simp [bind,Except.bind]

@[simp] theorem pure_eq_ok {a b : α} : (pure a : Except ε α) = .ok b ↔ a = b := by
  simp [pure,Except.pure]

theorem mapM_eq_ok {l' : List β} :
    l.mapM f = .ok l' ↔ List.Forall₂ (fun a b => f a = .ok b) l l' := by
  induction l generalizing l' with
  | nil =>
    rw [mapM_nil,pure_eq_ok,forall₂_nil_left_iff]
    exact eq_comm
  | cons a l ih =>
    simp only [mapM_cons,bind_eq_ok,pure_eq_ok,ih,forall₂_cons_left_iff]
    constructor
    · rintro ⟨b,hb,l'',hl,rfl⟩
      exact ⟨b,l'',hb,hl,rfl⟩
    · rintro ⟨b,l'',hb,hl,rfl⟩
      exact ⟨b,hb,l'',hl,rfl⟩

theorem mapM_ok {g : α → β} (h : ∀ a ∈ l, f a = .ok (g a)) : l.mapM f = .ok (l.map g) := by
  induction l with
  | nil => rfl
  | cons a l ih =>
    rw [mapM_cons,h a mem_cons_self,ih fun b hb => h b (mem_cons_of_mem a hb)]
    rfl

theorem except_map_eq_ok {f : α → β} {b : β} : x.map f = .ok b ↔ ∃ a, x = .ok a ∧ f a = b := by
  cases x with
  | error e | ok a => simp [Except.map]

theorem foldlM_snoc {σ : Type} {f : σ → α → Except ε σ} {a : α} {s t : σ}
    (h : l.foldlM f s = .ok t) : (l ++ [a]).foldlM f s = f t a := by
  rw [foldlM_append,h]
  change (f t a >>= pure) = f t a
  exact bind_pure _

theorem forall₂_mem_right {R : α → β → Prop} {l' : List β} (h : List.Forall₂ R l l')
    {b : β} (hb : b ∈ l') : ∃ a ∈ l, R a b := by
  induction h with
  | nil => cases hb
  | @cons a b' l l' hab _ ih =>
    rcases mem_cons.mp hb with rfl | hb
    · exact ⟨a,mem_cons_self,hab⟩
    · obtain ⟨a',ha',hr⟩ := ih hb
      exact ⟨a',mem_cons_of_mem _ ha',hr⟩

theorem mapError_eq_ok {ε' : Type} {f : ε → ε'} {a : α} : x.mapError f = .ok a ↔ x = .ok a := by
  cases x with
  | error e => exact ⟨nofun,nofun⟩
  | ok b => simp [Except.mapError]

def check (p : Prop) [Decidable p] (e : ε) : Except ε Unit := if p then .ok () else .error e

theorem check_ok {p : Prop} [Decidable p] {e : ε} {u : Unit} : check p e = .ok u ↔ p := by
  by_cases hp : p
  · rw [check,if_pos hp]
    exact ⟨fun _ => hp,fun _ => rfl⟩
  · rw [check,if_neg hp]
    exact ⟨nofun,fun h => absurd h hp⟩

def okOr (o : Option α) (e : ε) : Except ε α :=
  match o with
  | some a => .ok a
  | none => .error e

theorem okOr_ok {o : Option α} {e : ε} {a : α} : okOr o e = .ok a ↔ o = some a := by
  cases o with
  | none => exact ⟨nofun,nofun⟩
  | some b => rw [okOr,Except.ok.injEq,Option.some.injEq]

theorem eq_ok_of_isSome (h : x.toOption.isSome) (a : α) : x = .ok (x.toOption.getD a) := by
  cases x with
  | error e => cases h
  | ok b => rfl

/-- The states reached from `s` by steps that the guard `G` admits and that succeed. -/
inductive Reached {σ ω : Type} (step : σ → ω → Except ε σ) (G : σ → ω → Prop) (s : σ) : σ → Prop
  | refl : Reached step G s s
  | tail {t u : σ} (o : ω) (h : Reached step G s t) (hg : G t o) (hs : step t o = .ok u) :
      Reached step G s u

theorem Reached.invariant {σ ω : Type} {step : σ → ω → Except ε σ} {G : σ → ω → Prop}
    {I : σ → Prop} {s t : σ} (hi : I s) (hstep : ∀ t o u, I t → G t o → step t o = .ok u → I u)
    (h : Reached step G s t) : I t := by
  induction h with
  | refl => exact hi
  | tail o _ hg hs ih => exact hstep _ o _ ih hg hs

theorem Reached.mono {σ ω : Type} {step : σ → ω → Except ε σ} {G G' : σ → ω → Prop} {s t : σ}
    (hG : ∀ t o, G t o → G' t o) (h : Reached step G s t) : Reached step G' s t := by
  induction h with
  | refl => exact .refl
  | tail o _ hg hs ih => exact .tail o ih (hG _ o hg) hs

/-- A computation returns a result of some kind, or fails in one of the ways that are allowed. -/
def Returns (allowed : ε → Prop) (Q : α → Prop) : Except ε α → Prop
  | .ok a => Q a
  | .error e => allowed e

namespace Returns

variable {allowed : ε → Prop} {x : Except ε α} {f : α → Except ε β} {Q Q' : α → Prop} {R : β → Prop}

section

variable (h : Returns allowed Q x)

include h

theorem bind (hf : ∀ a, Q a → Returns allowed R (f a)) : Returns allowed R (x >>= f) := by
  cases x with
  | error e => exact h
  | ok a => exact hf a h

theorem imp (hQ : ∀ a, Q a → Q' a) : Returns allowed Q' x := by
  cases x with
  | error e => exact h
  | ok a => exact hQ a h

theorem map {g : α → β} (hg : ∀ a, Q a → R (g a)) : Returns allowed R (x.map g) := by
  cases x with
  | error e => exact h
  | ok a => exact hg a h

theorem of_ok {a : α} (hx : x = .ok a) : Q a := by
  rw [hx] at h
  exact h

end

theorem exists_ok (h : Returns (fun _ => False) Q x) : ∃ a, x = .ok a ∧ Q a := by
  cases x with
  | error e => exact h.elim
  | ok a => exact ⟨a,rfl,h⟩

theorem check {p : Prop} [Decidable p] {e : ε} (h : ¬ p → allowed e) :
    Returns allowed (fun _ => p) (check p e) := by
  by_cases hp : p
  · rw [Movelib.check,if_pos hp]
    exact hp
  · rw [Movelib.check,if_neg hp]
    exact h hp

/-- What each step of a run keeps holds after the run. -/
theorem foldlM {γ : Type} {g : α → γ → Except ε α} {l : List γ} {a : α} (ha : Q a)
    (hg : ∀ a, Q a → ∀ c ∈ l, Returns allowed Q (g a c)) : Returns allowed Q (l.foldlM g a) := by
  induction l generalizing a with
  | nil => exact ha
  | cons c l ih =>
    refine (hg a ha c mem_cons_self).bind fun a' ha' => ?_
    exact ih ha' fun a ha c hc => hg a ha c (mem_cons_of_mem _ hc)

end Returns

variable {σ ε α β : Type}

abbrev Effect (σ ε : Type) := ExceptT ε (StateM σ)

namespace Effect

def outcome (x : Effect σ ε α) (s : σ) : Except ε α × σ := x.run.run s

def inspect (f : σ → Except ε α) : Effect σ ε α := ExceptT.mk fun s => (f s,s)

def update (f : σ → α × σ) : Effect σ ε α := ExceptT.mk fun s => (.ok (f s).1,(f s).2)

/-- What `x` leaves behind when it starts in `s`: `Q` if it returns, `E` if it fails. -/
def Ends (x : Effect σ ε α) (s : σ) (Q : α → σ → Prop) (E : σ → Prop) : Prop :=
  match outcome x s with
  | (.ok a,t) => Q a t
  | (.error _,t) => E t

variable {x : Effect σ ε α} {f : α → Effect σ ε β} {s t : σ} {Q Q' : α → σ → Prop}
  {R : β → σ → Prop} {E E' : σ → Prop}

theorem outcome_bind : outcome (x >>= f) s =
    match outcome x s with
    | (.ok a,t) => outcome (f a) t
    | (.error e,t) => (.error e,t) := by
  change (match x s with
    | (r,t) => (ExceptT.bindCont f r) t) = _
  rcases h : x s with ⟨r,t⟩
  have hx : outcome x s = (r,t) := h
  rw [hx]
  cases r with
  | ok a => rfl
  | error e => rfl

namespace Ends

theorem ok {a : α} (h : Ends x s Q E) (hx : outcome x s = (.ok a,t)) : Q a t := by
  rw [Ends,hx] at h
  exact h

theorem error {e : ε} (h : Ends x s Q E) (hx : outcome x s = (.error e,t)) : E t := by
  rw [Ends,hx] at h
  exact h

theorem mono (h : Ends x s Q E) (hQ : ∀ a t, Q a t → Q' a t) (hE : ∀ t, E t → E' t) :
    Ends x s Q' E' := by
  rw [Ends]
  rcases hx : outcome x s with ⟨r,t⟩
  cases r with
  | ok a => exact hQ a t (h.ok hx)
  | error e => exact hE t (h.error hx)

theorem bind (h : Ends x s Q E) (hf : ∀ a t, Q a t → Ends (f a) t R E) :
    Ends (x >>= f) s R E := by
  rw [Ends,outcome_bind]
  rcases hx : outcome x s with ⟨r,t⟩
  cases r with
  | ok a => exact hf a t (h.ok hx)
  | error e => exact h.error hx

theorem pure {a : α} (h : Q a s) : Ends (Pure.pure a : Effect σ ε α) s Q E := h

theorem throw {e : ε} (h : E s) : Ends (MonadExcept.throw e : Effect σ ε α) s Q E := h

theorem inspect {g : σ → Except ε α} (hg : ∀ a, g s = .ok a → Q a s) (he : E s) :
    Ends (inspect g) s Q E := by
  change match (g s,s) with
    | (.ok a,t) => Q a t
    | (.error _,t) => E t
  cases h : g s with
  | ok a => exact hg a h
  | error e => exact he

theorem update {g : σ → α × σ} (hg : Q (g s).1 (g s).2) :
    Ends (update g : Effect σ ε α) s Q E := hg

theorem tryCatch {h : ε → Effect σ ε α} (hx : Ends x s Q E')
    (hh : ∀ e t, E' t → Ends (h e) t Q E) : Ends (MonadExcept.tryCatch x h) s Q E := by
  rcases ho : outcome x s with ⟨r,t⟩
  have hc : outcome (MonadExcept.tryCatch x h) s =
      outcome (MonadExcept.tryCatch (fun _ => (r,t) : Effect σ ε α) h) s :=
    congrArg (fun p => outcome (MonadExcept.tryCatch (fun _ => p : Effect σ ε α) h) s) ho
  rw [Ends,hc]
  cases r with
  | ok a => exact hx.ok ho
  | error e => exact hh e t (hx.error ho)

end Ends

end Effect

end Movelib
