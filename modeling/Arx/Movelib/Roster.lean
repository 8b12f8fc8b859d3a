import Mathlib.Tactic

/-!
# Rosters

Members of a group that are in place, on their way out, or on their way in. At the start of a term
those in place are numbered from zero, with one slot for each.
-/

namespace Movelib
open Function List

variable {α : Type}

structure Roster (α : Type) where
  active : List α
  leaving : List α
  joining : List α
  index : α → Option ℕ
  size : ℕ

namespace Roster

def members (r : Roster α) : List α := r.active ++ r.leaving ++ r.joining

/-- Nobody is listed twice, everybody listed is registered, and those in place or on their way
out have slots of their own. -/
structure Wf (r : Roster α) : Prop where
  nodup : r.members.Nodup
  registered : ∀ a ∈ r.members, (r.index a).isSome = true
  placed : ∀ a ∈ r.active ++ r.leaving, ∃ i < r.size, r.index a = some i
  distinct : ∀ a ∈ r.active ++ r.leaving, ∀ b ∈ r.active ++ r.leaving,
    r.index a = r.index b → a = b

section Lists

variable {r : Roster α} {a : α} {rest : List α}

theorem Wf.join (h : r.Wf) (hnew : a ∉ r.members) (hreg : (r.index a).isSome = true) :
    ({ r with joining := r.joining ++ [a] } : Roster α).Wf := by
  have hall : (r.active ++ r.leaving ++ (r.joining ++ [a])).Perm (a :: r.members) := by
    rw [← append_assoc]
    exact perm_append_singleton a r.members
  refine ⟨hall.symm.nodup (nodup_cons.mpr ⟨hnew,h.nodup⟩),?_,h.placed,h.distinct⟩
  intro b hb
  obtain rfl | hb := mem_cons.mp (hall.subset hb)
  · exact hreg
  · exact h.registered b hb

theorem Wf.cancel (h : r.Wf) (hp : r.joining.Perm (a :: rest)) :
    ({ r with joining := rest } : Roster α).Wf := by
  have hall := (hp.append_left (r.active ++ r.leaving)).trans perm_middle
  exact ⟨(nodup_cons.mp (hall.nodup h.nodup)).2,
    fun b hb => h.registered b (hall.symm.subset (mem_cons_of_mem a hb)),h.placed,h.distinct⟩

theorem Wf.leave (h : r.Wf) (hp : r.active.Perm (a :: rest)) :
    ({ r with active := rest, leaving := r.leaving ++ [a] } : Roster α).Wf := by
  have hkeep : (rest ++ (r.leaving ++ [a])).Perm (r.active ++ r.leaving) := by
    refine List.Perm.trans ?_ (hp.symm.append_right r.leaving)
    rw [← append_assoc]
    exact perm_append_singleton a (rest ++ r.leaving)
  have hall := hkeep.append_right r.joining
  exact ⟨hall.symm.nodup h.nodup,fun b hb => h.registered b (hall.subset hb),
    fun b hb => h.placed b (hkeep.subset hb),
    fun b hb c hc => h.distinct b (hkeep.subset hb) c (hkeep.subset hc)⟩

end Lists

variable [DecidableEq α]

def number (index : α → Option ℕ) : ℕ → List α → α → Option ℕ
  | _, [] => index
  | i, a :: as => number (update index a (some i)) (i + 1) as

inductive Step : Roster α → Roster α → Prop
  | register (r : Roster α) (a : α) (i : ℕ) (hnew : r.index a = none) :
      Step r { r with index := update r.index a (some i) }
  | join (r : Roster α) (a : α) (hnew : a ∉ r.members) (hreg : (r.index a).isSome = true) :
      Step r { r with joining := r.joining ++ [a] }
  | cancel (r : Roster α) (a : α) (rest : List α) (h : r.joining.Perm (a :: rest)) :
      Step r { r with joining := rest }
  | leave (r : Roster α) (a : α) (rest : List α) (h : r.active.Perm (a :: rest)) :
      Step r { r with active := rest, leaving := r.leaving ++ [a] }
  | nextTerm (r : Roster α) (next : List α) (h : next.Sublist (r.active ++ r.joining.reverse)) :
      Step r ⟨next,[],[],number r.index 0 next,next.length⟩

variable {index : α → Option ℕ} {i k : ℕ} {l : List α} {a : α}

theorem number_of_notMem (h : a ∉ l) : number index i l a = index a := by
  induction l generalizing index i with
  | nil => rfl
  | cons b l ih =>
    obtain ⟨hne,hl⟩ := not_or.mp (mem_cons.not.mp h)
    show number (update index b (some i)) (i + 1) l a = index a
    rw [ih hl,update_of_ne hne]

theorem number_getElem (hl : l.Nodup) (h : l[k]? = some a) :
    number index i l a = some (i + k) := by
  induction l generalizing index i k with
  | nil => cases h
  | cons b l ih =>
    obtain ⟨hb,hl⟩ := nodup_cons.mp hl
    show number (update index b (some i)) (i + 1) l a = some (i + k)
    cases k with
    | zero =>
      obtain rfl : b = a := by simpa using h
      rw [number_of_notMem hb,update_self,Nat.add_zero]
    | succ k =>
      rw [ih hl (by simpa using h),Nat.succ_add_eq_add_succ]

variable {r r' : Roster α}

theorem Wf.register (h : r.Wf) (hnew : r.index a = none) :
    ({ r with index := update r.index a (some i) } : Roster α).Wf := by
  have hkeep : ∀ b ∈ r.members, update r.index a (some i) b = r.index b := by
    intro b hb
    apply update_of_ne
    rintro rfl
    have hsome := h.registered b hb
    rw [hnew] at hsome
    cases hsome
  have hin : ∀ b ∈ r.active ++ r.leaving, b ∈ r.members := fun b hb =>
    mem_append_left r.joining hb
  refine ⟨h.nodup,?_,?_,?_⟩
  · intro b hb
    show (update r.index a (some i) b).isSome = true
    rw [hkeep b hb]
    exact h.registered b hb
  · intro b hb
    obtain ⟨j,hj,hbj⟩ := h.placed b hb
    exact ⟨j,hj,(hkeep b (hin b hb)).trans hbj⟩
  · intro b hb c hc hbc
    refine h.distinct b hb c hc ?_
    rw [← hkeep b (hin b hb),← hkeep c (hin c hc)]
    exact hbc

theorem Wf.nextTerm {next : List α} (h : r.Wf)
    (hs : next.Sublist (r.active ++ r.joining.reverse)) :
    (⟨next,[],[],number r.index 0 next,next.length⟩ : Roster α).Wf := by
  -- The candidates are members, and a member is numbered by its place in `next`.
  have hperm : r.members.Perm (r.active ++ r.joining ++ r.leaving) := by
    show (r.active ++ r.leaving ++ r.joining).Perm _
    rw [append_assoc,append_assoc]
    exact perm_append_comm.append_left r.active
  have hcand : (r.active ++ r.joining.reverse).Nodup := by
    refine List.Perm.nodup ?_ (nodup_append.mp (hperm.nodup h.nodup)).1
    exact (reverse_perm r.joining).symm.append_left r.active
  have hnext := hs.nodup hcand
  have hnum : ∀ b ∈ next ++ [], ∃ k, next[k]? = some b ∧ number r.index 0 next b = some k := by
    intro b hb
    rw [append_nil] at hb
    obtain ⟨k,hk⟩ := mem_iff_getElem?.mp hb
    exact ⟨k,hk,by rw [number_getElem hnext hk,Nat.zero_add]⟩
  refine ⟨by simpa [members] using hnext,?_,?_,?_⟩
  · intro b hb
    obtain ⟨k,_,hk⟩ := hnum b (by simpa [members] using hb)
    show (number r.index 0 next b).isSome = true
    rw [hk]
    rfl
  · intro b hb
    obtain ⟨k,hbk,hk⟩ := hnum b hb
    exact ⟨k,(List.getElem?_eq_some_iff.mp hbk).1,hk⟩
  · intro b hb c hc hbc
    obtain ⟨k,hbk,hk⟩ := hnum b hb
    obtain ⟨j,hcj,hj⟩ := hnum c hc
    have hkj := hk.symm.trans (hbc.trans hj)
    cases hkj
    exact Option.some.inj (hbk.symm.trans hcj)

theorem Step.wf (h : Step r r') (hr : r.Wf) : r'.Wf := by
  cases h with
  | register a i hnew => exact hr.register hnew
  | join a hnew hreg => exact hr.join hnew hreg
  | cancel a rest hp => exact hr.cancel hp
  | leave a rest hp => exact hr.leave hp
  | nextTerm next hs => exact hr.nextTerm hs

theorem steps_wf (h : Relation.ReflTransGen Step r r') (hr : r.Wf) : r'.Wf := by
  induction h with
  | refl => exact hr
  | tail _ hs ih => exact hs.wf ih

end Roster

end Movelib
