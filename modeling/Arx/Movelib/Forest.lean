import Mathlib.Tactic

/-!
# Walks over a forest

A stack holds the nodes whose trees are still to be walked. The walk meets every node below them
once, and a parent before its children.
-/

namespace Movelib
open List Option

variable {α : Type} {kids kids' : α → List α} {rank : α → ℕ} {x y z : α}

/-- `y` is `x` or lies below it. -/
def Descends (kids : α → List α) : α → α → Prop := Relation.ReflTransGen fun x y => y ∈ kids x

/-- No node has two parents or is listed twice by one, and children have a higher rank. -/
structure IsForest (kids : α → List α) (rank : α → ℕ) : Prop where
  nodup : ∀ x, (kids x).Nodup
  unique : ∀ x x' y, y ∈ kids x → y ∈ kids x' → x = x'
  rank_lt : ∀ x y, y ∈ kids x → rank x < rank y

/-- The nodes in the order in which they are taken off the stack, if `n` steps empty it. -/
def walk (kids : α → List α) : ℕ → List α → Option (List α)
  | _, [] => some []
  | 0, _ :: _ => none
  | n + 1, x :: stack => (walk kids n (kids x ++ stack)).map (x :: ·)

/-- A set that contains the children of its members contains what lies below them. -/
theorem Descends.mem {S : Set α} (hS : ∀ x ∈ S, ∀ y ∈ kids x, y ∈ S) (h : Descends kids x y)
    (hx : x ∈ S) : y ∈ S := by
  induction h with
  | refl => exact hx
  | tail _ hy ih => exact hS _ ih _ hy

theorem Descends.mono (hsub : ∀ x y, Descends kids z x → y ∈ kids x → y ∈ kids' x)
    (h : Descends kids z y) : Descends kids' z y := by
  induction h with
  | refl => exact .refl
  | tail hx hy ih => exact ih.tail (hsub _ _ hx hy)

namespace IsForest

section

variable (hf : IsForest kids rank)

include hf

theorem rank_le (h : Descends kids x y) : rank x ≤ rank y := by
  induction h with
  | refl => exact le_rfl
  | tail _ hy ih => exact ih.trans (hf.rank_lt _ _ hy).le

theorem rank_lt_of_ne (h : Descends kids x y) (hne : x ≠ y) : rank x < rank y := by
  rcases Relation.ReflTransGen.cases_tail h with rfl | ⟨z,hxz,hy⟩
  · exact absurd rfl hne
  · exact (hf.rank_le hxz).trans_lt (hf.rank_lt z y hy)

theorem not_descends_parent (hy : y ∈ kids x) : ¬ Descends kids y x := by
  intro h
  have hle := hf.rank_le h
  have hlt := hf.rank_lt x y hy
  omega

theorem antisymm (hxy : Descends kids x y) (hyx : Descends kids y x) : x = y := by
  rcases Relation.ReflTransGen.cases_tail hxy with rfl | ⟨z,hxz,hz⟩
  · rfl
  · exact absurd (hyx.trans hxz) (hf.not_descends_parent hz)

/-- What lies below a node lies below its parent, unless it is the node itself. -/
theorem descends_parent (hy : y ∈ kids x) (h : Descends kids z y) : z = y ∨ Descends kids z x := by
  rcases Relation.ReflTransGen.cases_tail h with rfl | ⟨x',hzx',hy'⟩
  · exact .inl rfl
  · rw [hf.unique x x' y hy hy']
    exact .inr hzx'

/-- Of two nodes above a third one, one lies above the other. -/
theorem comparable (hx : Descends kids x z) (hy : Descends kids y z) :
    Descends kids x y ∨ Descends kids y x := by
  induction hx with
  | refl => exact .inr hy
  | tail hxw hw ih =>
    rcases hf.descends_parent hw hy with rfl | hyw
    · exact .inl (hxw.tail hw)
    · exact ih hyw

theorem of_subset (hnodup : ∀ x, (kids' x).Nodup)
    (hsub : ∀ x, kids' x ⊆ kids x) : IsForest kids' rank where
  nodup := hnodup
  unique x x' y hx hx' := hf.unique x x' y (hsub x hx) (hsub x' hx')
  rank_lt x y hy := hf.rank_lt x y (hsub x hy)

/-- Leaving out one child, a node is reached exactly if it does not lie below that child. -/
theorem descends_without {next : α} (hkids : ∀ x y, y ∈ kids' x ↔ y ∈ kids x ∧ y ≠ next) (hx : Descends kids x next)
    (hne : x ≠ next) : Descends kids' x y ↔ Descends kids x y ∧ ¬ Descends kids next y := by
  constructor
  · intro h
    refine ⟨h.mono fun z w _ hw => ((hkids z w).mp hw).1,?_⟩
    induction h with
    | refl => exact fun hnx => hne (hf.antisymm hx hnx)
    | tail _ hw ih =>
      obtain ⟨hw,hnew⟩ := (hkids _ _).mp hw
      intro hnw
      rcases hf.descends_parent hw hnw with rfl | hnz
      · exact hnew rfl
      · exact ih hnz
  · rintro ⟨h,hnot⟩
    induction h with
    | refl => exact .refl
    | tail _ hw ih =>
      have hz := ih fun hnz => hnot (hnz.tail hw)
      refine hz.tail ((hkids _ _).mpr ⟨hw,?_⟩)
      rintro rfl
      exact hnot .refl

end

end IsForest

def Apart (kids : α → List α) (stack : List α) : Prop :=
  stack.Pairwise fun x y => ∀ z, Descends kids x z → ¬ Descends kids y z

variable {stack out : List α} {n : ℕ}

theorem Apart.step (hf : IsForest kids rank) (h : Apart kids (x :: stack)) :
    Apart kids (kids x ++ stack) := by
  obtain ⟨hx,hstack⟩ := pairwise_cons.mp h
  refine pairwise_append.mpr ⟨?_,hstack,?_⟩
  · -- two children of one parent
    refine (hf.nodup x).imp_of_mem fun {a b} ha hb hne z haz hbz => ?_
    rcases hf.comparable haz hbz with hab | hba
    · rcases hf.descends_parent hb hab with heq | hax
      · exact hne heq
      · exact hf.not_descends_parent ha hax
    · rcases hf.descends_parent ha hba with heq | hbx
      · exact hne heq.symm
      · exact hf.not_descends_parent hb hbx
  · intro a ha b hb z haz
    exact hx b hb z (.head ha haz)

theorem Apart.not_mem (hf : IsForest kids rank) (h : Apart kids (x :: stack)) :
    ¬ ∃ y ∈ kids x ++ stack, Descends kids y x := by
  rintro ⟨y,hy,hyx⟩
  rcases mem_append.mp hy with hy | hy
  · exact hf.not_descends_parent hy hyx
  · exact (pairwise_cons.mp h).1 y hy x .refl hyx

/-- The walk from a stack, whatever number of steps it has been given. -/
inductive Walked (kids : α → List α) : List α → List α → Prop
  | nil : Walked kids [] []
  | cons (x : α) (stack out : List α) (h : Walked kids (kids x ++ stack) out) :
      Walked kids (x :: stack) (x :: out)

theorem walk_walked (h : walk kids n stack = some out) : Walked kids stack out := by
  induction n generalizing stack out with
  | zero =>
    cases stack with
    | nil =>
      cases h
      exact .nil
    | cons x stack => cases h
  | succ n ih =>
    cases stack with
    | nil =>
      cases h
      exact .nil
    | cons x stack =>
      obtain ⟨rest,hrest,rfl⟩ := map_eq_some_iff.mp h
      exact .cons x stack rest (ih hrest)

namespace Walked

theorem mem (h : Walked kids stack out) : y ∈ out ↔ ∃ x ∈ stack, Descends kids x y := by
  induction h with
  | nil => simp
  | cons x stack out _ ih =>
    rw [mem_cons,ih]
    constructor
    · rintro (rfl | ⟨z,hz,hzy⟩)
      · exact ⟨y,mem_cons_self,.refl⟩
      · rcases mem_append.mp hz with hz | hz
        · exact ⟨x,mem_cons_self,.head hz hzy⟩
        · exact ⟨z,mem_cons_of_mem _ hz,hzy⟩
    · rintro ⟨z,hz,hzy⟩
      rcases mem_cons.mp hz with rfl | hz
      · rcases Relation.ReflTransGen.cases_head hzy with rfl | ⟨w,hw,hwy⟩
        · exact .inl rfl
        · exact .inr ⟨w,mem_append_left _ hw,hwy⟩
      · exact .inr ⟨z,mem_append_right _ hz,hzy⟩

theorem nodup (hf : IsForest kids rank) (hst : Apart kids stack) (h : Walked kids stack out) :
    out.Nodup := by
  induction h with
  | nil => exact nodup_nil
  | cons x stack out hwalk ih =>
    refine nodup_cons.mpr ⟨?_,ih (hst.step hf)⟩
    rw [hwalk.mem]
    exact hst.not_mem hf

theorem parent_first {front back : List α} (h : Walked kids stack out)
    (hout : out = front ++ x :: back) (hy : y ∈ kids x) : y ∈ back := by
  induction h generalizing front with
  | nil => simp at hout
  | cons z stack out hwalk ih =>
    cases front with
    | nil =>
      obtain ⟨rfl,rfl⟩ := List.cons.inj hout
      exact hwalk.mem.mpr ⟨y,mem_append_left _ hy,.refl⟩
    | cons a front => exact ih (List.cons.inj hout).2

end Walked

/-- As many steps as there are nodes empty the stack. -/
theorem walk_total [DecidableEq α] (hf : IsForest kids rank) (hst : Apart kids stack)
    {S : Finset α} (hS : ∀ x ∈ stack, ∀ y, Descends kids x y → y ∈ S) (hn : S.card ≤ n) :
    ∃ out, walk kids n stack = some out := by
  induction n generalizing stack S with
  | zero =>
    cases stack with
    | nil => exact ⟨[],rfl⟩
    | cons x stack =>
      have hx : x ∈ S := hS x mem_cons_self x .refl
      rw [Finset.card_eq_zero.mp (Nat.le_zero.mp hn)] at hx
      exact absurd hx (Finset.notMem_empty x)
  | succ n ih =>
    cases stack with
    | nil => exact ⟨[],rfl⟩
    | cons x stack =>
      have hx : x ∈ S := hS x mem_cons_self x .refl
      obtain ⟨rest,hrest⟩ := ih (hst.step hf) (S := S.erase x) (fun z hz y hzy => by
        refine Finset.mem_erase.mpr ⟨?_,?_⟩
        · rintro rfl
          exact hst.not_mem hf ⟨z,hz,hzy⟩
        · rcases mem_append.mp hz with hz | hz
          · exact hS x mem_cons_self y (.head hz hzy)
          · exact hS z (mem_cons_of_mem _ hz) y hzy) (by
        rw [Finset.card_erase_of_mem hx]
        omega)
      exact ⟨x :: rest,by rw [walk,hrest,map_some]⟩

end Movelib
