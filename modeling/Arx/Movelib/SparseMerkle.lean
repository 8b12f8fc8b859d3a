import Mathlib.Tactic

/-!
# Sparse Merkle trees

The root of a set of elements that are told apart by their bits. A proof is the list of the
siblings from the root down, and climbs back to the root from the hash it starts with.
-/

namespace Movelib.SparseMerkle

variable {α H : Type} (placeholder : H) (internal : H → H → H) (leaf : α → H) (bit : ℕ → α → Bool)
    {path : ℕ → Bool}

/-- The root over the bits from `i` on, of which there are `n`. -/
def root : ℕ → ℕ → List α → H
  | _, _, [] => placeholder
  | _, _, [a] => leaf a
  | 0, _, a :: _ :: _ => leaf a
  | n + 1, i, a :: b :: l =>
    internal (root n (i + 1) ((a :: b :: l).filter fun a => !bit i a))
      (root n (i + 1) ((a :: b :: l).filter fun a => bit i a))

/-- Climbs from a hash to the root, past the siblings of the path from the root down; the bits from
`i` on say on which side the path goes. -/
def climb (path : ℕ → Bool) : ℕ → List H → H → H
  | _, [], h => h
  | i, s :: siblings, h =>
    if path i then internal s (climb path (i + 1) siblings h)
    else internal (climb path (i + 1) siblings h) s

variable {placeholder internal leaf bit}

@[simp] theorem root_nil (n i : ℕ) : root placeholder internal leaf bit n i [] = placeholder := by
  cases n <;> rfl

@[simp] theorem root_singleton (n i : ℕ) (a : α) :
    root placeholder internal leaf bit n i [a] = leaf a := by
  cases n <;> rfl

theorem root_of_two {n i : ℕ} {l : List α} (hl : 2 ≤ l.length) :
    root placeholder internal leaf bit (n + 1) i l =
      internal (root placeholder internal leaf bit n (i + 1) (l.filter fun a => !bit i a))
        (root placeholder internal leaf bit n (i + 1) (l.filter fun a => bit i a)) := by
  match l, hl with
  | _ :: _ :: _, _ => rfl

theorem climb_append {i : ℕ} {s s' : List H} {h : H} :
    climb internal path i (s ++ s') h =
      climb internal path i s (climb internal path (i + s.length) s' h) := by
  induction s generalizing i with
  | nil => rfl
  | cons a s ih =>
    rw [List.cons_append,climb,climb,ih,List.length_cons,show i + 1 + s.length = i + (s.length + 1) by
      omega]

/-- Climbing from the bottom up, one sibling after the other. -/
theorem climb_eq_foldl {i : ℕ} {s : List H} {h : H} :
    climb internal path i s h = (s.zipIdx i).reverse.foldl
      (fun h p => if path p.2 then internal p.1 h else internal h p.1) h := by
  induction s generalizing i with
  | nil => rfl
  | cons a s ih =>
    rw [climb,ih,List.zipIdx_cons,List.reverse_cons,List.foldl_append]
    rfl

theorem root_cases (n i : ℕ) (l : List α) :
    l = [] ∧ root placeholder internal leaf bit n i l = placeholder ∨
      (∃ a ∈ l, root placeholder internal leaf bit n i l = leaf a ∧ (n = 0 ∨ l = [a])) ∨
      ∃ x y, root placeholder internal leaf bit n i l = internal x y := by
  match n, l with
  | _, [] => exact .inl ⟨rfl,root_nil _ _⟩
  | _, [a] => exact .inr (.inl ⟨a,List.mem_singleton_self a,root_singleton _ _ _,.inr rfl⟩)
  | 0, a :: _ :: _ => exact .inr (.inl ⟨a,List.mem_cons_self,rfl,.inl rfl⟩)
  | n + 1, _ :: _ :: _ => exact .inr (.inr ⟨_,_,rfl⟩)

/-- Hashes of two halves do not collide, neither with each other nor with any others. -/
structure Separates (placeholder : H) (internal : H → H → H) (leaf : α → H) : Prop where
  injective : ∀ a b c d, internal a b = internal c d → a = c ∧ b = d
  placeholder : ∀ a b, internal a b ≠ placeholder
  leaf : ∀ a b x, internal a b ≠ leaf x

/-- A proof that climbs to the root starts at the root of the elements on its path. -/
theorem Separates.climb_sound (hsep : Separates placeholder internal leaf) {n i : ℕ} {s : List H}
    {l : List α} {h : H} (hlen : s.length ≤ n)
    (hroot : climb internal path i s h = root placeholder internal leaf bit n i l) :
    ∃ l', h = root placeholder internal leaf bit (n - s.length) (i + s.length) l' ∧
      ∀ a, a ∈ l' ↔ a ∈ l ∧ ∀ j, i ≤ j → j < i + s.length → bit j a = path j := by
  induction s generalizing i n l with
  | nil => exact ⟨l,hroot,fun a => ⟨fun ha => ⟨ha,fun j _ hj => by simp at hj; omega⟩,And.left⟩⟩
  | cons x s ih =>
    rw [List.length_cons] at hlen
    obtain ⟨n,rfl⟩ : ∃ m, n = m + 1 := ⟨n - 1,by omega⟩
    have hhalf : climb internal path (i + 1) s h = root placeholder internal leaf bit n (i + 1)
        (l.filter fun a => bit i a == path i) := by
      rcases l with _ | ⟨a,_ | ⟨b,l⟩⟩ <;> cases hpath : path i
      all_goals simp only [climb,hpath,if_true,Bool.false_eq_true,if_false,root] at hroot
      · exact absurd hroot (hsep.placeholder _ _)
      · exact absurd hroot (hsep.placeholder _ _)
      · exact absurd hroot (hsep.leaf _ _ _)
      · exact absurd hroot (hsep.leaf _ _ _)
      · simpa using (hsep.injective _ _ _ _ hroot).1
      · simpa using (hsep.injective _ _ _ _ hroot).2
    obtain ⟨l',hl',hmem⟩ := ih (by omega) hhalf
    rw [List.length_cons,show n + 1 - (s.length + 1) = n - s.length by omega,
      show i + (s.length + 1) = i + 1 + s.length by omega]
    refine ⟨l',hl',fun a => ?_⟩
    rw [hmem,List.mem_filter,beq_iff_eq]
    constructor
    · rintro ⟨⟨ha,hi⟩,hbits⟩
      refine ⟨ha,fun j hj hlt => ?_⟩
      obtain rfl | hj := Nat.eq_or_lt_of_le hj
      · exact hi
      · exact hbits j hj hlt
    · rintro ⟨ha,hbits⟩
      exact ⟨⟨ha,hbits i le_rfl (by omega)⟩,fun j hj => hbits j (by omega)⟩

end Movelib.SparseMerkle
