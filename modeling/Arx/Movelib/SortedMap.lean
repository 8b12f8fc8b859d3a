import Mathlib.Tactic

/-!
# Maps with sorted keys

A map as the list of its entries in the order of the keys, in which it is iterated over.
-/

namespace Movelib
open List

structure SortedMap (α β : Type) [LinearOrder α] where
  entries : List (α × β)
  sorted : entries.Pairwise fun p q => p.1 < q.1
  deriving DecidableEq

namespace SortedMap

variable {α β : Type} [LinearOrder α]

def empty : SortedMap α β := ⟨[],.nil⟩

def keys (m : SortedMap α β) : List α := m.entries.map Prod.fst

def orInsertEntries (a : α) (b : β) : List (α × β) → List (α × β)
  | [] => [(a,b)]
  | p :: rest =>
    if a < p.1 then (a,b) :: p :: rest
    else if p.1 < a then p :: orInsertEntries a b rest
    else p :: rest

theorem mem_orInsertEntries_imp {a : α} {b : β} {l : List (α × β)} {p : α × β}
    (h : p ∈ orInsertEntries a b l) : p = (a,b) ∨ p ∈ l := by
  induction l with
  | nil => exact .inl (mem_singleton.mp h)
  | cons q rest ih =>
    rw [orInsertEntries] at h
    split_ifs at h with hlt hgt
    · exact mem_cons.mp h
    · rcases mem_cons.mp h with rfl | h
      · exact .inr mem_cons_self
      · exact (ih h).imp_right (mem_cons_of_mem q)
    · exact .inr h

theorem sorted_orInsertEntries {a : α} {b : β} {l : List (α × β)}
    (h : l.Pairwise fun p q => p.1 < q.1) :
    (orInsertEntries a b l).Pairwise fun p q => p.1 < q.1 := by
  induction l with
  | nil => exact pairwise_singleton _ _
  | cons q rest ih =>
    obtain ⟨hq,hrest⟩ := pairwise_cons.mp h
    rw [orInsertEntries]
    split_ifs with hlt hgt
    · refine pairwise_cons.mpr ⟨fun p hp => ?_,h⟩
      rcases mem_cons.mp hp with rfl | hp
      · exact hlt
      · exact hlt.trans (hq p hp)
    · refine pairwise_cons.mpr ⟨fun p hp => ?_,ih hrest⟩
      rcases mem_orInsertEntries_imp hp with rfl | hp
      · exact hgt
      · exact hq p hp
    · exact h

/-- `entry(a).or_insert(b)`. -/
def orInsert (m : SortedMap α β) (a : α) (b : β) : SortedMap α β :=
  ⟨orInsertEntries a b m.entries,sorted_orInsertEntries m.sorted⟩

def filter (m : SortedMap α β) (f : α × β → Bool) : SortedMap α β :=
  ⟨m.entries.filter f,m.sorted.filter f⟩

variable {m : SortedMap α β} {a x : α} {b y : β}

theorem keys_nodup (m : SortedMap α β) : m.keys.Nodup :=
  pairwise_map.mpr (m.sorted.imp ne_of_lt)

theorem mem_keys : x ∈ m.keys ↔ ∃ y, (x,y) ∈ m.entries := by
  constructor
  · intro h
    obtain ⟨⟨_,y⟩,hy,rfl⟩ := mem_map.mp h
    exact ⟨y,hy⟩
  · rintro ⟨y,hy⟩
    exact mem_map_of_mem hy

/-- An entry is an old one, or the new one if its key is new. -/
theorem mem_orInsert : (x,y) ∈ (m.orInsert a b).entries ↔
    (x,y) ∈ m.entries ∨ a ∉ m.keys ∧ x = a ∧ y = b := by
  obtain ⟨l,hl⟩ := m
  change (x,y) ∈ orInsertEntries a b l ↔ (x,y) ∈ l ∨ a ∉ l.map Prod.fst ∧ x = a ∧ y = b
  induction l with
  | nil => simp [orInsertEntries]
  | cons q rest ih =>
    obtain ⟨hq,hrest⟩ := pairwise_cons.mp hl
    rw [orInsertEntries]
    split_ifs with hlt hgt
    · -- the new key is below all others
      have hnew : a ∉ (q :: rest).map Prod.fst := by
        intro ha
        obtain ⟨p,hp,rfl⟩ := mem_map.mp ha
        rcases mem_cons.mp hp with rfl | hp
        · exact lt_irrefl _ hlt
        · exact lt_asymm hlt (hq p hp)
      rw [mem_cons,Prod.mk.injEq,or_comm]
      exact or_congr_right ⟨fun h => ⟨hnew,h⟩,fun h => h.2⟩
    · rw [mem_cons,mem_cons,ih hrest,or_assoc,map_cons,mem_cons,not_or]
      refine or_congr_right (or_congr_right (and_congr_left fun _ => ?_))
      exact ⟨fun h => ⟨hgt.ne',h⟩,fun h => h.2⟩
    · have heq : a = q.1 := le_antisymm (not_lt.mp hgt) (not_lt.mp hlt)
      refine ⟨.inl,fun h => h.elim id fun h => absurd ?_ h.1⟩
      rw [heq]
      exact List.mem_cons_self

theorem mem_filter {f : α × β → Bool} :
    (x,y) ∈ (m.filter f).entries ↔ (x,y) ∈ m.entries ∧ f (x,y) := List.mem_filter

end SortedMap

end Movelib
