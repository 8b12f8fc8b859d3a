import Mathlib.Tactic

/-!
# Tables in the order of their encoded keys

The rows lie in the order of the encodings of their keys, one row for an encoding, and an iterator
starts at the first row from a given place on.
-/

namespace Movelib
open List

structure Column {K B : Type} [LinearOrder B] (encode : K → B) (V : Type) where
  rows : List (K × V)
  sorted : rows.Pairwise fun p q => encode p.1 < encode q.1

namespace Column

variable {K B V : Type} [LinearOrder B] {encode : K → B}

instance [DecidableEq K] [DecidableEq V] : DecidableEq (Column encode V) := fun c d =>
  decidable_of_iff (c.rows = d.rows) (by cases c; cases d; simp)

def empty : Column encode V := ⟨[],.nil⟩

variable (c : Column encode V) (k : K) (b : B)

def put (v : V) : Column encode V where
  rows := c.rows.filter (fun p => encode p.1 < encode k) ++
    (k,v) :: c.rows.filter (fun p => encode k < encode p.1)
  sorted := by
    refine pairwise_append.mpr ⟨c.sorted.filter _,?_,?_⟩
    · refine pairwise_cons.mpr ⟨fun p hp => ?_,c.sorted.filter _⟩
      exact of_decide_eq_true (mem_filter.mp hp).2
    · intro p hp q hq
      have hpk : encode p.1 < encode k := of_decide_eq_true (mem_filter.mp hp).2
      rcases mem_cons.mp hq with rfl | hq
      · exact hpk
      · exact hpk.trans (of_decide_eq_true (mem_filter.mp hq).2)

def delete : Column encode V where
  rows := c.rows.filter fun p => encode p.1 ≠ encode k
  sorted := c.sorted.filter _

def get : Option V :=
  (c.rows.find? fun p => encode p.1 = encode k).map Prod.snd

def keys : List K := c.rows.map Prod.fst

def below : List (K × V) := c.rows.filter fun p => encode p.1 < b

def splitOff : Column encode V where
  rows := c.rows.filter fun p => b ≤ encode p.1
  sorted := c.sorted.filter _

def seek : List (K × V) := c.rows.dropWhile fun p => encode p.1 < b

variable {c : Column encode V} {k : K} {v : V} {b : B} {p q : K × V}

theorem mem_put : p ∈ (c.put k v).rows ↔ p = (k,v) ∨ p ∈ c.rows ∧ encode p.1 ≠ encode k := by
  simp only [put,mem_append,mem_cons,mem_filter,decide_eq_true_eq]
  constructor
  · rintro (⟨h,hlt⟩ | rfl | ⟨h,hlt⟩)
    · exact .inr ⟨h,hlt.ne⟩
    · exact .inl rfl
    · exact .inr ⟨h,hlt.ne'⟩
  · rintro (rfl | ⟨h,hne⟩)
    · exact .inr (.inl rfl)
    · exact hne.lt_or_gt.imp (fun hlt => ⟨h,hlt⟩) fun hlt => .inr ⟨h,hlt⟩

theorem mem_delete : p ∈ (c.delete k).rows ↔ p ∈ c.rows ∧ encode p.1 ≠ encode k := by
  simp only [delete,mem_filter,decide_eq_true_eq]

theorem row_unique (hp : p ∈ c.rows) (hq : q ∈ c.rows) (h : encode p.1 = encode q.1) : p = q := by
  have hnodup := pairwise_map.mpr (c.sorted.imp ne_of_lt)
  exact inj_on_of_nodup_map hnodup hp hq h

theorem get_eq_some (he : Function.Injective encode) : c.get k = some v ↔ (k,v) ∈ c.rows := by
  rw [get,Option.map_eq_some_iff]
  constructor
  · rintro ⟨p,hp,rfl⟩
    have hk : encode p.1 = encode k := by simpa using List.find?_some hp
    rw [← he hk]
    exact mem_of_find?_eq_some hp
  · intro h
    have hsome : (c.rows.find? fun p => encode p.1 = encode k).isSome :=
      List.find?_isSome.mpr ⟨(k,v),h,decide_eq_true rfl⟩
    obtain ⟨p,hp⟩ := Option.isSome_iff_exists.mp hsome
    have hk : encode p.1 = encode k := by simpa using List.find?_some hp
    exact ⟨p,hp,by rw [row_unique (mem_of_find?_eq_some hp) h hk]⟩

/-- What a test keeps that holds down to a place is a filter, since the rows are sorted. -/
theorem dropWhile_rows {f : K × V → Bool}
    (hf : ∀ p q, encode p.1 < encode q.1 → f q → f p) :
    c.rows.dropWhile f = c.rows.filter fun p => !f p := by
  obtain ⟨rows,hsorted⟩ := c
  induction rows with
  | nil => rfl
  | cons p rows ih =>
    obtain ⟨hp,hrows⟩ := pairwise_cons.mp hsorted
    by_cases hfp : f p
    · rw [dropWhile_cons_of_pos hfp,filter_cons_of_neg (by simpa using hfp)]
      exact ih hrows
    · rw [dropWhile_cons_of_neg hfp,Eq.comm,filter_eq_self]
      intro q hq
      rcases mem_cons.mp hq with rfl | hq
      · simpa using hfp
      · have hfq : ¬ f q := fun hfq => hfp (hf p q (hp q hq) hfq)
        simpa using hfq

theorem mem_seek : p ∈ c.seek b ↔ p ∈ c.rows ∧ b ≤ encode p.1 := by
  rw [seek,dropWhile_rows]
  · simp
  · intro p q hpq hq
    exact decide_eq_true (hpq.trans (of_decide_eq_true hq))

theorem seek_sorted : (c.seek b).Pairwise fun p q => encode p.1 < encode q.1 :=
  c.sorted.sublist (dropWhile_sublist _)

/-- An iterator is first at the lowest row from its start on. -/
theorem head?_seek : (c.seek b).head? = some p ↔
    p ∈ c.rows ∧ b ≤ encode p.1 ∧ ∀ q ∈ c.rows, b ≤ encode q.1 → encode p.1 ≤ encode q.1 := by
  constructor
  · intro h
    obtain ⟨rest,hrest⟩ := List.head?_eq_some_iff.mp h
    have hp := mem_seek.mp (hrest ▸ mem_cons_self : p ∈ c.seek b)
    refine ⟨hp.1,hp.2,fun q hq hbq => ?_⟩
    have hq' : q ∈ p :: rest := hrest ▸ mem_seek.mpr ⟨hq,hbq⟩
    rcases mem_cons.mp hq' with rfl | hq'
    · exact le_rfl
    · exact ((pairwise_cons.mp (hrest ▸ c.seek_sorted (b := b))).1 q hq').le
  · rintro ⟨hp,hbp,hmin⟩
    cases hs : c.seek b with
    | nil => exact absurd (hs ▸ mem_seek.mpr ⟨hp,hbp⟩) not_mem_nil
    | cons q rest =>
      have hq := mem_seek.mp (hs ▸ mem_cons_self : q ∈ c.seek b)
      have hle : encode p.1 ≤ encode q.1 := hmin q hq.1 hq.2
      have hge : encode q.1 ≤ encode p.1 := by
        have hp' : p ∈ q :: rest := hs ▸ mem_seek.mpr ⟨hp,hbp⟩
        rcases mem_cons.mp hp' with rfl | hp'
        · exact le_rfl
        · exact ((pairwise_cons.mp (hs ▸ c.seek_sorted (b := b))).1 p hp').le
      rw [List.head?_cons,row_unique hq.1 hp (le_antisymm hge hle)]

theorem head?_seek_eq_none (h : (c.seek b).head? = none) (hp : p ∈ c.rows) : encode p.1 < b := by
  rw [List.head?_eq_none_iff] at h
  by_contra hlt
  exact absurd (h ▸ mem_seek.mpr ⟨hp,not_lt.mp hlt⟩) not_mem_nil

/-- What comes before the first row that fails a test that holds down to a place. -/
theorem mem_takeWhile_seek {f : K × V → Bool} (hf : ∀ p q, encode p.1 < encode q.1 → f q → f p) :
    p ∈ (c.seek b).takeWhile f ↔ p ∈ c.rows ∧ b ≤ encode p.1 ∧ f p := by
  rw [← and_assoc,← mem_seek]
  generalize hl : c.seek b = l
  have hsorted : l.Pairwise fun p q => encode p.1 < encode q.1 := hl ▸ seek_sorted
  clear hl
  induction l with
  | nil => simp
  | cons q l ih =>
    obtain ⟨hq,hl⟩ := pairwise_cons.mp hsorted
    by_cases hfq : f q
    · rw [takeWhile_cons_of_pos hfq,mem_cons,mem_cons]
      constructor
      · rintro (rfl | h)
        · exact ⟨.inl rfl,hfq⟩
        · exact ⟨.inr ((ih hl).mp h).1,((ih hl).mp h).2⟩
      · rintro ⟨rfl | h,hp⟩
        · exact .inl rfl
        · exact .inr ((ih hl).mpr ⟨h,hp⟩)
    · rw [takeWhile_cons_of_neg hfq]
      refine ⟨fun h => absurd h not_mem_nil,fun ⟨h,hp⟩ => ?_⟩
      rcases mem_cons.mp h with rfl | h
      · exact absurd hp hfq
      · exact absurd (hf q p (hq p h) hp) hfq

theorem mem_foldl_delete {α : Type} {g : α → K} {l : List α} :
    p ∈ (l.foldl (fun c a => c.delete (g a)) c).rows ↔
      p ∈ c.rows ∧ ∀ a ∈ l, encode p.1 ≠ encode (g a) := by
  induction l generalizing c with
  | nil => simp
  | cons a l ih =>
    rw [foldl_cons,ih,mem_delete,and_assoc,forall_mem_cons]

theorem mem_foldl_delete_self {l : List K} :
    p ∈ (l.foldl Column.delete c).rows ↔ p ∈ c.rows ∧ ∀ k ∈ l, encode p.1 ≠ encode k :=
  mem_foldl_delete (g := id)

theorem mem_foldl_put {α : Type} {g : α → K} {val : α → V} {l : List α}
    (hl : l.Pairwise fun a b => encode (g a) ≠ encode (g b)) :
    p ∈ (l.foldl (fun c a => c.put (g a) (val a)) c).rows ↔
      (∃ a ∈ l, p = (g a,val a)) ∨ p ∈ c.rows ∧ ∀ a ∈ l, encode p.1 ≠ encode (g a) := by
  induction l generalizing c with
  | nil => simp
  | cons a l ih =>
    obtain ⟨ha,hl⟩ := pairwise_cons.mp hl
    rw [foldl_cons,ih hl,mem_put,exists_mem_cons_iff,forall_mem_cons]
    constructor
    · rintro (h | ⟨rfl | ⟨h,hne⟩,hl⟩)
      · exact .inl (.inr h)
      · exact .inl (.inl rfl)
      · exact .inr ⟨h,hne,hl⟩
    · rintro ((rfl | h) | ⟨h,hne,hl⟩)
      · exact .inr ⟨.inl rfl,ha⟩
      · exact .inl h
      · exact .inr ⟨.inr ⟨h,hne⟩,hl⟩

theorem mem_keys : k ∈ c.keys ↔ ∃ v, (k,v) ∈ c.rows := by
  rw [keys,mem_map]
  constructor
  · rintro ⟨⟨k',v⟩,h,rfl⟩
    exact ⟨v,h⟩
  · rintro ⟨v,h⟩
    exact ⟨(k,v),h,rfl⟩

theorem keys_nodup : c.keys.Nodup :=
  pairwise_map.mpr (c.sorted.imp fun h heq => h.ne (congrArg encode heq))

theorem rows_nodup : c.rows.Nodup := c.keys_nodup.of_map

theorem rows_perm_delete (h : (k,v) ∈ c.rows) : c.rows.Perm ((k,v) :: (c.delete k).rows) := by
  refine (perm_ext_iff_of_nodup rows_nodup ?_).mpr fun p => ?_
  · refine nodup_cons.mpr ⟨fun hmem => ?_,rows_nodup⟩
    exact (mem_delete.mp hmem).2 rfl
  · rw [mem_cons,mem_delete]
    constructor
    · intro hp
      by_cases heq : encode p.1 = encode k
      · exact .inl (row_unique hp h heq)
      · exact .inr ⟨hp,heq⟩
    · rintro (rfl | hp)
      · exact h
      · exact hp.1

theorem rows_put_perm : (c.put k v).rows.Perm ((k,v) :: (c.delete k).rows) := by
  refine (rows_perm_delete (mem_put.mpr (.inl rfl))).trans (List.Perm.cons _ ?_)
  refine (perm_ext_iff_of_nodup rows_nodup rows_nodup).mpr fun p => ?_
  rw [mem_delete,mem_delete,mem_put]
  constructor
  · rintro ⟨rfl | hp,hne⟩
    · exact absurd rfl hne
    · exact hp
  · exact fun hp => ⟨.inr hp,hp.2⟩

section Injective

variable (he : Function.Injective encode) {k' : K}
include he

theorem mem_keys_put : k' ∈ (c.put k v).keys ↔ k' = k ∨ k' ∈ c.keys := by
  simp only [mem_keys,mem_put]
  constructor
  · rintro ⟨v',h | h⟩
    · exact .inl (congrArg Prod.fst h)
    · exact .inr ⟨v',h.1⟩
  · rintro (rfl | ⟨v',h⟩)
    · exact ⟨v,.inl rfl⟩
    · by_cases hk : k' = k
      · exact ⟨v,.inl (by rw [hk])⟩
      · exact ⟨v',.inr ⟨h,he.ne hk⟩⟩

theorem mem_keys_delete : k' ∈ (c.delete k).keys ↔ k' ∈ c.keys ∧ k' ≠ k := by
  simp only [mem_keys,mem_delete,exists_and_right,he.ne_iff]

theorem get_eq_none : c.get k = none ↔ k ∉ c.keys := by
  rw [Option.eq_none_iff_forall_ne_some,mem_keys,not_exists]
  exact forall_congr' fun v => not_congr (get_eq_some he)

theorem get_put_self : (c.put k v).get k = some v := (get_eq_some he).mpr (mem_put.mpr (.inl rfl))

theorem get_put_of_ne (hk : k' ≠ k) : (c.put k v).get k' = c.get k' := by
  ext v'
  simp only [get_eq_some he,mem_put]
  constructor
  · rintro (h | h)
    · exact absurd (congrArg Prod.fst h) hk
    · exact h.1
  · exact fun h => .inr ⟨h,he.ne hk⟩

theorem rows_delete_of_notMem (h : k ∉ c.keys) : (c.delete k).rows = c.rows := by
  refine filter_eq_self.mpr fun p hp => decide_eq_true fun heq => h ?_
  exact mem_keys.mpr ⟨p.2,he heq ▸ hp⟩

theorem length_put_of_get_none (h : c.get k = none) :
    (c.put k v).rows.length = c.rows.length + 1 := by
  rw [rows_put_perm.length_eq,length_cons,rows_delete_of_notMem he ((get_eq_none he).mp h)]

theorem length_put_of_get_some {v' : V} (h : c.get k = some v') :
    (c.put k v).rows.length = c.rows.length := by
  rw [rows_put_perm.length_eq,(rows_perm_delete ((get_eq_some he).mp h)).length_eq,
    length_cons,length_cons]

end Injective

theorem length_delete_le : (c.delete k).rows.length ≤ c.rows.length := length_filter_le _ _

theorem length_splitOff_le {b : B} : (c.splitOff b).rows.length ≤ c.rows.length :=
  length_filter_le _ _

end Column

end Movelib
