import Mathlib.Data.List.AList
import Arx.Consensus.Types

/-!
# The buffer of the pipeline

The items are linked by their keys in a hash map: a list of items with distinct keys.
-/

namespace Arx.Consensus
open Movelib Arx.Types List Option

def unwrap {α : Type} (o : Option α) : Except Failure α :=
  okOr o (.panic "called Option::unwrap() on a None value")

structure LinkedItem (T : Type) where
  /-- None while the element is taken out. -/
  elem : Option T
  index : ℕ
  next : Option HashValue

abbrev Cursor := Option HashValue

structure Buffer (T : Type) where
  map : AList fun _ : HashValue => LinkedItem T
  count : ℕ
  head : Cursor
  tail : Cursor

namespace Buffer

variable {T : Type}

def new : Buffer T := ⟨∅,0,none,none⟩

variable (b : Buffer T)

def linkTail (map : AList fun _ : HashValue => LinkedItem T) (tail : Cursor) (hash : HashValue) :
    Except Failure (AList fun _ : HashValue => LinkedItem T) :=
  match tail with
  | none => .ok map
  | some tail => do
    let item ← unwrap (map.lookup tail)
    .ok (map.insert tail { item with next := some hash })

/-- `hash` is the hash of the element. -/
def pushBack (hash : HashValue) (elem : T) : Except Failure (Buffer T) := do
  check (b.count + 1 < 2 ^ 64) (.panic "called Option::unwrap() on a None value")
  let map ← linkTail (b.map.insert hash ⟨some elem,b.count + 1,none⟩) b.tail hash
  .ok ⟨map,b.count + 1,some (b.head.getD hash),some hash⟩

def popFront : Except Failure (Option T × Buffer T) :=
  match b.head with
  | none => .ok (none,b)
  | some head => do
    let item ← unwrap (b.map.lookup head)
    let elem ← unwrap item.elem
    .ok (some elem,
      { b with
        map := b.map.erase head
        head := item.next
        tail := if item.next.isNone then none else b.tail })

def linkedItem (cursor : Cursor) : Except Failure (LinkedItem T) := do
  let key ← unwrap cursor
  unwrap (b.map.lookup key)

def getNext (cursor : Cursor) : Except Failure Cursor := do
  let item ← b.linkedItem cursor
  .ok item.next

def get (cursor : Cursor) : Except Failure T := do
  let item ← b.linkedItem cursor
  unwrap item.elem

def set (cursor : Cursor) (newVal : T) : Except Failure (Buffer T) := do
  let key ← unwrap cursor
  let item ← unwrap (b.map.lookup key)
  .ok { b with map := b.map.insert key { item with elem := some newVal } }

def take (cursor : Cursor) : Except Failure (T × Buffer T) := do
  let key ← unwrap cursor
  let item ← unwrap (b.map.lookup key)
  let elem ← unwrap item.elem
  .ok (elem,{ b with map := b.map.insert key { item with elem := none } })

def exist (cursor : Cursor) : Bool := cursor.elim false fun key => (b.map.lookup key).isSome

/-- The links are followed until `compare` holds; `fuel` bounds the number of items. -/
def findLoop (compare : T → Bool) : ℕ → Cursor → Except Failure Cursor
  | _, none => .ok none
  | 0, some _ => .error (.panic "out of fuel")
  | fuel + 1, some key => do
    let elem ← b.get (some key)
    if compare elem then .ok (some key)
    else do
      let next ← b.getNext (some key)
      findLoop compare fuel next

def findElemFrom (cursor : Cursor) (compare : T → Bool) : Except Failure Cursor :=
  if b.exist cursor then b.findLoop compare b.map.keys.length cursor else .ok none

def findElemByKey (cursor : Cursor) (key : HashValue) : Except Failure Cursor :=
  match cursor with
  | none => .ok none
  | some start => do
    let first ← unwrap (b.map.lookup start)
    .ok ((b.map.lookup key).bind fun item => if first.index ≤ item.index then some key else none)

structure Node (T : Type) where
  key : HashValue
  index : ℕ
  elem : T

/-- What the map holds for a list of nodes: each links to the next one. -/
def linked : List (Node T) → HashValue → Option (LinkedItem T)
  | [], _ => none
  | n :: rest, k =>
    if k = n.key then some ⟨some n.elem,n.index,rest.head?.map (·.key)⟩ else linked rest k

structure Chained (b : Buffer T) (nodes : List (Node T)) : Prop where
  lookup : ∀ k, b.map.lookup k = linked nodes k
  head : b.head = nodes.head?.map (·.key)
  tail : b.tail = nodes.getLast?.map (·.key)
  nodup : (nodes.map (·.key)).Nodup
  index_lt : nodes.Pairwise fun m n => m.index < n.index
  index_le : ∀ n ∈ nodes, n.index ≤ b.count

def Represents (b : Buffer T) (items : List (HashValue × T)) : Prop :=
  ∃ nodes, b.Chained nodes ∧ nodes.map (fun n => (n.key,n.elem)) = items

variable {b} {nodes pre post : List (Node T)} {n : Node T} {k : HashValue}

theorem linked_eq_none (h : k ∉ nodes.map (·.key)) : linked nodes k = none := by
  induction nodes with
  | nil => rfl
  | cons n rest ih =>
    rw [map_cons,mem_cons,not_or] at h
    rw [linked,if_neg h.1,ih h.2]

theorem linked_isSome : (linked nodes k).isSome ↔ k ∈ nodes.map (·.key) := by
  induction nodes with
  | nil => simp [linked]
  | cons n rest ih =>
    rw [linked,map_cons,mem_cons]
    split_ifs with hk
    · simp [hk]
    · rw [ih,or_iff_right hk]

theorem linked_append (h : n.key ∉ pre.map (·.key)) : linked (pre ++ n :: post) n.key =
    some ⟨some n.elem,n.index,post.head?.map (·.key)⟩ := by
  induction pre with
  | nil => rw [nil_append,linked,if_pos rfl]
  | cons m rest ih =>
    rw [map_cons,mem_cons,not_or] at h
    rw [cons_append,linked,if_neg h.1,ih h.2]

theorem Chained.linked_mem (hc : b.Chained nodes) (hn : n ∈ nodes) :
    ∃ next, linked nodes n.key = some ⟨some n.elem,n.index,next⟩ := by
  obtain ⟨pre,post,rfl⟩ := append_of_mem hn
  have hnodup := hc.nodup
  rw [map_append] at hnodup
  exact ⟨_,linked_append fun hmem => (nodup_append'.mp hnodup).2.2 hmem mem_cons_self⟩

theorem linked_replace {e : T} (h : n.key ∉ pre.map (·.key)) :
    linked (pre ++ { n with elem := e } :: post) k =
      if k = n.key then some ⟨some e,n.index,post.head?.map (·.key)⟩
      else linked (pre ++ n :: post) k := by
  induction pre with
  | nil =>
    rw [nil_append,linked,nil_append,linked]
    split_ifs <;> rfl
  | cons m rest ih =>
    rw [map_cons,mem_cons,not_or] at h
    have hhead : (rest ++ { n with elem := e } :: post).head?.map (·.key) =
        (rest ++ n :: post).head?.map (·.key) := by
      cases rest <;> rfl
    rw [cons_append,linked,cons_append,linked,hhead,ih h.2]
    by_cases hk : k = m.key
    · have hne : k ≠ n.key := fun hkn => h.1 (hkn.symm.trans hk)
      rw [if_pos hk,if_neg hne,if_pos hk]
    · rw [if_neg hk,if_neg hk]

theorem linked_push (h : n.key ∉ nodes.map (·.key)) (hnodup : (nodes.map (·.key)).Nodup) :
    linked (nodes ++ [n]) k =
      if k = n.key then some ⟨some n.elem,n.index,none⟩
      else if some k = nodes.getLast?.map (·.key) then
        (linked nodes k).map fun item => { item with next := some n.key }
      else linked nodes k := by
  induction nodes with
  | nil =>
    rw [nil_append,linked,linked]
    by_cases hk : k = n.key
    · rfl
    · rw [if_neg hk,if_neg hk,if_neg nofun,linked]
  | cons m rest ih =>
    rw [map_cons,mem_cons,not_or] at h
    obtain ⟨hm,hrest⟩ := nodup_cons.mp hnodup
    rw [cons_append,linked,linked]
    by_cases hk : k = m.key
    · have hne : k ≠ n.key := fun hkn => h.1 (hkn.symm.trans hk)
      rw [if_pos hk,if_neg hne,if_pos hk]
      cases rest with
      | nil => simp [hk]
      | cons m' rest =>
        -- the last node is another one
        have hlast : some k ≠ (m :: m' :: rest).getLast?.map (·.key) := by
          intro heq
          obtain ⟨last,hmem,hkey⟩ := map_eq_some_iff.mp heq.symm
          apply hm
          change m.key ∈ _
          rw [← hk,← hkey]
          exact mem_map_of_mem (mem_of_getLast? hmem)
        rw [if_neg hlast]
        rfl
    · rw [if_neg hk,ih h.2 hrest,if_neg hk]
      cases rest with
      | nil => simp [linked,hk]
      | cons m' rest => rw [List.getLast?_cons_cons]

variable {items before after : List (HashValue × T)} {e e' : T}

theorem unwrap_some {α : Type} (a : α) : unwrap (some a) = .ok a := rfl

theorem new_represents : (new : Buffer T).Represents [] :=
  ⟨[],⟨fun _ => rfl,rfl,rfl,List.nodup_nil,.nil,nofun⟩,rfl⟩

theorem Represents.nodup (h : b.Represents items) : (items.map (·.1)).Nodup := by
  obtain ⟨nodes,hc,rfl⟩ := h
  rw [List.map_map]
  exact hc.nodup

theorem Represents.head (h : b.Represents items) : b.head = items.head?.map (·.1) := by
  obtain ⟨nodes,hc,rfl⟩ := h
  rw [hc.head,List.head?_map,Option.map_map]
  rfl

section

variable (h : b.Represents (before ++ (k,e) :: after))

include h

theorem Represents.split : ∃ pre n post, b.Chained (pre ++ n :: post) ∧ n.key = k ∧ n.elem = e ∧
      pre.map (fun n => (n.key,n.elem)) = before ∧ post.map (fun n => (n.key,n.elem)) = after ∧
      k ∉ pre.map (·.key) := by
  obtain ⟨nodes,hc,heq⟩ := h
  obtain ⟨pre,rest,rfl,hpre,hrest⟩ := map_eq_append_iff.mp heq
  obtain ⟨n,post,rfl,hn,hpost⟩ := map_eq_cons_iff.mp hrest
  cases hn
  refine ⟨pre,n,post,hc,rfl,rfl,hpre,hpost,fun hmem => ?_⟩
  have hnodup := hc.nodup
  rw [map_append] at hnodup
  exact (nodup_append'.mp hnodup).2.2 hmem mem_cons_self

theorem Represents.lookup : ∃ index, b.map.lookup k = some ⟨some e,index,after.head?.map (·.1)⟩ := by
  obtain ⟨pre,n,post,hc,rfl,rfl,-,rfl,hk⟩ := h.split
  refine ⟨n.index,?_⟩
  rw [hc.lookup,linked_append hk,List.head?_map,Option.map_map]
  rfl

theorem Represents.get : b.get (some k) = .ok e := by
  obtain ⟨index,hlook⟩ := h.lookup
  simp only [Buffer.get,linkedItem,hlook,unwrap_some,bind_eq_ok,Except.ok.injEq,
    exists_eq_left']

theorem Represents.getNext : b.getNext (some k) = .ok (after.head?.map (·.1)) := by
  obtain ⟨index,hlook⟩ := h.lookup
  simp only [Buffer.getNext,linkedItem,hlook,unwrap_some,bind_eq_ok,Except.ok.injEq,
    exists_eq_left']

theorem Represents.take : ∃ b', b.take (some k) = .ok (e,b') := by
  obtain ⟨index,hlook⟩ := h.lookup
  simp only [Buffer.take,hlook,unwrap_some,bind_eq_ok,Except.ok.injEq,exists_eq_left',
    Prod.mk.injEq,true_and]
  exact ⟨_,rfl⟩

end

theorem set_eq {item : LinkedItem T} (h : b.map.lookup k = some item) : b.set (some k) e =
    .ok ⟨b.map.insert k { item with elem := some e },b.count,b.head,b.tail⟩ := by
  simp only [Buffer.set,bind_eq_ok,unwrap,okOr_ok]
  exact ⟨k,rfl,item,h,rfl⟩

theorem set_of_take {cursor : Cursor} {b' : Buffer T} (h : b.take cursor = .ok (e,b')) :
    b'.set cursor e' = b.set cursor e' := by
  simp only [Buffer.take,bind_eq_ok,unwrap,okOr_ok,Except.ok.injEq,Prod.mk.injEq] at h
  obtain ⟨key,rfl,item,hitem,_,helem,rfl,rfl⟩ := h
  rw [set_eq hitem,set_eq (AList.lookup_insert _),AList.insert_insert]

theorem Represents.set (h : b.Represents (before ++ (k,e) :: after)) (e' : T) :
    ∃ b', b.set (some k) e' = .ok b' ∧ b'.Represents (before ++ (k,e') :: after) ∧
      b'.count = b.count := by
  obtain ⟨pre,n,post,hc,rfl,rfl,rfl,rfl,hk⟩ := h.split
  have hlook : b.map.lookup n.key = some ⟨some n.elem,n.index,post.head?.map (·.key)⟩ := by
    rw [hc.lookup,linked_append hk]
  have hkeys : (pre ++ { n with elem := e' } :: post).map (·.key) =
      (pre ++ n :: post).map (·.key) := by
    rw [map_append,map_append]
    rfl
  have hidx : (pre ++ { n with elem := e' } :: post).map (·.index) =
      (pre ++ n :: post).map (·.index) := by
    rw [map_append,map_append]
    rfl
  refine ⟨_,set_eq hlook,⟨pre ++ { n with elem := e' } :: post,?_,by rw [map_append]; rfl⟩,rfl⟩
  constructor
  case lookup =>
    intro k
    rw [linked_replace hk,← hc.lookup]
    split_ifs with hkn
    · rw [hkn,AList.lookup_insert]
    · rw [AList.lookup_insert_ne hkn]
  case head =>
    rw [hc.head]
    cases pre <;> rfl
  case tail =>
    rw [hc.tail,← List.getLast?_map,← List.getLast?_map,hkeys]
  case nodup => rw [hkeys]; exact hc.nodup
  case index_lt =>
    have hlt := pairwise_map.mpr hc.index_lt
    rw [← hidx] at hlt
    exact pairwise_map.mp hlt
  case index_le =>
    intro m hm
    have hmem : m.index ∈ (pre ++ n :: post).map (·.index) := by
      rw [← hidx]
      exact mem_map_of_mem hm
    obtain ⟨m',hm',heq⟩ := mem_map.mp hmem
    rw [← heq]
    exact hc.index_le m' hm'

theorem Chained.linkTail (hc : b.Chained nodes) (hk : k ∉ nodes.map (·.key)) (item : LinkedItem T) :
    ∃ map, linkTail (b.map.insert k item) b.tail k = .ok map ∧
      ∀ k', map.lookup k' =
        if k' = k then some item
        else if some k' = nodes.getLast?.map (·.key) then
          (linked nodes k').map fun item => { item with next := some k }
        else linked nodes k' := by
  rw [hc.tail]
  cases hlast : nodes.getLast? with
  | none =>
    refine ⟨_,rfl,fun k' => ?_⟩
    split_ifs with heq hsome
    · rw [heq,AList.lookup_insert]
    · cases hsome
    · rw [AList.lookup_insert_ne heq,hc.lookup]
  | some last =>
    have hmem : last.key ∈ nodes.map (·.key) := mem_map_of_mem (mem_of_getLast? hlast)
    have hne : last.key ≠ k := fun heq => hk (heq ▸ hmem)
    obtain ⟨old,hold⟩ := isSome_iff_exists.mp (linked_isSome.mpr hmem)
    have hlook : (b.map.insert k item).lookup last.key = some old := by
      rw [AList.lookup_insert_ne hne,hc.lookup,hold]
    refine ⟨(b.map.insert k item).insert last.key { old with next := some k },?_,fun k' => ?_⟩
    · simp only [Buffer.linkTail,map_some,bind_eq_ok,unwrap,okOr_ok]
      exact ⟨old,hlook,rfl⟩
    · by_cases hlk : k' = last.key
      · have hsome : some k' = (some last).map (·.key) := congrArg some hlk
        rw [if_neg (hlk ▸ hne),if_pos hsome,hlk,AList.lookup_insert,hold]
        rfl
      · have hsome : some k' ≠ (some last).map (·.key) := fun heq => hlk (some.inj heq)
        rw [AList.lookup_insert_ne hlk]
        split_ifs with heq
        · rw [heq,AList.lookup_insert]
        · rw [AList.lookup_insert_ne heq,hc.lookup]

theorem Represents.pushBack (h : b.Represents items) (hk : k ∉ items.map (·.1))
    (hcount : b.count + 1 < 2 ^ 64) (e : T) :
    ∃ b', b.pushBack k e = .ok b' ∧ b'.Represents (items ++ [(k,e)]) ∧ b'.count = b.count + 1 := by
  obtain ⟨nodes,hc,rfl⟩ := h
  rw [List.map_map] at hk
  obtain ⟨map,hmap,hlook⟩ := hc.linkTail hk ⟨some e,b.count + 1,none⟩
  let n : Node T := ⟨k,b.count + 1,e⟩
  have hpush : b.pushBack k e = .ok ⟨map,b.count + 1,some (b.head.getD k),some k⟩ := by
    simp only [Buffer.pushBack,bind_eq_ok,check_ok]
    exact ⟨(),hcount,map,hmap,rfl⟩
  refine ⟨_,hpush,⟨nodes ++ [n],?_,by rw [map_append]; rfl⟩,rfl⟩
  constructor
  case lookup =>
    intro k'
    rw [linked_push (n := n) hk hc.nodup,hlook]
  case head =>
    rw [hc.head]
    cases nodes <;> rfl
  case tail => rw [List.getLast?_concat]; rfl
  case nodup =>
    rw [map_append]
    exact nodup_append'.mpr ⟨hc.nodup,nodup_singleton _,
      disjoint_singleton.mpr hk⟩
  case index_lt =>
    refine pairwise_append.mpr ⟨hc.index_lt,pairwise_singleton _ _,fun m hm m' hm' => ?_⟩
    rw [mem_singleton.mp hm']
    exact Nat.lt_succ_of_le (hc.index_le m hm)
  case index_le =>
    intro m hm
    rcases mem_append.mp hm with hm | hm
    · exact Nat.le_succ_of_le (hc.index_le m hm)
    · rw [mem_singleton.mp hm]

theorem Represents.popFront (h : b.Represents ((k,e) :: after)) :
    ∃ b', b.popFront = .ok (some e,b') ∧ b'.Represents after ∧ b'.count = b.count := by
  obtain ⟨nodes,hc,heq⟩ := h
  obtain ⟨n,rest,rfl,hn,rfl⟩ := map_eq_cons_iff.mp heq
  cases hn
  have hlook : b.map.lookup n.key = some ⟨some n.elem,n.index,rest.head?.map (·.key)⟩ := by
    rw [hc.lookup,linked,if_pos rfl]
  have hhead : b.head = some n.key := hc.head
  obtain ⟨hkey,hrest⟩ := nodup_cons.mp hc.nodup
  have hpop : b.popFront = .ok (some n.elem,⟨b.map.erase n.key,b.count,rest.head?.map (·.key),
      if (rest.head?.map (·.key)).isNone then none else b.tail⟩) := by
    unfold Buffer.popFront
    rw [hhead]
    simp only [bind_eq_ok,unwrap,okOr_ok]
    exact ⟨_,hlook,_,rfl,rfl⟩
  refine ⟨_,hpop,⟨rest,?_,rfl⟩,rfl⟩
  constructor
  case lookup =>
    intro k
    by_cases hk : k = n.key
    · rw [hk,AList.lookup_erase,linked_eq_none hkey]
    · rw [AList.lookup_erase_ne hk,hc.lookup,linked,if_neg hk]
  case head => rfl
  case tail =>
    rw [hc.tail]
    cases rest with
    | nil => rfl
    | cons m rest => rw [List.getLast?_cons_cons]; rfl
  case nodup => exact hrest
  case index_lt => exact (pairwise_cons.mp hc.index_lt).2
  case index_le => exact fun m hm => hc.index_le m (mem_cons_of_mem _ hm)

theorem Represents.length_le (h : b.Represents items) : items.length ≤ b.map.keys.length := by
  obtain ⟨nodes,hc,rfl⟩ := h
  rw [length_map,← length_map (f := (·.key))]
  refine (subperm_of_subset hc.nodup fun k hk => ?_).length_le
  rw [← AList.mem_keys,← AList.lookup_isSome,hc.lookup]
  exact linked_isSome.mpr hk

theorem Represents.findLoop (h : b.Represents (before ++ after)) (compare : T → Bool) {fuel : ℕ}
    (hfuel : after.length ≤ fuel) : b.findLoop compare fuel (after.head?.map (·.1)) =
      .ok ((after.find? fun p => compare p.2).map (·.1)) := by
  induction after generalizing before fuel with
  | nil => cases fuel <;> rfl
  | cons p after ih =>
    obtain ⟨k,e⟩ := p
    cases fuel with
    | zero => exact absurd hfuel (Nat.not_succ_le_zero _)
    | succ fuel =>
      have hrest : b.Represents ((before ++ [(k,e)]) ++ after) := by
        rw [append_assoc]
        exact h
      have hnext := ih hrest (Nat.le_of_succ_le_succ hfuel)
      simp only [List.head?_cons,map_some,Buffer.findLoop,h.get,h.getNext]
      change (if compare e then _ else b.findLoop compare fuel (after.head?.map (·.1))) = _
      rw [hnext,List.find?_cons]
      cases compare e <;> rfl

theorem Represents.findElemFrom (h : b.Represents (before ++ after)) (compare : T → Bool) :
    b.findElemFrom (after.head?.map (·.1)) compare =
      .ok ((after.find? fun p => compare p.2).map (·.1)) := by
  unfold Buffer.findElemFrom
  cases after with
  | nil => rfl
  | cons p after =>
    obtain ⟨index,hlook⟩ := Represents.lookup (k := p.1) (e := p.2) h
    have hexist : b.exist (((p :: after).head?).map (·.1)) = true := by
      simp [exist,hlook]
    rw [if_pos hexist]
    refine h.findLoop compare (Nat.le_trans ?_ h.length_le)
    rw [length_append]
    exact Nat.le_add_left _ _

theorem Represents.findElemByKey (h : b.Represents (before ++ after)) (key : HashValue) :
    b.findElemByKey (after.head?.map (·.1)) key =
      .ok (if key ∈ after.map (·.1) then some key else none) := by
  cases after with
  | nil => rfl
  | cons p after =>
    obtain ⟨k,e⟩ := p
    obtain ⟨pre,n,post,hc,rfl,-,-,rfl,hk⟩ := h.split
    have hlook := (hc.lookup _).trans (linked_append hk)
    have hfind : b.findElemByKey (some n.key) key = .ok ((b.map.lookup key).bind fun item =>
        if n.index ≤ item.index then some key else none) := by
      simp only [Buffer.findElemByKey,bind_eq_ok,unwrap,okOr_ok]
      exact ⟨_,hlook,rfl⟩
    rw [List.head?_cons,map_some,hfind]
    have hkeys : ((n.key,e) :: post.map fun n => (n.key,n.elem)).map (·.1) =
        (n :: post).map (·.key) := by
      rw [List.map_cons,List.map_map]
      rfl
    have hlt := pairwise_append.mp hc.index_lt
    rw [hkeys,hc.lookup]
    by_cases hkey : key ∈ (n :: post).map (·.key)
    · -- the indices increase from the cursor on
      obtain ⟨m,hm,rfl⟩ := mem_map.mp hkey
      have hle : n.index ≤ m.index := by
        rcases mem_cons.mp hm with rfl | hm
        · exact le_rfl
        · exact le_of_lt ((pairwise_cons.mp hlt.2.1).1 m hm)
      obtain ⟨next,hm⟩ := hc.linked_mem (mem_append_right pre hm)
      rw [hm,bind_some,if_pos hle,if_pos hkey]
    · rw [if_neg hkey]
      by_cases hpre : key ∈ pre.map (·.key)
      · obtain ⟨m,hm,rfl⟩ := mem_map.mp hpre
        have hnle : ¬ n.index ≤ m.index := not_le_of_gt (hlt.2.2 m hm n mem_cons_self)
        obtain ⟨next,hm⟩ := hc.linked_mem (mem_append_left (n :: post) hm)
        rw [hm,bind_some,if_neg hnle]
      · rw [linked_eq_none,bind_none]
        rw [map_append,mem_append,not_or]
        exact ⟨hpre,hkey⟩

end Buffer

end Arx.Consensus
