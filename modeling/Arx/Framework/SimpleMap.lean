import Arx.Framework.Math
import Arx.Movelib.Vector

/-!
# `std::simple_map`

A vector of entries with distinct keys. `lookup` is what the map is for; every operation is
specified by what it does to the lookups.
-/

namespace Arx
open Movelib Function List Option

structure SimpleMap (κ β : Type) where
  data : List (κ × β)
  nodup : (data.map Prod.fst).Nodup
  deriving DecidableEq

namespace SimpleMap

variable {κ β : Type}

def EKEY_ALREADY_EXISTS : ℕ := 1
def EKEY_NOT_FOUND : ℕ := 2

def create : SimpleMap κ β := ⟨[],nodup_nil⟩

variable [DecidableEq κ] (m : SimpleMap κ β)

def find (key : κ) : Option ℕ := m.data.findIdx? fun e => e.1 = key

def containsKey (key : κ) : Bool := (m.find key).isSome

def borrow (key : κ) : Result β :=
  match m.find key with
  | none => .error (Error.invalidArgument EKEY_NOT_FOUND)
  | some i => do
    let e ← vectorBorrow m.data i
    pure e.2

def lookup (key : κ) : Option β := (m.data.find? fun e => e.1 = key).map Prod.snd

variable {m} {key k : κ} {value v : β} {i : ℕ}

theorem lookup_eq_some : m.lookup k = some v ↔ (k, v) ∈ m.data := by
  constructor
  · intro h
    obtain ⟨⟨k',v'⟩,hf,rfl⟩ := map_eq_some_iff.mp h
    have hk : k' = k := by simpa using List.find?_some hf
    subst hk
    exact mem_of_find?_eq_some hf
  · intro h
    have hsome : (m.data.find? fun e => e.1 = k).isSome = true :=
      List.find?_isSome.mpr ⟨(k, v),h,by simp⟩
    obtain ⟨⟨k',v'⟩,hf⟩ := isSome_iff_exists.mp hsome
    have hk : k' = k := by simpa using List.find?_some hf
    subst hk
    have hv := inj_on_of_nodup_map m.nodup h (mem_of_find?_eq_some hf) rfl
    rw [lookup,hf,← hv]
    rfl

theorem lookup_eq_none : m.lookup k = none ↔ k ∉ m.data.map Prod.fst := by
  rw [eq_none_iff_forall_ne_some]
  constructor
  · intro h hk
    obtain ⟨⟨_,v⟩,hmem,rfl⟩ := mem_map.mp hk
    exact h v (lookup_eq_some.mpr hmem)
  · intro h v hv
    exact h (List.mem_map_of_mem (f := Prod.fst) (lookup_eq_some.mp hv))

theorem find_eq_none : m.find k = none ↔ m.lookup k = none := by
  rw [lookup_eq_none,find,List.findIdx?_eq_none_iff,List.mem_map,not_exists]
  constructor
  · rintro h e ⟨he,hk⟩
    exact of_decide_eq_false (h e he) hk
  · intro h e he
    exact decide_eq_false fun hk => h e ⟨he,hk⟩

theorem find_eq_some (h : m.find k = some i) : ∃ v, m.data[i]? = some (k, v) := by
  obtain ⟨hi,hk,_⟩ := List.findIdx?_eq_some_iff_getElem.mp h
  have hk' : m.data[i].1 = k := by simpa using hk
  exact ⟨m.data[i].2,by rw [List.getElem?_eq_getElem hi,← hk']⟩

@[simp] theorem containsKey_eq : m.containsKey k = (m.lookup k).isSome := by
  rw [containsKey,Bool.eq_iff_iff,isSome_iff_ne_none,isSome_iff_ne_none,Ne,Ne,
    find_eq_none]

@[simp] theorem borrow_eq_ok : m.borrow k = .ok v ↔ m.lookup k = some v := by
  rw [borrow]
  split
  · next h => simp [find_eq_none.mp h]
  · next i h =>
    obtain ⟨w,hw⟩ := find_eq_some h
    have hl := lookup_eq_some.mpr (mem_of_getElem? hw)
    simp [hw,hl]

variable (m)

theorem add_nodup (h : m.find key = none) : ((m.data ++ [(key, value)]).map Prod.fst).Nodup := by
  have hk := lookup_eq_none.mp (find_eq_none.mp h)
  rw [map_append,map_singleton,nodup_append]
  refine ⟨m.nodup,nodup_singleton key,?_⟩
  rintro a ha b hb rfl
  obtain rfl : a = key := mem_singleton.mp hb
  exact hk ha

theorem set_keys (h : m.find key = some i) :
    (m.data.set i (key, value)).map Prod.fst = m.data.map Prod.fst := by
  obtain ⟨hi,hk,_⟩ := List.findIdx?_eq_some_iff_getElem.mp h
  have hk' : m.data[i].1 = key := by simpa using hk
  rw [map_set,← hk',← getElem_map Prod.fst (h := by rwa [length_map])]
  exact set_getElem_self _

omit [DecidableEq κ] in
theorem remove_nodup {e : κ × β} {rest : List (κ × β)} (h : swapRemove m.data i = .ok (rest, e)) :
    (rest.map Prod.fst).Nodup := by
  have hp := ((swapRemove_perm h).2.map Prod.fst).nodup m.nodup
  exact (nodup_cons.mp hp).2

def add (key : κ) (value : β) : Result (SimpleMap κ β) :=
  if h : m.find key = none then .ok ⟨m.data ++ [(key, value)],m.add_nodup h⟩
  else .error (Error.invalidArgument EKEY_ALREADY_EXISTS)

def set (key : κ) (value : β) : Result (SimpleMap κ β) :=
  match h : m.find key with
  | none => .error (Error.invalidArgument EKEY_NOT_FOUND)
  | some i => .ok ⟨m.data.set i (key, value),(m.set_keys h).symm ▸ m.nodup⟩

def remove (key : κ) : Result (SimpleMap κ β × κ × β) :=
  match m.find key with
  | none => .error (Error.invalidArgument EKEY_NOT_FOUND)
  | some i =>
    match h : swapRemove m.data i with
    | .error e => .error e
    | .ok (rest, e) => .ok (⟨rest,m.remove_nodup h⟩,e)

variable {m} {m' : SimpleMap κ β}

theorem lookup_ext {f : κ → Option β} (h : ∀ k v, (k, v) ∈ m.data ↔ f k = some v) :
    m.lookup = f := by
  funext k
  apply Option.ext
  intro v
  rw [lookup_eq_some,h]

theorem add_ok (h : m.add key value = .ok m') :
    m.lookup key = none ∧ m'.lookup = update m.lookup key (some value) := by
  rw [add] at h
  split at h
  · next hf =>
    cases h
    have hnone := find_eq_none.mp hf
    refine ⟨hnone,lookup_ext ?_⟩
    intro k v
    rw [mem_append,mem_singleton,← lookup_eq_some]
    by_cases hk : k = key
    · subst hk
      simp [hnone,eq_comm]
    · simp [hk]
  · cases h

theorem add_isOk (h : m.lookup key = none) : ∃ m', m.add key value = .ok m' :=
  ⟨_,dif_pos (find_eq_none.mpr h)⟩

theorem set_ok (h : m.set key value = .ok m') :
    (m.lookup key).isSome = true ∧ m'.lookup = update m.lookup key (some value) := by
  rw [set] at h
  split at h
  · cases h
  · next i hf =>
    cases h
    obtain ⟨w,hw⟩ := find_eq_some hf
    obtain ⟨hi,hget⟩ := List.getElem?_eq_some_iff.mp hw
    have hl := lookup_eq_some.mpr (mem_of_getElem? hw)
    refine ⟨by rw [hl]; rfl,?_⟩
    have hp := set_perm hi (key, value)
    rw [hget] at hp
    funext k
    by_cases hk : k = key
    · subst hk
      rw [update_self,lookup_eq_some]
      exact mem_set hi (k, value)
    · rw [update_of_ne hk]
      apply Option.ext
      intro v
      rw [lookup_eq_some,lookup_eq_some]
      have hmem := hp.mem_iff (a := (k, v))
      simpa [hk] using hmem.symm

theorem set_isOk (h : (m.lookup key).isSome = true) : ∃ m', m.set key value = .ok m' := by
  cases hf : m.find key with
  | none => rw [find_eq_none.mp hf] at h; cases h
  | some i =>
    rw [set]
    split
    · next hn => rw [hf] at hn; cases hn
    · exact ⟨_,rfl⟩

theorem remove_ok {e : κ × β} (h : m.remove key = .ok (m', e)) :
    m.lookup key = some e.2 ∧ m'.lookup = update m.lookup key none := by
  rw [remove] at h
  split at h
  · cases h
  · next i hf =>
    split at h
    · cases h
    · next rest e' hr =>
      cases h
      obtain ⟨hget,hp⟩ := swapRemove_perm hr
      obtain ⟨w,hw⟩ := find_eq_some hf
      cases hw.symm.trans hget
      have hkeys := (hp.map Prod.fst).nodup m.nodup
      refine ⟨lookup_eq_some.mpr (mem_of_getElem? hw),lookup_ext ?_⟩
      intro k v
      by_cases hk : k = key
      · subst hk
        rw [update_self]
        have hnot : k ∉ rest.map Prod.fst := (nodup_cons.mp hkeys).1
        exact ⟨fun h => absurd (mem_map_of_mem (f := Prod.fst) h) hnot,nofun⟩
      · rw [update_of_ne hk,lookup_eq_some]
        have hmem := hp.mem_iff (a := (k, v))
        simpa [hk] using hmem.symm

end SimpleMap

end Arx
