import Arx.JellyfishMerkle.Tree

/-!
# The ranges of the keys by nibble

On keys in order the iterator over the nibble ranges yields, once for each nibble there is, the keys
with that nibble.
-/

namespace Arx.JellyfishMerkle
open Movelib List

variable {H K : Type} {kvs : KeyValues H K} {depth : ℕ} {kv : HashValue × Option (H × K)}

namespace KeyValues

def under (kvs : KeyValues H K) (depth : ℕ) (c : Nibble) : KeyValues H K :=
  kvs.filter fun kv => kv.1.getNibble depth = c

def NibblesSorted (kvs : KeyValues H K) (depth : ℕ) : Prop :=
  kvs.Pairwise fun a b => a.1.getNibble depth ≤ b.1.getNibble depth

theorem nibbleAt_eq {pos : ℕ} (hpos : pos < kvs.length) :
    kvs.nibbleAt depth pos = (kvs.get ⟨pos,hpos⟩).1.getNibble depth := by
  rw [nibbleAt,List.getElem?_eq_getElem hpos,get_eq_getElem]

theorem NibblesSorted.nibbleAt_le (hs : kvs.NibblesSorted depth) {x y : ℕ} (hxy : x ≤ y)
    (hy : y < kvs.length) : kvs.nibbleAt depth x ≤ kvs.nibbleAt depth y := by
  have hx := lt_of_le_of_lt hxy hy
  rw [nibbleAt_eq hx,nibbleAt_eq hy]
  rcases hxy.eq_or_lt with rfl | hlt
  · exact le_rfl
  · exact pairwise_iff_get.mp hs ⟨x,hx⟩ ⟨y,hy⟩ hlt

theorem lastOfNibble_spec (hs : kvs.NibblesSorted depth) {cur : Nibble} (fuel : ℕ) {i j : ℕ}
    (hfuel : j - i ≤ fuel) (hij : i ≤ j) (hj : j < kvs.length) (hi : kvs.nibbleAt depth i = cur)
    (hafter : ∀ x, j < x → x < kvs.length → cur < kvs.nibbleAt depth x) :
    i ≤ kvs.lastOfNibble depth cur fuel i j ∧ kvs.lastOfNibble depth cur fuel i j ≤ j ∧
      kvs.nibbleAt depth (kvs.lastOfNibble depth cur fuel i j) = cur ∧
      ∀ x, kvs.lastOfNibble depth cur fuel i j < x → x < kvs.length →
        cur < kvs.nibbleAt depth x := by
  induction fuel generalizing i j with
  | zero =>
    obtain rfl : i = j := by omega
    exact ⟨le_rfl,le_rfl,hi,hafter⟩
  | succ fuel ih =>
    rw [lastOfNibble]
    split_ifs with hlt
    · simp only
      have hmid : i < j - (j - i) / 2 ∧ j - (j - i) / 2 ≤ j := by omega
      split_ifs with hgt
      · -- everything from the middle on is too large
        obtain ⟨h1,h2,h3,h4⟩ := ih (i := i) (j := j - (j - i) / 2 - 1) (by omega) (by omega)
          (by omega) hi fun x hx hxl => lt_of_lt_of_le hgt (hs.nibbleAt_le (by omega) hxl)
        exact ⟨h1,by omega,h3,h4⟩
      · have heq : kvs.nibbleAt depth (j - (j - i) / 2) = cur := by
          refine le_antisymm (not_lt.mp hgt) ?_
          rw [← hi]
          exact hs.nibbleAt_le (by omega) (by omega)
        obtain ⟨h1,h2,h3,h4⟩ := ih (i := j - (j - i) / 2) (by omega) hmid.2 hj heq hafter
        exact ⟨by omega,h2,h3,h4⟩
    · obtain rfl : i = j := by omega
      exact ⟨le_rfl,le_rfl,hi,hafter⟩

theorem mem_drop {left : ℕ} (h : kv ∈ kvs.drop left) :
    ∃ x, left ≤ x ∧ x < kvs.length ∧ kv.1.getNibble depth = kvs.nibbleAt depth x := by
  obtain ⟨i,hi,rfl⟩ := mem_drop_iff_getElem.mp h
  refine ⟨left + i,by omega,by omega,?_⟩
  rw [nibbleAt_eq (by omega),get_eq_getElem]

theorem mem_slice {left right : ℕ} (h : kv ∈ kvs.slice (left,right)) (hle : left ≤ right) :
    ∃ x, left ≤ x ∧ x ≤ right ∧ x < kvs.length ∧
      kv.1.getNibble depth = kvs.nibbleAt depth x := by
  obtain ⟨i,hi,rfl⟩ := mem_take_iff_getElem.mp h
  simp only [length_drop] at hi
  refine ⟨left + i,by omega,by omega,by omega,?_⟩
  rw [nibbleAt_eq (by omega),get_eq_getElem,getElem_drop]

def groupsFrom (kvs : KeyValues H K) (depth fuel left : ℕ) : List (Nibble × KeyValues H K) :=
  (kvs.nibbleRangesFrom depth fuel left).map fun range =>
    (kvs.nibbleAt depth range.1,kvs.slice range)

theorem groupsFrom_spec (hs : kvs.NibblesSorted depth) (fuel left : ℕ)
    (hfuel : kvs.length - left ≤ fuel) :
    ((kvs.groupsFrom depth fuel left).map Prod.fst).Nodup ∧
      ∀ c g, (c,g) ∈ kvs.groupsFrom depth fuel left ↔
        g = under (kvs.drop left) depth c ∧ g ≠ [] := by
  have hnil : ∀ left, kvs.length ≤ left →
      (([] : List (Nibble × KeyValues H K)).map Prod.fst).Nodup ∧
        ∀ c g, (c,g) ∈ ([] : List (Nibble × KeyValues H K)) ↔
          g = under (kvs.drop left) depth c ∧ g ≠ [] := by
    intro left hleft
    refine ⟨nodup_nil,fun c g => ⟨fun h => absurd h not_mem_nil,fun ⟨hg,hne⟩ => ?_⟩⟩
    rw [drop_eq_nil_of_le hleft] at hg
    exact absurd hg hne
  induction fuel generalizing left with
  | zero => exact hnil left (by omega)
  | succ fuel ih =>
    rw [groupsFrom,nibbleRangesFrom]
    split_ifs with hlt
    · obtain ⟨hle,hlast,hcur,hafter⟩ := lastOfNibble_spec hs kvs.length (i := left)
        (j := kvs.length - 1) (by omega) (by omega) (by omega) rfl (by omega)
      generalize hright : kvs.lastOfNibble depth (kvs.nibbleAt depth left) kvs.length left
        (kvs.length - 1) = right at hle hlast hcur hafter ⊢
      generalize hleft : kvs.nibbleAt depth left = cur at hcur hafter ⊢
      -- the entries split into those of the nibble and those of later ones
      have hsplit : kvs.drop left = kvs.slice (left,right) ++ kvs.drop (right + 1) := by
        rw [slice,show right + 1 = left + (right - left + 1) by omega,← drop_drop,
          take_append_drop]
      have hrange : ∀ kv ∈ kvs.slice (left,right), kv.1.getNibble depth = cur := by
        intro kv hkv
        obtain ⟨x,hx,hxr,hxl,hnib⟩ := mem_slice hkv hle
        refine hnib.trans (le_antisymm ?_ ?_)
        · exact hcur ▸ hs.nibbleAt_le hxr (by omega)
        · exact hleft ▸ hs.nibbleAt_le hx hxl
      have hrest : ∀ kv ∈ kvs.drop (right + 1), cur < kv.1.getNibble depth := by
        intro kv hkv
        obtain ⟨x,hx,hxl,hnib⟩ := mem_drop hkv
        exact hnib ▸ hafter x (by omega) hxl
      have hne : kvs.slice (left,right) ≠ [] := by
        intro hnil
        have hlen := congrArg List.length hnil
        simp only [slice,length_take,length_drop,length_nil] at hlen
        omega
      have hcurUnder : under (kvs.drop left) depth cur = kvs.slice (left,right) := by
        rw [under,hsplit,filter_append,filter_eq_self.mpr,filter_eq_nil_iff.mpr,
          append_nil]
        · intro kv hkv
          simpa using (hrest kv hkv).ne'
        · intro kv hkv
          simpa using hrange kv hkv
      have hother : ∀ c, c ≠ cur →
          under (kvs.drop left) depth c = under (kvs.drop (right + 1)) depth c := by
        intro c hc
        rw [under,under,hsplit,filter_append,filter_eq_nil_iff.mpr,nil_append]
        intro kv hkv
        simpa [hrange kv hkv] using hc.symm
      obtain ⟨hnodup,hmem⟩ := ih (right + 1) (by omega)
      have hfresh : ∀ g, (cur,g) ∉ kvs.groupsFrom depth fuel (right + 1) := by
        intro g hg
        obtain ⟨rfl,hg⟩ := (hmem cur g).mp hg
        obtain ⟨kv,hkv⟩ := exists_mem_of_ne_nil _ hg
        obtain ⟨hkv,hnib⟩ := mem_filter.mp hkv
        exact absurd (of_decide_eq_true hnib) (hrest kv hkv).ne'
      rw [map_cons]
      constructor
      · refine nodup_cons.mpr ⟨fun h => ?_,hnodup⟩
        obtain ⟨⟨c,g⟩,hg,hc⟩ := mem_map.mp h
        have hcc : c = cur := hc.trans hleft
        exact hfresh g (hcc ▸ hg)
      · intro c g
        have htail := hmem c g
        rw [groupsFrom] at htail
        rw [mem_cons,htail,Prod.mk.injEq,hleft]
        by_cases hc : c = cur
        · subst hc
          rw [hcurUnder]
          constructor
          · rintro (⟨-,rfl⟩ | h)
            · exact ⟨rfl,hne⟩
            · exact absurd ((hmem c g).mpr h) (hfresh g)
          · rintro ⟨rfl,-⟩
            exact .inl ⟨rfl,rfl⟩
        · rw [hother c hc]
          exact ⟨fun h => h.resolve_left fun h => hc h.1,.inr⟩
    · exact hnil left (by omega)

def touched (kvs : KeyValues H K) (depth : ℕ) : List Nibble :=
  (List.finRange 16).filter fun c => kvs.under depth c ≠ []

theorem touched_nodup : (kvs.touched depth).Nodup := (nodup_finRange 16).filter _

theorem mem_touched {c : Nibble} : c ∈ kvs.touched depth ↔ kvs.under depth c ≠ [] := by
  simp [touched]

end KeyValues

theorem forRanges_ok (update : Nibble → KeyValues H K → Except TreeError (Updated H K))
    {result : Nibble → Updated H K} (hs : kvs.NibblesSorted depth)
    (h : ∀ c, kvs.under depth c ≠ [] → update c (kvs.under depth c) = .ok (result c)) :
    ∃ cs : List Nibble, cs.Perm (kvs.touched depth) ∧
      forRanges kvs depth update = .ok (cs.map fun c => (c,result c)) := by
  obtain ⟨hnodup,hmem⟩ := KeyValues.groupsFrom_spec hs kvs.length 0 (by omega)
  rw [drop_zero] at hmem
  refine ⟨(kvs.groupsFrom depth kvs.length 0).map Prod.fst,?_,?_⟩
  · refine (perm_ext_iff_of_nodup hnodup KeyValues.touched_nodup).mpr fun c => ?_
    rw [KeyValues.mem_touched]
    constructor
    · intro hc
      obtain ⟨⟨c,g⟩,hg,rfl⟩ := mem_map.mp hc
      obtain ⟨rfl,hne⟩ := (hmem c g).mp hg
      exact hne
    · intro hne
      exact mem_map.mpr ⟨(c,kvs.under depth c),(hmem c _).mpr ⟨rfl,hne⟩,rfl⟩
  · have hrounds : forRanges kvs depth update =
        (kvs.groupsFrom depth kvs.length 0).mapM
          (fun g => update g.1 g.2 >>= fun updated => pure (g.1,updated)) := by
      rw [KeyValues.groupsFrom,mapM_map]
      rfl
    rw [hrounds,map_map]
    refine mapM_ok fun g hg => ?_
    obtain ⟨heq,hne⟩ := (hmem g.1 g.2).mp hg
    rw [heq,h g.1 (heq ▸ hne)]
    rfl

end Arx.JellyfishMerkle
