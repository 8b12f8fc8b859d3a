import Arx.Mempool.Index
import Arx.Movelib.Vector

/-!
# The parking lot

Its accounts lie in a vector from which they are removed by swapping in the last one, with an index of
their places beside it.
-/

namespace Arx.Mempool
open Movelib Function List Option

variable {A P H : Type}

section VecSwapRemove

variable {α : Type} {l : List α} {i j : ℕ} {x : α}

/-- What lies where after the removal: the last element at the gap, if the gap is not at the end. -/
theorem getElem?_vecSwapRemove (hi : i < l.length) : (vecSwapRemove l i)[j]? =
    if j + 1 < l.length then if j = i then l[l.length - 1]? else l[j]? else none := by
  rcases eq_nil_or_concat l with rfl | ⟨front,last,rfl⟩
  · exact absurd hi (Nat.not_lt_zero i)
  rw [concat_eq_append] at hi ⊢
  have hswap : vecSwapRemove (front ++ [last]) i = ((front ++ [last]).set i last).dropLast := by
    rw [vecSwapRemove,List.getLast?_concat]
  rw [length_append,length_singleton] at hi ⊢
  rw [hswap,List.getElem?_dropLast,length_set,length_append,length_singleton]
  by_cases hj : j + 1 < front.length + 1
  · rw [if_pos (by omega),if_pos hj,List.getElem?_set]
    by_cases hij : i = j
    · subst hij
      rw [if_pos rfl,length_append,length_singleton,if_pos hi]
      simp
    · rw [if_neg hij,if_neg (Ne.symm hij)]
  · rw [if_neg (by omega),if_neg hj]

theorem vecSwapRemove_perm (hx : l[i]? = some x) : l.Perm (x :: vecSwapRemove l i) := by
  obtain ⟨hi,rfl⟩ := List.getElem?_eq_some_iff.mp hx
  have hswap : swapRemove l i = .ok (vecSwapRemove l i,l[i]) := by
    rw [swapRemove,vecSwapRemove]
    cases hlast : l.getLast? with
    | none =>
      rw [List.getLast?_eq_none_iff.mp hlast] at hi
      exact absurd hi (Nat.not_lt_zero i)
    | some last =>
      have hborrow : vectorBorrow l i = .ok l[i] := vectorBorrow_eq_ok.mpr hx
      simp only [hborrow]
      rfl
  exact (swapRemove_perm hswap).2

end VecSwapRemove

theorem MempoolTransaction.pointer_eq (t : MempoolTransaction A P H) :
    t.pointer = (t.txn.sender,t.txn.sequenceNumber) := by
  rw [pointer,t.sequence_eq]
  rfl

namespace ParkingLotIndex

structure WellFormed (index : ParkingLotIndex A) : Prop where
  nonempty : ∀ e ∈ index.data, e.2.rows ≠ []
  indices : ∀ a i, index.accountIndices a = some i ↔ ∃ txns, index.data[i]? = some (a,txns)
  size : index.size = (index.data.map fun e => e.2.rows.length).sum

theorem WellFormed.new : (ParkingLotIndex.new : ParkingLotIndex A).WellFormed where
  nonempty := fun _ he => absurd he not_mem_nil
  indices := fun _ _ => ⟨nofun,fun ⟨_,h⟩ => absurd h nofun⟩
  size := rfl

variable {index : ParkingLotIndex A} {t : MempoolTransaction A P H} {a : A} {i n : ℕ}
  {txns txns' : SeqNums}

section

variable (h : index.WellFormed)

include h

theorem contains_eq_true : index.contains a n = true ↔
    ∃ txns : SeqNums, (a,txns) ∈ index.data ∧ n ∈ txns.keys := by
  rw [contains]
  constructor
  · intro hc
    cases hi : index.accountIndices a with
    | none => simp [hi] at hc
    | some i =>
      obtain ⟨txns,htxns⟩ := (h.indices a i).mp hi
      rw [hi,bind_some,htxns] at hc
      exact ⟨txns,mem_of_getElem? htxns,of_decide_eq_true hc⟩
  · rintro ⟨txns,hmem,hn⟩
    obtain ⟨i,hi⟩ := mem_iff_getElem?.mp hmem
    rw [(h.indices a i).mpr ⟨txns,hi⟩,bind_some,hi]
    exact decide_eq_true hn

theorem WellFormed.place_unique {j : ℕ} (hi : index.data[i]? = some (a,txns))
    (hj : index.data[j]? = some (a,txns')) : i = j := by
  have hi' := (h.indices a i).mpr ⟨txns,hi⟩
  rw [(h.indices a j).mpr ⟨txns',hj⟩] at hi'
  exact (some.inj hi').symm

theorem contains_at (hi : index.data[i]? = some (a,txns)) :
    index.contains a n = true ↔ n ∈ txns.keys := by
  rw [contains_eq_true h]
  refine ⟨fun ⟨txns',hmem,hn⟩ => ?_,fun hn => ⟨txns,mem_of_getElem? hi,hn⟩⟩
  obtain ⟨j,hj⟩ := mem_iff_getElem?.mp hmem
  rw [← h.place_unique hi hj,hi] at hj
  rwa [(Prod.mk.inj (some.inj hj)).2]

theorem contains_of_getPoppable {rng : ℕ} {p : TxnPointer A} (hp : index.getPoppable rng = some p) :
    index.contains p.1 p.2 = true := by
  obtain ⟨e,he,hlast⟩ := bind_eq_some_iff.mp hp
  obtain ⟨n,hn,rfl⟩ := map_eq_some_iff.mp hlast
  exact (contains_at h he).mpr (mem_of_getLast? hn)

variable [LinearOrder A]

theorem WellFormed.set (hi : index.data[i]? = some (a,txns)) (hne : txns'.rows ≠ []) (size : ℕ)
    (hsize : size + txns.rows.length = index.size + txns'.rows.length) :
    (⟨index.data.set i (a,txns'),index.accountIndices,size⟩ : ParkingLotIndex A).WellFormed ∧
    ∀ b m, contains ⟨index.data.set i (a,txns'),index.accountIndices,size⟩ b m = true ↔
      if b = a then m ∈ txns'.keys else index.contains b m = true := by
  obtain ⟨hlt,hget⟩ := List.getElem?_eq_some_iff.mp hi
  have hset : ∀ j, (index.data.set i (a,txns'))[j]? =
      if i = j then some (a,txns') else index.data[j]? := by
    intro j
    rw [List.getElem?_set,if_pos hlt]
  have hwf : (⟨index.data.set i (a,txns'),index.accountIndices,size⟩ :
      ParkingLotIndex A).WellFormed := by
    constructor
    case nonempty =>
      intro e he
      rcases mem_or_eq_of_mem_set he with he | rfl
      · exact h.nonempty e he
      · exact hne
    case indices =>
      intro b j
      rw [h.indices]
      rw [hset]
      split_ifs with hij
      · subst hij
        rw [hi]
        simp
      · rfl
    case size =>
      have hperm := ((set_perm hlt (a,txns')).map fun e => e.2.rows.length).sum_eq
      rw [map_cons,map_cons,sum_cons,sum_cons,hget,← h.size] at hperm
      replace hperm : txns'.rows.length + index.size = txns.rows.length +
        ((index.data.set i (a,txns')).map fun e => e.2.rows.length).sum := hperm
      change size = ((index.data.set i (a,txns')).map fun e => e.2.rows.length).sum
      omega
  refine ⟨hwf,fun b m => ?_⟩
  split_ifs with hb
  · subst hb
    refine contains_at hwf (i := i) ?_
    rw [hset,if_pos rfl]
  · have hperm := set_perm hlt (a,txns')
    rw [contains_eq_true hwf,contains_eq_true h]
    refine exists_congr fun txns'' => and_congr_left fun _ => ?_
    have hmem := hperm.mem_iff (a := (b,txns''))
    rw [hget,mem_cons] at hmem
    simpa [hb] using hmem.symm

theorem insert_spec : (index.insert t).WellFormed ∧
    ∀ b m, (index.insert t).contains b m = true ↔ (b,m) = t.pointer ∨ index.contains b m = true := by
  rw [insert,t.pointer_eq]
  cases hi : index.accountIndices t.txn.sender with
  | some i =>
    obtain ⟨txns,htxns⟩ := (h.indices _ i).mp hi
    simp only [htxns]
    have hmem : (t.txn.sequenceNumber,()) ∈ (txns.put t.txn.sequenceNumber ()).rows :=
      Column.mem_put.mpr (.inl rfl)
    obtain ⟨hwf,hcontains⟩ := h.set htxns (ne_nil_of_mem hmem)
      (if t.txn.sequenceNumber ∈ txns.keys then index.size else index.size + 1) (by
        split_ifs with hn
        · obtain ⟨v,hv⟩ := ne_none_iff_exists'.mp fun hnone =>
            (Column.get_eq_none injective_id).mp hnone hn
          rw [Column.length_put_of_get_some injective_id hv]
        · rw [Column.length_put_of_get_none injective_id
            ((Column.get_eq_none injective_id).mpr hn)]
          omega)
    refine ⟨hwf,fun b m => (hcontains b m).trans ?_⟩
    split_ifs with hb
    · subst hb
      rw [Column.mem_keys_put injective_id,contains_at h htxns]
      simp
    · simp [hb]
  | none =>
    have habsent : ∀ (j : ℕ) (txns : SeqNums), index.data[j]? ≠ some (t.txn.sender,txns) := by
      intro j txns hj
      rw [(h.indices _ j).mpr ⟨txns,hj⟩] at hi
      cases hi
    have hget : ∀ j, (index.data ++ [(t.txn.sender,(Column.empty : SeqNums).put
        t.txn.sequenceNumber ())])[j]? = if j = index.data.length then
        some (t.txn.sender,(Column.empty : SeqNums).put t.txn.sequenceNumber ()) else
        index.data[j]? := by
      intro j
      split_ifs with hj
      · subst hj
        exact List.getElem?_concat_length
      · rcases Nat.lt_or_gt_of_ne hj with hlt | hgt
        · rw [List.getElem?_append_left hlt]
        · rw [List.getElem?_eq_none (by simp; omega),List.getElem?_eq_none (by omega)]
    have hwf : (⟨index.data ++ [(t.txn.sender,Column.empty.put t.txn.sequenceNumber ())],
        update index.accountIndices t.txn.sender (some index.data.length),
        index.size + 1⟩ : ParkingLotIndex A).WellFormed := by
      constructor
      case nonempty =>
        exact forall_mem_append.mpr ⟨h.nonempty,
          forall_mem_singleton.mpr (ne_nil_of_mem (Column.mem_put.mpr (.inl rfl)))⟩
      case indices =>
        intro b j
        change update index.accountIndices t.txn.sender _ b = _ ↔ ∃ txns,
          (index.data ++ [_])[j]? = some (b,txns)
        rw [hget]
        by_cases hb : b = t.txn.sender
        · subst hb
          rw [update_self,some_inj]
          split_ifs with hj
          · exact ⟨fun _ => ⟨_,rfl⟩,fun _ => hj.symm⟩
          · exact ⟨fun heq => absurd heq.symm hj,fun ⟨txns,htxns⟩ => absurd htxns (habsent j txns)⟩
        · rw [update_of_ne hb,h.indices]
          split_ifs with hj
          · subst hj
            rw [List.getElem?_eq_none le_rfl]
            constructor
            · exact fun ⟨_,heq⟩ => absurd heq nofun
            · exact fun ⟨_,heq⟩ => absurd (Prod.mk.inj (some.inj heq)).1.symm hb
          · rfl
      case size =>
        rw [map_append,sum_append,← h.size]
        rfl
    refine ⟨hwf,fun b m => ?_⟩
    rw [contains_eq_true hwf,contains_eq_true h]
    constructor
    · rintro ⟨txns,hmem,hm⟩
      rcases mem_append.mp hmem with hmem | hmem
      · exact .inr ⟨txns,hmem,hm⟩
      · obtain ⟨rfl,rfl⟩ := Prod.mk.inj (mem_singleton.mp hmem)
        rcases (Column.mem_keys_put injective_id).mp hm with rfl | hm
        · exact .inl rfl
        · cases hm
    · rintro (heq | ⟨txns,hmem,hm⟩)
      · cases heq
        exact ⟨_,mem_append_right _ (mem_singleton_self _),
          (Column.mem_keys_put injective_id).mpr (.inl rfl)⟩
      · exact ⟨txns,mem_append_left _ hmem,hm⟩

theorem WellFormed.swapRemove (hi : index.data[i]? = some (a,txns)) {size : ℕ}
    (hsize : size + txns.rows.length = index.size) :
    let data := vecSwapRemove index.data i
    let accountIndices := update index.accountIndices a none
    let accountIndices := (data[i]?).elim accountIndices fun e =>
      update accountIndices e.1 (some i)
    (⟨data,accountIndices,size⟩ : ParkingLotIndex A).WellFormed ∧
    ∀ b m, contains ⟨data,accountIndices,size⟩ b m = true ↔ b ≠ a ∧ index.contains b m = true := by
  intro data cleared accountIndices
  obtain ⟨hlt,hget⟩ := List.getElem?_eq_some_iff.mp hi
  have hdata : ∀ j : ℕ, data[j]? = if j + 1 < index.data.length then
      if j = i then index.data[index.data.length - 1]? else index.data[j]? else none :=
    fun j => getElem?_vecSwapRemove hlt
  have hgone : ∀ (j : ℕ) (txns' : SeqNums), data[j]? ≠ some (a,txns') := by
    intro j txns' hj
    rw [hdata] at hj
    split_ifs at hj with hj1 hj2
    · have := h.place_unique hi hj
      omega
    · exact hj2 (h.place_unique hj hi)
  obtain ⟨⟨last,ltxns⟩,hlast⟩ : ∃ e, index.data[index.data.length - 1]? = some e :=
    ⟨_,List.getElem?_eq_getElem (by omega)⟩
  -- the accounts but the last one stay where they are
  have hrest : ∀ b, b ≠ a → b ≠ last → ∀ j, cleared b = some j ↔ ∃ txns, data[j]? = some (b,txns) := by
    intro b hba hbl j
    simp only [cleared,update_of_ne hba]
    rw [h.indices]
    refine exists_congr fun txns' => ?_
    rw [hdata]
    split_ifs with hj1 hj2
    · subst hj2
      rw [hi,hlast]
      exact iff_of_false (fun heq => hba (Prod.mk.inj (some.inj heq)).1.symm)
        fun heq => hbl (Prod.mk.inj (some.inj heq)).1.symm
    · rfl
    · refine iff_of_false (fun hj => ?_) nofun
      have hjlt := (List.getElem?_eq_some_iff.mp hj).1
      rw [show j = index.data.length - 1 by omega,hlast] at hj
      exact hbl (Prod.mk.inj (some.inj hj)).1.symm
  have hcleared : ∀ j, cleared a = some j ↔ ∃ txns, data[j]? = some (a,txns) := by
    intro j
    simp only [cleared,update_self,reduceCtorEq,false_iff,not_exists]
    exact hgone j
  have hplace : ∀ (b : A) (j : ℕ), accountIndices b = some j ↔
      ∃ txns, data[j]? = some (b,txns) := by
    intro b j
    by_cases hlt' : i + 1 < index.data.length
    · -- the last account has moved to the gap
      have hgap : data[i]? = some (last,ltxns) := by
        rw [hdata,if_pos hlt',if_pos rfl,hlast]
      have hindices : accountIndices = update cleared last (some i) := by
        simp only [accountIndices,hgap,elim_some]
      rw [hindices]
      by_cases hb : b = last
      · subst hb
        rw [update_self,some_inj]
        refine ⟨fun hij => ⟨ltxns,hij ▸ hgap⟩,fun ⟨txns',hj⟩ => ?_⟩
        rw [hdata] at hj
        split_ifs at hj with hj1 hj2
        · exact hj2.symm
        · have := h.place_unique hj hlast
          omega
      · rw [update_of_ne hb]
        by_cases hba : b = a
        · exact hba ▸ hcleared j
        · exact hrest b hba hb j
    · -- the account was the last one
      have hgap : data[i]? = none := by
        rw [hdata,if_neg hlt']
      have hindices : accountIndices = cleared := by
        simp only [accountIndices,hgap,elim_none]
      obtain rfl : last = a := by
        rw [show index.data.length - 1 = i by omega,hi] at hlast
        exact (Prod.mk.inj (some.inj hlast)).1.symm
      rw [hindices]
      by_cases hba : b = last
      · exact hba ▸ hcleared j
      · exact hrest b hba hba j
  have hperm := vecSwapRemove_perm hi
  have hwf : (⟨data,accountIndices,size⟩ : ParkingLotIndex A).WellFormed := by
    refine ⟨fun e he => ?_,hplace,?_⟩
    · exact h.nonempty e (hperm.mem_iff.mpr (mem_cons_of_mem _ he))
    · have hsum := (hperm.map fun e => e.2.rows.length).sum_eq
      rw [map_cons,sum_cons,← h.size] at hsum
      replace hsum : index.size = txns.rows.length + (data.map fun e => e.2.rows.length).sum := hsum
      change size = (data.map fun e => e.2.rows.length).sum
      omega
  refine ⟨hwf,fun b m => ?_⟩
  rw [contains_eq_true hwf,contains_eq_true h]
  constructor
  · rintro ⟨txns',hmem,hm⟩
    refine ⟨?_,txns',hperm.mem_iff.mpr (mem_cons_of_mem _ hmem),hm⟩
    rintro rfl
    obtain ⟨j,hj⟩ := mem_iff_getElem?.mp hmem
    exact hgone j txns' hj
  · rintro ⟨hba,txns',hmem,hm⟩
    refine ⟨txns',(mem_cons.mp (hperm.mem_iff.mp hmem)).resolve_left fun heq => ?_,hm⟩
    exact hba (Prod.mk.inj heq).1

theorem remove_spec (t : MempoolTransaction A P H) :
    ∃ index', index.remove t = .ok index' ∧ index'.WellFormed ∧
      ∀ b m, index'.contains b m = true ↔ (b,m) ≠ t.pointer ∧ index.contains b m = true := by
  rw [remove,t.pointer_eq]
  cases hi : index.accountIndices t.txn.sender with
  | none =>
    refine ⟨index,rfl,h,fun b m => (and_iff_right_of_imp fun hc heq => ?_).symm⟩
    cases heq
    rw [contains,hi] at hc
    exact absurd hc Bool.false_ne_true
  | some i =>
    obtain ⟨txns,htxns⟩ := (h.indices _ i).mp hi
    simp only [htxns]
    have hle : txns.rows.length ≤ index.size := by
      rw [h.size]
      exact single_le_sum (fun _ _ => Nat.zero_le _) _
        (mem_map_of_mem (mem_of_getElem? htxns))
    -- the rows that are left, and their number
    have hlength : (if t.txn.sequenceNumber ∈ txns.keys then index.size - 1 else index.size) +
        txns.rows.length = index.size + (txns.delete t.txn.sequenceNumber).rows.length := by
      split_ifs with hn
      · obtain ⟨v,hv⟩ := Column.mem_keys.mp hn
        have := (Column.rows_perm_delete hv).length_eq
        rw [length_cons] at this
        omega
      · rw [Column.rows_delete_of_notMem injective_id hn]
    have hkeys : ∀ m, m ∈ (txns.delete t.txn.sequenceNumber).keys ↔
        m ∈ txns.keys ∧ m ≠ t.txn.sequenceNumber :=
      fun m => Column.mem_keys_delete injective_id
    have hpos : ¬ (t.txn.sequenceNumber ∈ txns.keys ∧ index.size = 0) := by
      rintro ⟨hn,hzero⟩
      obtain ⟨v,hv⟩ := Column.mem_keys.mp hn
      have := length_pos_of_mem hv
      omega
    rw [if_neg hpos]
    by_cases hempty : (txns.delete t.txn.sequenceNumber).rows = []
    · rw [if_pos (isEmpty_iff.mpr hempty)]
      rw [hempty,length_nil] at hlength
      obtain ⟨hwf,hcontains⟩ := h.swapRemove htxns hlength
      have hresult : ∀ b m, (b ≠ t.txn.sender ∧ index.contains b m = true) ↔
          (b,m) ≠ (t.txn.sender,t.txn.sequenceNumber) ∧ index.contains b m = true := by
        intro b m
        refine and_congr_left fun hc => ⟨fun hb heq => hb (Prod.mk.inj heq).1,fun hne hb => ?_⟩
        subst hb
        have hm := (contains_at h htxns).mp hc
        have hleft : m ∈ (txns.delete t.txn.sequenceNumber).keys :=
          (hkeys m).mpr ⟨hm,fun heq => hne (by rw [heq])⟩
        rw [Column.keys,hempty] at hleft
        cases hleft
      cases hgap : (vecSwapRemove index.data i)[i]? with
      | none | some e =>
        rw [hgap] at hwf hcontains
        exact ⟨_,rfl,hwf,fun b m => (hcontains b m).trans (hresult b m)⟩
    · rw [if_neg (fun hnil => hempty (isEmpty_iff.mp hnil))]
      obtain ⟨hwf,hcontains⟩ := h.set htxns hempty _ hlength
      refine ⟨_,rfl,hwf,fun b m => (hcontains b m).trans ?_⟩
      split_ifs with hb
      · subst hb
        rw [hkeys,contains_at h htxns,and_comm]
        simp
      · simp [hb]

end

end ParkingLotIndex

end Arx.Mempool
