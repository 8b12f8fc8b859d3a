import Arx.Movelib.Except
import Arx.Movelib.Bytes

/-!
# Deltas of aggregators

A delta is a partial function on the value of an aggregator. Numbers of type `u128` are natural
numbers; no operation here leaves the limit.
-/

namespace Arx.ArxAggregator
open Movelib

inductive PartialVMError
  /-- `StatusCode::ABORTED` with a message and a sub status. -/
  | aborted (message : String) (subStatus : ℕ)
  /-- `StatusCode::VM_EXTENSION_ERROR`. -/
  | extension (message : String)
  | panic (message : String)
  deriving DecidableEq

abbrev PartialVMResult := Except PartialVMError

def EADD_OVERFLOW : ℕ := 0x020001

def ESUB_UNDERFLOW : ℕ := 0x020002

def abortError (message : String) (code : ℕ) : PartialVMError := .aborted message code

def addition (base value limit : ℕ) : PartialVMResult ℕ :=
  if limit < base ∨ value > limit - base then
    .error (abortError s!"overflow when adding {value} to {base}" EADD_OVERFLOW)
  else .ok (base + value)

def subtraction (base value : ℕ) : PartialVMResult ℕ :=
  if value > base then
    .error (abortError s!"underflow when subtracting {value} from {base}" ESUB_UNDERFLOW)
  else .ok (base - value)

@[simp] theorem addition_eq_ok {base value limit v : ℕ} :
    addition base value limit = .ok v ↔ base + value ≤ limit ∧ v = base + value := by
  unfold addition
  split
  · exact ⟨nofun,fun h => by omega⟩
  · rw [Except.ok.injEq]
    exact ⟨fun h => by omega,fun h => h.2.symm⟩

@[simp] theorem subtraction_eq_ok {base value v : ℕ} :
    subtraction base value = .ok v ↔ value ≤ base ∧ v = base - value := by
  unfold subtraction
  split
  · exact ⟨nofun,fun h => by omega⟩
  · rw [Except.ok.injEq]
    exact ⟨fun h => by omega,fun h => h.2.symm⟩

def serialize (value : ℕ) : List UInt8 := leBytes 16 value

def deserialize (bytes : List UInt8) : PartialVMResult ℕ :=
  if bytes.length = 16 then .ok (ofLeBytes bytes)
  else .error (.panic "unexpected deserialization error in aggregator")

theorem deserialize_serialize {value : ℕ} (h : value < 2 ^ 128) :
    deserialize (serialize value) = .ok value := by
  rw [deserialize,serialize,if_pos (length_leBytes 16 value),ofLeBytes_leBytes]
  exact h.trans_eq (by norm_num)

inductive DeltaUpdate
  | plus (value : ℕ)
  | minus (value : ℕ)
  deriving DecidableEq

structure DeltaOp where
  /-- Maximum positive delta seen during execution. -/
  maxPositive : ℕ
  /-- Smallest negative delta seen during execution. -/
  minNegative : ℕ
  /-- The delta overflows on exceeding this limit. -/
  limit : ℕ
  update : DeltaUpdate
  deriving DecidableEq

namespace DeltaOp

def new (update : DeltaUpdate) (limit maxPositive minNegative : ℕ) : DeltaOp :=
  ⟨maxPositive,minNegative,limit,update⟩

def applyTo (d : DeltaOp) (base : ℕ) : PartialVMResult ℕ := do
  let _ ← addition base d.maxPositive d.limit
  let _ ← subtraction base d.minNegative
  match d.update with
  | .plus value => addition base value d.limit
  | .minus value => subtraction base value

def shiftedMaxPositiveBy (d delta : DeltaOp) : PartialVMResult ℕ :=
  match delta.update with
  | .plus value => addition value d.maxPositive d.limit
  | .minus value => .ok ((subtraction d.maxPositive value).toOption.getD 0)

def shiftedMinNegativeBy (d delta : DeltaOp) : PartialVMResult ℕ :=
  match delta.update with
  | .plus value => .ok ((subtraction d.minNegative value).toOption.getD 0)
  | .minus value => addition value d.minNegative d.limit

/-- The macros `update_same_sign` and `update_different_sign`. -/
def mergedUpdate (limit : ℕ) : DeltaUpdate → DeltaUpdate → PartialVMResult DeltaUpdate
  | .plus prev, .plus value => (addition prev value limit).map .plus
  | .plus prev, .minus value => differentSign prev value
  | .minus prev, .plus value => differentSign value prev
  | .minus prev, .minus value => (addition prev value limit).map .minus
where
  differentSign (a b : ℕ) : PartialVMResult DeltaUpdate :=
    if a ≥ b then (subtraction a b).map .plus else (subtraction b a).map .minus

def mergeOnto (d previousDelta : DeltaOp) : PartialVMResult DeltaOp := do
  let shiftedMaxPositive ← d.shiftedMaxPositiveBy previousDelta
  let shiftedMinNegative ← d.shiftedMinNegativeBy previousDelta
  let update ← mergedUpdate d.limit previousDelta.update d.update
  pure ⟨max previousDelta.maxPositive shiftedMaxPositive,
    max previousDelta.minNegative shiftedMinNegative,d.limit,update⟩

end DeltaOp

def DeltaUpdate.toInt : DeltaUpdate → ℤ
  | .plus value => value
  | .minus value => -value

namespace DeltaOp

/-- The update is within the history, for a limit that all deltas of an aggregator share. -/
structure WellFormed (limit : ℕ) (d : DeltaOp) : Prop where
  limit_eq : d.limit = limit
  le_max : d.update.toInt ≤ d.maxPositive
  min_le : -(d.minNegative : ℤ) ≤ d.update.toInt

variable {limit b v : ℕ} {d d₁ d₂ : DeltaOp}

theorem WellFormed.applyTo_ok (h : d.WellFormed limit) : d.applyTo b = .ok v ↔
    b + d.maxPositive ≤ limit ∧ d.minNegative ≤ b ∧ (v : ℤ) = b + d.update.toInt := by
  obtain ⟨rfl,hmax,hmin⟩ := h
  simp only [applyTo,bind_eq_ok,addition_eq_ok,subtraction_eq_ok]
  cases hu : d.update with
  | plus value | minus value =>
    simp only [hu,DeltaUpdate.toInt,addition_eq_ok,subtraction_eq_ok] at hmax hmin ⊢
    constructor
    · rintro ⟨_,⟨hp,-⟩,_,⟨hn,-⟩,h⟩
      omega
    · rintro ⟨hp,hn,hv⟩
      exact ⟨_,⟨hp,rfl⟩,_,⟨hn,rfl⟩,by omega⟩

/-- Merging fails only on a history that no base has room for. -/
theorem WellFormed.mergeOnto_spec (h₁ : d₁.WellFormed limit) (h₂ : d₂.WellFormed limit) :
    Returns (fun _ => limit < d₂.maxPositive + d₁.update.toInt ∨
        limit < d₂.minNegative - d₁.update.toInt)
      (fun d => d.WellFormed limit ∧
        (d.maxPositive : ℤ) = max (d₁.maxPositive : ℤ) (d₂.maxPositive + d₁.update.toInt) ∧
        (d.minNegative : ℤ) = max (d₁.minNegative : ℤ) (d₂.minNegative - d₁.update.toInt) ∧
        d.update.toInt = d₁.update.toInt + d₂.update.toInt) (d₂.mergeOnto d₁) := by
  obtain ⟨rfl,hmax₂,hmin₂⟩ := h₂
  obtain ⟨-,hmax₁,hmin₁⟩ := h₁
  rw [mergeOnto,shiftedMaxPositiveBy,shiftedMinNegativeBy]
  -- each pair of signs leaves one check against the limit, and one comparison if they differ
  cases hu₁ : d₁.update with
  | plus a | minus a =>
    cases hu₂ : d₂.update with
    | plus c | minus c =>
      simp only [hu₁,hu₂,DeltaUpdate.toInt,mergedUpdate,mergedUpdate.differentSign,addition,
        subtraction] at *
      split_ifs
      all_goals first
      | refine ⟨⟨rfl,?_,?_⟩,?_,?_,?_⟩ <;> simp [DeltaUpdate.toInt,Except.toOption] <;> omega
      | simp [Returns,bind,Except.bind,Except.map]
        omega

theorem WellFormed.mergeOnto_applyTo (h₁ : d₁.WellFormed limit) (h₂ : d₂.WellFormed limit) :
    (d₂.mergeOnto d₁ >>= (·.applyTo b)) = .ok v ↔
      ∃ u, d₁.applyTo b = .ok u ∧ d₂.applyTo u = .ok v := by
  have hmerge := h₁.mergeOnto_spec h₂
  simp only [h₁.applyTo_ok,h₂.applyTo_ok]
  cases hd : d₂.mergeOnto d₁ with
  | error e =>
    rw [hd] at hmerge
    refine ⟨nofun,?_⟩
    rintro ⟨u,⟨hp₁,hn₁,hu⟩,hp₂,hn₂,-⟩
    rcases hmerge with hover | hover
    · omega
    · omega
  | ok d =>
    rw [hd] at hmerge
    obtain ⟨hwf,hmax,hmin,hupdate⟩ := hmerge
    refine hwf.applyTo_ok.trans ⟨?_,?_⟩
    · rintro ⟨hp,hn,hv⟩
      have hle := h₁.min_le
      exact ⟨(b + d₁.update.toInt).toNat,by omega,by omega⟩
    · rintro ⟨u,⟨hp₁,hn₁,hu⟩,hp₂,hn₂,hv⟩
      omega

end DeltaOp

/-- A way to put brackets into a sequence of deltas. -/
inductive MergeTree
  | delta (d : DeltaOp)
  | merge (first second : MergeTree)

namespace MergeTree

def deltas : MergeTree → List DeltaOp
  | .delta d => [d]
  | .merge first second => first.deltas ++ second.deltas

def result : MergeTree → PartialVMResult DeltaOp
  | .delta d => pure d
  | .merge first second => do
    let previous ← first.result
    let d ← second.result
    d.mergeOnto previous

variable {limit : ℕ}

theorem wellFormed_and_applyTo (t : MergeTree) (h : ∀ d ∈ t.deltas, d.WellFormed limit) :
    (∀ d, t.result = .ok d → d.WellFormed limit) ∧
      ∀ b v, (t.result >>= (·.applyTo b)) = .ok v ↔
        t.deltas.foldlM (fun b d => d.applyTo b) b = .ok v := by
  induction t with
  | delta d =>
    refine ⟨?_,fun b v => ?_⟩
    · rintro _ ⟨⟩
      exact h d (List.mem_singleton_self d)
    · rw [deltas,List.foldlM_cons]
      exact (bind_pure (d.applyTo b)).symm ▸ Iff.rfl
  | merge first second ih₁ ih₂ =>
    obtain ⟨hwf₁,happly₁⟩ := ih₁ fun d hd => h d (List.mem_append_left _ hd)
    obtain ⟨hwf₂,happly₂⟩ := ih₂ fun d hd => h d (List.mem_append_right _ hd)
    refine ⟨fun d hd => ?_,fun b v => ?_⟩
    · obtain ⟨d₁,hd₁,hd⟩ := bind_eq_ok.mp hd
      obtain ⟨d₂,hd₂,hd⟩ := bind_eq_ok.mp hd
      exact (((hwf₁ d₁ hd₁).mergeOnto_spec (hwf₂ d₂ hd₂)).of_ok hd).1
    · rw [deltas,List.foldlM_append]
      refine Iff.trans ?_ (Iff.trans
        (exists_congr fun u => and_congr (happly₁ b u) (happly₂ u v)) bind_eq_ok.symm)
      rw [result]
      cases hd₁ : first.result with
      | error e => exact ⟨nofun,nofun⟩
      | ok d₁ =>
        cases hd₂ : second.result with
        | error e => exact ⟨nofun,nofun⟩
        | ok d₂ => exact (hwf₁ d₁ hd₁).mergeOnto_applyTo (hwf₂ d₂ hd₂)

/-- Merging two deltas is applying one after the other. It is associative for the partial functions
that the deltas stand for: a sequence is merged into the same one whatever the brackets. -/
theorem mergeOnto_composes {d₁ d₂ : DeltaOp} (h₁ : d₁.WellFormed limit)
    (h₂ : d₂.WellFormed limit) :
    (∀ d, d₂.mergeOnto d₁ = .ok d → ∀ b v, d.applyTo b = .ok v ↔
      ∃ u, d₁.applyTo b = .ok u ∧ d₂.applyTo u = .ok v) ∧
    (∀ e, d₂.mergeOnto d₁ = .error e → ∀ b u v, d₁.applyTo b = .ok u → d₂.applyTo u ≠ .ok v) ∧
    ∀ t : MergeTree, (∀ d ∈ t.deltas, d.WellFormed limit) → ∀ b v,
      (t.result >>= (·.applyTo b)) = .ok v ↔
        t.deltas.foldlM (fun b d => d.applyTo b) b = .ok v := by
  refine ⟨fun d hd b v => ?_,fun e he b u v hu hv => ?_,fun t ht =>
    (t.wellFormed_and_applyTo ht).2⟩
  · rw [← h₁.mergeOnto_applyTo h₂,hd]
    rfl
  · have happly := (h₁.mergeOnto_applyTo h₂).mpr ⟨u,hu,hv⟩
    rw [he] at happly
    cases happly

theorem mergeOnto_composes_sample :
    (∃ d, (DeltaOp.mk 11 0 20 (.plus 10)).mergeOnto (.mk 4 3 20 (.minus 3)) = .ok d ∧
      d.applyTo 5 = .ok 12) ∧
    ((merge (.delta (.mk 4 3 20 (.minus 3))) (merge (.delta (.mk 11 0 20 (.plus 10)))
      (.delta (.mk 0 2 20 (.minus 2))))).result >>= (·.applyTo 5)) = .ok 10 := by
  have h₁ : (DeltaOp.mk 4 3 20 (.minus 3)).WellFormed 20 := ⟨rfl,by decide,by decide⟩
  have h₂ : (DeltaOp.mk 11 0 20 (.plus 10)).WellFormed 20 := ⟨rfl,by decide,by decide⟩
  have h₃ : (DeltaOp.mk 0 2 20 (.minus 2)).WellFormed 20 := ⟨rfl,by decide,by decide⟩
  obtain ⟨hmerge,-,htree⟩ := mergeOnto_composes h₁ h₂
  refine ⟨⟨.mk 8 3 20 (.plus 7),by rfl,(hmerge _ (by rfl) 5 12).mpr ⟨2,by rfl,by rfl⟩⟩,
    (htree _ (fun d hd => ?_) 5 10).mpr (by rfl)⟩
  simp only [deltas,List.cons_append,List.nil_append,List.mem_cons,List.not_mem_nil,or_false] at hd
  obtain rfl | rfl | rfl := hd
  · exact h₁
  · exact h₂
  · exact h₃

end MergeTree

end Arx.ArxAggregator
