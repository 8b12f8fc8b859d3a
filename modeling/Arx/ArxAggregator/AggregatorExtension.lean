import Arx.ArxAggregator.DeltaChangeSet

/-!
# Aggregators inside a transaction

An aggregator that has not been read is a delta: it does to a base value what the same operations
do to an aggregator that knows its value.
-/

namespace Arx.ArxAggregator
open Movelib

inductive AggregatorState
  /-- The aggregator stores a known value. -/
  | data
  | positiveDelta
  | negativeDelta
  deriving DecidableEq

structure History where
  maxPositive : ℕ
  minNegative : ℕ
  deriving DecidableEq

namespace History

def new : History := ⟨0,0⟩

def recordPositive (h : History) (value : ℕ) : History :=
  { h with maxPositive := max h.maxPositive value }

def recordNegative (h : History) (value : ℕ) : History :=
  { h with minNegative := max h.minNegative value }

end History

structure Aggregator where
  value : ℕ
  state : AggregatorState
  limit : ℕ
  /-- Not kept if the aggregator knows its value. -/
  history : Option History
  deriving DecidableEq

inductive AggregatorChange
  | write (value : ℕ)
  | merge (delta : DeltaOp)
  deriving DecidableEq

def extensionError (message : String) : PartialVMError := .extension message

def HISTORY_OF_DATA : PartialVMError :=
  .panic "history is not tracked when aggregator knows its value"

def unwrapHistory : Option History → PartialVMResult History
  | some h => .ok h
  | none => .error (.panic "called `Option::unwrap()` on a `None` value")

namespace Aggregator

def delta (limit : ℕ) : Aggregator := ⟨0,.positiveDelta,limit,some .new⟩

def known (value limit : ℕ) : Aggregator := ⟨value,.data,limit,none⟩

def record (g : Aggregator) : PartialVMResult Aggregator :=
  match g.history with
  | none => .ok g
  | some h =>
    match g.state with
    | .positiveDelta => .ok { g with history := some (h.recordPositive g.value) }
    | .negativeDelta => .ok { g with history := some (h.recordNegative g.value) }
    | .data => .error HISTORY_OF_DATA

def add (g : Aggregator) (value : ℕ) : PartialVMResult Aggregator :=
  match g.state with
  | .data => do
    let value ← addition g.value value g.limit
    pure { g with value }
  | .positiveDelta => do
    let value ← addition g.value value g.limit
    { g with value }.record
  | .negativeDelta =>
    if g.value ≤ value then do
      let value ← subtraction value g.value
      { g with value, state := .positiveDelta }.record
    else do
      let value ← subtraction g.value value
      { g with value }.record

def sub (g : Aggregator) (value : ℕ) : PartialVMResult Aggregator :=
  match g.state with
  | .data => do
    let value ← subtraction g.value value
    pure { g with value }
  | .positiveDelta =>
    if g.value ≥ value then do
      let value ← subtraction g.value value
      { g with value }.record
    else do
      -- A value that is above the limit cannot be subtracted from any base.
      let _ ← subtraction g.limit value
      let value ← subtraction value g.value
      { g with value, state := .negativeDelta }.record
  | .negativeDelta => do
    let value ← addition g.value value g.limit
    { g with value }.record

/-- `read_and_materialize`, where `stored` is what the resolver returns for the aggregator. -/
def readAndMaterialize (g : Aggregator) (stored : Except Unit (Option (List UInt8))) :
    PartialVMResult (Aggregator × ℕ) :=
  if g.state = .data then .ok (g, g.value)
  else
    match stored with
    | .ok (some bytes) => do
      let fromStorage ← deserialize bytes
      let h ← unwrapHistory g.history
      let _ ← addition fromStorage h.maxPositive g.limit
      let _ ← subtraction fromStorage h.minNegative
      let value ← match g.state with
        | .positiveDelta => addition fromStorage g.value g.limit
        | .negativeDelta => subtraction fromStorage g.value
        | .data => .error HISTORY_OF_DATA
      pure (⟨value,.data,g.limit,none⟩, value)
    | _ => .error (extensionError "could not find the value of the aggregator")

def intoChange (g : Aggregator) : PartialVMResult AggregatorChange :=
  match g.state with
  | .data => .ok (.write g.value)
  | .positiveDelta => do
    let h ← unwrapHistory g.history
    pure (.merge (.new (.plus g.value) g.limit h.maxPositive h.minNegative))
  | .negativeDelta => do
    let h ← unwrapHistory g.history
    pure (.merge (.new (.minus g.value) g.limit h.maxPositive h.minNegative))

end Aggregator

inductive AggregatorOp
  | add (value : ℕ)
  | sub (value : ℕ)
  deriving DecidableEq

namespace Aggregator

def step (g : Aggregator) : AggregatorOp → PartialVMResult Aggregator
  | .add value => g.add value
  | .sub value => g.sub value

def run : Aggregator → List AggregatorOp → PartialVMResult Aggregator
  | g, [] => .ok g
  | g, op :: ops => do
    let g ← g.step op
    g.run ops

end Aggregator

def AggregatorOp.change : AggregatorOp → ℤ
  | .add value => value
  | .sub value => -value

def Within (limit : ℕ) (z : ℤ) : Prop := 0 ≤ z ∧ z ≤ limit

def History.Admits (h : History) (limit base : ℕ) : Prop :=
  base + h.maxPositive ≤ limit ∧ h.minNegative ≤ base

namespace Aggregator

def signed (g : Aggregator) : ℤ :=
  match g.state with
  | .data | .positiveDelta => g.value
  | .negativeDelta => -g.value

inductive Tracks : Aggregator → History → Prop
  | positive {value limit : ℕ} {h : History} (hle : value ≤ h.maxPositive) :
      Tracks ⟨value,.positiveDelta,limit,some h⟩ h
  | negative {value limit : ℕ} {h : History} (hle : value ≤ h.minNegative) :
      Tracks ⟨value,.negativeDelta,limit,some h⟩ h

variable {g g' : Aggregator} {h : History} {op : AggregatorOp} {base limit : ℕ}
  {ops : List AggregatorOp}

theorem Tracks.within (hg : g.Tracks h) (hadmits : h.Admits g.limit base) :
    Within g.limit (base + g.signed) := by
  cases hg with
  | positive hle | negative hle =>
    simp only [History.Admits,Within,signed] at hadmits ⊢
    omega

/-- After an operation on a delta it admits the base values whose value is kept within the limit. -/
def Recorded (g : Aggregator) (h : History) (op : AggregatorOp) (g' : Aggregator) : Prop :=
  ∃ h', g'.Tracks h' ∧ g'.limit = g.limit ∧ g'.signed = g.signed + op.change ∧
    ∀ base : ℕ, base ≤ g.limit → (h'.Admits g.limit base ↔
      h.Admits g.limit base ∧ Within g.limit (base + g.signed + op.change))

theorem Tracks.record_positive {value : ℕ} (hvalue : (value : ℤ) = g.signed + op.change)
    (hback : ∀ base : ℕ, base ≤ g.limit → h.Admits g.limit base →
      0 ≤ base + g.signed + op.change)
    (hstep : record ⟨value,.positiveDelta,g.limit,some h⟩ = .ok g') : Recorded g h op g' := by
  cases hstep
  refine ⟨_,.positive (le_max_right _ _),rfl,hvalue,fun base hbase => ?_⟩
  have hback := hback base hbase
  simp only [History.Admits,History.recordPositive,Within] at hback ⊢
  omega

theorem Tracks.record_negative {value : ℕ} (hvalue : -(value : ℤ) = g.signed + op.change)
    (hback : ∀ base : ℕ, base ≤ g.limit → h.Admits g.limit base →
      base + g.signed + op.change ≤ g.limit)
    (hstep : record ⟨value,.negativeDelta,g.limit,some h⟩ = .ok g') : Recorded g h op g' := by
  cases hstep
  refine ⟨_,.negative (le_max_right _ _),rfl,hvalue,fun base hbase => ?_⟩
  have hback := hback base hbase
  simp only [History.Admits,History.recordNegative,Within] at hback ⊢
  omega

theorem Tracks.step_ok (hg : g.Tracks h) (hstep : g.step op = .ok g') : Recorded g h op g' := by
  cases hg with
  | @positive value limit h hle =>
    have hs : signed ⟨value,.positiveDelta,limit,some h⟩ = value := rfl
    cases op with
    | add x =>
      have hc : (AggregatorOp.add x).change = x := rfl
      simp only [step,add,bind_eq_ok,addition_eq_ok] at hstep
      obtain ⟨_,⟨-,rfl⟩,hrecord⟩ := hstep
      exact record_positive (by omega) (fun base _ _ => by omega) hrecord
    | sub x =>
      have hc : (AggregatorOp.sub x).change = -x := rfl
      simp only [step,sub] at hstep
      split at hstep
      · simp only [bind_eq_ok,subtraction_eq_ok] at hstep
        obtain ⟨_,⟨hx,rfl⟩,hrecord⟩ := hstep
        exact record_positive (by omega) (fun base _ _ => by omega) hrecord
      · simp only [bind_eq_ok,subtraction_eq_ok] at hstep
        obtain ⟨_,-,_,⟨hx,rfl⟩,hrecord⟩ := hstep
        refine record_negative (by omega) (fun base hbase hadmits => ?_) hrecord
        omega
  | @negative value limit h hle =>
    have hs : signed ⟨value,.negativeDelta,limit,some h⟩ = -value := rfl
    cases op with
    | add x =>
      have hc : (AggregatorOp.add x).change = x := rfl
      simp only [step,add] at hstep
      split at hstep
      · simp only [bind_eq_ok,subtraction_eq_ok] at hstep
        obtain ⟨_,⟨hx,rfl⟩,hrecord⟩ := hstep
        refine record_positive (by omega) (fun base _ hadmits => ?_) hrecord
        omega
      · simp only [bind_eq_ok,subtraction_eq_ok] at hstep
        obtain ⟨_,⟨hx,rfl⟩,hrecord⟩ := hstep
        exact record_negative (by omega) (fun base hbase _ => by omega) hrecord
    | sub x =>
      have hc : (AggregatorOp.sub x).change = -x := rfl
      simp only [step,sub,bind_eq_ok,addition_eq_ok] at hstep
      obtain ⟨_,⟨-,rfl⟩,hrecord⟩ := hstep
      exact record_negative (by omega) (fun base hbase _ => by omega) hrecord

theorem Tracks.step_returns (hg : g.Tracks h) (hbase : base ≤ g.limit)
    (hadmits : h.Admits g.limit base) (hwithin : Within g.limit (base + g.signed + op.change)) :
    ∃ g', g.step op = .ok g' := by
  cases hg with
  | @positive value limit h hle =>
    cases op with
    | add x =>
      simp only [signed,AggregatorOp.change,Within] at hwithin
      have hadd := addition_eq_ok.mpr ⟨(by omega : value + x ≤ limit),rfl⟩
      simp only [step,add,hadd]
      exact ⟨_,rfl⟩
    | sub x =>
      simp only [signed,AggregatorOp.change,Within,History.Admits] at hwithin hadmits
      simp only [step,sub]
      split
      · rename_i hx
        rw [subtraction_eq_ok.mpr ⟨hx,rfl⟩]
        exact ⟨_,rfl⟩
      · rename_i hx
        rw [subtraction_eq_ok.mpr ⟨(by omega : x ≤ limit),rfl⟩,
          subtraction_eq_ok.mpr ⟨(by omega : value ≤ x),rfl⟩]
        exact ⟨_,rfl⟩
  | @negative value limit h hle =>
    cases op with
    | add x =>
      simp only [step,add]
      split
      · rename_i hx
        rw [subtraction_eq_ok.mpr ⟨hx,rfl⟩]
        exact ⟨_,rfl⟩
      · rename_i hx
        rw [subtraction_eq_ok.mpr ⟨(by omega : x ≤ value),rfl⟩]
        exact ⟨_,rfl⟩
    | sub x =>
      simp only [signed,AggregatorOp.change,Within] at hwithin hbase
      have hadd := addition_eq_ok.mpr ⟨(by omega : value + x ≤ limit),rfl⟩
      simp only [step,sub,hadd]
      exact ⟨_,rfl⟩

theorem known_step {z : ℕ} (hz : z ≤ limit) : (known z limit).step op = .ok g' ↔
    Within limit (z + op.change) ∧ ∃ v : ℕ, (v : ℤ) = z + op.change ∧ g' = known v limit := by
  cases op with
  | add x =>
    simp only [step,add,known,bind_eq_ok,addition_eq_ok,pure_eq_ok,Within,
      AggregatorOp.change]
    constructor
    · rintro ⟨v,⟨hle,rfl⟩,rfl⟩
      exact ⟨by omega,z + x,by omega,rfl⟩
    · rintro ⟨hwithin,v,hv,rfl⟩
      exact ⟨v,by omega,rfl⟩
  | sub x =>
    simp only [step,sub,known,bind_eq_ok,subtraction_eq_ok,pure_eq_ok,Within,
      AggregatorOp.change]
    constructor
    · rintro ⟨v,⟨hle,rfl⟩,rfl⟩
      exact ⟨by omega,z - x,by omega,rfl⟩
    · rintro ⟨hwithin,v,hv,rfl⟩
      exact ⟨v,by omega,rfl⟩

theorem run_cons : g.run (op :: ops) = .ok g' ↔
    ∃ m, g.step op = .ok m ∧ m.run ops = .ok g' := bind_eq_ok

theorem Tracks.run_ok (hg : g.Tracks h) (hrun : g.run ops = .ok g') :
    ∃ h', g'.Tracks h' ∧ g'.limit = g.limit ∧ ∀ base, base ≤ g.limit → h'.Admits g.limit base →
      h.Admits g.limit base ∧ ∀ z : ℕ, (z : ℤ) = base + g.signed → z ≤ g.limit →
        ∃ v : ℕ, (v : ℤ) = base + g'.signed ∧
          (known z g.limit).run ops = .ok (known v g.limit) := by
  induction ops generalizing g h with
  | nil =>
    cases hrun
    exact ⟨h,hg,rfl,fun base _ hadmits => ⟨hadmits,fun z hz _ => ⟨z,hz,rfl⟩⟩⟩
  | cons op ops ih =>
    obtain ⟨m,hm,hrun⟩ := run_cons.mp hrun
    obtain ⟨k,hk,hlimit,hsigned,hadmits⟩ := hg.step_ok hm
    obtain ⟨h',hg',hlimit',hback⟩ := ih hk hrun
    rw [hlimit] at hlimit' hback
    refine ⟨h',hg',hlimit',fun base hbase hbase' => ?_⟩
    obtain ⟨hk',hknown⟩ := hback base hbase hbase'
    obtain ⟨hbefore,hwithin⟩ := (hadmits base hbase).mp hk'
    refine ⟨hbefore,fun z hz hle => ?_⟩
    obtain ⟨y,hy⟩ := Int.eq_ofNat_of_zero_le hwithin.1
    obtain ⟨v,hv,hrest⟩ := hknown y (by rw [hsigned,← hy]; ring) (by have := hwithin.2; omega)
    refine ⟨v,hv,run_cons.mpr ⟨known y g.limit,?_,hrest⟩⟩
    rw [known_step hle]
    rw [hz]
    exact ⟨hwithin,y,hy.symm,rfl⟩

theorem Tracks.run_returns {a : Aggregator} {z : ℕ} (hg : g.Tracks h)
    (hbase : base ≤ g.limit) (hadmits : h.Admits g.limit base) (hz : (z : ℤ) = base + g.signed)
    (hle : z ≤ g.limit) (hrun : (known z g.limit).run ops = .ok a) :
    ∃ g' h' v, g.run ops = .ok g' ∧ g'.Tracks h' ∧ g'.limit = g.limit ∧
      h'.Admits g.limit base ∧ a = known v g.limit ∧ (v : ℤ) = base + g'.signed := by
  induction ops generalizing g h z with
  | nil =>
    cases hrun
    exact ⟨g,h,z,rfl,hg,rfl,hadmits,rfl,hz⟩
  | cons op ops ih =>
    obtain ⟨m,hm,hrun⟩ := run_cons.mp hrun
    obtain ⟨hwithin,y,hy,rfl⟩ := (known_step hle).mp hm
    rw [hz] at hwithin hy
    obtain ⟨n,hn⟩ := hg.step_returns hbase hadmits hwithin
    obtain ⟨k,hk,hlimit,hsigned,hiff⟩ := hg.step_ok hn
    have hstep := ih (g := n) (h := k) (z := y)
    rw [hlimit] at hstep
    obtain ⟨g',h',v,hrest,htracks,hlimit',hadmits',ha,hv⟩ := hstep hk hbase
      ((hiff base hbase).mpr ⟨hadmits,hwithin⟩) (by rw [hsigned,hy]; ring)
      (by have := hwithin.2; omega) hrun
    exact ⟨g',h',v,run_cons.mpr ⟨n,hn,hrest⟩,htracks,hlimit',hadmits',ha,hv⟩

theorem Tracks.intoChange_eq (hg : g.Tracks h) : ∃ d, g.intoChange = .ok (.merge d) ∧
    (∀ base v : ℕ, d.applyTo base = .ok v ↔
      h.Admits g.limit base ∧ (v : ℤ) = base + g.signed) ∧
    ∀ bytes, g.readAndMaterialize (.ok (some bytes)) =
      (deserialize bytes >>= fun base => d.applyTo base >>= fun v => pure (known v g.limit,v)) := by
  cases hg with
  | positive hle | negative hle =>
    refine ⟨_,rfl,fun base v => ?_,fun bytes => ?_⟩
    · simp only [DeltaOp.new,DeltaOp.applyTo,bind_eq_ok,addition_eq_ok,subtraction_eq_ok,
        History.Admits,signed]
      constructor
      · rintro ⟨_,⟨hmax,-⟩,_,⟨hmin,-⟩,hle',rfl⟩
        exact ⟨⟨hmax,hmin⟩,by omega⟩
      · rintro ⟨⟨hmax,hmin⟩,hv⟩
        exact ⟨_,⟨hmax,rfl⟩,_,⟨hmin,rfl⟩,by omega,by omega⟩
    · simp only [readAndMaterialize,reduceCtorEq,if_false,unwrapHistory,DeltaOp.new,DeltaOp.applyTo,
        bind_assoc]
      rfl

theorem delta_tracks (limit : ℕ) : (delta limit).Tracks .new := .positive le_rfl

/-- The change of a delta, applied to a value, is what the operations do to the known value. -/
theorem delta_merge_iff {v : ℕ} (hbase : base ≤ limit) :
    (∃ g d, (delta limit).run ops = .ok g ∧ g.intoChange = .ok (.merge d) ∧
        d.applyTo base = .ok v) ↔
      (known base limit).run ops = .ok (known v limit) := by
  constructor
  · rintro ⟨g,d,hrun,hchange,happlied⟩
    obtain ⟨h,htracks,hl,hback⟩ := (delta_tracks limit).run_ok hrun
    obtain ⟨d',hchange',happly,-⟩ := htracks.intoChange_eq
    cases hchange.symm.trans hchange'
    obtain ⟨hadmits,hv⟩ := (happly base v).mp happlied
    rw [hl] at hadmits
    obtain ⟨v',hv',hknown⟩ := (hback base hbase hadmits).2 base (by simp [signed,delta]) hbase
    obtain rfl : v' = v := by omega
    exact hknown
  · intro hrun
    have hadmits : History.new.Admits limit base := ⟨hbase,Nat.zero_le _⟩
    obtain ⟨g,h,v',hg,htracks,hl,hadmits',hknown,hv⟩ :=
      (delta_tracks limit).run_returns hbase hadmits (z := base) (by simp [signed,delta]) hbase hrun
    obtain rfl : v = v' := congrArg value hknown
    obtain ⟨d,hchange,happly,-⟩ := htracks.intoChange_eq
    exact ⟨g,d,hg,hchange,(happly base v).mpr ⟨hl ▸ hadmits',hv⟩⟩

/-- A delta in a transaction, applied to the value in storage, does what the same operations do to an
aggregator that knows the value. An operation on a delta fails only if it fails on every value. -/
theorem delta_refines_known (limit : ℕ) (hlimit : limit < 2 ^ 128) (ops : List AggregatorOp) :
    (∀ base v, base ≤ limit →
      ((∃ g m, (delta limit).run ops = .ok g ∧
          g.readAndMaterialize (.ok (some (serialize base))) = .ok (m,v)) ↔
        (known base limit).run ops = .ok (known v limit)) ∧
      ((∃ g d, (delta limit).run ops = .ok g ∧ g.intoChange = .ok (.merge d) ∧
          d.applyTo base = .ok v) ↔
        (known base limit).run ops = .ok (known v limit))) ∧
    ∀ g op e, (delta limit).run ops = .ok g → g.step op = .error e →
      ∀ base, base ≤ limit → ∀ a, (known base limit).run ops = .ok a → ∃ e', a.step op = .error e' := by
  refine ⟨fun base v hbase => ⟨?_,?_⟩,?_⟩
  · rw [← delta_merge_iff hbase]
    have hstored := deserialize_serialize (hbase.trans_lt hlimit)
    constructor
    · rintro ⟨g,m,hrun,hread⟩
      obtain ⟨h,htracks,-⟩ := (delta_tracks limit).run_ok hrun
      obtain ⟨d,hchange,-,heq⟩ := htracks.intoChange_eq
      simp only [heq,hstored,bind_eq_ok,pure_eq_ok,Except.ok.injEq] at hread
      obtain ⟨_,rfl,_,happlied,hpair⟩ := hread
      cases hpair
      exact ⟨g,d,hrun,hchange,happlied⟩
    · rintro ⟨g,d,hrun,hchange,happlied⟩
      obtain ⟨h,htracks,-⟩ := (delta_tracks limit).run_ok hrun
      obtain ⟨d',hchange',-,heq⟩ := htracks.intoChange_eq
      cases hchange.symm.trans hchange'
      refine ⟨g,known v g.limit,hrun,?_⟩
      simp only [heq,hstored,bind_eq_ok,pure_eq_ok,Except.ok.injEq]
      exact ⟨base,rfl,v,happlied,rfl⟩
  · exact delta_merge_iff hbase
  · intro g op e hrun hstep base hbase a ha
    have hadmits : History.new.Admits limit base := ⟨hbase,Nat.zero_le _⟩
    obtain ⟨g',h,v,hg,htracks,hl,hadmits',rfl,hv⟩ :=
      (delta_tracks limit).run_returns hbase hadmits (z := base) (by simp [signed,delta]) hbase ha
    cases hrun.symm.trans hg
    have hl : g.limit = limit := hl
    rw [← hl] at hbase
    have hadmits' : h.Admits g.limit base := by
      rw [hl]
      exact hadmits'
    have hwithin := htracks.within hadmits'
    cases hnext : (known v (delta limit).limit).step op with
    | error e' => exact ⟨e',rfl⟩
    | ok a' =>
      have hle : v ≤ limit := by
        have := hwithin.2
        omega
      obtain ⟨hop,-⟩ := (known_step hle).mp hnext
      rw [hv,← hl] at hop
      obtain ⟨g',hg'⟩ := htracks.step_returns hbase hadmits' hop
      cases hstep.symm.trans hg'

/-- The delta crosses zero and is applied to `300`. -/
theorem delta_refines_known_crossing :
    ∃ g m, (delta 600).run [.add 200,.sub 300,.add 50] = .ok g ∧
      g.readAndMaterialize (.ok (some (serialize 300))) = .ok (m,250) :=
  ((delta_refines_known 600 (by decide) [.add 200,.sub 300,.add 50]).1 300 250 (by decide)).1.mpr rfl

end Aggregator

end Arx.ArxAggregator
