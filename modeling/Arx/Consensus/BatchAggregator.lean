import Arx.Movelib.Run

/-!
# The batch aggregator of the quorum store

Fragments of batches arrive in any order. A batch is returned when its last fragment is appended to
all the others.
-/

namespace Arx.Consensus
open Movelib List

inductive BatchAggregationError
  | deserializationError
  | sizeLimitExceeded
  | outdatedFragment
  | missedFragment
  deriving DecidableEq

/-- `bcs::from_bytes` of a transaction, and what the hasher makes of all the bytes it is given. -/
structure BatchCodec (T D : Type) where
  decode : List UInt8 → Option T
  digest : List UInt8 → D

structure IncrementalBatchState (T : Type) where
  numFragments : ℕ
  status : Except BatchAggregationError Unit
  txns : List T
  /-- The bytes that the hasher has been updated with. -/
  hasher : List UInt8
  numBytes : ℕ
  maxBytes : ℕ

variable {T D : Type} (c : BatchCodec T D)

namespace IncrementalBatchState

def new (maxBytes : ℕ) : IncrementalBatchState T := ⟨0,.ok (),[],[],0,maxBytes⟩

def appendLoop : List (List UInt8) → IncrementalBatchState T → IncrementalBatchState T
  | [], state => state
  | txn :: serializedTxns, state =>
    let state := { state with
      numBytes := state.numBytes + txn.length
      hasher := state.hasher ++ txn }
    if state.numBytes > state.maxBytes then { state with status := .error .sizeLimitExceeded }
    else match c.decode txn with
      | some signedTxn => appendLoop serializedTxns { state with txns := state.txns ++ [signedTxn] }
      | none => { state with status := .error .deserializationError }

/-- The status afterwards is what the source returns. -/
def appendTransactions (state : IncrementalBatchState T) (serializedTxns : List (List UInt8)) :
    IncrementalBatchState T :=
  let state := { state with numFragments := state.numFragments + 1 }
  match state.status with
  | .ok () => appendLoop c serializedTxns state
  | .error _ => state

def finalizeBatch (state : IncrementalBatchState T) :
    Except BatchAggregationError (ℕ × List T × D) :=
  state.status.map fun _ => (state.numBytes,state.txns,c.digest state.hasher)

end IncrementalBatchState

inductive AggregatorPanic
  /-- "Missed fragment called with an outdated fragment" -/
  | outdated
  /-- "Batch state must exist" -/
  | noBatchState

structure BatchAggregator (T : Type) where
  batchId : Option ℕ
  batchState : Option (IncrementalBatchState T)
  maxBatchBytes : ℕ

namespace BatchAggregator

def new (maxBatchBytes : ℕ) : BatchAggregator T := ⟨none,none,maxBatchBytes⟩

section

variable (a : BatchAggregator T) (batchId fragmentId : ℕ) (transactions : List (List UInt8))

def nextFragmentId : ℕ := a.batchState.elim 0 IncrementalBatchState.numFragments

def isOutdatedFragment : Bool :=
  match a.batchId with
  | some selfBatchId =>
    if a.nextFragmentId = 0 then batchId ≤ selfBatchId
    else batchId < selfBatchId ∨ batchId = selfBatchId ∧ fragmentId < a.nextFragmentId
  | none => false

def isMissedFragment : Except AggregatorPanic Bool :=
  match a.batchId with
  | some selfBatchId =>
    if batchId > selfBatchId then pure (a.batchState.isSome || fragmentId > 0)
    else do
      check (batchId = selfBatchId) .outdated
      pure (fragmentId > a.nextFragmentId)
  | none => pure (fragmentId > 0)

def appendTransactions :
    Except AggregatorPanic (Except BatchAggregationError Unit × BatchAggregator T) :=
  if a.isOutdatedFragment batchId fragmentId then pure (.error .outdatedFragment,a)
  else do
    let missedFragment ← a.isMissedFragment batchId fragmentId
    -- a missed fragment invalidates the batch: what comes later of it is outdated
    let batchState := if missedFragment then none else a.batchState
    if missedFragment && fragmentId != 0 then
      pure (.error .missedFragment,{ a with batchId := some batchId, batchState })
    else
      match if fragmentId = 0 then some (.new a.maxBatchBytes) else batchState with
      | some state =>
        let state := state.appendTransactions c transactions
        pure (state.status,{ a with batchId := some batchId, batchState := some state })
      | none => pure (.ok (),{ a with batchId := some batchId, batchState := none })

def endBatch :
    Except AggregatorPanic (Except BatchAggregationError (ℕ × List T × D) × BatchAggregator T) := do
  match ← a.appendTransactions c batchId fragmentId transactions with
  | (.ok (),a) =>
    match a.batchState with
    | some state => pure (state.finalizeBatch c,{ a with batchState := none })
    | none => .error .noBatchState
  | (.error e,a) => pure (.error e,a)

end

/-- A call of `end_batch`, or else of `append_transactions`. -/
structure Call where
  ends : Bool
  batchId : ℕ
  fragmentId : ℕ
  transactions : List (List UInt8)

/-- The calls so far, with what they have returned: a batch if it is ended. -/
abbrev Log (T D : Type) := List (Call × Except BatchAggregationError (Option (ℕ × List T × D)))

def call (s : Log T D × BatchAggregator T) (q : Call) :
    Except AggregatorPanic (Log T D × BatchAggregator T) := do
  if q.ends then
    let (reply,a) ← s.2.endBatch c q.batchId q.fragmentId q.transactions
    pure (s.1 ++ [(q,reply.map some)],a)
  else
    let (reply,a) ← s.2.appendTransactions c q.batchId q.fragmentId q.transactions
    pure (s.1 ++ [(q,reply.map fun _ => none)],a)

def accepted (log : Log T D) (batchId : ℕ) : List Call :=
  (log.filter fun p => p.2.isOk && p.1.batchId == batchId).map Prod.fst

def data (fragments : List Call) : List (List UInt8) := fragments.flatMap Call.transactions

end BatchAggregator

open BatchAggregator

variable {c}

namespace IncrementalBatchState

variable {state : IncrementalBatchState T} {txns : List (List UInt8)} {fragments : List Call} {q : Call}

/-- What the fragments `0` to `n - 1` of a batch amount to. -/
structure Holds (c : BatchCodec T D) (fragments : List Call) (n maxBytes numBytes : ℕ)
    (txns : List T) : Prop where
  order : fragments.map Call.fragmentId = range n
  decoded : (data fragments).map c.decode = txns.map some
  bytes : numBytes = (data fragments).flatten.length
  fits : numBytes ≤ maxBytes

/-- What a state without an error has aggregated. -/
def Tracks (c : BatchCodec T D) (state : IncrementalBatchState T) (fragments : List Call) : Prop :=
  Holds c fragments state.numFragments state.maxBytes state.numBytes state.txns ∧
    state.hasher = (data fragments).flatten

theorem appendLoop_frame : (appendLoop c txns state).numFragments = state.numFragments ∧
    (appendLoop c txns state).maxBytes = state.maxBytes := by
  induction txns generalizing state with
  | nil => exact ⟨rfl,rfl⟩
  | cons txn txns ih =>
    rw [appendLoop]
    split
    · exact ⟨rfl,rfl⟩
    · split
      · exact ih
      · exact ⟨rfl,rfl⟩

theorem appendTransactions_frame (state : IncrementalBatchState T) (txns : List (List UInt8)) :
    (state.appendTransactions c txns).numFragments = state.numFragments + 1 ∧
      (state.appendTransactions c txns).maxBytes = state.maxBytes := by
  rw [appendTransactions]
  split
  · exact appendLoop_frame
  · exact ⟨rfl,rfl⟩

theorem appendLoop_ok (h : (appendLoop c txns state).status = .ok ())
    (hfits : state.numBytes ≤ state.maxBytes) : ∃ decoded : List T,
      txns.map c.decode = decoded.map some ∧
      appendLoop c txns state = { state with
        txns := state.txns ++ decoded
        hasher := state.hasher ++ txns.flatten
        numBytes := state.numBytes + txns.flatten.length } ∧
      state.numBytes + txns.flatten.length ≤ state.maxBytes := by
  induction txns generalizing state with
  | nil => exact ⟨[],rfl,by simp [appendLoop],hfits⟩
  | cons txn txns ih =>
    rw [appendLoop] at h ⊢
    split at h
    · cases h
    · rename_i hlt
      rw [if_neg hlt]
      split at h
      · rename_i signedTxn hdecode
        obtain ⟨decoded,hall,heq,hle⟩ := ih h (not_lt.mp hlt)
        refine ⟨signedTxn :: decoded,by rw [map_cons,map_cons,hall,hdecode],?_,?_⟩
        · simp only [heq,append_assoc,singleton_append,flatten_cons,length_append,Nat.add_assoc]
        · rwa [flatten_cons,length_append,← Nat.add_assoc]
      · cases h

theorem tracks_append (h : state.status = .ok () → state.Tracks c fragments)
    (hq : q.fragmentId = state.numFragments)
    (hok : (state.appendTransactions c q.transactions).status = .ok ()) :
    (state.appendTransactions c q.transactions).Tracks c (fragments ++ [q]) := by
  rw [appendTransactions] at hok ⊢
  split at hok
  · rename_i hstatus
    obtain ⟨hholds,hhasher⟩ := h hstatus
    obtain ⟨decoded,hall,heq,hle⟩ := appendLoop_ok hok hholds.fits
    rw [heq]
    have hdata : data (fragments ++ [q]) = data fragments ++ q.transactions := by simp [data]
    refine ⟨⟨?_,?_,?_,hle⟩,?_⟩
    · rw [map_append,hholds.order,map_singleton,hq,range_succ]
    · rw [hdata,map_append,map_append,hholds.decoded,hall]
    · rw [hdata,flatten_append,length_append,hholds.bytes]
    · rw [hdata,flatten_append,hhasher]
  · rename_i hstatus
    cases hok.symm.trans hstatus

end IncrementalBatchState

namespace BatchAggregator
open IncrementalBatchState

variable {log : Log T D} {a a' : BatchAggregator T} {q : Call} {b maxBatchBytes : ℕ}
  {reply : Except BatchAggregationError (Option (ℕ × List T × D))}

structure Sound (c : BatchCodec T D) (maxBatchBytes : ℕ) (log : Log T D) (a : BatchAggregator T) :
    Prop where
  limit : a.maxBatchBytes = maxBatchBytes
  /-- There is a state only for the batch of the current id, which is not ended. -/
  current : ∀ state, a.batchState = some state → ∃ b, a.batchId = some b ∧
    0 < state.numFragments ∧ state.maxBytes = maxBatchBytes ∧
    (state.status = .ok () → state.Tracks c (accepted log b)) ∧
    ∀ q batch, (q,.ok (some batch)) ∈ log → q.batchId < b
  accepted_le : ∀ p ∈ log, p.2.isOk → ∃ b, a.batchId = some b ∧ p.1.batchId ≤ b

/-- A batch that is returned after the calls of `log`. -/
structure Aggregated (c : BatchCodec T D) (maxBatchBytes : ℕ) (log : Log T D) (q : Call)
    (batch : ℕ × List T × D) : Prop where
  holds : Holds c (accepted log q.batchId ++ [q]) (q.fragmentId + 1) maxBatchBytes batch.1 batch.2.1
  digest : batch.2.2 = c.digest (data (accepted log q.batchId ++ [q])).flatten
  newer : ∀ q' batch', (q',.ok (some batch')) ∈ log → q'.batchId < q.batchId

theorem accepted_snoc : accepted (log ++ [(q,reply)]) b =
    if reply.isOk && q.batchId == b then accepted log b ++ [q] else accepted log b := by
  cases hq : reply.isOk && q.batchId == b <;> simp [accepted,hq]

namespace Sound

variable (h : Sound c maxBatchBytes log a)

include h

theorem accepted_eq_nil (hnew : ∀ self, a.batchId = some self → self < b) :
    accepted log b = [] := by
  rw [accepted,map_eq_nil_iff,filter_eq_nil_iff]
  rintro p hp hand
  obtain ⟨hok,hb⟩ := Bool.and_eq_true_iff.mp hand
  obtain ⟨self,hself,hle⟩ := h.accepted_le p hp hok
  have hlt := hnew self hself
  rw [beq_iff_eq] at hb
  omega

theorem accepted_le_snoc (hle : ∀ b, a.batchId = some b → ∃ b', a'.batchId = some b' ∧ b ≤ b')
    (hq : reply.isOk → a'.batchId = some q.batchId) (p) (hp : p ∈ log ++ [(q,reply)])
    (hok : p.2.isOk) : ∃ b, a'.batchId = some b ∧ p.1.batchId ≤ b := by
  obtain hp | hlast := mem_append.mp hp
  · obtain ⟨b,hb,hpb⟩ := h.accepted_le p hp hok
    obtain ⟨b',hb',hbb'⟩ := hle b hb
    exact ⟨b',hb',hpb.trans hbb'⟩
  · obtain rfl := mem_singleton.mp hlast
    exact ⟨_,hq hok,le_rfl⟩

theorem refuse {e : BatchAggregationError}
    (hle : ∀ b, a.batchId = some b → b ≤ q.batchId) :
    Sound c maxBatchBytes (log ++ [(q,.error e)])
      { a with batchId := some q.batchId, batchState := none } :=
  ⟨h.limit,nofun,h.accepted_le_snoc (fun b hb => ⟨_,rfl,hle b hb⟩) nofun⟩

end Sound

/-- What `append_transactions` leaves. -/
structure Appended (c : BatchCodec T D) (maxBatchBytes : ℕ) (log : Log T D) (q : Call)
    (r : Except BatchAggregationError Unit × BatchAggregator T) : Prop where
  sound : Sound c maxBatchBytes (log ++ [(q,r.1.map fun _ => none)]) r.2
  accepted : r.1 = .ok () → ∃ state, r.2.batchState = some state ∧ state.status = .ok () ∧
    state.numFragments = q.fragmentId + 1 ∧ state.maxBytes = maxBatchBytes ∧
    state.Tracks c (accepted log q.batchId ++ [q]) ∧
    ∀ q' batch, (q',.ok (some batch)) ∈ log → q'.batchId < q.batchId

namespace Sound

variable (h : Sound c maxBatchBytes log a)

include h

theorem store {state : IncrementalBatchState T} (hle : ∀ b, a.batchId = some b → b ≤ q.batchId)
    (hmax : state.maxBytes = maxBatchBytes) (hq : q.fragmentId = state.numFragments)
    (htracks : state.status = .ok () → state.Tracks c (accepted log q.batchId))
    (hended : ∀ q' batch, (q',.ok (some batch)) ∈ log → q'.batchId < q.batchId) :
    Appended c maxBatchBytes log q ((state.appendTransactions c q.transactions).status,
      { a with
        batchId := some q.batchId
        batchState := some (state.appendTransactions c q.transactions) }) := by
  obtain ⟨hnum,hmax'⟩ := state.appendTransactions_frame (c := c) q.transactions
  refine ⟨⟨h.limit,?_,h.accepted_le_snoc (fun b hb => ⟨_,rfl,hle b hb⟩) fun _ => rfl⟩,fun hok =>
    ⟨_,rfl,hok,by rw [hnum,hq],hmax'.trans hmax,tracks_append htracks hq hok,hended⟩⟩
  rintro _ ⟨⟩
  refine ⟨_,rfl,by omega,hmax'.trans hmax,fun hok => ?_,fun q' batch hmem => ?_⟩
  · rw [hok,accepted_snoc,if_pos (by simp [Except.map,Except.isOk,Except.toBool])]
    exact tracks_append htracks hq hok
  · obtain hmem | hlast := mem_append.mp hmem
    · exact hended q' batch hmem
    · cases hstatus : (state.appendTransactions c q.transactions).status <;> simp [hstatus,Except.map] at hlast

theorem starts_or_continues (hout : a.isOutdatedFragment q.batchId q.fragmentId = false) :
    (∀ self, a.batchId = some self → self < q.batchId) ∨
      a.batchId = some q.batchId ∧ ∃ state, a.batchState = some state ∧
        state.numFragments ≤ q.fragmentId := by
  rw [isOutdatedFragment] at hout
  cases hid : a.batchId with
  | none => exact .inl nofun
  | some self =>
    rw [hid] at hout
    cases hstate : a.batchState with
    | none =>
      simp only [nextFragmentId,hstate,Option.elim_none,if_true,decide_eq_false_iff_not] at hout
      exact .inl fun _ heq => Option.some.inj heq ▸ not_le.mp hout
    | some state =>
      obtain ⟨-,-,hpos,-⟩ := h.current state hstate
      simp only [nextFragmentId,hstate,Option.elim_some,if_neg hpos.ne',decide_eq_false_iff_not,
        not_or,not_and,not_lt] at hout
      obtain heq | hlt := Nat.eq_or_lt_of_le hout.1
      · exact .inr ⟨congrArg some heq,state,rfl,hout.2 heq.symm⟩
      · exact .inl fun _ heq => Option.some.inj heq ▸ hlt

theorem append : Returns (fun _ => False) (Appended c maxBatchBytes log q)
    (a.appendTransactions c q.batchId q.fragmentId q.transactions) := by
  rw [appendTransactions]
  cases hout : a.isOutdatedFragment q.batchId q.fragmentId with
  | true =>
    refine ⟨⟨h.limit,fun state hstate => ?_,
      h.accepted_le_snoc (fun b hb => ⟨b,hb,le_rfl⟩) (by rintro ⟨⟩)⟩,by rintro ⟨⟩⟩
    obtain ⟨b,hb,hpos,hmax,htracks,hended⟩ := h.current state hstate
    refine ⟨b,hb,hpos,hmax,?_,fun q' batch hmem => hended q' batch ?_⟩
    · rwa [accepted_snoc]
    · simpa [Except.map] using hmem
  | false =>
    obtain hnew | ⟨hself,state,hstate,hle⟩ := h.starts_or_continues hout
    · have hle : ∀ b, a.batchId = some b → b ≤ q.batchId := fun b hb => (hnew b hb).le
      obtain ⟨m,hm,hearly⟩ : ∃ m, a.isMissedFragment q.batchId q.fragmentId = .ok m ∧
          (q.fragmentId ≠ 0 → m = true) := by
        rw [isMissedFragment]
        cases hid : a.batchId with
        | none => exact ⟨_,rfl,fun hne => decide_eq_true (Nat.pos_of_ne_zero hne)⟩
        | some self =>
          simp only [if_pos (hnew self hid)]
          exact ⟨_,rfl,fun hne => by simp [Nat.pos_of_ne_zero hne]⟩
      simp only [hm,bind,Except.bind,Bool.false_eq_true,if_false]
      by_cases hzero : q.fragmentId = 0
      · simp only [hzero,bne_self_eq_false,Bool.and_false,Bool.false_eq_true,if_false,if_true]
        refine h.store hle h.limit hzero (fun _ => ?_) fun q' batch hmem => ?_
        · rw [h.accepted_eq_nil hnew]
          exact ⟨⟨rfl,rfl,rfl,Nat.zero_le _⟩,rfl⟩
        · obtain ⟨b,hb,hqb⟩ := h.accepted_le _ hmem rfl
          exact hqb.trans_lt (hnew b hb)
      · rw [hearly hzero,if_pos (by simpa using hzero)]
        exact ⟨h.refuse hle,by rintro ⟨⟩⟩
    · obtain ⟨b,hb,hpos,hmax,htracks,hended⟩ := h.current state hstate
      obtain rfl : b = q.batchId := Option.some.inj (hb.symm.trans hself)
      have hle : ∀ b, a.batchId = some b → b ≤ q.batchId := fun b hb' => by
        rw [Option.some.inj (hb'.symm.trans hb)]
      have hm : a.isMissedFragment q.batchId q.fragmentId =
          .ok (decide (q.fragmentId > state.numFragments)) := by
        simp [isMissedFragment,hself,nextFragmentId,hstate,check,bind,Except.bind,pure,Except.pure]
      simp only [hm,bind,Except.bind,Bool.false_eq_true,if_false]
      by_cases hlater : q.fragmentId > state.numFragments
      · rw [if_pos (by simp [hlater]; omega),if_pos (by simpa using hlater)]
        exact ⟨h.refuse hle,by rintro ⟨⟩⟩
      · rw [if_neg (by simp [hlater]),if_neg (by omega),if_neg (by simpa using hlater),hstate]
        exact h.store hle hmax (by omega) htracks hended

theorem endBatch : Returns (fun _ => False) (fun r =>
      Sound c maxBatchBytes (log ++ [(q,r.1.map some)]) r.2 ∧
        ∀ batch, r.1 = .ok batch → Aggregated c maxBatchBytes log q batch)
    (a.endBatch c q.batchId q.fragmentId q.transactions) := by
  refine h.append.bind fun r hr => ?_
  obtain ⟨⟨e⟩ | ⟨⟨⟩⟩,a'⟩ := r
  · exact ⟨hr.sound,nofun⟩
  · obtain ⟨state,hstate,hstatus,hnum,hmax,⟨hholds,hhasher⟩,hended⟩ := hr.accepted rfl
    change a'.batchState = some state at hstate
    simp only [hstate,finalizeBatch,hstatus]
    refine ⟨⟨hr.sound.limit,nofun,fun p hp hok => ?_⟩,fun batch hbatch => ?_⟩
    · obtain hp | hlast := mem_append.mp hp
      · exact hr.sound.accepted_le p (mem_append_left _ hp) hok
      · rw [mem_singleton.mp hlast]
        exact hr.sound.accepted_le (q,.ok none) (mem_append_right _ (mem_singleton_self _)) rfl
    · cases hbatch
      exact ⟨hnum ▸ hmax ▸ hholds,congrArg c.digest hhasher,hended⟩

theorem call : Returns (fun _ => False) (fun s => Sound c maxBatchBytes s.1 s.2)
    (BatchAggregator.call c (log,a) q) := by
  rw [BatchAggregator.call]
  split
  · exact h.endBatch.bind fun r hr => hr.1
  · exact h.append.bind fun r hr => hr.sound

end Sound

/-- After any calls, none of which panics, neither does `end_batch`. A batch that it returns is made of
its fragments from the first to this last one, each of which has been accepted once, in this order. -/
theorem endBatch_sound (c : BatchCodec T D) (maxBatchBytes : ℕ) (calls : List Call) (q : Call) :
    ∃ log a, calls.foldlM (call c) ([],new maxBatchBytes) = .ok (log,a) ∧
      ∃ reply a', a.endBatch c q.batchId q.fragmentId q.transactions = .ok (reply,a') ∧
        ∀ batch, reply = .ok batch → Aggregated c maxBatchBytes log q batch := by
  have hnew : Sound c maxBatchBytes [] (new maxBatchBytes) := ⟨rfl,nofun,nofun⟩
  obtain ⟨⟨log,a⟩,hrun,hsound⟩ := (Returns.foldlM (Q := fun s => Sound c maxBatchBytes s.1 s.2)
    (a := ([],new maxBatchBytes)) hnew fun s hs q _ => hs.call (q := q)).exists_ok
  obtain ⟨⟨reply,a'⟩,hend,-,hbatch⟩ := hsound.endBatch.exists_ok
  exact ⟨log,a,hrun,reply,a',hend,hbatch⟩

end BatchAggregator

end Arx.Consensus
