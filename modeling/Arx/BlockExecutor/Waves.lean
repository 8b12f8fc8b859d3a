import Arx.BlockExecutor.Owners

/-!
# Validation waves and rolling commits

An abort, and an execution that writes a new path, make the validations of the later transactions
belong to a wave that is too low for a commit. The transactions are committed in order, each after a
validation that no touch came after.
-/

namespace Arx.BlockExecutor
open Movelib Function Scheduler

namespace Scheduler.ExecutionStatus

/-- The status transition diagram, without the end of an abort. -/
inductive Next : ExecutionStatus → ExecutionStatus → Prop
  | incarnate (incarnation : ℕ) (condvar : Option ℕ) :
      Next (.readyToExecute incarnation condvar) (.executing incarnation)
  | suspend (incarnation condvar : ℕ) :
      Next (.executing incarnation) (.suspended incarnation condvar)
  | resume (incarnation condvar : ℕ) :
      Next (.suspended incarnation condvar) (.readyToExecute incarnation (some condvar))
  | finish (incarnation : ℕ) : Next (.executing incarnation) (.executed incarnation)
  | commit (incarnation : ℕ) : Next (.executed incarnation) (.committed incarnation)
  | abort (incarnation : ℕ) : Next (.executed incarnation) (.aborting incarnation)

def Settled (incarnation : ℕ) : ExecutionStatus → Prop
  | .executed n | .committed n | .aborting n => n = incarnation
  | _ => False

def Closed (incarnation : ℕ) : ExecutionStatus → Prop
  | .committed n | .aborting n => n = incarnation
  | _ => False

variable {a b : ExecutionStatus} {incarnation : ℕ}

theorem Next.settled (h : Next a b) (ha : a.Settled incarnation) : b.Settled incarnation := by
  cases h with
  | commit => exact ha
  | abort => exact ha
  | incarnate | suspend | resume | finish => cases ha

theorem Next.closed (h : Next a b) (ha : a.Closed incarnation) : b.Closed incarnation := by
  cases h <;> cases ha

theorem Settled.closed (h : a.Settled incarnation) (ha : a ≠ .executed incarnation) :
    a.Closed incarnation := by
  cases a with
  | executed n => exact absurd (congrArg executed h) ha
  | committed n | aborting n | readyToExecute n condvar | executing n | suspended n condvar =>
    exact h

end Scheduler.ExecutionStatus

namespace Scheduler

variable {s t : Scheduler} {i j wave : ℕ}

/-- An update of one validation status keeps the fields that it does not set. -/
theorem field_update {f : ℕ → ValidationStatus} {status : ValidationStatus} {α : Type}
    (field : ValidationStatus → α) (h : field status = field (f j)) (i : ℕ) :
    field (update f j status i) = field (f i) := by
  by_cases hi : i = j
  · rw [hi,update_self,h]
  · rw [update_of_ne hi]

/-- No validation of the current wave is above the validation index. -/
def Reached (s : Scheduler) (i wave : ℕ) : Prop :=
  wave ≤ s.validationWave ∧ (wave = s.validationWave → i < s.validationIdx)

def Sufficient (s : Scheduler) (i wave : ℕ) : Prop :=
  ∀ k, k ≤ i → (s.validationStatus k).maxTriggeredWave ≤ wave

structure Waves (s : Scheduler) : Prop where
  triggered : ∀ i, (s.validationStatus i).maxTriggeredWave ≤ s.validationWave
  validated : ∀ i wave, (s.validationStatus i).maybeMaxValidatedWave = some wave → s.Reached i wave
  /-- The current wave was triggered below the validation index. -/
  latest : 0 < s.validationWave → ∃ k, k ≤ s.validationIdx ∧
    (s.validationStatus k).maxTriggeredWave = s.validationWave

structure Steady (s t : Scheduler) : Prop where
  idx : s.validationIdx ≤ t.validationIdx
  wave : t.validationWave = s.validationWave
  triggered : ∀ i, (t.validationStatus i).maxTriggeredWave = (s.validationStatus i).maxTriggeredWave

theorem Steady.of_eq (hidx : t.validationIdx = s.validationIdx)
    (hwave : t.validationWave = s.validationWave)
    (hstatus : t.validationStatus = s.validationStatus) : Steady s t :=
  ⟨hidx.ge,hwave,fun _ => by rw [hstatus]⟩

theorem Reached.steady (h : s.Reached i wave) (hst : Steady s t) : t.Reached i wave := by
  refine ⟨h.1.trans hst.wave.ge,fun hw => ?_⟩
  exact (h.2 (hw.trans hst.wave)).trans_le hst.idx

section

variable (h : Touched j s t)

include h

theorem Touched.steady (hle : s.validationIdx ≤ j) : Steady s t := by
  obtain ⟨-,hidx,hwave,hstatus⟩ | ⟨hlt,-⟩ := h
  · exact .of_eq hidx hwave hstatus
  · omega

theorem Touched.triggered_le (hs : s.Waves) (k : ℕ) :
    (s.validationStatus k).maxTriggeredWave ≤ (t.validationStatus k).maxTriggeredWave := by
  obtain ⟨-,-,-,hstatus⟩ | ⟨-,-,-,hstatus⟩ := h
  · rw [hstatus]
  · rw [hstatus]
    by_cases hk : k = j
    · rw [hk,update_self]
      exact (hs.triggered j).trans (Nat.le_succ _)
    · rw [update_of_ne hk]

theorem Touched.validation (k : ℕ) :
    ∃ wave, t.validationStatus k = { s.validationStatus k with maxTriggeredWave := wave } := by
  obtain ⟨-,-,-,hstatus⟩ | ⟨-,-,-,hstatus⟩ := h
  · exact ⟨_,by rw [hstatus]⟩
  · rw [hstatus]
    by_cases hk : k = j
    · exact ⟨_,by rw [hk,update_self]⟩
    · exact ⟨_,by rw [update_of_ne hk]⟩

theorem Touched.validated (k : ℕ) :
    (t.validationStatus k).maybeMaxValidatedWave = (s.validationStatus k).maybeMaxValidatedWave := by
  obtain ⟨wave,hk⟩ := h.validation k
  rw [hk]

theorem Touched.required (k : ℕ) :
    (t.validationStatus k).requiredWave = (s.validationStatus k).requiredWave := by
  obtain ⟨wave,hk⟩ := h.validation k
  rw [hk]

end

theorem Reached.touched (h : s.Reached i wave) (hst : Touched j s t) : t.Reached i wave := by
  obtain ⟨-,hidx,hwave,hstatus⟩ | ⟨-,-,hwave,-⟩ := hst
  · exact h.steady (.of_eq hidx hwave hstatus)
  · have hle := h.1
    exact ⟨by omega,fun hw => by omega⟩

theorem Touched.not_sufficient (hst : Touched j s t) (hs : s.Waves) (h : s.Reached i wave)
    (hji : j ≤ i) : ¬ t.Sufficient i wave := by
  intro hsuff
  obtain ⟨hle,-,-,hstatus⟩ | ⟨-,-,-,hstatus⟩ := hst
  · -- The index is at `j` or below already, so no validation of the current wave has got to `i`.
    have hlt : wave < s.validationWave := by
      refine lt_of_le_of_ne h.1 fun hw => ?_
      have := h.2 hw
      omega
    obtain ⟨k,hk,hlatest⟩ := hs.latest (by omega)
    have hsuff := hsuff k (by omega)
    rw [hstatus] at hsuff
    omega
  · have hsuff := hsuff j hji
    rw [hstatus,update_self] at hsuff
    have hle := h.1
    dsimp only at hsuff
    omega

theorem Sufficient.mono {wave' : ℕ} (h : s.Sufficient i wave) (hle : wave ≤ wave') :
    s.Sufficient i wave' := fun k hk => (h k hk).trans hle

/-- A touch leaves the validations below the validation index sufficient. -/
theorem Sufficient.touched (hs : s.Sufficient i wave) (h : Touched j s t)
    (hi : i < t.validationIdx) : t.Sufficient i wave := by
  intro k hk
  obtain ⟨-,-,-,hstatus⟩ | ⟨-,hidx,-,hstatus⟩ := h
  · rw [hstatus]
    exact hs k hk
  · rw [hstatus,update_of_ne (by omega)]
    exact hs k hk

theorem Waves.next (hs : s.Waves) (h : Steady s t ∨ ∃ j, Touched j s t)
    (hvalidated : ∀ i wave, (t.validationStatus i).maybeMaxValidatedWave = some wave →
      s.Reached i wave) : t.Waves := by
  obtain hst | ⟨j,htouched⟩ := h
  · refine ⟨fun i => ?_,fun i wave hi => (hvalidated i wave hi).steady hst,fun hpos => ?_⟩
    · rw [hst.triggered,hst.wave]
      exact hs.triggered i
    · rw [hst.wave] at hpos ⊢
      obtain ⟨k,hk,hlatest⟩ := hs.latest hpos
      exact ⟨k,hk.trans hst.idx,(hst.triggered k).trans hlatest⟩
  · refine ⟨fun i => ?_,fun i wave hi => (hvalidated i wave hi).touched htouched,fun hpos => ?_⟩
    · obtain ⟨-,-,hwave,hstatus⟩ | ⟨-,-,hwave,hstatus⟩ := htouched
      · rw [hstatus,hwave]
        exact hs.triggered i
      · rw [hstatus,hwave]
        by_cases hi : i = j
        · rw [hi,update_self]
        · rw [update_of_ne hi]
          exact (hs.triggered i).trans (Nat.le_succ _)
    · obtain ⟨-,hidx,hwave,hstatus⟩ | ⟨-,hidx,hwave,hstatus⟩ := htouched
      · rw [hstatus,hwave,hidx]
        exact hs.latest (hwave ▸ hpos)
      · refine ⟨j,hidx.ge,?_⟩
        rw [hstatus,hwave,update_self]

theorem Sufficient.of_next (hs : s.Waves) (h : Steady s t ∨ ∃ j, Touched j s t)
    (hsuff : t.Sufficient i wave) : s.Sufficient i wave := by
  intro k hk
  refine le_trans ?_ (hsuff k hk)
  obtain hst | ⟨j,htouched⟩ := h
  · exact (hst.triggered k).ge
  · exact htouched.triggered_le hs k

end Scheduler

def SchedulerTask.validates : SchedulerTask → Option (Version × ℕ)
  | .validationTask version wave => some (version,wave)
  | _ => none

def Pc.validates : Pc → Option (Version × ℕ)
  | .ready _ task => task.validates
  | .validating version wave => some (version,wave)
  | .finishing version wave _ => some (version,wave)
  | _ => none

namespace Workers

variable {w w' : Workers} {thread : ℕ} {action : Action} {i wave : ℕ}

/-- The transaction whose abort ends, or whose execution ends with a new path written. -/
def touches (w : Workers) : ℕ × Action → Option ℕ
  | (thread, action) =>
    match w.pcs thread, action with
    | .executing version, .finishExecution true => some version.1
    | .aborting version, .finishAbort => some version.1
    | _, _ => none

theorem touches_held {i : ℕ} (h : w.touches (thread,action) = some i) :
    (w.pcs thread).held = some i := by
  unfold touches at h
  dsimp only at h
  split at h
  · rename_i hpc
    rw [hpc]
    exact h
  · rename_i hpc
    rw [hpc]
    exact h
  · cases h

inductive Shifts (w : Workers) (thread : ℕ) (action : Action) (w' : Workers) (i : ℕ) : Prop
  | same (hsame : w'.scheduler.executionStatus i = w.scheduler.executionStatus i)
  | incarnates {incarnation : ℕ} {condvar : Option ℕ} (hlt : i < w.scheduler.numTxns)
      (hold : w.scheduler.executionStatus i = .readyToExecute incarnation condvar)
      (hnew : w'.scheduler.executionStatus i = .executing incarnation)
      (hheld : condvar = none → (w'.pcs thread).held = some i)
  | suspends {incarnation condvar : ℕ}
      (hold : w.scheduler.executionStatus i = .executing incarnation)
      (hnew : w'.scheduler.executionStatus i = .suspended incarnation condvar)
      (hdep : ∃ dep, i ∈ w'.scheduler.txnDependency dep ∧ w.scheduler.isExecuted dep true = none)
  | resumes {incarnation condvar : ℕ}
      (hold : w.scheduler.executionStatus i = .suspended incarnation condvar)
      (hnew : w'.scheduler.executionStatus i = .readyToExecute incarnation (some condvar))
      (hidx : w'.scheduler.executionIdx ≤ i)
  /-- An executed transaction is to be validated from the index, or by the thread itself. -/
  | finishes {incarnation : ℕ} (hpc : w.pcs thread = .executing (i,incarnation))
      (hnew : w'.scheduler.executionStatus i = .executed incarnation)
      (hvalidates : w'.scheduler.validationIdx ≤ i ∨
        (w'.pcs thread).validates = some ((i,incarnation),w'.scheduler.validationWave))
      (hdeps : w'.scheduler.txnDependency i = [])
  | commits {incarnation : ℕ} (hold : w.scheduler.executionStatus i = .executed incarnation)
      (hnew : w'.scheduler.executionStatus i = .committed incarnation)
      (hlt : i < w'.scheduler.commitIdx)
  | aborts {incarnation : ℕ} (hold : w.scheduler.executionStatus i = .executed incarnation)
      (hnew : w'.scheduler.executionStatus i = .aborting incarnation)
      (hheld : (w'.pcs thread).held = some i)
  /-- The end of an abort leaves the transaction to be executed again. -/
  | retries {incarnation : ℕ} (htouches : w.touches (thread,action) = some i)
      (hnew : w'.scheduler.executionStatus i = .readyToExecute incarnation none)
      (hidx : i < w.scheduler.numTxns → w'.scheduler.executionIdx ≤ i)
  | restarts {incarnation : ℕ} (htouches : w.touches (thread,action) = some i)
      (hnew : w'.scheduler.executionStatus i = .executing incarnation)
      (hheld : (w'.pcs thread).held = some i)

theorem step_shifts (hstep : w.step (thread,action) = .ok w') (i : ℕ) :
    w.Shifts thread action w' i := by
  cases step_acts hstep with
  | tryCommit hpc hs =>
    obtain ⟨-,_,_,-,-,-,rfl⟩ | ⟨incarnation,_,-,hcommits⟩ := tryCommit_spec hs
    · exact .same rfl
    · have heq := hcommits.eq
      subst heq
      by_cases hi : i = w.scheduler.commitIdx
      · subst hi
        exact .commits hcommits.executed (update_self ..) (Nat.lt_succ_self _)
      · exact .same (update_of_ne hi ..)
  | nextTask hpc hs =>
    obtain hsame | ⟨_,_,rfl,hlt,hready,hexec⟩ := (nextTask_assigns hs).status i
    · exact .same hsame
    · refine .incarnates hlt hready hexec ?_
      rintro rfl
      rw [goto_pcs_self]
      rfl
  | @waitForDependency version dep s waits hpc _ hs =>
    obtain ⟨-,rfl⟩ | ⟨_,rfl,hexec,hdep,rfl⟩ := waitForDependency_spec hs
    · exact .same rfl
    · by_cases hi : i = version.1
      · subst hi
        refine .suspends hexec (update_self ..) ⟨dep,?_,hdep⟩
        simp only [goto_scheduler,update_self]
        exact List.mem_append_right _ (List.mem_singleton_self _)
      · exact .same (update_of_ne hi ..)
  | @finishExecution version updatesOutside s task hpc hs =>
    obtain ⟨e,status,ht,-,hresumes,hfinished⟩ := finishExecution_spec hs
    have hstatus := congrFun (congrArg executionStatus ht) i
    have hidx := congrArg executionIdx ht
    obtain ⟨hsame | ⟨_,_,hsusp,hready⟩,-,hle⟩ := hresumes i
    · by_cases hi : i = version.1
      · subst hi
        refine .finishes hpc (hstatus.trans (hsame.trans (update_self ..))) ?_ ?_
        · obtain ⟨-,⟨hle,hidx,-⟩ | ⟨-,hidx,-⟩,-⟩ | ⟨rfl,-,-,-,hwave,-⟩ := hfinished
          · exact .inl (hidx.trans_le hle)
          · exact .inl hidx.le
          · right
            rw [goto_pcs_self,goto_scheduler,hwave]
            rfl
        · rw [ht]
          exact update_self ..
      · exact .same (hstatus.trans (hsame.trans (update_of_ne hi ..)))
    · have hi : i ≠ version.1 := by
        rintro rfl
        rw [update_self] at hsusp
        cases hsusp
      refine .resumes ((update_of_ne hi ..).symm.trans hsusp) (hstatus.trans hready) ?_
      rw [goto_scheduler,hidx]
      exact hle (by rw [hready,hsusp]; exact nofun)
  | @abort version wave s aborted hpc hs =>
    obtain ⟨rfl,hexecuted,rfl⟩ | ⟨-,-,rfl⟩ := tryAbort_spec hs
    · by_cases hi : i = version.1
      · subst hi
        refine .aborts hexecuted (update_self ..) ?_
        rw [goto_pcs_self]
        rfl
      · exact .same (update_of_ne hi ..)
    · exact .same rfl
  | @finishAbort version s task hpc hs =>
    by_cases hi : i = version.1
    · subst hi
      have htouches : w.touches (thread,.finishAbort) = some version.1 := by
        simp only [touches,hpc]
      obtain ⟨status,ht,-,⟨rfl,hle,rfl⟩ | ⟨rfl,-,rfl⟩⟩ := finishAbort_spec hs
      · have hnew : s.executionStatus version.1 = .readyToExecute (version.2 + 1) none := by
          rw [ht]
          exact update_self ..
        refine .retries htouches hnew fun hlt => ?_
        have hidx : s.executionIdx = w.scheduler.executionIdx := by
          rw [ht]
          rfl
        exact hidx.trans_le (hle hlt)
      · have hnew : s.executionStatus version.1 = .executing (version.2 + 1) := by
          rw [ht]
          exact update_self ..
        refine .restarts htouches hnew ?_
        rw [goto_pcs_self]
        rfl
    · exact .same (finishAbort_of_ne hs hi)
  | _ => exact .same rfl

theorem step_next (h : w.Owned) (hstep : w.step (thread,action) = .ok w') (i : ℕ) :
    w.touches (thread,action) = some i ∨
      w'.scheduler.executionStatus i = w.scheduler.executionStatus i ∨
      (w.scheduler.executionStatus i).Next (w'.scheduler.executionStatus i) := by
  cases step_shifts hstep i with
  | same hsame => exact .inr (.inl hsame)
  | incarnates _ hold hnew _ => exact .inr (.inr (hold ▸ hnew ▸ .incarnate _ _))
  | suspends hold hnew _ => exact .inr (.inr (hold ▸ hnew ▸ .suspend _ _))
  | resumes hold hnew _ => exact .inr (.inr (hold ▸ hnew ▸ .resume _ _))
  | finishes hpc hnew _ _ =>
    have hbacked := h.backed thread
    rw [hpc] at hbacked
    have hold : w.scheduler.executionStatus i = _ := hbacked
    exact .inr (.inr (hold ▸ hnew ▸ .finish _))
  | commits hold hnew _ => exact .inr (.inr (hold ▸ hnew ▸ .commit _))
  | aborts hold hnew _ => exact .inr (.inr (hold ▸ hnew ▸ .abort _))
  | retries htouches _ _ | restarts htouches _ _ => exact .inl htouches

inductive Rates (w : Workers) (thread : ℕ) (action : Action) (w' : Workers) : Prop
  | steady (htouches : w.touches (thread,action) = none)
      (hidx : w.scheduler.validationIdx ≤ w'.scheduler.validationIdx)
      (hwave : w'.scheduler.validationWave = w.scheduler.validationWave)
      (hstatus : w'.scheduler.validationStatus = w.scheduler.validationStatus)
  | touched {i : ℕ} (htouched : Scheduler.Touched i w.scheduler w'.scheduler)
      (htouches : w.touches (thread,action) = some i ∨
        w.touches (thread,action) = none ∧ w.scheduler.validationIdx ≤ i)
  | required {version : Version} (hpc : w.pcs thread = .executing version)
      (htouches : w.touches (thread,action) = none)
      (hidx : w'.scheduler.validationIdx = w.scheduler.validationIdx)
      (hwave : w'.scheduler.validationWave = w.scheduler.validationWave)
      (hstatus : w'.scheduler.validationStatus = update w.scheduler.validationStatus
        version.1 { w.scheduler.validationStatus version.1 with
          requiredWave := w.scheduler.validationWave })
  | finished {version : Version} {wave : ℕ} {valid : Bool} (haction : action = .finishValidation)
      (hpc : w.pcs thread = .finishing version wave valid)
      (hscheduler : w'.scheduler = w.scheduler.finishValidation version.1 wave)

section

variable (hstep : w.step (thread,action) = .ok w')

include hstep

theorem step_rates : w.Rates thread action w' := by
  cases step_acts hstep with
  | tryCommit hpc hs =>
    have htouches : w.touches (thread,.tryCommit) = none := by simp only [touches,hpc]
    obtain ⟨-,_,_,-,-,-,rfl⟩ | ⟨_,_,-,hcommits⟩ := tryCommit_spec hs
    · exact .steady htouches le_rfl rfl rfl
    · have heq := hcommits.eq
      subst heq
      exact .steady htouches le_rfl rfl rfl
  | nextTask hpc hs =>
    obtain ⟨_,_,_,-,hv,rfl,-⟩ := nextTask_assigns hs
    exact .steady (by simp only [touches,hpc]) hv rfl rfl
  | @waitForDependency version dep s waits hpc _ hs =>
    have htouches : w.touches (thread,.waitForDependency dep) = none := by simp only [touches,hpc]
    obtain ⟨-,rfl⟩ | ⟨_,-,-,-,rfl⟩ := waitForDependency_spec hs
    · exact .steady htouches le_rfl rfl rfl
    · exact .steady htouches le_rfl rfl rfl
  | wake hpc _ => exact .steady (by simp only [touches,hpc]) le_rfl rfl rfl
  | @finishExecution version updatesOutside s task hpc hs =>
    obtain ⟨_,_,-,-,-,⟨-,htouched,hold⟩ | ⟨-,rfl,-,hidx,hwave,hstatus⟩⟩ :=
      finishExecution_spec hs
    · refine .touched htouched ?_
      cases updatesOutside with
      | true => exact .inl (by simp only [touches,hpc])
      | false => exact .inr ⟨by simp only [touches,hpc],hold rfl⟩
    · exact .required hpc (by simp only [touches,hpc]) hidx hwave hstatus
  | abort hpc hs =>
    have htouches : w.touches (thread,.validate false) = none := by simp only [touches,hpc]
    obtain ⟨-,-,rfl⟩ | ⟨-,-,rfl⟩ := tryAbort_spec hs
    · exact .steady htouches le_rfl rfl rfl
    · exact .steady htouches le_rfl rfl rfl
  | finishValidation hpc => exact .finished rfl hpc rfl
  | finishAbort hpc hs =>
    obtain ⟨_,-,htouched,-⟩ := finishAbort_spec hs
    exact .touched htouched (.inl (by simp only [touches,hpc]))
  | _ hpc => exact .steady (by simp only [touches,hpc]) le_rfl rfl rfl

theorem step_touched :
    (w.touches (thread,action) = none ∧ Scheduler.Steady w.scheduler w'.scheduler) ∨
      ∃ i, w.touches (thread,action) = some i ∧
        Scheduler.Touched i w.scheduler w'.scheduler := by
  cases step_rates hstep with
  | steady htouches hidx hwave hstatus => exact .inl ⟨htouches,hidx,hwave,fun i => by rw [hstatus]⟩
  | @touched i htouched htouches =>
    obtain htouches | ⟨htouches,hle⟩ := htouches
    · exact .inr ⟨i,htouches,htouched⟩
    · exact .inl ⟨htouches,htouched.steady hle⟩
  | required _ htouches hidx hwave hstatus =>
    refine .inl ⟨htouches,hidx.ge,hwave,fun i => ?_⟩
    rw [hstatus]
    exact field_update ValidationStatus.maxTriggeredWave (by rfl) i
  | finished haction hpc hs =>
    rw [hs]
    exact .inl ⟨by simp only [touches,hpc],le_rfl,rfl,
      field_update ValidationStatus.maxTriggeredWave (by rfl)⟩

theorem step_validated_eq (i : ℕ) : (w'.scheduler.validationStatus i).maybeMaxValidatedWave =
        (w.scheduler.validationStatus i).maybeMaxValidatedWave ∨
      action = .finishValidation ∧ ∃ incarnation wave valid,
        w.pcs thread = .finishing (i,incarnation) wave valid ∧
        (w'.scheduler.validationStatus i).maybeMaxValidatedWave =
          some ((w.scheduler.validationStatus i).maybeMaxValidatedWave.elim wave
            fun prevWave => max prevWave wave) := by
  cases step_rates hstep with
  | steady _ _ _ hstatus => exact .inl (by rw [hstatus])
  | touched htouched _ => exact .inl (htouched.validated i)
  | required _ _ _ _ hstatus =>
    rw [hstatus]
    exact .inl (field_update ValidationStatus.maybeMaxValidatedWave (by rfl) i)
  | @finished version wave valid haction hpc hs =>
    simp only [hs,finishValidation,setValidation_validationStatus]
    by_cases hi : i = version.1
    · subst hi
      rw [update_self]
      exact .inr ⟨haction,version.2,wave,valid,hpc,rfl⟩
    · rw [update_of_ne hi]
      exact .inl rfl

theorem step_validated (hi : (w'.scheduler.validationStatus i).maybeMaxValidatedWave = some wave) :
    (w.scheduler.validationStatus i).maybeMaxValidatedWave = some wave ∨
      action = .finishValidation ∧ ∃ incarnation valid,
        w.pcs thread = .finishing (i,incarnation) wave valid := by
  obtain hsame | ⟨haction,incarnation,wave',valid,hpc,heq⟩ := step_validated_eq hstep i
  · exact .inl (hsame.symm.trans hi)
  · have hwave := Option.some.inj (heq.symm.trans hi)
    cases hprev : (w.scheduler.validationStatus i).maybeMaxValidatedWave with
    | none =>
      rw [hprev] at hwave
      exact .inr ⟨haction,incarnation,valid,hwave ▸ hpc⟩
    | some prev =>
      rw [hprev] at hwave
      obtain hmax | hmax := max_choice prev wave'
      · exact .inl (congrArg some (hmax.symm.trans hwave))
      · exact .inr ⟨haction,incarnation,valid,hmax.symm.trans hwave ▸ hpc⟩

theorem step_validated_le
    (hi : (w.scheduler.validationStatus i).maybeMaxValidatedWave = some wave) :
    ∃ wave', wave ≤ wave' ∧
      (w'.scheduler.validationStatus i).maybeMaxValidatedWave = some wave' := by
  obtain hsame | ⟨-,_,wave',_,-,heq⟩ := step_validated_eq hstep i
  · exact ⟨wave,le_rfl,hsame.trans hi⟩
  · rw [hi] at heq
    exact ⟨max wave wave',le_max_left _ _,heq⟩

theorem step_validates {version : Version} {wave : ℕ}
    (hpc' : (w'.pcs thread).validates = some (version,wave)) :
    (w.pcs thread).validates = some (version,wave) ∨
      ((w.pcs thread).validates = none ∧ w.touches (thread,action) = none) ∧
        w'.scheduler.Reached version.1 wave ∧
        w'.scheduler.executionStatus version.1 = .executed version.2 := by
  cases step_acts hstep with
  | tryCommit hpc hs | check hpc | validate hpc =>
    rw [goto_pcs_self] at hpc'
    rw [hpc]
    exact .inl hpc'
  | @nextTask s task hpc hs =>
    rw [goto_pcs_self] at hpc'
    obtain ⟨_,_,_,-,-,rfl,htask⟩ := nextTask_assigns hs
    cases task with
    | validationTask version' wave' =>
      cases hpc'
      obtain ⟨-,hlt,hexecuted,hwave,hstatus⟩ := htask
      rw [hpc]
      exact .inr ⟨⟨rfl,by simp only [touches,hpc]⟩,⟨hwave.le,fun _ => hlt⟩,
        (congrFun hstatus _).trans hexecuted⟩
    | noTask => cases hpc'
    | done => cases hpc'
    | executionTask version' condvar => cases hpc'
  | waitForDependency hpc _ hs =>
    rw [goto_pcs_self] at hpc'
    obtain ⟨rfl,-⟩ | ⟨_,rfl,-⟩ := waitForDependency_spec hs
    · cases hpc'
    · cases hpc'
  | @finishExecution version' updatesOutside s task hpc hs =>
    rw [goto_pcs_self] at hpc'
    obtain ⟨_,status,ht,-,hresumes,⟨rfl,-⟩ | ⟨rfl,rfl,hlt,hidx,hwave,-⟩⟩ :=
      finishExecution_spec hs
    · cases hpc'
    · cases hpc'
      have hstatus : s.executionStatus = status := congrArg executionStatus ht
      have hexecuted := (hresumes version'.1).1
      rw [update_self] at hexecuted
      rw [hpc]
      refine .inr ⟨⟨rfl,by simp only [touches,hpc]⟩,⟨hwave.ge,fun _ => hlt.trans_le hidx.ge⟩,?_⟩
      rw [goto_scheduler,hstatus]
      obtain hsame | ⟨_,_,hsusp,-⟩ := hexecuted
      · exact hsame
      · cases hsusp
  | abort hpc hs =>
    rw [goto_pcs_self] at hpc'
    obtain ⟨rfl,-⟩ | ⟨rfl,-⟩ := tryAbort_spec hs
    · cases hpc'
    · rw [hpc]
      exact .inl hpc'
  | finishAbort hpc hs =>
    rw [goto_pcs_self] at hpc'
    obtain ⟨_,-,-,⟨rfl,-⟩ | ⟨rfl,-⟩⟩ := finishAbort_spec hs
    · cases hpc'
    · cases hpc'
  | _ =>
    rw [goto_pcs_self] at hpc'
    cases hpc'

theorem step_finishing {version : Version} {wave : ℕ}
    (hpc' : w'.pcs thread = .finishing version wave false) :
    w.pcs thread = .validating version wave ∧ action = .validate false ∧
      w'.scheduler.executionStatus version.1 ≠ .executed version.2 := by
  cases step_acts hstep with
  | abort hpc hs =>
    rw [goto_pcs_self] at hpc'
    obtain ⟨rfl,-⟩ | ⟨rfl,hne,rfl⟩ := tryAbort_spec hs
    · cases hpc'
    · cases hpc'
      exact ⟨hpc,rfl,hne⟩
  | waitForDependency hpc _ hs =>
    rw [goto_pcs_self] at hpc'
    obtain ⟨rfl,-⟩ | ⟨_,rfl,-⟩ := waitForDependency_spec hs
    · cases hpc'
    · cases hpc'
  | _ =>
    rw [goto_pcs_self] at hpc'
    cases hpc'

end

structure Waved (w : Workers) : Prop where
  waves : w.scheduler.Waves
  reached : ∀ thread version wave, (w.pcs thread).validates = some (version,wave) →
    w.scheduler.Reached version.1 wave
  settled : ∀ thread version wave, (w.pcs thread).validates = some (version,wave) →
    w.scheduler.Sufficient version.1 wave →
    (w.scheduler.executionStatus version.1).Settled version.2
  /-- A validation that failed without an abort is of no use any more. -/
  failed : ∀ thread version wave, w.pcs thread = .finishing version wave false →
    w.scheduler.Sufficient version.1 wave →
    (w.scheduler.executionStatus version.1).Closed version.2

theorem step_scheduler (hstep : w.step (thread,action) = .ok w') :
    Scheduler.Steady w.scheduler w'.scheduler ∨
      ∃ i, Scheduler.Touched i w.scheduler w'.scheduler := by
  obtain ⟨-,hsteady⟩ | ⟨i,-,htouched⟩ := step_touched hstep
  · exact .inl hsteady
  · exact .inr ⟨i,htouched⟩

theorem Waved.keeps (h : w.Waved) (howned : w.Owned) (hstep : w.step (thread,action) = .ok w')
    {P : Scheduler.ExecutionStatus → Prop} (hP : ∀ a b, a.Next b → P a → P b)
    (hreached : w.scheduler.Reached i wave) (hsuff : w'.scheduler.Sufficient i wave)
    (hi : w.scheduler.Sufficient i wave → P (w.scheduler.executionStatus i)) :
    P (w'.scheduler.executionStatus i) := by
  have hi := hi (hsuff.of_next h.waves (step_scheduler hstep))
  obtain htouches | hsame | hnext := step_next howned hstep i
  · obtain ⟨hnone,-⟩ | ⟨j,hj,htouched⟩ := step_touched hstep
    · cases hnone.symm.trans htouches
    · cases hj.symm.trans htouches
      exact absurd hsuff (htouched.not_sufficient h.waves hreached le_rfl)
  · rw [hsame]
    exact hi
  · exact hP _ _ hnext hi

theorem step_pcs_of_ne (hstep : w.step (thread,action) = .ok w') {other : ℕ}
    (ho : other ≠ thread) : w'.pcs other = w.pcs other := by
  cases step_acts hstep <;> exact goto_pcs_of_ne ho

theorem step_waved (h : w.Waved) (howned : w.Owned) (hstep : w.step (thread,action) = .ok w') :
    w'.Waved := by
  have hvalidates : ∀ other version wave, (w'.pcs other).validates = some (version,wave) →
      (w.pcs other).validates = some (version,wave) ∨
        w'.scheduler.Reached version.1 wave ∧
          w'.scheduler.executionStatus version.1 = .executed version.2 := by
    intro other version wave hother
    by_cases ho : other = thread
    · subst ho
      exact (step_validates hstep hother).imp_right And.right
    · rw [step_pcs_of_ne hstep ho] at hother
      exact .inl hother
  constructor
  · refine h.waves.next (step_scheduler hstep) fun i wave hi => ?_
    obtain hi | ⟨-,incarnation,valid,hpc⟩ := step_validated hstep hi
    · exact h.waves.validated i wave hi
    · exact h.reached thread _ wave (congrArg Pc.validates hpc)
  · intro other version wave hother
    obtain hold | ⟨hreached,-⟩ := hvalidates other version wave hother
    · obtain hsteady | ⟨i,htouched⟩ := step_scheduler hstep
      · exact (h.reached other version wave hold).steady hsteady
      · exact (h.reached other version wave hold).touched htouched
    · exact hreached
  · intro other version wave hother hsuff
    obtain hold | ⟨-,hexecuted⟩ := hvalidates other version wave hother
    · exact h.keeps howned hstep (fun _ _ hnext => hnext.settled) (h.reached _ _ _ hold) hsuff
        (h.settled _ _ _ hold)
    · rw [hexecuted]
      rfl
  · intro other version wave hother hsuff
    by_cases ho : other = thread
    · subst ho
      obtain ⟨hpc,-,hne⟩ := step_finishing hstep hother
      have hsettled := h.keeps howned hstep (fun _ _ hnext => hnext.settled)
        (h.reached _ _ _ (congrArg Pc.validates hpc)) hsuff
        (h.settled _ _ _ (congrArg Pc.validates hpc))
      exact hsettled.closed hne
    · rw [step_pcs_of_ne hstep ho] at hother
      exact h.keeps howned hstep (fun _ _ hnext => hnext.closed)
        (h.reached _ _ _ (congrArg Pc.validates hother)) hsuff (h.failed _ _ _ hother)

theorem new_validates {numTxns concurrencyLevel committer : ℕ} (thread : ℕ) :
    ((new numTxns concurrencyLevel committer).pcs thread).validates = none := by
  simp only [new]
  split <;> rfl

theorem new_waved (numTxns concurrencyLevel committer : ℕ) :
    (new numTxns concurrencyLevel committer).Waved := by
  refine ⟨⟨fun _ => le_rfl,nofun,nofun⟩,?_,?_,?_⟩
  · intro thread version wave hpc
    cases (new_validates thread).symm.trans hpc
  · intro thread version wave hpc
    cases (new_validates thread).symm.trans hpc
  · intro thread version wave hpc
    cases (new_validates thread).symm.trans (congrArg Pc.validates hpc)

end Workers

structure Scheduler.Rolling (s : Scheduler) : Prop where
  le : s.commitIdx ≤ s.numTxns
  committed : ∀ i, i < s.commitIdx → ∃ incarnation, s.executionStatus i = .committed incarnation
  waves : ∀ i, i < s.commitIdx → (s.validationStatus i).maxTriggeredWave ≤ s.commitWave
  done : s.doneMarker = true → s.commitIdx = s.numTxns

structure Scheduler.Holds (s t : Scheduler) : Prop where
  numTxns : t.numTxns = s.numTxns
  commitIdx : t.commitIdx = s.commitIdx
  commitWave : s.commitWave ≤ t.commitWave
  commitWave_le : t.commitWave ≤
    max s.commitWave (s.validationStatus s.commitIdx).maxTriggeredWave
  done : t.doneMarker = true → s.doneMarker = true ∨ s.commitIdx = s.numTxns

namespace Workers

variable {w w' : Workers} {thread : ℕ} {action : Action}

theorem step_commits (hstep : w.step (thread,action) = .ok w') :
    w.scheduler.Holds w'.scheduler ∧
        (action = .tryCommit → w.scheduler.tryCommit.2 = none) ∨
      action = .tryCommit ∧ w.scheduler.tryCommit.2 = some w.scheduler.commitIdx ∧
        ∃ incarnation wave, w.scheduler.Commits w'.scheduler incarnation wave := by
  cases step_acts hstep with
  | tryCommit hpc hs =>
    have hsnd := congrArg Prod.snd hs
    obtain ⟨rfl,wave,done,hwave,hle,hdone,rfl⟩ | ⟨incarnation,wave,rfl,hcommits⟩ :=
      Scheduler.tryCommit_spec hs
    · exact .inl ⟨⟨rfl,rfl,hwave,hle,hdone⟩,fun _ => hsnd⟩
    · exact .inr ⟨rfl,hsnd,incarnation,wave,hcommits⟩
  | nextTask hpc hs =>
    obtain ⟨_,_,_,-,-,rfl,-⟩ := Scheduler.nextTask_assigns hs
    exact .inl ⟨⟨rfl,rfl,le_rfl,le_max_left _ _,.inl⟩,nofun⟩
  | waitForDependency hpc _ hs =>
    obtain ⟨-,rfl⟩ | ⟨_,-,-,-,rfl⟩ := Scheduler.waitForDependency_spec hs
    · exact .inl ⟨⟨rfl,rfl,le_rfl,le_max_left _ _,.inl⟩,nofun⟩
    · exact .inl ⟨⟨rfl,rfl,le_rfl,le_max_left _ _,.inl⟩,nofun⟩
  | finishExecution hpc hs =>
    obtain ⟨_,_,ht,-⟩ := Scheduler.finishExecution_spec hs
    rw [ht]
    exact .inl ⟨⟨rfl,rfl,le_rfl,le_max_left _ _,.inl⟩,nofun⟩
  | abort hpc hs =>
    obtain ⟨-,-,rfl⟩ | ⟨-,-,rfl⟩ := Scheduler.tryAbort_spec hs
    · exact .inl ⟨⟨rfl,rfl,le_rfl,le_max_left _ _,.inl⟩,nofun⟩
    · exact .inl ⟨⟨rfl,rfl,le_rfl,le_max_left _ _,.inl⟩,nofun⟩
  | finishAbort hpc hs =>
    obtain ⟨_,ht,-⟩ := Scheduler.finishAbort_spec hs
    rw [ht]
    exact .inl ⟨⟨rfl,rfl,le_rfl,le_max_left _ _,.inl⟩,nofun⟩
  | _ => exact .inl ⟨⟨rfl,rfl,le_rfl,le_max_left _ _,.inl⟩,nofun⟩

theorem step_committed (h : w.Owned) (hstep : w.step (thread,action) = .ok w') {i incarnation : ℕ}
    (hi : w.scheduler.executionStatus i = .committed incarnation) :
    w'.scheduler.executionStatus i = .committed incarnation := by
  obtain htouches | hsame | hnext := step_next h hstep i
  · refine absurd (touches_held htouches) (h.held_ne ?_ thread)
    rw [hi]
    trivial
  · rw [hsame,hi]
  · rw [hi] at hnext
    cases hnext

theorem step_rolling (h : w.scheduler.Rolling) (howned : w.Owned)
    (hstep : w.step (thread,action) = .ok w') : w'.scheduler.Rolling := by
  have hcommitted : ∀ i, i < w.scheduler.commitIdx →
      ∃ incarnation, w'.scheduler.executionStatus i = .committed incarnation := by
    intro i hi
    obtain ⟨incarnation,hstatus⟩ := h.committed i hi
    exact ⟨incarnation,step_committed howned hstep hstatus⟩
  -- A committed transaction is not touched.
  have hwaves : ∀ i, i < w.scheduler.commitIdx →
      (w'.scheduler.validationStatus i).maxTriggeredWave =
        (w.scheduler.validationStatus i).maxTriggeredWave := by
    intro i hi
    obtain ⟨-,hsteady⟩ | ⟨j,hj,htouched⟩ := step_touched hstep
    · exact hsteady.triggered i
    · have hne : i ≠ j := by
        rintro rfl
        obtain ⟨incarnation,hstatus⟩ := h.committed i hi
        refine absurd (touches_held hj) (howned.held_ne ?_ thread)
        rw [hstatus]
        trivial
      obtain ⟨-,-,-,hstatus⟩ | ⟨-,-,-,hstatus⟩ := htouched
      · rw [hstatus]
      · rw [hstatus,Function.update_of_ne hne]
  obtain ⟨hholds,-⟩ | ⟨-,-,incarnation,wave,hcommits⟩ := step_commits hstep
  · refine ⟨?_,?_,?_,?_⟩
    · rw [hholds.commitIdx,hholds.numTxns]
      exact h.le
    · rw [hholds.commitIdx]
      exact hcommitted
    · rw [hholds.commitIdx]
      intro i hi
      rw [hwaves i hi]
      exact (h.waves i hi).trans hholds.commitWave
    · intro hdone
      rw [hholds.commitIdx,hholds.numTxns]
      exact (hholds.done hdone).elim h.done id
  · have hidx := congrArg Scheduler.commitIdx hcommits.eq
    have hn : w'.scheduler.numTxns = w.scheduler.numTxns := by
      rw [hcommits.eq]
      rfl
    have hwave := congrArg Scheduler.commitWave hcommits.eq
    have hlt := lt_of_le_of_ne h.le hcommits.lt
    refine ⟨?_,?_,?_,?_⟩
    · rw [hidx,hn]
      exact hlt
    · rw [hidx]
      intro i hi
      obtain hi | rfl := Nat.lt_succ_iff_lt_or_eq.mp hi
      · exact hcommitted i hi
      · refine ⟨incarnation,?_⟩
        rw [hcommits.eq]
        exact Function.update_self ..
    · rw [hidx]
      intro i hi
      obtain hi | rfl := Nat.lt_succ_iff_lt_or_eq.mp hi
      · rw [hwaves i hi,hwave]
        exact (h.waves i hi).trans (le_max_left _ _)
      · rw [hcommits.eq]
        exact le_max_right _ _
    · intro hdone
      rw [hcommits.eq] at hdone
      exact absurd (h.done hdone) hcommits.lt

theorem commits_sufficient {t : Scheduler} {incarnation wave : ℕ} (h : w.scheduler.Rolling)
    (hcommits : w.scheduler.Commits t incarnation wave) :
    w.scheduler.Sufficient w.scheduler.commitIdx wave := by
  have hle := hcommits.wave_le
  rw [hcommits.eq] at hle
  intro k hk
  obtain hk | rfl := Nat.lt_or_eq_of_le hk
  · exact ((h.waves k hk).trans (le_max_left _ _)).trans hle
  · exact (le_max_right _ _).trans hle

end Workers

end Arx.BlockExecutor
