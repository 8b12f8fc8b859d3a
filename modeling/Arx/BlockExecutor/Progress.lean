import Arx.BlockExecutor.Waves

/-!
# No work is lost

A ready transaction is ahead of the execution index, and a suspended one is registered with one that
has not been executed. What is left to do with a transaction is ahead of one of the two indices or
in the hands of a thread.
-/

namespace Arx.BlockExecutor
open Movelib Function Scheduler

namespace Scheduler

variable {s : Scheduler} {i : ℕ}

def ExecutionStatus.Done : ExecutionStatus → Prop
  | .executed _ | .committed _ => True
  | _ => False

theorem not_done_of_isExecuted (hi : i < s.numTxns) (h : s.isExecuted i true = none) :
    ¬ (s.executionStatus i).Done := by
  simp only [isExecuted,if_neg (not_le.mpr hi)] at h
  cases hstatus : s.executionStatus i with
  | executed n => simp only [hstatus,reduceCtorEq] at h
  | committed n => simp only [hstatus,if_true,reduceCtorEq] at h
  | readyToExecute n condvar | executing n | suspended n condvar | aborting n => exact id

structure Orderly (s : Scheduler) : Prop where
  outside : ∀ i, s.numTxns ≤ i → s.executionStatus i = .readyToExecute 0 none
  ready : ∀ i incarnation condvar, i < s.numTxns →
    s.executionStatus i = .readyToExecute incarnation condvar → s.executionIdx ≤ i
  /-- A suspended transaction is registered with one that has not been executed. -/
  registered : ∀ i incarnation condvar, s.executionStatus i = .suspended incarnation condvar →
    ∃ dep, i ∈ s.txnDependency dep ∧ ¬ (s.executionStatus dep).Done
  required : ∀ i, (s.validationStatus i).requiredWave ≤ s.validationWave
  commitWave : ∃ k, k ≤ s.commitIdx ∧ s.commitWave ≤ (s.validationStatus k).maxTriggeredWave
  committed : ∀ i incarnation, s.executionStatus i = .committed incarnation → i < s.commitIdx

end Scheduler

namespace Workers

variable {w w' : Workers} {thread : ℕ} {action : Action}

theorem step_releases (hstep : w.step (thread,action) = .ok w') {i : ℕ}
    (hi : (w.pcs thread).held = some i) :
    (w'.pcs thread).held = some i ∨ (w'.scheduler.executionStatus i).Free := by
  cases step_acts hstep with
  | tryCommit hpc hs | execute hpc | wake hpc _ =>
    rw [hpc] at hi
    rw [goto_pcs_self]
    exact .inl hi
  | waitForDependency hpc _ hs =>
    rw [hpc] at hi
    rw [goto_pcs_self]
    obtain ⟨rfl,-⟩ | ⟨_,rfl,-⟩ := waitForDependency_spec hs
    · exact .inl hi
    · exact .inl hi
  | @finishExecution version updatesOutside s task hpc hs =>
    rw [hpc] at hi
    cases hi
    right
    obtain ⟨_,status,ht,-,hresumes,-⟩ := finishExecution_spec hs
    have hstatus : s.executionStatus = status := congrArg executionStatus ht
    have hresumes := (hresumes version.1).1
    rw [update_self] at hresumes
    rw [goto_scheduler,hstatus]
    obtain hsame | ⟨_,_,hsusp,-⟩ := hresumes
    · rw [hsame]
      trivial
    · cases hsusp
  | finishAbort hpc hs =>
    rw [hpc] at hi
    cases hi
    obtain ⟨status,ht,-,⟨rfl,-,rfl⟩ | ⟨rfl,-,rfl⟩⟩ := finishAbort_spec hs
    · right
      rw [goto_scheduler,ht]
      simp only [update_self]
      trivial
    · rw [goto_pcs_self]
      exact .inl rfl
  | _ hpc =>
    rw [hpc] at hi
    cases hi

theorem step_acquires (h : w.Owned) (hstep : w.step (thread,action) = .ok w') {i : ℕ}
    (hi : (w.scheduler.executionStatus i).Free)
    (hi' : ¬ (w'.scheduler.executionStatus i).Free) : (w'.pcs thread).held = some i := by
  have hfree := h.held_ne hi thread
  cases step_shifts hstep i with
  | same hsame => exact absurd hi (hsame ▸ hi')
  | @incarnates incarnation condvar _ hold _ hheld =>
    -- A transaction that was suspended before is held by the thread that waits.
    cases condvar with
    | none => exact hheld rfl
    | some condvar =>
      rw [hold] at hi
      cases hi
  | suspends hold _ _ | resumes hold _ _ =>
    rw [hold] at hi
    cases hi
  | finishes hpc _ _ _ => exact absurd (congrArg Pc.held hpc) hfree
  | commits _ hnew _ =>
    rw [hnew] at hi'
    exact absurd trivial hi'
  | aborts _ _ hheld => exact hheld
  | retries htouches _ _ => exact absurd (touches_held htouches) hfree
  | restarts _ _ hheld => exact hheld

theorem step_numTxns (hstep : w.step (thread,action) = .ok w') :
    w'.scheduler.numTxns = w.scheduler.numTxns := by
  obtain ⟨hholds,-⟩ | ⟨-,-,_,_,hcommits⟩ := step_commits hstep
  · exact hholds.numTxns
  · rw [hcommits.eq]
    rfl

theorem step_commitIdx_le (hstep : w.step (thread,action) = .ok w') :
    w.scheduler.commitIdx ≤ w'.scheduler.commitIdx := by
  obtain ⟨hholds,-⟩ | ⟨-,-,_,_,hcommits⟩ := step_commits hstep
  · exact hholds.commitIdx.ge
  · rw [hcommits.eq]
    exact Nat.le_succ _

theorem step_triggered_le (h : w.scheduler.Waves) (hstep : w.step (thread,action) = .ok w')
    (k : ℕ) : (w.scheduler.validationStatus k).maxTriggeredWave ≤
      (w'.scheduler.validationStatus k).maxTriggeredWave := by
  obtain hsteady | ⟨j,htouched⟩ := step_scheduler hstep
  · exact (hsteady.triggered k).ge
  · exact htouched.triggered_le h k

section

variable (hstep : w.step (thread,action) = .ok w')

include hstep

theorem step_validationWave_le : w.scheduler.validationWave ≤ w'.scheduler.validationWave := by
  obtain hsteady | ⟨j,⟨-,-,hwave,-⟩ | ⟨-,-,hwave,-⟩⟩ := step_scheduler hstep
  · exact hsteady.wave.ge
  · exact hwave.ge
  · rw [hwave]
    exact Nat.le_succ _

theorem step_requires (i : ℕ) :
    (w'.scheduler.validationStatus i).requiredWave =
        (w.scheduler.validationStatus i).requiredWave ∨
      (w.pcs thread).held = some i ∧
        (w'.scheduler.validationStatus i).requiredWave = w'.scheduler.validationWave := by
  cases step_rates hstep with
  | steady _ _ _ hstatus => exact .inl (by rw [hstatus])
  | touched htouched _ => exact .inl (htouched.required i)
  | @required version hpc _ _ hwave hstatus =>
    rw [hstatus,hwave]
    by_cases hi : i = version.1
    · subst hi
      rw [update_self]
      exact .inr ⟨congrArg Pc.held hpc,rfl⟩
    · rw [update_of_ne hi]
      exact .inl rfl
  | finished _ _ hs =>
    rw [hs]
    exact .inl (field_update ValidationStatus.requiredWave (by rfl) i)

inductive Moves (w : Workers) (thread : ℕ) : Workers → Prop
  /-- No transaction becomes ready, suspended or executed. -/
  | steady {w' : Workers} (hval : w'.scheduler.validationIdx = w.scheduler.validationIdx)
      (hidx : w'.scheduler.executionIdx = w.scheduler.executionIdx)
      (hdeps : w'.scheduler.txnDependency = w.scheduler.txnDependency)
      (hstatus : ∀ i, w'.scheduler.executionStatus i = w.scheduler.executionStatus i ∨
        ∃ incarnation, w.scheduler.executionStatus i = .executed incarnation ∧
          (w'.scheduler.executionStatus i = .committed incarnation ∧ i < w'.scheduler.commitIdx ∨
            w'.scheduler.executionStatus i = .aborting incarnation)) : Moves w thread w'
  | assigns {s : Scheduler} {task : SchedulerTask} (hs : w.scheduler.Assigns s task)
      (hskips : w.scheduler.Skips s task) : Moves w thread (w.goto thread s (w.head thread task))
  | suspends {version : Version} {dep incarnation : ℕ}
      (hexec : w.scheduler.executionStatus version.1 = .executing incarnation)
      (hdep : w.scheduler.isExecuted dep true = none) :
      Moves w thread (w.goto thread { w.scheduler.newCondvar.setStatus version.1
        (.suspended incarnation w.scheduler.condvars) with
          txnDependency := update w.scheduler.txnDependency dep
            (w.scheduler.txnDependency dep ++ [version.1]) }
        (.waiting version w.scheduler.condvars))
  | finishes {version : Version} {updatesOutside : Bool} {s : Scheduler} {task : SchedulerTask}
      (hpc : w.pcs thread = .executing version)
      (hs : w.scheduler.finishExecution version.1 version.2 updatesOutside = .ok (s,task)) :
      Moves w thread (w.goto thread s (w.head thread task))
  | aborts {version : Version} {s : Scheduler} {task : SchedulerTask}
      (hpc : w.pcs thread = .aborting version)
      (hs : w.scheduler.finishAbort version.1 version.2 = .ok (s,task)) :
      Moves w thread (w.goto thread s (w.head thread task))

theorem step_moves : w.Moves thread w' := by
  cases step_acts hstep with
  | tryCommit hpc hs =>
    obtain ⟨-,_,_,-,-,-,rfl⟩ | ⟨incarnation,_,-,hcommits⟩ := tryCommit_spec hs
    · exact .steady rfl rfl rfl fun _ => .inl rfl
    · have heq := hcommits.eq
      subst heq
      refine .steady rfl rfl rfl fun i => ?_
      by_cases hi : i = w.scheduler.commitIdx
      · subst hi
        exact .inr ⟨incarnation,hcommits.executed,
          .inl ⟨update_self ..,Nat.lt_succ_self _⟩⟩
      · exact .inl (update_of_ne hi ..)
  | nextTask hpc hs =>
    exact .assigns (nextTask_assigns hs) (nextTaskLoop_spec hs).2
  | waitForDependency hpc _ hs =>
    obtain ⟨rfl,rfl⟩ | ⟨_,rfl,hexec,hdep,rfl⟩ := waitForDependency_spec hs
    · exact .steady rfl rfl rfl fun _ => .inl rfl
    · exact .suspends hexec hdep
  | finishExecution hpc hs => exact .finishes hpc hs
  | @abort version wave s aborted hpc hs =>
    obtain ⟨rfl,hexecuted,rfl⟩ | ⟨rfl,-,rfl⟩ := tryAbort_spec hs
    · refine .steady rfl rfl rfl fun i => ?_
      by_cases hi : i = version.1
      · subst hi
        exact .inr ⟨version.2,hexecuted,.inr (update_self ..)⟩
      · exact .inl (update_of_ne hi ..)
    · exact .steady rfl rfl rfl fun _ => .inl rfl
  | finishAbort hpc hs => exact .aborts hpc hs
  | _ => exact .steady rfl rfl rfl fun _ => .inl rfl

end

section

variable (h : w.scheduler.Orderly) (hstep : w.step (thread,action) = .ok w')
include h hstep

theorem step_outside (howned : w.Owned) (i : ℕ) (hi : w.scheduler.numTxns ≤ i) :
    w'.scheduler.executionStatus i = .readyToExecute 0 none := by
  have hready := h.outside i hi
  have hfree : (w.pcs thread).held ≠ some i := howned.held_ne (by rw [hready]; trivial) thread
  cases step_shifts hstep i with
  | same hsame => exact hsame.trans hready
  | incarnates hlt _ _ _ => omega
  | finishes hpc _ _ _ => exact absurd (congrArg Pc.held hpc) hfree
  | retries htouches _ _ | restarts htouches _ _ => exact absurd (touches_held htouches) hfree
  | _ => simp_all only [reduceCtorEq]

theorem step_ready {i incarnation : ℕ} {condvar : Option ℕ} (hi : i < w.scheduler.numTxns)
    (hi' : w'.scheduler.executionStatus i = .readyToExecute incarnation condvar) :
    w'.scheduler.executionIdx ≤ i := by
  cases step_shifts hstep i with
  | same hsame =>
    have hready := hsame.symm.trans hi'
    have hle := h.ready i incarnation condvar hi hready
    cases step_moves hstep with
    | steady _ hidx _ _ => exact hidx.trans_le hle
    | assigns hs hskips =>
      by_contra hlt
      have htask := hskips.executions i incarnation condvar hle (not_le.mp hlt) hi hready
      subst htask
      obtain ⟨_,_,_,-,-,rfl,-,-,hstatus⟩ := hs
      rw [goto_scheduler,hstatus,update_self] at hi'
      cases hi'
    | suspends _ _ => exact hle
    | finishes _ hs =>
      obtain ⟨_,_,ht,hidx,-⟩ := finishExecution_spec hs
      rw [ht]
      exact hidx.trans hle
    | aborts _ hs =>
      obtain ⟨_,ht,-⟩ := finishAbort_spec hs
      rw [ht]
      exact hle
  | resumes _ _ hidx => exact hidx
  | retries _ _ hidx => exact hidx hi
  | _ => simp_all only [reduceCtorEq]

theorem step_registered {i incarnation condvar : ℕ}
    (hi' : w'.scheduler.executionStatus i = .suspended incarnation condvar) :
    ∃ dep, i ∈ w'.scheduler.txnDependency dep ∧
      ¬ (w'.scheduler.executionStatus dep).Done := by
  have hundone : ∀ dep, i ∈ w'.scheduler.txnDependency dep →
      ¬ (w.scheduler.executionStatus dep).Done → ¬ (w'.scheduler.executionStatus dep).Done := by
    intro dep hmem hdone
    cases step_shifts hstep dep with
    | same hsame => rwa [hsame]
    | finishes _ _ _ hdeps =>
      rw [hdeps] at hmem
      cases hmem
    | commits hold _ _ =>
      rw [hold] at hdone
      exact absurd trivial hdone
    | aborts _ hnew _ | incarnates _ _ hnew _ | suspends _ hnew _ | resumes _ hnew _
    | retries _ hnew _ | restarts _ hnew _ => exact hnew ▸ id
  cases step_shifts hstep i with
  | same hsame =>
    obtain ⟨dep,hmem,hdone⟩ := h.registered i _ _ (hsame.symm.trans hi')
    have hmem' : i ∈ w'.scheduler.txnDependency dep := by
      cases step_moves hstep with
      | steady _ _ hdeps _ => rwa [hdeps]
      | assigns hs _ =>
        obtain ⟨_,_,_,-,-,rfl,-⟩ := hs
        exact hmem
      | @suspends version dep' inc _ _ =>
        simp only [goto_scheduler]
        by_cases hdd : dep = dep'
        · subst hdd
          rw [update_self]
          exact List.mem_append_left _ hmem
        · rwa [update_of_ne hdd]
      | @finishes version updatesOutside s task hpc hs =>
        obtain ⟨_,status,ht,-,hresumes,-⟩ := finishExecution_spec hs
        have hdeps : s.txnDependency = update w.scheduler.txnDependency version.1 [] :=
          congrArg txnDependency ht
        have hdv : dep ≠ version.1 := by
          rintro rfl
          have hstatus : s.executionStatus = status := congrArg executionStatus ht
          obtain ⟨heq | ⟨_,_,-,hready⟩,hne,-⟩ := hresumes i
          · exact hne hmem heq
          · rw [← hstatus] at hready
            cases hready.symm.trans hi'
        rwa [goto_scheduler,hdeps,update_of_ne hdv]
      | aborts hpc hs =>
        obtain ⟨_,ht,-⟩ := finishAbort_spec hs
        rw [ht]
        exact hmem
    exact ⟨dep,hmem',hundone dep hmem' hdone⟩
  | suspends _ _ hdep =>
    obtain ⟨dep,hmem,hdep⟩ := hdep
    refine ⟨dep,hmem,hundone dep hmem fun hdone => ?_⟩
    -- A transaction outside of the block is not executed either.
    by_cases hlt : dep < w.scheduler.numTxns
    · exact not_done_of_isExecuted hlt hdep hdone
    · rw [h.outside dep (not_lt.mp hlt)] at hdone
      exact hdone
  | _ => simp_all only [reduceCtorEq]

theorem step_uncommitted {i incarnation : ℕ}
    (hi' : w'.scheduler.executionStatus i = .committed incarnation) :
    i < w'.scheduler.commitIdx := by
  cases step_shifts hstep i with
  | same hsame =>
    exact (h.committed i incarnation (hsame.symm.trans hi')).trans_le (step_commitIdx_le hstep)
  | commits _ _ hlt => exact hlt
  | _ => simp_all only [reduceCtorEq]

theorem step_orderly (howned : w.Owned) (hwaves : w.scheduler.Waves) : w'.scheduler.Orderly := by
  have hn := step_numTxns hstep
  refine ⟨?_,?_,fun _ _ _ => step_registered h hstep,fun i => ?_,?_,
    fun _ _ => step_uncommitted h hstep⟩
  · rw [hn]
    exact step_outside h hstep howned
  · rw [hn]
    exact fun _ _ _ => step_ready h hstep
  · obtain hsame | ⟨-,hwave⟩ := step_requires hstep i
    · rw [hsame]
      exact (h.required i).trans (step_validationWave_le hstep)
    · exact hwave.le
  · obtain ⟨k,hk,hle⟩ := h.commitWave
    have htriggered := step_triggered_le hwaves hstep
    -- The wave of the sweep is one that a transaction up to the next one has triggered.
    have hmax : ∀ wave, wave ≤ max w.scheduler.commitWave
        (w.scheduler.validationStatus w.scheduler.commitIdx).maxTriggeredWave →
        ∃ k, k ≤ w'.scheduler.commitIdx ∧
          wave ≤ (w'.scheduler.validationStatus k).maxTriggeredWave := by
      intro wave hwave
      obtain hwave | hwave := le_max_iff.mp hwave
      · exact ⟨k,hk.trans (step_commitIdx_le hstep),hwave.trans (hle.trans (htriggered k))⟩
      · exact ⟨_,step_commitIdx_le hstep,hwave.trans (htriggered _)⟩
    obtain ⟨hholds,-⟩ | ⟨-,-,_,_,hcommits⟩ := step_commits hstep
    · exact hmax _ hholds.commitWave_le
    · refine hmax _ (le_of_eq ?_)
      rw [hcommits.eq]

end

structure Attended (w : Workers) : Prop where
  orderly : w.scheduler.Orderly
  held : ∀ i, ¬ (w.scheduler.executionStatus i).Free → ∃ thread, (w.pcs thread).held = some i
  validated : ∀ i incarnation, i < w.scheduler.numTxns →
    w.scheduler.executionStatus i = .executed incarnation → i < w.scheduler.validationIdx →
    ∃ wave, (w.scheduler.validationStatus i).requiredWave ≤ wave ∧
      w.scheduler.Sufficient i wave ∧
      ((∃ thread, (w.pcs thread).validates = some ((i,incarnation),wave)) ∨
        (w.scheduler.validationStatus i).maybeMaxValidatedWave = some wave)

theorem step_held (h : w.Attended) (howned : w.Owned) (hstep : w.step (thread,action) = .ok w')
    (i : ℕ) (hi' : ¬ (w'.scheduler.executionStatus i).Free) :
    ∃ thread, (w'.pcs thread).held = some i := by
  by_cases hi : (w.scheduler.executionStatus i).Free
  · exact ⟨thread,step_acquires howned hstep hi hi'⟩
  · obtain ⟨owner,howner⟩ := h.held i hi
    by_cases ho : owner = thread
    · subst ho
      exact ⟨owner,(step_releases hstep howner).resolve_right hi'⟩
    · exact ⟨owner,by rw [step_pcs_of_ne hstep ho,howner]⟩

section

variable (hstep : w.step (thread,action) = .ok w')

include hstep

theorem step_executed {i incarnation : ℕ}
    (hi' : w'.scheduler.executionStatus i = .executed incarnation)
    (hlt : i < w'.scheduler.validationIdx) :
    w.scheduler.executionStatus i = .executed incarnation ∨
      (w'.pcs thread).validates = some ((i,incarnation),w'.scheduler.validationWave) := by
  cases step_shifts hstep i with
  | same hsame => exact .inl (hsame.symm.trans hi')
  | finishes _ hnew hvalidates _ =>
    cases hnew.symm.trans hi'
    exact .inr (hvalidates.resolve_left (not_le.mpr hlt))
  | _ => simp_all only [reduceCtorEq]

theorem step_passes {i incarnation : ℕ} (hn : i < w.scheduler.numTxns)
    (hi : w.scheduler.executionStatus i = .executed incarnation)
    (hle : w.scheduler.validationIdx ≤ i) (hlt : i < w'.scheduler.validationIdx) :
    (w'.pcs thread).validates = some ((i,incarnation),w'.scheduler.validationWave) := by
  cases step_moves hstep with
  | steady hval _ _ _ => omega
  | assigns hs hskips =>
    rw [goto_pcs_self,hskips.validations i incarnation hle hlt hn hi]
    obtain ⟨_,_,_,-,-,rfl,-⟩ := hs
    rfl
  | suspends _ _ => exact absurd hlt (not_lt.mpr hle)
  | finishes hpc hs =>
    rw [goto_scheduler] at hlt
    obtain ⟨_,_,-,-,-,⟨-,htouched,-⟩ | ⟨-,-,-,hidx,-⟩⟩ := Scheduler.finishExecution_spec hs
    · obtain ⟨-,hidx,-⟩ | ⟨hlt',hidx,-⟩ := htouched <;> omega
    · omega
  | aborts hpc hs =>
    rw [goto_scheduler] at hlt
    obtain ⟨_,-,htouched,-⟩ := Scheduler.finishAbort_spec hs
    obtain ⟨-,hidx,-⟩ | ⟨hlt',hidx,-⟩ := htouched <;> omega

theorem step_keeps_validation {other : ℕ} {version : Version} {wave : ℕ}
    (hvalidates : (w.pcs other).validates = some (version,wave))
    (hi' : w'.scheduler.executionStatus version.1 = .executed version.2) :
    (w'.pcs other).validates = some (version,wave) ∨ ∃ wave', wave ≤ wave' ∧
      (w'.scheduler.validationStatus version.1).maybeMaxValidatedWave = some wave' := by
  by_cases ho : other = thread
  · subst ho
    cases step_acts hstep with
    | tryCommit hpc hs | check hpc | validate hpc =>
      rw [hpc] at hvalidates
      rw [goto_pcs_self]
      exact .inl hvalidates
    | abort hpc hs =>
      rw [hpc] at hvalidates
      cases hvalidates
      obtain ⟨rfl,-,rfl⟩ | ⟨rfl,-,rfl⟩ := Scheduler.tryAbort_spec hs
      · simp only [goto_scheduler,Scheduler.setStatus_executionStatus,update_self] at hi'
        cases hi'
      · rw [goto_pcs_self]
        exact .inl rfl
    | finishValidation hpc =>
      rw [hpc] at hvalidates
      cases hvalidates
      right
      simp only [goto_scheduler,Scheduler.finishValidation,
        Scheduler.setValidation_validationStatus,update_self]
      cases (w.scheduler.validationStatus version.1).maybeMaxValidatedWave with
      | none => exact ⟨wave,le_rfl,rfl⟩
      | some prev => exact ⟨max prev wave,le_max_right _ _,rfl⟩
    | _ hpc =>
      rw [hpc] at hvalidates
      cases hvalidates
  · rw [step_pcs_of_ne hstep ho]
    exact .inl hvalidates

end

theorem step_attended (h : w.Attended) (howned : w.Owned) (hwaves : w.scheduler.Waves)
    (hstep : w.step (thread,action) = .ok w') (hwaves' : w'.scheduler.Waves) : w'.Attended := by
  have horderly := step_orderly h.orderly hstep howned hwaves
  refine ⟨horderly,step_held h howned hstep,fun i incarnation hn hi' hlt => ?_⟩
  rw [step_numTxns hstep] at hn
  obtain hi | hnow := step_executed hstep hi' hlt
  · by_cases hidx : i < w.scheduler.validationIdx
    · obtain ⟨wave,hrequired,hsuff,hvalidated⟩ := h.validated i incarnation hn hi hidx
      have hfree : (w.scheduler.executionStatus i).Free := by
        rw [hi]
        trivial
      have hrequired' : (w'.scheduler.validationStatus i).requiredWave ≤ wave := by
        obtain hsame | ⟨hheld,-⟩ := step_requires hstep i
        · rwa [hsame]
        · exact absurd hheld (howned.held_ne hfree thread)
      have hsuff' : w'.scheduler.Sufficient i wave := by
        obtain hsteady | ⟨j,htouched⟩ := step_scheduler hstep
        · exact fun k hk => (hsteady.triggered k).le.trans (hsuff k hk)
        · exact hsuff.touched htouched hlt
      obtain ⟨other,hother⟩ | hmax := hvalidated
      · obtain hkept | ⟨wave',hle,hwave'⟩ := step_keeps_validation hstep hother hi'
        · exact ⟨wave,hrequired',hsuff',.inl ⟨other,hkept⟩⟩
        · exact ⟨wave',hrequired'.trans hle,hsuff'.mono hle,.inr hwave'⟩
      · obtain ⟨wave',hle,hwave'⟩ := step_validated_le hstep hmax
        exact ⟨wave',hrequired'.trans hle,hsuff'.mono hle,.inr hwave'⟩
    · have hnow := step_passes hstep hn hi (not_lt.mp hidx) hlt
      exact ⟨_,horderly.required i,fun k _ => hwaves'.triggered k,.inl ⟨thread,hnow⟩⟩
  · exact ⟨_,horderly.required i,fun k _ => hwaves'.triggered k,.inl ⟨thread,hnow⟩⟩

theorem new_attended (numTxns concurrencyLevel committer : ℕ) :
    (new numTxns concurrencyLevel committer).Attended where
  orderly := ⟨fun _ _ => rfl,fun _ _ _ _ _ => Nat.zero_le _,nofun,fun _ => le_rfl,
    ⟨0,le_rfl,le_rfl⟩,nofun⟩
  held := fun _ hi => absurd trivial hi
  validated := nofun

def Idle (w : Workers) : Prop := ∀ thread, (w.pcs thread).held = none ∧
  (w.pcs thread).notifies = none ∧ (w.pcs thread).validates = none

end Workers

namespace Scheduler

structure Committable (s : Scheduler) : Prop where
  le : s.commitIdx ≤ s.numTxns
  committed : ∀ i, i < s.commitIdx → ∃ incarnation, s.executionStatus i = .committed incarnation
  executed : ∀ i, s.commitIdx ≤ i → i < s.numTxns →
    ∃ incarnation, s.executionStatus i = .executed incarnation
  validated : ∀ i, s.commitIdx ≤ i → i < s.numTxns → ∃ wave,
    (s.validationStatus i).requiredWave ≤ wave ∧ s.Sufficient i wave ∧
      (s.validationStatus i).maybeMaxValidatedWave = some wave
  commitWave : ∃ k, k ≤ s.commitIdx ∧ s.commitWave ≤ (s.validationStatus k).maxTriggeredWave

theorem Committable.commits {s : Scheduler} (h : s.Committable) (hlt : s.commitIdx < s.numTxns) :
    ∃ incarnation wave, s.Commits s.tryCommit.1 incarnation wave := by
  obtain ⟨wave,hrequired,hsuff,hvalidated⟩ := h.validated s.commitIdx le_rfl hlt
  obtain ⟨k,hk,hle⟩ := h.commitWave
  obtain ⟨incarnation,hstatus⟩ := h.executed s.commitIdx le_rfl hlt
  have hwave := max_le (max_le (hle.trans (hsuff k hk)) (hsuff _ le_rfl)) hrequired
  have heq : s.tryCommit.2 = some s.commitIdx := by
    rw [tryCommit,if_neg hlt.ne]
    simp only [hstatus,hvalidated,ge_iff_le,if_pos hwave]
  obtain ⟨hnone,-⟩ | ⟨incarnation,wave,-,hcommits⟩ := tryCommit_spec (Prod.ext rfl heq :
    s.tryCommit = (s.tryCommit.1,some s.commitIdx))
  · cases hnone
  · exact ⟨incarnation,wave,hcommits⟩

theorem Committable.next {s : Scheduler} (h : s.Committable) : s.tryCommit.1.Committable ∧
    s.tryCommit.1.numTxns = s.numTxns ∧
    s.tryCommit.1.numTxns - s.tryCommit.1.commitIdx = s.numTxns - s.commitIdx - 1 := by
  by_cases hlt : s.commitIdx < s.numTxns
  · obtain ⟨incarnation,wave,hcommits⟩ := h.commits hlt
    rw [hcommits.eq]
    refine ⟨⟨hlt,fun i hi => ?_,fun i hle hi => ?_,fun i hle => h.validated i (Nat.le_of_succ_le hle),
      ?_⟩,rfl,by simp only [setStatus]; omega⟩
    · by_cases hic : i = s.commitIdx
      · subst hic
        exact ⟨incarnation,update_self ..⟩
      · have hlt : i < s.commitIdx := lt_of_le_of_ne (Nat.lt_succ_iff.mp hi) hic
        obtain ⟨incarnation,hstatus⟩ := h.committed i hlt
        exact ⟨incarnation,(update_of_ne hic ..).trans hstatus⟩
    · obtain ⟨incarnation,hstatus⟩ := h.executed i (Nat.le_of_succ_le hle) hi
      exact ⟨incarnation,(update_of_ne (Nat.ne_of_gt hle) ..).trans hstatus⟩
    · obtain ⟨k,hk,hwave⟩ := h.commitWave
      obtain hmax | hmax := max_choice s.commitWave
        (s.validationStatus s.commitIdx).maxTriggeredWave
      · exact ⟨k,hk.trans (Nat.le_succ _),hmax.le.trans hwave⟩
      · exact ⟨s.commitIdx,Nat.le_succ _,hmax.le⟩
  · have hall := le_antisymm h.le (not_lt.mp hlt)
    rw [tryCommit,if_pos hall]
    exact ⟨⟨h.le,h.committed,h.executed,h.validated,h.commitWave⟩,rfl,by dsimp only; omega⟩

theorem Committable.iterate {s : Scheduler} (h : s.Committable) (n : ℕ)
    (hn : s.numTxns - s.commitIdx ≤ n) (i : ℕ) (hi : i < s.numTxns) :
    ∃ incarnation, ((fun s : Scheduler => s.tryCommit.1)^[n] s).executionStatus i =
      .committed incarnation := by
  induction n generalizing s with
  | zero => exact h.committed i (by omega)
  | succ n ih =>
    obtain ⟨hnext,hnum,hleft⟩ := h.next
    rw [Function.iterate_succ_apply]
    exact ih hnext (by omega) (by omega)

end Scheduler

namespace Workers

variable {w w' : Workers}

theorem Attended.committable (h : w.Attended) (hrolling : w.scheduler.Rolling) (hidle : w.Idle)
    (hexec : w.scheduler.numTxns ≤ w.scheduler.executionIdx)
    (hval : w.scheduler.numTxns ≤ w.scheduler.validationIdx) : w.scheduler.Committable := by
  have hexecuted : ∀ i, w.scheduler.commitIdx ≤ i → i < w.scheduler.numTxns →
      ∃ incarnation, w.scheduler.executionStatus i = .executed incarnation := by
    intro i hle hi
    -- A transaction that is not free is held, and one that is ready is ahead of the index.
    have hfree : (w.scheduler.executionStatus i).Free := by
      by_contra hfree
      obtain ⟨thread,hthread⟩ := h.held i hfree
      cases (hidle thread).1.symm.trans hthread
    cases hstatus : w.scheduler.executionStatus i with
    | executed incarnation => exact ⟨incarnation,rfl⟩
    | readyToExecute n condvar =>
      have hready := h.orderly.ready i n condvar hi hstatus
      omega
    | committed n =>
      have hcommitted := h.orderly.committed i n hstatus
      omega
    | executing n | suspended n condvar | aborting n =>
      rw [hstatus] at hfree
      cases hfree
  refine ⟨hrolling.le,hrolling.committed,hexecuted,fun i hle hi => ?_,h.orderly.commitWave⟩
  obtain ⟨incarnation,hstatus⟩ := hexecuted i hle hi
  obtain ⟨wave,hrequired,hsuff,⟨thread,hthread⟩ | hmax⟩ :=
    h.validated i incarnation hi hstatus (hi.trans_le hval)
  · cases (hidle thread).2.2.symm.trans hthread
  · exact ⟨wave,hrequired,hsuff,hmax⟩

structure Running (w : Workers) : Prop where
  owned : w.Owned
  waved : w.Waved
  rolling : w.scheduler.Rolling
  attended : w.Attended

theorem running_of_reachable {numTxns concurrencyLevel committer : ℕ}
    (h : Reachable step (new numTxns concurrencyLevel committer) w) : w.Running := by
  refine h.invariant ⟨new_owned ..,new_waved ..,⟨Nat.zero_le _,nofun,nofun,nofun⟩,new_attended ..⟩ ?_
  intro t op u ht hstep
  have hwaved := step_waved ht.waved ht.owned hstep
  exact ⟨step_owned ht.owned hstep,hwaved,step_rolling ht.rolling ht.owned hstep,
    step_attended ht.attended ht.owned ht.waved.waves hstep hwaved.waves⟩

/-- A transaction that is ready is ahead of the execution index, and one that is suspended is
registered with one that is not executed yet. When no thread has a task and both indices are past
the block, as many calls of `try_commit` as there are transactions left commit all of them. -/
theorem no_work_lost {numTxns concurrencyLevel committer : ℕ}
    (h : Reachable step (new numTxns concurrencyLevel committer) w) :
    (w.Idle → w.scheduler.numTxns ≤ w.scheduler.executionIdx →
      w.scheduler.numTxns ≤ w.scheduler.validationIdx →
      ∀ n, w.scheduler.numTxns - w.scheduler.commitIdx ≤ n → ∀ i, i < w.scheduler.numTxns →
        ∃ incarnation, ((fun s : Scheduler => s.tryCommit.1)^[n] w.scheduler).executionStatus i =
          .committed incarnation) ∧
    (∀ i incarnation condvar, i < w.scheduler.numTxns →
      w.scheduler.executionStatus i = .readyToExecute incarnation condvar →
      w.scheduler.executionIdx ≤ i) ∧
    ∀ i incarnation condvar, w.scheduler.executionStatus i = .suspended incarnation condvar →
      ∃ dep, i ∈ w.scheduler.txnDependency dep ∧ ¬ (w.scheduler.executionStatus dep).Done := by
  have hrunning := running_of_reachable h
  refine ⟨fun hidle hexec hval => ?_,hrunning.attended.orderly.ready,
    hrunning.attended.orderly.registered⟩
  exact (hrunning.attended.committable hrunning.rolling hidle hexec hval).iterate

theorem exec_pcs_of_ne {ops : List (ℕ × Action)} (h : exec step w ops = .ok w') {thread : ℕ}
    (hops : ∀ op ∈ ops, thread ≠ op.1) : w'.pcs thread = w.pcs thread := by
  induction ops generalizing w with
  | nil =>
    cases h
    rfl
  | cons op ops ih =>
    obtain ⟨m,hm,h⟩ := bind_eq_ok.mp h
    rw [ih h fun o ho => hops o (List.mem_cons_of_mem _ ho)]
    exact step_pcs_of_ne hm (hops op (List.mem_cons_self ..))

def validatedBoth : List (ℕ × Action) :=
  [(1,.nextTask),(1,.start),(1,.finishExecution true),
    (1,.nextTask),(1,.start),(1,.validate true),(1,.finishValidation),
    (1,.nextTask),(1,.start),(1,.finishExecution true),
    (1,.nextTask),(1,.start),(1,.validate true),(1,.finishValidation)]

theorem no_work_lost_validatedBoth : ∃ w, Reachable step (new 2 2 0) w ∧ w.Idle ∧
    w.scheduler.commitIdx = 0 ∧ ∀ i, i < 2 →
      ∃ incarnation, w.scheduler.tryCommit.1.tryCommit.1.executionStatus i =
        .committed incarnation := by
  obtain ⟨w,hw,hpc,hcommit,hn,hexec,hval⟩ : ∃ w, exec step (new 2 2 0) validatedBoth = .ok w ∧
      w.pcs 1 = .ready false .noTask ∧ w.scheduler.commitIdx = 0 ∧ w.scheduler.numTxns = 2 ∧
      2 ≤ w.scheduler.executionIdx ∧ 2 ≤ w.scheduler.validationIdx :=
    ⟨_,rfl,rfl,rfl,rfl,le_rfl,le_rfl⟩
  have hreachable := Reachable.of_exec hw
  have hidle : w.Idle := by
    intro thread
    by_cases hthread : thread = 1
    · rw [hthread,hpc]
      exact ⟨rfl,rfl,rfl⟩
    · have hops : ∀ op ∈ validatedBoth, thread ≠ op.1 := by
        intro op hop
        have hone : ∀ op ∈ validatedBoth, op.1 = 1 := by decide
        rwa [hone op hop]
      rw [exec_pcs_of_ne hw hops]
      simp only [new]
      split
      · exact ⟨rfl,rfl,rfl⟩
      · exact ⟨rfl,rfl,rfl⟩
  refine ⟨w,hreachable,hidle,hcommit,fun i hi => ?_⟩
  exact (no_work_lost hreachable).1 hidle (hn ▸ hexec) (hn ▸ hval) 2 (by omega) i (by omega)

/-- The transaction is committed, in the hands of one thread, or executed and validated, or being
validated, in a wave that suffices for its commit. -/
def Covers (w : Workers) (i : ℕ) : Prop :=
  (∃ incarnation, w.scheduler.executionStatus i = .committed incarnation) ∨
    (∃! thread, (w.pcs thread).held = some i) ∨
    ∃ incarnation wave, w.scheduler.executionStatus i = .executed incarnation ∧
      (w.scheduler.validationStatus i).requiredWave ≤ wave ∧ w.scheduler.Sufficient i wave ∧
      ((∃ thread, (w.pcs thread).validates = some ((i,incarnation),wave)) ∨
        (w.scheduler.validationStatus i).maybeMaxValidatedWave = some wave)

/-- No thread is sent home before all transactions are committed, and none is left without a task
while there is a transaction that nobody sees to. -/
theorem nextTask_exhaustive {numTxns concurrencyLevel committer i : ℕ} {t : Scheduler}
    {task : SchedulerTask} (h : Reachable step (new numTxns concurrencyLevel committer) w)
    (hs : w.scheduler.nextTask = (t,task)) (hi : i < w.scheduler.numTxns) :
    (task = .done → ∃ incarnation, w.scheduler.executionStatus i = .committed incarnation) ∧
      (task = .noTask → w.Covers i) := by
  obtain ⟨howned,-,hrolling,hattended⟩ := running_of_reachable h
  obtain ⟨⟨_,_,_,-,-,rfl,hcreates⟩,hskips⟩ := Scheduler.nextTaskLoop_spec hs
  constructor
  · rintro rfl
    exact hrolling.committed i (hi.trans_eq (hrolling.done hcreates.1).symm)
  · rintro rfl
    obtain ⟨hexec,hval⟩ := Scheduler.nextTaskLoop_noTask (Nat.lt_succ_self _) hs
    cases hstatus : w.scheduler.executionStatus i with
    | committed incarnation => exact .inl ⟨incarnation,hstatus⟩
    | executing n | suspended n condvar | aborting n =>
      obtain ⟨thread,hheld⟩ := hattended.held i (by rw [hstatus]; exact id)
      exact .inr (.inl ⟨thread,hheld,fun other ho => howned.exclusive other thread i ho hheld⟩)
    | readyToExecute n condvar =>
      -- a ready transaction is not behind the index, and the loop would have taken it
      have hle := hattended.orderly.ready i n condvar hi hstatus
      cases hskips.executions i n condvar hle (hi.trans_le hexec) hi hstatus
    | executed incarnation =>
      have hlt : i < w.scheduler.validationIdx := by
        by_contra hle
        cases hskips.validations i incarnation (not_lt.mp hle) (hi.trans_le hval) hi hstatus
      obtain ⟨wave,hwave⟩ := hattended.validated i incarnation hi hstatus hlt
      exact .inr (.inr ⟨incarnation,wave,hstatus,hwave⟩)

theorem nextTask_exhaustive_validatedBoth : ∃ w, Reachable step (new 2 2 0) w ∧
    w.scheduler.nextTask.2 = .noTask ∧ w.Covers 1 := by
  have hw : exec step (new 2 2 0) validatedBoth = .ok _ := rfl
  exact ⟨_,.of_exec hw,rfl,(nextTask_exhaustive (.of_exec hw) rfl (show 1 < 2 by decide)).2 rfl⟩

end Workers

end Arx.BlockExecutor
