import Arx.BlockExecutor.Scheduler

/-!
# What the methods of the scheduler change

One lemma for each method: the statuses move along the transition diagram, and a wave begins
exactly when the validation index is decreased.
-/

namespace Arx.BlockExecutor.Scheduler
open Movelib Function Option

variable {s t : Scheduler} {i incarnation wave : ℕ} {task : SchedulerTask} {condvar : Option ℕ}

@[simp] theorem setStatus_executionStatus (status : ExecutionStatus) :
    (s.setStatus i status).executionStatus = update s.executionStatus i status := rfl

@[simp] theorem setValidation_validationStatus (status : ValidationStatus) :
    (s.setValidation i status).validationStatus = update s.validationStatus i status := rfl

theorem isExecuted_eq_some {includeCommitted : Bool}
    (h : s.isExecuted i includeCommitted = some incarnation) :
    i < s.numTxns ∧ (s.executionStatus i = .executed incarnation ∨
      includeCommitted = true ∧ s.executionStatus i = .committed incarnation) := by
  rw [isExecuted] at h
  split at h
  · cases h
  · rename_i hi
    refine ⟨by omega,?_⟩
    split at h
    · cases h
      exact .inl ‹_›
    · split at h
      · cases h
        exact .inr ⟨‹_›,‹_›⟩
      · cases h
    · cases h

theorem tryIncarnate_eq_some (h : s.tryIncarnate i = (t,some (incarnation,condvar))) :
    i < s.numTxns ∧ s.executionStatus i = .readyToExecute incarnation condvar ∧
      t = s.setStatus i (.executing incarnation) := by
  rw [tryIncarnate] at h
  split at h
  · cases h
  · rename_i hi
    split at h
    · cases h
      exact ⟨by omega,‹_›,rfl⟩
    · cases h

theorem tryIncarnate_eq_none (h : s.tryIncarnate i = (t,none)) : t = s := by
  rw [tryIncarnate] at h
  split at h
  · cases h
    rfl
  · split at h
    · cases h
    · cases h
      rfl

def advance (s : Scheduler) (e v : ℕ) : Scheduler :=
  { s with executionIdx := e, validationIdx := v }

def Creates (s : Scheduler) (v : ℕ) (t : Scheduler) : SchedulerTask → Prop
  | .executionTask version condvar =>
    version.1 < s.numTxns ∧
      s.executionStatus version.1 = .readyToExecute version.2 condvar ∧
      t.executionStatus = update s.executionStatus version.1 (.executing version.2)
  | .validationTask version wave =>
    version.1 < s.numTxns ∧ version.1 < v ∧ s.executionStatus version.1 = .executed version.2 ∧
      wave = s.validationWave ∧ t.executionStatus = s.executionStatus
  | .noTask => t.executionStatus = s.executionStatus
  | .done => s.doneMarker = true ∧ t.executionStatus = s.executionStatus

theorem tryValidateNextVersion_fst :
    s.tryValidateNextVersion.1 = s.advance s.executionIdx (s.validationIdx + 1) := by
  rw [tryValidateNextVersion]
  split <;> rfl

theorem tryExecuteNextVersion_eq_none (h : s.tryExecuteNextVersion.2 = none) :
    s.tryExecuteNextVersion.1 = s.advance (s.executionIdx + 1) s.validationIdx := by
  rw [tryExecuteNextVersion] at h ⊢
  split
  · rfl
  · rename_i hlt
    simp only [if_neg hlt,map_eq_none_iff] at h
    exact tryIncarnate_eq_none (Prod.ext rfl h)

theorem tryIncarnate_of_ready (hi : i < s.numTxns)
    (hready : s.executionStatus i = .readyToExecute incarnation condvar) :
    (s.tryIncarnate i).2 = some (incarnation,condvar) := by
  rw [tryIncarnate,if_neg (by omega)]
  simp only [hready]

theorem tryExecuteNextVersion_of_ready (hi : s.executionIdx < s.numTxns)
    (hready : s.executionStatus s.executionIdx = .readyToExecute incarnation condvar) :
    s.tryExecuteNextVersion.2 = some ((s.executionIdx,incarnation),condvar) := by
  rw [tryExecuteNextVersion]
  simp only [if_neg (not_le.mpr hi)]
  exact congrArg (Option.map fun incarnated : ℕ × Option ℕ =>
    ((s.executionIdx,incarnated.1),incarnated.2))
    (tryIncarnate_of_ready (s := { s with executionIdx := s.executionIdx + 1 }) hi hready)

theorem tryValidateNextVersion_of_executed (hi : s.validationIdx < s.numTxns)
    (hexecuted : s.executionStatus s.validationIdx = .executed incarnation) :
    s.tryValidateNextVersion.2 = some ((s.validationIdx,incarnation),s.validationWave) := by
  rw [tryValidateNextVersion]
  simp only [if_neg (not_le.mpr hi),isExecuted,hexecuted]
  rfl

def Assigns (s t : Scheduler) (task : SchedulerTask) : Prop :=
  ∃ e v status, s.executionIdx ≤ e ∧ s.validationIdx ≤ v ∧
    t = { s.advance e v with executionStatus := status } ∧ s.Creates v t task

/-- The transactions that the two indices pass over need no task, apart from the one created. -/
structure Skips (s t : Scheduler) (task : SchedulerTask) : Prop where
  executions : ∀ i incarnation condvar, s.executionIdx ≤ i → i < t.executionIdx → i < s.numTxns →
    s.executionStatus i = .readyToExecute incarnation condvar →
    task = .executionTask (i,incarnation) condvar
  validations : ∀ i incarnation, s.validationIdx ≤ i → i < t.validationIdx → i < s.numTxns →
    s.executionStatus i = .executed incarnation →
    task = .validationTask (i,incarnation) s.validationWave

theorem tryValidateNextVersion_some {version : Version}
    (h : s.tryValidateNextVersion = (t,some (version,wave))) :
    s.Assigns t (.validationTask version wave) ∧ s.Skips t (.validationTask version wave) := by
  obtain rfl : t = s.advance s.executionIdx (s.validationIdx + 1) := by
    rw [← tryValidateNextVersion_fst,h]
  refine ⟨⟨_,_,_,le_rfl,Nat.le_succ _,rfl,?_⟩,
    fun _ _ _ hle hlt => absurd hlt (not_lt.mpr hle),fun i inc hle hlt hi hexecuted => ?_⟩
  · rw [tryValidateNextVersion] at h
    split at h
    · cases congrArg Prod.snd h
    · obtain ⟨incarnation,hexecuted,heq⟩ := map_eq_some_iff.mp (congrArg Prod.snd h)
      cases heq
      obtain ⟨hi,hstatus | ⟨hfalse,-⟩⟩ := isExecuted_eq_some hexecuted
      · exact ⟨hi,Nat.lt_succ_self _,hstatus,rfl,rfl⟩
      · cases hfalse
  · obtain rfl : i = s.validationIdx := le_antisymm (Nat.lt_succ_iff.mp hlt) hle
    have hsome := tryValidateNextVersion_of_executed hi hexecuted
    rw [h] at hsome
    cases hsome
    rfl

theorem tryExecuteNextVersion_some {version : Version}
    (h : s.tryExecuteNextVersion = (t,some (version,condvar))) :
    s.Assigns t (.executionTask version condvar) ∧ s.Skips t (.executionTask version condvar) := by
  obtain ⟨rfl,hi,hready⟩ : t = (s.advance (s.executionIdx + 1) s.validationIdx).setStatus version.1
      (.executing version.2) ∧ version.1 < s.numTxns ∧
      s.executionStatus version.1 = .readyToExecute version.2 condvar := by
    have hsnd := congrArg Prod.snd h
    obtain rfl := congrArg Prod.fst h
    rw [tryExecuteNextVersion] at hsnd ⊢
    split at hsnd
    · cases hsnd
    · rename_i hlt
      obtain ⟨⟨incarnation,condvar'⟩,hincarnated,heq⟩ := map_eq_some_iff.mp hsnd
      cases heq
      obtain ⟨hi,hstatus,ht⟩ := tryIncarnate_eq_some (Prod.ext rfl hincarnated)
      rw [if_neg hlt]
      exact ⟨ht,hi,hstatus⟩
  refine ⟨⟨_,_,_,Nat.le_succ _,le_rfl,rfl,hi,hready,rfl⟩,fun i inc condvar hle hlt hi hready => ?_,
    fun _ _ hle hlt => absurd hlt (not_lt.mpr hle)⟩
  obtain rfl : i = s.executionIdx := le_antisymm (Nat.lt_succ_iff.mp hlt) hle
  have hsome := tryExecuteNextVersion_of_ready hi hready
  rw [h] at hsome
  cases hsome
  rfl

theorem Skips.refl (s : Scheduler) (task : SchedulerTask) : s.Skips s task :=
  ⟨fun _ _ _ hle hlt => by omega,fun _ _ hle hlt => by omega⟩

theorem Assigns.of_advance {e v : ℕ} (he : s.executionIdx ≤ e) (hv : s.validationIdx ≤ v)
    (h : (s.advance e v).Assigns t task) : s.Assigns t task := by
  obtain ⟨e',v',status,he',hv',ht,htask⟩ := h
  refine ⟨e',v',status,he.trans he',hv.trans hv',ht,?_⟩
  cases task <;> exact htask

theorem nextTaskLoop_spec {fuel : ℕ} (h : nextTaskLoop fuel s = (t,task)) :
    s.Assigns t task ∧ s.Skips t task := by
  induction fuel generalizing s with
  | zero =>
    cases h
    exact ⟨⟨_,_,_,le_rfl,le_rfl,rfl,rfl⟩,.refl ..⟩
  | succ fuel ih =>
    rw [nextTaskLoop] at h
    split at h
    · rename_i hdone
      cases h
      exact ⟨⟨_,_,_,le_rfl,le_rfl,rfl,hdone,rfl⟩,.refl ..⟩
    · dsimp only at h
      split at h
      · cases h
        exact ⟨⟨_,_,_,le_rfl,le_rfl,rfl,rfl⟩,.refl ..⟩
      · split at h
        · split at h
          · cases h
            exact tryValidateNextVersion_some ‹_›
          · rename_i heq
            have ht := tryValidateNextVersion_fst (s := s)
            rw [heq] at ht
            subst ht
            obtain ⟨hassigns,hexec,hval⟩ := ih h
            refine ⟨hassigns.of_advance le_rfl (Nat.le_succ _),hexec,
              fun i inc hle hlt hi hexecuted => ?_⟩
            obtain hle | rfl := Nat.lt_or_eq_of_le hle
            · exact hval i inc hle hlt hi hexecuted
            · have hsome := tryValidateNextVersion_of_executed hi hexecuted
              rw [heq] at hsome
              cases hsome
        · split at h
          · cases h
            exact tryExecuteNextVersion_some ‹_›
          · rename_i heq
            have ht := tryExecuteNextVersion_eq_none (congrArg Prod.snd heq)
            rw [heq] at ht
            subst ht
            obtain ⟨hassigns,hexec,hval⟩ := ih h
            refine ⟨hassigns.of_advance (Nat.le_succ _) le_rfl,
              fun i inc condvar hle hlt hi hready => ?_,hval⟩
            obtain hle | rfl := Nat.lt_or_eq_of_le hle
            · exact hexec i inc condvar hle hlt hi hready
            · have hsome := tryExecuteNextVersion_of_ready hi hready
              rw [heq] at hsome
              cases hsome

theorem nextTask_assigns (h : s.nextTask = (t,task)) : s.Assigns t task := (nextTaskLoop_spec h).1

theorem tryExecuteNextVersion_remaining (h : s.tryExecuteNextVersion.2 = none)
    (hlt : s.executionIdx < s.numTxns) :
    s.tryExecuteNextVersion.1.remaining < s.remaining := by
  rw [tryExecuteNextVersion_eq_none h]
  simp only [remaining,advance]
  omega

theorem tryValidateNextVersion_remaining (hlt : s.validationIdx < s.numTxns) :
    s.tryValidateNextVersion.1.remaining < s.remaining := by
  rw [tryValidateNextVersion_fst]
  simp only [remaining,advance]
  omega

/-- The loop of `next_task` does not run out of its bound: without a task, both indices are past the
block. -/
theorem nextTaskLoop_noTask {fuel : ℕ} (hfuel : s.remaining < fuel)
    (h : nextTaskLoop fuel s = (t,.noTask)) :
    t.numTxns ≤ t.executionIdx ∧ t.numTxns ≤ t.validationIdx := by
  induction fuel generalizing s with
  | zero => omega
  | succ fuel ih =>
    rw [nextTaskLoop] at h
    split at h
    · cases h
    · dsimp only at h
      split at h
      · rename_i hpast
        cases h
        exact hpast
      · split at h
        · have hless := tryValidateNextVersion_remaining (s := s) (by omega)
          split at h
          · cases h
          · rename_i heq
            rw [heq] at hless
            exact ih (by dsimp only at hless; omega) h
        · split at h
          · cases h
          · rename_i heq
            have hless := tryExecuteNextVersion_remaining (congrArg Prod.snd heq) (by omega)
            rw [heq] at hless
            exact ih (by dsimp only at hless; omega) h

structure Commits (s t : Scheduler) (incarnation validatedWave : ℕ) : Prop where
  lt : s.commitIdx ≠ s.numTxns
  executed : s.executionStatus s.commitIdx = .executed incarnation
  validated : (s.validationStatus s.commitIdx).maybeMaxValidatedWave = some validatedWave
  wave_le : t.commitWave ≤ validatedWave
  eq : t = { s.setStatus s.commitIdx (.committed incarnation) with
    commitIdx := s.commitIdx + 1
    commitWave := max s.commitWave (s.validationStatus s.commitIdx).maxTriggeredWave }

theorem tryCommit_spec {committed : Option ℕ} (h : s.tryCommit = (t,committed)) :
    committed = none ∧ (∃ wave done, s.commitWave ≤ wave ∧
        wave ≤ max s.commitWave (s.validationStatus s.commitIdx).maxTriggeredWave ∧
        (done = true → s.doneMarker = true ∨ s.commitIdx = s.numTxns) ∧
        t = { s with commitWave := wave, doneMarker := done }) ∨
      ∃ incarnation validatedWave, committed = some s.commitIdx ∧
        s.Commits t incarnation validatedWave := by
  rw [tryCommit] at h
  split at h
  · rename_i hall
    cases h
    exact .inl ⟨rfl,_,_,le_rfl,le_max_left _ _,fun _ => .inr hall,rfl⟩
  · rename_i hlt
    dsimp only at h
    split at h
    · rename_i hexecuted
      split at h
      · rename_i hvalidated
        split at h
        · rename_i hwave
          cases h
          exact .inr ⟨_,_,rfl,hlt,hexecuted,hvalidated,(le_max_left _ _).trans hwave,rfl⟩
        · cases h
          exact .inl ⟨rfl,_,_,le_max_left _ _,le_rfl,.inl,rfl⟩
      · cases h
        exact .inl ⟨rfl,_,_,le_max_left _ _,le_rfl,.inl,rfl⟩
    · cases h
      exact .inl ⟨rfl,_,_,le_rfl,le_max_left _ _,.inl,rfl⟩

theorem tryAbort_spec {aborted : Bool} (h : s.tryAbort i incarnation = (t,aborted)) :
    aborted = true ∧ s.executionStatus i = .executed incarnation ∧
        t = s.setStatus i (.aborting incarnation) ∨
      aborted = false ∧ s.executionStatus i ≠ .executed incarnation ∧ t = s := by
  rw [tryAbort] at h
  split at h
  · cases h
    exact .inl ⟨rfl,‹_›,rfl⟩
  · cases h
    exact .inr ⟨rfl,‹_›,rfl⟩

theorem waitForDependency_spec {dep : ℕ} {waits : Option ℕ}
    (h : s.waitForDependency i dep = .ok (t,waits)) :
    waits = none ∧ t = s.newCondvar ∨
      ∃ incarnation, waits = some s.condvars ∧ s.executionStatus i = .executing incarnation ∧
        s.isExecuted dep true = none ∧ t = { s.newCondvar.setStatus i (.suspended incarnation s.condvars) with
          txnDependency := update s.txnDependency dep (s.txnDependency dep ++ [i]) } := by
  rw [waitForDependency] at h
  split at h
  · cases h
    exact .inl ⟨rfl,rfl⟩
  · simp only [bind_eq_ok,pure_eq_ok,suspend] at h
    obtain ⟨m,hm,h⟩ := h
    split at hm
    · cases hm
      cases h
      exact .inr ⟨_,rfl,‹_›,not_isSome_iff_eq_none.mp ‹_›,rfl⟩
    · cases hm

def Resumes (status status' : ExecutionStatus) : Prop :=
  status' = status ∨ ∃ incarnation condvar,
    status = .suspended incarnation condvar ∧ status' = .readyToExecute incarnation (some condvar)

theorem resume_eq_ok (h : s.resume i = .ok t) : ∃ incarnation condvar,
    s.executionStatus i = .suspended incarnation condvar ∧
      t = s.setStatus i (.readyToExecute incarnation (some condvar)) := by
  rw [resume] at h
  split at h
  · cases h
    exact ⟨_,_,‹_›,rfl⟩
  · cases h

theorem resumeAll_resumed {deps : List ℕ} (h : resumeAll deps s = .ok t) :
    ∃ status, t = { s with executionStatus := status } ∧
      ∀ i, Resumes (s.executionStatus i) (status i) ∧
        (i ∈ deps → status i ≠ s.executionStatus i) ∧
        (status i ≠ s.executionStatus i → i ∈ deps) := by
  induction deps generalizing s with
  | nil =>
    cases h
    exact ⟨_,rfl,fun _ => ⟨.inl rfl,nofun,fun hne => absurd rfl hne⟩⟩
  | cons dep deps ih =>
    obtain ⟨m,hm,h⟩ := bind_eq_ok.mp h
    obtain ⟨incarnation,condvar,hdep,rfl⟩ := resume_eq_ok hm
    obtain ⟨status,rfl,hresumed⟩ := ih h
    refine ⟨status,rfl,fun i => ?_⟩
    obtain ⟨hi,hin,hout⟩ := hresumed i
    by_cases hid : i = dep
    · subst hid
      simp only [Resumes,setStatus_executionStatus,update_self,reduceCtorEq,false_and,
        exists_false,or_false] at hi
      rw [hi,hdep]
      exact ⟨.inr ⟨_,_,rfl,rfl⟩,fun _ => nofun,fun _ => List.mem_cons_self⟩
    · simp only [setStatus_executionStatus,update_of_ne hid] at hi hin hout
      exact ⟨hi,fun hmem => hin ((List.mem_cons.mp hmem).resolve_left hid),
        fun hne => List.mem_cons_of_mem _ (hout hne)⟩

/-- The validation index is decreased to `i` if it was above, and this begins a wave. -/
def Touched (i : ℕ) (s t : Scheduler) : Prop :=
  s.validationIdx ≤ i ∧ t.validationIdx = s.validationIdx ∧
      t.validationWave = s.validationWave ∧ t.validationStatus = s.validationStatus ∨
    i < s.validationIdx ∧ t.validationIdx = i ∧ t.validationWave = s.validationWave + 1 ∧
      t.validationStatus = update s.validationStatus i
        { s.validationStatus i with maxTriggeredWave := s.validationWave + 1 }

def withWaves (s t : Scheduler) : Scheduler :=
  { s with
    validationIdx := t.validationIdx
    validationWave := t.validationWave
    validationStatus := t.validationStatus }

theorem decrease_trigger {m : Scheduler} {w : Option ℕ} (h : s.decreaseValidationIdx i = .ok (m,w)) :
    m.trigger i w = s.withWaves (m.trigger i w) ∧ Touched i s (m.trigger i w) := by
  rw [decreaseValidationIdx] at h
  split at h
  · rename_i hlt
    simp only [bind_eq_ok,addChecked_eq_ok,pure_eq_ok] at h
    obtain ⟨_,⟨-,rfl⟩,h⟩ := h
    cases h
    exact ⟨rfl,.inr ⟨hlt,rfl,rfl,rfl⟩⟩
  · rename_i hle
    cases h
    exact ⟨rfl,.inl ⟨not_lt.mp hle,rfl,rfl,rfl⟩⟩

def Finished (i incarnation : ℕ) (revalidateSuffix : Bool) (s t : Scheduler) (task : SchedulerTask) :
    Prop :=
  task = .noTask ∧ Touched i s t ∧ (revalidateSuffix = false → s.validationIdx ≤ i) ∨
    task = .validationTask (i,incarnation) s.validationWave ∧ revalidateSuffix = false ∧
      i < s.validationIdx ∧ t.validationIdx = s.validationIdx ∧
      t.validationWave = s.validationWave ∧
      t.validationStatus = update s.validationStatus i
        { s.validationStatus i with requiredWave := s.validationWave }

theorem foldl_min_le (deps : List ℕ) (e : ℕ) :
    deps.foldl min e ≤ e ∧ ∀ i ∈ deps, deps.foldl min e ≤ i := by
  induction deps generalizing e with
  | nil => exact ⟨le_rfl,nofun⟩
  | cons dep deps ih =>
    obtain ⟨hle,hmem⟩ := ih (min e dep)
    refine ⟨hle.trans (min_le_left _ _),fun i hi => ?_⟩
    obtain rfl | hi := List.mem_cons.mp hi
    · exact hle.trans (min_le_right _ _)
    · exact hmem i hi

theorem finishExecution_spec {revalidateSuffix : Bool}
    (h : s.finishExecution i incarnation revalidateSuffix = .ok (t,task)) :
    ∃ e status, t = { s.withWaves t with
          executionIdx := e
          executionStatus := status
          txnDependency := update s.txnDependency i [] } ∧ e ≤ s.executionIdx ∧
      (∀ j, Resumes (update s.executionStatus i (.executed incarnation) j) (status j) ∧
        (j ∈ s.txnDependency i →
          status j ≠ update s.executionStatus i (.executed incarnation) j) ∧
        (status j ≠ update s.executionStatus i (.executed incarnation) j → e ≤ j)) ∧
      Finished i incarnation revalidateSuffix s t task := by
  obtain ⟨m,hm,h⟩ := bind_eq_ok.mp h
  obtain ⟨status,rfl,hresumed⟩ := resumeAll_resumed hm
  obtain ⟨hle,hmin⟩ := foldl_min_le (s.txnDependency i) s.executionIdx
  have hresumed : ∀ j, _ ∧ _ ∧ (_ → (s.txnDependency i).foldl min s.executionIdx ≤ j) :=
    fun j => ⟨(hresumed j).1,(hresumed j).2.1,fun hne => hmin j ((hresumed j).2.2 hne)⟩
  dsimp only at h
  split at h
  · rename_i hlt
    split at h
    · rename_i hrevalidate
      simp only [bind_eq_ok,pure_eq_ok,Prod.mk.injEq] at h
      obtain ⟨⟨m,w⟩,hd,rfl,rfl⟩ := h
      obtain ⟨ht,htouched⟩ := decrease_trigger hd
      exact ⟨_,status,ht,hle,hresumed,
        .inl ⟨rfl,htouched,fun hf => by simp [hf] at hrevalidate⟩⟩
    · rename_i hrevalidate
      cases h
      exact ⟨_,status,rfl,hle,hresumed,
        .inr ⟨rfl,by simpa using hrevalidate,hlt,rfl,rfl,rfl⟩⟩
  · rename_i hlt
    cases h
    exact ⟨_,status,rfl,hle,hresumed,
      .inl ⟨rfl,.inl ⟨not_lt.mp hlt,rfl,rfl,rfl⟩,fun _ => not_lt.mp hlt⟩⟩

theorem finishAbort_spec (h : s.finishAbort i incarnation = .ok (t,task)) :
    ∃ status, t = { s.withWaves t with executionStatus := status } ∧ Touched i s t ∧
      (task = .noTask ∧ (i < s.numTxns → s.executionIdx ≤ i) ∧
          status = update s.executionStatus i (.readyToExecute (incarnation + 1) none) ∨
        task = .executionTask (i,incarnation + 1) none ∧ i < s.numTxns ∧
          status = update s.executionStatus i (.executing (incarnation + 1))) := by
  obtain ⟨⟨m,w⟩,hd,h⟩ := bind_eq_ok.mp h
  obtain ⟨hm,htouched⟩ := decrease_trigger hd
  dsimp only at h
  generalize m.trigger i w = u at hm htouched h
  have hstatus : u.executionStatus i = .readyToExecute (incarnation + 1) none := by
    rw [hm]
    exact update_self ..
  obtain ⟨hn,hidx⟩ : u.numTxns = s.numTxns ∧ u.executionIdx = s.executionIdx := by
    rw [hm]
    exact ⟨rfl,rfl⟩
  split at h
  · split at h
    · rename_i hinc
      cases h
      obtain ⟨hi,hready,rfl⟩ := tryIncarnate_eq_some hinc
      cases hstatus.symm.trans hready
      refine ⟨update (update s.executionStatus i
        (.readyToExecute (incarnation + 1) none)) i (.executing (incarnation + 1)),?_,htouched,
        .inr ⟨rfl,hn ▸ hi,update_idem ..⟩⟩
      exact congrArg (fun m : Scheduler => m.setStatus i (.executing (incarnation + 1))) hm
    · rename_i hinc
      cases h
      refine ⟨_,tryIncarnate_eq_none hinc ▸ hm,tryIncarnate_eq_none hinc ▸ htouched,
        .inl ⟨rfl,fun hi => ?_,rfl⟩⟩
      have hsome := tryIncarnate_of_ready (hn ▸ hi) hstatus
      rw [hinc] at hsome
      cases hsome
  · cases h
    exact ⟨_,hm,htouched,.inl ⟨rfl,fun _ => by omega,rfl⟩⟩

theorem finishAbort_of_ne {j : ℕ} (h : s.finishAbort i incarnation = .ok (t,task)) (hj : j ≠ i) :
    t.executionStatus j = s.executionStatus j := by
  obtain ⟨status,ht,-,⟨-,-,rfl⟩ | ⟨-,-,rfl⟩⟩ := finishAbort_spec h
  · rw [ht]
    exact update_of_ne hj ..
  · rw [ht]
    exact update_of_ne hj ..

theorem Assigns.status (h : s.Assigns t task) (i : ℕ) :
    t.executionStatus i = s.executionStatus i ∨ ∃ incarnation condvar,
      task = .executionTask (i,incarnation) condvar ∧ i < s.numTxns ∧
      s.executionStatus i = .readyToExecute incarnation condvar ∧
      t.executionStatus i = .executing incarnation := by
  obtain ⟨_,_,status,-,-,rfl,htask⟩ := h
  cases task with
  | noTask => exact .inl (congrFun htask i)
  | done => exact .inl (congrFun htask.2 i)
  | validationTask version wave => exact .inl (congrFun htask.2.2.2.2 i)
  | executionTask version condvar =>
    obtain ⟨hlt,hready,hstatus⟩ := htask
    rw [hstatus]
    by_cases hi : i = version.1
    · subst hi
      exact .inr ⟨version.2,condvar,rfl,hlt,hready,update_self ..⟩
    · exact .inl (update_of_ne hi ..)

end Arx.BlockExecutor.Scheduler
