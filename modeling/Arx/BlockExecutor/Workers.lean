import Arx.BlockExecutor.SchedulerSteps
import Arx.Movelib.Run

/-!
# The worker threads of the block executor

The loop of `work_task_with_scope`. What the virtual machine does is left open: an execution may
run into any dependency on a lower transaction, and a validation may succeed or fail.
-/

namespace Arx.BlockExecutor
open Movelib

/-- The action of a thread is not the next one in its loop. -/
def DISABLED : Abort := .code 1

inductive Pc
  /-- At the head of the loop, with a task; the inner loop of commits comes first if `committing`. -/
  | ready (committing : Bool) (task : SchedulerTask)
  | executing (version : Version)
  /-- Blocked in a read of an execution. -/
  | waiting (version : Version) (condvar : ℕ)
  | validating (version : Version) (wave : ℕ)
  /-- A validation is about to end without an abort. -/
  | finishing (version : Version) (wave : ℕ) (valid : Bool)
  /-- A validation has aborted its version. -/
  | aborting (version : Version)
  | exited
  deriving DecidableEq

structure Workers where
  scheduler : Scheduler
  pcs : ℕ → Pc
  /-- The thread that commits. -/
  committer : ℕ

inductive Action
  | tryCommit
  | nextTask
  /-- The task in hand is taken up. -/
  | start
  | waitForDependency (dep : ℕ)
  /-- The flag of the condition variable is seen. -/
  | wake
  | finishExecution (updatesOutside : Bool)
  | validate (valid : Bool)
  | finishValidation
  | finishAbort
  deriving DecidableEq

namespace Workers

variable (w : Workers)

def head (thread : ℕ) (task : SchedulerTask) : Pc := .ready (thread = w.committer) task

/-- As many threads as the concurrency level, each at the head of its loop. -/
def new (numTxns concurrencyLevel committer : ℕ) : Workers where
  scheduler := .new numTxns
  pcs := fun thread =>
    if thread < concurrencyLevel then .ready (thread = committer) .noTask else .exited
  committer := committer

def goto (thread : ℕ) (scheduler : Scheduler) (pc : Pc) : Workers :=
  { w with scheduler, pcs := Function.update w.pcs thread pc }

def step : ℕ × Action → Result Workers
  | (thread, action) =>
    match w.pcs thread, action with
    | .ready true task, .tryCommit =>
      let (scheduler, committed) := w.scheduler.tryCommit
      .ok (w.goto thread scheduler (.ready committed.isSome task))
    | .ready false .noTask, .nextTask =>
      let (scheduler, task) := w.scheduler.nextTask
      .ok (w.goto thread scheduler (w.head thread task))
    | .ready false (.executionTask version none), .start =>
      .ok (w.goto thread w.scheduler (.executing version))
    | .ready false (.executionTask _ (some condvar)), .start =>
      .ok (w.goto thread (w.scheduler.notify condvar) (w.head thread .noTask))
    | .ready false (.validationTask version wave), .start =>
      .ok (w.goto thread w.scheduler (.validating version wave))
    | .ready false .done, .start => .ok (w.goto thread w.scheduler .exited)
    | .executing version, .waitForDependency dep => do
      ensure (dep < version.1) DISABLED
      let (scheduler, waits) ← w.scheduler.waitForDependency version.1 dep
      pure (w.goto thread scheduler (waits.elim (.executing version) (.waiting version)))
    | .waiting version condvar, .wake => do
      ensure (w.scheduler.resolved condvar = true) DISABLED
      pure (w.goto thread w.scheduler (.executing version))
    | .executing version, .finishExecution updatesOutside => do
      let (scheduler, task) ← w.scheduler.finishExecution version.1 version.2 updatesOutside
      pure (w.goto thread scheduler (w.head thread task))
    | .validating version wave, .validate true =>
      .ok (w.goto thread w.scheduler (.finishing version wave true))
    | .validating version wave, .validate false =>
      let (scheduler, aborted) := w.scheduler.tryAbort version.1 version.2
      .ok (w.goto thread scheduler
        (if aborted then .aborting version else .finishing version wave false))
    | .finishing version wave _, .finishValidation =>
      .ok (w.goto thread (w.scheduler.finishValidation version.1 wave) (w.head thread .noTask))
    | .aborting version, .finishAbort => do
      let (scheduler, task) ← w.scheduler.finishAbort version.1 version.2
      pure (w.goto thread scheduler (w.head thread task))
    | _, _ => .error DISABLED

inductive Acts (w : Workers) (thread : ℕ) : Action → Workers → Prop
  | tryCommit {task : SchedulerTask} {s : Scheduler} {committed : Option ℕ}
      (hpc : w.pcs thread = .ready true task) (hs : w.scheduler.tryCommit = (s,committed)) :
      Acts w thread .tryCommit (w.goto thread s (.ready committed.isSome task))
  | nextTask {s : Scheduler} {task : SchedulerTask} (hpc : w.pcs thread = .ready false .noTask)
      (hs : w.scheduler.nextTask = (s,task)) :
      Acts w thread .nextTask (w.goto thread s (w.head thread task))
  | execute {version : Version} (hpc : w.pcs thread = .ready false (.executionTask version none)) :
      Acts w thread .start (w.goto thread w.scheduler (.executing version))
  | notify {version : Version} {condvar : ℕ}
      (hpc : w.pcs thread = .ready false (.executionTask version (some condvar))) :
      Acts w thread .start (w.goto thread (w.scheduler.notify condvar) (w.head thread .noTask))
  | check {version : Version} {wave : ℕ}
      (hpc : w.pcs thread = .ready false (.validationTask version wave)) :
      Acts w thread .start (w.goto thread w.scheduler (.validating version wave))
  | exit (hpc : w.pcs thread = .ready false .done) :
      Acts w thread .start (w.goto thread w.scheduler .exited)
  | waitForDependency {version : Version} {dep : ℕ} {s : Scheduler} {waits : Option ℕ}
      (hpc : w.pcs thread = .executing version) (hdep : dep < version.1)
      (hs : w.scheduler.waitForDependency version.1 dep = .ok (s,waits)) :
      Acts w thread (.waitForDependency dep)
        (w.goto thread s (waits.elim (.executing version) (.waiting version)))
  | wake {version : Version} {condvar : ℕ} (hpc : w.pcs thread = .waiting version condvar)
      (hresolved : w.scheduler.resolved condvar = true) :
      Acts w thread .wake (w.goto thread w.scheduler (.executing version))
  | finishExecution {version : Version} {updatesOutside : Bool} {s : Scheduler}
      {task : SchedulerTask} (hpc : w.pcs thread = .executing version)
      (hs : w.scheduler.finishExecution version.1 version.2 updatesOutside = .ok (s,task)) :
      Acts w thread (.finishExecution updatesOutside) (w.goto thread s (w.head thread task))
  | validate {version : Version} {wave : ℕ} (hpc : w.pcs thread = .validating version wave) :
      Acts w thread (.validate true) (w.goto thread w.scheduler (.finishing version wave true))
  | abort {version : Version} {wave : ℕ} {s : Scheduler} {aborted : Bool}
      (hpc : w.pcs thread = .validating version wave)
      (hs : w.scheduler.tryAbort version.1 version.2 = (s,aborted)) :
      Acts w thread (.validate false)
        (w.goto thread s (if aborted then .aborting version else .finishing version wave false))
  | finishValidation {version : Version} {wave : ℕ} {valid : Bool}
      (hpc : w.pcs thread = .finishing version wave valid) :
      Acts w thread .finishValidation
        (w.goto thread (w.scheduler.finishValidation version.1 wave) (w.head thread .noTask))
  | finishAbort {version : Version} {s : Scheduler} {task : SchedulerTask}
      (hpc : w.pcs thread = .aborting version)
      (hs : w.scheduler.finishAbort version.1 version.2 = .ok (s,task)) :
      Acts w thread .finishAbort (w.goto thread s (w.head thread task))

variable {w}

theorem step_acts {w' : Workers} {thread : ℕ} {action : Action}
    (h : w.step (thread,action) = .ok w') : w.Acts thread action w' := by
  unfold step at h
  dsimp only at h
  split at h
  · cases h
    exact .tryCommit ‹_› rfl
  · cases h
    exact .nextTask ‹_› rfl
  · cases h
    exact .execute ‹_›
  · cases h
    exact .notify ‹_›
  · cases h
    exact .check ‹_›
  · cases h
    exact .exit ‹_›
  · simp only [bind_eq_ok,ensure_eq_ok,pure_eq_ok] at h
    obtain ⟨_,hdep,⟨s,waits⟩,hs,rfl⟩ := h
    exact .waitForDependency ‹_› hdep hs
  · simp only [bind_eq_ok,ensure_eq_ok,pure_eq_ok] at h
    obtain ⟨_,hresolved,rfl⟩ := h
    exact .wake ‹_› hresolved
  · obtain ⟨⟨s,task⟩,hs,⟨⟩⟩ := bind_eq_ok.mp h
    exact .finishExecution ‹_› hs
  · cases h
    exact .validate ‹_›
  · cases h
    exact .abort ‹_› rfl
  · cases h
    exact .finishValidation ‹_›
  · obtain ⟨⟨s,task⟩,hs,⟨⟩⟩ := bind_eq_ok.mp h
    exact .finishAbort ‹_› hs
  · cases h

end Workers

end Arx.BlockExecutor
