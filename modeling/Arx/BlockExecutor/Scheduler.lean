import Arx.Movelib.Abort

/-!
# The scheduler of the block executor

Every method is one atomic step. The vectors are functions of the index, the packed
`validation_idx` and the pair `commit_state` are two fields each, and an abort stands for a panic.
-/

namespace Arx.BlockExecutor
open Movelib Function

abbrev Version := ℕ × ℕ

def UNREACHABLE : Abort := .code 0

inductive SchedulerTask
  | executionTask (version : Version) (condvar : Option ℕ)
  | validationTask (version : Version) (wave : ℕ)
  | noTask
  | done
  deriving DecidableEq

namespace Scheduler

inductive ExecutionStatus
  | readyToExecute (incarnation : ℕ) (condvar : Option ℕ)
  | executing (incarnation : ℕ)
  | suspended (incarnation : ℕ) (condvar : ℕ)
  | executed (incarnation : ℕ)
  | committed (incarnation : ℕ)
  | aborting (incarnation : ℕ)
  deriving DecidableEq

structure ValidationStatus where
  maxTriggeredWave : ℕ
  requiredWave : ℕ
  maybeMaxValidatedWave : Option ℕ
  deriving DecidableEq

end Scheduler

structure Scheduler where
  numTxns : ℕ
  executionIdx : ℕ
  /-- The minimal index that requires validation. -/
  validationIdx : ℕ
  validationWave : ℕ
  /-- The next transaction to commit. -/
  commitIdx : ℕ
  /-- The lower bound on the wave of a validation of the next transaction to commit. -/
  commitWave : ℕ
  doneMarker : Bool
  txnDependency : ℕ → List ℕ
  executionStatus : ℕ → Scheduler.ExecutionStatus
  validationStatus : ℕ → Scheduler.ValidationStatus
  /-- How many condition variables there are. -/
  condvars : ℕ
  /-- The flags that the condition variables guard. -/
  resolved : ℕ → Bool

namespace Scheduler

def new (numTxns : ℕ) : Scheduler where
  numTxns := numTxns
  executionIdx := 0
  validationIdx := 0
  validationWave := 0
  commitIdx := 0
  commitWave := 0
  doneMarker := false
  txnDependency := fun _ => []
  executionStatus := fun _ => .readyToExecute 0 none
  validationStatus := fun _ => ⟨0,0,none⟩
  condvars := 0
  resolved := fun _ => false

variable (s : Scheduler)

variable (i incarnation : ℕ)

def setStatus (status : ExecutionStatus) : Scheduler :=
  { s with executionStatus := update s.executionStatus i status }

def setValidation (status : ValidationStatus) : Scheduler :=
  { s with validationStatus := update s.validationStatus i status }

def tryCommit : Scheduler × Option ℕ :=
  if s.commitIdx = s.numTxns then ({ s with doneMarker := true }, none)
  else
    let validation := s.validationStatus s.commitIdx
    match s.executionStatus s.commitIdx with
    | .executed incarnation =>
      -- The wave goes up even if the commit fails.
      let commitWave := max s.commitWave validation.maxTriggeredWave
      match validation.maybeMaxValidatedWave with
      | some validatedWave =>
        if validatedWave ≥ max commitWave validation.requiredWave then
          ({ s.setStatus s.commitIdx (.committed incarnation) with
              commitIdx := s.commitIdx + 1, commitWave }, some s.commitIdx)
        else ({ s with commitWave }, none)
      | none => ({ s with commitWave }, none)
    | _ => (s, none)

def tryAbort : Scheduler × Bool :=
  if s.executionStatus i = .executed incarnation then
    (s.setStatus i (.aborting incarnation), true)
  else (s, false)

def tryIncarnate : Scheduler × Option (ℕ × Option ℕ) :=
  if i ≥ s.numTxns then (s, none)
  else
    match s.executionStatus i with
    | .readyToExecute incarnation condvar =>
      (s.setStatus i (.executing incarnation), some (incarnation, condvar))
    | _ => (s, none)

def isExecuted (includeCommitted : Bool) : Option ℕ :=
  if i ≥ s.numTxns then none
  else
    match s.executionStatus i with
    | .executed incarnation => some incarnation
    | .committed incarnation => if includeCommitted then some incarnation else none
    | _ => none

def tryValidateNextVersion : Scheduler × Option (Version × ℕ) :=
  let idxToValidate := s.validationIdx
  let s := { s with validationIdx := idxToValidate + 1 }
  if idxToValidate ≥ s.numTxns then (s, none)
  else
    (s, (s.isExecuted idxToValidate false).map fun incarnation =>
      ((idxToValidate, incarnation), s.validationWave))

def tryExecuteNextVersion : Scheduler × Option (Version × Option ℕ) :=
  let idxToExecute := s.executionIdx
  let s := { s with executionIdx := idxToExecute + 1 }
  if idxToExecute ≥ s.numTxns then (s, none)
  else
    let (s, incarnated) := s.tryIncarnate idxToExecute
    (s, incarnated.map fun (incarnation, condvar) => ((idxToExecute, incarnation), condvar))

def nextTaskLoop : ℕ → Scheduler → Scheduler × SchedulerTask
  | 0, s => (s, .noTask)
  | fuel + 1, s =>
    if s.doneMarker then (s, .done)
    else
      let idxToValidate := s.validationIdx
      let idxToExecute := s.executionIdx
      if idxToExecute ≥ s.numTxns ∧ idxToValidate ≥ s.numTxns then (s, .noTask)
      else if idxToValidate < idxToExecute then
        match s.tryValidateNextVersion with
        | (s, some (version, wave)) => (s, .validationTask version wave)
        | (s, none) => nextTaskLoop fuel s
      else
        match s.tryExecuteNextVersion with
        | (s, some (version, condvar)) => (s, .executionTask version condvar)
        | (s, none) => nextTaskLoop fuel s

def remaining : ℕ := (s.numTxns - s.validationIdx) + (s.numTxns - s.executionIdx)

/-- `next_task`. Every round of the loop advances an index that is below the number of
transactions. -/
def nextTask : Scheduler × SchedulerTask := nextTaskLoop (s.remaining + 1) s

def suspend (condvar : ℕ) : Result Scheduler :=
  match s.executionStatus i with
  | .executing incarnation => .ok (s.setStatus i (.suspended incarnation condvar))
  | _ => .error UNREACHABLE

def resume : Result Scheduler :=
  match s.executionStatus i with
  | .suspended incarnation condvar =>
    .ok (s.setStatus i (.readyToExecute incarnation (some condvar)))
  | _ => .error UNREACHABLE

def newCondvar : Scheduler :=
  { s with condvars := s.condvars + 1, resolved := update s.resolved s.condvars false }

def waitForDependency (dep : ℕ) : Result (Scheduler × Option ℕ) :=
  let condvar := s.condvars
  let s := s.newCondvar
  if (s.isExecuted dep true).isSome then .ok (s, none)
  else do
    let s ← s.suspend i condvar
    let txnDependency := update s.txnDependency dep (s.txnDependency dep ++ [i])
    pure ({ s with txnDependency }, some condvar)

def finishValidation (wave : ℕ) : Scheduler :=
  let validation := s.validationStatus i
  s.setValidation i { validation with
    maybeMaxValidatedWave :=
      some (validation.maybeMaxValidatedWave.elim wave fun prevWave => max prevWave wave) }

def decreaseValidationIdx (target : ℕ) : Result (Scheduler × Option ℕ) :=
  if s.validationIdx > target then do
    let wave ← addChecked 32 s.validationWave 1
    pure ({ s with validationIdx := target, validationWave := wave }, some wave)
  else pure (s, none)

/-- A new wave is recorded at the transaction that triggered it. -/
def trigger (wave : Option ℕ) : Scheduler :=
  match wave with
  | some wave => s.setValidation i { s.validationStatus i with maxTriggeredWave := wave }
  | none => s

def resumeAll : List ℕ → Scheduler → Result Scheduler
  | [], s => .ok s
  | dep :: deps, s => do
    let s ← s.resume dep
    resumeAll deps s

def finishExecution (revalidateSuffix : Bool) : Result (Scheduler × SchedulerTask) := do
  let s := s.setStatus i (.executed incarnation)
  let deps := s.txnDependency i
  let s := { s with txnDependency := update s.txnDependency i [] }
  let s ← resumeAll deps s
  let s := { s with executionIdx := deps.foldl min s.executionIdx }
  if s.validationIdx > i then
    if revalidateSuffix then do
      let (s, wave) ← s.decreaseValidationIdx i
      pure (s.trigger i wave, .noTask)
    else
      pure (s.setValidation i { s.validationStatus i with requiredWave := s.validationWave },
        .validationTask (i, incarnation) s.validationWave)
  else pure (s, .noTask)

def finishAbort : Result (Scheduler × SchedulerTask) := do
  let s := s.setStatus i (.readyToExecute (incarnation + 1) none)
  let (s, wave) ← s.decreaseValidationIdx i
  let s := s.trigger i wave
  if s.executionIdx > i then
    match s.tryIncarnate i with
    | (s, some (incarnation, condvar)) =>
      pure (s, .executionTask (i, incarnation) condvar)
    | (s, none) => pure (s, .noTask)
  else pure (s, .noTask)

def notify (condvar : ℕ) : Scheduler :=
  { s with resolved := update s.resolved condvar true }

end Scheduler

end Arx.BlockExecutor
