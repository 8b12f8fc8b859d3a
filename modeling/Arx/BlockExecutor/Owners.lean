import Arx.BlockExecutor.Workers

/-!
# Each incarnation has one owner

A transaction that is being executed or aborted, or whose execution is suspended, belongs to one
thread.
-/

namespace Arx.BlockExecutor
open Movelib Function Option

def Scheduler.ExecutionStatus.Free : Scheduler.ExecutionStatus → Prop
  | .readyToExecute _ none | .executed _ | .committed _ => True
  | _ => False

/-- What may happen to a transaction that waits for a dependency. -/
inductive Scheduler.ExecutionStatus.Carries : Scheduler.ExecutionStatus →
    Scheduler.ExecutionStatus → Prop
  | same {a b : Scheduler.ExecutionStatus} (h : b = a) : Carries a b
  | resume {incarnation condvar : ℕ} {b : Scheduler.ExecutionStatus}
      (h : b = .readyToExecute incarnation (some condvar)) :
      Carries (.suspended incarnation condvar) b
  | incarnate {incarnation condvar : ℕ} {b : Scheduler.ExecutionStatus}
      (h : b = .executing incarnation) :
      Carries (.readyToExecute incarnation (some condvar)) b

namespace Scheduler.ExecutionStatus

variable {a b : Scheduler.ExecutionStatus} {incarnation : ℕ}

theorem Carries.executing (h : Carries a b) (ha : a = .executing incarnation) :
    b = .executing incarnation := by
  subst ha
  cases h with
  | same h => exact h

theorem Carries.aborting (h : Carries a b) (ha : a = .aborting incarnation) :
    b = .aborting incarnation := by
  subst ha
  cases h with
  | same h => exact h

def Waits (a : Scheduler.ExecutionStatus) (incarnation condvar : ℕ) : Prop :=
  a = .suspended incarnation condvar ∨ a = .readyToExecute incarnation (some condvar)

theorem waits_of_resumes {condvar : ℕ} (h : Resumes a b) (hb : b.Waits incarnation condvar) :
    a.Waits incarnation condvar := by
  obtain rfl | ⟨_,_,rfl,rfl⟩ := h
  · exact hb
  · obtain hb | hb := hb
    · cases hb
    · cases hb
      exact .inl rfl

theorem Carries.of_resumes (h : Resumes a b) : Carries a b := by
  obtain h | ⟨incarnation,condvar,rfl,h⟩ := h
  · exact .same h
  · exact .resume h

end Scheduler.ExecutionStatus

namespace SchedulerTask

def held : SchedulerTask → Option ℕ
  | .executionTask version none => some version.1
  | _ => none

def notifies : SchedulerTask → Option ℕ
  | .executionTask _ (some condvar) => some condvar
  | _ => none

theorem eq_of_held {task : SchedulerTask} {i : ℕ} (h : task.held = some i) :
    ∃ version : Version, version.1 = i ∧ task = .executionTask version none := by
  unfold held at h
  split at h
  · cases h
    exact ⟨_,rfl,rfl⟩
  · cases h

end SchedulerTask

namespace Pc

def held : Pc → Option ℕ
  | .ready _ task => task.held
  | .executing version => some version.1
  | .waiting version _ => some version.1
  | .aborting version => some version.1
  | _ => none

def notifies : Pc → Option ℕ
  | .ready _ task => task.notifies
  | _ => none

def awaits : Pc → Option ℕ
  | .waiting _ condvar => some condvar
  | _ => none

/-- The scheduler knows what a thread does with the transaction it holds. -/
def Backed (s : Scheduler) : Pc → Prop
  | .ready _ task => ∀ version, task = .executionTask version none →
      s.executionStatus version.1 = .executing version.2
  | .executing version => s.executionStatus version.1 = .executing version.2
  | .waiting version condvar => s.executionStatus version.1 = .executing version.2 ∨
      (s.executionStatus version.1 = .suspended version.2 condvar ∨
        s.executionStatus version.1 = .readyToExecute version.2 (some condvar)) ∧
      s.resolved condvar = false
  | .aborting version => s.executionStatus version.1 = .aborting version.2
  | _ => True

variable {s t : Scheduler} {pc : Pc} {i : ℕ}

theorem Backed.not_free (h : pc.Backed s) (hi : pc.held = some i) :
    ¬ (s.executionStatus i).Free := by
  cases pc with
  | ready committing task =>
    obtain ⟨version,rfl,htask⟩ := SchedulerTask.eq_of_held hi
    rw [h version htask]
    exact id
  | executing version | aborting version =>
    cases hi
    rw [show s.executionStatus _ = _ from h]
    exact id
  | waiting version condvar =>
    cases hi
    obtain hexec | ⟨hsusp | hready,-⟩ := h
    · rw [hexec]
      exact id
    · rw [hsusp]
      exact id
    · rw [hready]
      exact id
  | validating version wave => cases hi
  | finishing version wave valid => cases hi
  | exited => cases hi

theorem Backed.of_carries (h : pc.Backed s)
    (hstatus : ∀ i, pc.held = some i → (s.executionStatus i).Carries (t.executionStatus i))
    (hresolved : ∀ version condvar, pc = .waiting version condvar →
      t.resolved condvar = s.resolved condvar ∨
        s.executionStatus version.1 = .executing version.2) :
    pc.Backed t := by
  cases pc with
  | ready committing task =>
    rintro version rfl
    exact (hstatus _ rfl).executing (h version rfl)
  | executing version => exact Scheduler.ExecutionStatus.Carries.executing (hstatus _ rfl) h
  | waiting version condvar =>
    have hcarries := hstatus _ rfl
    obtain hflag | hexec := hresolved _ _ rfl
    · obtain hexec | ⟨hsusp | hready,hfalse⟩ := h
      · exact .inl (hcarries.executing hexec)
      · rw [hsusp] at hcarries
        cases hcarries with
        | same heq => exact .inr ⟨.inl heq,hflag.trans hfalse⟩
        | resume heq => exact .inr ⟨.inr heq,hflag.trans hfalse⟩
      · rw [hready] at hcarries
        cases hcarries with
        | same heq => exact .inr ⟨.inr heq,hflag.trans hfalse⟩
        | incarnate heq => exact .inl heq
    · exact .inl (hcarries.executing hexec)
  | aborting version => exact Scheduler.ExecutionStatus.Carries.aborting (hstatus _ rfl) h
  | validating version wave => trivial
  | finishing version wave valid => trivial
  | exited => trivial
end Pc

structure Workers.Owned (w : Workers) : Prop where
  backed : ∀ thread, (w.pcs thread).Backed w.scheduler
  exclusive : Exclusive fun thread => (w.pcs thread).held
  /-- The execution of a suspended transaction is waiting for it. -/
  awaited : ∀ i incarnation condvar,
    w.scheduler.executionStatus i = .suspended incarnation condvar ∨
      w.scheduler.executionStatus i = .readyToExecute incarnation (some condvar) →
    ∃ thread, w.pcs thread = .waiting (i,incarnation) condvar
  /-- Only the execution of a transaction that is incarnated again gets a notification. -/
  notified : ∀ thread condvar, (w.pcs thread).notifies = some condvar →
    ∀ thread' version, w.pcs thread' = .waiting version condvar →
      w.scheduler.executionStatus version.1 = .executing version.2
  waiters : Exclusive fun thread => (w.pcs thread).awaits
  created : ∀ thread condvar,
    (w.pcs thread).awaits = some condvar ∨ (w.pcs thread).notifies = some condvar →
    condvar < w.scheduler.condvars

namespace Workers

variable {w w' : Workers} {thread : ℕ} {s : Scheduler} {pc : Pc} {task : SchedulerTask}
  {version : Version}

@[simp] theorem goto_scheduler : (w.goto thread s pc).scheduler = s := rfl

@[simp] theorem goto_pcs_self : (w.goto thread s pc).pcs thread = pc := update_self ..

theorem goto_pcs_of_ne {other : ℕ} (h : other ≠ thread) :
    (w.goto thread s pc).pcs other = w.pcs other := update_of_ne h ..

theorem goto_comp {β : Type} (f : Pc → β) :
    (fun other => f ((w.goto thread s pc).pcs other)) =
      update (fun other => f (w.pcs other)) thread (f pc) := by
  funext other
  by_cases h : other = thread
  · rw [h,goto_pcs_self,update_self]
  · rw [goto_pcs_of_ne h,update_of_ne h]

/-- One thread moves on. The scheduler may resume the transactions of the other threads. -/
theorem Owned.goto (h : w.Owned)
    (hstatus : ∀ other, other ≠ thread → ∀ i, (w.pcs other).held = some i →
      (w.scheduler.executionStatus i).Carries (s.executionStatus i))
    (hresolved : ∀ other, other ≠ thread → ∀ version condvar,
      w.pcs other = .waiting version condvar →
      s.resolved condvar = w.scheduler.resolved condvar ∨
        w.scheduler.executionStatus version.1 = .executing version.2)
    (hcondvars : w.scheduler.condvars ≤ s.condvars)
    (hawaited : ∀ i incarnation condvar, (s.executionStatus i).Waits incarnation condvar →
      pc = .waiting (i,incarnation) condvar ∨
        ∃ other, other ≠ thread ∧ w.pcs other = .waiting (i,incarnation) condvar)
    (hbacked : pc.Backed s)
    (hheld : ∀ i, pc.held = some i → ∀ other, other ≠ thread → (w.pcs other).held ≠ some i)
    (hnotified : ∀ condvar, pc.notifies = some condvar → condvar < s.condvars ∧
      ∀ other, other ≠ thread → ∀ version, w.pcs other = .waiting version condvar →
        s.executionStatus version.1 = .executing version.2)
    (hawaits : ∀ condvar, pc.awaits = some condvar → condvar < s.condvars ∧
      ∀ other, other ≠ thread →
        (w.pcs other).awaits ≠ some condvar ∧ (w.pcs other).notifies ≠ some condvar) :
    (w.goto thread s pc).Owned where
  backed := by
    intro other
    by_cases ho : other = thread
    · rw [ho,goto_pcs_self]
      exact hbacked
    · rw [goto_pcs_of_ne ho]
      exact (h.backed other).of_carries (hstatus other ho) (hresolved other ho)
  exclusive := by
    rw [goto_comp Pc.held]
    exact h.exclusive.update thread _ hheld
  awaited := by
    intro i incarnation condvar hi
    obtain hpc | ⟨other,ho,hpc⟩ := hawaited i incarnation condvar hi
    · exact ⟨thread,by rw [goto_pcs_self,hpc]⟩
    · exact ⟨other,by rw [goto_pcs_of_ne ho,hpc]⟩
  notified := by
    intro a condvar ha b version hb
    by_cases hbt : b = thread
    · -- The condition variable of a new waiter is new.
      subst hbt
      rw [goto_pcs_self] at hb
      subst hb
      by_cases hat : a = b
      · subst hat
        rw [goto_pcs_self] at ha
        cases ha
      · rw [goto_pcs_of_ne hat] at ha
        exact absurd ha ((hawaits condvar rfl).2 a hat).2
    · rw [goto_pcs_of_ne hbt] at hb
      by_cases hat : a = thread
      · subst hat
        rw [goto_pcs_self] at ha
        exact (hnotified condvar ha).2 b hbt version hb
      · rw [goto_pcs_of_ne hat] at ha
        have hcarries := hstatus b hbt version.1 (congrArg Pc.held hb)
        exact hcarries.executing (h.notified a condvar ha b version hb)
  waiters := by
    rw [goto_comp Pc.awaits]
    exact h.waiters.update thread _ fun condvar hc other ho => ((hawaits condvar hc).2 other ho).1
  created := by
    intro other condvar hc
    by_cases ho : other = thread
    · subst ho
      rw [goto_pcs_self] at hc
      exact hc.elim (fun hc => (hawaits condvar hc).1) fun hc => (hnotified condvar hc).1
    · rw [goto_pcs_of_ne ho] at hc
      exact (h.created other condvar hc).trans_le hcondvars

theorem Owned.backed_at (h : w.Owned) (hpc : w.pcs thread = pc) : pc.Backed w.scheduler :=
  hpc ▸ h.backed thread

theorem Owned.awaited_other (h : w.Owned) (hpc : (w.pcs thread).awaits = none)
    {i incarnation condvar : ℕ}
    (hi : (w.scheduler.executionStatus i).Waits incarnation condvar) :
    ∃ other, other ≠ thread ∧ w.pcs other = .waiting (i,incarnation) condvar := by
  obtain ⟨other,ho⟩ := h.awaited i incarnation condvar hi
  refine ⟨other,?_,ho⟩
  rintro rfl
  rw [ho] at hpc
  cases hpc

theorem Owned.others (h : w.Owned) {i : ℕ} (hi : (w.pcs thread).held = some i) (other : ℕ)
    (ho : other ≠ thread) : (w.pcs other).held ≠ some i := fun hother =>
  ho (h.exclusive other thread i hother hi)

theorem Owned.held_ne (h : w.Owned) {i : ℕ} (hi : (w.scheduler.executionStatus i).Free)
    (other : ℕ) : (w.pcs other).held ≠ some i := fun ho => (h.backed other).not_free ho hi

section Steady

variable (h : w.Owned) (hresolved : s.resolved = w.scheduler.resolved)
  (hcondvars : s.condvars = w.scheduler.condvars) (hawaits : (w.pcs thread).awaits = none)
  (hpc : pc.awaits = none) (hbacked : pc.Backed s)
  (hnotifies : pc.notifies = none ∨ pc.notifies = (w.pcs thread).notifies)

include h hresolved hcondvars hawaits hpc hbacked hnotifies

theorem Owned.steady
    (hstatus : ∀ other, other ≠ thread → ∀ i, (w.pcs other).held = some i →
      s.executionStatus i = w.scheduler.executionStatus i)
    (hsuspended : ∀ i incarnation condvar, (s.executionStatus i).Waits incarnation condvar →
      s.executionStatus i = w.scheduler.executionStatus i)
    (hheld : ∀ i, pc.held = some i → (w.pcs thread).held = some i ∨
      ∀ other, other ≠ thread → (w.pcs other).held ≠ some i) :
    (w.goto thread s pc).Owned := by
  refine h.goto (fun other ho i hi => .same (hstatus other ho i hi))
    (fun _ _ _ _ _ => .inl (by rw [hresolved])) hcondvars.ge ?_ hbacked ?_ ?_ ?_
  · intro i incarnation condvar hi
    rw [hsuspended i incarnation condvar hi] at hi
    exact .inr (h.awaited_other hawaits hi)
  · intro i hi
    exact (hheld i hi).elim h.others id
  · intro condvar hc
    obtain hnone | hsame := hnotifies
    · cases hnone.symm.trans hc
    · have hthread := hsame.symm.trans hc
      rw [hcondvars]
      refine ⟨h.created thread condvar (.inr hthread),fun other ho version hother => ?_⟩
      rw [hstatus other ho version.1 (congrArg Pc.held hother)]
      exact h.notified thread condvar hthread other version hother
  · intro condvar hc
    cases hpc.symm.trans hc

theorem Owned.quiet (hstatus : s.executionStatus = w.scheduler.executionStatus)
    (hheld : pc.held = none ∨ pc.held = (w.pcs thread).held) : (w.goto thread s pc).Owned := by
  refine h.steady hresolved hcondvars hawaits hpc hbacked hnotifies
    (fun _ _ _ _ => by rw [hstatus]) (fun _ _ _ _ => by rw [hstatus]) fun i hi => ?_
  obtain hnone | hsame := hheld
  · cases hnone.symm.trans hi
  · exact .inl (hsame.symm.trans hi)

theorem Owned.setStatus {i : ℕ} {status : Scheduler.ExecutionStatus}
    (hstatus : s.executionStatus = update w.scheduler.executionStatus i status)
    (hi : ∀ other, other ≠ thread → (w.pcs other).held ≠ some i)
    (hsuspended : ∀ incarnation condvar, ¬ status.Waits incarnation condvar)
    (hheld : ∀ j, pc.held = some j → j = i ∨ (w.pcs thread).held = some j) :
    (w.goto thread s pc).Owned := by
  refine h.steady hresolved hcondvars hawaits hpc hbacked hnotifies (fun other ho j hj => ?_)
    (fun j incarnation condvar hj => ?_) fun j hj => ?_
  · have hji : j ≠ i := fun heq => hi other ho (heq ▸ hj)
    rw [hstatus,update_of_ne hji]
  · have hji : j ≠ i := by
      rintro rfl
      rw [hstatus,update_self] at hj
      exact hsuspended _ _ hj
    rw [hstatus,update_of_ne hji]
  · obtain rfl | hthread := hheld j hj
    · exact .inr hi
    · exact .inl hthread

end Steady

theorem Owned.assigns (h : w.Owned) (hpc : (w.pcs thread).awaits = none)
    (hs : w.scheduler.Assigns s task) : (w.goto thread s (w.head thread task)).Owned := by
  obtain ⟨e,v,status,-,-,rfl,htask⟩ := hs
  cases task with
  | noTask => exact h.quiet rfl rfl hpc rfl nofun (.inl rfl) htask (.inl rfl)
  | done => exact h.quiet rfl rfl hpc rfl nofun (.inl rfl) htask.2 (.inl rfl)
  | validationTask version wave =>
    exact h.quiet rfl rfl hpc rfl nofun (.inl rfl) htask.2.2.2.2 (.inl rfl)
  | executionTask version condvar =>
    obtain ⟨-,hready,hstatus⟩ := htask
    subst hstatus
    cases condvar with
    | none =>
      have hfree : (w.scheduler.executionStatus version.1).Free := by
        rw [hready]
        trivial
      refine h.setStatus rfl rfl hpc rfl ?_ (.inl rfl) rfl (fun other _ => h.held_ne hfree other)
        (fun _ _ => (·.elim nofun nofun)) fun j hj => .inl (some.inj hj).symm
      intro version' hversion
      cases hversion
      exact update_self ..
    | some condvar =>
      -- The execution of the transaction is waiting; this thread only notifies it.
      obtain ⟨waiter,hne,hwaiter⟩ := h.awaited_other hpc (.inr hready)
      have hunique : ∀ other version', w.pcs other = .waiting version' condvar →
          version' = version := by
        intro other version' ho
        have heq : other = waiter :=
          h.waiters other waiter condvar (congrArg Pc.awaits ho) (congrArg Pc.awaits hwaiter)
        rw [heq,hwaiter] at ho
        cases ho
        rfl
      refine h.goto (fun other ho i hi => ?_) (fun _ _ _ _ _ => .inl rfl) le_rfl
        (fun i incarnation condvar' hi => ?_) nofun nofun (fun condvar' hc => ?_) nofun
      · by_cases hiv : i = version.1
        · subst hiv
          rw [hready]
          exact .incarnate (update_self ..)
        · exact .same (update_of_ne hiv ..)
      · by_cases hiv : i = version.1
        · subst hiv
          simp only [update_self] at hi
          exact hi.elim nofun nofun
        · simp only [update_of_ne hiv] at hi
          exact .inr (h.awaited_other hpc hi)
      · cases hc
        refine ⟨h.created waiter condvar (.inl (congrArg Pc.awaits hwaiter)),
          fun other _ version' ho => ?_⟩
        rw [hunique other version' ho]
        exact update_self ..

theorem Owned.commits (h : w.Owned) {committed : Option ℕ} {flag : Bool}
    (hpc : w.pcs thread = .ready true task) (hs : w.scheduler.tryCommit = (s,committed)) :
    (w.goto thread s (.ready flag task)).Owned := by
  have hawaits := congrArg Pc.awaits hpc
  have hbacked : (Pc.ready flag task).Backed w.scheduler := @Owned.backed_at _ _ (.ready true task) h hpc
  obtain ⟨-,_,_,-,-,-,rfl⟩ | ⟨incarnation,validatedWave,-,hcommits⟩ := Scheduler.tryCommit_spec hs
  · exact h.quiet rfl rfl hawaits rfl hbacked (.inr (congrArg Pc.notifies hpc).symm) rfl
      (.inr (congrArg Pc.held hpc).symm)
  · have hfree : (w.scheduler.executionStatus w.scheduler.commitIdx).Free := by
      rw [hcommits.executed]
      trivial
    have heq := hcommits.eq
    subst heq
    refine h.setStatus rfl rfl hawaits rfl ?_ (.inr (congrArg Pc.notifies hpc).symm) rfl
      (fun other _ => h.held_ne hfree other) (fun _ _ => (·.elim nofun nofun))
      fun j hj => .inr ((congrArg Pc.held hpc).trans hj)
    refine hbacked.of_carries (fun i hi => .same ?_) nofun
    have hne : i ≠ w.scheduler.commitIdx := by
      rintro rfl
      exact hbacked.not_free hi hfree
    exact update_of_ne hne ..

theorem Owned.waitsForDependency (h : w.Owned) {dep : ℕ} {waits : Option ℕ}
    (hpc : w.pcs thread = .executing version)
    (hs : w.scheduler.waitForDependency version.1 dep = .ok (s,waits)) :
    (w.goto thread s (waits.elim (.executing version) (.waiting version))).Owned := by
  have hawaits := congrArg Pc.awaits hpc
  have hothers := h.others (congrArg Pc.held hpc : (w.pcs thread).held = some version.1)
  have hbacked := h.backed_at hpc
  -- The condition variables of the other threads are older.
  have hold : ∀ other version' condvar, w.pcs other = .waiting version' condvar →
      w.scheduler.newCondvar.resolved condvar = w.scheduler.resolved condvar := by
    intro other version' condvar ho
    have hlt := h.created other condvar (.inl (congrArg Pc.awaits ho))
    exact update_of_ne hlt.ne ..
  obtain ⟨rfl,rfl⟩ | ⟨incarnation,rfl,hexec,-,rfl⟩ := Scheduler.waitForDependency_spec hs
  · refine h.goto (fun _ _ _ _ => .same rfl) (fun other _ version' condvar ho => .inl (hold _ _ _ ho))
      (Nat.le_succ _) (fun i incarnation condvar hi => .inr (h.awaited_other hawaits hi)) hbacked
      (fun i hi => some.inj hi ▸ hothers) nofun nofun
  · cases hbacked.symm.trans hexec
    refine h.goto (fun other ho i hi => .same ?_)
      (fun other _ version' condvar ho => .inl (hold _ _ _ ho)) (Nat.le_succ _) ?_
      (.inr ⟨.inl (update_self ..),update_self ..⟩)
      (fun i hi => some.inj hi ▸ hothers) nofun ?_
    · have hne : i ≠ version.1 := fun heq => hothers other ho (heq ▸ hi)
      exact update_of_ne hne ..
    · intro i incarnation condvar hi
      by_cases hiv : i = version.1
      · subst hiv
        simp only [Scheduler.setStatus_executionStatus,update_self] at hi
        obtain hi | hi := hi
        · cases hi
          exact .inl rfl
        · cases hi
      · simp only [Scheduler.setStatus_executionStatus,update_of_ne hiv] at hi
        exact .inr (h.awaited_other hawaits hi)
    · intro condvar hc
      cases hc
      refine ⟨Nat.lt_succ_self _,fun other _ => ⟨fun ho => ?_,fun ho => ?_⟩⟩
      · exact (h.created other _ (.inl ho)).false
      · exact (h.created other _ (.inr ho)).false

theorem Owned.finishesExecution (h : w.Owned) {updatesOutside : Bool}
    (hpc : w.pcs thread = .executing version)
    (hs : w.scheduler.finishExecution version.1 version.2 updatesOutside = .ok (s,task)) :
    (w.goto thread s (w.head thread task)).Owned := by
  have hawaits := congrArg Pc.awaits hpc
  obtain ⟨e,status,hs,-,hresumes,hfinished⟩ := Scheduler.finishExecution_spec hs
  have htask : task.held = none ∧ task.notifies = none := by
    obtain ⟨rfl,-⟩ | ⟨rfl,-⟩ := hfinished
    · exact ⟨rfl,rfl⟩
    · exact ⟨rfl,rfl⟩
  rw [hs]
  refine h.goto (fun other ho i hi => ?_) (fun _ _ _ _ _ => .inl rfl) le_rfl
    (fun i incarnation condvar hi => .inr ?_) ?_ (fun i hi => ?_) (fun condvar hc => ?_) nofun
  · have hne : i ≠ version.1 := by
      rintro rfl
      exact h.others (congrArg Pc.held hpc) other ho hi
    have hi := (hresumes i).1
    rw [update_of_ne hne] at hi
    exact .of_resumes hi
  · have hwas := Scheduler.ExecutionStatus.waits_of_resumes (hresumes i).1 hi
    have hne : i ≠ version.1 := by
      rintro rfl
      rw [update_self] at hwas
      exact hwas.elim nofun nofun
    rw [update_of_ne hne] at hwas
    exact h.awaited_other hawaits hwas
  · rintro _ rfl
    cases htask.1
  · cases htask.1.symm.trans hi
  · cases htask.2.symm.trans hc

theorem Owned.finishesAbort (h : w.Owned) (hpc : w.pcs thread = .aborting version)
    (hs : w.scheduler.finishAbort version.1 version.2 = .ok (s,task)) :
    (w.goto thread s (w.head thread task)).Owned := by
  have hawaits := congrArg Pc.awaits hpc
  have hothers := h.others (congrArg Pc.held hpc)
  obtain ⟨status,hs,-,⟨rfl,-,rfl⟩ | ⟨rfl,-,rfl⟩⟩ := Scheduler.finishAbort_spec hs
  · rw [hs]
    exact h.setStatus rfl rfl hawaits rfl nofun (.inl rfl) rfl hothers
      (fun _ _ => (·.elim nofun nofun)) nofun
  · rw [hs]
    refine h.setStatus rfl rfl hawaits rfl ?_ (.inl rfl) rfl hothers
      (fun _ _ => (·.elim nofun nofun)) fun j hj => .inl (some.inj hj).symm
    rintro _ heq
    cases heq
    exact update_self ..

theorem step_owned (h : w.Owned) {action : Action} (hstep : w.step (thread,action) = .ok w') :
    w'.Owned := by
  cases step_acts hstep with
  | tryCommit hpc hs => exact h.commits hpc hs
  | nextTask hpc hs => exact h.assigns (congrArg Pc.awaits hpc) (Scheduler.nextTask_assigns hs)
  | execute hpc =>
    exact h.quiet rfl rfl (congrArg Pc.awaits hpc) rfl (h.backed_at hpc _ rfl) (.inl rfl) rfl
      (.inr (congrArg Pc.held hpc).symm)
  | @notify version condvar hpc =>
    have hawaits := congrArg Pc.awaits hpc
    refine h.goto (fun _ _ _ _ => .same rfl) (fun other _ version' condvar' ho => ?_) le_rfl
      (fun _ _ _ hi => .inr (h.awaited_other hawaits hi)) nofun nofun nofun nofun
    by_cases hc : condvar' = condvar
    · subst hc
      exact .inr (h.notified thread condvar' (congrArg Pc.notifies hpc) other version' ho)
    · exact .inl (update_of_ne hc ..)
  | check hpc | exit hpc | validate hpc =>
    exact h.quiet rfl rfl (congrArg Pc.awaits hpc) rfl trivial (.inl rfl) rfl (.inl rfl)
  | waitForDependency hpc _ hs => exact h.waitsForDependency hpc hs
  | @wake version condvar hpc hresolved =>
    -- The flag is set only after the transaction has been incarnated again.
    have hexec : w.scheduler.executionStatus version.1 = .executing version.2 := by
      obtain hexec | ⟨-,hfalse⟩ := h.backed_at hpc
      · exact hexec
      · cases hresolved.symm.trans hfalse
    refine h.goto (fun _ _ _ _ => .same rfl) (fun _ _ _ _ _ => .inl rfl) le_rfl
      (fun i incarnation condvar' hi => .inr ?_) hexec (fun i hi => ?_) nofun nofun
    · obtain ⟨other,ho⟩ := h.awaited i incarnation condvar' hi
      refine ⟨other,?_,ho⟩
      rintro rfl
      cases hpc.symm.trans ho
      rw [hexec] at hi
      exact hi.elim nofun nofun
    · cases hi
      exact h.others (congrArg Pc.held hpc)
  | finishExecution hpc hs => exact h.finishesExecution hpc hs
  | @abort version wave s aborted hpc hs =>
    obtain ⟨rfl,hexecuted,rfl⟩ | ⟨rfl,-,rfl⟩ := Scheduler.tryAbort_spec hs
    · have hfree : (w.scheduler.executionStatus version.1).Free := by
        rw [hexecuted]
        trivial
      exact h.setStatus rfl rfl (congrArg Pc.awaits hpc) rfl (update_self ..) (.inl rfl) rfl
        (fun other _ => h.held_ne hfree other) (fun _ _ => (·.elim nofun nofun))
        fun j hj => .inl (some.inj hj).symm
    · exact h.quiet rfl rfl (congrArg Pc.awaits hpc) rfl trivial (.inl rfl) rfl (.inl rfl)
  | finishValidation hpc =>
    exact h.quiet rfl rfl (congrArg Pc.awaits hpc) rfl nofun (.inl rfl) rfl (.inl rfl)
  | finishAbort hpc hs => exact h.finishesAbort hpc hs

theorem new_owned (numTxns concurrencyLevel committer : ℕ) :
    (new numTxns concurrencyLevel committer).Owned := by
  have hpc : ∀ thread, (new numTxns concurrencyLevel committer).pcs thread =
        .ready (thread = committer) .noTask ∨
      (new numTxns concurrencyLevel committer).pcs thread = .exited := by
    intro thread
    by_cases hlt : thread < concurrencyLevel
    · exact .inl (if_pos hlt)
    · exact .inr (if_neg hlt)
  have hidle : ∀ thread, let pc := (new numTxns concurrencyLevel committer).pcs thread
      pc.held = none ∧ pc.awaits = none ∧ pc.notifies = none := by
    intro thread
    obtain h | h := hpc thread <;> rw [h] <;> exact ⟨rfl,rfl,rfl⟩
  constructor
  · intro thread
    obtain h | h := hpc thread <;> rw [h]
    · exact nofun
    · trivial
  · intro a b i ha
    cases (hidle a).1.symm.trans ha
  · intro i incarnation condvar hi
    exact hi.elim nofun nofun
  · intro thread condvar hc
    cases (hidle thread).2.2.symm.trans hc
  · intro a b condvar ha
    cases (hidle a).2.1.symm.trans ha
  · intro thread condvar hc
    exact hc.elim (fun hc => by cases (hidle thread).2.1.symm.trans hc)
      fun hc => by cases (hidle thread).2.2.symm.trans hc

end Workers

end Arx.BlockExecutor
