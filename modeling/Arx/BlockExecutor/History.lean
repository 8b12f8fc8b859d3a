import Arx.BlockExecutor.Waves

/-!
# The history of a block

When a transaction was touched last, when each validation was started, how it ended and what was
committed.
-/

namespace Arx.BlockExecutor
open Movelib Function List

structure Validation where
  version : Version
  wave : ℕ
  started : ℕ
  valid : Bool
  deriving DecidableEq

structure History where
  /-- How many steps have been taken. -/
  clock : ℕ
  /-- When each transaction was touched last. -/
  touched : ℕ → ℕ
  /-- When the validation in the hand of a thread was started. -/
  started : ℕ → ℕ
  validations : List Validation
  commits : List ℕ

namespace History

def record (h : History) (w w' : Workers) : ℕ × Action → History
  | (thread, action) =>
    { clock := h.clock + 1
      touched := match w.touches (thread, action) with
        | some i => update h.touched i (h.clock + 1)
        | none => h.touched
      started :=
        if (w.pcs thread).validates = none ∧ (w'.pcs thread).validates ≠ none then
          update h.started thread (h.clock + 1)
        else h.started
      validations := match w.pcs thread, action with
        | .finishing version wave valid, .finishValidation =>
          h.validations ++ [⟨version,wave,h.started thread,valid⟩]
        | _, _ => h.validations
      commits := match action with
        | .tryCommit => h.commits ++ w.scheduler.tryCommit.2.toList
        | _ => h.commits }

end History

structure Block where
  workers : Workers
  history : History

namespace Block

def new (numTxns concurrencyLevel committer : ℕ) : Block where
  workers := .new numTxns concurrencyLevel committer
  history := ⟨0,fun _ => 0,fun _ => 0,[],[]⟩

def step (b : Block) (op : ℕ × Action) : Result Block := do
  let workers ← b.workers.step op
  pure ⟨workers,b.history.record b.workers workers op⟩

def Fresh (b : Block) (i started : ℕ) : Prop := ∀ j, j ≤ i → b.history.touched j < started

structure Sound (b : Block) : Prop where
  owned : b.workers.Owned
  waved : b.workers.Waved
  rolling : b.workers.scheduler.Rolling
  clock : ∀ i, b.history.touched i ≤ b.history.clock
  started : ∀ thread version wave, (b.workers.pcs thread).validates = some (version,wave) →
    b.workers.scheduler.Sufficient version.1 wave → b.Fresh version.1 (b.history.started thread)
  reached : ∀ v ∈ b.history.validations, b.workers.scheduler.Reached v.version.1 v.wave
  settled : ∀ v ∈ b.history.validations, b.workers.scheduler.Sufficient v.version.1 v.wave →
    (b.workers.scheduler.executionStatus v.version.1).Settled v.version.2
  failed : ∀ v ∈ b.history.validations, b.workers.scheduler.Sufficient v.version.1 v.wave →
    v.valid = false → (b.workers.scheduler.executionStatus v.version.1).Closed v.version.2
  fresh : ∀ v ∈ b.history.validations, b.workers.scheduler.Sufficient v.version.1 v.wave →
    b.Fresh v.version.1 v.started
  validated : ∀ i wave,
    (b.workers.scheduler.validationStatus i).maybeMaxValidatedWave = some wave →
    ∃ v ∈ b.history.validations, v.version.1 = i ∧ v.wave = wave
  commits : b.history.commits = List.range b.workers.scheduler.commitIdx

variable {b b' : Block} {thread : ℕ} {action : Action}

theorem step_eq_ok (h : b.step (thread,action) = .ok b') :
    b.workers.step (thread,action) = .ok b'.workers ∧
      b'.history = b.history.record b.workers b'.workers (thread,action) := by
  obtain ⟨workers,hstep,⟨⟩⟩ := bind_eq_ok.mp h
  exact ⟨hstep,rfl⟩

theorem Sound.keepsFresh (h : b.Sound) (hstep : b.step (thread,action) = .ok b') {i wave started : ℕ}
    (hreached : b.workers.scheduler.Reached i wave)
    (hsuff : b'.workers.scheduler.Sufficient i wave)
    (hi : b.workers.scheduler.Sufficient i wave → b.Fresh i started) : b'.Fresh i started := by
  obtain ⟨hworkers,hhistory⟩ := step_eq_ok hstep
  have hi := hi (hsuff.of_next h.waved.waves (Workers.step_scheduler hworkers))
  intro j hj
  rw [hhistory]
  obtain ⟨hnone,-⟩ | ⟨k,hk,htouched⟩ := Workers.step_touched hworkers
  · simp only [History.record,hnone]
    exact hi j hj
  · have hik : i < k := by
      by_contra hki
      exact htouched.not_sufficient h.waved.waves hreached (by omega) hsuff
    simp only [History.record,hk]
    rw [update_of_ne (by omega)]
    exact hi j hj

theorem step_clock (h : b.Sound) (hstep : b.step (thread,action) = .ok b') (i : ℕ) :
    b'.history.touched i ≤ b'.history.clock := by
  obtain ⟨-,hhistory⟩ := step_eq_ok hstep
  have hi := h.clock i
  rw [hhistory]
  cases htouches : b.workers.touches (thread,action) with
  | none =>
    simp only [History.record,htouches]
    omega
  | some j =>
    simp only [History.record,htouches]
    by_cases hij : i = j
    · rw [hij,update_self]
    · rw [update_of_ne hij]
      omega

theorem step_validations (hstep : b.step (thread,action) = .ok b') {v : Validation}
    (hv : v ∈ b'.history.validations) : v ∈ b.history.validations ∨
      b.workers.pcs thread = .finishing v.version v.wave v.valid ∧
        v.started = b.history.started thread := by
  obtain ⟨-,hhistory⟩ := step_eq_ok hstep
  rw [hhistory] at hv
  simp only [History.record] at hv
  split at hv
  · rename_i hpc
    obtain hv | hv := mem_append.mp hv
    · exact .inl hv
    · rw [mem_singleton.mp hv]
      exact .inr ⟨hpc,rfl⟩
  · exact .inl hv

theorem step_started (h : b.Sound) (hstep : b.step (thread,action) = .ok b') {other : ℕ}
    {version : Version} {wave : ℕ} (hpc : (b'.workers.pcs other).validates = some (version,wave))
    (hsuff : b'.workers.scheduler.Sufficient version.1 wave) :
    b'.Fresh version.1 (b'.history.started other) := by
  obtain ⟨hworkers,hhistory⟩ := step_eq_ok hstep
  have hold : (b.workers.pcs other).validates = some (version,wave) →
      b'.Fresh version.1 (b.history.started other) := fun hother =>
    h.keepsFresh hstep (h.waved.reached _ _ _ hother) hsuff (h.started _ _ _ hother)
  by_cases ho : other = thread
  · subst ho
    obtain hother | ⟨⟨hnone,htouches⟩,-⟩ := Workers.step_validates hworkers hpc
    · have hstarted : b'.history.started other = b.history.started other := by
        rw [hhistory]
        exact congrFun (if_neg (by simp [hother])) other
      rw [hstarted]
      exact hold hother
    · -- The validation is started now, after all touches.
      have hstarted : b'.history.started other = b.history.clock + 1 := by
        rw [hhistory]
        simp only [History.record]
        rw [if_pos ⟨hnone,by simp [hpc]⟩,update_self]
      rw [hstarted]
      intro j _
      rw [hhistory]
      simp only [History.record,htouches]
      exact Nat.lt_succ_of_le (h.clock j)
  · have hstarted : b'.history.started other = b.history.started other := by
      rw [hhistory]
      simp only [History.record]
      split
      · exact update_of_ne ho ..
      · rfl
    rw [hstarted]
    exact hold (by rwa [Workers.step_pcs_of_ne hworkers ho] at hpc)

theorem step_sound (h : b.Sound) (hstep : b.step (thread,action) = .ok b') : b'.Sound := by
  obtain ⟨hworkers,hhistory⟩ := step_eq_ok hstep
  have hwaved := Workers.step_waved h.waved h.owned hworkers
  refine ⟨Workers.step_owned h.owned hworkers,hwaved,Workers.step_rolling h.rolling h.owned hworkers,
    step_clock h hstep,fun _ _ _ => step_started h hstep,?_,?_,?_,?_,?_,?_⟩
  · intro v hv
    have hreached : b.workers.scheduler.Reached v.version.1 v.wave := by
      obtain hv | ⟨hpc,-⟩ := step_validations hstep hv
      · exact h.reached v hv
      · exact h.waved.reached thread _ _ (congrArg Pc.validates hpc)
    obtain hsteady | ⟨i,htouched⟩ := Workers.step_scheduler hworkers
    · exact hreached.steady hsteady
    · exact hreached.touched htouched
  · intro v hv hsuff
    obtain hv | ⟨hpc,-⟩ := step_validations hstep hv
    · exact h.waved.keeps h.owned hworkers (fun _ _ hnext => hnext.settled) (h.reached v hv) hsuff
        (h.settled v hv)
    · have hpc := congrArg Pc.validates hpc
      exact h.waved.keeps h.owned hworkers (fun _ _ hnext => hnext.settled)
        (h.waved.reached thread _ _ hpc) hsuff (h.waved.settled thread _ _ hpc)
  · intro v hv hsuff hvalid
    obtain hv | ⟨hpc,-⟩ := step_validations hstep hv
    · exact h.waved.keeps h.owned hworkers (fun _ _ hnext => hnext.closed) (h.reached v hv) hsuff
        fun hs => h.failed v hv hs hvalid
    · rw [hvalid] at hpc
      exact h.waved.keeps h.owned hworkers (fun _ _ hnext => hnext.closed)
        (h.waved.reached thread _ _ (congrArg Pc.validates hpc)) hsuff
        (h.waved.failed thread _ _ hpc)
  · intro v hv hsuff
    obtain hv | ⟨hpc,hstarted⟩ := step_validations hstep hv
    · exact h.keepsFresh hstep (h.reached v hv) hsuff (h.fresh v hv)
    · have hpc := congrArg Pc.validates hpc
      rw [hstarted]
      exact h.keepsFresh hstep (h.waved.reached thread _ _ hpc) hsuff (h.started thread _ _ hpc)
  · intro i wave hi
    obtain hi | ⟨rfl,incarnation,valid,hpc⟩ := Workers.step_validated hworkers hi
    · obtain ⟨v,hv,heq⟩ := h.validated i wave hi
      refine ⟨v,?_,heq⟩
      rw [hhistory]
      simp only [History.record]
      split
      · exact mem_append_left _ hv
      · exact hv
    · refine ⟨⟨(i,incarnation),wave,b.history.started thread,valid⟩,?_,rfl,rfl⟩
      rw [hhistory]
      simp only [History.record,hpc]
      exact mem_append_right _ (mem_singleton_self _)
  · rw [hhistory]
    obtain ⟨hholds,hnone⟩ | ⟨rfl,hsome,incarnation,wave,hcommits⟩ := Workers.step_commits hworkers
    · rw [hholds.commitIdx,← h.commits]
      simp only [History.record]
      split
      · rw [hnone rfl,Option.toList_none,append_nil]
      · rfl
    · rw [hcommits.eq]
      simp only [History.record,hsome,Option.toList_some,h.commits]
      exact range_succ.symm

theorem new_sound (numTxns concurrencyLevel committer : ℕ) :
    (new numTxns concurrencyLevel committer).Sound where
  owned := Workers.new_owned ..
  waved := Workers.new_waved ..
  rolling := ⟨Nat.zero_le _,nofun,nofun,nofun⟩
  clock := fun _ => le_rfl
  started := by
    intro thread version wave hpc
    cases (Workers.new_validates thread).symm.trans hpc
  reached := nofun
  settled := nofun
  failed := nofun
  fresh := nofun
  validated := nofun
  commits := rfl

theorem sound_of_reachable {numTxns concurrencyLevel committer : ℕ}
    (h : Reachable step (new numTxns concurrencyLevel committer) b) : b.Sound :=
  h.invariant (new_sound ..) fun _ _ _ hs hstep => step_sound hs hstep

/-- A committed transaction stays committed in every run, and no thread executes or aborts it. -/
theorem Sound.committed (h : b.Sound) {i : ℕ} (hi : i ∈ b.history.commits) :
    ∃ incarnation, ∀ b', Reachable step b b' →
      b'.workers.scheduler.executionStatus i = .committed incarnation ∧
        ∀ thread, (b'.workers.pcs thread).held ≠ some i := by
  rw [h.commits,mem_range] at hi
  obtain ⟨incarnation,hstatus⟩ := h.rolling.committed i hi
  refine ⟨incarnation,fun b' hb' => ?_⟩
  obtain ⟨hsound,hstatus'⟩ := hb'.invariant
    (I := fun b => b.Sound ∧ b.workers.scheduler.executionStatus i = .committed incarnation)
    ⟨h,hstatus⟩ fun b _ c hb hstep =>
      ⟨step_sound hb.1 hstep,Workers.step_committed hb.1.owned (step_eq_ok hstep).1 hb.2⟩
  refine ⟨hstatus',hsound.owned.held_ne ?_⟩
  rw [hstatus']
  trivial

/-- A transaction is committed only after all lower ones and after a successful validation of its
incarnation that was started after the last touch of every transaction up to it. A transaction that
is committed is never executed or aborted again. -/
theorem commits_validated {numTxns concurrencyLevel committer : ℕ}
    (h : Reachable step (new numTxns concurrencyLevel committer) b) :
    (∀ i, b.workers.scheduler.tryCommit.2 = some i →
      b.history.commits = List.range i ∧ ∃ v ∈ b.history.validations, v.version.1 = i ∧
        b.workers.scheduler.executionStatus i = .executed v.version.2 ∧ v.valid = true ∧
        ∀ j, j ≤ i → b.history.touched j < v.started) ∧
    ∀ i ∈ b.history.commits, ∃ incarnation, ∀ b', Reachable step b b' →
      b'.workers.scheduler.executionStatus i = .committed incarnation ∧
        ∀ thread, (b'.workers.pcs thread).held ≠ some i := by
  have hsound := sound_of_reachable h
  refine ⟨fun i hi => ?_,fun i hi => hsound.committed hi⟩
  obtain ⟨hnone,-⟩ | ⟨incarnation,wave,hsome,hcommits⟩ := Scheduler.tryCommit_spec
    (Prod.ext rfl hi : b.workers.scheduler.tryCommit = (b.workers.scheduler.tryCommit.1,some i))
  · cases hnone
  · cases hsome
    have hsuff := Workers.commits_sufficient hsound.rolling hcommits
    have hexecuted := hcommits.executed
    obtain ⟨v,hv,hversion,rfl⟩ := hsound.validated _ _ hcommits.validated
    rw [← hversion] at hsuff hexecuted
    have hsettled := hsound.settled v hv hsuff
    rw [hexecuted] at hsettled
    cases hsettled
    refine ⟨hsound.commits,v,hv,hversion,hversion ▸ hexecuted,?_,hversion ▸ hsound.fresh v hv hsuff⟩
    by_contra hvalid
    have hclosed := hsound.failed v hv hsuff (Bool.eq_false_of_not_eq_true hvalid)
    rw [hexecuted] at hclosed
    exact hclosed

/-- The second transaction is aborted once, executed again and then next to be committed. -/
def abortedOnce : List (ℕ × Action) :=
  [(0,.tryCommit),(0,.nextTask),(0,.tryCommit),(0,.start),
    (1,.nextTask),(1,.start),(1,.finishExecution true),(0,.finishExecution true),
    (1,.nextTask),(1,.start),(1,.validate true),(1,.finishValidation),
    (1,.nextTask),(1,.start),(1,.validate false),(1,.finishAbort),
    (1,.start),(1,.finishExecution false),
    (1,.nextTask),(1,.start),(1,.validate true),(1,.finishValidation),(0,.tryCommit)]

theorem commits_validated_abortedOnce :
    ∃ b, Reachable step (new 2 2 0) b ∧ b.workers.scheduler.tryCommit.2 = some 1 ∧
      (∃ v ∈ b.history.validations, v.version.1 = 1 ∧ v.valid = true ∧
        ∀ j, j ≤ 1 → b.history.touched j < v.started) ∧
      0 ∈ b.history.commits ∧ ∃ incarnation, ∀ b', Reachable step b b' →
        b'.workers.scheduler.executionStatus 0 = .committed incarnation := by
  have hrun : ∃ b, exec step (new 2 2 0) abortedOnce = .ok b ∧
      b.workers.scheduler.tryCommit.2 = some 1 ∧ 0 ∈ b.history.commits :=
    ⟨_,rfl,rfl,mem_singleton_self 0⟩
  obtain ⟨b,hb,hnext,hfirst⟩ := hrun
  have hreachable := Reachable.of_exec hb
  obtain ⟨hvalidated,hcommitted⟩ := commits_validated hreachable
  obtain ⟨-,v,hv,hversion,-,hvalid,hfresh⟩ := hvalidated 1 hnext
  obtain ⟨incarnation,hforever⟩ := hcommitted 0 hfirst
  exact ⟨b,hreachable,hnext,⟨v,hv,hversion,hvalid,hfresh⟩,hfirst,incarnation,
    fun b' hb' => (hforever b' hb').1⟩

end Block

end Arx.BlockExecutor
