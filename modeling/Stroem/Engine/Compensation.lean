import Stroem.Engine.Absorbing
import Stroem.JobRepo
import Stroem.Settle

/-!
# Job statuses and the compensation of a creation

Every writer of `job.status` but one asks for a pending or running job.  The one that does not ask
is `mark_failed_tx`, with which `create_job_for_task` compensates an initialisation that failed
after the job was committed: it fails the job and every unfinished step in one transaction.  The
job may be finished by then.

The transaction holds the job row from its first statement on, and nobody who writes a step
between its two statements sees the new status, so it is one action here.
-/

namespace Stroem.Engine

open Foundation JobStepRepo JobRepo Settlement

structure CommittedJob where
  job : JobRecord
  rows : List JobStepRow
  deriving DecidableEq

inductive CommittedAction where
  | write (now : Time) (write : Write)
  | jobWrite (now : Time) (write : JobWrite)
  | compensate (now : Time) (error : String)

namespace CommittedJob

def initialisationFailed (error : String) : String :=
  "[creation] initialisation failed: " ++ error

def compensate (s : CommittedJob) (now : Time) (error : String) : CommittedJob where
  job := jobAfter now s.job .markFailed
  rows := (failNonTerminalSteps (initialisationFailed error) now).run s.rows

def act (s : CommittedJob) : CommittedAction → Option CommittedJob
  | .write now w => some { s with rows := rowsAfter now s.job.status s.rows w }
  | .jobWrite now w =>
    -- `mark_failed_tx` has no caller but the compensation
    if w = .markFailed then none else some { s with job := jobAfter now s.job w }
  | .compensate now error => some (s.compensate now error)

def Consistent (task : TaskDef) (s : CommittedJob) : Prop :=
  (Settlement.decide task s.rows).map Settlement.Settled.status = some s.job.status

instance (task : TaskDef) (s : CommittedJob) : Decidable (s.Consistent task) :=
  inferInstanceAs (Decidable (_ = _))

def tolerates (task : TaskDef) (r : JobStepRow) : Bool :=
  (task.flow.get (flowStepName r.stepName r.loopSource)).any FlowStep.continueOnFailure

def carriesFailure (task : TaskDef) (r : JobStepRow) : Bool :=
  (!r.status.isTerminal || r.status == .failed) && !tolerates task r

end CommittedJob

open CommittedJob

def FindsUnfinished (s : CommittedJob) : CommittedAction → Prop
  | .compensate _ _ => s.job.status.isTerminal = true → s.job.status = .failed
  | _ => True

/--
A compensation finds a step that is unfinished or failed and whose failure the flow does not
tolerate.
-/
def FindsFailure (task : TaskDef) (s : CommittedJob) : CommittedAction → Prop
  | .compensate _ _ => s.rows.any (carriesFailure task) = true
  | _ => True

instance (task : TaskDef) (s : CommittedJob) :
    (a : CommittedAction) → Decidable (FindsUnfinished s a ∧ FindsFailure task s a)
  | .compensate _ _ => inferInstanceAs (Decidable ((_ → _) ∧ _ = _))
  | .write _ _ | .jobWrite _ _ => .isTrue ⟨trivial, trivial⟩

/-! ## The compensation -/

@[simp] theorem compensate_status (s : CommittedJob) (now : Time) (error : String) :
    (s.compensate now error).job.status = .failed := rfl

theorem compensate_rows_terminal (s : CommittedJob) (now : Time) (error : String) :
    ∀ r ∈ (s.compensate now error).rows, r.status.isTerminal = true := by
  intro r hr
  obtain ⟨r₀, -, rfl⟩ := Update.mem_run.mp hr
  by_cases hterm : r₀.status.isTerminal = true
  · simp [failNonTerminalSteps, hterm]
  · simp only [failNonTerminalSteps, hterm]
    rfl

theorem untoleratedFailure_compensate (task : TaskDef) (s : CommittedJob) (now : Time)
    (error : String) :
    untoleratedFailure task (s.compensate now error).rows = s.rows.any (carriesFailure task) := by
  simp only [untoleratedFailure, CommittedJob.compensate, Update.run, updateWhere, List.any_map]
  congr 1
  funext r
  by_cases hterm : r.status.isTerminal = true
  · simp [failNonTerminalSteps, hterm, carriesFailure, tolerates]
  · simp [failNonTerminalSteps, hterm, carriesFailure, tolerates]

theorem consistent_compensate_iff (task : TaskDef) (s : CommittedJob) (now : Time)
    (error : String) :
    (s.compensate now error).Consistent task ↔ s.rows.any (carriesFailure task) = true := by
  have hall : ((s.compensate now error).rows.all fun r => r.status.isTerminal) = true :=
    List.all_eq_true.mpr (compensate_rows_terminal s now error)
  unfold CommittedJob.Consistent Settlement.decide
  rw [hall, untoleratedFailure_compensate, compensate_status]
  cases s.rows.any (carriesFailure task) with
  | true => simp
  | false =>
    simp only [Bool.not_true, Bool.false_eq_true, if_false, iff_false]
    split <;> simp

/-! ## One action -/

def KeepsStatus (s t : CommittedJob) : Prop :=
  s.job.status.isTerminal = true → t.job.status = s.job.status

theorem CommittedJob.keepsStatus_act {s t : CommittedJob} {a : CommittedAction}
    (hact : s.act a = some t) (ha : ∀ now error, a ≠ .compensate now error) : KeepsStatus s t := by
  intro hterm
  cases a with
  | write now w =>
    obtain rfl : _ = t := Option.some.inj hact
    rfl
  | jobWrite now w =>
    simp only [CommittedJob.act] at hact
    split at hact
    case isTrue => cases hact
    case isFalse hw =>
      obtain rfl : _ = t := Option.some.inj hact
      rw [jobAfter_of_terminal now hw hterm]
  | compensate now error => exact absurd rfl (ha now error)

theorem CommittedJob.keepsStatus_act_iff {s t : CommittedJob} {a : CommittedAction}
    (hact : s.act a = some t) :
    KeepsStatus s t ↔ FindsUnfinished s a := by
  cases a with
  | write now w | jobWrite now w => exact iff_of_true (keepsStatus_act hact (by simp)) trivial
  | compensate now error =>
    obtain rfl : s.compensate now error = t := Option.some.inj hact
    exact imp_congr_right fun _ => eq_comm

/-! ## Runs -/

theorem KeepsStatus.trans {s t u : CommittedJob} (h : KeepsStatus s t) (h' : KeepsStatus t u) :
    KeepsStatus s u := by
  intro hterm
  have hst := h hterm
  exact (h' (hst ▸ hterm)).trans hst

private theorem keepsStatus_run_iff (s : CommittedJob) (as : List CommittedAction) :
    (∀ before after mid last, before ++ after <+: as → exec act s before = some mid →
        exec act mid after = some last → KeepsStatus mid last) ↔
      Meets act FindsUnfinished s as := by
  refine forall_segments_iff_meets KeepsStatus (fun _ => True) (fun _ _ => rfl)
    (fun _ _ _ => KeepsStatus.trans) (fun _ _ _ _ _ _ => trivial)
    (fun s a t _ hact => keepsStatus_act_iff hact) ?_ trivial
  intro s a hstuck
  cases a with
  | compensate now error => cases hstuck
  | _ => trivial

private theorem consistent_run_iff (task : TaskDef) (s : CommittedJob)
    (as : List CommittedAction) :
    (∀ before now error mid last, before ++ [.compensate now error] <+: as →
        exec act s before = some mid → mid.act (.compensate now error) = some last →
        last.Consistent task) ↔ Meets act (FindsFailure task) s as := by
  have hone : ∀ (s : CommittedJob) (a : CommittedAction), True → (FindsFailure task s a ↔
      ∀ t, s.act a = some t → ∀ now error, a = .compensate now error → t.Consistent task) := by
    intro s a _
    cases a with
    | compensate now error =>
      simp [FindsFailure, CommittedJob.act, consistent_compensate_iff]
    | _ => simp [FindsFailure]
  rw [Meets.congr (fun _ => True) (fun _ _ _ _ _ => trivial) hone trivial, meets_iff_forall_steps]
  constructor
  · rintro h before a mid last hprefix hmid hlast now error rfl
    exact h before now error mid last hprefix hmid hlast
  · intro h before now error mid last hprefix hmid hlast
    exact h before _ mid last hprefix hmid hlast now error rfl

/--
The status of a finished job stays and compensations leave job and steps with one verdict, exactly
when each finds the job unfinished (or failed) and a step to carry the failure.
-/
theorem job_status_absorbing_iff (task : TaskDef) (s : CommittedJob) (as : List CommittedAction) :
    ((∀ before after mid last, before ++ after <+: as → exec act s before = some mid →
        exec act mid after = some last → KeepsStatus mid last) ∧
      ∀ before now error mid last, before ++ [.compensate now error] <+: as →
        exec act s before = some mid → mid.act (.compensate now error) = some last →
        last.Consistent task) ↔
    Meets act (fun s a => FindsUnfinished s a ∧ FindsFailure task s a) s as := by
  rw [keepsStatus_run_iff, consistent_run_iff, Meets.and_iff]

/-! ## A job that finishes during its initialisation -/

def singleStepTask : TaskDef := ⟨⟨[("a", { action := "work" })], by decide⟩⟩

def promotedJob : CommittedJob := ⟨{}, [readyRow]⟩

def finishedMeanwhile : List CommittedAction :=
  [.write 10 (.claimReadyStep scriptWorker "a"), .jobWrite 10 (.markRunningIfPending 7),
    .write 20 (.markCompleted "a" none), .jobWrite 20 (.settle .completed none)]

/-- The compensation then fails a completed job over its completed step. -/
theorem compensation_overturns_completed :
    ∃ mid last, exec act promotedJob finishedMeanwhile = some mid ∧
      mid.act (.compensate 21 "list job steps") = some last ∧
      mid.job.status = .completed ∧ last.job.status = .failed ∧ ¬KeepsStatus mid last ∧
      mid.Consistent singleStepTask ∧ ¬last.Consistent singleStepTask := by
  refine ⟨_, _, rfl, rfl, rfl, rfl, ?_, by decide, by decide⟩
  intro h
  exact absurd (h rfl) (by decide)

end Stroem.Engine
