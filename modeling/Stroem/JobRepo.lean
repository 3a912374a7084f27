import Stroem.Foundation.Table
import Stroem.JobStep

/-!
# The `job` statements

The statements that write the status of a job, and the compare-and-set on
`metrics_recorded_at` that claims its terminal handling.  A job is one row, so a statement is
an `Update` of that row.
-/

namespace Stroem.JobRepo

open Foundation

structure JobRecord where
  status : JobStatus := .pending
  output : Option Json := none
  workerId : Option Uuid := none
  startedAt : Option Time := none
  completedAt : Option Time := none
  metricsRecordedAt : Option Time := none
  deriving DecidableEq

def isActive (job : JobRecord) : Bool :=
  job.status == .pending || job.status == .running

theorem isActive_eq_not_isTerminal (job : JobRecord) :
    isActive job = !job.status.isTerminal := by
  cases hs : job.status <;> simp [isActive, hs, JobStatus.isTerminal]

def markRunningIfPending (workerId : Uuid) (now : Time) : Update JobRecord where
  guard job := job.status == .pending
  set job := { job with status := .running, workerId := some workerId, startedAt := some now }

def markRunningIfPendingServer (now : Time) : Update JobRecord where
  guard job := job.status == .pending
  set job := { job with status := .running, startedAt := some now }

def settle (status : JobStatus) (output : Option Json) (now : Time) : Update JobRecord where
  guard := isActive
  set job := { job with
    status := status, output := output <|> job.output, completedAt := some now }

def cancel (now : Time) : Update JobRecord where
  guard := isActive
  set job := { job with status := .cancelled, completedAt := some now }

def markFailed (now : Time) : Update JobRecord where
  guard _ := true
  set job := { job with status := .failed, completedAt := some now }

/-- The statement of `terminal::claim`. -/
def recordMetrics (now : Time) : Update JobRecord where
  guard job := job.metricsRecordedAt.isNone
  set job := { job with metricsRecordedAt := some now }

inductive JobWrite where
  | markRunningIfPending (workerId : Uuid)
  | markRunningIfPendingServer
  | settle (status : JobStatus) (output : Option Json)
  | cancel
  | markFailed
  deriving DecidableEq

def JobWrite.update (now : Time) : JobWrite → Update JobRecord
  | .markRunningIfPending workerId => JobRepo.markRunningIfPending workerId now
  | .markRunningIfPendingServer => JobRepo.markRunningIfPendingServer now
  | .settle status output => JobRepo.settle status output now
  | .cancel => JobRepo.cancel now
  | .markFailed => JobRepo.markFailed now

def jobAfter (now : Time) (job : JobRecord) (w : JobWrite) : JobRecord :=
  (w.update now).onRow job

theorem jobAfter_of_terminal (now : Time) {job : JobRecord} {w : JobWrite} (hw : w ≠ .markFailed)
    (h : job.status.isTerminal = true) : jobAfter now job w = job := by
  have hactive : isActive job = false := by
    rw [isActive_eq_not_isTerminal, h]
    rfl
  have hpending : (job.status == .pending) = false := by
    cases hs : job.status <;> simp_all [JobStatus.isTerminal]
  cases w with
  | markFailed => exact absurd rfl hw
  | _ => simp [jobAfter, JobWrite.update, Update.onRow, JobRepo.markRunningIfPending,
      JobRepo.markRunningIfPendingServer, JobRepo.settle, JobRepo.cancel, hactive, hpending]

theorem jobAfter_terminal (now : Time) {job : JobRecord} (w : JobWrite)
    (h : job.status.isTerminal = true) : (jobAfter now job w).status.isTerminal = true := by
  by_cases hw : w = .markFailed
  · subst hw
    rfl
  · rwa [jobAfter_of_terminal now hw h]

theorem isActive_jobAfter_cancel (now : Time) (job : JobRecord) :
    isActive (jobAfter now job .cancel) = false := by
  cases h : isActive job <;>
    simp [jobAfter, JobWrite.update, Update.onRow, JobRepo.cancel, h]
  rfl

@[simp] theorem jobAfter_metricsRecordedAt (now : Time) (job : JobRecord) (w : JobWrite) :
    (jobAfter now job w).metricsRecordedAt = job.metricsRecordedAt := by
  have hset : ((w.update now).set job).metricsRecordedAt = job.metricsRecordedAt := by
    cases w <;> rfl
  simp only [jobAfter, Update.onRow]
  rw [apply_ite JobRecord.metricsRecordedAt, hset, ite_self]

end Stroem.JobRepo
