import Mathlib.Data.List.Basic
import Mathlib.Tactic.Common

/-!
Step and job statuses, and the reasons a step is skipped.

`job_step.status` and `job.status` are constrained by the schema to the values below, so they
are enumerations here; `job_step.skip_reason` is unconstrained text and stays a string.
-/

namespace Stroem

inductive StepStatus where
  | pending
  | ready
  | claimed
  | running
  | completed
  | failed
  | skipped
  | cancelled
  | suspended
  deriving DecidableEq

namespace StepStatus

def isTerminal : StepStatus → Bool
  | .completed | .failed | .skipped | .cancelled => true
  | .pending | .ready | .claimed | .running | .suspended => false

def isActive : StepStatus → Bool
  | .ready | .running | .suspended => true
  | _ => false

end StepStatus

inductive JobStatus where
  | pending
  | running
  | completed
  | failed
  | cancelled
  | skipped
  deriving DecidableEq

def JobStatus.isTerminal : JobStatus → Bool
  | .pending | .running => false
  | .completed | .failed | .cancelled | .skipped => true

def JobStatus.asStr : JobStatus → String
  | .pending => "pending"
  | .running => "running"
  | .completed => "completed"
  | .failed => "failed"
  | .cancelled => "cancelled"
  | .skipped => "skipped"

inductive SkipReason where
  | condition
  | empty
  | cascade
  | unreachable
  deriving DecidableEq

namespace SkipReason

def asStr : SkipReason → String
  | .condition => "condition"
  | .empty => "empty"
  | .cascade => "cascade"
  | .unreachable => "unreachable"

def parse (s : String) : Option SkipReason :=
  if s = "condition" then some .condition
  else if s = "empty" then some .empty
  else if s = "cascade" then some .cascade
  else if s = "unreachable" then some .unreachable
  else none

@[simp] theorem parse_asStr (reason : SkipReason) : parse reason.asStr = some reason := by
  cases reason <;> decide

end SkipReason

end Stroem
