import Stroem.Workflow

/-!
# Step rows

`JobStepRow` is a row of the `job_step` table.  The last three fields are columns of the table
that the row type of the repository does not select.
-/

namespace Stroem

structure JobStepRow where
  jobId : Uuid := 0
  stepName : String
  actionName : String := ""
  actionType : ActionType := .script
  actionImage : Option String := none
  actionSpec : Option Json := none
  input : Option Json := none
  output : Option Json := none
  status : StepStatus := .pending
  workerId : Option Uuid := none
  startedAt : Option Time := none
  completedAt : Option Time := none
  errorMessage : Option String := none
  requiredAbility : String := ""
  requiredTags : Json := .null
  runner : String := ""
  timeoutSecs : Option Int32 := none
  whenCondition : Option String := none
  forEachExpr : Option String := none
  loopSource : Option String := none
  loopIndex : Option Int32 := none
  loopTotal : Option Int32 := none
  loopItem : Option Json := none
  agentState : Option AgentState := none
  suspendedAt : Option Time := none
  retryAttempt : Int32 := 0
  maxRetries : Option Int32 := none
  retryBackoffSecs : Option Int32 := none
  retryStrategy : Option String := none
  retryJitter : Bool := false
  retryHistory : List Json := []
  retryAt : Option Time := none
  actionWorkspace : Option String := none
  actionRevision : Option String := none
  carriedOver : Bool := false
  skipReason : Option String := none
  actionRef : Option String := none
  taskWorkspace : Option String := none
  taskRef : Option String := none
  taskRevision : Option String := none
  pinReleases : Int32 := 0
  refTemplate : Option String := none
  readyAt : Option Time := none
  resolveLeaseOwner : Option Uuid := none
  resolveLeaseUntil : Option Time := none
  deriving DecidableEq

structure NewJobStep where
  jobId : Uuid
  stepName : String
  actionName : String := ""
  actionType : ActionType := .script
  actionImage : Option String := none
  actionSpec : Option Json := none
  input : Option Json := none
  status : StepStatus := .pending
  requiredAbility : String := ""
  requiredTags : List String := []
  runner : String := ""
  timeoutSecs : Option Int32 := none
  whenCondition : Option String := none
  forEachExpr : Option String := none
  loopSource : Option String := none
  loopIndex : Option Int32 := none
  loopTotal : Option Int32 := none
  loopItem : Option Json := none
  maxRetries : Option Int32 := none
  retryBackoffSecs : Option Int32 := none
  retryStrategy : Option String := none
  retryJitter : Bool := false
  actionWorkspace : Option String := none
  actionRevision : Option String := none
  actionRef : Option String := none
  taskWorkspace : Option String := none
  taskRef : Option String := none
  taskRevision : Option String := none
  refTemplate : Option String := none
  deriving DecidableEq

def JobStepRow.isPlaceholder (r : JobStepRow) : Bool :=
  r.forEachExpr.isSome

end Stroem
