import Stroem.Foundation.Table
import Stroem.JobStep

/-!
# The `job_step` statements

Every statement that writes a `job_step` row, as an `Update` with its `WHERE` clause and its
`SET` list, and the transactions built from them.  A statement is about the rows of one job:
the condition on `job_id` is the table it is run on.  `now` is the database clock.
-/

namespace Stroem.JobStepRepo

open Foundation

/-! ## Cascade primitives -/

def promoteStepsTx (names : List String) (now : Time) : Update JobStepRow where
  guard r := decide (r.stepName ∈ names) && r.status == .pending
  set r := { r with status := .ready, readyAt := some now }

def skipStepsTx (names : List String) (reason : String) (now : Time) : Update JobStepRow where
  guard r := decide (r.stepName ∈ names) && r.status == .pending
  set r := { r with status := .skipped, skipReason := some reason, completedAt := some now }

def failPendingStepTx (name error : String) (now : Time) : Update JobStepRow where
  guard r := decide (r.stepName = name) && r.status == .pending
  set r := { r with status := .failed, errorMessage := some error, completedAt := some now }

def startPlaceholderTx (name : String) (now : Time) : Update JobStepRow where
  guard r := decide (r.stepName = name) && r.status == .pending
  set r := { r with status := .running, startedAt := some now }

def completePlaceholderTx (name : String) (output : Json) (now : Time) :
    Update JobStepRow where
  guard r := decide (r.stepName = name) && r.status == .running
  set r := { r with status := .completed, output := some output, completedAt := some now }

def failPlaceholderTx (name error : String) (output : Json) (now : Time) :
    Update JobStepRow where
  guard r := decide (r.stepName = name) && r.status == .running
  set r := { r with
    status := .failed, errorMessage := some error, output := some output,
    completedAt := some now }

/-! ## Inserts -/

inductive DbError where
  | tooManyBinds
  | uniqueViolation
  deriving DecidableEq

def colsPerRow : Nat := 30

def maxBinds : Nat := 65535

def insertedRow (now : Time) (step : NewJobStep) : JobStepRow where
  jobId := step.jobId
  stepName := step.stepName
  actionName := step.actionName
  actionType := step.actionType
  actionImage := step.actionImage
  actionSpec := step.actionSpec
  input := step.input
  status := step.status
  requiredAbility := step.requiredAbility
  requiredTags := Json.ofStrings step.requiredTags
  runner := step.runner
  timeoutSecs := step.timeoutSecs
  readyAt := if step.status = .ready then some now else none
  whenCondition := step.whenCondition
  forEachExpr := step.forEachExpr
  loopSource := step.loopSource
  loopIndex := step.loopIndex
  loopTotal := step.loopTotal
  loopItem := step.loopItem
  maxRetries := step.maxRetries
  retryBackoffSecs := step.retryBackoffSecs
  retryStrategy := step.retryStrategy
  retryJitter := step.retryJitter
  actionWorkspace := step.actionWorkspace
  actionRevision := step.actionRevision
  actionRef := step.actionRef
  taskWorkspace := step.taskWorkspace
  taskRef := step.taskRef
  taskRevision := step.taskRevision
  refTemplate := step.refTemplate

def createStepsTx (steps : List NewJobStep) (now : Time) (rows : List JobStepRow) :
    Except DbError (List JobStepRow) :=
  if steps.isEmpty then .ok rows
  else if maxBinds < colsPerRow * steps.length then .error .tooManyBinds
  else
    match insertAll JobStepRow.stepName rows (steps.map (insertedRow now)) with
    | some rows' => .ok rows'
    | none => .error .uniqueViolation

theorem createStepsTx_ok {steps : List NewJobStep} {now : Time} {rows rows' : List JobStepRow}
    (h : createStepsTx steps now rows = .ok rows') :
    rows' = rows ++ steps.map (insertedRow now) ∧
      (Keyed JobStepRow.stepName rows → Keyed JobStepRow.stepName rows') := by
  unfold createStepsTx at h
  split at h
  case isTrue hempty =>
    cases h
    obtain rfl := List.isEmpty_iff.mp hempty
    exact ⟨by simp, id⟩
  case isFalse =>
    split at h
    · cases h
    · split at h
      case h_1 rows₁ hinsert =>
        cases h
        unfold insertAll at hinsert
        split at hinsert
        case isTrue hnodup =>
          cases hinsert
          exact ⟨rfl, fun _ => hnodup⟩
        case isFalse => cases hinsert
      case h_2 => cases h

/-! ## Claims -/

structure ClaimIdentity where
  workerId : Uuid
  startedAt : Time
  deriving DecidableEq

def containedIn (container : List String) : Json → Bool
  | .arr items => items.all fun
    | .str s => container.contains s
    | _ => false
  | .str s => container.contains s
  | _ => false

def containsAll (requiredTags : Json) (tags : List String) : Bool :=
  match requiredTags with
  | .arr items => tags.all fun t => items.contains (.str t)
  | _ => false

structure Worker where
  workerId : Uuid
  capabilities : List String
  tags : List String
  exclusive : Bool
  deriving DecidableEq

def serverDispatched : ActionType → Bool
  | .task | .approval | .eventSource => true
  | _ => false

def claimable (worker : Worker) (now : Time) (r : JobStepRow) : Bool :=
  r.status == .ready &&
    worker.capabilities.contains r.requiredAbility &&
    containedIn worker.tags r.requiredTags &&
    (!worker.exclusive || containsAll r.requiredTags worker.tags) &&
    !serverDispatched r.actionType &&
    r.retryAt.all (· ≤ now)

def claimReadyStep (worker : Worker) (name : String) (now : Time) : Update JobStepRow where
  guard r := decide (r.stepName = name) && claimable worker now r
  set r := { r with
    status := .running, workerId := some worker.workerId, startedAt := some now }

def markRunning (name : String) (workerId : Uuid) (now : Time) : Update JobStepRow where
  guard r := decide (r.stepName = name)
  set r := { r with status := .running, workerId := some workerId, startedAt := some now }

structure TaskPin where
  workspace : String
  gitRef : String
  commit : String
  deriving DecidableEq

def taskStampOf (r : JobStepRow) : Option TaskPin := do
  let workspace ← r.taskWorkspace
  let gitRef ← r.taskRef
  let commit ← r.taskRevision
  pure ⟨workspace, gitRef, commit⟩

def stampIs (pin : Option TaskPin) (r : JobStepRow) : Bool :=
  r.taskWorkspace == pin.map TaskPin.workspace && r.taskRef == pin.map TaskPin.gitRef &&
    r.taskRevision == pin.map TaskPin.commit

def claimTaskDispatch (name : String) (pin : Option TaskPin) (now : Time) :
    Update JobStepRow where
  guard r := decide (r.stepName = name) && r.status == .ready && stampIs pin r
  set r := { r with status := .running, startedAt := some now }

/-! ## Outcomes -/

def markCompleted (name : String) (output : Option Json) (now : Time) : Update JobStepRow where
  guard r := decide (r.stepName = name)
  set r := { r with status := .completed, output := output, completedAt := some now }

def markFailed (name error : String) (now : Time) : Update JobStepRow where
  guard r := decide (r.stepName = name)
  set r := { r with status := .failed, errorMessage := some error, completedAt := some now }

def failTaskDispatch (name error : String) (expected : StepStatus) (pin : Option TaskPin)
    (now : Time) : Update JobStepRow where
  guard r := decide (r.stepName = name) && r.status == expected && stampIs pin r
  set r := { r with status := .failed, errorMessage := some error, completedAt := some now }

def markSkipped (name reason : String) (now : Time) : Update JobStepRow where
  guard r := decide (r.stepName = name) && r.status == .pending
  set r := { r with status := .skipped, skipReason := some reason, completedAt := some now }

def markCancelled (name : String) (now : Time) : Update JobStepRow where
  guard r := decide (r.stepName = name) && r.status == .running
  set r := { r with
    status := .cancelled, errorMessage := some "Job cancelled", completedAt := some now }

def cancelServerManagedSteps (now : Time) : Update JobStepRow where
  guard r := r.status == .running && r.workerId == none
  set r := { r with
    status := .cancelled, errorMessage := some "Job cancelled", completedAt := some now }

def cancelPendingSteps (now : Time) : Update JobStepRow where
  guard r := r.status == .pending || r.status == .ready || r.status == .suspended
  set r := { r with status := .cancelled, completedAt := some now }

def failNonTerminalSteps (error : String) (now : Time) : Update JobStepRow where
  guard r := !r.status.isTerminal
  set r := { r with status := .failed, errorMessage := some error, completedAt := some now }

/-! ## Failure with retry -/

inductive FailOutcome where
  | notApplied
  | failed (attempt : Int32) (max : Option Int32)
  | retryScheduled (attempt max : Int32) (delaySecs : Nat)
  deriving DecidableEq

def retryHistoryEntry (r : JobStepRow) (error : String) (now : Time) : Json :=
  .obj (Fields.collect
    [("attempt", .num (.int r.retryAttempt.toInt)), ("error", .str error),
      ("started_at", r.startedAt.elim .null fun t => .num (.int t)),
      ("failed_at", .num (.int now))])

def hasRetryLeft (r : JobStepRow) : Bool :=
  r.maxRetries.any fun max => r.retryAttempt < max

def scheduleRetry (name error : String) (retryAt now : Time) : Update JobStepRow where
  guard r := decide (r.stepName = name)
  set r := { r with
    retryHistory := r.retryHistory ++ [retryHistoryEntry r error now]
    retryAttempt := r.retryAttempt + 1
    status := .ready
    readyAt := some now
    retryAt := some retryAt
    workerId := none
    startedAt := none
    completedAt := none
    errorMessage := none
    output := none
    agentState := none
    suspendedAt := none }

def notExpected (expected : List StepStatus) (expectedClaim : Option ClaimIdentity)
    (r : JobStepRow) : Bool :=
  (!expected.isEmpty && !expected.contains r.status) ||
    expectedClaim.any fun claim =>
      r.workerId != some claim.workerId || r.startedAt != some claim.startedAt

def failOrRetry (name error : String) (expected : List StepStatus)
    (delayFor : JobStepRow → Nat) (expectedClaim : Option ClaimIdentity) (now : Time)
    (rows : List JobStepRow) : FailOutcome × List JobStepRow :=
  match rows.find? (·.stepName == name) with
  | none => (.notApplied, rows)
  | some row =>
    if notExpected expected expectedClaim row then (.notApplied, rows)
    else
      match row.maxRetries with
      | some max =>
        if row.retryAttempt < max then
          let delaySecs := delayFor row
          (.retryScheduled (row.retryAttempt + 1) max delaySecs,
            (scheduleRetry name error (now + delaySecs) now).run rows)
        else
          (.failed row.retryAttempt row.maxRetries, (markFailed name error now).run rows)
      | none => (.failed row.retryAttempt row.maxRetries, (markFailed name error now).run rows)

/-! ## Releasing a claim -/

inductive ReleaseOutcome where
  | released
  | cancelled
  | capReached
  | notApplied
  deriving DecidableEq

def cancelStep (name : String) (now : Time) : Update JobStepRow where
  guard r := decide (r.stepName = name)
  set r := { r with status := .cancelled, completedAt := some now }

def releaseStep (name : String) (retryAt now : Time) : Update JobStepRow where
  guard r := decide (r.stepName = name)
  set r := { r with
    status := .ready, workerId := none, startedAt := none, readyAt := some now,
    retryAt := some retryAt, pinReleases := r.pinReleases + 1 }

def releaseClaim (jobStatus : JobStatus) (name : String) (claim : ClaimIdentity)
    (retryAfter : Nat) (maxReleases : Int32) (now : Time) (rows : List JobStepRow) :
    ReleaseOutcome × List JobStepRow :=
  match rows.find? fun r => r.stepName == name && r.status == .running &&
      r.workerId == some claim.workerId && r.startedAt == some claim.startedAt with
  | none => (.notApplied, rows)
  | some row =>
    if jobStatus ≠ .pending ∧ jobStatus ≠ .running then
      (.cancelled, (cancelPendingSteps now).run ((cancelStep name now).run rows))
    else if maxReleases < row.pinReleases + 1 then (.capReached, rows)
    else (.released, (releaseStep name (now + retryAfter) now).run rows)

/-! ## Deferred steps -/

def isDeferredReady (name : String) (r : JobStepRow) : Bool :=
  decide (r.stepName = name) && r.status == .ready && r.actionType == .deferred

def takeResolveLease (name : String) (token : Uuid) (leaseSecs : Nat) (now : Time) :
    Update JobStepRow where
  guard r := isDeferredReady name r && r.resolveLeaseUntil.all (· < now)
  set r := { r with
    resolveLeaseOwner := some token, resolveLeaseUntil := some (now + leaseSecs) }

def renewResolveLease (name : String) (token : Uuid) (leaseSecs : Nat) (now : Time) :
    Update JobStepRow where
  guard r := isDeferredReady name r && r.resolveLeaseOwner == some token
  set r := { r with resolveLeaseUntil := some (now + leaseSecs) }

inductive DeferredWrite where
  | applied
  | jobTerminal
  | notApplied
  deriving DecidableEq

def deferredJobGate (jobStatus : JobStatus) : Option DeferredWrite :=
  match jobStatus with
  | .pending | .running => none
  | .completed | .failed | .cancelled | .skipped => some .jobTerminal

def writeResolved (name : String) (token : Uuid) (resolved : NewJobStep) (now : Time) :
    Update JobStepRow where
  guard r := isDeferredReady name r && r.resolveLeaseOwner == some token
  set r := { r with
    actionName := resolved.actionName
    actionType := resolved.actionType
    actionImage := resolved.actionImage
    actionSpec := resolved.actionSpec
    requiredAbility := resolved.requiredAbility
    requiredTags := Json.ofStrings resolved.requiredTags
    runner := resolved.runner
    maxRetries := resolved.maxRetries
    retryBackoffSecs := resolved.retryBackoffSecs
    retryStrategy := resolved.retryStrategy
    retryJitter := resolved.retryJitter
    actionWorkspace := resolved.actionWorkspace
    actionRevision := resolved.actionRevision
    actionRef := resolved.actionRef
    taskWorkspace := resolved.taskWorkspace
    taskRef := resolved.taskRef
    taskRevision := resolved.taskRevision
    readyAt := some now
    resolveLeaseOwner := none
    resolveLeaseUntil := none }

def writeDeferredFailure (name : String) (token : Uuid) (error : String) (now : Time) :
    Update JobStepRow where
  guard r := isDeferredReady name r && r.resolveLeaseOwner == some token
  set r := { r with
    status := .failed, errorMessage := some error, completedAt := some now,
    resolveLeaseOwner := none, resolveLeaseUntil := none }

def deferredWrite (write : Update JobStepRow) (jobStatus : JobStatus)
    (rows : List JobStepRow) : DeferredWrite × List JobStepRow :=
  match deferredJobGate jobStatus with
  | some outcome => (outcome, rows)
  | none =>
    (if write.rowsAffected rows = 1 then .applied else .notApplied, write.run rows)

def resolveDeferredTx (jobStatus : JobStatus) (name : String) (token : Uuid)
    (resolved : NewJobStep) (now : Time) (rows : List JobStepRow) :
    DeferredWrite × List JobStepRow :=
  deferredWrite (writeResolved name token resolved now) jobStatus rows

def failDeferredTx (jobStatus : JobStatus) (name : String) (token : Uuid) (error : String)
    (now : Time) (rows : List JobStepRow) : DeferredWrite × List JobStepRow :=
  deferredWrite (writeDeferredFailure name token error now) jobStatus rows

def stampTaskPin (name : String) (pin : TaskPin) : Update JobStepRow where
  guard r := decide (r.stepName = name) && r.status == .ready && r.taskRef == none
  set r := { r with
    taskWorkspace := some pin.workspace, taskRef := some pin.gitRef,
    taskRevision := some pin.commit }

/-! ## Approvals and agents -/

def approveStep (name : String) (output : Option Json) (now : Time) : Update JobStepRow where
  guard r := decide (r.stepName = name) && r.status == .suspended
  set r := { r with status := .completed, output := output, completedAt := some now }

def markSuspended (name : String) (now : Time) : Update JobStepRow where
  guard r := decide (r.stepName = name) && r.status == .ready
  set r := { r with status := .suspended, suspendedAt := some now }

def approvalMessage (message : String) : Json :=
  .obj [("approval_message", .str message)]

def storeApprovalMessage (name message : String) : Update JobStepRow where
  guard r := decide (r.stepName = name)
  set r := { r with output := some (approvalMessage message) }

def updateAgentState (name : String) (state : AgentState) : Update JobStepRow where
  guard r := decide (r.stepName = name)
  set r := { r with agentState := some state }

def suspendAgentStep (name message : String) (now : Time) : Update JobStepRow where
  guard r := decide (r.stepName = name) && r.status == .running
  set r := { r with
    status := .suspended, suspendedAt := some now, output := some (approvalMessage message) }

/-- A waiting agent step back to `ready`: from `running` after its tool children, from
`suspended` after an answered question. -/
def reReadyAgentStep (name : String) (from' : StepStatus) (now : Time) :
    Update JobStepRow where
  guard r := decide (r.stepName = name) && r.status == from'
  set r := { r with status := .ready, readyAt := some now, workerId := none }

def updateInput (name : String) (input : Option Json) : Update JobStepRow where
  guard r := decide (r.stepName = name)
  set r := { r with input := input }

def delayReadySteps (retryAt : Time) : Update JobStepRow where
  guard r := r.status == .ready
  set r := { r with retryAt := some retryAt }

/-! ## Queries -/

def hasLiveSteps (rows : List JobStepRow) : Bool :=
  rows.any fun r => r.status == .running || r.status == .claimed

def isTimedOut (now : Time) (r : JobStepRow) : Bool :=
  r.status == .running &&
    match r.timeoutSecs, r.startedAt with
    | some timeout, some started => (started : Int) + timeout.toInt < now
    | _, _ => false

def isTimedOutSuspended (now : Time) (r : JobStepRow) : Bool :=
  r.status == .suspended &&
    match r.timeoutSecs, r.suspendedAt with
    | some timeout, some suspended => (suspended : Int) + timeout.toInt < now
    | _, _ => false

def observedClaim (r : JobStepRow) : Option ClaimIdentity :=
  match r.workerId, r.startedAt with
  | some workerId, some startedAt => some ⟨workerId, startedAt⟩
  | _, _ => none

end Stroem.JobStepRepo
