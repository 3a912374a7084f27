import Stroem.Cascade.Apply
import Stroem.Foundation.Rounds
import Stroem.Settle

/-!
# Server-side dispatch

Steps of type `task` and `approval` are dispatched by the server, and a deferred step is resolved
by it.  Each of the three passes reads the rows once, works through the steps it found ready, and
after a failure runs the cascade again, which may make further steps ready that the pass has not
read.

The functions follow the source for a job nobody else writes to.  What the templates, the
workspaces and the creation of child jobs answer is a parameter; a step is dispatched at most
once, so its name tells the answers apart.
-/

namespace Stroem.Dispatch

open Foundation JobStepRepo Cascade

structure RowOrder where
  sort : List JobStepRow → List JobStepRow
  perm : ∀ rows, (sort rows).Perm rows

theorem perm_asRead (rows : List JobStepRow) : (id rows).Perm rows :=
  .refl rows

inductive TaskResult where
  | refused (error : String)
  | uncreated (error : String)
  | created
  deriving DecidableEq

structure TaskOutcome where
  pin : Option TaskPin := none
  input : Option Json := none
  result : TaskResult
  deriving DecidableEq

inductive ApprovalOutcome where
  | unrendered (input : Option Json) (error : String)
  | asked (input : Option Json) (message : String)
  deriving DecidableEq

def ApprovalOutcome.isUnrendered : ApprovalOutcome → Bool
  | .unrendered _ _ => true
  | .asked _ _ => false

structure ResolvedStep where
  row : NewJobStep
  resolved : row.actionType ≠ .deferred
  stamped : stampIs (taskStampOf (insertedRow 0 row)) (insertedRow 0 row) = true

structure DispatchEnv where
  env : TemplateEnv
  task : TaskDef
  job : JobRow
  workspaceConfig : WorkspaceConfig
  snapshots : Snapshots
  order : RowOrder
  now : Time
  leaseSecs : Nat := 60
  leaseToken : String → Uuid
  taskOutcome : String → TaskOutcome
  approvalOutcome : String → ApprovalOutcome
  deferredOutcome : String → Except String ResolvedStep

section

variable (d : DispatchEnv)

/-! ## The cascade after a failure -/

def execute (db : JobTables) : Option JobTables :=
  let steps := d.order.sort db.steps
  (run d.env (passBound steps) d.task d.job steps (some d.workspaceConfig) d.snapshots).bind
    fun plan => (apply d.now db plan).toOption.map Prod.snd

def settleIfAllTerminal (db : JobTables) : JobTables :=
  match Settlement.decide d.task db.steps with
  | none => db
  | some settled =>
    if db.jobStatus = .pending ∨ db.jobStatus = .running then
      { db with jobStatus := settled.status }
    else db

def cascadeAndSettle (db : JobTables) : Option JobTables :=
  (execute d db).map (settleIfAllTerminal d)

/-- `orchestrate_after_server_step_failure`: an error is only logged. -/
def orchestrateAfterFailure (db : JobTables) : JobTables :=
  (cascadeAndSettle d db).getD db

def markRunningIfPendingServer (db : JobTables) : JobTables :=
  { db with jobStatus := markRunningIfPending db.jobStatus }

def failTaskStep (step error : String) (expected : Option (StepStatus × Option TaskPin))
    (db : JobTables) : Bool × JobTables :=
  match expected with
  | some (status, pin) =>
    let u := failTaskDispatch step error status pin d.now
    if u.rowsAffected db.steps = 1 then
      (true, orchestrateAfterFailure d { db with steps := u.run db.steps })
    else (false, db)
  | none =>
    (true, orchestrateAfterFailure d
      { db with steps := (markFailed step error d.now).run db.steps })

/-! ## Task steps -/

def isReadyTask (r : JobStepRow) : Bool :=
  r.status == .ready && r.actionType == .task

def dispatchStamped (step : String) (stamp : Option TaskPin) (db : JobTables) :
    Bool × JobTables :=
  let outcome := d.taskOutcome step
  match outcome.result with
  | .refused error => failTaskStep d step error (some (.ready, stamp)) db
  | result =>
    let claim := claimTaskDispatch step stamp d.now
    if claim.rowsAffected db.steps = 1 then
      let db := markRunningIfPendingServer
        { db with steps := (updateInput step outcome.input).run (claim.run db.steps) }
      match result with
      | .uncreated error => failTaskStep d step error (some (.running, stamp)) db
      | _ => (false, db)
    else (false, db)

/-- One step of a pass; a templated `ref` stamps the row first. -/
def dispatchTask (step : JobStepRow) (db : JobTables) : Bool × JobTables :=
  match taskStampOf step, (d.taskOutcome step.stepName).pin with
  | none, some pin =>
    let u := stampTaskPin step.stepName pin
    if u.rowsAffected db.steps = 1 then
      dispatchStamped d step.stepName (some pin) { db with steps := u.run db.steps }
    else (false, db)
  | stamp, _ => dispatchStamped d step.stepName stamp db

def dispatchAll (dispatch : JobStepRow → JobTables → Bool × JobTables) :
    List JobStepRow → JobTables → Bool × JobTables
  | [], db => (false, db)
  | step :: steps, db =>
    let first := dispatch step db
    let rest := dispatchAll dispatch steps first.2
    (first.1 || rest.1, rest.2)

def handleTaskStepsPass (db : JobTables) : Bool × JobTables :=
  dispatchAll (dispatchTask d) ((d.order.sort db.steps).filter isReadyTask) db

def handleTaskSteps (db : JobTables) : JobTables :=
  repeatWhile (handleTaskStepsPass d) (d.task.flow.keys.length + 1) db

/-! ## Approval steps -/

def isReadyApproval (r : JobStepRow) : Bool :=
  r.status == .ready && r.actionType == .approval

def persistInput (step : String) (input : Option Json) (db : JobTables) : JobTables :=
  match input with
  | none => db
  | some input => { db with steps := (updateInput step (some input)).run db.steps }

def dispatchApproval (step : JobStepRow) (db : JobTables) : Bool × JobTables :=
  match d.approvalOutcome step.stepName with
  | .unrendered input error =>
    failTaskStep d step.stepName error none (persistInput step.stepName input db)
  | .asked input message =>
    let db := persistInput step.stepName input db
    let suspended := (markSuspended step.stepName d.now).run db.steps
    (false, markRunningIfPendingServer
      { db with steps := (storeApprovalMessage step.stepName message).run suspended })

def handleApprovalSteps (db : JobTables) : JobTables :=
  (dispatchAll (dispatchApproval d) ((d.order.sort db.steps).filter isReadyApproval) db).2

/-! ## Deferred steps -/

def isReadyDeferred (r : JobStepRow) : Bool :=
  r.status == .ready && r.actionType == .deferred

def resolveStep (step : JobStepRow) (db : JobTables) : Bool × JobTables :=
  let name := step.stepName
  let token := d.leaseToken name
  let lease := takeResolveLease name token d.leaseSecs d.now
  if lease.rowsAffected db.steps = 1 then
    let rows := lease.run db.steps
    match d.deferredOutcome name with
    | .ok resolved =>
      (false, { db with
        steps := (resolveDeferredTx db.jobStatus name token resolved.row d.now rows).2 })
    | .error err =>
      let message := "[ref] step '" ++ name ++ "': " ++ err
      let write := failDeferredTx db.jobStatus name token message d.now rows
      if write.1 = .applied then (true, orchestrateAfterFailure d { db with steps := write.2 })
      else (false, { db with steps := write.2 })
  else (false, db)

def readyDeferredSteps (db : JobTables) : List JobStepRow :=
  (d.order.sort db.steps).filter isReadyDeferred

def resolvePass (db : JobTables) : Bool × JobTables :=
  dispatchAll (resolveStep d) (readyDeferredSteps d db) db

/--
The passes are bounded by the number of rows, read again before each; `none` is a loop that is
still going after `fuel` passes.
-/
def resolveDeferredSteps : Nat → Nat → JobTables → Option JobTables
  | 0, _, _ => none
  | fuel + 1, passes, db =>
    let stepCount := if (readyDeferredSteps d db).isEmpty then 0 else db.steps.length
    match resolvePass d db with
    | (true, db) =>
      if stepCount < passes + 1 then some db else resolveDeferredSteps fuel (passes + 1) db
    | (false, db) => some db

/-! ## Dispatch rounds -/

structure DispatchRounds where
  seen : List String
  repeats : Nat := 0
  deriving DecidableEq

def DispatchRounds.start (db : JobTables) : DispatchRounds :=
  { seen := (readyDeferredSteps d db).map JobStepRow.stepName }

def absorbNew (seen now : List String) : Bool × List String :=
  now.foldl (fun acc name => if name ∈ acc.2 then acc else (true, name :: acc.2)) (false, seen)

def withinBound (repeats stepCount : Nat) : Bool :=
  repeats ≤ stepCount

def DispatchRounds.again (rounds : DispatchRounds) (db : JobTables) : Bool × DispatchRounds :=
  match absorbNew rounds.seen ((readyDeferredSteps d db).map JobStepRow.stepName) with
  | (false, seen) => (false, { rounds with seen := seen })
  | (true, seen) =>
    (withinBound (rounds.repeats + 1) db.steps.length,
      { seen := seen, repeats := rounds.repeats + 1 })

end

end Stroem.Dispatch
