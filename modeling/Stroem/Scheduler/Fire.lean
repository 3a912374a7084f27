import Stroem.Hooks
import Stroem.JobRepo

/-!
# Firing a trigger

`fire_trigger` applies the concurrency policy of a trigger and creates its job.  The jobs that the
policy looks at are found by the columns `source_type` and `source_id`.  A failed job with retries
left goes on in a retry job, which settlement creates some time after the terminal claim.  One
event below is one statement.
-/

namespace Stroem.Scheduler

open Foundation Hooks JobRepo

inductive ConcurrencyPolicy
  | allow
  | skip
  | cancelPrevious
  deriving DecidableEq

structure Trigger where
  workspace : String
  triggerName : String
  deriving DecidableEq

def Trigger.sourceId (trigger : Trigger) : String :=
  trigger.workspace ++ "/" ++ trigger.triggerName

structure SourcedJob extends LineageJob where
  sourceId : Option String := none
  claimed : Bool := false
  startedBy : Option Trigger := none
  deriving DecidableEq

def SourcedJob.isActive (job : SourcedJob) : Bool :=
  job.status == .pending || job.status == .running

def SourcedJob.after (job : SourcedJob) (w : JobWrite) : SourcedJob :=
  { job with status := (jobAfter 0 { status := job.status } w).status }

def activeBySource (sourceType : SourceType) (sourceId : String) (job : SourcedJob) : Bool :=
  job.sourceType == sourceType && job.sourceId == some sourceId && job.isActive

def countActiveBySource (jobs : List SourcedJob) (sourceType : SourceType) (sourceId : String) :
    Nat :=
  jobs.countP (activeBySource sourceType sourceId)

def getActiveJobIdsBySource (jobs : List SourcedJob) (sourceType : SourceType)
    (sourceId : String) : List Uuid :=
  (jobs.filter (activeBySource sourceType sourceId)).map (·.jobId)

inductive Phase
  | resolving
  | passed (left : List Uuid)
  deriving DecidableEq

structure Fire where
  trigger : Trigger
  policy : ConcurrencyPolicy
  taskName : String
  phase : Phase := .resolving
  deriving DecidableEq

structure State where
  jobs : List SourcedJob := []
  firing : Option Fire := none
  retrying : List SourcedJob := []
  deriving DecidableEq

inductive Event
  | fire (trigger : Trigger) (policy : ConcurrencyPolicy) (taskName : String)
  | missed
  | applyPolicy (skippedId : Uuid)
  | cancelNext
  | createJob (id : Uuid) (maxRetries : Option Nat)
  | refused
  | write (id : Uuid) (w : JobWrite)
  | claim (id : Uuid)
  | retry (failed : SourcedJob) (config : HookConfig) (id : Uuid)
  | submit (job : SourcedJob)

def State.fresh (s : State) (id : Uuid) : Bool := s.jobs.all fun job => job.jobId != id

def updateJob (id : Uuid) (set : SourcedJob → SourcedJob) (jobs : List SourcedJob) :
    List SourcedJob :=
  updateWhere (fun job => job.jobId == id) set jobs

def skippedJob (fire : Fire) (id : Uuid) : SourcedJob where
  jobId := id
  taskName := fire.taskName
  sourceType := .trigger
  sourceId := some fire.trigger.sourceId
  status := .skipped

def createdJob (fire : Fire) (id : Uuid) (maxRetries : Option Nat) : SourcedJob where
  jobId := id
  taskName := fire.taskName
  sourceType := .trigger
  sourceId := some fire.trigger.sourceId
  maxRetries := maxRetries
  startedBy := some fire.trigger

def createdRetryJob (config : HookConfig) (failed : SourcedJob) (id : Uuid) : SourcedJob where
  toLineageJob := retryJob config failed.toLineageJob id
  sourceId := some (toString failed.jobId)
  startedBy := failed.startedBy

def applyPolicy (s : State) (fire : Fire) (skippedId : Uuid) : State :=
  match fire.policy with
  | .skip =>
    if 0 < countActiveBySource s.jobs .trigger fire.trigger.sourceId then
      { s with jobs := s.jobs ++ [skippedJob fire skippedId], firing := none }
    else { s with firing := some { fire with phase := .passed [] } }
  | .cancelPrevious =>
    let active := getActiveJobIdsBySource s.jobs .trigger fire.trigger.sourceId
    { s with firing := some { fire with phase := .passed active } }
  | .allow => { s with firing := some { fire with phase := .passed [] } }

def step (s : State) : Event → Option State
  | .fire trigger policy taskName =>
    match s.firing with
    | none => some { s with firing := some { trigger, policy, taskName } }
    | some _ => none
  | .missed =>
    match s.firing with
    | some { phase := .resolving, .. } => some { s with firing := none }
    | _ => none
  | .applyPolicy skippedId =>
    match s.firing with
    | some fire =>
      if fire.phase = .resolving ∧ s.fresh skippedId then some (applyPolicy s fire skippedId)
      else none
    | none => none
  | .cancelNext =>
    match s.firing with
    | some fire =>
      match fire.phase with
      | .passed (id :: left) =>
        some { s with
          jobs := updateJob id (·.after .cancel) s.jobs
          firing := some { fire with phase := .passed left } }
      | _ => none
    | none => none
  | .createJob id maxRetries =>
    match s.firing with
    | some fire =>
      if fire.phase = .passed [] ∧ s.fresh id then
        some { s with jobs := s.jobs ++ [createdJob fire id maxRetries], firing := none }
      else none
    | none => none
  | .refused =>
    match s.firing with
    | some fire => if fire.phase = .passed [] then some { s with firing := none } else none
    | none => none
  | .write id w => some { s with jobs := updateJob id (·.after w) s.jobs }
  | .claim id =>
    match s.jobs.find? fun job => job.jobId == id with
    | some job =>
      if job.status.isTerminal ∧ ¬job.claimed then
        some { s with
          jobs := updateJob id (fun job => { job with claimed := true }) s.jobs
          retrying := if plansRetry job.toLineageJob then s.retrying ++ [job] else s.retrying }
      else none
    | none => none
  | .retry failed config id =>
    if failed ∈ s.retrying ∧ s.fresh id then
      some { s with
        jobs := s.jobs ++ [createdRetryJob config failed id]
        retrying := s.retrying.erase failed }
    else none
  | .submit job =>
    if job.sourceType ≠ .trigger ∧ job.sourceType ≠ .retry ∧ job.startedBy = none ∧
        s.fresh job.jobId then
      some { s with jobs := s.jobs ++ [job] }
    else none

end Stroem.Scheduler
