import Stroem.Workflow

/-!
# Hooks

Which hooks a job fires, and what a job row remembers of the job that caused it.  A hook job
never fires hooks; any other job fires those of its task, or those of the workspace if it is a
top-level run, unless there are already `MAX_HOOK_CHAIN_DEPTH` hook jobs in its ancestry.
-/

namespace Stroem.Hooks

inductive SourceType where
  | api
  | user
  | trigger
  | webhook
  | mcp
  | rerun
  | restart
  | eventSource
  | hook
  | task
  | agentTool
  | retry
  deriving DecidableEq

def isTopLevelSource : SourceType → Bool
  | .api | .user | .trigger | .webhook | .mcp | .retry | .rerun | .restart => true
  | .eventSource | .hook | .task | .agentTool => false

def SourceType.isExternal : SourceType → Bool
  | .hook | .task | .agentTool | .retry => false
  | _ => true

structure HookDef where
  action : String
  deriving DecidableEq

structure HookLists where
  onSuccess : List HookDef := []
  onError : List HookDef := []
  onCancel : List HookDef := []
  onSuspended : List HookDef := []
  deriving DecidableEq

structure HookedTask where
  hooks : HookLists := {}
  maxAttempts : Option Nat := none
  deriving DecidableEq

structure HookConfig where
  hooks : HookLists := {}
  tasks : List (String × HookedTask) := []
  actions : List (String × Option String) := []
  deriving DecidableEq

namespace HookConfig

def task (config : HookConfig) (name : String) : HookedTask :=
  (config.tasks.lookup name).getD {}

def maxRetries (config : HookConfig) (name : String) : Option Nat :=
  (config.task name).maxAttempts.map (· - 1)

end HookConfig

structure LineageJob where
  jobId : Uuid
  taskName : String
  sourceType : SourceType
  sourceIdJob : Option Uuid := none
  sourceJobId : Option Uuid := none
  parentJobId : Option Uuid := none
  status : JobStatus := .pending
  maxRetries : Option Nat := none
  retryAttempt : Nat := 0
  retryOfJobId : Option Uuid := none
  deriving DecidableEq

def LineageJob.isHook (j : LineageJob) : Bool := j.sourceType == .hook

def getJob (jobs : List LineageJob) (id : Uuid) : Option LineageJob :=
  jobs.find? fun j => j.jobId == id

/-! ## The walks up -/

def maxTaskDepth : Nat := 10

def maxHookChainDepth : Nat := 3

def parentHops (jobs : List LineageJob) : Nat → Option Uuid → Nat
  | _, none => 0
  | 0, some _ => 0
  | hops + 1, some parent =>
    1 + parentHops jobs hops ((getJob jobs parent).bind LineageJob.parentJobId)

def computeDepth (jobs : List LineageJob) (job : LineageJob) : Nat :=
  parentHops jobs maxTaskDepth job.parentJobId

/-- The job that the walk of `hook_chain_depth` goes on to. -/
def nextAncestor (job : LineageJob) : Option Uuid :=
  if job.sourceType = .hook then job.sourceJobId <|> job.sourceIdJob else job.parentJobId

def hookLinks (jobs : List LineageJob) : Nat → LineageJob → Nat
  | 0, _ => 0
  | hops + 1, job =>
    (if job.sourceType = .hook then 1 else 0) +
      match (nextAncestor job).bind (getJob jobs) with
      | none => 0
      | some ancestor => hookLinks jobs hops ancestor

def maxHops : Nat := maxHookChainDepth * (maxTaskDepth + 1) + 1

def hookChainDepth (jobs : List LineageJob) (job : LineageJob) : Nat :=
  hookLinks jobs maxHops job

/-! ## Firing -/

inductive HookKind where
  | success
  | error
  | cancel
  | none
  deriving DecidableEq

def hookKind : JobStatus → HookKind
  | .completed => .success
  | .failed => .error
  | .cancelled => .cancel
  | .pending | .running | .skipped => .none

def firedHooks (jobs : List LineageJob) (job : LineageJob) (taskHooks wsHooks : List HookDef) :
    List HookDef :=
  if job.sourceType = .hook then []
  else
    let hooks := if !taskHooks.isEmpty then taskHooks
      else if isTopLevelSource job.sourceType then wsHooks else []
    if hooks.isEmpty then []
    else if maxHookChainDepth ≤ hookChainDepth jobs job then []
    else hooks

def fireHooksOfKind (config : HookConfig) (jobs : List LineageJob) (job : LineageJob) :
    HookKind → List HookDef
  | .success => firedHooks jobs job (config.task job.taskName).hooks.onSuccess
      config.hooks.onSuccess
  | .error => firedHooks jobs job (config.task job.taskName).hooks.onError config.hooks.onError
  | .cancel => firedHooks jobs job (config.task job.taskName).hooks.onCancel config.hooks.onCancel
  | .none => []

def fireSuspendedHooks (config : HookConfig) (jobs : List LineageJob) (job : LineageJob) :
    List HookDef :=
  firedHooks jobs job (config.task job.taskName).hooks.onSuspended config.hooks.onSuspended

inductive HookEvent where
  | terminal
  | suspended
  deriving DecidableEq

def hooksOn (config : HookConfig) (jobs : List LineageJob) (job : LineageJob) :
    HookEvent → List HookDef
  | .terminal => fireHooksOfKind config jobs job (hookKind job.status)
  | .suspended => fireSuspendedHooks config jobs job

/-- `terminal::plan`: a failed top-level job with retries left is retried. -/
def plansRetry (job : LineageJob) : Bool :=
  job.status == .failed && job.parentJobId.isNone &&
    job.maxRetries.any fun max => decide (job.retryAttempt < max)

/-! ## New jobs -/

/-- `fire_single_hook`; no job where the action or its task is missing. -/
def hookJob (config : HookConfig) (source : LineageJob) (hook : HookDef) (id : Uuid) :
    Option LineageJob :=
  match config.actions.lookup hook.action with
  | none => none
  | some (some task) =>
    if (config.tasks.lookup task).isSome then
      some
        { jobId := id, taskName := task, sourceType := .hook,
          sourceIdJob := some source.jobId, sourceJobId := some source.jobId,
          maxRetries := config.maxRetries task }
    else none
  | some none =>
    some
      { jobId := id, taskName := "_hook:" ++ hook.action, sourceType := .hook,
        sourceIdJob := some source.jobId, sourceJobId := some source.jobId }

def childJob (config : HookConfig) (parent : LineageJob) (task : String) (id : Uuid) :
    LineageJob :=
  { jobId := id, taskName := task, sourceType := .task, sourceIdJob := some parent.jobId,
    parentJobId := some parent.jobId, maxRetries := config.maxRetries task }

def retryJob (config : HookConfig) (failed : LineageJob) (id : Uuid) : LineageJob :=
  { jobId := id, taskName := failed.taskName, sourceType := .retry,
    sourceIdJob := some failed.jobId, maxRetries := config.maxRetries failed.taskName,
    retryAttempt := failed.retryAttempt + 1,
    retryOfJobId := failed.retryOfJobId <|> some failed.jobId }

end Stroem.Hooks
