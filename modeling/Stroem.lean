import Stroem.Availability.Runs
import Stroem.Kubernetes.Overrides
import Stroem.Kubernetes.Kept
import Stroem.Kubernetes.Names
import Stroem.Settle.Verdict
import Stroem.Engine.LocalServer
import Stroem.Redaction.Closure
import Stroem.Dispatch.Quiescence
import Stroem.Dispatch.Bound
import Stroem.Engine.Compensation
import Stroem.Engine.PlanOrder
import Stroem.Engine.Placeholders
import Stroem.Engine.Rollup
import Stroem.Engine.CancelTree
import Stroem.Engine.Terminal
import Stroem.Engine.ToolResults
import Stroem.Engine.Unmatched
import Stroem.Engine.Approval
import Stroem.Engine.Retry
import Stroem.Engine.Reports
import Stroem.Engine.Lease
import Stroem.Engine.Release
import Stroem.Engine.HookChain
import Stroem.Engine.TaskRetry
import Stroem.Engine.Resolvers
import Stroem.Engine.SuspendedHooks
import Stroem.Leader.Election
import Stroem.Pins.Eviction
import Stroem.EventSource.Policy
import Stroem.Acl.JobScope
import Stroem.Redaction.Response
import Stroem.WorkspaceCache.Guards
import Stroem.Tarball.Reads
import Stroem.Connections.Confinement
import Stroem.Connections.Roles
import Stroem.JobCreation.Panics
import Stroem.LogStorage.TailAgainstFull
import Stroem.AgentLoop.ToolNames
import Stroem.StateStorage.Snapshots
import Stroem.Artifacts.Consistency
import Stroem.InputFiles.Sweep
import Stroem.InputFiles.Lineage
import Stroem.Restart.Carried
import Stroem.Scheduler.Policy
import Stroem.Scheduler.Occurrences
import Stroem.FileField.JobFiles
import Stroem.GitRef
import Stroem.Acl.ListQuery
import Stroem.Acl.Glob
import Stroem.Config.StepForms
import Stroem.Config.Hoist
import Stroem.Config.Library
import Stroem.OAuth.Grants
import Stroem.Events
import Stroem.S3.Parts
import Stroem.Artifacts.Scan
import Stroem.StateUpload.Overlay
import Stroem.EventSource.Fingerprint
import Stroem.JsonField.Once
import Stroem.InputFiles.Stream
import Stroem.Kubernetes.Startup
import Stroem.ScriptExec
