import Mathlib.Algebra.GroupWithZero.Nat
import Mathlib.Algebra.Group.Int.Defs
import Stroem.JobStep
import Mathlib.Data.List.Sort

/-!
# One reconcile pass over the event sources

A pass compares the configured event sources with the jobs of the database: it cancels
duplicates and jobs of removed sources, replaces a job whose configuration changed, creates a
job for a new source and restarts recently finished ones.  Everything it decides, it decides
from the rows it read at the start.  Times are nanoseconds.
-/

namespace Stroem.EventSource

inductive RestartPolicy where
  | always
  | onFailure
  | never
  deriving DecidableEq

structure DesiredEventSource where
  workspace : String
  triggerName : String
  task : String
  targetTask : String
  env : Fields := []
  inputDefaults : Fields := []
  restartPolicy : RestartPolicy := .always
  backoffSecs : Nat := 5
  maxInFlight : Option Nat := none
  fingerprint : String
  deriving DecidableEq

def DesiredEventSource.sourceId (des : DesiredEventSource) : String :=
  des.workspace ++ "/" ++ des.triggerName

structure EventSourceJobRow where
  jobId : Uuid
  sourceType : String := "event_source"
  sourceId : Option String
  input : Option Json := none
  status : JobStatus := .pending
  createdAt : Time
  completedAt : Option Time := none
  deriving DecidableEq

/-! ## The rows a pass reads -/

def getKey (key : String) : Json → Option Json
  | .obj fields => Fields.get key fields
  | _ => none

def asU64 : Json → Option Nat
  | .num (.int n) => if 0 ≤ n ∧ n < 2 ^ 64 then some n.toNat else none
  | _ => none

namespace EventSourceJobRow

def source (row : EventSourceJobRow) : String := row.sourceId.getD ""

def fingerprint (row : EventSourceJobRow) : String :=
  ((row.input.bind (getKey "_fingerprint")).bind Json.asStr).getD ""

def isActive (row : EventSourceJobRow) : Bool :=
  row.sourceType == "event_source" && !row.status.isTerminal

def endedAt (row : EventSourceJobRow) : Time := row.completedAt.getD row.createdAt

def terminalWindow : Time := 600 * 1000000000

def isRecentlyEnded (dbNow : Time) (row : EventSourceJobRow) : Bool :=
  row.sourceType == "event_source" && (row.status == .completed || row.status == .failed) &&
    decide (dbNow < row.endedAt + terminalWindow)

def failed (row : EventSourceJobRow) : Bool := row.status == .failed

def consecutiveFailures (row : EventSourceJobRow) : Nat :=
  (((row.input.bind (getKey "_event_source")).bind (getKey "consecutive_failures")).bind
    asU64).getD 0

def nextFailures (row : EventSourceJobRow) : Nat :=
  if row.failed then (row.consecutiveFailures + 1) % 2 ^ 64 else 0

end EventSourceJobRow

def activeOf (rows : List EventSourceJobRow) (sourceId : String) : List EventSourceJobRow :=
  rows.filter fun row => row.isActive && row.source == sourceId

def loadTerminal (rows : List EventSourceJobRow) (dbNow : Time) : List EventSourceJobRow :=
  (rows.filter (·.isRecentlyEnded dbNow)).insertionSort fun a b => b.createdAt ≤ a.createdAt

def endedOf (rows : List EventSourceJobRow) (dbNow : Time) (sourceId : String) :
    List EventSourceJobRow :=
  (loadTerminal rows dbNow).filter fun row => row.source == sourceId

/-! ## Restarting -/

def shouldRestart (policy : RestartPolicy) (jobFailed : Bool) : Bool :=
  match policy with
  | .always => true
  | .onFailure => jobFailed
  | .never => false

/-- One second after a successful exit, exponential back-off of at most five minutes after a
failure. -/
def delaySecs (backoffSecs nextFailures : Nat) : Nat :=
  if nextFailures = 0 then 1
  else min (min (backoffSecs * 2 ^ min (nextFailures - 1) 10) (2 ^ 64 - 1)) 300

def elapsedSecs (now completedAt : Time) : Int :=
  ((now : Int) - completedAt).tdiv 1000000000

def backedOff (backoffSecs : Nat) (now : Time) (row : EventSourceJobRow) : Bool :=
  decide ((delaySecs backoffSecs row.nextFailures : Int) ≤ elapsedSecs now row.endedAt)

def due (des : DesiredEventSource) (now : Time) (row : EventSourceJobRow) : Option Nat :=
  if shouldRestart des.restartPolicy row.failed && backedOff des.backoffSecs now row then
    some row.nextFailures
  else none

/-! ## The pass -/

inductive Effect where
  | cancel (jobId : Uuid)
  | create (des : DesiredEventSource) (consecutiveFailures : Nat)
  deriving DecidableEq

def keepIdx (fingerprint : String) (jobs : List EventSourceJobRow) : Nat :=
  (jobs.findIdx? fun row => row.fingerprint == fingerprint).getD 0

def replaceKept (des : DesiredEventSource) : Option EventSourceJobRow → List Effect
  | some kept =>
    if kept.fingerprint == des.fingerprint then []
    else [.cancel kept.jobId, .create des 0]
  | none => []

def replace (des : DesiredEventSource) (jobs : List EventSourceJobRow) : List Effect :=
  let keep := keepIdx des.fingerprint jobs
  (jobs.eraseIdx keep).map (fun row => .cancel row.jobId) ++ replaceKept des jobs[keep]?

def ensureJob (rows terminal : List EventSourceJobRow) (des : DesiredEventSource) :
    List Effect :=
  match activeOf rows des.sourceId with
  | [] =>
    if terminal.any fun row => row.source == des.sourceId then [] else [.create des 0]
  | jobs => replace des jobs

def stopRemoved (desired : List DesiredEventSource) (rows : List EventSourceJobRow) :
    List Effect :=
  (rows.filter fun row => row.isActive && !(desired.map (·.sourceId)).contains row.source).map
    fun row => .cancel row.jobId

def restart (desired : List DesiredEventSource) (rows : List EventSourceJobRow)
    (utcNow : EventSourceJobRow → Time) (row : EventSourceJobRow) :
    Option (DesiredEventSource × Nat) :=
  if (activeOf rows row.source).isEmpty then
    (desired.find? fun des => des.sourceId == row.source).bind fun des =>
      (due des (utcNow row) row).map fun failures => (des, failures)
  else none

def reconcile (desired : List DesiredEventSource) (rows : List EventSourceJobRow) (dbNow : Time)
    (utcNow : EventSourceJobRow → Time) : List Effect :=
  let terminal := loadTerminal rows dbNow
  desired.flatMap (ensureJob rows terminal) ++ stopRemoved desired rows ++
    (terminal.filterMap (restart desired rows utcNow)).map fun (des, failures) =>
      .create des failures

/-! ## What it leaves behind -/

def jobInput (des : DesiredEventSource) (consecutiveFailures : Nat) : Json :=
  .obj (Fields.collect [
    ("_fingerprint", .str des.fingerprint),
    ("_event_source", .obj (Fields.collect [
      ("target_task", .str des.targetTask),
      ("source_id", .str des.sourceId),
      ("input_defaults", .obj des.inputDefaults),
      ("max_in_flight", match des.maxInFlight with
        | none => .null
        | some n => .num (.int n)),
      ("env", .obj des.env),
      ("backoff_secs", .num (.int des.backoffSecs)),
      ("consecutive_failures", .num (.int consecutiveFailures))]))])

def Effect.cancelled : Effect → Option Uuid
  | .cancel jobId => some jobId
  | .create _ _ => none

def Effect.created (sourceId : String) : Effect → Option Nat
  | .cancel _ => none
  | .create des failures => if des.sourceId = sourceId then some failures else none

def cancelled (effects : List Effect) : List Uuid := effects.filterMap Effect.cancelled

def creations (sourceId : String) (effects : List Effect) : List Nat :=
  effects.filterMap (Effect.created sourceId)

def Effect.create? : Effect → Option (DesiredEventSource × Nat)
  | .cancel _ => none
  | .create des failures => some (des, failures)

def jobRow (jobId : Uuid) (now : Time) (des : DesiredEventSource) (failures : Nat) :
    EventSourceJobRow where
  jobId := jobId
  sourceId := some des.sourceId
  input := some (jobInput des failures)
  createdAt := now

def insertRow (ids : Nat → Option Uuid) (now : Time)
    (start : (DesiredEventSource × Nat) × Nat) : Option EventSourceJobRow :=
  (ids start.2).map fun jobId => jobRow jobId now start.1.1 start.1.2

def inserted (ids : Nat → Option Uuid) (now : Time) (effects : List Effect) :
    List EventSourceJobRow :=
  (effects.filterMap Effect.create?).zipIdx.filterMap (insertRow ids now)

def after (ids : Nat → Option Uuid) (now : Time) (effects : List Effect)
    (rows : List EventSourceJobRow) : List EventSourceJobRow :=
  rows.map (fun row =>
    if (cancelled effects).contains row.jobId && !row.status.isTerminal then
      { row with status := .cancelled, completedAt := some now }
    else row) ++ inserted ids now effects

end Stroem.EventSource
