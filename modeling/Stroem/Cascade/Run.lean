import Mathlib.Data.List.Sort
import Stroem.Foundation.Table
import Stroem.Gate
import Stroem.Template
import Stroem.RenderContext

/-!
# The step cascade

`cascade::run` is a pure fixpoint over a job's step rows: three phases compute changes, each
is applied to an in-memory copy of the rows, and the passes repeat until one of them changes
nothing.  The definitions follow the source phase by phase; nothing here touches the database.
-/

namespace Stroem.Cascade

open Foundation

inductive RollupOutcome where
  | completed (output : Json)
  | failed (error : String) (output : Json)
  deriving DecidableEq

inductive Change where
  | promote (step : String)
  | skip (step : String) (reason : SkipReason)
  | fail (step : String) (error : String)
  | expand (placeholder : String) (instances : List NewJobStep)
  | adopt (placeholder : String)
  | rollup (placeholder : String) (outcome : RollupOutcome)
  deriving DecidableEq

structure Plan where
  changes : List Change
  deriving DecidableEq

def maxForEachItems : Nat := 10000

def instanceName (placeholder : String) (i : Nat) : String :=
  placeholder ++ "[" ++ toString i ++ "]"

/-! ## The in-memory rows -/

/--
The rows of a job.  The source keeps an index from step names to positions beside them; it
always points at the last row of a name, which is what `lookupLast` finds.
-/
abbrev Snapshot := List JobStepRow

def syntheticRow (inst : NewJobStep) : JobStepRow where
  jobId := inst.jobId
  stepName := inst.stepName
  actionName := inst.actionName
  actionType := inst.actionType
  actionImage := inst.actionImage
  actionSpec := inst.actionSpec
  input := inst.input
  status := inst.status
  requiredAbility := inst.requiredAbility
  requiredTags := Json.ofStrings inst.requiredTags
  runner := inst.runner
  timeoutSecs := inst.timeoutSecs
  whenCondition := none
  forEachExpr := none
  loopSource := inst.loopSource
  loopIndex := inst.loopIndex
  loopTotal := inst.loopTotal
  loopItem := inst.loopItem
  maxRetries := inst.maxRetries
  retryBackoffSecs := inst.retryBackoffSecs
  retryStrategy := inst.retryStrategy
  retryJitter := inst.retryJitter
  retryHistory := []
  actionWorkspace := inst.actionWorkspace
  actionRevision := inst.actionRevision

namespace Snapshot

def get (snap : Snapshot) (name : String) : Option JobStepRow :=
  lookupLast JobStepRow.stepName name snap

def status (snap : Snapshot) (name : String) : Option StepStatus :=
  (snap.get name).map JobStepRow.status

def outcome (snap : Snapshot) (name : String) : DepOutcome :=
  match snap.get name with
  | some r => DepOutcome.fromRow r.status r.skipReason
  | none => .pending

def modify (snap : Snapshot) (name : String) (f : JobStepRow → JobStepRow) : Snapshot :=
  modifyLast JobStepRow.stepName name f snap

def apply (snap : Snapshot) (change : Change) : Snapshot :=
  match change with
  | .promote step => snap.modify step fun r => { r with status := .ready }
  | .skip step reason =>
    snap.modify step fun r => { r with status := .skipped, skipReason := some reason.asStr }
  | .fail step error =>
    snap.modify step fun r => { r with status := .failed, errorMessage := some error }
  | .expand placeholder instances =>
    (snap.modify placeholder fun r => { r with status := .running }) ++
      instances.map syntheticRow
  | .adopt placeholder => snap.modify placeholder fun r => { r with status := .running }
  | .rollup placeholder (.completed output) =>
    snap.modify placeholder fun r => { r with status := .completed, output := some output }
  | .rollup placeholder (.failed error output) =>
    snap.modify placeholder fun r =>
      { r with status := .failed, errorMessage := some error, output := some output }

def applyAll (snap : Snapshot) (changes : List Change) : Snapshot :=
  changes.foldl apply snap

end Snapshot

def gateFor (snap : Snapshot) (fs : FlowStep) : Gate :=
  gate snap.outcome fs.dependsOn

/-! ## Phase 0: sequential advance and rollup -/

def loopInstances (snap : Snapshot) (placeholder : String) : List JobStepRow :=
  (snap.filter fun r => r.loopSource == some placeholder).insertionSort
    fun a b => a.loopIndex.getD 0 ≤ b.loopIndex.getD 0

def isBad (r : JobStepRow) : Bool :=
  r.status == .failed || r.status == .cancelled

def advanceInstances (instances : List JobStepRow) : List Change :=
  (instances.filter fun i => i.status.isTerminal).filterMap fun i =>
    i.loopIndex.bind fun idx =>
      (instances.find? fun n => n.loopIndex == some (idx + 1) && n.status == .pending).map
        fun next => .promote next.stepName

def debugIndices (indices : List Int32) : String :=
  "[" ++ ", ".intercalate (indices.map toString) ++ "]"

def rollupOutcome (instances : List JobStepRow) : RollupOutcome :=
  let failed := instances.filter fun i => i.status == .failed
  let outputArray := Json.arr (instances.map fun i => i.output.getD .null)
  if failed.isEmpty then .completed outputArray
  else
    .failed ("for_each loop failed: instances " ++
      debugIndices (failed.filterMap JobStepRow.loopIndex) ++ " failed") outputArray

def rollupInstances (placeholder : String) (instances : List JobStepRow) : List Change :=
  if instances.all fun i => i.status.isTerminal then
    [.rollup placeholder (rollupOutcome instances)]
  else []

def isSequential (task : TaskDef) (placeholder : String) : Bool :=
  ((task.flow.get placeholder).map FlowStep.sequential).getD false

def continuesOnFailure (task : TaskDef) (placeholder : String) : Bool :=
  ((task.flow.get placeholder).map FlowStep.continueOnFailure).getD false

def rollupPlaceholder (snap : Snapshot) (task : TaskDef) (ph : JobStepRow) : List Change :=
  let instances := loopInstances snap ph.stepName
  if instances.isEmpty then []
  else
    let sequential := isSequential task ph.stepName
    let cof := continuesOnFailure task ph.stepName
    let pending := instances.filter fun i => i.status == .pending
    if sequential && instances.any isBad && !cof && !pending.isEmpty then
      pending.map fun i => .skip i.stepName .unreachable
    else
      (if sequential then advanceInstances instances else []) ++
        rollupInstances ph.stepName instances

def runningPlaceholders (snap : Snapshot) : List JobStepRow :=
  snap.filter fun r => r.isPlaceholder && r.status == .running

def phaseRollup (snap : Snapshot) (task : TaskDef) : List Change :=
  (runningPlaceholders snap).flatMap (rollupPlaceholder snap task)

/-! ## Phase 1: promotion, relayed until stable -/

def promoteRow (env : TemplateEnv) (task : TaskDef) (snap : Snapshot) (ctx : Option Json)
    (r : JobStepRow) : Option Change :=
  match task.flow.get r.stepName with
  | none => none
  | some fs =>
    match gateFor snap fs with
    | .wait => none
    | .omitted => some (.skip r.stepName .unreachable)
    | .open =>
      match r.whenCondition, ctx with
      | none, _ => some (.promote r.stepName)
      | some _, none => none
      | some w, some c =>
        match evaluateCondition env w c with
        | .ok true => some (.promote r.stepName)
        | .ok false => some (.skip r.stepName .condition)
        | .error e => some (.fail r.stepName ("when condition error: " ++ e))

def pendingSteps (snap : Snapshot) : List JobStepRow :=
  snap.filter fun r => r.status == .pending && !r.isPlaceholder

def promoteBatch (env : TemplateEnv) (task : TaskDef) (snap : Snapshot) (ctx : Option Json) :
    List Change :=
  (pendingSteps snap).filterMap (promoteRow env task snap ctx)

/--
Phase 1 repeats its batch until one is empty, rebuilding the context each time.  The source
loop has no bound; `none` is a run that is still going after `fuel` batches.
-/
def phasePromote (env : TemplateEnv) (task : TaskDef) (buildCtx : Snapshot → Option Json) :
    Nat → Snapshot → Option (List Change × Snapshot)
  | 0, _ => none
  | fuel + 1, snap =>
    let batch := promoteBatch env task snap (buildCtx snap)
    if batch.isEmpty then some ([], snap)
    else
      (phasePromote env task buildCtx fuel (snap.applyAll batch)).map fun rest =>
        (batch ++ rest.1, rest.2)

/-! ## Phase 3: placeholders -/

def expandInstance (fs : FlowStep) (jobId : Uuid) (total : Int32) (r : JobStepRow)
    (i : Nat) (item : Json) : NewJobStep where
  jobId := jobId
  stepName := instanceName r.stepName i
  actionName := r.actionName
  actionType := r.actionType
  actionImage := r.actionImage
  actionSpec := r.actionSpec
  input := r.input
  status := if fs.sequential && 0 < i then .pending else .ready
  requiredAbility := r.requiredAbility
  requiredTags := r.requiredTags.toStringsOrDefault
  runner := r.runner
  timeoutSecs := r.timeoutSecs
  whenCondition := none
  forEachExpr := none
  loopSource := some r.stepName
  loopIndex := some (Int32.ofNat i)
  loopTotal := some total
  loopItem := some item
  maxRetries := r.maxRetries
  retryBackoffSecs := r.retryBackoffSecs
  retryStrategy := r.retryStrategy
  retryJitter := r.retryJitter
  actionWorkspace := r.actionWorkspace
  actionRevision := r.actionRevision
  actionRef := r.actionRef
  taskWorkspace := r.taskWorkspace
  taskRef := r.taskRef
  taskRevision := r.taskRevision
  refTemplate := r.refTemplate

def expandInstances (fs : FlowStep) (jobId : Uuid) (r : JobStepRow) (items : List Json) :
    List NewJobStep :=
  items.mapIdx fun i item => expandInstance fs jobId (Int32.ofNat items.length) r i item

def expandPlaceholder (env : TemplateEnv) (fs : FlowStep) (ctx : Json) (jobId : Uuid)
    (r : JobStepRow) : Change :=
  match parseForEachItems env (r.forEachExpr.getD "") ctx with
  | .error e => .fail r.stepName ("for_each expression error: " ++ e)
  | .ok items =>
    if items.isEmpty then .skip r.stepName .empty
    else if maxForEachItems < items.length then
      .fail r.stepName ("for_each produced " ++ toString items.length ++ " items (max " ++
        toString maxForEachItems ++ ")")
    else .expand r.stepName (expandInstances fs jobId r items)

def placeholderRow (env : TemplateEnv) (task : TaskDef) (snap : Snapshot) (ctx : Json)
    (jobId : Uuid) (r : JobStepRow) : Option Change :=
  match task.flow.get r.stepName with
  | none => none
  | some fs =>
    if (snap.status (instanceName r.stepName 0)).isSome then some (.adopt r.stepName)
    else
      match gateFor snap fs with
      | .wait => none
      | .omitted => some (.skip r.stepName .unreachable)
      | .open =>
        match r.whenCondition with
        | none => some (expandPlaceholder env fs ctx jobId r)
        | some w =>
          match evaluateCondition env w ctx with
          | .ok true => some (expandPlaceholder env fs ctx jobId r)
          | .ok false => some (.skip r.stepName .condition)
          | .error e => some (.fail r.stepName ("when condition error: " ++ e))

def pendingPlaceholders (snap : Snapshot) : List JobStepRow :=
  snap.filter fun r => r.status == .pending && r.isPlaceholder

def phasePlaceholders (env : TemplateEnv) (snap : Snapshot) (task : TaskDef)
    (ctx : Option Json) (jobId : Uuid) : List Change :=
  match ctx with
  | none => []
  | some ctx => (pendingPlaceholders snap).filterMap (placeholderRow env task snap ctx jobId)

/-! ## The fixpoint -/

section Run

variable (env : TemplateEnv) (task : TaskDef) (job : JobRow)
  (workspaceConfig : Option WorkspaceConfig) (snapshots : Snapshots)

def buildCtx (snap : Snapshot) : Option Json :=
  workspaceConfig.map fun ws => conditionContext job snap ws snapshots

/--
The pass loop.  `0` remaining passes is the source's bound check, which breaks with the
changes made so far; `fuel` bounds the inner loop of phase 1 alone.
-/
def runLoop (fuel : Nat) : Nat → Snapshot → Option (List Change)
  | 0, _ => some []
  | passes + 1, snap =>
    let p0 := phaseRollup snap task
    let snap1 := snap.applyAll p0
    (phasePromote env task (buildCtx job workspaceConfig snapshots) fuel snap1).bind
      fun (p1, snap2) =>
        let p3 := phasePlaceholders env snap2 task
          (buildCtx job workspaceConfig snapshots snap2) job.jobId
        let pass := p0 ++ p1 ++ p3
        if pass.isEmpty then some []
        else (runLoop fuel passes (snap2.applyAll p3)).map (pass ++ ·)

def passBound (steps : List JobStepRow) : Nat :=
  4 * (steps.length + maxForEachItems * (pendingPlaceholders steps).length) + 1

end Run

def collectConfigSecretValues (cfg : WorkspaceConfig) : List String :=
  cfg.secrets.flatMap fun s => s.2.collectStrings

def Change.redact (env : TemplateEnv) (secretValues : List String) : Change → Change
  | .fail step error => .fail step (env.redactSecretsInStr error secretValues)
  | other => other

/-- The scrub of every failure message before the plan leaves `run`. -/
def redactChanges (env : TemplateEnv) (workspaceConfig : Option WorkspaceConfig)
    (changes : List Change) : List Change :=
  match workspaceConfig with
  | none => changes
  | some cfg =>
    let secretValues := collectConfigSecretValues cfg
    if secretValues.isEmpty then changes
    else changes.map (Change.redact env secretValues)

/-- `cascade::run`; `none` only when the inner loop of phase 1 exceeds `fuel`. -/
def run (env : TemplateEnv) (fuel : Nat) (task : TaskDef) (job : JobRow)
    (steps : List JobStepRow) (workspaceConfig : Option WorkspaceConfig)
    (snapshots : Snapshots) : Option Plan :=
  (runLoop env task job workspaceConfig snapshots fuel (passBound steps) steps).map
    fun changes => ⟨redactChanges env workspaceConfig changes⟩

end Stroem.Cascade
