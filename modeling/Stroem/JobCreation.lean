import Stroem.JobStepRepo

/-!
# Job creation

The rows a job is created with: one per flow step, built from the step and its resolved action.
How an action, an owner or a pin is resolved is decided elsewhere; `StepSource` carries the
result.  Conversions the source guards with `expect` are `none` here when they do not fit.
-/

namespace Stroem.JobCreation

open Foundation JobStepRepo

def toI32 (n : Nat) : Option Int32 :=
  if n < 2 ^ 31 then some (Int32.ofNat n) else none

structure JobDefaults where
  stepTimeoutSecs : Option Int32 := none
  deriving DecidableEq

def computeRequiredAbility (action : ActionDef) : String :=
  match action.actionType with
  | .task | .approval => ""
  | .agent => "agent"
  | .script =>
    match action.runner with
    | some "docker" => "docker"
    | some "pod" => "kubernetes"
    | _ => "script"
  | .docker => "docker"
  | .pod => "kubernetes"
  | .shell | .eventSource | .deferred => "script"

def computeRequiredTags (action : ActionDef) : List String :=
  match action.actionType with
  | .task | .approval => []
  | _ => action.tags.foldl (fun tags tag => if tags.contains tag then tags else tags ++ [tag]) []

def deriveRunner (action : ActionDef) : String :=
  match action.actionType with
  | .script => action.runner.getD "local"
  | .docker | .pod | .task | .agent | .approval => "none"
  | .shell | .eventSource | .deferred => "local"

def stepTimeout (fs : FlowStep) (defaults : JobDefaults) : Option (Option Int32) :=
  match fs.timeoutSecs with
  | some secs => (toI32 secs).map some
  | none => some defaults.stepTimeoutSecs

def forEachText (jsonText : Json → String) (fs : FlowStep) : Option String :=
  fs.forEach.map fun v =>
    match v with
    | .str s => s
    | other => jsonText other

structure RetryCols where
  maxRetries : Option Int32 := none
  backoffSecs : Option Int32 := none
  strategy : Option String := none
  jitter : Bool := false

def retryCols : Option RetryConfig → Option RetryCols
  | none => some {}
  | some r => do
      let attempts ← if r.maxAttempts = 0 then none else toI32 (r.maxAttempts - 1)
      let delay ← toI32 r.delaySecs
      pure
        { maxRetries := some attempts
          backoffSecs := some delay
          strategy := some (if r.backoff = .exponential then "exponential" else "fixed")
          jitter := r.jitter }

def resolveStepRetryConfig (fs : FlowStep) (action : ActionDef) : Option RetryConfig :=
  fs.retry.or action.retry

def initialStatus (fs : FlowStep) : StepStatus :=
  if fs.forEach.isSome then .pending
  else if fs.dependsOn.isEmpty && fs.when.isNone then .ready
  else .pending

structure ResolvedAction where
  actionName : String
  action : ActionDef
  actionWorkspace : Option String := none
  actionRevision : Option String := none
  actionRef : Option String := none
  taskPin : Option TaskPin := none

/-- What a flow step's row is built from: its action, or the template of its `ref`. -/
inductive StepSource where
  | resolved (found : ResolvedAction)
  | deferred (template owner localName : String)

section Rows

variable (jsonText : Json → String) (defaults : JobDefaults) (jobId : Uuid)

def buildStep (name : String) (fs : FlowStep) (found : ResolvedAction) : Option NewJobStep := do
  let retry ← retryCols (resolveStepRetryConfig fs found.action)
  let timeout ← stepTimeout fs defaults
  pure
    { jobId := jobId
      stepName := name
      actionName := found.actionName
      actionType := found.action.actionType
      actionImage := found.action.image
      actionSpec := found.action.spec
      input := some (.obj (Fields.collect fs.input))
      status := initialStatus fs
      requiredAbility := computeRequiredAbility found.action
      requiredTags := computeRequiredTags found.action
      runner := deriveRunner found.action
      timeoutSecs := timeout
      whenCondition := fs.when
      forEachExpr := forEachText jsonText fs
      maxRetries := retry.maxRetries
      retryBackoffSecs := retry.backoffSecs
      retryStrategy := retry.strategy
      retryJitter := retry.jitter
      actionWorkspace := found.actionWorkspace
      actionRevision := found.actionRevision
      actionRef := found.actionRef
      taskWorkspace := found.taskPin.map TaskPin.workspace
      taskRef := found.taskPin.map TaskPin.gitRef
      taskRevision := found.taskPin.map TaskPin.commit }

def deferredRow (name : String) (fs : FlowStep) (template owner localName : String) :
    Option NewJobStep := do
  let retry ← retryCols fs.retry
  let timeout ← stepTimeout fs defaults
  pure
    { jobId := jobId
      stepName := name
      actionName := localName
      actionType := .deferred
      input := some (.obj (Fields.collect fs.input))
      status := initialStatus fs
      requiredAbility := "deferred"
      runner := "none"
      timeoutSecs := timeout
      whenCondition := fs.when
      forEachExpr := forEachText jsonText fs
      maxRetries := retry.maxRetries
      retryBackoffSecs := retry.backoffSecs
      retryStrategy := retry.strategy
      retryJitter := retry.jitter
      actionWorkspace := some owner
      refTemplate := some template }

def stepRow (source : String → FlowStep → StepSource) (entry : String × FlowStep) :
    Option NewJobStep :=
  match source entry.1 entry.2 with
  | .resolved found => buildStep jsonText defaults jobId entry.1 entry.2 found
  | .deferred template owner localName =>
    deferredRow jsonText defaults jobId entry.1 entry.2 template owner localName

def createSteps (source : String → FlowStep → StepSource) (flow : Flow) (now : Time) :
    Option (List JobStepRow) := do
  let steps ← flow.entries.mapM (stepRow jsonText defaults jobId source)
  (createStepsTx steps now []).toOption

end Rows

/-! ## What the rows say about the flow -/

structure Created (jsonText : Json → String) (entry : String × FlowStep) (r : JobStepRow) :
    Prop where
  stepName : r.stepName = entry.1
  status : r.status = initialStatus entry.2
  whenCondition : r.whenCondition = entry.2.when
  forEachExpr : r.forEachExpr = forEachText jsonText entry.2
  loopSource : r.loopSource = none
  stamped : stampIs (taskStampOf r) r = true

theorem Created.placeholder_pending {jsonText : Json → String} {entry : String × FlowStep}
    {r : JobStepRow} (h : Created jsonText entry r) (hplace : r.isPlaceholder = true) :
    r.status = .pending := by
  have hloop : entry.2.forEach.isSome = true := by
    simpa [JobStepRow.isPlaceholder, h.forEachExpr, forEachText] using hplace
  simp [h.status, initialStatus, hloop]

theorem initialStatus_pending_or_ready (fs : FlowStep) :
    initialStatus fs = .pending ∨ initialStatus fs = .ready := by
  unfold initialStatus
  split
  · exact .inl rfl
  · split
    · exact .inr rfl
    · exact .inl rfl

theorem Created.pending_or_ready {jsonText : Json → String} {entry : String × FlowStep}
    {r : JobStepRow} (h : Created jsonText entry r) : r.status = .pending ∨ r.status = .ready := by
  rw [h.status]
  exact initialStatus_pending_or_ready entry.2

variable {jsonText : Json → String} {defaults : JobDefaults} {jobId : Uuid}
  {source : String → FlowStep → StepSource}

theorem stepRow_created {entry : String × FlowStep} {new : NewJobStep} (now : Time)
    (h : stepRow jsonText defaults jobId source entry = some new) :
    Created jsonText entry (insertedRow now new) := by
  unfold stepRow at h
  split at h
  case h_1 found _ =>
    simp only [buildStep, Option.bind_eq_bind, Option.bind_eq_some_iff] at h
    obtain ⟨retry, -, timeout, -, hnew⟩ := h
    cases hnew
    refine ⟨rfl, rfl, rfl, rfl, rfl, ?_⟩
    cases found.taskPin <;> simp [stampIs, taskStampOf, insertedRow]
  · simp only [deferredRow, Option.bind_eq_bind, Option.bind_eq_some_iff] at h
    obtain ⟨retry, -, timeout, -, hnew⟩ := h
    cases hnew
    exact ⟨rfl, rfl, rfl, rfl, rfl, rfl⟩

theorem createSteps_created {flow : Flow} {now : Time} {rows : List JobStepRow}
    (h : createSteps jsonText defaults jobId source flow now = some rows) :
    List.Forall₂ (Created jsonText) flow.entries rows := by
  simp only [createSteps, Option.bind_eq_bind, Option.bind_eq_some_iff] at h
  obtain ⟨steps, hsteps, hrows⟩ := h
  have hforall : ∀ (entries : List (String × FlowStep)) (steps : List NewJobStep),
      entries.mapM (stepRow jsonText defaults jobId source) = some steps →
      List.Forall₂ (Created jsonText) entries (steps.map (insertedRow now)) := by
    intro entries
    induction entries with
    | nil =>
      intro steps hmap
      obtain rfl : [] = steps := by simpa using hmap
      exact .nil
    | cons entry entries ih =>
      intro steps hmap
      simp only [List.mapM_cons, Option.bind_eq_bind, Option.bind_eq_some_iff] at hmap
      obtain ⟨new, hnew, rest, hrest, heq⟩ := hmap
      cases heq
      exact .cons (stepRow_created now hnew) (ih rest hrest)
  cases htx : createStepsTx steps now [] with
  | error e =>
    rw [htx] at hrows
    cases hrows
  | ok rows' =>
    rw [htx] at hrows
    obtain rfl : rows' = rows := Option.some.inj hrows
    rw [(createStepsTx_ok htx).1, List.nil_append]
    exact hforall flow.entries steps hsteps

theorem createSteps_keyed {flow : Flow} {now : Time} {rows : List JobStepRow}
    (h : createSteps jsonText defaults jobId source flow now = some rows) :
    Keyed JobStepRow.stepName rows := by
  have hnames : rows.map JobStepRow.stepName = flow.entries.map Prod.fst := by
    have hcreated := createSteps_created h
    clear h
    generalize flow.entries = entries at hcreated
    induction hcreated with
    | nil => rfl
    | cons hrow _ ih => rw [List.map_cons, List.map_cons, hrow.stepName, ih]
  unfold Keyed
  rw [hnames]
  exact flow.nodup

def workSource (_ : String) (_ : FlowStep) : StepSource :=
  .resolved { actionName := "work", action := { actionType := .script } }

def workRows (flow : Flow) : List JobStepRow :=
  (createSteps (fun _ => "") {} 1 workSource flow 0).getD []

end Stroem.JobCreation
