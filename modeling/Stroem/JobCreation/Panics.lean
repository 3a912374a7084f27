import Stroem.RefPins

/-!
# Creations that panic

The job and step columns hold 32-bit integers, and the creation converts timeouts and retry
blocks with `expect`.  `stroem validate` bounds them; neither the workspace loader nor the
creation calls that validator.  `Abort` tells a creation that is rejected from one that panics.
-/

namespace Stroem.JobCreation

open Foundation JobStepRepo RefPins

inductive Abort where
  | panicked
  | rejected
  deriving DecidableEq

def expect {α : Type} : Option α → Except Abort α
  | some a => .ok a
  | none => .error .panicked

def accepted {α : Type} : Option α → Except Abort α
  | some a => .ok a
  | none => .error .rejected

/-! ## The checks on `depends_on` -/

def leafName : DependsOnEntry → Option String
  | .name step => some step
  | .step step _ => some step
  | _ => none

def siblingsOk (children : List DependsOnEntry) : Bool :=
  (children.filterMap leafName).Nodup

mutual

def nestedOk : DependsOnEntry → Bool
  | .name _ => true
  | .step _ .any => true
  | .step _ (.outcomes v) => !v.isEmpty && v.Nodup
  | .all entries => !entries.isEmpty && siblingsOk entries && nestedOkList entries
  | .any entries => !entries.isEmpty && siblingsOk entries && nestedOkList entries

def nestedOkList : List DependsOnEntry → Bool
  | [] => true
  | e :: es => nestedOk e && nestedOkList es

end

def validateTree (entries : List DependsOnEntry) : Bool :=
  siblingsOk entries && nestedOkList entries

structure JobTask extends TaskDef where
  legacy : List String := []
  timeoutSecs : Option Nat := none
  retry : Option RetryConfig := none

def validateTaskDependencyShape (task : JobTask) : Bool :=
  task.flow.entries.all fun entry =>
    !task.legacy.contains entry.1 && validateTree entry.2.dependsOn

/-! ## Job creation -/

structure JobCols where
  timeoutSecs : Option Int32
  maxRetries : Option Int32
  deriving DecidableEq

def jobMaxRetries : Option RetryConfig → Option (Option Int32)
  | none => some none
  | some r => if r.maxAttempts = 0 then none else (toI32 (r.maxAttempts - 1)).map some

def jobTimeout (jobTimeoutSecs : Option Int32) : Option Nat → Option (Option Int32)
  | some secs => (toI32 secs).map some
  | none => some jobTimeoutSecs

def jobCols (jobTimeoutSecs : Option Int32) (task : JobTask) : Option JobCols := do
  let timeout ← jobTimeout jobTimeoutSecs task.timeoutSecs
  let maxRetries ← jobMaxRetries task.retry
  pure ⟨timeout, maxRetries⟩

section Create

variable (jsonText : Json → String) (defaults : JobDefaults) (w : Workspaces) (job : JobPins)

def buildRows : List (String × FlowStep) → RefMemo → Except Abort (List NewJobStep × RefMemo)
  | [], memo => .ok ([], memo)
  | (name, fs) :: rest, memo => do
      let (source, memo) ← accepted (stepSource w job name fs memo)
      let row ← expect (stepRow jsonText defaults job.jobId (fun _ _ => source) (name, fs))
      let (rows, memo) ← buildRows rest memo
      pure (row :: rows, memo)

structure CreationEnv where
  /-- Lineage, file inputs, defaults and connections pass; none of them reads a timeout or a
  retry block. -/
  inputsOk : Bool := true
  begins : Bool := true

def createJob (jobTimeoutSecs : Option Int32) (env : CreationEnv) (task : JobTask) :
    Except Abort (JobCols × List NewJobStep × RefMemo) := do
  if !validateTaskDependencyShape task then throw .rejected
  if !env.inputsOk then throw .rejected
  let (rows, memo) ← buildRows jsonText defaults w job task.flow.entries job.memo
  if !env.begins then throw .rejected
  let cols ← expect (jobCols jobTimeoutSecs task)
  return (cols, rows, memo)

def fireSingleHook (env : CreationEnv) (hookAction : String) (action : ActionDef)
    (renderedInput : Json) : Except Abort NewJobStep := do
  if !env.inputsOk then throw .rejected
  if !env.begins then throw .rejected
  let row ← expect (buildStep jsonText defaults job.jobId "hook" { action := hookAction }
    { actionName := hookAction, action := action })
  return { row with input := some renderedInput, status := .ready }

def buildDeferred (step : JobStepRow) (fs : FlowStep) (value : Option String) (pins : RefMemo) :
    Except Abort (NewJobStep × RefMemo) := do
  let owner := step.actionWorkspace.getD job.workspace
  let (found, memo) ← accepted (resolveStepRow w job step.stepName
    (writtenAction owner job.workspace step.actionName) value (insertAllFirst [] pins))
  let row ← expect (buildStep jsonText defaults job.jobId step.stepName fs found)
  if row.actionWorkspace.getD job.workspace = owner ∧ row.actionName = step.actionName then
    return ({ row with status := .ready }, memo)
  else throw .rejected

end Create

/-! ## What fits the columns -/

structure RetryFits (r : RetryConfig) : Prop where
  positive : 0 < r.maxAttempts
  attempts : r.maxAttempts ≤ 2 ^ 31
  delay : r.delaySecs < 2 ^ 31

def TimeoutFits (timeoutSecs : Option Nat) : Prop := ∀ secs, timeoutSecs = some secs → secs < 2 ^ 31

def StepSource.retry (fs : FlowStep) : StepSource → Option RetryConfig
  | .resolved found => resolveStepRetryConfig fs found.action
  | .deferred _ _ _ => fs.retry

structure StepFits (fs : FlowStep) (retry : Option RetryConfig) : Prop where
  timeout : TimeoutFits fs.timeoutSecs
  retry : ∀ r, retry = some r → RetryFits r

structure JobFits (task : JobTask) : Prop where
  timeout : TimeoutFits task.timeoutSecs
  retry : ∀ r, task.retry = some r → 0 < r.maxAttempts ∧ r.maxAttempts ≤ 2 ^ 31

def reached (w : Workspaces) (job : JobPins) :
    List (String × FlowStep) → RefMemo → List (FlowStep × StepSource)
  | [], _ => []
  | (name, fs) :: rest, memo =>
    match stepSource w job name fs memo with
    | none => []
    | some (source, memo) => (fs, source) :: reached w job rest memo

theorem toI32_isSome_iff {n : Nat} : (toI32 n).isSome ↔ n < 2 ^ 31 := by
  unfold toI32
  split
  · rename_i h
    exact iff_of_true rfl h
  · rename_i h
    exact iff_of_false (by simp) h

theorem stepTimeout_isSome_iff {fs : FlowStep} {defaults : JobDefaults} :
    (stepTimeout fs defaults).isSome ↔ TimeoutFits fs.timeoutSecs := by
  unfold stepTimeout TimeoutFits
  cases fs.timeoutSecs with
  | none => simp
  | some secs => simp [toI32_isSome_iff]

theorem retryCols_isSome_iff {retry : Option RetryConfig} :
    (retryCols retry).isSome ↔ ∀ r, retry = some r → RetryFits r := by
  cases retry with
  | none => simp [retryCols]
  | some r =>
    have hfits : RetryFits r ↔
        0 < r.maxAttempts ∧ r.maxAttempts - 1 < 2 ^ 31 ∧ r.delaySecs < 2 ^ 31 := by
      constructor
      · rintro ⟨hpos, hattempts, hdelay⟩
        exact ⟨hpos, by omega, hdelay⟩
      · rintro ⟨hpos, hattempts, hdelay⟩
        exact ⟨hpos, by omega, hdelay⟩
    have hone : (∀ r', some r = some r' → RetryFits r') ↔ RetryFits r := by simp
    rw [hone, hfits, ← toI32_isSome_iff, ← toI32_isSome_iff]
    unfold retryCols
    by_cases hzero : r.maxAttempts = 0
    · simp [hzero]
    · cases hattempts : toI32 (r.maxAttempts - 1) with
      | none => simp [hzero, hattempts]
      | some attempts =>
        cases hdelay : toI32 r.delaySecs with
        | none => simp [hzero, hattempts, hdelay]
        | some delay => simpa [hzero, hattempts, hdelay] using Nat.pos_of_ne_zero hzero

theorem jobCols_isSome_iff {jobTimeoutSecs : Option Int32} {task : JobTask} :
    (jobCols jobTimeoutSecs task).isSome ↔ JobFits task := by
  have hretry : (jobMaxRetries task.retry).isSome ↔
      ∀ r, task.retry = some r → 0 < r.maxAttempts ∧ r.maxAttempts ≤ 2 ^ 31 := by
    cases task.retry with
    | none => simp [jobMaxRetries]
    | some r =>
      simp only [jobMaxRetries, Option.some.injEq, forall_eq']
      split
      · simp_all
      · rw [Option.isSome_map, toI32_isSome_iff]
        omega
  have htimeout : (jobTimeout jobTimeoutSecs task.timeoutSecs).isSome ↔
      TimeoutFits task.timeoutSecs := by
    unfold TimeoutFits
    cases task.timeoutSecs with
    | none => simp [jobTimeout]
    | some secs => simp [jobTimeout, toI32_isSome_iff]
  have hfits : JobFits task ↔ TimeoutFits task.timeoutSecs ∧
      ∀ r, task.retry = some r → 0 < r.maxAttempts ∧ r.maxAttempts ≤ 2 ^ 31 :=
    ⟨fun h => ⟨h.timeout, h.retry⟩, fun h => ⟨h.1, h.2⟩⟩
  rw [hfits, ← hretry, ← htimeout]
  unfold jobCols
  cases jobTimeout jobTimeoutSecs task.timeoutSecs with
  | none => simp
  | some timeout =>
    cases jobMaxRetries task.retry with
    | none => simp
    | some maxRetries => simp

section Rows

variable {jsonText : Json → String} {defaults : JobDefaults} {w : Workspaces} {job : JobPins}

private theorem stepFits_iff {fs : FlowStep} {retry : Option RetryConfig} :
    StepFits fs retry ↔ (retryCols retry).isSome ∧ (stepTimeout fs defaults).isSome := by
  rw [retryCols_isSome_iff, stepTimeout_isSome_iff]
  exact ⟨fun h => ⟨h.retry, h.timeout⟩, fun h => ⟨h.2, h.1⟩⟩

theorem buildStep_isSome_iff {jobId : Uuid} {name : String} {fs : FlowStep}
    {found : ResolvedAction} : (buildStep jsonText defaults jobId name fs found).isSome ↔
      StepFits fs (resolveStepRetryConfig fs found.action) := by
  rw [@stepFits_iff defaults]
  unfold buildStep
  cases retryCols (resolveStepRetryConfig fs found.action) with
  | none => simp
  | some retry => cases stepTimeout fs defaults <;> simp

theorem deferredRow_isSome_iff {jobId : Uuid} {name template owner localName : String}
    {fs : FlowStep} :
    (deferredRow jsonText defaults jobId name fs template owner localName).isSome ↔
      StepFits fs fs.retry := by
  rw [@stepFits_iff defaults]
  unfold deferredRow
  cases retryCols fs.retry with
  | none => simp
  | some retry => cases stepTimeout fs defaults <;> simp

theorem stepRow_isSome_iff (jsonText : Json → String) (defaults : JobDefaults) (jobId : Uuid)
    (source : StepSource) (name : String) (fs : FlowStep) :
    (stepRow jsonText defaults jobId (fun _ _ => source) (name, fs)).isSome ↔
      StepFits fs (source.retry fs) := by
  cases source with
  | resolved found => exact buildStep_isSome_iff
  | deferred template owner localName => exact deferredRow_isSome_iff

theorem buildRows_iff (entries : List (String × FlowStep)) (memo : RefMemo) :
    (buildRows jsonText defaults w job entries memo ≠ .error .panicked ↔
      ∀ x ∈ reached w job entries memo, StepFits x.1 (x.2.retry x.1)) ∧
    ((∃ rows, buildRows jsonText defaults w job entries memo = .ok rows) ↔
      buildRows jsonText defaults w job entries memo ≠ .error .panicked ∧
        (reached w job entries memo).length = entries.length) := by
  induction entries generalizing memo with
  | nil => simp [buildRows, reached]
  | cons entry rest ih =>
    obtain ⟨name, fs⟩ := entry
    unfold buildRows reached
    cases hsource : stepSource w job name fs memo with
    | none => simp [accepted, bind, Except.bind]
    | some found =>
      obtain ⟨source, memo'⟩ := found
      obtain ⟨hpanic, hok⟩ := ih memo'
      simp only [accepted, bind, Except.bind, List.mem_cons, forall_eq_or_imp,
        List.length_cons, Nat.add_right_cancel_iff]
      rw [← stepRow_isSome_iff jsonText defaults job.jobId source name fs, ← hpanic]
      cases hrow : stepRow jsonText defaults job.jobId (fun _ _ => source) (name, fs) with
      | none => simp [expect]
      | some row =>
        cases hrest : buildRows jsonText defaults w job rest memo' with
        | error e =>
          rw [hrest] at hok
          cases e with
          | panicked => simp [expect]
          | rejected => simpa [expect] using hok
        | ok rows =>
          rw [hrest] at hok
          simpa [expect, pure, Except.pure] using hok

theorem toOption_buildRows (entries : List (String × FlowStep)) (memo : RefMemo) :
    (buildRows jsonText defaults w job entries memo).toOption =
      createRows jsonText defaults w job entries memo := by
  induction entries generalizing memo with
  | nil => rfl
  | cons entry rest ih =>
    obtain ⟨name, fs⟩ := entry
    unfold buildRows createRows
    cases stepSource w job name fs memo with
    | none => rfl
    | some found =>
      obtain ⟨source, memo'⟩ := found
      simp only [accepted, bind, Except.bind, Option.bind_some]
      cases stepRow jsonText defaults job.jobId (fun _ _ => source) (name, fs) with
      | none => rfl
      | some row =>
        simp only [expect, Option.bind_some, ← ih]
        cases buildRows jsonText defaults w job rest memo' with
        | error e => rfl
        | ok rows => rfl

end Rows

/-! ## The creations -/

def CreationFits (w : Workspaces) (job : JobPins) (env : CreationEnv) (task : JobTask) : Prop :=
  validateTaskDependencyShape task = true → env.inputsOk = true →
    (∀ x ∈ reached w job task.flow.entries job.memo, StepFits x.1 (x.2.retry x.1)) ∧
      ((reached w job task.flow.entries job.memo).length = task.flow.entries.length →
        env.begins = true → JobFits task)

/-- A creation does not panic exactly when every number it gets to fits its column. -/
theorem creation_total_iff (jsonText : Json → String) (defaults : JobDefaults) (w : Workspaces)
    (job : JobPins) :
    (∀ jobTimeoutSecs env task,
      createJob jsonText defaults w job jobTimeoutSecs env task ≠ .error .panicked ↔
        CreationFits w job env task) ∧
      (∀ env hookAction action renderedInput,
        fireSingleHook jsonText defaults job env hookAction action renderedInput ≠
            .error .panicked ↔
          (env.inputsOk = true → env.begins = true → ∀ r, action.retry = some r → RetryFits r)) ∧
      ∀ step fs value pins,
        buildDeferred jsonText defaults w job step fs value pins ≠ .error .panicked ↔
          ∀ found memo, resolveStepRow w job step.stepName
              (writtenAction (step.actionWorkspace.getD job.workspace) job.workspace
                step.actionName) value (insertAllFirst [] pins) = some (found, memo) →
            StepFits fs (resolveStepRetryConfig fs found.action) := by
  refine ⟨?_, ?_, ?_⟩
  · intro jobTimeoutSecs env task
    unfold createJob CreationFits
    cases hshape : validateTaskDependencyShape task with
    | false => simp [bind, Except.bind, throw, throwThe, MonadExceptOf.throw]
    | true =>
      cases hinputs : env.inputsOk with
      | false => simp [bind, Except.bind, throw, throwThe, MonadExceptOf.throw]
      | true =>
        obtain ⟨hpanic, hok⟩ :=
          @buildRows_iff jsonText defaults w job task.flow.entries job.memo
        simp only [Bool.not_true, Bool.false_eq_true, if_false, bind, Except.bind, pure,
          Except.pure, forall_const]
        rw [← hpanic]
        cases hrows : buildRows jsonText defaults w job task.flow.entries job.memo with
        | error e =>
          -- rows that were not built: the job row is not reached
          rw [hrows] at hok hpanic
          cases e with
          | panicked => simp
          | rejected =>
            have hshort : (reached w job task.flow.entries job.memo).length ≠
                task.flow.entries.length := by
              intro hall
              obtain ⟨rows, hrows'⟩ := hok.mpr ⟨by simp, hall⟩
              cases hrows'
            simp [hshort]
        | ok rows =>
          rw [hrows] at hok
          have hall := (hok.mp ⟨rows, rfl⟩).2
          have hcols : (jobCols jobTimeoutSecs task).isSome ↔ JobFits task :=
            jobCols_isSome_iff
          rw [← hcols]
          cases env.begins with
          | false => simp [throw, throwThe, MonadExceptOf.throw]
          | true =>
            cases jobCols jobTimeoutSecs task with
            | none => simp [expect, hall]
            | some cols => simp [expect]
  · intro env hookAction action renderedInput
    have hstep : ∀ retry, StepFits { action := hookAction } retry ↔
        ∀ r, retry = some r → RetryFits r := by
      intro retry
      refine ⟨fun h => h.retry, fun h => ⟨?_, h⟩⟩
      intro secs hsecs
      cases hsecs
    have hrow : (buildStep jsonText defaults job.jobId "hook" { action := hookAction }
        { actionName := hookAction, action := action }).isSome ↔
          ∀ r, action.retry = some r → RetryFits r := by
      rw [buildStep_isSome_iff, hstep]
      rfl
    unfold fireSingleHook
    cases env.inputsOk with
    | false => simp [bind, Except.bind, throw, throwThe, MonadExceptOf.throw]
    | true =>
      cases env.begins with
      | false => simp [bind, Except.bind, throw, throwThe, MonadExceptOf.throw]
      | true =>
        rw [← hrow]
        cases buildStep jsonText defaults job.jobId "hook" { action := hookAction }
          { actionName := hookAction, action := action } with
        | none => simp [expect, bind, Except.bind]
        | some row => simp [expect, bind, Except.bind, pure, Except.pure]
  · intro step fs value pins
    unfold buildDeferred
    dsimp only
    cases resolveStepRow w job step.stepName
      (writtenAction (step.actionWorkspace.getD job.workspace) job.workspace step.actionName) value
      (insertAllFirst [] pins) with
    | none => simp [accepted, bind, Except.bind]
    | some resolved =>
      obtain ⟨found, memo⟩ := resolved
      have hrow : (buildStep jsonText defaults job.jobId step.stepName fs found).isSome ↔ _ :=
        buildStep_isSome_iff
      have honly : (∀ found' memo', some (found, memo) = some (found', memo') →
          StepFits fs (resolveStepRetryConfig fs found'.action)) ↔
          StepFits fs (resolveStepRetryConfig fs found.action) := by
        constructor
        · exact fun h => h found memo rfl
        · intro h found' memo' heq
          obtain ⟨rfl, rfl⟩ := Prod.mk.inj (Option.some.inj heq)
          exact h
      simp only [accepted, bind, Except.bind]
      rw [honly, ← hrow]
      cases buildStep jsonText defaults job.jobId step.stepName fs found with
      | none => simp [expect]
      | some row =>
        simp only [expect]
        split <;> simp [pure, Except.pure, throw, throwThe, MonadExceptOf.throw]

def localWorld : Workspaces where
  resolve _ _ := none
  ensure _ _ := none

def oneStepTask (fs : FlowStep) (retry : Option RetryConfig) : JobTask where
  flow := { entries := [("build", fs)], nodup := by simp }
  retry := retry

def oneActionJob (action : ActionDef) : JobPins where
  jobId := 1
  workspace := "team"
  config := { actions := [("build", { action := action })], tasks := ["nightly"] }
  taskName := "nightly"
  jobPin := none

/-- `max_attempts: 0` on a task or on an action, and a step's timeout of 3000000000 seconds. -/
theorem creation_panics :
    createJob (fun _ => "") {} localWorld (oneActionJob { actionType := .script }) none {}
        (oneStepTask { action := "build" } (some { maxAttempts := 0 })) = .error .panicked ∧
      createJob (fun _ => "") {} localWorld
        (oneActionJob { actionType := .script, retry := some { maxAttempts := 0 } }) none {}
        (oneStepTask { action := "build" } none) = .error .panicked ∧
      createJob (fun _ => "") {} localWorld (oneActionJob { actionType := .script }) none {}
        (oneStepTask { action := "build", timeoutSecs := some 3000000000 } none) =
          .error .panicked :=
  ⟨rfl, rfl, rfl⟩

end Stroem.JobCreation
