import Stroem.Foundation.FirstWins
import Stroem.JobCreation

/-!
# Pins

A `ref` names a commit of a workspace.  A job resolves each `(owner, ref)` to a commit once:
`RefMemo` holds what a creation, or one build of a deferred row, has resolved so far, and
`pinAtRef` asks the remote only for what is not there.  `resolveStepRow` resolves the action of
a flow step, and its task if it is a `type: task` action, and says which pins the row is
stamped with.
-/

namespace Stroem.RefPins

open Foundation JobStepRepo JobCreation

structure PinRef where
  gitRef : String
  commit : String
  deriving DecidableEq

abbrev RefMemo := List ((String × String) × String)

structure RefAction where
  action : ActionDef
  task : Option String := none
  gitRef : Option String := none

structure RefConfig where
  actions : List (String × RefAction)
  tasks : List String

/--
The workspaces as one resolution meets them.  A resolution asks the remote for a key at most
once, so what the remote answers is a function of the key, wherever the branches move meanwhile.
-/
structure Workspaces where
  libraryNames : List String := []
  configured : List String := []
  git : List String := []
  present : List String := []
  live : String → Option RefConfig := fun _ => none
  revision : String → Option String := fun _ => none
  resolve : String → String → Option String
  ensure : String → String → Option RefConfig
  parses : String → Bool := fun _ => true
  templateOk : String → Bool := fun _ => true
  precheck : String → Bool := fun _ => true

def parseQualifiedRef (name : String) : Option String × String :=
  match name.toList.span (· ≠ '.') with
  | (ws, _ :: item) =>
    if ws.isEmpty || item.isEmpty then (none, name)
    else (some (String.ofList ws), String.ofList item)
  | (_, []) => (none, name)

/-- The owner of a name written with a `ref`, and its name there. -/
def refOwner (w : Workspaces) (baseWs name : String) : Option (String × String) :=
  match parseQualifiedRef name with
  | (none, «local») => some (baseWs, «local»)
  | (some qualifier, rest) =>
    if w.libraryNames.contains qualifier then none
    else if w.configured.contains qualifier then some (qualifier, rest)
    else none

/-- `plan_reference`, for a name with a `ref`. -/
def planAtRef (w : Workspaces) (baseWs name : String) : Option (String × String) := do
  let target ← refOwner w baseWs name
  if w.git.contains target.1 then pure target else none

def inheritedPin (baseWs : String) (basePin : Option PinRef) (resolvedOwner : String) :
    Option PinRef :=
  if resolvedOwner = baseWs then basePin else none

def pinAtRef (w : Workspaces) (owner gitRef : String) (memo : RefMemo) :
    Option ((PinRef × RefConfig) × RefMemo) :=
  match memo.lookup (owner, gitRef) with
  | some commit => do
      let config ← w.ensure owner commit
      pure ((⟨gitRef, commit⟩, config), memo)
  | none => do
      let commit ← w.resolve owner gitRef
      let config ← w.ensure owner commit
      pure ((⟨gitRef, commit⟩, config), insertFirst memo (owner, gitRef) commit)

structure JobPins where
  jobId : Uuid
  workspace : String
  config : RefConfig
  taskName : String
  jobPin : Option PinRef

def JobPins.memo (job : JobPins) : RefMemo :=
  job.jobPin.elim [] fun pin => [((job.workspace, pin.gitRef), pin.commit)]

structure StepAction where
  action : RefAction
  workspace : Option String
  revision : Option String
  name : String
  ownerConfig : Option RefConfig
  pin : Option PinRef

def resolveStepAction (w : Workspaces) (job : JobPins) (written : String)
    (stepRef : Option String) (memo : RefMemo) : Option (StepAction × RefMemo) :=
  match stepRef with
  | some gitRef => do
      if !w.parses gitRef then none
      let (owner, name) ← planAtRef w job.workspace written
      let ((pin, config), memo) ← pinAtRef w owner gitRef memo
      let action ← config.actions.lookup name
      if action.action.actionType = .agent then none
      pure (⟨action, some owner, some pin.commit, name, some config, some pin⟩, memo)
  | none =>
    let qualified := parseQualifiedRef written
    match qualified.1.filter fun ws =>
        (job.config.actions.lookup written).isNone && w.present.contains ws with
    | none => do
        let action ← job.config.actions.lookup written
        pure (⟨action, none, none, written, none, none⟩, memo)
    | some ws =>
      match inheritedPin job.workspace job.jobPin ws with
      | some pin => do
          let action ← job.config.actions.lookup qualified.2
          pure (⟨action, some ws, some pin.commit, qualified.2, none, some pin⟩, memo)
      | none => do
          let config ← w.live ws
          let action ← config.actions.lookup qualified.2
          pure (⟨action, some ws, w.revision ws, qualified.2, some config, none⟩, memo)

inductive TaskRefOwner where
  | baseKey
  | qualified (ws name : String)
  deriving DecidableEq

def taskRefOwner (w : Workspaces) (baseConfig : RefConfig) (taskRef : String) :
    Option TaskRefOwner :=
  if baseConfig.tasks.contains taskRef then some .baseKey
  else
    match parseQualifiedRef taskRef with
    | (some ws, name) => if w.present.contains ws then some (.qualified ws name) else none
    | (none, _) => none

def resolveTaskRef (w : Workspaces) (baseWs taskRef : String) :
    TaskRefOwner → Option (String × String)
  | .baseKey => some (baseWs, taskRef)
  | .qualified ws name => do
      let config ← w.live ws
      if config.tasks.contains name then pure (ws, name) else none

/-- `task_at`: the task in a pinned config, by its full key first. -/
def taskAt (config : RefConfig) (taskRef : String) : Option String :=
  let «local» := if config.tasks.contains taskRef then taskRef else (parseQualifiedRef taskRef).2
  if config.tasks.contains «local» then some «local» else none

def resolveTaskForStep (w : Workspaces) (baseWs : String) (baseConfig : RefConfig)
    (basePin : Option PinRef) (taskRef : String) (gitRef : Option String) (memo : RefMemo) :
    Option ((String × String × Option PinRef) × RefMemo) :=
  match gitRef with
  | some gitRef => do
      if !w.parses gitRef then none
      let (owner, name) ← planAtRef w baseWs taskRef
      let ((pin, config), memo) ← pinAtRef w owner gitRef memo
      if config.tasks.contains name then pure ((owner, name, some pin), memo) else none
  | none => do
      let found ← taskRefOwner w baseConfig taskRef
      let owner := match found with
        | .baseKey => baseWs
        | .qualified ws _ => ws
      match inheritedPin baseWs basePin owner with
      | some pin => do
          let name ← taskAt baseConfig taskRef
          pure ((baseWs, name, some pin), memo)
      | none => do
          let (ws, name) ← resolveTaskRef w baseWs taskRef found
          pure ((ws, name, none), memo)

private def hasPair (a b : Char) : List Char → Bool
  | x :: y :: rest => (x == a && y == b) || hasPair a b (y :: rest)
  | _ => false

def isTemplate (gitRef : String) : Bool :=
  hasPair '\x7b' '\x7b' gitRef.toList || hasPair '\x7b' '%' gitRef.toList

def basePin (job : JobPins) (actionPin : Option PinRef) (actionWorkspace : Option String) :
    Option PinRef :=
  match actionPin, actionWorkspace with
  | some pin, _ => some pin
  | none, none => job.jobPin
  | none, some _ => none

def resolveTaskPin (w : Workspaces) (job : JobPins) (stepName : String) (found : StepAction)
    (memo : RefMemo) : Option (Option TaskPin × RefMemo) := do
  let taskRef ← found.action.task
  match found.action.gitRef.filter isTemplate with
  | some template => if w.templateOk template then pure (none, memo) else none
  | none =>
    let ((ws, name, pin), memo) ← resolveTaskForStep w (found.workspace.getD job.workspace)
      (found.ownerConfig.getD job.config) (basePin job found.pin found.workspace) taskRef
      found.action.gitRef memo
    -- a task does not run itself at its own pin
    if ws = job.workspace ∧ name = job.taskName ∧ pin = job.jobPin then none
    else if w.precheck stepName then
      pure (pin.map fun p => ⟨ws, p.gitRef, p.commit⟩, memo)
    else none

def checkStepRow (w : Workspaces) (job : JobPins) (stepName : String) (found : StepAction)
    (memo : RefMemo) : Option (Option TaskPin × RefMemo) :=
  if found.action.action.actionType = .task then resolveTaskPin w job stepName found memo
  else if w.precheck stepName then some (none, memo)
  else none

def resolveStepRow (w : Workspaces) (job : JobPins) (stepName written : String)
    (gitRef : Option String) (memo : RefMemo) : Option (ResolvedAction × RefMemo) := do
  let (found, memo) ← resolveStepAction w job written gitRef memo
  let (taskPin, memo) ← checkStepRow w job stepName found memo
  pure
    ({ actionName := found.name
       action := found.action.action
       actionWorkspace := found.workspace
       actionRevision := found.revision
       actionRef := found.pin.map PinRef.gitRef
       taskPin := taskPin }, memo)

def stepSource (w : Workspaces) (job : JobPins) (name : String) (fs : FlowStep) (memo : RefMemo) :
    Option (StepSource × RefMemo) :=
  match fs.gitRef.filter isTemplate with
  | some template => do
      if !w.templateOk template then none
      let (owner, localName) ← planAtRef w job.workspace fs.action
      pure (.deferred template owner localName, memo)
  | none => do
      let (found, memo) ← resolveStepRow w job name fs.action fs.gitRef memo
      pure (.resolved found, memo)

def createRows (jsonText : Json → String) (defaults : JobDefaults) (w : Workspaces)
    (job : JobPins) : List (String × FlowStep) → RefMemo → Option (List NewJobStep × RefMemo)
  | [], memo => some ([], memo)
  | (name, fs) :: rest, memo => do
      let (source, memo) ← stepSource w job name fs memo
      let row ← stepRow jsonText defaults job.jobId (fun _ _ => source) (name, fs)
      let (rows, memo) ← createRows jsonText defaults w job rest memo
      pure (row :: rows, memo)

def createPinned (jsonText : Json → String) (defaults : JobDefaults) (w : Workspaces)
    (job : JobPins) (flow : Flow) (now : Time) : Option (List JobStepRow × RefMemo) := do
  let (steps, memo) ← createRows jsonText defaults w job flow.entries job.memo
  let rows ← (createStepsTx steps now []).toOption
  pure (rows, insertAllFirst [] memo)

/-! ## Resolution after the creation -/

def stepActionPin (r : JobStepRow) : Option PinRef := do
  let gitRef ← r.actionRef
  let commit ← r.actionRevision
  pure ⟨gitRef, commit⟩

def writtenAction (owner workspace actionName : String) : String :=
  if owner = workspace && !actionName.toList.contains '.' then actionName
  else owner ++ "." ++ actionName

/--
One attempt of `build_row` on the entries the job has recorded: the row, and everything the row
met.  The owner and the name of the action were decided at the creation.
-/
def buildRow (jsonText : Json → String) (defaults : JobDefaults) (w : Workspaces) (job : JobPins)
    (step : JobStepRow) (fs : FlowStep) (value : Option String) (pins : RefMemo) :
    Option (NewJobStep × RefMemo) := do
  let owner := step.actionWorkspace.getD job.workspace
  let (found, memo) ← resolveStepRow w job step.stepName
    (writtenAction owner job.workspace step.actionName) value (insertAllFirst [] pins)
  let row ← buildStep jsonText defaults job.jobId step.stepName fs found
  if row.actionWorkspace.getD job.workspace = owner ∧ row.actionName = step.actionName then
    pure ({ row with status := .ready }, memo)
  else none

def noRefTask (w : Workspaces) (job : JobPins) (step : JobStepRow) (baseConfig : RefConfig)
    (taskRef : String) : Option TaskPin := do
  let ((ws, name, pin), _) ← resolveTaskForStep w (step.actionWorkspace.getD job.workspace)
    baseConfig (basePin job (stepActionPin step) step.actionWorkspace) taskRef none []
  let pin ← pin
  if ws = job.workspace ∧ name = job.taskName ∧ some pin = job.jobPin then none
  else pure ⟨ws, pin.gitRef, pin.commit⟩

/-! ## Stamps come from the memo -/

def pinStamp (workspace gitRef commit : Option String) : RefMemo :=
  match workspace, gitRef, commit with
  | some ws, some r, some c => [((ws, r), c)]
  | _, _, _ => []

/--
The pins a row is stamped with: of its action, and of its task.  An action that names no
workspace belongs to the workspace of the job.
-/
def stamps (jobWs : String) (r : JobStepRow) : RefMemo :=
  pinStamp (some (r.actionWorkspace.getD jobWs)) r.actionRef r.actionRevision ++
    pinStamp r.taskWorkspace r.taskRef r.taskRevision

def newStamps (jobWs : String) (step : NewJobStep) : RefMemo :=
  pinStamp (some (step.actionWorkspace.getD jobWs)) step.actionRef step.actionRevision ++
    pinStamp step.taskWorkspace step.taskRef step.taskRevision

def Recorded (memo pins : RefMemo) : Prop :=
  ∀ pin ∈ pins, memo.lookup pin.1 = some pin.2

variable {memo memo' : RefMemo}

theorem Recorded.mono {pins : RefMemo} (h : Recorded memo pins) (hext : Extends memo memo') :
    Recorded memo' pins :=
  fun pin hpin => hext pin.1 pin.2 (h pin hpin)

theorem Recorded.append {pins pins' : RefMemo} (h : Recorded memo pins)
    (h' : Recorded memo pins') : Recorded memo (pins ++ pins') := by
  intro pin hpin
  rcases List.mem_append.mp hpin with hpin | hpin
  · exact h pin hpin
  · exact h' pin hpin

theorem recorded_nil (memo : RefMemo) : Recorded memo [] := nofun

def PinRecorded (memo : RefMemo) (ws : String) (pin : Option PinRef) : Prop :=
  ∀ p, pin = some p → memo.lookup (ws, p.gitRef) = some p.commit

variable {pin : Option PinRef}

theorem PinRecorded.mono {ws : String} (h : PinRecorded memo ws pin) (hext : Extends memo memo') :
    PinRecorded memo' ws pin :=
  fun p hp => hext _ _ (h p hp)

theorem JobPins.pinRecorded_memo (job : JobPins) :
    PinRecorded job.memo job.workspace job.jobPin := by
  intro p hp
  simp [JobPins.memo, hp]

theorem inheritedPin_eq_some {baseWs owner : String} {p : PinRef}
    (h : inheritedPin baseWs pin owner = some p) : owner = baseWs ∧ pin = some p := by
  unfold inheritedPin at h
  split at h
  case isTrue howner => exact ⟨howner, h⟩
  case isFalse => cases h

variable {w : Workspaces}

theorem pinAtRef_spec {owner gitRef : String} {pin : PinRef} {config : RefConfig}
    (h : pinAtRef w owner gitRef memo = some ((pin, config), memo')) :
    Extends memo memo' ∧ pin.gitRef = gitRef ∧
      memo'.lookup (owner, gitRef) = some pin.commit := by
  unfold pinAtRef at h
  split at h
  case h_1 commit hlookup =>
    simp only [Option.bind_eq_bind, Option.bind_eq_some_iff] at h
    obtain ⟨config', -, h⟩ := h
    cases h
    exact ⟨.refl memo, rfl, hlookup⟩
  case h_2 hlookup =>
    simp only [Option.bind_eq_bind, Option.bind_eq_some_iff] at h
    obtain ⟨commit, -, config', -, h⟩ := h
    cases h
    exact ⟨extends_insertFirst memo _ _, rfl, lookup_insertFirst_of_none commit hlookup⟩

structure Stamped (memo : RefMemo) (found : StepAction) (p : PinRef) : Prop where
  workspace : ∃ ws, found.workspace = some ws ∧ memo.lookup (ws, p.gitRef) = some p.commit
  revision : found.revision = some p.commit

theorem resolveStepAction_spec {job : JobPins} {written : String} {stepRef : Option String}
    {found : StepAction} (hjob : PinRecorded memo job.workspace job.jobPin)
    (h : resolveStepAction w job written stepRef memo = some (found, memo')) :
    Extends memo memo' ∧ ∀ p, found.pin = some p → Stamped memo' found p := by
  unfold resolveStepAction at h
  split at h
  case h_1 gitRef =>
    split at h
    · cases h
    · simp only [Option.bind_eq_bind, Option.bind_eq_some_iff, Prod.exists] at h
      obtain ⟨owner, name, -, pin, config, memo₁, hpin, action, -, h⟩ := h
      split at h
      · cases h
      · cases h
        obtain ⟨hext, href, hlookup⟩ := pinAtRef_spec hpin
        refine ⟨hext, fun p hp => ?_⟩
        obtain rfl := Option.some.inj hp
        exact ⟨⟨owner, rfl, href ▸ hlookup⟩, rfl⟩
  case h_2 =>
    simp only at h
    split at h
    · simp only [Option.bind_eq_bind, Option.bind_eq_some_iff] at h
      obtain ⟨action, -, h⟩ := h
      cases h
      exact ⟨.refl memo, nofun⟩
    case h_2 ws _ =>
      split at h
      case h_1 pin hinherited =>
        simp only [Option.bind_eq_bind, Option.bind_eq_some_iff] at h
        obtain ⟨action, -, h⟩ := h
        cases h
        obtain ⟨rfl, hjobPin⟩ := inheritedPin_eq_some hinherited
        refine ⟨.refl memo, fun p hp => ?_⟩
        obtain rfl := Option.some.inj hp
        exact ⟨⟨_, rfl, hjob pin hjobPin⟩, rfl⟩
      case h_2 =>
        simp only [Option.bind_eq_bind, Option.bind_eq_some_iff] at h
        obtain ⟨config, -, action, -, h⟩ := h
        cases h
        exact ⟨.refl memo, nofun⟩

theorem resolveTaskForStep_noRef {baseWs : String} {baseConfig : RefConfig}
    {base : Option PinRef} {taskRef : String} {ws name : String}
    (h : resolveTaskForStep w baseWs baseConfig base taskRef none memo =
      some ((ws, name, pin), memo')) :
    memo' = memo ∧ ∀ p, pin = some p → ws = baseWs ∧ base = some p := by
  simp only [resolveTaskForStep, Option.bind_eq_bind, Option.bind_eq_some_iff] at h
  obtain ⟨owner, -, h⟩ := h
  split at h
  case h_1 pin' hinherited =>
    simp only [Option.bind_eq_some_iff] at h
    obtain ⟨name', -, h⟩ := h
    cases h
    refine ⟨rfl, fun p hp => ⟨rfl, ?_⟩⟩
    rw [(inheritedPin_eq_some hinherited).2, hp]
  case h_2 =>
    simp only [Option.bind_eq_some_iff, Prod.exists] at h
    obtain ⟨ws', name', -, h⟩ := h
    cases h
    exact ⟨rfl, nofun⟩

theorem resolveTaskForStep_spec {baseWs : String} {baseConfig : RefConfig} {base : Option PinRef}
    {taskRef : String} {gitRef : Option String} {ws name : String}
    (hbase : PinRecorded memo baseWs base)
    (h : resolveTaskForStep w baseWs baseConfig base taskRef gitRef memo =
      some ((ws, name, pin), memo')) : Extends memo memo' ∧ PinRecorded memo' ws pin := by
  cases gitRef with
  | some gitRef =>
    simp only [resolveTaskForStep] at h
    split at h
    · cases h
    · simp only [Option.bind_eq_bind, Option.bind_eq_some_iff, Prod.exists] at h
      obtain ⟨owner, name', -, pin', config, memo₁, hpin, h⟩ := h
      split at h
      · cases h
        obtain ⟨hext, href, hlookup⟩ := pinAtRef_spec hpin
        refine ⟨hext, fun p hp => ?_⟩
        obtain rfl := Option.some.inj hp
        exact href ▸ hlookup
      · cases h
  | none =>
    obtain ⟨rfl, hpin⟩ := resolveTaskForStep_noRef h
    refine ⟨.refl _, fun p hp => ?_⟩
    obtain ⟨rfl, rfl⟩ := hpin p hp
    exact hbase p rfl

def taskStamp (pin : Option TaskPin) : RefMemo :=
  pinStamp (pin.map TaskPin.workspace) (pin.map TaskPin.gitRef) (pin.map TaskPin.commit)

theorem recorded_taskStamp {pin : Option TaskPin}
    (h : ∀ p, pin = some p → memo.lookup (p.workspace, p.gitRef) = some p.commit) :
    Recorded memo (taskStamp pin) := by
  cases pin with
  | none => exact recorded_nil memo
  | some p =>
    intro pin hpin
    obtain rfl := List.mem_singleton.mp hpin
    exact h p rfl

theorem resolveTaskPin_spec {job : JobPins} {stepName : String} {found : StepAction}
    {taskPin : Option TaskPin} (hjob : PinRecorded memo job.workspace job.jobPin)
    (hfound : ∀ p, found.pin = some p → Stamped memo found p)
    (h : resolveTaskPin w job stepName found memo = some (taskPin, memo')) :
    Extends memo memo' ∧ Recorded memo' (taskStamp taskPin) := by
  simp only [resolveTaskPin, Option.bind_eq_bind, Option.bind_eq_some_iff] at h
  obtain ⟨taskRef, -, h⟩ := h
  split at h
  · split at h
    · cases h
      exact ⟨.refl memo, recorded_nil memo⟩
    · cases h
  · simp only [Option.bind_eq_some_iff, Prod.exists] at h
    obtain ⟨ws, name, pin, memo₁, hresolve, h⟩ := h
    have hbase : PinRecorded memo (found.workspace.getD job.workspace)
        (basePin job found.pin found.workspace) := by
      intro p hp
      unfold basePin at hp
      split at hp
      case h_1 pin' hpin =>
        obtain rfl := Option.some.inj hp
        obtain ⟨ws', hws, hlookup⟩ := (hfound pin' hpin).workspace
        simpa [hws] using hlookup
      case h_2 hworkspace =>
        rw [hworkspace]
        exact hjob p hp
      case h_3 => cases hp
    obtain ⟨hext, hpin⟩ := resolveTaskForStep_spec hbase hresolve
    split at h
    · cases h
    · split at h
      · cases h
        refine ⟨hext, recorded_taskStamp fun p hp => ?_⟩
        obtain ⟨p', hp', rfl⟩ := Option.map_eq_some_iff.mp hp
        exact hpin p' hp'
      · cases h

def foundStamps (jobWs : String) (found : ResolvedAction) : RefMemo :=
  pinStamp (some (found.actionWorkspace.getD jobWs)) found.actionRef found.actionRevision ++
    taskStamp found.taskPin

theorem resolveStepRow_spec {job : JobPins} {stepName written : String} {gitRef : Option String}
    {found : ResolvedAction} (hjob : PinRecorded memo job.workspace job.jobPin)
    (h : resolveStepRow w job stepName written gitRef memo = some (found, memo')) :
    Extends memo memo' ∧ Recorded memo' (foundStamps job.workspace found) := by
  simp only [resolveStepRow, Option.bind_eq_bind, Option.bind_eq_some_iff, Prod.exists] at h
  obtain ⟨action, memo₁, haction, taskPin, memo₂, htask, h⟩ := h
  cases h
  obtain ⟨hext, hpin⟩ := resolveStepAction_spec hjob haction
  have htaskPin : Extends memo₁ memo' ∧ Recorded memo' (taskStamp taskPin) := by
    unfold checkStepRow at htask
    split at htask
    · exact resolveTaskPin_spec (hjob.mono hext) hpin htask
    · split at htask
      · cases htask
        exact ⟨.refl _, recorded_nil _⟩
      · cases htask
  refine ⟨hext.trans htaskPin.1, Recorded.append ?_ htaskPin.2⟩
  cases hfound : action.pin with
  | none =>
    exact recorded_nil memo'
  | some p =>
    obtain ⟨⟨ws, hws, hlookup⟩, hrevision⟩ := hpin p hfound
    intro pin hmem
    simp only [hws, hrevision, Option.map_some, Option.getD_some, pinStamp,
      List.mem_singleton] at hmem
    obtain rfl := hmem
    exact htaskPin.1 _ _ hlookup

section Creation

variable {jsonText : Json → String} {defaults : JobDefaults} {w : Workspaces} {job : JobPins}

theorem buildStep_stamps {name : String} {fs : FlowStep} {found : ResolvedAction}
    {row : NewJobStep} (h : buildStep jsonText defaults job.jobId name fs found = some row) :
    newStamps job.workspace row = foundStamps job.workspace found := by
  simp only [buildStep, Option.bind_eq_bind, Option.bind_eq_some_iff] at h
  obtain ⟨retry, -, timeout, -, h⟩ := h
  cases h
  rfl

theorem deferredRow_stamps {name : String} {fs : FlowStep} {template owner localName : String}
    {row : NewJobStep}
    (h : deferredRow jsonText defaults job.jobId name fs template owner localName = some row) :
    newStamps job.workspace row = [] := by
  simp only [deferredRow, Option.bind_eq_bind, Option.bind_eq_some_iff] at h
  obtain ⟨retry, -, timeout, -, h⟩ := h
  cases h
  rfl

private theorem stepSource_spec {name : String} {fs : FlowStep} {memo memo' : RefMemo}
    {source : StepSource} {row : NewJobStep}
    (hjob : PinRecorded memo job.workspace job.jobPin)
    (h : stepSource w job name fs memo = some (source, memo'))
    (hrow : stepRow jsonText defaults job.jobId (fun _ _ => source) (name, fs) = some row) :
    Extends memo memo' ∧ Recorded memo' (newStamps job.workspace row) := by
  unfold stepSource at h
  split at h
  case h_1 template _ =>
    split at h
    · cases h
    · simp only [Option.bind_eq_bind, Option.bind_eq_some_iff, Prod.exists] at h
      obtain ⟨owner, localName, -, h⟩ := h
      cases h
      have hdeferred : deferredRow jsonText defaults job.jobId name fs template owner localName =
          some row := hrow
      rw [deferredRow_stamps hdeferred]
      exact ⟨.refl _, recorded_nil _⟩
  case h_2 =>
    simp only [Option.bind_eq_bind, Option.bind_eq_some_iff, Prod.exists] at h
    obtain ⟨found, memo₁, hresolve, h⟩ := h
    cases h
    have hbuild : buildStep jsonText defaults job.jobId name fs found = some row := hrow
    rw [buildStep_stamps hbuild]
    exact resolveStepRow_spec hjob hresolve

theorem createRows_spec {flow : List (String × FlowStep)} {memo memo' : RefMemo}
    {rows : List NewJobStep} (hjob : PinRecorded memo job.workspace job.jobPin)
    (h : createRows jsonText defaults w job flow memo = some (rows, memo')) :
    Extends memo memo' ∧ ∀ row ∈ rows, Recorded memo' (newStamps job.workspace row) := by
  induction flow generalizing memo rows with
  | nil =>
    cases h
    exact ⟨.refl _, fun row hrow => absurd hrow List.not_mem_nil⟩
  | cons entry flow ih =>
    obtain ⟨name, fs⟩ := entry
    simp only [createRows, Option.bind_eq_bind, Option.bind_eq_some_iff, Prod.exists] at h
    obtain ⟨source, memo₁, hsource, row, hrow, rows', memo₂, hrest, h⟩ := h
    cases h
    obtain ⟨hext, hrecorded⟩ := stepSource_spec hjob hsource hrow
    obtain ⟨hext', hrecorded'⟩ := ih (hjob.mono hext) hrest
    refine ⟨hext.trans hext', fun r hr => ?_⟩
    rcases List.mem_cons.mp hr with rfl | hr
    · exact hrecorded.mono hext'
    · exact hrecorded' r hr

end Creation

end Stroem.RefPins
