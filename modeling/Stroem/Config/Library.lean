import Stroem.Config
import Stroem.Connections
import Stroem.Foundation.Text

/-!
# Libraries

The items of a library enter a workspace under names that begin with the library's own, so what
refers to an item inside the library has to be renamed with it.  The code's rewriting is the
traversal below except for the task tools of agents, a task named by an action that runs none, and
a connection type named like a primitive type.
-/

namespace Stroem.Config

open Foundation Connections

/-! ## References -/

structure Renaming where
  action : String → String
  task : String → String
  connectionType : String → String

def InputFieldDef.rename (names : Renaming) (field : InputFieldDef) : InputFieldDef :=
  if primitiveTypes.contains field.fieldType then field
  else { field with fieldType := names.connectionType field.fieldType }

def AgentToolRef.rename (names : Renaming) : AgentToolRef → AgentToolRef
  | .task name gitRef => .task (names.task name) gitRef
  | .mcp server => .mcp server

def ActionDef.rename (names : Renaming) (action : ActionDef) : ActionDef :=
  { action with
    task := if action.actionType = "task" then action.task.map names.task else action.task
    tools := action.tools.map (·.rename names)
    input := mapValues (fun _ field => field.rename names) action.input }

def HookDef.rename (names : Renaming) (hook : HookDef) : HookDef :=
  { hook with action := names.action hook.action }

def FlowStep.rename (names : Renaming) (step : FlowStep) : FlowStep :=
  { step with action := names.action step.action }

def TaskDef.rename (names : Renaming) (task : TaskDef) : TaskDef :=
  { task with
    input := mapValues (fun _ field => field.rename names) task.input
    flow := mapValues (fun _ step => step.rename names) task.flow
    onSuccess := task.onSuccess.map (·.rename names)
    onError := task.onError.map (·.rename names)
    onSuspended := task.onSuspended.map (·.rename names)
    onCancel := task.onCancel.map (·.rename names) }

/-! ## The rewriting -/

def isValidLibraryName (name : String) : Bool :=
  match name.toList with
  | [] => false
  | first :: rest =>
    first.isAlphanum && rest.all fun c => c.isAlphanum || c == '_' || c == '-'

def prefixed (libName name : String) : String :=
  libName ++ "." ++ name

def rewriteName {α : Type} (libName : String) (originals : Dict String α) (name : String) :
    String :=
  if (originals.lookup name).isSome then prefixed libName name else name

def rewriteField (libName : String) (raw : WorkspaceConfig) (field : InputFieldDef) :
    InputFieldDef :=
  { field with fieldType := rewriteName libName raw.connectionTypes field.fieldType }

def rewriteHook (libName : String) (raw : WorkspaceConfig) (hook : HookDef) : HookDef :=
  { hook with action := rewriteName libName raw.actions hook.action }

def rewriteStep (libName : String) (raw : WorkspaceConfig) (step : FlowStep) : FlowStep :=
  { step with action := rewriteName libName raw.actions step.action }

def rewriteTask (libName : String) (raw : WorkspaceConfig) (task : TaskDef) : TaskDef :=
  { task with
    flow := mapValues (fun _ => rewriteStep libName raw) task.flow
    onSuccess := task.onSuccess.map (rewriteHook libName raw)
    onError := task.onError.map (rewriteHook libName raw)
    onSuspended := task.onSuspended.map (rewriteHook libName raw)
    onCancel := task.onCancel.map (rewriteHook libName raw)
    input := mapValues (fun _ => rewriteField libName raw) task.input }

def rewriteAction (libName : String) (raw : WorkspaceConfig) (action : ActionDef) : ActionDef :=
  { action with
    task := action.task.map (rewriteName libName raw.tasks)
    input := mapValues (fun _ => rewriteField libName raw) action.input }

def prefixLibrary (libName : String) (raw : WorkspaceConfig) : WorkspaceConfig where
  connectionTypes := mapKeys (prefixed libName) raw.connectionTypes
  actions :=
    mapValues (fun _ => rewriteAction libName raw) (mapKeys (prefixed libName) raw.actions)
  tasks := mapKeys (prefixed libName) (mapValues (fun _ => rewriteTask libName raw) raw.tasks)

def mergeLibraryIntoWorkspace (workspace lib : WorkspaceConfig) : WorkspaceConfig where
  actions := extend workspace.actions lib.actions
  tasks := extend workspace.tasks lib.tasks
  connectionTypes := extend workspace.connectionTypes lib.connectionTypes

def mergeLibrariesIntoWorkspace (workspace : WorkspaceConfig) :
    List WorkspaceConfig → WorkspaceConfig
  | [] => workspace
  | lib :: libs => mergeLibrariesIntoWorkspace (mergeLibraryIntoWorkspace workspace lib) libs

/-! ## What flattening has to preserve -/

structure Libraries where
  raw : Dict String WorkspaceConfig
  valid : ∀ libName ∈ raw, isValidLibraryName libName = true

def Libraries.resolved (libs : Libraries) : List WorkspaceConfig :=
  (pairs libs.raw).map fun lib => prefixLibrary lib.1 lib.2

def ownNames (libName : String) (raw : WorkspaceConfig) : Renaming where
  action := rewriteName libName raw.actions
  task := rewriteName libName raw.tasks
  connectionType := rewriteName libName raw.connectionTypes

/-- The result holds exactly the items of the library under their new names, with their
references renamed and otherwise equal. -/
structure Flattens (libName : String) (raw result : WorkspaceConfig) : Prop where
  actions : ∀ name, result.actions.lookup (prefixed libName name) =
    (raw.actions.lookup name).map (·.rename (ownNames libName raw))
  tasks : ∀ name, result.tasks.lookup (prefixed libName name) =
    (raw.tasks.lookup name).map (·.rename (ownNames libName raw))
  connectionTypes : ∀ name, result.connectionTypes.lookup (prefixed libName name) =
    raw.connectionTypes.lookup name
  onlyActions : ∀ name ∈ result.actions, ∃ own ∈ raw.actions, name = prefixed libName own
  onlyTasks : ∀ name ∈ result.tasks, ∃ own ∈ raw.tasks, name = prefixed libName own
  onlyConnectionTypes : ∀ name ∈ result.connectionTypes,
    ∃ own ∈ raw.connectionTypes, name = prefixed libName own

structure SameAt (name : String) (workspace workspace' : WorkspaceConfig) : Prop where
  actions : workspace.actions.lookup name = workspace'.actions.lookup name
  tasks : workspace.tasks.lookup name = workspace'.tasks.lookup name
  connectionTypes :
    workspace.connectionTypes.lookup name = workspace'.connectionTypes.lookup name

structure FlatteningPreserves (libs : Libraries) : Prop where
  flattens : ∀ libName raw, libs.raw.lookup libName = some raw →
    Flattens libName raw (prefixLibrary libName raw)
  anyOrder : ∀ workspace order, order.Perm libs.resolved →
    ∀ name, SameAt name (mergeLibrariesIntoWorkspace workspace order)
      (mergeLibrariesIntoWorkspace workspace libs.resolved)
  unprefixed : ∀ workspace name, (∀ libName ∈ libs.raw, ∀ own, name ≠ prefixed libName own) →
    SameAt name (mergeLibrariesIntoWorkspace workspace libs.resolved) workspace

def PlainInput (raw : WorkspaceConfig) (input : Dict String InputFieldDef) : Prop :=
  ∀ name field, input.lookup name = some field → field.fieldType ∈ primitiveTypes →
    field.fieldType ∉ raw.connectionTypes

structure Rewritable (raw : WorkspaceConfig) : Prop where
  tools : ∀ name action, raw.actions.lookup name = some action →
    ∀ task gitRef, .task task gitRef ∈ action.tools → task ∉ raw.tasks
  otherTask : ∀ name action, raw.actions.lookup name = some action →
    action.actionType ≠ "task" → ∀ task, action.task = some task → task ∉ raw.tasks
  actionInput : ∀ name action, raw.actions.lookup name = some action →
    PlainInput raw action.input
  taskInput : ∀ name task, raw.tasks.lookup name = some task → PlainInput raw task.input

/-! ## Names -/

theorem prefixed_toList (libName name : String) :
    (prefixed libName name).toList = libName.toList ++ '.' :: name.toList := by
  simp [prefixed]

theorem prefixed_injective (libName : String) : Function.Injective (prefixed libName) := by
  intro name name' h
  have hlist := congrArg String.toList h
  rw [prefixed_toList, prefixed_toList] at hlist
  exact String.toList_injective (List.cons.inj (List.append_cancel_left hlist)).2

theorem prefixed_ne_self (libName name : String) : prefixed libName name ≠ name := by
  intro h
  have hlength := congrArg List.length (congrArg String.toList h)
  rw [prefixed_toList, List.length_append, List.length_cons] at hlength
  omega

theorem dot_not_mem_of_isValidLibraryName {libName : String}
    (h : isValidLibraryName libName = true) : '.' ∉ libName.toList := by
  unfold isValidLibraryName at h
  split at h
  · cases h
  · next first rest heq =>
    rw [Bool.and_eq_true, List.all_eq_true] at h
    rw [heq, List.mem_cons]
    rintro (rfl | hmem)
    · exact absurd h.1 (by decide)
    · exact absurd (h.2 '.' hmem) (by decide)

theorem eq_of_prefixed_eq {libName libName' name name' : String}
    (hvalid : isValidLibraryName libName = true) (hvalid' : isValidLibraryName libName' = true)
    (h : prefixed libName name = prefixed libName' name') : libName = libName' ∧ name = name' := by
  have hlist := congrArg String.toList h
  rw [prefixed_toList, prefixed_toList] at hlist
  have hnodot : ∀ name : String, isValidLibraryName name = true →
      ∀ c ∈ name.toList, (c != '.') = true := by
    intro name hname c hc
    rw [bne_iff_ne]
    rintro rfl
    exact dot_not_mem_of_isValidLibraryName hname hc
  obtain ⟨hlib, -, hname⟩ := run_inj (hnodot _ hvalid) (hnodot _ hvalid') (by decide) (by decide)
    hlist
  exact ⟨String.toList_injective hlib, String.toList_injective hname⟩

section Rewrite

variable {libName : String} {raw : WorkspaceConfig}

theorem rewriteName_eq_self_iff {α : Type} {originals : Dict String α} {name : String} :
    rewriteName libName originals name = name ↔ name ∉ originals := by
  unfold rewriteName
  rw [← AList.lookup_isSome]
  by_cases h : (originals.lookup name).isSome = true
  · rw [if_pos h]
    exact ⟨fun heq => absurd heq (prefixed_ne_self libName name), fun hnot => absurd h hnot⟩
  · rw [if_neg h]
    exact ⟨fun _ => h, fun _ => rfl⟩

/-! ## The rewriting and the traversal -/

theorem rewriteField_eq_rename_iff {field : InputFieldDef} :
    rewriteField libName raw field = field.rename (ownNames libName raw) ↔
      (field.fieldType ∈ primitiveTypes → field.fieldType ∉ raw.connectionTypes) := by
  unfold InputFieldDef.rename
  by_cases hprimitive : primitiveTypes.contains field.fieldType = true
  · rw [if_pos hprimitive, forall_prop_of_true (List.contains_iff_mem.mp hprimitive),
      ← @rewriteName_eq_self_iff libName]
    constructor
    · exact congrArg InputFieldDef.fieldType
    · intro h
      rw [rewriteField, h]
  · rw [if_neg hprimitive, forall_prop_of_false (mt List.contains_iff_mem.mpr hprimitive)]
    exact ⟨fun _ => trivial, fun _ => rfl⟩

theorem rewriteInput_eq_rename_iff {input : Dict String InputFieldDef} :
    mapValues (fun _ => rewriteField libName raw) input =
        mapValues (fun _ field => field.rename (ownNames libName raw)) input ↔
      PlainInput raw input := by
  rw [mapValues_congr_iff]
  exact forall₂_congr fun name field => forall_congr' fun _ => rewriteField_eq_rename_iff

theorem rewriteTask_eq_rename_iff {task : TaskDef} :
    rewriteTask libName raw task = task.rename (ownNames libName raw) ↔
      PlainInput raw task.input := by
  rw [← @rewriteInput_eq_rename_iff libName]
  constructor
  · exact congrArg TaskDef.input
  · intro h
    rw [rewriteTask, h]
    rfl

theorem tools_rename_iff {tools : List AgentToolRef} :
    tools = tools.map (·.rename (ownNames libName raw)) ↔
      ∀ task gitRef, .task task gitRef ∈ tools → task ∉ raw.tasks := by
  have hmap : tools = tools.map (·.rename (ownNames libName raw)) ↔
      ∀ tool ∈ tools, tool = tool.rename (ownNames libName raw) := by
    conv_lhs => lhs; rw [← List.map_id tools]
    exact List.map_inj_left
  rw [hmap]
  constructor
  · intro h task gitRef hmem
    have heq := h _ hmem
    rw [AgentToolRef.rename, AgentToolRef.task.injEq] at heq
    exact rewriteName_eq_self_iff.mp heq.1.symm
  · intro h tool hmem
    cases tool with
    | mcp server => rfl
    | task task gitRef =>
      have hself : rewriteName libName raw.tasks task = task :=
        rewriteName_eq_self_iff.mpr (h task gitRef hmem)
      exact congrArg (AgentToolRef.task · gitRef) hself.symm

theorem rewriteAction_eq_rename_iff {action : ActionDef} :
    rewriteAction libName raw action = action.rename (ownNames libName raw) ↔
      (∀ task gitRef, .task task gitRef ∈ action.tools → task ∉ raw.tasks) ∧
      (action.actionType ≠ "task" → ∀ task, action.task = some task → task ∉ raw.tasks) ∧
      PlainInput raw action.input := by
  have htask : action.task.map (rewriteName libName raw.tasks) =
        (if action.actionType = "task" then action.task.map (ownNames libName raw).task
          else action.task) ↔
      (action.actionType ≠ "task" → ∀ task, action.task = some task → task ∉ raw.tasks) := by
    by_cases htype : action.actionType = "task"
    · rw [if_pos htype]
      exact ⟨fun _ hne => absurd htype hne, fun _ => rfl⟩
    · rw [if_neg htype, forall_prop_of_true htype]
      cases action.task with
      | none => exact ⟨fun _ task h => (by cases h), fun _ => rfl⟩
      | some task =>
        rw [Option.map_some, Option.some.injEq, rewriteName_eq_self_iff]
        constructor
        · rintro h task' heq
          exact Option.some.inj heq ▸ h
        · exact fun h => h task rfl
  rw [← @tools_rename_iff libName, ← htask, ← @rewriteInput_eq_rename_iff libName]
  unfold rewriteAction ActionDef.rename
  rw [ActionDef.mk.injEq]
  constructor
  · rintro ⟨-, htask, htools, hinput, -⟩
    exact ⟨htools, htask, hinput⟩
  · rintro ⟨htools, htask, hinput⟩
    exact ⟨rfl, htask, htools, hinput, rfl⟩

/-! ## One library -/

theorem lookup_actions_prefixLibrary (name : String) :
    (prefixLibrary libName raw).actions.lookup (prefixed libName name) =
      (raw.actions.lookup name).map (rewriteAction libName raw) := by
  rw [prefixLibrary, lookup_mapValues, lookup_mapKeys (prefixed_injective libName)]

theorem lookup_tasks_prefixLibrary (name : String) :
    (prefixLibrary libName raw).tasks.lookup (prefixed libName name) =
      (raw.tasks.lookup name).map (rewriteTask libName raw) := by
  rw [prefixLibrary, lookup_mapKeys (prefixed_injective libName), lookup_mapValues]

theorem exists_own_action {name : String} {action : ActionDef}
    (h : (prefixLibrary libName raw).actions.lookup name = some action) :
    ∃ own ∈ raw.actions, name = prefixed libName own := by
  rw [prefixLibrary, lookup_mapValues] at h
  obtain ⟨old, hold, -⟩ := Option.map_eq_some_iff.mp h
  obtain ⟨own, rfl, hown⟩ := exists_of_lookup_mapKeys hold
  exact ⟨own, AList.lookup_isSome.mp (by rw [hown]; rfl), rfl⟩

theorem exists_own_task {name : String} {task : TaskDef}
    (h : (prefixLibrary libName raw).tasks.lookup name = some task) :
    ∃ own ∈ raw.tasks, name = prefixed libName own := by
  obtain ⟨own, rfl, hown⟩ := exists_of_lookup_mapKeys h
  rw [lookup_mapValues] at hown
  obtain ⟨old, hold, -⟩ := Option.map_eq_some_iff.mp hown
  exact ⟨own, AList.lookup_isSome.mp (by rw [hold]; rfl), rfl⟩

theorem exists_own_connectionType {name : String} {connectionType : ConnectionTypeDef}
    (h : (prefixLibrary libName raw).connectionTypes.lookup name = some connectionType) :
    ∃ own ∈ raw.connectionTypes, name = prefixed libName own := by
  obtain ⟨own, rfl, hown⟩ := exists_of_lookup_mapKeys h
  exact ⟨own, AList.lookup_isSome.mp (by rw [hown]; rfl), rfl⟩

theorem flattens_iff :
    Flattens libName raw (prefixLibrary libName raw) ↔ Rewritable raw := by
  constructor
  · intro h
    have haction : ∀ name action, raw.actions.lookup name = some action →
        rewriteAction libName raw action = action.rename (ownNames libName raw) := by
      intro name action hlookup
      have heq := h.actions name
      rw [lookup_actions_prefixLibrary, hlookup] at heq
      exact Option.some.inj heq
    have htask : ∀ name task, raw.tasks.lookup name = some task →
        rewriteTask libName raw task = task.rename (ownNames libName raw) := by
      intro name task hlookup
      have heq := h.tasks name
      rw [lookup_tasks_prefixLibrary, hlookup] at heq
      exact Option.some.inj heq
    have hparts := fun name action hlookup =>
      rewriteAction_eq_rename_iff.mp (haction name action hlookup)
    exact ⟨fun name action hlookup => (hparts name action hlookup).1,
      fun name action hlookup => (hparts name action hlookup).2.1,
      fun name action hlookup => (hparts name action hlookup).2.2,
      fun name task hlookup => rewriteTask_eq_rename_iff.mp (htask name task hlookup)⟩
  · intro h
    refine ⟨fun name => ?_, fun name => ?_,
      fun name => lookup_mapKeys (prefixed_injective libName) _ name,
      fun name hname => ?_, fun name hname => ?_, fun name hname => ?_⟩
    · rw [lookup_actions_prefixLibrary]
      refine Option.map_congr fun action haction => rewriteAction_eq_rename_iff.mpr
        ⟨h.tools name action haction, h.otherTask name action haction,
          h.actionInput name action haction⟩
    · rw [lookup_tasks_prefixLibrary]
      exact Option.map_congr fun task htask =>
        rewriteTask_eq_rename_iff.mpr (h.taskInput name task htask)
    · obtain ⟨action, haction⟩ := Option.isSome_iff_exists.mp (AList.lookup_isSome.mpr hname)
      exact exists_own_action haction
    · obtain ⟨task, htask⟩ := Option.isSome_iff_exists.mp (AList.lookup_isSome.mpr hname)
      exact exists_own_task htask
    · obtain ⟨type, htype⟩ := Option.isSome_iff_exists.mp (AList.lookup_isSome.mpr hname)
      exact exists_own_connectionType htype

end Rewrite

/-! ## Several libraries -/

section Merge

variable {α : Type} {part : WorkspaceConfig → Dict String α}

theorem Libraries.agree (libs : Libraries)
    (hown : ∀ libName raw name value, (part (prefixLibrary libName raw)).lookup name = some value →
      ∃ own, name = prefixed libName own) (name : String) :
    ∀ dict ∈ libs.resolved.map part, ∀ dict' ∈ libs.resolved.map part, ∀ held held',
      dict.lookup name = some held → dict'.lookup name = some held' → held = held' := by
  intro dict hdict dict' hdict' held held' hheld hheld'
  unfold Libraries.resolved at hdict hdict'
  rw [List.map_map] at hdict hdict'
  obtain ⟨⟨libName, raw⟩, hlib, rfl⟩ := List.mem_map.mp hdict
  obtain ⟨⟨libName', raw'⟩, hlib', rfl⟩ := List.mem_map.mp hdict'
  rw [mem_pairs] at hlib hlib'
  obtain ⟨own, hname⟩ := hown libName raw name held hheld
  obtain ⟨own', hname'⟩ := hown libName' raw' name held' hheld'
  have hvalid := libs.valid libName (AList.lookup_isSome.mp (by rw [hlib]; rfl))
  have hvalid' := libs.valid libName' (AList.lookup_isSome.mp (by rw [hlib']; rfl))
  obtain ⟨rfl, -⟩ := eq_of_prefixed_eq hvalid hvalid' (hname.symm.trans hname')
  obtain rfl := Option.some.inj (hlib.symm.trans hlib')
  exact Option.some.inj (hheld.symm.trans hheld')

theorem Libraries.lookup_eq_none (libs : Libraries)
    (hown : ∀ libName raw name value, (part (prefixLibrary libName raw)).lookup name = some value →
      ∃ own, name = prefixed libName own) {name : String}
    (hname : ∀ libName ∈ libs.raw, ∀ own, name ≠ prefixed libName own) :
    ∀ dict ∈ libs.resolved.map part, dict.lookup name = none := by
  intro dict hdict
  unfold Libraries.resolved at hdict
  rw [List.map_map] at hdict
  obtain ⟨⟨libName, raw⟩, hlib, rfl⟩ := List.mem_map.mp hdict
  rw [Option.eq_none_iff_forall_ne_some]
  intro value hvalue
  obtain ⟨own, heq⟩ := hown libName raw name value hvalue
  exact hname libName (AList.lookup_isSome.mp (by rw [mem_pairs.mp hlib]; rfl)) own heq

end Merge

theorem mergeLibraries_actions (workspace : WorkspaceConfig) (libs : List WorkspaceConfig) :
    (mergeLibrariesIntoWorkspace workspace libs).actions =
      extendAll workspace.actions (libs.map (·.actions)) := by
  induction libs generalizing workspace with
  | nil => rfl
  | cons lib libs ih => exact ih _

theorem mergeLibraries_tasks (workspace : WorkspaceConfig) (libs : List WorkspaceConfig) :
    (mergeLibrariesIntoWorkspace workspace libs).tasks =
      extendAll workspace.tasks (libs.map (·.tasks)) := by
  induction libs generalizing workspace with
  | nil => rfl
  | cons lib libs ih => exact ih _

theorem mergeLibraries_connectionTypes (workspace : WorkspaceConfig)
    (libs : List WorkspaceConfig) :
    (mergeLibrariesIntoWorkspace workspace libs).connectionTypes =
      extendAll workspace.connectionTypes (libs.map (·.connectionTypes)) := by
  induction libs generalizing workspace with
  | nil => rfl
  | cons lib libs ih => exact ih _

theorem mergeLibraries_anyOrder (libs : Libraries) (workspace : WorkspaceConfig)
    {order : List WorkspaceConfig} (hperm : order.Perm libs.resolved) (name : String) :
    SameAt name (mergeLibrariesIntoWorkspace workspace order)
      (mergeLibrariesIntoWorkspace workspace libs.resolved) := by
  refine ⟨?_, ?_, ?_⟩
  · rw [mergeLibraries_actions, mergeLibraries_actions]
    refine (lookup_extendAll_perm _ (hperm.symm.map _) (libs.agree ?_ name)).symm
    exact fun _ _ _ _ h => (exists_own_action h).imp fun _ => And.right
  · rw [mergeLibraries_tasks, mergeLibraries_tasks]
    refine (lookup_extendAll_perm _ (hperm.symm.map _) (libs.agree ?_ name)).symm
    exact fun _ _ _ _ h => (exists_own_task h).imp fun _ => And.right
  · rw [mergeLibraries_connectionTypes, mergeLibraries_connectionTypes]
    refine (lookup_extendAll_perm _ (hperm.symm.map _) (libs.agree ?_ name)).symm
    exact fun _ _ _ _ h => (exists_own_connectionType h).imp fun _ => And.right

theorem mergeLibraries_unprefixed (libs : Libraries) (workspace : WorkspaceConfig) {name : String}
    (hname : ∀ libName ∈ libs.raw, ∀ own, name ≠ prefixed libName own) :
    SameAt name (mergeLibrariesIntoWorkspace workspace libs.resolved) workspace := by
  refine ⟨?_, ?_, ?_⟩
  · rw [mergeLibraries_actions]
    refine lookup_extendAll_of_none _ (libs.lookup_eq_none ?_ hname)
    exact fun _ _ _ _ h => (exists_own_action h).imp fun _ => And.right
  · rw [mergeLibraries_tasks]
    refine lookup_extendAll_of_none _ (libs.lookup_eq_none ?_ hname)
    exact fun _ _ _ _ h => (exists_own_task h).imp fun _ => And.right
  · rw [mergeLibraries_connectionTypes]
    refine lookup_extendAll_of_none _ (libs.lookup_eq_none ?_ hname)
    exact fun _ _ _ _ h => (exists_own_connectionType h).imp fun _ => And.right

/-- Flattening preserves the references of the libraries exactly when what the rewriting misses
does not occur in them. -/
theorem flatteningPreserves_iff (libs : Libraries) :
    FlatteningPreserves libs ↔
      ∀ libName raw, libs.raw.lookup libName = some raw → Rewritable raw := by
  constructor
  · exact fun h libName raw hlookup => flattens_iff.mp (h.flattens libName raw hlookup)
  · intro h
    exact ⟨fun libName raw hlookup => flattens_iff.mpr (h libName raw hlookup),
      fun workspace order hperm => mergeLibraries_anyOrder libs workspace hperm,
      fun workspace name => mergeLibraries_unprefixed libs workspace⟩

/-! ## An agent with a tool of its own library -/

def rotation : WorkspaceConfig where
  tasks := insertPairs ∅ [("rotate-keys", {})]
  actions := insertPairs ∅
    [("keeper", { actionType := "agent", tools := [.task "rotate-keys" none] })]

def commonLibrary : Libraries where
  raw := insertPairs ∅ [("common", rotation)]
  valid := by
    intro libName hmem
    obtain rfl | hempty := (AList.mem_insert _).mp hmem
    · decide
    · exact absurd hempty (AList.notMem_empty libName)

/-- The tool still names `rotate-keys`, the task is `common.rotate-keys`. -/
theorem tool_left_behind : ¬FlatteningPreserves commonLibrary := by
  intro h
  have htools := (flattens_iff.mp (h.flattens "common" rotation rfl)).tools "keeper"
    { actionType := "agent", tools := [.task "rotate-keys" none] } rfl
  exact htools "rotate-keys" none List.mem_cons_self (by decide)

end Stroem.Config
