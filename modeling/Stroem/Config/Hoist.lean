import Stroem.Config

/-!
# Hoisting inline actions

Every file is parsed by itself: its inline actions move into its map of actions, under a name made
of the names of their task and step, and the files are then merged in order.  Made-up names, names
of declared actions and the names of other files share the one map, so the actions stay the same
exactly when no such name is declared twice with different actions.
-/

namespace Stroem.Config

open Foundation

variable {config : WorkspaceConfig} {name : String} {action : ActionDef}

/-! ## Files -/

def inlineName (task step : String) : String :=
  "_inline:" ++ task ++ ":" ++ step

def hoistStep (task name : String) (step : FlowStep) : FlowStep :=
  match step.inlineAction with
  | some _ => { step with action := inlineName task name, inlineAction := none }
  | none => step

def hoistedActions (tasks : Dict String TaskDef) : List (String × ActionDef) :=
  (pairs tasks).flatMap fun (taskName, task) =>
    (pairs task.flow).filterMap fun (stepName, step) =>
      step.inlineAction.map fun action => (inlineName taskName stepName, action)

def hoistInlineActions (config : WorkspaceConfig) : WorkspaceConfig :=
  { config with
    tasks := mapValues (fun name task => { task with flow := mapValues (hoistStep name) task.flow })
      config.tasks
    actions := insertPairs config.actions (hoistedActions config.tasks) }

def merge (workspace config : WorkspaceConfig) : WorkspaceConfig where
  connectionTypes := extend workspace.connectionTypes config.connectionTypes
  actions := extend workspace.actions config.actions
  tasks := extend workspace.tasks config.tasks

def mergeFiles : WorkspaceConfig → List WorkspaceConfig → WorkspaceConfig
  | workspace, [] => workspace
  | workspace, file :: files => mergeFiles (merge workspace (hoistInlineActions file)) files

def load (files : List WorkspaceConfig) : WorkspaceConfig :=
  mergeFiles {} files

/-! ## What hoisting has to preserve -/

def stepAt (config : WorkspaceConfig) (task step : String) : Option FlowStep :=
  (config.tasks.lookup task).bind fun def' => def'.flow.lookup step

def InlineStep (config : WorkspaceConfig) (task step : String) (action : ActionDef) : Prop :=
  ∃ fs, stepAt config task step = some fs ∧ fs.inlineAction = some action

/-- In the configuration the step is the same but for its action, which it refers to by the name
of exactly this action. -/
def RefersTo (config : WorkspaceConfig) (task step : String) (fs : FlowStep)
    (action : ActionDef) : Prop :=
  ∃ name, stepAt config task step = some { fs with action := name, inlineAction := none } ∧
    config.actions.lookup name = some action

structure HoistPreserves (config : WorkspaceConfig) : Prop where
  inline : ∀ task step fs action, stepAt config task step = some fs →
    fs.inlineAction = some action → RefersTo (hoistInlineActions config) task step fs action
  declared : ∀ name action, config.actions.lookup name = some action →
    (hoistInlineActions config).actions.lookup name = some action
  others : ∀ task step fs, stepAt config task step = some fs → fs.inlineAction = none →
    stepAt (hoistInlineActions config) task step = some fs
  again : hoistInlineActions (hoistInlineActions config) = hoistInlineActions config

/-- Every file is hoisted as it should be, and in the merged workspace an inline step of a task
that no later file defines still refers to its action. -/
structure LoadPreserves (files : List WorkspaceConfig) : Prop where
  hoist : ∀ file ∈ files, HoistPreserves file
  merge : ∀ before file after, files = before ++ file :: after →
    ∀ task step fs action, stepAt file task step = some fs → fs.inlineAction = some action →
    (∀ later ∈ after, later.tasks.lookup task = none) →
    RefersTo (load files) task step fs action

def Declares (config : WorkspaceConfig) (name : String) (action : ActionDef) : Prop :=
  config.actions.lookup name = some action ∨
    ∃ task step, InlineStep config task step action ∧ inlineName task step = name

def UnambiguousFile (config : WorkspaceConfig) : Prop :=
  ∀ name action action', Declares config name action → Declares config name action' →
    action = action'

/-- A file gives a name to one action only, and the last later file that has the name of an inline
step has it for an equal action. -/
structure Unambiguous (files : List WorkspaceConfig) : Prop where
  within : ∀ file ∈ files, UnambiguousFile file
  across : ∀ before file after, files = before ++ file :: after →
    ∀ task step action, InlineStep file task step action →
    (∀ later ∈ after, later.tasks.lookup task = none) →
    ∀ mid later rest, after = mid ++ later :: rest →
    ∀ action', Declares later (inlineName task step) action' →
    (∀ last ∈ rest, ∀ other, ¬Declares last (inlineName task step) other) → action' = action

/-! ## One file -/

theorem mem_hoistedActions :
    (name, action) ∈ hoistedActions config.tasks ↔
      ∃ task step, InlineStep config task step action ∧ inlineName task step = name := by
  unfold hoistedActions
  rw [List.mem_flatMap]
  constructor
  · rintro ⟨⟨task, taskDef⟩, htask, hmem⟩
    obtain ⟨⟨step, fs⟩, hstep, hsome⟩ := List.mem_filterMap.mp hmem
    obtain ⟨action', haction, heq⟩ := Option.map_eq_some_iff.mp hsome
    obtain ⟨rfl, rfl⟩ := Prod.mk.inj heq
    refine ⟨task, step, ⟨fs, ?_, haction⟩, rfl⟩
    rw [stepAt, mem_pairs.mp htask]
    exact mem_pairs.mp hstep
  · rintro ⟨task, step, ⟨fs, hfs, haction⟩, rfl⟩
    obtain ⟨taskDef, htask, hstep⟩ := Option.bind_eq_some_iff.mp hfs
    refine ⟨(task, taskDef), mem_pairs.mpr htask, List.mem_filterMap.mpr
      ⟨(step, fs), mem_pairs.mpr hstep, ?_⟩⟩
    exact congrArg (Option.map fun action => (inlineName task step, action)) haction

theorem declares_of_lookup
    (h : (hoistInlineActions config).actions.lookup name = some action) :
    Declares config name action := by
  by_cases hmem : ∃ action', (name, action') ∈ hoistedActions config.tasks
  · obtain ⟨action', hmem⟩ := hmem
    obtain ⟨held, hheld, hin⟩ := lookup_insertPairs_of_mem config.actions hmem
    obtain rfl := Option.some.inj (h.symm.trans hheld)
    exact .inr (mem_hoistedActions.mp hin)
  · left
    rw [← lookup_insertPairs_of_not_mem config.actions (not_exists.mp hmem)]
    exact h

theorem lookup_of_declares
    (h : Declares config name action) :
    ∃ held, (hoistInlineActions config).actions.lookup name = some held := by
  by_cases hmem : ∃ action', (name, action') ∈ hoistedActions config.tasks
  · obtain ⟨action', hmem⟩ := hmem
    obtain ⟨held, hheld, -⟩ := lookup_insertPairs_of_mem config.actions hmem
    exact ⟨held, hheld⟩
  · obtain hlookup | hinline := h
    · exact ⟨action, (lookup_insertPairs_of_not_mem config.actions (not_exists.mp hmem)).trans
        hlookup⟩
    · exact absurd ⟨action, mem_hoistedActions.mpr hinline⟩ hmem

theorem UnambiguousFile.lookup (h : UnambiguousFile config)
    (hdeclares : Declares config name action) :
    (hoistInlineActions config).actions.lookup name = some action := by
  obtain ⟨held, hheld⟩ := lookup_of_declares hdeclares
  rw [hheld, h name held action (declares_of_lookup hheld) hdeclares]

theorem stepAt_hoistInlineActions (config : WorkspaceConfig) (task step : String) :
    stepAt (hoistInlineActions config) task step =
      (stepAt config task step).map (hoistStep task step) := by
  unfold stepAt
  rw [hoistInlineActions, lookup_mapValues]
  cases config.tasks.lookup task with
  | none => rfl
  | some taskDef => exact lookup_mapValues (hoistStep task) taskDef.flow step

variable {task : String}

theorem hoistStep_of_inline {fs : FlowStep} (h : fs.inlineAction = some action) :
    hoistStep task name fs = { fs with action := inlineName task name, inlineAction := none } := by
  rw [hoistStep, h]

theorem hoistStep_of_reference {fs : FlowStep} (h : fs.inlineAction = none) :
    hoistStep task name fs = fs := by
  rw [hoistStep, h]

theorem hoistStep_inlineAction (task name : String) (fs : FlowStep) :
    (hoistStep task name fs).inlineAction = none := by
  cases h : fs.inlineAction with
  | none => rw [hoistStep_of_reference h, h]
  | some action => rw [hoistStep_of_inline h]

theorem hoistInlineActions_again (config : WorkspaceConfig) :
    hoistInlineActions (hoistInlineActions config) = hoistInlineActions config := by
  have hnone : hoistedActions (hoistInlineActions config).tasks = [] := by
    rw [List.eq_nil_iff_forall_not_mem]
    rintro ⟨name, action⟩ hmem
    obtain ⟨task, step, ⟨fs, hfs, haction⟩, -⟩ := mem_hoistedActions.mp hmem
    rw [stepAt_hoistInlineActions] at hfs
    obtain ⟨old, -, rfl⟩ := Option.map_eq_some_iff.mp hfs
    rw [hoistStep_inlineAction] at haction
    cases haction
  have hflow : ∀ (task : String) (flow : Dict String FlowStep),
      mapValues (hoistStep task) (mapValues (hoistStep task) flow) =
        mapValues (hoistStep task) flow := by
    intro task flow
    rw [mapValues_mapValues]
    congr 1
    funext name fs
    exact hoistStep_of_reference (hoistStep_inlineAction task name fs)
  have htasks : (hoistInlineActions (hoistInlineActions config)).tasks =
      (hoistInlineActions config).tasks := by
    simp only [hoistInlineActions, mapValues_mapValues, hflow]
  have hactions : (hoistInlineActions (hoistInlineActions config)).actions =
      (hoistInlineActions config).actions := by
    rw [hoistInlineActions, hnone]
    rfl
  exact congrArg₂
    (fun actions tasks => (⟨config.connectionTypes, actions, tasks⟩ : WorkspaceConfig))
    hactions htasks

theorem refersTo_iff {step : String} {fs : FlowStep} {workspace : WorkspaceConfig}
    (hfs : stepAt config task step = some fs) (hinline : fs.inlineAction = some action)
    (hsame : stepAt workspace task step = stepAt (hoistInlineActions config) task step) :
    RefersTo workspace task step fs action ↔
      workspace.actions.lookup (inlineName task step) = some action := by
  have hstep : stepAt workspace task step =
      some { fs with action := inlineName task step, inlineAction := none } := by
    rw [hsame, stepAt_hoistInlineActions, hfs, Option.map_some, hoistStep_of_inline hinline]
  constructor
  · rintro ⟨name, hname, hlookup⟩
    have heq := congrArg FlowStep.action (Option.some.inj (hstep.symm.trans hname))
    rwa [show inlineName task step = name from heq]
  · exact fun hlookup => ⟨_, hstep, hlookup⟩

theorem hoistPreserves_iff (config : WorkspaceConfig) :
    HoistPreserves config ↔ UnambiguousFile config := by
  constructor
  · intro h
    have hheld : ∀ name action, Declares config name action →
        (hoistInlineActions config).actions.lookup name = some action := by
      rintro name action (hlookup | ⟨task, step, ⟨fs, hfs, haction⟩, rfl⟩)
      · exact h.declared name action hlookup
      · exact (refersTo_iff hfs haction rfl).mp (h.inline task step fs action hfs haction)
    intro name action action' hdeclares hdeclares'
    have heq := (hheld name action hdeclares).symm.trans (hheld name action' hdeclares')
    exact Option.some.inj heq
  · intro h
    refine ⟨fun task step fs action hfs haction => ?_, fun name action hlookup => ?_,
      fun task step fs hfs hnone => ?_, hoistInlineActions_again config⟩
    · rw [refersTo_iff hfs haction rfl]
      exact h.lookup (.inr ⟨task, step, ⟨fs, hfs, haction⟩, rfl⟩)
    · exact h.lookup (.inl hlookup)
    · rw [stepAt_hoistInlineActions, hfs, Option.map_some, hoistStep_of_reference hnone]

/-! ## Merging files -/

theorem mergeFiles_append (workspace : WorkspaceConfig) (files files' : List WorkspaceConfig) :
    mergeFiles workspace (files ++ files') = mergeFiles (mergeFiles workspace files) files' := by
  induction files generalizing workspace with
  | nil => rfl
  | cons file files ih => exact ih _

variable {files : List WorkspaceConfig}

theorem lookup_actions_mergeFiles (workspace : WorkspaceConfig)
    (h : ∀ file ∈ files, ∀ action, ¬Declares file name action) :
    (mergeFiles workspace files).actions.lookup name = workspace.actions.lookup name := by
  induction files generalizing workspace with
  | nil => rfl
  | cons file files ih =>
    have hnone : (hoistInlineActions file).actions.lookup name = none := by
      rw [Option.eq_none_iff_forall_ne_some]
      exact fun action hlookup => h file List.mem_cons_self action (declares_of_lookup hlookup)
    rw [mergeFiles, ih _ fun other hother => h other (List.mem_cons_of_mem _ hother), merge,
      lookup_extend, hnone, Option.none_or]

theorem lookup_tasks_mergeFiles (workspace : WorkspaceConfig)
    (h : ∀ file ∈ files, file.tasks.lookup task = none) :
    (mergeFiles workspace files).tasks.lookup task = workspace.tasks.lookup task := by
  induction files generalizing workspace with
  | nil => rfl
  | cons file files ih =>
    have hnone : (hoistInlineActions file).tasks.lookup task = none := by
      rw [hoistInlineActions, lookup_mapValues, h file List.mem_cons_self]
      rfl
    rw [mergeFiles, ih _ fun other hother => h other (List.mem_cons_of_mem _ hother), merge,
      lookup_extend, hnone, Option.none_or]

theorem lookup_load_of_last {before rest : List WorkspaceConfig} {file : WorkspaceConfig}
    (hlookup : (hoistInlineActions file).actions.lookup name = some action)
    (hrest : ∀ later ∈ rest, ∀ other, ¬Declares later name other) :
    (load (before ++ file :: rest)).actions.lookup name = some action := by
  rw [load, mergeFiles_append, mergeFiles, lookup_actions_mergeFiles _ hrest, merge,
    lookup_extend, hlookup, Option.some_or]

theorem stepAt_load {before after : List WorkspaceConfig} {file : WorkspaceConfig}
    {step : String} {fs : FlowStep} (hfs : stepAt file task step = some fs)
    (hafter : ∀ later ∈ after, later.tasks.lookup task = none) :
    stepAt (load (before ++ file :: after)) task step =
      stepAt (hoistInlineActions file) task step := by
  obtain ⟨taskDef, htask, -⟩ := Option.bind_eq_some_iff.mp hfs
  have hhoisted : ∃ hoisted, (hoistInlineActions file).tasks.lookup task = some hoisted := by
    rw [hoistInlineActions, lookup_mapValues, htask]
    exact ⟨_, rfl⟩
  obtain ⟨hoisted, hhoisted⟩ := hhoisted
  rw [stepAt, load, mergeFiles_append, mergeFiles, lookup_tasks_mergeFiles _ hafter, merge,
    lookup_extend, stepAt, hhoisted, Option.some_or]

theorem exists_last_declaring (h : ∃ file ∈ files, ∃ action, Declares file name action) :
    ∃ mid file rest action, files = mid ++ file :: rest ∧ Declares file name action ∧
      ∀ later ∈ rest, ∀ other, ¬Declares later name other := by
  induction files with
  | nil =>
    obtain ⟨file, hfile, -⟩ := h
    cases hfile
  | cons head files ih =>
    by_cases hlater : ∃ file ∈ files, ∃ action, Declares file name action
    · obtain ⟨mid, file, rest, action, rfl, hdeclares, hrest⟩ := ih hlater
      exact ⟨head :: mid, file, rest, action, rfl, hdeclares, hrest⟩
    · obtain ⟨file, hfile, action, hdeclares⟩ := h
      have hnone : ∀ later ∈ files, ∀ other, ¬Declares later name other :=
        fun later hmem other hother => hlater ⟨later, hmem, other, hother⟩
      obtain rfl | hfile := List.mem_cons.mp hfile
      · exact ⟨[], file, files, action, rfl, hdeclares, hnone⟩
      · exact absurd hdeclares (hnone file hfile action)

/-- Hoisting and merging keep every action exactly when no name is ambiguous. -/
theorem loadPreserves_iff (files : List WorkspaceConfig) :
    LoadPreserves files ↔ Unambiguous files := by
  constructor
  · intro h
    have hwithin : ∀ file ∈ files, UnambiguousFile file :=
      fun file hfile => (hoistPreserves_iff file).mp (h.hoist file hfile)
    refine ⟨hwithin, ?_⟩
    rintro before file after hfiles task step action ⟨fs, hfs, haction⟩ hsurvives mid later rest
      rfl action' hdeclares hrest
    have hrefers := h.merge before file _ hfiles task step fs action hfs haction hsurvives
    have hlater : UnambiguousFile later := hwithin later (by simp [hfiles])
    have hlast : (load files).actions.lookup (inlineName task step) = some action' := by
      rw [hfiles, ← List.cons_append, ← List.append_assoc]
      exact lookup_load_of_last (hlater.lookup hdeclares) hrest
    rw [refersTo_iff hfs haction (hfiles ▸ stepAt_load hfs hsurvives)] at hrefers
    exact Option.some.inj (hlast.symm.trans hrefers)
  · intro h
    refine ⟨fun file hfile => (hoistPreserves_iff file).mpr (h.within file hfile), ?_⟩
    rintro before file after rfl task step fs action hfs haction hsurvives
    have hdeclares : Declares file (inlineName task step) action :=
      .inr ⟨task, step, ⟨fs, hfs, haction⟩, rfl⟩
    rw [refersTo_iff hfs haction (stepAt_load hfs hsurvives)]
    by_cases hlater : ∃ later ∈ after, ∃ other, Declares later (inlineName task step) other
    · obtain ⟨mid, later, rest, action', rfl, hlast, hrest⟩ := exists_last_declaring hlater
      obtain rfl := h.across before file _ rfl task step action ⟨fs, hfs, haction⟩ hsurvives
        mid later rest rfl action' hlast hrest
      rw [← List.cons_append, ← List.append_assoc]
      exact lookup_load_of_last ((h.within later (by simp)).lookup hlast) hrest
    · refine lookup_load_of_last ((h.within file (by simp)).lookup hdeclares) ?_
      exact fun later hmem other hother => hlater ⟨later, hmem, other, hother⟩

/-! ## Two tasks with one name for their steps -/

def echo (text : String) : ActionDef :=
  { actionType := "script", rest := [("script", .str text)] }

def inlineStepOf (text : String) : FlowStep :=
  { action := "", inlineAction := some (echo text) }

def collidingFile : WorkspaceConfig where
  tasks := insertPairs ∅
    [("a", { flow := insertPairs ∅ [("b:c", inlineStepOf "echo first")] }),
      ("a:b", { flow := insertPairs ∅ [("c", inlineStepOf "echo second")] })]

theorem steps_collide : ¬LoadPreserves [collidingFile] := by
  intro h
  have hfile := (hoistPreserves_iff collidingFile).mp (h.hoist collidingFile (by simp))
  have hfirst : Declares collidingFile "_inline:a:b:c" (echo "echo first") :=
    .inr ⟨"a", "b:c", ⟨inlineStepOf "echo first", rfl, rfl⟩, by decide⟩
  have hsecond : Declares collidingFile "_inline:a:b:c" (echo "echo second") :=
    .inr ⟨"a:b", "c", ⟨inlineStepOf "echo second", rfl, rfl⟩, by decide⟩
  have hscripts := congrArg ActionDef.rest (hfile _ _ _ hfirst hsecond)
  exact absurd hscripts (by decide)

end Stroem.Config
