import Stroem.AgentLoop.Run

/-!
# Names of task tools

A task is offered to the model under a name in which hyphens have become underscores, and a call
is brought back by trying two spellings of what the name holds.  The workspace is checked for
tasks whose names would meet.
-/

namespace Stroem.AgentLoop

/-! ## The check of the workspace -/

def normalizedName (name : String) : String := replaceChar '-' '_' name

def pushName (name : String) : List (String × List String) → List (String × List String)
  | [] => [(normalizedName name, [name])]
  | (key, names) :: groups =>
    if key = normalizedName name then (key, names ++ [name]) :: groups
    else (key, names) :: pushName name groups

def groupNames (names : List String) : List (String × List String) :=
  names.foldl (fun groups name => pushName name groups) []

def checkToolNames (taskNames : List String) : Except String Unit :=
  match (groupNames taskNames).find? fun group => decide (1 < group.2.length) with
  | some (normalized, names) =>
    .error ("Tasks " ++ " and ".intercalate (names.map fun n => "'" ++ n ++ "'") ++
      " have the same normalized name '" ++ normalized ++
      "' — agent tool names would collide. Rename one to avoid ambiguity.")
  | none => .ok ()

/-! ## Tool definitions -/

structure TaskToolInfo where
  name : String
  description : Option String
  deriving DecidableEq

structure ToolDefinition where
  name : String
  description : String
  deriving DecidableEq

def taskToolName (taskName : String) : String := "strom_task_" ++ normalizedName taskName

def taskToToolDefinition (taskName : String) (description : Option String) : ToolDefinition where
  name := taskToolName taskName
  description := description.getD ("Execute the '" ++ taskName ++ "' task")

def askUserToolDefinition : ToolDefinition where
  name := "ask_user"
  description := "Ask the user a question and wait for their response. Use this when you need " ++
    "human input, clarification, or approval to proceed."

def addTaskTool (tasks : List (String × Option String)) (infos : List TaskToolInfo) :
    AgentToolRef → List TaskToolInfo
  | .task task =>
    match tasks.lookup task with
    | some description =>
      if infos.any fun info => decide (info.name = task) then infos
      else infos ++ [⟨task, description⟩]
    | none => infos
  | .mcp _ => infos

def agentToolTasks (tasks : List (String × Option String)) (tools : List AgentToolRef) :
    List TaskToolInfo :=
  tools.foldl (addTaskTool tasks) []

def taskDefinition (infos : List TaskToolInfo) : AgentToolRef → Option ToolDefinition
  | .task task =>
    (infos.find? fun info => decide (info.name = task)).map fun info =>
      taskToToolDefinition task info.description
  | .mcp _ => none

def buildToolDefinitions (cfg : LoopConfig) (infos : List TaskToolInfo)
    (mcpDefinitions : List ToolDefinition) : List ToolDefinition :=
  cfg.tools.filterMap (taskDefinition infos) ++ mcpDefinitions ++
    if cfg.interactive then [askUserToolDefinition] else []

def Advertised (cfg : LoopConfig) (infos : List TaskToolInfo) (task toolName : String) : Prop :=
  .task task ∈ cfg.tools ∧
    ∃ definition, taskDefinition infos (.task task) = some definition ∧
      definition.name = toolName

def dispatchedTo (cfg : LoopConfig) (tc : ToolCall) : Option String :=
  if callKind cfg tc = .task then (resolveTask cfg tc).toOption else none

def LoopConfig.claimed (cfg : LoopConfig) (tasks : List (String × Option String)) : LoopConfig :=
  { cfg with taskTools := (agentToolTasks tasks cfg.tools).map (·.name) }

def ResolvesBack (cfg : LoopConfig) (infos : List TaskToolInfo) (tc : ToolCall) : Prop :=
  (∀ task, Advertised cfg infos task tc.name → dispatchedTo cfg tc = some task) ∧
    ((∀ task, ¬Advertised cfg infos task tc.name) → dispatchedTo cfg tc = none)

/-! ## Spellings -/

theorem toList_replaceChar (old new : Char) (s : String) :
    (replaceChar old new s).toList = s.toList.map fun c => if c = old then new else c := by
  rw [replaceChar, String.toList_ofList]

theorem not_mem_replaceChar {old new : Char} (hne : old ≠ new) (s : String) :
    old ∉ (replaceChar old new s).toList := by
  rw [toList_replaceChar, List.mem_map]
  rintro ⟨c, -, hc⟩
  split at hc
  · exact hne hc.symm
  · next hother => exact hother hc

theorem replaceChar_eq_self_iff {old new : Char} (hne : old ≠ new) {s : String} :
    replaceChar old new s = s ↔ old ∉ s.toList := by
  constructor
  · intro h
    rw [← h]
    exact not_mem_replaceChar hne s
  · intro h
    rw [← String.toList_inj, toList_replaceChar]
    have hkept : ∀ c ∈ s.toList, (if c = old then new else c) = id c := by
      intro c hc
      refine if_neg ?_
      rintro rfl
      exact h hc
    rw [List.map_congr_left hkept, List.map_id]

theorem replaceChar_twice {old new : Char} (s : String) :
    replaceChar old new (replaceChar new old s) = replaceChar old new s := by
  rw [← String.toList_inj, toList_replaceChar, toList_replaceChar, toList_replaceChar,
    List.map_map]
  refine List.map_congr_left fun c _ => ?_
  by_cases hnew : c = new
  · simp [hnew]
  · simp [hnew]

theorem replaceChar_idem {old new : Char} (s : String) :
    replaceChar old new (replaceChar old new s) = replaceChar old new s := by
  rw [← String.toList_inj, toList_replaceChar, toList_replaceChar, List.map_map]
  refine List.map_congr_left fun c _ => ?_
  by_cases hold : c = old
  · simp [hold]
  · simp [hold]

/-! ## Names that meet -/

theorem lookup_pushName (name key : String) (groups : List (String × List String)) :
    (pushName name groups).lookup key =
      if key = normalizedName name then some ((groups.lookup key).getD [] ++ [name])
      else groups.lookup key := by
  induction groups with
  | nil =>
    rw [pushName, List.lookup_cons, List.lookup_nil]
    by_cases hkey : key = normalizedName name
    · simp [hkey]
    · simp [hkey, beq_false_of_ne hkey]
  | cons group groups ih =>
    obtain ⟨groupKey, names⟩ := group
    rw [pushName]
    by_cases hgroup : groupKey = normalizedName name
    · rw [if_pos hgroup, List.lookup_cons, List.lookup_cons]
      by_cases hkey : key = normalizedName name
      · simp [hkey, hgroup]
      · have hother : key ≠ groupKey := fun h => hkey (h.trans hgroup)
        simp [hkey, beq_false_of_ne hother]
    · rw [if_neg hgroup, List.lookup_cons, List.lookup_cons, ih]
      by_cases hkey : key = groupKey
      · have hother : key ≠ normalizedName name := fun h => hgroup (hkey.symm.trans h)
        simp [hkey, hgroup]
      · simp [beq_false_of_ne hkey]

theorem lookup_groupNames (taskNames : List String) (key : String) :
    ((groupNames taskNames).lookup key).getD [] =
      taskNames.filter fun name => normalizedName name = key := by
  induction taskNames using List.reverseRecOn with
  | nil => rfl
  | append_singleton taskNames name ih =>
    have hpush : groupNames (taskNames ++ [name]) = pushName name (groupNames taskNames) :=
      List.foldl_append
    rw [hpush, lookup_pushName, List.filter_append, ← ih]
    by_cases hkey : key = normalizedName name
    · simp [hkey]
    · simp [hkey, Ne.symm hkey]

variable {task : String}

theorem eq_of_checkToolNames {taskNames : List String} (h : checkToolNames taskNames = .ok ())
    {task' : String} (htask : task ∈ taskNames) (htask' : task' ∈ taskNames)
    (hname : normalizedName task = normalizedName task') : task = task' := by
  unfold checkToolNames at h
  split at h
  · cases h
  · next hnone =>
      have hmem : ∀ t ∈ taskNames, normalizedName t = normalizedName task' →
          t ∈ taskNames.filter fun name => normalizedName name = normalizedName task' :=
        fun t ht heq => List.mem_filter.mpr ⟨ht, decide_eq_true heq⟩
      have hboth := hmem task htask hname
      have hboth' := hmem task' htask' rfl
      rw [← lookup_groupNames] at hboth hboth'
      cases hgroup : (groupNames taskNames).lookup (normalizedName task') with
      | none =>
        rw [hgroup] at hboth
        cases hboth
      | some names =>
        rw [hgroup] at hboth hboth'
        obtain ⟨before, after, hgroups, -⟩ := List.lookup_eq_some_iff.mp hgroup
        have hshort := List.find?_eq_none.mp hnone (normalizedName task', names)
          (hgroups ▸ List.mem_append_right before List.mem_cons_self)
        rw [decide_eq_true_eq, Nat.not_lt] at hshort
        match names, hboth, hboth', hshort with
        | [only], hboth, hboth', _ =>
          rw [Option.getD_some, List.mem_singleton] at hboth hboth'
          rw [hboth, hboth']

/-! ## The tools that are offered -/

variable {tasks : List (String × Option String)}

theorem mem_keys (h : (tasks.lookup task).isSome = true) : task ∈ tasks.map (·.1) := by
  obtain ⟨description, hlookup⟩ := Option.isSome_iff_exists.mp h
  obtain ⟨before, after, rfl, -⟩ := List.lookup_eq_some_iff.mp hlookup
  rw [List.map_append, List.map_cons]
  exact List.mem_append_right _ List.mem_cons_self

theorem mem_addTaskTool_iff {infos : List TaskToolInfo} {tool : AgentToolRef} :
    task ∈ (addTaskTool tasks infos tool).map (·.name) ↔
      task ∈ infos.map (·.name) ∨ tool = .task task ∧ (tasks.lookup task).isSome = true := by
  cases tool with
  | mcp server => simp [addTaskTool]
  | task listed =>
    rw [addTaskTool, AgentToolRef.task.injEq]
    cases hlookup : tasks.lookup listed with
    | none =>
      refine ⟨Or.inl, ?_⟩
      rintro (hmem | ⟨rfl, hsome⟩)
      · exact hmem
      · rw [hlookup] at hsome
        cases hsome
    | some description =>
      have hsome : (tasks.lookup listed).isSome = true := by rw [hlookup]; rfl
      dsimp only
      split
      · next hany =>
          obtain ⟨info, hinfo, hname⟩ := List.any_eq_true.mp hany
          refine ⟨Or.inl, ?_⟩
          rintro (hmem | ⟨rfl, -⟩)
          · exact hmem
          · exact List.mem_map.mpr ⟨info, hinfo, of_decide_eq_true hname⟩
      · rw [List.map_append, List.mem_append, List.map_singleton, List.mem_singleton]
        refine or_congr_right ⟨?_, fun h => h.1.symm⟩
        rintro rfl
        exact ⟨rfl, hsome⟩

theorem mem_agentToolTasks_iff {tools : List AgentToolRef} :
    task ∈ (agentToolTasks tasks tools).map (·.name) ↔
      .task task ∈ tools ∧ (tasks.lookup task).isSome = true := by
  induction tools using List.reverseRecOn with
  | nil => simp [agentToolTasks]
  | append_singleton tools tool ih =>
    have hstep : agentToolTasks tasks (tools ++ [tool]) =
        addTaskTool tasks (agentToolTasks tasks tools) tool := List.foldl_append
    rw [hstep, mem_addTaskTool_iff, ih, List.mem_append, List.mem_singleton, or_and_right,
      eq_comm (a := tool)]

theorem advertised_iff {cfg : LoopConfig} {infos : List TaskToolInfo} {toolName : String} :
    Advertised cfg infos task toolName ↔
      .task task ∈ cfg.tools ∧ task ∈ infos.map (·.name) ∧ taskToolName task = toolName := by
  unfold Advertised taskDefinition
  constructor
  · rintro ⟨htool, definition, hdefinition, rfl⟩
    obtain ⟨info, hinfo, rfl⟩ := Option.map_eq_some_iff.mp hdefinition
    have hname := List.find?_some hinfo
    exact ⟨htool, List.mem_map.mpr ⟨info, List.mem_of_find?_eq_some hinfo,
      of_decide_eq_true hname⟩, rfl⟩
  · rintro ⟨htool, hmem, rfl⟩
    obtain ⟨info, hinfo, hname⟩ := List.mem_map.mp hmem
    cases hfind : infos.find? fun info => decide (info.name = task) with
    | none =>
      have hnot := List.find?_eq_none.mp hfind info hinfo
      exact absurd (decide_eq_true hname) hnot
    | some found =>
      exact ⟨htool, taskToToolDefinition task found.description,
        by dsimp only; rw [hfind]; rfl, rfl⟩

/-! ## Where a call goes -/

theorem stripStart_append (start rest : String) : stripStart start (start ++ rest) = some rest := by
  have hstart : start.toList <+: (start ++ rest).toList := by
    rw [String.toList_append]
    exact List.prefix_append _ _
  rw [stripStart, if_pos hstart, String.toList_append, List.drop_left, String.ofList_toList]

theorem callKind_task {cfg : LoopConfig} {tc : ToolCall} {rest : String}
    (hname : tc.name = "strom_task_" ++ rest) : callKind cfg tc = .task := by
  have hask : tc.name ≠ "ask_user" := by
    intro h
    have hhead : (tc.name.toList).head? = some 's' := by
      rw [hname, String.toList_append]
      rfl
    rw [h] at hhead
    exact absurd hhead (by decide)
  have hmcp : stripStart "mcp_" tc.name = none := by
    refine if_neg fun h => ?_
    rw [hname, String.toList_append] at h
    exact absurd h (by simp [List.cons_append])
  have hkind : isMcpToolCall cfg tc.name = false := by
    rw [isMcpToolCall, hmcp]
    cases cfg.mcpServers <;> rfl
  have htask : taskNameFromToolName tc.name = some rest := by
    rw [hname]
    exact stripStart_append _ _
  rw [callKind, if_neg hask, hkind, htask]
  rfl

theorem eq_append_of_stripStart {start s rest : String} (h : stripStart start s = some rest) :
    s = start ++ rest := by
  unfold stripStart at h
  split at h
  · next hstart =>
      obtain ⟨after, hafter⟩ := hstart
      cases h
      rw [← String.toList_inj, String.toList_append, String.toList_ofList, ← hafter,
        List.drop_left]
  · cases h

def findTask (taskTools : List String) (taskName : String) : Option String :=
  if taskName ∈ taskTools then some taskName
  else if replaceChar '_' '-' taskName ∈ taskTools then some (replaceChar '_' '-' taskName)
  else none

theorem mem_of_findTask {taskTools : List String} {taskName : String}
    (h : findTask taskTools taskName = some task) :
    task ∈ taskTools ∧ (task = taskName ∨ task = replaceChar '_' '-' taskName) := by
  unfold findTask at h
  split at h
  · next hmem =>
      cases h
      exact ⟨hmem, Or.inl rfl⟩
  · split at h
    · next hmem =>
        cases h
        exact ⟨hmem, Or.inr rfl⟩
    · cases h

theorem not_mem_of_findTask {taskTools : List String} {taskName : String}
    (h : findTask taskTools taskName = none) :
    taskName ∉ taskTools ∧ replaceChar '_' '-' taskName ∉ taskTools := by
  unfold findTask at h
  split at h
  · cases h
  · next hname =>
      split at h
      · cases h
      · next hhyphen => exact ⟨hname, hhyphen⟩

theorem dispatchedTo_eq {cfg : LoopConfig} {tc : ToolCall} {taskName : String}
    (hlisted : ∀ task ∈ cfg.taskTools, AgentToolRef.task task ∈ cfg.tools)
    (hname : tc.name = "strom_task_" ++ taskName) :
    dispatchedTo cfg tc = findTask cfg.taskTools taskName := by
  have hstrip : taskNameFromToolName tc.name = some taskName := by
    rw [hname]
    exact stripStart_append _ _
  have hallowed : ∀ task ∈ cfg.taskTools, (cfg.tools.any fun
      | .task listed =>
        decide (listed = task) || decide (replaceChar '-' '_' listed = taskName)
      | .mcp _ => false) = true := by
    intro task htask
    refine List.any_eq_true.mpr ⟨_, hlisted task htask, ?_⟩
    simp
  rw [dispatchedTo, if_pos (callKind_task hname), resolveTask, hstrip, Option.getD_some, findTask]
  by_cases hmem : taskName ∈ cfg.taskTools
  · simp only [if_pos hmem]
    exact congrArg Except.toOption (if_pos (hallowed taskName hmem))
  · by_cases hhyphen : replaceChar '_' '-' taskName ∈ cfg.taskTools
    · simp only [if_neg hmem, if_pos hhyphen]
      exact congrArg Except.toOption (if_pos (hallowed _ hhyphen))
    · simp only [if_neg hmem, if_neg hhyphen]
      rfl

theorem dispatchedTo_eq_some {cfg : LoopConfig} {tc : ToolCall}
    (h : dispatchedTo cfg tc = some task) : ∃ taskName, tc.name = "strom_task_" ++ taskName := by
  have hkind : callKind cfg tc = .task := by
    by_contra hother
    rw [dispatchedTo, if_neg hother] at h
    cases h
  unfold callKind at hkind
  split at hkind
  · cases hkind
  · split at hkind
    · cases hkind
    · split at hkind
      · next htask =>
          obtain ⟨taskName, hstrip⟩ := Option.isSome_iff_exists.mp htask
          exact ⟨taskName, eq_append_of_stripStart hstrip⟩
      · cases hkind

theorem createTaskJobs_dispatched {cfg : LoopConfig} {rig : Rig} {calls : List ToolCall}
    {childJobs : List (Option Uuid)} {conv conv' : AgentConversationState}
    (hkind : ∀ tc ∈ calls, callKind cfg tc = .task)
    (h : createTaskJobs cfg rig calls childJobs conv = some conv') :
    ∃ children : List Uuid, children.map some <+: childJobs ∧
      children.length = (calls.filter fun tc => (dispatchedTo cfg tc).isSome).length ∧
      conv'.pendingToolCalls = conv.pendingToolCalls ++
        List.zipWith (fun tc child => ⟨tc.id, tc.name, child⟩)
          (calls.filter fun tc => (dispatchedTo cfg tc).isSome) children := by
  induction calls generalizing childJobs conv with
  | nil =>
    cases h
    exact ⟨[], List.nil_prefix, rfl, (List.append_nil _).symm⟩
  | cons tc calls ih =>
    have hrest : ∀ tc ∈ calls, callKind cfg tc = .task :=
      fun tc htc => hkind tc (List.mem_cons_of_mem _ htc)
    have hdispatch : dispatchedTo cfg tc = (resolveTask cfg tc).toOption :=
      if_pos (hkind tc List.mem_cons_self)
    unfold createTaskJobs at h
    split at h
    · next text hresolve =>
        obtain ⟨children, hchildren, hlength, hpending⟩ := ih hrest h
        have hnone : (dispatchedTo cfg tc).isSome = false := by rw [hdispatch, hresolve]; rfl
        rw [List.filter_cons, hnone, if_neg Bool.false_ne_true]
        exact ⟨children, hchildren, hlength, hpending⟩
    · next task hresolve =>
        have hsome : (dispatchedTo cfg tc).isSome = true := by rw [hdispatch, hresolve]; rfl
        rw [List.filter_cons, hsome, if_pos rfl]
        split at h
        · next child childJobs =>
            obtain ⟨children, hchildren, hlength, hpending⟩ := ih hrest h
            refine ⟨child :: children, ?_, by rw [List.length_cons, hlength, List.length_cons],
              ?_⟩
            · rw [List.map_cons]
              exact (List.prefix_cons_inj _).mpr hchildren
            · rw [hpending, List.zipWith_cons_cons, List.append_assoc, List.singleton_append]
        · cases h

theorem createTaskJobs_dispatched_one :
    ∃ conv' children, createTaskJobs deployAgent currentRig
        [⟨"call_1", none, "strom_task_destroy", .obj []⟩, deployCall] [some 7] {} = some conv' ∧
      children.map some <+: [some 7] ∧ children.length = 1 ∧
      conv'.pendingToolCalls = List.zipWith (fun tc child => ⟨tc.id, tc.name, child⟩)
        [deployCall] children := by
  have hkind : ∀ tc ∈ [⟨"call_1", none, "strom_task_destroy", .obj []⟩, deployCall],
      callKind deployAgent tc = .task := by
    decide +kernel
  obtain ⟨children, hchildren, hlength, hpending⟩ :=
    @createTaskJobs_dispatched deployAgent currentRig _ [some 7] {} _ hkind rfl
  refine ⟨_, children, rfl, hchildren, hlength, hpending⟩

structure ReadsBack (taskTools : List String) (toolName : String) : Prop where
  unmixed : ∀ task ∈ taskTools, toolName = taskToolName task →
    '-' ∉ task.toList ∨ '_' ∉ task.toList
  unhyphened : ∀ spelling, '-' ∈ spelling.toList → toolName = "strom_task_" ++ spelling →
    spelling ∉ taskTools ∧ replaceChar '_' '-' spelling ∉ taskTools

theorem append_left_cancel {start s s' : String} (h : start ++ s = start ++ s') : s = s' := by
  rw [← String.toList_inj, String.toList_append, String.toList_append] at h
  exact String.toList_inj.mp (List.append_cancel_left h)

theorem resolvesBack_iff (tasks : List (String × Option String)) (cfg : LoopConfig)
    (tc : ToolCall) (hcheck : checkToolNames (tasks.map (·.1)) = .ok ()) :
    ResolvesBack (cfg.claimed tasks) (agentToolTasks tasks cfg.tools) tc ↔
      ReadsBack (cfg.claimed tasks).taskTools tc.name := by
  have hlisted : ∀ task ∈ (cfg.claimed tasks).taskTools,
      AgentToolRef.task task ∈ (cfg.claimed tasks).tools :=
    fun task htask => (mem_agentToolTasks_iff.mp htask).1
  have hinjective : ∀ task ∈ (cfg.claimed tasks).taskTools,
      ∀ task' ∈ (cfg.claimed tasks).taskTools,
      normalizedName task = normalizedName task' → task = task' := by
    intro task htask task' htask'
    exact eq_of_checkToolNames hcheck (mem_keys (mem_agentToolTasks_iff.mp htask).2)
      (mem_keys (mem_agentToolTasks_iff.mp htask').2)
  have hadvertised : ∀ task, Advertised (cfg.claimed tasks) (agentToolTasks tasks cfg.tools) task
      tc.name ↔ task ∈ (cfg.claimed tasks).taskTools ∧ tc.name = taskToolName task := by
    intro task
    rw [advertised_iff, eq_comm (a := tc.name)]
    exact ⟨fun h => h.2, fun h => ⟨hlisted task h.1, h⟩⟩
  constructor
  · intro h
    refine ⟨fun task htask hname => ?_, fun spelling hhyphen hname => ?_⟩
    · have hdispatch := h.1 task ((hadvertised task).mpr ⟨htask, hname⟩)
      rw [dispatchedTo_eq hlisted hname] at hdispatch
      obtain ⟨-, hsame | hsame⟩ := mem_of_findTask hdispatch
      · exact Or.inl ((replaceChar_eq_self_iff (by decide)).mp hsame.symm)
      · rw [normalizedName, replaceChar_twice] at hsame
        exact Or.inr ((replaceChar_eq_self_iff (by decide)).mp hsame.symm)
    · have hnone : dispatchedTo (cfg.claimed tasks) tc = none := by
        refine h.2 fun task hoffered => ?_
        have hspelling : spelling = normalizedName task :=
          append_left_cancel (hname.symm.trans ((hadvertised task).mp hoffered).2)
        rw [hspelling] at hhyphen
        exact not_mem_replaceChar (by decide) task hhyphen
      rw [dispatchedTo_eq hlisted hname] at hnone
      exact not_mem_of_findTask hnone
  · intro h
    refine ⟨fun task hoffered => ?_, fun hnot => ?_⟩
    · obtain ⟨htask, hname⟩ := (hadvertised task).mp hoffered
      rw [dispatchedTo_eq hlisted hname, findTask]
      split
      · next hmem =>
          rw [hinjective _ hmem task htask (replaceChar_idem task)]
      · next hnot =>
          have hhyphen : replaceChar '_' '-' (normalizedName task) = task := by
            rw [normalizedName, replaceChar_twice]
            obtain hclean | hclean := h.unmixed task htask hname
            · have hsame : normalizedName task = task :=
                (replaceChar_eq_self_iff (by decide)).mpr hclean
              exact absurd (hsame.symm ▸ htask) hnot
            · exact (replaceChar_eq_self_iff (by decide)).mpr hclean
          rw [hhyphen, if_pos htask]
    · cases hdispatch : dispatchedTo (cfg.claimed tasks) tc with
      | none => rfl
      | some task =>
        obtain ⟨taskName, hname⟩ := dispatchedTo_eq_some hdispatch
        rw [dispatchedTo_eq hlisted hname] at hdispatch
        obtain ⟨htask, hspelled⟩ := mem_of_findTask hdispatch
        by_cases hhyphen : '-' ∈ taskName.toList
        · obtain ⟨hname', hhyphen'⟩ := h.unhyphened taskName hhyphen hname
          obtain rfl | rfl := hspelled
          · exact absurd htask hname'
          · exact absurd htask hhyphen'
        · have hnormal : normalizedName taskName = taskName :=
            (replaceChar_eq_self_iff (by decide)).mpr hhyphen
          have hoffered : tc.name = taskToolName task := by
            obtain rfl | rfl := hspelled
            · rw [taskToolName, hnormal, hname]
            · rw [taskToolName, normalizedName, replaceChar_twice, ← normalizedName, hnormal,
                hname]
          exact absurd ((hadvertised task).mpr ⟨htask, hoffered⟩) (hnot task)

def oneTool (task : String) : LoopConfig where
  interactive := false
  tools := [.task task]
  maxTurns := none
  taskTools := []
  mcpServers := none
  prompt := ""

theorem resolvesBack_hyphen :
    checkToolNames ["sync-users"] = .ok () ∧
      ResolvesBack ((oneTool "sync-users").claimed [("sync-users", none)])
        (agentToolTasks [("sync-users", none)] [.task "sync-users"])
        ⟨"call-1", none, "strom_task_sync_users", .null⟩ := by
  have hcheck : checkToolNames ["sync-users"] = .ok () := by rfl
  refine ⟨hcheck, (resolvesBack_iff [("sync-users", none)] (oneTool "sync-users") _ hcheck).mpr
    ⟨fun task htask _ => ?_, fun spelling hhyphen hname => ?_⟩⟩
  · have hone : task = "sync-users" := List.mem_singleton.mp htask
    rw [hone]
    exact Or.inr (by decide)
  · have hspelling : "sync_users" = spelling := @append_left_cancel "strom_task_" _ _ hname
    rw [← hspelling] at hhyphen
    exact absurd hhyphen (by decide)

/-- The task `sync-user_data` is offered and cannot be called. -/
theorem mixed_not_found : ¬ ∀ (tasks : List (String × Option String)) (cfg : LoopConfig)
    (tc : ToolCall), checkToolNames (tasks.map (·.1)) = .ok () →
      ResolvesBack (cfg.claimed tasks) (agentToolTasks tasks cfg.tools) tc := by
  intro h
  have hback := h [("sync-user_data", none)] (oneTool "sync-user_data")
    ⟨"call-1", none, "strom_task_sync_user_data", .null⟩ rfl
  have hoffered : Advertised ((oneTool "sync-user_data").claimed [("sync-user_data", none)])
      (agentToolTasks [("sync-user_data", none)] [.task "sync-user_data"]) "sync-user_data"
      "strom_task_sync_user_data" :=
    ⟨List.mem_singleton_self _, _, rfl, rfl⟩
  exact absurd (hback.1 _ hoffered) (by decide)

end Stroem.AgentLoop
