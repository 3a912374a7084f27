import Stroem.Acl
import Stroem.Foundation.FirstWins

/-!
# The list of jobs and the single job

Both sides evaluate the same rules.  The scope of a list evaluates them on the tasks that are
live and on the tasks of pinned jobs; a single job is evaluated on its own path, which for a job
without a live task is the bare name.
-/

namespace Stroem.Acl

open Foundation

def Permits (answer : Option TaskPermission) : Prop :=
  ∃ perm, answer = some perm ∧ perm ≠ .deny

instance (answer : Option TaskPermission) : Decidable (Permits answer) :=
  match answer with
  | none => .isFalse fun h => by obtain ⟨_, h, _⟩ := h; cases h
  | some perm =>
    decidable_of_iff (perm ≠ .deny) ⟨fun h => ⟨perm, rfl, h⟩, fun h => by
      obtain ⟨_, h, hne⟩ := h
      cases h
      exact hne⟩

def admits : Option JobAclScope → JobRow → Bool
  | none, _ => true
  | some scope, job => scope.predicate job

structure ScopeAgrees (acl : Option AclConfig) (live : LiveConfigs) (rows : List JobRow)
    (email : String) (groups : List String) : Prop where
  built : ∃ scope, buildJobAclScope acl live rows email groups false = some scope
  agrees : ∀ scope, buildJobAclScope acl live rows email groups false = some scope →
    ∀ job ∈ rows, (admits scope job = true ↔
      Permits (evaluate acl job.workspace (jobTaskPath live job) email groups false))
  narrowed : ∀ scope, buildJobAclScope acl live rows email groups false = some (some scope) →
    ∀ workspace task job, ((narrowJobScope scope workspace task).predicate job = true ↔
      scope.predicate job = true ∧ (∀ w ∈ workspace, job.workspace = w) ∧
        ∀ t ∈ task, job.taskName = t)

/-- No rule panics on a live or pinned task, and the rules deny the bare name of every unpinned
job whose task is not live. -/
structure Covered (acl : Option AclConfig) (live : LiveConfigs) (rows : List JobRow)
    (email : String) (groups : List String) : Prop where
  evaluates : ∀ task ∈ liveTaskFolders live ++ pinnedTaskTriples rows,
    (evaluate acl task.1 (makeTaskPath task.2.2 task.2.1) email groups false).isSome
  gone : ∀ job ∈ rows, job.gitRef = none → live.task job.workspace job.taskName = none →
    ¬ Permits (evaluate acl job.workspace job.taskName email groups false)

/-! ## What is evaluated -/

theorem permitted_isSome_iff (acl : Option AclConfig) (email : String) (groups : List String)
    (tasks : List (String × String × Option String)) :
    (permitted acl email groups tasks).isSome ↔ ∀ task ∈ tasks,
      (evaluate acl task.1 (makeTaskPath task.2.2 task.2.1) email groups false).isSome := by
  induction tasks with
  | nil => simp [permitted]
  | cons task tasks ih =>
    obtain ⟨ws, taskName, folder⟩ := task
    rw [List.forall_mem_cons, ← ih, permitted]
    cases evaluate acl ws (makeTaskPath folder taskName) email groups false with
    | none => simp
    | some perm => cases permitted acl email groups tasks <;> simp

variable {email : String} {groups : List String}
  {items : List ((String × String × Option String) × TaskPermission)}

theorem mem_permitted {acl : Option AclConfig} {tasks : List (String × String × Option String)}
    (h : permitted acl email groups tasks = some items) (task : String × String × Option String) :
    (∃ perm, (task, perm) ∈ items) ↔ task ∈ tasks ∧
      Permits (evaluate acl task.1 (makeTaskPath task.2.2 task.2.1) email groups false) := by
  induction tasks generalizing items with
  | nil =>
    cases h
    simp
  | cons first tasks ih =>
    obtain ⟨ws, taskName, folder⟩ := first
    simp only [permitted, Option.bind_eq_bind, Option.bind_eq_some_iff, Option.pure_def,
      Option.some.injEq] at h
    obtain ⟨perm, hperm, rest, hrest, rfl⟩ := h
    specialize ih hrest
    have hfirst : Permits (evaluate acl ws (makeTaskPath folder taskName) email groups false) ↔
        perm ≠ .deny := by
      simp [Permits, hperm]
    by_cases hdeny : perm = .deny
    · rw [if_pos hdeny, ih, List.mem_cons]
      refine and_congr_left fun hpermits => ⟨.inr, ?_⟩
      rintro (rfl | hmem)
      · exact absurd hdeny (hfirst.mp hpermits)
      · exact hmem
    · rw [if_neg hdeny]
      simp only [List.mem_cons, Prod.mk.injEq]
      constructor
      · rintro ⟨perm', ⟨rfl, rfl⟩ | hmem⟩
        · exact ⟨.inl rfl, hfirst.mpr hdeny⟩
        · obtain ⟨htask, hpermits⟩ := ih.mp ⟨perm', hmem⟩
          exact ⟨.inr htask, hpermits⟩
      · rintro ⟨rfl | htask, hpermits⟩
        · exact ⟨perm, .inl ⟨rfl, rfl⟩⟩
        · obtain ⟨perm', hmem⟩ := ih.mpr ⟨htask, hpermits⟩
          exact ⟨perm', .inr hmem⟩

theorem mem_liveTaskFolders (live : LiveConfigs) {ws taskName : String}
    {folder : Option String} :
    (ws, taskName, folder) ∈ liveTaskFolders live ↔ live.task ws taskName = some folder := by
  unfold liveTaskFolders LiveConfigs.task
  rw [List.mem_flatMap, Option.bind_eq_some_iff]
  constructor
  · rintro ⟨⟨name, tasks⟩, hws, hmem⟩
    obtain ⟨⟨t, f⟩, htask, heq⟩ := List.mem_map.mp hmem
    simp only [Prod.mk.injEq] at heq
    obtain ⟨rfl, rfl, rfl⟩ := heq
    exact ⟨tasks, lookup_eq_some_of_mem live.names_nodup hws,
      lookup_eq_some_of_mem (live.tasks_nodup _ hws) htask⟩
  · rintro ⟨tasks, hws, htask⟩
    exact ⟨(ws, tasks), mem_of_lookup hws, List.mem_map.mpr ⟨(taskName, folder),
      mem_of_lookup htask, rfl⟩⟩

variable {rows : List JobRow}

theorem mem_pinnedTaskTriples {task : String × String × Option String} :
    task ∈ pinnedTaskTriples rows ↔ ∃ job ∈ rows, job.gitRef.isSome ∧
      (job.workspace, job.taskName, job.taskFolder) = task := by
  simp [pinnedTaskTriples, and_assoc]

/-! ## The scope of a list -/

theorem buildJobAclScope_eq_some {config : AclConfig} {live : LiveConfigs}
    {scope : Option JobAclScope} :
    buildJobAclScope (some config) live rows email groups false = some scope ↔
      ∃ pairs triples, permitted (some config) email groups (liveTaskFolders live) = some pairs ∧
        permitted (some config) email groups (pinnedTaskTriples rows) = some triples ∧
        scope = some {
          livePairs := pairs.map fun item => (item.1.1, item.1.2.1)
          pinnedTriples := triples.map fun item =>
            (item.1.1, item.1.2.1, item.1.2.2.getD "") } := by
  unfold buildJobAclScope allowedScope allowedTriples
  simp only [Option.isNone_some, Bool.or_self, Bool.false_eq_true, if_false]
  cases permitted (some config) email groups (liveTaskFolders live) with
  | none => simp
  | some pairs =>
    cases permitted (some config) email groups (pinnedTaskTriples rows) with
    | none => simp
    | some triples =>
      simp only [Option.bind_eq_bind, Option.bind_some, Option.pure_def, List.map_map,
        Option.some.injEq, exists_and_left, exists_eq_left']
      exact eq_comm

theorem livePairs_contains {acl : Option AclConfig} {live : LiveConfigs}
    (h : permitted acl email groups (liveTaskFolders live) = some items) (ws taskName : String) :
    (items.map fun item => (item.1.1, item.1.2.1)).contains (ws, taskName) = true ↔
      ∃ folder, live.task ws taskName = some folder ∧
        Permits (evaluate acl ws (makeTaskPath folder taskName) email groups false) := by
  rw [List.contains_iff_mem, List.mem_map]
  constructor
  · rintro ⟨⟨⟨w, t, folder⟩, perm⟩, hmem, heq⟩
    simp only [Prod.mk.injEq] at heq
    obtain ⟨rfl, rfl⟩ := heq
    obtain ⟨hlive, hpermits⟩ := (mem_permitted h _).mp ⟨perm, hmem⟩
    exact ⟨folder, (mem_liveTaskFolders live).mp hlive, hpermits⟩
  · rintro ⟨folder, hlive, hpermits⟩
    obtain ⟨perm, hmem⟩ := (mem_permitted h (ws, taskName, folder)).mpr
      ⟨(mem_liveTaskFolders live).mpr hlive, hpermits⟩
    exact ⟨_, hmem, rfl⟩

theorem makeTaskPath_getD (folder : Option String) (taskName : String) :
    makeTaskPath (some (folder.getD "")) taskName = makeTaskPath folder taskName := by
  cases folder <;> rfl

theorem pinnedTriples_contains {acl : Option AclConfig}
    (h : permitted acl email groups (pinnedTaskTriples rows) = some items) {job : JobRow}
    (hjob : job ∈ rows) (hpinned : job.gitRef.isSome = true) :
    (items.map fun item => (item.1.1, item.1.2.1, item.1.2.2.getD "")).contains
        (job.workspace, job.taskName, job.taskFolder.getD "") = true ↔
      Permits (evaluate acl job.workspace (makeTaskPath job.taskFolder job.taskName) email groups
        false) := by
  rw [List.contains_iff_mem, List.mem_map]
  constructor
  · rintro ⟨⟨⟨w, t, folder⟩, perm⟩, hmem, heq⟩
    simp only [Prod.mk.injEq] at heq
    obtain ⟨rfl, rfl, hfolder⟩ := heq
    obtain ⟨-, hpermits⟩ := (mem_permitted h _).mp ⟨perm, hmem⟩
    rw [← makeTaskPath_getD, ← hfolder, makeTaskPath_getD]
    exact hpermits
  · intro hpermits
    obtain ⟨perm, hmem⟩ := (mem_permitted h (job.workspace, job.taskName, job.taskFolder)).mpr
      ⟨mem_pinnedTaskTriples.mpr ⟨job, hjob, hpinned, rfl⟩, hpermits⟩
    exact ⟨_, hmem, rfl⟩

theorem admits_iff {config : AclConfig} {live : LiveConfigs} {scope : Option JobAclScope}
    (h : buildJobAclScope (some config) live rows email groups false = some scope) {job : JobRow}
    (hjob : job ∈ rows) :
    admits scope job = true ↔
      (job.gitRef = none → (live.task job.workspace job.taskName).isSome) ∧
        Permits (evaluate (some config) job.workspace (jobTaskPath live job) email groups
          false) := by
  obtain ⟨pairs, triples, hpairs, htriples, rfl⟩ := buildJobAclScope_eq_some.mp h
  simp only [admits, JobAclScope.predicate, jobTaskPath, coordsFolder, aclFolder]
  cases hpin : job.gitRef with
  | none =>
    have hlive := livePairs_contains hpairs job.workspace job.taskName
    simp only [Option.isNone_none, Bool.true_and, Option.isSome_none, Bool.false_and,
      Bool.or_false, Bool.false_eq_true, if_false, forall_const]
    rw [hlive]
    cases live.task job.workspace job.taskName with
    | none => simp
    | some folder => simp
  | some gitRef =>
    have hpinned := pinnedTriples_contains htriples hjob (by simp [hpin])
    simp only [Option.isNone_some, Bool.false_and, Option.isSome_some, Bool.true_and,
      Bool.false_or, if_true, reduceCtorEq, false_implies, true_and]
    exact hpinned

theorem filter_all_iff (filter : Option String) (value : String) :
    filter.all (· == value) = true ↔ ∀ wanted ∈ filter, value = wanted := by
  cases filter with
  | none => simp
  | some wanted =>
    constructor
    · intro h w hw
      cases hw
      exact (beq_iff_eq.mp h).symm
    · intro h
      exact beq_iff_eq.mpr (h wanted rfl).symm

theorem narrowJobScope_predicate (scope : JobAclScope) (workspace task : Option String)
    (job : JobRow) :
    (narrowJobScope scope workspace task).predicate job = true ↔
      scope.predicate job = true ∧ (∀ w ∈ workspace, job.workspace = w) ∧
        ∀ t ∈ task, job.taskName = t := by
  have hkeep : (workspace.all (· == job.workspace) && task.all (· == job.taskName)) = true ↔
      (∀ w ∈ workspace, job.workspace = w) ∧ ∀ t ∈ task, job.taskName = t := by
    rw [Bool.and_eq_true, filter_all_iff, filter_all_iff]
  rw [← hkeep]
  unfold narrowJobScope JobAclScope.predicate
  simp only [Bool.or_eq_true, Bool.and_eq_true, List.contains_iff_mem, List.mem_filter]
  tauto

/-- The list and the single check agree on every job of the table exactly when no rule panics and
no rule lets the user see the bare name of an unpinned job without a live task. -/
theorem scope_agrees_iff (acl : Option AclConfig) (live : LiveConfigs) (rows : List JobRow)
    (email : String) (groups : List String) :
    ScopeAgrees acl live rows email groups ↔
      acl = none ∨ Covered acl live rows email groups := by
  cases acl with
  | none =>
    refine iff_of_true ⟨⟨none, rfl⟩, ?_, ?_⟩ (.inl rfl)
    · intro scope hscope job _
      obtain rfl : scope = none := by simpa [buildJobAclScope, eq_comm] using hscope
      exact iff_of_true rfl ⟨.run, rfl, by decide⟩
    · intro scope hscope
      simp [buildJobAclScope] at hscope
  | some config =>
    simp only [reduceCtorEq, false_or]
    constructor
    · intro h
      obtain ⟨scope, hscope⟩ := h.built
      obtain ⟨pairs, triples, hpairs, htriples, -⟩ := buildJobAclScope_eq_some.mp hscope
      refine ⟨fun task htask => ?_, fun job hjob hpin hgone hpermits => ?_⟩
      · obtain hlive | hpinned := List.mem_append.mp htask
        · exact (permitted_isSome_iff _ _ _ _).mp (by simp [hpairs]) task hlive
        · exact (permitted_isSome_iff _ _ _ _).mp (by simp [htriples]) task hpinned
      · have hpath : jobTaskPath live job = job.taskName := by
          simp [jobTaskPath, coordsFolder, aclFolder, hpin, hgone, makeTaskPath]
        have hshown := (h.agrees scope hscope job hjob).mpr (by rwa [hpath])
        have hlive := ((admits_iff hscope hjob).mp hshown).1 hpin
        rw [hgone] at hlive
        cases hlive
    · rintro ⟨hevaluates, hgone⟩
      have hpairs := (permitted_isSome_iff (some config) email groups _).mpr
        fun task htask => hevaluates task (List.mem_append_left _ htask)
      have htriples := (permitted_isSome_iff (some config) email groups _).mpr
        fun task htask => hevaluates task (List.mem_append_right _ htask)
      obtain ⟨pairs, hpairs⟩ := Option.isSome_iff_exists.mp hpairs
      obtain ⟨triples, htriples⟩ := Option.isSome_iff_exists.mp htriples
      refine ⟨⟨_, buildJobAclScope_eq_some.mpr ⟨pairs, triples, hpairs, htriples, rfl⟩⟩, ?_,
        fun scope _ => narrowJobScope_predicate scope⟩
      intro scope hscope job hjob
      rw [admits_iff hscope hjob]
      refine and_iff_right_of_imp fun hpermits hpin => ?_
      by_contra hnot
      have hnone : live.task job.workspace job.taskName = none := by simpa using hnot
      have hpath : jobTaskPath live job = job.taskName := by
        simp [jobTaskPath, coordsFolder, aclFolder, hpin, hnone, makeTaskPath]
      exact hgone job hjob hpin hnone (by rwa [hpath] at hpermits)

/-! ### A job whose task was deleted -/

def viewers : AclConfig where
  rules := [{ workspace := "*", action := .view, groups := ["engineering"] }]

theorem deleted_task_is_hidden :
    ¬ ScopeAgrees (some viewers) ⟨[("production", [])], by decide, by decide⟩
      [{ workspace := "production", taskName := "deploy" }] "e@test" ["engineering"] := by
  intro h
  have hscope : buildJobAclScope (some viewers) ⟨[("production", [])], by decide, by decide⟩
      [{ workspace := "production", taskName := "deploy" }] "e@test" ["engineering"] false =
        some (some { livePairs := [], pinnedTriples := [] }) := by
    decide +kernel
  have hshown := (h.agrees _ hscope _ List.mem_cons_self).mpr ⟨.view, by decide +kernel, by decide⟩
  cases hshown

end Stroem.Acl
