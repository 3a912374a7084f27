import Mathlib.Data.List.Basic
import Mathlib.Data.List.Dedup
import Mathlib.Tactic.Common

/-!
# Access control of jobs

The rules grant permissions on a workspace and a task path.  A single job is authorised by
evaluating them on the job's own path; a list of jobs is filtered by an SQL predicate that is
built beforehand from the live tasks and from the pinned jobs of the table.

`glob_match` slices a string at every byte, and slicing inside a character panics: `none` in this
module is a panic.
-/

namespace Stroem.Acl

inductive AclAction where
  | run
  | view
  | deny
  deriving DecidableEq

def AclAction.priority : AclAction → Nat
  | .deny => 1
  | .view => 2
  | .run => 3

inductive TaskPermission where
  | run
  | view
  | deny
  deriving DecidableEq

def TaskPermission.ofAction : AclAction → TaskPermission
  | .run => .run
  | .view => .view
  | .deny => .deny

structure AclRule where
  workspace : String
  tasks : List String := ["*"]
  action : AclAction
  groups : List String := []
  users : List String := []
  deriving DecidableEq

structure AclConfig where
  default : AclAction := .deny
  rules : List AclRule := []
  deriving DecidableEq

/-! ## Globs -/

def atEveryByte (rest : List Char → Option Bool) : List Char → Option Bool
  | [] => rest []
  | c :: remaining =>
    match rest (c :: remaining) with
    | some false => if c.utf8Size = 1 then atEveryByte rest remaining else none
    | answer => answer

def globSegments : List (List Char) → List Char → Option Bool
  | [], _ => some false
  | [exact], value => some (exact == value)
  | [first, last], value =>
    some (first.isPrefixOf value && last.isSuffixOf (value.drop first.length))
  | first :: rest, value =>
    if first.isPrefixOf value then atEveryByte (globSegments rest) (value.drop first.length)
    else some false

def globMatch (pattern value : String) : Option Bool :=
  if pattern == "*" then some true
  else globSegments (pattern.toList.splitOn '*') value.toList

/-! ## Evaluating the rules -/

def anyGlob (taskPath : String) : List String → Option Bool
  | [] => some false
  | pattern :: patterns => do
      if ← globMatch pattern taskPath then return true
      anyGlob taskPath patterns

def AclRule.applies (rule : AclRule) (workspace taskPath email : String)
    (groups : List String) : Option Bool := do
  if !(← globMatch rule.workspace workspace) then return false
  if !(← anyGlob taskPath rule.tasks) then return false
  return rule.users.any (· == email) || rule.groups.any groups.contains

def highestPriority (workspace taskPath email : String) (groups : List String) :
    Nat → List AclRule → Option Nat
  | highest, [] => some highest
  | highest, rule :: rules => do
      if ← rule.applies workspace taskPath email groups then
        highestPriority workspace taskPath email groups (max highest rule.action.priority) rules
      else highestPriority workspace taskPath email groups highest rules

def evaluate (acl : Option AclConfig) (workspace taskPath email : String)
    (groups : List String) (isAdmin : Bool) : Option TaskPermission :=
  if isAdmin then some .run
  else
    match acl with
    | none => some .run
    | some config => do
        let highest ← highestPriority workspace taskPath email groups 0 config.rules
        if 0 < highest then
          return match highest with
            | 3 => .run
            | 2 => .view
            | _ => .deny
        else return .ofAction config.default

/-! ## Task paths -/

def makeTaskPath (folder : Option String) (taskName : String) : String :=
  match folder with
  | some f => if f.isEmpty then taskName else f ++ "/" ++ taskName
  | none => taskName

def aclFolder (gitRef taskFolder liveFolder : Option String) : Option String :=
  if gitRef.isSome then taskFolder else liveFolder

structure LiveConfigs where
  workspaces : List (String × List (String × Option String))
  names_nodup : (workspaces.map Prod.fst).Nodup
  tasks_nodup : ∀ ws ∈ workspaces, (ws.2.map Prod.fst).Nodup

def LiveConfigs.task (live : LiveConfigs) (workspace taskName : String) :
    Option (Option String) :=
  (live.workspaces.lookup workspace).bind fun tasks => tasks.lookup taskName

structure JobRow where
  workspace : String
  taskName : String
  gitRef : Option String := none
  taskFolder : Option String := none
  deriving DecidableEq

def coordsFolder (live : LiveConfigs) (job : JobRow) : Option String :=
  let liveFolder :=
    if job.gitRef.isSome then none else (live.task job.workspace job.taskName).join
  aclFolder job.gitRef job.taskFolder liveFolder

def jobTaskPath (live : LiveConfigs) (job : JobRow) : String :=
  makeTaskPath (coordsFolder live job) job.taskName

/-! ## The scope of a job list -/

structure JobAclScope where
  livePairs : List (String × String)
  pinnedTriples : List (String × String × String)
  deriving DecidableEq

def JobAclScope.predicate (scope : JobAclScope) (job : JobRow) : Bool :=
  (job.gitRef.isNone && scope.livePairs.contains (job.workspace, job.taskName)) ||
    (job.gitRef.isSome &&
      scope.pinnedTriples.contains (job.workspace, job.taskName, job.taskFolder.getD ""))

inductive AllowedScope where
  | all
  | filtered (items : List (String × String × TaskPermission))
  deriving DecidableEq

def permitted (acl : Option AclConfig) (email : String) (groups : List String) :
    List (String × String × Option String) →
      Option (List ((String × String × Option String) × TaskPermission))
  | [] => some []
  | (ws, taskName, folder) :: tasks => do
      let perm ← evaluate acl ws (makeTaskPath folder taskName) email groups false
      let rest ← permitted acl email groups tasks
      return if perm = .deny then rest else ((ws, taskName, folder), perm) :: rest

def allowedScope (acl : Option AclConfig) (tasks : List (String × String × Option String))
    (email : String) (groups : List String) (isAdmin : Bool) : Option AllowedScope :=
  if isAdmin || acl.isNone then some .all
  else do
    let items ← permitted acl email groups tasks
    return .filtered (items.map fun ((ws, taskName, _), perm) => (ws, taskName, perm))

def allowedTriples (acl : Option AclConfig) (triples : List (String × String × Option String))
    (email : String) (groups : List String) : Option (List (String × String × String)) := do
  let items ← permitted acl email groups triples
  return items.map fun ((ws, taskName, folder), _) => (ws, taskName, folder.getD "")

def liveTaskFolders (live : LiveConfigs) : List (String × String × Option String) :=
  live.workspaces.flatMap fun (ws, tasks) => tasks.map fun (taskName, folder) =>
    (ws, taskName, folder)

def pinnedTaskTriples (rows : List JobRow) : List (String × String × Option String) :=
  ((rows.filter fun job => job.gitRef.isSome).map fun job =>
    (job.workspace, job.taskName, job.taskFolder)).dedup

def buildJobAclScope (acl : Option AclConfig) (live : LiveConfigs) (rows : List JobRow)
    (email : String) (groups : List String) (isAdmin : Bool) : Option (Option JobAclScope) :=
  if isAdmin || acl.isNone then some none
  else do
    match ← allowedScope acl (liveTaskFolders live) email groups false with
    | .all => return none
    | .filtered items =>
      let pinnedTriples ← allowedTriples acl (pinnedTaskTriples rows) email groups
      return some {
        livePairs := items.map fun (ws, taskName, _) => (ws, taskName)
        pinnedTriples := pinnedTriples }

def narrowJobScope (scope : JobAclScope) (workspace task : Option String) : JobAclScope :=
  let keep (w t : String) := workspace.all (· == w) && task.all (· == t)
  { livePairs := scope.livePairs.filter fun (w, t) => keep w t
    pinnedTriples := scope.pinnedTriples.filter fun (w, t, _) => keep w t }

end Stroem.Acl
