import Mathlib.Data.List.Sort
import Mathlib.Logic.Function.Basic

/-!
# The workspace cache of a worker

A worker extracts every revision of a workspace into a directory of its own.  Steps call
`ensure_revision` and `ensure_up_to_date` at the same time and hold guards on directories, while
cleanups in the background remove directories that no guard is counted for.  The operations
interleave at their locks, their atomics, their requests and their file operations; one event
below is one such operation.
-/

namespace Stroem.WorkspaceCache

def sanitizeRevisionForDir (revision : String) : String :=
  let sanitized := String.ofList (revision.toList.map fun c =>
    if c.isAlphanum || c == '-' || c == '_' || c == '.' then c else '_')
  if sanitized = ".." then "_dotdot"
  else if sanitized = "." then "_dot"
  else sanitized

abbrev Dir := String × String

def revDir (workspace revision : String) : Dir := (workspace, sanitizeRevisionForDir revision)

def tmpDir (workspace revision : String) : Dir :=
  (workspace, sanitizeRevisionForDir revision ++ ".tmp")

def isTmp (name : String) : Bool := ['.', 't', 'm', 'p'].isSuffixOf name.toList

inductive DirState where
  | absent
  | whole
  | removing
  deriving DecidableEq

/-- A counter (an `Arc<AtomicUsize>`): the directory it was made for, and the number of counters
made for that directory before it. -/
abbrev Counter := Dir × Nat

inductive Call where
  | idle
  | wants (workspace revision : String)
  | looks (workspace revision : String)
  | asksRevision (workspace revision : String)
  | asksLatest (workspace : String) (cached : Option String)
  | extracts (workspace revision : String) (pinned : Bool)
  | prepares (workspace revision : String) (pinned : Bool)
  | unpacks (workspace revision : String) (pinned : Bool)
  | acquires (workspace revision : String) (pinned locked : Bool)
  | counts (workspace revision : String) (serial : Nat) (pinned locked : Bool)
  deriving DecidableEq

inductive Item where
  | temp (name : String)
  | old (name : String)
  deriving DecidableEq

def Item.name : Item → String
  | .temp name => name
  | .old name => name

inductive Cleanup where
  | idle
  | spawned (workspace currentRevision : String)
  | sweeps (workspace : String) (items : List Item)
  | dooms (workspace name : String) (items : List Item)
  | removes (workspace : String) (item : Item) (items : List Item)
  | forgets (workspace name : String) (items : List Item)
  deriving DecidableEq

structure State where
  dirs : Dir → DirState
  current : String → Option String
  locks : String → Option Nat := fun _ => none
  refs : Dir → Option Nat := fun _ => none
  made : Dir → Nat := fun _ => 0
  values : Counter → Nat := fun _ => 0
  guards : List Counter := []
  calls : Nat → Call := fun _ => .idle
  cleanups : Nat → Cleanup := fun _ => .idle

inductive Event where
  | ensureRevision (call : Nat) (workspace revision : String)
  | ensureUpToDate (call : Nat) (workspace : String)
  | locks (call : Nat)
  | looks (call : Nat)
  | answers (call : Nat) (revision : Option String)
  | creates (call : Nat)
  | renames (call : Nat)
  | fails (call : Nat)
  | fetches (call : Nat)
  | increments (call cleanup : Nat)
  | drops (counter : Counter)
  | lists (cleanup : Nat) (entries : List (String × Nat))
  | checks (cleanup : Nat)
  | begins (cleanup : Nat)
  | finishes (cleanup : Nat) (removed : Bool)
  | forgets (cleanup : Nat)
  | prunes (cleanup : Nat) (dir : Dir)
  | ends (cleanup : Nat)
  deriving DecidableEq

namespace State

def isDir (s : State) (dir : Dir) : Bool := s.dirs dir != .absent

def setDir (s : State) (dir : Dir) (state : DirState) : State :=
  { s with dirs := Function.update s.dirs dir state }

def setCall (s : State) (call : Nat) (phase : Call) : State :=
  { s with calls := Function.update s.calls call phase }

def setCleanup (s : State) (cleanup : Nat) (phase : Cleanup) : State :=
  { s with cleanups := Function.update s.cleanups cleanup phase }

def setLock (s : State) (workspace : String) (holder : Option Nat) : State :=
  { s with locks := Function.update s.locks workspace holder }

def addGuard (s : State) (counter : Counter) : State :=
  { s with
    values := Function.update s.values counter (s.values counter + 1)
    guards := counter :: s.guards }

def dropGuard (s : State) (counter : Counter) : State :=
  { s with
    values := Function.update s.values counter (s.values counter - 1)
    guards := s.guards.erase counter }

def addRef (s : State) (dir : Dir) : State :=
  { s with
    refs := Function.update s.refs dir (some (s.made dir))
    made := Function.update s.made dir (s.made dir + 1)
    values := Function.update s.values (dir, s.made dir) 0 }

def dropRef (s : State) (dir : Dir) : State :=
  { s with refs := Function.update s.refs dir none }

def setCurrent (s : State) (workspace revision : String) (pinned : Bool) : State :=
  if pinned then s else { s with current := Function.update s.current workspace (some revision) }

def count (s : State) (dir : Dir) : Nat :=
  match s.refs dir with
  | some serial => s.values (dir, serial)
  | none => 0

def currentRevision (s : State) (workspace : String) : Option String :=
  (s.current workspace).filter fun revision => s.isDir (revDir workspace revision)

end State

def Call.holds : Call → Option String
  | .looks workspace _ => some workspace
  | .prepares workspace _ _ => some workspace
  | .unpacks workspace _ _ => some workspace
  | .acquires workspace _ _ locked => if locked then some workspace else none
  | .counts workspace _ _ _ locked => if locked then some workspace else none
  | _ => none

def State.unlock (s : State) (call : Nat) : State :=
  match (s.calls call).holds with
  | some workspace => s.setLock workspace none
  | none => s

/-- The directories a cleanup goes through: temporary ones, and old revisions beyond the newest
`maxRetained`. -/
def itemsOf (maxRetained : Nat) (currentRevision : String) (entries : List (String × Nat)) :
    List Item :=
  let temps := entries.filter fun e => isTmp e.1
  let olds := entries.filter fun e =>
    !isTmp e.1 && e.1 != sanitizeRevisionForDir currentRevision
  temps.map (fun e => .temp e.1) ++
    ((olds.insertionSort fun a b => b.2 ≤ a.2).drop maxRetained).map fun e => .old e.1

/-! ## The calls of steps -/

/-- The lock is free: `ensure_revision` goes to look, an extraction begins. -/
def State.takeLock (s : State) (call : Nat) : Option State :=
  match s.calls call with
  | .wants workspace revision =>
    if s.locks workspace = none then
      some ((s.setLock workspace (some call)).setCall call (.looks workspace revision))
    else none
  | .extracts workspace revision pinned =>
    if s.locks workspace = none then
      if sanitizeRevisionForDir revision = "" then some (s.setCall call .idle)
      else if s.isDir (revDir workspace revision) then
        some ((s.setCurrent workspace revision pinned).setCall call
          (.acquires workspace revision pinned false))
      else
        -- a temporary directory left from an earlier extraction is removed
        some (((s.setLock workspace (some call)).setDir (tmpDir workspace revision) .absent).setCall
          call (.prepares workspace revision pinned))
    else none
  | _ => none

def State.look (s : State) (call : Nat) : Option State :=
  match s.calls call with
  | .looks workspace revision =>
    if s.isDir (revDir workspace revision) then
      some (s.setCall call (.acquires workspace revision true true))
    else some ((s.setLock workspace none).setCall call (.asksRevision workspace revision))
  | _ => none

def State.answer (s : State) (call : Nat) (revision : Option String) : Option State :=
  match s.calls call, revision with
  | .asksRevision workspace wanted, some _ =>
    some (s.setCall call (.extracts workspace wanted true))
  | .asksRevision _ _, none => some (s.setCall call .idle)
  | .asksLatest workspace _, some revision =>
    some (s.setCall call (.extracts workspace revision false))
  | .asksLatest workspace (some cached), none =>
    if s.isDir (revDir workspace cached) then
      some (s.setCall call (.acquires workspace cached false false))
    else some (s.setCall call .idle)
  | .asksLatest _ none, none => some (s.setCall call .idle)
  | _, _ => none

def State.create (s : State) (call : Nat) : Option State :=
  match s.calls call with
  | .prepares workspace revision pinned =>
    some ((s.setDir (tmpDir workspace revision) .whole).setCall call
      (.unpacks workspace revision pinned))
  | _ => none

def State.rename (s : State) (call : Nat) : Option State :=
  match s.calls call with
  | .unpacks workspace revision pinned =>
    if s.isDir (tmpDir workspace revision) ∧ s.isDir (revDir workspace revision) = false then
      let moved := (s.setDir (revDir workspace revision)
        (s.dirs (tmpDir workspace revision))).setDir
        (tmpDir workspace revision) .absent
      some (((moved.setCurrent workspace revision pinned).setLock workspace none).setCall call
        (.acquires workspace revision pinned false))
    else none
  | _ => none

def State.fetch (s : State) (call : Nat) : Option State :=
  match s.calls call with
  | .acquires workspace revision pinned locked =>
    match s.refs (revDir workspace revision) with
    | some serial => some (s.setCall call (.counts workspace revision serial pinned locked))
    | none => some ((s.addRef (revDir workspace revision)).setCall call
        (.counts workspace revision (s.made (revDir workspace revision)) pinned locked))
  | _ => none

def State.increment (s : State) (call cleanup : Nat) : Option State :=
  match s.calls call with
  | .counts workspace revision serial pinned _ =>
    let returned :=
      ((s.addGuard (revDir workspace revision, serial)).unlock call).setCall call .idle
    if pinned then some returned
    else if s.cleanups cleanup = .idle then
      some (returned.setCleanup cleanup (.spawned workspace revision))
    else none
  | _ => none

/-! ## Cleanups -/

def State.list (s : State) (maxRetained cleanup : Nat) (entries : List (String × Nat)) :
    Option State :=
  match s.cleanups cleanup with
  | .spawned workspace currentRevision =>
    if entries.all fun e => s.isDir (workspace, e.1) then
      some (s.setCleanup cleanup
        (.sweeps workspace (itemsOf maxRetained currentRevision entries)))
    else none
  | _ => none

def State.check (s : State) (cleanup : Nat) : Option State :=
  match s.cleanups cleanup with
  | .sweeps workspace (.old name :: items) =>
    if 0 < s.count (workspace, name) then
      some (s.setCleanup cleanup (.sweeps workspace items))
    else some (s.setCleanup cleanup (.dooms workspace name items))
  | _ => none

def Cleanup.target : Cleanup → Option Dir
  | .sweeps workspace (.temp name :: _) => some (workspace, name)
  | .dooms workspace name _ => some (workspace, name)
  | .removes workspace item _ => some (workspace, item.name)
  | _ => none

def State.damage (s : State) (dir : Dir) : State :=
  if s.isDir dir then s.setDir dir .removing else s

def State.begin (s : State) (cleanup : Nat) : Option State :=
  match s.cleanups cleanup with
  | .sweeps workspace (.temp name :: items) =>
    some ((s.damage (workspace, name)).setCleanup cleanup
      (.removes workspace (.temp name) items))
  | .dooms workspace name items =>
    some ((s.damage (workspace, name)).setCleanup cleanup
      (.removes workspace (.old name) items))
  | _ => none

def State.finish (s : State) (cleanup : Nat) (removed : Bool) : Option State :=
  match s.cleanups cleanup with
  | .removes workspace item items =>
    let after := if removed then s.setDir (workspace, item.name) .absent else s
    some (after.setCleanup cleanup
      (match item, removed with
        | .old name, true => .forgets workspace name items
        | _, _ => .sweeps workspace items))
  | _ => none

def State.forget (s : State) (cleanup : Nat) : Option State :=
  match s.cleanups cleanup with
  | .forgets workspace name items =>
    some ((s.dropRef (workspace, name)).setCleanup cleanup (.sweeps workspace items))
  | _ => none

def State.prune (s : State) (cleanup : Nat) (dir : Dir) : Option State :=
  match s.cleanups cleanup with
  | .sweeps workspace [] =>
    if dir.1 = workspace ∧ s.count dir = 0 ∧ s.isDir dir = false then
      some (s.dropRef dir)
    else none
  | _ => none

def State.step (maxRetained : Nat) (s : State) : Event → Option State
  | .ensureRevision call workspace revision =>
    if s.calls call = .idle then some (s.setCall call (.wants workspace revision)) else none
  | .ensureUpToDate call workspace =>
    if s.calls call = .idle then
      some (s.setCall call (.asksLatest workspace (s.currentRevision workspace)))
    else none
  | .locks call => s.takeLock call
  | .looks call => s.look call
  | .answers call revision => s.answer call revision
  | .creates call => s.create call
  | .renames call => s.rename call
  | .fails call => some ((s.unlock call).setCall call .idle)
  | .fetches call => s.fetch call
  | .increments call cleanup => s.increment call cleanup
  | .drops counter =>
    if counter ∈ s.guards then some (s.dropGuard counter) else none
  | .lists cleanup entries => s.list maxRetained cleanup entries
  | .checks cleanup => s.check cleanup
  | .begins cleanup => s.begin cleanup
  | .finishes cleanup removed => s.finish cleanup removed
  | .forgets cleanup => s.forget cleanup
  | .prunes cleanup dir => s.prune cleanup dir
  | .ends cleanup =>
    if (s.cleanups cleanup matches .sweeps _ []) then some (s.setCleanup cleanup .idle) else none

def initial (dirs : Dir → DirState) (current : String → Option String) : State where
  dirs := dirs
  current := current

end Stroem.WorkspaceCache
