import Mathlib.Data.List.Sort
import Mathlib.Logic.Function.Basic
import Stroem.AgentState

/-!
# State snapshots

A job uploads a snapshot of its task's state, or of its workspace's global state.  The blob is
stored first, under a key made of the job's coordinates and its id; a transaction then inserts a
row and prunes the partition, and the blobs of the pruned rows are deleted in the background.  One
event below is one blob operation or one statement, and every statement can fail.
-/

namespace Stroem.StateStorage

/-! ## Keys -/

def replaceDotDot : List Char → List Char
  | '.' :: '.' :: rest => '_' :: '_' :: replaceDotDot rest
  | c :: rest => c :: replaceDotDot rest
  | [] => []

def safeSegment (s : String) : String := String.ofList (replaceDotDot s.toList)

structure Config where
  keyPrefix : String
  maxSnapshots : Nat
  globalMaxSnapshots : Option Nat
  deriving DecidableEq

def storageKey (cfg : Config) (workspace taskName : String) (jobId : Uuid) : String :=
  cfg.keyPrefix ++ safeSegment workspace ++ "/" ++ safeSegment taskName ++ "/" ++ toString jobId ++
    ".tar.gz"

def globalStorageKey (cfg : Config) (workspace : String) (jobId : Uuid) : String :=
  cfg.keyPrefix ++ "__global__/" ++ safeSegment workspace ++ "/" ++ toString jobId ++ ".tar.gz"

/-! ## Rows -/

inductive Scope
  | task
  | global
  deriving DecidableEq

structure StateCoords where
  workspace : String
  taskName : String
  gitRef : Option String
  deriving DecidableEq

structure SnapshotRow where
  scope : Scope
  id : Uuid
  workspace : String
  taskName : String
  jobId : Uuid
  storageKey : String
  sizeBytes : Nat
  createdAt : Nat
  gitRef : Option String
  uploaded : List UInt8
  deriving DecidableEq

def inPartition (scope : Scope) (coords : StateCoords) (row : SnapshotRow) : Bool :=
  row.scope = scope && row.workspace = coords.workspace && row.gitRef = coords.gitRef &&
    match scope with
    | .task => row.taskName = coords.taskName
    | .global => true

def newerFirst (r r' : SnapshotRow) : Prop :=
  r'.createdAt < r.createdAt ∨ r'.createdAt = r.createdAt ∧ r'.id ≤ r.id

instance (r r' : SnapshotRow) : Decidable (newerFirst r r') :=
  inferInstanceAs (Decidable (_ ∨ _))

def partitionRows (scope : Scope) (coords : StateCoords) (rows : List SnapshotRow) :
    List SnapshotRow :=
  (rows.filter (inPartition scope coords)).insertionSort newerFirst

def getLatestForRef (scope : Scope) (coords : StateCoords) (rows : List SnapshotRow) :
    Option SnapshotRow :=
  (partitionRows scope coords rows).head?

def pruneTargets (scope : Scope) (coords : StateCoords) (keep : Nat) (rows : List SnapshotRow) :
    List Uuid :=
  ((partitionRows scope coords rows).drop keep).map (·.id)

/-! ## Uploads -/

structure Upload where
  scope : Scope
  jobId : Uuid
  coords : StateCoords
  key : String
  body : List UInt8
  deriving DecidableEq

def uploadKey (cfg : Config) (scope : Scope) (coords : StateCoords) (jobId : Uuid) : String :=
  match scope with
  | .task => storageKey cfg coords.workspace coords.taskName jobId
  | .global => globalStorageKey cfg coords.workspace jobId

def Config.keep (cfg : Config) : Scope → Nat
  | .task => cfg.maxSnapshots
  | .global => cfg.globalMaxSnapshots.getD cfg.maxSnapshots

def Upload.row (up : Upload) (id : Uuid) (createdAt : Nat) : SnapshotRow where
  scope := up.scope
  id := id
  workspace := up.coords.workspace
  taskName := up.coords.taskName
  jobId := up.jobId
  storageKey := up.key
  sizeBytes := up.body.length
  createdAt := createdAt
  gitRef := up.coords.gitRef
  uploaded := up.body

/-- Where a request of `upload_state` or `upload_global_state` is. -/
inductive Call
  | idle
  | stored (up : Upload)
  | begun (up : Upload) (createdAt : Nat)
  | inserted (up : Upload) (row : SnapshotRow)
  | pruning (up : Upload) (row : SnapshotRow) (targets : List Uuid)
  | pruned (up : Upload) (row : SnapshotRow) (deleted : List SnapshotRow)
  | failed (up : Upload)
  deriving DecidableEq

def Call.upload : Call → Option Upload
  | .idle => none
  | .stored up | .begun up _ | .inserted up _ | .pruning up _ _ | .pruned up _ _ | .failed up =>
    some up

structure State where
  blobs : String → Option (List UInt8) := fun _ => none
  rows : List SnapshotRow := []
  ids : List Uuid := []
  locks : Uuid → Option Nat := fun _ => none
  calls : Nat → Call := fun _ => .idle
  deletions : List String := []

inductive Event
  | store (call : Nat) (scope : Scope) (jobId : Uuid) (body : List UInt8)
  | begin (call : Nat) (createdAt : Nat) (ok : Bool)
  | insert (call : Nat) (id : Uuid) (ok : Bool)
  | pruneStart (call : Nat)
  | pruneDone (call : Nat) (ok : Bool)
  | commit (call : Nat) (ok : Bool)
  | cleanup (call : Nat)
  | deletePruned (key : String)
  deriving DecidableEq

namespace State

def setCall (s : State) (call : Nat) (c : Call) : State :=
  { s with calls := Function.update s.calls call c }

theorem setCall_cases {s : State} {call : Nat} {c : Call} {P : Nat → Call → Prop}
    (hcall : P call c) (hother : ∀ other, other ≠ call → P other (s.calls other)) (other : Nat) :
    P other ((s.setCall call c).calls other) := by
  unfold setCall
  by_cases heq : other = call
  · subst heq
    simpa using hcall
  · simpa [Function.update_of_ne heq] using hother other heq

def setBlob (s : State) (key : String) (blob : Option (List UInt8)) : State :=
  { s with blobs := Function.update s.blobs key blob }

def unlocked (s : State) (targets : List Uuid) : Prop :=
  ∀ id ∈ targets, s.locks id = none

instance (s : State) (targets : List Uuid) : Decidable (s.unlocked targets) :=
  inferInstanceAs (Decidable (∀ _ ∈ _, _))

def lock (s : State) (call : Nat) (deleted : List SnapshotRow) : State :=
  { s with locks := fun id => if id ∈ deleted.map (·.id) then some call else s.locks id }

def release (s : State) (call : Nat) : State :=
  { s with locks := fun id => if s.locks id = some call then none else s.locks id }

def addRow (s : State) (row : SnapshotRow) : State :=
  { s with rows := s.rows ++ [row] }

def removeRows (s : State) (deleted : List SnapshotRow) : State :=
  { s with
    rows := s.rows.filter fun r => r.id ∉ deleted.map (·.id)
    deletions := s.deletions ++ deleted.map (·.storageKey) }

end State

def step (cfg : Config) (jobs : Uuid → Option StateCoords) (s : State) : Event → Option State
  | .store call scope jobId body =>
    match s.calls call, jobs jobId with
    | .idle, some coords =>
      let key := uploadKey cfg scope coords jobId
      some ((s.setBlob key (some body)).setCall call (.stored ⟨scope, jobId, coords, key, body⟩))
    | _, _ => none
  | .begin call createdAt ok =>
    match s.calls call with
    | .stored up => some (s.setCall call (if ok then .begun up createdAt else .failed up))
    | _ => none
  | .insert call id ok =>
    match s.calls call with
    | .begun up createdAt =>
      if ok then
        if id ∈ s.ids then none
        else
          let s := { s with ids := id :: s.ids }
          some (s.setCall call (.inserted up (up.row id createdAt)))
      else some (s.setCall call (.failed up))
    | _ => none
  | .pruneStart call =>
    match s.calls call with
    | .inserted up row =>
      let targets := pruneTargets up.scope up.coords (cfg.keep up.scope) (s.rows ++ [row])
      some (s.setCall call (.pruning up row targets))
    | _ => none
  | .pruneDone call ok =>
    match s.calls call with
    | .pruning up row targets =>
      if ok then
        if s.unlocked targets then
          let deleted := (s.rows ++ [row]).filter fun r => r.id ∈ targets
          some ((s.lock call deleted).setCall call (.pruned up row deleted))
        else none
      else some (s.setCall call (.failed up))
    | _ => none
  | .commit call ok =>
    match s.calls call with
    | .pruned up row deleted =>
      if ok then some ((((s.addRow row).setCall call .idle).removeRows deleted).release call)
      else some ((s.release call).setCall call (.failed up))
    | _ => none
  | .cleanup call =>
    match s.calls call with
    | .failed up => some ((s.setBlob up.key none).setCall call .idle)
    | _ => none
  | .deletePruned key =>
    if key ∈ s.deletions then
      let s := { s with deletions := s.deletions.erase key }
      some (s.setBlob key none)
    else none

def downloadLatest (s : State) (scope : Scope) (coords : StateCoords) : Option (List UInt8) :=
  (getLatestForRef scope coords s.rows).bind fun row => s.blobs row.storageKey

end Stroem.StateStorage
