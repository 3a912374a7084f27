import Stroem.Pins.Slots
import Stroem.Foundation.Runs
import Mathlib.Data.Option.Basic
import Mathlib.Logic.Function.Basic

/-!
# The pin store

The checkouts and configs of pinned commits, their single-flight cells, the calls that wait for
them and the evictions that drop them.  Every critical section and every step outside one is an
event of its own.  A caller may be dropped at any moment; the blocking work it started goes on.
`strong_count` is the number of owners of an `Arc`.
-/

namespace Stroem.Pins

open Foundation

inductive TreeCall where
  | waiting
  | initialising
  | awaiting (job : Nat)
  deriving DecidableEq

inductive Stage where
  | waiting
  | onTree (cell : Nat) (call : TreeCall)
  | hasTree (cell : Nat)
  | loading (cell : Nat) (load : Nat)
  | hasConfig (cell : Nat)
  deriving DecidableEq

/-- A call of `ensure_tree` or `ensure`, or the handle it returned. -/
structure Caller where
  key : Key
  config : Option Nat := none
  stage : Stage
  deriving DecidableEq

inductive JobState where
  | running
  | building
  | done (ok : Bool)
  deriving DecidableEq

structure Job where
  key : Key
  state : JobState := .running
  deriving DecidableEq

structure Load where
  key : Key
  cell : Nat
  running : Bool := true
  deriving DecidableEq

inductive Evictor where
  | starting (keep : List Key)
  | dropping (keep : List Key) (cells : List Nat)
  | dropped (keep : List Key)
  | deleting (trash : List Nat)
  deriving DecidableEq

structure Store where
  now : Nat := 0
  nextCell : Nat := 0
  nextDir : Nat := 0
  trees : SlotMap := []
  configs : SlotMap := []
  treeValue : Nat → Option Key := fun _ => none
  configValue : Nat → Option (Key × Nat) := fun _ => none
  callers : List Caller := []
  jobs : List Job := []
  loads : List Load := []
  evictors : List Evictor := []
  published : Key → Option Nat := fun _ => none
  objects : List Key := []

inductive Event where
  | passes (d : Nat)
  | fetches (key : Key)
  | ensureTree (key : Key)
  | ensure (key : Key)
  | startConfig (i : Nat)
  | takeConfig (i : Nat)
  | takeTree (i : Nat)
  | startTree (i : Nat)
  | spawnJob (i : Nat)
  | completesTree (i : Nat)
  | spawnLoad (i : Nat)
  | completesConfig (i : Nat)
  | leaves (i : Nat)
  | clones (i : Nat)
  | jobFinds (j : Nat)
  | jobBuilds (j : Nat)
  | jobPublishes (j : Nat)
  | jobFails (j : Nat)
  | loadEnds (l : Nat)
  | evict (keep : List Key)
  | evictConfigs (e : Nat) (order : SlotMap)
  | dropConfigs (e : Nat)
  | evictTrees (e : Nat) (order : SlotMap) (stuck : List Key)
  | deletes (e : Nat)

/-! ## Owners -/

namespace Caller

def treeCell (x : Caller) : Option Nat :=
  match x.stage with
  | .onTree cell _ => some cell
  | _ => none

def tree (x : Caller) : Option Nat :=
  match x.stage with
  | .hasTree cell | .loading cell _ => some cell
  | _ => none

def pinned (x : Caller) : Option Nat :=
  match x.stage with
  | .hasConfig cell => some cell
  | _ => none

def initialises (x : Caller) (cell : Nat) : Bool :=
  match x.stage with
  | .onTree cell' .initialising | .onTree cell' (.awaiting _) => cell' == cell
  | _ => false

end Caller

namespace Evictor

def slots : Evictor → List Nat
  | .dropping _ cells => cells
  | _ => []

def trash : Evictor → List Nat
  | .deleting trash => trash
  | _ => []

end Evictor

namespace Store

def ownedConfigs (s : Store) : List Nat :=
  (s.configs.map (·.2.cell) ++ s.callers.filterMap (·.config) ++
    s.callers.filterMap Caller.pinned ++ s.evictors.flatMap Evictor.slots).dedup

/-- `Arc::strong_count` of a tree cell. -/
def treeCellCount (s : Store) (cell : Nat) : Nat :=
  s.trees.countP (·.2.cell == cell) + s.callers.countP (·.treeCell == some cell)

def treeCount (s : Store) (cell : Nat) : Nat :=
  1 + s.callers.countP (·.tree == some cell) +
    s.loads.countP (fun l => l.running && l.cell == cell) +
    s.ownedConfigs.countP fun c => (s.configValue c).any fun p => p.2 == cell

def configCellCount (s : Store) (cell : Nat) : Nat :=
  s.configs.countP (·.2.cell == cell) + s.callers.countP (·.config == some cell)

def pinnedCount (s : Store) (cell : Nat) : Nat :=
  1 + s.callers.countP (·.pinned == some cell)

def treeLoaded (s : Store) (cell : Nat) : Bool := (s.treeValue cell).isSome

def configLoaded (s : Store) (cell : Nat) : Bool := (s.configValue cell).isSome

def treeInUse (s : Store) (cell : Nat) : Bool :=
  decide (1 < s.treeCellCount cell) || s.treeLoaded cell && decide (1 < s.treeCount cell)

def configInUse (s : Store) (cell : Nat) : Bool :=
  decide (1 < s.configCellCount cell) || s.configLoaded cell && decide (1 < s.pinnedCount cell)

/-! ## Steps -/

def setCaller (s : Store) (i : Nat) (x : Caller) : Store :=
  { s with callers := s.callers.set i x }

def onTree (s : Store) (key : Key) (config : Option Nat) : Store × Caller :=
  ({ s with
      nextCell := s.nextCell + 1
      trees := slotCell s.trees key s.nextCell s.now },
    { key, config, stage := .onTree (cellOf s.trees key s.nextCell) .waiting })

def stepCaller (s : Store) (i : Nat) (x : Caller) : Event → Option Store
  | .startConfig _ => do
      let cell ← x.config
      guard (x.stage = .waiting ∧ s.configLoaded cell = false ∧
        ∀ y ∈ s.callers, y.config = some cell → y.stage = .waiting)
      let (t, x) := s.onTree x.key x.config
      return t.setCaller i x
  | .takeConfig _ => do
      let cell ← x.config
      guard (x.stage = .waiting ∧ s.configLoaded cell = true)
      return s.setCaller i { x with config := none, stage := .hasConfig cell }
  | .takeTree _ =>
    match x.stage with
    | .onTree cell .waiting =>
      if s.treeLoaded cell then some (s.setCaller i { x with stage := .hasTree cell })
      else none
    | _ => none
  | .startTree _ =>
    match x.stage with
    | .onTree cell .waiting =>
      if s.treeLoaded cell = false ∧ ∀ y ∈ s.callers, y.initialises cell = false then
        some (s.setCaller i { x with stage := .onTree cell .initialising })
      else none
    | _ => none
  | .spawnJob _ =>
    match x.stage with
    | .onTree cell .initialising =>
      let t := { s with jobs := s.jobs ++ [({ key := x.key } : Job)] }
      some (t.setCaller i { x with stage := .onTree cell (.awaiting s.jobs.length) })
    | _ => none
  | .completesTree _ =>
    match x.stage with
    | .onTree cell (.awaiting j) =>
      match s.jobs[j]? with
      | some { state := .done true, .. } =>
        let t := { s with treeValue := Function.update s.treeValue cell (some x.key) }
        some (t.setCaller i { x with stage := .hasTree cell })
      | _ => none
    | _ => none
  | .spawnLoad _ =>
    match x.config, x.stage with
    | some _, .hasTree cell =>
      let t := { s with loads := s.loads ++ [({ key := x.key, cell } : Load)] }
      some (t.setCaller i { x with stage := .loading cell s.loads.length })
    | _, _ => none
  | .completesConfig _ =>
    match x.config, x.stage with
    | some config, .loading cell l =>
      match s.loads[l]? with
      | some { running := false, .. } =>
        let t := { s with
          configValue := Function.update s.configValue config (some (x.key, cell)) }
        some (t.setCaller i { x with config := none, stage := .hasConfig config })
      | _ => none
    | _, _ => none
  | .leaves _ => some { s with callers := s.callers.eraseIdx i }
  | .clones _ =>
    match x.config, x.stage with
    | none, .hasTree _ | none, .hasConfig _ => some { s with callers := s.callers ++ [x] }
    | _, _ => none
  | _ => none

/-- `checkout_commit` reads objects of the bare repository; it renames its own dir to the
published one, which fails when a dir with files is there and replaces an empty one. -/
def stepJob (emptyTree : Key → Bool) (s : Store) (j : Nat) (job : Job) : Event → Option Store
  | .jobFinds _ =>
    if job.state = .running ∧ job.key ∈ s.objects ∧ (s.published job.key).isSome then
      some { s with jobs := s.jobs.set j { job with state := .done true } }
    else none
  | .jobBuilds _ =>
    if job.state = .running ∧ job.key ∈ s.objects ∧ s.published job.key = none then
      some { s with jobs := s.jobs.set j { job with state := .building } }
    else none
  | .jobPublishes _ =>
    if job.state = .building then
      if s.published job.key = none ∨ emptyTree job.key = true then
        some { s with
          jobs := s.jobs.set j { job with state := .done true }
          nextDir := s.nextDir + 1
          published := Function.update s.published job.key (some s.nextDir) }
      else
        some { s with jobs := s.jobs.set j { job with state := .done true } }
    else none
  | .jobFails _ =>
    match job.state with
    | .running => some { s with jobs := s.jobs.set j { job with state := .done false } }
    | .building => some { s with
        jobs := s.jobs.set j { job with state := .done (s.published job.key).isSome } }
    | .done _ => none
  | _ => none

def stepEvictor (keepRecent : Nat) (s : Store) (e : Nat) : Evictor → Event → Option Store
  | .starting keep, .evictConfigs _ order =>
    if order.Perm s.configs then
      let keys := evictable s.configLoaded s.configInUse order keep keepRecent
      some { s with
        configs := s.configs.filter fun entry => !keys.contains entry.1
        evictors := s.evictors.set e (.dropping keep
          ((s.configs.filter fun entry => keys.contains entry.1).map (·.2.cell))) }
    else none
  | .dropping keep _, .dropConfigs _ =>
    some { s with evictors := s.evictors.set e (.dropped keep) }
  | .dropped keep, .evictTrees _ order stuck =>
    if order.Perm s.trees then
      let keys := evictable s.treeLoaded s.treeInUse order keep keepRecent
      let moved := keys.filter fun key => !stuck.contains key
      some { s with
        trees := s.trees.filter fun entry => !keys.contains entry.1
        published := fun key => if moved.contains key then none else s.published key
        evictors := s.evictors.set e (.deleting (moved.filterMap s.published)) }
    else none
  | .deleting (_ :: trash), .deletes _ =>
    some { s with evictors := s.evictors.set e (.deleting trash) }
  | _, _ => none

/-- A store with this `keep_recent_per_workspace`; `emptyTree` says which commits have no
files. -/
def step (keepRecent : Nat) (emptyTree : Key → Bool) (s : Store) (event : Event) :
    Option Store :=
  match event with
  | .passes d => some { s with now := s.now + d }
  | .fetches key => some { s with objects := key :: s.objects }
  | .ensureTree key =>
    let (t, x) := s.onTree key none
    some { t with callers := t.callers ++ [x] }
  | .ensure key =>
    some { s with
      nextCell := s.nextCell + 1
      configs := slotCell s.configs key s.nextCell s.now
      callers := s.callers ++
        [{ key, config := some (cellOf s.configs key s.nextCell), stage := .waiting }] }
  | .startConfig i | .takeConfig i | .takeTree i | .startTree i | .spawnJob i
  | .completesTree i | .spawnLoad i | .completesConfig i | .leaves i | .clones i =>
    s.callers[i]?.bind fun x => s.stepCaller i x event
  | .jobFinds j | .jobBuilds j | .jobPublishes j | .jobFails j =>
    s.jobs[j]?.bind fun job => s.stepJob emptyTree j job event
  | .loadEnds l =>
    s.loads[l]?.bind fun load =>
      if load.running then some { s with loads := s.loads.set l { load with running := false } }
      else none
  | .evict keep => some { s with evictors := s.evictors ++ [.starting keep] }
  | .evictConfigs e _ | .dropConfigs e | .evictTrees e _ _ | .deletes e =>
    s.evictors[e]?.bind fun evictor => s.stepEvictor keepRecent e evictor event

end Store

end Stroem.Pins
