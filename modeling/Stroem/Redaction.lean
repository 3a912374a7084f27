import Stroem.Foundation.Recursive
import Stroem.Foundation.Table
import Stroem.Hooks
import Stroem.JobStep
import Mathlib.Data.List.Sort
import Mathlib.Data.List.Dedup

/-!
# The redaction closure

A response about a job may hold values of other jobs: those it was made from, and those in the
trees of these.  `redaction_closure_pins` is one query that walks up from the job (`up`), walks
down from every root it has met (`tree`), and puts out the pins of all the jobs on the way.  Any
refusal by a bound makes the answer `Truncated`.

The counters of the rows are natural numbers here.  Each is at most one beyond its bound, which in
`CLOSURE_BOUNDS` is far from the end of the column's range.
-/

namespace Stroem.Redaction

open Foundation Hooks

/-! ## Job rows -/

structure ClosureJob where
  jobId : Uuid
  parentJobId : Option Uuid := none
  sourceType : SourceType := .api
  sourceId : Option String := none
  sourceJobId : Option Uuid := none
  retryOfJobId : Option Uuid := none
  workspace : String := ""
  gitRef : Option String := none
  revision : Option String := none
  steps : List JobStepRow := []
  deriving DecidableEq

structure JobTable where
  rows : List ClosureJob
  keyed : Keyed ClosureJob.jobId rows
  parents : ∀ j ∈ rows, ∀ p, j.parentJobId = some p → ∃ k ∈ rows, k.jobId = p

namespace JobTable

def get (table : JobTable) (id : Uuid) : Option ClosureJob :=
  table.rows.find? fun j => j.jobId == id

def children (table : JobTable) (id : Uuid) : List ClosureJob :=
  table.rows.filter fun j => j.parentJobId == some id

end JobTable

/-! ## The job a hook was fired by -/

def hexDigit (c : Char) : Option Nat :=
  if '0' ≤ c ∧ c ≤ '9' then some (c.toNat - '0'.toNat)
  else if 'a' ≤ c ∧ c ≤ 'f' then some (c.toNat - 'a'.toNat + 10)
  else if 'A' ≤ c ∧ c ≤ 'F' then some (c.toNat - 'A'.toNat + 10)
  else none

def hexDigits : Nat → Nat → List Char → Option (Nat × List Char)
  | 0, value, text => some (value, text)
  | _ + 1, _, [] => none
  | n + 1, value, c :: text => do
      let digit ← hexDigit c
      hexDigits n (16 * value + digit) text

def hexGroups : List Nat → Nat → List Char → Option Nat
  | [], _, _ => none
  | n :: groups, value, text =>
    match groups, hexDigits n value text with
    | [], some (value, []) => some value
    | _ :: _, some (value, '-' :: text) => hexGroups groups value text
    | _, _ => none

def uuidPrefix (sourceId : String) : Option Uuid :=
  hexGroups [8, 4, 4, 4, 12] 0 (sourceId.toList.takeWhile (· != '/'))

def sourceOf (j : ClosureJob) : Option Uuid :=
  match j.sourceType with
  | .hook => j.sourceJobId <|> j.sourceId.bind uuidPrefix
  | .restart | .rerun => j.sourceJobId
  | _ => none

/-! ## The walks -/

structure ClosureBounds where
  taskDepth : Int
  hookHops : Int
  sourceHops : Int
  retryHops : Int
  maxJobs : Int
  deriving DecidableEq

def closureBounds : ClosureBounds where
  taskDepth := maxTaskDepth
  hookHops := maxHookChainDepth
  sourceHops := 32
  retryHops := 33
  maxJobs := 20000

structure UpRow where
  jobId : Uuid
  depth : Nat := 0
  hookHops : Nat := 0
  sourceHops : Nat := 0
  retryHops : Nat := 0
  refused : Bool := false
  deriving DecidableEq

def upEdges (b : ClosureBounds) (u : UpRow) (j : ClosureJob) : List (Option UpRow) :=
  let isHook : Bool := j.sourceType == .hook
  let isSource : Bool := j.sourceType == .restart || j.sourceType == .rerun
  [ j.parentJobId.map fun id =>
      ⟨id, u.depth + 1, u.hookHops, u.sourceHops, u.retryHops,
        !decide ((u.depth : Int) < b.taskDepth)⟩,
    (sourceOf j).map fun id =>
      ⟨id, 0, u.hookHops + isHook.toNat, u.sourceHops + isSource.toNat, u.retryHops,
        !(if isHook then decide ((u.hookHops : Int) < b.hookHops)
          else decide ((u.sourceHops : Int) < b.sourceHops))⟩,
    j.retryOfJobId.map fun id =>
      ⟨id, 0, u.hookHops, u.sourceHops, u.retryHops + 1,
        !decide ((u.retryHops : Int) < b.retryHops)⟩ ]

def upNext (table : JobTable) (b : ClosureBounds) (u : UpRow) : List UpRow :=
  if u.refused then []
  else
    match table.get u.jobId with
    | none => []
    | some j => (upEdges b u j).reduceOption

structure TreeRow where
  jobId : Uuid
  depth : Nat := 0
  refused : Bool := false
  deriving DecidableEq

def treeNext (table : JobTable) (b : ClosureBounds) (t : TreeRow) : List TreeRow :=
  if t.refused then []
  else (table.children t.jobId).map fun child =>
    ⟨child.jobId, t.depth + 1, decide (b.taskDepth ≤ t.depth)⟩

def upStart (id : Uuid) : List UpRow := [{ jobId := id }]

def treeStart (table : JobTable) (upCapped : List UpRow) : List TreeRow :=
  let roots := (upCapped.filter (!·.refused)).filterMap fun u =>
    (table.get u.jobId).filter fun j => j.parentJobId.isNone
  (roots.map ClosureJob.jobId).dedup.map fun id => { jobId := id }

/-! ## Pins -/

structure ClosurePinRow where
  workspace : String
  gitRef : String
  revision : String
  deriving DecidableEq

def jobPin (j : ClosureJob) : Option ClosurePinRow := do
  return ⟨j.workspace, ← j.gitRef, ← j.revision⟩

def actionPin (j : ClosureJob) (s : JobStepRow) : Option ClosurePinRow := do
  return ⟨s.actionWorkspace.getD j.workspace, ← s.actionRef, ← s.actionRevision⟩

def taskPin (s : JobStepRow) : Option ClosurePinRow := do
  return ⟨← s.taskWorkspace, ← s.taskRef, ← s.taskRevision⟩

def pinsOf (j : ClosureJob) : List ClosurePinRow :=
  (jobPin j).toList ++ j.steps.filterMap (actionPin j) ++ j.steps.filterMap taskPin

/-! ## The query -/

def pinLe (collate : String → String → Ordering) (p q : ClosurePinRow) : Bool :=
  (((collate p.workspace q.workspace).then (collate p.revision q.revision)).then
    (collate p.gitRef q.gitRef)).isLE

inductive RedactionClosure where
  | pins (rows : List ClosurePinRow)
  | truncated
  deriving DecidableEq

def upCapped (table : JobTable) (b : ClosureBounds) (id : Uuid) : List UpRow :=
  firstRows (upNext table b) (b.maxJobs + 1).toNat (upStart id)

def treeCapped (table : JobTable) (b : ClosureBounds) (id : Uuid) : List TreeRow :=
  firstRows (treeNext table b) (b.maxJobs + 1).toNat (treeStart table (upCapped table b id))

def closureIds (table : JobTable) (b : ClosureBounds) (id : Uuid) : List Uuid :=
  (((upCapped table b id).filter (!·.refused)).map UpRow.jobId ++
    ((treeCapped table b id).filter (!·.refused)).map TreeRow.jobId).dedup

def isTruncated (table : JobTable) (b : ClosureBounds) (id : Uuid) : Bool :=
  (upCapped table b id).any UpRow.refused || (treeCapped table b id).any TreeRow.refused ||
    decide (b.maxJobs < (upCapped table b id).length) ||
    decide (b.maxJobs < (treeCapped table b id).length)

def closurePinRows (collate : String → String → Ordering) (table : JobTable) (b : ClosureBounds)
    (id : Uuid) : List ClosurePinRow :=
  ((((table.rows.filter fun j => (closureIds table b id).contains j.jobId).flatMap
    pinsOf).dedup).insertionSort fun p q => pinLe collate p q = true)

def queryRows (collate : String → String → Ordering) (table : JobTable) (b : ClosureBounds)
    (id : Uuid) : List (Bool × Option ClosurePinRow) :=
  if isTruncated table b id then [(true, none)]
  else
    match closurePinRows collate table b id with
    | [] => [(false, none)]
    | pins => pins.map fun p => (false, some p)

def legalLimit (b : ClosureBounds) : Bool :=
  decide (0 ≤ b.maxJobs + 1) && decide (b.maxJobs + 1 < 2 ^ 63)

def redactionClosurePins (collate : String → String → Ordering) (table : JobTable)
    (b : ClosureBounds) (id : Uuid) : Except String RedactionClosure :=
  if legalLimit b then
    let rows := queryRows collate table b id
    if rows.head?.all Prod.fst then .ok .truncated
    else .ok (.pins (rows.filterMap Prod.snd))
  else .error "Failed to read the job's redaction closure pins"

/-! ## The pins of a response -/

def samePin (p q : ClosurePinRow) : Bool :=
  p.workspace == q.workspace && p.revision == q.revision

def pushPin (pins : List ClosurePinRow) (p : ClosurePinRow) : List ClosurePinRow :=
  if pins.any (samePin p) then pins else pins ++ [p]

def referencedPins (j : ClosureJob) : List ClosurePinRow :=
  ((jobPin j).toList ++ j.steps.flatMap fun s =>
    (actionPin j s).toList ++ (taskPin s).toList).foldl pushPin []

def mergePins (own closure : List ClosurePinRow) : List ClosurePinRow :=
  closure.foldl pushPin own

def anyPinnedRows (table : JobTable) : Bool :=
  table.rows.any fun j => j.gitRef.isSome ||
    j.steps.any fun s => s.actionRef.isSome || s.taskRef.isSome

inductive RedactionUnavailable where
  | closureUnreadable
  | closureTruncated
  deriving DecidableEq

def closurePins (collate : String → String → Ordering) (table : JobTable) (j : ClosureJob) :
    Except RedactionUnavailable (List ClosurePinRow) :=
  let own := referencedPins j
  if anyPinnedRows table then
    match redactionClosurePins collate table closureBounds j.jobId with
    | .ok (.pins rows) => .ok (mergePins own rows)
    | .ok .truncated => .error .closureTruncated
    | .error _ => .error .closureUnreadable
  else .ok own

end Stroem.Redaction
