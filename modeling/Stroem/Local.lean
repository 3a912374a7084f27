import Stroem.Cascade.Run
import Stroem.Dag

/-!
# The local runner

`stroem run` executes a flow in one process: it decides every step the gate can decide, in the
order of their names, and looks again until there is none.

What a script does is outside: `LocalEnv.executeStep` is the result of running a step, or one
iteration of it, in a context.  The run is not cancelled.
-/

namespace Stroem.Local

open Foundation Cascade

structure RunResult where
  exitCode : Int
  stderr : String := ""
  output : Option Json := none
  deriving DecidableEq

def RunResult.success (result : RunResult) : Bool :=
  result.exitCode == 0

structure LocalEnv where
  templates : TemplateEnv
  input : Json := .null
  secrets : Fields := []
  executeStep : String → Option Nat → Json → Except String RunResult

/-! ## Maps -/

def insertEntry {ν : Type*} (table : List (String × ν)) (key : String) (value : ν) :
    List (String × ν) :=
  (key, value) :: table.filter fun e => e.1 != key

structure LocalState where
  outcomes : List (String × DepOutcome) := []
  outputs : List (String × Option Json) := []
  errors : List (String × String) := []
  failedCount : Nat := 0
  deriving DecidableEq

namespace LocalState

def outcome (s : LocalState) (name : String) : DepOutcome :=
  (s.outcomes.lookup name).getD .pending

def recordFailure (s : LocalState) (step msg : String) : LocalState :=
  { s with
    outcomes := insertEntry s.outcomes step .failed
    outputs := insertEntry s.outputs step none
    errors := insertEntry s.errors step msg
    failedCount := s.failedCount + 1 }

def recordSkip (s : LocalState) (step : String) (outcome : DepOutcome) : LocalState :=
  { s with
    outcomes := insertEntry s.outcomes step outcome
    outputs := insertEntry s.outputs step none }

def recordCompleted (s : LocalState) (step : String) (output : Option Json) : LocalState :=
  { s with
    outcomes := insertEntry s.outcomes step .completed
    outputs := insertEntry s.outputs step output }

def recordFailedLoop (s : LocalState) (step : String) (iterOutputs : List Json) (msg : String) :
    LocalState :=
  { s with
    outcomes := insertEntry s.outcomes step .failed
    outputs := insertEntry s.outputs step (some (.arr iterOutputs))
    errors := insertEntry s.errors step msg }

end LocalState

/-! ## Contexts and loop expressions -/

def buildRenderContext (env : LocalEnv) (s : LocalState) : Json :=
  let base : Fields := Fields.collect
    [("input", env.input), ("state", .null), ("global_state", .null),
      ("job", .obj (Fields.collect [("revision", .null), ("ref", .null)]))]
  let steps := s.outputs.foldl
    (fun ctx e =>
      let entry : Fields := Fields.insert "output" (e.2.getD .null) []
      let entry := match s.errors.lookup e.1 with
        | some err => Fields.insert "error" (.str err) entry
        | none => entry
      Fields.insert (sanitizedName e.1) (.obj entry) ctx)
    base
  .obj (Fields.insert "secret" (.obj env.secrets) steps)

def withEach (ctx item : Json) (index : Nat) : Json :=
  match ctx with
  | .obj fields =>
    .obj (Fields.insert "each"
      (.obj (Fields.collect [("item", item), ("index", .num (.int index))])) fields)
  | other => other

def forEachItems (env : TemplateEnv) (expr ctx : Json) : Except String (List Json) :=
  match expr with
  | .arr items => .ok items
  | .str template => renderForEachTemplate env template ctx
  | _ => .error "for_each must be a string template or a JSON array"

def evaluateForEach (env : TemplateEnv) (expr ctx : Json) : Except String (List Json) :=
  match forEachItems env expr ctx with
  | .error e => .error e
  | .ok items =>
    if maxForEachItems < items.length then
      .error ("for_each produced " ++ toString items.length ++ " items (max " ++
        toString maxForEachItems ++ ")")
    else .ok items

/-! ## One step -/

structure Iterations where
  outputs : List Json := []
  anyFailed : Bool := false
  failed : Nat := 0
  deriving DecidableEq

def runIterations (env : LocalEnv) (step : String) (tolerant : Bool) (ctx : Json) :
    Nat → List Json → Iterations → Iterations
  | _, [], acc => acc
  | idx, item :: items, acc =>
    let failure : Iterations := { acc with anyFailed := true, failed := acc.failed + 1 }
    let onFailure : Iterations :=
      if tolerant then
        runIterations env step tolerant ctx (idx + 1) items
          { failure with outputs := acc.outputs ++ [.null] }
      else failure
    match env.executeStep step (some idx) (withEach ctx item idx) with
    | .ok result =>
      if result.success then
        runIterations env step tolerant ctx (idx + 1) items
          { acc with outputs := acc.outputs ++ [result.output.getD .null] }
      else onFailure
    | .error _ => onFailure

def padOutputs (outputs : List Json) (n : Nat) : List Json :=
  outputs ++ List.replicate (n - outputs.length) .null

def runLoopStep (env : LocalEnv) (s : LocalState) (step : String) (fs : FlowStep) (ctx : Json)
    (items : List Json) : LocalState :=
  let result := runIterations env step fs.continueOnFailure ctx 0 items {}
  let s := { s with failedCount := s.failedCount + result.failed }
  let outputs := padOutputs result.outputs items.length
  if result.anyFailed then s.recordFailedLoop step outputs "for_each loop failed"
  else s.recordCompleted step (some (.arr outputs))

def runPlainStep (env : LocalEnv) (s : LocalState) (step : String) (ctx : Json) : LocalState :=
  match env.executeStep step none ctx with
  | .ok result =>
    if result.success then s.recordCompleted step result.output
    else
      s.recordFailure step ("Exit code: " ++ toString result.exitCode ++
        if result.stderr.isEmpty then "" else "\nStderr: " ++ result.stderr)
  | .error e => s.recordFailure step e

def runBody (env : LocalEnv) (s : LocalState) (step : String) (fs : FlowStep) (ctx : Json) :
    LocalState :=
  match fs.forEach with
  | none => runPlainStep env s step ctx
  | some expr =>
    match evaluateForEach env.templates expr ctx with
    | .error e => s.recordFailure step ("for_each expression error: " ++ e)
    | .ok items =>
      if items.isEmpty then s.recordSkip step .skipped
      else runLoopStep env s step fs ctx items

def runStep (env : LocalEnv) (s : LocalState) (step : String) (fs : FlowStep) : LocalState :=
  let ctx := buildRenderContext env s
  match fs.when with
  | none => runBody env s step fs ctx
  | some condition =>
    match evaluateCondition env.templates condition ctx with
    | .ok true => runBody env s step fs ctx
    | .ok false => s.recordSkip step .skipped
    | .error e => s.recordFailure step ("when condition error: " ++ e)

/-! ## The run -/

def decidable (flow : Flow) (s : LocalState) : List (String × Gate) :=
  ((flow.entries.filter fun e => (s.outcomes.lookup e.1).isNone).filterMap fun e =>
    let g := gate s.outcome e.2.dependsOn
    if g != .wait then some (e.1, g) else none).insertionSort fun a b => a.1 ≤ b.1

def decideStep (env : LocalEnv) (flow : Flow) (s : LocalState) (decided : String × Gate) :
    LocalState :=
  if decided.2 == .omitted then s.recordSkip decided.1 .omitted
  else
    match flow.get decided.1 with
    | some fs => runStep env s decided.1 fs
    | none => s

def runRounds (env : LocalEnv) (flow : Flow) : Nat → LocalState → Option LocalState
  | 0, _ => none
  | fuel + 1, s =>
    let round := decidable flow s
    if round.isEmpty then some s
    else runRounds env flow fuel (round.foldl (decideStep env flow) s)

inductive RunOutcome where
  | completed
  | failed
  deriving DecidableEq

structure RunSummary where
  completed : Nat
  skipped : Nat
  failed : Nat
  outcome : RunOutcome
  deriving DecidableEq

def uncaught (flow : Flow) (s : LocalState) : Bool :=
  s.outcomes.any fun e => e.2 == .failed && !(flow.get e.1).any FlowStep.continueOnFailure

def summarize (flow : Flow) (s : LocalState) : RunSummary :=
  let skipped := (s.outcomes.filter fun e => e.2 == .skipped || e.2 == .omitted).length
  { completed := s.outcomes.length - skipped - s.failedCount
    skipped := skipped
    failed := s.failedCount
    outcome := if uncaught flow s then .failed else .completed }

def runDag (env : LocalEnv) (fuel : Nat) (flow : Flow) : Option (LocalState × RunSummary) :=
  (runRounds env flow fuel {}).map fun s => (s, summarize flow s)

end Stroem.Local
