import Stroem.Cascade.Run
import Stroem.JobStepRepo

/-!
# Applying a plan to the database

`cascade::apply` runs a plan inside one transaction: runs of consecutive promotions become one
statement, runs of consecutive skips one statement per reason, and every statement must affect
exactly the rows it names.
-/

namespace Stroem.Cascade

open Foundation JobStepRepo

/-- The rows of one job: the status of its `job` row and its `job_step` rows. -/
structure JobTables where
  jobStatus : JobStatus
  steps : List JobStepRow
  deriving DecidableEq

structure Applied where
  promoted : Nat := 0
  skipped : Nat := 0
  failed : Nat := 0
  expanded : Nat := 0
  adopted : Nat := 0
  rolledUp : Nat := 0
  deriving DecidableEq

inductive ApplyError where
  | guardMiss (step : String)
  | db (error : DbError)
  deriving DecidableEq

/-- One statement of `apply`: the row count must be the number of rows named. -/
def runExpecting (u : Update JobStepRow) (expected : Nat) (step : String)
    (rows : List JobStepRow) : Except ApplyError (List JobStepRow) :=
  if u.rowsAffected rows = expected then .ok (u.run rows) else .error (.guardMiss step)

/-- The changes one iteration of the loop of `apply` consumes. -/
inductive Group where
  | promotes (names : List String)
  | skips (items : List (String × SkipReason))
  | single (change : Change)

def groupChanges : List Change → List Group
  | [] => []
  | .promote step :: rest =>
    match groupChanges rest with
    | .promotes names :: groups => .promotes (step :: names) :: groups
    | groups => .promotes [step] :: groups
  | .skip step reason :: rest =>
    match groupChanges rest with
    | .skips items :: groups => .skips ((step, reason) :: items) :: groups
    | groups => .skips [(step, reason)] :: groups
  | change :: rest => .single change :: groupChanges rest

def addToBucket (item : String × SkipReason) :
    List (SkipReason × List String) → List (SkipReason × List String)
  | [] => [(item.2, [item.1])]
  | (reason, names) :: buckets =>
    if reason = item.2 then (reason, names ++ [item.1]) :: buckets
    else (reason, names) :: addToBucket item buckets

def skipBuckets (items : List (String × SkipReason)) : List (SkipReason × List String) :=
  items.foldl (fun buckets item => addToBucket item buckets) []

def runBuckets (now : Time) :
    List (SkipReason × List String) → List JobStepRow → Except ApplyError (List JobStepRow)
  | [], rows => .ok rows
  | (reason, names) :: buckets, rows =>
    match runExpecting (skipStepsTx names reason.asStr now) names.length
        (",".intercalate names) rows with
    | .error e => .error e
    | .ok rows => runBuckets now buckets rows

def applySingle (now : Time) (rows : List JobStepRow) :
    Change → Except ApplyError (List JobStepRow)
  | .promote step => runExpecting (promoteStepsTx [step] now) 1 step rows
  | .skip step reason => runExpecting (skipStepsTx [step] reason.asStr now) 1 step rows
  | .fail step error => runExpecting (failPendingStepTx step error now) 1 step rows
  | .expand placeholder instances =>
    match runExpecting (startPlaceholderTx placeholder now) 1 placeholder rows with
    | .error e => .error e
    | .ok rows =>
      match createStepsTx instances now rows with
      | .error e => .error (.db e)
      | .ok rows => .ok rows
  | .adopt placeholder =>
    runExpecting (startPlaceholderTx placeholder now) 1 placeholder rows
  | .rollup placeholder (.completed output) =>
    runExpecting (completePlaceholderTx placeholder output now) 1 placeholder rows
  | .rollup placeholder (.failed error output) =>
    runExpecting (failPlaceholderTx placeholder error output now) 1 placeholder rows

def applyGroup (now : Time) (rows : List JobStepRow) :
    Group → Except ApplyError (List JobStepRow)
  | .promotes names =>
    runExpecting (promoteStepsTx names now) names.length (",".intercalate names) rows
  | .skips items => runBuckets now (skipBuckets items) rows
  | .single change => applySingle now rows change

def applyGroups (now : Time) : List Group → List JobStepRow →
    Except ApplyError (List JobStepRow)
  | [], rows => .ok rows
  | group :: groups, rows =>
    match applyGroup now rows group with
    | .error e => .error e
    | .ok rows => applyGroups now groups rows

def Applied.count (a : Applied) : Change → Applied
  | .promote _ => { a with promoted := a.promoted + 1 }
  | .skip _ _ => { a with skipped := a.skipped + 1 }
  | .fail _ _ => { a with failed := a.failed + 1 }
  | .expand _ _ => { a with expanded := a.expanded + 1 }
  | .adopt _ => { a with adopted := a.adopted + 1 }
  | .rollup _ _ => { a with rolledUp := a.rolledUp + 1 }

def Change.startsJob : Change → Bool
  | .expand _ _ | .adopt _ => true
  | _ => false

def markRunningIfPending (status : JobStatus) : JobStatus :=
  if status = .pending then .running else status

/-- `cascade::apply`; on an error the caller rolls the transaction back. -/
def apply (now : Time) (db : JobTables) (plan : Plan) :
    Except ApplyError (Applied × JobTables) :=
  match applyGroups now (groupChanges plan.changes) db.steps with
  | .error e => .error e
  | .ok steps =>
    let jobStatus :=
      if plan.changes.any Change.startsJob then markRunningIfPending db.jobStatus
      else db.jobStatus
    .ok (plan.changes.foldl Applied.count {}, ⟨jobStatus, steps⟩)

/-! ## Expansions too large for one statement -/

def maxStorable : Nat := maxBinds / colsPerRow

theorem createStepsTx_tooManyBinds_iff {steps : List NewJobStep} {now : Time}
    {rows : List JobStepRow} :
    createStepsTx steps now rows = .error .tooManyBinds ↔ maxStorable < steps.length := by
  have hcount : maxBinds < colsPerRow * steps.length ↔ maxStorable < steps.length := by
    simp only [maxStorable, maxBinds, colsPerRow]
    omega
  unfold createStepsTx
  split
  case isTrue hempty => simp [List.isEmpty_iff.mp hempty]
  case isFalse =>
    rw [← hcount]
    constructor
    · intro h
      split at h
      case isTrue hmany => exact hmany
      case isFalse => split at h <;> cases h
    · intro hmany
      rw [if_pos hmany]

/-- An expansion within the item limit goes into one `INSERT` up to 2184 items, and no further. -/
theorem expansion_storable_iff (env : TemplateEnv) (fs : FlowStep) (ctx : Json) (jobId : Uuid)
    (r : JobStepRow) {items : List Json}
    (hparse : parseForEachItems env (r.forEachExpr.getD "") ctx = .ok items)
    (hlimit : items.length ≤ maxForEachItems) :
    (∀ instances, expandPlaceholder env fs ctx jobId r = .expand r.stepName instances →
      ∀ now rows, createStepsTx instances now rows ≠ .error .tooManyBinds) ↔
      items.length ≤ 2184 := by
  have hlength : (expandInstances fs jobId r items).length = items.length := by
    simp [expandInstances]
  unfold expandPlaceholder
  simp only [hparse]
  constructor
  · intro h
    by_contra hmany
    have hne : items.isEmpty = false := by
      cases items with
      | nil => simp at hmany
      | cons => rfl
    rw [if_neg (by simp [hne]), if_neg (by omega)] at h
    refine h _ rfl 0 [] (createStepsTx_tooManyBinds_iff.mpr ?_)
    simp only [hlength, maxStorable, maxBinds, colsPerRow]
    omega
  · intro hfew instances hexpand now rows hmany
    rw [createStepsTx_tooManyBinds_iff] at hmany
    split at hexpand
    · cases hexpand
    · split at hexpand
      · cases hexpand
      · obtain ⟨-, rfl⟩ := Change.expand.inj hexpand
        simp only [hlength, maxStorable, maxBinds, colsPerRow] at hmany
        omega

theorem applySingle_refused {p : String} {instances : List NewJobStep} {now : Time}
    {rows rows' : List JobStepRow} {e : DbError}
    (hstart : runExpecting (startPlaceholderTx p now) 1 p rows = .ok rows')
    (hinsert : ∀ now rows, createStepsTx instances now rows = .error e) :
    applySingle now rows (.expand p instances) = .error (.db e) := by
  simp only [applySingle, hstart, hinsert]

def nulls : List Json := List.replicate 2185 .null

def nullsText : String :=
  "[" ++ ",".intercalate (List.replicate 2185 "null") ++ "]"

def nullsEnv : TemplateEnv where
  renderTemplate template _ := .ok template
  fromStr _ := .ok (.arr nulls)
  redactSecretsInStr text _ := text

def nullsRow : JobStepRow := { stepName := "p", forEachExpr := some nullsText }

private theorem length_nulls : nulls.length = 2185 :=
  List.length_replicate

theorem expansion_storable_iff_literal :
    parseForEachItems literalEnv "[1,2,3]" .null =
        .ok [.num (.int 1), .num (.int 2), .num (.int 3)] ∧
      ((∀ instances, expandPlaceholder literalEnv { action := "work" } .null 1
            { stepName := "p", forEachExpr := some "[1,2,3]" } = .expand "p" instances →
          ∀ now rows, createStepsTx instances now rows ≠ .error .tooManyBinds) ↔
        [Json.num (.int 1), .num (.int 2), .num (.int 3)].length ≤ 2184) :=
  ⟨by decide, expansion_storable_iff literalEnv { action := "work" } .null 1
    { stepName := "p", forEachExpr := some "[1,2,3]" } (by decide) (by decide)⟩

/-- 2185 items are within the limit of the cascade, and the database refuses their `INSERT`. -/
theorem expansion_of_2185_refused :
    parseForEachItems nullsEnv nullsText .null = .ok nulls ∧ nulls.length ≤ maxForEachItems ∧
    ∃ instances, expandPlaceholder nullsEnv { action := "work" } .null 1 nullsRow =
        .expand "p" instances ∧
      (∀ now rows, createStepsTx instances now rows = .error .tooManyBinds) ∧
      applySingle 0 [nullsRow] (.expand "p" instances) = .error (.db .tooManyBinds) := by
  have hparse : parseForEachItems nullsEnv nullsText .null = .ok nulls := rfl
  have hlimit : nulls.length ≤ maxForEachItems := by
    rw [length_nulls]
    decide
  have hempty : nulls.isEmpty = false := by
    rw [List.isEmpty_eq_false_iff, ← List.length_pos_iff, length_nulls]
    decide
  have hexpand : expandPlaceholder nullsEnv { action := "work" } .null 1 nullsRow =
      .expand "p" (expandInstances { action := "work" } 1 nullsRow nulls) := by
    have hexpr : nullsRow.forEachExpr.getD "" = nullsText := rfl
    have hname : nullsRow.stepName = "p" := rfl
    rw [expandPlaceholder, hexpr, hparse]
    simp only
    rw [if_neg (by rw [hempty]; decide), if_neg (Nat.not_lt.mpr hlimit), hname]
  have hmany : ∀ now rows, createStepsTx (expandInstances { action := "work" } 1 nullsRow
      nulls) now rows = .error .tooManyBinds := by
    intro now rows
    rw [createStepsTx_tooManyBinds_iff, expandInstances, List.length_mapIdx, length_nulls]
    simp only [maxStorable, maxBinds, colsPerRow]
    omega
  refine ⟨hparse, hlimit, _, hexpand, hmany, ?_⟩
  have hstart : runExpecting (startPlaceholderTx "p" 0) 1 "p" [nullsRow] =
      .ok ((startPlaceholderTx "p" 0).run [nullsRow]) := by
    have hcount : (startPlaceholderTx "p" 0).rowsAffected [nullsRow] = 1 := rfl
    rw [runExpecting, if_pos hcount]
  exact applySingle_refused hstart hmany

end Stroem.Cascade
