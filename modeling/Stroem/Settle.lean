import Stroem.Gate
import Stroem.JobStep

/-!
`settle::decide`: a job's terminal status and output from its steps.
-/

namespace Stroem.Settlement

structure Settled where
  status : JobStatus
  output : Option Json
  deriving DecidableEq

def untoleratedFailure (task : TaskDef) (steps : List JobStepRow) : Bool :=
  steps.any fun s => s.status == .failed &&
    !(task.flow.get (flowStepName s.stepName s.loopSource)).any FlowStep.continueOnFailure

def terminalSteps (task : TaskDef) : List String :=
  let dependedOn := task.flow.entries.flatMap fun e => collectNames e.2.dependsOn
  task.flow.keys.filter fun name => !dependedOn.contains name

def jobOutput (task : TaskDef) (steps : List JobStepRow) : Option Json :=
  let fields := steps.foldl
    (fun out s =>
      if (terminalSteps task).contains s.stepName then
        match s.output with
        | some output => Fields.insert s.stepName output out
        | none => out
      else out)
    ([] : Fields)
  if fields.isEmpty then none else some (.obj fields)

protected def decide (task : TaskDef) (steps : List JobStepRow) : Option Settled :=
  if !steps.all fun s => s.status.isTerminal then none
  else if untoleratedFailure task steps then some ⟨.failed, none⟩
  else if steps.any fun s => s.status == .cancelled then some ⟨.cancelled, none⟩
  else some ⟨.completed, jobOutput task steps⟩

theorem decide_isSome_iff {task : TaskDef} {steps : List JobStepRow} :
    (Settlement.decide task steps).isSome = true ↔ ∀ s ∈ steps, s.status.isTerminal = true := by
  unfold Settlement.decide
  rw [← List.all_eq_true]
  cases steps.all fun s => s.status.isTerminal with
  | false => simp
  | true =>
    simp only [Bool.not_true, Bool.false_eq_true, if_false, iff_true]
    split
    · rfl
    · split <;> rfl

end Stroem.Settlement
