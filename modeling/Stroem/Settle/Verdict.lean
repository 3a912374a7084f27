import Stroem.Settle
import Stroem.Cascade.Fixpoint

/-!
# What the settlement decides

`decide` row by row: which failures it excuses, in which order failed and cancelled rows count,
and which outputs become the job's.  `dagVerdict` is the same decision step by step, with every
flow step judged by its own row and the rows of its loop instances together.
-/

namespace Stroem.Settlement

open Foundation

variable {task : TaskDef} {steps : List JobStepRow}

/-! ## Rows -/

def Excused (task : TaskDef) (s : JobStepRow) : Prop :=
  ∃ fs, task.flow.get (flowStepName s.stepName s.loopSource) = some fs ∧
    fs.continueOnFailure = true

def LeafOutput (task : TaskDef) (steps : List JobStepRow) (name : String) (output : Json) : Prop :=
  name ∈ task.flow.keys ∧
    (∀ other fs, task.flow.get other = some fs → name ∉ collectNames fs.dependsOn) ∧
    ∃ s ∈ steps, s.stepName = name ∧ s.output = some output

def HoldsLeafOutputs (task : TaskDef) (steps : List JobStepRow) (output : Option Json) : Prop :=
  ∃ fields : Fields, fields.Sorted ∧
    (∀ name value, (name, value) ∈ fields ↔ LeafOutput task steps name value) ∧
    output = if fields.isEmpty then none else some (.obj fields)

theorem untoleratedFailure_iff :
    untoleratedFailure task steps = true ↔
      ∃ s ∈ steps, s.status = .failed ∧ ¬ Excused task s := by
  unfold untoleratedFailure Excused
  simp only [List.any_eq_true, Bool.and_eq_true, beq_iff_eq, Bool.not_eq_true', not_exists,
    not_and, Bool.not_eq_true]
  refine exists_congr fun s => and_congr_right fun _ => and_congr_right fun _ => ?_
  cases task.flow.get (flowStepName s.stepName s.loopSource) with
  | none => simp
  | some fs => simp

theorem mem_terminalSteps {name : String} :
    name ∈ terminalSteps task ↔ name ∈ task.flow.keys ∧
      ∀ other fs, task.flow.get other = some fs → name ∉ collectNames fs.dependsOn := by
  unfold terminalSteps
  simp only [List.mem_filter, Bool.not_eq_true', List.contains_eq_mem, decide_eq_false_iff_not,
    List.mem_flatMap, not_exists, not_and]
  refine and_congr_right fun _ => ⟨fun h other fs hfs => ?_, fun h e he => ?_⟩
  · exact h (other, fs) (Flow.mem_entries_of_get hfs)
  · exact h e.1 e.2 (Flow.get_of_mem_entries he)

/-! ## Outputs -/

def outputEntries (task : TaskDef) (steps : List JobStepRow) : List (String × Json) :=
  steps.filterMap fun s =>
    if (terminalSteps task).contains s.stepName then s.output.map (s.stepName, ·) else none

theorem mem_outputEntries {name : String} {value : Json} :
    (name, value) ∈ outputEntries task steps ↔ LeafOutput task steps name value := by
  unfold outputEntries LeafOutput
  rw [List.mem_filterMap, ← and_assoc, ← mem_terminalSteps]
  constructor
  · rintro ⟨s, hs, hentry⟩
    split at hentry
    case isTrue hleaf =>
      obtain ⟨output, hout, heq⟩ := Option.map_eq_some_iff.mp hentry
      obtain ⟨rfl, rfl⟩ := Prod.mk.inj heq
      exact ⟨by simpa using hleaf, s, hs, rfl, hout⟩
    case isFalse => cases hentry
  · rintro ⟨hleaf, s, hs, rfl, hout⟩
    exact ⟨s, hs, by simp [hleaf, hout]⟩

theorem outputEntries_keys (h : Keyed JobStepRow.stepName steps) :
    ((outputEntries task steps).map Prod.fst).Nodup := by
  have hsub : ((outputEntries task steps).map Prod.fst).Sublist
      (steps.map JobStepRow.stepName) := by
    unfold outputEntries
    induction steps with
    | nil => exact List.Sublist.refl _
    | cons s steps ih =>
      have hrest := ih (List.nodup_cons.mp h).2
      rw [List.filterMap_cons]
      split
      · exact hrest.cons _
      case h_2 e he =>
        split at he
        case isTrue =>
          obtain ⟨output, -, rfl⟩ := Option.map_eq_some_iff.mp he
          exact hrest.cons_cons _
        case isFalse => cases he
  exact hsub.nodup h

theorem foldl_outputs (m : Fields) :
    steps.foldl (fun out s =>
      if (terminalSteps task).contains s.stepName then
        match s.output with
        | some output => Fields.insert s.stepName output out
        | none => out
      else out) m =
    (outputEntries task steps).foldl (fun m e => Fields.insert e.1 e.2 m) m := by
  unfold outputEntries
  induction steps generalizing m with
  | nil => rfl
  | cons s steps ih =>
    rw [List.foldl_cons, ih, List.filterMap_cons]
    cases (terminalSteps task).contains s.stepName with
    | false => simp
    | true => cases s.output <;> simp

theorem jobOutput_eq :
    jobOutput task steps =
      if (Fields.collect (outputEntries task steps)).isEmpty then none
      else some (.obj (Fields.collect (outputEntries task steps))) := by
  unfold jobOutput Fields.collect
  rewrite [← foldl_outputs []]
  rfl

theorem jobOutput_holds (h : Keyed JobStepRow.stepName steps) :
    HoldsLeafOutputs task steps (jobOutput task steps) := by
  refine ⟨Fields.collect (outputEntries task steps), Fields.sorted_collect _, ?_, jobOutput_eq⟩
  intro name value
  rw [Fields.mem_collect_iff (outputEntries_keys h), mem_outputEntries]

/-! ## The order of the rows -/

theorem jobOutput_perm {steps' : List JobStepRow} (h : Keyed JobStepRow.stepName steps)
    (hperm : steps.Perm steps') : jobOutput task steps = jobOutput task steps' := by
  have hentries : (outputEntries task steps).Perm (outputEntries task steps') :=
    hperm.filterMap _
  rw [jobOutput_eq, jobOutput_eq, Fields.collect_perm hentries (outputEntries_keys h)]

theorem decide_perm {steps' : List JobStepRow} (h : Keyed JobStepRow.stepName steps)
    (hperm : steps.Perm steps') :
    Settlement.decide task steps = Settlement.decide task steps' := by
  have hall : (steps.all fun s => s.status.isTerminal) =
      steps'.all fun s => s.status.isTerminal := by
    rw [Bool.eq_iff_iff, List.all_eq_true, List.all_eq_true]
    exact forall_congr' fun s => imp_congr_left hperm.mem_iff
  have hfailed : untoleratedFailure task steps = untoleratedFailure task steps' := by
    rw [Bool.eq_iff_iff, untoleratedFailure_iff, untoleratedFailure_iff]
    exact exists_congr fun s => and_congr_left fun _ => hperm.mem_iff
  have hcancelled : (steps.any fun s => s.status == .cancelled) =
      steps'.any fun s => s.status == .cancelled := by
    rw [Bool.eq_iff_iff, List.any_eq_true, List.any_eq_true]
    exact exists_congr fun s => and_congr_left fun _ => hperm.mem_iff
  unfold Settlement.decide
  rw [hall, hfailed, hcancelled, jobOutput_perm h hperm]

/-! ## The flow step by step -/

/--
The decision over the steps of the flow, when `counts name status` says which of them count as
failed or cancelled.
-/
def dagVerdict (task : TaskDef) (steps : List JobStepRow)
    (counts : String → StepStatus → Bool) : Option JobStatus :=
  if !steps.all fun s => s.status.isTerminal then none
  else if task.flow.entries.any fun e => counts e.1 .failed && !e.2.continueOnFailure then
    some .failed
  else if task.flow.entries.any fun e => counts e.1 .cancelled then some .cancelled
  else some .completed

def countsWithInstances (steps : List JobStepRow) (name : String) (status : StepStatus) : Bool :=
  steps.any fun s => s.status == status && flowStepName s.stepName s.loopSource == name

def countsByInstances (steps : List JobStepRow) (name : String) (status : StepStatus) : Bool :=
  if steps.any (fun s => s.stepName == name && s.isPlaceholder) && status == .failed then
    steps.any fun s => s.loopSource == some name && s.status == .failed
  else
    steps.any fun s => s.stepName == name && s.status == status

theorem countsWithInstances_iff {name : String} {status : StepStatus} :
    countsWithInstances steps name status = true ↔
      ∃ s ∈ steps, s.status = status ∧ flowStepName s.stepName s.loopSource = name := by
  simp [countsWithInstances, List.any_eq_true]

theorem decide_status_eq_dagVerdict
    (hflow : ∀ s ∈ steps, flowStepName s.stepName s.loopSource ∈ task.flow.keys) :
    (Settlement.decide task steps).map Settled.status =
      dagVerdict task steps (countsWithInstances steps) := by
  have hfailed : untoleratedFailure task steps = task.flow.entries.any fun e =>
      countsWithInstances steps e.1 .failed && !e.2.continueOnFailure := by
    rw [Bool.eq_iff_iff, untoleratedFailure_iff, List.any_eq_true]
    constructor
    · rintro ⟨s, hs, hst, hnot⟩
      obtain ⟨fs, hfs⟩ := Flow.mem_keys_iff.mp (hflow s hs)
      refine ⟨_, Flow.mem_entries_of_get hfs, ?_⟩
      have hcof : fs.continueOnFailure = false := by
        by_contra hcof
        exact hnot ⟨fs, hfs, by simpa using hcof⟩
      simp [countsWithInstances_iff.mpr ⟨s, hs, hst, rfl⟩, hcof]
    · rintro ⟨⟨name, fs⟩, he, hcounts⟩
      simp only [Bool.and_eq_true, Bool.not_eq_true'] at hcounts
      obtain ⟨s, hs, hst, rfl⟩ := countsWithInstances_iff.mp hcounts.1
      refine ⟨s, hs, hst, ?_⟩
      rintro ⟨fs', hfs', hcof⟩
      obtain rfl := Option.some.inj ((Flow.get_of_mem_entries he).symm.trans hfs')
      rw [hcounts.2] at hcof
      cases hcof
  have hcancelled : (steps.any fun s => s.status == .cancelled) =
      task.flow.entries.any fun e => countsWithInstances steps e.1 .cancelled := by
    rw [Bool.eq_iff_iff, List.any_eq_true, List.any_eq_true]
    constructor
    · rintro ⟨s, hs, hst⟩
      obtain ⟨fs, hfs⟩ := Flow.mem_keys_iff.mp (hflow s hs)
      exact ⟨_, Flow.mem_entries_of_get hfs,
        countsWithInstances_iff.mpr ⟨s, hs, by simpa using hst, rfl⟩⟩
    · rintro ⟨e, -, hcounts⟩
      obtain ⟨s, hs, hst, -⟩ := countsWithInstances_iff.mp hcounts
      exact ⟨s, hs, by simpa using hst⟩
  unfold Settlement.decide dagVerdict
  rw [hfailed, hcancelled]
  split
  · rfl
  split
  · rfl
  split <;> rfl

/-! ## The specification -/

/--
The status is that of the flow read step by step: nothing while a row is not terminal, then
failed, cancelled or completed, whatever the order of the rows.
-/
theorem decide_spec (task : TaskDef) {steps : List JobStepRow}
    (h : Keyed JobStepRow.stepName steps) :
    (Settlement.decide task steps = none ↔ ∃ s ∈ steps, s.status.isTerminal = false) ∧
    ((∀ s ∈ steps, s.status.isTerminal = true) →
      ((∃ s ∈ steps, s.status = .failed ∧ ¬ Excused task s) →
        Settlement.decide task steps = some ⟨.failed, none⟩) ∧
      ((∀ s ∈ steps, s.status = .failed → Excused task s) →
        ((∃ s ∈ steps, s.status = .cancelled) →
          Settlement.decide task steps = some ⟨.cancelled, none⟩) ∧
        ((∀ s ∈ steps, s.status ≠ .cancelled) →
          ∃ output, Settlement.decide task steps = some ⟨.completed, output⟩ ∧
            HoldsLeafOutputs task steps output))) ∧
    (∀ steps' : List JobStepRow, steps.Perm steps' →
      Settlement.decide task steps' = Settlement.decide task steps) ∧
    ((∀ s ∈ steps, flowStepName s.stepName s.loopSource ∈ task.flow.keys) →
      (Settlement.decide task steps).map Settled.status =
        dagVerdict task steps (countsWithInstances steps)) := by
  refine ⟨?_, fun hterm => ?_, fun steps' hperm => (decide_perm h hperm).symm,
    decide_status_eq_dagVerdict⟩
  · have hsome : (Settlement.decide task steps).isSome = true ↔ _ := decide_isSome_iff
    rw [← Option.not_isSome_iff_eq_none, hsome]
    simp
  · have hall : (steps.all fun s => s.status.isTerminal) = true := List.all_eq_true.mpr hterm
    have hcancel : (steps.any fun s => s.status == .cancelled) = true ↔
        ∃ s ∈ steps, s.status = .cancelled := by
      simp [List.any_eq_true]
    refine ⟨fun hfailed => ?_, fun hexcused => ⟨fun hcancelled => ?_, fun hnone => ?_⟩⟩
    · unfold Settlement.decide
      simp [hall, untoleratedFailure_iff.mpr hfailed]
    · have hno : untoleratedFailure task steps = false := by
        rw [← Bool.not_eq_true, untoleratedFailure_iff]
        rintro ⟨s, hs, hst, hnot⟩
        exact hnot (hexcused s hs hst)
      unfold Settlement.decide
      simp [hall, hno, hcancel.mpr hcancelled]
    · have hno : untoleratedFailure task steps = false := by
        rw [← Bool.not_eq_true, untoleratedFailure_iff]
        rintro ⟨s, hs, hst, hnot⟩
        exact hnot (hexcused s hs hst)
      have hnocancel : (steps.any fun s => s.status == .cancelled) = false := by
        rw [← Bool.not_eq_true, hcancel]
        rintro ⟨s, hs, hst⟩
        exact hnone s hs hst
      refine ⟨jobOutput task steps, ?_, jobOutput_holds h⟩
      unfold Settlement.decide
      simp [hall, hno, hnocancel]

/-! ## Two jobs -/

def toleratedFlow : TaskDef :=
  ⟨⟨[("p", { action := "work", forEach := some (.str "[1]"), continueOnFailure := true }),
      ("z", { action := "work", dependsOn := [.step "p" .any] })], by decide⟩⟩

def toleratedRows : List JobStepRow :=
  [{ stepName := "p", status := .failed, forEachExpr := some "[1]" },
    { stepName := "z", status := .completed, output := some (.str "done") },
    { stepName := "p[0]", status := .failed, loopSource := some "p", loopIndex := some 0 }]

theorem decide_spec_toleratedRows :
    Keyed JobStepRow.stepName toleratedRows ∧
      ∃ output, Settlement.decide toleratedFlow toleratedRows = some ⟨.completed, output⟩ ∧
        HoldsLeafOutputs toleratedFlow toleratedRows output := by
  have hkeyed : Keyed JobStepRow.stepName toleratedRows := by
    unfold Keyed
    decide
  obtain ⟨-, hspec, -, -⟩ := decide_spec toleratedFlow hkeyed
  obtain ⟨-, hexcused⟩ := hspec (by decide)
  have htolerated : ∀ s ∈ toleratedRows, s.status = .failed → Excused toleratedFlow s := by
    intro s hs hst
    refine ⟨{ action := "work", forEach := some (.str "[1]"), continueOnFailure := true }, ?_, rfl⟩
    simp only [toleratedRows, List.mem_cons, List.not_mem_nil, or_false] at hs
    rcases hs with rfl | rfl | rfl
    · rfl
    · cases hst
    · rfl
  exact ⟨hkeyed, (hexcused htolerated).2 (by decide)⟩

def brokenLoop : List JobStepRow :=
  [{ stepName := "p", status := .failed, forEachExpr := some "oops" }]

/-- The failure of such a placeholder counts, although no instance failed. -/
theorem failed_placeholder_counts :
    Cascade.Returns literalEnv Cascade.loopFlow { jobId := 1 } (some {}) {} brokenLoop ⟨[]⟩ ∧
      Keyed JobStepRow.stepName brokenLoop ∧
      (∀ s ∈ brokenLoop, s.status.isTerminal = true) ∧
      (Settlement.decide Cascade.loopFlow brokenLoop).map Settled.status = some .failed ∧
      dagVerdict Cascade.loopFlow brokenLoop (countsByInstances brokenLoop) =
        some .completed := by
  refine ⟨.of_run 1 (by decide), ?_, by decide, by decide, by decide⟩
  unfold Keyed
  decide

end Stroem.Settlement
