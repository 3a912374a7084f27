import Mathlib.Data.List.Sort
import Stroem.Foundation.Closure
import Stroem.Foundation.Table
import Stroem.JobStep

/-!
# Planning a restart

`plan_restart` divides the steps of the current flow into those that run again and those that
are carried over from the source job.  It starts from the selected step, or from every step
that failed, adds the steps the source job has no row for, and closes the set under the
dependencies of the flow.  Nothing here touches the database.
-/

namespace Stroem.Restart

open Foundation

inductive RestartError where
  | unknownStep (step : String)
  | loopInstance (base : String)
  | noFailedSteps
  deriving DecidableEq

namespace RestartError

def message : RestartError → String
  | .unknownStep s => "Step '" ++ s ++ "' is not in the current flow"
  | .loopInstance base => "Restart from the loop step '" ++ base ++ "', not an instance"
  | .noFailedSteps => "No failed or cancelled steps to restart"

end RestartError

inductive RestartFrom where
  | step (fromStep : String)
  | allFailed
  deriving DecidableEq

structure Seed where
  stepName : String
  status : StepStatus
  output : Option Json
  errorMessage : Option String
  skipReason : Option String
  deriving DecidableEq

structure RestartPlan where
  origin : RestartFrom
  startSteps : List String
  restartSteps : List String
  carried : List Seed
  carriedFailed : List String
  carriedFailedTolerated : List String
  deriving DecidableEq

def carriedCancelledMsg : String := "carried over from cancelled source job"

def carriedStatus (status : StepStatus) : StepStatus :=
  if status.isTerminal then status else .cancelled

def sourceByName (sourceSteps : List JobStepRow) (name : String) : Option JobStepRow :=
  lookupLast JobStepRow.stepName name (sourceSteps.filter fun s => s.loopSource.isNone)

def sortNames (names : List String) : List String :=
  names.insertionSort (· ≤ ·)

def carriedBad (src : JobStepRow) : Bool :=
  carriedStatus src.status == .failed || carriedStatus src.status == .cancelled

def failedSteps (flow : Flow) (sourceSteps : List JobStepRow) : List String :=
  flow.keys.filter fun name => (sourceByName sourceSteps name).any carriedBad

def loopBase (name : String) : Option String :=
  if '[' ∈ name.toList then some (String.ofList (name.toList.takeWhile (· ≠ '['))) else none

def startSteps (flow : Flow) (sourceSteps : List JobStepRow) :
    RestartFrom → Except RestartError (List String)
  | .step fromStep =>
    match loopBase fromStep with
    | some base => .error (.loopInstance base)
    | none =>
      if fromStep ∈ flow.keys then .ok [fromStep] else .error (.unknownStep fromStep)
  | .allFailed =>
    let v := failedSteps flow sourceSteps
    if v.isEmpty then .error .noFailedSteps else .ok (sortNames v)

def unsourced (flow : Flow) (sourceSteps : List JobStepRow) : List String :=
  flow.keys.filter fun name => (sourceByName sourceSteps name).isNone

def depNames (flow : Flow) (name : String) : List String :=
  match flow.get name with
  | some fs => collectNames fs.dependsOn
  | none => []

def roots (flow : Flow) (sourceSteps : List JobStepRow) (start : List String) : List String :=
  start ++ (unsourced flow sourceSteps).filter fun name => decide (name ∉ start)

def seedOf (name : String) (src : JobStepRow) : Seed :=
  if src.status.isTerminal then
    ⟨name, src.status, src.output, src.errorMessage, src.skipReason⟩
  else ⟨name, .cancelled, none, some carriedCancelledMsg, none⟩

def carriedSeeds (flow : Flow) (sourceSteps : List JobStepRow) (restart : List String) :
    List Seed :=
  (sortNames (flow.keys.filter fun name => decide (name ∉ restart))).filterMap fun name =>
    (sourceByName sourceSteps name).map (seedOf name)

def excuses (flow : Flow) (name : String) : Bool :=
  (flow.get name).any FlowStep.continueOnFailure

def failedSeeds (flow : Flow) (carried : List Seed) (excused : Bool) : List String :=
  (carried.filter fun s => s.status == .failed && excuses flow s.stepName == excused).map
    Seed.stepName

def planOf (flow : Flow) (sourceSteps : List JobStepRow) (origin : RestartFrom)
    (start restart : List String) : RestartPlan where
  origin := origin
  startSteps := start
  restartSteps := sortNames restart
  carried := carriedSeeds flow sourceSteps restart
  carriedFailed := failedSeeds flow (carriedSeeds flow sourceSteps restart) false
  carriedFailedTolerated := failedSeeds flow (carriedSeeds flow sourceSteps restart) true

/--
`plan_restart`.  The closure loop of the source has no bound; `none` is a loop that is still
going after `fuel` passes.
-/
def planRestart (fuel : Nat) (flow : Flow) (sourceSteps : List JobStepRow) (origin : RestartFrom) :
    Option (Except RestartError RestartPlan) :=
  match startSteps flow sourceSteps origin with
  | .error e => some (.error e)
  | .ok start =>
    (closureLoop (depNames flow) flow.keys fuel (roots flow sourceSteps start)).map
      fun restart => .ok (planOf flow sourceSteps origin start restart)

/-! ## What the plan says -/

section Plan

variable (flow : Flow) (sourceSteps : List JobStepRow) (origin : RestartFrom)

def Selected (name : String) : Prop :=
  match origin with
  | .step fromStep => name = fromStep
  | .allFailed => ∃ src, sourceByName sourceSteps name = some src ∧
      (src.status = .failed ∨ src.status = .cancelled ∨ src.status.isTerminal = false)

def closedRestarts : Set (Set String) :=
  {S | (∀ name ∈ flow.keys, Selected sourceSteps origin name ∨
      sourceByName sourceSteps name = none → name ∈ S) ∧
    ∀ name fs, flow.get name = some fs → (∃ d ∈ collectNames fs.dependsOn, d ∈ S) → name ∈ S}

structure Exact (plan : RestartPlan) : Prop where
  least : IsLeast (closedRestarts flow sourceSteps origin) {name | name ∈ plan.restartSteps}
  started : ∀ name ∈ plan.startSteps, name ∈ plan.restartSteps
  partition : (plan.restartSteps ++ plan.carried.map Seed.stepName).Perm flow.keys
  seeded : ∀ seed ∈ plan.carried, ∃ src, sourceByName sourceSteps seed.stepName = some src ∧
    seed = seedOf seed.stepName src
  terminal : ∀ seed ∈ plan.carried, seed.status.isTerminal = true
  clean : origin = .allFailed →
    ∀ seed ∈ plan.carried, seed.status ≠ .failed ∧ seed.status ≠ .cancelled
  failures : (plan.carriedFailed ++ plan.carriedFailedTolerated).Perm
    ((plan.carried.filter fun s => s.status == .failed).map Seed.stepName)
  tolerated : (∀ name ∈ plan.carriedFailed, excuses flow name = false) ∧
    ∀ name ∈ plan.carriedFailedTolerated, excuses flow name = true
  apart : ∀ seed ∈ plan.carried, ∀ fs, flow.get seed.stepName = some fs →
    ∀ d ∈ collectNames fs.dependsOn, d ∉ plan.restartSteps

variable {flow sourceSteps origin}

theorem perm_sortNames (names : List String) : (sortNames names).Perm names :=
  List.perm_insertionSort _ _

theorem mem_sortNames {names : List String} {name : String} :
    name ∈ sortNames names ↔ name ∈ names :=
  (perm_sortNames names).mem_iff

theorem carriedBad_iff {src : JobStepRow} : carriedBad src = true ↔
    src.status = .failed ∨ src.status = .cancelled ∨ src.status.isTerminal = false := by
  unfold carriedBad carriedStatus
  cases src.status <;> simp [StepStatus.isTerminal]

theorem startSteps_ok {start : List String} (h : startSteps flow sourceSteps origin = .ok start) :
    start.Nodup ∧ (∀ name, name ∈ start ↔ name ∈ flow.keys ∧ Selected sourceSteps origin name) := by
  unfold startSteps at h
  cases origin with
  | step fromStep =>
    simp only at h
    split at h
    · cases h
    split at h
    case isTrue hmem =>
      cases h
      refine ⟨List.nodup_singleton _, fun name => ?_⟩
      simp only [List.mem_singleton, Selected]
      constructor
      · rintro rfl
        exact ⟨hmem, rfl⟩
      · exact fun h => h.2
    case isFalse => cases h
  | allFailed =>
    simp only at h
    split at h
    · cases h
    · cases h
      have hnodup : (failedSteps flow sourceSteps).Nodup := flow.nodup.filter _
      refine ⟨(perm_sortNames _).nodup_iff.mpr hnodup, fun name => ?_⟩
      simp only [mem_sortNames, failedSteps, List.mem_filter, Option.any_eq_true,
        carriedBad_iff, Selected]

theorem mem_unsourced {name : String} :
    name ∈ unsourced flow sourceSteps ↔
      name ∈ flow.keys ∧ sourceByName sourceSteps name = none := by
  simp [unsourced, List.mem_filter]

theorem roots_nodup {start : List String} (h : start.Nodup) :
    (roots flow sourceSteps start).Nodup := by
  refine List.nodup_append.mpr ⟨h, (flow.nodup.filter _).filter _, fun a ha b hb heq => ?_⟩
  have hb' := (List.mem_filter.mp hb).2
  exact of_decide_eq_true hb' (heq ▸ ha)

theorem mem_roots {start : List String} {name : String} :
    name ∈ roots flow sourceSteps start ↔
      name ∈ start ∨ name ∈ flow.keys ∧ sourceByName sourceSteps name = none := by
  rw [roots, List.mem_append, List.mem_filter, mem_unsourced, decide_eq_true_eq]
  tauto

theorem roots_subset {start : List String}
    (hstart : ∀ name, name ∈ start ↔ name ∈ flow.keys ∧ Selected sourceSteps origin name) :
    ∀ name ∈ roots flow sourceSteps start, name ∈ flow.keys := by
  intro name hname
  rcases mem_roots.mp hname with h | h
  · exact ((hstart name).mp h).1
  · exact h.1

theorem closedAround_eq {start : List String}
    (hstart : ∀ name, name ∈ start ↔ name ∈ flow.keys ∧ Selected sourceSteps origin name) :
    closedAround (depNames flow) flow.keys (roots flow sourceSteps start) =
      closedRestarts flow sourceSteps origin := by
  ext S
  simp only [closedAround, closedRestarts, Set.mem_ofPred_eq]
  refine and_congr ?_ ?_
  · simp only [mem_roots, hstart]
    constructor
    · exact fun h name hname hroot => h name (hroot.imp (⟨hname, ·⟩) (⟨hname, ·⟩))
    · rintro h name (⟨hname, hroot⟩ | ⟨hname, hroot⟩)
      · exact h name hname (.inl hroot)
      · exact h name hname (.inr hroot)
  · constructor
    · intro h name fs hfs hdep
      refine h name (Flow.mem_keys_iff.mpr ⟨fs, hfs⟩) ?_
      rwa [depNames, hfs]
    · intro h name hname hdep
      obtain ⟨fs, hfs⟩ := Flow.mem_keys_iff.mp hname
      rw [depNames, hfs] at hdep
      exact h name fs hfs hdep

@[simp] theorem seedOf_stepName (name : String) (src : JobStepRow) :
    (seedOf name src).stepName = name := by
  unfold seedOf
  split <;> rfl

theorem seedOf_status (name : String) (src : JobStepRow) :
    (seedOf name src).status = carriedStatus src.status := by
  unfold seedOf carriedStatus
  split <;> rfl

theorem carriedStatus_terminal (status : StepStatus) :
    (carriedStatus status).isTerminal = true := by
  cases status <;> rfl

theorem mem_carriedSeeds {restart : List String} {seed : Seed} :
    seed ∈ carriedSeeds flow sourceSteps restart ↔
      seed.stepName ∈ flow.keys ∧ seed.stepName ∉ restart ∧
      ∃ src, sourceByName sourceSteps seed.stepName = some src ∧
        seed = seedOf seed.stepName src := by
  simp only [carriedSeeds, List.mem_filterMap, mem_sortNames, List.mem_filter,
    decide_eq_true_eq, Option.map_eq_some_iff]
  constructor
  · rintro ⟨name, ⟨hname, hnot⟩, src, hsrc, rfl⟩
    rw [seedOf_stepName]
    exact ⟨hname, hnot, src, hsrc, rfl⟩
  · rintro ⟨hname, hnot, src, hsrc, hseed⟩
    exact ⟨seed.stepName, ⟨hname, hnot⟩, src, hsrc, hseed.symm⟩

theorem carriedSeeds_names {restart : List String}
    (h : ∀ name ∈ flow.keys, sourceByName sourceSteps name = none → name ∈ restart) :
    (carriedSeeds flow sourceSteps restart).map Seed.stepName =
      sortNames (flow.keys.filter fun name => decide (name ∉ restart)) := by
  rw [carriedSeeds, List.map_filterMap]
  have hsome : ∀ name ∈ sortNames (flow.keys.filter fun name => decide (name ∉ restart)),
      ((sourceByName sourceSteps name).map (seedOf name)).map Seed.stepName = some name := by
    intro name hname
    rw [mem_sortNames, List.mem_filter, decide_eq_true_eq] at hname
    cases hsrc : sourceByName sourceSteps name with
    | none => exact absurd (h name hname.1 hsrc) hname.2
    | some src => simp
  rw [List.filterMap_congr hsome, List.filterMap_some]

theorem mem_failedSeeds {carried : List Seed} {excused : Bool} {name : String}
    (h : name ∈ failedSeeds flow carried excused) : excuses flow name = excused := by
  obtain ⟨seed, hseed, rfl⟩ := List.mem_map.mp h
  simp only [List.mem_filter, Bool.and_eq_true, beq_iff_eq] at hseed
  exact hseed.2.2

theorem failedSeeds_perm (carried : List Seed) :
    (failedSeeds flow carried false ++ failedSeeds flow carried true).Perm
      ((carried.filter fun s => s.status == .failed).map Seed.stepName) := by
  have hsplit := List.filter_append_perm (fun s => !excuses flow s.stepName)
    (carried.filter fun s => s.status == .failed)
  have hnot : ∀ b : Bool, (b == false) = !b := by decide
  have hself : ∀ b : Bool, (b == true) = b := by decide
  rw [failedSeeds, failedSeeds, ← List.map_append]
  refine List.Perm.map _ ?_
  simpa [List.filter_filter, Bool.and_comm, hnot, hself] using hsplit

theorem Exact.of_closure {fuel : Nat} {start restart : List String}
    (hstart : startSteps flow sourceSteps origin = .ok start)
    (hloop : closureLoop (depNames flow) flow.keys fuel (roots flow sourceSteps start) =
      some restart) :
    Exact flow sourceSteps origin (planOf flow sourceSteps origin start restart) := by
  obtain ⟨hnodup, hmem⟩ := startSteps_ok hstart
  obtain ⟨hgrows, hclosed⟩ := closureLoop_grows hloop
  have hleast := closureLoop_isLeast hloop
  rw [closedAround_eq hmem] at hleast
  have hkeys : ∀ name ∈ restart, name ∈ flow.keys := by
    obtain ⟨new, rfl, hnew⟩ := hgrows.added
    intro name hname
    exact (List.mem_append.mp hname).elim (roots_subset hmem name) (hnew name)
  have hunsourced : ∀ name ∈ flow.keys, sourceByName sourceSteps name = none → name ∈ restart :=
    fun name hname hnone => hgrows.subset name (mem_roots.mpr (.inr ⟨hname, hnone⟩))
  refine ⟨?_, fun name hname => ?_, ?_, fun seed hseed => ?_, fun seed hseed => ?_,
    fun horigin seed hseed => ?_, failedSeeds_perm _, ⟨fun _ h => mem_failedSeeds h,
      fun _ h => mem_failedSeeds h⟩, fun seed hseed fs hfs d hd => ?_⟩
  · simpa only [planOf, mem_sortNames] using hleast
  · exact mem_sortNames.mpr (hgrows.subset name (mem_roots.mpr (.inl hname)))
  · -- the restarted steps are some of the keys, and the others are carried
    simp only [planOf, carriedSeeds_names hunsourced]
    have hsorted := (perm_sortNames restart).append
      (perm_sortNames (flow.keys.filter fun name => decide (name ∉ restart)))
    have hrestart : restart.Perm (flow.keys.filter fun name => decide (name ∈ restart)) := by
      refine (List.perm_ext_iff_of_nodup (hgrows.nodup (roots_nodup hnodup))
        (flow.nodup.filter _)).mpr fun name => ?_
      rw [List.mem_filter, decide_eq_true_eq]
      exact ⟨fun h => ⟨hkeys name h, h⟩, fun h => h.2⟩
    have hsplit := List.filter_append_perm (fun name => decide (name ∈ restart)) flow.keys
    refine (hsorted.trans (hrestart.append_right _)).trans ?_
    simpa [decide_not] using hsplit
  · exact (mem_carriedSeeds.mp hseed).2.2
  · obtain ⟨-, -, src, -, heq⟩ := mem_carriedSeeds.mp hseed
    rw [heq, seedOf_status]
    exact carriedStatus_terminal _
  · -- a row that would be carried failed or cancelled is a start step
    obtain ⟨hname, hnot, src, hsrc, heq⟩ := mem_carriedSeeds.mp hseed
    have hgood : ¬ carriedBad src = true := by
      intro hbad
      refine hnot (hgrows.subset _ (mem_roots.mpr (.inl ((hmem _).mpr ⟨hname, ?_⟩))))
      rw [horigin]
      exact ⟨src, hsrc, carriedBad_iff.mp hbad⟩
    rw [heq, seedOf_status]
    simpa [carriedBad] using hgood
  · obtain ⟨hname, hnot, -⟩ := mem_carriedSeeds.mp hseed
    simp only [planOf, mem_sortNames]
    intro hdep
    refine hnot (hclosed _ hname ⟨d, ?_, hdep⟩)
    rwa [depNames, hfs]

theorem Exact.of_planRestart {fuel : Nat} {plan : RestartPlan}
    (h : planRestart fuel flow sourceSteps origin = some (.ok plan)) :
    Exact flow sourceSteps origin plan := by
  unfold planRestart at h
  cases hstart : startSteps flow sourceSteps origin with
  | error e =>
    rw [hstart] at h
    cases Option.some.inj h
  | ok start =>
    rw [hstart] at h
    obtain ⟨restart, hloop, heq⟩ := Option.map_eq_some_iff.mp h
    cases heq
    exact .of_closure hstart hloop

variable (flow sourceSteps origin) in
/--
The loop of `plan_restart` ends on every flow, cyclic ones included, and a plan it returns
restarts exactly the steps that have to run again.
-/
theorem planRestart_exact :
    (∃ result, ∀ fuel, flow.keys.length < fuel →
      planRestart fuel flow sourceSteps origin = some result) ∧
    ∀ fuel plan, planRestart fuel flow sourceSteps origin = some (.ok plan) →
      Exact flow sourceSteps origin plan := by
  refine ⟨?_, fun fuel plan h => .of_planRestart h⟩
  unfold planRestart
  cases hstart : startSteps flow sourceSteps origin with
  | error e => exact ⟨.error e, fun _ _ => rfl⟩
  | ok start =>
    obtain ⟨hnodup, hmem⟩ := startSteps_ok hstart
    obtain ⟨restart, hrestart⟩ := @closureLoop_ends _ _ (depNames flow) _
      (flow.keys.length + 1) _ (roots_nodup hnodup) (roots_subset hmem) (by omega)
    refine ⟨.ok (planOf flow sourceSteps origin start restart), fun fuel hfuel => ?_⟩
    simp only [closureLoop_mono hfuel hrestart, Option.map_some]

end Plan

def branchedFlow : Flow :=
  ⟨[("b", { action := "work", dependsOn := [.name "a"] }), ("z", { action := "work" }),
      ("a", { action := "work" }), ("c", { action := "work" })], by decide⟩

def branchedRows : List JobStepRow :=
  [{ stepName := "a", status := .failed }, { stepName := "b", status := .skipped },
    { stepName := "z", status := .running }]

example : (planRestart 5 branchedFlow branchedRows (.step "a")).map (·.toOption.map
    fun plan => (plan.restartSteps, plan.carried.map fun s => (s.stepName, s.status))) =
      some (some (["a", "b", "c"], [("z", .cancelled)])) := by
  decide +kernel

end Stroem.Restart
