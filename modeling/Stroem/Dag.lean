import Stroem.Foundation.Kahn
import Stroem.Workflow

/-!
`validate_dag`: every dependency of a flow names a step of the flow, and the steps can be
sorted along their dependencies.  It accepts exactly the flows without unknown names and without
cycles (`validateDag_exact`).
-/

namespace Stroem

open Foundation

namespace Flow

def deps (flow : Flow) (name : String) : List String :=
  ((flow.get name).map fun fs => collectNames fs.dependsOn).getD []

def missingDep (flow : Flow) : Option (String × String) :=
  flow.entries.findSome? fun e =>
    ((collectNames e.2.dependsOn).find? fun dep => !flow.keys.contains dep).map
      fun dep => (e.1, dep)

end Flow

/--
`validate_dag`.  The map of in-degrees has an iteration order of its own, `order`, in which
the steps without dependencies are queued.
-/
def validateDag (flow : Flow) (order : List String) : Except String (List String) :=
  match flow.missingDep with
  | some (step, dep) =>
    .error ("Step '" ++ step ++ "' depends on non-existent step '" ++ dep ++ "'")
  | none =>
    match Kahn.sort flow.keys flow.deps order with
    | some result =>
      if result.length = flow.entries.length then .ok result
      else .error "Cycle detected in workflow DAG"
    | none => .error "Cycle detected in workflow DAG"

def Flow.Accepted (flow : Flow) : Prop :=
  ∃ order result, order.Perm flow.keys ∧ validateDag flow order = .ok result

theorem Flow.deps_eq {flow : Flow} {name : String} {fs : FlowStep}
    (h : flow.get name = some fs) : flow.deps name = collectNames fs.dependsOn := by
  simp [deps, h]

theorem Flow.Accepted.rank {flow : Flow} (h : flow.Accepted) :
    ∃ rank : String → Nat, ∀ name fs, flow.get name = some fs →
      ∀ d ∈ collectNames fs.dependsOn, d ∈ flow.keys ∧ rank d < rank name := by
  obtain ⟨order, result, horder, hok⟩ := h
  unfold validateDag at hok
  split at hok
  · cases hok
  · split at hok
    case h_1 out hsort =>
      split at hok
      case isTrue hlen =>
        refine ⟨out.idxOf, fun name fs hfs d hd => ?_⟩
        have hkeys : out.length = flow.keys.length := by simpa [Flow.keys] using hlen
        refine Kahn.sort_rank flow.nodup horder hsort hkeys name
          (Flow.mem_keys_iff.mpr ⟨fs, hfs⟩) d ?_
        rwa [Flow.deps_eq hfs]
      case isFalse => cases hok
    case h_2 => cases hok

/-! ## Exactly the acyclic flows -/

def Flow.DepsKnown (flow : Flow) : Prop :=
  ∀ name fs, flow.get name = some fs → ∀ d ∈ collectNames fs.dependsOn, d ∈ flow.keys

def Flow.Acyclic (flow : Flow) : Prop :=
  Kahn.Acyclic flow.keys flow.deps

theorem Flow.missingDep_eq_none_iff {flow : Flow} : flow.missingDep = none ↔ flow.DepsKnown := by
  unfold missingDep DepsKnown
  rw [List.findSome?_eq_none_iff]
  constructor
  · intro h name fs hfs d hd
    have hnone := h _ (mem_entries_of_get hfs)
    rw [Option.map_eq_none_iff, List.find?_eq_none] at hnone
    simpa using hnone d hd
  · rintro h ⟨name, fs⟩ hmem
    rw [Option.map_eq_none_iff, List.find?_eq_none]
    intro d hd
    simpa using h name fs (get_of_mem_entries hmem) d hd

theorem Flow.DepsKnown.deps {flow : Flow} (h : flow.DepsKnown) :
    ∀ name ∈ flow.keys, ∀ d ∈ flow.deps name, d ∈ flow.keys := by
  intro name hname d hd
  obtain ⟨fs, hfs⟩ := Flow.mem_keys_iff.mp hname
  rw [Flow.deps_eq hfs] at hd
  exact h name fs hfs d hd

theorem validateDag_eq_ok_iff {flow : Flow} {order result : List String} :
    validateDag flow order = .ok result ↔
      flow.DepsKnown ∧ Kahn.sort flow.keys flow.deps order = some result ∧
        result.length = flow.keys.length := by
  have hkeys : flow.keys.length = flow.entries.length := by simp [Flow.keys]
  rw [← Flow.missingDep_eq_none_iff, hkeys]
  unfold validateDag
  cases flow.missingDep with
  | some missing => simp
  | none =>
    cases Kahn.sort flow.keys flow.deps order with
    | none => simp
    | some out =>
      by_cases hlen : out.length = flow.entries.length
      · simp only [hlen, if_true, Except.ok.injEq, Option.some.injEq, true_and]
        exact ⟨fun h => ⟨h, h ▸ hlen⟩, fun h => h.1⟩
      · simp only [hlen, if_false, Option.some.injEq, true_and, reduceCtorEq, false_iff]
        rintro ⟨rfl, h⟩
        exact hlen h

/--
The flow is accepted exactly when every dependency is a step and no step depends on itself, and
the result lists every step once, after its dependencies.
-/
theorem validateDag_exact (flow : Flow) {order : List String} (horder : order.Perm flow.keys) :
    ((∃ result, validateDag flow order = .ok result) ↔ flow.DepsKnown ∧ flow.Acyclic) ∧
      ∀ result, validateDag flow order = .ok result →
        result.Perm flow.keys ∧ Kahn.Sorted flow.deps result := by
  have hnodes : flow.keys.Nodup := flow.nodup
  refine ⟨⟨?_, ?_⟩, ?_⟩
  · rintro ⟨result, hok⟩
    obtain ⟨hknown, hsort, hlen⟩ := validateDag_eq_ok_iff.mp hok
    exact ⟨hknown, (Kahn.sort_covers_iff hnodes horder hsort hknown.deps).mp hlen⟩
  · rintro ⟨hknown, hacyclic⟩
    obtain ⟨out, -, hsort, -⟩ := Kahn.sort_ends flow.deps hnodes horder
    have hlen := (Kahn.sort_covers_iff hnodes horder hsort hknown.deps).mpr hacyclic
    exact ⟨out, validateDag_eq_ok_iff.mpr ⟨hknown, hsort, hlen⟩⟩
  · intro result hok
    obtain ⟨-, hsort, hlen⟩ := validateDag_eq_ok_iff.mp hok
    exact ⟨Kahn.sort_perm hnodes horder hsort hlen, Kahn.sort_sorted hnodes horder hsort⟩

def repeatedDepsFlow : Flow :=
  ⟨[("test", { action := "test", dependsOn := [.name "build", .any [.step "build" .any,
      .all [.name "build"]]] }), ("build", { action := "build" })], by decide⟩

theorem validateDag_exact_repeatedDeps :
    validateDag repeatedDepsFlow ["test", "build"] = .ok ["build", "test"] ∧
      repeatedDepsFlow.DepsKnown ∧ repeatedDepsFlow.Acyclic ∧
      ["build", "test"].Perm repeatedDepsFlow.keys := by
  have hok : validateDag repeatedDepsFlow ["test", "build"] = .ok ["build", "test"] := by decide
  have horder : ["test", "build"].Perm repeatedDepsFlow.keys := .refl _
  have hexact := validateDag_exact repeatedDepsFlow horder
  obtain ⟨hknown, hacyclic⟩ := hexact.1.mp ⟨_, hok⟩
  exact ⟨hok, hknown, hacyclic, (hexact.2 _ hok).1⟩

end Stroem
