import Stroem.Status
import Stroem.DependsOn
import Stroem.AgentState

/-!
Workflow definitions: flow steps, actions, tasks and workspace configurations, with the
fields the job engine reads.
-/

namespace Stroem

inductive ActionType where
  | script
  | shell
  | docker
  | pod
  | task
  | agent
  | approval
  | eventSource
  | deferred
  deriving DecidableEq

inductive BackoffStrategy where
  | fixed
  | exponential
  deriving DecidableEq

structure RetryConfig where
  maxAttempts : Nat := 3
  delaySecs : Nat := 30
  backoff : BackoffStrategy := .fixed
  jitter : Bool := false
  deriving DecidableEq

structure FlowStep where
  action : String
  dependsOn : List DependsOnEntry := []
  input : Fields := []
  continueOnFailure : Bool := false
  timeoutSecs : Option Nat := none
  «when» : Option String := none
  forEach : Option Json := none
  sequential : Bool := false
  retry : Option RetryConfig := none
  gitRef : Option String := none

structure ActionDef where
  actionType : ActionType
  image : Option String := none
  runner : Option String := none
  tags : List String := []
  retry : Option RetryConfig := none
  spec : Option Json := none

structure Flow where
  entries : List (String × FlowStep)
  nodup : (entries.map Prod.fst).Nodup

namespace Flow

def keys (flow : Flow) : List String :=
  flow.entries.map Prod.fst

def get (flow : Flow) (name : String) : Option FlowStep :=
  (flow.entries.find? (·.1 == name)).map Prod.snd

theorem mem_entries_of_get {flow : Flow} {name : String} {fs : FlowStep}
    (h : flow.get name = some fs) : (name, fs) ∈ flow.entries := by
  unfold get at h
  cases hfind : flow.entries.find? (·.1 == name) with
  | none => simp [hfind] at h
  | some e =>
    obtain rfl : e.2 = fs := by simpa [hfind] using h
    have hname : e.1 = name := by simpa using List.find?_some hfind
    have hmem := List.mem_of_find?_eq_some hfind
    rw [← hname]
    exact hmem

theorem get_of_mem_entries {flow : Flow} {name : String} {fs : FlowStep}
    (h : (name, fs) ∈ flow.entries) : flow.get name = some fs := by
  cases hget : flow.get name with
  | none =>
    exfalso
    simp only [get, Option.map_eq_none_iff, List.find?_eq_none] at hget
    exact hget _ h (by simp)
  | some fs' =>
    have h' := mem_entries_of_get hget
    have := List.inj_on_of_nodup_map flow.nodup h h' rfl
    simp_all

theorem get_eq_some_iff {flow : Flow} {name : String} {fs : FlowStep} :
    flow.get name = some fs ↔ (name, fs) ∈ flow.entries :=
  ⟨mem_entries_of_get, get_of_mem_entries⟩

theorem mem_keys_iff {flow : Flow} {name : String} :
    name ∈ flow.keys ↔ ∃ fs, flow.get name = some fs := by
  simp [keys, get_eq_some_iff]

end Flow

structure TaskDef where
  flow : Flow

structure WorkspaceConfig where
  secrets : List (String × Json) := []

/-- `timestamptz` columns, in seconds. -/
abbrev Time := Nat

structure JobRow where
  jobId : Uuid
  input : Option Json := none
  output : Option Json := none
  status : JobStatus := .pending
  sourceType : String := "api"
  revision : Option String := none
  gitRef : Option String := none
  deriving DecidableEq

end Stroem
