import Stroem.Engine.Writes
import Stroem.JobRepo

/-!
# Propagation to the parent step

`settlement::propagate`: what a settled child job does to the step that created it.  A tool
call of an agent step puts its result into the conversation state it read; any other child
finishes its step.
-/

namespace Stroem.Engine

open Foundation JobStepRepo JobRepo

structure ChildJob where
  jobId : Uuid
  sourceType : String
  job : JobRecord
  deriving DecidableEq

def toolResultText (toJson : Json → String) (job : JobRecord) : String :=
  if job.status = .completed then (job.output.map toJson).getD "Task completed successfully"
  else "Task failed: " ++ job.status.asStr

def injectResult (text : String) (childJobId : Uuid) (conv : AgentConversationState) :
    AgentConversationState :=
  match conv.resolveToolCall childJobId with
  | (some resolved, rest) =>
    { rest with
      resolvedToolResults := rest.resolvedToolResults ++ [⟨resolved.toolCallId, text⟩] }
  | (none, rest) => rest

def finishParentStep (child : ChildJob) (step : String) : Write :=
  if child.job.status = .completed then .markCompleted step child.job.output
  else if child.job.status = .cancelled then .markCancelled step
  else .markFailed step ("Child job " ++ toString child.jobId ++ " failed")

/-- What `propagate` does after it has read the steps of the parent job. -/
inductive Propagation where
  | deferred
  | inject (read new : AgentConversationState)
  | finishStep (write : Write)

def propagate (toJson : Json → String) (child : ChildJob) (step : String)
    (steps : List JobStepRow) : Propagation :=
  if child.sourceType = "agent_tool" then
    match steps.find? (·.stepName == step) with
    | some row =>
      match row.agentState with
      | none => .deferred
      | some (.conversation conv) =>
        if conv.pendingToolCalls.any (·.childJobId == child.jobId) then
          .inject conv (injectResult (toolResultText toJson child.job) child.jobId conv)
        else .deferred
      | some (.other _) => .finishStep (finishParentStep child step)
    | none => .finishStep (finishParentStep child step)
  else .finishStep (finishParentStep child step)

/-! ## The state with one more result -/

section Inject

variable {conv : AgentConversationState} {p : PendingToolCall} (text : String)

private theorem find_pending (hk : Keyed PendingToolCall.childJobId conv.pendingToolCalls)
    (hp : p ∈ conv.pendingToolCalls) :
    conv.pendingToolCalls.find? (·.childJobId == p.childJobId) = some p := by
  cases hfind : conv.pendingToolCalls.find? (·.childJobId == p.childJobId) with
  | none =>
    have := List.find?_eq_none.mp hfind p hp
    simp at this
  | some q =>
    have hq : q.childJobId = p.childJobId := by simpa using List.find?_some hfind
    rw [hk.eq_of_key (List.mem_of_find?_eq_some hfind) hp hq]

theorem injectResult_resolved (hk : Keyed PendingToolCall.childJobId conv.pendingToolCalls)
    (hp : p ∈ conv.pendingToolCalls) :
    (injectResult text p.childJobId conv).resolvedToolResults =
      conv.resolvedToolResults ++ [⟨p.toolCallId, text⟩] := by
  simp [injectResult, AgentConversationState.resolveToolCall, find_pending hk hp]

theorem injectResult_pending (hk : Keyed PendingToolCall.childJobId conv.pendingToolCalls)
    (hp : p ∈ conv.pendingToolCalls) :
    (injectResult text p.childJobId conv).pendingToolCalls =
      conv.pendingToolCalls.eraseP (·.childJobId == p.childJobId) := by
  simp [injectResult, AgentConversationState.resolveToolCall, find_pending hk hp]

theorem injectResult_messages (childJobId : Uuid) :
    (injectResult text childJobId conv).messages = conv.messages := by
  unfold injectResult AgentConversationState.resolveToolCall
  split
  · rename_i hresolve
    split at hresolve
    · cases hresolve
    · cases hresolve
      rfl
  · rename_i hresolve
    split at hresolve
    · cases hresolve
      rfl
    · cases hresolve

theorem injectResult_askUserCall (childJobId : Uuid) :
    (injectResult text childJobId conv).askUserCall = conv.askUserCall := by
  unfold injectResult AgentConversationState.resolveToolCall
  split
  · rename_i hresolve
    split at hresolve
    · cases hresolve
    · cases hresolve
      rfl
  · rename_i hresolve
    split at hresolve
    · cases hresolve
      rfl
    · cases hresolve

theorem keyed_injectResult (hk : Keyed PendingToolCall.childJobId conv.pendingToolCalls)
    (hp : p ∈ conv.pendingToolCalls) :
    Keyed PendingToolCall.childJobId (injectResult text p.childJobId conv).pendingToolCalls := by
  rw [injectResult_pending text hk hp]
  exact hk.sublist (List.eraseP_sublist.map _)

theorem mem_injectResult_pending (hk : Keyed PendingToolCall.childJobId conv.pendingToolCalls)
    (hp : p ∈ conv.pendingToolCalls) {q : PendingToolCall} :
    q ∈ (injectResult text p.childJobId conv).pendingToolCalls ↔
      q ∈ conv.pendingToolCalls ∧ q ≠ p := by
  rw [injectResult_pending text hk hp]
  exact hk.mem_eraseP hp

end Inject

end Stroem.Engine
