import Stroem.Json

/-!
The conversation state of a multi-turn agent step, stored in `job_step.agent_state`.
-/

namespace Stroem

abbrev Uuid := Nat

structure PendingToolCall where
  toolCallId : String
  toolName : String
  childJobId : Uuid
  deriving DecidableEq

structure AskUserCall where
  toolCallId : String
  message : String
  deriving DecidableEq

structure ResolvedToolResult where
  toolCallId : String
  resultText : String
  deriving DecidableEq

structure AgentConversationState where
  messages : List Json := []
  turn : Nat := 0
  totalInputTokens : Nat := 0
  totalOutputTokens : Nat := 0
  pendingToolCalls : List PendingToolCall := []
  suspendedForAskUser : Bool := false
  askUserCall : Option AskUserCall := none
  resolvedToolResults : List ResolvedToolResult := []
  deriving DecidableEq

namespace AgentConversationState

def allToolCallsResolved (s : AgentConversationState) : Bool :=
  s.pendingToolCalls.isEmpty

def resolveToolCall (s : AgentConversationState) (childJobId : Uuid) :
    Option PendingToolCall × AgentConversationState :=
  match s.pendingToolCalls.find? (·.childJobId == childJobId) with
  | none => (none, s)
  | some call =>
    (some call,
      { s with pendingToolCalls := s.pendingToolCalls.eraseP (·.childJobId == childJobId) })

end AgentConversationState

/--
The `agent_state` column: a value that `serde_json` reads as a conversation state, or any
other JSON value.
-/
inductive AgentState where
  | conversation (state : AgentConversationState)
  | other (value : Json)
  deriving DecidableEq

end Stroem
