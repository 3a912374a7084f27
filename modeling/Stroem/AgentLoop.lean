import Stroem.Engine.Propagate

/-!
# The dispatch loop of a multi-turn agent step

`dispatch_agent_loop` asks a model for completions and routes the tool calls of each answer: an
unknown tool and an MCP tool are answered at once, a task tool by a child job, `ask_user` by a
human.  The loop suspends for the last two, and the server puts their results into the saved
conversation before the step is claimed again.
-/

namespace Stroem.AgentLoop

open Stroem.Engine

/-! ## Messages -/

structure ToolCall where
  id : String
  itemId : Option String
  name : String
  arguments : Json
  deriving DecidableEq

structure ToolResult where
  call : String
  name : String
  text : String
  deriving DecidableEq

inductive AssistantContent
  | text (text : String)
  | toolCall (call : ToolCall)
  | reasoning
  deriving DecidableEq

inductive UserContent
  | text (text : String)
  | toolResult (result : ToolResult)
  deriving DecidableEq

inductive Message
  | user (content : List UserContent)
  | assistant (content : List AssistantContent)
  deriving DecidableEq

/--
rig's JSON form of a message, and `legacy_history::upgrade`, which leaves messages of the current
schema untouched.
-/
structure Rig where
  toValue : Message → Json
  fromValue : Json → Option Message
  upgrade : List Json → List Json
  fromValue_toValue : ∀ m, fromValue (toValue m) = some m
  upgrade_current : ∀ messages : List Message,
    upgrade (messages.map toValue) = messages.map toValue

def parseHistory (rig : Rig) (messages : List Json) : List Message :=
  messages.filterMap rig.fromValue

/-! ## The action -/

inductive AgentToolRef
  | task (task : String)
  | mcp (server : String)
  deriving DecidableEq

structure LoopConfig where
  interactive : Bool
  tools : List AgentToolRef
  maxTurns : Option Nat
  taskTools : List String
  mcpServers : Option (List String)
  prompt : String
  deriving DecidableEq

def LoopConfig.turnLimit (cfg : LoopConfig) : Nat :=
  min (cfg.maxTurns.getD 25) 100

def stripStart (start s : String) : Option String :=
  if start.toList <+: s.toList then some (String.ofList (s.toList.drop start.toList.length))
  else none

def replaceChar (old new : Char) (s : String) : String :=
  String.ofList (s.toList.map fun c => if c = old then new else c)

def isMcpToolCall (cfg : LoopConfig) (toolName : String) : Bool :=
  match cfg.mcpServers, stripStart "mcp_" toolName with
  | some servers, some rest =>
    servers.any fun server =>
      decide ((replaceChar '-' '_' server ++ "_").toList <+: rest.toList)
  | _, _ => false

def taskNameFromToolName (toolName : String) : Option String :=
  stripStart "strom_task_" toolName

inductive CallKind
  | askUser
  | mcp
  | task
  | unknown
  deriving DecidableEq

def callKind (cfg : LoopConfig) (tc : ToolCall) : CallKind :=
  if tc.name = "ask_user" then .askUser
  else if isMcpToolCall cfg tc.name then .mcp
  else if (taskNameFromToolName tc.name).isSome then .task
  else .unknown

def resolveTask (cfg : LoopConfig) (tc : ToolCall) : Except String String :=
  let taskName := (taskNameFromToolName tc.name).getD tc.name
  let taskNameHyphen := replaceChar '_' '-' taskName
  let resolved :=
    if taskName ∈ cfg.taskTools then some taskName
    else if taskNameHyphen ∈ cfg.taskTools then some taskNameHyphen
    else none
  match resolved with
  | none => .error ("Error: task '" ++ taskName ++ "' not found")
  | some resolvedTaskName =>
    let allowed := cfg.tools.any fun
      | .task task =>
        decide (task = resolvedTaskName) || decide (replaceChar '-' '_' task = taskName)
      | .mcp _ => false
    if allowed then .ok resolvedTaskName
    else .error ("Error: task '" ++ resolvedTaskName ++ "' is not in the allowed tool set")

/-! ## Tool results -/

def toolResultText (tc : ToolCall) (text : String) : ToolResult :=
  ⟨tc.id, tc.name, text⟩

def contentCalls (content : List AssistantContent) : List ToolCall :=
  content.filterMap fun
    | .toolCall tc => some tc
    | _ => none

def messageCalls : Message → List ToolCall
  | .assistant content => contentCalls content
  | .user _ => []

def hasHandle (handle : String) (tc : ToolCall) : Bool :=
  decide (tc.id = handle ∨ tc.itemId = some handle)

def findCall (history : List Message) (toolCallId : String) : Option ToolCall :=
  (history.reverse.flatMap messageCalls).find? (hasHandle toolCallId)

def resumedToolResult (history : List Message) (toolCallId text : String) : ToolResult :=
  match findCall history toolCallId with
  | some tc => toolResultText tc text
  | none => ⟨toolCallId, "unknown_tool", text⟩

/-! ## Resuming -/

def pushMessage (rig : Rig) (conv : AgentConversationState) (m : Message) :
    AgentConversationState :=
  { conv with messages := conv.messages ++ [rig.toValue m] }

def pushResult (rig : Rig) (conv : AgentConversationState) (result : ToolResult) :
    AgentConversationState :=
  pushMessage rig conv (.user [.toolResult result])

/--
The start of `dispatch_agent_loop`: restore the conversation and put the results it waited for
into the history, those of the caller or else those the server has resolved.
-/
def resume (rig : Rig) (resumeState : Option AgentConversationState)
    (toolResults : List (String × String)) : AgentConversationState :=
  let conv := resumeState.getD {}
  let conv := { conv with messages := rig.upgrade conv.messages }
  let fromState := toolResults.isEmpty && !conv.resolvedToolResults.isEmpty
  let effective :=
    if toolResults.isEmpty then
      conv.resolvedToolResults.map fun r => (r.toolCallId, r.resultText)
    else toolResults
  if effective.isEmpty then conv
  else
    let history := parseHistory rig conv.messages
    let contents := effective.map fun r =>
      UserContent.toolResult (resumedToolResult history r.1 r.2)
    let conv := pushMessage rig conv (.user contents)
    if fromState then { conv with resolvedToolResults := [] } else conv

/-! ## One turn -/

structure Turn where
  cancelled : Bool
  response : Option (List AssistantContent)
  inputTokens : Nat
  outputTokens : Nat
  finalOutput : Bool
  mcpResult : ToolCall → String
  childJobs : List (Option Uuid)
  saved : Bool

inductive Outcome
  | completed
  | waitingForTools (state : AgentConversationState)
  | waitingForUser (state : AgentConversationState) (message : String)
  | failed (error : String)
  | error
  | next (state : AgentConversationState)

def requestMessages (cfg : LoopConfig) (rig : Rig) (conv : AgentConversationState) :
    List Message :=
  let history := parseHistory rig conv.messages
  if conv.turn = 1 then history ++ [.user [.text cfg.prompt]]
  else history.dropLast ++ [history.getLast?.getD (.user [.text "Continue."])]

structure Partition where
  conv : AgentConversationState
  mcpCalls : List ToolCall
  taskCalls : List ToolCall
  askUserCall : Option ToolCall

def Partition.push (cfg : LoopConfig) (rig : Rig) (p : Partition) (tc : ToolCall) : Partition :=
  match callKind cfg tc with
  | .askUser => { p with askUserCall := some tc }
  | .mcp => { p with mcpCalls := p.mcpCalls ++ [tc] }
  | .task => { p with taskCalls := p.taskCalls ++ [tc] }
  | .unknown =>
    let text := "Error: unknown tool '" ++ tc.name ++ "'"
    { p with conv := pushResult rig p.conv (toolResultText tc text) }

def createTaskJobs (cfg : LoopConfig) (rig : Rig) :
    List ToolCall → List (Option Uuid) → AgentConversationState → Option AgentConversationState
  | [], _, conv => some conv
  | tc :: calls, childJobs, conv =>
    match resolveTask cfg tc with
    | .error text =>
      createTaskJobs cfg rig calls childJobs (pushResult rig conv (toolResultText tc text))
    | .ok _ =>
      match childJobs with
      | some child :: childJobs =>
        createTaskJobs cfg rig calls childJobs
          { conv with pendingToolCalls := conv.pendingToolCalls ++ [⟨tc.id, tc.name, child⟩] }
      | _ => none

def askUserMessage (tc : ToolCall) : String :=
  match tc.arguments with
  | .obj fields => ((Fields.get "message" fields).bind Json.asStr).getD "Please provide input"
  | _ => "Please provide input"

def askUserNotInteractive : String :=
  "Error: ask_user is not available. The 'interactive' flag is not enabled on this action."

def routeCalls (cfg : LoopConfig) (rig : Rig) (t : Turn) (conv : AgentConversationState)
    (calls : List ToolCall) : Outcome :=
  let p := calls.foldl (Partition.push cfg rig) ⟨conv, [], [], none⟩
  let conv := p.mcpCalls.foldl
    (fun conv tc => pushResult rig conv (toolResultText tc (t.mcpResult tc))) p.conv
  match p.askUserCall with
  | some tc =>
    if cfg.interactive then
      let message := askUserMessage tc
      let conv := { conv with
        suspendedForAskUser := true
        askUserCall := some ⟨tc.id, message⟩ }
      if t.saved then .waitingForUser conv message else .error
    else .next (pushResult rig conv (toolResultText tc askUserNotInteractive))
  | none =>
    if p.taskCalls.isEmpty then .next conv
    else
      match createTaskJobs cfg rig p.taskCalls t.childJobs conv with
      | none => .error
      | some conv => if t.saved then .waitingForTools conv else .error

def runTurn (cfg : LoopConfig) (rig : Rig) (t : Turn) (conv : AgentConversationState) : Outcome :=
  let conv := { conv with turn := conv.turn + 1 }
  if t.cancelled then .failed "Job was cancelled"
  else if cfg.turnLimit < conv.turn then
    .failed ("Agent exceeded maximum turns (" ++ toString cfg.turnLimit ++
      ") without producing a final answer")
  else
    match t.response with
    | none => .error
    | some choice =>
      let conv := { conv with
        totalInputTokens := conv.totalInputTokens + t.inputTokens
        totalOutputTokens := conv.totalOutputTokens + t.outputTokens }
      let conv :=
        if conv.turn = 1 then pushMessage rig conv (.user [.text cfg.prompt]) else conv
      let conv := pushMessage rig conv (.assistant choice)
      if (contentCalls choice).isEmpty then
        if t.finalOutput then .completed else .error
      else routeCalls cfg rig t conv (contentCalls choice)

/-! ## The step between loops -/

def approveAskUser (response : String) (conv : AgentConversationState) : AgentConversationState :=
  { conv with
    askUserCall := none
    suspendedForAskUser := false
    resolvedToolResults := conv.resolvedToolResults ++
      [⟨(conv.askUserCall.map (·.toolCallId)).getD "", response⟩] }

inductive Phase
  | ready
  | looping
  | waitingForTools
  | suspended
  | ended
  deriving DecidableEq

structure AgentStep where
  phase : Phase
  conv : Option AgentConversationState
  deriving DecidableEq

inductive Event
  | claim
  | turn (t : Turn)
  | childSettled (childJobId : Uuid) (text : String)
  | approve (response : String)
  | retry

def AgentStep.afterTurn (s : AgentStep) : Outcome → AgentStep
  | .completed => { s with phase := .ended }
  | .failed _ => { s with phase := .ended }
  | .error => { s with phase := .ended }
  | .waitingForTools conv => ⟨.waitingForTools, some conv⟩
  | .waitingForUser conv _ => ⟨.suspended, some conv⟩
  | .next conv => ⟨.looping, some conv⟩

def freshChildJobs (conv : AgentConversationState) (t : Turn) : Prop :=
  (t.childJobs.reduceOption ++ conv.pendingToolCalls.map (·.childJobId)).Nodup

instance (conv : AgentConversationState) (t : Turn) : Decidable (freshChildJobs conv t) :=
  inferInstanceAs (Decidable (List.Nodup _))

def step (cfg : LoopConfig) (rig : Rig) (s : AgentStep) : Event → Option AgentStep
  | .claim => if s.phase = .ready then some ⟨.looping, some (resume rig s.conv [])⟩ else none
  | .turn t =>
    match s.phase, s.conv with
    | .looping, some conv =>
      if freshChildJobs conv t then some (s.afterTurn (runTurn cfg rig t conv)) else none
    | _, _ => none
  | .childSettled childJobId text =>
    match s.phase, s.conv with
    | .waitingForTools, some conv =>
      if conv.pendingToolCalls.any (·.childJobId == childJobId) then
        let conv := injectResult text childJobId conv
        some ⟨if conv.allToolCallsResolved then .ready else .waitingForTools, some conv⟩
      else none
    | _, _ => none
  | .approve response =>
    match s.phase, s.conv with
    | .suspended, some conv => some ⟨.ready, some (approveAskUser response conv)⟩
    | _, _ => none
  | .retry => if s.phase = .ended then some ⟨.ready, none⟩ else none

def AgentStep.start : AgentStep :=
  ⟨.ready, none⟩

end Stroem.AgentLoop
