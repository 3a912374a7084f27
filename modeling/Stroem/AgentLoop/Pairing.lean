import Mathlib.Data.List.Induction
import Stroem.AgentLoop
import Stroem.Foundation.Runs

/-!
# Tool calls and their results

The ids of the tool calls of a history and of its tool results.  A conversation is accounted for
when every call is answered in the history or is open: a pending child job, the question to the
user, or a resolved result that the next resume puts into the history.
-/

namespace Stroem.AgentLoop

open Foundation Engine

/-! ## Ids -/

def messageResults : Message → List ToolResult
  | .assistant _ => []
  | .user content => content.filterMap fun
      | .toolResult result => some result
      | .text _ => none

def callIds (history : List Message) : List String :=
  (history.flatMap messageCalls).map (·.id)

def resultIds (history : List Message) : List String :=
  (history.flatMap messageResults).map (·.call)

def Paired (history : List Message) : Prop :=
  ∀ id, (resultIds history).count id = (callIds history).count id

@[simp] theorem callIds_append (xs ys : List Message) :
    callIds (xs ++ ys) = callIds xs ++ callIds ys := by
  simp [callIds]

@[simp] theorem resultIds_append (xs ys : List Message) :
    resultIds (xs ++ ys) = resultIds xs ++ resultIds ys := by
  simp [resultIds]

def resultMessages (results : List ToolResult) : List Message :=
  results.map fun result => .user [.toolResult result]

@[simp] theorem callIds_resultMessages (results : List ToolResult) :
    callIds (resultMessages results) = [] := by
  simp [callIds, resultMessages, messageCalls, List.flatMap_eq_nil_iff]

@[simp] theorem resultIds_resultMessages (results : List ToolResult) :
    resultIds (resultMessages results) = results.map (·.call) := by
  induction results with
  | nil => rfl
  | cons result results ih =>
    simpa [resultIds, resultMessages, messageResults] using ih

/-! ## The history of a conversation -/

def Saved (rig : Rig) (conv : AgentConversationState) (history : List Message) : Prop :=
  conv.messages = history.map rig.toValue

section Saved

variable {rig : Rig} {conv : AgentConversationState} {history : List Message}

theorem Saved.parseHistory (h : Saved rig conv history) :
    parseHistory rig conv.messages = history := by
  unfold AgentLoop.parseHistory
  rw [h, List.filterMap_map]
  have hsome : rig.fromValue ∘ rig.toValue = some := funext rig.fromValue_toValue
  rw [hsome, List.filterMap_some]

theorem Saved.push (h : Saved rig conv history) (m : Message) :
    Saved rig (pushMessage rig conv m) (history ++ [m]) := by
  unfold Saved pushMessage
  rw [h, List.map_append]
  rfl

def pushResults (rig : Rig) (conv : AgentConversationState) (results : List ToolResult) :
    AgentConversationState :=
  results.foldl (pushResult rig) conv

theorem Saved.pushResults (h : Saved rig conv history) (results : List ToolResult) :
    Saved rig (pushResults rig conv results) (history ++ resultMessages results) := by
  induction results generalizing conv history with
  | nil => simpa [AgentLoop.pushResults, resultMessages] using h
  | cons result results ih =>
    have hnext := ih (h.push (.user [.toolResult result]))
    simpa [AgentLoop.pushResults, resultMessages, pushResult] using hnext

variable (rig) in
theorem pushResults_eq (conv : AgentConversationState) (results : List ToolResult) :
    pushResults rig conv results =
      { conv with messages := conv.messages ++ (resultMessages results).map rig.toValue } := by
  induction results generalizing conv with
  | nil => simp [pushResults, resultMessages]
  | cons result results ih =>
    unfold pushResults at ih ⊢
    rw [List.foldl_cons, ih]
    simp [pushResult, pushMessage, resultMessages]

theorem findCall_append_resultMessages (results : List ToolResult) (id : String) :
    findCall (history ++ resultMessages results) id = findCall history id := by
  have hnone : (resultMessages results).reverse.flatMap messageCalls = [] := by
    simp [resultMessages, List.flatMap_eq_nil_iff, messageCalls]
  unfold findCall
  rw [List.reverse_append, List.flatMap_append, hnone, List.nil_append]

end Saved

/-! ## Accounts -/

def openIds (conv : AgentConversationState) : List String :=
  conv.pendingToolCalls.map (·.toolCallId) ++ (conv.askUserCall.map (·.toolCallId)).toList ++
    conv.resolvedToolResults.map (·.toolCallId)

structure Accounted (rig : Rig) (conv : AgentConversationState) : Prop where
  history : ∃ history, Saved rig conv history ∧
    (callIds history).Perm (resultIds history ++ openIds conv) ∧
    ∀ id ∈ openIds conv, ∃ tc, findCall history id = some tc ∧ tc.id = id
  keyed : Keyed PendingToolCall.childJobId conv.pendingToolCalls

theorem Accounted.request_paired {cfg : LoopConfig} {rig : Rig} {conv : AgentConversationState}
    (h : Accounted rig conv) (hopen : openIds conv = []) :
    Paired (requestMessages cfg rig { conv with turn := conv.turn + 1 }) := by
  obtain ⟨⟨history, hsaved, hperm, -⟩, -⟩ := h
  rw [hopen, List.append_nil] at hperm
  have hparse : parseHistory rig conv.messages = history := hsaved.parseHistory
  have hpaired : ∀ last : Message, messageCalls last = [] → messageResults last = [] →
      Paired (history ++ [last]) := by
    intro last hcalls hresults id
    rw [callIds_append, resultIds_append]
    simp [callIds, resultIds, hcalls, hresults]
    simpa [callIds, resultIds] using (hperm.count_eq id).symm
  unfold requestMessages
  dsimp only
  rw [hparse]
  split
  · exact hpaired _ rfl rfl
  · cases history using List.reverseRecOn with
    | nil => exact hpaired _ rfl rfl
    | append_singleton front last _ =>
      rw [List.dropLast_concat, List.getLast?_concat, Option.getD_some]
      exact fun id => (hperm.count_eq id).symm

/-! ## Resuming -/

private theorem resultIds_resumed {history : List Message} {results : List ResolvedToolResult}
    (h : ∀ r ∈ results, ∃ tc, findCall history r.toolCallId = some tc ∧ tc.id = r.toolCallId) :
    resultIds [.user (results.map fun r =>
      UserContent.toolResult (resumedToolResult history r.toolCallId r.resultText))] =
      results.map (·.toolCallId) := by
  induction results with
  | nil => rfl
  | cons r results ih =>
    obtain ⟨tc, hfind, hid⟩ := h r List.mem_cons_self
    have hrest := ih fun q hq => h q (List.mem_cons_of_mem _ hq)
    have hcall : (resumedToolResult history r.toolCallId r.resultText).call = r.toolCallId := by
      unfold resumedToolResult
      rw [hfind]
      exact hid
    simp only [resultIds, messageResults, List.flatMap_cons, List.flatMap_nil, List.append_nil,
      List.map_cons, List.filterMap_cons] at hrest ⊢
    rw [hcall, hrest]

theorem resume_accounted {rig : Rig} {conv : AgentConversationState} (h : Accounted rig conv)
    (hpending : conv.pendingToolCalls = []) (hask : conv.askUserCall = none) :
    Accounted rig (resume rig (some conv) []) ∧ openIds (resume rig (some conv) []) = [] := by
  obtain ⟨⟨history, hsaved, hperm, hfound⟩, hkeyed⟩ := h
  have hopen : openIds conv = conv.resolvedToolResults.map (·.toolCallId) := by
    simp [openIds, hpending, hask]
  have hupgrade : rig.upgrade conv.messages = conv.messages := by
    rw [hsaved, rig.upgrade_current]
  have hconv : { conv with messages := rig.upgrade conv.messages } = conv := by rw [hupgrade]
  unfold resume
  simp only [Option.getD_some, List.isEmpty_nil, Bool.true_and, if_true, List.isEmpty_map]
  rw [hupgrade]
  cases hresolved : conv.resolvedToolResults with
  | nil =>
    simp only [List.isEmpty_nil, if_true]
    rw [← hresolved]
    exact ⟨⟨⟨history, hsaved, hperm, hfound⟩, hkeyed⟩, by rw [hopen, hresolved]; rfl⟩
  | cons r results =>
    simp only [List.isEmpty_cons, Bool.false_eq_true, if_false, Bool.not_false, if_true]
    rw [← hresolved]
    have hparse : AgentLoop.parseHistory rig conv.messages = history := hsaved.parseHistory
    rw [hparse, List.map_map]
    have hids := resultIds_resumed
      fun r hr => hfound r.toolCallId (by
        rw [hopen]
        exact List.mem_map_of_mem hr)
    refine ⟨⟨⟨history ++ [.user (conv.resolvedToolResults.map fun r =>
      UserContent.toolResult (resumedToolResult history r.toolCallId r.resultText))],
      hsaved.push _, ?_, ?_⟩, hkeyed⟩, ?_⟩
    · rw [callIds_append, resultIds_append, hids]
      simp only [openIds, hpending, hask, pushMessage]
      simpa [callIds, messageCalls, hopen] using hperm
    · simp [openIds, hpending, hask, pushMessage]
    · simp [openIds, hpending, hask, pushMessage]

end Stroem.AgentLoop
