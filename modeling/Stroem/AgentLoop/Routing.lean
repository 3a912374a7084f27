import Mathlib.Data.List.ReduceOption
import Stroem.AgentLoop.Pairing

/-!
# Routing the calls of an answer

What the partition loop, the MCP calls and the creation of child jobs make of a conversation: the
results they push, and the calls they leave pending.  An answer the loop can route leaves a
conversation that is accounted for.
-/

namespace Stroem.AgentLoop

open Foundation Engine

/-! ## Answers the loop can route -/

def callsOf (cfg : LoopConfig) (kind : CallKind) (calls : List ToolCall) : List ToolCall :=
  calls.filter fun tc => callKind cfg tc = kind

def allowedTask (cfg : LoopConfig) (tc : ToolCall) : Bool :=
  (resolveTask cfg tc).isOk

def FoundById (calls : List ToolCall) (tc : ToolCall) : Prop :=
  (calls.find? (hasHandle tc.id)).map (·.id) = some tc.id

instance (calls : List ToolCall) (tc : ToolCall) : Decidable (FoundById calls tc) :=
  inferInstanceAs (Decidable (_ = _))

/--
No `ask_user` and, among task calls, one that starts a child job; or one `ask_user` and no task
call.  An answer after which the loop cannot suspend leaves nothing behind.
-/
def Routable (cfg : LoopConfig) (saved : Bool) (calls : List ToolCall) : Prop :=
  match callsOf cfg .askUser calls, callsOf cfg .task calls with
  | [], [] => True
  | [], task :: tasks => saved = true →
      (∃ tc ∈ task :: tasks, allowedTask cfg tc) ∧
        ∀ tc ∈ task :: tasks, allowedTask cfg tc → FoundById calls tc
  | [ask], [] => cfg.interactive = true → saved = true → FoundById calls ask
  | _, _ => cfg.interactive = true ∧ saved = false

instance (cfg : LoopConfig) (saved : Bool) (calls : List ToolCall) :
    Decidable (Routable cfg saved calls) := by
  unfold Routable
  split <;> infer_instance

/-! ## The partition -/

section Partition

variable {cfg : LoopConfig} {rig : Rig}

def unknownResult (tc : ToolCall) : ToolResult :=
  toolResultText tc ("Error: unknown tool '" ++ tc.name ++ "'")

theorem callsOf_cons (kind : CallKind) (tc : ToolCall) (calls : List ToolCall) :
    callsOf cfg kind (tc :: calls) =
      if callKind cfg tc = kind then tc :: callsOf cfg kind calls else callsOf cfg kind calls := by
  simp [callsOf, List.filter_cons]

theorem pushResults_append (conv : AgentConversationState) (xs ys : List ToolResult) :
    pushResults rig conv (xs ++ ys) = pushResults rig (pushResults rig conv xs) ys := by
  simp [pushResults, List.foldl_append]

theorem foldl_push (calls : List ToolCall) (p : Partition) :
    calls.foldl (Partition.push cfg rig) p =
      ⟨pushResults rig p.conv ((callsOf cfg .unknown calls).map unknownResult),
        p.mcpCalls ++ callsOf cfg .mcp calls,
        p.taskCalls ++ callsOf cfg .task calls,
        (callsOf cfg .askUser calls).getLast?.or p.askUserCall⟩ := by
  induction calls generalizing p with
  | nil => simp [callsOf, pushResults]
  | cons tc calls ih =>
    rw [List.foldl_cons, ih]
    cases hkind : callKind cfg tc
    · -- the last `ask_user` of the answer is the one that is kept
      cases hasks : callsOf cfg .askUser calls with
      | nil => simp [callsOf_cons, hkind, Partition.push, hasks]
      | cons ask asks =>
        simp [callsOf_cons, hkind, Partition.push, hasks, List.getLast?_eq_some_getLast]
    · simp [callsOf_cons, hkind, Partition.push]
    · simp [callsOf_cons, hkind, Partition.push]
    · simp [callsOf_cons, hkind, Partition.push, pushResults, unknownResult]

variable (cfg) in
theorem count_callIds_kinds (calls : List ToolCall) (id : String) :
    (calls.map (·.id)).count id =
      ((callsOf cfg .unknown calls).map (·.id)).count id +
        ((callsOf cfg .mcp calls).map (·.id)).count id +
        ((callsOf cfg .askUser calls).map (·.id)).count id +
        ((callsOf cfg .task calls).map (·.id)).count id := by
  induction calls with
  | nil => rfl
  | cons tc calls ih =>
    cases hkind : callKind cfg tc
    all_goals
      simp only [callsOf_cons, hkind, List.map_cons, List.count_cons, ih, reduceCtorEq, if_true,
        if_false]
      omega

end Partition

/-! ## Child jobs -/

section ChildJobs

variable {cfg : LoopConfig} {rig : Rig}

structure ChildrenOf (cfg : LoopConfig) (rig : Rig) (calls : List ToolCall)
    (childJobs : List (Option Uuid)) (conv conv' : AgentConversationState)
    (rejected : List ToolResult) (added : List PendingToolCall) : Prop where
  state : conv' = { pushResults rig conv rejected with
    pendingToolCalls := conv.pendingToolCalls ++ added }
  ids : ∀ id, (calls.map (·.id)).count id =
    (rejected.map (·.call)).count id + (added.map (·.toolCallId)).count id
  accepted : ∀ p ∈ added, ∃ tc ∈ calls, allowedTask cfg tc ∧ tc.id = p.toolCallId
  children : (added.map (·.childJobId)).Sublist childJobs.reduceOption
  some_added : (∃ tc ∈ calls, allowedTask cfg tc) → added ≠ []

theorem createTaskJobs_spec {calls : List ToolCall} {childJobs : List (Option Uuid)}
    {conv conv' : AgentConversationState}
    (h : createTaskJobs cfg rig calls childJobs conv = some conv') :
    ∃ rejected added, ChildrenOf cfg rig calls childJobs conv conv' rejected added := by
  induction calls generalizing childJobs conv with
  | nil =>
    obtain rfl : conv = conv' := by simpa [createTaskJobs] using h
    exact ⟨[], [], ⟨by simp [pushResults], by simp, by simp, by simp, by simp⟩⟩
  | cons tc calls ih =>
    unfold createTaskJobs at h
    split at h
    · rename_i text hresolve
      obtain ⟨rejected, added, hspec⟩ := ih h
      have hnot : allowedTask cfg tc = false := by
        unfold allowedTask
        rw [hresolve]
        rfl
      refine ⟨toolResultText tc text :: rejected, added, ?_, ?_, ?_, hspec.children, ?_⟩
      · rw [hspec.state]
        simp [pushResults_eq, pushResult, pushMessage, resultMessages]
      · intro id
        have hids := hspec.ids id
        simp only [List.map_cons, List.count_cons, toolResultText]
        omega
      · intro p hp
        obtain ⟨tc', hmem, hallowed⟩ := hspec.accepted p hp
        exact ⟨tc', List.mem_cons_of_mem _ hmem, hallowed⟩
      · rintro ⟨tc', hmem, hallowed⟩
        obtain rfl | hmem := List.mem_cons.mp hmem
        · rw [hnot] at hallowed
          cases hallowed
        · exact hspec.some_added ⟨tc', hmem, hallowed⟩
    · rename_i task hresolve
      split at h
      · rename_i child childJobs
        obtain ⟨rejected, added, hspec⟩ := ih h
        have hallowed : allowedTask cfg tc = true := by
          unfold allowedTask
          rw [hresolve]
          rfl
        refine ⟨rejected, ⟨tc.id, tc.name, child⟩ :: added, ?_, ?_, ?_, ?_, ?_⟩
        · rw [hspec.state]
          simp [pushResults_eq]
        · intro id
          have hids := hspec.ids id
          simp only [List.map_cons, List.count_cons]
          omega
        · intro p hp
          obtain rfl | hp := List.mem_cons.mp hp
          · exact ⟨tc, List.mem_cons_self, hallowed, rfl⟩
          · obtain ⟨tc', hmem, hallowed⟩ := hspec.accepted p hp
            exact ⟨tc', List.mem_cons_of_mem _ hmem, hallowed⟩
        · rw [List.map_cons, List.reduceOption_cons_of_some]
          exact hspec.children.cons_cons _
        · intro _ hnil
          cases hnil
      · cases h

end ChildJobs

/-! ## The routed answer -/

section Routed

variable {cfg : LoopConfig} {rig : Rig} {history : List Message} {choice : List AssistantContent}

theorem findCall_last (results : List ToolResult) {tc : ToolCall}
    (h : FoundById (contentCalls choice) tc) :
    ∃ tc', findCall (history ++ [.assistant choice] ++ resultMessages results) tc.id = some tc' ∧
      tc'.id = tc.id := by
  rw [findCall_append_resultMessages]
  obtain ⟨tc', hfind, hid⟩ := Option.map_eq_some_iff.mp h
  refine ⟨tc', ?_, hid⟩
  unfold findCall
  rw [List.reverse_append, List.reverse_singleton, List.singleton_append, List.flatMap_cons,
    List.find?_append]
  simp [messageCalls, hfind]

theorem accounted_answer {conv : AgentConversationState} {results : List ToolResult}
    (hsaved : Saved rig conv (history ++ [.assistant choice] ++ resultMessages results))
    (hbalanced : (callIds history).Perm (resultIds history))
    (hcount : ∀ id, ((contentCalls choice).map (·.id)).count id =
      (results.map (·.call)).count id + (openIds conv).count id)
    (hfound : ∀ id ∈ openIds conv, ∃ tc, FoundById (contentCalls choice) tc ∧ tc.id = id)
    (hkeyed : Keyed PendingToolCall.childJobId conv.pendingToolCalls) :
    Accounted rig conv := by
  refine ⟨⟨_, hsaved, ?_, ?_⟩, hkeyed⟩
  · rw [List.perm_iff_count]
    intro id
    have hold := hbalanced.count_eq id
    have hnew := hcount id
    have hcalls : callIds [.assistant choice] = (contentCalls choice).map (·.id) := by
      simp [callIds, messageCalls]
    have hresults : resultIds [.assistant choice] = [] := rfl
    simp only [callIds_append, resultIds_append, callIds_resultMessages,
      resultIds_resultMessages, List.append_nil, List.count_append, hcalls, hresults]
    omega
  · intro id hid
    obtain ⟨tc, htc, rfl⟩ := hfound id hid
    exact findCall_last results htc

end Routed

end Stroem.AgentLoop
