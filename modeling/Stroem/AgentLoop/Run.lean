import Stroem.AgentLoop.Routing

/-!
# A codec for messages

Messages in the shape of rig's JSON, objects with their keys sorted: the role of a message, the
`type` of each part of its content.
-/

namespace Stroem.AgentLoop.Codec

def encodeUser : UserContent → Json
  | .text text => .obj [("text", .str text), ("type", .str "text")]
  | .toolResult result => .obj
      [("call", .str result.call), ("name", .str result.name), ("text", .str result.text),
        ("type", .str "toolresult")]

def decodeUser : Json → Option UserContent
  | .obj [(_, .str text), (_, .str _)] => some (.text text)
  | .obj [(_, .str call), (_, .str name), (_, .str text), (_, .str _)] =>
    some (.toolResult ⟨call, name, text⟩)
  | _ => none

def encodeItemId : Option String → Json
  | some itemId => .str itemId
  | none => .null

def decodeItemId : Json → Option String
  | .str itemId => some itemId
  | _ => none

def encodeAssistant : AssistantContent → Json
  | .text text => .obj [("text", .str text)]
  | .toolCall tc => .obj
      [("arguments", tc.arguments), ("id", .str tc.id), ("item_id", encodeItemId tc.itemId),
        ("name", .str tc.name)]
  | .reasoning => .obj []

def decodeAssistant : Json → Option AssistantContent
  | .obj [] => some .reasoning
  | .obj [(_, .str text)] => some (.text text)
  | .obj [(_, arguments), (_, .str id), (_, itemId), (_, .str name)] =>
    some (.toolCall ⟨id, decodeItemId itemId, name, arguments⟩)
  | _ => none

def encode : Message → Json
  | .user content => .obj [("content", .arr (content.map encodeUser)), ("role", .str "user")]
  | .assistant content =>
    .obj [("content", .arr (content.map encodeAssistant)), ("role", .str "assistant")]

def decode : Json → Option Message
  | .obj [(_, .arr content), (_, .str role)] =>
    if role = "user" then (content.mapM decodeUser).map .user
    else (content.mapM decodeAssistant).map .assistant
  | _ => none

private theorem mapM_map {α β : Type} {f : α → β} {g : β → Option α} (h : ∀ a, g (f a) = some a)
    (xs : List α) : (xs.map f).mapM g = some xs := by
  induction xs with
  | nil => rfl
  | cons x xs ih =>
    rw [List.map_cons, List.mapM_cons, h, ih]
    rfl

theorem decodeUser_encodeUser (content : UserContent) :
    decodeUser (encodeUser content) = some content := by
  cases content <;> rfl

theorem decodeAssistant_encodeAssistant (content : AssistantContent) :
    decodeAssistant (encodeAssistant content) = some content := by
  cases content with
  | text text => rfl
  | reasoning => rfl
  | toolCall tc =>
    obtain ⟨id, itemId, name, arguments⟩ := tc
    cases itemId <;> simp [encodeAssistant, decodeAssistant, encodeItemId, decodeItemId]

theorem decode_encode (m : Message) : decode (encode m) = some m := by
  cases m with
  | user content =>
    simp only [encode, decode, if_true, mapM_map decodeUser_encodeUser, Option.map_some]
  | assistant content =>
    have hrole : ("assistant" : String) ≠ "user" := by decide
    simp only [encode, decode, hrole, if_false, mapM_map decodeAssistant_encodeAssistant,
      Option.map_some]

end Codec

def currentRig : Rig :=
  ⟨Codec.encode, Codec.decode, id, Codec.decode_encode, fun _ => rfl⟩

end Stroem.AgentLoop

/-!
# Runs of an agent step

Between its suspensions an agent step keeps a conversation that is accounted for, as long as every
answer is one the loop can route.  So every completion request is paired, and a step that waits
for child jobs has one to wait for.
-/

namespace Stroem.AgentLoop

open Foundation Engine

/-! ## What is asked of every state -/

def nextRequest (cfg : LoopConfig) (rig : Rig) (s : AgentStep) : Option (List Message) :=
  match s.phase, s.conv with
  | .looping, some conv =>
    if cfg.turnLimit < conv.turn + 1 then none
    else some (requestMessages cfg rig { conv with turn := conv.turn + 1 })
  | _, _ => none

structure WellPaired (cfg : LoopConfig) (rig : Rig) (s : AgentStep) : Prop where
  request : ∀ history, nextRequest cfg rig s = some history → Paired history
  child : ∀ conv, s.phase = .waitingForTools → s.conv = some conv → conv.pendingToolCalls ≠ []

def routes (cfg : LoopConfig) (s : AgentStep) : Event → Prop
  | .turn t =>
    match s.conv, t.response with
    | some conv, some choice =>
      t.cancelled = false → conv.turn < cfg.turnLimit →
        Routable cfg t.saved (contentCalls choice)
    | _, _ => True
  | _ => True

instance (cfg : LoopConfig) (s : AgentStep) (e : Event) : Decidable (routes cfg s e) := by
  unfold routes
  split
  · split <;> infer_instance
  · infer_instance

/-! ## The invariant -/

def Sound (rig : Rig) (s : AgentStep) : Prop :=
  match s.phase, s.conv with
  | .ready, none => True
  | .ready, some conv =>
    Accounted rig conv ∧ conv.pendingToolCalls = [] ∧ conv.askUserCall = none
  | .looping, some conv => Accounted rig conv ∧ openIds conv = []
  | .waitingForTools, some conv =>
    Accounted rig conv ∧ conv.pendingToolCalls ≠ [] ∧ conv.askUserCall = none
  | .suspended, some conv =>
    Accounted rig conv ∧ conv.pendingToolCalls = [] ∧ conv.askUserCall ≠ none
  | .ended, _ => True
  | _, none => False

theorem openIds_eq_nil {conv : AgentConversationState} :
    openIds conv = [] ↔ conv.pendingToolCalls = [] ∧ conv.askUserCall = none ∧
      conv.resolvedToolResults = [] := by
  simp [openIds]

theorem Sound.wellPaired {cfg : LoopConfig} {rig : Rig} {s : AgentStep} (h : Sound rig s) :
    WellPaired cfg rig s := by
  obtain ⟨phase, conv⟩ := s
  refine ⟨?_, ?_⟩
  · intro history hnext
    unfold nextRequest at hnext
    split at hnext
    · rename_i conv hphase hconv
      dsimp only at hphase hconv
      subst hphase hconv
      split at hnext
      · cases hnext
      · cases hnext
        exact h.1.request_paired h.2
    · cases hnext
  · intro conv hphase hconv
    dsimp only at hphase hconv
    subst hphase hconv
    exact h.2.1

/-! ## A turn -/

section Turn

variable {cfg : LoopConfig} {rig : Rig} {history : List Message} {choice : List AssistantContent}

def answered (cfg : LoopConfig) (t : Turn) (calls : List ToolCall) : List ToolResult :=
  (callsOf cfg .unknown calls).map unknownResult ++
    (callsOf cfg .mcp calls).map fun tc => toolResultText tc (t.mcpResult tc)

variable (cfg) in
theorem count_answered (t : Turn) (calls : List ToolCall) (id : String) :
    (calls.map (·.id)).count id = ((answered cfg t calls).map (·.call)).count id +
      ((callsOf cfg .askUser calls).map (·.id)).count id +
      ((callsOf cfg .task calls).map (·.id)).count id := by
  have hkinds := count_callIds_kinds cfg calls id
  have hunknown : (fun result : ToolResult => result.call) ∘ unknownResult = (·.id) := rfl
  have hmcp : ((fun result : ToolResult => result.call) ∘
      fun tc => toolResultText tc (t.mcpResult tc)) = (·.id) := rfl
  simp only [answered, List.map_append, List.map_map, hunknown, hmcp, List.count_append]
  omega

theorem routeCalls_eq (t : Turn) (conv : AgentConversationState) (calls : List ToolCall) :
    routeCalls cfg rig t conv calls =
      let conv := pushResults rig conv (answered cfg t calls)
      match (callsOf cfg .askUser calls).getLast? with
      | some tc =>
        if cfg.interactive then
          let message := askUserMessage tc
          let conv := { conv with
            suspendedForAskUser := true
            askUserCall := some ⟨tc.id, message⟩ }
          if t.saved then .waitingForUser conv message else .error
        else .next (pushResult rig conv (toolResultText tc askUserNotInteractive))
      | none =>
        if (callsOf cfg .task calls).isEmpty then .next conv
        else
          match createTaskJobs cfg rig (callsOf cfg .task calls) t.childJobs conv with
          | none => .error
          | some conv => if t.saved then .waitingForTools conv else .error := by
  have hmcp : ∀ conv, (callsOf cfg .mcp calls).foldl
      (fun conv tc => pushResult rig conv (toolResultText tc (t.mcpResult tc))) conv =
        pushResults rig conv
          ((callsOf cfg .mcp calls).map fun tc => toolResultText tc (t.mcpResult tc)) := by
    intro conv
    rw [pushResults, List.foldl_map]
  unfold routeCalls
  rw [foldl_push]
  simp only [List.nil_append, Option.or_none, hmcp, ← pushResults_append]
  rfl

@[simp] theorem openIds_pushResults (conv : AgentConversationState) (results : List ToolResult) :
    openIds (pushResults rig conv results) = openIds conv := by
  rw [pushResults_eq]
  rfl

theorem pushResults_concat (conv : AgentConversationState) (results : List ToolResult)
    (result : ToolResult) : pushResult rig (pushResults rig conv results) result =
      pushResults rig conv (results ++ [result]) := by
  rw [pushResults_append]
  rfl

variable {conv : AgentConversationState} {t : Turn}

private theorem answer_next (hsaved : Saved rig conv (history ++ [.assistant choice]))
    (hbalanced : (callIds history).Perm (resultIds history)) (hopen : openIds conv = [])
    {results : List ToolResult}
    (hcount : ∀ id, ((contentCalls choice).map (·.id)).count id =
      (results.map (·.call)).count id) :
    Sound rig ⟨.looping, some (pushResults rig conv results)⟩ := by
  have hnone : openIds (pushResults rig conv results) = [] := by
    rw [openIds_pushResults, hopen]
  refine ⟨accounted_answer (hsaved.pushResults results) hbalanced ?_ ?_ ?_, hnone⟩
  · intro id
    rw [hcount id, hnone]
    rfl
  · intro id hid
    rw [hnone] at hid
    cases hid
  · rw [(openIds_eq_nil.mp hnone).1]
    exact List.nodup_nil

private theorem answer_ask (hsaved : Saved rig conv (history ++ [.assistant choice]))
    (hbalanced : (callIds history).Perm (resultIds history)) (hopen : openIds conv = [])
    {results : List ToolResult} {ask : ToolCall} (hask : FoundById (contentCalls choice) ask)
    (hcount : ∀ id, ((contentCalls choice).map (·.id)).count id =
      (results.map (·.call)).count id + [ask.id].count id) (message : String) :
    Sound rig ⟨.suspended, some { pushResults rig conv results with
      suspendedForAskUser := true
      askUserCall := some ⟨ask.id, message⟩ }⟩ := by
  obtain ⟨hpending, -, hresolved⟩ := openIds_eq_nil.mp hopen
  have hstate := pushResults_eq rig conv results
  have hids : openIds { pushResults rig conv results with
      suspendedForAskUser := true
      askUserCall := some ⟨ask.id, message⟩ } = [ask.id] := by
    simp [openIds, hstate, hpending, hresolved]
  have hpending' : (pushResults rig conv results).pendingToolCalls = [] := by
    rw [hstate, hpending]
  refine ⟨accounted_answer (hsaved.pushResults results) hbalanced ?_ ?_ ?_, hpending', by simp⟩
  · intro id
    rw [hcount id, hids]
  · intro id hid
    rw [hids, List.mem_singleton] at hid
    exact ⟨ask, hask, hid.symm⟩
  · show Keyed _ (pushResults rig conv results).pendingToolCalls
    rw [hpending']
    exact List.nodup_nil

private theorem answer_tasks (hsaved : Saved rig conv (history ++ [.assistant choice]))
    (hbalanced : (callIds history).Perm (resultIds history)) (hopen : openIds conv = [])
    {results : List ToolResult} {tasks : List ToolCall} {conv' : AgentConversationState}
    (hcreate : createTaskJobs cfg rig tasks t.childJobs (pushResults rig conv results) =
      some conv')
    (hfresh : t.childJobs.reduceOption.Nodup)
    (hsome : ∃ tc ∈ tasks, allowedTask cfg tc)
    (hfound : ∀ tc ∈ tasks, allowedTask cfg tc → FoundById (contentCalls choice) tc)
    (hcount : ∀ id, ((contentCalls choice).map (·.id)).count id =
      (results.map (·.call)).count id + (tasks.map (·.id)).count id) :
    Sound rig ⟨.waitingForTools, some conv'⟩ := by
  obtain ⟨rejected, added, hspec⟩ := createTaskJobs_spec hcreate
  obtain ⟨hpending, hask, hresolved⟩ := openIds_eq_nil.mp hopen
  have hstate : conv' = { pushResults rig conv (results ++ rejected) with
      pendingToolCalls := added } := by
    rw [hspec.state, pushResults_append]
    simp [pushResults_eq, hpending]
  have hids : openIds conv' = added.map (·.toolCallId) := by
    simp [hstate, openIds, pushResults_eq, hask, hresolved]
  have hadded : conv'.pendingToolCalls = added := by rw [hstate]
  have hsaved' : Saved rig conv'
      (history ++ [.assistant choice] ++ resultMessages (results ++ rejected)) := by
    rw [hstate]
    exact hsaved.pushResults (results ++ rejected)
  refine ⟨accounted_answer hsaved' hbalanced ?_ ?_ ?_, ?_, ?_⟩
  · intro id
    have htasks := hspec.ids id
    have hcalls := hcount id
    rw [hids, List.map_append, List.count_append]
    omega
  · intro id hid
    rw [hids] at hid
    obtain ⟨p, hp, rfl⟩ := List.mem_map.mp hid
    obtain ⟨tc, hmem, hallowed, hcall⟩ := hspec.accepted p hp
    exact ⟨tc, hfound tc hmem hallowed, hcall⟩
  · rw [hadded]
    exact hspec.children.nodup hfresh
  · rw [hadded]
    exact hspec.some_added hsome
  · rw [hstate]
    simp [pushResults_eq, hask]

theorem routeCalls_sound {s : AgentStep} (hsaved : Saved rig conv (history ++ [.assistant choice]))
    (hbalanced : (callIds history).Perm (resultIds history)) (hopen : openIds conv = [])
    (hroutable : Routable cfg t.saved (contentCalls choice))
    (hfresh : t.childJobs.reduceOption.Nodup) :
    Sound rig (s.afterTurn (routeCalls cfg rig t conv (contentCalls choice))) := by
  have hcount := count_answered cfg t (contentCalls choice)
  rw [routeCalls_eq]
  dsimp only
  unfold Routable at hroutable
  split at hroutable
  · rename_i hasks htasks
    rw [hasks, htasks]
    refine answer_next hsaved hbalanced hopen fun id => ?_
    simpa [hasks, htasks] using hcount id
  · rename_i task tasks hasks htasks
    rw [hasks, htasks]
    rw [hasks, htasks] at hcount
    dsimp only [List.getLast?_nil, List.isEmpty_cons, Bool.false_eq_true]
    cases hcreate : createTaskJobs cfg rig (task :: tasks) t.childJobs
        (pushResults rig conv (answered cfg t (contentCalls choice))) with
    | none => trivial
    | some conv' =>
      cases hsave : t.saved with
      | false => trivial
      | true =>
        obtain ⟨hsome, hfound⟩ := hroutable hsave
        exact answer_tasks hsaved hbalanced hopen hcreate hfresh hsome hfound hcount
  · rename_i ask hasks htasks
    rw [hasks, htasks] at hcount
    rw [hasks]
    dsimp only [List.getLast?_singleton]
    cases hinteractive : cfg.interactive with
    | false =>
      -- the call is refused, and the loop goes on
      simp only [Bool.false_eq_true, if_false, pushResults_concat]
      refine answer_next hsaved hbalanced hopen fun id => ?_
      simpa [toolResultText] using hcount id
    | true =>
      cases hsave : t.saved with
      | false => trivial
      | true =>
        exact answer_ask hsaved hbalanced hopen (hroutable hinteractive hsave)
          (fun id => by simpa using hcount id) _
  · rename_i hnone htasks hone
    obtain ⟨hinteractive, hsave⟩ := hroutable
    cases hasks : callsOf cfg .askUser (contentCalls choice) with
    | nil =>
      cases htask : callsOf cfg .task (contentCalls choice) with
      | nil => exact absurd htask (hnone hasks)
      | cons task tasks => exact absurd htask (htasks task tasks hasks)
    | cons ask asks =>
      rw [List.getLast?_cons, hinteractive, hsave]
      trivial

theorem runTurn_sound {s : AgentStep} (hconv : Accounted rig conv) (hopen : openIds conv = [])
    (hroutes : ∀ choice, t.response = some choice → t.cancelled = false →
      conv.turn < cfg.turnLimit → Routable cfg t.saved (contentCalls choice))
    (hfresh : t.childJobs.reduceOption.Nodup) :
    Sound rig (s.afterTurn (runTurn cfg rig t conv)) := by
  obtain ⟨⟨history, hsaved, hperm, -⟩, -⟩ := hconv
  rw [hopen, List.append_nil] at hperm
  unfold runTurn
  dsimp only
  split
  · trivial
  · rename_i hcancelled
    split
    · trivial
    · rename_i hturn
      cases hresponse : t.response with
      | none => trivial
      | some choice =>
        have hroutable := hroutes choice hresponse (by simpa using hcancelled) (by omega)
        dsimp only
        split
        · split <;> trivial
        · split
          · -- the prompt goes into the history before the first answer
            have hprompt := hsaved.push (.user [.text cfg.prompt])
            refine routeCalls_sound (hprompt.push (.assistant choice)) ?_ hopen hroutable hfresh
            simpa [callIds, resultIds, messageCalls, messageResults] using hperm
          · exact routeCalls_sound (hsaved.push (.assistant choice)) hperm hopen hroutable hfresh

/-! ## The steps between -/

theorem accounted_injectResult {p : PendingToolCall} (text : String) (h : Accounted rig conv)
    (hp : p ∈ conv.pendingToolCalls) : Accounted rig (injectResult text p.childJobId conv) := by
  obtain ⟨⟨history, hsaved, hperm, hfound⟩, hkeyed⟩ := h
  have hids : (openIds (injectResult text p.childJobId conv)).Perm (openIds conv) := by
    have herase := (hkeyed.perm_eraseP hp).map (·.toolCallId)
    unfold openIds
    rw [injectResult_pending text hkeyed hp, injectResult_resolved text hkeyed hp,
      injectResult_askUserCall text]
    rw [List.perm_iff_count] at herase ⊢
    intro id
    have hcount := herase id
    simp only [List.map_cons, List.count_cons, List.map_append, List.count_append, List.map_nil,
      List.count_nil] at hcount ⊢
    omega
  refine ⟨⟨history, ?_, ?_, ?_⟩, keyed_injectResult text hkeyed hp⟩
  · rw [Saved, injectResult_messages text]
    exact hsaved
  · exact hperm.trans (hids.symm.append_left _)
  · exact fun id hid => hfound id (hids.mem_iff.mp hid)

theorem accounted_approve (response : String) (h : Accounted rig conv)
    (hask : conv.askUserCall ≠ none) : Accounted rig (approveAskUser response conv) := by
  obtain ⟨⟨history, hsaved, hperm, hfound⟩, hkeyed⟩ := h
  obtain ⟨ask, hsome⟩ := Option.ne_none_iff_exists'.mp hask
  have hids : (openIds (approveAskUser response conv)).Perm (openIds conv) := by
    unfold openIds approveAskUser
    rw [List.perm_iff_count]
    intro id
    simp only [hsome, Option.map_some, Option.map_none, Option.getD_some, Option.toList_some,
      Option.toList_none, List.map_append, List.map_cons, List.map_nil, List.count_append,
      List.count_nil]
    omega
  exact ⟨⟨history, hsaved, hperm.trans (hids.symm.append_left _),
    fun id hid => hfound id (hids.mem_iff.mp hid)⟩, hkeyed⟩

end Turn

/-! ## Runs -/

section Runs

variable {cfg : LoopConfig} {rig : Rig}

theorem step_sound {s s' : AgentStep} {e : Event} (h : Sound rig s) (hroutes : routes cfg s e)
    (hstep : step cfg rig s e = some s') : Sound rig s' := by
  obtain ⟨phase, conv⟩ := s
  cases e with
  | claim =>
    simp only [step] at hstep
    split at hstep
    · rename_i hphase
      cases hstep
      subst hphase
      cases conv with
      | none =>
        have hupgrade : rig.upgrade [] = [] := rig.upgrade_current []
        refine ⟨⟨⟨[], ?_, ?_, ?_⟩, List.nodup_nil⟩, rfl⟩
        · exact hupgrade
        · exact List.Perm.nil
        · intro id hid
          cases hid
      | some conv => exact resume_accounted h.1 h.2.1 h.2.2
    · cases hstep
  | turn t =>
    simp only [step] at hstep
    split at hstep
    · rename_i conv
      split at hstep
      · rename_i hfresh
        cases hstep
        refine runTurn_sound h.1 h.2 (fun choice hchoice => ?_)
          (List.nodup_append.mp hfresh).1
        simpa [routes, hchoice] using hroutes
      · cases hstep
    · cases hstep
  | childSettled childJobId text =>
    simp only [step] at hstep
    split at hstep
    · rename_i conv
      split at hstep
      · rename_i hany
        obtain ⟨p, hp, hchild⟩ := List.any_eq_true.mp hany
        obtain rfl : p.childJobId = childJobId := by simpa using hchild
        cases hstep
        have haccounted := accounted_injectResult text h.1 hp
        have hask : (injectResult text p.childJobId conv).askUserCall = none := by
          rw [injectResult_askUserCall text, h.2.2]
        cases hresolved : (injectResult text p.childJobId conv).allToolCallsResolved with
        | true => exact ⟨haccounted, List.isEmpty_iff.mp hresolved, hask⟩
        | false => exact ⟨haccounted, List.isEmpty_eq_false_iff.mp hresolved, hask⟩
      · cases hstep
    · cases hstep
  | approve response =>
    simp only [step] at hstep
    split at hstep
    · rename_i conv
      cases hstep
      exact ⟨accounted_approve response h.1 h.2.2, h.2.1, rfl⟩
    · cases hstep
  | retry =>
    simp only [step] at hstep
    split at hstep
    · cases hstep
      trivial
    · cases hstep

/--
In every run whose answers the loop can route, every request is paired and a step that waits for
tools has a pending child job.
-/
theorem conversations_wellPaired (cfg : LoopConfig) (rig : Rig) (events : List Event)
    (hroutes : Meets (step cfg rig) (routes cfg) .start events) (s : AgentStep)
    (hrun : exec (step cfg rig) .start events = some s) : WellPaired cfg rig s := by
  have hstart : Sound rig .start := trivial
  exact (exec_invariant (Sound rig) (fun _ _ _ => step_sound) hstart hroutes hrun).wellPaired

end Runs

/-! ## An answer with two kinds of calls -/

def deployAgent : LoopConfig :=
  ⟨true, [.task "deploy"], none, ["deploy"], none, "Deploy it"⟩

def askCall : ToolCall :=
  ⟨"call_1", none, "ask_user", .obj [("message", .str "Which one?")]⟩

def deployCall : ToolCall :=
  ⟨"call_2", none, "strom_task_deploy", .obj []⟩

def answerWith (calls : List ToolCall) : Turn where
  cancelled := false
  response := some (calls.map .toolCall)
  inputTokens := 10
  outputTokens := 5
  finalOutput := true
  mcpResult _ := ""
  childJobs := [some 7]
  saved := true

def deployEvents : List Event :=
  [.claim, .turn (answerWith [deployCall]), .childSettled 7 "done", .claim,
    .turn (answerWith [askCall]), .approve "the first", .claim]

theorem conversations_wellPaired_deployAgent :
    ∃ s, exec (step deployAgent currentRig) .start deployEvents = some s ∧
      WellPaired deployAgent currentRig s := by
  have hroutes : Meets (step deployAgent currentRig) (routes deployAgent) .start deployEvents := by
    decide +kernel
  exact ⟨_, rfl, conversations_wellPaired deployAgent currentRig deployEvents hroutes _ rfl⟩

/-- A question next to a task call: the task call is never answered. -/
theorem ask_user_drops_task_call :
    ∃ s, exec (step deployAgent currentRig) .start
        [.claim, .turn (answerWith [askCall, deployCall]), .approve "the first", .claim] = some s ∧
      ¬ WellPaired deployAgent currentRig s := by
  refine ⟨_, rfl, fun h => ?_⟩
  have hcount := h.request _ rfl "call_2"
  revert hcount
  decide +kernel

end Stroem.AgentLoop
