import Stroem.Engine.Absorbing
import Stroem.Engine.Propagate

/-!
# The tool calls of an agent step

A worker creates one child job per tool call and then saves the conversation state that registers
them.  Every settled child propagates once by its own terminal handling; after the save,
`agent_children_registered` goes over the pending calls and propagates the children that settled
before they were registered.  A result is lost when a propagation writes over a state it has not
read.
-/

namespace Stroem.Engine

open Foundation JobStepRepo JobRepo

structure Injection where
  child : Uuid
  read : AgentConversationState
  new : AgentConversationState
  deriving DecidableEq

inductive Registration where
  | unsaved
  | saved
  | replaying (left : List PendingToolCall)
  deriving DecidableEq

namespace Registration

def passed (p : PendingToolCall) : Registration → Prop
  | .unsaved | .saved => False
  | .replaying left => p ∉ left

end Registration

structure Round where
  row : JobStepRow
  children : List ChildJob
  registration : Registration := .unsaved
  handled : List Uuid := []
  writing : List Injection := []
  readying : Nat := 0
  readied : Nat := 0

inductive RoundAction where
  | childWrite (child : Uuid) (now : Time) (write : JobWrite)
  | save
  | loadRegistered
  | replayNext (now : Time)
  | propagate (child : Uuid) (now : Time)
  | write (injection : Injection)
  | markReady (now : Time)
  | reclaim (worker : Worker) (now : Time)

def findChild (children : List ChildJob) (id : Uuid) : Option ChildJob :=
  children.find? (·.jobId == id)

namespace Round

def child? (s : Round) (id : Uuid) : Option ChildJob :=
  findChild s.children id

def Settled (s : Round) (id : Uuid) : Prop :=
  ∃ child, s.child? id = some child ∧ child.job.status.isTerminal = true

instance (s : Round) (id : Uuid) : Decidable (s.Settled id) :=
  decidable_of_iff ((s.child? id).any fun child => child.job.status.isTerminal)
    (by simp [Settled, Option.any_eq_true])

def saveState (s : Round) (state : AgentConversationState) : JobStepRow :=
  (updateAgentState s.row.stepName (.conversation state)).onRow s.row

@[simp] theorem saveState_status (s : Round) (state : AgentConversationState) :
    (s.saveState state).status = s.row.status := by
  simp [saveState, Update.onRow, updateAgentState]

@[simp] theorem saveState_agentState (s : Round) (state : AgentConversationState) :
    (s.saveState state).agentState = some (.conversation state) := by
  simp [saveState, Update.onRow, updateAgentState]

def startPropagation (toJson : Json → String) (now : Time) (child : ChildJob) (s : Round) :
    Round :=
  match propagate toJson child s.row.stepName [s.row] with
  | .deferred => s
  | .inject read new => { s with writing := ⟨child.jobId, read, new⟩ :: s.writing }
  | .finishStep w => { s with row := (rowsAfter now .running [s.row] w).headD s.row }

def act (toJson : Json → String) (conv : AgentConversationState) (s : Round) :
    RoundAction → Option Round
  | .childWrite id now w =>
    -- a registered child was created, so its creation is not compensated any more
    if w = .markFailed then none
    else some { s with
      children := s.children.map fun c =>
        if c.jobId = id then { c with job := jobAfter now c.job w } else c }
  | .save =>
    match s.registration with
    | .unsaved => some { s with row := s.saveState conv, registration := .saved }
    | _ => none
  | .loadRegistered =>
    match s.registration, s.row.agentState with
    | .saved, some (.conversation state) =>
      some { s with registration := .replaying state.pendingToolCalls }
    | .saved, _ => some { s with registration := .replaying [] }
    | _, _ => none
  | .replayNext now =>
    match s.registration with
    | .replaying (p :: left) =>
      let next := { s with registration := .replaying left }
      match s.child? p.childJobId with
      | some child =>
        if child.job.status.isTerminal then some (next.startPropagation toJson now child)
        else some next
      | none => some next
    | _ => none
  | .propagate id now =>
    match s.child? id with
    | some child =>
      if child.job.status.isTerminal then
        let next := { s with handled := id :: s.handled }
        some (next.startPropagation toJson now child)
      else none
    | none => none
  | .write injection =>
    if injection ∈ s.writing then
      some { s with
        row := s.saveState injection.new
        writing := s.writing.erase injection
        readying :=
          if injection.new.allToolCallsResolved then s.readying + 1 else s.readying }
    else none
  | .markReady now =>
    let update := reReadyAgentStep s.row.stepName .running now
    if s.readying = 0 then none
    else some { s with
      row := update.onRow s.row
      readying := s.readying - 1
      readied := if update.guard s.row then s.readied + 1 else s.readied }
  | .reclaim worker now =>
    some { s with row := (claimReadyStep worker s.row.stepName now).onRow s.row }

end Round

/--
A propagation writes over the state it read, or over what it writes itself, and no worker is
handed the step while a propagation is under way.
-/
def Serial (s : Round) : RoundAction → Prop
  | .write injection =>
    s.row.agentState = some (.conversation injection.read) ∨
      s.row.agentState = some (.conversation injection.new)
  | .reclaim worker now =>
    (claimReadyStep worker s.row.stepName now).guard s.row = true →
      s.writing = [] ∧ s.readying = 0
  | _ => True

instance (s : Round) : (a : RoundAction) → Decidable (Serial s a)
  | .write _ => inferInstanceAs (Decidable (_ ∨ _))
  | .reclaim _ _ => inferInstanceAs (Decidable (_ → _))
  | .childWrite _ _ _ | .save | .loadRegistered | .replayNext _ | .propagate _ _
  | .markReady _ => .isTrue trivial

/-! ## What is owed to the conversation -/

section Delivery

variable (toJson : Json → String) (conv : AgentConversationState)

structure Starts (s : Round) : Prop where
  unsaved : s.registration = .unsaved
  idle : s.handled = [] ∧ s.writing = [] ∧ s.readying = 0 ∧ s.readied = 0
  running : s.row.status = .running
  agentTools : ∀ c ∈ s.children, c.sourceType = "agent_tool"
  earlier : s.row.agentState = none ∨ ∃ old, s.row.agentState = some (.conversation old) ∧
    ∀ c ∈ s.children, ∀ p ∈ old.pendingToolCalls, p.childJobId ≠ c.jobId
  keyed : Keyed PendingToolCall.childJobId conv.pendingToolCalls
  registers : conv.pendingToolCalls ≠ []

def Delivered (s : Round) (state : AgentConversationState) (p : PendingToolCall) : Prop :=
  ∃ child, s.child? p.childJobId = some child ∧ child.job.status.isTerminal = true ∧
    ⟨p.toolCallId, toolResultText toJson child.job⟩ ∈ state.resolvedToolResults

structure Computed (children : List ChildJob) (injection : Injection) : Prop where
  keyed : Keyed PendingToolCall.childJobId injection.read.pendingToolCalls
  pending : ∃ p ∈ injection.read.pendingToolCalls, p.childJobId = injection.child
  new : ∃ child, findChild children injection.child = some child ∧
    child.job.status.isTerminal = true ∧ injection.new =
      injectResult (toolResultText toJson child.job) injection.child injection.read

def Owed (s : Round) (p : PendingToolCall) : Prop :=
  p.childJobId ∉ s.handled ∨ (∃ injection ∈ s.writing, injection.child = p.childJobId) ∨
    (s.Settled p.childJobId ∧ ¬ s.registration.passed p)

structure Recorded (s : Round) (state : AgentConversationState) : Prop where
  keyed : Keyed PendingToolCall.childJobId state.pendingToolCalls
  registered : ∀ p ∈ state.pendingToolCalls, p ∈ conv.pendingToolCalls
  delivered : ∀ p ∈ conv.pendingToolCalls,
    p ∈ state.pendingToolCalls ∨ Delivered toJson s state p
  kept : ∀ result ∈ conv.resolvedToolResults, result ∈ state.resolvedToolResults
  computed : ∀ injection ∈ s.writing, Computed toJson s.children injection
  waiting : state.pendingToolCalls ≠ [] →
    s.readied = 0 ∧ s.row.status = .running ∧ s.readying = 0
  released : state.pendingToolCalls = [] →
    (s.readied = 0 ∧ s.row.status = .running ∧ 0 < s.readying) ∨
      (s.readied = 1 ∧ (s.row.status = .ready ∨ s.writing = [] ∧ s.readying = 0))

structure Unregistered (s : Round) : Prop where
  earlier : s.row.agentState = none ∨ ∃ old, s.row.agentState = some (.conversation old) ∧
    ∀ c ∈ s.children, ∀ p ∈ old.pendingToolCalls, p.childJobId ≠ c.jobId
  idle : s.writing = [] ∧ s.readying = 0 ∧ s.readied = 0
  running : s.row.status = .running

structure Delivering (s : Round) : Prop where
  agentTools : ∀ c ∈ s.children, c.sourceType = "agent_tool"
  handled : ∀ id ∈ s.handled, s.Settled id
  unsaved : s.registration = .unsaved → Unregistered s
  saved : s.registration ≠ .unsaved → ∃ state,
    s.row.agentState = some (.conversation state) ∧ Recorded toJson conv s state ∧
      ∀ p ∈ state.pendingToolCalls, Owed s p

end Delivery

section Steps

variable {toJson : Json → String} {conv state : AgentConversationState} {s t : Round}

variable {child : ChildJob}

theorem Round.jobId_of_child? {id : Uuid} (h : s.child? id = some child) :
    child ∈ s.children ∧ child.jobId = id :=
  ⟨List.mem_of_find?_eq_some h, by simpa using List.find?_some h⟩

def Round.KeepsSettled (s t : Round) : Prop :=
  ∀ id child, s.child? id = some child → child.job.status.isTerminal = true →
    t.child? id = some child

theorem Round.Settled.mono {id : Uuid} (h : s.Settled id) (hkeeps : s.KeepsSettled t) :
    t.Settled id := by
  obtain ⟨child, hchild, hterm⟩ := h
  exact ⟨child, hkeeps id child hchild hterm, hterm⟩

theorem Delivered.mono {p : PendingToolCall} (h : Delivered toJson s state p)
    (hkeeps : s.KeepsSettled t) : Delivered toJson t state p := by
  obtain ⟨child, hchild, hterm, hresult⟩ := h
  exact ⟨child, hkeeps _ child hchild hterm, hterm, hresult⟩

variable {injection : Injection}

theorem Computed.mono (h : Computed toJson s.children injection) (hkeeps : s.KeepsSettled t) :
    Computed toJson t.children injection := by
  obtain ⟨child, hchild, hterm, hnew⟩ := h.new
  exact ⟨h.keyed, h.pending, child, hkeeps _ child hchild hterm, hterm, hnew⟩

/-! ### The first half of a propagation -/

theorem Round.startPropagation_unregistered (h : Unregistered s) (hchild : child ∈ s.children)
    (hagent : child.sourceType = "agent_tool") (now : Time) :
    s.startPropagation toJson now child = s := by
  rcases h.earlier with hnone | ⟨old, hold, hnew⟩
  · simp [startPropagation, propagate, hagent, hnone]
  · have hany : old.pendingToolCalls.any (·.childJobId == child.jobId) = false := by
      simpa [List.any_eq_false] using hnew child hchild
    simp [startPropagation, propagate, hagent, hold, hany]

theorem Round.startPropagation_registered
    (hstate : s.row.agentState = some (.conversation state))
    (hagent : child.sourceType = "agent_tool") (now : Time) :
    s.startPropagation toJson now child =
      if state.pendingToolCalls.any (·.childJobId == child.jobId) then
        { s with writing :=
            ⟨child.jobId, state,
              injectResult (toolResultText toJson child.job) child.jobId state⟩ :: s.writing }
      else s := by
  cases hany : state.pendingToolCalls.any (·.childJobId == child.jobId) with
  | true | false => simp [startPropagation, propagate, hagent, hstate, hany]

theorem Delivering.start (hagent : ∀ c ∈ s.children, c.sourceType = "agent_tool")
    (hhandled : ∀ id ∈ s.handled, s.Settled id) (hsaved : s.registration ≠ .unsaved)
    (hstate : s.row.agentState = some (.conversation state))
    (hrecorded : Recorded toJson conv s state) (hchild : s.child? child.jobId = some child)
    (hterm : child.job.status.isTerminal = true)
    (howed : ∀ p ∈ state.pendingToolCalls, p.childJobId ≠ child.jobId → Owed s p) (now : Time) :
    Delivering toJson conv (s.startPropagation toJson now child) := by
  have hmem := (Round.jobId_of_child? hchild).1
  rw [Round.startPropagation_registered hstate (hagent child hmem)]
  split
  case isTrue hany =>
    obtain ⟨p, hp, hpid⟩ := List.any_eq_true.mp hany
    have hcomputed : Computed toJson s.children ⟨child.jobId, state,
        injectResult (toolResultText toJson child.job) child.jobId state⟩ :=
      ⟨hrecorded.keyed, ⟨p, hp, by simpa using hpid⟩, child, hchild, hterm, rfl⟩
    refine ⟨hagent, hhandled, fun h => absurd h hsaved, fun _ => ⟨state, hstate, ?_, ?_⟩⟩
    · refine ⟨hrecorded.keyed, hrecorded.registered, hrecorded.delivered, hrecorded.kept,
        fun injection hin => ?_,
        hrecorded.waiting, fun hnil => absurd hnil (List.ne_nil_of_mem hp)⟩
      rcases List.mem_cons.mp hin with rfl | hin
      · exact hcomputed
      · exact hrecorded.computed injection hin
    · intro q hq
      by_cases hqid : q.childJobId = child.jobId
      · exact .inr (.inl ⟨_, List.mem_cons_self, hqid.symm⟩)
      · refine (howed q hq hqid).imp id (Or.imp ?_ id)
        rintro ⟨injection, hin, hid⟩
        exact ⟨injection, List.mem_cons_of_mem _ hin, hid⟩
  case isFalse hany =>
    refine ⟨hagent, hhandled, fun h => absurd h hsaved,
      fun _ => ⟨state, hstate, hrecorded, fun q hq => howed q hq fun hqid => hany ?_⟩⟩
    exact List.any_eq_true.mpr ⟨q, hq, by simpa using hqid⟩

/-! ### The second half -/

theorem Computed.not_pending (h : Computed toJson s.children injection) {q : PendingToolCall}
    (hq : q ∈ injection.new.pendingToolCalls) :
    q ∈ injection.read.pendingToolCalls ∧ q.childJobId ≠ injection.child := by
  obtain ⟨p, hp, hpid⟩ := h.pending
  obtain ⟨child, -, -, hnew⟩ := h.new
  rw [hnew, ← hpid, mem_injectResult_pending _ h.keyed hp] at hq
  refine ⟨hq.1, fun hqid => hq.2 ?_⟩
  exact h.keyed.eq_of_key hq.1 hp (hqid.trans hpid.symm)

theorem Computed.keyed_new (h : Computed toJson s.children injection) :
    Keyed PendingToolCall.childJobId injection.new.pendingToolCalls := by
  obtain ⟨p, hp, hpid⟩ := h.pending
  obtain ⟨child, -, -, hnew⟩ := h.new
  rw [hnew, ← hpid]
  exact keyed_injectResult _ h.keyed hp

theorem Computed.resolved (h : Computed toJson s.children injection) :
    ∃ p child, p ∈ injection.read.pendingToolCalls ∧ p.childJobId = injection.child ∧
      s.child? injection.child = some child ∧ child.job.status.isTerminal = true ∧
      injection.new.resolvedToolResults = injection.read.resolvedToolResults ++
        [⟨p.toolCallId, toolResultText toJson child.job⟩] := by
  obtain ⟨p, hp, hpid⟩ := h.pending
  obtain ⟨child, hchild, hterm, hnew⟩ := h.new
  refine ⟨p, child, hp, hpid, hchild, hterm, ?_⟩
  rw [hnew, ← hpid, injectResult_resolved _ h.keyed hp]

theorem Recorded.delivered_write (h : Recorded toJson conv s injection.read)
    (hcomputed : Computed toJson s.children injection) :
    ∀ p ∈ conv.pendingToolCalls,
      p ∈ injection.new.pendingToolCalls ∨ Delivered toJson s injection.new p := by
  intro p hp
  obtain ⟨q, child, hq, hqid, hchild, hterm, hresolved⟩ := hcomputed.resolved
  rcases h.delivered p hp with hpending | ⟨child', hchild', hterm', hresult⟩
  · by_cases hpq : p = q
    · subst hpq
      refine .inr ⟨child, by rwa [hqid], hterm, ?_⟩
      rw [hresolved]
      exact List.mem_append_right _ List.mem_cons_self
    · left
      obtain ⟨child, -, -, hnew⟩ := hcomputed.new
      rw [hnew, ← hqid, mem_injectResult_pending _ hcomputed.keyed hq]
      exact ⟨hpending, hpq⟩
  · refine .inr ⟨child', hchild', hterm', ?_⟩
    rw [hresolved]
    exact List.mem_append_left _ hresult

theorem Recorded.write (h : Recorded toJson conv s state) (hin : injection ∈ s.writing)
    (hserial : state = injection.read ∨ state = injection.new) (ht : t = { s with
      row := s.saveState injection.new
      writing := s.writing.erase injection
      readying := if injection.new.allToolCallsResolved then s.readying + 1 else s.readying }) :
    Recorded toJson conv t injection.new := by
  have hcomputed := h.computed injection hin
  subst ht
  refine ⟨hcomputed.keyed_new, fun q hq => h.registered q ?_, ?_, ?_,
    fun injection' hin' => ?_, fun hpending => ?_, fun hnil => ?_⟩
  · rcases hserial with rfl | rfl
    · exact (hcomputed.not_pending hq).1
    · exact hq
  · rcases hserial with rfl | rfl
    · exact h.delivered_write hcomputed
    · exact h.delivered
  · rcases hserial with rfl | rfl
    · obtain ⟨p, child, -, -, -, -, hresolved⟩ := hcomputed.resolved
      intro result hresult
      rw [hresolved]
      exact List.mem_append_left _ (h.kept result hresult)
    · exact h.kept
  · exact h.computed injection' (List.mem_of_mem_erase hin')
  · have hwaiting : s.readied = 0 ∧ s.row.status = .running ∧ s.readying = 0 := by
      rcases hserial with rfl | rfl
      · obtain ⟨p, hp, -⟩ := hcomputed.pending
        exact h.waiting (List.ne_nil_of_mem hp)
      · exact h.waiting hpending
    simpa [AgentConversationState.allToolCallsResolved, hpending] using hwaiting
  · have hresolved : injection.new.allToolCallsResolved = true := by
      simp [AgentConversationState.allToolCallsResolved, hnil]
    simp only [hresolved, if_true, Round.saveState_status]
    rcases hserial with rfl | rfl
    · obtain ⟨p, hp, -⟩ := hcomputed.pending
      obtain ⟨hreadied, hrunning, -⟩ := h.waiting (List.ne_nil_of_mem hp)
      exact .inl ⟨hreadied, hrunning, Nat.succ_pos _⟩
    · -- another propagation of the same child was faster; the step is not claimed meanwhile
      rcases h.released hnil with ⟨hreadied, hrunning, -⟩ | ⟨hreadied, hready | ⟨hnone, -⟩⟩
      · exact .inl ⟨hreadied, hrunning, Nat.succ_pos _⟩
      · exact .inr ⟨hreadied, .inl hready⟩
      · rw [hnone] at hin
        cases hin

theorem Delivering.write (h : Delivering toJson conv s) (hin : injection ∈ s.writing)
    (hok : Serial s (.write injection)) (ht : t = { s with
      row := s.saveState injection.new
      writing := s.writing.erase injection
      readying := if injection.new.allToolCallsResolved then s.readying + 1 else s.readying }) :
    Delivering toJson conv t := by
  have hsaved : s.registration ≠ .unsaved := by
    intro hunsaved
    rw [(h.unsaved hunsaved).idle.1] at hin
    cases hin
  obtain ⟨state, hstate, hrecorded, howed⟩ := h.saved hsaved
  have hserial : state = injection.read ∨ state = injection.new := by
    simpa [Serial, hstate] using hok
  have hrecorded' := hrecorded.write hin hserial ht
  have hcomputed := hrecorded.computed injection hin
  subst ht
  refine ⟨h.agentTools, h.handled, fun hunsaved => absurd hunsaved hsaved,
    fun _ => ⟨injection.new, s.saveState_agentState _, hrecorded', fun q hq => ?_⟩⟩
  obtain ⟨hread, hother⟩ := hcomputed.not_pending hq
  have hpending : q ∈ state.pendingToolCalls := by
    rcases hserial with rfl | rfl
    · exact hread
    · exact hq
  refine (howed q hpending).imp id (Or.imp ?_ id)
  rintro ⟨injection', hin', hid⟩
  refine ⟨injection', (List.mem_erase_of_ne ?_).mpr hin', hid⟩
  rintro rfl
  exact hother hid.symm

theorem Recorded.markReady (h : Recorded toJson conv s state) (hreadying : s.readying ≠ 0)
    (now : Time) :
    Recorded toJson conv { s with
      row := (reReadyAgentStep s.row.stepName .running now).onRow s.row
      readying := s.readying - 1
      readied := if (reReadyAgentStep s.row.stepName .running now).guard s.row then
        s.readied + 1 else s.readied } state := by
  have hnil : state.pendingToolCalls = [] := by
    by_contra hpending
    exact hreadying (h.waiting hpending).2.2
  refine ⟨h.keyed, h.registered, h.delivered, h.kept, h.computed,
    fun hpending => absurd hnil hpending,
    fun _ => .inr ?_⟩
  rcases h.released hnil with ⟨hreadied, hrunning, -⟩ | ⟨hreadied, hready | ⟨-, hnone⟩⟩
  · simp [reReadyAgentStep, Update.onRow, hrunning, hreadied]
  · simp [reReadyAgentStep, Update.onRow, hready, hreadied]
  · exact absurd hnone hreadying

theorem Delivering.markReady (h : Delivering toJson conv s) (hreadying : s.readying ≠ 0)
    (now : Time) :
    Delivering toJson conv { s with
      row := (reReadyAgentStep s.row.stepName .running now).onRow s.row
      readying := s.readying - 1
      readied := if (reReadyAgentStep s.row.stepName .running now).guard s.row then
        s.readied + 1 else s.readied } := by
  have hsaved : s.registration ≠ .unsaved :=
    fun hunsaved => hreadying (h.unsaved hunsaved).idle.2.1
  obtain ⟨state, hstate, hrecorded, howed⟩ := h.saved hsaved
  refine ⟨h.agentTools, h.handled, fun hunsaved => absurd hunsaved hsaved,
    fun _ => ⟨state, ?_, hrecorded.markReady hreadying now, howed⟩⟩
  simp only [Update.onRow, reReadyAgentStep]
  split <;> exact hstate

theorem Delivering.reclaim (h : Delivering toJson conv s) {worker : Worker} {now : Time}
    (hok : Serial s (.reclaim worker now)) :
    Delivering toJson conv
      { s with row := (claimReadyStep worker s.row.stepName now).onRow s.row } := by
  unfold Update.onRow
  split
  case isFalse => exact h
  case isTrue hguard =>
    obtain ⟨hwriting, hreadying⟩ := hok hguard
    have hready : s.row.status = .ready := by
      simp only [claimReadyStep, claimable, Bool.and_eq_true, beq_iff_eq] at hguard
      exact hguard.2.1.1.1.1.1
    refine ⟨h.agentTools, h.handled, fun hunsaved => ?_, fun hsaved => ?_⟩
    · have hrunning := (h.unsaved hunsaved).running
      rw [hready] at hrunning
      cases hrunning
    · obtain ⟨state, hstate, hrecorded, howed⟩ := h.saved hsaved
      have hnil : state.pendingToolCalls = [] := by
        by_contra hpending
        have hrunning := (hrecorded.waiting hpending).2.1
        rw [hready] at hrunning
        cases hrunning
      have hreadied : s.readied = 1 := by
        rcases hrecorded.released hnil with ⟨-, hrunning, -⟩ | ⟨hreadied, -⟩
        · rw [hready] at hrunning
          cases hrunning
        · exact hreadied
      exact ⟨state, hstate,
        ⟨hrecorded.keyed, hrecorded.registered, hrecorded.delivered, hrecorded.kept,
        hrecorded.computed, fun hpending => absurd hnil hpending,
        fun _ => .inr ⟨hreadied, .inr ⟨hwriting, hreadying⟩⟩⟩, howed⟩

/-! ### Children and their registration -/

theorem Round.keepsSettled_childWrite {w : JobWrite} (hw : w ≠ .markFailed) (childId : Uuid)
    (now : Time) :
    s.KeepsSettled { s with
      children := s.children.map fun c =>
        if c.jobId = childId then { c with job := jobAfter now c.job w } else c } := by
  intro id' child hchild hterm
  have hid : (fun c : ChildJob => c.jobId == id') ∘
      (fun c => if c.jobId = childId then { c with job := jobAfter now c.job w } else c) =
        fun c => c.jobId == id' := by
    funext c
    simp only [Function.comp_apply]
    split <;> rfl
  simp only [Round.child?, findChild, List.find?_map, hid] at hchild ⊢
  rw [hchild, Option.map_some, jobAfter_of_terminal now hw hterm, ite_self]

theorem Delivering.childWrite (h : Delivering toJson conv s) {w : JobWrite} (hw : w ≠ .markFailed)
    (childId : Uuid) (now : Time) :
    Delivering toJson conv { s with
      children := s.children.map fun c =>
        if c.jobId = childId then { c with job := jobAfter now c.job w } else c } := by
  have hkeeps := Round.keepsSettled_childWrite (s := s) hw childId now
  have hsame : ∀ c ∈ s.children.map (fun c : ChildJob =>
      if c.jobId = childId then { c with job := jobAfter now c.job w } else c),
      ∃ c₀ ∈ s.children, c.jobId = c₀.jobId ∧ c.sourceType = c₀.sourceType := by
    intro c hc
    obtain ⟨c₀, hc₀, rfl⟩ := List.mem_map.mp hc
    refine ⟨c₀, hc₀, ?_⟩
    split <;> exact ⟨rfl, rfl⟩
  refine ⟨fun c hc => ?_, fun id hid => (h.handled id hid).mono hkeeps, fun hunsaved => ?_,
    fun hsaved => ?_⟩
  · obtain ⟨c₀, hc₀, -, hsource⟩ := hsame c hc
    exact hsource.trans (h.agentTools c₀ hc₀)
  · obtain ⟨hearlier, hidle, hrunning⟩ := h.unsaved hunsaved
    refine ⟨hearlier.imp id ?_, hidle, hrunning⟩
    rintro ⟨old, hold, hnew⟩
    refine ⟨old, hold, fun c hc p hp => ?_⟩
    obtain ⟨c₀, hc₀, hjobId, -⟩ := hsame c hc
    rw [hjobId]
    exact hnew c₀ hc₀ p hp
  · obtain ⟨state, hstate, hrecorded, howed⟩ := h.saved hsaved
    refine ⟨state, hstate, ⟨hrecorded.keyed, hrecorded.registered, fun p hp => ?_, hrecorded.kept,
      fun injection hin => (hrecorded.computed injection hin).mono hkeeps, hrecorded.waiting,
      hrecorded.released⟩, fun p hp => ?_⟩
    · exact (hrecorded.delivered p hp).imp id fun hd => hd.mono hkeeps
    · exact (howed p hp).imp id (Or.imp id (And.imp (fun hs => hs.mono hkeeps) id))

theorem Delivering.save (h : Delivering toJson conv s) (hunsaved : s.registration = .unsaved)
    (hkeyed : Keyed PendingToolCall.childJobId conv.pendingToolCalls)
    (hregisters : conv.pendingToolCalls ≠ []) :
    Delivering toJson conv { s with row := s.saveState conv, registration := .saved } := by
  obtain ⟨-, ⟨hwriting, hreadying, hreadied⟩, hrunning⟩ := h.unsaved hunsaved
  refine ⟨h.agentTools, h.handled, nofun, fun _ => ⟨conv,
    s.saveState_agentState conv, ?_, fun p hp => ?_⟩⟩
  · refine ⟨hkeyed, fun _ hp => hp, fun p hp => .inl hp, fun _ hr => hr, ?_, ?_, ?_⟩
    · simp [hwriting]
    · simp [hreadied, hrunning, hreadying]
    · exact fun hnil => absurd hnil hregisters
  · by_cases hhandled : p.childJobId ∈ s.handled
    · exact .inr (.inr ⟨h.handled _ hhandled, id⟩)
    · exact .inl hhandled

theorem Delivering.propagate (h : Delivering toJson conv s) {id : Uuid}
    (hchild : s.child? id = some child) (hterm : child.job.status.isTerminal = true) (now : Time) :
    Delivering toJson conv
      (({ s with handled := id :: s.handled } : Round).startPropagation toJson now child) := by
  obtain ⟨hmem, rfl⟩ := Round.jobId_of_child? hchild
  have hhandled : ∀ id' ∈ child.jobId :: s.handled, s.Settled id' := by
    intro id' hid'
    rcases List.mem_cons.mp hid' with rfl | hid'
    · exact ⟨child, hchild, hterm⟩
    · exact h.handled id' hid'
  by_cases hunsaved : s.registration = .unsaved
  · have hunregistered := h.unsaved hunsaved
    have hnext : Unregistered { s with handled := child.jobId :: s.handled } :=
      ⟨hunregistered.earlier, hunregistered.idle, hunregistered.running⟩
    rw [Round.startPropagation_unregistered hnext hmem (h.agentTools child hmem)]
    exact ⟨h.agentTools, hhandled, fun _ => hnext, fun hsaved => absurd hunsaved hsaved⟩
  · obtain ⟨state, hstate, hrecorded, howed⟩ := h.saved hunsaved
    have hnext : Recorded toJson conv { s with handled := child.jobId :: s.handled } state :=
      ⟨hrecorded.keyed, hrecorded.registered, hrecorded.delivered, hrecorded.kept,
        hrecorded.computed,
        hrecorded.waiting, hrecorded.released⟩
    refine Delivering.start (s := { s with handled := child.jobId :: s.handled }) h.agentTools
      hhandled hunsaved hstate hnext hchild hterm (fun p hp hother => ?_) now
    refine (howed p hp).imp (fun hnot hin => ?_) id
    exact (List.mem_cons.mp hin).elim hother hnot

theorem Delivering.replayNext (h : Delivering toJson conv s) {p : PendingToolCall}
    {left : List PendingToolCall} (hreplay : s.registration = .replaying (p :: left))
    {now : Time} (hact : s.act toJson conv (.replayNext now) = some t) :
    Delivering toJson conv t := by
  have hsaved : s.registration ≠ .unsaved := by simp [hreplay]
  obtain ⟨state, hstate, hrecorded, howed⟩ := h.saved hsaved
  -- every call but the one looked at is owed as before
  have hothers : ∀ q ∈ state.pendingToolCalls, q ≠ p ∨ ¬ s.Settled p.childJobId →
      Owed { s with registration := .replaying left } q := by
    intro q hq hcase
    rcases howed q hq with hnot | hwriting | ⟨hsettled, hleft⟩
    · exact .inl hnot
    · exact .inr (.inl hwriting)
    · have hmem : q ∈ p :: left := by
        rw [hreplay] at hleft
        exact not_not.mp hleft
      refine .inr (.inr ⟨hsettled, fun hpassed => hpassed ?_⟩)
      rcases List.mem_cons.mp hmem with rfl | hmem
      · exact absurd hsettled (hcase.resolve_left fun hne => hne rfl)
      · exact hmem
  have hnext : Recorded toJson conv { s with registration := .replaying left } state :=
    ⟨hrecorded.keyed, hrecorded.registered, hrecorded.delivered, hrecorded.kept, hrecorded.computed,
      hrecorded.waiting, hrecorded.released⟩
  have hskip : ¬ s.Settled p.childJobId →
      Delivering toJson conv { s with registration := .replaying left } := fun hunsettled =>
    ⟨h.agentTools, h.handled, nofun, fun _ =>
      ⟨state, hstate, hnext, fun q hq => hothers q hq (.inr hunsettled)⟩⟩
  simp only [Round.act, hreplay] at hact
  split at hact
  case h_1 child hchild =>
    split at hact
    case isTrue hterm =>
      cases hact
      have hid := (Round.jobId_of_child? hchild).2
      rw [← hid] at hchild
      refine Delivering.start (s := { s with registration := .replaying left }) h.agentTools
        h.handled nofun hstate hnext hchild hterm (fun q hq hother => ?_) now
      refine hothers q hq (.inl ?_)
      rintro rfl
      exact hother hid.symm
    case isFalse hlive =>
      cases hact
      refine hskip ?_
      rintro ⟨child', hchild', hterm⟩
      obtain rfl := Option.some.inj (hchild.symm.trans hchild')
      exact hlive hterm
  case h_2 hnone =>
    cases hact
    refine hskip ?_
    rintro ⟨child, hchild, -⟩
    rw [hnone] at hchild
    cases hchild

theorem Delivering.act {a : RoundAction} (h : Delivering toJson conv s)
    (hkeyed : Keyed PendingToolCall.childJobId conv.pendingToolCalls)
    (hregisters : conv.pendingToolCalls ≠ []) (hok : Serial s a)
    (hact : s.act toJson conv a = some t) : Delivering toJson conv t := by
  cases a with
  | childWrite id now w =>
    simp only [Round.act] at hact
    split at hact
    case isTrue => cases hact
    case isFalse hw =>
      cases hact
      exact h.childWrite hw id now
  | save =>
    simp only [Round.act] at hact
    split at hact
    case h_1 hunsaved =>
      cases hact
      exact h.save hunsaved hkeyed hregisters
    case h_2 => cases hact
  | loadRegistered =>
    cases hregistration : s.registration with
    | saved =>
      obtain ⟨state, hstate, hrecorded, howed⟩ := h.saved (by simp [hregistration])
      simp only [Round.act, hregistration, hstate] at hact
      cases hact
      refine ⟨h.agentTools, h.handled, nofun, fun _ => ⟨state, hstate,
        ⟨hrecorded.keyed, hrecorded.registered, hrecorded.delivered, hrecorded.kept,
          hrecorded.computed, hrecorded.waiting, hrecorded.released⟩, fun p hp => ?_⟩⟩
      refine (howed p hp).imp id (Or.imp id fun hsettled => ⟨hsettled.1, fun hpassed => ?_⟩)
      exact hpassed hp
    | unsaved | replaying left => simp [Round.act, hregistration] at hact
  | replayNext now =>
    cases hregistration : s.registration with
    | replaying left =>
      cases left with
      | nil => simp [Round.act, hregistration] at hact
      | cons p left => exact h.replayNext hregistration hact
    | unsaved | saved => simp [Round.act, hregistration] at hact
  | propagate id now =>
    simp only [Round.act] at hact
    split at hact
    case h_1 child hchild =>
      split at hact
      case isTrue hterm =>
        cases hact
        exact h.propagate hchild hterm now
      case isFalse => cases hact
    case h_2 => cases hact
  | write injection =>
    simp only [Round.act] at hact
    split at hact
    case isTrue hin => exact h.write hin hok (Option.some.inj hact).symm
    case isFalse => cases hact
  | markReady now =>
    simp only [Round.act] at hact
    split at hact
    case isTrue => cases hact
    case isFalse hreadying =>
      cases hact
      exact h.markReady hreadying now
  | reclaim worker now =>
    cases hact
    exact h.reclaim hok

theorem Delivering.results {a : RoundAction} (h : Delivering toJson conv s) (hok : Serial s a)
    (hstate : s.row.agentState = some (.conversation state))
    (hsaved : s.registration ≠ .unsaved) (hact : s.act toJson conv a = some t) :
    t.registration ≠ .unsaved ∧ s.KeepsSettled t ∧ ∃ state',
      t.row.agentState = some (.conversation state') ∧
        ∀ result ∈ state.resolvedToolResults, result ∈ state'.resolvedToolResults := by
  have hsame : ∀ u : Round, u.registration ≠ .unsaved → u.children = s.children →
      u.row.agentState = s.row.agentState → u.registration ≠ .unsaved ∧ s.KeepsSettled u ∧
        ∃ state', u.row.agentState = some (.conversation state') ∧
          ∀ result ∈ state.resolvedToolResults, result ∈ state'.resolvedToolResults := by
    intro u hu hc hr
    refine ⟨hu, fun id child hchild _ => ?_, state, hr.trans hstate, fun _ h => h⟩
    rw [Round.child?, hc]
    exact hchild
  -- a propagation that reads the registered state changes nothing but the injections
  have hstarted : ∀ u : Round, u.registration ≠ .unsaved → u.children = s.children →
      u.row.agentState = s.row.agentState → ∀ {id : Uuid} {child : ChildJob} (now : Time),
      s.child? id = some child → t = u.startPropagation toJson now child →
      t.registration ≠ .unsaved ∧ s.KeepsSettled t ∧ ∃ state',
        t.row.agentState = some (.conversation state') ∧
          ∀ result ∈ state.resolvedToolResults, result ∈ state'.resolvedToolResults := by
    intro u hu hc hr id child now hchild ht
    have hagent := h.agentTools child (Round.jobId_of_child? hchild).1
    rw [Round.startPropagation_registered (hr.trans hstate) hagent] at ht
    subst ht
    split
    · exact hsame _ hu hc hr
    · exact hsame _ hu hc hr
  cases a with
  | childWrite id now w =>
    simp only [Round.act] at hact
    split at hact
    case isTrue => cases hact
    case isFalse hw =>
      cases hact
      exact ⟨hsaved, Round.keepsSettled_childWrite hw id now, state, hstate, fun _ h => h⟩
  | save =>
    cases hregistration : s.registration <;> simp_all [Round.act]
  | loadRegistered =>
    cases hregistration : s.registration with
    | saved =>
      simp only [Round.act, hregistration, hstate] at hact
      cases hact
      exact hsame _ nofun rfl rfl
    | unsaved | replaying left => simp [Round.act, hregistration] at hact
  | replayNext now =>
    simp only [Round.act] at hact
    split at hact
    case h_1 p left hreplay =>
      split at hact
      case h_1 child hchild =>
        split at hact
        · exact hstarted { s with registration := .replaying left } nofun rfl rfl now hchild
            (Option.some.inj hact).symm
        · cases hact
          exact hsame _ nofun rfl rfl
      case h_2 =>
        cases hact
        exact hsame _ nofun rfl rfl
    case h_2 => cases hact
  | propagate id now =>
    simp only [Round.act] at hact
    split at hact
    case h_1 child hchild =>
      split at hact
      · exact hstarted { s with handled := id :: s.handled } hsaved rfl rfl now hchild
          (Option.some.inj hact).symm
      · cases hact
    case h_2 => cases hact
  | write injection =>
    simp only [Round.act] at hact
    split at hact
    case isTrue hin =>
      cases hact
      refine ⟨hsaved, fun _ _ h _ => h, injection.new, s.saveState_agentState _, ?_⟩
      obtain ⟨state₀, hstate₀, hrecorded, -⟩ := h.saved hsaved
      obtain rfl : state₀ = state := by simpa [hstate] using hstate₀.symm
      rcases (by simpa [Serial, hstate] using hok :
        state₀ = injection.read ∨ state₀ = injection.new) with rfl | rfl
      · obtain ⟨p, child, -, -, -, -, hresolved⟩ := (hrecorded.computed injection hin).resolved
        intro result hresult
        rw [hresolved]
        exact List.mem_append_left _ hresult
      · exact fun _ h => h
    case isFalse => cases hact
  | markReady now =>
    simp only [Round.act] at hact
    split at hact
    case isTrue => cases hact
    case isFalse =>
      cases hact
      refine hsame _ hsaved rfl ?_
      simp only [Update.onRow, reReadyAgentStep]
      split <;> rfl
  | reclaim worker now =>
    cases hact
    refine hsame _ hsaved rfl ?_
    simp only [Update.onRow, claimReadyStep]
    split <;> rfl

end Steps

/-! ## Whole rounds -/

structure Finished (conv : AgentConversationState) (s : Round) : Prop where
  settled : ∀ p ∈ conv.pendingToolCalls, s.Settled p.childJobId
  handled : ∀ p ∈ conv.pendingToolCalls, p.childJobId ∈ s.handled
  replayed : s.registration = .replaying []
  ended : s.writing = [] ∧ s.readying = 0

def NoneLost (toJson : Json → String) (conv : AgentConversationState) (s : Round) : Prop :=
  ∃ state, s.row.agentState = some (.conversation state) ∧
    ∀ p ∈ conv.pendingToolCalls,
      Delivered toJson s state p ∨ p ∈ state.pendingToolCalls ∧ Owed s p

def AllDelivered (toJson : Json → String) (conv : AgentConversationState) (s : Round) : Prop :=
  ∃ state, s.row.agentState = some (.conversation state) ∧ state.pendingToolCalls = [] ∧
    ∀ p ∈ conv.pendingToolCalls, Delivered toJson s state p

variable {conv : AgentConversationState}

theorem Starts.delivering {toJson : Json → String} {s : Round} (h : Starts conv s) :
    Delivering toJson conv s := by
  obtain ⟨hhandled, hwriting, hreadying, hreadied⟩ := h.idle
  exact ⟨h.agentTools, by simp [hhandled],
    fun _ => ⟨h.earlier, ⟨hwriting, hreadying, hreadied⟩, h.running⟩,
    fun hsaved => absurd h.unsaved hsaved⟩

theorem Delivering.allDelivered {toJson : Json → String} {s : Round}
    (h : Delivering toJson conv s) (hfinished : Finished conv s) :
    s.readied = 1 ∧ AllDelivered toJson conv s := by
  obtain ⟨state, hstate, hrecorded, howed⟩ := h.saved (by simp [hfinished.replayed])
  obtain ⟨hwriting, hreadying⟩ := hfinished.ended
  have hnil : state.pendingToolCalls = [] := by
    refine List.eq_nil_iff_forall_not_mem.mpr fun p hp => ?_
    rcases howed p hp with hnot | ⟨injection, hin, -⟩ | ⟨-, hleft⟩
    · exact hnot (hfinished.handled p (hrecorded.registered p hp))
    · rw [hwriting] at hin
      cases hin
    · rw [hfinished.replayed] at hleft
      exact hleft List.not_mem_nil
  refine ⟨?_, state, hstate, hnil, fun p hp => ?_⟩
  · rcases hrecorded.released hnil with ⟨-, -, hpos⟩ | ⟨hreadied, -⟩
    · omega
    · exact hreadied
  · refine (hrecorded.delivered p hp).resolve_left ?_
    rw [hnil]
    exact List.not_mem_nil

def HasResult (toJson : Json → String) (s : Round) (p : PendingToolCall) : Prop :=
  ∃ state, s.row.agentState = some (.conversation state) ∧ Delivered toJson s state p

theorem Delivering.hasResult {toJson : Json → String} {s t : Round} {actions : List RoundAction}
    (hkeyed : Keyed PendingToolCall.childJobId conv.pendingToolCalls)
    (hregisters : conv.pendingToolCalls ≠ []) (h : Delivering toJson conv s)
    (hsaved : s.registration ≠ .unsaved) (hok : Meets (Round.act toJson conv) Serial s actions)
    (hrun : exec (Round.act toJson conv) s actions = some t) {p : PendingToolCall}
    (hp : HasResult toJson s p) : HasResult toJson t p := by
  have hkept : Delivering toJson conv t ∧ t.registration ≠ .unsaved ∧ HasResult toJson t p := by
    refine exec_invariant
      (fun u => Delivering toJson conv u ∧ u.registration ≠ .unsaved ∧ HasResult toJson u p)
      ?_ ⟨h, hsaved, hp⟩ hok hrun
    rintro u a v ⟨hu, husaved, state, hstate, hdelivered⟩ hserial hact
    obtain ⟨hvsaved, hkeeps, state', hstate', hresults⟩ :=
      hu.results hserial hstate husaved hact
    obtain ⟨child, hchild, hterm, hresult⟩ := hdelivered
    exact ⟨hu.act hkeyed hregisters hserial hact, hvsaved, state', hstate', child,
      hkeeps _ child hchild hterm, hterm, hresults _ hresult⟩
  exact hkept.2.2

/--
In every round whose propagations write over the state they read and end before a worker is handed
the step again, every result arrives and the step is made ready once, with every result there.
-/
theorem tool_results_delivered {toJson : Json → String} {conv : AgentConversationState}
    {s mid last : Round} {before after : List RoundAction} (hstart : Starts conv s)
    (hok : Meets (Round.act toJson conv) Serial s (before ++ after))
    (hmid : exec (Round.act toJson conv) s before = some mid)
    (hsaved : mid.registration ≠ .unsaved)
    (hlast : exec (Round.act toJson conv) mid after = some last) :
    (∀ p ∈ conv.pendingToolCalls, HasResult toJson mid p → HasResult toJson last p) ∧
      NoneLost toJson conv mid ∧ mid.readied ≤ 1 ∧
      (Finished conv mid → mid.readied = 1 ∧ AllDelivered toJson conv mid) := by
  obtain ⟨hbefore, hafter⟩ := hok.append hmid
  have h : Delivering toJson conv mid :=
    exec_invariant (Delivering toJson conv)
      (fun _ _ _ h hserial hact => h.act hstart.keyed hstart.registers hserial hact)
      hstart.delivering hbefore hmid
  obtain ⟨state, hstate, hrecorded, howed⟩ := h.saved hsaved
  refine ⟨fun p _ => ?_, ⟨state, hstate, fun p hp => ?_⟩, ?_, h.allDelivered⟩
  · exact h.hasResult hstart.keyed hstart.registers hsaved hafter hlast
  · rcases hrecorded.delivered p hp with hpending | hdelivered
    · exact .inr ⟨hpending, howed p hpending⟩
    · exact .inl hdelivered
  · by_cases hnil : state.pendingToolCalls = []
    · rcases hrecorded.released hnil with ⟨hreadied, -⟩ | ⟨hreadied, -⟩ <;> omega
    · rw [(hrecorded.waiting hnil).1]
      exact Nat.zero_le 1

/-! ## Two tool calls -/

def twoCalls : AgentConversationState :=
  { turn := 1, pendingToolCalls := [⟨"call_1", "strom_task_build", 101⟩,
      ⟨"call_2", "strom_task_test", 102⟩] }

def agentRound : Round :=
  { row := { readyRow with actionType := .agent, status := .running, workerId := some 7 },
    children := [⟨101, "agent_tool", { status := .running }⟩,
      ⟨102, "agent_tool", { status := .running }⟩] }

def injectionOf (text : String) (child : Uuid) (state : AgentConversationState) : Injection :=
  ⟨child, state, injectResult text child state⟩

def buildDone : Injection :=
  injectionOf "Task completed successfully" 101 twoCalls

def testFailed : Injection :=
  injectionOf "Task failed: failed" 102 buildDone.new

def orderlyRound : List RoundAction :=
  [.childWrite 101 10 (.settle .completed none), .propagate 101 11, .save, .loadRegistered,
    .replayNext 12, .write buildDone, .replayNext 13, .childWrite 102 14 (.settle .failed none),
    .propagate 102 15, .write testFailed, .markReady 16]

theorem agentRound_starts : Starts twoCalls agentRound where
  unsaved := rfl
  idle := ⟨rfl, rfl, rfl, rfl⟩
  running := rfl
  agentTools := by decide
  earlier := .inl rfl
  keyed := by
    unfold Keyed
    decide
  registers := by decide

def deliveredRound : Round :=
  (exec (Round.act (fun _ => "") twoCalls) agentRound orderlyRound).getD agentRound

theorem tool_results_delivered_orderlyRound :
    Starts twoCalls agentRound ∧
      exec (Round.act (fun _ => "") twoCalls) agentRound orderlyRound = some deliveredRound ∧
      Finished twoCalls deliveredRound ∧ deliveredRound.readied = 1 ∧
      AllDelivered (fun _ => "") twoCalls deliveredRound ∧
      ∃ last, exec (Round.act (fun _ => "") twoCalls) deliveredRound
          [.reclaim scriptWorker 20] = some last ∧
        ∀ p ∈ twoCalls.pendingToolCalls, HasResult (fun _ => "") last p := by
  have hok : Meets (Round.act (fun _ => "") twoCalls) Serial agentRound
      (orderlyRound ++ [.reclaim scriptWorker 20]) := by
    decide
  have hmid : exec (Round.act (fun _ => "") twoCalls) agentRound orderlyRound =
      some deliveredRound := rfl
  have hend := tool_results_delivered agentRound_starts hok hmid (by decide) rfl
  have hfinished : Finished twoCalls deliveredRound :=
    ⟨by decide, by decide, rfl, rfl, rfl⟩
  obtain ⟨hreadied, hall⟩ := hend.2.2.2 hfinished
  refine ⟨agentRound_starts, hmid, hfinished, hreadied, hall, _, rfl, fun p hp => ?_⟩
  obtain ⟨state, hstate, -, hdelivered⟩ := hall
  exact hend.1 p hp ⟨state, hstate, hdelivered p hp⟩

def racingRound : List RoundAction :=
  [.save, .loadRegistered, .replayNext 10, .replayNext 11,
    .childWrite 101 12 (.settle .completed none), .childWrite 102 13 (.settle .failed none),
    .propagate 101 14, .propagate 102 15, .write buildDone]

/-- The second write takes the first result away, and the step is never made ready. -/
theorem tool_result_lost :
    ∃ mid last, exec (Round.act (fun _ => "") twoCalls) agentRound racingRound = some mid ∧
      exec (Round.act (fun _ => "") twoCalls) mid
        [.write (injectionOf "Task failed: failed" 102 twoCalls)] = some last ∧
      HasResult (fun _ => "") mid ⟨"call_1", "strom_task_build", 101⟩ ∧
      ¬ HasResult (fun _ => "") last ⟨"call_1", "strom_task_build", 101⟩ ∧
      Finished twoCalls last ∧ last.readied = 0 ∧ last.row.status = .running := by
  refine ⟨_, _, rfl, rfl, ⟨buildDone.new, rfl, ⟨101, "agent_tool", _⟩, rfl, rfl, by decide⟩, ?_,
    ⟨by decide, by decide, rfl, rfl, rfl⟩, rfl, rfl⟩
  rintro ⟨state, hstate, child, hchild, -, hresult⟩
  obtain rfl := AgentState.conversation.inj (Option.some.inj hstate)
  cases hchild
  revert hresult
  decide

end Stroem.Engine
