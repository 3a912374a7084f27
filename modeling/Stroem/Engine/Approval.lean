import Stroem.Engine.Absorbing
import Stroem.Engine.Rowwise

/-!
# Approval steps

One approval step and everybody who writes to it: dispatchers that render its message, suspend
it and store the message as its output; an approver; and the phase of `recovery::sweep` that
fails the approvals it found timed out.  Suspension, approval and rejection ask for the status
they expect.  The message, a rendering that failed and the timeout do not.
-/

namespace Stroem.Engine

open Foundation JobStepRepo Cascade

/-- How far `handle_approval_steps` has come with the step. -/
inductive ApprovalDispatch where
  | idle
  | rendered (message : Except String String)
  | suspended (message : String)

structure ApprovalStep where
  row : JobStepRow
  dispatchers : Nat → ApprovalDispatch := fun _ => .idle
  timedOut : Bool := false
  decided : Bool := false

inductive ApprovalAction where
  | read (dispatcher : Nat) (message : Except String String)
  | storeInput (dispatcher : Nat) (input : Json)
  | suspend (now : Time) (dispatcher : Nat)
  | storeMessage (dispatcher : Nat)
  | approve (now : Time) (output : Json)
  | reject (now : Time) (reason : String) (delaySecs : Nat)
  | selectTimedOut (now : Time)
  | failTimedOut (now : Time) (delaySecs : Nat)

namespace ApprovalStep

def write (s : ApprovalStep) (now : Time) (w : String → Write) : JobStepRow :=
  rowAfter now .running (w s.row.stepName) s.row

def outcome (s : ApprovalStep) (row : JobStepRow) : ApprovalStep :=
  { s with row := row, decided := s.decided || row.status.isTerminal }

def setDispatcher (s : ApprovalStep) (dispatcher : Nat) (phase : ApprovalDispatch) :
    ApprovalStep :=
  { s with dispatchers := fun d => if d = dispatcher then phase else s.dispatchers d }

def act (s : ApprovalStep) : ApprovalAction → Option ApprovalStep
  | .read dispatcher message =>
    if s.row.status = .ready ∧ s.row.actionType = .approval then
      some (s.setDispatcher dispatcher (.rendered message))
    else none
  | .storeInput dispatcher input =>
    match s.dispatchers dispatcher with
    | .rendered _ => some { s with row := s.write 0 (.updateInput · (some input)) }
    | _ => none
  | .suspend now dispatcher =>
    match s.dispatchers dispatcher with
    | .rendered (.ok message) =>
      some ({ s with row := s.write now .markSuspended }.setDispatcher dispatcher
        (.suspended message))
    | .rendered (.error error) =>
      some ({ s with row := s.write now (.markFailed · error) }.setDispatcher dispatcher .idle)
    | _ => none
  | .storeMessage dispatcher =>
    match s.dispatchers dispatcher with
    | .suspended message =>
      some ({ s with row := s.write 0 (.storeApprovalMessage · message) }.setDispatcher
        dispatcher .idle)
    | _ => none
  | .approve now output =>
    if s.row.status = .suspended then
      some (s.outcome (s.write now (.approveStep · (some output))))
    else some s
  | .reject now reason delaySecs =>
    if s.row.status = .suspended then
      some (s.outcome (s.write now (.failOrRetry · reason .rejected delaySecs)))
    else some s
  | .selectTimedOut now => some { s with timedOut := isTimedOutSuspended now s.row }
  | .failTimedOut now delaySecs =>
    if s.timedOut then
      some { s.outcome
          (s.write now (.failOrRetry · "Approval timed out" .unconditional delaySecs)) with
        timedOut := false }
    else none

/-! ## What each write does to the step -/

theorem write_updateInput (s : ApprovalStep) (input : Json) :
    s.write 0 (.updateInput · (some input)) = { s.row with input := some input } := by
  simp [write, rowAfter, rowsAfter, Update.run, updateWhere, updateInput]

theorem write_markFailed (s : ApprovalStep) (now : Time) (error : String) :
    s.write now (.markFailed · error) = (markFailed s.row.stepName error now).set s.row := by
  simp [write, rowAfter, rowsAfter, Update.run, updateWhere, markFailed]

theorem write_storeApprovalMessage (s : ApprovalStep) (message : String) :
    s.write 0 (.storeApprovalMessage · message) =
      { s.row with output := some (approvalMessage message) } := by
  simp [write, rowAfter, rowsAfter, Update.run, updateWhere, storeApprovalMessage]

theorem write_markSuspended (s : ApprovalStep) (now : Time) (h : s.row.status ≠ .ready) :
    s.write now .markSuspended = s.row := by
  simp [write, rowAfter, rowsAfter, Update.run, updateWhere, markSuspended, h]

theorem write_timeout (s : ApprovalStep) (now : Time) (error : String) (delaySecs : Nat) :
    s.write now (.failOrRetry · error .unconditional delaySecs) =
      failedRow error delaySecs now s.row := by
  simp [write, rowAfter_failOrRetry, notExpected, FailureReport.expected,
    FailureReport.expectedClaim]

@[simp] theorem setDispatcher_row (s : ApprovalStep) (dispatcher : Nat)
    (phase : ApprovalDispatch) : (s.setDispatcher dispatcher phase).row = s.row := rfl

@[simp] theorem setDispatcher_decided (s : ApprovalStep) (dispatcher : Nat)
    (phase : ApprovalDispatch) : (s.setDispatcher dispatcher phase).decided = s.decided := rfl

end ApprovalStep

/-! ## The first outcome -/

def KeepsOutcome (s t : ApprovalStep) : Prop :=
  s.decided = true →
    t.decided = true ∧ t.row.status = s.row.status ∧ t.row.output = s.row.output

def DecidedFinished (s : ApprovalStep) : Prop :=
  s.decided = true → s.row.status.isTerminal = true

/--
A write that asks for no status finds the step undecided, or finds what it would write: the
message, or a failure with no retry left.
-/
def Harmless (s : ApprovalStep) : ApprovalAction → Prop
  | .suspend _ dispatcher =>
    match s.dispatchers dispatcher with
    | .rendered (.error _) => s.decided = true → s.row.status = .failed
    | _ => True
  | .storeMessage dispatcher =>
    match s.dispatchers dispatcher with
    | .suspended message => s.decided = true → s.row.output = some (approvalMessage message)
    | _ => True
  | .failTimedOut _ _ =>
    s.timedOut = true → s.decided = true → s.row.status = .failed ∧ hasRetryLeft s.row = false
  | _ => True

instance (s : ApprovalStep) : (a : ApprovalAction) → Decidable (Harmless s a)
  | .suspend _ dispatcher =>
    match h : s.dispatchers dispatcher with
    | .rendered (.error _) =>
      decidable_of_iff (s.decided = true → s.row.status = .failed) (by simp [Harmless, h])
    | .idle | .rendered (.ok _) | .suspended _ => .isTrue (by simp [Harmless, h])
  | .storeMessage dispatcher =>
    match h : s.dispatchers dispatcher with
    | .suspended message =>
      decidable_of_iff (s.decided = true → s.row.output = some (approvalMessage message))
        (by simp [Harmless, h])
    | .idle | .rendered _ => .isTrue (by simp [Harmless, h])
  | .failTimedOut _ _ => inferInstanceAs (Decidable (_ → _ → _))
  | .read _ _ | .storeInput _ _ | .approve _ _ | .reject _ _ _ | .selectTimedOut _ =>
    .isTrue trivial

variable {s t : ApprovalStep}

private theorem KeepsOutcome.of_undecided (h : s.decided = false) : KeepsOutcome s t := by
  intro hdecided
  rw [h] at hdecided
  cases hdecided

private theorem KeepsOutcome.of_row (hdecided : t.decided = s.decided)
    (hrow : s.decided = true → t.row.status = s.row.status ∧ t.row.output = s.row.output) :
    KeepsOutcome s t := by
  intro h
  exact ⟨hdecided.trans h, hrow h⟩

private theorem keepsOutcome_markFailed {error : String} {now : Time}
    (hdecided : t.decided = s.decided)
    (hrow : t.row = (markFailed s.row.stepName error now).set s.row) :
    KeepsOutcome s t ↔ (s.decided = true → s.row.status = .failed) := by
  simp only [KeepsOutcome, hdecided, hrow, markFailed]
  exact ⟨fun h hd => (h hd).2.1.symm, fun h hd => ⟨hd, (h hd).symm, trivial⟩⟩

private theorem keepsOutcome_message {message : String} (hdecided : t.decided = s.decided)
    (hrow : t.row = { s.row with output := some (approvalMessage message) }) :
    KeepsOutcome s t ↔ (s.decided = true → s.row.output = some (approvalMessage message)) := by
  simp only [KeepsOutcome, hdecided, hrow]
  exact ⟨fun h hd => (h hd).2.2.symm, fun h hd => ⟨hd, trivial, (h hd).symm⟩⟩

private theorem keepsOutcome_timeout {error : String} {delaySecs now : Nat}
    (hfinished : DecidedFinished s) (hdecided : s.decided = true → t.decided = true)
    (hrow : t.row = failedRow error delaySecs now s.row) :
    KeepsOutcome s t ↔
      (s.decided = true → s.row.status = .failed ∧ hasRetryLeft s.row = false) := by
  simp only [KeepsOutcome, hrow, failedRow]
  cases hretry : hasRetryLeft s.row with
  | true =>
    refine forall_congr' fun hd => iff_of_false ?_ (by simp)
    rintro ⟨-, hready, -⟩
    have hfinished := hfinished hd
    rw [← hready] at hfinished
    cases hfinished
  | false =>
    simp only [Bool.false_eq_true, if_false, markFailed, and_true]
    exact ⟨fun h hd => (h hd).2.symm, fun h hd => ⟨hdecided hd, (h hd).symm⟩⟩

theorem ApprovalStep.keepsOutcome_act {a : ApprovalAction} (hfinished : DecidedFinished s)
    (h : s.act a = some t) : KeepsOutcome s t ↔ Harmless s a := by
  have hnotSuspended : s.row.status = .suspended → s.decided = false := by
    intro hs
    rw [Bool.eq_false_iff]
    intro hd
    have hterminal := hfinished hd
    rw [hs] at hterminal
    cases hterminal
  cases a with
  | read dispatcher message =>
    simp only [act] at h
    split at h
    · cases h
      exact iff_of_true (.of_row rfl fun _ => ⟨rfl, rfl⟩) trivial
    · cases h
  | storeInput dispatcher input =>
    simp only [act, write_updateInput] at h
    split at h
    · cases h
      exact iff_of_true (.of_row rfl fun _ => ⟨rfl, rfl⟩) trivial
    · cases h
  | suspend now dispatcher =>
    simp only [act, write_markFailed] at h
    split at h
    case h_1 message hphase =>
      cases h
      refine iff_of_true (.of_row rfl fun hd => ?_) (by simp [Harmless, hphase])
      have hready : s.row.status ≠ .ready := by
        intro hs
        have hterminal := hfinished hd
        rw [hs] at hterminal
        cases hterminal
      rw [setDispatcher_row]
      show (s.write now .markSuspended).status = _ ∧ _
      rw [write_markSuspended s now hready]
      exact ⟨rfl, rfl⟩
    case h_2 error hphase =>
      cases h
      simp only [Harmless, hphase]
      exact keepsOutcome_markFailed rfl rfl
    case h_3 => cases h
  | storeMessage dispatcher =>
    simp only [act, write_storeApprovalMessage] at h
    split at h
    case h_1 message hphase =>
      cases h
      simp only [Harmless, hphase]
      exact keepsOutcome_message rfl rfl
    case h_2 => cases h
  | approve now output | reject now reason delaySecs =>
    simp only [act] at h
    split at h
    case isTrue hs => exact iff_of_true (.of_undecided (hnotSuspended hs)) trivial
    case isFalse =>
      cases h
      exact iff_of_true (.of_row rfl fun _ => ⟨rfl, rfl⟩) trivial
  | selectTimedOut now =>
    cases h
    exact iff_of_true (.of_row rfl fun _ => ⟨rfl, rfl⟩) trivial
  | failTimedOut now delaySecs =>
    simp only [act, write_timeout] at h
    split at h
    case isTrue hlisted =>
      cases h
      simp only [Harmless, hlisted, forall_const]
      refine keepsOutcome_timeout hfinished (fun hd => ?_) rfl
      simp [outcome, hd]
    case isFalse => cases h

theorem ApprovalStep.decidedFinished_act {a : ApprovalAction} (hfinished : DecidedFinished s)
    (hok : Harmless s a) (h : s.act a = some t) : DecidedFinished t := by
  intro hdecided
  cases hs : s.decided with
  | true =>
    obtain ⟨-, hstatus, -⟩ := (keepsOutcome_act hfinished h).mpr hok hs
    rw [hstatus]
    exact hfinished hs
  | false =>
    -- the step was decided just now, and only an outcome decides it
    have houtcome : ∀ row, (s.outcome row).decided = true → row.status.isTerminal = true := by
      intro row hrow
      simpa [outcome, hs] using hrow
    cases a with
    | selectTimedOut now =>
      cases h
      simp [hs] at hdecided
    | approve now output | reject now reason delaySecs =>
      simp only [act] at h
      split at h <;> cases h
      · exact houtcome _ hdecided
      · simp [hs] at hdecided
    | failTimedOut now delaySecs =>
      simp only [act] at h
      split at h <;> cases h
      exact houtcome _ hdecided
    | _ =>
      simp only [act] at h
      split at h <;> cases h <;> simp [hs] at hdecided

/--
The first decision that finishes the step fixes its status and its output, exactly when every
write that asks for no status finds the step undecided or finds what it would write.
-/
theorem approval_outcome_final {s : ApprovalStep} {as : List ApprovalAction}
    (hstart : s.decided = false) :
    (∀ before after mid last, before ++ after <+: as →
        exec ApprovalStep.act s before = some mid →
        exec ApprovalStep.act mid after = some last → mid.decided = true →
        last.decided = true ∧ last.row.status = mid.row.status ∧
          last.row.output = mid.row.output) ↔
      Meets ApprovalStep.act Harmless s as := by
  refine forall_segments_iff_meets KeepsOutcome DecidedFinished
    (fun _ => .of_row rfl fun _ => ⟨rfl, rfl⟩) (fun s t u hst htu hs => ?_)
    (fun _ _ _ => ApprovalStep.decidedFinished_act)
    (fun _ _ _ => ApprovalStep.keepsOutcome_act) (fun s a hstuck => ?_) ?_
  · obtain ⟨ht, hstatus, houtput⟩ := hst hs
    obtain ⟨hu, hstatus', houtput'⟩ := htu ht
    exact ⟨hu, hstatus'.trans hstatus, houtput'.trans houtput⟩
  · cases a with
    | suspend now dispatcher =>
      simp only [ApprovalStep.act] at hstuck
      split at hstuck
      · cases hstuck
      · cases hstuck
      case h_3 hphase => simp only [Harmless]
    | storeMessage dispatcher =>
      simp only [ApprovalStep.act] at hstuck
      split at hstuck
      · cases hstuck
      case h_2 hphase => simp only [Harmless]
    | failTimedOut now delaySecs =>
      intro hlisted
      simp [ApprovalStep.act, hlisted] at hstuck
    | _ => trivial
  · intro hd
    rw [hstart] at hd
    cases hd

/-! ## An approver that is quicker than the dispatcher -/

def approvalRow : JobStepRow :=
  { stepName := "gate", actionType := .approval, status := .ready, timeoutSecs := some 60 }

def approvalStart : ApprovalStep := { row := approvalRow }

def approvedBy (read : List (String × Json)) (approver : String) : Json :=
  .obj (Fields.collect (read ++ [("approved", .bool true), ("approved_by", .str approver)]))

def promptDispatch : List ApprovalAction :=
  [.read 0 (.ok "Deploy?"), .read 1 (.ok "Deploy?"), .suspend 1 0, .storeMessage 0, .suspend 2 1,
    .storeMessage 1,
    .approve 5 (approvedBy [("approval_message", .str "Deploy?")] "ops@example.com"),
    .selectTimedOut 90, .reject 91 "too late" 0]

theorem approval_outcome_final_promptDispatch :
    approvalStart.decided = false ∧
      ((∀ before after mid last, before ++ after <+: promptDispatch →
          exec ApprovalStep.act approvalStart before = some mid →
          exec ApprovalStep.act mid after = some last → mid.decided = true →
          last.decided = true ∧ last.row.status = mid.row.status ∧
            last.row.output = mid.row.output) ↔
        Meets ApprovalStep.act Harmless approvalStart promptDispatch) ∧
      Meets ApprovalStep.act Harmless approvalStart promptDispatch ∧
      (exec ApprovalStep.act approvalStart promptDispatch).map (·.row.status) =
        some .completed := by
  exact ⟨rfl, approval_outcome_final rfl, by decide, by decide⟩

/--
The approver answers before the dispatcher has stored the message, and its answer is
overwritten; the sweep listed the step before the answer, and fails the approved step.
-/
theorem approval_overwritten :
    ∃ mid stored failed,
      exec ApprovalStep.act approvalStart
        [.read 0 (.ok "Deploy?"), .suspend 1 0, .selectTimedOut 90,
          .approve 91 (approvedBy [] "ops@example.com")] = some mid ∧
      exec ApprovalStep.act mid [.storeMessage 0] = some stored ∧
      exec ApprovalStep.act stored [.failTimedOut 92 0] = some failed ∧
      mid.decided = true ∧ mid.row.status = .completed ∧
      mid.row.output = some (approvedBy [] "ops@example.com") ∧
      stored.row.output = some (approvalMessage "Deploy?") ∧
      failed.row.status = .failed := by
  refine ⟨_, _, _, rfl, rfl, rfl, ?_⟩
  decide

end Stroem.Engine
