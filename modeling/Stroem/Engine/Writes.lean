import Stroem.Cascade.Apply

/-!
# Writes to the rows of a job

`Write` lists the writers of a job's step rows, one constructor per statement or transaction with
the parameters its caller decided on beforehand; whatever was read to decide on them may be stale
by the time the write is made.  `rowsAfter` makes one write, atomically.  `Write.moves` is a table
of the writers, and `rowsAfter_spec` says that every write does what it says.
-/

namespace Stroem.Engine

open Foundation JobStepRepo Cascade

inductive FailureReport where
  | unconditional
  | claimed (claim : Option ClaimIdentity)
  | rejected
  deriving DecidableEq

namespace FailureReport

def expected : FailureReport → List StepStatus
  | .unconditional => []
  | .claimed _ => [.running]
  | .rejected => [.suspended]

def expectedClaim : FailureReport → Option ClaimIdentity
  | .claimed claim => claim
  | .unconditional | .rejected => none

end FailureReport

inductive Write where
  | claimReadyStep (worker : Worker) (step : String)
  | releaseClaim (step : String) (claim : ClaimIdentity) (retryAfter : Nat) (maxReleases : Int32)
  | markRunning (step : String) (workerId : Uuid)
  | markCompleted (step : String) (output : Option Json)
  | markFailed (step error : String)
  | markSkipped (step reason : String)
  | markCancelled (step : String)
  | failOrRetry (step error : String) (report : FailureReport) (delaySecs : Nat)
  | approveStep (step : String) (output : Option Json)
  | markSuspended (step : String)
  | storeApprovalMessage (step message : String)
  | suspendAgentStep (step message : String)
  | updateAgentState (step : String) (state : AgentState)
  | toolsResolved (step : String)
  | questionAnswered (step : String)
  | updateInput (step : String) (input : Option Json)
  | claimTaskDispatch (step : String) (pin : Option TaskPin)
  | failTaskDispatch (step error : String) (dispatched : Bool) (pin : Option TaskPin)
  | stampTaskPin (step : String) (pin : TaskPin)
  | takeResolveLease (step : String) (token : Uuid) (leaseSecs : Nat)
  | renewResolveLease (step : String) (token : Uuid) (leaseSecs : Nat)
  | resolveDeferred (step : String) (token : Uuid) (resolved : NewJobStep)
  | failDeferred (step : String) (token : Uuid) (error : String)
  | cancelPendingSteps
  | cancelServerManagedSteps
  | failNonTerminalSteps (error : String)
  | applyPlan (plan : Plan)

def dispatchStatus (dispatched : Bool) : StepStatus :=
  if dispatched then .running else .ready

def rowsAfter (now : Time) (jobStatus : JobStatus) (rows : List JobStepRow) :
    Write → List JobStepRow
  | .claimReadyStep worker step => (claimReadyStep worker step now).run rows
  | .releaseClaim step claim retryAfter maxReleases =>
    (releaseClaim jobStatus step claim retryAfter maxReleases now rows).2
  | .markRunning step workerId => (markRunning step workerId now).run rows
  | .markCompleted step output => (markCompleted step output now).run rows
  | .markFailed step error => (markFailed step error now).run rows
  | .markSkipped step reason => (markSkipped step reason now).run rows
  | .markCancelled step => (markCancelled step now).run rows
  | .failOrRetry step error report delaySecs =>
    (failOrRetry step error report.expected (fun _ => delaySecs) report.expectedClaim now rows).2
  | .approveStep step output => (approveStep step output now).run rows
  | .markSuspended step => (markSuspended step now).run rows
  | .storeApprovalMessage step message => (storeApprovalMessage step message).run rows
  | .suspendAgentStep step message => (suspendAgentStep step message now).run rows
  | .updateAgentState step state => (updateAgentState step state).run rows
  | .toolsResolved step => (reReadyAgentStep step .running now).run rows
  | .questionAnswered step => (reReadyAgentStep step .suspended now).run rows
  | .updateInput step input => (updateInput step input).run rows
  | .claimTaskDispatch step pin => (claimTaskDispatch step pin now).run rows
  | .failTaskDispatch step error dispatched pin =>
    (failTaskDispatch step error (dispatchStatus dispatched) pin now).run rows
  | .stampTaskPin step pin => (stampTaskPin step pin).run rows
  | .takeResolveLease step token leaseSecs =>
    (takeResolveLease step token leaseSecs now).run rows
  | .renewResolveLease step token leaseSecs =>
    (renewResolveLease step token leaseSecs now).run rows
  | .resolveDeferred step token resolved =>
    (resolveDeferredTx jobStatus step token resolved now rows).2
  | .failDeferred step token error => (failDeferredTx jobStatus step token error now rows).2
  | .cancelPendingSteps => (cancelPendingSteps now).run rows
  | .cancelServerManagedSteps => (cancelServerManagedSteps now).run rows
  | .failNonTerminalSteps error => (failNonTerminalSteps error now).run rows
  | .applyPlan plan =>
    -- a guard miss or a refused insert rolls the transaction back
    match applyGroups now (groupChanges plan.changes) rows with
    | .ok rows' => rows'
    | .error _ => rows

/-! ## The table of writers -/

namespace Write

def target : Write → Option String
  | .claimReadyStep _ step | .releaseClaim step _ _ _ | .markRunning step _
  | .markCompleted step _ | .markFailed step _ | .markSkipped step _ | .markCancelled step
  | .failOrRetry step _ _ _ | .approveStep step _ | .markSuspended step
  | .storeApprovalMessage step _ | .suspendAgentStep step _ | .updateAgentState step _
  | .toolsResolved step | .questionAnswered step | .updateInput step _
  | .claimTaskDispatch step _ | .failTaskDispatch step _ _ _ | .stampTaskPin step _
  | .takeResolveLease step _ _ | .renewResolveLease step _ _ | .resolveDeferred step _ _
  | .failDeferred step _ _ => some step
  | .cancelPendingSteps | .cancelServerManagedSteps | .failNonTerminalSteps _
  | .applyPlan _ => none

/--
The rows a write may change the status, output or error of, and the status it leaves them in.
A write that is not listed changes none of these; a cascade is described change by change.
-/
def moves (r : JobStepRow) (s : StepStatus) : Write → Prop
  | .claimReadyStep _ step => r.stepName = step ∧ r.status = .ready ∧ s = .running
  | .releaseClaim step _ _ _ =>
    (r.stepName = step ∧ r.status = .running ∧ (s = .ready ∨ s = .cancelled)) ∨
      ((r.status = .pending ∨ r.status = .ready ∨ r.status = .suspended) ∧ s = .cancelled)
  | .markRunning step _ => r.stepName = step ∧ s = .running
  | .markCompleted step _ => r.stepName = step ∧ s = .completed
  | .markFailed step _ => r.stepName = step ∧ s = .failed
  | .markSkipped step _ => r.stepName = step ∧ r.status = .pending ∧ s = .skipped
  | .markCancelled step => r.stepName = step ∧ r.status = .running ∧ s = .cancelled
  | .failOrRetry step _ report _ =>
    r.stepName = step ∧ notExpected report.expected report.expectedClaim r = false ∧
      (s = .ready ∧ hasRetryLeft r = true ∨ s = .failed ∧ hasRetryLeft r = false)
  | .approveStep step _ => r.stepName = step ∧ r.status = .suspended ∧ s = .completed
  | .markSuspended step => r.stepName = step ∧ r.status = .ready ∧ s = .suspended
  | .storeApprovalMessage step _ => r.stepName = step ∧ s = r.status
  | .suspendAgentStep step _ => r.stepName = step ∧ r.status = .running ∧ s = .suspended
  | .toolsResolved step => r.stepName = step ∧ r.status = .running ∧ s = .ready
  | .questionAnswered step => r.stepName = step ∧ r.status = .suspended ∧ s = .ready
  | .claimTaskDispatch step _ => r.stepName = step ∧ r.status = .ready ∧ s = .running
  | .failTaskDispatch step _ dispatched _ =>
    r.stepName = step ∧ r.status = dispatchStatus dispatched ∧ s = .failed
  | .failDeferred step _ _ => r.stepName = step ∧ r.status = .ready ∧ s = .failed
  | .cancelPendingSteps =>
    (r.status = .pending ∨ r.status = .ready ∨ r.status = .suspended) ∧ s = .cancelled
  | .cancelServerManagedSteps => r.status = .running ∧ r.workerId = none ∧ s = .cancelled
  | .failNonTerminalSteps _ => r.status.isTerminal = false ∧ s = .failed
  | .updateAgentState _ _ | .updateInput _ _ | .stampTaskPin _ _ | .takeResolveLease _ _ _
  | .renewResolveLease _ _ _ | .resolveDeferred _ _ _ | .applyPlan _ => False

def isCascade : Write → Bool
  | .applyPlan _ => true
  | _ => false

end Write

structure Keeps (r r' : JobStepRow) : Prop where
  stepName : r'.stepName = r.stepName
  forEachExpr : r'.forEachExpr = r.forEachExpr
  loopSource : r'.loopSource = r.loopSource
  loopIndex : r'.loopIndex = r.loopIndex

theorem Keeps.trans {r r' r'' : JobStepRow} (h : Keeps r r') (h' : Keeps r' r'') :
    Keeps r r'' :=
  ⟨h'.stepName.trans h.stepName, h'.forEachExpr.trans h.forEachExpr,
    h'.loopSource.trans h.loopSource, h'.loopIndex.trans h.loopIndex⟩

theorem Keeps.isPlaceholder {r r' : JobStepRow} (h : Keeps r r') :
    r'.isPlaceholder = r.isPlaceholder := by
  simp [JobStepRow.isPlaceholder, h.forEachExpr]

structure RowEffect (w : Write) (r r' : JobStepRow) : Prop where
  keeps : Keeps r r'
  outcome : (r'.status = r.status ∧ r'.output = r.output ∧ r'.errorMessage = r.errorMessage) ∨
    w.moves r r'.status

theorem RowEffect.refl (w : Write) (r : JobStepRow) : RowEffect w r r :=
  ⟨⟨rfl, rfl, rfl, rfl⟩, .inl ⟨rfl, rfl, rfl⟩⟩

variable {rows : List JobStepRow}

theorem Update.forall₂ {w : Write} {u : Update JobStepRow}
    (h : ∀ r ∈ rows, u.guard r = true → RowEffect w r (u.set r)) :
    List.Forall₂ (RowEffect w) rows (u.run rows) := by
  unfold Update.run updateWhere
  rw [List.forall₂_map_right_iff, List.forall₂_same]
  intro r hr
  split
  case isTrue hguard => exact h r hr hguard
  case isFalse => exact .refl w r

private theorem forall₂_refl (w : Write) (rows : List JobStepRow) :
    List.Forall₂ (RowEffect w) rows rows :=
  List.forall₂_same.mpr fun r _ => .refl w r

private theorem eq_of_find (h : Keyed JobStepRow.stepName rows) {q : JobStepRow → Bool}
    {row r : JobStepRow} (hfind : rows.find? q = some row) (hr : r ∈ rows)
    (hname : r.stepName = row.stepName) : r = row :=
  h.eq_of_key hr (List.mem_of_find?_eq_some hfind) hname

private theorem failOrRetry_spec (h : Keyed JobStepRow.stepName rows) (step error : String)
    (report : FailureReport) (delaySecs now : Nat) :
    List.Forall₂ (RowEffect (.failOrRetry step error report delaySecs)) rows
      (failOrRetry step error report.expected (fun _ => delaySecs) report.expectedClaim now
        rows).2 := by
  unfold failOrRetry
  split
  · exact forall₂_refl _ rows
  case h_2 row hfind =>
    have hname : row.stepName = step := by simpa using List.find?_some hfind
    split
    · exact forall₂_refl _ rows
    case isFalse hexpected =>
      rw [Bool.not_eq_true] at hexpected
      -- both branches update the rows of this name, and there is only the row found
      have hupdate : ∀ (u : Update JobStepRow) (s : StepStatus),
          (∀ r, u.guard r = decide (r.stepName = step)) → (∀ r, Keeps r (u.set r)) →
          (∀ r, (u.set r).status = s) →
          (s = .ready ∧ hasRetryLeft row = true ∨ s = .failed ∧ hasRetryLeft row = false) →
          List.Forall₂ (RowEffect (.failOrRetry step error report delaySecs)) rows
            (u.run rows) := by
        intro u s hguard hkeeps hset hcase
        refine Update.forall₂ fun r hr hr' => ⟨hkeeps r, .inr ?_⟩
        rw [hguard, decide_eq_true_eq] at hr'
        obtain rfl := eq_of_find h hfind hr (hr'.trans hname.symm)
        rw [hset]
        exact ⟨hr', hexpected, hcase⟩
      split
      case h_1 max hmax =>
        split
        case isTrue hlt =>
          refine hupdate _ .ready (fun _ => rfl) (fun _ => ⟨rfl, rfl, rfl, rfl⟩) (fun _ => rfl) ?_
          exact .inl ⟨rfl, by simp [hasRetryLeft, hmax, hlt]⟩
        case isFalse hlt =>
          refine hupdate _ .failed (fun _ => rfl) (fun _ => ⟨rfl, rfl, rfl, rfl⟩) (fun _ => rfl) ?_
          exact .inr ⟨rfl, by simp [hasRetryLeft, hmax, hlt]⟩
      case h_2 hmax =>
        refine hupdate _ .failed (fun _ => rfl) (fun _ => ⟨rfl, rfl, rfl, rfl⟩) (fun _ => rfl) ?_
        exact .inr ⟨rfl, by simp [hasRetryLeft, hmax]⟩

private theorem releaseClaim_spec (h : Keyed JobStepRow.stepName rows) (jobStatus : JobStatus)
    (step : String) (claim : ClaimIdentity) (retryAfter : Nat) (maxReleases : Int32) (now : Time) :
    List.Forall₂ (RowEffect (.releaseClaim step claim retryAfter maxReleases)) rows
      (releaseClaim jobStatus step claim retryAfter maxReleases now rows).2 := by
  unfold releaseClaim
  split
  · exact forall₂_refl _ rows
  case h_2 row hfind =>
    have hrow := List.find?_some hfind
    simp only [Bool.and_eq_true, beq_iff_eq] at hrow
    obtain ⟨⟨⟨hname, hrunning⟩, -⟩, -⟩ := hrow
    have htarget : ∀ r ∈ rows, r.stepName = step → r.status = .running := by
      intro r hr hr'
      rw [eq_of_find h hfind hr (hr'.trans hname.symm)]
      exact hrunning
    split
    · simp only [Update.run, updateWhere, List.map_map]
      rw [List.forall₂_map_right_iff, List.forall₂_same]
      intro r hr
      by_cases hr' : r.stepName = step
      · have hs := htarget r hr hr'
        refine ⟨?_, .inr (.inl ⟨hr', hs, .inr ?_⟩)⟩
        · constructor <;> simp [cancelStep, cancelPendingSteps, hr']
        · simp [cancelStep, cancelPendingSteps, hr']
      · by_cases hs : r.status = .pending ∨ r.status = .ready ∨ r.status = .suspended
        · have hguard : (cancelPendingSteps now).guard r = true := by
            simpa [cancelPendingSteps, or_assoc] using hs
          refine ⟨?_, .inr (.inr ⟨hs, ?_⟩)⟩
          · constructor <;> simp [cancelStep, hr', hguard] <;> rfl
          · simp [cancelStep, hr', hguard]
            rfl
        · have hguard : (cancelPendingSteps now).guard r = false := by
            simpa [cancelPendingSteps, or_assoc, and_assoc] using hs
          simp only [Function.comp_apply, cancelStep, hr', decide_false, Bool.false_eq_true,
            if_false, hguard]
          exact .refl _ r
    · split
      · exact forall₂_refl _ rows
      · refine Update.forall₂ fun r hr hguard => ⟨⟨rfl, rfl, rfl, rfl⟩, .inr (.inl ?_)⟩
        have hr' : r.stepName = step := by simpa [releaseStep] using hguard
        exact ⟨hr', htarget r hr hr', .inl rfl⟩

private theorem deferredWrite_forall₂ {w : Write} {u : Update JobStepRow} (jobStatus : JobStatus)
    (h : ∀ r ∈ rows, u.guard r = true → RowEffect w r (u.set r)) :
    List.Forall₂ (RowEffect w) rows (deferredWrite u jobStatus rows).2 := by
  unfold deferredWrite
  split
  · exact forall₂_refl w rows
  · exact Update.forall₂ h

theorem rowsAfter_spec {now : Time} {jobStatus : JobStatus} {w : Write}
    (h : Keyed JobStepRow.stepName rows) (hw : w.isCascade = false) :
    List.Forall₂ (RowEffect w) rows (rowsAfter now jobStatus rows w) := by
  cases w with
  | claimReadyStep worker step =>
    refine Update.forall₂ fun r _ hguard => ⟨⟨rfl, rfl, rfl, rfl⟩, .inr ?_⟩
    simp only [claimReadyStep, claimable, Bool.and_eq_true, decide_eq_true_eq,
      beq_iff_eq] at hguard
    exact ⟨hguard.1, hguard.2.1.1.1.1.1, rfl⟩
  | releaseClaim step claim retryAfter maxReleases =>
    exact releaseClaim_spec h jobStatus step claim retryAfter maxReleases now
  | failOrRetry step error report delaySecs =>
    exact failOrRetry_spec h step error report delaySecs now
  | cancelPendingSteps =>
    refine Update.forall₂ fun r _ hguard => ⟨⟨rfl, rfl, rfl, rfl⟩, .inr ⟨?_, rfl⟩⟩
    simpa [cancelPendingSteps, or_assoc] using hguard
  | cancelServerManagedSteps =>
    refine Update.forall₂ fun r _ hguard => ⟨⟨rfl, rfl, rfl, rfl⟩, .inr ?_⟩
    simp only [cancelServerManagedSteps, Bool.and_eq_true, beq_iff_eq] at hguard
    exact ⟨hguard.1, hguard.2, rfl⟩
  | failNonTerminalSteps error =>
    refine Update.forall₂ fun r _ hguard => ⟨⟨rfl, rfl, rfl, rfl⟩, .inr ⟨?_, rfl⟩⟩
    simpa [failNonTerminalSteps] using hguard
  | resolveDeferred step token resolved =>
    exact deferredWrite_forall₂ jobStatus fun r _ _ =>
      ⟨⟨rfl, rfl, rfl, rfl⟩, .inl ⟨rfl, rfl, rfl⟩⟩
  | failDeferred step token error =>
    refine deferredWrite_forall₂ jobStatus fun r _ hguard => ⟨⟨rfl, rfl, rfl, rfl⟩, .inr ?_⟩
    simp only [writeDeferredFailure, isDeferredReady, Bool.and_eq_true, decide_eq_true_eq,
      beq_iff_eq] at hguard
    exact ⟨hguard.1.1.1, hguard.1.1.2, rfl⟩
  | updateAgentState step state | updateInput step input | stampTaskPin step pin
  | takeResolveLease step token leaseSecs | renewResolveLease step token leaseSecs =>
    exact Update.forall₂ fun r _ _ => ⟨⟨rfl, rfl, rfl, rfl⟩, .inl ⟨rfl, rfl, rfl⟩⟩
  | applyPlan plan => simp [Write.isCascade] at hw
  | _ =>
    refine Update.forall₂ fun r _ hguard => ⟨⟨rfl, rfl, rfl, rfl⟩, .inr ?_⟩
    simp_all [markRunning, markCompleted, markFailed, markSkipped, markCancelled, approveStep,
      markSuspended, storeApprovalMessage, suspendAgentStep, reReadyAgentStep,
      claimTaskDispatch, failTaskDispatch, Write.moves]

end Stroem.Engine
