import Stroem.Engine.Absorbing
import Stroem.Engine.Propagate
import Stroem.Engine.Rowwise

/-!
# Late reports

One step row over its attempts, and everybody who reports on an attempt: the worker that
executes it, the sweeps that found it stale or timed out, and the child job of a `type: task`
step.  A report names the step and no attempt, so it may reach the row of a later one.  The
reports of the sweeps name the claim they were made for; the others rely on what they find.
-/

namespace Stroem.Engine

open Foundation JobStepRepo Cascade

inductive Report where
  | started (workerId : Uuid)
  | succeeded (output : Option Json)
  | failed (error : String) (delaySecs : Nat)
  | childSettled (child : ChildJob)
  | claimFailed (error : String) (claim : Option ClaimIdentity) (delaySecs : Nat)

def Report.write (step : String) : Report → Write
  | .started workerId => .markRunning step workerId
  | .succeeded output => .markCompleted step output
  | .failed error delaySecs => .failOrRetry step error .unconditional delaySecs
  | .childSettled child => finishParentStep child step
  | .claimFailed error claim delaySecs => .failOrRetry step error (.claimed claim) delaySecs

/--
A step row, the number of the attempt it is in, the time this attempt was taken, and the claims
that were read off the row while it ran, with the attempt each belongs to.
-/
structure Reported where
  row : JobStepRow
  attempt : Nat := 0
  takenAt : Time := 0
  clock : Time := 0
  observed : List (Nat × Option ClaimIdentity) := []

inductive ReportAction where
  | claim (now : Time) (worker : Worker)
  | dispatch (now : Time) (pin : Option TaskPin)
  | observe
  | report (now : Time) (attempt : Nat) (report : Report)
  | release (now : Time) (jobStatus : JobStatus) (claim : ClaimIdentity) (retryAfter : Nat)
      (maxReleases : Int32)

namespace Reported

def take (s : Reported) (now : Time) (row : JobStepRow) : Reported :=
  if s.row.status = .ready ∧ row.status = .running then
    { s with row := row, attempt := s.attempt + 1, takenAt := now, clock := now }
  else { s with row := row, clock := now }

def canReport (s : Reported) (attempt : Nat) : Report → Bool
  | .claimFailed _ claim _ => decide ((attempt, claim) ∈ s.observed)
  | _ => decide (0 < attempt ∧ attempt ≤ s.attempt)

def act (s : Reported) : ReportAction → Option Reported
  | .claim now worker =>
    if s.clock < now then
      some (s.take now (rowAfter now .running (.claimReadyStep worker s.row.stepName) s.row))
    else none
  | .dispatch now pin =>
    if s.clock < now then
      some (s.take now (rowAfter now .running (.claimTaskDispatch s.row.stepName pin) s.row))
    else none
  | .observe =>
    if s.row.status = .running then
      some { s with observed := (s.attempt, observedClaim s.row) :: s.observed }
    else none
  | .report now attempt report =>
    if s.clock < now ∧ s.canReport attempt report = true then
      some { s with row := rowAfter now .running (report.write s.row.stepName) s.row, clock := now }
    else none
  | .release now jobStatus claim retryAfter maxReleases =>
    if s.clock < now then
      let release := Write.releaseClaim s.row.stepName claim retryAfter maxReleases
      some { s with row := rowAfter now jobStatus release s.row, clock := now }
    else none

def superseded (s : Reported) (attempt : Nat) : Prop :=
  attempt < s.attempt ∨ s.row.status ≠ .running

end Reported

structure Unchanged (r r' : JobStepRow) : Prop where
  status : r'.status = r.status
  output : r'.output = r.output
  retryAttempt : r'.retryAttempt = r.retryAttempt
  retryHistory : r'.retryHistory = r.retryHistory
  workerId : r'.workerId = r.workerId
  startedAt : r'.startedAt = r.startedAt

theorem Unchanged.refl (r : JobStepRow) : Unchanged r r := ⟨rfl, rfl, rfl, rfl, rfl, rfl⟩

def Absorbs (r : JobStepRow) : Report → Prop
  | .started _ => False
  | .succeeded output => r.status = .completed ∧ r.output = output
  | .failed _ _ => r.status = .failed ∧ hasRetryLeft r = false
  | .childSettled child =>
    if child.job.status = .completed then r.status = .completed ∧ r.output = child.job.output
    else if child.job.status = .cancelled then r.status ≠ .running
    else r.status = .failed
  | .claimFailed _ claim _ => claim.isSome = true ∨ r.status ≠ .running

instance (r : JobStepRow) : (report : Report) → Decidable (Absorbs r report)
  | .started _ => inferInstanceAs (Decidable False)
  | .succeeded _ | .failed _ _ => inferInstanceAs (Decidable (_ ∧ _))
  | .childSettled _ => inferInstanceAs (Decidable (ite _ _ _))
  | .claimFailed _ _ _ => inferInstanceAs (Decidable (_ ∨ _))

def LateAbsorbed (s : Reported) : ReportAction → Prop
  | .report now attempt report =>
    s.clock < now → s.canReport attempt report = true → s.superseded attempt →
      Absorbs s.row report
  | _ => True

instance (s : Reported) (attempt : Nat) : Decidable (s.superseded attempt) :=
  inferInstanceAs (Decidable (_ ∨ _))

instance (s : Reported) : (a : ReportAction) → Decidable (LateAbsorbed s a)
  | .report _ _ _ => inferInstanceAs (Decidable (_ → _ → _ → _))
  | .claim _ _ | .dispatch _ _ | .observe | .release _ _ _ _ _ => .isTrue trivial

/-! ## What one report does -/

section Rows

variable (now : Time) (r : JobStepRow)

private theorem rowAfter_markRunning (workerId : Uuid) :
    rowAfter now .running (.markRunning r.stepName workerId) r =
      (markRunning r.stepName workerId now).set r := by
  simp [rowAfter, rowsAfter, Update.run, updateWhere, markRunning]

private theorem rowAfter_markCompleted (output : Option Json) :
    rowAfter now .running (.markCompleted r.stepName output) r =
      (markCompleted r.stepName output now).set r := by
  simp [rowAfter, rowsAfter, Update.run, updateWhere, markCompleted]

private theorem rowAfter_markFailed (error : String) :
    rowAfter now .running (.markFailed r.stepName error) r =
      (markFailed r.stepName error now).set r := by
  simp [rowAfter, rowsAfter, Update.run, updateWhere, markFailed]

private theorem rowAfter_markCancelled :
    rowAfter now .running (.markCancelled r.stepName) r =
      if r.status = .running then (markCancelled r.stepName now).set r else r := by
  simp [rowAfter, rowsAfter, Update.run, updateWhere, markCancelled]

private theorem unchanged_markCompleted (output : Option Json) :
    Unchanged r ((markCompleted r.stepName output now).set r) ↔
      r.status = .completed ∧ r.output = output := by
  constructor
  · intro h
    exact ⟨h.status.symm, h.output.symm⟩
  · rintro ⟨hs, ho⟩
    exact ⟨hs.symm, ho.symm, rfl, rfl, rfl, rfl⟩

private theorem unchanged_markFailed (error : String) :
    Unchanged r ((markFailed r.stepName error now).set r) ↔ r.status = .failed := by
  constructor
  · intro h
    exact h.status.symm
  · intro hs
    exact ⟨hs.symm, rfl, rfl, rfl, rfl, rfl⟩

private theorem unchanged_failedRow (error : String) (delaySecs : Nat) :
    Unchanged r (failedRow error delaySecs now r) ↔
      r.status = .failed ∧ hasRetryLeft r = false := by
  unfold failedRow
  cases hretry : hasRetryLeft r with
  | true =>
    refine iff_of_false (fun h => ?_) (by simp)
    -- the history has one entry more
    have hlength := congrArg List.length h.retryHistory
    simp [scheduleRetry] at hlength
  | false =>
    simp only [Bool.false_eq_true, if_false, and_true]
    exact unchanged_markFailed now r error

end Rows

def OtherClaim (r : JobStepRow) (claim : ClaimIdentity) : Prop :=
  r.status = .running → r.startedAt ≠ some claim.startedAt

theorem unchanged_report_iff {now : Time} {r : JobStepRow} {report : Report}
    (hstarted : ∀ t, r.startedAt = some t → t < now)
    (hother : ∀ error claim delaySecs, report = .claimFailed error (some claim) delaySecs →
      OtherClaim r claim) :
    Unchanged r (rowAfter now .running (report.write r.stepName) r) ↔ Absorbs r report := by
  cases report with
  | started workerId =>
    simp only [Report.write, rowAfter_markRunning, Absorbs, iff_false]
    intro h
    exact absurd (hstarted now h.startedAt.symm) (lt_irrefl now)
  | succeeded output =>
    simp only [Report.write, rowAfter_markCompleted, Absorbs]
    exact unchanged_markCompleted now r output
  | failed error delaySecs =>
    have hexpected : notExpected FailureReport.unconditional.expected
        FailureReport.unconditional.expectedClaim r = false := rfl
    simp only [Report.write, rowAfter_failOrRetry, hexpected, and_self, if_true, Absorbs]
    exact unchanged_failedRow now r error delaySecs
  | childSettled child =>
    simp only [Report.write, finishParentStep, Absorbs]
    split
    · rw [rowAfter_markCompleted]
      exact unchanged_markCompleted now r child.job.output
    · split
      · rw [rowAfter_markCancelled]
        split
        case isTrue hs =>
          refine iff_of_false (fun h => ?_) (by simp [hs])
          have hcancelled : StepStatus.cancelled = r.status := h.status
          rw [hs] at hcancelled
          cases hcancelled
        case isFalse hs => exact iff_of_true (.refl r) hs
      · rw [rowAfter_markFailed]
        exact unchanged_markFailed now r _
  | claimFailed error claim delaySecs =>
    simp only [Report.write, rowAfter_failOrRetry, Absorbs]
    by_cases hs : r.status = .running
    · cases claim with
      | none =>
        have hexpected : notExpected (FailureReport.claimed none).expected
            (FailureReport.claimed none).expectedClaim r = false := by
          simp [notExpected, FailureReport.expected, FailureReport.expectedClaim, hs]
        rw [if_pos ⟨trivial, hexpected⟩, unchanged_failedRow]
        simp [hs]
      | some claim =>
        have hclaim := hother error claim delaySecs rfl hs
        have hexpected : notExpected (FailureReport.claimed (some claim)).expected
            (FailureReport.claimed (some claim)).expectedClaim r = true := by
          simp [notExpected, FailureReport.expected, FailureReport.expectedClaim, hclaim]
        rw [if_neg (by simp [hexpected])]
        exact iff_of_true (.refl r) (.inl rfl)
    · have hexpected : notExpected (FailureReport.claimed claim).expected
          (FailureReport.claimed claim).expectedClaim r = true := by
        simp [notExpected, FailureReport.expected, hs]
      rw [if_neg (by simp [hexpected])]
      exact iff_of_true (.refl r) (.inr hs)

/-! ## Claims are told apart by their times -/

structure Clocked (s : Reported) : Prop where
  taken : s.takenAt ≤ s.clock
  started : ∀ t, s.row.startedAt = some t → s.takenAt ≤ t ∧ t ≤ s.clock
  observed : ∀ k claim, (k, some claim) ∈ s.observed →
    k ≤ s.attempt ∧ claim.startedAt ≤ s.clock ∧ (k < s.attempt → claim.startedAt < s.takenAt)

def Restarts (now : Time) (r r' : JobStepRow) : Prop :=
  r'.startedAt = r.startedAt ∨ r'.startedAt = none ∨ r'.startedAt = some now

private theorem Restarts.onRow {now : Time} {u : Update JobStepRow}
    (h : ∀ r, Restarts now r (u.set r)) (r : JobStepRow) : Restarts now r (u.onRow r) := by
  unfold Update.onRow
  split
  · exact h r
  · exact .inl rfl

private theorem onRow_startedAt {now : Time} {u : Update JobStepRow} {r : JobStepRow}
    (hset : (u.set r).startedAt = some now) (hready : r.status = .ready)
    (hrunning : (u.onRow r).status = .running) : (u.onRow r).startedAt = some now := by
  by_cases hguard : u.guard r = true
  · rwa [Update.onRow, if_pos hguard]
  · rw [Update.onRow, if_neg hguard, hready] at hrunning
    cases hrunning

private theorem restarts_failOrRetry (now : Time) (step error : String) (report : FailureReport)
    (delaySecs : Nat) (r : JobStepRow) :
    Restarts now r (rowAfter now .running (.failOrRetry step error report delaySecs) r) := by
  rw [rowAfter_failOrRetry]
  split
  · unfold failedRow
    split
    · exact .inr (.inl rfl)
    · exact .inl rfl
  · exact .inl rfl

private theorem restarts_report (now : Time) (report : Report) (step : String) (r : JobStepRow) :
    Restarts now r (rowAfter now .running (report.write step) r) := by
  cases report with
  | started workerId =>
    exact Restarts.onRow (u := markRunning step workerId now) (fun _ => .inr (.inr rfl)) r
  | succeeded output =>
    exact Restarts.onRow (u := markCompleted step output now) (fun _ => .inl rfl) r
  | failed error delaySecs => exact restarts_failOrRetry now step error _ delaySecs r
  | childSettled child =>
    simp only [Report.write, finishParentStep]
    split
    · exact Restarts.onRow (u := markCompleted step child.job.output now) (fun _ => .inl rfl) r
    · split
      · exact Restarts.onRow (u := markCancelled step now) (fun _ => .inl rfl) r
      · exact Restarts.onRow (u := markFailed step _ now) (fun _ => .inl rfl) r
  | claimFailed error claim delaySecs => exact restarts_failOrRetry now step error _ delaySecs r

private theorem restarts_release (now : Time) (jobStatus : JobStatus) (step : String)
    (claim : ClaimIdentity) (retryAfter : Nat) (maxReleases : Int32) (r : JobStepRow) :
    Restarts now r
      (rowAfter now jobStatus (.releaseClaim step claim retryAfter maxReleases) r) := by
  simp only [rowAfter, rowsAfter, releaseClaim]
  split
  · exact .inl rfl
  · split
    · have hcancel : Restarts now r
          ((cancelPendingSteps now).onRow ((cancelStep step now).onRow r)) := by
        unfold Update.onRow
        split <;> split <;> exact .inl rfl
      exact hcancel
    · split
      · exact .inl rfl
      · exact Restarts.onRow (u := releaseStep step _ now) (fun _ => .inr (.inl rfl)) r

private theorem Clocked.restart {s : Reported} {now : Time} {row : JobStepRow} (h : Clocked s)
    (hnow : s.clock < now) (hrow : Restarts now s.row row) :
    Clocked { s with row := row, clock := now } where
  taken := le_of_lt (lt_of_le_of_lt h.taken hnow)
  started t ht := by
    rcases hrow with hsame | hnone | hset
    · obtain ⟨hle, hle'⟩ := h.started t (hsame ▸ ht)
      exact ⟨hle, le_trans hle' (le_of_lt hnow)⟩
    · rw [show row.startedAt = none from hnone] at ht
      cases ht
    · rw [show row.startedAt = some now from hset] at ht
      cases ht
      exact ⟨le_trans h.taken (le_of_lt hnow), le_refl _⟩
  observed k claim hmem := by
    obtain ⟨hk, hclock, hlt⟩ := h.observed k claim hmem
    exact ⟨hk, le_trans hclock (le_of_lt hnow), hlt⟩

private theorem Clocked.take {s : Reported} {now : Time} {row : JobStepRow} (h : Clocked s)
    (hnow : s.clock < now) (hrow : Restarts now s.row row)
    (htaken : s.row.status = .ready → row.status = .running → row.startedAt = some now) :
    Clocked (s.take now row) := by
  unfold Reported.take
  split
  case isTrue htake =>
    have hstart := htaken htake.1 htake.2
    refine ⟨le_refl _, fun t ht => ?_, fun k claim hmem => ?_⟩
    · obtain rfl := Option.some.inj (hstart.symm.trans ht)
      exact ⟨le_refl _, le_refl _⟩
    · obtain ⟨hk, hclock, -⟩ := h.observed k claim hmem
      exact ⟨Nat.le_succ_of_le hk, le_trans hclock (le_of_lt hnow),
        fun _ => lt_of_le_of_lt hclock hnow⟩
  case isFalse => exact h.restart hnow hrow

theorem Reported.clocked_act {s t : Reported} {a : ReportAction} (h : Clocked s)
    (hact : s.act a = some t) : Clocked t := by
  cases a with
  | claim now worker =>
    simp only [act] at hact
    split at hact
    case isTrue hnow =>
      cases hact
      refine h.take hnow
        (Restarts.onRow (u := claimReadyStep worker _ now) (fun _ => .inr (.inr rfl)) s.row) ?_
      exact onRow_startedAt (u := claimReadyStep worker s.row.stepName now) rfl
    case isFalse => cases hact
  | dispatch now pin =>
    simp only [act] at hact
    split at hact
    case isTrue hnow =>
      cases hact
      refine h.take hnow
        (Restarts.onRow (u := claimTaskDispatch _ pin now) (fun _ => .inr (.inr rfl)) s.row) ?_
      exact onRow_startedAt (u := claimTaskDispatch s.row.stepName pin now) rfl
    case isFalse => cases hact
  | observe =>
    simp only [act] at hact
    split at hact
    · cases hact
      refine ⟨h.taken, h.started, fun k claim hmem => ?_⟩
      rcases List.mem_cons.mp hmem with heq | hmem
      · obtain ⟨rfl, hclaim⟩ := Prod.mk.inj heq
        have hstarted : s.row.startedAt = some claim.startedAt := by
          unfold observedClaim at hclaim
          split at hclaim
          case h_1 workerId startedAt _ hstarted =>
            cases hclaim
            exact hstarted
          case h_2 => cases hclaim
        exact ⟨le_refl _, (h.started _ hstarted).2, fun hlt => absurd hlt (lt_irrefl _)⟩
      · exact h.observed k claim hmem
    · cases hact
  | report now attempt report =>
    simp only [act] at hact
    split at hact
    case isTrue hnow =>
      cases hact
      exact h.restart hnow.1 (restarts_report now report _ s.row)
    case isFalse => cases hact
  | release now jobStatus claim retryAfter maxReleases =>
    simp only [act] at hact
    split at hact
    case isTrue hnow =>
      cases hact
      exact h.restart hnow (restarts_release now jobStatus _ claim retryAfter maxReleases s.row)
    case isFalse => cases hact

private theorem Clocked.otherClaim {s : Reported} {k : Nat} {claim : ClaimIdentity}
    (h : Clocked s) (hmem : (k, some claim) ∈ s.observed) (hover : s.superseded k) :
    OtherClaim s.row claim := by
  intro hrunning hstarted
  rcases hover with hlt | hnot
  · obtain ⟨-, -, hbefore⟩ := h.observed k claim hmem
    exact absurd (h.started _ hstarted).1 (not_le_of_gt (hbefore hlt))
  · exact hnot hrunning

/--
In a run of attempts and reports, every report whose attempt is over leaves the row as it is
exactly when every such report names its claim or finds what it would write.
-/
theorem late_reports_absorbed {row : JobStepRow} {as : List ReportAction}
    (hstart : row.startedAt = none) :
    (∀ before a mid t, before ++ [a] <+: as → exec Reported.act { row := row } before = some mid →
        mid.act a = some t → ∀ now attempt report, a = .report now attempt report →
          mid.superseded attempt → Unchanged mid.row t.row) ↔
      Meets Reported.act LateAbsorbed { row := row } as := by
  rw [← meets_iff_forall_steps]
  refine Meets.congr Clocked (fun _ _ _ => Reported.clocked_act) (fun s a hs => ?_) ?_
  · cases a with
    | report now attempt report =>
      by_cases henabled : s.clock < now ∧ s.canReport attempt report = true
      · have hiff : s.superseded attempt →
            (Unchanged s.row (rowAfter now .running (report.write s.row.stepName) s.row) ↔
              Absorbs s.row report) := by
          intro hover
          refine unchanged_report_iff
            (fun t ht => lt_of_le_of_lt (hs.started t ht).2 henabled.1) ?_
          rintro error claim delaySecs rfl
          refine hs.otherClaim ?_ hover
          simpa [Reported.canReport] using henabled.2
        simp only [Reported.act, if_pos henabled, Option.some.injEq]
        simp only [LateAbsorbed, henabled.1, henabled.2, forall_const]
        constructor
        · intro h hover
          exact (hiff hover).mp (h _ rfl now attempt report rfl hover)
        · rintro h t rfl now' attempt' report' heq hover
          obtain ⟨rfl, rfl, rfl⟩ := ReportAction.report.inj heq
          exact (hiff hover).mpr (h hover)
      · simp only [Reported.act, if_neg henabled, reduceCtorEq, false_imp_iff, implies_true,
          true_iff, LateAbsorbed]
        intro hnow hcan
        exact absurd ⟨hnow, hcan⟩ henabled
    | _ => simp [LateAbsorbed]
  · exact ⟨le_refl _, fun t ht => by simp [hstart] at ht, fun k claim hmem => by simp at hmem⟩

/-! ## A worker that was given up -/

def retriedRow : JobStepRow := { readyRow with maxRetries := some 2 }

def otherWorker : Worker := { scriptWorker with workerId := 8 }

def repeatedReports : List ReportAction :=
  [.claim 10 scriptWorker, .observe, .report 11 1 (.claimFailed "Worker lost" (some ⟨7, 10⟩) 0),
    .claim 20 otherWorker, .report 21 1 (.claimFailed "Worker lost" (some ⟨7, 10⟩) 0),
    .report 22 2 (.started 8), .report 30 2 (.succeeded (some (.str "done"))),
    .report 31 2 (.succeeded (some (.str "done")))]

theorem late_reports_absorbed_repeatedReports :
    retriedRow.startedAt = none ∧
      ((∀ before a mid t, before ++ [a] <+: repeatedReports →
          exec Reported.act { row := retriedRow } before = some mid → mid.act a = some t →
          ∀ now attempt report, a = .report now attempt report →
            mid.superseded attempt → Unchanged mid.row t.row) ↔
        Meets Reported.act LateAbsorbed { row := retriedRow } repeatedReports) ∧
      Meets Reported.act LateAbsorbed { row := retriedRow } repeatedReports ∧
      (exec Reported.act { row := retriedRow } repeatedReports).map (·.row.status) =
        some .completed :=
  ⟨rfl, late_reports_absorbed rfl, by decide, by decide⟩

def settledChild : ChildJob :=
  { jobId := 40, sourceType := "task",
    job := { status := .completed, output := some (.str "old") } }

def taskRow : JobStepRow :=
  { stepName := "a", actionType := .task, status := .ready, maxRetries := some 1 }

/--
The failure report of the first worker puts the second attempt back, and a retry is gone; the
child of a first attempt that timed out completes the second.
-/
theorem late_reports_change_attempt :
    (∃ mid t, exec Reported.act { row := retriedRow }
        [.claim 10 scriptWorker, .observe,
          .report 11 1 (.claimFailed "Worker lost" (some ⟨7, 10⟩) 0),
          .claim 20 otherWorker] = some mid ∧
      mid.act (.report 21 1 (.failed "Process exited with code 1" 0)) = some t ∧
      mid.superseded 1 ∧ ¬ Unchanged mid.row t.row ∧
      (mid.row.status, mid.row.workerId, mid.row.retryAttempt) = (.running, some 8, 1) ∧
      (t.row.status, t.row.workerId, t.row.retryAttempt) = (.ready, none, 2)) ∧
    ∃ mid t, exec Reported.act { row := taskRow }
        [.dispatch 10 none, .observe, .report 70 1 (.claimFailed "Step timed out" none 0),
          .dispatch 80 none] = some mid ∧
      mid.act (.report 90 1 (.childSettled settledChild)) = some t ∧
      mid.superseded 1 ∧ ¬ Unchanged mid.row t.row ∧
      mid.row.status = .running ∧ t.row.status = .completed ∧
      t.row.output = some (.str "old") := by
  refine ⟨⟨_, _, rfl, rfl, .inl (by decide), ?_, by decide, by decide⟩,
    ⟨_, _, rfl, rfl, .inl (by decide), ?_, by decide, by decide, by decide⟩⟩
  · intro h
    exact absurd h.status (by decide)
  · intro h
    exact absurd h.status (by decide)

end Stroem.Engine
