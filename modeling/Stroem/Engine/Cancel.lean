import Stroem.Engine.Absorbing
import Stroem.JobRepo

/-!
# Cancelling a job

`settlement::cancel` cancels the job row, then its steps that have not started, then the running
steps no worker holds; reports, claims and cascades go on meanwhile.  The second statement works
on the rows its snapshot shows it.  It comes to them one after the other, waits for whoever is
writing one, and asks the newest version of the row again; a row that did not match in the
snapshot is not visited, whatever becomes of it.
-/

namespace Stroem.Engine

open Foundation JobStepRepo JobRepo Cascade

inductive Sweep where
  | idle
  | requested
  | visiting (left : List String)
  | swept
  | finished
  deriving DecidableEq

namespace Sweep

def past (step : String) : Sweep → Bool
  | .idle | .requested => false
  | .visiting left => !left.contains step
  | .swept | .finished => true

def isVisiting : Sweep → Bool
  | .visiting _ => true
  | _ => false

end Sweep

structure Cancellation where
  job : JobRecord
  rows : List JobStepRow
  sweep : Sweep := .idle

inductive CancelAction where
  | write (now : Time) (write : Write)
  | jobWrite (now : Time) (write : JobWrite)
  | cancelJob (now : Time)
  | takeSnapshot
  | visit (now : Time) (step : String)
  | endVisits
  | cancelServerManaged (now : Time)

def cancelVisited (step : String) (now : Time) : Update JobStepRow where
  guard r := decide (r.stepName = step) && (cancelPendingSteps now).guard r
  set := (cancelPendingSteps now).set

def snapshotNames (rows : List JobStepRow) : List String :=
  (rows.filter (cancelPendingSteps 0).guard).map JobStepRow.stepName

def Cancellation.act (s : Cancellation) : CancelAction → Option Cancellation
  | .write now w => some { s with rows := rowsAfter now s.job.status s.rows w }
  | .jobWrite now w => some { s with job := jobAfter now s.job w }
  | .cancelJob now =>
    if isActive s.job then
      some { s with job := jobAfter now s.job .cancel, sweep := .requested }
    else some s
  | .takeSnapshot =>
    match s.sweep with
    | .requested => some { s with sweep := .visiting (snapshotNames s.rows) }
    | _ => none
  | .visit now step =>
    match s.sweep with
    | .visiting left =>
      if left.contains step then
        some ⟨s.job, (cancelVisited step now).run s.rows, .visiting (left.filter (· != step))⟩
      else none
    | _ => none
  | .endVisits =>
    match s.sweep with
    | .visiting [] => some { s with sweep := .swept }
    | _ => none
  | .cancelServerManaged now =>
    match s.sweep with
    | .swept => some ⟨s.job, (cancelServerManagedSteps now).run s.rows, .finished⟩
    | _ => none

/-! ## Writes behind the sweep -/

def Write.revives (r : JobStepRow) : Write → Bool
  | .failOrRetry step _ report _ =>
    decide (r.stepName = step) && !notExpected report.expected report.expectedClaim r &&
      hasRetryLeft r
  | .toolsResolved step => decide (r.stepName = step) && r.status == .running
  | .questionAnswered step => decide (r.stepName = step) && r.status == .suspended
  | _ => false

def Write.inserts (now : Time) (rows : List JobStepRow) : Write → Bool
  | .applyPlan plan =>
    (applyGroups now (groupChanges plan.changes) rows).isOk &&
      !(plan.changes.flatMap newSteps).isEmpty
  | _ => false

/--
A step is not put back to `ready` when the sweep is past it, and no instance is inserted
between the snapshot of the sweep and its last visit.
-/
def Unswept (s : Cancellation) : CancelAction → Prop
  | .write now w =>
    (∀ r ∈ s.rows, w.revives r = true → s.sweep.past r.stepName = false) ∧
      (s.sweep.isVisiting = true → w.inserts now s.rows = false)
  | _ => True

instance (s : Cancellation) : (a : CancelAction) → Decidable (Unswept s a)
  | .write _ _ => inferInstanceAs (Decidable (_ ∧ _))
  | .jobWrite _ _ | .cancelJob _ | .takeSnapshot | .visit _ _ | .endVisits
  | .cancelServerManaged _ => .isTrue trivial

def isWaiting (r : JobStepRow) : Bool :=
  r.status == .pending || r.status == .ready

variable {r' : JobStepRow}

theorem Write.moves_to_waiting {w : Write} {r : JobStepRow} (h : w.moves r r'.status)
    (hwaiting : isWaiting r' = true) :
    isWaiting r = true ∨ w.revives r = true ∨
      ∃ step claim retryAfter maxReleases, w = .releaseClaim step claim retryAfter maxReleases := by
  have hs : r'.status = .pending ∨ r'.status = .ready := by
    simpa [isWaiting] using hwaiting
  cases w with
  | releaseClaim step claim retryAfter maxReleases =>
    exact .inr (.inr ⟨step, claim, retryAfter, maxReleases, rfl⟩)
  | failOrRetry step error report delaySecs =>
    obtain ⟨hname, hexpected, hcase⟩ := h
    rcases hcase with ⟨-, hretry⟩ | ⟨hfailed, -⟩
    · exact .inr (.inl (by simp [Write.revives, hname, hexpected, hretry]))
    · simp [hfailed] at hs
  | storeApprovalMessage step message =>
    exact .inl (by simpa [isWaiting, h.2] using hs)
  | _ => simp_all [Write.moves, Write.revives]

variable {now : Time} {rows : List JobStepRow}

private theorem releaseClaim_waiting {jobStatus : JobStatus} {step : String}
    {claim : ClaimIdentity} {retryAfter : Nat} {maxReleases : Int32}
    (hjob : jobStatus.isTerminal = true)
    (hr' : r' ∈ (releaseClaim jobStatus step claim retryAfter maxReleases now rows).2)
    (hwaiting : isWaiting r' = true) : r' ∈ rows := by
  unfold releaseClaim at hr'
  split at hr'
  · exact hr'
  · have hgone : jobStatus ≠ .pending ∧ jobStatus ≠ .running := by
      constructor <;> rintro rfl <;> cases hjob
    rw [if_pos hgone] at hr'
    obtain ⟨r₀, -, rfl⟩ := Update.mem_run.mp hr'
    split at hwaiting
    · cases hwaiting
    case isFalse hguard =>
      exact absurd (by simp_all [isWaiting, cancelPendingSteps]) hguard

theorem waiting_rowsAfter {jobStatus : JobStatus} {w : Write}
    (hk : Keyed JobStepRow.stepName rows) (hjob : jobStatus.isTerminal = true)
    (hw : w.isCascade = false) (hr' : r' ∈ rowsAfter now jobStatus rows w)
    (hwaiting : isWaiting r' = true) :
    ∃ r ∈ rows, r.stepName = r'.stepName ∧ (isWaiting r = true ∨ w.revives r = true) := by
  obtain ⟨r, hr, heffect⟩ := mem_of_forall₂_right (rowsAfter_spec hk hw) hr'
  have hname := heffect.keeps.stepName.symm
  rcases heffect.outcome with ⟨hs, -, -⟩ | hmoves
  · exact ⟨r, hr, hname, .inl (by simpa [isWaiting, hs] using hwaiting)⟩
  · rcases Write.moves_to_waiting hmoves hwaiting with h | h | ⟨step, claim, after, max, rfl⟩
    · exact ⟨r, hr, hname, .inl h⟩
    · exact ⟨r, hr, hname, .inr h⟩
    · exact ⟨r', releaseClaim_waiting hjob hr' hwaiting, rfl, .inl hwaiting⟩

/-! ## Plans behind the sweep -/

private theorem Applies.waiting_origin {cs : List Change} {rows' : List JobStepRow}
    (h : Applies now cs rows rows') (hr' : r' ∈ rows') (hwaiting : isWaiting r' = true) :
    (∃ r ∈ rows, r.stepName = r'.stepName ∧ isWaiting r = true ∧
        (r'.status = .pending → r.status = .pending)) ∨
      (cs.flatMap newSteps ≠ [] ∧ ∃ r ∈ rows, r.status = .pending) := by
  obtain ⟨moved, rfl, hmoved⟩ := h.rows
  rcases List.mem_append.mp hr' with hr' | hr'
  · obtain ⟨r, hr, hrow⟩ := mem_of_forall₂_right hmoved hr'
    refine .inl ⟨r, hr, hrow.keeps.stepName.symm, ?_⟩
    rcases hrow with ⟨c, -, hc⟩ | ⟨rfl, -⟩
    · have hpending : r.status = .pending := by
        rw [hc.asked]
        cases c with
        | rollup p outcome =>
          have hs := hc.status
          cases outcome <;> simp_all [isWaiting, Change.setRow]
        | _ => rfl
      exact ⟨by simp [isWaiting, hpending], fun _ => hpending⟩
    · exact ⟨hwaiting, id⟩
  · obtain ⟨i, hi, -⟩ := List.mem_map.mp hr'
    obtain ⟨c, hc, hic⟩ := List.mem_flatMap.mp hi
    obtain ⟨r, hr, -, hs⟩ := h.found c hc
    refine .inr ⟨List.ne_nil_of_mem hi, r, hr, ?_⟩
    cases c <;> simp_all [newSteps, asks]

theorem Chain.waiting_origin {cs : List Change} {rows' : List JobStepRow}
    (h : Chain now cs rows rows') (hr' : r' ∈ rows') (hwaiting : isWaiting r' = true) :
    (∃ r ∈ rows, r.stepName = r'.stepName ∧ isWaiting r = true ∧
        (r'.status = .pending → r.status = .pending)) ∨
      (cs.flatMap newSteps ≠ [] ∧ ∃ r ∈ rows, r.status = .pending) := by
  induction h with
  | nil => exact .inl ⟨r', hr', rfl, hwaiting, id⟩
  | cons happlies _ ih =>
    rcases ih hr' with ⟨m, hm, hname, hm', hpend⟩ | ⟨hnew, m, hm, hpend⟩
    · rcases happlies.waiting_origin hm hm' with ⟨r, hr, hname', hr'', hpend'⟩ | ⟨hnew, hrow⟩
      · exact .inl ⟨r, hr, hname'.trans hname, hr'', hpend' ∘ hpend⟩
      · exact .inr ⟨by simp [hnew], hrow⟩
    · rcases happlies.waiting_origin hm (by simp [isWaiting, hpend]) with
        ⟨r, hr, -, -, hpend'⟩ | ⟨hnew', hrow⟩
      · exact .inr ⟨by simp [hnew], r, hr, hpend' hpend⟩
      · exact .inr ⟨by simp [hnew'], hrow⟩

theorem waiting_applyPlan {jobStatus : JobStatus} {plan : Plan}
    (hk : Keyed JobStepRow.stepName rows)
    (hr' : r' ∈ rowsAfter now jobStatus rows (.applyPlan plan)) (hwaiting : isWaiting r' = true) :
    (∃ r ∈ rows, r.stepName = r'.stepName ∧ isWaiting r = true) ∨
      (Write.inserts now rows (.applyPlan plan) = true ∧ ∃ r ∈ rows, isWaiting r = true) := by
  simp only [rowsAfter] at hr'
  split at hr'
  case h_1 rows' hok =>
    obtain ⟨cs, hperm, hchain⟩ := applyGroups_chain hk hok
    rw [flatMap_groupChanges] at hperm
    rcases hchain.waiting_origin hr' hwaiting with ⟨r, hr, hname, hr'', -⟩ | ⟨hnew, r, hr, hs⟩
    · exact .inl ⟨r, hr, hname, hr''⟩
    · refine .inr ⟨?_, r, hr, by simp [isWaiting, hs]⟩
      have hnew' : plan.changes.flatMap newSteps ≠ [] := fun hnil =>
        hnew (List.Perm.eq_nil (hnil ▸ hperm.flatMap_right newSteps))
      simp [Write.inserts, hok, Except.isOk, Except.toBool, hnew']
  case h_2 => exact .inl ⟨r', hr', rfl, hwaiting⟩

/-! ## The sweep over a run -/

structure Sweeping (s : Cancellation) : Prop where
  keyed : Keyed JobStepRow.stepName s.rows
  job : s.sweep ≠ .idle → s.job.status.isTerminal = true
  waiting : ∀ r ∈ s.rows, isWaiting r = true → s.sweep.past r.stepName = false

variable {s : Cancellation}

theorem Sweeping.write (h : Sweeping s) {w : Write} (hok : Unswept s (.write now w)) :
    Sweeping { s with rows := rowsAfter now s.job.status s.rows w } := by
  refine ⟨keyed_rowsAfter h.keyed, h.job, fun r' hr' hwaiting => ?_⟩
  change r' ∈ rowsAfter now s.job.status s.rows w at hr'
  change s.sweep.past r'.stepName = false
  by_cases hstarted : s.sweep.past r'.stepName = false
  · exact hstarted
  have hjob : s.job.status.isTerminal = true := by
    refine h.job fun hidle => hstarted ?_
    rw [hidle]
    rfl
  cases hw : w.isCascade with
  | false =>
    obtain ⟨r, hr, hname, hr''⟩ := waiting_rowsAfter h.keyed hjob hw hr' hwaiting
    rw [← hname]
    exact hr''.elim (h.waiting r hr) (hok.1 r hr)
  | true =>
    cases w with
    | applyPlan plan =>
      rcases waiting_applyPlan h.keyed hr' hwaiting with ⟨r, hr, hname, hr''⟩ |
        ⟨hinserts, r, hr, hr''⟩
      · rw [← hname]
        exact h.waiting r hr hr''
      · -- the placeholder was still waiting, so the sweep is at its visits
        have hpast := h.waiting r hr hr''
        cases hsweep : s.sweep with
        | visiting left =>
          have := hok.2 (by simp [hsweep, Sweep.isVisiting])
          rw [hinserts] at this
          cases this
        | idle | requested => rfl
        | swept | finished => simp [hsweep, Sweep.past] at hpast
    | _ => simp [Write.isCascade] at hw

theorem Sweeping.visit (h : Sweeping s) {left : List String} (hsweep : s.sweep = .visiting left)
    (now : Time) (step : String) :
    Sweeping ⟨s.job, (cancelVisited step now).run s.rows, .visiting (left.filter (· != step))⟩ := by
  refine ⟨?_, fun _ => h.job (by simp [hsweep]), fun r' hr' hwaiting => ?_⟩
  · refine Keyed.of_forall₂ ?_ h.keyed
    simp only [Update.run, updateWhere]
    rw [List.forall₂_map_right_iff, List.forall₂_same]
    intro r _
    split <;> rfl
  · obtain ⟨r, hr, rfl⟩ := Update.mem_run.mp hr'
    split at hwaiting
    · cases hwaiting
    case isFalse hguard =>
      rw [if_neg hguard]
      have hleft := h.waiting r hr hwaiting
      have hother : r.stepName ≠ step := by
        intro hname
        refine hguard ?_
        have hs : r.status = .pending ∨ r.status = .ready := by
          simpa [isWaiting] using hwaiting
        rcases hs with hs | hs <;> simp [cancelVisited, cancelPendingSteps, hname, hs]
      simpa [hsweep, Sweep.past, hother] using hleft

theorem Sweeping.act {t : Cancellation} {a : CancelAction} (h : Sweeping s) (hok : Unswept s a)
    (hact : s.act a = some t) : Sweeping t := by
  cases a with
  | write now w =>
    cases hact
    exact h.write hok
  | jobWrite now w =>
    cases hact
    exact ⟨h.keyed, fun hs => jobAfter_terminal now w (h.job hs), h.waiting⟩
  | cancelJob now =>
    simp only [Cancellation.act] at hact
    split at hact
    case isTrue hactive =>
      cases hact
      refine ⟨h.keyed, fun _ => ?_, fun _ _ _ => rfl⟩
      simp [jobAfter, JobWrite.update, Update.onRow, JobRepo.cancel, hactive,
        JobStatus.isTerminal]
    case isFalse =>
      cases hact
      exact h
  | takeSnapshot =>
    simp only [Cancellation.act] at hact
    split at hact
    case h_1 hsweep =>
      cases hact
      refine ⟨h.keyed, fun _ => h.job (by simp [hsweep]), fun r hr hwaiting => ?_⟩
      have hmatch : (cancelPendingSteps 0).guard r = true := by
        simp_all [isWaiting, cancelPendingSteps]
      have hmem : r.stepName ∈ snapshotNames s.rows :=
        List.mem_map_of_mem (List.mem_filter.mpr ⟨hr, hmatch⟩)
      simpa [Sweep.past] using hmem
    case h_2 => cases hact
  | visit now step =>
    simp only [Cancellation.act] at hact
    split at hact
    case h_1 left hsweep =>
      split at hact
      · cases hact
        exact h.visit hsweep now step
      · cases hact
    case h_2 => cases hact
  | endVisits =>
    simp only [Cancellation.act] at hact
    split at hact
    case h_1 hsweep =>
      cases hact
      refine ⟨h.keyed, fun _ => h.job (by simp [hsweep]), fun r hr hwaiting => ?_⟩
      simpa [hsweep, Sweep.past] using h.waiting r hr hwaiting
    case h_2 => cases hact
  | cancelServerManaged now =>
    simp only [Cancellation.act] at hact
    split at hact
    case h_1 hsweep =>
      cases hact
      have hunswept : Unswept s (.write now .cancelServerManagedSteps) :=
        ⟨by simp [Write.revives], by simp [Write.inserts]⟩
      have hrows := h.write hunswept
      refine ⟨hrows.keyed, fun _ => h.job (by simp [hsweep]), fun r hr hwaiting => ?_⟩
      simpa [hsweep, Sweep.past] using hrows.waiting r hr hwaiting
    case h_2 => cases hact

structure Quiet (rows : List JobStepRow) : Prop where
  notReady : ∀ r ∈ rows, r.status ≠ .ready
  notClaimed : ∀ worker step now, (claimReadyStep worker step now).rowsAffected rows = 0

theorem Sweeping.quiet (h : Sweeping s) (hsweep : s.sweep = .finished) : Quiet s.rows := by
  have hready : ∀ r ∈ s.rows, r.status ≠ .ready := by
    intro r hr hs
    have hpast := h.waiting r hr (by simp [isWaiting, hs])
    simp [hsweep, Sweep.past] at hpast
  refine ⟨hready, fun worker step now => ?_⟩
  simp only [Update.rowsAffected, affected, List.countP_eq_zero]
  intro r hr hguard
  simp only [claimReadyStep, claimable, Bool.and_eq_true, beq_iff_eq] at hguard
  exact hready r hr hguard.2.1.1.1.1.1

theorem Sweeping.finished {t : Cancellation} {a : CancelAction} (h : Sweeping s)
    (hsweep : s.sweep = .finished) (hact : s.act a = some t) : t.sweep = .finished := by
  have hjob := h.job (by simp [hsweep])
  cases a with
  | cancelJob now =>
    have hactive : isActive s.job = false := by
      cases hs : s.job.status <;> simp_all [isActive, JobStatus.isTerminal]
    simp only [Cancellation.act, hactive, Bool.false_eq_true, if_false] at hact
    rwa [← Option.some.inj hact]
  | write now w | jobWrite now w =>
    rwa [← Option.some.inj hact]
  | takeSnapshot | visit now step | endVisits | cancelServerManaged now =>
    simp [Cancellation.act, hsweep] at hact

/--
Once the sweep of a cancelled job has finished, no step is ever ready again or handed to a worker,
in every run that puts no step back behind the sweep and inserts no instance under it.
-/
theorem cancelled_job_quiet {s mid last : Cancellation} {before after : List CancelAction}
    (hk : Keyed JobStepRow.stepName s.rows) (hidle : s.sweep = .idle)
    (hok : Meets Cancellation.act Unswept s (before ++ after))
    (hmid : exec Cancellation.act s before = some mid) (hswept : mid.sweep = .finished)
    (hlast : exec Cancellation.act mid after = some last) : Quiet last.rows := by
  obtain ⟨hbefore, hafter⟩ := hok.append hmid
  have hstart : Sweeping s :=
    ⟨hk, fun hs => absurd hidle hs, fun r _ _ => by rw [hidle]; rfl⟩
  have hsweeping : Sweeping mid :=
    exec_invariant Sweeping (fun _ _ _ => Sweeping.act) hstart hbefore hmid
  have hdone : Sweeping last ∧ last.sweep = .finished := by
    refine exec_invariant (fun t => Sweeping t ∧ t.sweep = .finished) ?_
      ⟨hsweeping, hswept⟩ hafter hlast
    rintro t a u ⟨ht, hfinished⟩ hunswept hact
    exact ⟨ht.act hunswept hact, ht.finished hfinished hact⟩
  exact hdone.1.quiet hdone.2

/-! ## Two cancellations -/

def cancelledRows (maxRetries : Option Int32) : List JobStepRow :=
  [{ readyRow with maxRetries := maxRetries },
    { readyRow with stepName := "b", status := .pending }]

def cancelledJob (maxRetries : Option Int32) : Cancellation :=
  { job := { status := .running }, rows := cancelledRows maxRetries }

def cancelWithCascade : List CancelAction :=
  [.write 10 (.claimReadyStep scriptWorker "a"), .cancelJob 20, .takeSnapshot,
    .write 21 (.applyPlan ⟨[.promote "b"]⟩), .visit 22 "b", .endVisits,
    .cancelServerManaged 23]

def lateActions : List CancelAction :=
  [.write 30 (.applyPlan ⟨[.promote "b"]⟩), .write 31 (.failOrRetry "a" "boom" .unconditional 5),
    .write 40 (.claimReadyStep scriptWorker "a")]

theorem cancelled_job_quiet_noRetries :
    Keyed JobStepRow.stepName (cancelledRows none) ∧
      Meets Cancellation.act Unswept (cancelledJob none) (cancelWithCascade ++ lateActions) ∧
      ∃ mid last, exec Cancellation.act (cancelledJob none) cancelWithCascade = some mid ∧
        mid.sweep = .finished ∧ exec Cancellation.act mid lateActions = some last ∧
        last.rows.map JobStepRow.status = [.failed, .cancelled] ∧ Quiet last.rows := by
  have hk : Keyed JobStepRow.stepName (cancelledRows none) := by
    unfold Keyed
    decide
  have hok : Meets Cancellation.act Unswept (cancelledJob none)
      (cancelWithCascade ++ lateActions) := by
    decide
  exact ⟨hk, hok, _, _, rfl, rfl, rfl, by decide, cancelled_job_quiet hk rfl hok rfl rfl rfl⟩

/-- With a retry left, the failed step is ready after the sweep, and is handed out again. -/
theorem cancelled_step_retried :
    ∃ mid last, exec Cancellation.act (cancelledJob (some 1)) cancelWithCascade = some mid ∧
      mid.sweep = .finished ∧ mid.job.status = .cancelled ∧
      mid.rows.map JobStepRow.status = [.running, .cancelled] ∧
      exec Cancellation.act mid
        [.write 31 (.failOrRetry "a" "boom" .unconditional 5)] = some last ∧
      last.rows.map JobStepRow.status = [.ready, .cancelled] ∧
      (claimReadyStep scriptWorker "a" 40).rowsAffected last.rows = 1 ∧ ¬ Quiet last.rows := by
  refine ⟨_, _, rfl, rfl, rfl, by decide, rfl, by decide, by decide, fun hquiet => ?_⟩
  exact absurd (hquiet.notClaimed scriptWorker "a" 40) (by decide)

/-- A loop is expanded between the snapshot and the visits: its instance is not cancelled. -/
example :
    (exec Cancellation.act
        { job := { status := .running },
          rows := [{ readyRow with status := .pending, forEachExpr := some "[1]" }] }
        [.cancelJob 20, .takeSnapshot,
          .write 21 (.applyPlan
            ⟨[.expand "a" [{ jobId := 0, stepName := "a[0]" }], .promote "a[0]"]⟩),
          .visit 22 "a", .endVisits, .cancelServerManaged 23]).map
      (fun s => s.rows.map JobStepRow.status) = some [.cancelled, .ready] := by
  decide

end Stroem.Engine
