import Stroem.Foundation.Table
import Stroem.Hooks

/-!
# Retrying a failed job

The winner of the terminal claim of a failed top-level job with retries left creates a retry job;
only if it gets none does it fire the `on_error` hooks.  `create_retry_job` is a sequence of
statements, any of which may fail: those up to the commit of the creation leave nothing behind, a
failed initialisation is compensated on the new job, and the delay is written last.  The caller
takes every error for "no retry job".
-/

namespace Stroem.Engine

open Foundation Hooks

/-- The statements of `create_retry_job`, in groups where nothing depends on the difference. -/
inductive RetryStatement where
  | prepare
  | beginCreation
  | createJob
  | attachFiles
  | createSteps
  | insertRefPins
  | linkRetry
  | linkFailed
  | commitCreation
  | init
  | beginCompensation
  | markFailed
  | failSteps
  | commitCompensation
  | setRetryAt
  deriving DecidableEq

def creationStatements : List RetryStatement :=
  [.prepare, .beginCreation, .createJob, .attachFiles, .createSteps, .insertRefPins, .linkRetry,
    .linkFailed, .commitCreation]

def compensationStatements : List RetryStatement :=
  [.beginCompensation, .markFailed, .failSteps, .commitCompensation]

def runStatements (fails : RetryStatement → Bool) (statements : List RetryStatement) :
    Except RetryStatement Unit :=
  match statements.find? fails with
  | some statement => .error statement
  | none => .ok ()

structure RetryTables where
  jobs : List LineageJob
  retryJobId : Option Uuid := none
  followedUp : List Uuid := []
  fired : List HookKind := []

structure FailedJob extends LineageJob where
  gitRef : Option String := none
  revision : Option String := none

def FailedJob.halfPinned (failed : FailedJob) : Bool :=
  failed.gitRef.isSome && failed.revision.isNone

def retryDelaySecs (retry : Option RetryConfig) (attempt : Nat) : Nat :=
  match retry with
  | some config =>
    match config.backoff with
    | .exponential => min (config.delaySecs * 2 ^ min attempt 6) (2 ^ 64 - 1)
    | .fixed => config.delaySecs
  | none => 30

def markJobFailed (id : Uuid) : Update LineageJob where
  guard j := j.jobId == id
  set j := { j with status := .failed }

def createLinkedJob (fails : RetryStatement → Bool) (new : LineageJob) (w : RetryTables) :
    Except RetryStatement Uuid × RetryTables :=
  match runStatements fails creationStatements with
  | .error statement => (.error statement, w)
  | .ok () =>
    let w := { w with jobs := w.jobs ++ [new], retryJobId := some new.jobId }
    match runStatements fails [.init] with
    | .ok () => (.ok new.jobId, w)
    | .error _ =>
      match runStatements fails compensationStatements with
      | .error statement => (.error statement, w)
      | .ok () => (.ok new.jobId, { w with jobs := (markJobFailed new.jobId).run w.jobs })

def createRetryJob (fails : RetryStatement → Bool) (config : HookConfig)
    (retry : Option RetryConfig) (failed : FailedJob) (id : Uuid) (w : RetryTables) :
    Except RetryStatement (Option Uuid) × RetryTables :=
  match failed.maxRetries with
  | none => (.ok none, w)
  | some max =>
    if max ≤ failed.retryAttempt then (.ok none, w)
    else if failed.halfPinned then (.error .prepare, w)
    else
      match createLinkedJob fails (retryJob config failed.toLineageJob id) w with
      | (.error statement, w) => (.error statement, w)
      | (.ok created, w) =>
        if 0 < retryDelaySecs retry failed.retryAttempt then
          match runStatements fails [.setRetryAt] with
          | .error statement => (.error statement, w)
          | .ok () => (.ok (some created), w)
        else (.ok (some created), w)

/-- The workspace and the task of a job, as its retry and its hooks need them. -/
structure ResolvedJob where
  config : HookConfig := {}
  retry : Option RetryConfig := none

/-- The retry and the hooks of `advance`, by the winner of the terminal claim. -/
def handleRetryAndHooks (fails : RetryStatement → Bool) (resolved : Option ResolvedJob)
    (failed : FailedJob) (id : Uuid) (w : RetryTables) : RetryTables :=
  match resolved with
  | none => w
  | some job =>
    if plansRetry failed.toLineageJob then
      match createRetryJob fails job.config job.retry failed id w with
      | (.ok (some created), w) => { w with followedUp := w.followedUp ++ [created] }
      | (.ok none, w) | (.error _, w) => { w with fired := w.fired ++ [hookKind failed.status] }
    else { w with fired := w.fired ++ [hookKind failed.status] }

/-! ## Retry or final failure -/

def retriesOf (failed : FailedJob) (jobs : List LineageJob) : List LineageJob :=
  jobs.filter fun j => j.sourceType == .retry && j.sourceIdJob == some failed.jobId

def Retried (failed : FailedJob) (w : RetryTables) : Prop :=
  ∃ r, retriesOf failed w.jobs = [r] ∧ w.retryJobId = some r.jobId ∧ w.followedUp = [r.jobId] ∧
    w.fired = []

def FailedForGood (failed : FailedJob) (w : RetryTables) : Prop :=
  retriesOf failed w.jobs = [] ∧ w.followedUp = [] ∧ w.fired = [.error]

def commits (fails : RetryStatement → Bool) (failed : FailedJob) : Bool :=
  !failed.halfPinned && creationStatements.all fun statement => !fails statement

/--
Once the retry job is committed no further statement fails, but for the initialisation where the
compensation goes through.
-/
def QuietAfterCommit (fails : RetryStatement → Bool) (retry : Option RetryConfig)
    (failed : FailedJob) : Prop :=
  commits fails failed = true →
    (fails .init = true → ∀ statement ∈ compensationStatements, fails statement = false) ∧
      (0 < retryDelaySecs retry failed.retryAttempt → fails .setRetryAt = false)

section

variable {fails : RetryStatement → Bool}

theorem runStatements_ok {statements : List RetryStatement}
    (h : ∀ statement ∈ statements, fails statement = false) :
    runStatements fails statements = .ok () := by
  have hnone : statements.find? fails = none :=
    List.find?_eq_none.mpr fun statement hmem => by simp [h statement hmem]
  rw [runStatements, hnone]

theorem runStatements_error {statements : List RetryStatement}
    (h : ¬∀ statement ∈ statements, fails statement = false) :
    ∃ statement, runStatements fails statements = .error statement := by
  cases hfind : statements.find? fails with
  | none =>
    refine absurd (fun statement hmem => ?_) h
    simpa using List.find?_eq_none.mp hfind statement hmem
  | some statement => exact ⟨statement, by rw [runStatements, hfind]⟩

theorem retriesOf_append_retryJob (config : HookConfig) (failed : FailedJob) (id : Uuid)
    (jobs : List LineageJob) :
    retriesOf failed (jobs ++ [retryJob config failed.toLineageJob id]) =
      retriesOf failed jobs ++ [retryJob config failed.toLineageJob id] := by
  simp [retriesOf, retryJob]

theorem retriesOf_markJobFailed (failed : FailedJob) (id : Uuid) (jobs : List LineageJob) :
    retriesOf failed ((markJobFailed id).run jobs) =
      (markJobFailed id).run (retriesOf failed jobs) := by
  simp only [retriesOf, Update.run, updateWhere, List.filter_map]
  congr 2
  funext j
  simp only [Function.comp_apply]
  split <;> rfl

structure Committed (failed : FailedJob) (new : LineageJob) (w w' : RetryTables) : Prop where
  retries : ∃ r, retriesOf failed w'.jobs = [r] ∧ r.jobId = new.jobId
  retryJobId : w'.retryJobId = some new.jobId
  followedUp : w'.followedUp = w.followedUp
  fired : w'.fired = w.fired

theorem createLinkedJob_uncommitted {new : LineageJob} (w : RetryTables)
    (h : ¬∀ statement ∈ creationStatements, fails statement = false) :
    ∃ statement, createLinkedJob fails new w = (.error statement, w) := by
  obtain ⟨statement, hrun⟩ := runStatements_error h
  exact ⟨statement, by rw [createLinkedJob, hrun]⟩

theorem createLinkedJob_committed (config : HookConfig) {failed : FailedJob} (id : Uuid)
    {new : LineageJob} (hnew : new = retryJob config failed.toLineageJob id) (w : RetryTables)
    (hnone : retriesOf failed w.jobs = [])
    (h : ∀ statement ∈ creationStatements, fails statement = false) :
    Committed failed new w (createLinkedJob fails new w).2 ∧
      ((fails .init = true → ∀ statement ∈ compensationStatements, fails statement = false) →
        (createLinkedJob fails new w).1 = .ok new.jobId) ∧
      (¬(fails .init = true → ∀ statement ∈ compensationStatements, fails statement = false) →
        ∃ statement, (createLinkedJob fails new w).1 = .error statement) := by
  have hretries : retriesOf failed (w.jobs ++ [new]) = [new] := by
    rw [hnew, retriesOf_append_retryJob, hnone, List.nil_append]
  have hcreated : Committed failed new w
      { w with jobs := w.jobs ++ [new], retryJobId := some new.jobId } :=
    ⟨⟨new, hretries, rfl⟩, rfl, rfl, rfl⟩
  rw [createLinkedJob, runStatements_ok h]
  cases hinit : fails .init with
  | false =>
    rw [runStatements_ok (by simpa using hinit)]
    exact ⟨hcreated, fun _ => rfl, fun hnot => absurd (fun htrue => nomatch htrue) hnot⟩
  | true =>
    obtain ⟨statement, hrun⟩ : ∃ statement, runStatements fails [.init] = .error statement :=
      runStatements_error (by simp [hinit])
    rw [hrun]
    by_cases hcomp : ∀ statement ∈ compensationStatements, fails statement = false
    · rw [runStatements_ok hcomp]
      refine ⟨⟨?_, rfl, rfl, rfl⟩, fun _ => rfl, fun hnot => absurd (fun _ => hcomp) hnot⟩
      refine ⟨(markJobFailed new.jobId).set new, ?_, rfl⟩
      rw [retriesOf_markJobFailed, hretries]
      simp [Update.run, updateWhere, markJobFailed]
    · obtain ⟨statement', hrun'⟩ := runStatements_error hcomp
      rw [hrun']
      exact ⟨hcreated, fun hok => absurd (hok rfl) hcomp, fun _ => ⟨statement', rfl⟩⟩

private theorem plansRetry_spec {failed : FailedJob} (h : plansRetry failed.toLineageJob = true) :
    failed.status = .failed ∧
      ∃ max, failed.maxRetries = some max ∧ ¬max ≤ failed.retryAttempt := by
  simp only [plansRetry, Bool.and_eq_true, beq_iff_eq, Option.any_eq_true,
    decide_eq_true_eq] at h
  obtain ⟨⟨hstatus, -⟩, max, hmax, hlt⟩ := h
  exact ⟨hstatus, max, hmax, Nat.not_le.mpr hlt⟩

private theorem handle_uncommitted {job : ResolvedJob} {failed : FailedJob} {id : Uuid}
    {w : RetryTables} (hplan : plansRetry failed.toLineageJob = true)
    (h : commits fails failed = false) :
    handleRetryAndHooks fails (some job) failed id w =
      { w with fired := w.fired ++ [.error] } := by
  obtain ⟨hstatus, max, hmax, hleft⟩ := plansRetry_spec hplan
  have hkind : hookKind failed.status = .error := by rw [hstatus]; rfl
  have herror : ∃ statement,
      createRetryJob fails job.config job.retry failed id w = (.error statement, w) := by
    rw [createRetryJob, hmax]
    dsimp only
    rw [if_neg hleft]
    cases hpin : failed.halfPinned with
    | true => exact ⟨.prepare, rfl⟩
    | false =>
      have hfails : ¬∀ statement ∈ creationStatements, fails statement = false := by
        simpa [commits, hpin] using h
      obtain ⟨statement, hrun⟩ := createLinkedJob_uncommitted w hfails
      exact ⟨statement, by rw [hrun]; rfl⟩
  obtain ⟨statement, hrun⟩ := herror
  simp only [handleRetryAndHooks, hplan, if_true, hrun, hkind]

private theorem handle_committed (job : ResolvedJob) {failed : FailedJob} (id : Uuid)
    {w : RetryTables}
    (hplan : plansRetry failed.toLineageJob = true) (hnone : retriesOf failed w.jobs = [])
    (h : commits fails failed = true) :
    ∃ w', Committed failed (retryJob job.config failed.toLineageJob id) w w' ∧
      (QuietAfterCommit fails job.retry failed →
        handleRetryAndHooks fails (some job) failed id w =
          { w' with followedUp := w'.followedUp ++ [id] }) ∧
      (¬QuietAfterCommit fails job.retry failed →
        handleRetryAndHooks fails (some job) failed id w =
          { w' with fired := w'.fired ++ [.error] }) := by
  obtain ⟨hstatus, max, hmax, hleft⟩ := plansRetry_spec hplan
  have hkind : hookKind failed.status = .error := by rw [hstatus]; rfl
  have hparts : failed.halfPinned = false ∧
      ∀ statement ∈ creationStatements, fails statement = false := by
    simpa [commits] using h
  obtain ⟨hcommitted, hok, herror⟩ :=
    createLinkedJob_committed job.config id rfl w hnone hparts.2
  rcases hpair : createLinkedJob fails (retryJob job.config failed.toLineageJob id) w with
    ⟨result, w'⟩
  rw [hpair] at hcommitted hok herror
  refine ⟨w', hcommitted, fun hquiet => ?_, fun hloud => ?_⟩
  · obtain ⟨hcomp, hdelay⟩ := hquiet h
    obtain rfl : result = .ok id := hok hcomp
    have hcreated : createRetryJob fails job.config job.retry failed id w =
        (.ok (some id), w') := by
      simp only [createRetryJob, hmax, hleft, hparts.1, hpair, if_false, Bool.false_eq_true]
      split
      case isTrue hpos => rw [runStatements_ok (by simpa using hdelay hpos)]
      case isFalse => rfl
    simp only [handleRetryAndHooks, hplan, if_true, hcreated]
  · have hrefused : ∃ statement,
        createRetryJob fails job.config job.retry failed id w = (.error statement, w') := by
      simp only [createRetryJob, hmax, hleft, hparts.1, hpair, if_false, Bool.false_eq_true]
      cases result with
      | error statement => exact ⟨statement, rfl⟩
      | ok created =>
        -- the initialisation went through, so it is the delay that was not written
        have hcomp : fails .init = true →
            ∀ statement ∈ compensationStatements, fails statement = false := by
          by_contra hcomp
          obtain ⟨statement, hstatement⟩ := herror hcomp
          cases hstatement
        have hdelay : ¬(0 < retryDelaySecs job.retry failed.retryAttempt →
            fails .setRetryAt = false) := fun hdelay => hloud fun _ => ⟨hcomp, hdelay⟩
        push Not at hdelay
        obtain ⟨statement, hrun⟩ : ∃ statement,
            runStatements fails [.setRetryAt] = .error statement :=
          runStatements_error (by simpa using hdelay.2)
        exact ⟨statement, by simp only [hdelay.1, if_true, hrun]⟩
    obtain ⟨statement, hrun⟩ := hrefused
    simp only [handleRetryAndHooks, hplan, if_true, hrun, hkind]

/--
Retry or final failure, never both: exactly when the workspace and the task of the job resolve,
and no statement fails after the retry job is committed, other than the initialisation where the
compensation goes through.
-/
theorem retry_or_final_iff (fails : RetryStatement → Bool) (resolved : Option ResolvedJob)
    {failed : FailedJob} (id : Uuid) {w : RetryTables}
    (hplan : plansRetry failed.toLineageJob = true) (hnone : retriesOf failed w.jobs = [])
    (hfollowed : w.followedUp = []) (hfired : w.fired = []) :
    (Retried failed (handleRetryAndHooks fails resolved failed id w) ∨
      FailedForGood failed (handleRetryAndHooks fails resolved failed id w)) ↔
    ∃ job, resolved = some job ∧ QuietAfterCommit fails job.retry failed := by
  cases resolved with
  | none =>
    -- neither a retry job nor hooks
    refine iff_of_false ?_ (by simp)
    rintro (⟨r, hretries, -⟩ | ⟨-, -, hhooks⟩)
    · have hempty : retriesOf failed w.jobs = [r] := hretries
      rw [hnone] at hempty
      cases hempty
    · have hempty : w.fired = [.error] := hhooks
      rw [hfired] at hempty
      cases hempty
  | some job =>
    rw [show (∃ job', some job = some job' ∧ QuietAfterCommit fails job'.retry failed) ↔
      QuietAfterCommit fails job.retry failed by simp]
    cases hcommits : commits fails failed with
    | false =>
      rw [handle_uncommitted hplan hcommits]
      refine iff_of_true (.inr ⟨hnone, hfollowed, by rw [hfired]; rfl⟩) fun h => ?_
      rw [hcommits] at h
      cases h
    | true =>
      obtain ⟨w', hcommitted, hquiet, hloud⟩ :=
        handle_committed job id hplan hnone hcommits
      obtain ⟨r, hretries, hr⟩ := hcommitted.retries
      by_cases h : QuietAfterCommit fails job.retry failed
      · rw [hquiet h]
        refine iff_of_true (.inl ⟨r, hretries, ?_, ?_, ?_⟩) h
        · rw [hr]
          exact hcommitted.retryJobId
        · rw [hr, hcommitted.followedUp, hfollowed]
          rfl
        · rw [hcommitted.fired, hfired]
      · rw [hloud h]
        refine iff_of_false ?_ h
        rintro (⟨_, _, _, _, hnofire⟩ | ⟨hnoretry, _, _⟩)
        · simp at hnofire
        · rw [hretries] at hnoretry
          cases hnoretry

/-! ## The delay is not written -/

def failedOnce : FailedJob :=
  { jobId := 1, taskName := "a", sourceType := .user, status := .failed, maxRetries := some 1 }

def failedTables : RetryTables := { jobs := [failedOnce.toLineageJob] }

def initFails (statement : RetryStatement) : Bool := statement == .init

theorem retry_or_final_initFails :
    QuietAfterCommit initFails (some {}) failedOnce ∧
      (Retried failedOnce
          (handleRetryAndHooks initFails (some ⟨{}, some {}⟩) failedOnce 2 failedTables) ∨
        FailedForGood failedOnce
          (handleRetryAndHooks initFails (some ⟨{}, some {}⟩) failedOnce 2 failedTables)) := by
  have hquiet : QuietAfterCommit initFails (some {}) failedOnce :=
    fun _ => ⟨fun _ => by decide, fun _ => by decide⟩
  exact ⟨hquiet, (retry_or_final_iff initFails (some ⟨{}, some {}⟩) 2 (by decide) (by decide) rfl
    rfl).mpr ⟨_, rfl, hquiet⟩⟩

/--
The update of `retry_at` fails: the retry job is there and will run, nothing follows its creation
up, and the hooks of the final failure fire.
-/
theorem retry_and_hooks :
    ∃ w, w = handleRetryAndHooks (· == .setRetryAt) (some ⟨{}, some {}⟩) failedOnce 2
      failedTables ∧
      (retriesOf failedOnce w.jobs).map LineageJob.jobId = [2] ∧ w.retryJobId = some 2 ∧
      w.followedUp = [] ∧ w.fired = [.error] ∧
      ¬(Retried failedOnce w ∨ FailedForGood failedOnce w) := by
  refine ⟨_, rfl, by decide, by decide, by decide, by decide, ?_⟩
  rintro (⟨_, -, -, -, hfired⟩ | ⟨hretries, -, -⟩)
  · exact absurd hfired (by decide)
  · exact absurd hretries (by decide)

end

end Stroem.Engine
