import Stroem.Engine.Rowwise
import Stroem.Engine.Stamps

/-!
# Retry accounting

A step row over all its attempts: it is promoted, taken by a worker or a dispatcher, and
finished or put back by `fail_or_retry`, which any of its callers may invoke at any time.  A
state of a run is what another transaction can see.
-/

namespace Stroem.Engine

open Foundation JobStepRepo JobCreation Cascade

structure Attempts where
  row : JobStepRow
  starts : Nat := 0

inductive AttemptAction where
  | promote (now : Time)
  | claim (now : Time) (worker : Worker)
  | dispatch (now : Time) (pin : Option TaskPin)
  | suspend (now : Time)
  | start (now : Time) (workerId : Uuid)
  | fail (now : Time) (error : String) (report : FailureReport) (delaySecs : Nat)
  | complete (now : Time) (output : Option Json)
  | approve (now : Time) (output : Option Json)

namespace Attempts

def take (s : Attempts) (row : JobStepRow) : Attempts :=
  ⟨row, if s.row.status = .ready ∧ row.status ≠ .ready then s.starts + 1 else s.starts⟩

def act (s : Attempts) : AttemptAction → Option Attempts
  | .promote now => some { s with row := (promoteStepsTx [s.row.stepName] now).onRow s.row }
  | .claim now worker =>
    some (s.take (rowAfter now .running (.claimReadyStep worker s.row.stepName) s.row))
  | .dispatch now pin =>
    some (s.take (rowAfter now .running (.claimTaskDispatch s.row.stepName pin) s.row))
  | .suspend now => some (s.take (rowAfter now .running (.markSuspended s.row.stepName) s.row))
  | .start now workerId =>
    some { s with row := rowAfter now .running (.markRunning s.row.stepName workerId) s.row }
  | .fail now error report delaySecs =>
    let failure := Write.failOrRetry s.row.stepName error report delaySecs
    some { s with row := rowAfter now .running failure s.row }
  | .complete now output =>
    some { s with row := rowAfter now .running (.markCompleted s.row.stepName output) s.row }
  | .approve now output =>
    some { s with row := rowAfter now .running (.approveStep s.row.stepName output) s.row }

end Attempts

def retryBudget (r : JobStepRow) : Int :=
  r.maxRetries.elim 0 Int32.toInt

structure Fresh (r : JobStepRow) : Prop where
  status : r.status = .pending ∨ r.status = .ready
  retryAttempt : r.retryAttempt = 0
  retryHistory : r.retryHistory = []
  budget : 0 ≤ retryBudget r

theorem hasRetryLeft_iff {r : JobStepRow} (h : 0 ≤ r.retryAttempt.toInt) :
    hasRetryLeft r = true ↔ r.retryAttempt.toInt < retryBudget r := by
  cases hmax : r.maxRetries with
  | none => simpa [hasRetryLeft, retryBudget, hmax] using h
  | some max => simp [hasRetryLeft, retryBudget, hmax, Int32.lt_iff_toInt_lt]

def underWay (r : JobStepRow) : Nat :=
  if r.status = .pending ∨ r.status = .ready then 0 else 1

private theorem underWay_le_one (r : JobStepRow) : underWay r ≤ 1 := by
  unfold underWay
  split <;> omega

structure Balanced (max : Int) (s : Attempts) : Prop where
  budget : retryBudget s.row = max
  history : (s.row.retryHistory.length : Int) = s.row.retryAttempt.toInt
  bound : s.row.retryAttempt.toInt ≤ max
  starts : (s.starts : Int) ≤ s.row.retryAttempt.toInt + underWay s.row
  failed : s.row.status = .failed → hasRetryLeft s.row = false

theorem Fresh.balanced {r : JobStepRow} (h : Fresh r) : Balanced (retryBudget r) ⟨r, 0⟩ where
  budget := rfl
  history := by simp [h.retryAttempt, h.retryHistory]
  bound := by simpa [h.retryAttempt] using h.budget
  starts := by simp [h.retryAttempt]
  failed hs := by
    rcases h.status with hs' | hs' <;> simp [hs'] at hs

structure KeepsAccounts (r r' : JobStepRow) : Prop where
  maxRetries : r'.maxRetries = r.maxRetries
  retryAttempt : r'.retryAttempt = r.retryAttempt
  retryHistory : r'.retryHistory = r.retryHistory

theorem KeepsAccounts.refl (r : JobStepRow) : KeepsAccounts r r := ⟨rfl, rfl, rfl⟩

theorem KeepsAccounts.onRow {u : Update JobStepRow} (h : ∀ r, KeepsAccounts r (u.set r))
    (r : JobStepRow) : KeepsAccounts r (u.onRow r) := by
  unfold Update.onRow
  split
  · exact h r
  · exact .refl r

theorem Balanced.move {max : Int} {s : Attempts} {row : JobStepRow} {starts : Nat}
    (h : Balanced max s) (hkeeps : KeepsAccounts s.row row)
    (hfailed : row.status = .failed → s.row.status = .failed)
    (hstarts : starts + underWay s.row ≤ s.starts + underWay row) :
    Balanced max ⟨row, starts⟩ := by
  have hbudget : retryBudget row = retryBudget s.row := by
    simp [retryBudget, hkeeps.maxRetries]
  have hleft : hasRetryLeft row = hasRetryLeft s.row := by
    simp [hasRetryLeft, hkeeps.maxRetries, hkeeps.retryAttempt]
  refine ⟨hbudget.trans h.budget, ?_, ?_, ?_, fun hs => ?_⟩
  · rw [hkeeps.retryHistory, hkeeps.retryAttempt]
    exact h.history
  · rw [hkeeps.retryAttempt]
    exact h.bound
  · have hs := h.starts
    show (starts : Int) ≤ row.retryAttempt.toInt + underWay row
    rw [hkeeps.retryAttempt]
    omega
  · rw [hleft]
    exact h.failed (hfailed hs)

theorem Balanced.failedRow {max : Int} {s : Attempts} (h : Balanced max s) (error : String)
    (delaySecs now : Nat) :
    Balanced max { s with row := Engine.failedRow error delaySecs now s.row } := by
  have hnonneg : 0 ≤ s.row.retryAttempt.toInt := by
    rw [← h.history]
    exact Int.natCast_nonneg _
  have hunder := underWay_le_one s.row
  have hstarts := h.starts
  unfold Engine.failedRow
  cases hretry : hasRetryLeft s.row with
  | true =>
    have hlt := (hasRetryLeft_iff hnonneg).mp hretry
    rw [h.budget] at hlt
    have hsucc : (s.row.retryAttempt + 1).toInt = s.row.retryAttempt.toInt + 1 := by
      rw [Int32.toInt_add]
      have hmax : retryBudget s.row < 2 ^ 31 := by
        unfold retryBudget
        cases s.row.maxRetries with
        | none => simp
        | some max => exact max.toInt_lt
      rw [h.budget] at hmax
      refine Int.bmod_eq_of_le ?_ ?_
      · show -(2 ^ 32 : Int) / 2 ≤ s.row.retryAttempt.toInt + 1
        omega
      · show s.row.retryAttempt.toInt + 1 < (2 ^ 32 + 1 : Int) / 2
        omega
    refine ⟨h.budget, ?_, ?_, ?_, nofun⟩
    · simp only [scheduleRetry, if_true, List.length_append, List.length_singleton, hsucc]
      have := h.history
      omega
    · simp only [scheduleRetry, if_true, hsucc]
      omega
    · simp only [scheduleRetry, if_true, hsucc, underWay, or_true]
      omega
  | false =>
    simp only [Bool.false_eq_true, if_false]
    refine ⟨h.budget, h.history, h.bound, ?_, fun _ => hretry⟩
    simp only [markFailed, underWay, reduceCtorEq, or_self, if_false]
    omega

private theorem Balanced.take {max : Int} {s : Attempts} (h : Balanced max s)
    {u : Update JobStepRow} (hguard : ∀ r, u.guard r = true → r.status = .ready)
    (hkeeps : ∀ r, KeepsAccounts r (u.set r))
    (hset : ∀ r, (u.set r).status = .running ∨ (u.set r).status = .suspended) :
    Balanced max (s.take (u.onRow s.row)) := by
  refine h.move (KeepsAccounts.onRow hkeeps s.row) ?_ ?_
  · unfold Update.onRow
    split
    · intro hs
      rcases hset s.row with hs' | hs' <;> simp [hs'] at hs
    · exact id
  · unfold Update.onRow
    split
    case isTrue hr =>
      have hready := hguard s.row hr
      rcases hset s.row with hs | hs <;> simp [hs, hready, underWay]
    case isFalse =>
      simp

private theorem Balanced.update {max : Int} {s : Attempts} (h : Balanced max s)
    (u : Update JobStepRow) (hkeeps : ∀ r, KeepsAccounts r (u.set r))
    (hset : u.guard s.row = true →
      (u.set s.row).status ≠ .failed ∧ underWay s.row ≤ underWay (u.set s.row)) :
    Balanced max { s with row := u.onRow s.row } := by
  refine h.move (KeepsAccounts.onRow hkeeps s.row) ?_ ?_
  · unfold Update.onRow
    split
    case isTrue hr => exact fun hs => absurd hs (hset hr).1
    case isFalse => exact id
  · unfold Update.onRow
    split
    case isTrue hr => exact Nat.add_le_add_left (hset hr).2 _
    case isFalse => exact le_refl _

theorem Attempts.balanced_act {max : Int} {s t : Attempts} {a : AttemptAction}
    (h : Balanced max s) (hact : s.act a = some t) : Balanced max t := by
  cases a with
  | promote now =>
    cases hact
    refine h.update (promoteStepsTx [s.row.stepName] now) (fun _ => ⟨rfl, rfl, rfl⟩) fun hr => ?_
    have hpending : s.row.status = .pending := by
      simpa [promoteStepsTx] using hr
    simp [promoteStepsTx, underWay, hpending]
  | claim now worker =>
    cases hact
    refine h.take (u := claimReadyStep worker s.row.stepName now) (fun r hr => ?_)
      (fun _ => ⟨rfl, rfl, rfl⟩) (fun _ => .inl rfl)
    simp only [claimReadyStep, claimable, Bool.and_eq_true, beq_iff_eq] at hr
    exact hr.2.1.1.1.1.1
  | dispatch now pin =>
    cases hact
    refine h.take (u := claimTaskDispatch s.row.stepName pin now) (fun r hr => ?_)
      (fun _ => ⟨rfl, rfl, rfl⟩) (fun _ => .inl rfl)
    simp only [claimTaskDispatch, Bool.and_eq_true, beq_iff_eq] at hr
    exact hr.1.2
  | suspend now =>
    cases hact
    refine h.take (u := markSuspended s.row.stepName now) (fun r hr => ?_)
      (fun _ => ⟨rfl, rfl, rfl⟩) (fun _ => .inr rfl)
    simp only [markSuspended, Bool.and_eq_true, beq_iff_eq] at hr
    exact hr.2
  | start now workerId =>
    cases hact
    exact h.update (markRunning s.row.stepName workerId now) (fun _ => ⟨rfl, rfl, rfl⟩)
      fun _ => ⟨(fun h => by cases h), underWay_le_one s.row⟩
  | fail now error report delaySecs =>
    cases hact
    simp only [rowAfter_failOrRetry]
    split
    · exact h.failedRow error delaySecs now
    · exact h
  | complete now output =>
    cases hact
    exact h.update (markCompleted s.row.stepName output now) (fun _ => ⟨rfl, rfl, rfl⟩)
      fun _ => ⟨(fun h => by cases h), underWay_le_one s.row⟩
  | approve now output =>
    cases hact
    exact h.update (approveStep s.row.stepName output now) (fun _ => ⟨rfl, rfl, rfl⟩)
      fun _ => ⟨(fun h => by cases h), underWay_le_one s.row⟩

/--
In every run, the history has as many entries as retries are used, these are within the budget,
and the row is `failed` only when no retry is left.
-/
theorem retry_accounting {row : JobStepRow} {s : Attempts} {as : List AttemptAction}
    (hfresh : Fresh row) (hrun : exec Attempts.act ⟨row, 0⟩ as = some s) :
    (s.row.retryHistory.length : Int) = s.row.retryAttempt.toInt ∧
      s.row.retryAttempt.toInt ≤ retryBudget row ∧ (s.starts : Int) ≤ retryBudget row + 1 ∧
      (s.row.status = .failed → hasRetryLeft s.row = false) := by
  have hbalanced : Balanced (retryBudget row) s :=
    exec_invariant (Balanced (retryBudget row)) (fun _ _ _ h _ => Attempts.balanced_act h)
      hfresh.balanced (Meets.of_forall (fun _ _ => trivial) _ as) hrun
  have hstarts := hbalanced.starts
  have hbound := hbalanced.bound
  have hunder := underWay_le_one s.row
  refine ⟨hbalanced.history, hbound, ?_, hbalanced.failed⟩
  omega

def twoAttempts : List AttemptAction :=
  [.claim 10 scriptWorker, .fail 20 "Step timed out" (.claimed (some ⟨7, 10⟩)) 5,
    .claim 30 scriptWorker, .fail 40 "Process exited with code 1" .unconditional 5]

theorem retry_accounting_twoAttempts :
    Fresh { readyRow with maxRetries := some 1 } ∧
      ∃ s, exec Attempts.act ⟨{ readyRow with maxRetries := some 1 }, 0⟩ twoAttempts = some s ∧
        s.row.status = .failed ∧ s.starts = 2 ∧
        (s.row.retryHistory.length : Int) = s.row.retryAttempt.toInt ∧
        s.row.retryAttempt.toInt ≤ retryBudget { readyRow with maxRetries := some 1 } ∧
        (s.starts : Int) ≤ retryBudget { readyRow with maxRetries := some 1 } + 1 ∧
        (s.row.status = .failed → hasRetryLeft s.row = false) := by
  have hfresh : Fresh { readyRow with maxRetries := some 1 } :=
    ⟨.inr rfl, rfl, rfl, by decide⟩
  have hrun : exec Attempts.act ⟨{ readyRow with maxRetries := some 1 }, 0⟩ twoAttempts =
      some _ := rfl
  exact ⟨hfresh, _, hrun, by decide, by decide, retry_accounting hfresh hrun⟩

/-! ## Fresh rows -/

private theorem toI32_nonneg {n : Nat} {i : Int32} (h : toI32 n = some i) : 0 ≤ i.toInt := by
  unfold toI32 at h
  split at h
  case isTrue hlt =>
    cases h
    rw [Int32.toInt_ofNat_of_lt hlt]
    exact Int.natCast_nonneg n
  case isFalse => cases h

theorem retryCols_nonneg {config : Option RetryConfig} {cols : RetryCols}
    (h : retryCols config = some cols) : 0 ≤ cols.maxRetries.elim 0 Int32.toInt := by
  cases config with
  | none =>
    cases h
    exact le_refl _
  | some r =>
    simp only [retryCols, Option.bind_eq_bind] at h
    split at h
    · cases h
    · simp only [Option.bind_eq_some_iff] at h
      obtain ⟨attempts, hattempts, delay, -, hcols⟩ := h
      cases hcols
      exact toI32_nonneg hattempts

theorem stepRow_fresh {jsonText : Json → String} {defaults : JobDefaults} {jobId : Uuid}
    {source : String → FlowStep → StepSource} {entry : String × FlowStep} {new : NewJobStep}
    (now : Time) (h : stepRow jsonText defaults jobId source entry = some new) :
    Fresh (insertedRow now new) := by
  unfold stepRow at h
  split at h
  · simp only [buildStep, Option.bind_eq_bind, Option.bind_eq_some_iff] at h
    obtain ⟨retry, hretry, timeout, -, hnew⟩ := h
    cases hnew
    exact ⟨initialStatus_pending_or_ready entry.2, rfl, rfl, retryCols_nonneg hretry⟩
  · simp only [deferredRow, Option.bind_eq_bind, Option.bind_eq_some_iff] at h
    obtain ⟨retry, hretry, timeout, -, hnew⟩ := h
    cases hnew
    exact ⟨initialStatus_pending_or_ready entry.2, rfl, rfl, retryCols_nonneg hretry⟩

theorem expandInstance_fresh {fs : FlowStep} {jobId : Uuid} {total : Int32} {r : JobStepRow}
    {i : Nat} {item : Json} (now : Time) (h : 0 ≤ retryBudget r) :
    Fresh (insertedRow now (expandInstance fs jobId total r i item)) := by
  refine ⟨?_, rfl, rfl, h⟩
  simp only [insertedRow, expandInstance]
  split
  · exact .inl rfl
  · exact .inr rfl

end Stroem.Engine

/-!
# The delay of a retry job

A retry job with a delay is committed with its root steps ready, then initialised, and only then
is `retry_at` written, to the steps that are ready at that time.  Workers claim and dispatchers
dispatch from the commit on.

A worker asks for `retry_at`, so it takes a step that the write has reached in time.  A step that
is taken before the write, or made ready after it, is taken with no `retry_at` at all, and the
dispatch of task and approval steps does not ask.
-/

namespace Stroem.Engine

open Foundation JobStepRepo Cascade

structure DelayedJob where
  rows : List JobStepRow
  found : Option (List String) := none

inductive DelayAction where
  | write (now : Time) (jobStatus : JobStatus) (write : Write)
  | delay (retryAt : Time)

def DelayedJob.act (s : DelayedJob) : DelayAction → Option DelayedJob
  | .write now jobStatus w => some { s with rows := rowsAfter now jobStatus s.rows w }
  | .delay retryAt =>
    if s.found.isSome then none
    else
      some
        { rows := (delayReadySteps retryAt).run s.rows
          found := some ((s.rows.filter (delayReadySteps retryAt).guard).map JobStepRow.stepName) }

/-! ## Taking a step -/

def Write.dispatches : Write → Bool
  | .claimTaskDispatch _ _ | .markSuspended _ => true
  | _ => false

def Write.takes (now : Time) (r : JobStepRow) : Write → Bool
  | .claimReadyStep worker step => (JobStepRepo.claimReadyStep worker step now).guard r
  | .claimTaskDispatch step pin => (JobStepRepo.claimTaskDispatch step pin now).guard r
  | .markSuspended step => (JobStepRepo.markSuspended step now).guard r
  | _ => false

def OnTime (s : DelayedJob) : DelayAction → Prop
  | .write now _ w => ∀ r ∈ s.rows, w.takes now r = true → r.retryAt.any (· ≤ now) = true
  | .delay _ => True

def AfterDelay (s : DelayedJob) : DelayAction → Prop
  | .write now _ w => ∀ r ∈ s.rows, w.takes now r = true →
      w.dispatches = false ∧ s.found.any (·.contains r.stepName) = true
  | .delay _ => True

instance (s : DelayedJob) : (a : DelayAction) → Decidable (AfterDelay s a)
  | .write now _ w => inferInstanceAs (Decidable (∀ r ∈ s.rows, w.takes now r = true →
      w.dispatches = false ∧ s.found.any (·.contains r.stepName) = true))
  | .delay _ => .isTrue trivial

/-! ## The steps that the delay found -/

structure DelayKept (s : DelayedJob) : Prop where
  keyed : Keyed JobStepRow.stepName s.rows
  there : ∀ found, s.found = some found → ∀ name ∈ found, ∃ r ∈ s.rows, r.stepName = name
  retryAt : ∀ found, s.found = some found → ∀ r ∈ s.rows, r.stepName ∈ found →
    r.retryAt.isSome = true

def HasRetryAt (names : List String) (r : JobStepRow) : Prop :=
  r.stepName ∈ names → r.retryAt.isSome = true

theorem hasRetryAt_stays (names : List String) : Stays (HasRetryAt names) := by
  intro r r' hkept h
  rw [hkept]
  exact h

theorem hasRetryAt_run {names : List String} {u : Update JobStepRow} {rows : List JobStepRow}
    (h : ∀ r ∈ rows, HasRetryAt names r) (hset : ∀ r, (u.set r).stepName = r.stepName)
    (hretry : ∀ r, r.retryAt.isSome = true → (u.set r).retryAt.isSome = true) :
    ∀ r ∈ u.run rows, HasRetryAt names r := by
  intro r hr hname
  obtain ⟨r₀, hr₀, rfl⟩ := Update.mem_run.mp hr
  split at hname
  case isTrue hguard =>
    rw [if_pos hguard]
    exact hretry r₀ (h r₀ hr₀ (hset r₀ ▸ hname))
  case isFalse hguard =>
    rw [if_neg hguard]
    exact h r₀ hr₀ hname

private theorem hasRetryAt_releaseClaim {names : List String} {rows : List JobStepRow}
    (jobStatus : JobStatus) (step : String) (claim : ClaimIdentity) (retryAfter : Nat)
    (maxReleases : Int32) (now : Time) (h : ∀ r ∈ rows, HasRetryAt names r) :
    ∀ r ∈ (releaseClaim jobStatus step claim retryAfter maxReleases now rows).2,
      HasRetryAt names r := by
  unfold releaseClaim
  split
  · exact h
  · split
    · exact hasRetryAt_run (hasRetryAt_run h (fun _ => rfl) fun _ h => h) (fun _ => rfl)
        fun _ h => h
    · split
      · exact h
      · exact hasRetryAt_run h (fun _ => rfl) fun _ _ => rfl

theorem hasRetryAt_rowsAfter {names : List String} {now : Time} {jobStatus : JobStatus}
    {rows : List JobStepRow} {w : Write} (hk : Keyed JobStepRow.stepName rows)
    (hthere : ∀ name ∈ names, ∃ r ∈ rows, r.stepName = name)
    (h : ∀ r ∈ rows, HasRetryAt names r) :
    ∀ r ∈ rowsAfter now jobStatus rows w, HasRetryAt names r := by
  cases hw : w.rowwise with
  | true =>
    rw [rowsAfter_eq_map hk hw]
    intro r hr hname
    obtain ⟨r₀, hr₀, rfl⟩ := List.mem_map.mp hr
    have hcarries := rowAfter_carries now jobStatus hw r₀
    exact hcarries.retryAt (h r₀ hr₀ (hcarries.stepName ▸ hname))
  | false =>
    cases w with
    | releaseClaim step claim retryAfter maxReleases =>
      exact hasRetryAt_releaseClaim jobStatus step claim retryAfter maxReleases now h
    | applyPlan plan =>
      rcases rowsAfter_applyPlan now jobStatus plan hk with hsame | heffect
      · rwa [hsame]
      · simp only [rowsAfter]
        split
        case h_1 rows' happly =>
          refine (hasRetryAt_stays names).plan h (fun c hc i hi hname => ?_) happly
          obtain ⟨r, hr, hr'⟩ := hthere _ hname
          exact absurd hr' (heffect.fresh i (List.mem_flatMap.mpr ⟨c, hc, hi⟩) r hr)
        case h_2 => exact h
    | _ => cases hw

theorem DelayKept.act {s t : DelayedJob} {a : DelayAction} (h : DelayKept s)
    (hact : s.act a = some t) : DelayKept t := by
  cases a with
  | write now jobStatus w =>
    cases hact
    refine ⟨keyed_rowsAfter h.keyed, fun found hfound name hname => ?_, fun found hfound => ?_⟩
    · obtain ⟨r, hr, hr'⟩ := h.there found hfound name hname
      have hpersists : Persists s.rows (rowsAfter now jobStatus s.rows w) :=
        persists_rowsAfter h.keyed
      obtain ⟨r', hr'', hkeeps⟩ := hpersists r hr
      exact ⟨r', hr'', hkeeps.stepName.trans hr'⟩
    · exact hasRetryAt_rowsAfter h.keyed (h.there found hfound) (h.retryAt found hfound)
  | delay retryAt =>
    simp only [DelayedJob.act] at hact
    split at hact
    · cases hact
    · cases hact
      refine ⟨h.keyed.updateWhere fun _ => rfl, ?_, ?_⟩
      · intro found hfound name hname
        cases hfound
        obtain ⟨r, hr, rfl⟩ := List.mem_map.mp hname
        refine ⟨_, Update.mem_run.mpr ⟨r, (List.mem_filter.mp hr).1, rfl⟩, ?_⟩
        split <;> rfl
      · intro found hfound r hr hname
        cases hfound
        obtain ⟨r₀, hr₀, rfl⟩ := Update.mem_run.mp hr
        obtain ⟨r₁, hr₁, hsame⟩ := List.mem_map.mp hname
        obtain ⟨hr₁, hready⟩ := List.mem_filter.mp hr₁
        have hsame' : r₁.stepName = r₀.stepName := by
          rw [hsame]
          split <;> rfl
        obtain rfl := h.keyed.eq_of_key hr₁ hr₀ hsame'
        rw [if_pos hready]
        rfl

theorem DelayKept.onTime {s : DelayedJob} {a : DelayAction} (h : DelayKept s)
    (hafter : AfterDelay s a) : OnTime s a := by
  cases a with
  | delay retryAt => trivial
  | write now jobStatus w =>
    intro r hr htakes
    obtain ⟨hclaim, hfound⟩ := hafter r hr htakes
    obtain ⟨found, hfound, hname⟩ := Option.any_eq_true _ _ |>.mp hfound
    have hset := h.retryAt found hfound r hr (by simpa using hname)
    obtain ⟨retryAt, hretry⟩ := Option.isSome_iff_exists.mp hset
    cases w with
    | claimReadyStep worker step =>
      simp only [Write.takes, claimReadyStep, claimable, Bool.and_eq_true] at htakes
      simpa [hretry] using htakes.2.2
    | claimTaskDispatch step pin => cases hclaim
    | markSuspended step => cases hclaim
    | _ => cases htakes

/--
No step of a retry job is taken before its `retry_at`, in every interleaving where steps are
claimed only after the delay is written and no task or approval step is dispatched.
-/
theorem retry_delay_respected {s : DelayedJob} {as : List DelayAction}
    (hk : Keyed JobStepRow.stepName s.rows) (hnew : s.found = none)
    (hok : Meets DelayedJob.act AfterDelay s as) :
    ∀ before a after mid, before ++ a :: after = as →
      exec DelayedJob.act s before = some mid → OnTime mid a := by
  rintro before a after mid rfl hmid
  obtain ⟨hbefore, hrest⟩ := hok.append hmid
  have hstart : DelayKept s := ⟨hk, by simp [hnew], by simp [hnew]⟩
  have hmid' : DelayKept mid :=
    exec_invariant DelayKept (fun _ _ _ h _ => h.act) hstart hbefore hmid
  exact hmid'.onTime hrest.1

/-! ## A claim before and after the write -/

def retriedRows : List JobStepRow :=
  [readyRow, { stepName := "sign-off", status := .ready, actionType := .approval }]

def claimsAfterDelay : List DelayAction :=
  [.delay 40, .write 39 .running (.claimReadyStep scriptWorker "a"),
    .write 40 .running (.claimReadyStep scriptWorker "a")]

theorem retry_delay_respected_oneStep :
    Meets DelayedJob.act AfterDelay ⟨[readyRow], none⟩ claimsAfterDelay ∧
      ∀ before a after mid, before ++ a :: after = claimsAfterDelay →
        exec DelayedJob.act ⟨[readyRow], none⟩ before = some mid → OnTime mid a := by
  have hok : Meets DelayedJob.act AfterDelay ⟨[readyRow], none⟩ claimsAfterDelay := by
    refine ⟨trivial, fun t ht => ⟨?_, fun u hu => ⟨?_, fun _ _ => trivial⟩⟩⟩
    · cases ht
      decide
    · cases ht
      cases hu
      decide
  refine ⟨hok, retry_delay_respected ?_ rfl hok⟩
  unfold Keyed
  decide

/--
Before the delay is written a worker is handed the script step and the initialisation suspends
the approval step, both without a `retry_at`.
-/
theorem taken_before_delay :
    ∃ mid last, exec DelayedJob.act ⟨retriedRows, none⟩
        [.write 10 .pending (.markSuspended "sign-off")] = some mid ∧
      exec DelayedJob.act mid [.write 11 .running (.claimReadyStep scriptWorker "a"), .delay 40] =
        some last ∧
      last.rows.map (fun r => (r.status, r.retryAt)) = [(.running, none), (.suspended, none)] ∧
      ¬OnTime ⟨retriedRows, none⟩ (.write 10 .pending (.markSuspended "sign-off")) ∧
      ¬OnTime mid (.write 11 .running (.claimReadyStep scriptWorker "a")) := by
  refine ⟨_, _, rfl, rfl, by decide, ?_, ?_⟩
  · intro h
    exact absurd (h _ (List.mem_cons_of_mem _ List.mem_cons_self) (by decide)) (by decide)
  · intro h
    exact absurd (h _ List.mem_cons_self (by decide)) (by decide)

end Stroem.Engine
