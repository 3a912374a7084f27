import Stroem.Engine.Writes

/-!
# One row at a time

Most writers name one step, and what becomes of a row depends on the row alone.  `rowAfter` is
such a write on a table of one row; `rowsAfter_eq_map` says that a table is written row by row.
The two exceptions are the release of a claim, which may cancel the siblings of its step, and
the cascade.
-/

namespace Stroem.Engine

open Foundation JobStepRepo Cascade

def Write.rowwise : Write → Bool
  | .releaseClaim _ _ _ _ | .applyPlan _ => false
  | _ => true

def rowAfter (now : Time) (jobStatus : JobStatus) (w : Write) (r : JobStepRow) : JobStepRow :=
  (rowsAfter now jobStatus [r] w).headD r

def failedRow (error : String) (delaySecs now : Nat) (r : JobStepRow) : JobStepRow :=
  if hasRetryLeft r then (scheduleRetry r.stepName error (now + delaySecs) now).set r
  else (markFailed r.stepName error now).set r

theorem rowAfter_failOrRetry (now : Time) (jobStatus : JobStatus) (step error : String)
    (report : FailureReport) (delaySecs : Nat) (r : JobStepRow) :
    rowAfter now jobStatus (.failOrRetry step error report delaySecs) r =
      if r.stepName = step ∧ notExpected report.expected report.expectedClaim r = false then
        failedRow error delaySecs now r
      else r := by
  by_cases hname : r.stepName = step
  · subst hname
    cases hexpected : notExpected report.expected report.expectedClaim r with
    | true => simp [rowAfter, rowsAfter, failOrRetry, hexpected]
    | false =>
      cases hmax : r.maxRetries with
      | none =>
        simp [rowAfter, rowsAfter, failOrRetry, failedRow, hasRetryLeft, hexpected, hmax,
          Update.run, updateWhere, markFailed]
      | some max =>
        by_cases hlt : r.retryAttempt < max
        · simp [rowAfter, rowsAfter, failOrRetry, failedRow, hasRetryLeft, hexpected, hmax,
            hlt, Update.run, updateWhere, scheduleRetry]
        · simp [rowAfter, rowsAfter, failOrRetry, failedRow, hasRetryLeft, hexpected, hmax,
            hlt, Update.run, updateWhere, markFailed]
  · simp [rowAfter, rowsAfter, failOrRetry, hname]

private theorem failOrRetry_eq_map {rows : List JobStepRow} (h : Keyed JobStepRow.stepName rows)
    (now : Time) (jobStatus : JobStatus) (step error : String) (report : FailureReport)
    (delaySecs : Nat) :
    rowsAfter now jobStatus rows (.failOrRetry step error report delaySecs) =
      rows.map (rowAfter now jobStatus (.failOrRetry step error report delaySecs)) := by
  simp only [funext (rowAfter_failOrRetry now jobStatus step error report delaySecs)]
  cases hfind : rows.find? (·.stepName == step) with
  | none =>
    have hother : ∀ r ∈ rows, r.stepName ≠ step := by
      simpa using List.find?_eq_none.mp hfind
    simp only [rowsAfter, failOrRetry, hfind]
    conv_lhs => rw [← List.map_id rows]
    refine List.map_congr_left fun r hr => ?_
    simp [hother r hr]
  | some row =>
    have hrow := List.mem_of_find?_eq_some hfind
    obtain rfl : row.stepName = step := by simpa using List.find?_some hfind
    have hsame : ∀ r ∈ rows, r.stepName = row.stepName → r = row :=
      fun r hr => h.eq_of_key hr hrow
    simp only [rowsAfter, failOrRetry, hfind]
    -- every branch is a map; the row found is the only one of its name
    cases hexpected : notExpected report.expected report.expectedClaim row with
    | true =>
      simp only [if_true]
      conv_lhs => rw [← List.map_id rows]
      refine List.map_congr_left fun r hr => ?_
      by_cases hname : r.stepName = row.stepName
      · simp [hsame r hr hname, hexpected]
      · simp [hname]
    | false =>
      simp only [Bool.false_eq_true, if_false]
      have hmap : ∀ (u : Update JobStepRow),
          (∀ r, u.guard r = decide (r.stepName = row.stepName)) →
          u.set row = failedRow error delaySecs now row →
          u.run rows = rows.map fun r =>
            if r.stepName = row.stepName ∧
                notExpected report.expected report.expectedClaim r = false then
              failedRow error delaySecs now r
            else r := by
        intro u hguard hset
        refine List.map_congr_left fun r hr => ?_
        by_cases hname : r.stepName = row.stepName
        · simp [hsame r hr hname, hexpected, hguard, hset]
        · simp [hname, hguard]
      split
      case h_1 max hmax =>
        split
        case isTrue hlt =>
          refine hmap _ (fun _ => rfl) ?_
          simp [failedRow, hasRetryLeft, hmax, hlt]
        case isFalse hlt =>
          refine hmap _ (fun _ => rfl) ?_
          simp [failedRow, hasRetryLeft, hmax, hlt]
      case h_2 hmax =>
        refine hmap _ (fun _ => rfl) ?_
        simp [failedRow, hasRetryLeft, hmax]

private theorem deferredWrite_eq_map (u : Update JobStepRow) (jobStatus : JobStatus)
    (rows : List JobStepRow) :
    (deferredWrite u jobStatus rows).2 =
      rows.map fun r => ((deferredWrite u jobStatus [r]).2).headD r := by
  unfold deferredWrite
  split
  · simp
  · exact List.map_congr_left fun r _ => rfl

theorem rowsAfter_eq_map {now : Time} {jobStatus : JobStatus} {rows : List JobStepRow}
    {w : Write} (h : Keyed JobStepRow.stepName rows) (hw : w.rowwise = true) :
    rowsAfter now jobStatus rows w = rows.map (rowAfter now jobStatus w) := by
  cases w with
  | releaseClaim step claim retryAfter maxReleases => cases hw
  | applyPlan plan => cases hw
  | failOrRetry step error report delaySecs =>
    exact failOrRetry_eq_map h now jobStatus step error report delaySecs
  | resolveDeferred step token resolved
  | failDeferred step token error => exact deferredWrite_eq_map _ jobStatus rows
  | _ => rfl

/-! ## What such a write leaves -/

structure Carries (r r' : JobStepRow) : Prop where
  stepName : r'.stepName = r.stepName
  pinReleases : r'.pinReleases = r.pinReleases
  retryAt : r.retryAt.isSome = true → r'.retryAt.isSome = true

theorem Carries.refl (r : JobStepRow) : Carries r r := ⟨rfl, rfl, id⟩

theorem Carries.onRow {u : Update JobStepRow} (h : ∀ r, Carries r (u.set r)) (r : JobStepRow) :
    Carries r (u.onRow r) := by
  unfold Update.onRow
  split
  · exact h r
  · exact .refl r

private theorem Carries.deferredWrite {u : Update JobStepRow} (jobStatus : JobStatus)
    (h : ∀ r, Carries r (u.set r)) (r : JobStepRow) :
    Carries r ((deferredWrite u jobStatus [r]).2.headD r) := by
  unfold JobStepRepo.deferredWrite
  split
  · exact .refl r
  · exact Carries.onRow h r

theorem rowAfter_carries (now : Time) (jobStatus : JobStatus) {w : Write}
    (hw : w.rowwise = true) (r : JobStepRow) : Carries r (rowAfter now jobStatus w r) := by
  cases w with
  | releaseClaim step claim retryAfter maxReleases => cases hw
  | applyPlan plan => cases hw
  | failOrRetry step error report delaySecs =>
    rw [rowAfter_failOrRetry]
    split
    · unfold failedRow
      split
      · exact ⟨rfl, rfl, fun _ => rfl⟩
      · exact ⟨rfl, rfl, id⟩
    · exact .refl r
  | resolveDeferred step token resolved | failDeferred step token error =>
    exact Carries.deferredWrite jobStatus (fun _ => ⟨rfl, rfl, id⟩) r
  | _ => exact Carries.onRow (fun _ => ⟨rfl, rfl, id⟩) r

end Stroem.Engine
