import Stroem.Engine.Rowwise
import Stroem.Foundation.Runs
import Stroem.JobRepo

/-!
# The lease of a deferred step

A step whose `ref` is a template waits at `ready` until a resolver has rendered it.  A resolver
takes the lease of the step, resolves outside any transaction while it renews the lease, and
writes the resolved columns or a failure.  Nothing is assumed of a resolver: it may stop anywhere,
come back after its lease has expired and been taken over, and write without ever having taken it.
-/

namespace Stroem.Engine

open Foundation JobStepRepo JobRepo

structure DeferredEffect where
  token : Uuid
  owner : Option Uuid
  jobStatus : JobStatus
  deriving DecidableEq

structure DeferredStep where
  job : JobRecord
  row : JobStepRow
  effects : List DeferredEffect := []

abbrev Resolution := Except String NewJobStep

inductive LeaseAction where
  | promote (now : Time)
  | take (now : Time) (token : Uuid) (leaseSecs : Nat)
  | renew (now : Time) (token : Uuid) (leaseSecs : Nat)
  | finish (now : Time) (token : Uuid) (resolution : Resolution)
  | jobWrite (now : Time) (write : JobWrite)
  | cancelSteps (now : Time)

namespace DeferredStep

def finishTx (s : DeferredStep) (now : Time) (token : Uuid) :
    Resolution → DeferredWrite × List JobStepRow
  | .ok resolved => resolveDeferredTx s.job.status s.row.stepName token resolved now [s.row]
  | .error error => failDeferredTx s.job.status s.row.stepName token error now [s.row]

def act (s : DeferredStep) : LeaseAction → Option DeferredStep
  | .promote now => some { s with row := (promoteStepsTx [s.row.stepName] now).onRow s.row }
  | .take now token leaseSecs =>
    some { s with row := (takeResolveLease s.row.stepName token leaseSecs now).onRow s.row }
  | .renew now token leaseSecs =>
    some { s with row := (renewResolveLease s.row.stepName token leaseSecs now).onRow s.row }
  | .finish now token resolution =>
    let (outcome, rows) := s.finishTx now token resolution
    let effect := ⟨token, s.row.resolveLeaseOwner, s.job.status⟩
    some
      { s with
        row := rows.headD s.row
        effects := if outcome = .applied then effect :: s.effects else s.effects }
  | .jobWrite now w => some { s with job := jobAfter now s.job w }
  | .cancelSteps now => some { s with row := (cancelPendingSteps now).onRow s.row }

end DeferredStep

def ResolvesAction : LeaseAction → Prop
  | .finish _ _ (.ok resolved) => resolved.actionType ≠ .deferred
  | _ => True

instance : (a : LeaseAction) → Decidable (ResolvesAction a)
  | .finish _ _ (.ok _) => inferInstanceAs (Decidable (_ ≠ _))
  | .finish _ _ (.error _) | .promote _ | .take _ _ _ | .renew _ _ _ | .jobWrite _ _
  | .cancelSteps _ => .isTrue trivial

def Closed (r : JobStepRow) : Prop :=
  r.actionType ≠ .deferred ∨ r.status.isTerminal = true

theorem Closed.not_deferredReady {r : JobStepRow} (h : Closed r) (name : String) :
    isDeferredReady name r = false := by
  rcases h with htype | hterminal
  · simp [isDeferredReady, htype]
  · have hready : r.status ≠ .ready := by
      intro hs
      rw [hs] at hterminal
      cases hterminal
    simp [isDeferredReady, hready]

structure Fenced (e : DeferredEffect) : Prop where
  owner : e.owner = some e.token
  job : e.jobStatus.isTerminal = false

structure FencedOnce (s : DeferredStep) : Prop where
  fenced : ∀ e ∈ s.effects, Fenced e
  once : s.effects.length ≤ 1
  closed : s.effects ≠ [] → Closed s.row

/-! ## One write -/

theorem deferredWrite_single (u : Update JobStepRow) (jobStatus : JobStatus) (r : JobStepRow) :
    deferredWrite u jobStatus [r] =
      if jobStatus.isTerminal = true then (.jobTerminal, [r])
      else if u.guard r = true then (.applied, [u.set r])
      else (.notApplied, [r]) := by
  cases hguard : u.guard r <;> cases jobStatus <;>
    simp [deferredWrite, deferredJobGate, JobStatus.isTerminal, Update.rowsAffected, affected,
      Update.run, updateWhere, hguard]

def finishUpdate (name : String) (token : Uuid) (now : Time) : Resolution → Update JobStepRow
  | .ok resolved => writeResolved name token resolved now
  | .error error => writeDeferredFailure name token error now

theorem DeferredStep.finishTx_eq (s : DeferredStep) (now : Time) (token : Uuid)
    (resolution : Resolution) :
    s.finishTx now token resolution =
      deferredWrite (finishUpdate s.row.stepName token now resolution) s.job.status [s.row] := by
  cases resolution <;> rfl

theorem finishUpdate_guard {name : String} {token : Uuid} {now : Time} {resolution : Resolution}
    {r : JobStepRow} (h : (finishUpdate name token now resolution).guard r = true) :
    isDeferredReady name r = true ∧ r.resolveLeaseOwner = some token := by
  cases resolution <;>
    simpa [finishUpdate, writeResolved, writeDeferredFailure] using h

theorem finishUpdate_closed {name : String} {token : Uuid} {now now' : Time}
    {resolution : Resolution} (h : ResolvesAction (.finish now' token resolution))
    (r : JobStepRow) : Closed ((finishUpdate name token now resolution).set r) := by
  cases resolution with
  | ok resolved => exact .inl h
  | error error => exact .inr rfl

private theorem Closed.onRow {r : JobStepRow} (h : Closed r) {u : Update JobStepRow}
    (htype : (u.set r).actionType = r.actionType)
    (hguard : u.guard r = true → r.status.isTerminal = false) : Closed (u.onRow r) := by
  unfold Update.onRow
  split
  case isTrue hr =>
    rcases h with h | h
    · exact .inl (htype ▸ h)
    · rw [hguard hr] at h
      cases h
  case isFalse => exact h

private theorem terminal_of_ready {r : JobStepRow} (h : r.status = .ready) :
    r.status.isTerminal = false := by
  rw [h]
  rfl

theorem FencedOnce.act {s t : DeferredStep} {a : LeaseAction} (h : FencedOnce s)
    (hok : ResolvesAction a) (hact : s.act a = some t) : FencedOnce t := by
  cases a with
  | promote now =>
    cases hact
    refine ⟨h.fenced, h.once, fun hne => (h.closed hne).onRow rfl fun hr => ?_⟩
    have hpending : s.row.status = .pending := by
      simpa [promoteStepsTx] using hr
    rw [hpending]
    rfl
  | take now token leaseSecs =>
    cases hact
    refine ⟨h.fenced, h.once, fun hne => (h.closed hne).onRow rfl fun hr => ?_⟩
    simp only [takeResolveLease, isDeferredReady, Bool.and_eq_true, beq_iff_eq] at hr
    exact terminal_of_ready hr.1.1.2
  | renew now token leaseSecs =>
    cases hact
    refine ⟨h.fenced, h.once, fun hne => (h.closed hne).onRow rfl fun hr => ?_⟩
    simp only [renewResolveLease, isDeferredReady, Bool.and_eq_true, beq_iff_eq] at hr
    exact terminal_of_ready hr.1.1.2
  | finish now token resolution =>
    simp only [DeferredStep.act, DeferredStep.finishTx_eq, deferredWrite_single] at hact
    cases hact
    by_cases hjob : s.job.status.isTerminal = true
    · simpa [hjob] using h
    · by_cases hguard : (finishUpdate s.row.stepName token now resolution).guard s.row = true
      · obtain ⟨hready, howner⟩ := finishUpdate_guard hguard
        -- a step that was written before is closed, and the guard would not let this through
        have hnone : s.effects = [] := by
          by_contra hne
          rw [(h.closed hne).not_deferredReady] at hready
          cases hready
        simp only [hjob, hguard, if_true, hnone]
        refine ⟨?_, by simp, fun _ => finishUpdate_closed hok s.row⟩
        intro e he
        obtain rfl := List.mem_singleton.mp he
        exact ⟨howner, Bool.eq_false_iff.mpr hjob⟩
      · simpa [hjob, hguard] using h
  | jobWrite now w =>
    cases hact
    exact ⟨h.fenced, h.once, h.closed⟩
  | cancelSteps now =>
    cases hact
    refine ⟨h.fenced, h.once, fun hne => (h.closed hne).onRow rfl fun hr => ?_⟩
    simp only [cancelPendingSteps, Bool.or_eq_true, beq_iff_eq] at hr
    rcases hr with (hs | hs) | hs <;> simp [hs, StepStatus.isTerminal]

/--
At most one resolution or failure takes effect, under its own token and for an unfinished job,
when the actions found declare one of the types an action may have.
-/
theorem deferred_write_once {job : JobRecord} {row : JobStepRow} {t : DeferredStep}
    {as : List LeaseAction} (hok : ∀ a ∈ as, ResolvesAction a)
    (hrun : exec DeferredStep.act { job := job, row := row } as = some t) :
    t.effects.length ≤ 1 ∧ ∀ e ∈ t.effects, e.owner = some e.token ∧
      e.jobStatus.isTerminal = false := by
  have hfenced : FencedOnce t :=
    exec_invariant FencedOnce (fun _ _ _ h hok => h.act hok) ⟨by simp, by simp, by simp⟩
      (Meets.of_forall_mem hok _) hrun
  exact ⟨hfenced.once, fun e he => ⟨(hfenced.fenced e he).owner, (hfenced.fenced e he).job⟩⟩

/-! ## A resolver that stalls -/

def deferredStart : JobStepRow :=
  { stepName := "a", actionType := .deferred, status := .ready, requiredAbility := "deferred",
    refTemplate := some "\x7b\x7b input.branch \x7d\x7d" }

def resolvedAs (actionType : ActionType) : NewJobStep :=
  { jobId := 0, stepName := "a", actionName := "build", actionType := actionType,
    requiredAbility := "script" }

def stalledResolver : List LeaseAction :=
  [.take 0 1 60, .renew 20 1 60, .take 90 2 60, .finish 95 1 (.error "load failed"),
    .finish 99 2 (.ok (resolvedAs .script)), .finish 100 2 (.ok (resolvedAs .script)),
    .jobWrite 101 .cancel, .cancelSteps 102]

theorem deferred_write_once_stalledResolver :
    (∀ a ∈ stalledResolver, ResolvesAction a) ∧
      ∃ t, exec DeferredStep.act { job := { status := .running }, row := deferredStart }
          stalledResolver = some t ∧
        t.effects = [⟨2, some 2, .running⟩] ∧ t.row.actionType = .script ∧
        t.effects.length ≤ 1 ∧
        ∀ e ∈ t.effects, e.owner = some e.token ∧ e.jobStatus.isTerminal = false := by
  have hok : ∀ a ∈ stalledResolver, ResolvesAction a := by decide
  exact ⟨hok, _, rfl, by decide, by decide, deferred_write_once hok rfl⟩

/-- An action declared with the type `deferred` leaves its step to be resolved again. -/
theorem deferred_action_resolved_twice :
    ∃ t, exec DeferredStep.act { job := { status := .running }, row := deferredStart }
        [.take 0 1 60, .finish 1 1 (.ok (resolvedAs .deferred)), .take 2 2 60,
          .finish 3 2 (.ok (resolvedAs .deferred))] = some t ∧
      t.effects.length = 2 := by
  exact ⟨_, rfl, by decide⟩

end Stroem.Engine
