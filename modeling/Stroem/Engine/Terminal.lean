import Stroem.Engine.Absorbing
import Stroem.JobRepo

/-!
# Terminal handling

Any number of calls of `advance`, on any replica, may find a job terminal; `reconcile` and the
sweeps reach the block through `advance` as well.  A call reads the job row again, asks whether a
step is still live, and tries to set `metrics_recorded_at`.  The call that sets it propagates to
the parent, creates the retry job and runs the hooks.  Anything may happen between the three
statements.
-/

namespace Stroem.Engine

open Foundation JobStepRepo JobRepo Cascade

/-- `terminal::drained`, by the answer of `has_live_steps`; a failed query lets the call pass. -/
def drained : Option Bool → Bool
  | some live => !live
  | none => true

inductive Call where
  | sawTerminal
  | passed (answer : Option Bool)
  | ended
  deriving DecidableEq

structure Win where
  answer : Option Bool
  job : JobRecord
  rows : List JobStepRow

structure Handling where
  job : JobRecord
  rows : List JobStepRow
  calls : List Call := []
  wins : List Win := []

inductive HandlingAction where
  | write (now : Time) (write : Write)
  | jobWrite (now : Time) (write : JobWrite)
  | enter
  | askDrained (call : Nat) (fails : Bool)
  | claim (call : Nat) (now : Time)
  | claimFails (call : Nat) (now : Time) (executed : Bool)
  | stop (call : Nat)

def drainAnswer (fails : Bool) (rows : List JobStepRow) : Option Bool :=
  if fails then none else some (hasLiveSteps rows)

def Handling.act (s : Handling) : HandlingAction → Option Handling
  | .write now w => some { s with rows := rowsAfter now s.job.status s.rows w }
  | .jobWrite now w => some { s with job := jobAfter now s.job w }
  | .enter =>
    if s.job.status.isTerminal then some { s with calls := s.calls ++ [.sawTerminal] }
    else some s
  | .askDrained call fails =>
    match s.calls[call]? with
    | some .sawTerminal =>
      let answer := drainAnswer fails s.rows
      let next := if drained answer then .passed answer else .ended
      some { s with calls := s.calls.set call next }
    | _ => none
  | .claim call now =>
    match s.calls[call]? with
    | some (.passed answer) =>
      if (recordMetrics now).guard s.job then
        some ⟨(recordMetrics now).onRow s.job, s.rows, s.calls.set call .ended,
          s.wins ++ [⟨answer, s.job, s.rows⟩]⟩
      else some { s with calls := s.calls.set call .ended }
    | _ => none
  | .claimFails call now executed =>
    match s.calls[call]? with
    | some (.passed _) =>
      let job := if executed then (recordMetrics now).onRow s.job else s.job
      some { s with job := job, calls := s.calls.set call .ended }
    | _ => none
  | .stop call => some { s with calls := s.calls.set call .ended }

inductive Handling.Effect (s : Handling) : HandlingAction → Handling → Prop
  | write (now : Time) (w : Write) :
      Effect s (.write now w) { s with rows := rowsAfter now s.job.status s.rows w }
  | jobWrite (now : Time) (w : JobWrite) :
      Effect s (.jobWrite now w) { s with job := jobAfter now s.job w }
  | enter (terminal : s.job.status.isTerminal = true) :
      Effect s .enter { s with calls := s.calls ++ [.sawTerminal] }
  | pass {call : Nat} {fails : Bool} (inside : .sawTerminal ∈ s.calls)
      (gate : drained (drainAnswer fails s.rows) = true) :
      Effect s (.askDrained call fails)
        { s with calls := s.calls.set call (.passed (drainAnswer fails s.rows)) }
  | win {call : Nat} {now : Time} {answer : Option Bool} (inside : .passed answer ∈ s.calls)
      (unclaimed : s.job.metricsRecordedAt = none) :
      Effect s (.claim call now)
        ⟨{ s.job with metricsRecordedAt := some now }, s.rows, s.calls.set call .ended,
          s.wins ++ [⟨answer, s.job, s.rows⟩]⟩
  | ends {a : HandlingAction} {calls : List Call} {job : JobRecord}
      (calls_sub : ∀ c ∈ calls, c ∈ s.calls ∨ c = .ended) (status : job.status = s.job.status)
      (unclaimed : job.metricsRecordedAt = none → s.job.metricsRecordedAt = none) :
      Effect s a { s with job := job, calls := calls }

theorem Handling.act_effect {s t : Handling} {a : HandlingAction} (h : s.act a = some t) :
    s.Effect a t := by
  have hover : ∀ call, ∀ c ∈ s.calls.set call .ended, c ∈ s.calls ∨ c = .ended :=
    fun call c hc => List.mem_or_eq_of_mem_set hc
  cases a with
  | write now w =>
    cases h
    exact .write now w
  | jobWrite now w =>
    cases h
    exact .jobWrite now w
  | enter =>
    simp only [Handling.act] at h
    split at h
    case isTrue hterm =>
      cases h
      exact .enter hterm
    case isFalse =>
      cases h
      exact .ends (fun c hc => .inl hc) rfl id
  | askDrained call fails =>
    simp only [Handling.act] at h
    split at h
    case h_1 hcall =>
      cases h
      split
      case isTrue hgate => exact .pass (List.mem_of_getElem? hcall) hgate
      case isFalse => exact .ends (hover call) rfl id
    case h_2 => cases h
  | claim call now =>
    simp only [Handling.act] at h
    split at h
    case h_1 answer hcall =>
      split at h
      case isTrue hguard =>
        cases h
        rw [Update.onRow, if_pos hguard]
        exact .win (List.mem_of_getElem? hcall) (by simpa [recordMetrics] using hguard)
      case isFalse =>
        cases h
        exact .ends (hover call) rfl id
    case h_2 => cases h
  | claimFails call now executed =>
    simp only [Handling.act] at h
    split at h
    case h_1 hcall =>
      cases h
      refine .ends (hover call) ?_ ?_
      · cases executed <;> simp [recordMetrics, Update.onRow, apply_ite JobRecord.status]
      · cases hs : s.job.metricsRecordedAt with
        | none => simp
        | some time => cases executed <;> simp [recordMetrics, Update.onRow, hs]
    case h_2 => cases h
  | stop call =>
    cases h
    exact .ends (hover call) rfl id

/-! ## Won once, by a call that saw the job terminal and drained -/

structure ClaimedOnce (s : Handling) : Prop where
  once : s.wins.length ≤ 1
  unclaimed : s.job.metricsRecordedAt = none → s.wins = []
  inside : ∀ c ∈ s.calls, c ≠ .ended → s.job.status.isTerminal = true
  passed : ∀ answer, .passed answer ∈ s.calls → drained answer = true
  terminal : ∀ w ∈ s.wins, w.job.status.isTerminal = true
  gate : ∀ w ∈ s.wins, drained w.answer = true

theorem ClaimedOnce.act {s t : Handling} {a : HandlingAction} (h : ClaimedOnce s)
    (hact : s.act a = some t) : ClaimedOnce t := by
  cases Handling.act_effect hact with
  | write now w => exact ⟨h.once, h.unclaimed, h.inside, h.passed, h.terminal, h.gate⟩
  | jobWrite now w =>
    refine ⟨h.once, ?_, fun c hc hin => ?_, h.passed, h.terminal, h.gate⟩
    · simpa using h.unclaimed
    · exact jobAfter_terminal now w (h.inside c hc hin)
  | enter hterm =>
    refine ⟨h.once, h.unclaimed, fun _ _ _ => hterm, fun answer hin => ?_, h.terminal, h.gate⟩
    exact h.passed answer (by simpa using hin)
  | pass hin hgate =>
    have hterm := h.inside _ hin (by simp)
    refine ⟨h.once, h.unclaimed, fun _ _ _ => hterm, fun answer hin' => ?_, h.terminal, h.gate⟩
    rcases List.mem_or_eq_of_mem_set hin' with hin' | heq
    · exact h.passed answer hin'
    · rw [Call.passed.inj heq]
      exact hgate
  | win hin hnone =>
    have hterm := h.inside _ hin (by simp)
    have hempty := h.unclaimed hnone
    refine ⟨by simp [hempty], by simp, fun _ _ _ => hterm, fun answer hin' => ?_, ?_, ?_⟩
    · rcases List.mem_or_eq_of_mem_set hin' with hin' | heq
      · exact h.passed answer hin'
      · cases heq
    · simpa [hempty] using hterm
    · simpa [hempty] using h.passed _ hin
  | ends hcalls hstatus hnone =>
    refine ⟨h.once, fun hn => h.unclaimed (hnone hn), fun c hc hin => ?_, fun answer hin => ?_,
      h.terminal, h.gate⟩
    · rw [hstatus]
      exact h.inside c ((hcalls c hc).resolve_right hin) hin
    · exact h.passed answer ((hcalls _ hin).resolve_right (by simp))

/-! ## Steps started between the gate and the claim -/

def startsPlaceholder : Change → Bool
  | .expand _ _ | .adopt _ => true
  | _ => false

def Write.starts (now : Time) (rows : List JobStepRow) : Write → Bool
  | .claimReadyStep worker step => rows.any (JobStepRepo.claimReadyStep worker step now).guard
  | .markRunning step workerId => rows.any (JobStepRepo.markRunning step workerId now).guard
  | .claimTaskDispatch step pin => rows.any (JobStepRepo.claimTaskDispatch step pin now).guard
  | .applyPlan plan =>
    (applyGroups now (groupChanges plan.changes) rows).isOk && plan.changes.any startsPlaceholder
  | _ => false

def isLiveRow (r : JobStepRow) : Bool :=
  r.status == .running || r.status == .claimed

private theorem run_of_none_starts {u : Update JobStepRow} {rows : List JobStepRow}
    (h : rows.any u.guard = false) : u.run rows = rows := by
  refine updateWhere_eq_self fun r hr hguard => ?_
  rw [List.any_eq_false] at h
  exact absurd hguard (h r hr)

private theorem Write.moves_to_live {w : Write} {r r' : JobStepRow} (h : w.moves r r'.status)
    (hlive : isLiveRow r' = true) :
    isLiveRow r = true ∨ (∃ worker step, w = .claimReadyStep worker step) ∨
      (∃ step workerId, w = .markRunning step workerId) ∨
      ∃ step pin, w = .claimTaskDispatch step pin := by
  have hs : r'.status = .running ∨ r'.status = .claimed := by
    simpa [isLiveRow] using hlive
  cases w with
  | claimReadyStep worker step => exact .inr (.inl ⟨worker, step, rfl⟩)
  | markRunning step workerId => exact .inr (.inr (.inl ⟨step, workerId, rfl⟩))
  | claimTaskDispatch step pin => exact .inr (.inr (.inr ⟨step, pin, rfl⟩))
  | storeApprovalMessage step message =>
    exact .inl (by simpa [isLiveRow, h.2] using hs)
  | releaseClaim step claim retryAfter maxReleases =>
    rcases h with ⟨-, -, h | h⟩ | ⟨-, h⟩ <;> simp [h] at hs
  | failOrRetry step error report delaySecs =>
    rcases h.2.2 with ⟨h, -⟩ | ⟨h, -⟩ <;> simp [h] at hs
  | _ => simp_all [Write.moves]

private theorem PlanEffect.live_origin {now : Time} {cs : List Change}
    {rows rows' : List JobStepRow} (h : PlanEffect now cs rows rows')
    (hstarts : cs.any startsPlaceholder = false) {r' : JobStepRow} (hr' : r' ∈ rows')
    (hlive : isLiveRow r' = true) : ∃ r ∈ rows, isLiveRow r = true := by
  rw [List.any_eq_false] at hstarts
  rcases h.origin r' hr' with ⟨r, hr, hmoved⟩ | ⟨i, hi, -⟩
  · rcases hmoved.outcome with rfl | ⟨-, c, hc, -, hs⟩
    · exact ⟨r', hr, hlive⟩
    · have hc' := hstarts c hc
      cases c with
      | rollup p outcome => cases outcome <;> simp_all [isLiveRow, Change.setRow]
      | _ => simp_all [isLiveRow, Change.setRow, startsPlaceholder]
  · obtain ⟨c, hc, hic⟩ := List.mem_flatMap.mp hi
    have hc' := hstarts c hc
    cases c <;> simp_all [newSteps, startsPlaceholder]

theorem hasLiveSteps_rowsAfter {now : Time} {jobStatus : JobStatus} {rows : List JobStepRow}
    {w : Write} (hk : Keyed JobStepRow.stepName rows) (hstarts : w.starts now rows = false)
    (h : hasLiveSteps rows = false) : hasLiveSteps (rowsAfter now jobStatus rows w) = false := by
  have hnone : ∀ r ∈ rows, isLiveRow r ≠ true := List.any_eq_false.mp h
  refine List.any_eq_false.mpr fun r' hr' hlive => ?_
  change isLiveRow r' = true at hlive
  cases hw : w.isCascade with
  | false =>
    obtain ⟨r, hr, heffect⟩ := mem_of_forall₂_right (rowsAfter_spec hk hw) hr'
    rcases heffect.outcome with ⟨hs, -, -⟩ | hmoves
    · exact hnone r hr (by simpa [isLiveRow, hs] using hlive)
    · -- the three statements that start a step found none, so they left the rows alone
      rcases Write.moves_to_live hmoves hlive with hr'' | ⟨worker, step, rfl⟩ |
        ⟨step, workerId, rfl⟩ | ⟨step, pin, rfl⟩
      · exact hnone r hr hr''
      all_goals
        rw [rowsAfter, run_of_none_starts hstarts] at hr'
        exact hnone r' hr' hlive
  | true =>
    cases w with
    | applyPlan plan =>
      have hwhole : rowsAfter now jobStatus rows (.applyPlan plan) = rows ∨
          ∃ r ∈ rows, isLiveRow r = true := by
        cases hany : plan.changes.any startsPlaceholder with
        | false =>
          refine (rowsAfter_applyPlan now jobStatus plan hk).imp id fun heffect => ?_
          exact heffect.live_origin hany hr' hlive
        | true =>
          left
          simp only [Write.starts, hany, Bool.and_true] at hstarts
          simp only [rowsAfter]
          split
          case h_1 hok =>
            rw [hok] at hstarts
            cases hstarts
          case h_2 => rfl
      rcases hwhole with heq | ⟨r, hr, hr''⟩
      · rw [heq] at hr'
        exact hnone r' hr' hlive
      · exact hnone r hr hr''
    | _ => simp [Write.isCascade] at hw

def Handling.claiming (s : Handling) : Bool :=
  s.job.metricsRecordedAt.isNone && s.calls.any fun c => c matches .passed _

/--
No step is started while a call is between the drain gate and a claim it can still win, and no
drain query fails while a step is live.
-/
def Undisturbed (s : Handling) : HandlingAction → Prop
  | .write now w => s.claiming = true → w.starts now s.rows = false
  | .askDrained _ fails => fails = true → hasLiveSteps s.rows = false
  | _ => True

instance (s : Handling) : (a : HandlingAction) → Decidable (Undisturbed s a)
  | .write _ _ | .askDrained _ _ => inferInstanceAs (Decidable (_ → _))
  | .jobWrite _ _ | .enter | .claim _ _ | .claimFails _ _ _ | .stop _ => .isTrue trivial

structure Drained (s : Handling) : Prop where
  keyed : Keyed JobStepRow.stepName s.rows
  idle : s.claiming = true → hasLiveSteps s.rows = false
  wins : ∀ w ∈ s.wins, hasLiveSteps w.rows = false

theorem Drained.act {s t : Handling} {a : HandlingAction} (h : Drained s)
    (hok : Undisturbed s a) (hact : s.act a = some t) : Drained t := by
  cases Handling.act_effect hact with
  | write now w =>
    refine ⟨keyed_rowsAfter h.keyed, fun hclaiming => ?_, h.wins⟩
    exact hasLiveSteps_rowsAfter h.keyed (hok hclaiming) (h.idle hclaiming)
  | jobWrite now w | enter hterm =>
    refine ⟨h.keyed, fun hclaiming => h.idle ?_, h.wins⟩
    simpa [Handling.claiming] using hclaiming
  | @pass call fails hin hgate =>
    refine ⟨h.keyed, fun _ => ?_, h.wins⟩
    cases fails with
    | true => exact hok rfl
    | false => simpa [drained, drainAnswer] using hgate
  | win hin hnone =>
    refine ⟨h.keyed, by simp [Handling.claiming], fun w hw => ?_⟩
    rcases List.mem_append.mp hw with hw | hw
    · exact h.wins w hw
    · obtain rfl := List.mem_singleton.mp hw
      refine h.idle ?_
      simp only [Handling.claiming, hnone, Option.isNone_none, Bool.true_and, List.any_eq_true]
      exact ⟨_, hin, rfl⟩
  | ends hcalls hstatus hnone =>
    refine ⟨h.keyed, fun hclaiming => h.idle ?_, h.wins⟩
    simp only [Handling.claiming, Bool.and_eq_true, Option.isNone_iff_eq_none,
      List.any_eq_true] at hclaiming ⊢
    obtain ⟨hn, c, hc, hpassed⟩ := hclaiming
    refine ⟨hnone hn, c, (hcalls c hc).resolve_right ?_, hpassed⟩
    rintro rfl
    cases hpassed

/--
However calls, writes and failures follow each other, the terminal claim is won at most once, by a
call whose drain query found no live step or failed.
-/
theorem terminal_claim_once {s t : Handling} {as : List HandlingAction}
    (hk : Keyed JobStepRow.stepName s.rows) (hcalls : s.calls = []) (hwins : s.wins = [])
    (hrun : exec Handling.act s as = some t) :
    t.wins.length ≤ 1 ∧
      (∀ w ∈ t.wins, w.job.status.isTerminal = true ∧ drained w.answer = true) ∧
      (Meets Handling.act Undisturbed s as → ∀ w ∈ t.wins, hasLiveSteps w.rows = false) := by
  have hstart : ClaimedOnce s := by
    constructor <;> simp [hcalls, hwins]
  have honce : ClaimedOnce t :=
    exec_invariant ClaimedOnce (fun _ _ _ h _ => h.act) hstart
      (Meets.of_forall (fun _ _ => trivial) s as) hrun
  refine ⟨honce.once, fun w hw => ⟨honce.terminal w hw, honce.gate w hw⟩, fun hok => ?_⟩
  have hidle : Drained s := ⟨hk, by simp [Handling.claiming, hcalls], by simp [hwins]⟩
  exact (exec_invariant Drained (fun _ _ _ => Drained.act) hidle hok hrun).wins

/-! ## Two workers and a cancellation -/

def twoSteps : List JobStepRow :=
  [readyRow, { readyRow with stepName := "b" }]

def twoStepJob : Handling :=
  { job := { status := .running }, rows := twoSteps }

def cancelledWhileRunning : List HandlingAction :=
  [.write 10 (.claimReadyStep scriptWorker "a"), .jobWrite 20 .cancel]

def drainedClaims : List HandlingAction :=
  cancelledWhileRunning ++
    [.write 21 .cancelPendingSteps, .enter, .askDrained 0 false, .write 30 (.markCancelled "a"),
      .enter, .enter, .askDrained 1 false, .askDrained 2 true, .claim 2 31, .claim 1 32]

theorem terminal_claim_once_drainedClaims :
    Keyed JobStepRow.stepName twoSteps ∧
      ∃ t, exec Handling.act twoStepJob drainedClaims = some t ∧ t.wins.length = 1 ∧
        (∀ w ∈ t.wins, w.job.status.isTerminal = true ∧ drained w.answer = true) ∧
        ∀ w ∈ t.wins, hasLiveSteps w.rows = false := by
  have hk : Keyed JobStepRow.stepName twoSteps := by
    unfold Keyed
    decide
  have hrun : ∃ t, exec Handling.act twoStepJob drainedClaims = some t := ⟨_, rfl⟩
  obtain ⟨t, ht⟩ := hrun
  obtain ⟨-, hwins, hdrained⟩ := terminal_claim_once hk rfl rfl ht
  have hone : (exec Handling.act twoStepJob drainedClaims).map (·.wins.length) = some 1 := by
    decide
  rw [ht] at hone
  exact ⟨hk, t, ht, by simpa using hone, hwins, hdrained (by decide)⟩

/--
A failed drain query lets a claim through while `a` runs; and a worker that is handed `b`
between the gate and the claim leaves the claim to be won over a running step.
-/
theorem claim_over_live_step :
    (exec Handling.act twoStepJob
        (cancelledWhileRunning ++ [.enter, .askDrained 0 true, .claim 0 31])).map
      (fun t => t.wins.map fun w => (w.job.status, hasLiveSteps w.rows)) =
        some [(.cancelled, true)] ∧
    (exec Handling.act twoStepJob
        (cancelledWhileRunning ++
          [.write 30 (.markCompleted "a" none), .enter, .askDrained 0 false,
            .write 31 (.claimReadyStep scriptWorker "b"), .claim 0 32])).map
      (fun t => t.wins.map fun w => (w.job.status, hasLiveSteps w.rows)) =
        some [(.cancelled, true)] := by
  decide

end Stroem.Engine
