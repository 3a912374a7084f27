import Stroem.Engine.Absorbing
import Stroem.Engine.Rowwise

/-!
# Steps no worker matches

The fourth phase of `recovery::sweep` lists the ready steps that no active worker matches, and
fails the steps of its list one after the other.  Workers register and claim meanwhile.  The
failure does not ask for the status it selected on: a claim taken since is lost.
-/

namespace Stroem.Engine

open Foundation JobStepRepo Cascade

def matchesStep (r : JobStepRow) (worker : Worker) : Bool :=
  worker.capabilities.contains r.requiredAbility &&
    containedIn worker.tags r.requiredTags &&
    (!worker.exclusive || containsAll r.requiredTags worker.tags)

def isUnmatchedReady (active : List Worker) (timeoutSecs : Nat) (now : Time) (r : JobStepRow) :
    Bool :=
  r.status == .ready && !serverDispatched r.actionType && r.actionType != .deferred &&
    r.readyAt.any (fun readyAt => readyAt + timeoutSecs < now) && !active.any (matchesStep r)

def unmatchedError : String :=
  "No active worker with required capability/tags to run this step"

structure UnmatchedPhase where
  rows : List JobStepRow
  active : List Worker
  unmatched : List String := []

inductive UnmatchedAction where
  | claim (now : Time) (worker : Worker) (step : String)
  | setActive (active : List Worker)
  | select (now : Time) (timeoutSecs : Nat)
  | failNext (now : Time) (jobStatus : JobStatus) (delaySecs : Nat)

namespace UnmatchedPhase

def act (s : UnmatchedPhase) : UnmatchedAction → Option UnmatchedPhase
  | .claim now worker step =>
    some { s with rows := rowsAfter now .running s.rows (.claimReadyStep worker step) }
  | .setActive active => some { s with active := active }
  | .select now timeoutSecs =>
    let selected := s.rows.filter (isUnmatchedReady s.active timeoutSecs now)
    some { s with unmatched := selected.map JobStepRow.stepName }
  | .failNext now jobStatus delaySecs =>
    match s.unmatched with
    | [] => none
    | step :: rest =>
      let failure := Write.failOrRetry step unmatchedError .unconditional delaySecs
      some { s with rows := rowsAfter now jobStatus s.rows failure, unmatched := rest }

end UnmatchedPhase

def isClaimed (r : JobStepRow) : Bool :=
  r.status == .running && r.workerId.isSome

def HoldsClaim (r : JobStepRow) (rows : List JobStepRow) : Prop :=
  ∃ r' ∈ rows, r'.stepName = r.stepName ∧ r'.status = .running ∧ r'.workerId = r.workerId ∧
    r'.startedAt = r.startedAt

def KeepsClaims (s t : UnmatchedPhase) : Prop :=
  ∀ r ∈ s.rows, isClaimed r = true → HoldsClaim r t.rows

theorem KeepsClaims.of_rows_eq {s t : UnmatchedPhase} (h : t.rows = s.rows) :
    KeepsClaims s t := by
  intro r hr hclaimed
  rw [isClaimed, Bool.and_eq_true, beq_iff_eq] at hclaimed
  exact ⟨r, h ▸ hr, rfl, hclaimed.1, rfl, rfl⟩

theorem KeepsClaims.trans {s t u : UnmatchedPhase} (h : KeepsClaims s t)
    (h' : KeepsClaims t u) : KeepsClaims s u := by
  intro r hr hclaimed
  obtain ⟨r', hr', hname, hstatus, hworker, hstarted⟩ := h r hr hclaimed
  have hclaimed' : isClaimed r' = true := by
    simp_all [isClaimed]
  obtain ⟨r'', hr'', hname', hstatus', hworker', hstarted'⟩ := h' r' hr' hclaimed'
  exact ⟨r'', hr'', hname'.trans hname, hstatus', hworker'.trans hworker,
    hstarted'.trans hstarted⟩

def Unclaimed (s : UnmatchedPhase) : UnmatchedAction → Prop
  | .failNext _ _ _ => ∀ r ∈ s.rows, s.unmatched.head? = some r.stepName → isClaimed r = false
  | _ => True

instance (s : UnmatchedPhase) : (a : UnmatchedAction) → Decidable (Unclaimed s a)
  | .failNext _ _ _ => inferInstanceAs (Decidable (∀ r ∈ s.rows, _ → _))
  | .claim _ _ _ | .setActive _ | .select _ _ => .isTrue trivial

private theorem rowAfter_claim_of_claimed {now : Time} {worker : Worker} {step : String}
    {r : JobStepRow} (h : isClaimed r = true) :
    rowAfter now .running (.claimReadyStep worker step) r = r := by
  have hstatus : r.status = .running := by simp_all [isClaimed]
  have hguard : (claimReadyStep worker step now).guard r = false := by
    simp [claimReadyStep, claimable, hstatus]
  show (if (claimReadyStep worker step now).guard r then _ else r) = r
  rw [hguard]
  rfl

theorem failedRow_not_running (error : String) (delaySecs now : Nat) (r : JobStepRow) :
    (failedRow error delaySecs now r).status ≠ .running := by
  unfold failedRow
  split <;> simp [scheduleRetry, markFailed]

private theorem rowAfter_unmatched {now : Time} {jobStatus : JobStatus} {step : String}
    {delaySecs : Nat} {r : JobStepRow} :
    rowAfter now jobStatus (.failOrRetry step unmatchedError .unconditional delaySecs) r =
      if r.stepName = step then failedRow unmatchedError delaySecs now r else r := by
  simp [rowAfter_failOrRetry, notExpected, FailureReport.expected, FailureReport.expectedClaim]

theorem UnmatchedPhase.keyed_act {s t : UnmatchedPhase} {a : UnmatchedAction}
    (hk : Keyed JobStepRow.stepName s.rows) (h : s.act a = some t) :
    Keyed JobStepRow.stepName t.rows := by
  cases a with
  | claim now worker step =>
    cases h
    have hkeyed : Keyed JobStepRow.stepName
        (rowsAfter now .running s.rows (.claimReadyStep worker step)) := keyed_rowsAfter hk
    exact hkeyed
  | setActive active =>
    cases h
    exact hk
  | select now timeoutSecs =>
    cases h
    exact hk
  | failNext now jobStatus delaySecs =>
    simp only [UnmatchedPhase.act] at h
    split at h
    · cases h
    case h_2 step rest _ =>
      cases h
      have hkeyed : Keyed JobStepRow.stepName (rowsAfter now jobStatus s.rows
          (.failOrRetry step unmatchedError .unconditional delaySecs)) := keyed_rowsAfter hk
      exact hkeyed

theorem UnmatchedPhase.keepsClaims_act {s t : UnmatchedPhase} {a : UnmatchedAction}
    (hk : Keyed JobStepRow.stepName s.rows) (h : s.act a = some t) :
    KeepsClaims s t ↔ Unclaimed s a := by
  cases a with
  | claim now worker step =>
    cases h
    refine iff_of_true ?_ trivial
    intro r hr hclaimed
    refine ⟨r, ?_, rfl, by simp_all [isClaimed], rfl, rfl⟩
    show r ∈ rowsAfter now .running s.rows (.claimReadyStep worker step)
    rw [rowsAfter_eq_map hk rfl]
    exact List.mem_map.mpr ⟨r, hr, rowAfter_claim_of_claimed hclaimed⟩
  | setActive active | select now timeoutSecs =>
    cases h
    exact iff_of_true (.of_rows_eq rfl) trivial
  | failNext now jobStatus delaySecs =>
    simp only [UnmatchedPhase.act] at h
    split at h
    · cases h
    case h_2 step rest hlist =>
      cases h
      let failure := Write.failOrRetry step unmatchedError .unconditional delaySecs
      have hrows : rowsAfter now jobStatus s.rows failure =
          s.rows.map (rowAfter now jobStatus failure) := rowsAfter_eq_map hk rfl
      simp only [KeepsClaims, Unclaimed, hlist, List.head?_cons, Option.some.injEq,
        HoldsClaim, failure, hrows]
      constructor
      · intro hkeeps r hr hname
        rw [Bool.eq_false_iff]
        intro hclaimed
        obtain ⟨r', hr', hname', hstatus', -, -⟩ := hkeeps r hr hclaimed
        obtain ⟨r₀, hr₀, rfl⟩ := List.mem_map.mp hr'
        rw [rowAfter_unmatched] at hname' hstatus'
        -- the row that runs under this name would be the one just failed
        have hstep : r₀.stepName = step := by
          split at hname'
          · assumption
          · rw [hname', ← hname]
        rw [if_pos hstep] at hstatus'
        exact failedRow_not_running _ _ _ _ hstatus'
      · intro hunclaimed r hr hclaimed
        have hother : r.stepName ≠ step := by
          intro hname
          rw [hunclaimed r hr hname.symm] at hclaimed
          cases hclaimed
        refine ⟨r, List.mem_map.mpr ⟨r, hr, ?_⟩, rfl, by simp_all [isClaimed], rfl, rfl⟩
        rw [rowAfter_unmatched, if_neg hother]

/--
In a run of claims and of the sweep, every row claimed at some time keeps its claim and its
status from then on, exactly when no row is claimed at the time the sweep fails it.
-/
theorem unmatched_sweep_keeps_claims {s : UnmatchedPhase} {as : List UnmatchedAction}
    (hk : Keyed JobStepRow.stepName s.rows) :
    (∀ before after mid last, before ++ after <+: as →
        exec UnmatchedPhase.act s before = some mid →
        exec UnmatchedPhase.act mid after = some last →
        ∀ r ∈ mid.rows, isClaimed r = true → HoldsClaim r last.rows) ↔
      Meets UnmatchedPhase.act Unclaimed s as := by
  refine forall_segments_iff_meets KeepsClaims (fun s => Keyed JobStepRow.stepName s.rows)
    (fun _ => .of_rows_eq rfl) (fun _ _ _ => KeepsClaims.trans)
    (fun _ _ _ hk _ => UnmatchedPhase.keyed_act hk)
    (fun _ _ _ hk => UnmatchedPhase.keepsClaims_act hk) ?_ hk
  intro s a hstuck
  cases a with
  | failNext now jobStatus delaySecs =>
    intro r _ hhead
    cases hlist : s.unmatched with
    | nil => simp [hlist] at hhead
    | cons step rest => simp [UnmatchedPhase.act, hlist] at hstuck
  | _ => trivial

/-! ## A worker that joins while the sweep works through its list -/

def waitingPhase : UnmatchedPhase :=
  { rows := [{ readyRow with readyAt := some 0, maxRetries := some 1 },
      { readyRow with stepName := "b", readyAt := some 0 }]
    active := [] }

def promptSweep : List UnmatchedAction :=
  [.select 40 30, .failNext 41 .running 0, .failNext 42 .running 0, .setActive [scriptWorker],
    .claim 43 scriptWorker "a"]

theorem unmatched_sweep_keeps_claims_promptSweep :
    Keyed JobStepRow.stepName waitingPhase.rows ∧
      ((∀ before after mid last, before ++ after <+: promptSweep →
          exec UnmatchedPhase.act waitingPhase before = some mid →
          exec UnmatchedPhase.act mid after = some last →
          ∀ r ∈ mid.rows, isClaimed r = true → HoldsClaim r last.rows) ↔
        Meets UnmatchedPhase.act Unclaimed waitingPhase promptSweep) ∧
      Meets UnmatchedPhase.act Unclaimed waitingPhase promptSweep := by
  have hk : Keyed JobStepRow.stepName waitingPhase.rows := by
    unfold Keyed
    decide
  exact ⟨hk, unmatched_sweep_keeps_claims hk, by decide⟩

/-- The worker claims `b` while the sweep fails `a`; then it is the turn of `b`. -/
theorem unmatched_sweep_fails_claimed :
    ∃ mid last,
      exec UnmatchedPhase.act waitingPhase
        [.select 40 30, .failNext 41 .running 0, .setActive [scriptWorker],
          .claim 42 scriptWorker "b"] = some mid ∧
      exec UnmatchedPhase.act mid [.failNext 43 .running 0] = some last ∧
      mid.rows.map (fun r => (r.stepName, r.status, r.workerId)) =
        [("a", .ready, none), ("b", .running, some 7)] ∧
      last.rows.map (fun r => (r.stepName, r.status, r.workerId)) =
        [("a", .ready, none), ("b", .failed, some 7)] ∧
      ¬ ∀ r ∈ mid.rows, isClaimed r = true → HoldsClaim r last.rows := by
  refine ⟨_, _, rfl, rfl, by decide, by decide, ?_⟩
  intro h
  obtain ⟨r', hr', hname, hstatus, -⟩ := h _ (List.mem_cons_of_mem _ List.mem_cons_self) rfl
  revert hr' hname hstatus
  revert r'
  decide

end Stroem.Engine
