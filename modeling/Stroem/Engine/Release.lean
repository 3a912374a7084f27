import Stroem.Engine.Cancel
import Stroem.Engine.Rowwise
import Stroem.Engine.Stamps

/-!
# Releasing a claim

`release_claim` puts a claimed step whose pin is unavailable back to `ready`.  It is one
transaction of three statements: it takes the job row `FOR SHARE`, then the step row `FOR UPDATE`
while the step is running under the claim, and then writes.  Other requests go on between these
statements as far as the two locks let them: nobody writes the job row while a release shares it,
and nobody writes a step row that a release has locked.  The cancellation of the job is the one of
`Engine.Cancel`.
-/

namespace Stroem.Engine

open Foundation JobStepRepo JobRepo Cascade

variable {a : CancelAction} {i : Nat} {jobStatus : JobStatus} {rows : List JobStepRow}

structure ReleaseCall where
  step : String
  claim : ClaimIdentity
  retryAfter : Nat
  maxReleases : Int32
  deriving DecidableEq

def ReleaseCall.holds (call : ReleaseCall) (r : JobStepRow) : Bool :=
  r.stepName == call.step && r.status == .running &&
    r.workerId == some call.claim.workerId && r.startedAt == some call.claim.startedAt

inductive Release where
  | sharing (jobStatus : JobStatus)
  | locked (jobStatus : JobStatus) (pinReleases : Int32)
  | returned (outcome : ReleaseOutcome)
  | rolledBack
  deriving DecidableEq

namespace Release

def jobStatus? : Release → Option JobStatus
  | .sharing jobStatus | .locked jobStatus _ => some jobStatus
  | .returned _ | .rolledBack => none

def pinReleases? : Release → Option Int32
  | .locked _ pinReleases => some pinReleases
  | .sharing _ | .returned _ | .rolledBack => none

end Release

structure Releasing extends Cancellation where
  releases : List (ReleaseCall × Release) := []

inductive ReleaseAction where
  | other (action : CancelAction)
  | shareJob (call : ReleaseCall)
  | lockStep (release : Nat)
  | finish (release : Nat) (now : Time)
  | rollBack (release : Nat)

def CancelAction.besidesRelease : CancelAction → Bool
  | .write _ (.releaseClaim _ _ _ _) | .jobWrite _ .cancel => false
  | _ => true

def CancelAction.visits : CancelAction → Option String
  | .visit _ step => some step
  | _ => none

namespace Releasing

def sharesJob (s : Releasing) : Bool :=
  s.releases.any fun e => e.2.jobStatus?.isSome

def locksStep (s : Releasing) (step : String) : Bool :=
  s.releases.any fun e => e.2.pinReleases?.isSome && e.1.step == step

def waits (s : Releasing) (a : CancelAction) (c : Cancellation) : Bool :=
  (s.sharesJob && c.job != s.job) ||
    s.rows.any (fun r => s.locksStep r.stepName && !c.rows.contains r) ||
    a.visits.any s.locksStep

def setRelease (s : Releasing) (i : Nat) (call : ReleaseCall) (phase : Release) : Releasing :=
  { s with releases := s.releases.set i (call, phase) }

def writeRows (s : Releasing) (rows : List JobStepRow) : Releasing :=
  { s with rows := rows }

def act (s : Releasing) : ReleaseAction → Option Releasing
  | .other a =>
    if a.besidesRelease then
      match s.toCancellation.act a with
      | none => none
      | some c => if s.waits a c then none else some { s with toCancellation := c }
    else none
  | .shareJob call => some { s with releases := s.releases ++ [(call, .sharing s.job.status)] }
  | .lockStep i =>
    match s.releases[i]? with
    | some (call, .sharing jobStatus) =>
      if s.locksStep call.step then none
      else
        match s.rows.find? call.holds with
        | none => some (s.setRelease i call (.returned .notApplied))
        | some row => some (s.setRelease i call (.locked jobStatus row.pinReleases))
    | _ => none
  | .finish i now =>
    match s.releases[i]? with
    | some (call, .locked jobStatus pinReleases) =>
      if jobStatus ≠ .pending ∧ jobStatus ≠ .running then
        some ((s.setRelease i call (.returned .cancelled)).writeRows
          ((cancelPendingSteps now).run ((cancelStep call.step now).run s.rows)))
      else if call.maxReleases < pinReleases + 1 then
        some (s.setRelease i call (.returned .capReached))
      else if pinReleases = Int32.maxValue then
        -- `pin_releases + 1` is out of the range of the column
        some (s.setRelease i call .rolledBack)
      else
        some ((s.setRelease i call (.returned .released)).writeRows
          ((releaseStep call.step (now + call.retryAfter) now).run s.rows))
    | _ => none
  | .rollBack i =>
    match s.releases[i]? with
    | some (call, phase) =>
      if phase.jobStatus?.isSome then some (s.setRelease i call .rolledBack) else none
    | none => none

inductive Effect (s : Releasing) : ReleaseAction → Releasing → Prop
  | other {a : CancelAction} {c : Cancellation} (hother : a.besidesRelease = true)
      (hact : s.toCancellation.act a = some c) (hwaits : s.waits a c = false) :
      Effect s (.other a) { s with toCancellation := c }
  | shareJob (call : ReleaseCall) :
      Effect s (.shareJob call) { s with releases := s.releases ++ [(call, .sharing s.job.status)] }
  | notApplied {i : Nat} {call : ReleaseCall} {held : Release}
      (hi : s.releases[i]? = some (call, held)) :
      Effect s (.lockStep i) (s.setRelease i call (.returned .notApplied))
  | locked {i : Nat} {call : ReleaseCall} {jobStatus : JobStatus} {row : JobStepRow}
      (hi : s.releases[i]? = some (call, .sharing jobStatus))
      (hfree : s.locksStep call.step = false) (hrow : s.rows.find? call.holds = some row) :
      Effect s (.lockStep i) (s.setRelease i call (.locked jobStatus row.pinReleases))
  | cancelled {i : Nat} {now : Time} {call : ReleaseCall} {jobStatus : JobStatus}
      {pinReleases : Int32} (hi : s.releases[i]? = some (call, .locked jobStatus pinReleases))
      (hjob : jobStatus ≠ .pending ∧ jobStatus ≠ .running) :
      Effect s (.finish i now) ((s.setRelease i call (.returned .cancelled)).writeRows
        ((cancelPendingSteps now).run ((cancelStep call.step now).run s.rows)))
  | unwritten {i : Nat} {now : Time} {call : ReleaseCall} {jobStatus : JobStatus}
      {pinReleases : Int32} {phase : Release}
      (hi : s.releases[i]? = some (call, .locked jobStatus pinReleases))
      (hjob : ¬(jobStatus ≠ .pending ∧ jobStatus ≠ .running))
      (hphase : phase = .returned .capReached ∨ phase = .rolledBack) :
      Effect s (.finish i now) (s.setRelease i call phase)
  | released {i : Nat} {now : Time} {call : ReleaseCall} {jobStatus : JobStatus}
      {pinReleases : Int32} (hi : s.releases[i]? = some (call, .locked jobStatus pinReleases))
      (hjob : ¬(jobStatus ≠ .pending ∧ jobStatus ≠ .running))
      (hmax : ¬call.maxReleases < pinReleases + 1) :
      Effect s (.finish i now) ((s.setRelease i call (.returned .released)).writeRows
        ((releaseStep call.step (now + call.retryAfter) now).run s.rows))
  | rollBack {i : Nat} {call : ReleaseCall} {held : Release}
      (hi : s.releases[i]? = some (call, held)) :
      Effect s (.rollBack i) (s.setRelease i call .rolledBack)

theorem act_effect {s t : Releasing} {a : ReleaseAction} (h : s.act a = some t) :
    Effect s a t := by
  cases a with
  | other a =>
    simp only [act] at h
    split at h
    case isTrue hother =>
      split at h
      · cases h
      case h_2 c hc =>
        split at h
        · cases h
        case isFalse hwaits =>
          cases h
          exact .other hother hc (by simpa using hwaits)
    case isFalse => cases h
  | shareJob call =>
    cases h
    exact .shareJob call
  | lockStep i =>
    simp only [act] at h
    split at h
    case h_1 call jobStatus hi =>
      split at h
      · cases h
      case isFalse hfree =>
        split at h
        · cases h
          exact .notApplied hi
        case h_2 row hrow =>
          cases h
          exact .locked hi (by simpa using hfree) hrow
    case h_2 => cases h
  | finish i now =>
    simp only [act] at h
    split at h
    case h_1 call jobStatus pinReleases hi =>
      split at h
      case isTrue hjob =>
        cases h
        exact .cancelled hi hjob
      case isFalse hjob =>
        split at h
        · cases h
          exact .unwritten hi hjob (.inl rfl)
        case isFalse hmax =>
          split at h
          · cases h
            exact .unwritten hi hjob (.inr rfl)
          · cases h
            exact .released hi hjob hmax
    case h_2 => cases h
  | rollBack i =>
    simp only [act] at h
    split at h
    case h_1 call held hi =>
      split at h
      · cases h
        exact .rollBack hi
      · cases h
    case h_2 => cases h

end Releasing

/-! ## Other requests -/

variable {t : Cancellation}

theorem Cancellation.act_rows {s : Cancellation} (h : s.act a = some t) :
    t.rows = s.rows ∨
      (∃ now w, t.rows = rowsAfter now s.job.status s.rows w ∧
        (a = .write now w ∨ w = .cancelServerManagedSteps)) ∨
      ∃ now step, a = .visit now step ∧ t.rows = (cancelVisited step now).run s.rows := by
  cases a with
  | write now w =>
    cases h
    exact .inr (.inl ⟨now, w, rfl, .inl rfl⟩)
  | jobWrite now w =>
    cases h
    exact .inl rfl
  | cancelJob now =>
    simp only [Cancellation.act] at h
    split at h <;> obtain rfl := Option.some.inj h <;> exact .inl rfl
  | takeSnapshot | endVisits =>
    simp only [Cancellation.act] at h
    split at h
    · cases h
      exact .inl rfl
    · cases h
  | visit now step =>
    simp only [Cancellation.act] at h
    split at h
    · split at h
      · cases h
        exact .inr (.inr ⟨now, step, rfl, rfl⟩)
      · cases h
    · cases h
  | cancelServerManaged now =>
    simp only [Cancellation.act] at h
    split at h
    · cases h
      exact .inr (.inl ⟨now, .cancelServerManagedSteps, rfl, .inr rfl⟩)
    · cases h

theorem Cancellation.keyed_act {s : Cancellation} (hk : Keyed JobStepRow.stepName s.rows)
    (h : s.act a = some t) : Keyed JobStepRow.stepName t.rows := by
  rcases act_rows h with hrows | ⟨now, w, hrows, -⟩ | ⟨now, step, -, hrows⟩
  · rwa [hrows]
  · rw [hrows]
    exact keyed_rowsAfter hk
  · rw [hrows]
    exact hk.updateWhere fun _ => rfl

theorem Cancellation.terminal_act {s : Cancellation}
    (hs : s.sweep ≠ .idle → s.job.status.isTerminal = true) (h : s.act a = some t) :
    t.sweep ≠ .idle → t.job.status.isTerminal = true := by
  cases a with
  | write now w =>
    cases h
    exact hs
  | jobWrite now w =>
    cases h
    exact fun hsweep => jobAfter_terminal now w (hs hsweep)
  | cancelJob now =>
    simp only [Cancellation.act] at h
    split at h
    case isTrue hactive =>
      cases h
      intro _
      simp [jobAfter, JobWrite.update, Update.onRow, JobRepo.cancel, hactive,
        JobStatus.isTerminal]
    case isFalse =>
      cases h
      exact hs
  | takeSnapshot | endVisits | cancelServerManaged now =>
    simp only [Cancellation.act] at h
    split at h
    case h_1 hsweep =>
      cases h
      exact fun _ => hs (by simp [hsweep])
    case h_2 => cases h
  | visit now step =>
    simp only [Cancellation.act] at h
    split at h
    case h_1 left hsweep =>
      split at h
      · cases h
        exact fun _ => hs (by simp [hsweep])
      · cases h
    case h_2 => cases h

/-! ## Locks -/

structure Locking (s : Releasing) : Prop where
  keyed : Keyed JobStepRow.stepName s.rows
  swept : s.sweep ≠ .idle → s.job.status.isTerminal = true
  job : ∀ e ∈ s.releases, ∀ jobStatus, e.2.jobStatus? = some jobStatus →
    s.job.status = jobStatus
  row : ∀ e ∈ s.releases, ∀ pinReleases, e.2.pinReleases? = some pinReleases →
    ∃ r ∈ s.rows, e.1.holds r = true ∧ r.pinReleases = pinReleases
  alone : ∀ (i j : Nat) (e e' : ReleaseCall × Release), s.releases[i]? = some e →
    s.releases[j]? = some e' → e.2.pinReleases?.isSome = true →
    e'.2.pinReleases?.isSome = true → e.1.step = e'.1.step → i = j

variable {call : ReleaseCall}

theorem ReleaseCall.stepName_of_holds {r : JobStepRow} (h : call.holds r = true) :
    r.stepName = call.step := by
  simp only [ReleaseCall.holds, Bool.and_eq_true, beq_iff_eq] at h
  exact h.1.1.1

theorem ReleaseCall.running_of_holds {r : JobStepRow} (h : call.holds r = true) :
    r.status = .running := by
  simp only [ReleaseCall.holds, Bool.and_eq_true, beq_iff_eq] at h
  exact h.1.1.2

namespace Locking

variable {s t : Releasing}

theorem start (hk : Keyed JobStepRow.stepName s.rows) (hidle : s.sweep = .idle)
    (hnone : s.releases = []) : Locking s where
  keyed := hk
  swept hsweep := absurd hidle hsweep
  job := by simp [hnone]
  row := by simp [hnone]
  alone := by simp [hnone]

private theorem other {c : Cancellation} (h : Locking s)
    (hact : s.toCancellation.act a = some c) (hwaits : s.waits a c = false) :
    Locking { s with toCancellation := c } := by
  simp only [Releasing.waits, Bool.or_eq_false_iff, Bool.and_eq_false_iff] at hwaits
  obtain ⟨⟨hjob, hrows⟩, -⟩ := hwaits
  refine ⟨Cancellation.keyed_act h.keyed hact, Cancellation.terminal_act h.swept hact, ?_, ?_,
    h.alone⟩
  · intro e he jobStatus hread
    have hshares : s.sharesJob = true :=
      List.any_eq_true.mpr ⟨e, he, by simp [hread]⟩
    have hsame : c.job = s.job := by
      rcases hjob with hjob | hjob
      · simp [hshares] at hjob
      · simpa using hjob
    change c.job.status = jobStatus
    rw [hsame]
    exact h.job e he jobStatus hread
  · intro e he pinReleases hread
    obtain ⟨r, hr, hholds, hpin⟩ := h.row e he pinReleases hread
    have hlocks : s.locksStep r.stepName = true := by
      refine List.any_eq_true.mpr ⟨e, he, ?_⟩
      simp [hread, ReleaseCall.stepName_of_holds hholds]
    have hkept : r ∈ c.rows := by
      have hr' := List.any_eq_false.mp hrows r hr
      simpa [hlocks] using hr'
    exact ⟨r, hkept, hholds, hpin⟩

private theorem giveUp {call : ReleaseCall} {phase : Release} (h : Locking s)
    (hphase : phase.jobStatus? = none) : Locking (s.setRelease i call phase) := by
  have hpin : phase.pinReleases? = none := by
    cases phase with
    | locked jobStatus pinReleases => cases hphase
    | _ => rfl
  have hold : ∀ e ∈ s.releases.set i (call, phase), e ∈ s.releases ∨ e = (call, phase) :=
    fun e he => List.mem_or_eq_of_mem_set he
  refine ⟨h.keyed, h.swept, ?_, ?_, ?_⟩
  · intro e he jobStatus hread
    rcases hold e he with he | rfl
    · exact h.job e he jobStatus hread
    · rw [hphase] at hread
      cases hread
  · intro e he pinReleases hread
    rcases hold e he with he | rfl
    · exact h.row e he pinReleases hread
    · rw [hpin] at hread
      cases hread
  · intro j k e e' hj hk hlocked hlocked' hstep
    have hother : ∀ {n : Nat} {e : ReleaseCall × Release},
        (s.releases.set i (call, phase))[n]? = some e → e.2.pinReleases?.isSome = true →
        s.releases[n]? = some e := by
      intro n e hn hlocked
      rcases getElem?_set_cases hn with ⟨-, rfl⟩ | ⟨-, hn⟩
      · simp [hpin] at hlocked
      · exact hn
    exact h.alone j k e e' (hother hj hlocked) (hother hk hlocked') hlocked hlocked' hstep

private theorem shareJob (h : Locking s) (call : ReleaseCall) :
    Locking { s with releases := s.releases ++ [(call, .sharing s.job.status)] } := by
  refine ⟨h.keyed, h.swept, ?_, ?_, ?_⟩
  · intro e he jobStatus hread
    rcases List.mem_append.mp he with he | he
    · exact h.job e he jobStatus hread
    · obtain rfl := List.mem_singleton.mp he
      exact Option.some.inj hread
  · intro e he pinReleases hread
    rcases List.mem_append.mp he with he | he
    · exact h.row e he pinReleases hread
    · obtain rfl := List.mem_singleton.mp he
      cases hread
  · intro j k e e' hj hk hlocked hlocked' hstep
    have hother : ∀ {n : Nat} {e : ReleaseCall × Release},
        (s.releases ++ [(call, .sharing s.job.status)])[n]? = some e →
        e.2.pinReleases?.isSome = true → s.releases[n]? = some e := by
      intro n e hn hlocked
      rw [List.getElem?_append] at hn
      split at hn
      · exact hn
      · rw [List.getElem?_singleton] at hn
        split at hn
        · cases hn
          cases hlocked
        · cases hn
    exact h.alone j k e e' (hother hj hlocked) (hother hk hlocked') hlocked hlocked' hstep

private theorem lockStep {call : ReleaseCall}
    {row : JobStepRow} (h : Locking s) (hi : s.releases[i]? = some (call, .sharing jobStatus))
    (hfree : s.locksStep call.step = false) (hrow : s.rows.find? call.holds = some row) :
    Locking (s.setRelease i call (.locked jobStatus row.pinReleases)) := by
  have hold : ∀ e ∈ s.releases.set i (call, .locked jobStatus row.pinReleases),
      e ∈ s.releases ∨ e = (call, .locked jobStatus row.pinReleases) :=
    fun e he => List.mem_or_eq_of_mem_set he
  have hmem := List.mem_of_getElem? hi
  refine ⟨h.keyed, h.swept, ?_, ?_, ?_⟩
  · intro e he jobStatus' hread
    rcases hold e he with he | rfl
    · exact h.job e he jobStatus' hread
    · cases hread
      exact h.job _ hmem _ rfl
  · intro e he pinReleases hread
    rcases hold e he with he | rfl
    · exact h.row e he pinReleases hread
    · cases hread
      exact ⟨row, List.mem_of_find?_eq_some hrow, List.find?_some hrow, rfl⟩
  · intro j k e e' hj hk hlocked hlocked' hstep
    -- nobody else has locked this step
    have hnone : ∀ e ∈ s.releases, e.2.pinReleases?.isSome = true → e.1.step ≠ call.step := by
      intro e he hlocked hname
      have hfree' := List.any_eq_false.mp hfree e he
      simp [hlocked, hname] at hfree'
    have hcases : ∀ {n : Nat} {e : ReleaseCall × Release},
        (s.releases.set i (call, .locked jobStatus row.pinReleases))[n]? = some e →
        n = i ∧ e.1 = call ∨ s.releases[n]? = some e := by
      intro n e hn
      rcases getElem?_set_cases hn with ⟨hin, rfl⟩ | ⟨-, hn⟩
      · exact .inl ⟨hin, rfl⟩
      · exact .inr hn
    rcases hcases hj with ⟨rfl, hcall⟩ | hj'
    · rcases hcases hk with ⟨rfl, -⟩ | hk'
      · rfl
      · refine absurd ?_ (hnone e' (List.mem_of_getElem? hk') hlocked')
        rw [← hstep, hcall]
    · rcases hcases hk with ⟨rfl, hcall⟩ | hk'
      · refine absurd ?_ (hnone e (List.mem_of_getElem? hj') hlocked)
        rw [hstep, hcall]
      · exact h.alone j k e e' hj' hk' hlocked hlocked' hstep

private theorem finish {call : ReleaseCall}
    {pinReleases : Int32} {phase : Release} (h : Locking s)
    (hi : s.releases[i]? = some (call, .locked jobStatus pinReleases))
    (hphase : phase.jobStatus? = none) (hk : Keyed JobStepRow.stepName rows)
    (hrows : ∀ r ∈ s.rows, r.stepName ≠ call.step → r.status = .running → r ∈ rows) :
    Locking ((s.setRelease i call phase).writeRows rows) := by
  have hgiven : Locking (s.setRelease i call phase) := h.giveUp hphase
  refine ⟨hk, h.swept, hgiven.job, ?_, hgiven.alone⟩
  intro e he pinReleases' hread
  obtain ⟨r, hr, hholds, hpin⟩ := hgiven.row e he pinReleases' hread
  refine ⟨r, hrows r hr ?_ (ReleaseCall.running_of_holds hholds), hholds, hpin⟩
  intro hname
  -- two releases would have locked one step
  obtain ⟨j, hj⟩ := List.mem_iff_getElem?.mp he
  have hj' : s.releases[j]? = some e ∧ j ≠ i := by
    rcases getElem?_set_cases hj with ⟨-, rfl⟩ | ⟨hne, hj⟩
    · cases phase with
      | locked jobStatus pinReleases => cases hphase
      | _ => cases hread
    · exact ⟨hj, hne⟩
  refine hj'.2 (h.alone j i e _ hj'.1 hi (by simp [hread]) rfl ?_)
  exact (ReleaseCall.stepName_of_holds hholds).symm.trans hname

private theorem keyed_cancelled (step : String) (now : Time)
    (hk : Keyed JobStepRow.stepName rows) :
    Keyed JobStepRow.stepName
      ((cancelPendingSteps now).run ((cancelStep step now).run rows)) := by
  have hfirst : Keyed JobStepRow.stepName ((cancelStep step now).run rows) :=
    hk.updateWhere fun _ => rfl
  exact hfirst.updateWhere fun _ => rfl

private theorem mem_cancelled {step : String} {now : Time}
    {r : JobStepRow} (hr : r ∈ rows) (hname : r.stepName ≠ step) (hs : r.status = .running) :
    r ∈ (cancelPendingSteps now).run ((cancelStep step now).run rows) := by
  have hfirst : r ∈ (cancelStep step now).run rows :=
    Update.mem_run.mpr ⟨r, hr, by simp [cancelStep, hname]⟩
  exact Update.mem_run.mpr ⟨r, hfirst, by simp [cancelPendingSteps, hs]⟩

theorem act {a : ReleaseAction} (h : Locking s) (hact : s.act a = some t) : Locking t := by
  cases Releasing.act_effect hact with
  | other _ hc hwaits => exact h.other hc hwaits
  | shareJob call => exact h.shareJob call
  | notApplied => exact h.giveUp rfl
  | locked hi hfree hrow => exact h.lockStep hi hfree hrow
  | cancelled hi hjob =>
    exact h.finish hi rfl (keyed_cancelled _ _ h.keyed) fun r hr => mem_cancelled hr
  | unwritten hi hjob hphase =>
    refine h.giveUp ?_
    rcases hphase with rfl | rfl <;> rfl
  | released hi hjob hmax =>
    refine h.finish hi rfl (h.keyed.updateWhere fun _ => rfl) fun r hr hname _ => ?_
    exact Update.mem_run.mpr ⟨r, hr, by simp [releaseStep, hname]⟩
  | rollBack => exact h.giveUp rfl

end Locking

/-! ## The fence -/

structure FencedRow (call : ReleaseCall) (s : Releasing) (r r' : JobStepRow) : Prop where
  stepName : r'.stepName = r.stepName
  retryAttempt : r'.retryAttempt = r.retryAttempt
  retryHistory : r'.retryHistory = r.retryHistory
  claimed : r.stepName = call.step → r' ≠ r → call.holds r = true
  cancelled : r.stepName = call.step → isActive s.job = false → r'.status = .cancelled
  released : r.stepName = call.step → isActive s.job = true → r' ≠ r →
    r'.status = .ready ∧ r'.pinReleases ≤ call.maxReleases ∧ s.sweep = .idle
  sibling : r.stepName ≠ call.step → r' ≠ r → isActive s.job = false ∧ r'.status = .cancelled

def FencedBy (s t : Releasing) : ReleaseAction → Prop
  | .other _ => True
  | .shareJob _ | .lockStep _ | .rollBack _ => t.job = s.job ∧ t.rows = s.rows
  | .finish i _ => ∃ call phase, s.releases[i]? = some (call, phase) ∧ t.job = s.job ∧
      List.Forall₂ (FencedRow call s) s.rows t.rows

theorem isActive_eq_false_iff {job : JobRecord} :
    isActive job = false ↔ job.status ≠ .pending ∧ job.status ≠ .running := by
  simp [isActive]

variable {s : Releasing}

private theorem fencedRow_same (hactive : isActive s.job = true) (rows : List JobStepRow) :
    List.Forall₂ (FencedRow call s) rows rows :=
  List.forall₂_same.mpr fun r _ =>
    { stepName := rfl
      retryAttempt := rfl
      retryHistory := rfl
      claimed := fun _ h => absurd rfl h
      cancelled := fun _ h => by simp [hactive] at h
      released := fun _ _ h => absurd rfl h
      sibling := fun _ h => absurd rfl h }

private theorem fencedRow_cancelled {now : Time}
    (hclaimed : ∀ r ∈ s.rows, r.stepName = call.step → call.holds r = true)
    (hjob : isActive s.job = false) :
    List.Forall₂ (FencedRow call s) s.rows
      ((cancelPendingSteps now).run ((cancelStep call.step now).run s.rows)) := by
  simp only [Update.run, updateWhere, List.map_map]
  rw [List.forall₂_map_right_iff, List.forall₂_same]
  intro r hr
  by_cases hname : r.stepName = call.step
  · have hrow : ((fun r => if (cancelPendingSteps now).guard r then (cancelPendingSteps now).set r
        else r) ∘ fun r =>
          if (cancelStep call.step now).guard r then (cancelStep call.step now).set r
        else r) r = (cancelStep call.step now).set r := by
      simp [cancelStep, cancelPendingSteps, hname]
    rw [hrow]
    exact ⟨rfl, rfl, rfl, fun h _ => hclaimed r hr h, fun _ _ => rfl,
      fun _ h => by simp [hjob] at h, fun h => absurd hname h⟩
  · by_cases hguard : (cancelPendingSteps now).guard r = true
    · simp only [Function.comp_apply, cancelStep, hname, decide_false, Bool.false_eq_true,
        if_false, hguard, if_true]
      exact ⟨rfl, rfl, rfl, fun h => absurd h hname, fun h => absurd h hname,
        fun h => absurd h hname, fun _ _ => ⟨hjob, rfl⟩⟩
    · simp only [Function.comp_apply, cancelStep, hname, decide_false, Bool.false_eq_true,
        if_false, hguard]
      exact ⟨rfl, rfl, rfl, fun h => absurd h hname, fun h => absurd h hname,
        fun h => absurd h hname, fun _ h => absurd rfl h⟩

private theorem fencedRow_released {now : Time}
    (hclaimed : ∀ r ∈ s.rows, r.stepName = call.step → call.holds r = true)
    (hmax : ∀ r ∈ s.rows, r.stepName = call.step → r.pinReleases + 1 ≤ call.maxReleases)
    (hactive : isActive s.job = true) (hidle : s.sweep = .idle) :
    List.Forall₂ (FencedRow call s) s.rows
      ((releaseStep call.step (now + call.retryAfter) now).run s.rows) := by
  simp only [Update.run, updateWhere]
  rw [List.forall₂_map_right_iff, List.forall₂_same]
  intro r hr
  by_cases hname : r.stepName = call.step
  · rw [if_pos (by simp [releaseStep, hname])]
    exact ⟨rfl, rfl, rfl, fun h _ => hclaimed r hr h, fun _ h => by simp [hactive] at h,
      fun _ _ _ => ⟨rfl, hmax r hr hname, hidle⟩, fun h => absurd hname h⟩
  · rw [if_neg (by simp [releaseStep, hname])]
    exact ⟨rfl, rfl, rfl, fun h => absurd h hname, fun h => absurd h hname,
      fun h => absurd h hname, fun _ h => absurd rfl h⟩

private theorem Locking.the_row {pinReleases : Int32} (h : Locking s)
    (hi : s.releases[i]? = some (call, .locked jobStatus pinReleases)) :
    ∀ r ∈ s.rows, r.stepName = call.step → call.holds r = true ∧ r.pinReleases = pinReleases := by
  intro r hr hname
  obtain ⟨row, hrow, hholds, hpin⟩ := h.row _ (List.mem_of_getElem? hi) _ rfl
  have hsame : r = row :=
    h.keyed.eq_of_key hr hrow (hname.trans (ReleaseCall.stepName_of_holds hholds).symm)
  rw [hsame]
  exact ⟨hholds, hpin⟩

private theorem Locking.isActive_iff {pinReleases : Int32} (h : Locking s)
    (hi : s.releases[i]? = some (call, .locked jobStatus pinReleases)) :
    isActive s.job = false ↔ jobStatus ≠ .pending ∧ jobStatus ≠ .running := by
  rw [isActive_eq_false_iff, h.job _ (List.mem_of_getElem? hi) _ rfl]

private theorem Locking.idle_of_isActive (h : Locking s) (hactive : isActive s.job = true) :
    s.sweep = .idle := by
  by_contra hsweep
  rw [isActive_eq_not_isTerminal, h.swept hsweep] at hactive
  cases hactive

theorem Locking.fenced {t : Releasing} {a : ReleaseAction} (h : Locking s)
    (hact : s.act a = some t) : FencedBy s t a := by
  cases Releasing.act_effect hact with
  | other => trivial
  | shareJob | notApplied | locked | rollBack => exact ⟨rfl, rfl⟩
  | cancelled hi hjob =>
    refine ⟨_, _, hi, rfl, fencedRow_cancelled (fun r hr hname => ?_) ?_⟩
    · exact (h.the_row hi r hr hname).1
    · exact (h.isActive_iff hi).mpr hjob
  | unwritten hi hjob _ =>
    have hactive := Bool.not_eq_false _ ▸ mt (h.isActive_iff hi).mp hjob
    exact ⟨_, _, hi, rfl, fencedRow_same hactive _⟩
  | released hi hjob hmax =>
    have hactive := Bool.not_eq_false _ ▸ mt (h.isActive_iff hi).mp hjob
    refine ⟨_, _, hi, rfl, fencedRow_released (fun r hr hname => ?_) (fun r hr hname => ?_)
      hactive (h.idle_of_isActive hactive)⟩
    · exact (h.the_row hi r hr hname).1
    · rw [(h.the_row hi r hr hname).2]
      exact Int32.not_lt.mp hmax

/-! ## The sweep of the cancellation -/

def readyIn (step : String) (rows : List JobStepRow) : Bool :=
  rows.any fun r => r.stepName == step && r.status == .ready

theorem Cancellation.past_act {s : Cancellation} {step : String}
    (hpast : s.sweep.past step = false) (hready : readyIn step s.rows = true)
    (hready' : readyIn step t.rows = true) (hact : s.act a = some t) :
    t.sweep.past step = false := by
  obtain ⟨r, hr, hr'⟩ := List.any_eq_true.mp hready
  simp only [Bool.and_eq_true, beq_iff_eq] at hr'
  obtain ⟨hname, hs⟩ := hr'
  cases a with
  | write now w | jobWrite now w =>
    cases hact
    exact hpast
  | cancelJob now =>
    simp only [Cancellation.act] at hact
    split at hact
    · cases hact
      rfl
    · cases hact
      exact hpast
  | takeSnapshot =>
    simp only [Cancellation.act] at hact
    split at hact
    · cases hact
      have hmem : r.stepName ∈ snapshotNames s.rows :=
        List.mem_map_of_mem (List.mem_filter.mpr ⟨hr, by simp [cancelPendingSteps, hs]⟩)
      simpa [Sweep.past, hname] using hmem
    · cases hact
  | visit now visited =>
    simp only [Cancellation.act] at hact
    split at hact
    case h_1 left hsweep =>
      split at hact
      · cases hact
        have hother : step ≠ visited := by
          -- the rows of the visited name are cancelled if they were ready
          rintro rfl
          obtain ⟨r', hr', hready'⟩ := List.any_eq_true.mp hready'
          simp only [Bool.and_eq_true, beq_iff_eq] at hready'
          obtain ⟨r₀, -, rfl⟩ := Update.mem_run.mp hr'
          split at hready'
          · cases hready'.2
          case isFalse hguard =>
            exact hguard (by simp [cancelVisited, cancelPendingSteps, hready'.1, hready'.2])
        simpa [hsweep, Sweep.past, hother] using hpast
      · cases hact
    case h_2 => cases hact
  | endVisits | cancelServerManaged now =>
    simp only [Cancellation.act] at hact
    split at hact
    case h_1 hsweep => simp [hsweep, Sweep.past] at hpast
    case h_2 => cases hact

theorem Releasing.past_act {t : Releasing} {a : ReleaseAction} {step : String}
    (hpast : s.sweep.past step = false) (hready : readyIn step s.rows = true)
    (hready' : readyIn step t.rows = true) (hact : s.act a = some t) :
    t.sweep.past step = false := by
  cases Releasing.act_effect hact with
  | other _ hc _ => exact Cancellation.past_act hpast hready hready' hc
  | _ => exact hpast

theorem Releasing.not_left_ready {t : Releasing} {as : List ReleaseAction} {step : String}
    (hpast : s.sweep.past step = false) (hrun : exec act s as = some t)
    (hfinished : t.sweep = .finished) :
    ∃ before after mid, before ++ after = as ∧ exec act s before = some mid ∧
      readyIn step mid.rows = false := by
  induction as generalizing s with
  | nil =>
    obtain rfl : s = t := by simpa using hrun
    simp [hfinished, Sweep.past] at hpast
  | cons a as ih =>
    cases hready : readyIn step s.rows with
    | false => exact ⟨[], a :: as, s, rfl, rfl, hready⟩
    | true =>
      obtain ⟨u, hu, hrun⟩ := exec_cons_eq_some.mp hrun
      cases hready' : readyIn step u.rows with
      | false => exact ⟨[a], as, u, rfl, exec_cons_eq_some.mpr ⟨u, hu, rfl⟩, hready'⟩
      | true =>
        obtain ⟨before, after, mid, rfl, hmid, hnot⟩ :=
          ih (Releasing.past_act hpast hready hready' hu) hrun
        exact ⟨a :: before, after, mid, rfl, exec_cons_eq_some.mpr ⟨u, hu, hmid⟩, hnot⟩

/-! ## The number of releases -/

def ReleasedAtMost (max : Int32) (rows : List JobStepRow) : Prop :=
  ∀ r ∈ rows, r.pinReleases ≤ max

private theorem releasedAtMost_stays (max : Int32) : Stays fun r => r.pinReleases ≤ max := by
  intro r r' hkept h
  rw [hkept]
  exact h

theorem ReleasedAtMost.run {max : Int32} {u : Update JobStepRow}
    (h : ReleasedAtMost max rows)
    (hset : ∀ r ∈ rows, u.guard r = true → (u.set r).pinReleases ≤ max) :
    ReleasedAtMost max (u.run rows) := by
  intro r hr
  obtain ⟨r₀, hr₀, rfl⟩ := Update.mem_run.mp hr
  split
  case isTrue hguard => exact hset r₀ hr₀ hguard
  case isFalse => exact h r₀ hr₀

theorem ReleasedAtMost.rowsAfter {max : Int32} {now : Time}
    {w : Write} (hmax : 0 ≤ max) (hk : Keyed JobStepRow.stepName rows)
    (hw : ∀ step claim retryAfter maxReleases, w ≠ .releaseClaim step claim retryAfter maxReleases)
    (h : ReleasedAtMost max rows) : ReleasedAtMost max (rowsAfter now jobStatus rows w) := by
  cases hrowwise : w.rowwise with
  | true =>
    rw [rowsAfter_eq_map hk hrowwise]
    intro r hr
    obtain ⟨r₀, hr₀, rfl⟩ := List.mem_map.mp hr
    rw [(rowAfter_carries now jobStatus hrowwise r₀).pinReleases]
    exact h r₀ hr₀
  | false =>
    cases w with
    | releaseClaim step claim retryAfter maxReleases => exact absurd rfl (hw _ _ _ _)
    | applyPlan plan =>
      simp only [Engine.rowsAfter]
      split
      case h_1 rows' happly =>
        exact (releasedAtMost_stays max).plan h (fun _ _ _ _ => hmax) happly
      case h_2 => exact h
    | _ => cases hrowwise

theorem Cancellation.releasedAtMost_act {max : Int32} {s : Cancellation} (hmax : 0 ≤ max)
    (hk : Keyed JobStepRow.stepName s.rows) (ha : a.besidesRelease = true)
    (h : ReleasedAtMost max s.rows) (hact : s.act a = some t) : ReleasedAtMost max t.rows := by
  rcases act_rows hact with hrows | ⟨now, w, hrows, hw⟩ | ⟨now, step, -, hrows⟩
  · rwa [hrows]
  · rw [hrows]
    refine h.rowsAfter hmax hk ?_
    rintro step claim retryAfter maxReleases rfl
    rcases hw with rfl | hw
    · cases ha
    · cases hw
  · rw [hrows]
    exact h.run fun r hr _ => h r hr

def CallsAtMost (max : Int32) (s : Releasing) : Prop :=
  ∀ e ∈ s.releases, e.1.maxReleases ≤ max

private theorem CallsAtMost.setRelease {max : Int32} {held phase : Release}
    (h : CallsAtMost max s) (hi : s.releases[i]? = some (call, held)) :
    CallsAtMost max (s.setRelease i call phase) := by
  intro e he
  rcases List.mem_or_eq_of_mem_set he with he | he
  · exact h e he
  · have hcall := h (call, held) (List.mem_of_getElem? hi)
    rw [he]
    exact hcall

theorem Locking.releasedAtMost_act {max : Int32} {t : Releasing} {a : ReleaseAction}
    (hmax : 0 ≤ max) (hlocking : Locking s)
    (hcall : ∀ call, a = .shareJob call → call.maxReleases ≤ max)
    (h : ReleasedAtMost max s.rows ∧ CallsAtMost max s) (hact : s.act a = some t) :
    ReleasedAtMost max t.rows ∧ CallsAtMost max t := by
  obtain ⟨hrows, hcalls⟩ := h
  cases Releasing.act_effect hact with
  | other hother hc _ =>
    exact ⟨Cancellation.releasedAtMost_act hmax hlocking.keyed hother hrows hc, hcalls⟩
  | shareJob call =>
    refine ⟨hrows, fun e he => ?_⟩
    rcases List.mem_append.mp he with he | he
    · exact hcalls e he
    · obtain rfl := List.mem_singleton.mp he
      exact hcall call rfl
  | notApplied hi | rollBack hi => exact ⟨hrows, hcalls.setRelease hi⟩
  | locked hi _ _ => exact ⟨hrows, hcalls.setRelease hi⟩
  | unwritten hi _ _ => exact ⟨hrows, hcalls.setRelease hi⟩
  | cancelled hi _ =>
    refine ⟨ReleasedAtMost.run ?_ ?_, hcalls.setRelease hi⟩
    · exact hrows.run fun r hr _ => hrows r hr
    · intro r hr _
      obtain ⟨r₀, hr₀, rfl⟩ := Update.mem_run.mp hr
      split <;> exact hrows r₀ hr₀
  | @released i now call jobStatus pinReleases hi _ hle =>
    refine ⟨hrows.run fun r hr hguard => ?_, hcalls.setRelease hi⟩
    have hname : r.stepName = call.step := by simpa [releaseStep] using hguard
    have hpin := (hlocking.the_row hi r hr hname).2
    have hcall := hcalls _ (List.mem_of_getElem? hi)
    have hwritten : r.pinReleases + 1 ≤ max := by
      rw [hpin]
      exact Int32.le_trans (Int32.not_lt.mp hle) hcall
    exact hwritten

theorem Locking.idle_of_released {t : Releasing} {now : Time} (h : Locking s)
    (hact : s.act (.finish i now) = some t)
    (hreleased : t.releases[i]? = some (call, .returned .released)) : t.sweep = .idle := by
  -- the entry of this release in the list is the one just written
  have hwritten : ∀ {call' : ReleaseCall} {phase : Release},
      (s.releases.set i (call', phase))[i]? = some (call, .returned .released) →
      phase = .returned .released := by
    intro call' phase hset
    rw [List.getElem?_set_self'] at hset
    obtain ⟨e, -, he⟩ := Option.map_eq_some_iff.mp hset
    exact congrArg Prod.snd he
  cases Releasing.act_effect hact with
  | cancelled _ _ => cases hwritten hreleased
  | unwritten _ _ hphase =>
    have hreleased' := hwritten hreleased
    rcases hphase with rfl | rfl <;> cases hreleased'
  | released hi hjob _ =>
    exact h.idle_of_isActive (Bool.not_eq_false _ ▸ mt (h.isActive_iff hi).mp hjob)

/-! ## Runs -/

/--
`release_claim` is fenced: in every interleaving with completions, failures, claims and the
cancellation of the job, it writes its step only under the claim passed and touches neither
attempts nor history.
-/
theorem release_claim_fenced {s t : Releasing} {as : List ReleaseAction}
    (hk : Keyed JobStepRow.stepName s.rows) (hidle : s.sweep = .idle) (hnone : s.releases = [])
    (hrun : exec Releasing.act s as = some t) :
    (∀ before a after mid last, before ++ a :: after = as →
      exec Releasing.act s before = some mid → mid.act a = some last → FencedBy mid last a) ∧
    (∀ before i now after mid call, before ++ .finish i now :: after = as →
      exec Releasing.act s (before ++ [.finish i now]) = some mid →
      mid.releases[i]? = some (call, .returned .released) → t.sweep = .finished →
      ∃ during rest late, during ++ rest = after ∧ exec Releasing.act mid during = some late ∧
        readyIn call.step late.rows = false) ∧
    ∀ max, 0 ≤ max → (∀ call, .shareJob call ∈ as → call.maxReleases ≤ max) →
      ReleasedAtMost max s.rows → ReleasedAtMost max t.rows := by
  have hstart : Locking s := .start hk hidle hnone
  have hlocking : ∀ {before mid}, exec Releasing.act s before = some mid → Locking mid := by
    intro before mid hmid
    have hany : Meets Releasing.act (fun _ _ => True) s before :=
      .of_forall (fun _ _ => trivial) _ _
    exact exec_invariant Locking (fun _ _ _ h _ => h.act) hstart hany hmid
  refine ⟨fun before a after mid last _ hmid hact => (hlocking hmid).fenced hact, ?_, ?_⟩
  · rintro before i now after mid call rfl hmid hreleased hfinished
    obtain ⟨early, hearly, hlate⟩ := exec_append_eq_some.mp hmid
    have hact : early.act (.finish i now) = some mid := by
      simpa [exec, Option.bind_eq_some_iff] using hlate
    have hmidle := (hlocking hearly).idle_of_released hact hreleased
    have hlast : exec Releasing.act mid after = some t := by
      rw [List.append_cons, exec_append_eq_some] at hrun
      obtain ⟨u, hu, hrun⟩ := hrun
      obtain rfl : mid = u := Option.some.inj (hmid.symm.trans hu)
      exact hrun
    exact Releasing.not_left_ready (by rw [hmidle]; rfl) hlast hfinished
  · intro max hmax hcalls hrows
    have hmeets : Meets Releasing.act
        (fun _ a => ∀ call, a = .shareJob call → call.maxReleases ≤ max) s as := by
      refine Meets.of_forall_mem ?_ s
      rintro a ha call rfl
      exact hcalls call ha
    have hinv : Locking t ∧ ReleasedAtMost max t.rows ∧ CallsAtMost max t := by
      refine exec_invariant (fun u => Locking u ∧ ReleasedAtMost max u.rows ∧ CallsAtMost max u)
        ?_ ⟨hstart, hrows, by simp [CallsAtMost, hnone]⟩ hmeets hrun
      rintro u a v ⟨hu, hu'⟩ hcall hact
      exact ⟨hu.act hact, hu.releasedAtMost_act hmax hcall hu' hact⟩
    exact hinv.2.1

def releasedOnce : ReleaseCall :=
  { step := "a", claim := ⟨7, 10⟩, retryAfter := 5, maxReleases := 30 }

def releaseThenCancel : List ReleaseAction :=
  [.other (.write 10 (.claimReadyStep scriptWorker "a")), .shareJob releasedOnce, .lockStep 0,
    .finish 0 12, .other (.cancelJob 13), .other .takeSnapshot, .other (.visit 14 "a"),
    .other .endVisits, .other (.cancelServerManaged 15)]

def releasingJob : Releasing := { job := { status := .running }, rows := [readyRow] }

theorem release_claim_fenced_releaseThenCancel :
    ∃ t, exec Releasing.act releasingJob releaseThenCancel = some t ∧
      t.rows.map JobStepRow.status = [.cancelled] ∧ t.sweep = .finished ∧
      t.releases = [(releasedOnce, .returned .released)] ∧ ReleasedAtMost 30 t.rows := by
  have hk : Keyed JobStepRow.stepName releasingJob.rows := by
    unfold Keyed
    decide
  refine ⟨_, rfl, by decide, rfl, by decide, ?_⟩
  refine (release_claim_fenced hk rfl rfl
    (show exec Releasing.act releasingJob releaseThenCancel = some _ from rfl)).2.2 30
    (by decide) ?_ ?_
  · intro call hcall
    have hthe : call = releasedOnce := by simpa [releaseThenCancel] using hcall
    rw [hthe]
    decide
  · intro r hr
    obtain rfl := List.mem_singleton.mp hr
    decide

end Stroem.Engine
