import Stroem.Engine.Statements
import Stroem.Foundation.Runs

/-!
# Finished rows

What the writers do to a row that is completed, failed, skipped or cancelled.  Most of them ask
for a live status and leave a finished row alone; five do not ask.  A run in which these five
never arrive late keeps the status, the output and the error of every finished row.
-/

namespace Stroem.Engine

open Foundation JobStepRepo Cascade

structure Event where
  now : Time
  jobStatus : JobStatus
  write : Write

def step (rows : List JobStepRow) (e : Event) : Option (List JobStepRow) :=
  some (rowsAfter e.now e.jobStatus rows e.write)

def Write.unguarded : Write → Bool
  | .markRunning _ _ | .markCompleted _ _ | .markFailed _ _
  | .failOrRetry _ _ .unconditional _ | .storeApprovalMessage _ _ => true
  | _ => false

def Timely (rows : List JobStepRow) (e : Event) : Prop :=
  e.write.unguarded = true → ∀ r ∈ rows, e.write.target = some r.stepName →
    r.status.isTerminal = false

def Settled (r : JobStepRow) (rows : List JobStepRow) : Prop :=
  ∃ r' ∈ rows, r'.stepName = r.stepName ∧ r'.status = r.status ∧ r'.output = r.output ∧
    r'.errorMessage = r.errorMessage

theorem Write.moves_terminal {w : Write} {r : JobStepRow} {s : StepStatus}
    (hmoves : w.moves r s) (hterm : r.status.isTerminal = true) :
    w.unguarded = true ∧ w.target = some r.stepName := by
  cases w with
  | failOrRetry step error report delaySecs =>
    obtain ⟨hname, hexpected, -⟩ := hmoves
    cases report with
    | unconditional => exact ⟨rfl, congrArg some hname.symm⟩
    | claimed claim | rejected =>
      simp only [notExpected, FailureReport.expected, Bool.or_eq_false_iff] at hexpected
      cases hs : r.status <;> simp_all [StepStatus.isTerminal]
  | failTaskDispatch step error dispatched pin =>
    obtain ⟨-, hs, -⟩ := hmoves
    rw [hs] at hterm
    cases dispatched <;> simp [dispatchStatus, StepStatus.isTerminal] at hterm
  | _ => cases hs : r.status <;> simp_all [Write.moves, StepStatus.isTerminal, Write.unguarded,
      Write.target]

theorem keyed_rowsAfter {now : Time} {jobStatus : JobStatus} {rows : List JobStepRow} {w : Write}
    (h : Keyed JobStepRow.stepName rows) :
    Keyed JobStepRow.stepName (rowsAfter now jobStatus rows w) := by
  cases hw : w.isCascade with
  | false => exact Keyed.of_forall₂ ((rowsAfter_spec h hw).imp fun _ _ he => he.keeps.stepName) h
  | true =>
    cases w with
    | applyPlan plan =>
      rcases rowsAfter_applyPlan now jobStatus plan h with heq | heffect
      · rwa [heq]
      · exact heffect.keyed
    | _ => simp [Write.isCascade] at hw

theorem settled_rowsAfter {rows : List JobStepRow} {e : Event} {r : JobStepRow}
    (hk : Keyed JobStepRow.stepName rows) (hterm : r.status.isTerminal = true)
    (htimely : Timely rows e) (h : Settled r rows) :
    Settled r (rowsAfter e.now e.jobStatus rows e.write) := by
  cases hw : e.write.isCascade with
  | false =>
    obtain ⟨a, ha, hname, hstatus, houtput, herror⟩ := h
    obtain ⟨a', ha', heffect⟩ := mem_of_forall₂_left (rowsAfter_spec hk hw) ha
    rcases heffect.outcome with ⟨hs, ho, he⟩ | hmoves
    · exact ⟨a', ha', heffect.keeps.stepName.trans hname, hs.trans hstatus,
        ho.trans houtput, he.trans herror⟩
    · rw [← hstatus] at hterm
      obtain ⟨hunguarded, htarget⟩ := Write.moves_terminal hmoves hterm
      rw [htimely hunguarded a ha htarget] at hterm
      cases hterm
  | true =>
    cases hwrite : e.write with
    | applyPlan plan =>
      rcases rowsAfter_applyPlan e.now e.jobStatus plan hk with heq | heffect
      · rwa [heq]
      · obtain ⟨a, ha, hname, hstatus, houtput, herror⟩ := h
        obtain ⟨a', ha', hmoved⟩ := heffect.kept a ha
        obtain rfl := hmoved.of_terminal (by rwa [hstatus])
        exact ⟨a', ha', hname, hstatus, houtput, herror⟩
    | _ => simp [hwrite, Write.isCascade] at hw

/--
In a run whose unguarded writes never arrive late, a row that is finished in some state reached
has the same status, output and error in every later one.
-/
theorem terminal_absorbing {rows mid last : List JobStepRow} {before after : List Event}
    (hk : Keyed JobStepRow.stepName rows) (hok : Meets step Timely rows (before ++ after))
    (hmid : exec step rows before = some mid) (hlast : exec step mid after = some last) :
    ∀ r ∈ mid, r.status.isTerminal = true → Settled r last := by
  intro r hr hterm
  obtain ⟨hbefore, hafter⟩ := hok.append hmid
  have hkmid : Keyed JobStepRow.stepName mid := by
    refine exec_invariant (Keyed JobStepRow.stepName) ?_ hk hbefore hmid
    intro s e t hs _ hstep
    cases hstep
    exact keyed_rowsAfter hs
  have hlast' : Keyed JobStepRow.stepName last ∧ Settled r last := by
    refine exec_invariant (fun s => Keyed JobStepRow.stepName s ∧ Settled r s) ?_
      ⟨hkmid, r, hr, rfl, rfl, rfl, rfl⟩ hafter hlast
    rintro s e t ⟨hs, hsettled⟩ htimely hstep
    cases hstep
    exact ⟨keyed_rowsAfter hs, settled_rowsAfter hs hterm htimely hsettled⟩
  exact hlast'.2

/-! ## A late report -/

def scriptWorker : Worker :=
  { workerId := 7, capabilities := ["script"], tags := [], exclusive := false }

def readyRow : JobStepRow :=
  { stepName := "a", status := .ready, requiredAbility := "script", requiredTags := .arr [] }

def promptReports : List Event :=
  [⟨10, .running, .claimReadyStep scriptWorker "a"⟩, ⟨11, .running, .markRunning "a" 7⟩,
    ⟨20, .running, .markCompleted "a" (some (.str "done"))⟩]

def guardedReports : List Event :=
  [⟨30, .running, .failOrRetry "a" "Step timed out (server-side enforcement)"
      (.claimed (some ⟨7, 11⟩)) 30⟩,
    ⟨31, .running, .markCancelled "a"⟩]

theorem terminal_absorbing_guardedReports :
    Keyed JobStepRow.stepName [readyRow] ∧
      Meets step Timely [readyRow] (promptReports ++ guardedReports) ∧
      ∃ mid last, exec step [readyRow] promptReports = some mid ∧
        exec step mid guardedReports = some last ∧
        mid.map JobStepRow.status = [.completed] ∧
        ∀ r ∈ mid, r.status.isTerminal = true → Settled r last := by
  have hk : Keyed JobStepRow.stepName [readyRow] := by
    unfold Keyed
    decide
  have hok : Meets step Timely [readyRow] (promptReports ++ guardedReports) := by
    refine ⟨fun h => absurd h (by decide), fun t ht => ⟨fun _ => ?_, fun u hu => ⟨fun _ => ?_,
      fun _ _ => ⟨fun h => absurd h (by decide), fun _ _ => ⟨fun h => absurd h (by decide),
        fun _ _ => trivial⟩⟩⟩⟩⟩
    · cases ht
      decide
    · cases ht
      cases hu
      decide
  exact ⟨hk, hok, _, _, rfl, rfl, by decide, terminal_absorbing hk hok rfl rfl⟩

/-- The same start report, delivered after the completion: the finished row runs again. -/
theorem late_start_revives :
    (exec step [readyRow] [⟨10, .running, .claimReadyStep scriptWorker "a"⟩,
        ⟨20, .running, .markCompleted "a" (some (.str "done"))⟩]).map
      (fun rows => rows.map JobStepRow.status) = some [.completed] ∧
    (exec step [readyRow] [⟨10, .running, .claimReadyStep scriptWorker "a"⟩,
        ⟨20, .running, .markCompleted "a" (some (.str "done"))⟩,
        ⟨21, .running, .markRunning "a" 7⟩]).map
      (fun rows => rows.map JobStepRow.status) = some [.running] := by
  decide

end Stroem.Engine
