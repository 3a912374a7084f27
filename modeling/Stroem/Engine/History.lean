import Stroem.Engine.Absorbing
import Stroem.Engine.Plans

/-!
# Runs of the engine

Workers report on steps they were handed, the server dispatches and sweeps, and any replica may
apply a cascade it computed from rows it read at any earlier time.  A state keeps every list of
rows the job went through, so that an action can refer to what its author has read.
-/

namespace Stroem.Engine

open Foundation JobStepRepo Cascade

structure State where
  rows : List JobStepRow
  earlier : List (List JobStepRow)

namespace State

def start (rows : List JobStepRow) : State := ⟨rows, []⟩

def seen (s : State) : List (List JobStepRow) :=
  s.rows :: s.earlier

def push (s : State) (rows : List JobStepRow) : State := ⟨rows, s.seen⟩

def wasReady (s : State) (step : String) : Bool :=
  s.seen.any fun rows => rows.any fun r => r.stepName == step && r.status == .ready

end State

inductive Action where
  | write (event : Event)
  | cascade (now : Time) (jobStatus : JobStatus) (read fuel : Nat) (job : JobRow)
      (workspaceConfig : Option WorkspaceConfig) (snapshots : Snapshots)

/--
Who makes a write.  The sweeps and the bulk statements find their rows by themselves; every
other write is about a step that a worker or a dispatcher was handed when it was ready.  Plans
are applied by cascades only.
-/
def State.issues (s : State) : Write → Bool
  | .failOrRetry _ _ (.claimed _) _ | .markSkipped _ _ | .cancelPendingSteps
  | .cancelServerManagedSteps | .failNonTerminalSteps _ => true
  | .applyPlan _ => false
  | w => w.target.all s.wasReady

section Advance

variable (env : TemplateEnv) (task : TaskDef)

def advance (s : State) : Action → Option State
  | .write e =>
    if s.issues e.write then some (s.push (rowsAfter e.now e.jobStatus s.rows e.write))
    else none
  | .cascade now jobStatus read fuel job workspaceConfig snapshots =>
    s.seen[read]?.bind fun steps =>
      (run env fuel task job steps workspaceConfig snapshots).map fun plan =>
        s.push (rowsAfter now jobStatus s.rows (.applyPlan plan))

variable {env task}

theorem advance_cases {s t : State} {a : Action} (h : advance env task s a = some t) :
    (∃ e, a = .write e ∧ s.issues e.write = true ∧ e.write.isCascade = false ∧
      t = s.push (rowsAfter e.now e.jobStatus s.rows e.write)) ∨
    ∃ now jobStatus read fuel job ws ss, a = .cascade now jobStatus read fuel job ws ss ∧
      ∃ steps ∈ s.seen, ∃ plan, run env fuel task job steps ws ss = some plan ∧
        t = s.push (rowsAfter now jobStatus s.rows (.applyPlan plan)) := by
  cases a with
  | write e =>
    simp only [advance] at h
    split at h
    case isTrue hissues =>
      refine .inl ⟨e, rfl, hissues, ?_, (Option.some.inj h).symm⟩
      cases hw : e.write <;> simp_all [State.issues, Write.isCascade]
    case isFalse => cases h
  | cascade now jobStatus read fuel job ws ss =>
    obtain ⟨steps, hsteps, hplan⟩ := Option.bind_eq_some_iff.mp h
    obtain ⟨plan, hrun, rfl⟩ := Option.map_eq_some_iff.mp hplan
    exact .inr ⟨now, jobStatus, read, fuel, job, ws, ss, rfl, steps,
      List.mem_of_getElem? hsteps, plan, hrun, rfl⟩

end Advance

/-! ## Invariants over a history -/

/--
Every list of rows seen meets `Good`, and `Later` relates it to the present rows: what an
author read earlier still says something about the rows its action finds.
-/
structure Consistent (Good : List JobStepRow → Prop)
    (Later : List JobStepRow → List JobStepRow → Prop) (s : State) : Prop where
  good : ∀ rows ∈ s.seen, Good rows
  later : ∀ rows ∈ s.seen, Later rows s.rows

namespace Consistent

variable {Good : List JobStepRow → Prop} {Later : List JobStepRow → List JobStepRow → Prop}
  {s : State}

theorem start {rows : List JobStepRow} (hgood : Good rows) (hlater : Later rows rows) :
    Consistent Good Later (.start rows) :=
  ⟨by simpa [State.start, State.seen] using hgood, by simpa [State.start, State.seen] using hlater⟩

theorem rows (h : Consistent Good Later s) : Good s.rows :=
  h.good s.rows List.mem_cons_self

theorem push (h : Consistent Good Later s)
    (htrans : ∀ a b c, Later a b → Later b c → Later a c) {rows : List JobStepRow}
    (hgood : Good rows) (hlater : Later s.rows rows) (hrefl : Later rows rows) :
    Consistent Good Later (s.push rows) := by
  refine ⟨fun a ha => ?_, fun a ha => ?_⟩
  · rcases List.mem_cons.mp ha with rfl | ha
    · exact hgood
    · exact h.good a ha
  · rcases List.mem_cons.mp ha with rfl | ha
    · exact hrefl
    · exact htrans a s.rows rows (h.later a ha) hlater

end Consistent

def Persists (rows rows' : List JobStepRow) : Prop :=
  ∀ r ∈ rows, ∃ r' ∈ rows', Keeps r r'

theorem Persists.refl (rows : List JobStepRow) : Persists rows rows :=
  fun r hr => ⟨r, hr, rfl, rfl, rfl, rfl⟩

theorem Persists.trans {a b c : List JobStepRow} (h : Persists a b) (h' : Persists b c) :
    Persists a c := by
  intro r hr
  obtain ⟨r', hr', hkeeps⟩ := h r hr
  obtain ⟨r'', hr'', hkeeps'⟩ := h' r' hr'
  exact ⟨r'', hr'', hkeeps.trans hkeeps'⟩

theorem persists_rowsAfter {now : Time} {jobStatus : JobStatus} {rows : List JobStepRow}
    {w : Write} (h : Keyed JobStepRow.stepName rows) :
    Persists rows (rowsAfter now jobStatus rows w) := by
  intro r hr
  cases hw : w.isCascade with
  | false =>
    obtain ⟨r', hr', heffect⟩ := mem_of_forall₂_left (rowsAfter_spec h hw) hr
    exact ⟨r', hr', heffect.keeps⟩
  | true =>
    cases w with
    | applyPlan plan =>
      rcases rowsAfter_applyPlan now jobStatus plan h with heq | heffect
      · rw [heq]
        exact Persists.refl rows r hr
      · obtain ⟨r', hr', hmoved⟩ := heffect.kept r hr
        exact ⟨r', hr', hmoved.keeps⟩
    | _ => simp [Write.isCascade] at hw

theorem Persists.keeps {rows rows' : List JobStepRow} (h : Persists rows rows')
    (hk : Keyed JobStepRow.stepName rows') {r r' : JobStepRow} (hr : r ∈ rows) (hr' : r' ∈ rows')
    (hname : r.stepName = r'.stepName) : Keeps r r' := by
  obtain ⟨r'', hr'', hkeeps⟩ := h r hr
  rwa [hk.eq_of_key hr'' hr' (hkeeps.stepName.trans hname)] at hkeeps

end Stroem.Engine
