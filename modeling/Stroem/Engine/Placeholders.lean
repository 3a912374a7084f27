import Stroem.JobCreation
import Stroem.Engine.History

/-!
# Loop placeholders are not work

A `for_each` placeholder stands for its instances; it is created pending, started by the
cascade and finished by it, and a worker must never be handed one.  The one writer that can
make it ready is the retry of a failure the sweep reports: the sweep does not tell a running
placeholder from a running step.
-/

namespace Stroem.Engine

open Foundation JobStepRepo Cascade JobCreation

structure PlaceholdersIdle (rows : List JobStepRow) : Prop where
  keyed : Keyed JobStepRow.stepName rows
  idle : ∀ r ∈ rows, r.isPlaceholder = true → r.status ≠ .ready
  instances : ∀ r ∈ rows, r.loopSource ≠ none → r.isPlaceholder = false

def RetriesSpent (s : State) : Action → Prop
  | .write ⟨_, _, .failOrRetry step _ (.claimed claim) _⟩ =>
    ∀ r ∈ s.rows, r.stepName = step → r.isPlaceholder = true →
      notExpected [.running] claim r = false → hasRetryLeft r = false
  | _ => True

theorem createSteps_idle {jsonText : Json → String} {defaults : JobDefaults} {jobId : Uuid}
    {source : String → FlowStep → StepSource} {flow : Flow} {now : Time} {rows : List JobStepRow}
    (h : createSteps jsonText defaults jobId source flow now = some rows) :
    PlaceholdersIdle rows := by
  refine ⟨createSteps_keyed h, fun r hr hplace => ?_, fun r hr hsource => ?_⟩
  · obtain ⟨entry, -, hcreated⟩ := mem_of_forall₂_right (createSteps_created h) hr
    simp [hcreated.placeholder_pending hplace]
  · obtain ⟨entry, -, hcreated⟩ := mem_of_forall₂_right (createSteps_created h) hr
    exact absurd hcreated.loopSource hsource

section Steps

variable {s : State}

private theorem not_placeholder_of_wasReady (h : Consistent PlaceholdersIdle Persists s)
    {r : JobStepRow} (hr : r ∈ s.rows) (hready : s.wasReady r.stepName = true) :
    r.isPlaceholder = false := by
  simp only [State.wasReady, List.any_eq_true, Bool.and_eq_true, beq_iff_eq] at hready
  obtain ⟨rows, hrows, r₀, hr₀, hname, hstatus⟩ := hready
  have hkeeps := (h.later rows hrows).keeps h.rows.keyed hr₀ hr hname
  rw [hkeeps.isPlaceholder]
  by_contra hplace
  exact (h.good rows hrows).idle r₀ hr₀ (by simpa using hplace) hstatus

private theorem Write.moves_ready {w : Write} {r : JobStepRow} (hmoves : w.moves r .ready)
    (hissues : s.issues w = true) :
    r.status = .ready ∨ s.wasReady r.stepName = true ∨
      ∃ error claim delaySecs, w = .failOrRetry r.stepName error (.claimed claim) delaySecs ∧
        notExpected [.running] claim r = false ∧ hasRetryLeft r = true := by
  cases w with
  | failOrRetry step error report delaySecs =>
    obtain ⟨rfl, hexpected, hcase⟩ := hmoves
    have hleft : hasRetryLeft r = true := by simpa using hcase
    cases report with
    | claimed claim => exact .inr (.inr ⟨error, claim, delaySecs, rfl, hexpected, hleft⟩)
    | unconditional
    | rejected => exact .inr (.inl (by simpa [State.issues, Write.target] using hissues))
  | _ => simp_all [Write.moves, State.issues, Write.target]

theorem placeholdersIdle_write (h : Consistent PlaceholdersIdle Persists s) {e : Event}
    (hissues : s.issues e.write = true) (hw : e.write.isCascade = false)
    (hok : RetriesSpent s (.write e)) :
    PlaceholdersIdle (rowsAfter e.now e.jobStatus s.rows e.write) := by
  have hkeyed := h.rows.keyed
  have hspec : List.Forall₂ (RowEffect e.write) s.rows
      (rowsAfter e.now e.jobStatus s.rows e.write) := rowsAfter_spec hkeyed hw
  refine ⟨keyed_rowsAfter hkeyed, fun r' hr' hplace hready => ?_, fun r' hr' hsource => ?_⟩
  · obtain ⟨r, hr, heffect⟩ := mem_of_forall₂_right hspec hr'
    rw [heffect.keeps.isPlaceholder] at hplace
    have hidle := h.rows.idle r hr hplace
    rcases heffect.outcome with ⟨hs, -, -⟩ | hmoves
    · exact hidle (hs.symm.trans hready)
    · rw [hready] at hmoves
      rcases Write.moves_ready hmoves hissues with hs | hwas |
        ⟨error, claim, delaySecs, hwrite, hexpected, hleft⟩
      · exact hidle hs
      · rw [not_placeholder_of_wasReady h hr hwas] at hplace
        cases hplace
      · obtain ⟨now, jobStatus, w⟩ := e
        obtain rfl : w = _ := hwrite
        rw [hok r hr rfl hplace hexpected] at hleft
        cases hleft
  · obtain ⟨r, hr, heffect⟩ := mem_of_forall₂_right hspec hr'
    rw [heffect.keeps.loopSource] at hsource
    rw [heffect.keeps.isPlaceholder]
    exact h.rows.instances r hr hsource

section Cascade

variable {env : TemplateEnv} {task : TaskDef} {job : JobRow} {ws : Option WorkspaceConfig}
  {ss : Snapshots}

theorem Behind.promote_target {steps : List JobStepRow} {plan : Plan} {cs : List Change}
    {name : String} (h : PlaceholdersIdle steps)
    (hb : Behind env task job ws ss steps plan cs) (hc : .promote name ∈ cs) :
    (∃ r ∈ steps, r.stepName = name ∧ r.isPlaceholder = false) ∨
      ∃ c ∈ cs, ∃ a ∈ c.inserted, a.stepName = name := by
  obtain ⟨pre, batch, hpre, -, hsteps, -, hbatch, hmem⟩ := hb.batch h.keyed hc
  have horigin := hsteps.origin h.keyed
  obtain ⟨r, hr, hname, hplace⟩ : ∃ r ∈ Snapshot.applyAll steps pre, r.stepName = name ∧
      (r.isPlaceholder = false ∨ r.loopSource ≠ none) := by
    cases hbatch with
    | rollup =>
      obtain ⟨ph, -, -, -, hreason⟩ := phaseRollup_reason hmem
      cases hreason with
      | advance i n idx hseq hgood hi his hit hidx hn hns hnidx hnp =>
        exact ⟨n, hn, rfl, .inr (by simp [hns])⟩
    | promote =>
      obtain ⟨r, hr, -, hplace, fs, -, hreason⟩ := promoteBatch_reason hmem
      exact ⟨r, hr, hreason.target.symm, .inl hplace⟩
    | placeholders =>
      obtain ⟨r, -, -, -, fs, -, hreason⟩ := phasePlaceholders_reason hmem
      cases hreason
  rcases horigin r hr with ⟨r₀, hr₀, hmoved⟩ | ⟨c, hc, a, ha, hmoved⟩
  · refine .inl ⟨r₀, hr₀, hmoved.keeps.stepName.symm.trans hname, ?_⟩
    rcases hplace with hplace | hsource
    · rwa [hmoved.keeps.isPlaceholder] at hplace
    · exact h.instances r₀ hr₀ (by rwa [hmoved.keeps.loopSource] at hsource)
  · exact .inr ⟨c, hpre c hc, a, ha, hmoved.keeps.stepName.symm.trans hname⟩

theorem placeholdersIdle_cascade (h : Consistent PlaceholdersIdle Persists s)
    {steps : List JobStepRow} (hsteps : steps ∈ s.seen) {fuel : Nat} {plan : Plan}
    (hrun : run env fuel task job steps ws ss = some plan) (now : Time) (jobStatus : JobStatus) :
    PlaceholdersIdle (rowsAfter now jobStatus s.rows (.applyPlan plan)) := by
  have hkeyed := h.rows.keyed
  have hpersists := h.later steps hsteps
  have hgood := h.good steps hsteps
  have hplain : ∀ i ∈ plan.changes.flatMap newSteps, i.forEachExpr = none := by
    intro i hi
    obtain ⟨c, hc, hi⟩ := List.mem_flatMap.mp hi
    exact (run_newSteps hrun hc hi).2.forEachExpr
  rcases rowsAfter_applyPlan now jobStatus plan hkeyed with heq | heffect
  · rw [heq]
    exact h.rows
  · refine ⟨heffect.keyed, fun r' hr' hplace hready => ?_, fun r' hr' hsource => ?_⟩
    · rcases heffect.origin r' hr' with ⟨r, hr, hmoved⟩ | ⟨i, hi, hmoved⟩
      · rw [hmoved.keeps.isPlaceholder] at hplace
        rcases hmoved.outcome with rfl | ⟨-, c, hc, htarget, hstatus⟩
        · exact h.rows.idle r' hr hplace hready
        · have hpromote : c = .promote r.stepName := by
            rw [hready] at hstatus
            rw [← htarget]
            cases c with
            | rollup p outcome => cases outcome <;> simp [Change.setRow] at hstatus
            | _ => simp [Change.setRow, Change.target] at hstatus ⊢
          subst hpromote
          obtain ⟨cs, hbehind⟩ := Behind.of_run hrun fun i hi a ha hname => by
            obtain ⟨a', ha', hkeeps⟩ := hpersists a ha
            exact heffect.fresh i hi a' ha' (hkeeps.stepName.trans hname)
          obtain ⟨c₀, hc₀, hforget⟩ := hbehind.of_mem _ hc
          obtain rfl : c₀ = .promote r.stepName := by
            cases c₀ with
            | rollup p outcome => cases outcome <;> cases hforget
            | fail step error => cases hforget
            | _ => exact hforget
          rcases hbehind.promote_target hgood hc₀ with ⟨a, ha, hname, ha'⟩ | ⟨d, hd, a, ha, hname⟩
          · rw [(hpersists.keeps hkeyed ha hr hname).isPlaceholder, ha'] at hplace
            cases hplace
          · -- the plan inserts this name, so no row had it
            obtain ⟨d', hd', hforget'⟩ := hbehind.to_mem d hd
            have hins : d'.inserted = d.inserted := by
              rw [← Change.forget_inserted d', hforget', Change.forget_inserted]
            rw [← hins, inserted_eq_newSteps] at ha
            obtain ⟨i, hi, rfl⟩ := List.mem_map.mp ha
            exact heffect.fresh i (List.mem_flatMap.mpr ⟨d', hd', hi⟩) r hr hname.symm
      · rw [hmoved.keeps.isPlaceholder] at hplace
        simp [JobStepRow.isPlaceholder, insertedRow, hplain i hi] at hplace
    · rcases heffect.origin r' hr' with ⟨r, hr, hmoved⟩ | ⟨i, hi, hmoved⟩
      · rw [hmoved.keeps.loopSource] at hsource
        rw [hmoved.keeps.isPlaceholder]
        exact h.rows.instances r hr hsource
      · rw [hmoved.keeps.isPlaceholder]
        simp [JobStepRow.isPlaceholder, insertedRow, hplain i hi]

end Cascade

end Steps

section Runs

variable {env : TemplateEnv} {task : TaskDef}

theorem placeholdersIdle_advance {s t : State} {a : Action}
    (h : Consistent PlaceholdersIdle Persists s) (hok : RetriesSpent s a)
    (hstep : advance env task s a = some t) : Consistent PlaceholdersIdle Persists t := by
  rcases advance_cases hstep with ⟨e, rfl, hissues, hw, rfl⟩ |
    ⟨now, jobStatus, read, fuel, job, ws, ss, rfl, steps, hsteps, plan, hrun, rfl⟩
  · exact h.push (fun _ _ _ => Persists.trans) (placeholdersIdle_write h hissues hw hok)
      (persists_rowsAfter h.rows.keyed) (.refl _)
  · exact h.push (fun _ _ _ => Persists.trans)
      (placeholdersIdle_cascade h hsteps hrun now jobStatus)
      (persists_rowsAfter h.rows.keyed) (.refl _)

/--
In a run where no reported failure meets a placeholder with a retry left, no placeholder is
ever ready, and no worker can claim one.
-/
theorem placeholder_never_claimable {jsonText : Json → String} {defaults : JobDefaults}
    {jobId : Uuid} {source : String → FlowStep → StepSource} {created : Time}
    {rows : List JobStepRow} {as : List Action} {s : State}
    (hcreate : createSteps jsonText defaults jobId source task.flow created = some rows)
    (hok : Meets (advance env task) RetriesSpent (.start rows) as)
    (hrun : exec (advance env task) (.start rows) as = some s) :
    ∀ r ∈ s.rows, r.isPlaceholder = true →
      r.status ≠ .ready ∧ ∀ worker now, claimable worker now r = false := by
  have hstart : Consistent PlaceholdersIdle Persists (.start rows) :=
    .start (createSteps_idle hcreate) (.refl rows)
  have hlast := exec_invariant (Consistent PlaceholdersIdle Persists)
    (fun _ _ _ h hok hstep => placeholdersIdle_advance h hok hstep) hstart hok hrun
  intro r hr hplace
  have hidle := hlast.rows.idle r hr hplace
  refine ⟨hidle, fun worker now => ?_⟩
  simp [claimable, hidle]

end Runs

/-! ## A loop that times out -/

def retriedStep : FlowStep :=
  { action := "work", forEach := some (.str "[1,2,3]"), timeoutSecs := some 60,
    retry := some {} }

def retriedLoop : TaskDef :=
  ⟨⟨[("p", retriedStep)], by decide⟩⟩

def promptLoop : List Action :=
  [.cascade 0 .pending 0 3 { jobId := 1 } (some {}) {},
    .write ⟨1, .running, .claimReadyStep scriptWorker "p[0]"⟩,
    .write ⟨2, .running, .markCompleted "p[0]" none⟩]

theorem placeholder_never_claimable_promptLoop :
    createSteps (fun _ => "") {} 1 workSource retriedLoop.flow 0 =
        some (workRows retriedLoop.flow) ∧
      Meets (advance literalEnv retriedLoop) RetriesSpent (.start (workRows retriedLoop.flow))
        promptLoop ∧
      ∃ s, exec (advance literalEnv retriedLoop) (.start (workRows retriedLoop.flow))
        promptLoop = some s ∧
        s.rows.map JobStepRow.status = [.running, .completed, .ready, .ready] ∧
        ∀ r ∈ s.rows, r.isPlaceholder = true →
          r.status ≠ .ready ∧ ∀ worker now, claimable worker now r = false := by
  have hcreate : createSteps (fun _ => "") {} 1 workSource retriedLoop.flow 0 =
      some (workRows retriedLoop.flow) := by decide
  have hok : Meets (advance literalEnv retriedLoop) RetriesSpent
    (.start (workRows retriedLoop.flow))
      promptLoop :=
    ⟨trivial, fun _ _ => ⟨trivial, fun _ _ => ⟨trivial, fun _ _ => trivial⟩⟩⟩
  have hrun : (exec (advance literalEnv retriedLoop) (.start (workRows retriedLoop.flow))
    promptLoop).any
      (fun s => s.rows.map JobStepRow.status == [.running, .completed, .ready, .ready]) = true := by
    decide
  obtain ⟨s, hs, hrows⟩ := (Option.any_eq_true _ _).mp hrun
  exact ⟨hcreate, hok, s, hs, by simpa using hrows, placeholder_never_claimable hcreate hok hs⟩

/--
The sweep finds the running placeholder past its timeout and reports it as failed; the retry
makes it ready, next to its instances, and any script worker may claim it.
-/
theorem timed_out_placeholder_claimable :
    ((exec (advance literalEnv retriedLoop) (.start (workRows retriedLoop.flow))
        [.cascade 0 .pending 0 3 { jobId := 1 } (some {}) {}]).any fun s =>
      s.rows.any fun r => r.stepName == "p" && r.isPlaceholder && isTimedOut 100 r &&
        observedClaim r == none) = true ∧
    ((exec (advance literalEnv retriedLoop) (.start (workRows retriedLoop.flow))
        [.cascade 0 .pending 0 3 { jobId := 1 } (some {}) {},
          .write ⟨100, .running, .failOrRetry "p" "Step timed out (server-side enforcement)"
            (.claimed none) 30⟩]).any fun s =>
      s.rows.any fun r => r.stepName == "p" && r.isPlaceholder && r.status == .ready &&
        claimable scriptWorker 200 r &&
        s.rows.any fun i => i.loopSource == some "p") = true := by
  decide

end Stroem.Engine
