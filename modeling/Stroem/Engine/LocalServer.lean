import Mathlib.Data.List.TakeWhile
import Stroem.Engine.LocalAgrees

/-!
# The local runner and the server

The server as a system: workers and cascades take turns in any order, under an oracle.  Whatever
the order, the rows agree with the outcomes the local runner ends with, and when no worker holds
a step any more the two have the same outcome for every step and the same verdict.
-/

namespace Stroem.Engine

open Foundation JobStepRepo Cascade JobCreation Local

inductive ServerMove where
  | turn (move : Move)
  | follow (fuel : Nat) (job : JobRow) (workspaceConfig : Option WorkspaceConfig)
      (snapshots : Snapshots)

def serverTurn (env : TemplateEnv) (task : TaskDef) (rows : List JobStepRow) :
    ServerMove → Option (List JobStepRow)
  | .turn move => takeTurn env task rows move
  | .follow fuel job workspaceConfig snapshots =>
    (run env fuel task job rows workspaceConfig snapshots).map fun plan =>
      Snapshot.applyAll rows plan.changes

def ServerReports (o : Oracle) (rows : List JobStepRow) : ServerMove → Prop
  | .turn (.work e) => ReportsOracle o rows e.write
  | .turn (.cascade _ _ _ _ _ _) | .follow _ _ _ _ => True

section Server

variable {env : TemplateEnv} {o : Oracle} {task : TaskDef} {jsonText : Json → String}
  {D : String → DepOutcome}

theorem serverTurn_agrees (hdag : task.flow.Accepted)
    (hnames : ∀ name ∈ task.flow.keys, '[' ∉ name.toList) (hsolves : o.Solves task.flow D)
    (hfollow : TemplatesFollow env jsonText o task.flow) {rows rows' : List JobStepRow}
    {m : ServerMove} (h : Sound task rows ∧ Agrees o task jsonText D rows)
    (hreports : ServerReports o rows m) (hstep : serverTurn env task rows m = some rows') :
    Sound task rows' ∧ Agrees o task jsonText D rows' := by
  obtain ⟨hs, hagrees⟩ := h
  cases m with
  | follow fuel job ws ss =>
    obtain ⟨plan, hrun, rfl⟩ := Option.map_eq_some_iff.mp hstep
    exact (hagrees.cascade hdag hnames hsolves hfollow hs (.of_run fuel hrun)).1
  | turn move =>
    cases move with
    | work e =>
      simp only [serverTurn, takeTurn] at hstep
      split at hstep
      case isTrue hlegal =>
        cases hstep
        exact ⟨hs.work hlegal, hagrees.work hsolves hs hlegal hreports⟩
      case isFalse => cases hstep
    | cascade now jobStatus fuel job ws ss =>
      obtain ⟨plan, hrun, rfl⟩ := Option.map_eq_some_iff.mp hstep
      rcases rowsAfter_applyPlan_cases now jobStatus rows plan with ⟨a, db', hok, heq⟩ | heq
      · rw [heq]
        exact (hagrees.cascade hdag hnames hsolves hfollow hs (.of_run fuel hrun)).2 now
          ⟨jobStatus, rows⟩ a db' (.refl _) hok
      · rw [heq]
        exact ⟨hs, hagrees⟩

theorem Agrees.outcome_eq {rows : List JobStepRow} (hs : Sound task rows)
    (h : Agrees o task jsonText D rows) {name : String} (hname : name ∈ task.flow.keys)
    (hne : Snapshot.outcome rows name ≠ .pending) : Snapshot.outcome rows name = D name := by
  obtain ⟨r, hget, hterm⟩ := outcome_ne_pending_iff.mp hne
  obtain ⟨hr, rfl⟩ := (Snapshot.get_eq_some_iff hs.loops.keyed).mp hget
  obtain ⟨r₀, hr₀, hname₀, hsource⟩ := hs.loops.flow r.stepName hname
  rw [hs.loops.keyed.eq_of_key hr₀ hr hname₀] at hsource
  simp only [Snapshot.outcome, hget]
  exact h.finished r hr hsource hterm

theorem flowStepName_of_no_bracket {name : String} (h : '[' ∉ name.toList) :
    flowStepName name none = name := by
  have hall : ∀ c ∈ name.toList, (c != '[') = true := by
    intro c hc
    rw [bne_iff_ne]
    rintro rfl
    exact h hc
  rw [flowStepName, List.takeWhile_eq_self_iff.mpr hall]
  exact String.ofList_toList

theorem Agrees.untoleratedFailure_iff {rows : List JobStepRow} (hsolves : o.Solves task.flow D)
    (hnames : ∀ name ∈ task.flow.keys, '[' ∉ name.toList) (hs : Sound task rows)
    (h : Agrees o task jsonText D rows) (hdone : ∀ r ∈ rows, r.status.isTerminal = true) :
    Settlement.untoleratedFailure task rows = true ↔
      ∃ name fs, task.flow.get name = some fs ∧ D name = .failed ∧
        fs.continueOnFailure = false := by
  simp only [Settlement.untoleratedFailure, List.any_eq_true, Bool.and_eq_true, beq_iff_eq,
    Bool.not_eq_true']
  constructor
  · rintro ⟨r, hr, hfailed, htolerated⟩
    cases hsource : r.loopSource with
    | none =>
      have hkey := hs.steps r hr hsource
      obtain ⟨fs, hfs⟩ := Flow.mem_keys_iff.mp hkey
      rw [hsource, flowStepName_of_no_bracket (hnames _ hkey), hfs] at htolerated
      have hD := h.finished r hr hsource (hdone r hr)
      rw [hfailed] at hD
      exact ⟨r.stepName, fs, hfs, hD.symm, htolerated⟩
    | some p =>
      obtain ⟨items, fs, hloop, -⟩ := h.instances r hr p hsource
      rw [hsource, flowStepName, hloop.step] at htolerated
      exact ⟨p, fs, hloop.step, h.loop_failed hsolves hr hsource hfailed, htolerated⟩
  · rintro ⟨name, fs, hfs, hD, hcof⟩
    have hkey := Flow.mem_keys_iff.mpr ⟨fs, hfs⟩
    obtain ⟨r, hr, rfl, hsource⟩ := hs.loops.flow name hkey
    have hrow := h.finished r hr hsource (hdone r hr)
    rw [hD] at hrow
    refine ⟨r, hr, DepOutcome.fromRow_eq_failed hrow, ?_⟩
    rw [hsource, flowStepName_of_no_bracket (hnames _ hkey), hfs]
    simpa using hcof

/-! ## The same result -/

def runStatus : RunOutcome → JobStatus
  | .completed => .completed
  | .failed => .failed

structure SameResult (task : TaskDef) (s : LocalState) (rows : List JobStepRow) : Prop where
  outcomes : ∀ name ∈ task.flow.keys, Snapshot.outcome rows name = s.outcome name
  verdict : (Settlement.decide task rows).map Settlement.Settled.status =
    some (runStatus (summarize task.flow s).outcome)

inductive PlanLeads (rows : List JobStepRow) (plan : Plan) : List JobStepRow → Prop
  | memory : PlanLeads rows plan (Snapshot.applyAll rows plan.changes)
  | database (now : Time) (jobStatus : JobStatus) (a : Applied) (db' : JobTables) :
      Cascade.apply now ⟨jobStatus, rows⟩ plan = .ok (a, db') → PlanLeads rows plan db'.steps

theorem Agrees.sameResult {rows : List JobStepRow} {s : LocalState}
    (hsolves : o.Solves task.flow s.outcome) (hdecided : Decided o task.flow s)
    (hnames : ∀ name ∈ task.flow.keys, '[' ∉ name.toList) (hs : Sound task rows)
    (h : Agrees o task jsonText s.outcome rows) (hdone : ∀ r ∈ rows, r.status.isTerminal = true) :
    SameResult task s rows := by
  constructor
  · intro name hname
    refine h.outcome_eq hs hname (outcome_ne_pending_iff.mpr ?_)
    obtain ⟨r, hr, hrname, -⟩ := hs.loops.flow name hname
    exact ⟨r, (Snapshot.get_eq_some_iff hs.loops.keyed).mpr ⟨hr, hrname⟩, hdone r hr⟩
  · have hverdict : Settlement.untoleratedFailure task rows = uncaught task.flow s := by
      rw [Bool.eq_iff_iff, h.untoleratedFailure_iff hsolves hnames hs hdone, hdecided.uncaught_iff]
    have hall : (rows.all fun r => r.status.isTerminal) = true := List.all_eq_true.mpr hdone
    have hcancelled : (rows.any fun r => r.status == .cancelled) = false := by
      rw [List.any_eq_false]
      intro r hr
      simpa using h.uncancelled r hr
    simp only [Settlement.decide, hall, Bool.not_true, Bool.false_eq_true, if_false, hverdict,
      hcancelled, summarize]
    cases uncaught task.flow s with
    | true => rfl
    | false => rfl

theorem solves_outcome (hsolves : o.Solves task.flow D) {name : String}
    (hname : name ∈ task.flow.keys) :
    D name = .completed ∨ D name = .failed ∨ D name = .skipped ∨ D name = .omitted := by
  obtain ⟨fs, hfs⟩ := Flow.mem_keys_iff.mp hname
  obtain ⟨hne, hresolve⟩ := hsolves name fs hfs
  cases hgate : gate D fs.dependsOn with
  | wait =>
    rw [hresolve, hgate] at hne
    exact absurd rfl hne
  | omitted =>
    rw [hgate] at hresolve
    exact .inr (.inr (.inr hresolve))
  | «open» =>
    rw [hgate] at hresolve
    rw [hresolve]
    rcases o.verdict_cases name fs with h | h | h
    · exact .inl h
    · exact .inr (.inl h)
    · exact .inr (.inr (.inl h))

end Server

/--
The local runner agrees with the server: under one oracle, in whatever order workers and cascades
take their turns, a step that has an outcome on the server has the runner's, and the job settles
with the runner's verdict.
-/
theorem local_runner_agrees_with_server {localEnv : LocalEnv} {env : TemplateEnv} {task : TaskDef}
    {jsonText : Json → String} {o : Oracle} {defaults : JobDefaults} {jobId : Uuid}
    {source : String → FlowStep → StepSource} {created : Time} {rows₀ rows : List JobStepRow}
    {ms : List ServerMove} {fuel : Nat}
    (hdag : task.flow.Accepted) (hnames : ∀ name ∈ task.flow.keys, '[' ∉ name.toList)
    (hlocal : localEnv.Follows o task.flow) (hserver : TemplatesFollow env jsonText o task.flow)
    (hfuel : task.flow.entries.length < fuel)
    (hcreate : createSteps jsonText defaults jobId source task.flow created = some rows₀)
    (hreports : Meets (serverTurn env task) (ServerReports o) rows₀ ms)
    (hrun : exec (serverTurn env task) rows₀ ms = some rows) :
    ∃ s, runDag localEnv fuel task.flow = some (s, summarize task.flow s) ∧
      (∀ name ∈ task.flow.keys, s.outcome name = .completed ∨ s.outcome name = .failed ∨
        s.outcome name = .skipped ∨ s.outcome name = .omitted) ∧
      (∀ name ∈ task.flow.keys, Snapshot.outcome rows name ≠ .pending →
        Snapshot.outcome rows name = s.outcome name) ∧
      ∀ job cfg ss, ∃ plan, Returns env task job (some cfg) ss rows plan ∧
        ∀ rows', PlanLeads rows plan rows' →
          (∀ r ∈ rows', r.isPlaceholder = false → r.status.isActive = false) →
          SameResult task s rows' := by
  obtain ⟨s, hdagRun, hdecided, -, hsolves⟩ := runDag_ends hdag hlocal hfuel
  have hinv : Sound task rows ∧ Agrees o task jsonText s.outcome rows :=
    exec_invariant (fun rows => Sound task rows ∧ Agrees o task jsonText s.outcome rows)
      (fun _ _ _ h hok hstep => serverTurn_agrees hdag hnames hsolves hserver h hok hstep)
      ⟨createSteps_sound hcreate, createSteps_agrees hcreate⟩ hreports hrun
  obtain ⟨hs, hagrees⟩ := hinv
  refine ⟨s, hdagRun, fun name hname => solves_outcome hsolves hname,
    fun name hname => hagrees.outcome_eq hs hname, fun job cfg ss => ?_⟩
  obtain ⟨plan, hreturns, -, hstable, hdb⟩ := hs.cascade env job (some cfg) ss hnames
  obtain ⟨hmemory, hdatabase⟩ := hagrees.cascade hdag hnames hsolves hserver hs hreturns
  refine ⟨plan, hreturns, fun rows' hleads hidle => ?_⟩
  have hlast : (Sound task rows' ∧ Agrees o task jsonText s.outcome rows') ∧
      Stable env task job (some cfg) ss rows' := by
    cases hleads with
    | memory => exact ⟨hmemory, hstable⟩
    | database now jobStatus a db' hok =>
      exact ⟨hdatabase now ⟨jobStatus, rows⟩ a db' (.refl _) hok,
        (hdb now ⟨jobStatus, rows⟩ a db' (.refl _) hok).2⟩
  obtain ⟨⟨hs', hagrees'⟩, hstable'⟩ := hlast
  have hsettles := (hs'.notStranded (stable_iff_quiet.mp hstable') hdag).settles hidle
  exact hagrees'.sameResult hsolves hdecided hnames hs' hsettles.1

/-! ## A loop that fails, and a loop that is shadowed -/

def scriptedEnv (o : Oracle) : LocalEnv where
  templates := literalEnv
  executeStep step iteration _ :=
    let name := match iteration with
      | none => step
      | some k => instanceName step k
    .ok { exitCode := if o.succeeds name then 0 else 1 }

def failingOracle (failing : String) : Oracle where
  condition _ := none
  items _ := some [.num (.int 1), .num (.int 2), .num (.int 3)]
  succeeds name := name != failing

def LiteralFlow (flow : Flow) : Prop :=
  ∀ e ∈ flow.entries, e.2.when = none ∧
    (e.2.forEach = none ∨ e.2.forEach = some (.str "[1,2,3]"))

instance (flow : Flow) : Decidable (LiteralFlow flow) :=
  inferInstanceAs (Decidable (∀ e ∈ flow.entries, e.2.when = none ∧
    (e.2.forEach = none ∨ e.2.forEach = some (.str "[1,2,3]"))))

theorem LiteralFlow.items_eq {flow : Flow} (h : LiteralFlow flow) {name : String} {fs : FlowStep}
    {expr : Json} (hfs : flow.get name = some fs) (hexpr : fs.forEach = some expr) :
    expr = .str "[1,2,3]" := by
  rcases (h _ (Flow.mem_entries_of_get hfs)).2 with hnone | hsome
  · cases hnone.symm.trans hexpr
  · exact Option.some.inj (hexpr.symm.trans hsome)

theorem LiteralFlow.when_ne {flow : Flow} (h : LiteralFlow flow) {name w : String} {fs : FlowStep}
    (hfs : flow.get name = some fs) : fs.when ≠ some w := by
  rw [(h _ (Flow.mem_entries_of_get hfs)).1]
  simp

theorem scriptedEnv_follows {flow : Flow} (h : LiteralFlow flow) (failing : String) :
    (scriptedEnv (failingOracle failing)).Follows (failingOracle failing) flow where
  condition name fs w ctx hfs hwhen := absurd hwhen (h.when_ne hfs)
  items name fs expr ctx hfs hexpr := by
    rw [h.items_eq hfs hexpr]
    rfl
  plain name fs ctx hfs hplain := by
    simp only [scriptedEnv]
    cases (failingOracle failing).succeeds name <;> rfl
  iteration name fs expr k ctx hfs hexpr := by
    simp only [scriptedEnv]
    cases (failingOracle failing).succeeds (instanceName name k) <;> rfl

theorem literalEnv_templatesFollow {flow : Flow} (h : LiteralFlow flow) (failing : String) :
    TemplatesFollow literalEnv (fun _ => "") (failingOracle failing) flow where
  condition name fs w ctx hfs hwhen := absurd hwhen (h.when_ne hfs)
  items name fs text ctx hfs htext := by
    obtain ⟨expr, hexpr, rfl⟩ := Option.map_eq_some_iff.mp htext
    rw [h.items_eq hfs hexpr]
    rfl

def failingTurns : List ServerMove :=
  [.turn (.cascade 0 .pending 3 { jobId := 1 } (some {}) {}),
    .turn (.work ⟨1, .running, .claimReadyStep scriptWorker "p[0]"⟩),
    .turn (.work ⟨2, .running, .markCompleted "p[0]" none⟩),
    .follow 3 { jobId := 1 } (some {}) {},
    .turn (.work ⟨3, .running, .claimReadyStep scriptWorker "p[1]"⟩),
    .turn (.work ⟨4, .running, .failOrRetry "p[1]" "exit 1" .unconditional 0⟩)]

theorem local_runner_agrees_with_server_failingTurns :
    chainedFlow.flow.Accepted ∧ (∀ name ∈ chainedFlow.flow.keys, '[' ∉ name.toList) ∧
      (scriptedEnv (failingOracle "p[1]")).Follows (failingOracle "p[1]") chainedFlow.flow ∧
      TemplatesFollow literalEnv (fun _ => "") (failingOracle "p[1]") chainedFlow.flow ∧
      Meets (serverTurn literalEnv chainedFlow) (ServerReports (failingOracle "p[1]"))
        (workRows chainedFlow.flow) failingTurns ∧
      ∃ rows s plan,
        exec (serverTurn literalEnv chainedFlow) (workRows chainedFlow.flow) failingTurns =
          some rows ∧
        runDag (scriptedEnv (failingOracle "p[1]")) 3 chainedFlow.flow =
          some (s, summarize chainedFlow.flow s) ∧
        s.outcome "p" = .failed ∧ s.outcome "z" = .omitted ∧
        Returns literalEnv chainedFlow { jobId := 1 } (some {}) {} rows plan ∧
        SameResult chainedFlow s (Snapshot.applyAll rows plan.changes) := by
  have hdag : chainedFlow.flow.Accepted := ⟨["p", "z"], ["p", "z"], .refl _, by decide⟩
  have hnames : ∀ name ∈ chainedFlow.flow.keys, '[' ∉ name.toList := by decide
  have hliteral : LiteralFlow chainedFlow.flow := by decide
  have hlocal := scriptedEnv_follows hliteral "p[1]"
  have hserver := literalEnv_templatesFollow hliteral "p[1]"
  have hcreate : createSteps (fun _ => "") {} 1 workSource chainedFlow.flow 0 =
      some (workRows chainedFlow.flow) := by decide
  have hcompletes : (failingOracle "p[1]").succeeds "p[0]" = true := by decide
  have hfails : (failingOracle "p[1]").succeeds "p[1]" = false := by decide
  have hreports : Meets (serverTurn literalEnv chainedFlow) (ServerReports (failingOracle "p[1]"))
      (workRows chainedFlow.flow) failingTurns :=
    ⟨trivial, fun _ _ => ⟨trivial, fun _ _ => ⟨hcompletes, fun _ _ => ⟨trivial, fun _ _ =>
      ⟨trivial, fun _ _ => ⟨fun _ _ _ _ _ => hfails, fun _ _ => trivial⟩⟩⟩⟩⟩⟩
  have hidle : (exec (serverTurn literalEnv chainedFlow) (workRows chainedFlow.flow)
      failingTurns).any (fun rows => (run literalEnv 4 chainedFlow { jobId := 1 } rows (some {})
        {}).any fun plan => (Snapshot.applyAll rows plan.changes).all fun r =>
          r.isPlaceholder || !r.status.isActive) = true := by decide +kernel
  have houtcomes : (runDag (scriptedEnv (failingOracle "p[1]")) 3 chainedFlow.flow).any
      (fun result => result.1.outcome "p" == .failed && result.1.outcome "z" == .omitted) =
        true := by decide +kernel
  obtain ⟨rows, hrun, hidle⟩ := (Option.any_eq_true _ _).mp hidle
  obtain ⟨plan, hplan, hidle⟩ := (Option.any_eq_true _ _).mp hidle
  obtain ⟨s, hdagRun, -, -, hresult⟩ := local_runner_agrees_with_server hdag hnames hlocal hserver
    (by decide : chainedFlow.flow.entries.length < 3) hcreate hreports hrun
  obtain ⟨plan', hreturns, hsame⟩ := hresult { jobId := 1 } {} {}
  obtain rfl := (Returns.of_run 4 hplan).unique hreturns
  rw [hdagRun] at houtcomes
  simp only [Option.any_some, Bool.and_eq_true, beq_iff_eq] at houtcomes
  refine ⟨hdag, hnames, hlocal, hserver, hreports, rows, s, plan, hrun, hdagRun, houtcomes.1,
    houtcomes.2, hreturns, hsame _ .memory fun r hr hplace => ?_⟩
  have hrow := List.all_eq_true.mp hidle r hr
  rw [hplace] at hrow
  simpa using hrow

/--
A step named like an instance of a loop, which `validate_dag` accepts: the runner completes both,
on the server the loop is adopted without an instance and the job does not settle.
-/
theorem shadowed_loop_disagrees :
    shadowedFlow.flow.Accepted ∧
      (scriptedEnv (failingOracle "")).Follows (failingOracle "") shadowedFlow.flow ∧
      TemplatesFollow literalEnv (fun _ => "") (failingOracle "") shadowedFlow.flow ∧
      createSteps (fun _ => "") {} 1 workSource shadowedFlow.flow 0 =
        some (workRows shadowedFlow.flow) ∧
      Meets (serverTurn literalEnv shadowedFlow) (ServerReports (failingOracle ""))
        (workRows shadowedFlow.flow) (shadowedTurns.map .turn) ∧
      ∃ rows s,
        exec (serverTurn literalEnv shadowedFlow) (workRows shadowedFlow.flow)
          (shadowedTurns.map .turn) = some rows ∧
        runDag (scriptedEnv (failingOracle "")) 3 shadowedFlow.flow =
          some (s, summarize shadowedFlow.flow s) ∧
        s.outcome "p" = .completed ∧ (summarize shadowedFlow.flow s).outcome = .completed ∧
        Returns literalEnv shadowedFlow { jobId := 1 } (some {}) {} rows ⟨[]⟩ ∧
        (∀ r ∈ rows, r.isPlaceholder = false → r.status.isActive = false) ∧
        Snapshot.outcome rows "p" = .pending ∧ Settlement.decide shadowedFlow rows = none := by
  have hliteral : LiteralFlow shadowedFlow.flow := by decide
  have hdag : shadowedFlow.flow.Accepted := ⟨["p", "p[0]"], ["p", "p[0]"], .refl _, by decide⟩
  have hlocal := scriptedEnv_follows hliteral ""
  have hcompletes : (failingOracle "").succeeds "p[0]" = true := by decide
  have hserver : (exec (serverTurn literalEnv shadowedFlow) (workRows shadowedFlow.flow)
      (shadowedTurns.map .turn)).any (fun rows =>
        decide (run literalEnv 1 shadowedFlow { jobId := 1 } rows (some {}) {} = some ⟨[]⟩) &&
        (rows.all fun r => r.isPlaceholder || !r.status.isActive) &&
        Snapshot.outcome rows "p" == .pending &&
        decide (Settlement.decide shadowedFlow rows = none)) = true := by decide +kernel
  have houtcomes : (runDag (scriptedEnv (failingOracle "")) 3 shadowedFlow.flow).any
      (fun result => result.1.outcome "p" == .completed && result.2.outcome == .completed) =
        true := by decide +kernel
  obtain ⟨rows, hrun, hrows⟩ := (Option.any_eq_true _ _).mp hserver
  simp only [Bool.and_eq_true, decide_eq_true_eq, beq_iff_eq, List.all_eq_true, Bool.or_eq_true,
    Bool.not_eq_true'] at hrows
  obtain ⟨⟨⟨hreturns, hidle⟩, hpending⟩, hdecide⟩ := hrows
  obtain ⟨s, hdagRun, -⟩ :=
    runDag_ends hdag hlocal (by decide : shadowedFlow.flow.entries.length < 3)
  rw [hdagRun] at houtcomes
  simp only [Option.any_some, Bool.and_eq_true, beq_iff_eq] at houtcomes
  refine ⟨hdag, hlocal, literalEnv_templatesFollow hliteral "", by decide,
    ⟨trivial, fun _ _ => ⟨trivial, fun _ _ => ⟨hcompletes, fun _ _ => trivial⟩⟩⟩, rows, s, hrun,
    hdagRun, houtcomes.1, houtcomes.2, .of_run 1 hreturns, fun r hr hplace => ?_, hpending, hdecide⟩
  have hrow := hidle r hr
  rw [hplace] at hrow
  simpa using hrow

end Stroem.Engine
