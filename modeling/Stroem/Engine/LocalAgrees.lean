import Stroem.Engine.Progress
import Stroem.Engine.Rowwise
import Stroem.Local.Outcomes

/-!
# The server against the local runner

The two schedulers share the gate and nothing else.  Under one oracle the local runner ends with
outcomes that solve the flow (`Oracle.Solves`).  Here the rows on the server are compared with
such outcomes: `Agrees` says that a finished row has the outcome of its step, that a row is
started only when its step is, and that the instances of a loop are those of the oracle's items.
-/

namespace Stroem.Engine

open Foundation JobStepRepo Cascade JobCreation Local

variable {fs : FlowStep} {rows : List JobStepRow} {r : JobStepRow}

structure TemplatesFollow (env : TemplateEnv) (jsonText : Json → String) (o : Oracle)
    (flow : Flow) : Prop where
  condition : ∀ name fs w ctx, flow.get name = some fs → fs.when = some w →
    (evaluateCondition env w ctx).toOption = o.condition name
  items : ∀ name fs text ctx, flow.get name = some fs → forEachText jsonText fs = some text →
    (parseForEachItems env text ctx).toOption = o.items name

section Agrees

variable (o : Oracle) (task : TaskDef) (jsonText : Json → String) (D : String → DepOutcome)

structure StepStarts (name : String) (fs : FlowStep) : Prop where
  gate_open : gate D fs.dependsOn = .open
  condition : o.conditionOf name fs = some true

structure LoopStarts (p : String) (items : List Json) (fs : FlowStep) : Prop where
  step : task.flow.get p = some fs
  loop : fs.forEach.isSome = true
  starts : StepStarts o D p fs
  items_eq : o.items p = some items
  ne_nil : items ≠ []
  few : items.length ≤ maxForEachItems

structure Agrees (rows : List JobStepRow) : Prop where
  columns : ∀ r ∈ rows, r.loopSource = none → ∀ fs, task.flow.get r.stepName = some fs →
    r.whenCondition = fs.when ∧ r.forEachExpr = forEachText jsonText fs
  finished : ∀ r ∈ rows, r.loopSource = none → r.status.isTerminal = true →
    DepOutcome.fromRow r.status r.skipReason = D r.stepName
  started : ∀ r ∈ rows, r.loopSource = none → r.status ≠ .pending →
    r.status.isTerminal = false → ∀ fs, task.flow.get r.stepName = some fs →
    StepStarts o D r.stepName fs
  instances : ∀ i ∈ rows, ∀ p, i.loopSource = some p → ∃ items fs,
    LoopStarts o task D p items fs ∧ (∃ k < items.length, i.stepName = instanceName p k) ∧
    ∀ k < items.length, ∃ i' ∈ rows, i'.loopSource = some p ∧ i'.stepName = instanceName p k
  completed : ∀ i ∈ rows, i.loopSource ≠ none → i.status = .completed →
    o.succeeds i.stepName = true
  failed : ∀ i ∈ rows, i.loopSource ≠ none → i.status = .failed →
    o.succeeds i.stepName = false
  skipped : ∀ i ∈ rows, ∀ p, i.loopSource = some p → i.status = .skipped →
    ∃ b ∈ rows, b.loopSource = some p ∧ b.status = .failed
  uncancelled : ∀ r ∈ rows, r.status ≠ .cancelled

end Agrees

section Outcomes

variable {o : Oracle} {task : TaskDef} {jsonText : Json → String} {D : String → DepOutcome}

theorem StepStarts.outcome {name : String} (hsolves : o.Solves task.flow D)
    (hfs : task.flow.get name = some fs) (h : StepStarts o D name fs) :
    D name = o.bodyOutcome name fs := by
  rw [(hsolves name fs hfs).2, h.gate_open]
  simp [Oracle.resolve, Oracle.verdict, h.condition]

theorem LoopStarts.outcome {p : String} {items : List Json}
    (hsolves : o.Solves task.flow D) (h : LoopStarts o task D p items fs) :
    D p = if (List.range items.length).all (fun k => o.succeeds (instanceName p k)) then .completed
      else .failed := by
  obtain ⟨expr, hexpr⟩ := Option.isSome_iff_exists.mp h.loop
  have hempty : items.isEmpty = false := by simpa using h.ne_nil
  have hfew : ¬ maxForEachItems < items.length := by
    have := h.few
    omega
  rw [h.starts.outcome hsolves h.step]
  simp [Oracle.bodyOutcome, Oracle.loopOutcome, hexpr, h.items_eq, hempty, hfew]

/-! ## The rows of a new job -/

theorem StepStarts.of_ready {name : String} (h : initialStatus fs ≠ .pending) :
    StepStarts o D name fs := by
  unfold initialStatus at h
  split at h
  · exact absurd rfl h
  split at h
  case isTrue hready =>
    simp only [Bool.and_eq_true, List.isEmpty_iff, Option.isNone_iff_eq_none] at hready
    refine ⟨?_, by simp [Oracle.conditionOf, hready.2]⟩
    rw [hready.1]
    rfl
  case isFalse => exact absurd rfl h

theorem createSteps_agrees {defaults : JobDefaults} {jobId : Uuid}
    {source : String → FlowStep → StepSource} {now : Time}
    (h : createSteps jsonText defaults jobId source task.flow now = some rows) :
    Agrees o task jsonText D rows := by
  have hcreated : ∀ r ∈ rows, ∃ entry ∈ task.flow.entries, Created jsonText entry r :=
    fun r hr => mem_of_forall₂_right (createSteps_created h) hr
  have hsource : ∀ r ∈ rows, r.loopSource = none := by
    intro r hr
    obtain ⟨entry, -, hrow⟩ := hcreated r hr
    exact hrow.loopSource
  have hopen : ∀ r ∈ rows, r.status = .pending ∨ r.status = .ready := by
    intro r hr
    obtain ⟨entry, -, hrow⟩ := hcreated r hr
    exact hrow.pending_or_ready
  have hstep : ∀ r ∈ rows, ∀ fs, task.flow.get r.stepName = some fs →
      ∃ entry, entry.2 = fs ∧ Created jsonText entry r := by
    intro r hr fs hfs
    obtain ⟨entry, hentry, hrow⟩ := hcreated r hr
    refine ⟨entry, ?_, hrow⟩
    rw [hrow.stepName, Flow.get_of_mem_entries hentry] at hfs
    exact Option.some.inj hfs
  refine ⟨fun r hr _ fs hfs => ?_, fun r hr _ hterm => ?_, fun r hr _ hpend _ fs hfs => ?_,
    fun i hi p his => ?_, fun i hi his => absurd (hsource i hi) his,
    fun i hi his => absurd (hsource i hi) his, fun i hi p his => ?_, fun r hr hcancelled => ?_⟩
  · obtain ⟨entry, rfl, hrow⟩ := hstep r hr fs hfs
    exact ⟨hrow.whenCondition, hrow.forEachExpr⟩
  · rcases hopen r hr with hs | hs <;> rw [hs] at hterm <;> cases hterm
  · obtain ⟨entry, rfl, hrow⟩ := hstep r hr fs hfs
    exact .of_ready (by rwa [hrow.status] at hpend)
  · rw [hsource i hi] at his
    cases his
  · rw [hsource i hi] at his
    cases his
  · rcases hopen r hr with hs | hs <;> rw [hs] at hcancelled <;> cases hcancelled

/-! ## What workers report -/

def WorkerLeaves (o : Oracle) (step : String) (s : StepStatus) : Prop :=
  s = .ready ∨ s = .running ∨ s = .completed ∧ o.succeeds step = true ∨
    s = .failed ∧ o.succeeds step = false

structure ReportedRow (o : Oracle) (r r' : JobStepRow) : Prop where
  keeps : Keeps r r'
  whenCondition : r'.whenCondition = r.whenCondition
  outcome : (r'.status = r.status ∧ r'.skipReason = r.skipReason) ∨
    r.isPlaceholder = false ∧ r.status ≠ .pending ∧ r.status.isTerminal = false ∧
      WorkerLeaves o r.stepName r'.status

theorem ReportedRow.finished {r' : JobStepRow} (h : ReportedRow o r r')
    (hterm : r.status.isTerminal = true) :
    r'.status = r.status ∧ r'.skipReason = r.skipReason := by
  rcases h.outcome with hsame | ⟨-, -, hopen, -⟩
  · exact hsame
  · rw [hterm] at hopen
    cases hopen

theorem ReportedRow.started {r' : JobStepRow} (h : ReportedRow o r r')
    (hpend : r'.status ≠ .pending)
    (hopen : r'.status.isTerminal = false) :
    r.status ≠ .pending ∧ r.status.isTerminal = false := by
  rcases h.outcome with ⟨hs, -⟩ | ⟨-, hpend, hopen, -⟩
  · rw [hs] at hpend hopen
    exact ⟨hpend, hopen⟩
  · exact ⟨hpend, hopen⟩

theorem Agrees.fromRow_leaves (hsolves : o.Solves task.flow D)
    (h : Agrees o task jsonText D rows) (hsteps : ∀ r ∈ rows, r.loopSource = none →
      r.stepName ∈ task.flow.keys) (hr : r ∈ rows) (hsource : r.loopSource = none)
    (hplace : r.isPlaceholder = false) (hpend : r.status ≠ .pending)
    (hopen : r.status.isTerminal = false) {s : StepStatus} (hleaves : WorkerLeaves o r.stepName s)
    (hterm : s.isTerminal = true) (reason : Option String) :
    DepOutcome.fromRow s reason = D r.stepName := by
  obtain ⟨fs, hfs⟩ := Flow.mem_keys_iff.mp (hsteps r hr hsource)
  have hplain : fs.forEach = none := by
    have hexpr := (h.columns r hr hsource fs hfs).2
    simpa [JobStepRow.isPlaceholder, hexpr, forEachText] using hplace
  rw [(h.started r hr hsource hpend hopen fs hfs).outcome hsolves hfs]
  simp only [Oracle.bodyOutcome, hplain]
  rcases hleaves with rfl | rfl | ⟨rfl, hs⟩ | ⟨rfl, hs⟩
  · cases hterm
  · cases hterm
  · simp [DepOutcome.fromRow, hs]
  · simp [DepOutcome.fromRow, hs]

theorem Agrees.reported {rows' : List JobStepRow} (hsolves : o.Solves task.flow D)
    (hsteps : ∀ r ∈ rows, r.loopSource = none → r.stepName ∈ task.flow.keys)
    (h : Agrees o task jsonText D rows) (hkept : ∀ r ∈ rows, ∃ r' ∈ rows', ReportedRow o r r')
    (horigin : ∀ r' ∈ rows', ∃ r ∈ rows, ReportedRow o r r') : Agrees o task jsonText D rows' := by
  refine ⟨fun r' hr' hsource fs hfs => ?_, fun r' hr' hsource hterm => ?_,
    fun r' hr' hsource hpend hopen fs hfs => ?_, fun i' hi' p his => ?_,
    fun i' hi' his hcompleted => ?_, fun i' hi' his hfailed => ?_, fun i' hi' p his hskipped => ?_,
    fun r' hr' hcancelled => ?_⟩
  · obtain ⟨r, hr, hrow⟩ := horigin r' hr'
    rw [hrow.keeps.stepName] at hfs
    rw [hrow.whenCondition, hrow.keeps.forEachExpr]
    exact h.columns r hr (hrow.keeps.loopSource.symm.trans hsource) fs hfs
  · obtain ⟨r, hr, hrow⟩ := horigin r' hr'
    have hrs := hrow.keeps.loopSource.symm.trans hsource
    rw [hrow.keeps.stepName]
    rcases hrow.outcome with ⟨hs, hreason⟩ | ⟨hplace, hpend, hopen, hleaves⟩
    · rw [hs, hreason]
      exact h.finished r hr hrs (by rwa [← hs])
    · exact h.fromRow_leaves hsolves hsteps hr hrs hplace hpend hopen hleaves hterm _
  · obtain ⟨r, hr, hrow⟩ := horigin r' hr'
    obtain ⟨hpend, hopen⟩ := hrow.started hpend hopen
    rw [hrow.keeps.stepName] at hfs ⊢
    exact h.started r hr (hrow.keeps.loopSource.symm.trans hsource) hpend hopen fs hfs
  · obtain ⟨i, hi, hrow⟩ := horigin i' hi'
    obtain ⟨items, fs, hloop, hindex, hall⟩ :=
      h.instances i hi p (hrow.keeps.loopSource.symm.trans his)
    rw [hrow.keeps.stepName]
    refine ⟨items, fs, hloop, hindex, fun k hk => ?_⟩
    obtain ⟨j, hj, hjs, hname⟩ := hall k hk
    obtain ⟨j', hj', hjrow⟩ := hkept j hj
    exact ⟨j', hj', hjrow.keeps.loopSource.trans hjs, hjrow.keeps.stepName.trans hname⟩
  · obtain ⟨i, hi, hrow⟩ := horigin i' hi'
    rw [hrow.keeps.loopSource] at his
    rw [hrow.keeps.stepName]
    rcases hrow.outcome with ⟨hs, -⟩ | ⟨-, -, -, hleaves⟩
    · exact h.completed i hi his (hs.symm.trans hcompleted)
    · simpa [WorkerLeaves, hcompleted] using hleaves
  · obtain ⟨i, hi, hrow⟩ := horigin i' hi'
    rw [hrow.keeps.loopSource] at his
    rw [hrow.keeps.stepName]
    rcases hrow.outcome with ⟨hs, -⟩ | ⟨-, -, -, hleaves⟩
    · exact h.failed i hi his (hs.symm.trans hfailed)
    · simpa [WorkerLeaves, hfailed] using hleaves
  · obtain ⟨i, hi, hrow⟩ := horigin i' hi'
    rcases hrow.outcome with ⟨hs, -⟩ | ⟨-, -, -, hleaves⟩
    · obtain ⟨b, hb, hbs, hfailed⟩ := h.skipped i hi p (hrow.keeps.loopSource.symm.trans his)
        (hs.symm.trans hskipped)
      obtain ⟨b', hb', hbrow⟩ := hkept b hb
      have hkeptStatus := (hbrow.finished (by rw [hfailed]; rfl)).1
      exact ⟨b', hb', hbrow.keeps.loopSource.trans hbs, hkeptStatus.trans hfailed⟩
    · simp [WorkerLeaves, hskipped] at hleaves
  · obtain ⟨r, hr, hrow⟩ := horigin r' hr'
    rcases hrow.outcome with ⟨hs, -⟩ | ⟨-, -, -, hleaves⟩
    · exact h.uncancelled r hr (hs.symm.trans hcancelled)
    · simp [WorkerLeaves, hcancelled] at hleaves

theorem Agrees.of_mirrors {snap : Snapshot}
    (hsolves : o.Solves task.flow D) (hsound : Sound task snap)
    (h : Agrees o task jsonText D snap) (hmir : Mirrors rows snap) :
    Agrees o task jsonText D rows := by
  have hrow : ∀ {r r' : JobStepRow}, r'.visible = r.visible → ReportedRow o r r' := by
    intro r r' heq
    exact ⟨⟨congrArg (·.stepName) heq, congrArg (·.forEachExpr) heq, congrArg (·.loopSource) heq,
      congrArg (·.loopIndex) heq⟩, congrArg (·.whenCondition) heq,
      .inl ⟨congrArg (·.status) heq, congrArg (·.skipReason) heq⟩⟩
  refine h.reported hsolves hsound.steps (fun r hr => ?_) (fun r' hr' => ?_)
  · obtain ⟨r', hr', heq⟩ := hmir.mem_right hr
    exact ⟨r', hr', hrow heq⟩
  · obtain ⟨r, hr, heq⟩ := hmir.mem_left hr'
    exact ⟨r, hr, hrow heq.symm⟩

/--
What a worker may write under the oracle: it takes steps and renders their input, and it ends a
step as the oracle says.  A failure with a retry left does not end its step.
-/
def ReportsOracle (o : Oracle) (rows : List JobStepRow) : Write → Prop
  | .claimReadyStep _ _ | .markRunning _ _ | .updateInput _ _ => True
  | .markCompleted step _ => o.succeeds step = true
  | .markFailed step _ => o.succeeds step = false
  | .failOrRetry step _ report _ => ∀ r ∈ rows, r.stepName = step →
      notExpected report.expected report.expectedClaim r = false → hasRetryLeft r = false →
      o.succeeds step = false
  | _ => False

theorem legalWork_row {w : Write}
    (hlegal : legalWork rows w = true) (hr : r ∈ rows) (htarget : w.target = some r.stepName) :
    r.isPlaceholder = false ∧ r.status ≠ .pending ∧ r.status.isTerminal = false := by
  simp only [legalWork, Bool.and_eq_true, Bool.not_eq_true', Option.any_eq_true, List.all_eq_true,
    Bool.or_eq_true, bne_iff_ne, ne_eq] at hlegal
  obtain ⟨-, step, hstep, hall⟩ := hlegal
  obtain rfl := Option.some.inj (htarget.symm.trans hstep)
  obtain ⟨⟨hplace, hpend⟩, hopen⟩ := (hall r hr).resolve_left fun hne => hne rfl
  exact ⟨hplace, hpend, hopen⟩

theorem ReportedRow.refl (r : JobStepRow) : ReportedRow o r r :=
  ⟨⟨rfl, rfl, rfl, rfl⟩, rfl, .inl ⟨rfl, rfl⟩⟩

private theorem ReportedRow.onRow {u : Update JobStepRow}
    (h : u.guard r = true → ReportedRow o r (u.set r)) : ReportedRow o r (u.onRow r) := by
  unfold Update.onRow
  split
  case isTrue hguard => exact h hguard
  case isFalse => exact .refl r

theorem rowAfter_reported {w : Write} (now : Time) (jobStatus : JobStatus)
    (hlegal : legalWork rows w = true) (hreports : ReportsOracle o rows w)
    (hr : r ∈ rows) : ReportedRow o r (rowAfter now jobStatus w r) := by
  cases w with
  | claimReadyStep worker step =>
    refine ReportedRow.onRow (u := claimReadyStep worker step now) fun hguard => ?_
    simp only [claimReadyStep, Bool.and_eq_true, decide_eq_true_eq] at hguard
    obtain ⟨rfl, -⟩ := hguard
    obtain ⟨hplace, hpend, hopen⟩ := legalWork_row hlegal hr rfl
    exact ⟨⟨rfl, rfl, rfl, rfl⟩, rfl, .inr ⟨hplace, hpend, hopen, .inr (.inl rfl)⟩⟩
  | markRunning step workerId =>
    refine ReportedRow.onRow (u := markRunning step workerId now) fun hguard => ?_
    obtain rfl := of_decide_eq_true hguard
    obtain ⟨hplace, hpend, hopen⟩ := legalWork_row hlegal hr rfl
    exact ⟨⟨rfl, rfl, rfl, rfl⟩, rfl, .inr ⟨hplace, hpend, hopen, .inr (.inl rfl)⟩⟩
  | updateInput step input =>
    exact ReportedRow.onRow (u := updateInput step input)
      fun _ => ⟨⟨rfl, rfl, rfl, rfl⟩, rfl, .inl ⟨rfl, rfl⟩⟩
  | markCompleted step output =>
    refine ReportedRow.onRow (u := markCompleted step output now) fun hguard => ?_
    obtain rfl := of_decide_eq_true hguard
    obtain ⟨hplace, hpend, hopen⟩ := legalWork_row hlegal hr rfl
    exact ⟨⟨rfl, rfl, rfl, rfl⟩, rfl,
      .inr ⟨hplace, hpend, hopen, .inr (.inr (.inl ⟨rfl, hreports⟩))⟩⟩
  | markFailed step error =>
    refine ReportedRow.onRow (u := markFailed step error now) fun hguard => ?_
    obtain rfl := of_decide_eq_true hguard
    obtain ⟨hplace, hpend, hopen⟩ := legalWork_row hlegal hr rfl
    exact ⟨⟨rfl, rfl, rfl, rfl⟩, rfl,
      .inr ⟨hplace, hpend, hopen, .inr (.inr (.inr ⟨rfl, hreports⟩))⟩⟩
  | failOrRetry step error report delaySecs =>
    rw [rowAfter_failOrRetry]
    split
    case isTrue hcond =>
      obtain ⟨rfl, hexpected⟩ := hcond
      obtain ⟨hplace, hpend, hopen⟩ := legalWork_row hlegal hr rfl
      unfold failedRow
      split
      case isTrue => exact ⟨⟨rfl, rfl, rfl, rfl⟩, rfl, .inr ⟨hplace, hpend, hopen, .inl rfl⟩⟩
      case isFalse hnone =>
        have hfails := hreports r hr rfl hexpected (by simpa using hnone)
        exact ⟨⟨rfl, rfl, rfl, rfl⟩, rfl,
          .inr ⟨hplace, hpend, hopen, .inr (.inr (.inr ⟨rfl, hfails⟩))⟩⟩
    case isFalse => exact .refl r
  | _ => cases hreports

theorem Agrees.work {e : Event} (hsolves : o.Solves task.flow D)
    (hsound : Sound task rows) (h : Agrees o task jsonText D rows)
    (hlegal : legalWork rows e.write = true) (hreports : ReportsOracle o rows e.write) :
    Agrees o task jsonText D (rowsAfter e.now e.jobStatus rows e.write) := by
  have hrowwise : e.write.rowwise = true := by
    cases hw : e.write with
    | releaseClaim step claim retryAfter maxReleases | applyPlan plan =>
      rw [hw] at hreports
      cases hreports
    | _ => rfl
  have hreported : ∀ r ∈ rows, ReportedRow o r (rowAfter e.now e.jobStatus e.write r) :=
    fun r hr => rowAfter_reported e.now e.jobStatus hlegal hreports hr
  rw [rowsAfter_eq_map hsound.loops.keyed hrowwise]
  refine h.reported hsolves hsound.steps (fun r hr => ?_) (fun r' hr' => ?_)
  · exact ⟨_, List.mem_map_of_mem hr, hreported r hr⟩
  · obtain ⟨r, hr, rfl⟩ := List.mem_map.mp hr'
    exact ⟨r, hr, hreported r hr⟩

/-! ## Moves of the cascade -/

variable {snap : Snapshot} {c : Change}

variable (o task D) in
def Right (snap : Snapshot) : Change → Prop
  | .promote step => ∀ fs, task.flow.get step = some fs → StepStarts o D step fs
  | .skip step reason =>
    step ∈ task.flow.keys ∧ D step = DepOutcome.fromRow .skipped (some reason.asStr) ∨
      ∃ p, ∃ r ∈ snap, r.stepName = step ∧ r.loopSource = some p ∧
        ∃ b ∈ snap, b.loopSource = some p ∧ b.status = .failed
  | .fail step _ => step ∈ task.flow.keys ∧ D step = .failed
  | .expand p instances => ∃ jobId r items fs, r.stepName = p ∧ LoopStarts o task D p items fs ∧
      instances = expandInstances fs jobId r items
  | .adopt _ => False
  | .rollup p (.completed _) => D p = .completed
  | .rollup p (.failed _ _) => D p = .failed

theorem mem_apply_of_terminal (h : Distinct snap) (hc : Moves snap c)
    (hr : r ∈ snap) (hterm : r.status.isTerminal = true) : r ∈ snap.apply c :=
  (Snapshot.mem_apply h).mpr (.inr (.inl ⟨hr, not_target_of_terminal h hc hr hterm⟩))

theorem Right.apply {d : Change} (h : Distinct snap) (hd : Moves snap d)
    (hright : Right o task D snap c) : Right o task D (snap.apply d) c := by
  cases c with
  | skip step reason =>
    rcases hright with hflow | ⟨p, r, hr, hname, hsource, b, hb, hbs, hfailed⟩
    · exact .inl hflow
    · obtain ⟨r', hr', hkeeps⟩ := kept_apply (c := d) h hr
      refine .inr ⟨p, r', hr', hkeeps.stepName.trans hname, hkeeps.loopSource.trans hsource, b,
        mem_apply_of_terminal h hd hb (by rw [hfailed]; rfl), hbs, hfailed⟩
  | rollup p outcome => cases outcome <;> exact hright
  | _ => exact hright

theorem Sound.instance_notMem_keys (hs : Sound task snap) (hr : r ∈ snap)
    (hsource : r.loopSource ≠ none) : r.stepName ∉ task.flow.keys := by
  intro hkey
  obtain ⟨fs, hfs⟩ := Flow.mem_keys_iff.mp hkey
  rw [hs.loops.flow.get_eq_none hs.loops.keyed hr hsource] at hfs
  cases hfs

theorem Right.target_finished (hs : Sound task snap) (hright : Right o task D snap c)
    (hr : r ∈ snap) (htarget : r.stepName = c.target)
    (hsource : r.loopSource = none) (hterm : (c.setRow r).status.isTerminal = true) :
    DepOutcome.fromRow (c.setRow r).status (c.setRow r).skipReason = D r.stepName := by
  cases c with
  | promote step => cases hterm
  | expand p instances => cases hterm
  | adopt p => cases hterm
  | skip step reason =>
    rcases hright with ⟨-, hD⟩ | ⟨p, r₀, hr₀, hname, hsource₀, -⟩
    · rw [htarget]
      exact hD.symm
    · rw [hs.loops.keyed.eq_of_key hr hr₀ (htarget.trans hname.symm), hsource₀] at hsource
      cases hsource
  | fail step error =>
    rw [htarget]
    exact hright.2.symm
  | rollup p outcome =>
    rw [htarget]
    cases outcome with
    | completed output => exact hright.symm
    | failed error output => exact hright.symm

theorem Right.target_started (hright : Right o task D snap c)
    (htarget : r.stepName = c.target) (hopen : (c.setRow r).status.isTerminal = false)
    (hfs : task.flow.get r.stepName = some fs) : StepStarts o D r.stepName fs := by
  rw [htarget] at hfs ⊢
  cases c with
  | promote step => exact hright fs hfs
  | expand p instances =>
    obtain ⟨jobId, r₀, items, fs', -, hloop, -⟩ := hright
    obtain rfl := Option.some.inj (hloop.step.symm.trans hfs)
    exact hloop.starts
  | adopt p => cases hright
  | skip step reason => cases hopen
  | fail step error => cases hopen
  | rollup p outcome => cases outcome <;> cases hopen

theorem Right.target_instance (hs : Sound task snap) (hc : Moves snap c)
    (hright : Right o task D snap c) (hr : r ∈ snap)
    (htarget : r.stepName = c.target) {p : String} (hsource : r.loopSource = some p) :
    (c.setRow r).status.isTerminal = false ∨
      (c.setRow r).status = .skipped ∧ ∃ b ∈ snap, b.loopSource = some p ∧ b.status = .failed := by
  have hkey := hs.instance_notMem_keys hr (by simp [hsource])
  rw [htarget] at hkey
  cases c with
  | promote step => exact .inl rfl
  | expand p instances => exact .inl rfl
  | adopt p => exact .inl rfl
  | skip step reason =>
    rcases hright with ⟨hflow, -⟩ | ⟨q, r₀, hr₀, hname, hsource₀, hfailed⟩
    · exact absurd hflow hkey
    · rw [← hs.loops.keyed.eq_of_key hr hr₀ (htarget.trans hname.symm), hsource] at hsource₀
      cases hsource₀
      exact .inr ⟨rfl, hfailed⟩
  | fail step error => exact absurd hright.1 hkey
  | rollup q outcome =>
    obtain ⟨t, ht, htname, haccepts | ⟨-, hpromote⟩⟩ := hc.target_mem hs.loops.keyed
    · obtain rfl := hs.loops.keyed.eq_of_key hr ht (htarget.trans htname.symm)
      simp only [Change.accepts, Bool.and_eq_true] at haccepts
      rw [hs.loops.plain r hr (by simp [hsource])] at haccepts
      cases haccepts.2
    · cases hpromote

theorem Right.inserted (hright : Right o task D snap c) {a : JobStepRow} (ha : a ∈ c.inserted) :
    ∃ items fs, LoopStarts o task D c.target items fs ∧
      (∃ k < items.length, a.stepName = instanceName c.target k) ∧
      ∀ k < items.length, ∃ b ∈ c.inserted, b.stepName = instanceName c.target k := by
  cases c with
  | expand p instances =>
    obtain ⟨jobId, r, items, fs, rfl, hloop, rfl⟩ := hright
    obtain ⟨inst, hinst, rfl⟩ := List.mem_map.mp ha
    obtain ⟨k, hk, rfl⟩ := mem_expandInstances hinst
    refine ⟨items, fs, hloop, ⟨k, hk, rfl⟩, fun j hj => ?_⟩
    exact ⟨_, List.mem_map_of_mem (List.mem_mapIdx.mpr ⟨j, hj, rfl⟩), rfl⟩
  | _ => simp [Change.inserted] at ha

private theorem mem_of_ended (hs : Sound task snap) (hc : Moves snap c)
    (hright : Right o task D snap c) {i : JobStepRow} (hi : i ∈ snap.apply c)
    (his : i.loopSource ≠ none) (hterm : i.status.isTerminal = true) (hne : i.status ≠ .skipped) :
    i ∈ snap := by
  rcases mem_apply_cases hs.loops.keyed hi with ⟨r, hr, hkeeps, ⟨htarget, rfl⟩ | ⟨-, rfl⟩⟩ | ha
  · rw [hkeeps.loopSource] at his
    obtain ⟨p, hp⟩ := Option.ne_none_iff_exists'.mp his
    rcases hright.target_instance hs hc hr htarget hp with hopen | ⟨hskipped, -⟩
    · rw [hterm] at hopen
      cases hopen
    · exact absurd hskipped hne
  · exact hr
  · rcases (hc.instances i ha).2.2 with hstatus | hstatus <;> rw [hstatus] at hterm <;> cases hterm

theorem Agrees.apply (hs : Sound task snap) (h : Agrees o task jsonText D snap)
    (hc : Moves snap c) (hright : Right o task D snap c) :
    Agrees o task jsonText D (snap.apply c) := by
  have hkeyed := hs.loops.keyed
  have hnew : ∀ a ∈ c.inserted, a.loopSource ≠ none := by
    intro a ha
    simp [(hc.instances a ha).1]
  have hfresh : ∀ a ∈ c.inserted, a.status.isTerminal = false := by
    intro a ha
    rcases (hc.instances a ha).2.2 with hstatus | hstatus <;> rw [hstatus] <;> rfl
  refine ⟨fun r' hr' hsource fs hfs => ?_, fun r' hr' hsource hterm => ?_,
    fun r' hr' hsource hpend hopen fs hfs => ?_, fun i' hi' p his => ?_,
    fun i' hi' his hcompleted => ?_, fun i' hi' his hfailed => ?_, fun i' hi' p his hskipped => ?_,
    fun r' hr' hcancelled => ?_⟩
  · rcases mem_apply_cases hkeyed hr' with ⟨r, hr, hkeeps, hcase⟩ | ha
    · have hwhen : r'.whenCondition = r.whenCondition := by
        rcases hcase with ⟨-, rfl⟩ | ⟨-, rfl⟩
        · simp
        · rfl
      rw [hkeeps.stepName] at hfs
      rw [hwhen, hkeeps.forEachExpr]
      exact h.columns r hr (hkeeps.loopSource.symm.trans hsource) fs hfs
    · exact absurd hsource (hnew r' ha)
  · rcases mem_apply_cases hkeyed hr' with ⟨r, hr, hkeeps, ⟨htarget, rfl⟩ | ⟨-, rfl⟩⟩ | ha
    · rw [hkeeps.stepName]
      exact hright.target_finished hs hr htarget (hkeeps.loopSource.symm.trans hsource) hterm
    · exact h.finished r' hr hsource hterm
    · exact absurd hsource (hnew r' ha)
  · rcases mem_apply_cases hkeyed hr' with ⟨r, hr, hkeeps, ⟨htarget, rfl⟩ | ⟨-, rfl⟩⟩ | ha
    · rw [hkeeps.stepName] at hfs ⊢
      exact hright.target_started htarget hopen hfs
    · exact h.started r' hr hsource hpend hopen fs hfs
    · exact absurd hsource (hnew r' ha)
  · rcases mem_apply_cases hkeyed hi' with ⟨i, hi, hkeeps, -⟩ | ha
    · obtain ⟨items, fs, hloop, hindex, hall⟩ :=
        h.instances i hi p (hkeeps.loopSource.symm.trans his)
      rw [hkeeps.stepName]
      refine ⟨items, fs, hloop, hindex, fun k hk => ?_⟩
      obtain ⟨j, hj, hjs, hname⟩ := hall k hk
      obtain ⟨j', hj', hjkeeps⟩ := kept_apply (c := c) hkeyed hj
      exact ⟨j', hj', hjkeeps.loopSource.trans hjs, hjkeeps.stepName.trans hname⟩
    · obtain rfl := Option.some.inj ((hc.instances i' ha).1.symm.trans his)
      obtain ⟨items, fs, hloop, hindex, hall⟩ := hright.inserted ha
      refine ⟨items, fs, hloop, hindex, fun k hk => ?_⟩
      obtain ⟨b, hb, hname⟩ := hall k hk
      exact ⟨b, (Snapshot.mem_apply hkeyed).mpr (.inr (.inr hb)), (hc.instances b hb).1, hname⟩
  · exact h.completed i' (mem_of_ended hs hc hright hi' his (by rw [hcompleted]; rfl)
      (by simp [hcompleted])) his hcompleted
  · exact h.failed i' (mem_of_ended hs hc hright hi' his (by rw [hfailed]; rfl)
      (by simp [hfailed])) his hfailed
  · have hbeside : ∃ b ∈ snap, b.loopSource = some p ∧ b.status = .failed := by
      rcases mem_apply_cases hkeyed hi' with ⟨i, hi, hkeeps, ⟨htarget, rfl⟩ | ⟨-, rfl⟩⟩ | ha
      · rw [hkeeps.loopSource] at his
        rcases hright.target_instance hs hc hi htarget his with hopen | ⟨-, hfailed⟩
        · rw [hskipped] at hopen
          cases hopen
        · exact hfailed
      · exact h.skipped i' hi p his hskipped
      · have hopen := hfresh i' ha
        rw [hskipped] at hopen
        cases hopen
    obtain ⟨b, hb, hbs, hfailed⟩ := hbeside
    exact ⟨b, mem_apply_of_terminal hkeyed hc hb (by rw [hfailed]; rfl), hbs, hfailed⟩
  · rcases mem_apply_cases hkeyed hr' with ⟨r, hr, hkeeps, ⟨-, rfl⟩ | ⟨-, rfl⟩⟩ | ha
    · cases c with
      | rollup p outcome => cases outcome <;> cases hcancelled
      | _ => cases hcancelled
    · exact h.uncancelled r' hr hcancelled
    · have hopen := hfresh r' ha
      rw [hcancelled] at hopen
      cases hopen

/-! ## What the phases decide -/

variable {env : TemplateEnv}

theorem Agrees.gate_eq (hdag : task.flow.Accepted) (hs : Sound task snap)
    (h : Agrees o task jsonText D snap) {name : String}
    (hfs : task.flow.get name = some fs) (hgate : gateFor snap fs ≠ .wait) :
    gate D fs.dependsOn = gateFor snap fs := by
  obtain ⟨rank, hrank⟩ := hdag.rank
  refine gate_of_extends (fun n hn hne => ?_) hgate
  obtain ⟨r, hget, hterm⟩ := outcome_ne_pending_iff.mp hne
  obtain ⟨hr, rfl⟩ := (Snapshot.get_eq_some_iff hs.loops.keyed).mp hget
  obtain ⟨r₀, hr₀, hname, hsource⟩ := hs.loops.flow r.stepName (hrank name fs hfs _ hn).1
  rw [hs.loops.keyed.eq_of_key hr₀ hr hname] at hsource
  simp only [Snapshot.outcome, hget]
  exact (h.finished r hr hsource hterm).symm

theorem Agrees.flow_row (hs : Sound task snap) (h : Agrees o task jsonText D snap)
    (hr : r ∈ snap) (hfs : task.flow.get r.stepName = some fs) :
    r.loopSource = none ∧ r.whenCondition = fs.when ∧ r.forEachExpr = forEachText jsonText fs := by
  have hsource : r.loopSource = none := by
    by_contra hsource
    exact hs.instance_notMem_keys hr hsource (Flow.mem_keys_iff.mpr ⟨fs, hfs⟩)
  exact ⟨hsource, h.columns r hr hsource fs hfs⟩

theorem conditionOf_eq (hfollow : TemplatesFollow env jsonText o task.flow) {name w : String}
    (hfs : task.flow.get name = some fs) (hwhen : fs.when = some w) (ctx : Json) :
    o.conditionOf name fs = (evaluateCondition env w ctx).toOption := by
  rw [hfollow.condition name fs w ctx hfs hwhen]
  simp [Oracle.conditionOf, hwhen]

theorem outcome_of_omitted (hsolves : o.Solves task.flow D) {name : String}
    (hfs : task.flow.get name = some fs) (hgate : gate D fs.dependsOn = .omitted) :
    D name = .omitted := by
  rw [(hsolves name fs hfs).2, hgate]
  rfl

private theorem condition_right (hsolves : o.Solves task.flow D)
    (hfollow : TemplatesFollow env jsonText o task.flow) {name w : String}
    (hfs : task.flow.get name = some fs) (hwhen : fs.when = some w)
    (hgate : gate D fs.dependsOn = .open) {ctx : Json} {start c : Change}
    (hstart : StepStarts o D name fs → Right o task D snap start)
    (hc : (match evaluateCondition env w ctx with
      | .ok true => some start
      | .ok false => some (.skip name .condition)
      | .error e => some (.fail name ("when condition error: " ++ e))) = some c) :
    Right o task D snap c := by
  have hkey := Flow.mem_keys_iff.mpr ⟨fs, hfs⟩
  have hcond := conditionOf_eq hfollow hfs hwhen ctx
  have hD := (hsolves name fs hfs).2
  rw [hgate] at hD
  split at hc
  case h_1 hvalue =>
    cases hc
    exact hstart ⟨hgate, by rw [hcond, hvalue]; rfl⟩
  case h_2 hvalue =>
    cases hc
    refine .inl ⟨hkey, ?_⟩
    rw [hD, Oracle.resolve, Oracle.verdict, hcond, hvalue]
    rfl
  case h_3 e hvalue =>
    cases hc
    refine ⟨hkey, ?_⟩
    rw [hD, Oracle.resolve, Oracle.verdict, hcond, hvalue]
    rfl

theorem promoteRow_right (hdag : task.flow.Accepted) (hsolves : o.Solves task.flow D)
    (hfollow : TemplatesFollow env jsonText o task.flow) (hs : Sound task snap)
    (h : Agrees o task jsonText D snap) {ctx : Option Json} (hr : r ∈ snap)
    (hrow : promoteRow env task snap ctx r = some c) : Right o task D snap c := by
  unfold promoteRow at hrow
  split at hrow
  · cases hrow
  case h_2 fs hfs =>
    obtain ⟨hsource, hwhen, -⟩ := h.flow_row hs hr hfs
    have hkey := Flow.mem_keys_iff.mpr ⟨fs, hfs⟩
    have hstarts : StepStarts o D r.stepName fs →
        Right o task D snap (.promote r.stepName) := by
      intro hstarts fs' hfs'
      obtain rfl := Option.some.inj (hfs.symm.trans hfs')
      exact hstarts
    split at hrow
    · cases hrow
    case h_2 hgate =>
      cases hrow
      have hD := h.gate_eq hdag hs hfs (by simp [hgate])
      exact .inl ⟨hkey, outcome_of_omitted hsolves hfs (hD.trans hgate)⟩
    case h_3 hgate =>
      have hopen := (h.gate_eq hdag hs hfs (by simp [hgate])).trans hgate
      split at hrow
      case h_1 hnone =>
        cases hrow
        exact hstarts ⟨hopen, by simp [Oracle.conditionOf, ← hwhen, hnone]⟩
      case h_2 => cases hrow
      case h_3 w ctx hsome =>
        exact condition_right hsolves hfollow hfs (hwhen.symm.trans hsome) hopen hstarts hrow

theorem expandPlaceholder_right (hsolves : o.Solves task.flow D)
    (hfollow : TemplatesFollow env jsonText o task.flow) (hs : Sound task snap)
    (h : Agrees o task jsonText D snap) (hr : r ∈ snap)
    (hplace : r.isPlaceholder = true) (hfs : task.flow.get r.stepName = some fs)
    (hstarts : StepStarts o D r.stepName fs) (ctx : Json) (jobId : Uuid) :
    Right o task D snap (expandPlaceholder env fs ctx jobId r) := by
  obtain ⟨-, -, hexpr⟩ := h.flow_row hs hr hfs
  have hkey := Flow.mem_keys_iff.mpr ⟨fs, hfs⟩
  obtain ⟨text, htext⟩ : ∃ text, r.forEachExpr = some text := Option.isSome_iff_exists.mp hplace
  have hloop : fs.forEach.isSome = true := by
    rw [hexpr] at htext
    obtain ⟨expr, hforEach, -⟩ := Option.map_eq_some_iff.mp htext
    simp [hforEach]
  obtain ⟨expr, hforEach⟩ := Option.isSome_iff_exists.mp hloop
  have hitems := hfollow.items r.stepName fs text ctx hfs (hexpr.symm.trans htext)
  have hD : D r.stepName = o.bodyOutcome r.stepName fs := hstarts.outcome hsolves hfs
  simp only [Oracle.bodyOutcome, hforEach, ← hitems] at hD
  unfold expandPlaceholder
  simp only [htext, Option.getD_some]
  split
  case h_1 e hvalue =>
    rw [hvalue] at hD
    exact ⟨hkey, hD⟩
  case h_2 items hvalue =>
    rw [hvalue] at hD hitems
    simp only [Except.toOption, Oracle.loopOutcome] at hD
    split
    case isTrue hempty =>
      refine .inl ⟨hkey, ?_⟩
      rw [hD, if_pos hempty]
      rfl
    case isFalse hne =>
      split
      case isTrue hmany =>
        refine ⟨hkey, ?_⟩
        rw [hD, if_neg hne, if_pos hmany]
      case isFalse hfew =>
        exact ⟨jobId, r, items, fs, rfl, ⟨hfs, hloop, hstarts, hitems.symm, by simpa using hne,
          by omega⟩, rfl⟩

theorem placeholderRow_right (hdag : task.flow.Accepted)
    (hnames : ∀ name ∈ task.flow.keys, '[' ∉ name.toList) (hsolves : o.Solves task.flow D)
    (hfollow : TemplatesFollow env jsonText o task.flow) (hs : Sound task snap)
    (h : Agrees o task jsonText D snap) {ctx : Json} {jobId : Uuid} {r : JobStepRow}
    (hr : r ∈ snap) (hpend : r.status = .pending) (hplace : r.isPlaceholder = true)
    (hrow : placeholderRow env task snap ctx jobId r = some c) : Right o task D snap c := by
  unfold placeholderRow at hrow
  split at hrow
  · cases hrow
  case h_2 fs hfs =>
    obtain ⟨hsource, hwhen, -⟩ := h.flow_row hs hr hfs
    have hkey := Flow.mem_keys_iff.mpr ⟨fs, hfs⟩
    have hexpand := expandPlaceholder_right hsolves hfollow hs h hr hplace hfs
    split at hrow
    case isTrue hsome =>
      -- a pending placeholder has no instance, and no other row is named like one
      simp only [Snapshot.status, Option.isSome_map] at hsome
      obtain ⟨b, hb, hname⟩ := Snapshot.get_isSome_iff.mp hsome
      exact absurd hname ((hs.unexpanded hnames r hr hpend hplace b hb).1 0)
    case isFalse =>
      split at hrow
      · cases hrow
      case h_2 hgate =>
        cases hrow
        have hD := h.gate_eq hdag hs hfs (by simp [hgate])
        exact .inl ⟨hkey, outcome_of_omitted hsolves hfs (hD.trans hgate)⟩
      case h_3 hgate =>
        have hopen := (h.gate_eq hdag hs hfs (by simp [hgate])).trans hgate
        split at hrow
        case h_1 hnone =>
          cases hrow
          exact hexpand ⟨hopen, by simp [Oracle.conditionOf, ← hwhen, hnone]⟩ ctx jobId
        case h_2 w hsome =>
          exact condition_right hsolves hfollow hfs (hwhen.symm.trans hsome) hopen
            (fun hstarts => hexpand hstarts ctx jobId) hrow

theorem Agrees.loop_failed (hsolves : o.Solves task.flow D) (h : Agrees o task jsonText D snap)
    {i : JobStepRow} (hi : i ∈ snap) {p : String} (hsource : i.loopSource = some p)
    (hfailed : i.status = .failed) : D p = .failed := by
  obtain ⟨items, fs, hloop, ⟨k, hk, hname⟩, -⟩ := h.instances i hi p hsource
  have hfails := h.failed i hi (by simp [hsource]) hfailed
  rw [hloop.outcome hsolves, if_neg]
  simp only [List.all_eq_true, List.mem_range, not_forall]
  refine ⟨k, hk, ?_⟩
  rw [← hname, hfails]
  simp

theorem Agrees.loop_completed (hsolves : o.Solves task.flow D) (h : Agrees o task jsonText D snap)
    {i : JobStepRow} (hi : i ∈ snap) {p : String} (hsource : i.loopSource = some p)
    (hdone : ∀ i ∈ snap, i.loopSource = some p → i.status.isTerminal = true)
    (hnone : ∀ i ∈ snap, i.loopSource = some p → i.status ≠ .failed) : D p = .completed := by
  obtain ⟨items, fs, hloop, -, hall⟩ := h.instances i hi p hsource
  rw [hloop.outcome hsolves, if_pos]
  rw [List.all_eq_true]
  intro k hk
  obtain ⟨j, hj, hjs, hname⟩ := hall k (List.mem_range.mp hk)
  rw [← hname]
  refine h.completed j hj (by simp [hjs]) ?_
  have hterm := hdone j hj hjs
  cases hstatus : j.status with
  | completed => rfl
  | failed => exact absurd hstatus (hnone j hj hjs)
  | cancelled => exact absurd hstatus (h.uncancelled j hj)
  | skipped =>
    obtain ⟨b, hb, hbs, hfailed⟩ := h.skipped j hj p hjs hstatus
    exact absurd hfailed (hnone b hb hbs)
  | _ =>
    rw [hstatus] at hterm
    cases hterm

theorem phaseRollup_right (hsolves : o.Solves task.flow D) (hs : Sound task snap)
    (h : Agrees o task jsonText D snap) (hc : c ∈ phaseRollup snap task) :
    Right o task D snap c := by
  obtain ⟨ph, hph, hplace, hrun, hreason⟩ := phaseRollup_reason hc
  cases hreason with
  | abandon i bad hseq hcof hbad hbs hisBad hi his hpend =>
    simp only [isBad, Bool.or_eq_true, beq_iff_eq] at hisBad
    have hfailed := hisBad.resolve_right (h.uncancelled bad hbad)
    exact .inr ⟨ph.stepName, i, hi, rfl, his, bad, hbad, hbs, hfailed⟩
  | advance i n idx hseq hgood hi his hit hidx hn hns hnidx hnp =>
    intro fs hfs
    exact absurd (Flow.mem_keys_iff.mpr ⟨fs, hfs⟩) (hs.instance_notMem_keys hn (by simp [hns]))
  | finish outcome hall =>
    have houtcome := phaseRollup_finish hc
    rcases rollupOutcome_cases (loopInstances snap ph.stepName) with
      ⟨output, heq, hnone⟩ | ⟨error, output, heq, i, hi, hfailed⟩
    · rw [houtcome, heq]
      obtain ⟨i, hi, hsource⟩ := hs.expanded ph hph hplace hrun
      exact h.loop_completed hsolves hi hsource hall fun j hj hjs =>
        hnone j (mem_loopInstances.mpr ⟨hj, hjs⟩)
    · rw [houtcome, heq]
      obtain ⟨hmem, hsource⟩ := mem_loopInstances.mp hi
      exact h.loop_failed hsolves hmem hsource hfailed

theorem batch_right {job : JobRow} {ws : Option WorkspaceConfig} {ss : Snapshots}
    {cs : List Change} (hdag : task.flow.Accepted)
    (hnames : ∀ name ∈ task.flow.keys, '[' ∉ name.toList) (hsolves : o.Solves task.flow D)
    (hfollow : TemplatesFollow env jsonText o task.flow) (hs : Sound task snap)
    (h : Agrees o task jsonText D snap) (hb : Batch env task job ws ss snap cs) :
    ∀ c ∈ cs, Right o task D snap c := by
  intro c hc
  cases hb with
  | rollup => exact phaseRollup_right hsolves hs h hc
  | promote =>
    obtain ⟨r, hr, hrow⟩ := List.mem_filterMap.mp hc
    exact promoteRow_right hdag hsolves hfollow hs h (mem_pendingSteps.mp hr).1 hrow
  | placeholders =>
    unfold phasePlaceholders at hc
    split at hc
    · cases hc
    · obtain ⟨r, hr, hrow⟩ := List.mem_filterMap.mp hc
      obtain ⟨hmem, hpend, hplace⟩ := mem_pendingPlaceholders.mp hr
      exact placeholderRow_right hdag hnames hsolves hfollow hs h hmem hpend hplace hrow

theorem Agrees.batches {job : JobRow} {ws : Option WorkspaceConfig} {ss : Snapshots}
    {last : List JobStepRow} {cs : List Change} (hdag : task.flow.Accepted)
    (hnames : ∀ name ∈ task.flow.keys, '[' ∉ name.toList) (hsolves : o.Solves task.flow D)
    (hfollow : TemplatesFollow env jsonText o task.flow) (hs : Sound task rows)
    (h : Agrees o task jsonText D rows) (hb : Batches env task job ws ss rows cs last) :
    Sound task last ∧ Agrees o task jsonText D last := by
  refine hb.invariant_of_ground (fun snap => Sound task snap ∧ Agrees o task jsonText D snap)
    (fun snap c => Grounded task job.jobId snap c ∧ Right o task D snap c)
    (fun snap c _ hinv hc hground => ?_) (fun snap c d hd hmoves hc hground => ?_)
    (fun snap cs _ hinv hbatch c hc => ?_) hs.loops.keyed (hs.unexpanded hnames).noCollision ⟨hs, h⟩
  · exact ⟨hinv.1.apply hnames hc hground.1, hinv.2.apply hinv.1 hc hground.2⟩
  · exact ⟨hground.1.apply hd hmoves hc, hground.2.apply hd hmoves⟩
  · exact ⟨hbatch.grounded c hc, batch_right hdag hnames hsolves hfollow hinv.1 hinv.2 hbatch c hc⟩

theorem Agrees.cascade {job : JobRow} {ws : Option WorkspaceConfig} {ss : Snapshots}
    {plan : Plan} (hdag : task.flow.Accepted)
    (hnames : ∀ name ∈ task.flow.keys, '[' ∉ name.toList) (hsolves : o.Solves task.flow D)
    (hfollow : TemplatesFollow env jsonText o task.flow) (hs : Sound task rows)
    (h : Agrees o task jsonText D rows) (hrun : Returns env task job ws ss rows plan) :
    (Sound task (Snapshot.applyAll rows plan.changes) ∧
      Agrees o task jsonText D (Snapshot.applyAll rows plan.changes)) ∧
    ∀ now db a db', db.steps.Perm rows → Cascade.apply now db plan = .ok (a, db') →
      Sound task db'.steps ∧ Agrees o task jsonText D db'.steps :=
  hs.cascade_keeps hnames (fun rows => Sound task rows ∧ Agrees o task jsonText D rows)
    (fun _ _ hinv hmir => ⟨hinv.1.of_mirrors hmir, hinv.2.of_mirrors hsolves hinv.1 hmir⟩)
    (fun _ _ hb => h.batches hdag hnames hsolves hfollow hs hb) hrun

end Outcomes

end Stroem.Engine
