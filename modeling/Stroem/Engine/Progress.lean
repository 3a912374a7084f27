import Stroem.Dag
import Stroem.Settle
import Stroem.Engine.Sound

/-!
# No stranded job

Workers move the steps they hold, and cascades are run on the rows they leave.  After each
cascade every pending row is held up by a row that is not finished: a dependency, or an earlier
instance of its sequential loop.  Followed backwards this ends at a step some worker holds; so
when no worker holds one, every row is finished and the job can be settled.
-/

namespace Stroem.Engine

open Foundation JobStepRepo Cascade JobCreation

/-! ## Workers and cascades in turn -/

inductive Move where
  | work (event : Event)
  | cascade (now : Time) (jobStatus : JobStatus) (fuel : Nat) (job : JobRow)
      (workspaceConfig : Option WorkspaceConfig) (snapshots : Snapshots)

def legalWork (rows : List JobStepRow) (w : Write) : Bool :=
  !w.isCascade && w.target.any fun step => rows.all fun r =>
    r.stepName != step || !r.isPlaceholder && r.status != .pending && !r.status.isTerminal

def takeTurn (env : TemplateEnv) (task : TaskDef) (rows : List JobStepRow) :
    Move → Option (List JobStepRow)
  | .work e =>
    if legalWork rows e.write then some (rowsAfter e.now e.jobStatus rows e.write) else none
  | .cascade now jobStatus fuel job workspaceConfig snapshots =>
    (run env fuel task job rows workspaceConfig snapshots).map fun plan =>
      rowsAfter now jobStatus rows (.applyPlan plan)

theorem Write.moves_other {w : Write} {r : JobStepRow} {s : StepStatus} {step : String}
    (hmoves : w.moves r s) (htarget : w.target = some step) (hne : r.stepName ≠ step) :
    (r.status = .pending ∨ r.status = .ready ∨ r.status = .suspended) ∧ s = .cancelled := by
  cases w <;> simp_all [Write.moves, Write.target]

theorem Write.moves_to_claimed {w : Write} {r : JobStepRow} (h : w.moves r .claimed) :
    r.status = .claimed := by
  cases w <;> simp_all [Write.moves]

theorem Sound.work {task : TaskDef} {rows : List JobStepRow} {e : Event} (h : Sound task rows)
    (hlegal : legalWork rows e.write = true) :
    Sound task (rowsAfter e.now e.jobStatus rows e.write) := by
  simp only [legalWork, Bool.and_eq_true, Bool.not_eq_true', Option.any_eq_true,
    List.all_eq_true, Bool.or_eq_true, bne_iff_ne, ne_eq] at hlegal
  obtain ⟨hw, step, htarget, hall⟩ := hlegal
  have hspec : List.Forall₂ (RowEffect e.write) rows
      (rowsAfter e.now e.jobStatus rows e.write) := rowsAfter_spec h.loops.keyed hw
  have hrow : ∀ r ∈ rows, ∀ r', RowEffect e.write r r' → InPlace r r' := by
    intro r hr r' heffect
    refine ⟨heffect.keeps, fun hpend => ?_, fun hterm => ?_, fun hplace => ?_, fun hne hc => ?_⟩
    · rcases heffect.outcome with ⟨hs, -, -⟩ | hmoves
      · exact hs.symm.trans hpend
      · rw [hpend] at hmoves
        exact Write.moves_to_pending hmoves
    · rcases heffect.outcome with ⟨hs, -, -⟩ | hmoves
      · exact hs
      · obtain ⟨-, hname⟩ := Write.moves_terminal hmoves hterm
        obtain rfl := Option.some.inj (htarget.symm.trans hname)
        have := (hall r hr).resolve_left fun hne => hne rfl
        rw [hterm] at this
        cases this.2
    · rcases heffect.outcome with ⟨hs, -, -⟩ | hmoves
      · exact .inl hs
      · have hne : r.stepName ≠ step := by
          intro hname
          have := (hall r hr).resolve_left fun hne => hne hname
          rw [hplace] at this
          cases this.1.1
        obtain ⟨hs, hcancelled⟩ := Write.moves_other hmoves htarget hne
        refine .inr ⟨?_, by rw [hcancelled]; rfl⟩
        have hstatus := h.placeholder r hr hplace
        rcases hs with hs | hs | hs <;> simp_all [StepStatus.isTerminal]
    · rcases heffect.outcome with ⟨hs, -, -⟩ | hmoves
      · exact hne (hs.symm.trans hc)
      · rw [hc] at hmoves
        exact hne (Write.moves_to_claimed hmoves)
  have hspec' : List.Forall₂ InPlace rows (rowsAfter e.now e.jobStatus rows e.write) :=
    ((List.forall₂_and_left _ _).mpr ⟨fun r hr => hr, hspec⟩).imp
      fun r r' hboth => hrow r hboth.1 r' hboth.2
  exact h.inPlace (keyed_rowsAfter h.loops.keyed) (fun r hr => mem_of_forall₂_left hspec' hr)
    (fun r' hr' => mem_of_forall₂_right hspec' hr')

section Cascade

variable {env : TemplateEnv} {task : TaskDef} {job : JobRow} {ws : Option WorkspaceConfig}
  {ss : Snapshots}

theorem Sound.unexpanded (hnames : ∀ name ∈ task.flow.keys, '[' ∉ name.toList)
    {rows : List JobStepRow} (h : Sound task rows) : Unexpanded rows := by
  intro q hq hpend hplace a ha
  have hsource : a.loopSource ≠ some q.stepName := fun hs =>
    h.loops.started a ha _ hs q hq rfl hpend
  refine ⟨fun i hname => ?_, hsource⟩
  cases has : a.loopSource with
  | none =>
    have hbracket := hnames _ (h.steps a ha has)
    rw [hname] at hbracket
    exact hbracket (bracket_mem_instanceName q.stepName i)
  | some p =>
    obtain ⟨-, k, -, hname', -⟩ := h.loops.index a ha p has
    rw [(instanceName_inj (hname'.symm.trans hname)).1] at has
    exact hsource has

theorem Sound.loopIndices {rows : List JobStepRow} (h : Sound task rows) : LoopIndices rows := by
  intro r hr r' hr' p idx hs hs' hidx hidx'
  exact h.loops.slot_inj hr hr' hs hs' (by simp [slot, hidx, hidx'])

theorem Sound.cascade_keeps (hnames : ∀ name ∈ task.flow.keys, '[' ∉ name.toList)
    {rows : List JobStepRow} {plan : Plan} (h : Sound task rows) (Inv : List JobStepRow → Prop)
    (hmirrors : ∀ rows' snap, Inv snap → Mirrors rows' snap → Inv rows')
    (hbatches : ∀ cs last, Batches env task job ws ss rows cs last → Inv last)
    (hrun : Returns env task job ws ss rows plan) :
    Inv (Snapshot.applyAll rows plan.changes) ∧
      ∀ now db a db', db.steps.Perm rows → Cascade.apply now db plan = .ok (a, db') →
        Inv db'.steps := by
  have hun := h.unexpanded hnames
  obtain ⟨cs, last, hrun', hb, -⟩ := run_ends env task job ws ss h.loops.keyed hun.noCollision
  obtain ⟨plan', hrun'', -, hdb⟩ := run_plan env task job ws ss h.loops.keyed hun h.loopIndices
  obtain rfl := hrun.unique hrun'
  obtain rfl := hrun.unique hrun''
  have hvisible : Snapshot.visible (Snapshot.applyAll rows (redactChanges env ws cs)) =
      last.visible := by
    rw [(hb.steps h.loops.keyed hun.noCollision).2]
    exact Snapshot.visible_applyAll_congr rfl (redactChanges_forget env ws cs)
  have hrefl : Mirrors (Snapshot.applyAll rows (redactChanges env ws cs))
      (Snapshot.applyAll rows (redactChanges env ws cs)) := .refl _
  have hmemory : Inv (Snapshot.applyAll rows (redactChanges env ws cs)) :=
    hmirrors _ _ (hbatches cs last hb) (hrefl.of_visible hvisible)
  refine ⟨hmemory, fun now db a db' hsteps hok => ?_⟩
  rcases hdb now db hsteps with ⟨a', db'', hok', hmir⟩ | ⟨e, herr⟩
  · obtain ⟨-, rfl⟩ : a = a' ∧ db' = db'' := by simpa [hok] using hok'
    exact hmirrors _ _ hmemory hmir
  · rw [hok] at herr
    cases herr

theorem Sound.batches (hnames : ∀ name ∈ task.flow.keys, '[' ∉ name.toList)
    {rows last : List JobStepRow} {cs : List Change} (h : Sound task rows)
    (hb : Batches env task job ws ss rows cs last) : Sound task last :=
  hb.invariant (Sound task) (fun _ _ _ hs hc hground => hs.apply hnames hc hground) h.loops.keyed
    (h.unexpanded hnames).noCollision h

variable (env job ws ss) in
theorem Sound.cascade (hnames : ∀ name ∈ task.flow.keys, '[' ∉ name.toList) {rows : List JobStepRow}
    (h : Sound task rows) :
    ∃ plan, Returns env task job ws ss rows plan ∧
      Sound task (Snapshot.applyAll rows plan.changes) ∧
      Stable env task job ws ss (Snapshot.applyAll rows plan.changes) ∧
      ∀ now db a db', db.steps.Perm rows → Cascade.apply now db plan = .ok (a, db') →
        Sound task db'.steps ∧ Stable env task job ws ss db'.steps := by
  have hun := h.unexpanded hnames
  obtain ⟨plan, hrun, -, hdb⟩ := run_plan env task job ws ss h.loops.keyed hun h.loopIndices
  obtain ⟨plan', hrun', -, hstable⟩ := run_stable env task job ws ss h.loops.keyed hun.noCollision
  obtain rfl := hrun.unique hrun'
  obtain ⟨hmemory, hsound⟩ := h.cascade_keeps hnames (Sound task)
    (fun _ _ hs hmir => hs.of_mirrors hmir) (fun _ _ hb => h.batches hnames hb) hrun
  refine ⟨plan, hrun, hmemory, hstable _ (.refl _), fun now db a db' hsteps hok => ?_⟩
  refine ⟨hsound now db a db' hsteps hok, ?_⟩
  rcases hdb now db hsteps with ⟨a', db'', hok', hmir⟩ | ⟨e, herr⟩
  · obtain ⟨-, rfl⟩ : a = a' ∧ db' = db'' := by simpa [hok] using hok'
    exact hstable _ hmir
  · rw [hok] at herr
    cases herr

theorem rowsAfter_applyPlan_cases (now : Time) (jobStatus : JobStatus) (rows : List JobStepRow)
    (plan : Plan) :
    (∃ a db', Cascade.apply now ⟨jobStatus, rows⟩ plan = .ok (a, db') ∧
      rowsAfter now jobStatus rows (.applyPlan plan) = db'.steps) ∨
    rowsAfter now jobStatus rows (.applyPlan plan) = rows := by
  simp only [rowsAfter]
  split
  case h_1 rows' hok =>
    left
    simp only [Cascade.apply, hok]
    exact ⟨_, _, rfl, rfl⟩
  case h_2 => exact .inr rfl

theorem Sound.takeTurn (hnames : ∀ name ∈ task.flow.keys, '[' ∉ name.toList)
    {rows rows' : List JobStepRow} {m : Move} (h : Sound task rows)
    (hstep : takeTurn env task rows m = some rows') : Sound task rows' := by
  cases m with
  | work e =>
    simp only [Engine.takeTurn] at hstep
    split at hstep
    case isTrue hlegal =>
      cases hstep
      exact h.work hlegal
    case isFalse => cases hstep
  | cascade now jobStatus fuel job ws ss =>
    obtain ⟨plan, hrun, rfl⟩ := Option.map_eq_some_iff.mp hstep
    obtain ⟨plan', hrun', -, -, hdb⟩ := h.cascade env job ws ss hnames
    obtain rfl := (Returns.of_run fuel hrun).unique hrun'
    rcases rowsAfter_applyPlan_cases now jobStatus rows plan with ⟨a, db', hok, heq⟩ | heq
    · rw [heq]
      exact (hdb now ⟨jobStatus, rows⟩ a db' (.refl _) hok).1
    · rw [heq]
      exact h

end Cascade

/-! ## What a stable job waits for -/

def Waits (task : TaskDef) (rows : List JobStepRow) (r : JobStepRow) : Prop :=
  (∃ p, isSequential task p = true ∧
    ∃ i ∈ rows, Precedes p i r ∧ i.status.isTerminal = false) ∨
  ∃ fs, task.flow.get r.stepName = some fs ∧ ∃ d ∈ collectNames fs.dependsOn,
    ∃ x ∈ rows, x.stepName = d ∧ x.status.isTerminal = false

structure NotStranded (task : TaskDef) (rows : List JobStepRow) : Prop where
  waits : ∀ r ∈ rows, r.status = .pending → Waits task rows r
  settles : (∀ r ∈ rows, r.isPlaceholder = false → r.status.isActive = false) →
    (∀ r ∈ rows, r.status.isTerminal = true) ∧ (Settlement.decide task rows).isSome = true

section Stable

variable {task : TaskDef} {rows : List JobStepRow}

theorem Sound.loop_running (h : Sound task rows) {r : JobStepRow} (hr : r ∈ rows) {p : String}
    (hsource : r.loopSource = some p) (hpend : r.status = .pending) :
    ∃ ph ∈ rows, ph.stepName = p ∧ ph.isPlaceholder = true ∧ ph.status = .running := by
  obtain ⟨ph, hph, hname, -⟩ := h.loops.flow p (h.loops.index r hr p hsource).1
  have hplace := h.parent r hr p hsource ph hph hname
  refine ⟨ph, hph, hname, hplace, ?_⟩
  rcases h.placeholder ph hph hplace with hs | hs | hterm
  · exact absurd hs (h.loops.started r hr p hsource ph hph hname)
  · exact hs
  · have := h.closed ph hph hplace hterm r hr (by rw [hsource, hname])
    rw [hpend] at this
    cases this

private theorem predecessor (h : Sound task rows) (hq : Cascade.Quiet task true rows)
    {r : JobStepRow} (hr : r ∈ rows) {p : String} {k : Nat} (hsource : r.loopSource = some p)
    (hname : r.stepName = instanceName p k) (hpend : r.status = .pending) :
    ∃ j, k = j + 1 ∧ ∃ i ∈ rows, i.stepName = instanceName p j ∧ Precedes p i r ∧
      i.status.isTerminal = false := by
  obtain ⟨hseq, hzero⟩ := h.queued r hr p hsource hpend
  have hk : k ≠ 0 := by
    rintro rfl
    exact hzero hname
  obtain ⟨j, rfl⟩ := Nat.exists_eq_succ_of_ne_zero hk
  obtain ⟨i, hi, his, hiname⟩ := h.contiguous r hr p _ hsource hname j (Nat.lt_succ_self j)
  obtain ⟨-, a, ha, hrname, hrindex⟩ := h.loops.index r hr p hsource
  obtain ⟨-, rfl⟩ := instanceName_inj (hrname.symm.trans hname)
  obtain ⟨-, b, hb, hiname', hiindex⟩ := h.loops.index i hi p his
  obtain ⟨-, rfl⟩ := instanceName_inj (hiname'.symm.trans hiname)
  refine ⟨b, rfl, i, hi, hiname, ⟨his, hsource, ?_⟩, ?_⟩
  · simp only [slot, hiindex, hrindex, Option.getD_some, toInt_ofNat_index ha,
      toInt_ofNat_index hb]
    omega
  · by_contra hterm
    rw [Bool.not_eq_false] at hterm
    obtain ⟨ph, hph, rfl, hplace, hrun⟩ := h.loop_running hr hsource hpend
    refine hq.advanced ph hph hplace hrun hseq i hi his hterm _ hiindex r hr hsource ?_ hpend
    rw [hrindex]
    apply congrArg some
    apply Int32.toInt_inj.mp
    simp only [maxForEachItems] at ha
    have hone : (1 : Int32).toInt = 1 := by decide
    rw [toInt_ofNat_index ha, Int32.toInt_add, toInt_ofNat_index hb, hone, Int.bmod_eq_of_le]
      <;> omega

private theorem dependency (h : Sound task rows) (hq : Cascade.Quiet task true rows)
    (hdeps : ∀ name fs, task.flow.get name = some fs →
      ∀ d ∈ collectNames fs.dependsOn, d ∈ task.flow.keys)
    {r : JobStepRow} (hr : r ∈ rows) (hsource : r.loopSource = none)
    (hpend : r.status = .pending) :
    ∃ fs, task.flow.get r.stepName = some fs ∧ ∃ d ∈ collectNames fs.dependsOn,
      ∃ x ∈ rows, x.stepName = d ∧ x.loopSource = none ∧ x.status.isTerminal = false := by
  obtain ⟨fs, hfs⟩ := Flow.mem_keys_iff.mp (h.steps r hr hsource)
  have hwait : gateFor rows fs = .wait := by
    cases hplace : r.isPlaceholder with
    | true => exact (hq.placeholders rfl r hr hpend hplace fs hfs).2
    | false =>
      rcases hq.steps r hr hpend hplace fs hfs with hwait | ⟨-, -, hctx⟩
      · exact hwait
      · cases hctx
  obtain ⟨d, hd, hout⟩ := gate_eq_wait_iff.mp hwait
  obtain ⟨x, hx, hname, hxs⟩ := h.loops.flow d (hdeps _ fs hfs d hd)
  refine ⟨fs, hfs, d, hd, x, hx, hname, hxs, ?_⟩
  by_contra hterm
  rw [Bool.not_eq_false] at hterm
  exact outcome_ne_pending_iff.mpr
    ⟨x, (Snapshot.get_eq_some_iff h.loops.keyed).mpr ⟨hx, hname⟩, hterm⟩ hout

private theorem instances_finished (h : Sound task rows) (hq : Cascade.Quiet task true rows)
    (hidle : ∀ r ∈ rows, r.isPlaceholder = false → r.status.isActive = false) {p : String} :
    ∀ r ∈ rows, r.loopSource = some p → r.status.isTerminal = true := by
  have hstatus : ∀ r ∈ rows, r.loopSource = some p →
      r.status = .pending ∨ r.status.isTerminal = true := by
    intro r hr hsource
    have hinactive := hidle r hr (h.loops.plain r hr (by simp [hsource]))
    have hunclaimed := h.unclaimed r hr
    cases hs : r.status <;> simp_all [StepStatus.isActive, StepStatus.isTerminal]
  -- an instance that waits points to the one before it; the first never waits
  have hnone : ∀ k, ∀ r ∈ rows, r.loopSource = some p → r.stepName = instanceName p k →
      r.status ≠ .pending := by
    intro k
    induction k with
    | zero =>
      intro r hr hsource hname hpend
      exact (h.queued r hr p hsource hpend).2 hname
    | succ k ih =>
      intro r hr hsource hname hpend
      obtain ⟨j, hj, i, hi, hiname, hprec, hterm⟩ := predecessor h hq hr hsource hname hpend
      obtain rfl : k = j := by omega
      rcases hstatus i hi hprec.first with hs | hs
      · exact ih i hi hprec.first hiname hs
      · rw [hs] at hterm
        cases hterm
  intro r hr hsource
  obtain ⟨-, k, -, hname, -⟩ := h.loops.index r hr p hsource
  exact (hstatus r hr hsource).resolve_left (hnone k r hr hsource hname)

theorem Sound.notStranded (h : Sound task rows) (hq : Cascade.Quiet task true rows)
    (hdag : task.flow.Accepted) : NotStranded task rows := by
  obtain ⟨rank, hrank⟩ := hdag.rank
  have hdeps : ∀ name fs, task.flow.get name = some fs →
      ∀ d ∈ collectNames fs.dependsOn, d ∈ task.flow.keys :=
    fun name fs hfs d hd => (hrank name fs hfs d hd).1
  refine ⟨fun r hr hpend => ?_, fun hidle => ?_⟩
  · cases hsource : r.loopSource with
    | none =>
      obtain ⟨fs, hfs, d, hd, x, hx, hname, -, hterm⟩ := dependency h hq hdeps hr hsource hpend
      exact .inr ⟨fs, hfs, d, hd, x, hx, hname, hterm⟩
    | some p =>
      obtain ⟨-, k, -, hname, -⟩ := h.loops.index r hr p hsource
      obtain ⟨-, -, i, hi, -, hprec, hterm⟩ := predecessor h hq hr hsource hname hpend
      exact .inl ⟨p, (h.queued r hr p hsource hpend).1, i, hi, hprec, hterm⟩
  · have hinstances : ∀ p, ∀ r ∈ rows, r.loopSource = some p → r.status.isTerminal = true :=
      fun p => instances_finished h hq hidle
    have hnotRunning : ∀ r ∈ rows, r.isPlaceholder = true → r.status ≠ .running := by
      intro r hr hplace hrun
      obtain ⟨i, hi, his⟩ := h.expanded r hr hplace hrun
      obtain ⟨n, hn, hns, hterm⟩ := hq.live r hr hplace hrun i hi his
      rw [hinstances _ n hn hns] at hterm
      cases hterm
    -- a pending flow step points to one of lower rank that is not finished either
    have hsteps : ∀ m, ∀ r ∈ rows, r.loopSource = none → rank r.stepName < m →
        r.status.isTerminal = true := by
      intro m
      induction m with
      | zero => intro r _ _ hlt; omega
      | succ m ih =>
        intro r hr hsource hlt
        have hpend : r.status = .pending ∨ r.status.isTerminal = true := by
          cases hplace : r.isPlaceholder with
          | true =>
            rcases h.placeholder r hr hplace with hs | hs | hs
            · exact .inl hs
            · exact absurd hs (hnotRunning r hr hplace)
            · exact .inr hs
          | false =>
            have hinactive := hidle r hr hplace
            have hunclaimed := h.unclaimed r hr
            revert hinactive hunclaimed
            cases r.status <;> simp [StepStatus.isActive, StepStatus.isTerminal]
        refine hpend.resolve_left fun hpend => ?_
        obtain ⟨fs, hfs, d, hd, x, hx, rfl, hxs, hterm⟩ :=
          dependency h hq hdeps hr hsource hpend
        have hlower := (hrank _ fs hfs _ hd).2
        rw [ih x hx hxs (by omega)] at hterm
        cases hterm
    have hall : ∀ r ∈ rows, r.status.isTerminal = true := by
      intro r hr
      cases hsource : r.loopSource with
      | none => exact hsteps _ r hr hsource (Nat.lt_succ_self _)
      | some p => exact hinstances p r hr hsource
    exact ⟨hall, Settlement.decide_isSome_iff.mpr hall⟩

end Stable

/--
Whatever legal turns workers and cascades have taken, after the next cascade (in memory, or
applied to the database) the job is not stranded.
-/
theorem no_stranded_job {env : TemplateEnv} {task : TaskDef} {jsonText : Json → String}
    {defaults : JobDefaults} {jobId : Uuid} {source : String → FlowStep → StepSource}
    {created : Time} {rows₀ rows : List JobStepRow} {ms : List Move}
    (hdag : task.flow.Accepted) (hnames : ∀ name ∈ task.flow.keys, '[' ∉ name.toList)
    (hcreate : createSteps jsonText defaults jobId source task.flow created = some rows₀)
    (hrun : exec (takeTurn env task) rows₀ ms = some rows) (job : JobRow)
    (cfg : WorkspaceConfig) (ss : Snapshots) :
    ∃ plan, Returns env task job (some cfg) ss rows plan ∧
      NotStranded task (Snapshot.applyAll rows plan.changes) ∧
      ∀ now db a db', db.steps = rows → Cascade.apply now db plan = .ok (a, db') →
        NotStranded task db'.steps := by
  have hsound : Sound task rows :=
    exec_invariant (Sound task) (fun _ _ _ h _ hstep => h.takeTurn hnames hstep)
      (createSteps_sound hcreate) (Meets.of_forall (fun _ _ => trivial) rows₀ ms) hrun
  obtain ⟨plan, hreturns, hlast, hstable, hdb⟩ := hsound.cascade env job (some cfg) ss hnames
  refine ⟨plan, hreturns, hlast.notStranded (stable_iff_quiet.mp hstable) hdag,
    fun now db a db' hsteps hok => ?_⟩
  obtain ⟨hsound', hstable'⟩ := hdb now db a db' (hsteps ▸ .refl _) hok
  exact hsound'.notStranded (stable_iff_quiet.mp hstable') hdag

/-! ## A loop and its successor -/

def chainedFlow : TaskDef :=
  ⟨⟨[("p", { action := "work", forEach := some (.str "[1,2,3]"), sequential := true }),
      ("z", { action := "work", dependsOn := [.name "p"] })], by decide⟩⟩

def chainedTurns : List Move :=
  [.cascade 0 .pending 3 { jobId := 1 } (some {}) {},
    .work ⟨1, .running, .claimReadyStep scriptWorker "p[0]"⟩,
    .work ⟨2, .running, .markCompleted "p[0]" none⟩]

theorem no_stranded_job_chainedTurns :
    chainedFlow.flow.Accepted ∧ (∀ name ∈ chainedFlow.flow.keys, '[' ∉ name.toList) ∧
      createSteps (fun _ => "") {} 1 workSource chainedFlow.flow 0 =
        some (workRows chainedFlow.flow) ∧
      ∃ rows, exec (takeTurn literalEnv chainedFlow) (workRows chainedFlow.flow) chainedTurns =
          some rows ∧
        rows.map JobStepRow.status = [.running, .pending, .completed, .pending, .pending] ∧
        ∃ plan, Returns literalEnv chainedFlow { jobId := 1 } (some {}) {} rows plan ∧
          NotStranded chainedFlow (Snapshot.applyAll rows plan.changes) := by
  have hdag : chainedFlow.flow.Accepted := ⟨["p", "z"], ["p", "z"], .refl _, by decide⟩
  have hnames : ∀ name ∈ chainedFlow.flow.keys, '[' ∉ name.toList := by decide
  have hcreate : createSteps (fun _ => "") {} 1 workSource chainedFlow.flow 0 =
      some (workRows chainedFlow.flow) := by decide
  have hrun : (exec (takeTurn literalEnv chainedFlow) (workRows chainedFlow.flow)
      chainedTurns).any (fun rows => rows.map JobStepRow.status ==
        [.running, .pending, .completed, .pending, .pending]) = true := by decide
  obtain ⟨rows, hrows, hstatus⟩ := (Option.any_eq_true _ _).mp hrun
  obtain ⟨plan, hreturns, hprogress, -⟩ :=
    no_stranded_job hdag hnames hcreate hrows { jobId := 1 } {} {}
  exact ⟨hdag, hnames, hcreate, rows, hrows, by simpa using hstatus, plan, hreturns, hprogress⟩

def shadowedFlow : TaskDef :=
  ⟨⟨[("p", { action := "work", forEach := some (.str "[1,2,3]") }),
      ("p[0]", { action := "work" })], by decide⟩⟩

def shadowedTurns : List Move :=
  [.cascade 0 .pending 3 { jobId := 1 } (some {}) {},
    .work ⟨1, .running, .claimReadyStep scriptWorker "p[0]"⟩,
    .work ⟨2, .running, .markCompleted "p[0]" none⟩]

/--
`validate_dag` lets a step be named like an instance of a loop.  The loop is then adopted
without having an instance: it runs for ever, nobody holds a step, and the job never settles.
-/
theorem shadowed_loop_stranded :
    shadowedFlow.flow.Accepted ∧
      createSteps (fun _ => "") {} 1 workSource shadowedFlow.flow 0 =
        some (workRows shadowedFlow.flow) ∧
      ∃ rows, exec (takeTurn literalEnv shadowedFlow) (workRows shadowedFlow.flow) shadowedTurns =
          some rows ∧
        Returns literalEnv shadowedFlow { jobId := 1 } (some {}) {} rows ⟨[]⟩ ∧
        rows.map (fun r => (r.isPlaceholder, r.status)) = [(true, .running), (false, .completed)] ∧
        Settlement.decide shadowedFlow rows = none := by
  refine ⟨⟨["p", "p[0]"], ["p", "p[0]"], .refl _, by decide⟩, by decide, ?_⟩
  have hrun : (exec (takeTurn literalEnv shadowedFlow) (workRows shadowedFlow.flow)
      shadowedTurns).any (fun rows =>
        decide (run literalEnv 1 shadowedFlow { jobId := 1 } rows (some {}) {} = some ⟨[]⟩) &&
        rows.map (fun r => (r.isPlaceholder, r.status)) ==
          [(true, .running), (false, .completed)] &&
        decide (Settlement.decide shadowedFlow rows = none)) = true := by decide
  obtain ⟨rows, hrows, hbad⟩ := (Option.any_eq_true _ _).mp hrun
  simp only [Bool.and_eq_true, decide_eq_true_eq, beq_iff_eq] at hbad
  exact ⟨rows, hrows, .of_run 1 hbad.1.1, hbad.1.2, hbad.2⟩

end Stroem.Engine
