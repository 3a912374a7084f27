import Stroem.Restart
import Stroem.Engine.Untouched

/-!
# Carried rows after a restart

A restart creates the rows of the flow like any other job, and overwrites those it carries over
with what the source job had.  A carried row is finished from the start, so no cascade and no
worker moves it, no loop is expanded under its name, and the gate reads the outcome it had in
the source job.
-/

namespace Stroem.Restart

open Foundation JobStepRepo Cascade JobCreation Engine

variable {now : Time} {seeds : List Seed} {rows : List JobStepRow}

/-! ## Seeding -/

def seedStep (seed : Seed) (now : Time) : Update JobStepRow where
  guard r := decide (r.stepName = seed.stepName)
  set r := { r with
    status := seed.status
    output := seed.output
    errorMessage := seed.errorMessage
    skipReason := seed.skipReason
    completedAt := some now
    carriedOver := true
    readyAt := none
    retryAt := none
    startedAt := none
    workerId := none
    agentState := none
    suspendedAt := none }

def seedMissed (step : String) (rowsAffected : Nat) : String :=
  "seed step '" ++ step ++ "' matched " ++ toString rowsAffected ++ " rows (expected 1)"

def seedStepsTx (now : Time) : List Seed → List JobStepRow → Except String (List JobStepRow)
  | [], rows => .ok rows
  | seed :: seeds, rows =>
    let n := (seedStep seed now).rowsAffected rows
    if n ≠ 1 then .error (seedMissed seed.stepName n)
    else seedStepsTx now seeds ((seedStep seed now).run rows)

def SeededRow (now : Time) (seeds : List Seed) (r r' : JobStepRow) : Prop :=
  (∃ seed ∈ seeds, seed.stepName = r.stepName ∧ r' = (seedStep seed now).set r) ∨
    r' = r ∧ ∀ seed ∈ seeds, seed.stepName ≠ r.stepName

theorem SeededRow.stepName {r r' : JobStepRow}
    (h : SeededRow now seeds r r') : r'.stepName = r.stepName := by
  rcases h with ⟨seed, -, -, rfl⟩ | ⟨rfl, -⟩ <;> rfl

structure SeededFrom (now : Time) (seeds : List Seed) (rows rows' : List JobStepRow) : Prop where
  keyed : Keyed JobStepRow.stepName rows'
  kept : ∀ r ∈ rows, ∃ r' ∈ rows', SeededRow now seeds r r'
  origin : ∀ r' ∈ rows', ∃ r ∈ rows, SeededRow now seeds r r'

theorem seedStep_run {seed : Seed}
    (hk : Keyed JobStepRow.stepName rows) :
    SeededFrom now [seed] rows ((seedStep seed now).run rows) := by
  have hrow : List.Forall₂ (SeededRow now [seed]) rows ((seedStep seed now).run rows) := by
    unfold Update.run updateWhere
    rw [List.forall₂_map_right_iff, List.forall₂_same]
    intro r _
    split
    case isTrue hguard =>
      exact .inl ⟨seed, List.mem_singleton_self _, (of_decide_eq_true hguard).symm, rfl⟩
    case isFalse hguard =>
      refine .inr ⟨rfl, fun seed' hseed' hname => hguard (decide_eq_true ?_)⟩
      rw [← List.mem_singleton.mp hseed', hname]
  exact ⟨Keyed.of_forall₂ (hrow.imp fun _ _ h => h.stepName) hk,
    fun r hr => mem_of_forall₂_left hrow hr, fun r' hr' => mem_of_forall₂_right hrow hr'⟩

theorem SeededRow.cons {seed : Seed} {r m r' : JobStepRow}
    (hnew : seed.stepName ∉ seeds.map Seed.stepName) (h : SeededRow now [seed] r m)
    (h' : SeededRow now seeds m r') : SeededRow now (seed :: seeds) r r' := by
  have hm := h.stepName
  rcases h with ⟨s, hs, hname, rfl⟩ | ⟨rfl, hother⟩
  · obtain rfl := List.mem_singleton.mp hs
    refine .inl ⟨s, List.mem_cons_self, hname, ?_⟩
    rcases h' with ⟨s', hs', hname', -⟩ | ⟨rfl, -⟩
    · exact absurd (List.mem_map.mpr ⟨s', hs', hname'.trans (hm.trans hname.symm)⟩) hnew
    · rfl
  · rcases h' with ⟨s, hs, hname, rfl⟩ | ⟨rfl, hrest⟩
    · exact .inl ⟨s, List.mem_cons_of_mem _ hs, hname, rfl⟩
    · refine .inr ⟨rfl, fun s hs => ?_⟩
      rcases List.mem_cons.mp hs with rfl | hs
      · exact hother _ (List.mem_singleton_self _)
      · exact hrest s hs

theorem seedStepsTx_ok
    (hk : Keyed JobStepRow.stepName rows) (hnodup : (seeds.map Seed.stepName).Nodup)
    (hfound : ∀ seed ∈ seeds, ∃ r ∈ rows, r.stepName = seed.stepName) :
    ∃ rows', seedStepsTx now seeds rows = .ok rows' ∧ SeededFrom now seeds rows rows' := by
  induction seeds generalizing rows with
  | nil =>
    exact ⟨rows, rfl, hk, fun r hr => ⟨r, hr, .inr ⟨rfl, by simp⟩⟩,
      fun r hr => ⟨r, hr, .inr ⟨rfl, by simp⟩⟩⟩
  | cons seed seeds ih =>
    obtain ⟨hnew, hnodup⟩ := List.nodup_cons.mp hnodup
    obtain ⟨r, hr, hname⟩ := hfound seed List.mem_cons_self
    have hone : (seedStep seed now).rowsAffected rows = 1 :=
      hk.rowsAffected_eq_one (fun a ha => (of_decide_eq_true ha).trans hname.symm) hr
        (decide_eq_true hname)
    have hfirst : SeededFrom now [seed] rows ((seedStep seed now).run rows) := seedStep_run hk
    obtain ⟨rows', hok, hrest⟩ := ih hfirst.keyed hnodup fun s hs => by
      obtain ⟨a, ha, haname⟩ := hfound s (List.mem_cons_of_mem _ hs)
      obtain ⟨a', ha', hseeded⟩ := hfirst.kept a ha
      exact ⟨a', ha', hseeded.stepName.trans haname⟩
    refine ⟨rows', ?_, hrest.keyed, fun a ha => ?_, fun a' ha' => ?_⟩
    · simp only [seedStepsTx, hone]
      exact hok
    · obtain ⟨m, hm, h⟩ := hfirst.kept a ha
      obtain ⟨a', ha', h'⟩ := hrest.kept m hm
      exact ⟨a', ha', h.cons hnew h'⟩
    · obtain ⟨m, hm, h'⟩ := hrest.origin a' ha'
      obtain ⟨a, ha, h⟩ := hfirst.origin m hm
      exact ⟨a, ha, h.cons hnew h'⟩

/-! ## The rows a restarted job starts with -/

structure GoodSeeds (flow : Flow) (seeds : List Seed) : Prop where
  nodup : (seeds.map Seed.stepName).Nodup
  known : ∀ seed ∈ seeds, seed.stepName ∈ flow.keys
  terminal : ∀ seed ∈ seeds, seed.status.isTerminal = true

theorem Exact.goodSeeds {flow : Flow} {sourceSteps : List JobStepRow} {origin : RestartFrom}
    {plan : RestartPlan} (h : Exact flow sourceSteps origin plan) :
    GoodSeeds flow plan.carried := by
  refine ⟨?_, fun seed hseed => ?_, h.terminal⟩
  · have hnodup := h.partition.nodup_iff.mpr flow.nodup
    exact (List.nodup_append.mp hnodup).2.1
  · exact h.partition.mem_iff.mp (List.mem_append_right _ (List.mem_map_of_mem hseed))

theorem SeededFrom.sound {task : TaskDef} {jsonText : Json → String} {defaults : JobDefaults}
    {jobId : Uuid} {source : String → FlowStep → StepSource} {seeded : Time}
    {created : List JobStepRow} (hgood : GoodSeeds task.flow seeds)
    (hcreate : createSteps jsonText defaults jobId source task.flow now = some created)
    (h : SeededFrom seeded seeds created rows) : Sound task rows := by
  have hsound := createSteps_sound hcreate
  have hfresh : ∀ r ∈ created, r.status = .pending ∨ r.status = .ready := by
    intro r hr
    obtain ⟨entry, -, hrow⟩ := mem_of_forall₂_right (createSteps_created hcreate) hr
    exact hrow.pending_or_ready
  have hplace : ∀ r ∈ created, r.isPlaceholder = true → r.status = .pending := by
    intro r hr hplace
    obtain ⟨entry, -, hrow⟩ := mem_of_forall₂_right (createSteps_created hcreate) hr
    exact hrow.placeholder_pending hplace
  have hrow : ∀ r ∈ created, ∀ r', SeededRow seeded seeds r r' → InPlace r r' := by
    rintro r hr r' (⟨seed, hseed, hname, rfl⟩ | ⟨rfl, -⟩)
    · have hterm := hgood.terminal seed hseed
      refine ⟨⟨rfl, rfl, rfl, rfl⟩, fun hpend => ?_, fun hdone => ?_, fun hp => ?_, fun _ hc => ?_⟩
      · rw [show seed.status = .pending from hpend] at hterm
        cases hterm
      · rcases hfresh r hr with hs | hs <;> rw [hs] at hdone <;> cases hdone
      · exact .inr ⟨hplace r hr hp, hterm⟩
      · rw [show seed.status = .claimed from hc] at hterm
        cases hterm
    · exact ⟨⟨rfl, rfl, rfl, rfl⟩, id, fun _ => rfl, fun _ => .inl rfl, fun hne => hne⟩
  refine hsound.inPlace h.keyed (fun r hr => ?_) (fun r' hr' => ?_)
  · obtain ⟨r', hr', hseeded⟩ := h.kept r hr
    exact ⟨r', hr', hrow r hr r' hseeded⟩
  · obtain ⟨r, hr, hseeded⟩ := h.origin r' hr'
    exact ⟨r, hr, hrow r hr r' hseeded⟩

def carriedRows (seeds : List Seed) (rows : List JobStepRow) : List JobStepRow :=
  rows.filter fun r => decide (r.stepName ∈ seeds.map Seed.stepName)

theorem SeededFrom.row {created : List JobStepRow}
    (hnodup : (seeds.map Seed.stepName).Nodup) (h : SeededFrom now seeds created rows)
    {seed : Seed} (hseed : seed ∈ seeds) {r' : JobStepRow} (hr' : r' ∈ rows)
    (hname : r'.stepName = seed.stepName) : ∃ r ∈ created, r' = (seedStep seed now).set r := by
  obtain ⟨r, hr, hrow⟩ := h.origin r' hr'
  have hstep := hrow.stepName
  rcases hrow with ⟨s, hs, hsname, rfl⟩ | ⟨rfl, hother⟩
  · have heq : s.stepName = seed.stepName := hsname.trans (hstep.symm.trans hname)
    obtain rfl := List.inj_on_of_nodup_map hnodup hs hseed heq
    exact ⟨r, hr, rfl⟩
  · exact absurd hname.symm (hother seed hseed)

theorem SeededFrom.untouched {task : TaskDef} {jsonText : Json → String} {defaults : JobDefaults}
    {jobId : Uuid} {source : String → FlowStep → StepSource} {seeded : Time}
    {created : List JobStepRow} (hgood : GoodSeeds task.flow seeds)
    (hcreate : createSteps jsonText defaults jobId source task.flow now = some created)
    (h : SeededFrom seeded seeds created rows) :
    Done (carriedRows seeds rows) ∧ Untouched task (carriedRows seeds rows) rows := by
  have hloop : ∀ r ∈ rows, r.loopSource = none := by
    intro r' hr'
    obtain ⟨r, hr, hrow⟩ := h.origin r' hr'
    obtain ⟨entry, -, hentry⟩ := mem_of_forall₂_right (createSteps_created hcreate) hr
    rcases hrow with ⟨seed, -, -, rfl⟩ | ⟨rfl, -⟩
    · exact hentry.loopSource
    · exact hentry.loopSource
  refine ⟨fun r hr => ?_, h.sound hgood hcreate, fun r hr => List.mem_of_mem_filter hr,
    fun r hr i hi hsource => ?_⟩
  · obtain ⟨hr, hname⟩ := List.mem_filter.mp hr
    obtain ⟨seed, hseed, hname⟩ := List.mem_map.mp (of_decide_eq_true hname)
    obtain ⟨a, -, rfl⟩ := h.row hgood.nodup hseed hr hname.symm
    exact ⟨hgood.terminal seed hseed, hloop _ hr⟩
  · rw [hloop i hi] at hsource
    cases hsource

/-! ## The outcome of a carried step -/

theorem fromRow_seedOf (name : String) (src : JobStepRow) :
    DepOutcome.fromRow (seedOf name src).status (seedOf name src).skipReason =
      if src.status.isTerminal then DepOutcome.fromRow src.status src.skipReason
      else .cancelled := by
  unfold seedOf
  split <;> rfl

/--
In every run from the rows of a restarted job, the carried rows stay as they were seeded and no
plan has a change about one.
-/
theorem carried_stable {task : TaskDef} (hnames : ∀ name ∈ task.flow.keys, '[' ∉ name.toList)
    {jsonText : Json → String} {defaults : JobDefaults} {jobId : Uuid}
    {source : String → FlowStep → StepSource} {now seeded : Time} {created : List JobStepRow}
    {planFuel : Nat} {sourceSteps : List JobStepRow} {origin : RestartFrom} {plan : RestartPlan}
    (hplan : planRestart planFuel task.flow sourceSteps origin = some (.ok plan))
    (hcreate : createSteps jsonText defaults jobId source task.flow now = some created) :
    ∃ rows, seedStepsTx seeded plan.carried created = .ok rows ∧
      (∀ r ∈ rows, r.stepName ∈ plan.restartSteps → r ∈ created) ∧
      ∀ env moves rows', exec (takeTurn env task) rows moves = some rows' →
        ∀ seed ∈ plan.carried,
          (∃ r ∈ rows', r ∈ rows ∧ r.stepName = seed.stepName ∧ r.carriedOver = true) ∧
          (∃ src, sourceByName sourceSteps seed.stepName = some src ∧
            Snapshot.outcome rows' seed.stepName =
              if src.status.isTerminal then DepOutcome.fromRow src.status src.skipReason
              else .cancelled) ∧
          (∀ i ∈ rows', i.loopSource ≠ some seed.stepName) ∧
          ∀ fuel job ws ss plan', run env fuel task job rows' ws ss = some plan' →
            ∀ c ∈ plan'.changes, c.target ≠ seed.stepName ∧
              (∀ i, c.target ≠ instanceName seed.stepName i) ∧
              ∀ a ∈ c.inserted, a.stepName ≠ seed.stepName ∧
                a.loopSource ≠ some seed.stepName := by
  have hexact : Exact task.flow sourceSteps origin plan := .of_planRestart hplan
  have hgood := hexact.goodSeeds
  obtain ⟨rows, hok, hseeded⟩ := @seedStepsTx_ok seeded _ _ (createSteps_keyed hcreate)
    hgood.nodup fun seed hseed => by
      obtain ⟨r, hr, hname, -⟩ := (createSteps_sound hcreate).loops.flow _ (hgood.known seed hseed)
      exact ⟨r, hr, hname⟩
  obtain ⟨hdone, hstart⟩ := hseeded.untouched hgood hcreate
  refine ⟨rows, hok, fun r hr hrestart => ?_, fun env moves rows' hexec seed hseed => ?_⟩
  · obtain ⟨a, ha, hrow⟩ := hseeded.origin r hr
    have hname := hrow.stepName
    rcases hrow with ⟨seed, hseed, hseedname, -⟩ | ⟨rfl, -⟩
    · -- the carried and the restarted steps are different steps
      have hnodup := hexact.partition.nodup_iff.mpr task.flow.nodup
      exact absurd (hname.trans hseedname.symm)
        ((List.nodup_append.mp hnodup).2.2 _ hrestart _ (List.mem_map_of_mem hseed))
    · exact ha
  · have hlast : Untouched task (carriedRows plan.carried rows) rows' :=
      exec_invariant (Untouched task (carriedRows plan.carried rows))
        (fun _ _ _ h _ hstep => h.takeTurn hnames hdone hstep) hstart
        (Meets.of_forall (fun _ _ => trivial) _ _) hexec
    obtain ⟨r, hr, hname, -⟩ := hstart.sound.loops.flow _ (hgood.known seed hseed)
    have hcarried : r ∈ carriedRows plan.carried rows := by
      refine List.mem_filter.mpr ⟨hr, decide_eq_true ?_⟩
      rw [hname]
      exact List.mem_map_of_mem hseed
    obtain ⟨a, -, rfl⟩ := hseeded.row hgood.nodup hseed hr hname
    have hkept := hlast.kept _ hcarried
    obtain ⟨src, hsrc, hseedOf⟩ := hexact.seeded seed hseed
    rw [← hname]
    refine ⟨⟨_, hkept, hr, rfl, rfl⟩, ⟨src, ?_, ?_⟩, hlast.alone _ hcarried,
      fun fuel job ws ss plan' hrun c hc => ?_⟩
    · rwa [hname]
    · have hget := (Snapshot.get_eq_some_iff hlast.sound.loops.keyed).mpr ⟨hkept, rfl⟩
      rw [Snapshot.outcome, hget]
      change DepOutcome.fromRow seed.status seed.skipReason = _
      rw [hseedOf, fromRow_seedOf]
    · have hspares := hlast.plan hnames hdone hrun hcarried c hc
      exact ⟨hspares.target, hspares.instances, hspares.inserted⟩

def branchedPlan : RestartPlan where
  origin := .step "a"
  startSteps := ["a"]
  restartSteps := ["a", "b", "c"]
  carried := [⟨"z", .cancelled, none, some carriedCancelledMsg, none⟩]
  carriedFailed := []
  carriedFailedTolerated := []

theorem carried_stable_branchedPlan :
    planRestart 5 branchedFlow branchedRows (.step "a") = some (.ok branchedPlan) ∧
    ∃ rows, seedStepsTx 9 branchedPlan.carried (workRows branchedFlow) = .ok rows ∧
      ∀ env moves rows', exec (takeTurn env ⟨branchedFlow⟩) rows moves = some rows' →
        ∃ r ∈ rows', r ∈ rows ∧ r.stepName = "z" ∧ r.carriedOver = true := by
  have hplan : planRestart 5 branchedFlow branchedRows (.step "a") =
      some (.ok branchedPlan) := by decide +kernel
  have hcreate : createSteps (fun _ => "") {} 1 workSource branchedFlow 0 =
      some (workRows branchedFlow) := by decide +kernel
  obtain ⟨rows, hok, -, hruns⟩ := @carried_stable ⟨branchedFlow⟩ (by decide) _ _ _ _ _ 9 _ _ _ _ _
    hplan hcreate
  refine ⟨hplan, rows, hok, fun env moves rows' hexec => ?_⟩
  exact (hruns env moves rows' hexec _ List.mem_cons_self).1

/-! ## Where the gate or the names differ -/

def numberedFlow : TaskDef :=
  ⟨⟨[("p", { action := "work", forEach := some (.str "[1,2,3]"), sequential := true }),
      ("p[1]", { action := "work" })], by decide⟩⟩

def numberedRows : List JobStepRow :=
  [{ stepName := "p", status := .failed }, { stepName := "p[1]", status := .completed }]

def restartedRows (task : TaskDef) (sourceSteps : List JobStepRow) (step : String) :
    Option (List String × List JobStepRow) := do
  let result ← planRestart (task.flow.keys.length + 1) task.flow sourceSteps (.step step)
  let plan ← result.toOption
  let rows ← (seedStepsTx 9 plan.carried (workRows task.flow)).toOption
  pure (plan.carried.map Seed.stepName, rows)

/--
A step that was still running is carried over as cancelled, and a carried step that is named
like an instance of a loop is named in a plan that expands the loop.
-/
theorem carried_outcome_differs :
    (∃ rows, restartedRows ⟨branchedFlow⟩ branchedRows "a" = some (["z"], rows) ∧
      Snapshot.outcome rows "z" = .cancelled ∧ Snapshot.outcome branchedRows "z" = .pending) ∧
    ∃ rows, restartedRows numberedFlow numberedRows "p" = some (["p[1]"], rows) ∧
      ∃ plan, run literalEnv 3 numberedFlow { jobId := 1 } rows (some {}) {} = some plan ∧
        .promote "p[1]" ∈ plan.changes := by
  refine ⟨?_, ?_⟩
  · have hsome : (restartedRows ⟨branchedFlow⟩ branchedRows "a").any (fun s =>
        s.1 == ["z"] && Snapshot.outcome s.2 "z" == .cancelled &&
          Snapshot.outcome branchedRows "z" == .pending) = true := by decide +kernel
    obtain ⟨⟨names, rows⟩, hrows, h⟩ := (Option.any_eq_true _ _).mp hsome
    simp only [Bool.and_eq_true, beq_iff_eq] at h
    obtain ⟨⟨rfl, hz⟩, hsource⟩ := h
    exact ⟨rows, hrows, hz, hsource⟩
  · have hsome : (restartedRows numberedFlow numberedRows "p").any (fun s => s.1 == ["p[1]"] &&
        (run literalEnv 3 numberedFlow { jobId := 1 } s.2 (some {}) {}).any fun plan =>
          plan.changes.contains (.promote "p[1]")) = true := by decide +kernel
    obtain ⟨⟨names, rows⟩, hrows, h⟩ := (Option.any_eq_true _ _).mp hsome
    simp only [Bool.and_eq_true, beq_iff_eq] at h
    obtain ⟨rfl, hrun⟩ := h
    obtain ⟨plan, hplan, hmem⟩ := (Option.any_eq_true _ _).mp hrun
    exact ⟨rows, hrows, plan, hplan, by simpa using hmem⟩

end Stroem.Restart
