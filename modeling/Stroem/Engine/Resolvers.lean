import Stroem.Engine.Stamps

/-!
# One commit per ref

Resolvers of one job run side by side: each reads `job_ref_pin`, asks the remote, which may
answer differently every time, writes what it found unless another has written first, and
stamps a step row.  A row is stamped only with what the table says, and the table only grows.
-/

namespace Stroem.Engine

open Foundation JobStepRepo JobCreation Cascade RefPins

inductive SelectFor where
  | deferredStep (step : JobStepRow)
  | taskStep (step : JobStepRow) (taskRef : String)
  deriving DecidableEq

namespace SelectFor

def step : SelectFor → JobStepRow
  | .deferredStep step | .taskStep step _ => step

def owner (w : Workspaces) (job : JobPins) : SelectFor → Option String
  | .deferredStep step => some (step.actionWorkspace.getD job.workspace)
  | .taskStep step taskRef =>
    (planAtRef w (step.actionWorkspace.getD job.workspace) taskRef).map Prod.fst

end SelectFor

/-- Where a resolver is; `left` counts the attempts of a loop, `written` its half-done insert. -/
inductive Resolver where
  | idle
  | selecting (purpose : SelectFor) (owner value commit : String) (left : Nat) (written : Bool)
  | building (step : JobStepRow) (value : Option String) (left : Nat)
  | confirming (step : JobStepRow) (value : Option String) (row : NewJobStep) (todo : RefMemo)
      (agreed : Bool) (left : Nat) (written : Bool)
  | resolved (step : String) (row : NewJobStep)
  | stamping (step : String) (pin : TaskPin)

structure PinnedJob where
  job : JobPins
  engine : State
  pins : RefMemo
  resolvers : Nat → Resolver := fun _ => .idle

inductive PinAction where
  | write (event : Event)
  | cascade (env : TemplateEnv) (task : TaskDef) (now : Time) (jobStatus : JobStatus)
      (read fuel : Nat) (job : JobRow) (workspaceConfig : Option WorkspaceConfig)
      (snapshots : Snapshots)
  | stop (i : Nat)
  | select (i : Nat) (purpose : SelectFor) (w : Workspaces) (value : String)
  | insert (i : Nat)
  | fetch (i : Nat)
  | noRef (i : Nat) (step : JobStepRow)
  | build (i : Nat) (w : Workspaces) (config : RefConfig) (fs : FlowStep) (order : RefMemo)
  | conclude (i : Nat)
  | resolve (i : Nat) (now : Time) (jobStatus : JobStatus) (token : Uuid)
  | inherit (i : Nat) (step : JobStepRow) (w : Workspaces) (baseConfig : RefConfig)
      (taskRef : String)
  | stamp (i : Nat) (now : Time) (jobStatus : JobStatus)

def attempts : Nat := 3

namespace PinnedJob

def wasRow (s : PinnedJob) (step : JobStepRow) : Bool :=
  s.engine.seen.any fun rows => rows.contains step

def setResolver (s : PinnedJob) (i : Nat) (r : Resolver) : PinnedJob :=
  { s with resolvers := Function.update s.resolvers i r }

def firstCommit (s : PinnedJob) (w : Workspaces) (owner value : String) : Option String :=
  (s.pins.lookup (owner, value)).or (w.resolve owner value)

def selected (purpose : SelectFor) (owner value commit : String) : Resolver :=
  match purpose with
  | .deferredStep step => .building step (some value) attempts
  | .taskStep step _ => .stamping step.stepName ⟨owner, value, commit⟩

def fetched (s : PinnedJob) (i : Nat) : Option Resolver :=
  match s.resolvers i with
  | .selecting purpose owner value commit (left + 1) true => do
      let stored ← s.pins.lookup (owner, value)
      if stored = commit then pure (selected purpose owner value commit)
      else pure (.selecting purpose owner value stored left false)
  | .confirming step value row (entry :: todo) agreed left true => do
      let stored ← s.pins.lookup entry.1
      pure (.confirming step value row todo (agreed && stored == entry.2) left false)
  | _ => none

section Act

variable (jsonText : Json → String) (defaults : JobDefaults)

def act (s : PinnedJob) : PinAction → Option PinnedJob
  | .write e =>
    if e.write.stamps then none
    else some { s with
      engine := s.engine.push (rowsAfter e.now e.jobStatus s.engine.rows e.write) }
  | .cascade env task now jobStatus read fuel job workspaceConfig snapshots =>
    s.engine.seen[read]?.bind fun steps =>
      (Cascade.run env fuel task job steps workspaceConfig snapshots).map fun plan =>
        { s with
          engine := s.engine.push (rowsAfter now jobStatus s.engine.rows (.applyPlan plan)) }
  | .stop i => some (s.setResolver i .idle)
  | .select i purpose w value =>
    if s.wasRow purpose.step then do
      let owner ← purpose.owner w s.job
      let commit ← s.firstCommit w owner value
      pure (s.setResolver i (.selecting purpose owner value commit attempts false))
    else none
  | .insert i =>
    match s.resolvers i with
    | .selecting purpose owner value commit (left + 1) false =>
      some ({ s with pins := insertFirst s.pins (owner, value) commit }.setResolver i
        (.selecting purpose owner value commit (left + 1) true))
    | .confirming step value row (entry :: todo) agreed left false =>
      some ({ s with pins := insertFirst s.pins entry.1 entry.2 }.setResolver i
        (.confirming step value row (entry :: todo) agreed left true))
    | _ => none
  | .fetch i => (s.fetched i).map (s.setResolver i)
  | .noRef i step =>
    if s.wasRow step then some (s.setResolver i (.building step none attempts)) else none
  | .build i w config fs order =>
    match s.resolvers i with
    | .building step value (left + 1) => do
        -- an unpinned job is resolved against the config as it is now
        let (row, memo) ← buildRow jsonText defaults w { s.job with config := config } step fs
          value s.pins
        if order.isPerm memo then
          pure (s.setResolver i (.confirming step value row order true left false))
        else none
    | _ => none
  | .conclude i =>
    match s.resolvers i with
    | .confirming step value row [] agreed left _ =>
      some (s.setResolver i
        (if agreed then .resolved step.stepName row else .building step value left))
    | _ => none
  | .resolve i now jobStatus token =>
    match s.resolvers i with
    | .resolved step row =>
      some ({ s with
        engine := s.engine.push
          (rowsAfter now jobStatus s.engine.rows (.resolveDeferred step token row)) }.setResolver
            i .idle)
    | _ => none
  | .inherit i step w baseConfig taskRef =>
    if s.wasRow step then do
      let pin ← noRefTask w s.job step baseConfig taskRef
      pure (s.setResolver i (.stamping step.stepName pin))
    else none
  | .stamp i now jobStatus =>
    match s.resolvers i with
    | .stamping step pin =>
      some ({ s with
        engine := s.engine.push
          (rowsAfter now jobStatus s.engine.rows (.stampTaskPin step pin)) }.setResolver i .idle)
    | _ => none

end Act

end PinnedJob

def createPinnedJob (jsonText : Json → String) (defaults : JobDefaults) (w : Workspaces)
    (job : JobPins) (flow : Flow) (now : Time) : Option PinnedJob :=
  (createPinned jsonText defaults w job flow now).map fun (rows, pins) =>
    { job := job, engine := .start rows, pins := pins }

/-! ## What a resolver knows -/

def Resolver.Agrees (pins : RefMemo) (ws : String) : Resolver → Prop
  | .idle | .selecting _ _ _ _ _ _ | .building _ _ _ => True
  | .confirming _ _ row todo agreed _ _ =>
    agreed = true → ∀ pin ∈ newStamps ws row, pin ∈ todo ∨ pins.lookup pin.1 = some pin.2
  | .resolved _ row => Recorded pins (newStamps ws row)
  | .stamping _ pin => Recorded pins (taskStamp (some pin))

theorem Resolver.Agrees.mono {pins pins' : RefMemo} {ws : String} {r : Resolver}
    (h : r.Agrees pins ws) (hext : Extends pins pins') : r.Agrees pins' ws := by
  cases r with
  | confirming step value row todo agreed left written =>
    exact fun hagreed pin hpin => (h hagreed pin hpin).imp id (hext _ _)
  | resolved step row => exact Recorded.mono h hext
  | stamping step pin => exact Recorded.mono h hext
  | _ => trivial

structure Pinned (s : PinnedJob) : Prop where
  rows : ∀ rows ∈ s.engine.seen, RowsRecorded s.pins s.job.workspace rows
  jobPin : PinRecorded s.pins s.job.workspace s.job.jobPin
  resolvers : ∀ i, (s.resolvers i).Agrees s.pins s.job.workspace

namespace Pinned

variable {s : PinnedJob}

theorem setResolver (h : Pinned s) (i : Nat) {r : Resolver}
    (hr : r.Agrees s.pins s.job.workspace) : Pinned (s.setResolver i r) := by
  refine ⟨h.rows, h.jobPin, fun j => ?_⟩
  by_cases hj : j = i
  · subst hj
    simpa [PinnedJob.setResolver] using hr
  · simpa [PinnedJob.setResolver, hj] using h.resolvers j

theorem push (h : Pinned s) {rows : List JobStepRow}
    (hrows : RowsRecorded s.pins s.job.workspace rows) :
    Pinned { s with engine := s.engine.push rows } := by
  refine ⟨fun rows' hmem => ?_, h.jobPin, h.resolvers⟩
  rcases List.mem_cons.mp hmem with rfl | hmem
  · exact hrows
  · exact h.rows rows' hmem

theorem insert (h : Pinned s) (key : String × String) (commit : String) :
    Pinned { s with pins := insertFirst s.pins key commit } := by
  have hext := extends_insertFirst s.pins key commit
  exact ⟨fun rows hrows => (h.rows rows hrows).mono hext, h.jobPin.mono hext,
    fun i => (h.resolvers i).mono hext⟩

theorem present (h : Pinned s) : RowsRecorded s.pins s.job.workspace s.engine.rows :=
  h.rows _ List.mem_cons_self

theorem wasRow (h : Pinned s) {step : JobStepRow} (hstep : s.wasRow step = true) :
    Recorded s.pins (stamps s.job.workspace step) := by
  obtain ⟨rows, hrows, hmem⟩ := List.any_eq_true.mp hstep
  exact h.rows rows hrows step (List.contains_iff_mem.mp hmem)

end Pinned

/-! ## One step -/

theorem buildRow_spec {jsonText : Json → String} {defaults : JobDefaults} {w : Workspaces}
    {job : JobPins} {step : JobStepRow} {fs : FlowStep} {value : Option String}
    {pins memo : RefMemo} {row : NewJobStep} (hjob : PinRecorded pins job.workspace job.jobPin)
    (h : buildRow jsonText defaults w job step fs value pins = some (row, memo)) :
    Recorded memo (newStamps job.workspace row) := by
  simp only [buildRow, Option.bind_eq_bind, Option.bind_eq_some_iff, Prod.exists] at h
  obtain ⟨found, memo', hresolve, row', hbuild, h⟩ := h
  split at h
  · cases h
    have hmemo : PinRecorded (insertAllFirst [] pins) job.workspace job.jobPin := by
      intro p hp
      rw [lookup_insertAllFirst_nil]
      exact hjob p hp
    have hstamps : newStamps job.workspace { row' with status := .ready } =
        newStamps job.workspace row' := rfl
    rw [hstamps, buildStep_stamps hbuild]
    exact (resolveStepRow_spec hmemo hresolve).2
  · cases h

theorem noRefTask_spec {w : Workspaces} {job : JobPins} {step : JobStepRow}
    {baseConfig : RefConfig} {taskRef : String} {pins : RefMemo} {pin : TaskPin}
    (hjob : PinRecorded pins job.workspace job.jobPin)
    (hstep : Recorded pins (stamps job.workspace step))
    (h : noRefTask w job step baseConfig taskRef = some pin) :
    Recorded pins (taskStamp (some pin)) := by
  simp only [noRefTask, Option.bind_eq_bind, Option.bind_eq_some_iff, Prod.exists] at h
  obtain ⟨ws, name, found, memo, hresolve, p, rfl, h⟩ := h
  split at h
  · cases h
  · cases h
    obtain ⟨-, hpin⟩ := resolveTaskForStep_noRef hresolve
    obtain ⟨rfl, hbase⟩ := hpin p rfl
    refine recorded_taskStamp fun p' hp' => ?_
    cases hp'
    unfold basePin at hbase
    split at hbase
    case h_1 actionPin haction =>
      cases hbase
      simp only [stepActionPin, Option.bind_eq_bind, Option.bind_eq_some_iff] at haction
      obtain ⟨gitRef, hgitRef, commit, hcommit, hp⟩ := haction
      cases hp
      refine hstep ((step.actionWorkspace.getD job.workspace, gitRef), commit) ?_
      simp [stamps, pinStamp, hgitRef, hcommit]
    case h_2 hworkspace =>
      rw [hworkspace]
      exact hjob p hbase
    case h_3 => cases hbase

theorem RowsRecorded.resolveDeferred {pins : RefMemo} {ws : String} {rows : List JobStepRow}
    {row : NewJobStep} (h : RowsRecorded pins ws rows) (hrow : Recorded pins (newStamps ws row))
    (now : Time) (jobStatus : JobStatus) (step : String) (token : Uuid) :
    RowsRecorded pins ws (Engine.rowsAfter now jobStatus rows
      (.resolveDeferred step token row)) := by
  simp only [Engine.rowsAfter, resolveDeferredTx, deferredWrite]
  split
  · exact h
  · intro r hr
    obtain ⟨r₀, hr₀, rfl⟩ := Update.mem_run.mp hr
    split
    · exact hrow
    · exact h r₀ hr₀

theorem RowsRecorded.stampTaskPin {pins : RefMemo} {ws : String} {rows : List JobStepRow}
    {pin : TaskPin} (h : RowsRecorded pins ws rows) (hpin : Recorded pins (taskStamp (some pin)))
    (now : Time) (jobStatus : JobStatus) (step : String) :
    RowsRecorded pins ws (Engine.rowsAfter now jobStatus rows (.stampTaskPin step pin)) := by
  intro r hr
  obtain ⟨r₀, hr₀, rfl⟩ := Update.mem_run.mp hr
  split
  · refine Recorded.append (fun p hp => ?_) hpin
    exact h r₀ hr₀ p (List.mem_append_left _ hp)
  · exact h r₀ hr₀

section Act

variable {jsonText : Json → String} {defaults : JobDefaults} {s t : PinnedJob}

theorem Pinned.fetched {i : Nat} {r : Resolver} (h : Pinned s) (hfetched : s.fetched i = some r) :
    r.Agrees s.pins s.job.workspace := by
  have hi := h.resolvers i
  unfold PinnedJob.fetched at hfetched
  split at hfetched
  case h_1 purpose owner value commit left hr =>
    simp only [Option.bind_eq_bind, Option.bind_eq_some_iff] at hfetched
    obtain ⟨stored, hstored, hfetched⟩ := hfetched
    split at hfetched
    case isTrue heq =>
      cases hfetched
      subst heq
      cases purpose with
      | deferredStep step => trivial
      | taskStep step taskRef =>
        refine recorded_taskStamp fun p hp => ?_
        cases hp
        exact hstored
    case isFalse =>
      cases hfetched
      trivial
  case h_2 step value row entry todo agreed left hr =>
    simp only [Option.bind_eq_bind, Option.bind_eq_some_iff] at hfetched
    obtain ⟨stored, hstored, hfetched⟩ := hfetched
    cases hfetched
    rw [hr] at hi
    intro hagreed pin hpin
    simp only [Bool.and_eq_true, beq_iff_eq] at hagreed
    rcases hi hagreed.1 pin hpin with hmem | hrecorded
    · rcases List.mem_cons.mp hmem with rfl | hmem
      · exact .inr (hagreed.2 ▸ hstored)
      · exact .inl hmem
    · exact .inr hrecorded
  case h_3 => cases hfetched

theorem Pinned.act {a : PinAction} (h : Pinned s) (hact : s.act jsonText defaults a = some t) :
    Extends s.pins t.pins ∧ Pinned t ∧ t.job = s.job := by
  cases a with
  | write e =>
    simp only [PinnedJob.act] at hact
    split at hact
    · cases hact
    case isFalse hw =>
      cases hact
      exact ⟨.refl _, h.push (h.present.rowsAfter (Bool.eq_false_iff.mpr hw)), rfl⟩
  | cascade env task now jobStatus read fuel job config snapshots =>
    obtain ⟨steps, hsteps, hplan⟩ := Option.bind_eq_some_iff.mp hact
    obtain ⟨plan, hrun, rfl⟩ := Option.map_eq_some_iff.mp hplan
    have hread := h.rows steps (List.mem_of_getElem? hsteps)
    exact ⟨.refl _, h.push (h.present.applyPlan hread hrun),
      rfl⟩
  | stop i =>
    cases hact
    exact ⟨.refl _, h.setResolver i trivial, rfl⟩
  | select i purpose w value =>
    simp only [PinnedJob.act] at hact
    split at hact
    · simp only [Option.bind_eq_bind, Option.bind_eq_some_iff] at hact
      obtain ⟨owner, -, commit, -, hact⟩ := hact
      cases hact
      exact ⟨.refl _, h.setResolver i trivial, rfl⟩
    · cases hact
  | insert i =>
    have hi := h.resolvers i
    simp only [PinnedJob.act] at hact
    split at hact
    case h_1 purpose owner value commit left hr =>
      cases hact
      exact ⟨extends_insertFirst _ _ _, (h.insert _ _).setResolver i trivial, rfl⟩
    case h_2 step value row entry todo agreed left hr =>
      cases hact
      rw [hr] at hi
      exact ⟨extends_insertFirst _ _ _,
        (h.insert _ _).setResolver i (hi.mono (extends_insertFirst _ _ _)), rfl⟩
    case h_3 => cases hact
  | fetch i =>
    obtain ⟨r, hfetched, rfl⟩ := Option.map_eq_some_iff.mp hact
    exact ⟨.refl _, h.setResolver i (h.fetched hfetched), rfl⟩
  | noRef i step =>
    simp only [PinnedJob.act] at hact
    split at hact
    · cases hact
      exact ⟨.refl _, h.setResolver i trivial, rfl⟩
    · cases hact
  | build i w config fs order =>
    simp only [PinnedJob.act] at hact
    split at hact
    case h_1 step value left hr =>
      simp only [Option.bind_eq_bind, Option.bind_eq_some_iff, Prod.exists] at hact
      obtain ⟨row, memo, hbuild, hact⟩ := hact
      split at hact
      case isTrue hperm =>
        cases hact
        let job : JobPins := { s.job with config := config }
        have hjob : PinRecorded s.pins job.workspace job.jobPin := h.jobPin
        have hrow : Recorded memo (newStamps job.workspace row) := buildRow_spec hjob hbuild
        refine ⟨.refl _, h.setResolver i fun _ pin hpin => .inl ?_, rfl⟩
        exact (List.isPerm_iff.mp hperm).mem_iff.mpr (mem_of_lookup (hrow pin hpin))
      case isFalse => cases hact
    case h_2 => cases hact
  | conclude i =>
    have hi := h.resolvers i
    simp only [PinnedJob.act] at hact
    split at hact
    case h_1 step value row agreed left written hr =>
      cases hact
      rw [hr] at hi
      refine ⟨.refl _, h.setResolver i ?_, rfl⟩
      split
      case isTrue hagreed =>
        intro pin hpin
        rcases hi hagreed pin hpin with hmem | hrecorded
        · exact absurd hmem List.not_mem_nil
        · exact hrecorded
      case isFalse => trivial
    case h_2 => cases hact
  | resolve i now jobStatus token =>
    have hi := h.resolvers i
    simp only [PinnedJob.act] at hact
    split at hact
    case h_1 step row hr =>
      cases hact
      rw [hr] at hi
      exact ⟨.refl _, (h.push (h.present.resolveDeferred hi now jobStatus step token)).setResolver
        i trivial, rfl⟩
    case h_2 => cases hact
  | inherit i step w baseConfig taskRef =>
    simp only [PinnedJob.act] at hact
    split at hact
    case isTrue hstep =>
      simp only [Option.bind_eq_bind, Option.bind_eq_some_iff] at hact
      obtain ⟨pin, hpin, hact⟩ := hact
      cases hact
      exact ⟨.refl _, h.setResolver i (noRefTask_spec h.jobPin (h.wasRow hstep) hpin), rfl⟩
    case isFalse => cases hact
  | stamp i now jobStatus =>
    have hi := h.resolvers i
    simp only [PinnedJob.act] at hact
    split at hact
    case h_1 step pin hr =>
      cases hact
      rw [hr] at hi
      exact ⟨.refl _, (h.push (h.present.stampTaskPin hi now jobStatus step)).setResolver
        i trivial, rfl⟩
    case h_2 => cases hact

theorem Pinned.exec {as : List PinAction} (h : Pinned s)
    (hrun : exec (PinnedJob.act jsonText defaults) s as = some t) :
    Extends s.pins t.pins ∧ Pinned t ∧ t.job = s.job := by
  induction as generalizing s with
  | nil =>
    cases hrun
    exact ⟨.refl _, h, rfl⟩
  | cons a as ih =>
    obtain ⟨mid, hact, hrest⟩ := exec_cons_eq_some.mp hrun
    obtain ⟨hext, hmid, hjob⟩ := h.act hact
    obtain ⟨hext', ht, hjob'⟩ := ih hmid hrest
    exact ⟨hext.trans hext', ht, hjob'.trans hjob⟩

theorem createPinnedJob_pinned {w : Workspaces} {job : JobPins} {flow : Flow} {now : Time}
    (h : createPinnedJob jsonText defaults w job flow now = some s) : Pinned s ∧ s.job = job := by
  obtain ⟨⟨rows, pins⟩, hcreate, rfl⟩ := Option.map_eq_some_iff.mp h
  simp only [createPinned, Option.bind_eq_bind, Option.bind_eq_some_iff, Prod.exists] at hcreate
  obtain ⟨steps, memo, hsteps, rows', hrows, hcreate⟩ := hcreate
  cases hcreate
  obtain ⟨hext, hrecorded⟩ := createRows_spec job.pinRecorded_memo hsteps
  have hcopy : Extends memo (insertAllFirst [] memo) := by
    intro k v hk
    rwa [lookup_insertAllFirst_nil]
  have hinserted : createStepsTx steps now [] = .ok rows := by
    cases htx : createStepsTx steps now [] with
    | error e =>
      rw [htx] at hrows
      cases hrows
    | ok rows' =>
      rw [htx] at hrows
      rw [Option.some.inj hrows]
  refine ⟨⟨fun rows' hmem => ?_, job.pinRecorded_memo.mono (hext.trans hcopy), fun _ => trivial⟩,
    rfl⟩
  obtain rfl := List.mem_singleton.mp hmem
  have hnone : RowsRecorded (insertAllFirst [] memo) job.workspace [] :=
    fun r hr => absurd hr List.not_mem_nil
  exact hnone.createStepsTx (fun i hi => (hrecorded i hi).mono hcopy) hinserted

/--
However resolvers interleave, all rows of a job stamped with a ref of a workspace carry one commit
for it, and a recorded pin stays.
-/
theorem one_commit_per_ref {w : Workspaces} {job : JobPins} {flow : Flow} {now : Time}
    {as bs : List PinAction} {u : PinnedJob}
    (hcreate : createPinnedJob jsonText defaults w job flow now = some s)
    (hrun : Foundation.exec (PinnedJob.act jsonText defaults) s as = some t)
    (hrest : Foundation.exec (PinnedJob.act jsonText defaults) t bs = some u) :
    (∀ r ∈ t.engine.rows, ∀ r' ∈ t.engine.rows, ∀ pin ∈ stamps job.workspace r,
      ∀ pin' ∈ stamps job.workspace r', pin.1 = pin'.1 → pin.2 = pin'.2) ∧
    ∀ owner gitRef commit, t.pins.lookup (owner, gitRef) = some commit →
      u.pins.lookup (owner, gitRef) = some commit := by
  obtain ⟨hs, hjob⟩ := createPinnedJob_pinned hcreate
  obtain ⟨-, ht, hjob'⟩ := hs.exec hrun
  obtain ⟨hext, -, -⟩ := ht.exec hrest
  obtain rfl : t.job = job := hjob'.trans hjob
  refine ⟨fun r hr r' hr' pin hpin pin' hpin' hkey => ?_, fun owner gitRef commit => hext _ _⟩
  have hfirst := ht.present r hr pin hpin
  rw [hkey, ht.present r' hr' pin' hpin'] at hfirst
  exact (Option.some.inj hfirst).symm

end Act

/-! ## Two resolvers of a branch that moves -/

def etlAt (commit : String) : Workspaces where
  configured := ["etl"]
  git := ["etl"]
  resolve _ _ := some commit
  ensure _ _ := some ⟨[("build", { action := { actionType := .script } })], []⟩

def etlJob : JobPins :=
  { jobId := 1, workspace := "etl", config := ⟨[], []⟩, taskName := "nightly", jobPin := none }

def branchStep : FlowStep :=
  { action := "build", gitRef := some "\x7b\x7b input.branch \x7d\x7d" }

def branchFlow : Flow :=
  ⟨[("a", branchStep), ("b", branchStep)], by decide⟩

def branchStart : Option PinnedJob :=
  createPinnedJob (fun _ => "") {} (etlAt "c0") etlJob branchFlow 0

def branchRow (i : Nat) : JobStepRow :=
  ((branchStart.map fun s => s.engine.rows).getD []).getD i { stepName := "" }

def finishBranch (i : Nat) (step : String) : List PinAction :=
  [.build i (etlAt "c2") etlJob.config branchStep [(("etl", "dev"), "c1")], .insert i, .fetch i,
    .conclude i, .write ⟨5, .running, .takeResolveLease step 7 60⟩, .resolve i 6 .running 7]

def branchRace : List PinAction :=
  [.select 0 (.deferredStep (branchRow 0)) (etlAt "c1") "dev",
    .select 1 (.deferredStep (branchRow 1)) (etlAt "c2") "dev",
    .insert 0, .insert 1, .fetch 1, .fetch 0, .insert 1, .fetch 1] ++
    finishBranch 1 "b" ++ finishBranch 0 "a"

theorem one_commit_per_ref_branchRace :
    ∃ s t, branchStart = some s ∧
      exec (PinnedJob.act (fun _ => "") {}) s branchRace = some t ∧
      t.engine.rows.map (fun r => stamps "etl" r) =
        [[(("etl", "dev"), "c1")], [(("etl", "dev"), "c1")]] ∧
      ∀ r ∈ t.engine.rows, ∀ r' ∈ t.engine.rows, ∀ pin ∈ stamps etlJob.workspace r,
        ∀ pin' ∈ stamps etlJob.workspace r', pin.1 = pin'.1 → pin.2 = pin'.2 := by
  have hrun : ((branchStart.bind fun s => exec (PinnedJob.act (fun _ => "") {}) s branchRace).map
      fun t => t.engine.rows.map fun r => stamps "etl" r) =
      some [[(("etl", "dev"), "c1")], [(("etl", "dev"), "c1")]] := by
    decide +kernel
  obtain ⟨t, hbind, hstamps⟩ := Option.map_eq_some_iff.mp hrun
  obtain ⟨s, hs, ht⟩ := Option.bind_eq_some_iff.mp hbind
  have hrest : exec (PinnedJob.act (fun _ => "") {}) t [] = some t := rfl
  exact ⟨s, t, hs, ht, hstamps, (one_commit_per_ref hs ht hrest).1⟩

end Stroem.Engine
