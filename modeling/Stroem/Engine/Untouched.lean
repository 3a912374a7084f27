import Stroem.Cascade.Order
import Stroem.Engine.Progress

/-!
# Steps that are finished from the start

A flow step that is finished, and that no loop was expanded from, takes no part in a run: no
plan moves it or inserts instances for it, and no worker writes to it.
-/

namespace Stroem.Engine

open Foundation JobStepRepo Cascade

/-! ## Worker writes -/

variable {rows : List JobStepRow} {r : JobStepRow}

theorem Update.mem_run_of_guard {u : Update JobStepRow} (hr : r ∈ rows)
    (hguard : u.guard r = false) : r ∈ u.run rows :=
  Update.mem_run.mpr ⟨r, hr, by simp [hguard]⟩

private theorem mem_releaseClaim {jobStatus : JobStatus} {step : String} {claim : ClaimIdentity}
    {retryAfter : Nat} {maxReleases : Int32} {now : Time} (hr : r ∈ rows)
    (hne : r.stepName ≠ step) (hterm : r.status.isTerminal = true) :
    r ∈ (releaseClaim jobStatus step claim retryAfter maxReleases now rows).2 := by
  unfold releaseClaim
  split
  · exact hr
  split
  · refine Update.mem_run_of_guard (Update.mem_run_of_guard hr ?_) ?_
    · simpa [cancelStep] using hne
    · cases hs : r.status <;> simp_all [cancelPendingSteps, StepStatus.isTerminal]
  split
  · exact hr
  · exact Update.mem_run_of_guard hr (by simpa [releaseStep] using hne)

private theorem mem_failOrRetry {step error : String} {expected : List StepStatus}
    {delayFor : JobStepRow → Nat} {claim : Option ClaimIdentity} {now : Time} (hr : r ∈ rows)
    (hne : r.stepName ≠ step) :
    r ∈ (failOrRetry step error expected delayFor claim now rows).2 := by
  have hretry : ∀ retryAt, r ∈ (scheduleRetry step error retryAt now).run rows :=
    fun retryAt => Update.mem_run_of_guard hr (by simpa [scheduleRetry] using hne)
  have hfail : r ∈ (markFailed step error now).run rows :=
    Update.mem_run_of_guard hr (by simpa [markFailed] using hne)
  unfold failOrRetry
  split
  · exact hr
  split
  · exact hr
  split
  · split
    · exact hretry _
    · exact hfail
  · exact hfail

private theorem mem_deferredWrite {u : Update JobStepRow} {jobStatus : JobStatus} (hr : r ∈ rows)
    (hguard : u.guard r = false) : r ∈ (deferredWrite u jobStatus rows).2 := by
  unfold deferredWrite
  split
  · exact hr
  · exact Update.mem_run_of_guard hr hguard

theorem mem_rowsAfter {now : Time} {jobStatus : JobStatus} {w : Write} {step : String}
    (htarget : w.target = some step) (hr : r ∈ rows) (hne : r.stepName ≠ step)
    (hterm : r.status.isTerminal = true) : r ∈ rowsAfter now jobStatus rows w := by
  cases w with
  | releaseClaim name claim retryAfter maxReleases =>
    cases htarget
    exact mem_releaseClaim hr hne hterm
  | failOrRetry name error report delaySecs =>
    cases htarget
    exact mem_failOrRetry hr hne
  | resolveDeferred name token resolved =>
    cases htarget
    exact mem_deferredWrite hr (by simp [writeResolved, isDeferredReady, hne])
  | failDeferred name token error =>
    cases htarget
    exact mem_deferredWrite hr (by simp [writeDeferredFailure, isDeferredReady, hne])
  | cancelPendingSteps => cases htarget
  | cancelServerManagedSteps => cases htarget
  | failNonTerminalSteps error => cases htarget
  | applyPlan plan => cases htarget
  | _ =>
    cases htarget
    refine Update.mem_run_of_guard hr ?_
    simp [claimReadyStep, markRunning, markCompleted, markFailed, markSkipped, markCancelled,
      approveStep, markSuspended, storeApprovalMessage, suspendAgentStep, updateAgentState,
      reReadyAgentStep, updateInput, claimTaskDispatch, failTaskDispatch, stampTaskPin,
      takeResolveLease, renewResolveLease, isDeferredReady, hne]

/-! ## Finished steps along a cascade -/

structure Spares (r : JobStepRow) (c : Change) : Prop where
  target : c.target ≠ r.stepName
  instances : ∀ i, c.target ≠ instanceName r.stepName i
  inserted : ∀ a ∈ c.inserted, a.stepName ≠ r.stepName ∧ a.loopSource ≠ some r.stepName

structure Untouched (task : TaskDef) (done rows : List JobStepRow) : Prop where
  sound : Sound task rows
  kept : ∀ r ∈ done, r ∈ rows
  alone : ∀ r ∈ done, ∀ i ∈ rows, i.loopSource ≠ some r.stepName

def Done (done : List JobStepRow) : Prop :=
  ∀ r ∈ done, r.status.isTerminal = true ∧ r.loopSource = none

section Cascade

variable {env : TemplateEnv} {task : TaskDef} {job : JobRow} {ws : Option WorkspaceConfig}
  {ss : Snapshots} {done rows : List JobStepRow}

theorem Untouched.spares (hnames : ∀ name ∈ task.flow.keys, '[' ∉ name.toList)
    (hdone : Done done) (h : Untouched task done rows) {c : Change} (hc : Moves rows c)
    {r : JobStepRow} (hr : r ∈ done) : Spares r c := by
  have hflow := hnames _ (h.sound.steps r (h.kept r hr) (hdone r hr).2)
  have htarget : c.target ≠ r.stepName := fun heq =>
    not_target_of_terminal h.sound.loops.keyed hc (h.kept r hr) (hdone r hr).1 heq.symm
  refine ⟨htarget, fun i heq => ?_, fun a ha => ⟨fun heq => ?_, fun heq => ?_⟩⟩
  · obtain ⟨t, ht, htname, -⟩ := hc.target_mem h.sound.loops.keyed
    cases hsource : t.loopSource with
    | none =>
      have hbracket := hnames _ (h.sound.steps t ht hsource)
      rw [htname, heq] at hbracket
      exact hbracket (bracket_mem_instanceName r.stepName i)
    | some p =>
      obtain ⟨-, k, -, hname, -⟩ := h.sound.loops.index t ht p hsource
      rw [(instanceName_inj (hname.symm.trans (htname.trans heq))).1] at hsource
      exact h.alone r hr t ht hsource
  · obtain ⟨-, ⟨i, hname⟩, -⟩ := hc.instances a ha
    rw [← heq, hname] at hflow
    exact hflow (bracket_mem_instanceName c.target i)
  · exact htarget (Option.some.inj ((hc.instances a ha).1.symm.trans heq))

theorem Untouched.apply (hnames : ∀ name ∈ task.flow.keys, '[' ∉ name.toList)
    (hdone : Done done) (h : Untouched task done rows) {c : Change} (hc : Moves rows c)
    {jobId : Uuid} (hground : Grounded task jobId rows c) :
    Untouched task done (Snapshot.apply rows c) := by
  refine ⟨h.sound.apply hnames hc hground, fun r hr => ?_, fun r hr i hi => ?_⟩
  · have hspares := h.spares hnames hdone hc hr
    exact (Snapshot.mem_apply h.sound.loops.keyed).mpr
      (.inr (.inl ⟨h.kept r hr, fun heq => hspares.target heq.symm⟩))
  · rcases (Snapshot.mem_apply h.sound.loops.keyed).mp hi with ⟨t, ht, -, rfl⟩ | ⟨hi, -⟩ | hi
    · simpa using h.alone r hr t ht
    · exact h.alone r hr i hi
    · exact ((h.spares hnames hdone hc hr).inserted i hi).2

theorem Untouched.batches (hnames : ∀ name ∈ task.flow.keys, '[' ∉ name.toList)
    (hdone : Done done) (h : Untouched task done rows) {cs : List Change}
    {last : List JobStepRow} (hb : Batches env task job ws ss rows cs last) :
    Untouched task done last :=
  hb.invariant (Untouched task done)
    (fun _ _ _ hs hc hground => hs.apply hnames hdone hc hground) h.sound.loops.keyed
    (h.sound.unexpanded hnames).noCollision h

theorem Untouched.plan (hnames : ∀ name ∈ task.flow.keys, '[' ∉ name.toList)
    (hdone : Done done) (h : Untouched task done rows) {fuel : Nat} {plan : Plan}
    (hrun : run env fuel task job rows ws ss = some plan) {r : JobStepRow} (hr : r ∈ done) :
    ∀ c ∈ plan.changes, Spares r c := by
  intro c hc
  obtain ⟨cs, hcs, rfl⟩ := Option.map_eq_some_iff.mp hrun
  obtain ⟨f, hf, hredact⟩ := redactChanges_eq_map env ws
  simp only [hredact] at hc
  obtain ⟨d, hd, rfl⟩ := List.mem_map.mp hc
  obtain ⟨last, hb⟩ := runLoop_batches hcs
  obtain ⟨pre, batch, post, mid, -, hpre, hbatch, hdb⟩ := hb.of_mem hd
  have hmid := h.batches hnames hdone hpre
  have hmoves := hbatch.moves hmid.sound.loops.keyed
    (hmid.sound.unexpanded hnames).noCollision d hdb
  obtain ⟨htarget, hinstances, hinserted⟩ := hmid.spares hnames hdone hmoves hr
  exact ⟨by rwa [(hf d).1], by rwa [(hf d).1], by rwa [(hf d).2]⟩

theorem Untouched.takeTurn (hnames : ∀ name ∈ task.flow.keys, '[' ∉ name.toList)
    (hdone : Done done) (h : Untouched task done rows) {m : Move} {rows' : List JobStepRow}
    (hstep : takeTurn env task rows m = some rows') : Untouched task done rows' := by
  have hsound := h.sound.takeTurn hnames hstep
  cases m with
  | work e =>
    simp only [Engine.takeTurn] at hstep
    split at hstep
    case isFalse => cases hstep
    case isTrue hlegal =>
      cases hstep
      have hw : e.write.isCascade = false := by
        simp only [legalWork, Bool.and_eq_true, Bool.not_eq_true'] at hlegal
        exact hlegal.1
      refine ⟨hsound, fun r hr => ?_, fun r hr i hi => ?_⟩
      · simp only [legalWork, Bool.and_eq_true, Option.any_eq_true, List.all_eq_true,
          Bool.or_eq_true, bne_iff_ne, ne_eq] at hlegal
        obtain ⟨-, step, htarget, hall⟩ := hlegal
        have hlive := hall r (h.kept r hr)
        rw [(hdone r hr).1] at hlive
        have hne : r.stepName ≠ step := hlive.resolve_right (by simp)
        exact mem_rowsAfter htarget (h.kept r hr) hne (hdone r hr).1
      · obtain ⟨a, ha, heffect⟩ := mem_of_forall₂_right
          (rowsAfter_spec h.sound.loops.keyed hw) hi
        rw [heffect.keeps.loopSource]
        exact h.alone r hr a ha
  | cascade now jobStatus fuel job ws ss =>
    obtain ⟨plan, hrun, rfl⟩ := Option.map_eq_some_iff.mp hstep
    rcases rowsAfter_applyPlan now jobStatus plan h.sound.loops.keyed with heq | heffect
    · rwa [heq]
    · refine ⟨hsound, fun r hr => ?_, fun r hr i hi => ?_⟩
      · obtain ⟨r', hr', hmoved⟩ := heffect.kept r (h.kept r hr)
        rwa [hmoved.of_terminal (hdone r hr).1] at hr'
      · rcases heffect.origin i hi with ⟨a, ha, hmoved⟩ | ⟨new, hnew, hmoved⟩
        · rw [hmoved.keeps.loopSource]
          exact h.alone r hr a ha
        · obtain ⟨c, hc, hnew⟩ := List.mem_flatMap.mp hnew
          have hspares := h.plan hnames hdone hrun hr c hc
          rw [hmoved.keeps.loopSource]
          cases c with
          | expand p instances =>
            exact (hspares.inserted _ (List.mem_map_of_mem hnew)).2
          | _ => cases hnew

end Cascade

end Stroem.Engine
