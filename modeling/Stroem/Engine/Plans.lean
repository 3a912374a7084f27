import Stroem.Cascade.Soundness
import Stroem.Engine.Statements

/-!
# Plans from older rows

A replica computes a plan from rows it read earlier and applies it to the rows it finds.  When the
plan goes through, the instances it inserts are new, so the rows it was computed from had none of
them and every change in it was a move of the in-memory rows.
-/

/-! ## The in-memory rows along a chain -/

namespace Stroem.Cascade

open Foundation Engine

section Steps

variable {snap : Snapshot} {cs : List Change}

private theorem Moves.planMoved {c : Change} {r : JobStepRow} (h : Distinct snap)
    (hc : Moves snap c) (hr : r ∈ snap) (htarget : r.stepName = c.target) :
    PlanMoved [c] r (c.setRow r) := by
  refine ⟨⟨by simp, by simp, by simp, by simp⟩, .inr ⟨?_, c, List.mem_singleton_self c,
    htarget.symm, rfl⟩⟩
  obtain ⟨t, ht, hname, hstatus⟩ := hc.target_mem h
  obtain rfl := h.eq_of_key hr ht (htarget.trans hname.symm)
  rcases hstatus with haccepts | ⟨hready, -⟩
  · rcases Change.accepts_status haccepts with hs | hs <;> rw [hs] <;> rfl
  · rw [hready]
    rfl

theorem Steps.kept (h : Distinct snap) (hsteps : Steps snap cs) :
    ∀ r ∈ snap, ∃ r' ∈ snap.applyAll cs, PlanMoved cs r r' := by
  intro r hr
  induction cs generalizing snap r with
  | nil => exact ⟨r, hr, .refl [] r⟩
  | cons c cs ih =>
    have hc := hsteps.1
    obtain ⟨r₁, hr₁, hfirst⟩ : ∃ r₁ ∈ snap.apply c, PlanMoved [c] r r₁ := by
      by_cases ht : r.stepName = c.target
      · exact ⟨c.setRow r, (Snapshot.mem_apply h).mpr (.inl ⟨r, hr, ht, rfl⟩),
          hc.planMoved h hr ht⟩
      · exact ⟨r, (Snapshot.mem_apply h).mpr (.inr (.inl ⟨hr, ht⟩)), .refl [c] r⟩
    obtain ⟨r', hr', hrest⟩ := ih (hc.distinct h) hsteps.2 r₁ hr₁
    exact ⟨r', hr', hfirst.trans hrest⟩

theorem Steps.origin (h : Distinct snap) (hsteps : Steps snap cs) :
    ∀ r' ∈ snap.applyAll cs, (∃ r ∈ snap, PlanMoved cs r r') ∨
      ∃ c ∈ cs, ∃ a ∈ c.inserted, PlanMoved cs a r' := by
  intro r' hr'
  induction cs generalizing snap with
  | nil => exact .inl ⟨r', hr', .refl [] r'⟩
  | cons c cs ih =>
    have hc := hsteps.1
    rcases ih (hc.distinct h) hsteps.2 hr' with ⟨r₁, hr₁, hrest⟩ | ⟨d, hd, a, ha, hrest⟩
    · rcases (Snapshot.mem_apply h).mp hr₁ with ⟨r, hr, ht, rfl⟩ | ⟨hr, -⟩ | ha
      · exact .inl ⟨r, hr, (hc.planMoved h hr ht).trans hrest⟩
      · exact .inl ⟨r₁, hr, hrest.mono fun d => List.mem_cons_of_mem c⟩
      · exact .inr ⟨c, List.mem_cons_self, r₁, ha, hrest.mono fun d => List.mem_cons_of_mem c⟩
    · exact .inr ⟨d, List.mem_cons_of_mem c hd, a, ha,
        hrest.mono fun d => List.mem_cons_of_mem c⟩

theorem Steps.done {c : Change} (h : Distinct snap) (hsteps : Steps snap cs) (hc : c ∈ cs) :
    ∃ r ∈ snap.applyAll cs, r.stepName = c.target ∧ r.status ≠ .pending := by
  induction cs generalizing snap with
  | nil => simp at hc
  | cons d cs ih =>
    have hd := hsteps.1
    rcases List.mem_cons.mp hc with rfl | hc
    · obtain ⟨t, ht, hname, -⟩ := hd.target_mem h
      have hmem := (Snapshot.mem_apply h).mpr (.inl ⟨t, ht, hname, rfl⟩)
      obtain ⟨r, hr, hmoved⟩ := hsteps.2.kept (hd.distinct h) _ hmem
      refine ⟨r, hr, hmoved.keeps.stepName.trans (by simpa using hname), fun hpend => ?_⟩
      rw [hmoved.of_pending hpend] at hpend
      exact c.setRow_status_ne_pending t hpend
    · exact ih (hd.distinct h) hsteps.2 hc

theorem Steps.inserted_source {c : Change} {a : JobStepRow} (hsteps : Steps snap cs)
    (hc : c ∈ cs) (ha : a ∈ c.inserted) : a.loopSource = some c.target := by
  induction cs generalizing snap with
  | nil => simp at hc
  | cons d cs ih =>
    rcases List.mem_cons.mp hc with rfl | hc
    · exact (hsteps.1.instances a ha).1
    · exact ih hsteps.2 hc

theorem Steps.pending_of_inserted {c : Change} {a q : JobStepRow} (h : Distinct snap)
    (hsteps : Steps snap cs) (hc : c ∈ cs) (ha : a ∈ c.inserted) (hq : q ∈ snap)
    (hname : q.stepName = c.target) : q.status = .pending := by
  induction cs generalizing snap q with
  | nil => simp at hc
  | cons d cs ih =>
    have hd := hsteps.1
    rcases List.mem_cons.mp hc with rfl | hc
    · obtain ⟨t, ht, htname, hstatus⟩ := hd.target_mem h
      obtain rfl := h.eq_of_key hq ht (hname.trans htname.symm)
      cases c with
      | expand p instances => simpa [Change.accepts] using hstatus
      | _ => simp [Change.inserted] at ha
    · by_cases htarget : q.stepName = d.target
      · have hmem := (Snapshot.mem_apply h).mpr (.inl ⟨q, hq, htarget, rfl⟩)
        have hpend := ih (hd.distinct h) hsteps.2 hc hmem (by simpa using hname)
        exact absurd hpend (d.setRow_status_ne_pending q)
      · exact ih (hd.distinct h) hsteps.2 hc
          ((Snapshot.mem_apply h).mpr (.inr (.inl ⟨hq, htarget⟩))) hname

end Steps

end Stroem.Cascade

/-! ## The chain behind a plan -/

namespace Stroem.Engine

open Foundation JobStepRepo Cascade

section Plan

variable {env : TemplateEnv} {task : TaskDef} {job : JobRow} {ws : Option WorkspaceConfig}
  {ss : Snapshots}

/-- `cs` are the moves behind `plan`, computed from `steps`; only failure texts may differ. -/
structure Behind (env : TemplateEnv) (task : TaskDef) (job : JobRow)
    (ws : Option WorkspaceConfig) (ss : Snapshots) (steps : List JobStepRow) (plan : Plan)
    (cs : List Change) : Prop where
  batches : ∃ last, Batches env task job ws ss steps cs last
  new : InsertsNew steps cs
  of_mem : ∀ c ∈ plan.changes, ∃ c₀ ∈ cs, c₀.forget = c.forget
  to_mem : ∀ c₀ ∈ cs, ∃ c ∈ plan.changes, c.forget = c₀.forget

theorem inserted_eq_newSteps (c : Change) : c.inserted = (newSteps c).map syntheticRow := by
  cases c <;> rfl

theorem Behind.of_run {fuel : Nat} {steps : List JobStepRow} {plan : Plan}
    (hrun : run env fuel task job steps ws ss = some plan)
    (hnew : ∀ i ∈ plan.changes.flatMap newSteps, ∀ r ∈ steps, r.stepName ≠ i.stepName) :
    ∃ cs, Behind env task job ws ss steps plan cs := by
  obtain ⟨cs, hloop, rfl⟩ := Option.map_eq_some_iff.mp hrun
  refine ⟨cs, runLoop_batches hloop, fun c hc a ha r hr => ?_, fun c => mem_redactChanges,
    fun c => mem_of_redactChanges env ws⟩
  obtain ⟨d, hd, heq⟩ := mem_of_redactChanges env ws hc
  have hins : d.inserted = c.inserted := by
    rw [← Change.forget_inserted d, heq, Change.forget_inserted]
  rw [← hins, inserted_eq_newSteps] at ha
  obtain ⟨i, hi, rfl⟩ := List.mem_map.mp ha
  exact hnew i (List.mem_flatMap.mpr ⟨d, hd, hi⟩) r hr

theorem Behind.batch {steps : List JobStepRow} {plan : Plan} {cs : List Change} {c : Change}
    (h : Distinct steps) (hb : Behind env task job ws ss steps plan cs) (hc : c ∈ cs) :
    ∃ pre batch, (∀ d ∈ pre, d ∈ cs) ∧ (∀ d ∈ batch, d ∈ cs) ∧ Steps steps pre ∧
      Batches env task job ws ss steps pre (Snapshot.applyAll steps pre) ∧
      Batch env task job ws ss (Snapshot.applyAll steps pre) batch ∧ c ∈ batch := by
  obtain ⟨last, hbatches⟩ := hb.batches
  obtain ⟨pre, batch, post, mid, rfl, hpre, hbatch, hmem⟩ := hbatches.of_mem hc
  have hnew : InsertsNew steps pre := fun d hd => hb.new d (List.mem_append_left _ hd)
  obtain ⟨hsteps, rfl⟩ := hpre.steps_of_insertsNew h (.refl steps) hnew
  exact ⟨pre, batch, fun d hd => List.mem_append_left _ hd,
    fun d hd => List.mem_append_right _ (List.mem_append_left _ hd), hsteps, hpre, hbatch, hmem⟩

structure NewInstance (task : TaskDef) (p : String) (i : NewJobStep) : Prop where
  flow : p ∈ task.flow.keys
  forEachExpr : i.forEachExpr = none
  loopSource : i.loopSource = some p
  index : ∃ k < maxForEachItems, i.stepName = instanceName p k ∧
    i.loopIndex = some (Int32.ofNat k) ∧
    i.status = if isSequential task p && decide (0 < k) then .pending else .ready

theorem run_expansion {fuel : Nat} {steps : List JobStepRow} {plan : Plan}
    (hrun : run env fuel task job steps ws ss = some plan) {p : String}
    {instances : List NewJobStep} (hc : .expand p instances ∈ plan.changes) :
    ∃ pre mid r fs items, Batches env task job ws ss steps pre mid ∧ r ∈ mid ∧
      r.isPlaceholder = true ∧ r.stepName = p ∧ task.flow.get p = some fs ∧
      items.length ≤ maxForEachItems ∧ instances = expandInstances fs job.jobId r items := by
  obtain ⟨cs, hloop, rfl⟩ := Option.map_eq_some_iff.mp hrun
  obtain ⟨last, hbatches⟩ := runLoop_batches hloop
  obtain ⟨c₀, hc₀, hforget⟩ := mem_redactChanges hc
  obtain rfl : c₀ = .expand p instances := by
    cases c₀ with
    | rollup q outcome => cases outcome <;> cases hforget
    | fail step error => cases hforget
    | _ => exact hforget
  obtain ⟨pre, batch, post, mid, -, hpre, hbatch, hmem⟩ := hbatches.of_mem hc₀
  obtain ⟨r, hr, -, hplace, fs, hfs, hreason⟩ :=
    phasePlaceholders_reason (hbatch.mem_placeholders hmem)
  cases hreason with
  | expand items hgate hnone hne hlen =>
    exact ⟨pre, mid, r, fs, items, hpre, hr, hplace, rfl, hfs, hlen, rfl⟩

theorem run_newSteps {fuel : Nat} {steps : List JobStepRow} {plan : Plan}
    (hrun : run env fuel task job steps ws ss = some plan) {c : Change} (hc : c ∈ plan.changes)
    {i : NewJobStep} (hi : i ∈ newSteps c) :
    asks c = .pending ∧ NewInstance task c.target i := by
  cases c with
  | expand p instances =>
    obtain ⟨pre, mid, r, fs, items, -, -, -, rfl, hfs, hlen, rfl⟩ := run_expansion hrun hc
    obtain ⟨k, hk, rfl⟩ := mem_expandInstances hi
    have hseq : isSequential task r.stepName = fs.sequential := by
      simp [isSequential, hfs]
    exact ⟨rfl, Flow.mem_keys_iff.mpr ⟨fs, hfs⟩, rfl, rfl, k, hk.trans_le hlen, rfl, rfl,
      by simp only [Change.target, hseq]; rfl⟩
  | _ => simp [newSteps] at hi

end Plan

end Stroem.Engine
