import Stroem.Cascade.ApplySpec

/-!
# The fixpoint of the cascade

`Quiet` says, row by row and without mentioning templates, that no phase has anything to do.
Whether a phase is done never depends on the value of the template context, only on whether
there is one; so rows that mirror a fixpoint, however they were stored, are a fixpoint.
-/

namespace Stroem.Cascade

open Foundation

structure Quiet (task : TaskDef) (hasCtx : Bool) (snap : Snapshot) : Prop where
  live : ∀ ph ∈ snap, ph.isPlaceholder = true → ph.status = .running →
    ∀ i ∈ snap, i.loopSource = some ph.stepName →
      ∃ n ∈ snap, n.loopSource = some ph.stepName ∧ n.status.isTerminal = false
  advanced : ∀ ph ∈ snap, ph.isPlaceholder = true → ph.status = .running →
    isSequential task ph.stepName = true →
    ∀ i ∈ snap, i.loopSource = some ph.stepName → i.status.isTerminal = true →
      ∀ idx, i.loopIndex = some idx → ∀ n ∈ snap, n.loopSource = some ph.stepName →
        n.loopIndex = some (idx + 1) → n.status ≠ .pending
  abandoned : ∀ ph ∈ snap, ph.isPlaceholder = true → ph.status = .running →
    isSequential task ph.stepName = true → continuesOnFailure task ph.stepName = false →
    ∀ b ∈ snap, b.loopSource = some ph.stepName → isBad b = true →
      ∀ n ∈ snap, n.loopSource = some ph.stepName → n.status ≠ .pending
  steps : ∀ r ∈ snap, r.status = .pending → r.isPlaceholder = false →
    ∀ fs, task.flow.get r.stepName = some fs →
      gateFor snap fs = .wait ∨
        gateFor snap fs = .open ∧ r.whenCondition.isSome = true ∧ hasCtx = false
  placeholders : hasCtx = true → ∀ r ∈ snap, r.status = .pending → r.isPlaceholder = true →
    ∀ fs, task.flow.get r.stepName = some fs →
      (∀ b ∈ snap, b.stepName ≠ instanceName r.stepName 0) ∧ gateFor snap fs = .wait

/-! ## Each phase -/

variable {snap : Snapshot}

private theorem advanceInstances_eq_nil_iff {p : String} :
    advanceInstances (loopInstances snap p) = [] ↔
      ∀ i ∈ snap, i.loopSource = some p → i.status.isTerminal = true →
        ∀ idx, i.loopIndex = some idx → ∀ n ∈ snap, n.loopSource = some p →
          n.loopIndex = some (idx + 1) → n.status ≠ .pending := by
  simp only [advanceInstances, List.filterMap_eq_nil_iff, List.mem_filter, mem_loopInstances,
    Option.bind_eq_none_iff, Option.map_eq_none_iff, List.find?_eq_none]
  constructor
  · intro h i hi hsource hterm idx hidx n hn hnsource hnidx hpend
    exact h i ⟨⟨hi, hsource⟩, hterm⟩ idx hidx n ⟨hn, hnsource⟩ (by simp [hnidx, hpend])
  · rintro h i ⟨⟨hi, hsource⟩, hterm⟩ idx hidx n ⟨hn, hnsource⟩ hcond
    simp only [Bool.and_eq_true, beq_iff_eq] at hcond
    exact h i hi hsource hterm idx hidx n hn hnsource hcond.1 hcond.2

private theorem rollupInstances_eq_nil_iff {p q : String} :
    rollupInstances q (loopInstances snap p) = [] ↔
      ∃ n ∈ snap, n.loopSource = some p ∧ n.status.isTerminal = false := by
  unfold rollupInstances
  split
  case isTrue hall =>
    simp only [List.cons_ne_nil, false_iff, not_exists, not_and]
    intro n hn hsource
    simp [List.all_eq_true.mp hall n (mem_loopInstances.mpr ⟨hn, hsource⟩)]
  case isFalse hall =>
    simp only [true_iff]
    simp only [List.all_eq_true, not_forall] at hall
    obtain ⟨n, hn, hterm⟩ := hall
    obtain ⟨hmem, hsource⟩ := mem_loopInstances.mp hn
    exact ⟨n, hmem, hsource, by simpa using hterm⟩

theorem rollupPlaceholder_eq_nil_iff {task : TaskDef} {ph : JobStepRow} :
    rollupPlaceholder snap task ph = [] ↔
      (∀ i ∈ snap, i.loopSource = some ph.stepName →
        ∃ n ∈ snap, n.loopSource = some ph.stepName ∧ n.status.isTerminal = false) ∧
      (isSequential task ph.stepName = true →
        ∀ i ∈ snap, i.loopSource = some ph.stepName → i.status.isTerminal = true →
          ∀ idx, i.loopIndex = some idx → ∀ n ∈ snap, n.loopSource = some ph.stepName →
            n.loopIndex = some (idx + 1) → n.status ≠ .pending) ∧
      (isSequential task ph.stepName = true → continuesOnFailure task ph.stepName = false →
        ∀ b ∈ snap, b.loopSource = some ph.stepName → isBad b = true →
          ∀ n ∈ snap, n.loopSource = some ph.stepName → n.status ≠ .pending) := by
  rw [← advanceInstances_eq_nil_iff]
  have hempty : loopInstances snap ph.stepName = [] ↔
      ∀ i ∈ snap, i.loopSource ≠ some ph.stepName := by
    simp only [List.eq_nil_iff_forall_not_mem, mem_loopInstances, not_and]
  unfold rollupPlaceholder
  simp only
  split
  case isTrue hnone =>
    have hnil := List.isEmpty_iff.mp hnone
    have hno := hempty.mp hnil
    simp only [true_iff]
    refine ⟨fun i hi hsource => absurd hsource (hno i hi), fun _ => ?_,
      fun _ _ b hb hsource => absurd hsource (hno b hb)⟩
    rw [hnil]
    rfl
  case isFalse hsome =>
    obtain ⟨i₀, hi₀⟩ := List.exists_mem_of_ne_nil (loopInstances snap ph.stepName)
      fun hnil => hsome (by simp [hnil])
    obtain ⟨hi₀mem, hi₀source⟩ := mem_loopInstances.mp hi₀
    split
    case isTrue hcond =>
      simp only [Bool.and_eq_true, Bool.not_eq_true', List.any_eq_true,
        List.isEmpty_eq_false_iff_exists_mem, List.mem_filter, beq_iff_eq] at hcond
      obtain ⟨⟨⟨hseq, b, hb, hbad⟩, hcof⟩, n, hn, hpend⟩ := hcond
      obtain ⟨hbmem, hbsource⟩ := mem_loopInstances.mp hb
      obtain ⟨hnmem, hnsource⟩ := mem_loopInstances.mp hn
      constructor
      · intro hnil
        have hmem : Change.skip n.stepName .unreachable ∈ ([] : List Change) := by
          rw [← hnil]
          exact List.mem_map_of_mem (List.mem_filter.mpr ⟨hn, by simp [hpend]⟩)
        simp at hmem
      · rintro ⟨-, -, habandoned⟩
        exact absurd hpend (habandoned hseq hcof b hbmem hbsource hbad n hnmem hnsource)
    case isFalse hcond =>
      rw [List.append_eq_nil_iff, rollupInstances_eq_nil_iff, and_comm]
      refine and_congr ⟨fun h _ _ _ => h, fun h => h i₀ hi₀mem hi₀source⟩ ?_
      constructor
      · intro hadvance
        refine ⟨fun hseq => by simpa [hseq] using hadvance, ?_⟩
        intro hseq hcof b hb hbsource hbad n hn hnsource hpend
        apply hcond
        have hany : (loopInstances snap ph.stepName).any isBad = true :=
          List.any_eq_true.mpr ⟨b, mem_loopInstances.mpr ⟨hb, hbsource⟩, hbad⟩
        have hne : (List.filter (fun i => i.status == .pending)
            (loopInstances snap ph.stepName)).isEmpty = false := by
          rw [List.isEmpty_eq_false_iff_exists_mem]
          exact ⟨n, List.mem_filter.mpr ⟨mem_loopInstances.mpr ⟨hn, hnsource⟩, by simp [hpend]⟩⟩
        simp [hseq, hcof, hany, hne]
      · rintro ⟨hadvance, -⟩
        by_cases hseq : isSequential task ph.stepName = true
        · simpa [hseq] using hadvance hseq
        · simp [hseq]

variable {r : JobStepRow}

theorem promoteRow_eq_none_iff {env : TemplateEnv} {task : TaskDef} {ctx : Option Json} :
    promoteRow env task snap ctx r = none ↔
      ∀ fs, task.flow.get r.stepName = some fs →
        gateFor snap fs = .wait ∨
          gateFor snap fs = .open ∧ r.whenCondition.isSome = true ∧ ctx.isSome = false := by
  unfold promoteRow
  cases hfs : task.flow.get r.stepName with
  | none => simp
  | some fs =>
    simp only [Option.some.injEq, forall_eq']
    cases hgate : gateFor snap fs with
    | wait => simp
    | omitted => simp
    | «open» =>
      cases r.whenCondition with
      | none => simp
      | some w =>
        cases ctx with
        | none => simp
        | some c =>
          simp only [reduceCtorEq, Option.isSome_some, Bool.true_eq_false, and_false,
            or_self, iff_false]
          split <;> simp

theorem placeholderRow_eq_none_iff {env : TemplateEnv} {task : TaskDef} {ctx : Json}
    {jobId : Uuid} :
    placeholderRow env task snap ctx jobId r = none ↔
      ∀ fs, task.flow.get r.stepName = some fs →
        (∀ b ∈ snap, b.stepName ≠ instanceName r.stepName 0) ∧ gateFor snap fs = .wait := by
  unfold placeholderRow
  cases hfs : task.flow.get r.stepName with
  | none => simp
  | some fs =>
    simp only [Option.some.injEq, forall_eq', Snapshot.status, Option.isSome_map]
    by_cases hfirst : ∃ b ∈ snap, b.stepName = instanceName r.stepName 0
    · rw [if_pos (Snapshot.get_isSome_iff.mpr hfirst)]
      obtain ⟨b, hb, hname⟩ := hfirst
      simp only [reduceCtorEq, false_iff, not_and]
      exact fun h => absurd hname (h b hb)
    · rw [if_neg fun h => hfirst (Snapshot.get_isSome_iff.mp h)]
      have hall : ∀ b ∈ snap, b.stepName ≠ instanceName r.stepName 0 :=
        fun b hb hname => hfirst ⟨b, hb, hname⟩
      rw [and_iff_right hall]
      cases gateFor snap fs with
      | wait => simp
      | omitted => simp
      | «open» =>
        simp only [reduceCtorEq, iff_false]
        split
        · simp
        · split <;> simp

section Stable

variable {env : TemplateEnv} {task : TaskDef} {job : JobRow} {ws : Option WorkspaceConfig}
  {ss : Snapshots}

theorem stable_iff_quiet {snap : Snapshot} :
    Stable env task job ws ss snap ↔ Quiet task ws.isSome snap := by
  have hctx : (buildCtx job ws ss snap).isSome = ws.isSome := by simp [buildCtx]
  have hrollup : phaseRollup snap task = [] ↔ ∀ ph ∈ snap, ph.isPlaceholder = true →
      ph.status = .running → rollupPlaceholder snap task ph = [] := by
    simp only [phaseRollup, List.flatMap_eq_nil_iff, mem_runningPlaceholders, and_imp]
  have hpromote : promoteBatch env task snap (buildCtx job ws ss snap) = [] ↔
      ∀ r ∈ snap, r.status = .pending → r.isPlaceholder = false →
        promoteRow env task snap (buildCtx job ws ss snap) r = none := by
    simp only [promoteBatch, List.filterMap_eq_nil_iff, mem_pendingSteps, and_imp]
  have hplace : phasePlaceholders env snap task (buildCtx job ws ss snap) job.jobId = [] ↔
      (ws.isSome = true → ∀ r ∈ snap, r.status = .pending → r.isPlaceholder = true →
        ∀ fs, task.flow.get r.stepName = some fs →
          (∀ b ∈ snap, b.stepName ≠ instanceName r.stepName 0) ∧ gateFor snap fs = .wait) := by
    cases ws with
    | none => simp [phasePlaceholders, buildCtx]
    | some cfg =>
      simp only [phasePlaceholders, buildCtx, Option.map_some, List.filterMap_eq_nil_iff,
        mem_pendingPlaceholders, and_imp, placeholderRow_eq_none_iff, Option.isSome_some,
        true_imp_iff]
  constructor
  · rintro ⟨h0, h1, h3⟩
    rw [hrollup] at h0
    rw [hpromote] at h1
    refine ⟨?_, ?_, ?_, ?_, hplace.mp h3⟩
    · exact fun ph hph hp hr => (rollupPlaceholder_eq_nil_iff.mp (h0 ph hph hp hr)).1
    · exact fun ph hph hp hr => (rollupPlaceholder_eq_nil_iff.mp (h0 ph hph hp hr)).2.1
    · exact fun ph hph hp hr => (rollupPlaceholder_eq_nil_iff.mp (h0 ph hph hp hr)).2.2
    · intro r hr hpend hp
      have hnone := promoteRow_eq_none_iff.mp (h1 r hr hpend hp)
      rwa [hctx] at hnone
  · intro h
    refine ⟨hrollup.mpr fun ph hph hp hr => ?_, hpromote.mpr fun r hr hpend hp => ?_,
      hplace.mpr h.placeholders⟩
    · exact rollupPlaceholder_eq_nil_iff.mpr
        ⟨h.live ph hph hp hr, h.advanced ph hph hp hr, h.abandoned ph hph hp hr⟩
    · rw [promoteRow_eq_none_iff, hctx]
      exact h.steps r hr hpend hp

end Stable

/-! ## Rows that mirror a fixpoint -/

variable {rows : List JobStepRow}

theorem Mirrors.mem_left (h : Mirrors rows snap) (hr : r ∈ rows) :
    ∃ r' ∈ snap, r'.visible = r.visible :=
  List.mem_map.mp (h.mem_iff.mp (List.mem_map_of_mem hr))

theorem Mirrors.mem_right (h : Mirrors rows snap) (hr : r ∈ snap) :
    ∃ r' ∈ rows, r'.visible = r.visible :=
  List.mem_map.mp (h.mem_iff.mpr (List.mem_map_of_mem hr))

theorem Mirrors.distinct (h : Mirrors rows snap) (hsnap : Distinct snap) : Distinct rows := by
  have hnames : ∀ l : List JobStepRow,
      l.map JobStepRow.stepName = (l.map JobStepRow.visible).map JobStepRow.stepName := by
    intro l
    rw [List.map_map]
    rfl
  unfold Distinct Keyed at hsnap ⊢
  rw [hnames] at hsnap ⊢
  exact (h.map _).nodup_iff.mpr hsnap

theorem Mirrors.outcome_eq (h : Mirrors rows snap) (hsnap : Distinct snap) (name : String) :
    Snapshot.outcome rows name = snap.outcome name := by
  have hrows := h.distinct hsnap
  unfold Snapshot.outcome
  cases hget : snap.get name with
  | none =>
    have hnone : Snapshot.get rows name = none := by
      rw [Snapshot.get_eq_none_iff] at hget ⊢
      intro r hr hname
      obtain ⟨r', hr', heq⟩ := h.mem_left hr
      exact hget r' hr' ((congrArg JobStepRow.stepName heq).trans hname)
    rw [hnone]
  | some r =>
    obtain ⟨hr, hname⟩ := (Snapshot.get_eq_some_iff hsnap).mp hget
    obtain ⟨r', hr', heq⟩ := h.mem_right hr
    have hget' : Snapshot.get rows name = some r' :=
      (Snapshot.get_eq_some_iff hrows).mpr
        ⟨hr', (congrArg JobStepRow.stepName heq).trans hname⟩
    have hstatus : r'.status = r.status := congrArg (·.status) heq
    have hreason : r'.skipReason = r.skipReason := congrArg (·.skipReason) heq
    simp only [hget', hstatus, hreason]

theorem Mirrors.gateFor_eq (h : Mirrors rows snap) (hsnap : Distinct snap) (fs : FlowStep) :
    gateFor rows fs = gateFor snap fs :=
  gate_congr fun n _ => h.outcome_eq hsnap n

theorem Mirrors.row (h : Mirrors rows snap) (hr : r ∈ rows) :
    ∃ r' ∈ snap, r'.stepName = r.stepName ∧ r'.status = r.status ∧
      r'.isPlaceholder = r.isPlaceholder ∧ r'.loopSource = r.loopSource ∧
      r'.loopIndex = r.loopIndex ∧ r'.whenCondition = r.whenCondition := by
  obtain ⟨r', hr', heq⟩ := h.mem_left hr
  have hexpr : r'.forEachExpr = r.forEachExpr := congrArg (·.forEachExpr) heq
  exact ⟨r', hr', congrArg (·.stepName) heq, congrArg (·.status) heq,
    by simp [JobStepRow.isPlaceholder, hexpr], congrArg (·.loopSource) heq,
    congrArg (·.loopIndex) heq, congrArg (·.whenCondition) heq⟩

theorem Quiet.of_mirrors {task : TaskDef} {hasCtx : Bool} (h : Quiet task hasCtx snap)
    (hsnap : Distinct snap) (hmir : Mirrors rows snap) : Quiet task hasCtx rows where
  live := by
    intro ph hph hplace hrun i hi hsource
    obtain ⟨ph', hph', hname, hst, hp, -⟩ := hmir.row hph
    obtain ⟨i', hi', -, -, -, hsrc, -⟩ := hmir.row hi
    obtain ⟨n, hn, hnsource, hnlive⟩ := h.live ph' hph' (hp.trans hplace) (hst.trans hrun) i' hi'
      (by rw [hsrc, hname, hsource])
    obtain ⟨n', hn', heq⟩ := hmir.mem_right hn
    have hsrc' : n'.loopSource = n.loopSource := congrArg (·.loopSource) heq
    have hst' : n'.status = n.status := congrArg (·.status) heq
    exact ⟨n', hn', by rw [hsrc', hnsource, hname], by rw [hst', hnlive]⟩
  advanced := by
    intro ph hph hplace hrun hseq i hi hsource hterm idx hidx n hn hnsource hnidx
    obtain ⟨ph', hph', hname, hst, hp, -⟩ := hmir.row hph
    obtain ⟨i', hi', -, hist, -, hisrc, hiidx, -⟩ := hmir.row hi
    obtain ⟨n', hn', -, hnst, -, hnsrc, hnidx', -⟩ := hmir.row hn
    rw [← hnst]
    exact h.advanced ph' hph' (hp.trans hplace) (hst.trans hrun) (by rwa [hname]) i' hi'
      (by rw [hisrc, hname, hsource]) (by rwa [hist]) idx (hiidx.trans hidx) n' hn'
      (by rw [hnsrc, hname, hnsource]) (hnidx'.trans hnidx)
  abandoned := by
    intro ph hph hplace hrun hseq hcof b hb hsource hbad n hn hnsource
    obtain ⟨ph', hph', hname, hst, hp, -⟩ := hmir.row hph
    obtain ⟨b', hb', -, hbst, -, hbsrc, -⟩ := hmir.row hb
    obtain ⟨n', hn', -, hnst, -, hnsrc, -⟩ := hmir.row hn
    rw [← hnst]
    exact h.abandoned ph' hph' (hp.trans hplace) (hst.trans hrun) (by rwa [hname])
      (by rwa [hname]) b' hb' (by rw [hbsrc, hname, hsource]) (by simpa [isBad, hbst] using hbad)
      n' hn' (by rw [hnsrc, hname, hnsource])
  steps := by
    intro r hr hpend hplace fs hfs
    obtain ⟨r', hr', hname, hst, hp, -, -, hwhen⟩ := hmir.row hr
    rw [hmir.gateFor_eq hsnap, ← hwhen]
    exact h.steps r' hr' (hst.trans hpend) (hp.trans hplace) fs (by rwa [hname])
  placeholders := by
    intro hctx r hr hpend hplace fs hfs
    obtain ⟨r', hr', hname, hst, hp, -⟩ := hmir.row hr
    obtain ⟨hfirst, hgate⟩ := h.placeholders hctx r' hr' (hst.trans hpend) (hp.trans hplace) fs
      (by rwa [hname])
    refine ⟨fun b hb hbname => ?_, by rwa [hmir.gateFor_eq hsnap]⟩
    obtain ⟨b', hb', hbname', -⟩ := hmir.row hb
    exact hfirst b' hb' (by rw [hbname', hbname, hname])

section Rerun

variable {env : TemplateEnv} {task : TaskDef} {job : JobRow} {ws : Option WorkspaceConfig}
  {ss : Snapshots}

theorem Stable.of_mirrors {rows : List JobStepRow} {snap : Snapshot}
    (h : Stable env task job ws ss snap) (hsnap : Distinct snap) (hmir : Mirrors rows snap) :
    Stable env task job ws ss rows :=
  stable_iff_quiet.mpr ((stable_iff_quiet.mp h).of_mirrors hsnap hmir)

variable (env task job ws ss) in
theorem run_stable {steps : List JobStepRow} (h : Distinct steps) (hno : NoCollision steps) :
    ∃ plan, Returns env task job ws ss steps plan ∧
      Distinct (Snapshot.applyAll steps plan.changes) ∧
      ∀ rows, Mirrors rows (Snapshot.applyAll steps plan.changes) →
        Stable env task job ws ss rows := by
  obtain ⟨cs, last, hrun, hb, hstable⟩ := run_ends env task job ws ss h hno
  obtain ⟨hsteps, hlast⟩ := hb.steps h hno
  have hforget := redactChanges_forget env ws cs
  have hdistinct : Distinct last := hlast ▸ hsteps.distinct h
  have hvisible : Snapshot.visible (Snapshot.applyAll steps (redactChanges env ws cs)) =
      last.visible := by
    rw [hlast]
    exact Snapshot.visible_applyAll_congr rfl hforget
  have hredacted : Distinct (Snapshot.applyAll steps (redactChanges env ws cs)) :=
    (Steps.congr rfl hforget.symm hsteps).distinct h
  exact ⟨_, hrun, hredacted, fun rows hmir =>
    hstable.of_mirrors hdistinct (hmir.of_visible hvisible)⟩

end Rerun

end Stroem.Cascade

/-!
# The pass counter of the cascade

`run` counts its passes and breaks with a warning when the count exceeds the bound it computed
from the rows.  The counted loop below says which of the two ends was taken, and after how many
passes that changed something.
-/

namespace Stroem.Cascade

open Foundation

section Counted

variable (env : TemplateEnv) (task : TaskDef) (job : JobRow) (ws : Option WorkspaceConfig)
  (ss : Snapshots)

variable {env task job ws ss}

end Counted

def shadowedFlow : TaskDef :=
  ⟨⟨[("p", { action := "work", forEach := some (.str "[1,2,3]") }),
      ("p[1]", { action := "work", dependsOn := [.step "q" .any] }),
      ("q", { action := "work", forEach := some (.str "many") })], by decide⟩⟩

end Stroem.Cascade
