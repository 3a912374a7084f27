import Stroem.Cascade.Legality

/-!
# Every change has its reason

What justifies a change of a plan, in the rows at that point of the plan and in the rows the plan
ends in.  Gates decide promotions from the flow, expansions and the skips of unreachable steps;
terminal rows do not move, so a gate that has opened or closed stays as it is.  No gate is asked
for the instances of a sequential loop and for an adoption.
-/

namespace Stroem.Cascade

open Foundation

variable {snap : Snapshot} {cs : List Change} {r : JobStepRow}

def DepsTerminal (snap : Snapshot) (fs : FlowStep) : Prop :=
  ∀ n ∈ collectNames fs.dependsOn, ∃ r, snap.get n = some r ∧ r.status.isTerminal = true

def TreeSatisfied (snap : Snapshot) (fs : FlowStep) : Prop :=
  SatAll (fun n => (snap.outcome n).asSchemaOutcome) fs.dependsOn

theorem outcome_ne_pending_iff {n : String} :
    snap.outcome n ≠ .pending ↔ ∃ r, snap.get n = some r ∧ r.status.isTerminal = true := by
  unfold Snapshot.outcome
  cases snap.get n with
  | none => simp
  | some r => simp [DepOutcome.fromRow_eq_pending_iff]

theorem gateFor_eq_open_iff {fs : FlowStep} :
    gateFor snap fs = .open ↔ DepsTerminal snap fs ∧ TreeSatisfied snap fs := by
  unfold gateFor DepsTerminal TreeSatisfied
  simp only [gate_eq_open_iff, outcome_ne_pending_iff]

theorem gateFor_eq_omitted_iff {fs : FlowStep} :
    gateFor snap fs = .omitted ↔ DepsTerminal snap fs ∧ ¬ TreeSatisfied snap fs := by
  unfold gateFor DepsTerminal TreeSatisfied
  simp only [gate_eq_omitted_iff, outcome_ne_pending_iff]

/-- `name` is an instance of a running sequential placeholder, next to a terminal one. -/
def Released (task : TaskDef) (snap : Snapshot) (name : String) : Prop :=
  ∃ ph ∈ snap, ph.isPlaceholder = true ∧ ph.status = .running ∧
    isSequential task ph.stepName = true ∧
    ∃ i ∈ snap, ∃ n ∈ snap, ∃ idx,
      i.loopSource = some ph.stepName ∧ i.status.isTerminal = true ∧ i.loopIndex = some idx ∧
      n.loopSource = some ph.stepName ∧ n.loopIndex = some (idx + 1) ∧ n.stepName = name

/--
`name` is an instance of a running sequential placeholder that does not continue past a
failure, and another instance is failed or cancelled.
-/
def Abandoned (task : TaskDef) (snap : Snapshot) (name : String) : Prop :=
  ∃ ph ∈ snap, ph.isPlaceholder = true ∧ ph.status = .running ∧
    isSequential task ph.stepName = true ∧ continuesOnFailure task ph.stepName = false ∧
    ∃ b ∈ snap, ∃ n ∈ snap, b.loopSource = some ph.stepName ∧ isBad b = true ∧
      n.loopSource = some ph.stepName ∧ n.stepName = name

/--
The reason of a change.  `atPoint` are the rows the change finds, `final` the rows the plan
ends in.
-/
def Justified (task : TaskDef) (atPoint final : Snapshot) : Change → Prop
  | .promote step =>
    (∃ fs, task.flow.get step = some fs ∧
      (DepsTerminal atPoint fs ∧ TreeSatisfied atPoint fs) ∧
      (DepsTerminal final fs ∧ TreeSatisfied final fs)) ∨
    Released task atPoint step
  | .expand placeholder _ =>
    ∃ fs, task.flow.get placeholder = some fs ∧
      (DepsTerminal atPoint fs ∧ TreeSatisfied atPoint fs) ∧
      (DepsTerminal final fs ∧ TreeSatisfied final fs)
  | .adopt placeholder => ∃ b ∈ atPoint, b.stepName = instanceName placeholder 0
  | .skip step .unreachable =>
    (∃ fs, task.flow.get step = some fs ∧
      (DepsTerminal atPoint fs ∧ ¬ TreeSatisfied atPoint fs) ∧
      (DepsTerminal final fs ∧ ¬ TreeSatisfied final fs)) ∨
    Abandoned task atPoint step
  | .skip _ _ | .fail _ _ | .rollup _ _ => True

/-! ## What a list of moves keeps -/

theorem Steps.gateFor_eq {fs : FlowStep}
    (h : Distinct snap) (hsteps : Steps snap cs) (hgate : gateFor snap fs ≠ .wait) :
    gateFor (snap.applyAll cs) fs = gateFor snap fs := by
  refine gate_congr fun n hn => ?_
  have hout : snap.outcome n ≠ .pending := by
    intro hpend
    exact hgate (gate_eq_wait_iff.mpr ⟨n, hn, hpend⟩)
  obtain ⟨r, hget, hterm⟩ := outcome_ne_pending_iff.mp hout
  simp only [Snapshot.outcome, hget, hsteps.get_terminal h hget hterm]

theorem Steps.mem_terminal
    (h : Distinct snap) (hsteps : Steps snap cs) (hr : r ∈ snap)
    (hterm : r.status.isTerminal = true) : r ∈ snap.applyAll cs := by
  have hget := hsteps.get_terminal h ((Snapshot.get_eq_some_iff h).mpr ⟨hr, rfl⟩) hterm
  exact ((Snapshot.get_eq_some_iff (hsteps.distinct h)).mp hget).1

theorem Steps.mem_untouched
    (h : Distinct snap) (hsteps : Steps snap cs) (hr : r ∈ snap)
    (hother : ∀ c ∈ cs, r.stepName ≠ c.target) : r ∈ snap.applyAll cs := by
  induction cs generalizing snap with
  | nil => exact hr
  | cons c cs ih =>
    refine ih (hsteps.1.distinct h) hsteps.2 ?_ fun d hd => hother d (List.mem_cons_of_mem _ hd)
    exact (Snapshot.mem_apply h).mpr (.inr (.inl ⟨hr, hother c List.mem_cons_self⟩))

theorem Steps.mem_loop
    (h : Distinct snap) (hsteps : Steps snap cs) (hr : r ∈ snap) :
    ∃ r' ∈ snap.applyAll cs, r'.stepName = r.stepName ∧ r'.loopSource = r.loopSource ∧
      r'.loopIndex = r.loopIndex := by
  refine hsteps.invariant (fun s => ∃ r' ∈ s, r'.stepName = r.stepName ∧
    r'.loopSource = r.loopSource ∧ r'.loopIndex = r.loopIndex) ?_ h ⟨r, hr, rfl, rfl, rfl⟩
  rintro s c hs ⟨r', hr', hname, hsource, hindex⟩ -
  by_cases ht : r'.stepName = c.target
  · exact ⟨c.setRow r', (Snapshot.mem_apply hs).mpr (.inl ⟨r', hr', ht, rfl⟩),
      by simpa using hname, by simpa using hsource, by simpa using hindex⟩
  · exact ⟨r', (Snapshot.mem_apply hs).mpr (.inr (.inl ⟨hr', ht⟩)), hname, hsource, hindex⟩

/-! ## One batch -/

private theorem phaseRollup_spares {task : TaskDef} {ph n : JobStepRow}
    (h : Distinct snap) (hph : ph ∈ snap) (hrun : ph.status = .running) (hn : n ∈ snap)
    (hsource : n.loopSource = some ph.stepName) (hpend : n.status = .pending) :
    ∀ c ∈ phaseRollup snap task, ph.stepName ≠ c.target := by
  intro c hc hname
  obtain ⟨ph', hph', -, -, hreason⟩ := phaseRollup_reason hc
  cases hreason with
  | abandon i bad hseq hcof hb hbs hbad hi his hip =>
    rw [h.eq_of_key hph hi hname, hip] at hrun
    cases hrun
  | advance i m idx hseq hgood hi his hit hidx hm hms hmidx hmp =>
    rw [h.eq_of_key hph hm hname, hmp] at hrun
    cases hrun
  | finish outcome hall =>
    obtain rfl := h.eq_of_key hph hph' hname
    have := hall n hn hsource
    simp [hpend, StepStatus.isTerminal] at this

section Batches

variable {env : TemplateEnv} {task : TaskDef} {job : JobRow} {ws : Option WorkspaceConfig}
  {ss : Snapshots}

theorem Batch.justified {pre post : List Change} {c : Change}
    (h : Distinct snap) (hno : NoCollision snap)
    (hb : Batch env task job ws ss snap (pre ++ c :: post)) :
    Justified task (snap.applyAll pre) (snap.applyAll pre) c := by
  have hsteps : Steps snap pre := (hb.steps h hno).of_append.1
  have hopen : ∀ fs, gateFor snap fs = .open →
      DepsTerminal (snap.applyAll pre) fs ∧ TreeSatisfied (snap.applyAll pre) fs := by
    intro fs hgate
    rw [← gateFor_eq_open_iff, hsteps.gateFor_eq h (by simp [hgate]), hgate]
  have homitted : ∀ fs, gateFor snap fs = .omitted →
      DepsTerminal (snap.applyAll pre) fs ∧ ¬ TreeSatisfied (snap.applyAll pre) fs := by
    intro fs hgate
    rw [← gateFor_eq_omitted_iff, hsteps.gateFor_eq h (by simp [hgate]), hgate]
  have hmem : c ∈ pre ++ c :: post := by simp
  generalize hcs : pre ++ c :: post = cs at hb hmem
  cases hb with
  | rollup =>
    obtain ⟨ph, hph, hplace, hrun, hreason⟩ := phaseRollup_reason hmem
    have hsub : ∀ d ∈ pre, d ∈ phaseRollup snap task := by
      intro d hd
      rw [← hcs]
      exact List.mem_append_left _ hd
    have hspared : ∀ n ∈ snap, n.loopSource = some ph.stepName → n.status = .pending →
        ph ∈ snap.applyAll pre := fun n hn hsource hpend =>
      hsteps.mem_untouched h hph fun d hd =>
        phaseRollup_spares h hph hrun hn hsource hpend d (hsub d hd)
    cases hreason with
    | abandon i bad hseq hcof hb hbs hbad hi his hip =>
      have hterm : bad.status.isTerminal = true := by
        simp only [isBad, Bool.or_eq_true, beq_iff_eq] at hbad
        rcases hbad with hs | hs <;> rw [hs] <;> rfl
      obtain ⟨i', hi', hname, hsource, -⟩ := hsteps.mem_loop h hi
      exact .inr ⟨ph, hspared i hi his hip, hplace, hrun, hseq, hcof, bad,
        hsteps.mem_terminal h hb hterm, i', hi', hbs, hbad, hsource.trans his, hname⟩
    | advance i n idx hseq hgood hi his hit hidx hn hns hnidx hnp =>
      obtain ⟨n', hn', hname, hsource, hindex⟩ := hsteps.mem_loop h hn
      exact .inr ⟨ph, hspared n hn hns hnp, hplace, hrun, hseq, i,
        hsteps.mem_terminal h hi hit, n', hn', idx, his, hit, hidx, hsource.trans hns,
        hindex.trans hnidx, hname⟩
    | finish outcome hall => trivial
  | promote =>
    obtain ⟨r, -, -, -, fs, hfs, hreason⟩ := promoteBatch_reason hmem
    cases hreason with
    | unreachable hgate => exact .inl ⟨fs, hfs, homitted fs hgate, homitted fs hgate⟩
    | promote hgate => exact .inl ⟨fs, hfs, hopen fs hgate, hopen fs hgate⟩
    | condition hgate => trivial
    | error e hgate => trivial
  | placeholders =>
    obtain ⟨r, -, -, -, fs, hfs, hreason⟩ := phasePlaceholders_reason hmem
    cases hreason with
    | adopt b hb hname =>
      obtain ⟨b', hb', hname', -⟩ := hsteps.mem_loop h hb
      exact ⟨b', hb', hname'.trans hname⟩
    | unreachable hgate => exact .inl ⟨fs, hfs, homitted fs hgate, homitted fs hgate⟩
    | retire reason hgate hne =>
      cases reason with
      | unreachable => exact absurd rfl hne
      | _ => trivial
    | error e hgate => trivial
    | expand items hgate hnone hne hlen =>
      exact ⟨fs, hfs, hopen fs hgate, hopen fs hgate⟩

theorem Batches.justified {last : Snapshot} {pre post : List Change} {c : Change}
    (h : Distinct snap) (hno : NoCollision snap)
    (hb : Batches env task job ws ss snap cs last) (hcs : cs = pre ++ c :: post) :
    Justified task (snap.applyAll pre) (snap.applyAll pre) c := by
  induction hb generalizing pre with
  | nil => simp at hcs
  | @cons snap last cs ds hb _ ih =>
    have hsteps := hb.steps h hno
    rcases List.append_eq_append_iff.mp hcs with ⟨mid, rfl, hds⟩ | ⟨mid, rfl, hpost⟩
    · rw [Snapshot.applyAll_append]
      exact ih (hsteps.distinct h) (hsteps.noCollision h hno) hds
    · cases mid with
      | nil =>
        have hfirst := ih (hsteps.distinct h) (hsteps.noCollision h hno)
          (show ds = [] ++ c :: post by simpa using hpost.symm)
        simpa using hfirst
      | cons d mid =>
        obtain ⟨rfl, -⟩ := List.cons.inj hpost
        exact hb.justified h hno

end Batches

/-! ## The whole plan -/

theorem Justified.later {task : TaskDef} {c : Change}
    (h : Distinct snap) (hsteps : Steps snap cs) (hj : Justified task snap snap c) :
    Justified task snap (snap.applyAll cs) c := by
  have hopen : ∀ fs, DepsTerminal snap fs ∧ TreeSatisfied snap fs →
      DepsTerminal (snap.applyAll cs) fs ∧ TreeSatisfied (snap.applyAll cs) fs := by
    intro fs hmet
    have hgate := gateFor_eq_open_iff.mpr hmet
    rw [← gateFor_eq_open_iff, hsteps.gateFor_eq h (by simp [hgate]), hgate]
  have homitted : ∀ fs, DepsTerminal snap fs ∧ ¬ TreeSatisfied snap fs →
      DepsTerminal (snap.applyAll cs) fs ∧ ¬ TreeSatisfied (snap.applyAll cs) fs := by
    intro fs hunmet
    have hgate := gateFor_eq_omitted_iff.mpr hunmet
    rw [← gateFor_eq_omitted_iff, hsteps.gateFor_eq h (by simp [hgate]), hgate]
  cases c with
  | promote step =>
    exact hj.imp (fun ⟨fs, hfs, hmet, _⟩ => ⟨fs, hfs, hmet, hopen fs hmet⟩) id
  | expand p instances =>
    obtain ⟨fs, hfs, hmet, -⟩ := hj
    exact ⟨fs, hfs, hmet, hopen fs hmet⟩
  | skip step reason =>
    cases reason with
    | unreachable =>
      exact hj.imp (fun ⟨fs, hfs, hunmet, _⟩ => ⟨fs, hfs, hunmet, homitted fs hunmet⟩) id
    | _ => trivial
  | adopt p => exact hj
  | fail step error => trivial
  | rollup p outcome => trivial

private theorem Released.congr {task : TaskDef} {snap' : Snapshot} {name : String}
    (hsnap : snap.visible = snap'.visible) (h : Released task snap name) :
    Released task snap' name := by
  obtain ⟨ph, hph, hplace, hrun, hseq, i, hi, n, hn, idx, his, hit, hidx, hns, hnidx, hname⟩ := h
  obtain ⟨ph', hph', heq⟩ := Snapshot.mem_of_visible hsnap.symm hph
  obtain ⟨i', hi', heqi⟩ := Snapshot.mem_of_visible hsnap.symm hi
  obtain ⟨n', hn', heqn⟩ := Snapshot.mem_of_visible hsnap.symm hn
  have hphname : ph'.stepName = ph.stepName := congrArg (·.stepName) heq
  have hexpr : ph'.forEachExpr = ph.forEachExpr := congrArg (·.forEachExpr) heq
  have histatus : i'.status = i.status := congrArg (·.status) heqi
  refine ⟨ph', hph', ?_, (congrArg (·.status) heq).trans hrun, by rwa [hphname], i', hi', n', hn',
    idx, ?_, by rwa [histatus], (congrArg (·.loopIndex) heqi).trans hidx, ?_,
    (congrArg (·.loopIndex) heqn).trans hnidx, (congrArg (·.stepName) heqn).trans hname⟩
  · simpa [JobStepRow.isPlaceholder, hexpr] using hplace
  · rw [hphname]
    exact (congrArg (·.loopSource) heqi).trans his
  · rw [hphname]
    exact (congrArg (·.loopSource) heqn).trans hns

private theorem Abandoned.congr {task : TaskDef} {snap' : Snapshot} {name : String}
    (hsnap : snap.visible = snap'.visible) (h : Abandoned task snap name) :
    Abandoned task snap' name := by
  obtain ⟨ph, hph, hplace, hrun, hseq, hcof, b, hb, n, hn, hbs, hbad, hns, hname⟩ := h
  obtain ⟨ph', hph', heq⟩ := Snapshot.mem_of_visible hsnap.symm hph
  obtain ⟨b', hb', heqb⟩ := Snapshot.mem_of_visible hsnap.symm hb
  obtain ⟨n', hn', heqn⟩ := Snapshot.mem_of_visible hsnap.symm hn
  have hphname : ph'.stepName = ph.stepName := congrArg (·.stepName) heq
  have hexpr : ph'.forEachExpr = ph.forEachExpr := congrArg (·.forEachExpr) heq
  have hbstatus : b'.status = b.status := congrArg (·.status) heqb
  refine ⟨ph', hph', ?_, (congrArg (·.status) heq).trans hrun, by rwa [hphname],
    by rwa [hphname], b', hb', n', hn', ?_, by simpa [isBad, hbstatus] using hbad, ?_,
    (congrArg (·.stepName) heqn).trans hname⟩
  · simpa [JobStepRow.isPlaceholder, hexpr] using hplace
  · rw [hphname]
    exact (congrArg (·.loopSource) heqb).trans hbs
  · rw [hphname]
    exact (congrArg (·.loopSource) heqn).trans hns

theorem Justified.congr {task : TaskDef} {snap' final final' : Snapshot} {c c' : Change}
    (hsnap : snap.visible = snap'.visible) (hfinal : final.visible = final'.visible)
    (hc : c.forget = c'.forget) (hj : Justified task snap final c) :
    Justified task snap' final' c' := by
  have hopen : ∀ {s s' : Snapshot}, s.visible = s'.visible → ∀ {fs},
      DepsTerminal s fs ∧ TreeSatisfied s fs → DepsTerminal s' fs ∧ TreeSatisfied s' fs := by
    intro s s' hs fs hmet
    rwa [← gateFor_eq_open_iff, ← gateFor_congr hs, gateFor_eq_open_iff]
  have homitted : ∀ {s s' : Snapshot}, s.visible = s'.visible → ∀ {fs},
      DepsTerminal s fs ∧ ¬ TreeSatisfied s fs → DepsTerminal s' fs ∧ ¬ TreeSatisfied s' fs := by
    intro s s' hs fs hunmet
    rwa [← gateFor_eq_omitted_iff, ← gateFor_congr hs, gateFor_eq_omitted_iff]
  -- only a failure text may differ between the two changes, and failures are not judged
  have heq : c' = c ∨ Justified task snap' final' c' := by
    cases c' with
    | rollup p outcome => exact .inr trivial
    | fail step error => exact .inr trivial
    | _ =>
      left
      cases c with
      | rollup p outcome => cases outcome <;> cases hc
      | fail step error => cases hc
      | _ => exact hc.symm
  rcases heq with rfl | hdone
  · cases c' with
    | promote step =>
      refine hj.imp (fun ⟨fs, hfs, hmet, hlater⟩ => ?_) fun h => h.congr hsnap
      exact ⟨fs, hfs, hopen hsnap hmet, hopen hfinal hlater⟩
    | expand p instances =>
      obtain ⟨fs, hfs, hmet, hlater⟩ := hj
      exact ⟨fs, hfs, hopen hsnap hmet, hopen hfinal hlater⟩
    | adopt p =>
      obtain ⟨b, hb, hname⟩ := hj
      obtain ⟨b', hb', heq⟩ := Snapshot.mem_of_visible hsnap.symm hb
      exact ⟨b', hb', (congrArg (·.stepName) heq).trans hname⟩
    | skip step reason =>
      cases reason with
      | unreachable =>
        refine hj.imp (fun ⟨fs, hfs, hunmet, hlater⟩ => ?_) fun h => h.congr hsnap
        exact ⟨fs, hfs, homitted hsnap hunmet, homitted hfinal hlater⟩
      | _ => trivial
    | fail step error => trivial
    | rollup p outcome => trivial
  · exact hdone

section Plan

variable {env : TemplateEnv} {task : TaskDef} {job : JobRow} {ws : Option WorkspaceConfig}
  {ss : Snapshots}

/--
Every change of the plan is justified at its point of the plan, and what a gate said then it
still says in the rows the plan ends in.
-/
theorem run_justified {steps : List JobStepRow} (h : Distinct steps)
    (hno : NoCollision steps) :
    ∃ plan, Returns env task job ws ss steps plan ∧
      ∀ pre c post, plan.changes = pre ++ c :: post →
        Justified task (Snapshot.applyAll steps pre)
          (Snapshot.applyAll steps plan.changes) c := by
  obtain ⟨cs, last, hrun, hb, -⟩ := run_ends env task job ws ss h hno
  refine ⟨_, hrun, fun pre c post hsplit => ?_⟩
  -- undo the scrubbing of failure texts
  have hforget := redactChanges_forget env ws cs
  have hforget' := hforget
  simp only at hsplit
  rw [hsplit, List.map_append, List.map_cons] at hforget'
  obtain ⟨pre₀, rest, rfl, hpre, hrest⟩ := List.map_eq_append_iff.mp hforget'.symm
  obtain ⟨c₀, post₀, rfl, hc, -⟩ := List.map_eq_cons_iff.mp hrest
  obtain ⟨hsteps, hlast⟩ := hb.steps h hno
  obtain ⟨hstepsPre, hstepsPost⟩ := hsteps.of_append
  have hpoint := (hb.justified h hno rfl).later (hstepsPre.distinct h) hstepsPost
  rw [← Snapshot.applyAll_append] at hpoint
  refine hpoint.congr ?_ ?_ hc
  · exact Snapshot.visible_applyAll_congr rfl hpre
  · exact Snapshot.visible_applyAll_congr rfl hforget.symm

end Plan

theorem run_justified_resumedRows :
    ∃ plan, Returns literalEnv deliveryFlow { jobId := 1 } (some {}) {} resumedRows plan ∧
      plan.changes.map Change.target = ["hosts[1]", "package", "rollback", "publish", "mirror"] ∧
      ∀ pre c post, plan.changes = pre ++ c :: post →
        Justified deliveryFlow (Snapshot.applyAll resumedRows pre)
          (Snapshot.applyAll resumedRows plan.changes) c := by
  obtain ⟨plan, hrun, hjustified⟩ := run_justified resumedRows_distinct resumedRows_noCollision
  exact ⟨plan, hrun, hrun.eval 3 (fun p => p.changes.map Change.target) (by decide +kernel),
    hjustified⟩

def waitingLoop : FlowStep :=
  { action := "work", forEach := some (.str "[1,2,3]"), dependsOn := [.name "a"] }

def waitingFlow : TaskDef :=
  ⟨⟨[("a", { action := "work" }), ("p", waitingLoop)], by decide⟩⟩

def waitingRows : List JobStepRow :=
  [{ stepName := "a", status := .running },
    { stepName := "p", forEachExpr := some "[1,2,3]" },
    { stepName := "p[0]", loopSource := some "p", loopIndex := some 0, status := .ready }]

def hidingFlow : TaskDef :=
  ⟨⟨[("p", { action := "work", forEach := some (.str "[1,2,3]") }),
      ("p[1]", { action := "work" }),
      ("z", { action := "work", dependsOn := [.name "p[1]"] })], by decide⟩⟩

def hidingRows : List JobStepRow :=
  [{ stepName := "p", forEachExpr := some "[1,2,3]" },
    { stepName := "p[1]", status := .completed },
    { stepName := "z" }]

/--
A gate is not always asked, nor always final: an adopted placeholder may be started while its
dependency runs, and an expansion may hide a finished row behind a new one of its name.
-/
theorem waitingRows_adopted :
    (Distinct waitingRows ∧
      Returns literalEnv waitingFlow { jobId := 1 } (some {}) {} waitingRows ⟨[.adopt "p"]⟩ ∧
      waitingFlow.flow.get "p" = some waitingLoop ∧
      ¬ DepsTerminal waitingRows waitingLoop ∧
      ¬ DepsTerminal (Snapshot.applyAll waitingRows [.adopt "p"]) waitingLoop) ∧
    (Distinct hidingRows ∧
      ∃ plan, Returns literalEnv hidingFlow { jobId := 1 } (some {}) {} hidingRows plan ∧
        .promote "z" ∈ plan.changes ∧
        ¬ DepsTerminal (Snapshot.applyAll hidingRows plan.changes)
          { action := "work", dependsOn := [.name "p[1]"] }) := by
  refine ⟨⟨?_, .of_run 2 (by decide), rfl, fun h => ?_, fun h => ?_⟩, ?_, ?_⟩
  · unfold Distinct Keyed
    decide
  · obtain ⟨r, hget, hterm⟩ := h "a" (by decide)
    obtain rfl : { stepName := "a", status := .running } = r := Option.some.inj hget
    exact absurd hterm (by decide)
  · obtain ⟨r, hget, hterm⟩ := h "a" (by decide)
    obtain rfl : { stepName := "a", status := .running } = r := Option.some.inj hget
    exact absurd hterm (by decide)
  · unfold Distinct Keyed
    decide
  · have hany : (run literalEnv 3 hidingFlow { jobId := 1 } hidingRows (some {}) {}).any
        (fun plan => plan.changes.contains (.promote "z") &&
          (Snapshot.outcome (Snapshot.applyAll hidingRows plan.changes) "p[1]" == .pending)) =
        true := by decide
    obtain ⟨plan, hrun, hbad⟩ := (Option.any_eq_true _ _).mp hany
    simp only [Bool.and_eq_true, List.contains_iff_mem, beq_iff_eq] at hbad
    refine ⟨plan, .of_run 3 hrun, hbad.1, fun h => ?_⟩
    exact outcome_ne_pending_iff.mpr (h "p[1]" (by decide)) hbad.2

end Stroem.Cascade

/-!
# Invariants along a chain of batches

A change is computed from the rows at the start of its batch, but it is applied after the
changes before it.  `Grounded` is what the rows still say for a change when its turn comes;
`Batches.invariant` turns what every grounded move keeps into what a whole run of the cascade
keeps.
-/

namespace Stroem.Cascade

open Foundation

def Grounded (task : TaskDef) (jobId : Uuid) (snap : Snapshot) : Change → Prop
  | .promote step => ∃ r ∈ snap, r.stepName = step ∧
      (r.isPlaceholder = false ∨ r.loopSource ≠ none)
  | .adopt p => ∃ b ∈ snap, b.stepName = instanceName p 0
  | .rollup p _ => ∀ i ∈ snap, i.loopSource = some p → i.status.isTerminal = true
  | .expand p instances => ∃ fs r items, task.flow.get p = some fs ∧ r.stepName = p ∧
      instances = expandInstances fs jobId r items ∧ items ≠ [] ∧
      items.length ≤ maxForEachItems
  | .skip _ _ | .fail _ _ => True

section Batch

variable {env : TemplateEnv} {task : TaskDef} {job : JobRow} {ws : Option WorkspaceConfig}
  {ss : Snapshots}

theorem Batch.grounded (hb : Batch env task job ws ss snap cs) :
    ∀ c ∈ cs, Grounded task job.jobId snap c := by
  intro c hc
  cases hb with
  | rollup =>
    obtain ⟨ph, -, -, -, hreason⟩ := phaseRollup_reason hc
    cases hreason with
    | abandon => trivial
    | advance i n idx hseq hgood hi his hit hidx hn hns hnidx hnp =>
      exact ⟨n, hn, rfl, .inr (by simp [hns])⟩
    | finish outcome hall => exact hall
  | promote =>
    obtain ⟨r, hr, -, hplace, fs, -, hreason⟩ := promoteBatch_reason hc
    cases hreason with
    | promote hgate => exact ⟨r, hr, rfl, .inl hplace⟩
    | _ => trivial
  | placeholders =>
    obtain ⟨r, -, -, -, fs, hfs, hreason⟩ := phasePlaceholders_reason hc
    cases hreason with
    | adopt b hb hname => exact ⟨b, hb, hname⟩
    | expand items hgate hnone hne hlen => exact ⟨fs, r, items, hfs, rfl, rfl, hne, hlen⟩
    | _ => trivial

private theorem mem_apply_of_mem {c : Change} (h : Distinct snap)
    (hr : r ∈ snap) : ∃ r' ∈ snap.apply c, r'.stepName = r.stepName ∧
      r'.isPlaceholder = r.isPlaceholder ∧ r'.loopSource = r.loopSource := by
  by_cases ht : r.stepName = c.target
  · exact ⟨c.setRow r, (Snapshot.mem_apply h).mpr (.inl ⟨r, hr, ht, rfl⟩), by simp, by simp,
      by simp⟩
  · exact ⟨r, (Snapshot.mem_apply h).mpr (.inr (.inl ⟨hr, ht⟩)), rfl, rfl, rfl⟩

theorem Grounded.apply {jobId : Uuid} {c d : Change} (h : Distinct snap)
    (hd : Moves snap d) (hc : Moves snap c) (hground : Grounded task jobId snap c) :
    Grounded task jobId (snap.apply d) c := by
  cases c with
  | promote step =>
    obtain ⟨r, hr, hname, hkind⟩ := hground
    obtain ⟨r', hr', hname', hplace, hsource⟩ := mem_apply_of_mem h hr
    exact ⟨r', hr', hname'.trans hname, by rwa [hplace, hsource]⟩
  | adopt p =>
    obtain ⟨b, hb, hname⟩ := hground
    obtain ⟨b', hb', hname', -⟩ := mem_apply_of_mem h hb
    exact ⟨b', hb', hname'.trans hname⟩
  | rollup p outcome =>
    intro i' hi' hsource
    rcases (Snapshot.mem_apply h).mp hi' with ⟨i, hi, ht, rfl⟩ | ⟨hi, -⟩ | hi
    · have hterm := hground i hi (by simpa using hsource)
      -- a finished row is no target
      have hkept := hd.get_terminal h ((Snapshot.get_eq_some_iff h).mpr ⟨hi, rfl⟩) hterm
      have hmem := (Snapshot.get_eq_some_iff (hd.distinct h)).mp hkept
      rwa [(hd.distinct h).eq_of_key hi' hmem.1 (by simp)]
    · exact hground i' hi hsource
    · -- an expansion of `p` would find it pending, but its rollup finds it running
      exfalso
      have hptarget : d.target = p :=
        Option.some.inj ((hd.instances i' hi).1.symm.trans hsource)
      obtain ⟨r, hr, hname, haccepts | ⟨-, hpromote⟩⟩ := hc.target_mem h
      · have hrun : r.status = .running := by
          simp only [Change.accepts, Bool.and_eq_true, beq_iff_eq] at haccepts
          exact haccepts.1
        obtain ⟨q, hq, hqname, hq'⟩ := hd.target_mem h
        obtain rfl := h.eq_of_key hr hq (hname.trans (hptarget.symm.trans hqname.symm))
        cases d with
        | expand p' instances => simp [Change.accepts, hrun] at hq'
        | _ => simp [Change.inserted] at hi
      · cases hpromote
  | expand p instances => exact hground
  | skip step reason => trivial
  | fail step error => trivial

theorem Steps.of_ground (Inv : Snapshot → Prop)
    (Ground : Snapshot → Change → Prop)
    (hstep : ∀ s c, Distinct s → Inv s → Moves s c → Ground s c → Inv (s.apply c))
    (hkeep : ∀ s c d, Distinct s → Moves s d → Moves s c → Ground s c → Ground (s.apply d) c)
    (h : Distinct snap) (hInv : Inv snap) (hmoves : ∀ c ∈ cs, Moves snap c)
    (hground : ∀ c ∈ cs, Ground snap c) (hcompat : cs.Pairwise Compatible) :
    Inv (snap.applyAll cs) := by
  induction cs generalizing snap with
  | nil => exact hInv
  | cons c cs ih =>
    obtain ⟨hhead, htail⟩ := List.pairwise_cons.mp hcompat
    have hc := hmoves c List.mem_cons_self
    refine ih (hc.distinct h) (hstep snap c h hInv hc (hground c List.mem_cons_self))
      (fun d hd => ?_) (fun d hd => ?_) htail
    · exact hc.apply h (hmoves d (List.mem_cons_of_mem _ hd)) (hhead d hd)
    · exact hkeep snap d c h hc (hmoves d (List.mem_cons_of_mem _ hd))
        (hground d (List.mem_cons_of_mem _ hd))

theorem Batches.invariant_of_ground {last : Snapshot}
    (Inv : Snapshot → Prop) (Ground : Snapshot → Change → Prop)
    (hstep : ∀ s c, Distinct s → Inv s → Moves s c → Ground s c → Inv (s.apply c))
    (hkeep : ∀ s c d, Distinct s → Moves s d → Moves s c → Ground s c → Ground (s.apply d) c)
    (hground : ∀ s cs, Distinct s → Inv s → Batch env task job ws ss s cs →
      ∀ c ∈ cs, Ground s c)
    (h : Distinct snap) (hno : NoCollision snap) (hInv : Inv snap)
    (hb : Batches env task job ws ss snap cs last) : Inv last := by
  induction hb with
  | nil => exact hInv
  | cons hb _ ih =>
    have hsteps := hb.steps h hno
    exact ih (hsteps.distinct h) (hsteps.noCollision h hno)
      (Steps.of_ground Inv Ground hstep hkeep h hInv (hb.moves h hno) (hground _ _ h hInv hb)
        (hb.compatible h))

theorem Batches.invariant {last : Snapshot} (Inv : Snapshot → Prop)
    (hstep : ∀ s c, Distinct s → Inv s → Moves s c → Grounded task job.jobId s c →
      Inv (s.apply c))
    (h : Distinct snap) (hno : NoCollision snap) (hInv : Inv snap)
    (hb : Batches env task job ws ss snap cs last) : Inv last :=
  hb.invariant_of_ground Inv (Grounded task job.jobId) hstep
    (fun _ _ _ hs hd hc hground => hground.apply hs hd hc) (fun _ _ _ _ hb => hb.grounded)
    h hno hInv

end Batch

end Stroem.Cascade
