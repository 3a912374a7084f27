import Stroem.Dispatch.Kept

/-!
# The aftermath of a failed approval

An approval whose message does not render fails, and the cascade after it goes on from there.
What that may come to is read off the flow and the rows before the approvals are dispatched:
which outcomes a step may end with, and which pending steps may start.  Every row that the pass
leaves behind is explained so.
-/

namespace Stroem.Dispatch

open Foundation JobStepRepo Cascade Engine

/-! ## What may end and what may start -/

section Condition

variable (d : DispatchEnv) (rows : List JobStepRow)

def Fails (r : JobStepRow) : Prop :=
  r ∈ rows ∧ isReadyFor .approval r = true ∧ (d.approvalOutcome r.stepName).isUnrendered = true

/--
The outcomes a step may have while the ready approvals of the rows are dispatched.  No worker
moves a row meanwhile: a step that is not read so ends as its gate, its condition, its loop or its
instances make it end.
-/
inductive MayEnd : String → DepOutcome → Prop
  | asRead (name : String) : MayEnd name (Snapshot.outcome rows name)
  | failed {r : JobStepRow} : Fails d rows r → MayEnd r.stepName .failed
  | omitted {r : JobStepRow} {fs : FlowStep} (outcomeOf : String → DepOutcome) :
      r ∈ rows → r.status = .pending → d.task.flow.get r.stepName = some fs →
      (∀ name ∈ collectNames fs.dependsOn, MayEnd name (outcomeOf name)) →
      gate outcomeOf fs.dependsOn = .omitted → MayEnd r.stepName .omitted
  | decided {r : JobStepRow} {fs : FlowStep} {o : DepOutcome} (outcomeOf : String → DepOutcome) :
      r ∈ rows → r.status = .pending → d.task.flow.get r.stepName = some fs →
      (∀ name ∈ collectNames fs.dependsOn, MayEnd name (outcomeOf name)) →
      gate outcomeOf fs.dependsOn = .open →
      r.whenCondition.isSome = true ∨ r.isPlaceholder = true → o = .skipped ∨ o = .failed →
      MayEnd r.stepName o
  | abandoned {r bad : JobStepRow} {p : String} {o : DepOutcome} :
      r ∈ rows → r.status = .pending → r.loopSource = some p → isSequential d.task p = true →
      continuesOnFailure d.task p = false → bad ∈ rows → bad.loopSource = some p →
      MayEnd bad.stepName o → o = .failed ∨ o = .cancelled → MayEnd r.stepName .omitted
  | rolledUp {r : JobStepRow} {o : DepOutcome} (outcomeOf : String → DepOutcome) :
      r ∈ rows → r.status = .running → r.isPlaceholder = true →
      (∀ i ∈ rows, i.loopSource = some r.stepName → MayEnd i.stepName (outcomeOf i.stepName)) →
      (∀ i ∈ rows, i.loopSource = some r.stepName → outcomeOf i.stepName ≠ .pending) →
      (o = .completed ∧
          ∀ i ∈ rows, i.loopSource = some r.stepName → outcomeOf i.stepName ≠ .failed) ∨
        (o = .failed ∧
          ∃ i ∈ rows, i.loopSource = some r.stepName ∧ outcomeOf i.stepName = .failed) →
      MayEnd r.stepName o

/-- The gate of the step may open, or the instance before it in its sequential loop may end. -/
inductive MayStart (r : JobStepRow) : Prop
  | opened {fs : FlowStep} (outcomeOf : String → DepOutcome) :
      d.task.flow.get r.stepName = some fs →
      (∀ name ∈ collectNames fs.dependsOn, MayEnd d rows name (outcomeOf name)) →
      gate outcomeOf fs.dependsOn = .open → MayStart r
  | advanced {i : JobStepRow} {p : String} {idx : Int32} {o : DepOutcome} :
      isSequential d.task p = true → r.loopSource = some p → r.loopIndex = some (idx + 1) →
      i ∈ rows → i.loopSource = some p → i.loopIndex = some idx → MayEnd d rows i.stepName o →
      o ≠ .pending →
      continuesOnFailure d.task p = true ∨ o ≠ .failed ∧ o ≠ .cancelled → MayStart r

/-- A pending step that may start because an approval fails. -/
structure SetOff (r : JobStepRow) : Prop where
  pending : r.status = .pending
  failure : ∃ approval, Fails d rows approval
  starts : MayStart d rows r

end Condition

/-! ## The rows explained -/

section Explained

variable (d : DispatchEnv) (base : List JobStepRow)

structure Traced (b a : JobStepRow) : Prop where
  keeps : Keeps b a
  actionType : a.actionType = b.actionType
  whenCondition : a.whenCondition = b.whenCondition
  pending : a.status = .pending → b.status = .pending
  running : a.status = .running → b.status = .running ∨ b.status = .pending
  ready : a.status = .ready → b.status = .ready ∨ SetOff d base b

/-- An instance of a loop that was expanded since. -/
structure Fresh (a : JobStepRow) : Prop where
  name : ∀ b ∈ base, b.stepName ≠ a.stepName
  plain : a.isPlaceholder = false
  status : a.status = .pending ∨ a.status = .ready
  source : ∃ p ∈ base, a.loopSource = some p.stepName ∧ a.actionType = p.actionType ∧
    SetOff d base p

structure Aftermath (rows : List JobStepRow) : Prop where
  outcomes : ∀ name, MayEnd d base name (Snapshot.outcome rows name)
  kept : ∀ b ∈ base, ∃ a ∈ rows, a.stepName = b.stepName
  origin : ∀ a ∈ rows, (∃ b ∈ base, Traced d base b a) ∨ Fresh d base a

end Explained

variable {d : DispatchEnv} {base rows : List JobStepRow} {a b : JobStepRow}

theorem Traced.refl (b : JobStepRow) : Traced d base b b :=
  ⟨⟨rfl, rfl, rfl, rfl⟩, rfl, rfl, id, .inl, .inl⟩

theorem Aftermath.refl (d : DispatchEnv) (base : List JobStepRow) : Aftermath d base base :=
  ⟨.asRead, fun b hb => ⟨b, hb, rfl⟩, fun a ha => .inl ⟨a, ha, .refl a⟩⟩

theorem outcome_eq_fromRow (h : Distinct rows) (ha : a ∈ rows) :
    Snapshot.outcome rows a.stepName = DepOutcome.fromRow a.status a.skipReason := by
  simp only [Snapshot.outcome, (Snapshot.get_eq_some_iff h).mpr ⟨ha, rfl⟩]

theorem Fresh.unfinished (h : Fresh d base a) : a.status.isTerminal = false := by
  rcases h.status with hs | hs <;> simp [hs, StepStatus.isTerminal]

theorem Aftermath.traced_of_name (h : Aftermath d base rows) (hk : Distinct base) (ha : a ∈ rows)
    (hb : b ∈ base) (hname : b.stepName = a.stepName) : Traced d base b a := by
  rcases h.origin a ha with ⟨b', hb', htraced⟩ | hfresh
  · rwa [hk.eq_of_key hb hb' (hname.trans htraced.keeps.stepName)]
  · exact absurd hname (hfresh.name b hb)

theorem Aftermath.traced_of_terminal (h : Aftermath d base rows) (ha : a ∈ rows)
    (hterm : a.status.isTerminal = true) : ∃ b ∈ base, Traced d base b a := by
  refine (h.origin a ha).resolve_right fun hfresh => ?_
  rw [hfresh.unfinished] at hterm
  cases hterm

theorem traced_visible : Traced d base b a.visible ↔ Traced d base b a :=
  ⟨fun ⟨⟨h₁, h₂, h₃, h₄⟩, h₅, h₆, h₇, h₈, h₉⟩ => ⟨⟨h₁, h₂, h₃, h₄⟩, h₅, h₆, h₇, h₈, h₉⟩,
    fun ⟨⟨h₁, h₂, h₃, h₄⟩, h₅, h₆, h₇, h₈, h₉⟩ => ⟨⟨h₁, h₂, h₃, h₄⟩, h₅, h₆, h₇, h₈, h₉⟩⟩

theorem fresh_visible : Fresh d base a.visible ↔ Fresh d base a :=
  ⟨fun ⟨h₁, h₂, h₃, h₄⟩ => ⟨h₁, h₂, h₃, h₄⟩, fun ⟨h₁, h₂, h₃, h₄⟩ => ⟨h₁, h₂, h₃, h₄⟩⟩

theorem Aftermath.of_mirrors {snap : Snapshot} (h : Aftermath d base snap)
    (hk : Distinct snap) (hmir : Mirrors rows snap) : Aftermath d base rows := by
  refine ⟨fun name => ?_, fun b hb => ?_, fun a ha => ?_⟩
  · rw [hmir.outcome_eq hk]
    exact h.outcomes name
  · obtain ⟨a, ha, hname⟩ := h.kept b hb
    obtain ⟨a', ha', heq⟩ := hmir.mem_right ha
    exact ⟨a', ha', (congrArg (·.stepName) heq).trans hname⟩
  · obtain ⟨a', ha', heq⟩ := hmir.mem_left ha
    simp only [← traced_visible (a := a), ← fresh_visible (a := a), ← heq]
    simpa only [traced_visible, fresh_visible] using h.origin a' ha'

/-! ## Changes -/

section Caused

variable (d : DispatchEnv) (base : List JobStepRow)

def Ends (c : Change) : Prop :=
  (∃ b ∈ base, b.stepName = c.target) ∧
    ∀ r : JobStepRow, MayEnd d base c.target
      (DepOutcome.fromRow (c.setRow r).status (c.setRow r).skipReason)

/-- Why the cascade makes a change, in the rows before the approvals were dispatched. -/
def Caused : Change → Prop
  | .promote step => ∀ b ∈ base, b.stepName = step → b.status = .pending → MayStart d base b
  | .expand p instances => ∃ b ∈ base, b.stepName = p ∧ b.status = .pending ∧ MayStart d base b ∧
      ∀ i ∈ instances, i.actionType = b.actionType
  | .adopt _ => False
  | c => Ends d base c

end Caused

section Apply

variable {snap : Snapshot} {c : Change}

theorem outcome_apply (h : Distinct snap) (hc : Moves snap c) (name : String) :
    (snap.apply c).outcome name = snap.outcome name ∨
      (snap.apply c).outcome name = .pending ∧ snap.outcome name = .pending ∨
      name = c.target ∧ snap.outcome name = .pending ∧ ∃ r, (snap.apply c).outcome name =
        DepOutcome.fromRow (c.setRow r).status (c.setRow r).skipReason := by
  by_cases htarget : name = c.target
  · subst htarget
    obtain ⟨r, hget, hstatus⟩ := hc.source
    refine .inr (.inr ⟨rfl, ?_, r, ?_⟩)
    · simp only [Snapshot.outcome, hget, DepOutcome.fromRow_eq_pending_iff]
      rcases hstatus with haccepts | ⟨hready, -⟩
      · rcases Change.accepts_status haccepts with hs | hs <;> simp [hs, StepStatus.isTerminal]
      · simp [hready, StepStatus.isTerminal]
    · simp only [Snapshot.outcome, hc.get_target h hget]
  · by_cases hnew : ∃ a ∈ c.inserted, a.stepName = name
    · obtain ⟨a, ha, rfl⟩ := hnew
      refine .inr (.inl ⟨?_, ?_⟩)
      · rw [outcome_eq_fromRow (hc.distinct h) ((Snapshot.mem_apply h).mpr (.inr (.inr ha))),
          DepOutcome.fromRow_eq_pending_iff]
        rcases (hc.instances a ha).2.2 with hs | hs <;> simp [hs, StepStatus.isTerminal]
      · have hnone : snap.get a.stepName = none :=
          Snapshot.get_eq_none_iff.mpr fun r hr => hc.fresh r hr a ha
        simp only [Snapshot.outcome, hnone]
    · refine .inl ?_
      push Not at hnew
      simp only [Snapshot.outcome, hc.get_of_ne h htarget hnew]

theorem Aftermath.outcomes_apply (h : Aftermath d base snap) (hk : Distinct snap)
    (hc : Moves snap c) (hcaused : Caused d base c) (name : String) :
    MayEnd d base name ((snap.apply c).outcome name) := by
  have hread := h.outcomes name
  rcases outcome_apply hk hc name with heq | ⟨heq, hpend⟩ | ⟨rfl, hpend, r, heq⟩
  · rwa [heq]
  · rwa [heq, ← hpend]
  · rw [heq]
    rw [hpend] at hread
    cases c with
    | promote step => exact hread
    | expand p instances => exact hread
    | adopt p => exact hcaused.elim
    | skip step reason => exact hcaused.2 r
    | fail step error => exact hcaused.2 r
    | rollup p outcome => exact hcaused.2 r

private theorem traced_setRow (h : Traced d base b a)
    (hrunning : (c.setRow a).status = .running → b.status = .running ∨ b.status = .pending)
    (hready : (c.setRow a).status = .ready → b.status = .ready ∨ SetOff d base b) :
    Traced d base b (c.setRow a) := by
  refine ⟨⟨?_, ?_, ?_, ?_⟩, ?_, ?_, fun hpend => absurd hpend (c.setRow_status_ne_pending a),
    hrunning, hready⟩
  · simp [h.keeps.stepName]
  · simp [h.keeps.forEachExpr]
  · simp [h.keeps.loopSource]
  · simp [h.keeps.loopIndex]
  · simp [h.actionType]
  · simp [h.whenCondition]

theorem Ends.origin_setRow (h : Ends d base c)
    (hterm : (c.setRow a).status.isTerminal = true) (htarget : a.stepName = c.target)
    (horigin : (∃ b ∈ base, Traced d base b a) ∨ Fresh d base a) :
    ∃ b ∈ base, Traced d base b (c.setRow a) := by
  rcases horigin with ⟨b, hb, htraced⟩ | hfresh
  · refine ⟨b, hb, traced_setRow htraced (fun hs => ?_) fun hs => ?_⟩ <;>
      simp [hs, StepStatus.isTerminal] at hterm
  · obtain ⟨b, hb, hname⟩ := h.1
    exact absurd (hname.trans htarget.symm) (hfresh.name b hb)

theorem Aftermath.origin_setRow (hfail : ∃ approval, Fails d base approval)
    (hbase : Distinct base)
    (h : Aftermath d base snap) (hk : Distinct snap) (hc : Moves snap c)
    (hcaused : Caused d base c) (ha : a ∈ snap) (htarget : a.stepName = c.target) :
    (∃ b ∈ base, Traced d base b (c.setRow a)) ∨ Fresh d base (c.setRow a) := by
  have horigin := h.origin a ha
  obtain ⟨r, hr, hrname, hstatus⟩ := hc.target_mem hk
  obtain rfl := hk.eq_of_key ha hr (htarget.trans hrname.symm)
  cases c with
  | promote step =>
    rcases horigin with ⟨b, hb, htraced⟩ | hfresh
    · refine .inl ⟨b, hb, traced_setRow htraced (by rintro ⟨⟩) fun _ => ?_⟩
      rcases hstatus with haccepts | ⟨hready, -⟩
      · have hpend := htraced.pending (by simpa [Change.accepts] using haccepts)
        exact .inr ⟨hpend, hfail, hcaused b hb (htraced.keeps.stepName.symm.trans htarget) hpend⟩
      · exact htraced.ready hready
    · exact .inr ⟨hfresh.name, hfresh.plain, .inr rfl, hfresh.source⟩
  | expand p instances =>
    obtain ⟨b, hb, hname, hpend, -⟩ := hcaused
    have htraced := h.traced_of_name hbase ha hb (hname.trans htarget.symm)
    exact .inl ⟨b, hb, traced_setRow htraced (fun _ => .inr hpend) (by rintro ⟨⟩)⟩
  | adopt p => exact hcaused.elim
  | skip step reason
  | fail step error => exact .inl (Ends.origin_setRow hcaused rfl htarget horigin)
  | rollup p outcome =>
    refine .inl (Ends.origin_setRow hcaused ?_ htarget horigin)
    cases outcome <;> rfl

theorem Aftermath.apply (hfail : ∃ approval, Fails d base approval) (hbase : Distinct base)
    (h : Aftermath d base snap) (hk : Distinct snap) (hc : Moves snap c)
    (hcaused : Caused d base c) : Aftermath d base (snap.apply c) := by
  refine ⟨h.outcomes_apply hk hc hcaused, fun b hb => ?_, fun a' ha' => ?_⟩
  · obtain ⟨a, ha, hname⟩ := h.kept b hb
    obtain ⟨a', ha', hkeeps⟩ := kept_apply (c := c) hk ha
    exact ⟨a', ha', hkeeps.stepName.trans hname⟩
  rcases mem_apply_cases hk ha' with ⟨a, ha, hkeeps, ⟨htarget, rfl⟩ | ⟨-, rfl⟩⟩ | hnew
  · exact h.origin_setRow hfail hbase hk hc hcaused ha htarget
  · exact h.origin a' ha
  · cases c with
    | expand p instances =>
      obtain ⟨b, hb, rfl, hpend, hstart, htypes⟩ := hcaused
      obtain ⟨hsource, -, hstatus⟩ := hc.instances a' hnew
      obtain ⟨i, hi, rfl⟩ := List.mem_map.mp hnew
      refine .inr ⟨fun b' hb' hname => ?_, rfl, hstatus, b, hb, hsource, htypes i hi, hpend,
        hfail, hstart⟩
      obtain ⟨r, hr, hrname⟩ := h.kept b' hb'
      exact hc.fresh r hr _ hnew (hrname.trans hname)
    | _ => cases hnew

end Apply

/-! ## A cascade -/

section Cascade

variable {env : TemplateEnv} {job : JobRow} {ws : Option WorkspaceConfig} {ss : Snapshots}
  {snap : Snapshot} {cs : List Change}

theorem not_started_of_instance {task : TaskDef} (h : Sound task base) {p i : JobStepRow}
    (hp : p ∈ base) (hi : i ∈ base) (hsource : i.loopSource = some p.stepName) :
    p.status ≠ .pending :=
  h.loops.started i hi _ hsource p hp rfl

/-- In a loop with an instance read before, every instance was. -/
theorem Aftermath.traced_sibling (h : Aftermath d base snap) (hbase : Sound d.task base)
    {i : JobStepRow} {p : String} (hi : i ∈ base) (hsource : i.loopSource = some p)
    (ha : a ∈ snap) (hasource : a.loopSource = some p) : ∃ b ∈ base, Traced d base b a := by
  refine (h.origin a ha).resolve_right fun hfresh => ?_
  obtain ⟨q, hq, hqsource, -, hset⟩ := hfresh.source
  obtain rfl : p = q.stepName := Option.some.inj (hasource.symm.trans hqsource)
  exact not_started_of_instance hbase hq hi hsource hset.pending

theorem Aftermath.may_end (h : Aftermath d base snap) (hk : Distinct snap) (ha : a ∈ snap)
    (htraced : Traced d base b a) :
    MayEnd d base b.stepName (DepOutcome.fromRow a.status a.skipReason) := by
  have hread := h.outcomes a.stepName
  rwa [outcome_eq_fromRow hk ha, htraced.keeps.stepName] at hread

theorem phaseRollup_caused (hbase : Sound d.task base) (hsound : Sound d.task snap)
    (h : Aftermath d base snap) {c : Change} (hc : c ∈ phaseRollup snap d.task) :
    Caused d base c := by
  have hk := hsound.loops.keyed
  obtain ⟨ph, hph, hplace, hrun, hreason⟩ := phaseRollup_reason hc
  cases hreason with
  | abandon i bad hseq hcof hbad hbs hisBad hi his hip =>
    simp only [isBad, Bool.or_eq_true, beq_iff_eq] at hisBad
    obtain ⟨bb, hbb, hbtraced⟩ := h.traced_of_terminal hbad (by
      rcases hisBad with hs | hs <;> rw [hs] <;> rfl)
    have hbsource := hbtraced.keeps.loopSource.symm.trans hbs
    obtain ⟨b, hb, htraced⟩ := h.traced_sibling hbase hbb hbsource hi his
    have hend := h.may_end hk hbad hbtraced
    refine ⟨⟨b, hb, htraced.keeps.stepName.symm⟩, fun r => ?_⟩
    show MayEnd d base i.stepName .omitted
    rw [htraced.keeps.stepName]
    refine .abandoned hb (htraced.pending hip) (htraced.keeps.loopSource.symm.trans his) hseq hcof
      hbb hbsource hend ?_
    rcases hisBad with hs | hs <;> simp [hs, DepOutcome.fromRow]
  | advance i n idx hseq hgood hi his hit hidx hn hns hnidx hnp =>
    intro b hb hname hpend
    have htraced := h.traced_of_name hbase.loops.keyed hn hb hname
    obtain ⟨bi, hbi, hitraced⟩ := h.traced_of_terminal hi hit
    refine .advanced hseq (htraced.keeps.loopSource.symm.trans hns)
      (htraced.keeps.loopIndex.symm.trans hnidx) hbi (hitraced.keeps.loopSource.symm.trans his)
      (hitraced.keeps.loopIndex.symm.trans hidx) (h.may_end hk hi hitraced) ?_ ?_
    · rw [Ne, DepOutcome.fromRow_eq_pending_iff, hit]
      exact Bool.noConfusion
    · refine hgood.imp_right fun hall => ?_
      have hnot := hall i hi his
      cases hs : i.status <;> simp_all [isBad, DepOutcome.fromRow, StepStatus.isTerminal]
      split <;> simp
  | finish outcome hall =>
    obtain ⟨b, hb, htraced⟩ := (h.origin ph hph).resolve_right fun hfresh => by
      rw [hfresh.plain] at hplace
      cases hplace
    -- the loop was expanded before: an instance of it is finished
    obtain ⟨i, hi, his⟩ := hsound.expanded ph hph hplace hrun
    obtain ⟨bi, hbi, hitraced⟩ := h.traced_of_terminal hi (hall i hi his)
    have hsource : ∀ {a b' : JobStepRow}, Traced d base b' a →
        (a.loopSource = some ph.stepName ↔ b'.loopSource = some b.stepName) := fun htr => by
      rw [htr.keeps.loopSource, htraced.keeps.stepName]
    have hstarted := not_started_of_instance hbase hb hbi ((hsource hitraced).mp his)
    have hbrun := (htraced.running hrun).resolve_right hstarted
    have hinstance : ∀ i ∈ base, i.loopSource = some b.stepName → ∃ a ∈ snap, Traced d base i a ∧
        a.loopSource = some ph.stepName := by
      intro i hi his
      obtain ⟨a, ha, hname⟩ := h.kept i hi
      have htr := h.traced_of_name hbase.loops.keyed ha hi hname.symm
      exact ⟨a, ha, htr, (hsource htr).mpr his⟩
    have hread : ∀ i ∈ base, i.loopSource = some b.stepName →
        ∃ a ∈ snap, a.loopSource = some ph.stepName ∧
          snap.outcome i.stepName = DepOutcome.fromRow a.status a.skipReason := by
      intro i hi his
      obtain ⟨a, ha, htr, has⟩ := hinstance i hi his
      exact ⟨a, ha, has, by rw [← htr.keeps.stepName, outcome_eq_fromRow hk ha]⟩
    have hdone : ∀ i ∈ base, i.loopSource = some b.stepName →
        snap.outcome i.stepName ≠ .pending := by
      intro i hi his
      obtain ⟨a, ha, has, heq⟩ := hread i hi his
      rw [heq, Ne, DepOutcome.fromRow_eq_pending_iff, hall a ha has]
      exact Bool.noConfusion
    refine ⟨⟨b, hb, htraced.keeps.stepName.symm⟩, fun r => ?_⟩
    show MayEnd d base ph.stepName _
    rw [htraced.keeps.stepName]
    refine .rolledUp snap.outcome hb hbrun ?_ (fun i _ _ => h.outcomes i.stepName) hdone ?_
    · rwa [JobStepRow.isPlaceholder, ← htraced.keeps.forEachExpr]
    rw [phaseRollup_finish hc]
    rcases rollupOutcome_cases (loopInstances snap ph.stepName) with
      ⟨output, heq, hnone⟩ | ⟨error, output, heq, a, ha, hfailed⟩
    · rw [heq]
      refine .inl ⟨rfl, fun i hi his hbad => ?_⟩
      obtain ⟨a, ha, has, houtcome⟩ := hread i hi his
      exact hnone a (mem_loopInstances.mpr ⟨ha, has⟩)
        (DepOutcome.fromRow_eq_failed (houtcome.symm.trans hbad))
    · rw [heq]
      obtain ⟨ha, has⟩ := mem_loopInstances.mp ha
      obtain ⟨i, hi, htr⟩ := h.traced_of_terminal ha (hall a ha has)
      refine .inr ⟨rfl, i, hi, (hsource htr).mp has, ?_⟩
      rw [← htr.keeps.stepName, outcome_eq_fromRow hk ha, hfailed]
      rfl

theorem Aftermath.caused (hnames : ∀ name ∈ d.task.flow.keys, '[' ∉ name.toList)
    (hbase : Sound d.task base) (hsound : Sound d.task snap) (h : Aftermath d base snap)
    (hb : Batch env d.task job ws ss snap cs) : ∀ c ∈ cs, Caused d base c := by
  intro c hc
  -- a row of a flow step is no instance
  have hplain : ∀ r ∈ snap, r.stepName ∈ d.task.flow.keys → ∃ b ∈ base, Traced d base b r := by
    intro r hr hkey
    refine (h.origin r hr).resolve_right fun hfresh => ?_
    obtain ⟨p, -, hsource, -⟩ := hfresh.source
    obtain ⟨-, k, -, hname, -⟩ := hsound.loops.index r hr _ hsource
    rw [hname] at hkey
    exact hnames _ hkey (bracket_mem_instanceName _ k)
  cases hb with
  | rollup => exact phaseRollup_caused hbase hsound h hc
  | promote =>
    obtain ⟨r, hr, hpend, -, fs, hfs, hreason⟩ := promoteBatch_reason hc
    obtain ⟨b, hb, htraced⟩ := hplain r hr (Flow.mem_keys_iff.mpr ⟨fs, hfs⟩)
    have hname := htraced.keeps.stepName
    have hbpend := htraced.pending hpend
    rw [hname] at hfs
    have hmet : ∀ name ∈ collectNames fs.dependsOn, MayEnd d base name (snap.outcome name) :=
      fun name _ => h.outcomes name
    cases hreason with
    | unreachable hgate =>
      exact ⟨⟨b, hb, hname.symm⟩, fun _ => hname ▸ .omitted _ hb hbpend hfs hmet hgate⟩
    | promote hgate =>
      intro b' hb' hname' _
      obtain rfl := hbase.loops.keyed.eq_of_key hb' hb (hname'.trans hname)
      exact .opened _ hfs hmet hgate
    | condition hgate hwhen =>
      rw [htraced.whenCondition] at hwhen
      exact ⟨⟨b, hb, hname.symm⟩,
        fun _ => hname ▸ .decided _ hb hbpend hfs hmet hgate (.inl hwhen) (.inl rfl)⟩
    | error e hgate hwhen =>
      rw [htraced.whenCondition] at hwhen
      exact ⟨⟨b, hb, hname.symm⟩,
        fun _ => hname ▸ .decided _ hb hbpend hfs hmet hgate (.inl hwhen) (.inr rfl)⟩
  | placeholders =>
    obtain ⟨r, hr, hpend, hplace, fs, hfs, hreason⟩ := phasePlaceholders_reason hc
    obtain ⟨b, hb, htraced⟩ := hplain r hr (Flow.mem_keys_iff.mpr ⟨fs, hfs⟩)
    have hname := htraced.keeps.stepName
    have hbpend := htraced.pending hpend
    have hbplace : b.isPlaceholder = true := by
      rwa [JobStepRow.isPlaceholder, ← htraced.keeps.forEachExpr]
    have hunexpanded := hsound.unexpanded hnames r hr hpend hplace
    rw [hname] at hfs
    have hmet : ∀ name ∈ collectNames fs.dependsOn, MayEnd d base name (snap.outcome name) :=
      fun name _ => h.outcomes name
    cases hreason with
    | adopt i hi hiname => exact (hunexpanded i hi).1 0 hiname
    | unreachable hgate =>
      exact ⟨⟨b, hb, hname.symm⟩, fun _ => hname ▸ .omitted _ hb hbpend hfs hmet hgate⟩
    | retire reason hgate hne hne' =>
      refine ⟨⟨b, hb, hname.symm⟩, fun _ =>
        hname ▸ .decided _ hb hbpend hfs hmet hgate (.inr hbplace) (.inl ?_)⟩
      cases reason <;> first | rfl | contradiction
    | error e hgate =>
      exact ⟨⟨b, hb, hname.symm⟩,
        fun _ => hname ▸ .decided _ hb hbpend hfs hmet hgate (.inr hbplace) (.inr rfl)⟩
    | expand items hgate hnone hne hlen =>
      refine ⟨b, hb, hname.symm, hbpend, .opened _ hfs hmet hgate, fun i hi => ?_⟩
      obtain ⟨k, hk, rfl⟩ := mem_expandInstances hi
      exact htraced.actionType

theorem Aftermath.batches (hfail : ∃ approval, Fails d base approval)
    (hnames : ∀ name ∈ d.task.flow.keys, '[' ∉ name.toList) (hbase : Sound d.task base)
    (hsound : Sound d.task snap) (h : Aftermath d base snap) {last : Snapshot}
    (hb : Batches env d.task job ws ss snap cs last) :
    Sound d.task last ∧ Aftermath d base last :=
  hb.invariant_of_ground (fun s => Sound d.task s ∧ Aftermath d base s)
    (fun s c => Grounded d.task job.jobId s c ∧ Caused d base c)
    (fun _ _ hs hInv hc hground => ⟨hInv.1.apply hnames hc hground.1,
      hInv.2.apply hfail hbase.loops.keyed hs hc hground.2⟩)
    (fun _ _ _ hs hd hc hground => ⟨hground.1.apply hs hd hc, hground.2⟩)
    (fun _ _ _ hInv hb c hc =>
      ⟨hb.grounded c hc, hInv.2.caused hnames hbase hInv.1 hb c hc⟩)
    hsound.loops.keyed (hsound.unexpanded hnames).noCollision ⟨hsound, h⟩

end Cascade

/-! ## The approval pass -/

section Pass

variable {since : Time} {kinds : String → ActionType} {db db' : JobTables} {r r' : JobStepRow}

theorem Aftermath.execute (hfail : ∃ approval, Fails d base approval)
    (hnames : ∀ name ∈ d.task.flow.keys, '[' ∉ name.toList) (hbase : Sound d.task base)
    (hsound : Sound d.task db.steps) (h : Aftermath d base db.steps)
    (hexec : execute d db = some db') : Aftermath d base db'.steps := by
  have hperm := d.order.perm db.steps
  have hread := Mirrors.refl_of_perm hperm
  have hsorted : Sound d.task (d.order.sort db.steps) := hsound.of_mirrors hread
  obtain ⟨plan, a, hrun, hok⟩ := execute_apply hexec
  exact ((hsorted.cascade_keeps hnames (fun s => Sound d.task s ∧ Aftermath d base s)
    (fun _ _ hs hmir => ⟨hs.1.of_mirrors hmir, hs.2.of_mirrors hs.1.loops.keyed hmir⟩)
    (fun _ _ hb => (h.of_mirrors hsound.loops.keyed hread).batches hfail hnames hbase hsorted hb)
    (Returns.of_run _ hrun)).2 d.now db a db' hperm.symm hok).2

theorem Aftermath.orchestrate (hfail : ∃ approval, Fails d base approval)
    (hnames : ∀ name ∈ d.task.flow.keys, '[' ∉ name.toList) (hbase : Sound d.task base)
    (hsound : Sound d.task db.steps) (h : Aftermath d base db.steps) :
    Aftermath d base (orchestrateAfterFailure d db).steps := by
  rcases orchestrateAfterFailure_steps d db with ⟨-, heq⟩ | ⟨db', hexec, heq⟩
  · rwa [heq]
  · rw [heq]
    exact h.execute hfail hnames hbase hsound hexec

theorem Aftermath.replaces (h : Aftermath d base db.steps) (hk : Distinct db.steps)
    (hr : r ∈ base) (hreplaces : Replaces r r' db.steps db'.steps) (htraced : Traced d base r r')
    (hend : MayEnd d base r.stepName (DepOutcome.fromRow r'.status r'.skipReason)) :
    Aftermath d base db'.steps := by
  refine ⟨fun name => ?_, fun b hb => ?_, fun a ha => ?_⟩
  · by_cases hname : name = r.stepName
    · subst hname
      rwa [← hreplaces.name, outcome_eq_fromRow hreplaces.keyed hreplaces.mem_new,
        hreplaces.name]
    · have heq : Snapshot.get db'.steps name = Snapshot.get db.steps name := by
        refine Option.ext fun a => ?_
        rw [Snapshot.get_eq_some_iff hreplaces.keyed, Snapshot.get_eq_some_iff hk, hreplaces.mem]
        constructor
        · rintro ⟨rfl | ⟨ha, -⟩, haname⟩
          · exact absurd (haname.symm.trans hreplaces.name) hname
          · exact ⟨ha, haname⟩
        · exact fun ⟨ha, haname⟩ => ⟨.inr ⟨ha, fun hne => hname (haname.symm.trans hne)⟩, haname⟩
      have hread := h.outcomes name
      rwa [Snapshot.outcome, ← heq] at hread
  · obtain ⟨a, ha, haname⟩ := h.kept b hb
    by_cases hname : a.stepName = r.stepName
    · exact ⟨r', hreplaces.mem_new, hreplaces.name.trans (hname.symm.trans haname)⟩
    · exact ⟨a, hreplaces.mem_other ha hname, haname⟩
  · rcases (hreplaces.mem a).mp ha with rfl | ⟨ha, -⟩
    · exact .inl ⟨r, hr, htraced⟩
    · exact h.origin a ha

theorem dispatchApproval_aftermath (hnames : ∀ name ∈ d.task.flow.keys, '[' ∉ name.toList)
    (hbase : Sound d.task base) (hkept : Kept since d.task kinds db)
    (h : Aftermath d base db.steps) (hr : r ∈ base) (hrow : r ∈ db.steps)
    (hready : isReadyFor .approval r = true) :
    Aftermath d base (dispatchApproval d r db).2.steps := by
  obtain ⟨r', db', hspec⟩ :=
    dispatchApproval_spec (d := d) hkept.keyed hrow (isReadyFor_iff.mp hready).1
  have htraced : Traced d base r r' := by
    refine ⟨hspec.keeps, hspec.actionType, hspec.whenCondition, ?_, ?_, ?_⟩ <;>
      rcases hspec.result with ⟨hs, -⟩ | ⟨-, hs, -⟩ <;> rw [hs] <;> rintro ⟨⟩
  rcases hspec.result with ⟨hsuspended, heq⟩ | ⟨hunrendered, hfailed, heq⟩
  · rw [heq]
    refine h.replaces hkept.keyed hr hspec.replaces htraced ?_
    have hread : MayEnd d base r.stepName _ := .asRead r.stepName
    rw [outcome_eq_fromRow hbase.loops.keyed hr, (isReadyFor_iff.mp hready).1] at hread
    rw [hsuspended]
    exact hread
  · rw [heq]
    have hfails : Fails d base r := ⟨hr, hready, hunrendered⟩
    have hmid : Aftermath d base db'.steps := by
      refine h.replaces hkept.keyed hr hspec.replaces htraced ?_
      rw [hfailed]
      exact .failed hfails
    have hstatus := (isReadyFor_iff.mp hready).1
    have hon : MovesOn r r' := ⟨hspec.keeps, isLive_of_ready hstatus,
      hkept.rows.not_placeholder_of_ready hrow hstatus, by simp [hfailed], by simp [hfailed],
      hspec.whole (hkept.rows.whole r hrow)⟩
    exact hmid.orchestrate ⟨r, hfails⟩ hnames hbase
      (sound_replaces hkept.rows.sound hrow hon hspec.replaces)

theorem dispatchAll_aftermath (hnames : ∀ name ∈ d.task.flow.keys, '[' ∉ name.toList)
    (hbase : Sound d.task base) {steps : List JobStepRow} (hkept : Kept since d.task kinds db)
    (h : Aftermath d base db.steps)
    (hsteps : ∀ r ∈ steps, r ∈ base ∧ r ∈ db.steps ∧ isReadyFor .approval r = true)
    (hnodup : Keyed JobStepRow.stepName steps) :
    Aftermath d base (dispatchAll (dispatchApproval d) steps db).2.steps := by
  induction steps generalizing db with
  | nil => exact h
  | cons r steps ih =>
    obtain ⟨hr, hrow, hready⟩ := hsteps r List.mem_cons_self
    have hdispatch := dispatchApproval_kept (d := d) since kinds hnames
    have hwaiting := (hdispatch.proceeds (.inl rfl) hkept hrow hready).1.waiting
    refine ih (hdispatch.inv r db hkept hrow hready)
      (dispatchApproval_aftermath hnames hbase hkept h hr hrow hready) (fun a ha => ?_)
      hnodup.of_cons
    obtain ⟨hbase', hmem, haready⟩ := hsteps a (List.mem_cons_of_mem r ha)
    refine ⟨hbase', hwaiting a hmem (isReadyFor_iff.mp haready).1 ?_, haready⟩
    simpa using hnodup.key_ne a ha

/-- A step that is ready after the pass was ready before it, or was set off. -/
theorem handleApprovalSteps_aftermath (hnames : ∀ name ∈ d.task.flow.keys, '[' ∉ name.toList)
    (hkept : Kept since d.task kinds db) (ha : a ∈ (handleApprovalSteps d db).steps)
    (hready : a.status = .ready) :
    ∃ b ∈ db.steps, b.actionType = a.actionType ∧
      (b.stepName = a.stepName ∧ b.status = .ready ∨ SetOff d db.steps b) := by
  obtain ⟨hsteps, hnodup⟩ := ready_steps d .approval hkept.keyed
  have h : Aftermath d db.steps (handleApprovalSteps d db).steps :=
    dispatchAll_aftermath hnames hkept.rows.sound hkept (.refl d db.steps)
      (fun r hr => ⟨(hsteps r hr).1, hsteps r hr⟩) hnodup
  rcases h.origin a ha with ⟨b, hb, htraced⟩ | hfresh
  · exact ⟨b, hb, htraced.actionType.symm,
      (htraced.ready hready).imp_left fun hs => ⟨htraced.keeps.stepName.symm, hs⟩⟩
  · obtain ⟨p, hp, -, htype, hset⟩ := hfresh.source
    exact ⟨p, hp, htype.symm, .inr hset⟩

end Pass

end Stroem.Dispatch
