import Stroem.Engine.Plans

/-!
# Sequential loops in a plan

What a plan may do to the instances of a loop, given the rows it was computed from: release the
successor of an instance that was already finished there, or skip every instance that was still
pending there.  The argument follows the chain of batches: until the loop is abandoned, its
finished instances are those of the rows read; afterwards it has no pending instance left.
-/

namespace Stroem.Cascade

open Foundation Engine

def FlowRows (task : TaskDef) (snap : Snapshot) : Prop :=
  ∀ name ∈ task.flow.keys, ∃ r ∈ snap, r.stepName = name ∧ r.loopSource = none

def PlainInstances (snap : Snapshot) : Prop :=
  ∀ r ∈ snap, r.loopSource ≠ none → r.isPlaceholder = false

theorem FlowRows.get_eq_none {task : TaskDef} {snap : Snapshot} (h : Distinct snap)
    (hflow : FlowRows task snap) {r : JobStepRow} (hr : r ∈ snap) (hsource : r.loopSource ≠ none) :
    task.flow.get r.stepName = none := by
  by_contra hget
  obtain ⟨fs, hfs⟩ := Option.ne_none_iff_exists'.mp hget
  obtain ⟨r₀, hr₀, hname, hnone⟩ := hflow r.stepName (Flow.mem_keys_iff.mpr ⟨fs, hfs⟩)
  rw [h.eq_of_key hr₀ hr hname] at hnone
  exact hsource hnone

section Chain

variable {env : TemplateEnv} {task : TaskDef} {job : JobRow} {ws : Option WorkspaceConfig}
  {ss : Snapshots} {snap : Snapshot} {cs : List Change}

theorem Steps.flowRows (h : Distinct snap) (hsteps : Steps snap cs) (hflow : FlowRows task snap) :
    FlowRows task (snap.applyAll cs) := by
  intro name hname
  obtain ⟨r, hr, hr', hsource⟩ := hflow name hname
  obtain ⟨r', hmem, hmoved⟩ := hsteps.kept h r hr
  exact ⟨r', hmem, hmoved.keeps.stepName.trans hr', hmoved.keeps.loopSource.trans hsource⟩

theorem Steps.plainInstances (h : Distinct snap) (hsteps : Steps snap cs)
    (hplain : PlainInstances snap) : PlainInstances (snap.applyAll cs) := by
  intro r' hr' hsource
  rcases hsteps.origin h r' hr' with ⟨r, hr, hmoved⟩ | ⟨c, -, a, ha, hmoved⟩
  · rw [hmoved.keeps.loopSource] at hsource
    rw [hmoved.keeps.isPlaceholder]
    exact hplain r hr hsource
  · rw [hmoved.keeps.isPlaceholder]
    exact Change.inserted_isPlaceholder ha

def Untouched (base : Snapshot) (p : String) (snap : Snapshot) : Prop :=
  ∀ i ∈ snap, i.loopSource = some p → i.status.isTerminal = true → i ∈ base

def Abandoning (p : String) (snap : Snapshot) : Prop :=
  (∀ q ∈ snap, q.stepName = p → q.status ≠ .pending) ∧
    ∀ n ∈ snap, n.loopSource = some p → n.status ≠ .pending

private theorem Abandoning.applyAll {p : String} (h : Distinct snap) (hsteps : Steps snap cs)
    (hflow : FlowRows task snap) (hp : p ∈ task.flow.keys) (hclosed : Abandoning p snap)
    (hmoves : ∀ c ∈ cs, Moves snap c) : Abandoning p (snap.applyAll cs) := by
  obtain ⟨q, hq, hqname, -⟩ := hflow p hp
  refine ⟨fun q' hq' hname hpend => ?_, fun n' hn' hsource hpend => ?_⟩
  · rcases hsteps.origin h q' hq' with ⟨q₀, hq₀, hmoved⟩ | ⟨c, hc, a, ha, hmoved⟩
    · obtain rfl := hmoved.of_pending hpend
      exact hclosed.1 q' hq₀ hname hpend
    · have haname := hmoved.keeps.stepName.symm.trans hname
      exact (hmoves c hc).fresh q hq a ha (hqname.trans haname.symm)
  · rcases hsteps.origin h n' hn' with ⟨n, hn, hmoved⟩ | ⟨c, hc, a, ha, hmoved⟩
    · obtain rfl := hmoved.of_pending hpend
      exact hclosed.2 n' hn hsource hpend
    · rw [hmoved.of_pending hpend] at hsource
      obtain ⟨hasource, -, -⟩ := (hmoves c hc).instances a ha
      have htarget : c.target = p := Option.some.inj (hasource.symm.trans hsource)
      exact hclosed.1 q hq hqname
        (hsteps.pending_of_inserted h hc ha hq (hqname.trans htarget.symm))

theorem Batch.untouched {base : Snapshot} {p : String} (h : Distinct snap)
    (hflow : FlowRows task snap) (hplain : PlainInstances snap) (hp : p ∈ task.flow.keys)
    (hb : Batch env task job ws ss snap cs) (hmoves : ∀ c ∈ cs, Moves snap c)
    (hloop : Untouched base p snap ∨ Abandoning p snap) :
    Untouched base p (snap.applyAll cs) ∨ Abandoning p (snap.applyAll cs) := by
  have hsteps := Steps.of_batch h hmoves (hb.compatible h)
  rcases hloop with huntouched | hclosed
  swap
  · exact .inr (hclosed.applyAll h hsteps hflow hp hmoves)
  by_cases habandon : cs = phaseRollup snap task ∧ ∃ ph ∈ snap, ph.stepName = p ∧
      ph.isPlaceholder = true ∧ ph.status = .running ∧ isSequential task p = true ∧
      continuesOnFailure task p = false ∧
      ∃ bad ∈ snap, bad.loopSource = some p ∧ isBad bad = true
  · obtain ⟨rfl, ph, hph, rfl, hplace, hrun, hseq, hcof, bad, hbad, hbs, hisBad⟩ := habandon
    have hnone : ∀ c ∈ phaseRollup snap task, c.inserted = [] := by
      intro c hc
      obtain ⟨_, -, -, -, hreason⟩ := phaseRollup_reason hc
      exact hreason.inserted
    refine .inr ⟨fun q' hq' hname hpend => ?_, fun n' hn' hsource hpend => ?_⟩
    · rcases hsteps.origin h q' hq' with ⟨q, hq, hmoved⟩ | ⟨c, hc, a, ha, -⟩
      · obtain rfl := hmoved.of_pending hpend
        rw [h.eq_of_key hq hph hname, hrun] at hpend
        cases hpend
      · simp [hnone c hc] at ha
    · rcases hsteps.origin h n' hn' with ⟨n, hn, hmoved⟩ | ⟨c, hc, a, ha, -⟩
      · obtain rfl := hmoved.of_pending hpend
        have hskip := phaseRollup_abandon hph hplace hrun hseq hcof hbad hbs hisBad hn hsource hpend
        obtain ⟨r, hr, hname, hstarted⟩ := hsteps.done h hskip
        rw [(hsteps.distinct h).eq_of_key hr hn' hname] at hstarted
        exact hstarted hpend
      · simp [hnone c hc] at ha
  · refine .inl fun i' hi' hsource hterm => ?_
    rcases hsteps.origin h i' hi' with ⟨i, hi, hmoved⟩ | ⟨c, hc, a, ha, hmoved⟩
    · rw [hmoved.keeps.loopSource] at hsource
      rcases hmoved.outcome with rfl | ⟨-, c, hc, htarget, hstatus⟩
      · exact huntouched i' hi hsource hterm
      · exfalso
        have hget := hflow.get_eq_none h hi (by simp [hsource])
        rw [hstatus] at hterm
        cases hb with
        | rollup =>
          obtain ⟨ph, hph, hplace, hrun, hreason⟩ := phaseRollup_reason hc
          cases hreason with
          | abandon n bad hseq hcof hbad hbs hisBad hn hns hnp =>
            rw [← h.eq_of_key hn hi htarget, hns] at hsource
            cases hsource
            exact habandon ⟨rfl, ph, hph, rfl, hplace, hrun, hseq, hcof, bad, hbad, hbs, hisBad⟩
          | advance => simp [Change.setRow, StepStatus.isTerminal] at hterm
          | finish outcome hall =>
            rw [h.eq_of_key hph hi htarget, hplain i hi (by simp [hsource])] at hplace
            cases hplace
        | promote =>
          obtain ⟨r, -, -, -, fs, hfs, hreason⟩ := promoteBatch_reason hc
          rw [← hreason.target, htarget, hget] at hfs
          cases hfs
        | placeholders =>
          obtain ⟨r, -, -, -, fs, hfs, hreason⟩ := phasePlaceholders_reason hc
          rw [← hreason.target, htarget, hget] at hfs
          cases hfs
    · -- a new instance is not finished, and no change of its own batch moves it
      exfalso
      obtain ⟨-, -, hstatus⟩ := (hmoves c hc).instances a ha
      rcases hmoved.outcome with rfl | ⟨-, d, hd, htarget, -⟩
      · rcases hstatus with hs | hs <;> simp [hs, StepStatus.isTerminal] at hterm
      · obtain ⟨t, ht, hname, -⟩ := (hmoves d hd).target_mem h
        exact (hmoves c hc).fresh t ht a ha (hname.trans htarget)

theorem Batches.untouched {base last : Snapshot} {p : String} (h : Distinct snap)
    (hgrown : GrownFrom base snap) (hflow : FlowRows task snap) (hplain : PlainInstances snap)
    (hp : p ∈ task.flow.keys) (hb : Batches env task job ws ss snap cs last)
    (hnew : InsertsNew base cs) (hloop : Untouched base p snap ∨ Abandoning p snap) :
    Untouched base p last ∨ Abandoning p last := by
  induction hb with
  | nil => exact hloop
  | cons hb _ ih =>
    have hmoves := hb.moves_of_insertsNew h hgrown fun c hc => hnew c (List.mem_append_left _ hc)
    have hsteps := Steps.of_batch h hmoves (hb.compatible h)
    exact ih (hsteps.distinct h)
      (hsteps.invariant (GrownFrom base) (fun _ _ hs hg hc => hc.grownFrom hs hg) h hgrown)
      (hsteps.flowRows h hflow) (hsteps.plainInstances h hplain)
      (fun c hc => hnew c (List.mem_append_right _ hc))
      (hb.untouched h hflow hplain hp hmoves hloop)

end Chain

end Stroem.Cascade

namespace Stroem.Engine

open Foundation JobStepRepo Cascade

structure LoopRows (task : TaskDef) (rows : List JobStepRow) : Prop where
  keyed : Keyed JobStepRow.stepName rows
  flow : FlowRows task rows
  plain : PlainInstances rows
  index : ∀ r ∈ rows, ∀ p, r.loopSource = some p → p ∈ task.flow.keys ∧
    ∃ i < maxForEachItems, r.stepName = instanceName p i ∧ r.loopIndex = some (Int32.ofNat i)
  started : ∀ r ∈ rows, ∀ p, r.loopSource = some p →
    ∀ q ∈ rows, q.stepName = p → q.status ≠ .pending

/--
The next instance `n` of the sequential loop `p` is due: the one before it is finished, and no
instance failed unless the loop goes on after failures.
-/
structure Due (task : TaskDef) (rows : List JobStepRow) (p : String) (i n : JobStepRow) :
    Prop where
  sequential : isSequential task p = true
  before : i ∈ rows ∧ i.loopSource = some p ∧ i.status.isTerminal = true
  next : n ∈ rows ∧ n.loopSource = some p ∧ n.status = .pending
  index : ∃ idx, i.loopIndex = some idx ∧ n.loopIndex = some (idx + 1)
  healthy : continuesOnFailure task p = true ∨
    ∀ b ∈ rows, b.loopSource = some p → isBad b = false

inductive LoopChange (task : TaskDef) (rows : List JobStepRow) (cs : List Change) :
    Change → Prop
  | flow {c : Change} (fs : FlowStep) : task.flow.get c.target = some fs →
      LoopChange task rows cs c
  | placeholder {c : Change} (q : JobStepRow) : q ∈ rows → q.stepName = c.target →
      q.isPlaceholder = true → LoopChange task rows cs c
  | release (p : String) (i n : JobStepRow) : Due task rows p i n →
      LoopChange task rows cs (.promote n.stepName)
  | abandon (p : String) (n : JobStepRow) : n ∈ rows → n.loopSource = some p →
      n.status = .pending →
      (∀ m ∈ rows, m.loopSource = some p → m.status = .pending →
        ∃ d ∈ cs, d.target = m.stepName) →
      LoopChange task rows cs (.skip n.stepName .unreachable)

theorem isSequential_mem_keys {task : TaskDef} {p : String} (h : isSequential task p = true) :
    p ∈ task.flow.keys := by
  cases hget : task.flow.get p with
  | none => simp [isSequential, hget] at h
  | some fs => exact Flow.mem_keys_iff.mpr ⟨fs, hget⟩

theorem isBad_isTerminal {r : JobStepRow} (h : isBad r = true) : r.status.isTerminal = true := by
  simp only [isBad, Bool.or_eq_true, beq_iff_eq] at h
  rcases h with hs | hs <;> rw [hs] <;> rfl

section Plan

variable {env : TemplateEnv} {task : TaskDef} {job : JobRow} {ws : Option WorkspaceConfig}
  {ss : Snapshots} {steps : List JobStepRow}

private theorem mem_of_pending_instance {pre : List Change} (h : LoopRows task steps)
    (hsteps : Steps steps pre) {p : String} {i n : JobStepRow} (hi : i ∈ steps)
    (his : i.loopSource = some p) (hn : n ∈ Snapshot.applyAll steps pre)
    (hns : n.loopSource = some p) (hpend : n.status = .pending) : n ∈ steps := by
  rcases hsteps.origin h.keyed n hn with ⟨n₀, hn₀, hmoved⟩ | ⟨c, hc, a, ha, hmoved⟩
  · rwa [hmoved.of_pending hpend]
  · exfalso
    have hsource := hsteps.inserted_source hc ha
    rw [← hmoved.keeps.loopSource, hns] at hsource
    obtain ⟨q, hq, hqname, -⟩ := h.flow p (h.index i hi p his).1
    refine h.started i hi p his q hq hqname (hsteps.pending_of_inserted h.keyed hc ha hq ?_)
    rw [hqname, Option.some.inj hsource]

theorem Behind.loopChange {plan : Plan} {cs : List Change} {c : Change} (h : LoopRows task steps)
    (hb : Behind env task job ws ss steps plan cs) (hc : c ∈ cs) :
    LoopChange task steps cs c := by
  obtain ⟨pre, batch, hpre, hsub, hsteps, hbatches, hbatch, hmem⟩ := hb.batch h.keyed hc
  have hnew : InsertsNew steps pre := fun d hd => hb.new d (hpre d hd)
  have hloop : ∀ p ∈ task.flow.keys, Untouched steps p (Snapshot.applyAll steps pre) ∨
      Abandoning p (Snapshot.applyAll steps pre) := fun p hp =>
    hbatches.untouched h.keyed (.refl steps) h.flow h.plain hp hnew (.inl fun i hi _ _ => hi)
  cases hbatch with
  | rollup =>
    obtain ⟨ph, hph, hplace, hrun, hreason⟩ := phaseRollup_reason hmem
    cases hreason with
    | abandon n bad hseq hcof hbad hbs hisBad hn hns hnp =>
      rcases hloop _ (isSequential_mem_keys hseq) with huntouched | hclosed
      swap
      · exact absurd hnp (hclosed.2 n hn hns)
      have hbad₀ := huntouched bad hbad hbs (isBad_isTerminal hisBad)
      refine .abandon ph.stepName n (mem_of_pending_instance h hsteps hbad₀ hbs hn hns hnp)
        hns hnp fun m hm hms hmp => ?_
      obtain ⟨m', hm', hmoved⟩ := hsteps.kept h.keyed m hm
      rcases hmoved.outcome with rfl | ⟨-, d, hd, htarget, -⟩
      · exact ⟨_, hsub _ (phaseRollup_abandon hph hplace hrun hseq hcof hbad hbs hisBad hm' hms
          hmp), rfl⟩
      · exact ⟨d, hpre d hd, htarget⟩
    | advance i n idx hseq hgood hi his hit hidx hn hns hnidx hnp =>
      rcases hloop _ (isSequential_mem_keys hseq) with huntouched | hclosed
      swap
      · exact absurd hnp (hclosed.2 n hn hns)
      have hi₀ := huntouched i hi his hit
      refine .release ph.stepName i n ⟨hseq, ⟨hi₀, his, hit⟩,
        ⟨mem_of_pending_instance h hsteps hi₀ his hn hns hnp, hns, hnp⟩, ⟨idx, hidx, hnidx⟩,
        hgood.imp id fun hall b hb hbs => ?_⟩
      by_contra hisBad
      have hterm := isBad_isTerminal (by simpa using hisBad)
      exact hisBad (hall b (hsteps.mem_terminal h.keyed hb hterm) hbs)
    | finish outcome hall =>
      rcases hsteps.origin h.keyed ph hph with ⟨q, hq, hmoved⟩ | ⟨d, hd, a, ha, hmoved⟩
      · refine .placeholder q hq hmoved.keeps.stepName.symm ?_
        rwa [← hmoved.keeps.isPlaceholder]
      · rw [hmoved.keeps.isPlaceholder, Change.inserted_isPlaceholder ha] at hplace
        cases hplace
  | promote =>
    obtain ⟨r, -, -, -, fs, hfs, hreason⟩ := promoteBatch_reason hmem
    exact .flow fs (by rwa [hreason.target])
  | placeholders =>
    obtain ⟨r, -, -, -, fs, hfs, hreason⟩ := phasePlaceholders_reason hmem
    exact .flow fs (by rwa [hreason.target])

end Plan

end Stroem.Engine
