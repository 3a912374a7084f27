import Stroem.Cascade.Fixpoint
import Stroem.Engine.Sequential

/-!
# Sound rows

What the rows of a job have in common as long as only workers and cascades move them: every
row is a flow step or an instance of one, the instances of a loop are numbered without gaps, a
running placeholder has instances, and a finished one has only finished instances.  `Sound`
holds of a new job, of rows that change in place, and along the moves of a cascade.
-/

namespace Stroem.Engine

open Foundation JobStepRepo Cascade JobCreation

structure Sound (task : TaskDef) (rows : List JobStepRow) : Prop where
  loops : LoopRows task rows
  steps : ∀ r ∈ rows, r.loopSource = none → r.stepName ∈ task.flow.keys
  parent : ∀ r ∈ rows, ∀ p, r.loopSource = some p → ∀ q ∈ rows, q.stepName = p →
    q.isPlaceholder = true
  contiguous : ∀ r ∈ rows, ∀ p k, r.loopSource = some p → r.stepName = instanceName p k →
    ∀ j < k, ∃ i ∈ rows, i.loopSource = some p ∧ i.stepName = instanceName p j
  expanded : ∀ r ∈ rows, r.isPlaceholder = true → r.status = .running →
    ∃ i ∈ rows, i.loopSource = some r.stepName
  queued : ∀ r ∈ rows, ∀ p, r.loopSource = some p → r.status = .pending →
    isSequential task p = true ∧ r.stepName ≠ instanceName p 0
  closed : ∀ q ∈ rows, q.isPlaceholder = true → q.status.isTerminal = true →
    ∀ i ∈ rows, i.loopSource = some q.stepName → i.status.isTerminal = true
  placeholder : ∀ r ∈ rows, r.isPlaceholder = true →
    r.status = .pending ∨ r.status = .running ∨ r.status.isTerminal = true
  unclaimed : ∀ r ∈ rows, r.status ≠ .claimed

/-! ## The rows of a new job -/

theorem createSteps_sound {task : TaskDef} {jsonText : Json → String} {defaults : JobDefaults}
    {jobId : Uuid} {source : String → FlowStep → StepSource} {now : Time}
    {rows : List JobStepRow}
    (h : createSteps jsonText defaults jobId source task.flow now = some rows) :
    Sound task rows := by
  have hcreated : ∀ r ∈ rows, ∃ entry ∈ task.flow.entries, Created jsonText entry r :=
    fun r hr => mem_of_forall₂_right (createSteps_created h) hr
  have hno : ∀ p, ∀ r ∈ rows, r.loopSource ≠ some p := by
    intro p r hr hsource
    obtain ⟨entry, -, hrow⟩ := hcreated r hr
    rw [hrow.loopSource] at hsource
    cases hsource
  have hstatus : ∀ r ∈ rows, r.status = .pending ∨ r.status = .ready := by
    intro r hr
    obtain ⟨entry, -, hrow⟩ := hcreated r hr
    exact hrow.pending_or_ready
  refine ⟨(createSteps_inOrder h).loops, fun r hr _ => ?_,
    fun r hr p hsource => absurd hsource (hno p r hr),
    fun r hr p k hsource => absurd hsource (hno p r hr), fun r hr _ hrun => ?_,
    fun r hr p hsource => absurd hsource (hno p r hr),
    fun q _ _ _ i hi hsource => absurd hsource (hno _ i hi), fun r hr hplace => ?_,
    fun r hr hclaimed => ?_⟩
  · obtain ⟨entry, hentry, hrow⟩ := hcreated r hr
    rw [hrow.stepName]
    exact List.mem_map_of_mem hentry
  · rcases hstatus r hr with hs | hs <;> rw [hs] at hrun <;> cases hrun
  · obtain ⟨entry, -, hrow⟩ := hcreated r hr
    exact .inl (hrow.placeholder_pending hplace)
  · rcases hstatus r hr with hs | hs <;> rw [hs] at hclaimed <;> cases hclaimed

/-! ## Rows that change in place -/

structure InPlace (r r' : JobStepRow) : Prop where
  keeps : Keeps r r'
  pending : r'.status = .pending → r.status = .pending
  finished : r.status.isTerminal = true → r'.status = r.status
  placeholder : r.isPlaceholder = true →
    r'.status = r.status ∨ r.status = .pending ∧ r'.status.isTerminal = true
  unclaimed : r.status ≠ .claimed → r'.status ≠ .claimed

theorem Sound.inPlace {task : TaskDef} {rows rows' : List JobStepRow} (h : Sound task rows)
    (hkeyed : Keyed JobStepRow.stepName rows') (hkept : ∀ r ∈ rows, ∃ r' ∈ rows', InPlace r r')
    (horigin : ∀ r' ∈ rows', ∃ r ∈ rows, InPlace r r') : Sound task rows' := by
  have hinstance : ∀ p, (∃ i ∈ rows, i.loopSource = some p) →
      ∃ i ∈ rows', i.loopSource = some p := by
    rintro p ⟨i, hi, hsource⟩
    obtain ⟨i', hi', hrow⟩ := hkept i hi
    exact ⟨i', hi', hrow.keeps.loopSource.trans hsource⟩
  refine ⟨⟨hkeyed, fun name hname => ?_, fun r' hr' hsource => ?_, fun r' hr' p hsource => ?_,
    fun r' hr' p hsource q' hq' hname hpend => ?_⟩, fun r' hr' hsource => ?_,
    fun r' hr' p hsource q' hq' hname => ?_, fun r' hr' p k hsource hname j hj => ?_,
    fun r' hr' hplace hrun => ?_, fun r' hr' p hsource hpend => ?_,
    fun q' hq' hplace hterm i' hi' hsource => ?_, fun r' hr' hplace => ?_, fun r' hr' => ?_⟩
  · obtain ⟨r, hr, hrname, hsource⟩ := h.loops.flow name hname
    obtain ⟨r', hr', hrow⟩ := hkept r hr
    exact ⟨r', hr', hrow.keeps.stepName.trans hrname, hrow.keeps.loopSource.trans hsource⟩
  · obtain ⟨r, hr, hrow⟩ := horigin r' hr'
    rw [hrow.keeps.isPlaceholder]
    exact h.loops.plain r hr (by rwa [hrow.keeps.loopSource] at hsource)
  · obtain ⟨r, hr, hrow⟩ := horigin r' hr'
    rw [hrow.keeps.stepName, hrow.keeps.loopIndex]
    exact h.loops.index r hr p (hrow.keeps.loopSource.symm.trans hsource)
  · obtain ⟨r, hr, hrow⟩ := horigin r' hr'
    obtain ⟨q, hq, hqrow⟩ := horigin q' hq'
    exact h.loops.started r hr p (hrow.keeps.loopSource.symm.trans hsource) q hq
      (hqrow.keeps.stepName.symm.trans hname) (hqrow.pending hpend)
  · obtain ⟨r, hr, hrow⟩ := horigin r' hr'
    rw [hrow.keeps.stepName]
    exact h.steps r hr (hrow.keeps.loopSource.symm.trans hsource)
  · obtain ⟨r, hr, hrow⟩ := horigin r' hr'
    obtain ⟨q, hq, hqrow⟩ := horigin q' hq'
    rw [hqrow.keeps.isPlaceholder]
    exact h.parent r hr p (hrow.keeps.loopSource.symm.trans hsource) q hq
      (hqrow.keeps.stepName.symm.trans hname)
  · obtain ⟨r, hr, hrow⟩ := horigin r' hr'
    obtain ⟨i, hi, his, hiname⟩ := h.contiguous r hr p k
      (hrow.keeps.loopSource.symm.trans hsource) (hrow.keeps.stepName.symm.trans hname) j hj
    obtain ⟨i', hi', hirow⟩ := hkept i hi
    exact ⟨i', hi', hirow.keeps.loopSource.trans his, hirow.keeps.stepName.trans hiname⟩
  · obtain ⟨r, hr, hrow⟩ := horigin r' hr'
    rw [hrow.keeps.isPlaceholder] at hplace
    rw [hrow.keeps.stepName]
    refine hinstance _ (h.expanded r hr hplace ?_)
    rcases hrow.placeholder hplace with hs | ⟨-, hterm⟩
    · rw [← hs, hrun]
    · rw [hrun] at hterm
      cases hterm
  · obtain ⟨r, hr, hrow⟩ := horigin r' hr'
    rw [hrow.keeps.stepName]
    exact h.queued r hr p (hrow.keeps.loopSource.symm.trans hsource) (hrow.pending hpend)
  · obtain ⟨q, hq, hqrow⟩ := horigin q' hq'
    obtain ⟨i, hi, hirow⟩ := horigin i' hi'
    rw [hqrow.keeps.isPlaceholder] at hplace
    have his : i.loopSource = some q.stepName := by
      rw [← hirow.keeps.loopSource, hsource, hqrow.keeps.stepName]
    rcases hqrow.placeholder hplace with hs | ⟨hpend, -⟩
    · have hi' := h.closed q hq hplace (by rwa [← hs]) i hi his
      rwa [hirow.finished hi']
    · exact absurd hpend (h.loops.started i hi _ his q hq rfl)
  · obtain ⟨r, hr, hrow⟩ := horigin r' hr'
    rw [hrow.keeps.isPlaceholder] at hplace
    rcases hrow.placeholder hplace with hs | ⟨-, hterm⟩
    · rw [hs]
      exact h.placeholder r hr hplace
    · exact .inr (.inr hterm)
  · obtain ⟨r, hr, hrow⟩ := horigin r' hr'
    exact hrow.unclaimed (h.unclaimed r hr)

theorem Sound.of_mirrors {task : TaskDef} {rows : List JobStepRow} {snap : Snapshot}
    (h : Sound task snap) (hmir : Mirrors rows snap) : Sound task rows := by
  have hrow : ∀ {r r' : JobStepRow}, r'.visible = r.visible → InPlace r r' := by
    intro r r' heq
    have hs : r'.status = r.status := congrArg (·.status) heq
    exact ⟨⟨congrArg (·.stepName) heq, congrArg (·.forEachExpr) heq, congrArg (·.loopSource) heq,
      congrArg (·.loopIndex) heq⟩, fun hp => hs.symm.trans hp, fun _ => hs, fun _ => .inl hs,
      fun hne hc => hne (hs.symm.trans hc)⟩
  refine h.inPlace (hmir.distinct h.loops.keyed) (fun r hr => ?_) (fun r' hr' => ?_)
  · obtain ⟨r', hr', heq⟩ := hmir.mem_right hr
    exact ⟨r', hr', hrow heq⟩
  · obtain ⟨r, hr, heq⟩ := hmir.mem_left hr'
    exact ⟨r, hr, hrow heq.symm⟩

/-! ## Moves of the cascade -/

section Cascade

variable {task : TaskDef} {snap : Snapshot} {c : Change} {jobId : Uuid}

private theorem inserted_index (hground : Grounded task jobId snap c) {a : JobStepRow}
    (ha : a ∈ c.inserted) :
    c.target ∈ task.flow.keys ∧ ∃ k < maxForEachItems, a.stepName = instanceName c.target k ∧
      a.loopIndex = some (Int32.ofNat k) ∧
      (∀ j < k, ∃ b ∈ c.inserted, b.stepName = instanceName c.target j) ∧
      (a.status = .pending → isSequential task c.target = true ∧ 0 < k) := by
  cases c with
  | expand p instances =>
    obtain ⟨fs, r, items, hfs, rfl, rfl, hne, hlen⟩ := hground
    obtain ⟨inst, hinst, rfl⟩ := List.mem_map.mp ha
    obtain ⟨k, hk, rfl⟩ := mem_expandInstances hinst
    refine ⟨Flow.mem_keys_iff.mpr ⟨fs, hfs⟩, k, hk.trans_le hlen, rfl, rfl, fun j hj => ?_,
      fun hpend => ?_⟩
    · have hj' : j < items.length := hj.trans hk
      exact ⟨_, List.mem_map_of_mem (List.mem_mapIdx.mpr ⟨j, hj', rfl⟩), rfl⟩
    · have hseq : isSequential task r.stepName = fs.sequential := by
        simp [isSequential, hfs]
      simp only [syntheticRow, expandInstance] at hpend
      split at hpend
      case isTrue hcond =>
        simp only [Bool.and_eq_true, decide_eq_true_eq] at hcond
        exact ⟨hseq.trans hcond.1, hcond.2⟩
      case isFalse => cases hpend
  | _ => simp [Change.inserted] at ha

theorem mem_apply_cases (h : Distinct snap) {r' : JobStepRow} (hr' : r' ∈ snap.apply c) :
    (∃ r ∈ snap, Keeps r r' ∧ (r.stepName = c.target ∧ r' = c.setRow r ∨
      r.stepName ≠ c.target ∧ r' = r)) ∨ r' ∈ c.inserted := by
  rcases (Snapshot.mem_apply h).mp hr' with ⟨r, hr, ht, rfl⟩ | ⟨hr, ht⟩ | hr
  · exact .inl ⟨r, hr, ⟨by simp, by simp, by simp, by simp⟩, .inl ⟨ht, rfl⟩⟩
  · exact .inl ⟨r', hr, ⟨rfl, rfl, rfl, rfl⟩, .inr ⟨ht, rfl⟩⟩
  · exact .inr hr

theorem kept_apply (h : Distinct snap) {r : JobStepRow} (hr : r ∈ snap) :
    ∃ r' ∈ snap.apply c, Keeps r r' := by
  by_cases ht : r.stepName = c.target
  · exact ⟨c.setRow r, (Snapshot.mem_apply h).mpr (.inl ⟨r, hr, ht, rfl⟩),
      ⟨by simp, by simp, by simp, by simp⟩⟩
  · exact ⟨r, (Snapshot.mem_apply h).mpr (.inr (.inl ⟨hr, ht⟩)), rfl, rfl, rfl, rfl⟩

private theorem flow_not_inserted (hs : Sound task snap) (hc : Moves snap c) {p : String}
    (hp : p ∈ task.flow.keys) : ∀ a ∈ c.inserted, a.stepName ≠ p := by
  intro a ha hname
  obtain ⟨q, hq, hqname, -⟩ := hs.loops.flow p hp
  exact hc.fresh q hq a ha (hqname.trans hname.symm)

private theorem loopRows_apply (hs : Sound task snap) (hc : Moves snap c)
    (hground : Grounded task jobId snap c) : LoopRows task (snap.apply c) := by
  have h := hs.loops.keyed
  refine ⟨hc.distinct h, fun name hname => ?_, fun r' hr' hsource => ?_,
    fun r' hr' p hsource => ?_, fun r' hr' p hsource q' hq' hname hpend => ?_⟩
  · obtain ⟨r, hr, hrname, hsource⟩ := hs.loops.flow name hname
    obtain ⟨r', hr', hkeeps⟩ := kept_apply (c := c) h hr
    exact ⟨r', hr', hkeeps.stepName.trans hrname, hkeeps.loopSource.trans hsource⟩
  · rcases mem_apply_cases h hr' with ⟨r, hr, hkeeps, -⟩ | ha
    · rw [hkeeps.isPlaceholder]
      exact hs.loops.plain r hr (by rwa [hkeeps.loopSource] at hsource)
    · exact Change.inserted_isPlaceholder ha
  · rcases mem_apply_cases h hr' with ⟨r, hr, hkeeps, -⟩ | ha
    · rw [hkeeps.stepName, hkeeps.loopIndex]
      exact hs.loops.index r hr p (hkeeps.loopSource.symm.trans hsource)
    · obtain rfl := Option.some.inj ((hc.instances r' ha).1.symm.trans hsource)
      obtain ⟨hflow, k, hk, hname, hindex, -⟩ := inserted_index hground ha
      exact ⟨hflow, k, hk, hname, hindex⟩
  · rcases mem_apply_cases h hq' with ⟨q, hq, hqkeeps, ⟨-, rfl⟩ | ⟨hne, rfl⟩⟩ | ha
    · exact c.setRow_status_ne_pending q hpend
    · rcases mem_apply_cases h hr' with ⟨r, hr, hkeeps, -⟩ | ha
      · exact hs.loops.started r hr p (hkeeps.loopSource.symm.trans hsource) q' hq hname hpend
      · exact hne (hname.trans (Option.some.inj ((hc.instances r' ha).1.symm.trans hsource)).symm)
    · have hp : p ∈ task.flow.keys := by
        rcases mem_apply_cases h hr' with ⟨r, hr, hkeeps, -⟩ | ha
        · exact (hs.loops.index r hr p (hkeeps.loopSource.symm.trans hsource)).1
        · obtain rfl := Option.some.inj ((hc.instances r' ha).1.symm.trans hsource)
          exact (inserted_index hground ha).1
      exact flow_not_inserted hs hc hp q' ha hname

theorem not_target_of_terminal (h : Distinct snap) (hc : Moves snap c) {r : JobStepRow}
    (hr : r ∈ snap) (hterm : r.status.isTerminal = true) : r.stepName ≠ c.target := by
  intro hname
  obtain ⟨t, ht, htname, hstatus⟩ := hc.target_mem h
  obtain rfl := h.eq_of_key hr ht (hname.trans htname.symm)
  rcases hstatus with haccepts | ⟨hready, -⟩
  · rcases Change.accepts_status haccepts with hs | hs <;>
      simp [hs, StepStatus.isTerminal] at hterm
  · simp [hready, StepStatus.isTerminal] at hterm

private theorem closed_apply (hs : Sound task snap) (hc : Moves snap c)
    (hground : Grounded task jobId snap c) {q' i' : JobStepRow} (hq' : q' ∈ snap.apply c)
    (hplace : q'.isPlaceholder = true) (hterm : q'.status.isTerminal = true)
    (hi' : i' ∈ snap.apply c) (hsource : i'.loopSource = some q'.stepName) :
    i'.status.isTerminal = true := by
  have h := hs.loops.keyed
  rcases mem_apply_cases h hq' with ⟨q, hq, hqkeeps, hqcase⟩ | ha
  swap
  · rw [Change.inserted_isPlaceholder ha] at hplace
    cases hplace
  rw [hqkeeps.stepName] at hsource
  rw [hqkeeps.isPlaceholder] at hplace
  rcases hqcase with ⟨htarget, rfl⟩ | ⟨hne, rfl⟩
  · -- the placeholder itself is finished by this change: a rollup, or before it has started
    obtain ⟨t, ht, htname, hstatus⟩ := hc.target_mem h
    obtain rfl := h.eq_of_key hq ht (htarget.trans htname.symm)
    rcases mem_apply_cases h hi' with ⟨i, hi, hikeeps, hicase⟩ | ha
    · have his := hikeeps.loopSource.symm.trans hsource
      have hstarted := hs.loops.started i hi _ his q hq rfl
      have hother : i.stepName ≠ c.target := by
        intro hname
        rw [← h.eq_of_key hi hq (hname.trans htarget.symm),
          hs.loops.plain i hi (by simp [his])] at hplace
        cases hplace
      obtain rfl := (hicase.resolve_left fun hi => hother hi.1).2
      cases c with
      | rollup p outcome => exact hground i' hi (by rw [his, htarget]; rfl)
      | promote step | expand p instances
      | adopt p => simp [Change.setRow, StepStatus.isTerminal] at hterm
      | skip step reason | fail step error => simp [Change.accepts, hstarted] at hstatus
    · cases c with
      | expand p instances => simp [Change.setRow, StepStatus.isTerminal] at hterm
      | _ => simp [Change.inserted] at ha
  · rcases mem_apply_cases h hi' with ⟨i, hi, hikeeps, hicase⟩ | ha
    · have hi_term := hs.closed q' hq hplace hterm i hi (hikeeps.loopSource.symm.trans hsource)
      have hother := not_target_of_terminal h hc hi hi_term
      obtain rfl := (hicase.resolve_left fun hi => hother hi.1).2
      exact hi_term
    · exact absurd (Option.some.inj (hsource.symm.trans (hc.instances i' ha).1)) hne

private theorem expanded_apply (hnames : ∀ name ∈ task.flow.keys, '[' ∉ name.toList)
    (hs : Sound task snap) (hc : Moves snap c) (hground : Grounded task jobId snap c)
    {r' : JobStepRow} (hr' : r' ∈ snap.apply c) (hplace : r'.isPlaceholder = true)
    (hrun : r'.status = .running) : ∃ i ∈ snap.apply c, i.loopSource = some r'.stepName := by
  have h := hs.loops.keyed
  have hkept : ∀ p, (∃ i ∈ snap, i.loopSource = some p) →
      ∃ i ∈ snap.apply c, i.loopSource = some p := by
    rintro p ⟨i, hi, his⟩
    obtain ⟨i', hi', hkeeps⟩ := kept_apply (c := c) h hi
    exact ⟨i', hi', hkeeps.loopSource.trans his⟩
  rcases mem_apply_cases h hr' with ⟨r, hr, hkeeps, ⟨htarget, rfl⟩ | ⟨-, rfl⟩⟩ | ha
  · rw [hkeeps.stepName, htarget]
    rcases Change.setRow_status_running hrun with ⟨p, instances, rfl⟩ | ⟨p, rfl⟩
    · obtain ⟨fs, r₀, items, -, -, rfl, hne, -⟩ := hground
      obtain ⟨item, rest, rfl⟩ := List.exists_cons_of_ne_nil hne
      have hmem : syntheticRow (expandInstance fs jobId (Int32.ofNat (item :: rest).length) r₀ 0
          item) ∈ (Change.expand p (expandInstances fs jobId r₀ (item :: rest))).inserted :=
        List.mem_map_of_mem (List.mem_mapIdx.mpr ⟨0, by simp, rfl⟩)
      exact ⟨_, (Snapshot.mem_apply h).mpr (.inr (.inr hmem)), (hc.instances _ hmem).1⟩
    · obtain ⟨b, hb, hbname⟩ := hground
      refine hkept _ ⟨b, hb, ?_⟩
      cases hbs : b.loopSource with
      | none =>
        have hbracket := hnames _ (hs.steps b hb hbs)
        rw [hbname] at hbracket
        exact absurd (bracket_mem_instanceName p 0) hbracket
      | some q =>
        obtain ⟨-, k, -, hname, -⟩ := hs.loops.index b hb q hbs
        rw [(instanceName_inj (hname.symm.trans hbname)).1]
        rfl
  · exact hkept _ (hs.expanded r' hr hplace hrun)
  · rw [Change.inserted_isPlaceholder ha] at hplace
    cases hplace

theorem Sound.apply (hnames : ∀ name ∈ task.flow.keys, '[' ∉ name.toList) (hs : Sound task snap)
    (hc : Moves snap c) (hground : Grounded task jobId snap c) : Sound task (snap.apply c) := by
  have h := hs.loops.keyed
  refine ⟨loopRows_apply hs hc hground, fun r' hr' hsource => ?_,
    fun r' hr' p hsource q' hq' hname => ?_, fun r' hr' p k hsource hname j hj => ?_,
    fun r' hr' hplace hrun => expanded_apply hnames hs hc hground hr' hplace hrun,
    fun r' hr' p hsource hpend => ?_,
    fun q' hq' hplace hterm i' hi' hsource =>
      closed_apply hs hc hground hq' hplace hterm hi' hsource,
    fun r' hr' hplace => ?_, fun r' hr' hclaimed => ?_⟩
  · rcases mem_apply_cases h hr' with ⟨r, hr, hkeeps, -⟩ | ha
    · rw [hkeeps.stepName]
      exact hs.steps r hr (hkeeps.loopSource.symm.trans hsource)
    · rw [(hc.instances r' ha).1] at hsource
      cases hsource
  · rcases mem_apply_cases h hq' with ⟨q, hq, hqkeeps, -⟩ | haq
    · rw [hqkeeps.isPlaceholder]
      have hqname := hqkeeps.stepName.symm.trans hname
      rcases mem_apply_cases h hr' with ⟨r, hr, hkeeps, -⟩ | ha
      · exact hs.parent r hr p (hkeeps.loopSource.symm.trans hsource) q hq hqname
      · have hp := Option.some.inj ((hc.instances r' ha).1.symm.trans hsource)
        exact hc.loop (List.ne_nil_of_mem ha) q hq (hqname.trans hp.symm)
    · have hp : p ∈ task.flow.keys :=
        ((loopRows_apply hs hc hground).index r' hr' p hsource).1
      exact absurd hname (flow_not_inserted hs hc hp q' haq)
  · rcases mem_apply_cases h hr' with ⟨r, hr, hkeeps, -⟩ | ha
    · obtain ⟨i, hi, his, hiname⟩ := hs.contiguous r hr p k
        (hkeeps.loopSource.symm.trans hsource) (hkeeps.stepName.symm.trans hname) j hj
      obtain ⟨i', hi', hikeeps⟩ := kept_apply (c := c) h hi
      exact ⟨i', hi', hikeeps.loopSource.trans his, hikeeps.stepName.trans hiname⟩
    · obtain rfl := Option.some.inj ((hc.instances r' ha).1.symm.trans hsource)
      obtain ⟨-, k', -, hname', -, hbelow, -⟩ := inserted_index hground ha
      obtain ⟨-, rfl⟩ := instanceName_inj (hname.symm.trans hname')
      obtain ⟨b, hb, hbname⟩ := hbelow j hj
      exact ⟨b, (Snapshot.mem_apply h).mpr (.inr (.inr hb)), (hc.instances b hb).1, hbname⟩
  · rcases mem_apply_cases h hr' with ⟨r, hr, hkeeps, ⟨-, rfl⟩ | ⟨-, rfl⟩⟩ | ha
    · exact absurd hpend (c.setRow_status_ne_pending r)
    · exact hs.queued r' hr p hsource hpend
    · obtain rfl := Option.some.inj ((hc.instances r' ha).1.symm.trans hsource)
      obtain ⟨-, k, -, hname, -, -, hqueued⟩ := inserted_index hground ha
      refine ⟨(hqueued hpend).1, fun hzero => ?_⟩
      have hk := (instanceName_inj (hname.symm.trans hzero)).2
      have hpos := (hqueued hpend).2
      omega
  · rcases mem_apply_cases h hr' with ⟨r, hr, hkeeps, ⟨htarget, rfl⟩ | ⟨-, rfl⟩⟩ | ha
    · cases c with
      | promote step =>
        exfalso
        obtain ⟨r₀, hr₀, hname, hkind⟩ := hground
        obtain rfl := h.eq_of_key hr hr₀ (htarget.trans hname.symm)
        rw [hkeeps.isPlaceholder] at hplace
        rcases hkind with hkind | hkind
        · rw [hplace] at hkind
          cases hkind
        · rw [hs.loops.plain r hr hkind] at hplace
          cases hplace
      | rollup p outcome => cases outcome <;> exact .inr (.inr rfl)
      | expand p instances => exact .inr (.inl rfl)
      | adopt p => exact .inr (.inl rfl)
      | skip step reason => exact .inr (.inr rfl)
      | fail step error => exact .inr (.inr rfl)
    · exact hs.placeholder r' hr hplace
    · rw [Change.inserted_isPlaceholder ha] at hplace
      cases hplace
  · rcases mem_apply_cases h hr' with ⟨r, hr, hkeeps, ⟨-, rfl⟩ | ⟨-, rfl⟩⟩ | ha
    · cases c with
      | rollup p outcome => cases outcome <;> cases hclaimed
      | _ => cases hclaimed
    · exact hs.unclaimed r' hr hclaimed
    · rcases (hc.instances r' ha).2.2 with hstatus | hstatus <;> rw [hstatus] at hclaimed <;>
        cases hclaimed

end Cascade

end Stroem.Engine
