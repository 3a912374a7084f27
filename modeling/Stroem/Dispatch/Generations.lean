import Mathlib.Data.Finset.Card
import Stroem.Dispatch.Drain
import Stroem.Engine.Progress

/-!
# Generations of ready task steps

How many passes `handle_task_steps` needs.  The rows of a job belong to the steps of its flow, and
a failure that makes task steps ready uses up a step of the flow: after it the failed step has no
row left that is pending or ready, unless it is a sequential loop that goes on after a failure.
-/

namespace Stroem.Dispatch

open Foundation JobStepRepo Cascade Engine JobCreation

variable {r r' a : JobStepRow} {busy : List String}

/-! ## The rows of a job between dispatches -/

def flowKey (r : JobStepRow) : String :=
  r.loopSource.getD r.stepName

/--
The rows of a job of the task, whose steps have the given types.  A deferred step has another
type once it is resolved.
-/
structure JobRows (task : TaskDef) (kinds : String → ActionType) (rows : List JobStepRow) :
    Prop where
  sound : Sound task rows
  inOrder : InOrder task rows
  whole : ∀ r ∈ rows, WholeStamp r
  kind : ∀ r ∈ rows, r.status = .pending ∨ r.isPlaceholder = true →
    r.actionType = kinds (flowKey r)
  loop : ∀ r ∈ rows, r.isPlaceholder = true →
    ∃ fs, task.flow.get r.stepName = some fs ∧ fs.forEach.isSome = true

namespace JobRows

variable {task : TaskDef} {kinds : String → ActionType} {rows rows' : List JobStepRow}

theorem keyed (h : JobRows task kinds rows) : Keyed JobStepRow.stepName rows :=
  h.sound.loops.keyed

theorem not_placeholder_of_ready (h : JobRows task kinds rows) (hr : r ∈ rows)
    (hready : r.status = .ready) : r.isPlaceholder = false := by
  by_contra hplace
  rw [Bool.not_eq_false] at hplace
  rcases h.sound.placeholder r hr hplace with hs | hs | hs <;>
    simp [hready, StepStatus.isTerminal] at hs

theorem flowKey_mem (h : JobRows task kinds rows) (hr : r ∈ rows) :
    flowKey r ∈ task.flow.keys := by
  unfold flowKey
  cases hsource : r.loopSource with
  | none => exact h.sound.steps r hr hsource
  | some p => exact (h.sound.loops.index r hr p hsource).1

theorem placeholder_of_instance (h : JobRows task kinds rows) {p : String}
    (hr : r ∈ rows) (hsource : r.loopSource = some p) :
    ∃ ph ∈ rows, ph.stepName = p ∧ ph.loopSource = none ∧ ph.isPlaceholder = true ∧
      ph.status ≠ .pending := by
  obtain ⟨ph, hph, hname, hnone⟩ := h.sound.loops.flow p (h.sound.loops.index r hr p hsource).1
  exact ⟨ph, hph, hname, hnone, h.sound.parent r hr p hsource ph hph hname,
    h.sound.loops.started r hr p hsource ph hph hname⟩

end JobRows

section Rows

variable {task : TaskDef} {rows rows' : List JobStepRow}

theorem inOrder_of_perm (h : InOrder task rows) (hperm : rows'.Perm rows) :
    InOrder task rows' := by
  have hmem : ∀ r, r ∈ rows' → r ∈ rows := fun r hr => hperm.mem_iff.mp hr
  refine ⟨⟨(hperm.map _).nodup_iff.mpr h.loops.keyed, fun name hname => ?_,
    fun r hr => h.loops.plain r (hmem r hr), fun r hr => h.loops.index r (hmem r hr),
    fun r hr p hs q hq => h.loops.started r (hmem r hr) p hs q (hmem q hq)⟩,
    fun p hseq n hn i hi => h.front p hseq n (hmem n hn) i (hmem i hi),
    fun p hseq k hk j hj i hi => h.queue p hseq k (hmem k hk) j (hmem j hj) i (hmem i hi),
    fun p hseq hcof n hn i hi => h.healthy p hseq hcof n (hmem n hn) i (hmem i hi)⟩
  obtain ⟨r, hr, hrest⟩ := h.loops.flow name hname
  exact ⟨r, hperm.mem_iff.mpr hr, hrest⟩

theorem follows_of_perm (hperm : rows'.Perm rows) : Follows rows' rows :=
  ⟨fun r hr => ⟨r, hperm.mem_iff.mp hr, ⟨rfl, rfl, rfl, rfl⟩, id, fun _ => rfl⟩,
    fun r hr _ _ _ => ⟨r, hperm.mem_iff.mpr hr, rfl, rfl, rfl, rfl⟩⟩

/-- A step that is under way, and still is or is finished. -/
structure MovesOn (r r' : JobStepRow) : Prop where
  keeps : Keeps r r'
  live : isLive r
  plain : r.isPlaceholder = false
  started : r'.status ≠ .pending
  unclaimed : r'.status ≠ .claimed
  whole : WholeStamp r'

theorem isLive_of_ready (hready : r.status = .ready) : isLive r :=
  ⟨by simp [hready], by simp [hready, StepStatus.isTerminal]⟩

theorem sound_replaces (h : Sound task rows) (hr : r ∈ rows) (hon : MovesOn r r')
    (hreplaces : Replaces r r' rows rows') : Sound task rows' := by
  have hself : ∀ a : JobStepRow, InPlace a a := fun a =>
    ⟨⟨rfl, rfl, rfl, rfl⟩, id, fun _ => rfl, fun _ => .inl rfl, id⟩
  have hrow : InPlace r r' := by
    refine ⟨hon.keeps, fun hpend => absurd hpend hon.started, fun hterm => ?_, fun hplace => ?_,
      fun _ => hon.unclaimed⟩
    · rw [hon.live.2] at hterm
      cases hterm
    · rw [hon.plain] at hplace
      cases hplace
  refine h.inPlace hreplaces.keyed (fun a ha => ?_) (fun a ha => ?_)
  · by_cases hname : a.stepName = r.stepName
    · obtain rfl := h.loops.keyed.eq_of_key ha hr hname
      exact ⟨r', hreplaces.mem_new, hrow⟩
    · exact ⟨a, hreplaces.mem_other ha hname, hself a⟩
  · rcases (hreplaces.mem a).mp ha with rfl | ⟨ha, -⟩
    · exact ⟨r, hr, hrow⟩
    · exact ⟨a, ha, hself a⟩

private theorem origin_of_replaces (hr : r ∈ rows) (hon : MovesOn r r')
    (hreplaces : Replaces r r' rows rows') (ha : a ∈ rows') :
    ∃ b ∈ rows, Keeps b a ∧ (isLive a → isLive b) ∧ (a.status = .pending → b.status = .pending) ∧
      (a.status ≠ .pending → b.status ≠ .pending) ∧
      (b.status.isTerminal = true → a.status = b.status) := by
  rcases (hreplaces.mem a).mp ha with rfl | ⟨ha, -⟩
  · refine ⟨r, hr, hon.keeps, fun _ => hon.live, fun hpend => absurd hpend hon.started,
      fun _ => hon.live.1, fun hterm => ?_⟩
    rw [hon.live.2] at hterm
    cases hterm
  · exact ⟨a, ha, ⟨rfl, rfl, rfl, rfl⟩, id, id, id, fun _ => rfl⟩

theorem inOrder_replaces (hsound : Sound task rows') (h : InOrder task rows)
    (hr : r ∈ rows) (hon : MovesOn r r')
    (hreplaces : Replaces r r' rows rows') : InOrder task rows' := by
  have horigin := fun a (ha : a ∈ rows') => origin_of_replaces hr hon hreplaces ha
  refine ⟨hsound.loops, fun p hseq n hn i hi hlive hprec => ?_,
    fun p hseq k hk j hj i hi hpend hstarted hjk hij => ?_,
    fun p hseq hcof n hn i hi hlive hprec => ?_⟩
  · obtain ⟨n₀, hn₀, hnkeeps, hnlive, -⟩ := horigin n hn
    obtain ⟨i₀, hi₀, hikeeps, -, -, -, hterm⟩ := horigin i hi
    have hfinished := h.front p hseq n₀ hn₀ i₀ hi₀ (hnlive hlive) (hprec.of_keeps hikeeps hnkeeps)
    rw [hterm hfinished]
    exact hfinished
  · obtain ⟨k₀, hk₀, hkkeeps, -, hkpend, -⟩ := horigin k hk
    obtain ⟨j₀, hj₀, hjkeeps, -, -, hjstarted, -⟩ := horigin j hj
    obtain ⟨i₀, hi₀, hikeeps, -, -, -, hterm⟩ := horigin i hi
    have hfinished := h.queue p hseq k₀ hk₀ j₀ hj₀ i₀ hi₀ (hkpend hpend) (hjstarted hstarted)
      (hjk.of_keeps hjkeeps hkkeeps) (hij.of_keeps hikeeps hjkeeps)
    rw [hterm hfinished]
    exact hfinished
  · obtain ⟨n₀, hn₀, hnkeeps, hnlive, -⟩ := horigin n hn
    obtain ⟨i₀, hi₀, hikeeps, -, -, -, hterm⟩ := horigin i hi
    have hprec₀ := hprec.of_keeps hikeeps hnkeeps
    have hfinished := h.front p hseq n₀ hn₀ i₀ hi₀ (hnlive hlive) hprec₀
    have hhealthy := h.healthy p hseq hcof n₀ hn₀ i₀ hi₀ (hnlive hlive) hprec₀
    unfold isBad at hhealthy ⊢
    rwa [hterm hfinished]

end Rows

section Job

variable {d : DispatchEnv} {kinds : String → ActionType} {db db' : JobTables}

private theorem kind_inherited (kinds : String → ActionType) (started : String → Prop) :
    Inherited fun r => (r.isPlaceholder = true → r.loopSource = none) ∧
      (r.isPlaceholder = true ∨ ¬started r.stepName → r.actionType = kinds (flowKey r)) := by
  refine ⟨fun r r' hsame h => ?_, fun ph hplace h now fs jobId total k item => ?_⟩
  · rw [hsame]
    exact h
  · refine ⟨nofun, fun _ => ?_⟩
    have hkey : flowKey ph = ph.stepName := by simp [flowKey, h.1 hplace]
    exact (h.2 (.inl hplace)).trans (congrArg kinds hkey)

private theorem loop_inherited (task : TaskDef) :
    Inherited fun r => r.isPlaceholder = true →
      ∃ fs, task.flow.get r.stepName = some fs ∧ fs.forEach.isSome = true := by
  refine ⟨fun r r' hsame h => ?_, fun ph hplace h now fs jobId total k item => nofun⟩
  rw [hsame]
  exact h

variable {task : TaskDef} {rows : List JobStepRow}

theorem HandedOut.movesOn (hout : HandedOut r r') (h : JobRows task kinds rows) (hr : r ∈ rows)
    (hready : r.status = .ready) : MovesOn r r' := by
  refine ⟨hout.keeps, isLive_of_ready hready, h.not_placeholder_of_ready hr hready,
    (hout.pastReady .task).1, ?_, hout.whole⟩
  rcases hout.status with hs | hs <;> simp [hs]

theorem JobRows.replaces (h : JobRows task kinds db.steps) (hr : r ∈ db.steps)
    (hon : MovesOn r r') (hreplaces : Replaces r r' db.steps db'.steps) :
    JobRows task kinds db'.steps := by
  have hsound := sound_replaces h.sound hr hon hreplaces
  refine ⟨hsound, inOrder_replaces hsound h.inOrder hr hon hreplaces,
    fun a ha => ?_, fun a ha => ?_, fun a ha hplace => ?_⟩
  · rcases (hreplaces.mem a).mp ha with rfl | ⟨ha, -⟩
    · exact hon.whole
    · exact h.whole a ha
  · rcases (hreplaces.mem a).mp ha with rfl | ⟨ha, -⟩
    · intro hstate
      rw [hon.keeps.isPlaceholder, hon.plain] at hstate
      exact absurd (hstate.resolve_right nofun) hon.started
    · exact h.kind a ha
  · rcases (hreplaces.mem a).mp ha with rfl | ⟨ha, -⟩
    · rw [hon.keeps.isPlaceholder, hon.plain] at hplace
      cases hplace
    · exact h.loop a ha hplace

theorem JobRows.kind_execute (h : JobRows d.task kinds db.steps)
    (hexec : Dispatch.execute d db = some db') (ha : a ∈ db'.steps)
    (hstate : a.isPlaceholder = true ∨
      ∀ r ∈ db.steps, r.stepName = a.stepName → r.status = .pending) :
    a.actionType = kinds (flowKey a) := by
  have hP := Inherited.execute (kind_inherited kinds fun name =>
    ∃ r ∈ db.steps, r.stepName = name ∧ r.status ≠ .pending) (fun r hr => ?_) hexec
  · refine (hP a ha).2 (hstate.imp_right fun hpend => ?_)
    rintro ⟨r, hr, hname, hne⟩
    exact hne (hpend r hr hname)
  · refine ⟨fun hplace => by_contra fun hne => ?_, fun hstate => h.kind r hr ?_⟩
    · rw [h.sound.loops.plain r hr hne] at hplace
      cases hplace
    · rcases hstate with hplace | hpend
      · exact .inr hplace
      · exact .inl (by_contra fun hne => hpend ⟨r, hr, rfl, hne⟩)

theorem JobRows.execute (hnames : ∀ name ∈ d.task.flow.keys, '[' ∉ name.toList)
    (h : JobRows d.task kinds db.steps) (hexec : Dispatch.execute d db = some db') :
    JobRows d.task kinds db'.steps ∧ Quiet d.task true db'.steps := by
  have hperm := d.order.perm db.steps
  have hread : Sound d.task (d.order.sort db.steps) :=
    h.sound.of_mirrors (Mirrors.refl_of_perm hperm)
  obtain ⟨plan, a, hrun, hok⟩ := execute_apply hexec
  obtain ⟨plan', hrun', -, -, hdb⟩ := hread.cascade d.env d.job (some d.workspaceConfig)
    d.snapshots hnames
  obtain rfl := (Returns.of_run _ hrun).unique hrun'
  obtain ⟨hsound, hstable⟩ := hdb d.now db a db' hperm.symm hok
  obtain ⟨plan', hrun'', heffect⟩ := execute_effect h.keyed hexec
  obtain rfl := Option.some.inj (hrun.symm.trans hrun'')
  have hinOrder := (PlanApplied.of_run (inOrder_of_perm h.inOrder hperm) h.inOrder
    (follows_of_perm hperm) hrun heffect).inOrder
  refine ⟨⟨hsound, hinOrder, Inherited.execute wholeStamp_inherited h.whole hexec,
    fun a ha hstate => h.kind_execute hexec ha (hstate.symm.imp_right fun hpend r hr hname => ?_),
    Inherited.execute (loop_inherited d.task) h.loop hexec⟩, stable_iff_quiet.mp hstable⟩
  obtain ⟨r', hr', hmoved⟩ := heffect.kept r hr
  rw [heffect.keyed.eq_of_key hr' ha (hmoved.keeps.stepName.trans hname)] at hmoved
  rwa [← hmoved.of_pending hpend]

theorem createSteps_jobRows {jsonText : Json → String} {defaults : JobDefaults} {jobId : Uuid}
    {source : String → FlowStep → StepSource} {now : Time}
    (h : createSteps jsonText defaults jobId source task.flow now = some rows) :
    ∃ kinds, JobRows task kinds rows := by
  have hsound := createSteps_sound h
  have hcreated : ∀ r ∈ rows, ∃ entry ∈ task.flow.entries, Created jsonText entry r :=
    fun r hr => mem_of_forall₂_right (createSteps_created h) hr
  refine ⟨fun name => ((Snapshot.get rows name).map JobStepRow.actionType).getD .script,
    hsound, createSteps_inOrder h, fun r hr => ?_, fun r hr _ => ?_, fun r hr hplace => ?_⟩
  · obtain ⟨entry, -, hrow⟩ := hcreated r hr
    exact hrow.stamped
  · obtain ⟨entry, -, hrow⟩ := hcreated r hr
    have hget := (Snapshot.get_eq_some_iff hsound.loops.keyed).mpr ⟨hr, rfl⟩
    simp [flowKey, hrow.loopSource, hget]
  · obtain ⟨entry, hentry, hrow⟩ := hcreated r hr
    refine ⟨entry.2, ?_, ?_⟩
    · rw [hrow.stepName]
      exact Flow.get_of_mem_entries hentry
    · simpa [JobStepRow.isPlaceholder, hrow.forEachExpr, forEachText] using hplace

/-! ## Spent flow steps -/

def Unspent (busy : List String) (rows : List JobStepRow) (key : String) : Prop :=
  ∃ r ∈ rows, flowKey r = key ∧ r.actionType = .task ∧
    (r.status = .pending ∨ r.status = .ready ∧ r.stepName ∉ busy)

instance (busy : List String) (rows : List JobStepRow) (key : String) :
    Decidable (Unspent busy rows key) :=
  inferInstanceAs (Decidable (∃ r ∈ rows, flowKey r = key ∧ r.actionType = .task ∧
    (r.status = .pending ∨ r.status = .ready ∧ r.stepName ∉ busy)))

theorem Unspent.of_replaces {rows' : List JobStepRow} {key : String} (hout : HandedOut r r')
    (hreplaces : Replaces r r' rows rows') (h : Unspent busy rows' key) :
    Unspent busy rows key := by
  obtain ⟨a, ha, hkey, htask, hstatus⟩ := h
  rcases (hreplaces.mem a).mp ha with rfl | ⟨ha, -⟩
  · rcases hout.status with hs | hs <;> simp [hs] at hstatus
  · exact ⟨a, ha, hkey, htask, hstatus⟩

theorem Unspent.of_execute {key : String}
    (hjob : JobRows d.task kinds db.steps) (hexec : Dispatch.execute d db = some db')
    (h : Unspent busy db'.steps key) : Unspent busy db.steps key := by
  obtain ⟨plan, hrun, heffect⟩ := execute_effect hjob.keyed hexec
  obtain ⟨a, ha, hkey, htask, hstatus⟩ := h
  rcases heffect.origin a ha with ⟨r, hr, hmoved⟩ | ⟨i, hi, hmoved⟩
  · have hkey' : flowKey r = key := by
      rw [← hkey, flowKey, flowKey, hmoved.keeps.loopSource, hmoved.keeps.stepName]
    rcases hstatus with hpend | ⟨hready, hbusy⟩
    · obtain rfl := hmoved.of_pending hpend
      exact ⟨a, hr, hkey', htask, .inl hpend⟩
    · rcases planMoved_ready heffect hr hmoved hready with rfl | hpend
      · exact ⟨a, hr, hkey', htask, .inr ⟨hready, hbusy⟩⟩
      · refine ⟨r, hr, hkey', ?_, .inl hpend⟩
        rw [hjob.kind r hr (.inl hpend), hkey', ← hkey, ← htask]
        refine (hjob.kind_execute hexec ha (.inr fun b hb hname => ?_)).symm
        rwa [hjob.keyed.eq_of_key hb hr (hname.trans hmoved.keeps.stepName)]
  · obtain ⟨c, hc, hi⟩ := List.mem_flatMap.mp hi
    have hfresh := heffect.fresh i (List.mem_flatMap.mpr ⟨c, hc, hi⟩)
    obtain ⟨hasks, hnew⟩ := run_newSteps hrun hc hi
    obtain ⟨ph, hph, hname, hnone⟩ := hjob.sound.loops.flow c.target hnew.flow
    have hpend := heffect.asked c hc hasks ph hph hname
    have hkey' : flowKey ph = key := by
      have hsource : a.loopSource = some c.target :=
        hmoved.keeps.loopSource.trans hnew.loopSource
      rw [← hkey, flowKey, flowKey, hnone, hsource]
      exact hname
    refine ⟨ph, hph, hkey', ?_, .inl hpend⟩
    rw [hjob.kind ph hph (.inl hpend), hkey', ← hkey, ← htask]
    refine (hjob.kind_execute hexec ha (.inr fun b hb hbname => ?_)).symm
    exact absurd (hbname.trans hmoved.keeps.stepName) (hfresh b hb)

theorem JobRows.started_of_parallel {p : String} (h : JobRows task kinds rows) (hr : r ∈ rows)
    (hsource : r.loopSource = some p) (hparallel : isSequential task p = false) :
    ∀ a ∈ rows, flowKey a = p → a.status ≠ .pending := by
  intro a ha hkey hpend
  obtain ⟨ph, hph, hname, -, -, hstarted⟩ := h.placeholder_of_instance hr hsource
  cases hasource : a.loopSource with
  | none =>
    have haname : a.stepName = p := by simpa [flowKey, hasource] using hkey
    rw [h.keyed.eq_of_key ha hph (haname.trans hname.symm)] at hpend
    exact hstarted hpend
  | some q =>
    obtain rfl : q = p := by simpa [flowKey, hasource] using hkey
    rw [(h.sound.queued a ha q hasource hpend).1] at hparallel
    cases hparallel

def StopsAtFailure (task : TaskDef) (kinds : String → ActionType) : Prop :=
  ∀ name fs, task.flow.get name = some fs → kinds name = .task → fs.forEach.isSome = true →
    fs.sequential = true → fs.continueOnFailure = false

theorem StopsAtFailure.continues {p : String} (hstops : StopsAtFailure task kinds)
    (h : JobRows task kinds rows) (hr : r ∈ rows) (hsource : r.loopSource = some p)
    (hkind : kinds p = .task) (hseq : isSequential task p = true) :
    continuesOnFailure task p = false := by
  obtain ⟨ph, hph, hname, -, hplace, -⟩ := h.placeholder_of_instance hr hsource
  obtain ⟨fs, hfs, hloop⟩ := h.loop ph hph hplace
  rw [hname] at hfs
  have hsequential : fs.sequential = true := by simpa [isSequential, hfs] using hseq
  simpa [continuesOnFailure, hfs] using hstops p fs hfs hkind hloop hsequential

private theorem not_released_before {p : String} {db₁ db₂ : JobTables}
    (h : JobRows d.task kinds db.steps) (hr : r ∈ db.steps)
    (hready : r.status = .ready) (hseq : isSequential d.task p = true) (hout : HandedOut r r')
    (hreplaces : Replaces r r' db.steps db₁.steps) (h₁ : JobRows d.task kinds db₁.steps)
    (hexec : Dispatch.execute d db₁ = some db₂) (ha : a ∈ db₂.steps) (haready : a.status = .ready)
    (hne : a ≠ r') : ¬Precedes p a r' := by
  intro hprec
  obtain ⟨plan, hrun, heffect⟩ := execute_effect h₁.keyed hexec
  rcases heffect.origin a ha with ⟨a₁, ha₁, hmoved⟩ | ⟨i, hi, hmoved⟩
  · have hlive : a₁.status.isTerminal = false := by
      rcases planMoved_ready heffect ha₁ hmoved haready with rfl | hpend
      · simp [haready, StepStatus.isTerminal]
      · simp [hpend, StepStatus.isTerminal]
    rcases (hreplaces.mem a₁).mp ha₁ with rfl | ⟨hmem, -⟩
    · rcases planMoved_ready heffect ha₁ hmoved haready with heq | hpend
      · exact hne heq
      · exact (hout.pastReady .task).1 hpend
    · have hfinished := h.inOrder.front p hseq r hr a₁ hmem (isLive_of_ready hready)
        (hprec.of_keeps hmoved.keeps hout.keeps)
      rw [hlive] at hfinished
      cases hfinished
  · -- a loop with an instance is not expanded
    obtain ⟨c, hc, hi⟩ := List.mem_flatMap.mp hi
    obtain ⟨hasks, hnew⟩ := run_newSteps hrun hc hi
    have hsource : some c.target = some p :=
      hnew.loopSource.symm.trans (hmoved.keeps.loopSource.symm.trans hprec.first)
    obtain ⟨ph, hph, hname, -, -, hstarted⟩ :=
      h₁.placeholder_of_instance hreplaces.mem_new hprec.second
    exact hstarted (heffect.asked c hc hasks ph hph (hname.trans (Option.some.inj hsource).symm))

private theorem kind_of_waiting {p : String} {db₁ db₂ : JobTables}
    (h : JobRows d.task kinds db.steps) (hr : r ∈ db.steps) (hready : r.status = .ready)
    (hseq : isSequential d.task p = true) (hsource : r.loopSource = some p)
    (hreplaces : Replaces r r' db.steps db₁.steps) (h₁ : JobRows d.task kinds db₁.steps)
    (hexec : Dispatch.execute d db₁ = some db₂) (h₂ : JobRows d.task kinds db₂.steps)
    (ha : a ∈ db₂.steps) (hasource : a.loopSource = some p) (htask : a.actionType = .task)
    (hstatus : a.status = .pending ∨ a.status = .ready) (hne : a ≠ r') : kinds p = .task := by
  have hkind : a.actionType = kinds (flowKey a) := by
    rcases hstatus with hpend | haready
    · exact h₂.kind a ha (.inl hpend)
    · refine h₁.kind_execute hexec ha (.inr fun b hb hname => ?_)
      obtain ⟨plan, -, heffect⟩ := execute_effect h₁.keyed hexec
      obtain ⟨b', hb', hmoved⟩ := heffect.kept b hb
      obtain rfl := h₂.keyed.eq_of_key hb' ha (hmoved.keeps.stepName.trans hname)
      rcases planMoved_ready heffect hb hmoved haready with rfl | hpend
      · -- no two instances are live
        obtain ⟨hb, hname'⟩ := ((hreplaces.mem b').mp hb).resolve_left hne
        rcases lt_trichotomy (slot b') (slot r) with hlt | heq | hlt
        · have hterm := h.inOrder.front p hseq r hr b' hb (isLive_of_ready hready)
            ⟨hasource, hsource, hlt⟩
          rw [haready] at hterm
          cases hterm
        · obtain rfl := h.sound.loops.slot_inj hb hr hasource hsource heq
          exact absurd rfl hname'
        · have hterm := h.inOrder.front p hseq b' hb r hr (isLive_of_ready haready)
            ⟨hsource, hasource, hlt⟩
          rw [hready] at hterm
          cases hterm
      · exact hpend
  rw [htask, flowKey, hasource] at hkind
  exact hkind.symm

theorem spent_of_failure (hnames : ∀ name ∈ d.task.flow.keys, '[' ∉ name.toList)
    (hstops : StopsAtFailure d.task kinds) {r r' : JobStepRow} {db₁ db₂ : JobTables}
    (h : JobRows d.task kinds db.steps) (hr : r ∈ db.steps) (hready : isReadyFor .task r = true)
    (hout : HandedOut r r') (hfailed : r'.status = .failed)
    (hreplaces : Replaces r r' db.steps db₁.steps) (hexec : Dispatch.execute d db₁ = some db₂)
    (hserial : ∀ p, r.loopSource = some p → isSequential d.task p = true) :
    ¬Unspent [] db₂.steps (flowKey r) := by
  have hstatus := (isReadyFor_iff.mp hready).1
  have h₁ := h.replaces hr (hout.movesOn h hr hstatus) hreplaces
  obtain ⟨h₂, hquiet⟩ := h₁.execute hnames hexec
  have hr₂ : r' ∈ db₂.steps := by
    obtain ⟨plan, -, heffect⟩ := execute_effect h₁.keyed hexec
    obtain ⟨r₂, hr₂, hmoved⟩ := heffect.kept r' hreplaces.mem_new
    rwa [hmoved.of_terminal (by rw [hfailed]; rfl)] at hr₂
  rintro ⟨a, ha, hkey, hatask, hastatus⟩
  have hastatus : a.status = .pending ∨ a.status = .ready := hastatus.imp_right And.left
  have hne : a ≠ r' := by
    rintro rfl
    rcases hastatus with hs | hs <;> simp [hfailed] at hs
  cases hsource : r.loopSource with
  | none =>
    have hkey' : flowKey a = r'.stepName := by
      rw [hkey, flowKey, hsource, hreplaces.name]
      rfl
    cases hasource : a.loopSource with
    | none =>
      have haname : a.stepName = r'.stepName := by simpa [flowKey, hasource] using hkey'
      exact hne (h₂.keyed.eq_of_key ha hr₂ haname)
    | some q =>
      have hq : q = r'.stepName := by simpa [flowKey, hasource] using hkey'
      have hplace := h₂.sound.parent a ha q hasource r' hr₂ hq.symm
      rw [hout.keeps.isPlaceholder, h.not_placeholder_of_ready hr hstatus] at hplace
      cases hplace
  | some p =>
    have hseq := hserial p hsource
    have hkey' : flowKey a = p := by
      rw [hkey, flowKey, hsource]
      rfl
    have hsource' : r'.loopSource = some p := hout.keeps.loopSource.trans hsource
    have hbad : isBad r' = true := by simp [isBad, hfailed]
    cases hasource : a.loopSource with
    | none =>
      have haname : a.stepName = p := by simpa [flowKey, hasource] using hkey'
      obtain ⟨ph, hph, hname, -, hplace, hstarted⟩ := h₂.placeholder_of_instance hr₂ hsource'
      obtain rfl := h₂.keyed.eq_of_key hph ha (hname.trans haname.symm)
      rcases hastatus with hs | hs
      · exact hstarted hs
      · rw [h₂.not_placeholder_of_ready ha hs] at hplace
        cases hplace
    | some q =>
      obtain rfl : q = p := by simpa [flowKey, hasource] using hkey'
      have hkind := kind_of_waiting h hr hstatus hseq hsource hreplaces h₁ hexec h₂ ha hasource
        hatask hastatus hne
      have hcof := hstops.continues h hr hsource hkind hseq
      rcases hastatus with hs | hs
      · obtain ⟨ph, hph, rfl, hplace, hrun⟩ := h₂.sound.loop_running ha hasource hs
        exact hquiet.abandoned ph hph hplace hrun hseq hcof r' hr₂ hsource' hbad a ha hasource
          hs
      · have hlive := isLive_of_ready hs
        rcases lt_trichotomy (slot r') (slot a) with hlt | heq | hlt
        · have hhealthy := h₂.inOrder.healthy q hseq hcof a ha r' hr₂ hlive
            ⟨hsource', hasource, hlt⟩
          rw [hbad] at hhealthy
          cases hhealthy
        · exact hne (h₂.sound.loops.slot_inj ha hr₂ hasource hsource' heq.symm)
        · exact not_released_before h hr hstatus hseq hout hreplaces h₁ hexec ha hs hne
            ⟨hasource, hsource', hlt⟩

/-! ## One pass -/

theorem JobRows.stamped (h : JobRows task kinds db.steps) : Stamped db :=
  ⟨h.keyed, h.whole⟩

theorem Unspent.mono {busy' : List String} {key : String} (h : Unspent busy rows key)
    (hsub : ∀ name ∈ busy', name ∈ busy) : Unspent busy' rows key := by
  obtain ⟨r, hr, hkey, htask, hstatus⟩ := h
  exact ⟨r, hr, hkey, htask,
    hstatus.imp_right fun hs => ⟨hs.1, fun hmem => hs.2 (hsub _ hmem)⟩⟩

/--
What dispatches do to the flow steps: none becomes unspent again, and they make no task step
ready unless one of them spends its flow step.
-/
structure Spends (d : DispatchEnv) (kinds : String → ActionType) (busy : List String)
    (steps : List JobStepRow) (db db' : JobTables) : Prop where
  rows : JobRows d.task kinds db'.steps
  spent : ∀ key, Unspent busy db'.steps key → Unspent busy db.steps key
  outcome : (∀ a ∈ db'.steps, isReadyFor .task a = true → a ∈ db.steps) ∨
    ∃ r ∈ steps, (∀ p, r.loopSource = some p → isSequential d.task p = true) →
      ¬Unspent busy db'.steps (flowKey r)

theorem Spends.cons {steps : List JobStepRow}
    {mid : JobTables} (h : Spends d kinds busy [r] db mid)
    (h' : Spends d kinds busy steps mid db') : Spends d kinds busy (r :: steps) db db' := by
  refine ⟨h'.rows, fun key hkey => h.spent key (h'.spent key hkey), ?_⟩
  rcases h.outcome with hcalm | ⟨a, ha, hspent⟩
  · rcases h'.outcome with hcalm' | ⟨a, ha, hspent⟩
    · exact .inl fun a ha hready => hcalm a (hcalm' a ha hready) hready
    · exact .inr ⟨a, List.mem_cons_of_mem r ha, hspent⟩
  · obtain rfl := List.mem_singleton.mp ha
    exact .inr ⟨a, List.mem_cons_self, fun hserial hkey => hspent hserial (h'.spent _ hkey)⟩

theorem dispatchTask_spends (hnames : ∀ name ∈ d.task.flow.keys, '[' ∉ name.toList)
    (hstops : StopsAtFailure d.task kinds) (busy : List String) {r : JobStepRow}
    (h : JobRows d.task kinds db.steps) (hr : r ∈ db.steps) (hready : isReadyFor .task r = true) :
    Spends d kinds busy [r] db (dispatchTask d r db).2 := by
  have hstatus := (isReadyFor_iff.mp hready).1
  obtain ⟨r', db₁, hspec⟩ := dispatchTask_spec (d := d) h.stamped hr hstatus
  have h₁ := h.replaces hr (hspec.handedOut.movesOn h hr hstatus) hspec.replaces
  have hback : ∀ key, Unspent busy db₁.steps key → Unspent busy db.steps key :=
    fun key hkey => hkey.of_replaces hspec.handedOut hspec.replaces
  -- without a cascade only the dispatched row has changed
  have hcalm : ∀ a ∈ db₁.steps, isReadyFor .task a = true → a ∈ db.steps := by
    intro a ha haready
    rcases (hspec.replaces.mem a).mp ha with rfl | ⟨ha, -⟩
    · rw [(hspec.handedOut.pastReady .task).2] at haready
      cases haready
    · exact ha
  rcases hspec.result with ⟨-, heq⟩ | ⟨-, hfailed, heq⟩
  · rw [heq]
    exact ⟨h₁, hback, .inl hcalm⟩
  · rw [heq]
    rcases orchestrateAfterFailure_steps d db₁ with ⟨-, hsteps⟩ | ⟨db₂, hexec, hsteps⟩
    · rw [hsteps]
      exact ⟨h₁, hback, .inl hcalm⟩
    · have h₂ := (h₁.execute hnames hexec).1
      refine ⟨hsteps ▸ h₂, fun key hkey => ?_, .inr ⟨r, List.mem_singleton_self r, ?_⟩⟩
      · rw [hsteps] at hkey
        exact hback key (hkey.of_execute h₁ hexec)
      · intro hserial hkey
        rw [hsteps] at hkey
        exact spent_of_failure hnames hstops h hr hready hspec.handedOut hfailed hspec.replaces
          hexec hserial (hkey.mono (by simp))

theorem dispatchAll_spends (hnames : ∀ name ∈ d.task.flow.keys, '[' ∉ name.toList)
    (hstops : StopsAtFailure d.task kinds) (busy : List String) {steps : List JobStepRow}
    (h : JobRows d.task kinds db.steps)
    (hsteps : ∀ r ∈ steps, r ∈ db.steps ∧ isReadyFor .task r = true)
    (hnodup : Keyed JobStepRow.stepName steps) :
    Spends d kinds busy steps db (dispatchAll (dispatchTask d) steps db).2 := by
  induction steps generalizing db with
  | nil => exact ⟨h, fun _ hkey => hkey, .inl fun a ha _ => ha⟩
  | cons r steps ih =>
    obtain ⟨hr, hready⟩ := hsteps r List.mem_cons_self
    have hfirst := dispatchTask_spends hnames hstops busy h hr hready
    refine hfirst.cons (ih hfirst.rows (fun a ha => ?_) hnodup.of_cons)
    obtain ⟨hmem, haready⟩ := hsteps a (List.mem_cons_of_mem r ha)
    have hproceeds := ((dispatchTask_dispatches d).proceeds (.inl rfl) h.stamped hr hready).1
    refine ⟨hproceeds.waiting a hmem (isReadyFor_iff.mp haready).1 ?_, haready⟩
    simpa using hnodup.key_ne a ha

theorem handleTaskStepsPass_generation
    (hnames : ∀ name ∈ d.task.flow.keys, '[' ∉ name.toList) (hstops : StopsAtFailure d.task kinds)
    (h : JobRows d.task kinds db.steps) :
    JobRows d.task kinds (handleTaskStepsPass d db).2.steps ∧
      (∀ key, Unspent [] (handleTaskStepsPass d db).2.steps key → Unspent [] db.steps key) ∧
      (NoneReady .task (handleTaskStepsPass d db).2 ∨
        ∃ key, Unspent [] db.steps key ∧
          ¬Unspent [] (handleTaskStepsPass d db).2.steps key) := by
  obtain ⟨hsteps, hnodup⟩ := ready_steps d .task h.keyed
  have hspends := dispatchAll_spends hnames hstops
    (((d.order.sort db.steps).filter (isReadyFor .task)).map JobStepRow.stepName) h hsteps hnodup
  obtain ⟨-, -, hpast, -⟩ := (dispatchTask_dispatches d).pass (.inl rfl) h.stamped
  have hdone : ∀ a ∈ (handleTaskStepsPass d db).2.steps, isReadyFor .task a = true →
      ∀ r ∈ db.steps, isReadyFor .task r = true → a.stepName ≠ r.stepName := by
    intro a ha haready r hr hready hname
    obtain ⟨r', hr', hname', hpast'⟩ := hpast r hr hready
    rw [hspends.rows.keyed.eq_of_key hr' ha (hname'.trans hname.symm), PastReady, haready] at hpast'
    cases hpast'.2
  -- what is ready after the pass was not ready before it
  have hbusy : ∀ key, Unspent [] (handleTaskStepsPass d db).2.steps key →
      Unspent (((d.order.sort db.steps).filter (isReadyFor .task)).map JobStepRow.stepName)
        (handleTaskStepsPass d db).2.steps key := by
    rintro key ⟨a, ha, hkey, htask, hstatus⟩
    refine ⟨a, ha, hkey, htask, hstatus.imp_right fun hs => ⟨hs.1, fun hmem => ?_⟩⟩
    obtain ⟨r, hr, hname⟩ := List.mem_map.mp hmem
    obtain ⟨hr, hready⟩ := hsteps r hr
    exact hdone a ha (isReadyFor_iff.mpr ⟨hs.1, htask⟩) r hr hready hname.symm
  refine ⟨hspends.rows, fun key hkey => (hspends.spent key (hbusy key hkey)).mono (by simp), ?_⟩
  rcases hspends.outcome with hcalm | ⟨r, hr, hspent⟩
  · refine .inl fun a ha => ?_
    by_contra haready
    rw [Bool.not_eq_false] at haready
    exact hdone a ha haready a (hcalm a ha haready) haready rfl
  · obtain ⟨hr, hready⟩ := hsteps r hr
    obtain ⟨hstatus, htask⟩ := isReadyFor_iff.mp hready
    refine .inr ⟨flowKey r, ⟨r, hr, rfl, htask, .inr ⟨hstatus, by simp⟩⟩, fun hkey => ?_⟩
    by_cases hserial : ∀ p, r.loopSource = some p → isSequential d.task p = true
    · exact hspent hserial (hbusy _ hkey)
    · -- of a parallel loop nothing was pending
      push Not at hserial
      obtain ⟨p, hsource, hparallel⟩ := hserial
      obtain ⟨a, ha, hakey, hatask, hastatus⟩ := hspends.spent _ (hbusy _ hkey)
      rcases hastatus with hpend | ⟨haready, hnot⟩
      · have hflow : flowKey r = p := by simp [flowKey, hsource]
        exact h.started_of_parallel hr hsource (by simpa using hparallel) a ha
          (hakey.trans hflow) hpend
      · exact hnot (List.mem_map_of_mem (List.mem_filter.mpr
          ⟨mem_sort.mpr ha, isReadyFor_iff.mpr ⟨haready, hatask⟩⟩))

end Job

/-! ## The bound -/

section Bound

variable {d : DispatchEnv} {kinds : String → ActionType} {db : JobTables}

def generationsLeft (task : TaskDef) (db : JobTables) : Nat :=
  if NoneReady .task db then 0
  else (task.flow.keys.toFinset.filter (Unspent [] db.steps)).card

theorem generationsLeft_le (task : TaskDef) (db : JobTables) :
    generationsLeft task db ≤ task.flow.keys.length := by
  unfold generationsLeft
  split
  · exact Nat.zero_le _
  · exact (Finset.card_filter_le _ _).trans (List.toFinset_card_le _)

theorem exists_ready_of_reported (hreported : (handleTaskStepsPass d db).1 = true) :
    ∃ r ∈ db.steps, isReadyFor .task r = true := by
  by_contra hnone
  push Not at hnone
  have hidle : handleTaskStepsPass d db = (false, db) :=
    handleTaskStepsPass_idle fun r hr => by simpa using hnone r hr
  rw [hidle] at hreported
  cases hreported

theorem generationsLeft_lt (hnames : ∀ name ∈ d.task.flow.keys, '[' ∉ name.toList)
    (hstops : StopsAtFailure d.task kinds) (h : JobRows d.task kinds db.steps)
    (hreported : (handleTaskStepsPass d db).1 = true) :
    generationsLeft d.task (handleTaskStepsPass d db).2 < generationsLeft d.task db := by
  obtain ⟨r, hr, hready⟩ := exists_ready_of_reported hreported
  obtain ⟨hrows, hback, houtcome⟩ := handleTaskStepsPass_generation hnames hstops h
  have hsome : ¬NoneReady .task db := fun hnone => by
    rw [hnone r hr] at hready
    cases hready
  have hspent : ∀ key, Unspent [] db.steps key → key ∈ d.task.flow.keys := by
    rintro key ⟨a, ha, rfl, -⟩
    exact h.flowKey_mem ha
  unfold generationsLeft
  rw [if_neg hsome]
  split
  case isTrue =>
    refine Finset.card_pos.mpr ⟨flowKey r, Finset.mem_filter.mpr ⟨?_, ?_⟩⟩
    · exact List.mem_toFinset.mpr (h.flowKey_mem hr)
    · obtain ⟨hstatus, htask⟩ := isReadyFor_iff.mp hready
      exact ⟨r, hr, rfl, htask, .inr ⟨hstatus, by simp⟩⟩
  case isFalse hleft =>
    obtain ⟨key, hbefore, hafter⟩ := houtcome.resolve_left hleft
    refine Finset.card_lt_card ⟨fun k hk => ?_, fun hsub => hafter ?_⟩
    · obtain ⟨hk, hkey⟩ := Finset.mem_filter.mp hk
      exact Finset.mem_filter.mpr ⟨hk, hback k hkey⟩
    · have hmem := Finset.mem_filter.mpr ⟨List.mem_toFinset.mpr (hspent key hbefore), hbefore⟩
      exact (Finset.mem_filter.mp (hsub hmem)).2

theorem handleTaskSteps_noneReady (hnames : ∀ name ∈ d.task.flow.keys, '[' ∉ name.toList)
    (hstops : StopsAtFailure d.task kinds) (h : JobRows d.task kinds db.steps) :
    NoneReady .task (handleTaskSteps d db) := by
  refine repeatWhile_done_of_rank (fun db => JobRows d.task kinds db.steps)
    (fun _ hdb => (handleTaskStepsPass_generation hnames hstops hdb).1)
    (fun _ hdb hquiet => handleTaskStepsPass_last hdb.stamped hquiet) (generationsLeft d.task)
    (fun _ hdb hreported => generationsLeft_lt hnames hstops hdb hreported) h ?_
  exact Nat.lt_succ_of_le (generationsLeft_le d.task db)

end Bound

end Stroem.Dispatch
