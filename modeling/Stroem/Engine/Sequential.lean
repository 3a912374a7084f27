import Stroem.JobCreation
import Stroem.Engine.History
import Stroem.Engine.LoopPlans

/-!
# Sequential loops

The instances of a sequential `for_each` step run one at a time, in order, and stop at the
first failure unless the step continues after failures.  A plan that releases an instance was
computed from rows in which the one before it was finished; as long as finished rows stay as
they are, that is still so when the plan is applied.
-/

namespace Stroem.Engine

open Foundation JobStepRepo Cascade JobCreation

variable {r r' i n : JobStepRow} {p : String}

def slot (r : JobStepRow) : Int :=
  (r.loopIndex.getD 0).toInt

structure Precedes (p : String) (i n : JobStepRow) : Prop where
  first : i.loopSource = some p
  second : n.loopSource = some p
  slot_lt : slot i < slot n

def isLive (r : JobStepRow) : Prop :=
  r.status ≠ .pending ∧ r.status.isTerminal = false

structure InOrder (task : TaskDef) (rows : List JobStepRow) : Prop where
  loops : LoopRows task rows
  front : ∀ p, isSequential task p = true → ∀ n ∈ rows, ∀ i ∈ rows, isLive n →
    Precedes p i n → i.status.isTerminal = true
  queue : ∀ p, isSequential task p = true → ∀ k ∈ rows, ∀ j ∈ rows, ∀ i ∈ rows,
    k.status = .pending → j.status ≠ .pending → Precedes p j k → Precedes p i j →
    i.status.isTerminal = true
  healthy : ∀ p, isSequential task p = true → continuesOnFailure task p = false →
    ∀ n ∈ rows, ∀ i ∈ rows, isLive n → Precedes p i n → isBad i = false

/--
What rows say about later rows: a row is still there, never goes back to pending and keeps a
finished status, and a loop that has started gets no more instances.
-/
structure Follows (rows rows' : List JobStepRow) : Prop where
  kept : ∀ r ∈ rows, ∃ r' ∈ rows', Keeps r r' ∧ (r.status ≠ .pending → r'.status ≠ .pending) ∧
    (r.status.isTerminal = true → r'.status = r.status)
  grown : ∀ r' ∈ rows', ∀ p, r'.loopSource = some p →
    (∃ q ∈ rows, q.stepName = p ∧ q.status ≠ .pending) → ∃ r ∈ rows, Keeps r r'

def InTime (task : TaskDef) (s : State) : Action → Prop
  | .write e => Timely s.rows e ∧ ∀ step reason, e.write = .markSkipped step reason →
      ∀ p, isSequential task p = true → ∀ n ∈ s.rows, n.stepName = step →
        ∀ i ∈ s.rows, Precedes p i n → i.status.isTerminal = true
  | .cascade _ _ _ _ _ _ _ => True

theorem Follows.refl (rows : List JobStepRow) : Follows rows rows :=
  ⟨fun r hr => ⟨r, hr, ⟨rfl, rfl, rfl, rfl⟩, id, fun _ => rfl⟩,
    fun r hr _ _ _ => ⟨r, hr, rfl, rfl, rfl, rfl⟩⟩

theorem Follows.trans {a b c : List JobStepRow} (h : Follows a b) (h' : Follows b c) :
    Follows a c := by
  refine ⟨fun r hr => ?_, fun r'' hr'' p hsource hstarted => ?_⟩
  · obtain ⟨r', hr', hkeeps, hpend, hterm⟩ := h.kept r hr
    obtain ⟨r'', hr'', hkeeps', hpend', hterm'⟩ := h'.kept r' hr'
    refine ⟨r'', hr'', hkeeps.trans hkeeps', fun hs => hpend' (hpend hs), fun hs => ?_⟩
    have heq := hterm hs
    rw [hterm' (by rwa [heq]), heq]
  · obtain ⟨q, hq, hqname, hqstarted⟩ := hstarted
    obtain ⟨q', hq', hqkeeps, hqpend, -⟩ := h.kept q hq
    obtain ⟨r', hr', hkeeps'⟩ := h'.grown r'' hr'' p hsource
      ⟨q', hq', hqkeeps.stepName.trans hqname, hqpend hqstarted⟩
    obtain ⟨r, hr, hkeeps⟩ := h.grown r' hr' p (hkeeps'.loopSource.symm.trans hsource)
      ⟨q, hq, hqname, hqstarted⟩
    exact ⟨r, hr, hkeeps.trans hkeeps'⟩

variable {rows : List JobStepRow}

theorem Follows.row {rows' : List JobStepRow} (h : Follows rows rows')
    (hk : Keyed JobStepRow.stepName rows') (hr : r ∈ rows) (hr' : r' ∈ rows')
    (hname : r.stepName = r'.stepName) :
    Keeps r r' ∧ (r.status ≠ .pending → r'.status ≠ .pending) ∧
      (r.status.isTerminal = true → r'.status = r.status) := by
  obtain ⟨r'', hr'', hkeeps, hrest⟩ := h.kept r hr
  obtain rfl := hk.eq_of_key hr'' hr' (hkeeps.stepName.trans hname)
  exact ⟨hkeeps, hrest⟩

/-! ## Places in a loop -/

theorem Keeps.slot (h : Keeps r r') : slot r' = slot r := by
  simp [Engine.slot, h.loopIndex]

theorem Precedes.of_keeps {i' n' : JobStepRow} (hi : Keeps i i')
    (hn : Keeps n n') (h : Precedes p i' n') : Precedes p i n :=
  ⟨hi.loopSource.symm.trans h.first, hn.loopSource.symm.trans h.second,
    by rw [← hi.slot, ← hn.slot]; exact h.slot_lt⟩

theorem toInt_ofNat_index {k : Nat} (hk : k < maxForEachItems) : (Int32.ofNat k).toInt = k := by
  simp only [maxForEachItems] at hk
  exact Int32.toInt_ofNat_of_lt (by omega)

namespace LoopRows

variable {task : TaskDef} {rows : List JobStepRow}

theorem slot_eq (h : LoopRows task rows) (hr : r ∈ rows)
    (hsource : r.loopSource = some p) :
    ∃ k < maxForEachItems, slot r = k ∧ r.stepName = instanceName p k := by
  obtain ⟨-, k, hk, hname, hindex⟩ := h.index r hr p hsource
  exact ⟨k, hk, by simp [slot, hindex, toInt_ofNat_index hk], hname⟩

theorem slot_inj (h : LoopRows task rows) {j : JobStepRow} (hi : i ∈ rows)
    (hj : j ∈ rows) (his : i.loopSource = some p) (hjs : j.loopSource = some p)
    (hslot : slot i = slot j) : i = j := by
  obtain ⟨a, -, ha, hiname⟩ := h.slot_eq hi his
  obtain ⟨b, -, hb, hjname⟩ := h.slot_eq hj hjs
  have hab : a = b := by omega
  exact h.keyed.eq_of_key hi hj (by rw [hiname, hjname, hab])

theorem slot_nonneg (h : LoopRows task rows) (hr : r ∈ rows)
    (hsource : r.loopSource = some p) : 0 ≤ slot r := by
  obtain ⟨k, -, hk, -⟩ := h.slot_eq hr hsource
  omega

end LoopRows

theorem Due.slot_succ {task : TaskDef} (h : LoopRows task rows) (hdue : Due task rows p i n) :
    slot n = slot i + 1 := by
  obtain ⟨idx, hidx, hnidx⟩ := hdue.index
  obtain ⟨a, ha, hslot, -⟩ := h.slot_eq hdue.before.1 hdue.before.2.1
  simp only [slot, hidx, Option.getD_some] at hslot
  simp only [slot, hidx, hnidx, Option.getD_some, Int32.toInt_add, hslot]
  simp only [maxForEachItems] at ha
  have : (1 : Int32).toInt = 1 := by decide
  rw [this, Int.bmod_eq_of_le] <;> omega

theorem InOrder.finished_before {task : TaskDef} {j : JobStepRow} (h : InOrder task rows)
    (hseq : isSequential task p = true) (hi : i ∈ rows) (his : i.loopSource = some p)
    (hterm : i.status.isTerminal = true) (hn : n ∈ rows) (hpend : n.status = .pending)
    (hslot : slot n = slot i + 1) (hj : j ∈ rows) (hprec : Precedes p j n) :
    j.status.isTerminal = true := by
  have hlt := hprec.slot_lt
  by_cases heq : slot j = slot i
  · rwa [h.loops.slot_inj hj hi hprec.first his heq]
  · have hstarted : i.status ≠ .pending := by
      intro hs
      simp [hs, StepStatus.isTerminal] at hterm
    exact h.queue p hseq n hn i hi j hj hpend hstarted ⟨his, hprec.second, by omega⟩
      ⟨hprec.first, his, by omega⟩

/-! ## The rows of a new job -/

theorem createSteps_inOrder {task : TaskDef} {jsonText : Json → String} {defaults : JobDefaults}
    {jobId : Uuid} {source : String → FlowStep → StepSource} {now : Time}
    (h : createSteps jsonText defaults jobId source task.flow now = some rows) :
    InOrder task rows := by
  have hnone : ∀ r ∈ rows, r.loopSource = none := by
    intro r hr
    obtain ⟨entry, -, hcreated⟩ := mem_of_forall₂_right (createSteps_created h) hr
    exact hcreated.loopSource
  have hno : ∀ p, ∀ r ∈ rows, r.loopSource ≠ some p := by
    intro p r hr hsource
    rw [hnone r hr] at hsource
    cases hsource
  refine ⟨⟨createSteps_keyed h, fun name hname => ?_, fun r hr hsource => ?_,
    fun r hr p hsource => absurd hsource (hno p r hr),
    fun r hr p hsource => absurd hsource (hno p r hr)⟩,
    fun p _ n hn _ _ _ hprec => absurd hprec.second (hno p n hn),
    fun p _ k hk _ _ _ _ _ _ hprec _ => absurd hprec.second (hno p k hk),
    fun p _ _ n hn _ _ _ hprec => absurd hprec.second (hno p n hn)⟩
  · obtain ⟨entry, hentry, rfl⟩ := List.mem_map.mp hname
    obtain ⟨r, hr, hcreated⟩ := mem_of_forall₂_left (createSteps_created h) hentry
    exact ⟨r, hr, hcreated.stepName, hcreated.loopSource⟩
  · exact absurd (hnone r hr) hsource

/-! ## Writes -/

private theorem releaseClaim_pending (hk : Keyed JobStepRow.stepName rows)
    (jobStatus : JobStatus) (name : String) (claim : ClaimIdentity) (retryAfter : Nat)
    (maxReleases : Int32) (now : Time) :
    (∀ r ∈ (releaseClaim jobStatus name claim retryAfter maxReleases now rows).2,
      r.status ≠ .pending) ∨
    ∀ r ∈ rows, r.status = .pending →
      r ∈ (releaseClaim jobStatus name claim retryAfter maxReleases now rows).2 := by
  unfold releaseClaim
  split
  · exact .inr fun r hr _ => hr
  case h_2 row hfind =>
    have hrow := List.find?_some hfind
    simp only [Bool.and_eq_true, beq_iff_eq] at hrow
    obtain ⟨⟨⟨hrowname, hrunning⟩, -⟩, -⟩ := hrow
    split
    · refine .inl fun r hr hpend => ?_
      obtain ⟨r₀, -, rfl⟩ := Update.mem_run.mp hr
      split at hpend
      case isTrue => cases hpend
      case isFalse hguard => exact hguard (by simp [cancelPendingSteps, hpend])
    · split
      · exact .inr fun r hr _ => hr
      · refine .inr fun r hr hpend => Update.mem_run.mpr ⟨r, hr, ?_⟩
        have hne : r.stepName ≠ name := by
          intro heq
          rw [hk.eq_of_key hr (List.mem_of_find?_eq_some hfind) (heq.trans hrowname.symm),
            hrunning] at hpend
          cases hpend
        simp [releaseStep, hne]

theorem pending_rowsAfter {now : Time} {jobStatus : JobStatus} {w : Write}
    (hk : Keyed JobStepRow.stepName rows) (hw : w.isCascade = false) (hr : r ∈ rows)
    (hr' : r' ∈ rowsAfter now jobStatus rows w) (hname : r'.stepName = r.stepName)
    (hpend : r.status = .pending) :
    r'.status = .pending ∨ (∀ a ∈ rowsAfter now jobStatus rows w, a.status ≠ .pending) ∨
      w.target = some r.stepName ∧
        (w.unguarded = true ∨ ∃ reason, w = .markSkipped r.stepName reason) := by
  have hkeyed : Keyed JobStepRow.stepName (rowsAfter now jobStatus rows w) := keyed_rowsAfter hk
  obtain ⟨r'', hr'', heffect⟩ := mem_of_forall₂_left (rowsAfter_spec hk hw) hr
  obtain rfl := hkeyed.eq_of_key hr'' hr' (heffect.keeps.stepName.trans hname.symm)
  rcases heffect.outcome with ⟨hs, -, -⟩ | hmoves
  · exact .inl (hs.trans hpend)
  cases w with
  | cancelPendingSteps =>
    refine .inr (.inl fun a ha hs => ?_)
    obtain ⟨a₀, -, rfl⟩ := Update.mem_run.mp ha
    split at hs
    case isTrue => cases hs
    case isFalse hguard => exact hguard (by simp [cancelPendingSteps, hs])
  | failNonTerminalSteps error =>
    refine .inr (.inl fun a ha hs => ?_)
    obtain ⟨a₀, -, rfl⟩ := Update.mem_run.mp ha
    split at hs
    case isTrue => cases hs
    case isFalse hguard => exact hguard (by simp [failNonTerminalSteps, hs, StepStatus.isTerminal])
  | releaseClaim step claim retryAfter maxReleases =>
    rcases releaseClaim_pending hk jobStatus step claim retryAfter maxReleases now with
      hnone | hkept
    · exact .inr (.inl hnone)
    · rw [hkeyed.eq_of_key hr' (hkept r hr hpend) hname]
      exact .inl hpend
  | failOrRetry step error report delaySecs =>
    obtain ⟨rfl, hexpected, -⟩ := hmoves
    cases report with
    | unconditional => exact .inr (.inr ⟨rfl, .inl rfl⟩)
    | claimed claim | rejected => simp [notExpected, FailureReport.expected, hpend] at hexpected
  | failTaskDispatch step error dispatched pin =>
    obtain ⟨-, hs, -⟩ := hmoves
    rw [hpend] at hs
    cases dispatched <;> cases hs
  | _ => simp_all [Write.moves, Write.target, Write.unguarded]

theorem Write.moves_to_pending {w : Write} (h : w.moves r .pending) :
    r.status = .pending := by
  cases w <;> simp_all [Write.moves]

theorem Write.moves_of_pending {w : Write} {s : StepStatus} (h : w.moves r s)
    (hpend : r.status = .pending) :
    s.isTerminal = true ∨ w.unguarded = true ∧ w.target = some r.stepName := by
  cases w with
  | failOrRetry step error report delaySecs =>
    obtain ⟨rfl, hexpected, -⟩ := h
    cases report with
    | unconditional => exact .inr ⟨rfl, rfl⟩
    | claimed claim | rejected => simp [notExpected, FailureReport.expected, hpend] at hexpected
  | failTaskDispatch step error dispatched pin =>
    obtain ⟨-, hs, -⟩ := h
    rw [hpend] at hs
    cases dispatched <;> cases hs
  | _ => simp_all [Write.moves, Write.unguarded, Write.target, StepStatus.isTerminal]

section Steps

variable {task : TaskDef} {s : State}

private theorem not_pending_of_unguarded (h : Consistent (InOrder task) Follows s) {w : Write}
    (hissues : s.issues w = true) (hunguarded : w.unguarded = true)
    (hr : r ∈ s.rows) (htarget : w.target = some r.stepName) : r.status ≠ .pending := by
  have hready : s.wasReady r.stepName = true := by
    cases w with
    | failOrRetry step error report delaySecs =>
      cases report <;> simp_all [State.issues, Write.unguarded, Write.target]
    | _ => simp_all [State.issues, Write.unguarded, Write.target]
  simp only [State.wasReady, List.any_eq_true, Bool.and_eq_true, beq_iff_eq] at hready
  obtain ⟨rows, hrows, r₀, hr₀, hname, hstatus⟩ := hready
  refine ((h.later rows hrows).row h.rows.loops.keyed hr₀ hr hname).2.1 ?_
  simp [hstatus]

private structure WriteRow (r r' : JobStepRow) : Prop where
  keeps : Keeps r r'
  started : r.status ≠ .pending → r'.status ≠ .pending
  finished : r.status.isTerminal = true → r'.status = r.status
  live : isLive r' → isLive r

private theorem writeRow (h : Consistent (InOrder task) Follows s) {e : Event}
    (hissues : s.issues e.write = true) (hw : e.write.isCascade = false)
    (htimely : Timely s.rows e) :
    List.Forall₂ WriteRow s.rows (rowsAfter e.now e.jobStatus s.rows e.write) := by
  have hspec : List.Forall₂ (fun r r' => r ∈ s.rows ∧ RowEffect e.write r r') s.rows
      (rowsAfter e.now e.jobStatus s.rows e.write) :=
    (List.forall₂_and_left _ _).mpr ⟨fun r hr => hr, rowsAfter_spec h.rows.loops.keyed hw⟩
  refine hspec.imp fun r r' ⟨hr, heffect⟩ => ?_
  have hfinished : r.status.isTerminal = true → r'.status = r.status := by
    intro hterm
    rcases heffect.outcome with ⟨hs, -, -⟩ | hmoves
    · exact hs
    · obtain ⟨hunguarded, htarget⟩ := Write.moves_terminal hmoves hterm
      rw [htimely hunguarded r hr htarget] at hterm
      cases hterm
  refine ⟨heffect.keeps, fun hstarted hpend => ?_, hfinished, fun hlive => ⟨fun hpend => ?_, ?_⟩⟩
  · rcases heffect.outcome with ⟨hs, -, -⟩ | hmoves
    · exact hstarted (hs.symm.trans hpend)
    · rw [hpend] at hmoves
      exact hstarted (Write.moves_to_pending hmoves)
  · rcases heffect.outcome with ⟨hs, -, -⟩ | hmoves
    · exact hlive.1 (hs.trans hpend)
    · rcases Write.moves_of_pending hmoves hpend with hterm | ⟨hunguarded, htarget⟩
      · rw [hlive.2] at hterm
        cases hterm
      · exact not_pending_of_unguarded h hissues hunguarded hr htarget hpend
  · by_contra hterm
    rw [Bool.not_eq_false] at hterm
    have hs := hlive.2
    rw [hfinished hterm, hterm] at hs
    cases hs

theorem follows_write (h : Consistent (InOrder task) Follows s) {e : Event}
    (hissues : s.issues e.write = true) (hw : e.write.isCascade = false)
    (htimely : Timely s.rows e) :
    Follows s.rows (rowsAfter e.now e.jobStatus s.rows e.write) := by
  have hrows := writeRow h hissues hw htimely
  refine ⟨fun r hr => ?_, fun r' hr' _ _ _ => ?_⟩
  · obtain ⟨r', hr', hrow⟩ := mem_of_forall₂_left hrows hr
    exact ⟨r', hr', hrow.keeps, hrow.started, hrow.finished⟩
  · obtain ⟨r, hr, hrow⟩ := mem_of_forall₂_right hrows hr'
    exact ⟨r, hr, hrow.keeps⟩

private theorem loopRows_write {rows rows' : List JobStepRow} (h : LoopRows task rows)
    (hrows : List.Forall₂ WriteRow rows rows') : LoopRows task rows' where
  keyed := Keyed.of_forall₂ (hrows.imp fun _ _ hrow => hrow.keeps.stepName) h.keyed
  flow := by
    intro name hname
    obtain ⟨r, hr, hr', hsource⟩ := h.flow name hname
    obtain ⟨r', hmem, hrow⟩ := mem_of_forall₂_left hrows hr
    exact ⟨r', hmem, hrow.keeps.stepName.trans hr', hrow.keeps.loopSource.trans hsource⟩
  plain := by
    intro r' hr' hsource
    obtain ⟨r, hr, hrow⟩ := mem_of_forall₂_right hrows hr'
    rw [hrow.keeps.isPlaceholder]
    exact h.plain r hr (by rwa [hrow.keeps.loopSource] at hsource)
  index := by
    intro r' hr' p hsource
    obtain ⟨r, hr, hrow⟩ := mem_of_forall₂_right hrows hr'
    rw [hrow.keeps.stepName, hrow.keeps.loopIndex]
    exact h.index r hr p (hrow.keeps.loopSource.symm.trans hsource)
  started := by
    intro r' hr' p hsource q' hq' hname
    obtain ⟨r, hr, hrow⟩ := mem_of_forall₂_right hrows hr'
    obtain ⟨q, hq, hqrow⟩ := mem_of_forall₂_right hrows hq'
    exact hqrow.started (h.started r hr p (hrow.keeps.loopSource.symm.trans hsource) q hq
      (hqrow.keeps.stepName.symm.trans hname))

theorem inOrder_write (h : Consistent (InOrder task) Follows s) {e : Event}
    (hissues : s.issues e.write = true) (hw : e.write.isCascade = false)
    (hok : InTime task s (.write e)) :
    InOrder task (rowsAfter e.now e.jobStatus s.rows e.write) := by
  obtain ⟨htimely, hskip⟩ := hok
  have hrows := writeRow h hissues hw htimely
  have hin := h.rows
  refine ⟨loopRows_write hin.loops hrows, fun p hseq n' hn' i' hi' hlive hprec => ?_,
    fun p hseq k' hk' j' hj' i' hi' hpend hstarted hjk hij => ?_,
    fun p hseq hcof n' hn' i' hi' hlive hprec => ?_⟩
  · obtain ⟨n, hn, hnrow⟩ := mem_of_forall₂_right hrows hn'
    obtain ⟨i, hi, hirow⟩ := mem_of_forall₂_right hrows hi'
    have hterm := hin.front p hseq n hn i hi (hnrow.live hlive)
      (hprec.of_keeps hirow.keeps hnrow.keeps)
    rwa [hirow.finished hterm]
  · obtain ⟨k, hk, hkrow⟩ := mem_of_forall₂_right hrows hk'
    obtain ⟨j, hj, hjrow⟩ := mem_of_forall₂_right hrows hj'
    obtain ⟨i, hi, hirow⟩ := mem_of_forall₂_right hrows hi'
    have hkpend : k.status = .pending := by
      by_contra hne
      exact hkrow.started hne hpend
    have hij' := hij.of_keeps hirow.keeps hjrow.keeps
    have hterm : i.status.isTerminal = true := by
      by_cases hjpend : j.status = .pending
      · rcases pending_rowsAfter hin.loops.keyed hw hj hj' hjrow.keeps.stepName hjpend with
          hs | hnone | ⟨htarget, hunguarded | ⟨reason, hwrite⟩⟩
        · exact absurd hs hstarted
        · exact absurd hpend (hnone k' hk')
        · exact absurd hjpend (not_pending_of_unguarded h hissues hunguarded hj htarget)
        · exact hskip _ reason hwrite p hseq j hj rfl i hi hij'
      · exact hin.queue p hseq k hk j hj i hi hkpend hjpend (hjk.of_keeps hjrow.keeps hkrow.keeps)
          hij'
    rwa [hirow.finished hterm]
  · obtain ⟨n, hn, hnrow⟩ := mem_of_forall₂_right hrows hn'
    obtain ⟨i, hi, hirow⟩ := mem_of_forall₂_right hrows hi'
    have hlive' := hnrow.live hlive
    have hprec' := hprec.of_keeps hirow.keeps hnrow.keeps
    have hs := hirow.finished (hin.front p hseq n hn i hi hlive' hprec')
    have hgood := hin.healthy p hseq hcof n hn i hi hlive' hprec'
    simpa [isBad, hs] using hgood

/-! ## Cascades -/

structure PlanApplied (task : TaskDef) (steps rows rows' : List JobStepRow) (now : Time)
    (plan : Plan) : Prop where
  read : InOrder task steps
  found : InOrder task rows
  follows : Follows steps rows
  effect : PlanEffect now plan.changes rows rows'
  new : ∀ c ∈ plan.changes, ∀ i ∈ newSteps c, asks c = .pending ∧ NewInstance task c.target i
  changes : ∀ c ∈ plan.changes, ∃ cs c₀, LoopChange task steps cs c₀ ∧ c₀.target = c.target ∧
    (∀ r : JobStepRow, (c₀.setRow r).status = (c.setRow r).status) ∧
    ∀ d ∈ cs, ∃ d' ∈ plan.changes, d'.target = d.target

private theorem setRow_status_of_forget {c d : Change} (h : c.forget = d.forget)
    (r : JobStepRow) : (c.setRow r).status = (d.setRow r).status := by
  have hforget : ∀ e : Change, (e.forget.setRow r).status = (e.setRow r).status := by
    intro e
    cases e with
    | rollup p outcome => cases outcome <;> rfl
    | _ => rfl
  rw [← hforget c, h, hforget d]

theorem PlanApplied.of_run {env : TemplateEnv} {job : JobRow} {ws : Option WorkspaceConfig}
    {ss : Snapshots} {fuel : Nat} {steps rows rows' : List JobStepRow} {now : Time} {plan : Plan}
    (hread : InOrder task steps) (hfound : InOrder task rows) (hfollows : Follows steps rows)
    (hrun : run env fuel task job steps ws ss = some plan)
    (heffect : PlanEffect now plan.changes rows rows') :
    PlanApplied task steps rows rows' now plan := by
  refine ⟨hread, hfound, hfollows, heffect, fun c hc i hi => run_newSteps hrun hc hi,
    fun c hc => ?_⟩
  obtain ⟨cs, hbehind⟩ := Behind.of_run hrun fun i hi a ha hname => by
    obtain ⟨a', ha', hkeeps, -⟩ := hfollows.kept a ha
    exact heffect.fresh i hi a' ha' (hkeeps.stepName.trans hname)
  obtain ⟨c₀, hc₀, hforget⟩ := hbehind.of_mem c hc
  have htarget : ∀ {a b : Change}, a.forget = b.forget → a.target = b.target := by
    intro a b hab
    rw [← Change.forget_target a, hab, Change.forget_target]
  refine ⟨cs, c₀, hbehind.loopChange hread.loops hc₀, htarget hforget,
    setRow_status_of_forget hforget, fun d hd => ?_⟩
  obtain ⟨d', hd', hforget'⟩ := hbehind.to_mem d hd
  exact ⟨d', hd', htarget hforget'⟩

namespace PlanApplied

variable {steps rows rows' : List JobStepRow} {now : Time} {plan : Plan}

theorem no_instance (h : PlanApplied task steps rows rows' now plan) {c : Change}
    (hc : c ∈ plan.changes) {i : NewJobStep} (hi : i ∈ newSteps c) :
    ∀ r ∈ rows, r.loopSource ≠ some c.target := by
  intro r hr hsource
  obtain ⟨hasks, hnew⟩ := h.new c hc i hi
  obtain ⟨q, hq, hname, -⟩ := h.found.loops.flow c.target hnew.flow
  exact h.found.loops.started r hr _ hsource q hq hname (h.effect.asked c hc hasks q hq hname)

theorem inserted_unmoved (h : PlanApplied task steps rows rows' now plan) {c : Change}
    (hc : c ∈ plan.changes) {i : NewJobStep} (hi : i ∈ newSteps c)
    (hmoved : PlanMoved plan.changes (insertedRow now i) r') : r' = insertedRow now i := by
  rcases hmoved.outcome with heq | ⟨-, d, hd, htarget, -⟩
  · exact heq
  exfalso
  have hfresh := h.effect.fresh i (List.mem_flatMap.mpr ⟨c, hc, hi⟩)
  have hread : ∀ n ∈ steps, n.stepName ≠ i.stepName := by
    intro n hn hname
    obtain ⟨n', hn', hkeeps, -⟩ := h.follows.kept n hn
    exact hfresh n' hn' (hkeeps.stepName.trans hname)
  obtain ⟨cs, d₀, hloop, htarget₀, -, -⟩ := h.changes d hd
  have hname : d₀.target = i.stepName := htarget₀.trans htarget
  cases hloop with
  | flow fs hfs =>
    rw [hname] at hfs
    obtain ⟨r, hr, hrname, -⟩ := h.found.loops.flow _ (Flow.mem_keys_iff.mpr ⟨fs, hfs⟩)
    exact hfresh r hr hrname
  | placeholder q hq hqname hplace => exact hread q hq (hqname.trans hname)
  | release p a n hdue => exact hread n hdue.next.1 hname
  | abandon p n hn hns hnp hall => exact hread n hn hname

theorem instance_origin (h : PlanApplied task steps rows rows' now plan)
    (hr' : r' ∈ rows') (hsource : r'.loopSource = some p) :
    (∃ r ∈ rows, PlanMoved plan.changes r r' ∧ r.loopSource = some p) ∨
    (∀ r ∈ rows, r.loopSource ≠ some p) ∧
      (isSequential task p = true → r'.status ≠ .pending → slot r' = 0) := by
  rcases h.effect.origin r' hr' with ⟨r, hr, hmoved⟩ | ⟨i, hi, hmoved⟩
  · exact .inl ⟨r, hr, hmoved, hmoved.keeps.loopSource.symm.trans hsource⟩
  · obtain ⟨c, hc, hi⟩ := List.mem_flatMap.mp hi
    obtain ⟨-, hnew⟩ := h.new c hc i hi
    obtain rfl := h.inserted_unmoved hc hi hmoved
    obtain rfl : c.target = p := Option.some.inj (hnew.loopSource.symm.trans hsource)
    refine .inr ⟨h.no_instance hc hi, fun hseq hstarted => ?_⟩
    obtain ⟨k, hk, -, hindex, hstatus⟩ := hnew.index
    have hzero : k = 0 := by
      by_contra hne
      apply hstarted
      simp [insertedRow, hstatus, hseq, Nat.pos_of_ne_zero hne]
    simp [slot, insertedRow, hindex, hzero]

theorem instance_moved (h : PlanApplied task steps rows rows' now plan)
    (hr : r ∈ rows) (hmoved : PlanMoved plan.changes r r')
    (hsource : r.loopSource = some p) :
    r' = r ∨ r.status = .pending ∧
      (r'.status = .ready ∧ (∃ i n, Due task steps p i n ∧ n.stepName = r.stepName) ∨
        r'.status = .skipped ∧ ∀ m ∈ rows', m.loopSource = some p → m.status ≠ .pending) := by
  rcases hmoved.outcome with heq | ⟨-, c, hc, htarget, hstatus⟩
  · exact .inl heq
  obtain ⟨cs, c₀, hloop, htarget₀, hset, hcs⟩ := h.changes c hc
  have hname : c₀.target = r.stepName := htarget₀.trans htarget
  have hloops := h.found.loops
  have hsource_of : ∀ n ∈ steps, n.stepName = r.stepName → n.loopSource = some p := by
    intro n hn hn'
    obtain ⟨hkeeps, -⟩ := h.follows.row hloops.keyed hn hr hn'
    exact hkeeps.loopSource.symm.trans hsource
  rw [← hset] at hstatus
  cases hloop with
  | flow fs hfs =>
    rw [hname, hloops.flow.get_eq_none hloops.keyed hr (by simp [hsource])] at hfs
    cases hfs
  | placeholder q hq hqname hplace =>
    obtain ⟨hkeeps, -⟩ := h.follows.row hloops.keyed hq hr (hqname.trans hname)
    rw [← hkeeps.isPlaceholder, hloops.plain r hr (by simp [hsource])] at hplace
    cases hplace
  | release q i n hdue =>
    have hns := hsource_of n hdue.next.1 hname
    obtain rfl : q = p := Option.some.inj (hdue.next.2.1.symm.trans hns)
    refine .inr ⟨?_, .inl ⟨hstatus, i, n, hdue, hname⟩⟩
    refine h.effect.asked c hc ?_ r hr htarget.symm
    have := hset r
    cases c with
    | rollup q outcome => cases outcome <;> simp [Change.setRow] at this
    | _ => rfl
  | abandon q n hn hns hnp hall =>
    obtain rfl : q = p := Option.some.inj (hns.symm.trans (hsource_of n hn hname))
    refine .inr ⟨?_, .inr ⟨hstatus, fun m hm hms hmp => ?_⟩⟩
    · refine h.effect.asked c hc ?_ r hr htarget.symm
      have := hset r
      cases c with
      | rollup q outcome => cases outcome <;> simp [Change.setRow] at this
      | _ => rfl
    · -- an instance still pending was pending when the plan was made, so the plan moves it
      rcases h.effect.origin m hm with ⟨m₁, hm₁, hmmoved⟩ | ⟨i, hi, hmmoved⟩
      · obtain rfl := hmmoved.of_pending hmp
        obtain ⟨ph, hph, hphname, -⟩ := h.read.loops.flow q (h.read.loops.index n hn q hns).1
        obtain ⟨m₀, hm₀, hkeeps⟩ := h.follows.grown m hm₁ q hms
          ⟨ph, hph, hphname, h.read.loops.started n hn q hns ph hph hphname⟩
        have hm₀pend : m₀.status = .pending := by
          by_contra hne
          exact (h.follows.row hloops.keyed hm₀ hm₁ hkeeps.stepName.symm).2.1 hne hmp
        obtain ⟨d, hd, hdtarget⟩ := hall m₀ hm₀ (hkeeps.loopSource.symm.trans hms) hm₀pend
        obtain ⟨d', hd', hdtarget'⟩ := hcs d hd
        obtain ⟨m', hm', hm'name, hstarted⟩ := h.effect.done d' hd'
        rw [h.effect.keyed.eq_of_key hm' hm ((hm'name.trans (hdtarget'.trans hdtarget)).trans
          hkeeps.stepName.symm)] at hstarted
        exact hstarted hmp
      · obtain ⟨d, hd, hi⟩ := List.mem_flatMap.mp hi
        obtain ⟨-, hnew⟩ := h.new d hd i hi
        rw [hmmoved.keeps.loopSource] at hms
        have hq : d.target = q := Option.some.inj (hnew.loopSource.symm.trans hms)
        exact h.no_instance hd hi r hr (by rw [hsource, hq])

theorem later (h : PlanApplied task steps rows rows' now plan) : Follows rows rows' := by
  refine ⟨fun r hr => ?_, fun r' hr' p hsource hstarted => ?_⟩
  · obtain ⟨r', hr', hmoved⟩ := h.effect.kept r hr
    refine ⟨r', hr', hmoved.keeps, fun hne hpend => hne ?_, fun hterm => ?_⟩
    · rwa [hmoved.of_pending hpend] at hpend
    · rw [hmoved.of_terminal hterm]
  · rcases h.effect.origin r' hr' with ⟨r, hr, hmoved⟩ | ⟨i, hi, hmoved⟩
    · exact ⟨r, hr, hmoved.keeps⟩
    · obtain ⟨c, hc, hi⟩ := List.mem_flatMap.mp hi
      obtain ⟨hasks, hnew⟩ := h.new c hc i hi
      rw [hmoved.keeps.loopSource] at hsource
      have htarget : c.target = p := Option.some.inj (hnew.loopSource.symm.trans hsource)
      obtain ⟨q, hq, hqname, hqstarted⟩ := hstarted
      exact absurd (h.effect.asked c hc hasks q hq (hqname.trans htarget.symm)) hqstarted

theorem loops (h : PlanApplied task steps rows rows' now plan) : LoopRows task rows' where
  keyed := h.effect.keyed
  flow := by
    intro name hname
    obtain ⟨r, hr, hrname, hsource⟩ := h.found.loops.flow name hname
    obtain ⟨r', hr', hmoved⟩ := h.effect.kept r hr
    exact ⟨r', hr', hmoved.keeps.stepName.trans hrname, hmoved.keeps.loopSource.trans hsource⟩
  plain := by
    intro r' hr' hsource
    rcases h.effect.origin r' hr' with ⟨r, hr, hmoved⟩ | ⟨i, hi, hmoved⟩
    · rw [hmoved.keeps.loopSource] at hsource
      rw [hmoved.keeps.isPlaceholder]
      exact h.found.loops.plain r hr hsource
    · obtain ⟨c, hc, hi⟩ := List.mem_flatMap.mp hi
      rw [hmoved.keeps.isPlaceholder]
      simp [JobStepRow.isPlaceholder, insertedRow, (h.new c hc i hi).2.forEachExpr]
  index := by
    intro r' hr' p hsource
    rcases h.effect.origin r' hr' with ⟨r, hr, hmoved⟩ | ⟨i, hi, hmoved⟩
    · rw [hmoved.keeps.stepName, hmoved.keeps.loopIndex]
      exact h.found.loops.index r hr p (hmoved.keeps.loopSource.symm.trans hsource)
    · obtain ⟨c, hc, hi⟩ := List.mem_flatMap.mp hi
      obtain ⟨-, hnew⟩ := h.new c hc i hi
      rw [hmoved.keeps.loopSource] at hsource
      obtain rfl : c.target = p := Option.some.inj (hnew.loopSource.symm.trans hsource)
      obtain ⟨k, hk, hname, hindex, -⟩ := hnew.index
      rw [hmoved.keeps.stepName, hmoved.keeps.loopIndex]
      exact ⟨hnew.flow, k, hk, hname, hindex⟩
  started := by
    intro r' hr' p hsource q' hq' hname hpend
    rcases h.effect.origin r' hr' with ⟨r, hr, hmoved⟩ | ⟨i, hi, hmoved⟩
    · have hrsource := hmoved.keeps.loopSource.symm.trans hsource
      obtain ⟨q, hq, hqname, -⟩ := h.found.loops.flow p (h.found.loops.index r hr p hrsource).1
      obtain ⟨q'', hq'', hqmoved⟩ := h.effect.kept q hq
      obtain rfl := h.effect.keyed.eq_of_key hq'' hq'
        ((hqmoved.keeps.stepName.trans hqname).trans hname.symm)
      rw [hqmoved.of_pending hpend] at hpend
      exact h.found.loops.started r hr p hrsource q hq hqname hpend
    · obtain ⟨c, hc, hi⟩ := List.mem_flatMap.mp hi
      obtain ⟨-, hnew⟩ := h.new c hc i hi
      rw [hmoved.keeps.loopSource] at hsource
      have htarget : c.target = p := Option.some.inj (hnew.loopSource.symm.trans hsource)
      obtain ⟨q, hq, hqname, hstarted⟩ := h.effect.done c hc
      rw [h.effect.keyed.eq_of_key hq hq' ((hqname.trans htarget).trans hname.symm)] at hstarted
      exact hstarted hpend

private theorem pair_origin (h : PlanApplied task steps rows rows' now plan)
    {i' n' : JobStepRow} (hseq : isSequential task p = true) (hi' : i' ∈ rows') (hn' : n' ∈ rows')
    (hprec : Precedes p i' n') (hn'started : n'.status ≠ .pending) :
    ∃ i ∈ rows, ∃ n ∈ rows, PlanMoved plan.changes i i' ∧ PlanMoved plan.changes n n' ∧
      Precedes p i n := by
  rcases h.instance_origin hn' hprec.second with ⟨n, hn, hnmoved, hns⟩ | ⟨-, hzero⟩
  · rcases h.instance_origin hi' hprec.first with ⟨i, hi, himoved, -⟩ | ⟨hnone, -⟩
    · exact ⟨i, hi, n, hn, himoved, hnmoved, hprec.of_keeps himoved.keeps hnmoved.keeps⟩
    · exact absurd hns (hnone n hn)
  · have hlt := hprec.slot_lt
    have hnonneg := h.loops.slot_nonneg hi' hprec.first
    rw [hzero hseq hn'started] at hlt
    omega

private theorem finished_before_due (h : PlanApplied task steps rows rows' now plan)
    {a b : JobStepRow} (hdue : Due task steps p a b)
    (hname : b.stepName = n.stepName) (hn : n ∈ rows) (hpend : n.status = .pending)
    (hi : i ∈ rows) (hprec : Precedes p i n) :
    i.status.isTerminal = true ∧
      ∃ i₀ ∈ steps, i₀.loopSource = some p ∧ i.status = i₀.status := by
  obtain ⟨ha, has, haterm⟩ := hdue.before
  obtain ⟨hb, hbs, hbpend⟩ := hdue.next
  have hslot := hdue.slot_succ h.read.loops
  obtain ⟨hbkeeps, -⟩ := h.follows.row h.found.loops.keyed hb hn hname
  obtain ⟨a', ha', hakeeps, -, hafinished⟩ := h.follows.kept a ha
  have hterm : i.status.isTerminal = true := by
    refine h.found.finished_before hdue.sequential ha' (hakeeps.loopSource.trans has) ?_ hn hpend
      ?_ hi hprec
    · rwa [hafinished haterm]
    · rw [hakeeps.slot, hbkeeps.slot, hslot]
  refine ⟨hterm, ?_⟩
  -- the instance was there when the plan was made, and finished
  obtain ⟨ph, hph, hphname, -⟩ := h.read.loops.flow p (h.read.loops.index a ha p has).1
  obtain ⟨i₀, hi₀, hkeeps⟩ := h.follows.grown i hi p hprec.first
    ⟨ph, hph, hphname, h.read.loops.started a ha p has ph hph hphname⟩
  have hprec₀ : Precedes p i₀ b := hprec.of_keeps hkeeps hbkeeps
  have hterm₀ := h.read.finished_before hdue.sequential ha has haterm hb hbpend hslot hi₀ hprec₀
  exact ⟨i₀, hi₀, hprec₀.first,
    (h.follows.row h.found.loops.keyed hi₀ hi hkeeps.stepName.symm).2.2 hterm₀⟩

theorem inOrder (h : PlanApplied task steps rows rows' now plan) : InOrder task rows' := by
  refine ⟨h.loops, fun p hseq n' hn' i' hi' hlive hprec => ?_,
    fun p hseq k' hk' j' hj' i' hi' hpend hstarted hjk hij => ?_,
    fun p hseq hcof n' hn' i' hi' hlive hprec => ?_⟩
  · obtain ⟨i, hi, n, hn, himoved, hnmoved, hprec₀⟩ := h.pair_origin hseq hi' hn' hprec hlive.1
    have hterm : i.status.isTerminal = true := by
      rcases h.instance_moved hn hnmoved hprec₀.second with
        rfl | ⟨hnpend, ⟨-, a, b, hdue, hname⟩ | ⟨hskipped, -⟩⟩
      · exact h.found.front p hseq n' hn i hi hlive hprec₀
      · exact (h.finished_before_due hdue hname hn hnpend hi hprec₀).1
      · have := hlive.2
        rw [hskipped] at this
        cases this
    rwa [himoved.of_terminal hterm]
  · obtain ⟨i, hi, j, hj, himoved, hjmoved, hij₀⟩ := h.pair_origin hseq hi' hj' hij hstarted
    have hterm : i.status.isTerminal = true := by
      rcases h.instance_moved hj hjmoved hij₀.second with
        rfl | ⟨hjpend, ⟨-, a, b, hdue, hname⟩ | ⟨-, hnone⟩⟩
      · rcases h.instance_origin hk' hjk.second with ⟨k, hk, hkmoved, -⟩ | ⟨hnone, -⟩
        · obtain rfl := hkmoved.of_pending hpend
          exact h.found.queue p hseq k' hk j' hj i hi hpend hstarted hjk hij₀
        · exact absurd hij₀.second (hnone j' hj)
      · exact (h.finished_before_due hdue hname hj hjpend hi hij₀).1
      · exact absurd hpend (hnone k' hk' hjk.second)
    rwa [himoved.of_terminal hterm]
  · obtain ⟨i, hi, n, hn, himoved, hnmoved, hprec₀⟩ := h.pair_origin hseq hi' hn' hprec hlive.1
    rcases h.instance_moved hn hnmoved hprec₀.second with
      rfl | ⟨hnpend, ⟨-, a, b, hdue, hname⟩ | ⟨hskipped, -⟩⟩
    · rw [himoved.of_terminal (h.found.front p hseq n' hn i hi hlive hprec₀)]
      exact h.found.healthy p hseq hcof n' hn i hi hlive hprec₀
    · obtain ⟨hterm, i₀, hi₀, his₀, hstatus⟩ := h.finished_before_due hdue hname hn hnpend hi hprec₀
      have hgood : isBad i₀ = false := by
        rcases hdue.healthy with hcof' | hall
        · rw [hcof] at hcof'
          cases hcof'
        · exact hall i₀ hi₀ his₀
      rw [himoved.of_terminal hterm]
      simpa [isBad, hstatus] using hgood
    · have := hlive.2
      rw [hskipped] at this
      cases this

end PlanApplied

theorem inOrder_advance {env : TemplateEnv} {t : State} {a : Action}
    (h : Consistent (InOrder task) Follows s) (hok : InTime task s a)
    (hstep : advance env task s a = some t) : Consistent (InOrder task) Follows t := by
  have htrans : ∀ a b c, Follows a b → Follows b c → Follows a c := fun _ _ _ => Follows.trans
  rcases advance_cases hstep with ⟨e, rfl, hissues, hw, rfl⟩ |
    ⟨now, jobStatus, read, fuel, job, ws, ss, rfl, steps, hsteps, plan, hrun, rfl⟩
  · exact h.push htrans (inOrder_write h hissues hw hok) (follows_write h hissues hw hok.1)
      (.refl _)
  · rcases rowsAfter_applyPlan now jobStatus plan h.rows.loops.keyed with heq | heffect
    · rw [heq]
      exact h.push htrans h.rows (.refl _) (.refl _)
    · have happlied := PlanApplied.of_run (h.good steps hsteps) h.rows (h.later steps hsteps) hrun
        heffect
      exact h.push htrans happlied.inOrder happlied.later (.refl _)

end Steps

theorem isLive_of_isActive (h : r.status.isActive = true) : isLive r := by
  unfold isLive
  cases hs : r.status <;> simp_all [StepStatus.isActive, StepStatus.isTerminal]

/--
In a run whose unguarded writes are in time, a sequential loop has at most one active instance,
and only finished ones before it.
-/
theorem sequential_in_order {env : TemplateEnv} {task : TaskDef} {jsonText : Json → String}
    {defaults : JobDefaults} {jobId : Uuid} {source : String → FlowStep → StepSource}
    {created : Time} {rows : List JobStepRow} {as : List Action} {s : State}
    (hcreate : createSteps jsonText defaults jobId source task.flow created = some rows)
    (hok : Meets (advance env task) (InTime task) (.start rows) as)
    (hrun : exec (advance env task) (.start rows) as = some s) :
    ∀ p, isSequential task p = true →
      (∀ i ∈ s.rows, ∀ n ∈ s.rows, i.loopSource = some p → n.loopSource = some p →
        i.status.isActive = true → n.status.isActive = true → i = n) ∧
      (∀ n ∈ s.rows, ∀ i ∈ s.rows, n.status.isActive = true → Precedes p i n →
        i.status.isTerminal = true) ∧
      (continuesOnFailure task p = false → ∀ n ∈ s.rows, ∀ i ∈ s.rows,
        n.status.isActive = true → Precedes p i n → isBad i = false) := by
  have hstart : Consistent (InOrder task) Follows (.start rows) :=
    .start (createSteps_inOrder hcreate) (.refl rows)
  have hlast := (exec_invariant (Consistent (InOrder task) Follows)
    (fun _ _ _ h hok hstep => inOrder_advance h hok hstep) hstart hok hrun).rows
  have hfront : ∀ p, isSequential task p = true → ∀ n ∈ s.rows, ∀ i ∈ s.rows,
      n.status.isActive = true → Precedes p i n → i.status.isTerminal = true :=
    fun p hseq n hn i hi hactive => hlast.front p hseq n hn i hi (isLive_of_isActive hactive)
  intro p hseq
  refine ⟨fun i hi n hn his hns hactive hactive' => ?_, hfront p hseq,
    fun hcof n hn i hi hactive => hlast.healthy p hseq hcof n hn i hi (isLive_of_isActive hactive)⟩
  rcases lt_trichotomy (slot i) (slot n) with hlt | heq | hlt
  · have hterm := hfront p hseq n hn i hi hactive' ⟨his, hns, hlt⟩
    rw [(isLive_of_isActive hactive).2] at hterm
    cases hterm
  · exact hlast.loops.slot_inj hi hn his hns heq
  · have hterm := hfront p hseq i hi n hn hactive ⟨hns, his, hlt⟩
    rw [(isLive_of_isActive hactive').2] at hterm
    cases hterm

/-! ## A loop of three -/

private theorem nodup_onlyP : ["p"].Nodup := List.nodup_singleton "p"

def sequentialLoop : TaskDef :=
  ⟨⟨[("p", { action := "work", forEach := some (.str "[1,2,3]"), sequential := true })],
    nodup_onlyP⟩⟩

def orderlyLoop : List Action :=
  [.cascade 0 .pending 0 3 { jobId := 1 } (some {}) {},
    .write ⟨1, .running, .claimReadyStep scriptWorker "p[0]"⟩,
    .write ⟨2, .running, .markCompleted "p[0]" none⟩,
    .cascade 3 .running 0 3 { jobId := 1 } (some {}) {}]

theorem sequential_in_order_orderlyLoop :
    createSteps (fun _ => "") {} 1 workSource sequentialLoop.flow 0 =
        some (workRows sequentialLoop.flow) ∧
      Meets (advance literalEnv sequentialLoop) (InTime sequentialLoop)
        (.start (workRows sequentialLoop.flow)) orderlyLoop ∧
      isSequential sequentialLoop "p" = true ∧
      ∃ s, exec (advance literalEnv sequentialLoop) (.start (workRows sequentialLoop.flow))
          orderlyLoop = some s ∧
        s.rows.map JobStepRow.status = [.running, .completed, .ready, .pending] ∧
        ∀ i ∈ s.rows, ∀ n ∈ s.rows, i.loopSource = some "p" → n.loopSource = some "p" →
          i.status.isActive = true → n.status.isActive = true → i = n := by
  have hcreate : createSteps (fun _ => "") {} 1 workSource sequentialLoop.flow 0 =
      some (workRows sequentialLoop.flow) := by decide
  have hok : Meets (advance literalEnv sequentialLoop) (InTime sequentialLoop)
      (.start (workRows sequentialLoop.flow)) orderlyLoop := by
    refine ⟨trivial, fun t ht => ⟨⟨fun h => absurd h (by decide), fun _ _ h => by cases h⟩,
      fun u hu => ⟨⟨fun _ => ?_, fun _ _ h => by cases h⟩, fun _ _ => ⟨trivial,
        fun _ _ => trivial⟩⟩⟩⟩
    have hlive : ((exec (advance literalEnv sequentialLoop)
        (.start (workRows sequentialLoop.flow)) (orderlyLoop.take 2)).all fun u =>
          u.rows.all fun r => r.stepName != "p[0]" || !r.status.isTerminal) = true := by decide
    have hrun : exec (advance literalEnv sequentialLoop)
        (.start (workRows sequentialLoop.flow)) (orderlyLoop.take 2) = some u :=
      exec_cons_eq_some.mpr ⟨t, ht, exec_cons_eq_some.mpr ⟨u, hu, rfl⟩⟩
    rw [hrun] at hlive
    simp only [Option.all_some, List.all_eq_true] at hlive
    intro r hr htarget
    have hname : "p[0]" = r.stepName := Option.some.inj htarget
    simpa [← hname] using hlive r hr
  have hrun : (exec (advance literalEnv sequentialLoop) (.start (workRows sequentialLoop.flow))
      orderlyLoop).any (fun s =>
        s.rows.map JobStepRow.status == [.running, .completed, .ready, .pending]) = true := by
    decide
  obtain ⟨s, hs, hrows⟩ := (Option.any_eq_true _ _).mp hrun
  exact ⟨hcreate, hok, by decide, s, hs, by simpa using hrows,
    (sequential_in_order hcreate hok hs "p" (by decide)).1⟩

/-- The start report of the first instance arrives when the second is ready: both are active. -/
theorem late_start_two_active :
    isSequential sequentialLoop "p" = true ∧
      ((exec (advance literalEnv sequentialLoop) (.start (workRows sequentialLoop.flow))
        [.cascade 0 .pending 0 3 { jobId := 1 } (some {}) {},
          .write ⟨1, .running, .claimReadyStep scriptWorker "p[0]"⟩,
          .write ⟨2, .running, .markCompleted "p[0]" none⟩,
          .cascade 3 .running 0 3 { jobId := 1 } (some {}) {},
          .write ⟨4, .running, .markRunning "p[0]" 7⟩]).map fun s =>
      s.rows.map fun r => (r.stepName, r.loopSource, r.status)) =
    some [("p", none, .running), ("p[0]", some "p", .running), ("p[1]", some "p", .ready),
      ("p[2]", some "p", .pending)] := by
  decide

end Stroem.Engine
