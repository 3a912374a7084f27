import Stroem.Cascade.ApplySpec
import Stroem.Foundation.Reorder

/-!
# What a rollup says

A rollup is computed from the rows a pass starts with.  It is about every instance of its loop
and nothing else: all of them are finished, the output lists theirs by `loop_index`, and the
placeholder fails with any of them.
-/

namespace Stroem.Cascade

open Foundation

variable {p : String} {outcome : RollupOutcome}

namespace RollupOutcome

def status : RollupOutcome → StepStatus
  | .completed _ => .completed
  | .failed _ _ => .failed

def output : RollupOutcome → Json
  | .completed output => output
  | .failed _ output => output

end RollupOutcome

def loopPlace (i : JobStepRow) : Option Int32 × Option Json :=
  (i.loopIndex, i.loopItem)

def itemPlaces (items : List Json) : List (Option Int32 × Option Json) :=
  items.mapIdx fun i item => (some (Int32.ofNat i), some item)

def instanceRows (snap : Snapshot) (p : String) : List JobStepRow :=
  snap.filter fun r => r.loopSource == some p

structure RollsUp (snap : Snapshot) (p : String) (outcome : RollupOutcome) : Prop where
  running : ∃ ph ∈ snap, ph.stepName = p ∧ ph.isPlaceholder = true ∧ ph.status = .running
  finished : ∀ i ∈ snap, i.loopSource = some p → i.status.isTerminal = true
  output : ∃ instances, instances ≠ [] ∧ instances.Perm (instanceRows snap p) ∧
    instances.Pairwise (fun a b => a.loopIndex.getD 0 ≤ b.loopIndex.getD 0) ∧
    outcome.output = .arr (instances.map fun i => i.output.getD .null) ∧
    ∀ items, items.length ≤ maxForEachItems →
      ((instanceRows snap p).map loopPlace).Perm (itemPlaces items) →
        instances.map loopPlace = itemPlaces items
  failed : outcome.status = .failed ↔
    ∃ i ∈ snap, i.loopSource = some p ∧ i.status = .failed
  completed : outcome.status = .completed ↔
    ∀ i ∈ snap, i.loopSource = some p → i.status ≠ .failed

/-! ## The instances in order -/

theorem loopInstances_perm (snap : Snapshot) (p : String) :
    (loopInstances snap p).Perm (instanceRows snap p) :=
  List.perm_insertionSort _ _

theorem loopInstances_sorted (snap : Snapshot) (p : String) :
    (loopInstances snap p).Pairwise fun a b => a.loopIndex.getD 0 ≤ b.loopIndex.getD 0 := by
  have : Std.Total fun a b : JobStepRow => a.loopIndex.getD 0 ≤ b.loopIndex.getD 0 :=
    ⟨fun _ _ => Int32.le_total _ _⟩
  have : IsTrans JobStepRow fun a b => a.loopIndex.getD 0 ≤ b.loopIndex.getD 0 :=
    ⟨fun _ _ _ => Int32.le_trans⟩
  exact List.pairwise_insertionSort _ _

theorem mem_itemPlaces {items : List Json} {place : Option Int32 × Option Json}
    (h : place ∈ itemPlaces items) :
    ∃ i, ∃ hi : i < items.length, place = (some (Int32.ofNat i), some items[i]) := by
  obtain ⟨i, hi, rfl⟩ := List.mem_mapIdx.mp h
  exact ⟨i, hi, rfl⟩

theorem itemPlaces_sorted {items : List Json} (h : items.length ≤ maxForEachItems) :
    (itemPlaces items).Pairwise fun a b => a.1.getD 0 ≤ b.1.getD 0 := by
  rw [itemPlaces, List.pairwise_iff_getElem]
  intro i j hi hj hij
  simp only [List.length_mapIdx, maxForEachItems] at h hi hj
  simp only [List.getElem_mapIdx, Option.getD_some]
  rw [Int32.le_iff_toInt_le, Int32.toInt_ofNat_of_lt (by omega),
    Int32.toInt_ofNat_of_lt (by omega)]
  omega

theorem places_eq {instances : List JobStepRow} {items : List Json}
    (hlen : items.length ≤ maxForEachItems)
    (hsorted : instances.Pairwise fun a b => a.loopIndex.getD 0 ≤ b.loopIndex.getD 0)
    (hperm : (instances.map loopPlace).Perm (itemPlaces items)) :
    instances.map loopPlace = itemPlaces items := by
  have hplaces : (instances.map loopPlace).Pairwise fun a b => a.1.getD 0 ≤ b.1.getD 0 :=
    List.pairwise_map.mpr hsorted
  refine List.Perm.eq_of_pairwise (fun a b ha hb hab hba => ?_) hplaces
    (itemPlaces_sorted hlen) hperm
  -- two places of one index are the same place
  have hidx : a.1.getD 0 = b.1.getD 0 := Int32.le_antisymm hab hba
  obtain ⟨i, hi, rfl⟩ := mem_itemPlaces (hperm.mem_iff.mp ha)
  obtain ⟨j, hj, rfl⟩ := mem_itemPlaces hb
  obtain rfl := loopIndex_inj (by omega) (by omega) hidx
  rfl

/-! ## The rollups of a pass -/

theorem rollupOutcome_status (instances : List JobStepRow) :
    ((rollupOutcome instances).status = .failed ↔ ∃ i ∈ instances, i.status = .failed) ∧
    ((rollupOutcome instances).status = .completed ↔ ∀ i ∈ instances, i.status ≠ .failed) := by
  rcases rollupOutcome_cases instances with ⟨output, heq, hnone⟩ | ⟨error, output, heq, i, hi, hs⟩
  · rw [heq]
    simp only [RollupOutcome.status, reduceCtorEq, false_iff, true_iff, not_exists, not_and]
    exact ⟨hnone, hnone⟩
  · rw [heq]
    simp only [RollupOutcome.status, reduceCtorEq, false_iff, true_iff, not_forall]
    exact ⟨⟨i, hi, hs⟩, i, hi, not_not.mpr hs⟩

theorem rollupOutcome_output (instances : List JobStepRow) :
    (rollupOutcome instances).output = .arr (instances.map fun i => i.output.getD .null) := by
  unfold rollupOutcome
  simp only
  split <;> rfl

variable {snap : Snapshot} {task : TaskDef}

theorem mem_rollupPlaceholder {ph : JobStepRow} :
    .rollup p outcome ∈ rollupPlaceholder snap task ph ↔
      p = ph.stepName ∧ loopInstances snap p ≠ [] ∧
      (∀ i ∈ loopInstances snap p, i.status.isTerminal = true) ∧
      outcome = rollupOutcome (loopInstances snap p) := by
  unfold rollupPlaceholder
  simp only
  split
  case isTrue hempty =>
    refine ⟨fun h => absurd h List.not_mem_nil, ?_⟩
    rintro ⟨rfl, hne, -⟩
    exact absurd (List.isEmpty_iff.mp hempty) hne
  case isFalse hne =>
    rw [List.isEmpty_iff] at hne
    split
    case isTrue hcond =>
      -- a loop that is being abandoned has a pending instance
      simp only [Bool.and_eq_true, Bool.not_eq_true', List.isEmpty_eq_false_iff_exists_mem,
        List.mem_filter, beq_iff_eq] at hcond
      obtain ⟨-, i, hi, hpend⟩ := hcond
      constructor
      · intro h
        obtain ⟨j, -, hskip⟩ := List.mem_map.mp h
        cases hskip
      · rintro ⟨rfl, -, hterm, -⟩
        have := hterm i hi
        rw [hpend] at this
        cases this
    case isFalse =>
      rw [List.mem_append]
      have hadvance : .rollup p outcome ∉ (if isSequential task ph.stepName = true then
          advanceInstances (loopInstances snap ph.stepName) else []) := by
        intro h
        split at h
        · obtain ⟨i, -, n, -, idx, -, -, -, -, hpromote⟩ := mem_advanceInstances h
          cases hpromote
        · cases h
      rw [or_iff_right hadvance, rollupInstances]
      split
      case isTrue hall =>
        rw [List.mem_singleton, Change.rollup.injEq]
        constructor
        · rintro ⟨rfl, rfl⟩
          exact ⟨rfl, hne, List.all_eq_true.mp hall, rfl⟩
        · rintro ⟨rfl, -, -, rfl⟩
          exact ⟨rfl, rfl⟩
      case isFalse hall =>
        refine ⟨fun h => absurd h List.not_mem_nil, ?_⟩
        rintro ⟨rfl, -, hterm, -⟩
        exact absurd (List.all_eq_true.mpr hterm) hall

theorem mem_phaseRollup_rollup :
    .rollup p outcome ∈ phaseRollup snap task ↔
      (∃ ph ∈ snap, ph.stepName = p ∧ ph.isPlaceholder = true ∧ ph.status = .running) ∧
      loopInstances snap p ≠ [] ∧
      (∀ i ∈ loopInstances snap p, i.status.isTerminal = true) ∧
      outcome = rollupOutcome (loopInstances snap p) := by
  rw [phaseRollup, List.mem_flatMap]
  constructor
  · rintro ⟨ph, hph, h⟩
    obtain ⟨hmem, hplace, hrun⟩ := mem_runningPlaceholders.mp hph
    obtain ⟨rfl, hrest⟩ := mem_rollupPlaceholder.mp h
    exact ⟨⟨ph, hmem, rfl, hplace, hrun⟩, hrest⟩
  · rintro ⟨⟨ph, hmem, rfl, hplace, hrun⟩, hrest⟩
    exact ⟨ph, mem_runningPlaceholders.mpr ⟨hmem, hplace, hrun⟩,
      mem_rollupPlaceholder.mpr ⟨rfl, hrest⟩⟩

theorem RollsUp.of_phaseRollup (h : .rollup p outcome ∈ phaseRollup snap task) :
    RollsUp snap p outcome := by
  obtain ⟨hrunning, hne, hterm, rfl⟩ := mem_phaseRollup_rollup.mp h
  obtain ⟨hfailed, hcompleted⟩ := rollupOutcome_status (loopInstances snap p)
  have hperm := loopInstances_perm snap p
  have hsorted := loopInstances_sorted snap p
  refine ⟨hrunning, fun i hi hs => hterm i (mem_loopInstances.mpr ⟨hi, hs⟩),
    ⟨loopInstances snap p, hne, hperm, hsorted, rollupOutcome_output _, ?_⟩, ?_, ?_⟩
  · exact fun items hlen hitems => places_eq hlen hsorted ((hperm.map loopPlace).trans hitems)
  · simpa only [mem_loopInstances, and_assoc] using hfailed
  · simpa only [mem_loopInstances, and_imp] using hcompleted

/-! ## The rollups of a plan -/

theorem loopInstances_visible (snap : Snapshot) (p : String) :
    loopInstances snap.visible p = (loopInstances snap p).map JobStepRow.visible := by
  unfold loopInstances Snapshot.visible
  rw [List.filter_map]
  exact (List.map_insertionSort _ _ JobStepRow.visible _ fun _ _ _ _ => Iff.rfl).symm

theorem rollupOutcome_visible (instances : List JobStepRow) :
    rollupOutcome (instances.map JobStepRow.visible) = rollupOutcome instances := by
  have hfailed : (instances.map JobStepRow.visible).filter (fun i => i.status == .failed) =
      (instances.filter fun i => i.status == .failed).map JobStepRow.visible := by
    rw [List.filter_map]
    rfl
  unfold rollupOutcome
  simp only [hfailed, List.isEmpty_map, List.map_map, List.filterMap_map]
  rfl

theorem phaseRollup_rollup_visible :
    .rollup p outcome ∈ phaseRollup snap.visible task ↔
      .rollup p outcome ∈ phaseRollup snap task := by
  have hrunning : (∃ ph ∈ snap.visible, ph.stepName = p ∧ ph.isPlaceholder = true ∧
      ph.status = .running) ↔
      ∃ ph ∈ snap, ph.stepName = p ∧ ph.isPlaceholder = true ∧ ph.status = .running := by
    simp only [Snapshot.visible, List.mem_map, exists_exists_and_eq_and]
    rfl
  have hterm : (∀ i ∈ (loopInstances snap p).map JobStepRow.visible, i.status.isTerminal = true) ↔
      ∀ i ∈ loopInstances snap p, i.status.isTerminal = true := by
    rw [List.forall_mem_map]
    rfl
  rw [mem_phaseRollup_rollup, mem_phaseRollup_rollup, loopInstances_visible,
    rollupOutcome_visible, hrunning, hterm, ne_eq, List.map_eq_nil_iff]

theorem Batches.eq_applyAll {env : TemplateEnv} {job : JobRow} {ws : Option WorkspaceConfig}
    {ss : Snapshots} {last : Snapshot} {cs : List Change}
    (h : Batches env task job ws ss snap cs last) : last = snap.applyAll cs := by
  induction h with
  | nil => rfl
  | cons _ _ ih => rw [ih, Snapshot.applyAll_append]

theorem redactChanges_keeps (env : TemplateEnv) (ws : Option WorkspaceConfig) :
    ∃ f : Change → Change, (∀ c d, (∀ step error, d ≠ .fail step error) → (f c = d ↔ c = d)) ∧
      ∀ cs, redactChanges env ws cs = cs.map f := by
  unfold redactChanges
  cases ws with
  | none => exact ⟨id, fun c d _ => Iff.rfl, fun cs => (List.map_id cs).symm⟩
  | some cfg =>
    by_cases hempty : (collectConfigSecretValues cfg).isEmpty = true
    · exact ⟨id, fun c d _ => Iff.rfl, fun cs => by simp [hempty]⟩
    · refine ⟨Change.redact env (collectConfigSecretValues cfg), fun c d hd => ?_,
        fun cs => by simp [hempty]⟩
      cases c with
      | fail step error =>
        exact ⟨fun h => absurd h.symm (hd _ _), fun h => absurd h.symm (hd _ _)⟩
      | _ => rfl

section Plan

variable {env : TemplateEnv} {fuel : Nat} {task : TaskDef} {job : JobRow}
  {ws : Option WorkspaceConfig} {ss : Snapshots} {rows : List JobStepRow} {plan : Plan}

theorem run_batch (hrun : run env fuel task job rows ws ss = some plan) {c : Change}
    (hc : c ∈ plan.changes) (hfail : ∀ step error, c ≠ .fail step error) :
    ∃ pre batch post mid cs, plan.changes = pre ++ (batch ++ post) ∧ c ∈ batch ∧ c ∈ cs ∧
      Batch env task job ws ss mid cs ∧
      Snapshot.visible (Snapshot.applyAll rows pre) = mid.visible := by
  obtain ⟨ds, hds, rfl⟩ := Option.map_eq_some_iff.mp hrun
  obtain ⟨f, hf, hredact⟩ := redactChanges_keeps env ws
  have hiff : ∀ l : List Change, c ∈ redactChanges env ws l ↔ c ∈ l := by
    intro l
    rw [hredact, List.mem_map]
    simp only [hf _ c hfail, exists_eq_right]
  obtain ⟨last, hb⟩ := runLoop_batches hds
  obtain ⟨pre, batch, post, mid, rfl, hpre, hbatch, hcb⟩ := hb.of_mem ((hiff ds).mp hc)
  refine ⟨redactChanges env ws pre, redactChanges env ws batch, redactChanges env ws post, mid,
    batch, by simp [hredact], (hiff batch).mpr hcb, hcb, hbatch, ?_⟩
  rw [hpre.eq_applyAll]
  exact Snapshot.visible_applyAll_congr rfl (redactChanges_forget env ws pre)

theorem run_rollsUp (hrun : run env fuel task job rows ws ss = some plan)
    (hc : .rollup p outcome ∈ plan.changes) :
    ∃ pre batch post, plan.changes = pre ++ (batch ++ post) ∧ .rollup p outcome ∈ batch ∧
      RollsUp (Snapshot.applyAll rows pre) p outcome := by
  obtain ⟨pre, batch, post, mid, cs, hsplit, hmem, hcs, hbatch, hvisible⟩ :=
    run_batch hrun hc (by simp)
  refine ⟨pre, batch, post, hsplit, hmem, ?_⟩
  have hphase : .rollup p outcome ∈ phaseRollup mid task := by
    cases hbatch with
    | rollup => exact hcs
    | promote =>
      obtain ⟨r, -, -, -, fs, -, hreason⟩ := promoteBatch_reason hcs
      cases hreason
    | placeholders =>
      obtain ⟨r, -, -, -, fs, -, hreason⟩ := phasePlaceholders_reason hcs
      cases hreason
  have hplanned : .rollup p outcome ∈ phaseRollup (Snapshot.applyAll rows pre) task := by
    rwa [← phaseRollup_rollup_visible, hvisible, phaseRollup_rollup_visible]
  exact RollsUp.of_phaseRollup hplanned

end Plan

/-! ## The instances of an expansion -/

theorem expandInstances_places (fs : FlowStep) (jobId : Uuid) (r : JobStepRow)
    (items : List Json) :
    ((expandInstances fs jobId r items).map syntheticRow).map loopPlace = itemPlaces items := by
  apply List.ext_getElem
  · simp [expandInstances, itemPlaces]
  · intro i hi hi'
    simp [expandInstances, itemPlaces, expandInstance, syntheticRow, loopPlace]

theorem phasePlaceholders_expand {env : TemplateEnv} {ctx : Option Json} {jobId : Uuid}
    {instances : List NewJobStep}
    (h : .expand p instances ∈ phasePlaceholders env snap task ctx jobId) :
    ∃ r ∈ snap, r.stepName = p ∧ ∃ c items, ctx = some c ∧
      parseForEachItems env (r.forEachExpr.getD "") c = .ok items ∧
      items.length ≤ maxForEachItems ∧ (∀ i ∈ instances, i.loopSource = some p) ∧
      (instances.map syntheticRow).map loopPlace = itemPlaces items := by
  cases ctx with
  | none => cases h
  | some c =>
    obtain ⟨r, hr, hrow⟩ := List.mem_filterMap.mp h
    refine ⟨r, (List.mem_filter.mp hr).1, ?_⟩
    have hexpand : ∀ fs, expandPlaceholder env fs c jobId r = .expand p instances →
        r.stepName = p ∧ ∃ c' items, some c = some c' ∧
          parseForEachItems env (r.forEachExpr.getD "") c' = .ok items ∧
          items.length ≤ maxForEachItems ∧ (∀ i ∈ instances, i.loopSource = some p) ∧
          (instances.map syntheticRow).map loopPlace = itemPlaces items := by
      intro fs heq
      unfold expandPlaceholder at heq
      split at heq
      · cases heq
      case h_2 items hparse =>
        split at heq
        · cases heq
        split at heq
        · cases heq
        case isFalse hlen =>
          obtain ⟨rfl, rfl⟩ := Change.expand.inj heq
          refine ⟨rfl, c, items, rfl, hparse, by omega, fun i hi => ?_,
            expandInstances_places fs jobId r items⟩
          obtain ⟨k, hk, rfl⟩ := List.mem_mapIdx.mp hi
          rfl
    unfold placeholderRow at hrow
    split at hrow
    · cases hrow
    split at hrow
    · cases Option.some.inj hrow
    split at hrow
    · cases hrow
    · cases Option.some.inj hrow
    split at hrow
    · exact hexpand _ (Option.some.inj hrow)
    split at hrow
    · exact hexpand _ (Option.some.inj hrow)
    · cases Option.some.inj hrow
    · cases Option.some.inj hrow

theorem run_expands {env : TemplateEnv} {fuel : Nat} {job : JobRow} {ws : Option WorkspaceConfig}
    {ss : Snapshots} {rows : List JobStepRow} {plan : Plan}
    (hrun : run env fuel task job rows ws ss = some plan) {instances : List NewJobStep}
    (hc : .expand p instances ∈ plan.changes) :
    ∃ mid r c items, r ∈ mid ∧ r.stepName = p ∧ buildCtx job ws ss mid = some c ∧
      parseForEachItems env (r.forEachExpr.getD "") c = .ok items ∧
      items.length ≤ maxForEachItems ∧ (∀ i ∈ instances, i.loopSource = some p) ∧
      (instances.map syntheticRow).map loopPlace = itemPlaces items := by
  obtain ⟨-, -, -, mid, cs, -, -, hcs, hbatch, -⟩ := run_batch hrun hc (by simp)
  obtain ⟨r, hr, hname, c, items, hctx, hparse, hlen, hsource, hplaces⟩ :=
    phasePlaceholders_expand (hbatch.mem_placeholders hcs)
  exact ⟨mid, r, c, items, hr, hname, hctx, hparse, hlen, hsource, hplaces⟩

end Stroem.Cascade
