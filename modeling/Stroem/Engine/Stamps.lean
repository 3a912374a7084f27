import Stroem.Engine.History
import Stroem.RefPins

/-!
# Stamps

The pins a row is stamped with are written by the creation, by the resolution of a deferred
step and by the dispatch of a task.  Every other write leaves them alone, and a cascade copies
the stamps of a placeholder to its instances.
-/

namespace Stroem.Engine

open Foundation JobStepRepo JobCreation Cascade RefPins

/-! ## What a cascade leaves alone -/

def Unwritten (r r' : JobStepRow) : Prop :=
  r' = { r with
    status := r'.status, output := r'.output, startedAt := r'.startedAt,
    completedAt := r'.completedAt, errorMessage := r'.errorMessage,
    skipReason := r'.skipReason, readyAt := r'.readyAt }

def Stays (P : JobStepRow → Prop) : Prop :=
  ∀ r r', Unwritten r r' → P r → P r'

structure Inherited (P : JobStepRow → Prop) : Prop where
  kept : ∀ r r', Unwritten r r' → P r → P r'
  copied : ∀ ph : JobStepRow, ph.isPlaceholder = true → P ph → ∀ now fs jobId total k item,
    P (insertedRow now (expandInstance fs jobId total ph k item))

namespace Stays

variable {P : JobStepRow → Prop} {rows rows' : List JobStepRow}

theorem run {u : Update JobStepRow} (hP : Stays P) (h : ∀ r ∈ rows, P r)
    (hset : ∀ r, Unwritten r (u.set r)) : ∀ r ∈ u.run rows, P r := by
  intro r hr
  obtain ⟨r₀, hr₀, rfl⟩ := Update.mem_run.mp hr
  split
  · exact hP r₀ _ (hset r₀) (h r₀ hr₀)
  · exact h r₀ hr₀

private theorem runExpecting {u : Update JobStepRow} {n : Nat} {step : String}
    (hP : Stays P) (h : ∀ r ∈ rows, P r) (hrun : runExpecting u n step rows = .ok rows')
    (hset : ∀ r, Unwritten r (u.set r)) : ∀ r ∈ rows', P r := by
  unfold Cascade.runExpecting at hrun
  split at hrun
  · cases hrun
    exact hP.run h hset
  · cases hrun

private theorem applySingle {now : Time} {c : Change} (hP : Stays P)
    (h : ∀ r ∈ rows, P r) (hnew : ∀ i ∈ newSteps c, P (insertedRow now i))
    (happly : applySingle now rows c = .ok rows') : ∀ r ∈ rows', P r := by
  cases c with
  | expand p instances =>
    simp only [Cascade.applySingle] at happly
    split at happly
    · cases happly
    case h_2 rows₁ hstart =>
      split at happly
      · cases happly
      case h_2 rows₂ hcreate =>
        cases happly
        have h₁ := hP.runExpecting h hstart fun _ => rfl
        rw [(createStepsTx_ok hcreate).1]
        intro r hr
        rcases List.mem_append.mp hr with hr | hr
        · exact h₁ r hr
        · obtain ⟨i, hi, rfl⟩ := List.mem_map.mp hr
          exact hnew i hi
  | rollup p outcome =>
    cases outcome <;> exact hP.runExpecting h happly fun _ => rfl
  | _ => exact hP.runExpecting h happly fun _ => rfl

private theorem runBuckets {now : Time} {buckets : List (SkipReason × List String)}
    (hP : Stays P) (h : ∀ r ∈ rows, P r) (hrun : runBuckets now buckets rows = .ok rows') :
    ∀ r ∈ rows', P r := by
  induction buckets generalizing rows with
  | nil =>
    cases hrun
    exact h
  | cons bucket buckets ih =>
    simp only [Cascade.runBuckets] at hrun
    split at hrun
    · cases hrun
    case h_2 rows₁ hfirst => exact ih (hP.runExpecting h hfirst fun _ => rfl) hrun

private theorem applyGroups {now : Time} {groups : List Group} (hP : Stays P)
    (h : ∀ r ∈ rows, P r)
    (hnew : ∀ c ∈ groups.flatMap Group.changes, ∀ i ∈ newSteps c, P (insertedRow now i))
    (happly : applyGroups now groups rows = .ok rows') : ∀ r ∈ rows', P r := by
  induction groups generalizing rows with
  | nil =>
    cases happly
    exact h
  | cons group groups ih =>
    simp only [Cascade.applyGroups] at happly
    split at happly
    · cases happly
    case h_2 rows₁ hgroup =>
      refine ih ?_ (fun c hc => hnew c (List.mem_append_right _ hc)) happly
      cases group with
      | promotes names => exact hP.runExpecting h hgroup fun _ => rfl
      | skips items => exact hP.runBuckets h hgroup
      | single c => exact hP.applySingle h (hnew c (by simp [Group.changes])) hgroup

theorem plan {now : Time} {plan : Plan} (hP : Stays P) (h : ∀ r ∈ rows, P r)
    (hnew : ∀ c ∈ plan.changes, ∀ i ∈ Engine.newSteps c, P (insertedRow now i))
    (happly : Cascade.applyGroups now (groupChanges plan.changes) rows = .ok rows') :
    ∀ r ∈ rows', P r := by
  refine hP.applyGroups h ?_ happly
  rwa [flatMap_groupChanges]

end Stays

namespace Inherited

variable {P : JobStepRow → Prop} {rows rows' : List JobStepRow}

private theorem modify {snap : Snapshot} {name : String} {f : JobStepRow → JobStepRow}
    (hP : Inherited P) (h : ∀ r ∈ snap, r.isPlaceholder = true → P r)
    (hf : ∀ r, Unwritten r (f r)) : ∀ r ∈ snap.modify name f, r.isPlaceholder = true → P r := by
  intro r hr hplace
  rcases mem_modifyLast hr with hr | ⟨r₀, hr₀, rfl⟩
  · exact h r hr hplace
  · have hplace₀ : (f r₀).isPlaceholder = r₀.isPlaceholder := by rw [hf r₀]; rfl
    exact hP.kept r₀ _ (hf r₀) (h r₀ hr₀ (hplace₀ ▸ hplace))

private theorem apply {snap : Snapshot} (hP : Inherited P)
    (h : ∀ r ∈ snap, r.isPlaceholder = true → P r) (c : Change) :
    ∀ r ∈ snap.apply c, r.isPlaceholder = true → P r := by
  cases c with
  | expand p instances =>
    intro r hr hplace
    rcases List.mem_append.mp hr with hr | hr
    · exact hP.modify h (f := fun r => { r with status := .running }) (fun _ => rfl) r hr hplace
    · -- instances are no placeholders, and are never expanded
      obtain ⟨i, -, rfl⟩ := List.mem_map.mp hr
      cases hplace
  | rollup p outcome => cases outcome <;> exact hP.modify h fun _ => rfl
  | _ => exact hP.modify h fun _ => rfl

private theorem batches {env : TemplateEnv} {task : TaskDef} {job : JobRow}
    {config : Option WorkspaceConfig} {ss : Snapshots} {snap last : Snapshot} {cs : List Change}
    (hP : Inherited P) (h : ∀ r ∈ snap, r.isPlaceholder = true → P r)
    (hb : Batches env task job config ss snap cs last) :
    ∀ r ∈ last, r.isPlaceholder = true → P r := by
  have hall : ∀ (cs : List Change) (snap : Snapshot),
      (∀ r ∈ snap, r.isPlaceholder = true → P r) →
      ∀ r ∈ snap.applyAll cs, r.isPlaceholder = true → P r := by
    intro cs
    induction cs with
    | nil => exact fun _ h => h
    | cons c cs ih => exact fun snap h => ih _ (hP.apply h c)
  induction hb with
  | nil => exact h
  | cons _ _ ih => exact ih (hall _ _ h)

theorem newSteps {env : TemplateEnv} {fuel : Nat} {task : TaskDef} {job : JobRow}
    {config : Option WorkspaceConfig} {ss : Snapshots} {plan : Plan} (hP : Inherited P)
    (h : ∀ r ∈ rows, P r) (hrun : Cascade.run env fuel task job rows config ss = some plan)
    {c : Change} (hc : c ∈ plan.changes) {i : NewJobStep} (hi : i ∈ newSteps c) (now : Time) :
    P (insertedRow now i) := by
  cases c with
  | expand p instances =>
    obtain ⟨pre, mid, r, fs, items, hpre, hr, hplace, -, -, -, rfl⟩ := run_expansion hrun hc
    obtain ⟨k, -, rfl⟩ := mem_expandInstances hi
    exact hP.copied r hplace (hP.batches (fun r hr _ => h r hr) hpre r hr hplace) _ _ _ _ _ _
  | _ => simp [Engine.newSteps] at hi

end Inherited

/-! ## Rows stamped with what is recorded -/

def RowsRecorded (pins : RefMemo) (ws : String) (rows : List JobStepRow) : Prop :=
  ∀ r ∈ rows, Recorded pins (stamps ws r)

section Rows

variable {pins : RefMemo} {ws : String} {rows : List JobStepRow}

theorem recorded_inherited (pins : RefMemo) (ws : String) :
    Inherited fun r => Recorded pins (stamps ws r) := by
  refine ⟨fun r r' hsame h => ?_, fun ph _ h _ _ _ _ _ _ => h⟩
  rw [hsame]
  exact h

theorem RowsRecorded.mono {pins' : RefMemo} (h : RowsRecorded pins ws rows)
    (hext : Extends pins pins') : RowsRecorded pins' ws rows :=
  fun r hr => (h r hr).mono hext

theorem RowsRecorded.run {u : Update JobStepRow} (h : RowsRecorded pins ws rows)
    (hset : ∀ r, stamps ws (u.set r) = stamps ws r) : RowsRecorded pins ws (u.run rows) := by
  intro r hr
  obtain ⟨r₀, hr₀, rfl⟩ := Update.mem_run.mp hr
  split
  · rw [hset]
    exact h r₀ hr₀
  · exact h r₀ hr₀

theorem RowsRecorded.createStepsTx {steps : List NewJobStep} {now : Time}
    {rows' : List JobStepRow} (h : RowsRecorded pins ws rows)
    (hnew : ∀ i ∈ steps, Recorded pins (newStamps ws i))
    (hcreate : createStepsTx steps now rows = .ok rows') : RowsRecorded pins ws rows' := by
  rw [(createStepsTx_ok hcreate).1]
  intro r hr
  rcases List.mem_append.mp hr with hr | hr
  · exact h r hr
  · obtain ⟨i, hi, rfl⟩ := List.mem_map.mp hr
    exact hnew i hi

def Write.stamps : Write → Bool
  | .resolveDeferred _ _ _ | .stampTaskPin _ _ | .applyPlan _ => true
  | _ => false

theorem RowsRecorded.rowsAfter {now : Time} {jobStatus : JobStatus} {w : Write}
    (h : RowsRecorded pins ws rows) (hw : w.stamps = false) :
    RowsRecorded pins ws (rowsAfter now jobStatus rows w) := by
  cases w with
  | resolveDeferred step token resolved => cases hw
  | stampTaskPin step pin => cases hw
  | applyPlan plan => cases hw
  | releaseClaim step claim retryAfter maxReleases =>
    simp only [Engine.rowsAfter, releaseClaim]
    split
    · exact h
    · split
      · exact (h.run fun _ => rfl).run fun _ => rfl
      · split
        · exact h
        · exact h.run fun _ => rfl
  | failOrRetry step error report delaySecs =>
    simp only [Engine.rowsAfter, failOrRetry]
    split
    · exact h
    · split
      · exact h
      · split
        · split
          · exact h.run fun _ => rfl
          · exact h.run fun _ => rfl
        · exact h.run fun _ => rfl
  | failDeferred step token error =>
    simp only [Engine.rowsAfter, failDeferredTx, deferredWrite]
    split
    · exact h
    · exact h.run fun _ => rfl
  | _ => exact h.run fun _ => rfl

theorem RowsRecorded.applyPlan {env : TemplateEnv} {fuel : Nat} {task : TaskDef} {job : JobRow}
    {config : Option WorkspaceConfig} {ss : Snapshots} {steps : List JobStepRow} {plan : Plan}
    {now : Time} {jobStatus : JobStatus} (h : RowsRecorded pins ws rows)
    (hread : RowsRecorded pins ws steps)
    (hrun : Cascade.run env fuel task job steps config ss = some plan) :
    RowsRecorded pins ws (Engine.rowsAfter now jobStatus rows (.applyPlan plan)) := by
  have hP := recorded_inherited pins ws
  simp only [Engine.rowsAfter]
  split
  case h_1 rows' hok =>
    exact Stays.plan hP.kept h (fun c hc i hi => hP.newSteps hread hrun hc hi now) hok
  case h_2 => exact h

end Rows

end Stroem.Engine
