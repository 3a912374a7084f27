import Stroem.Cascade.Chain
import Stroem.Cascade.Erasure

/-!
# Plans are legal

Replaying the plan of `run` change by change, every change finds its target row in the status
the plan assumes.  Beyond distinct names this needs that a terminal instance names its
successor once: rows of one loop carry distinct indices, and a pending placeholder has no
instance yet.  Both are kept by every change.
-/

namespace Stroem.Cascade

open Foundation

variable {snap : Snapshot} {cs : List Change}

def LoopIndices (snap : Snapshot) : Prop :=
  ∀ r ∈ snap, ∀ r' ∈ snap, ∀ p idx, r.loopSource = some p → r'.loopSource = some p →
    r.loopIndex = some idx → r'.loopIndex = some idx → r = r'

/-- A pending placeholder has no instance: neither by name nor by `loop_source`. -/
def Unexpanded (snap : Snapshot) : Prop :=
  ∀ r ∈ snap, r.status = .pending → r.isPlaceholder = true → ∀ a ∈ snap,
    (∀ i, a.stepName ≠ instanceName r.stepName i) ∧ a.loopSource ≠ some r.stepName

/-- The part of `Unexpanded` about `loop_source`, which adopting a placeholder keeps too. -/
def Unclaimed (snap : Snapshot) : Prop :=
  ∀ r ∈ snap, r.status = .pending → r.isPlaceholder = true → ∀ a ∈ snap,
    a.loopSource ≠ some r.stepName

theorem Unexpanded.noCollision (h : Unexpanded snap) : NoCollision snap := by
  intro r hr hpend hplace a ha i hname
  exact absurd hname ((h r hr hpend hplace a ha).1 i)

theorem Unexpanded.unclaimed (h : Unexpanded snap) : Unclaimed snap :=
  fun r hr hpend hplace a ha => (h r hr hpend hplace a ha).2

/-! ## The invariants are kept -/

theorem Moves.unclaimed {c : Change} (h : Distinct snap)
    (hun : Unclaimed snap) (hc : Moves snap c) : Unclaimed (snap.apply c) := by
  intro r hr hpend hplace a ha hsource
  have hold : r ∈ snap ∧ r.stepName ≠ c.target := by
    rcases (Snapshot.mem_apply h).mp hr with ⟨r₀, -, -, rfl⟩ | hr | hr
    · exact absurd hpend (Change.setRow_status_ne_pending c r₀)
    · exact hr
    · simp [Change.inserted_isPlaceholder hr] at hplace
  rcases (Snapshot.mem_apply h).mp ha with ⟨a₀, ha₀, -, rfl⟩ | ⟨ha, -⟩ | ha
  · exact hun r hold.1 hpend hplace a₀ ha₀ (by simpa using hsource)
  · exact hun r hold.1 hpend hplace a ha hsource
  · have := (hc.instances a ha).1
    exact hold.2 (by simpa using hsource.symm.trans this)

private theorem inserted_source {c : Change} (h : Distinct snap)
    (hun : Unclaimed snap) (hc : Moves snap c) {a : JobStepRow} (ha : a ∈ c.inserted) :
    ∀ r ∈ snap, r.loopSource ≠ a.loopSource := by
  obtain ⟨t, ht, hname, haccepts⟩ := hc.target_mem h
  have hne : c.inserted ≠ [] := List.ne_nil_of_mem ha
  have hplace := hc.loop hne t ht hname
  have hpend : t.status = .pending := by
    rcases haccepts with haccepts | ⟨-, hpromote⟩
    · cases c with
      | expand p instances => simpa [Change.accepts] using haccepts
      | _ => simp [Change.inserted] at ha
    · rw [hpromote] at ha
      simp [Change.inserted] at ha
  intro r hr
  rw [(hc.instances a ha).1, ← hname]
  exact hun t ht hpend hplace r hr

private theorem mem_apply_loop {c : Change} (h : Distinct snap)
    {r : JobStepRow} (hr : r ∈ snap.apply c) :
    (∃ r₀ ∈ snap, r₀.stepName = r.stepName ∧ r₀.loopSource = r.loopSource ∧
      r₀.loopIndex = r.loopIndex) ∨ r ∈ c.inserted := by
  rcases (Snapshot.mem_apply h).mp hr with ⟨r₀, hr₀, -, rfl⟩ | ⟨hr, -⟩ | hr
  · exact .inl ⟨r₀, hr₀, by simp, by simp, by simp⟩
  · exact .inl ⟨r, hr, rfl, rfl, rfl⟩
  · exact .inr hr

theorem Moves.loopIndices {c : Change} (h : Distinct snap)
    (hun : Unclaimed snap) (hidx : LoopIndices snap) (hc : Moves snap c) :
    LoopIndices (snap.apply c) := by
  intro r hr r' hr' p idx hp hp' hi hi'
  refine (hc.distinct h).eq_of_key hr hr' ?_
  rcases mem_apply_loop h hr with ⟨a, ha, hname, hsource, hindex⟩ | hins <;>
    rcases mem_apply_loop h hr' with ⟨a', ha', hname', hsource', hindex'⟩ | hins'
  · have heq := hidx a ha a' ha' p idx (hsource.trans hp) (hsource'.trans hp')
      (hindex.trans hi) (hindex'.trans hi')
    rw [← hname, ← hname', heq]
  · exact absurd (hsource.trans (hp.trans hp'.symm)) (inserted_source h hun hc hins' a ha)
  · exact absurd (hsource'.trans (hp'.trans hp.symm)) (inserted_source h hun hc hins a' ha')
  · exact hc.indexed r hins r' hins' (hi.trans hi'.symm)

/-! ## Targets of one batch are distinct -/

private theorem advanceInstances_targets {p : String} (h : Distinct snap)
    (hidx : LoopIndices snap) :
    (advanceInstances (loopInstances snap p)).Pairwise fun c c' => c.target ≠ c'.target := by
  unfold advanceInstances
  rw [List.pairwise_filterMap]
  have hpair : (loopInstances snap p).Pairwise fun a b => a.stepName ≠ b.stepName := by
    simpa [Keyed, List.Nodup, List.pairwise_map] using h.loopInstances p
  refine (hpair.sublist List.filter_sublist).imp_of_mem fun {i i'} hi hi' hne c hc c' hc' => ?_
  simp only [Option.bind_eq_some_iff, Option.map_eq_some_iff] at hc hc'
  obtain ⟨idx, hiidx, n, hfind, rfl⟩ := hc
  obtain ⟨idx', hiidx', n', hfind', rfl⟩ := hc'
  obtain ⟨himem, hisource⟩ := mem_loopInstances.mp (List.mem_filter.mp hi).1
  obtain ⟨himem', hisource'⟩ := mem_loopInstances.mp (List.mem_filter.mp hi').1
  obtain ⟨hn, -⟩ := mem_loopInstances.mp (List.mem_of_find?_eq_some hfind)
  obtain ⟨hn', -⟩ := mem_loopInstances.mp (List.mem_of_find?_eq_some hfind')
  have hnidx := List.find?_some hfind
  have hnidx' := List.find?_some hfind'
  simp only [Bool.and_eq_true, beq_iff_eq] at hnidx hnidx'
  -- one successor would mean one index, hence one predecessor
  intro hname
  obtain rfl : n = n' := h.eq_of_key hn hn' hname
  have hsucc : idx + 1 = idx' + 1 := Option.some.inj (hnidx.1.symm.trans hnidx'.1)
  obtain rfl : idx = idx' := by simpa using hsucc
  exact hne (congrArg JobStepRow.stepName
    (hidx i himem i' himem' p idx hisource hisource' hiidx hiidx'))

private theorem rollupPlaceholder_targets {task : TaskDef} {ph : JobStepRow}
    (h : Distinct snap) (hidx : LoopIndices snap) :
    (rollupPlaceholder snap task ph).Pairwise fun c c' => c.target ≠ c'.target := by
  have hcompat := rollupPlaceholder_compatible task ph h
  unfold rollupPlaceholder at hcompat ⊢
  simp only at hcompat ⊢
  split
  · exact List.Pairwise.nil
  split
  · rename_i hempty hcond
    rw [if_neg hempty, if_pos hcond] at hcompat
    rw [List.pairwise_map] at hcompat ⊢
    refine hcompat.imp fun {i i'} hc => ?_
    rcases hc.1 with hne | ⟨t, ht, -⟩
    · exact hne
    · cases ht
  · rename_i hempty hcond
    rw [if_neg hempty, if_neg hcond] at hcompat
    rw [List.pairwise_append] at hcompat ⊢
    refine ⟨?_, ?_, fun c hc c' hc' => ?_⟩
    · by_cases hseq : isSequential task ph.stepName = true
      · rw [if_pos hseq]
        exact advanceInstances_targets h hidx
      · simp [hseq]
    · unfold rollupInstances
      split <;> simp
    · rcases (hcompat.2.2 c hc c' hc').1 with hne | ⟨t, -, rfl⟩
      · exact hne
      · unfold rollupInstances at hc'
        split at hc' <;> simp at hc'

theorem phaseRollup_targets (task : TaskDef) (h : Distinct snap)
    (hidx : LoopIndices snap) :
    (phaseRollup snap task).Pairwise fun c c' => c.target ≠ c'.target := by
  unfold phaseRollup
  rw [List.pairwise_flatMap]
  exact ⟨fun ph _ => rollupPlaceholder_targets h hidx, rollupPlaceholder_across task h⟩

theorem Change.legalAt_apply {c c' : Change} (h : Distinct snap)
    (hc : Moves snap c) (hc' : Moves snap c') (hne : c.target ≠ c'.target)
    (hlegal : c'.legalAt snap = true) : c'.legalAt (snap.apply c) = true := by
  unfold legalAt at hlegal ⊢
  rwa [hc.get_of_ne h hne.symm (hc.inserted_ne_target h hc')]

theorem replays_of_batch (h : Distinct snap)
    (hmoves : ∀ c ∈ cs, Moves snap c) (hcompat : cs.Pairwise Compatible)
    (htargets : cs.Pairwise fun c c' => c.target ≠ c'.target)
    (hlegal : ∀ c ∈ cs, c.legalAt snap = true) : replays snap cs = true := by
  induction cs generalizing snap with
  | nil => rfl
  | cons c cs ih =>
    have hc := hmoves c List.mem_cons_self
    obtain ⟨hhead, htail⟩ := List.pairwise_cons.mp hcompat
    obtain ⟨hne, htargets⟩ := List.pairwise_cons.mp htargets
    simp only [replays, Bool.and_eq_true]
    refine ⟨hlegal c List.mem_cons_self, ih (hc.distinct h) ?_ htail htargets ?_⟩
    · intro c' hc'
      exact hc.apply h (hmoves c' (List.mem_cons_of_mem _ hc')) (hhead c' hc')
    · intro c' hc'
      exact Change.legalAt_apply h hc (hmoves c' (List.mem_cons_of_mem _ hc')) (hne c' hc')
        (hlegal c' (List.mem_cons_of_mem _ hc'))

theorem replays_append {ds : List Change} :
    replays snap (cs ++ ds) = (replays snap cs && replays (snap.applyAll cs) ds) := by
  induction cs generalizing snap with
  | nil => simp [replays]
  | cons c cs ih => simp [replays, ih, Bool.and_assoc]

section Replay

variable {env : TemplateEnv} {task : TaskDef} {job : JobRow} {ws : Option WorkspaceConfig}
  {ss : Snapshots}

theorem Batch.targets (h : Distinct snap)
    (hidx : LoopIndices snap) (hb : Batch env task job ws ss snap cs) :
    cs.Pairwise fun c c' => c.target ≠ c'.target := by
  cases hb with
  | rollup => exact phaseRollup_targets task h hidx
  | promote => exact promoteBatch_targets h
  | placeholders => exact phasePlaceholders_targets h

theorem Batches.replays {last : Snapshot} (h : Distinct snap)
    (hno : NoCollision snap) (hun : Unclaimed snap) (hidx : LoopIndices snap)
    (hb : Batches env task job ws ss snap cs last) : Cascade.replays snap cs = true := by
  induction hb with
  | nil => rfl
  | @cons snap last cs ds hb _ ih =>
    have hsteps := hb.steps h hno
    have hkept : Unclaimed (snap.applyAll cs) ∧ LoopIndices (snap.applyAll cs) :=
      hsteps.invariant (fun s => Unclaimed s ∧ LoopIndices s)
        (fun s c hs hInv hc => ⟨hc.unclaimed hs hInv.1, hc.loopIndices hs hInv.1 hInv.2⟩)
        h ⟨hun, hidx⟩
    rw [replays_append, Bool.and_eq_true]
    refine ⟨replays_of_batch h (hb.moves h hno) (hb.compatible h) (hb.targets h hidx)
      (hb.legalAt h), ?_⟩
    exact ih (hsteps.distinct h) (hsteps.noCollision h hno) hkept.1 hkept.2

end Replay

/-! ## A delivery job -/

def loopFlow : TaskDef :=
  ⟨⟨[("p", { action := "work", forEach := some (.str "[1,2,3]"), sequential := true })], by decide⟩⟩

def deliveryFlow : TaskDef :=
  ⟨⟨[("build", { action := "work" }), ("lint", { action := "work" }),
    ("docs", { action := "work" }),
      ("hosts", { action := "work", forEach := some (.str "[1,2,3]"), sequential := true }),
      ("package", { action := "work", dependsOn :=
        [.all [.name "build", .any [.step "lint" (.outcomes [.failed]), .name "docs"]]] }),
      ("rollback", { action := "work", dependsOn := [.name "lint"] }),
      ("publish", { action := "work", dependsOn := [.step "rollback" .any, .name "build"],
                    forEach := some (.str "[1,2,3]") }),
      ("mirror", { action := "work", forEach := some (.str "[1,2,3]") })], by decide⟩⟩

def deliveryRows : List JobStepRow :=
  [{ stepName := "build", status := .completed }, { stepName := "lint", status := .failed },
    { stepName := "docs", status := .skipped, skipReason := some "condition" },
    { stepName := "hosts", forEachExpr := some "[1,2,3]", status := .running },
    { stepName := "hosts[0]", loopSource := some "hosts", loopIndex := some 0,
      status := .completed },
    { stepName := "hosts[1]", loopSource := some "hosts", loopIndex := some 1 },
    { stepName := "hosts[2]", loopSource := some "hosts", loopIndex := some 2 },
    { stepName := "package" }, { stepName := "rollback" },
    { stepName := "publish", forEachExpr := some "[1,2,3]" }]

def resumedRows : List JobStepRow :=
  deliveryRows ++ [{ stepName := "mirror", forEachExpr := some "[1,2,3]" },
    { stepName := "mirror[0]", loopSource := some "mirror", loopIndex := some 0,
      status := .ready }]

theorem deliveryRows_distinct : Distinct deliveryRows := by
  unfold Distinct Keyed
  decide

theorem resumedRows_distinct : Distinct resumedRows := by
  unfold Distinct Keyed
  decide

private theorem prefix_instanceName (p : String) (i : Nat) :
    p.toList ++ ['['] <+: (instanceName p i).toList := by
  refine ⟨Nat.toDigits 10 i ++ [']'], ?_⟩
  simp [instanceName, String.toList_append]

theorem loopIndices_of_nodup (h : ((snap.filter fun r => r.loopSource.isSome).map
    fun r => (r.loopSource, r.loopIndex)).Nodup) : LoopIndices snap := by
  intro r hr r' hr' p idx hp hp' hi hi'
  refine List.inj_on_of_nodup_map h ?_ ?_ ?_
  · simp [hr, hp]
  · simp [hr', hp']
  · rw [hp, hp', hi, hi']

def hasNoInstance (snap : Snapshot) (p : String) : Bool :=
  snap.all fun a => !(p.toList ++ ['[']).isPrefixOf a.stepName.toList

theorem ne_instanceName_of_hasNoInstance {p : String} {a : JobStepRow} {i : Nat}
    (h : hasNoInstance snap p = true) (ha : a ∈ snap) : a.stepName ≠ instanceName p i := by
  intro hname
  have hnot := List.all_eq_true.mp h a ha
  have hstart := List.isPrefixOf_iff_prefix.mpr (prefix_instanceName p i)
  rw [← hname] at hstart
  rw [hstart] at hnot
  cases hnot

theorem deliveryRows_unexpanded : Unexpanded deliveryRows := by
  intro r hr hpend hplace a ha
  have hall : (pendingPlaceholders deliveryRows).all (fun r =>
      hasNoInstance deliveryRows r.stepName &&
        deliveryRows.all fun a => a.loopSource != some r.stepName) = true := by
    decide +kernel
  have hrow := List.all_eq_true.mp hall r (by simp [pendingPlaceholders, hr, hpend, hplace])
  obtain ⟨hnone, hsource⟩ := Bool.and_eq_true_iff.mp hrow
  exact ⟨fun i => ne_instanceName_of_hasNoInstance hnone ha,
    by simpa using List.all_eq_true.mp hsource a ha⟩

theorem resumedRows_noCollision : NoCollision resumedRows := by
  intro r hr hpend hplace a ha i hname
  have hall : (pendingPlaceholders resumedRows).all (fun r =>
      hasNoInstance resumedRows r.stepName ||
        resumedRows.any fun b => b.stepName == instanceName r.stepName 0) = true := by
    decide +kernel
  have hrow := List.all_eq_true.mp hall r (by simp [pendingPlaceholders, hr, hpend, hplace])
  rcases Bool.or_eq_true_iff.mp hrow with hnone | hfirst
  · exact absurd hname (ne_instanceName_of_hasNoInstance hnone ha)
  · simpa using hfirst

end Stroem.Cascade
