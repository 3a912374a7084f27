import Stroem.Cascade.Steps

/-!
# What each phase computes

For every phase: which rows its changes are about and why they are made, that each change
moves the snapshot the phase read, and that the changes of one batch are compatible.
-/

namespace Stroem.Cascade

open Foundation

variable {task : TaskDef} {ph : JobStepRow} {env : TemplateEnv} {ctx : Option Json}

/-! ## Phase 0 -/

variable {snap : Snapshot} {r : JobStepRow}

theorem mem_loopInstances {p : String} :
    r ∈ loopInstances snap p ↔ r ∈ snap ∧ r.loopSource = some p := by
  simp [loopInstances, List.mem_insertionSort]

theorem mem_runningPlaceholders :
    r ∈ runningPlaceholders snap ↔
      r ∈ snap ∧ r.isPlaceholder = true ∧ r.status = .running := by
  simp [runningPlaceholders]

theorem Distinct.loopInstances (h : Distinct snap) (p : String) :
    Keyed JobStepRow.stepName (loopInstances snap p) := by
  have hperm : ((Cascade.loopInstances snap p).map JobStepRow.stepName).Perm
      ((snap.filter fun r => r.loopSource == some p).map JobStepRow.stepName) :=
    (List.perm_insertionSort _ _).map _
  exact hperm.nodup_iff.mpr (List.Nodup.sublist (List.filter_sublist.map _) h)

theorem Distinct.pairwise_filter (h : Distinct snap) (p : JobStepRow → Bool) :
    (snap.filter p).Pairwise fun a b => a.stepName ≠ b.stepName := by
  have hkeyed : snap.Pairwise fun a b => a.stepName ≠ b.stepName := by
    simpa [Distinct, Keyed, List.Nodup, List.pairwise_map] using h
  exact hkeyed.sublist List.filter_sublist

variable {c : Change}

theorem mem_advanceInstances {instances : List JobStepRow} (h : c ∈ advanceInstances instances) :
    ∃ i ∈ instances, ∃ n ∈ instances, ∃ idx, i.status.isTerminal = true ∧
      i.loopIndex = some idx ∧ n.loopIndex = some (idx + 1) ∧ n.status = .pending ∧
      c = .promote n.stepName := by
  simp only [advanceInstances, List.mem_filterMap, List.mem_filter,
    Option.bind_eq_some_iff, Option.map_eq_some_iff] at h
  obtain ⟨i, ⟨hi, hterm⟩, idx, hidx, n, hfind, rfl⟩ := h
  have hn := List.find?_some hfind
  simp only [Bool.and_eq_true, beq_iff_eq] at hn
  exact ⟨i, hi, n, List.mem_of_find?_eq_some hfind, idx, hterm, hidx, hn.1, hn.2, rfl⟩

inductive RollupReason (snap : Snapshot) (task : TaskDef) (ph : JobStepRow) : Change → Prop
  | abandon (i bad : JobStepRow) :
      isSequential task ph.stepName = true → continuesOnFailure task ph.stepName = false →
      bad ∈ snap → bad.loopSource = some ph.stepName → isBad bad = true →
      i ∈ snap → i.loopSource = some ph.stepName → i.status = .pending →
      RollupReason snap task ph (.skip i.stepName .unreachable)
  | advance (i n : JobStepRow) (idx : Int32) :
      isSequential task ph.stepName = true →
      (continuesOnFailure task ph.stepName = true ∨
        ∀ b ∈ snap, b.loopSource = some ph.stepName → isBad b = false) →
      i ∈ snap → i.loopSource = some ph.stepName → i.status.isTerminal = true →
      i.loopIndex = some idx →
      n ∈ snap → n.loopSource = some ph.stepName → n.loopIndex = some (idx + 1) →
      n.status = .pending → RollupReason snap task ph (.promote n.stepName)
  | finish (outcome : RollupOutcome) :
      (∀ i ∈ snap, i.loopSource = some ph.stepName → i.status.isTerminal = true) →
      RollupReason snap task ph (.rollup ph.stepName outcome)

theorem rollupPlaceholder_reason (h : c ∈ rollupPlaceholder snap task ph) :
    RollupReason snap task ph c := by
  unfold rollupPlaceholder at h
  simp only at h
  split at h
  · simp at h
  split at h
  case isTrue hcond =>
    simp only [Bool.and_eq_true, List.any_eq_true, Bool.not_eq_true'] at hcond
    obtain ⟨⟨⟨hseq, bad, hbad, hisBad⟩, hcof⟩, -⟩ := hcond
    obtain ⟨hbadMem, hbadSource⟩ := mem_loopInstances.mp hbad
    obtain ⟨i, hi, rfl⟩ := List.mem_map.mp h
    simp only [List.mem_filter, beq_iff_eq] at hi
    obtain ⟨himem, hisource⟩ := mem_loopInstances.mp hi.1
    exact .abandon i bad hseq hcof hbadMem hbadSource hisBad himem hisource hi.2
  case isFalse hcond =>
    rcases List.mem_append.mp h with h | h
    · by_cases hseq : isSequential task ph.stepName = true
      · rw [if_pos hseq] at h
        obtain ⟨i, hi, n, hn, idx, hterm, hidx, hnidx, hpend, rfl⟩ := mem_advanceInstances h
        obtain ⟨himem, hisource⟩ := mem_loopInstances.mp hi
        obtain ⟨hnmem, hnsource⟩ := mem_loopInstances.mp hn
        refine .advance i n idx hseq ?_ himem hisource hterm hidx hnmem hnsource hnidx hpend
        by_cases hcof : continuesOnFailure task ph.stepName = true
        · exact .inl hcof
        · refine .inr fun b hb hbsource => ?_
          by_contra hbad
          apply hcond
          have hne : (List.filter (fun i => i.status == .pending)
              (loopInstances snap ph.stepName)).isEmpty = false := by
            rw [List.isEmpty_eq_false_iff_exists_mem]
            exact ⟨n, by simp [hn, hpend]⟩
          have hany : (loopInstances snap ph.stepName).any isBad = true :=
            List.any_eq_true.mpr ⟨b, mem_loopInstances.mpr ⟨hb, hbsource⟩, by simpa using hbad⟩
          simp [hseq, hcof, hne, hany]
      · simp [hseq] at h
    · unfold rollupInstances at h
      split at h
      case isTrue hall =>
        obtain rfl := List.mem_singleton.mp h
        refine .finish _ fun i hi hisource => ?_
        exact List.all_eq_true.mp hall i (mem_loopInstances.mpr ⟨hi, hisource⟩)
      case isFalse => simp at h

theorem phaseRollup_reason (h : c ∈ phaseRollup snap task) :
    ∃ ph ∈ snap, ph.isPlaceholder = true ∧ ph.status = .running ∧
      RollupReason snap task ph c := by
  obtain ⟨ph, hph, hc⟩ := List.mem_flatMap.mp h
  obtain ⟨hmem, hplace, hrun⟩ := mem_runningPlaceholders.mp hph
  exact ⟨ph, hmem, hplace, hrun, rollupPlaceholder_reason hc⟩

theorem phaseRollup_finish {p : String} {outcome : RollupOutcome}
    (h : .rollup p outcome ∈ phaseRollup snap task) :
    outcome = rollupOutcome (loopInstances snap p) := by
  obtain ⟨ph, -, hc⟩ := List.mem_flatMap.mp h
  unfold rollupPlaceholder at hc
  simp only at hc
  split at hc
  · cases hc
  split at hc
  · obtain ⟨i, -, hskip⟩ := List.mem_map.mp hc
    cases hskip
  rcases List.mem_append.mp hc with hc | hc
  · split at hc
    · obtain ⟨i, -, n, -, idx, -, -, -, -, hpromote⟩ := mem_advanceInstances hc
      cases hpromote
    · cases hc
  · unfold rollupInstances at hc
    split at hc
    · obtain ⟨rfl, rfl⟩ : p = ph.stepName ∧
          outcome = rollupOutcome (loopInstances snap ph.stepName) := by
        simpa using hc
      rfl
    · cases hc

theorem rollupOutcome_cases (instances : List JobStepRow) :
    (∃ output, rollupOutcome instances = .completed output ∧
      ∀ i ∈ instances, i.status ≠ .failed) ∨
    ∃ error output, rollupOutcome instances = .failed error output ∧
      ∃ i ∈ instances, i.status = .failed := by
  unfold rollupOutcome
  simp only
  split
  case isTrue hnone =>
    refine .inl ⟨_, rfl, fun i hi hfailed => ?_⟩
    have hmem : i ∈ instances.filter fun i => i.status == .failed := by simp [hi, hfailed]
    rw [List.isEmpty_iff.mp hnone] at hmem
    cases hmem
  case isFalse hsome =>
    simp only [List.isEmpty_iff, List.filter_eq_nil_iff, beq_iff_eq, not_forall, not_not] at hsome
    obtain ⟨i, hi, hfailed⟩ := hsome
    exact .inr ⟨_, _, rfl, i, hi, hfailed⟩

theorem phaseRollup_abandon {bad n : JobStepRow} (hph : ph ∈ snap)
    (hplace : ph.isPlaceholder = true) (hrun : ph.status = .running)
    (hseq : isSequential task ph.stepName = true)
    (hcof : continuesOnFailure task ph.stepName = false) (hbad : bad ∈ snap)
    (hbs : bad.loopSource = some ph.stepName) (hisBad : isBad bad = true) (hn : n ∈ snap)
    (hns : n.loopSource = some ph.stepName) (hpend : n.status = .pending) :
    .skip n.stepName .unreachable ∈ phaseRollup snap task := by
  have hmem := mem_loopInstances.mpr ⟨hn, hns⟩
  have hany : (loopInstances snap ph.stepName).any isBad = true :=
    List.any_eq_true.mpr ⟨bad, mem_loopInstances.mpr ⟨hbad, hbs⟩, hisBad⟩
  have hwait : n ∈ (loopInstances snap ph.stepName).filter fun i => i.status == .pending := by
    simp [hmem, hpend]
  refine List.mem_flatMap.mpr ⟨ph, mem_runningPlaceholders.mpr ⟨hph, hplace, hrun⟩, ?_⟩
  unfold rollupPlaceholder
  simp only [List.isEmpty_eq_false_iff_exists_mem.mpr ⟨n, hmem⟩, Bool.false_eq_true, if_false,
    hseq, hany, hcof, List.isEmpty_eq_false_iff_exists_mem.mpr ⟨n, hwait⟩, Bool.not_false,
    Bool.and_self, if_true]
  exact List.mem_map_of_mem hwait

theorem RollupReason.inserted (h : RollupReason snap task ph c) : c.inserted = [] := by
  cases h <;> rfl

theorem RollupReason.row (hph : ph ∈ snap) (hplace : ph.isPlaceholder = true)
    (hrun : ph.status = .running) (h : RollupReason snap task ph c) :
    ∃ r ∈ snap, r.stepName = c.target ∧ c.accepts r = true ∧
      (r.status = .pending ∧ r.loopSource = some ph.stepName ∨ r.status = .running ∧ r = ph) := by
  cases h with
  | abandon i bad hseq hcof hb hbs hbad hi his hip =>
    exact ⟨i, hi, rfl, by simp [Change.accepts, hip], .inl ⟨hip, his⟩⟩
  | advance i n idx hseq hgood hi his hit hidx hn hns hnidx hnp =>
    exact ⟨n, hn, rfl, by simp [Change.accepts, hnp], .inl ⟨hnp, hns⟩⟩
  | finish outcome hall =>
    exact ⟨ph, hph, rfl, by simp [Change.accepts, hrun, hplace], .inr ⟨hrun, rfl⟩⟩

theorem Moves.of_accepts (h : Distinct snap) (hr : r ∈ snap) (hname : r.stepName = c.target)
    (haccepts : c.accepts r = true) (hins : c.inserted = []) : Moves snap c where
  source := ⟨r, (Snapshot.get_eq_some_iff h).mpr ⟨hr, hname⟩, .inl haccepts⟩
  fresh := by simp [hins]
  keyed := by simp [hins, Keyed]
  instances := by simp [hins]
  few := by simp [hins]
  loop := by simp [hins]
  indexed := by simp [hins]

theorem phaseRollup_moves (h : Distinct snap) : ∀ c ∈ phaseRollup snap task, Moves snap c := by
  intro c hc
  obtain ⟨ph, hph, hplace, hrun, hreason⟩ := phaseRollup_reason hc
  obtain ⟨r, hr, hname, haccepts, -⟩ := hreason.row hph hplace hrun
  exact Moves.of_accepts h hr hname haccepts hreason.inserted

theorem compatible_of_inserted_nil {c' : Change} (hc : c.inserted = [])
    (h : c.target ≠ c'.target ∨ ∃ t, c = .promote t ∧ c' = .promote t) : Compatible c c' :=
  ⟨h, by simp [hc]⟩

theorem rollupPlaceholder_compatible (task : TaskDef) (ph : JobStepRow) (h : Distinct snap) :
    (rollupPlaceholder snap task ph).Pairwise Compatible := by
  unfold rollupPlaceholder
  simp only
  split
  · exact List.Pairwise.nil
  split
  · rw [List.pairwise_map]
    have hkeyed := h.loopInstances ph.stepName
    have hpair : (loopInstances snap ph.stepName).Pairwise
        fun a b => a.stepName ≠ b.stepName := by
      simpa [Keyed, List.Nodup, List.pairwise_map] using hkeyed
    exact (hpair.sublist List.filter_sublist).imp fun hne =>
      compatible_of_inserted_nil rfl (.inl hne)
  · rw [List.pairwise_append]
    refine ⟨?_, ?_, ?_⟩
    · by_cases hseq : isSequential task ph.stepName = true
      · rw [if_pos hseq]
        refine List.pairwise_of_forall_mem_list fun c hc c' hc' => ?_
        obtain ⟨-, -, n, -, -, -, -, -, -, rfl⟩ := mem_advanceInstances hc
        obtain ⟨-, -, n', -, -, -, -, -, -, rfl⟩ := mem_advanceInstances hc'
        refine compatible_of_inserted_nil rfl ?_
        by_cases hname : n.stepName = n'.stepName
        · exact .inr ⟨n.stepName, rfl, by rw [hname]⟩
        · exact .inl hname
      · simp [hseq]
    · unfold rollupInstances
      split <;> simp
    · intro c hc c' hc'
      unfold rollupInstances at hc'
      split at hc'
      case isTrue hall =>
        by_cases hseq : isSequential task ph.stepName = true
        · rw [if_pos hseq] at hc
          obtain ⟨-, -, n, hn, -, -, -, -, hpend, rfl⟩ := mem_advanceInstances hc
          have := List.all_eq_true.mp hall n hn
          simp [hpend, StepStatus.isTerminal] at this
        · simp [hseq] at hc
      case isFalse => simp at hc'

theorem rollupPlaceholder_across (task : TaskDef) (h : Distinct snap) :
    (runningPlaceholders snap).Pairwise fun ph ph' =>
      ∀ c ∈ rollupPlaceholder snap task ph, ∀ c' ∈ rollupPlaceholder snap task ph',
        c.target ≠ c'.target := by
  have hpair : (runningPlaceholders snap).Pairwise fun a b => a.stepName ≠ b.stepName :=
    h.pairwise_filter _
  refine hpair.imp_of_mem fun {ph ph'} hph hph' hne c hc c' hc' heq => ?_
  obtain ⟨hmem, hplace, hrun⟩ := mem_runningPlaceholders.mp hph
  obtain ⟨hmem', hplace', hrun'⟩ := mem_runningPlaceholders.mp hph'
  obtain ⟨r, hr, hname, -, hcase⟩ := (rollupPlaceholder_reason hc).row hmem hplace hrun
  obtain ⟨r', hr', hname', -, hcase'⟩ := (rollupPlaceholder_reason hc').row hmem' hplace' hrun'
  obtain rfl : r = r' := h.eq_of_key hr hr' (by rw [hname, hname', heq])
  rcases hcase with ⟨hs, hl⟩ | ⟨hs, rfl⟩ <;> rcases hcase' with ⟨hs', hl'⟩ | ⟨hs', rfl⟩
  · exact hne (by simpa using hl.symm.trans hl')
  · simp [hs] at hs'
  · simp [hs] at hs'
  · exact hne rfl

theorem phaseRollup_compatible (h : Distinct snap) :
    (phaseRollup snap task).Pairwise Compatible := by
  unfold phaseRollup
  rw [List.pairwise_flatMap]
  refine ⟨fun ph _ => rollupPlaceholder_compatible task ph h, ?_⟩
  refine (rollupPlaceholder_across task h).imp fun {ph ph'} hne c hc c' hc' => ?_
  exact compatible_of_inserted_nil (rollupPlaceholder_reason hc).inserted
    (.inl (hne c hc c' hc'))

/-! ## Phase 1 -/

/-- Why phase 1 makes a change for the pending row `r` of the flow step `fs`. -/
inductive PromoteReason (snap : Snapshot) (fs : FlowStep) (r : JobStepRow) : Change → Prop
  | unreachable : gateFor snap fs = .omitted →
      PromoteReason snap fs r (.skip r.stepName .unreachable)
  | promote : gateFor snap fs = .open → PromoteReason snap fs r (.promote r.stepName)
  | condition : gateFor snap fs = .open → r.whenCondition.isSome = true →
      PromoteReason snap fs r (.skip r.stepName .condition)
  | error (e : String) : gateFor snap fs = .open → r.whenCondition.isSome = true →
      PromoteReason snap fs r (.fail r.stepName e)

theorem promoteRow_reason (h : promoteRow env task snap ctx r = some c) :
    ∃ fs, task.flow.get r.stepName = some fs ∧ PromoteReason snap fs r c := by
  unfold promoteRow at h
  split at h
  · simp at h
  case h_2 fs hfs =>
    refine ⟨fs, hfs, ?_⟩
    split at h
    · simp at h
    case h_2 hgate =>
      cases h
      exact .unreachable hgate
    case h_3 hgate =>
      split at h
      · cases h
        exact .promote hgate
      · simp at h
      case h_3 w _ hwhen =>
        have hsome : r.whenCondition.isSome = true := by rw [hwhen]; rfl
        split at h <;> cases h
        · exact .promote hgate
        · exact .condition hgate hsome
        · exact .error _ hgate hsome

theorem mem_pendingSteps :
    r ∈ pendingSteps snap ↔ r ∈ snap ∧ r.status = .pending ∧ r.isPlaceholder = false := by
  simp [pendingSteps]

theorem promoteBatch_reason (h : c ∈ promoteBatch env task snap ctx) :
    ∃ r ∈ snap, r.status = .pending ∧ r.isPlaceholder = false ∧
      ∃ fs, task.flow.get r.stepName = some fs ∧ PromoteReason snap fs r c := by
  obtain ⟨r, hr, hc⟩ := List.mem_filterMap.mp h
  obtain ⟨hmem, hpend, hplace⟩ := mem_pendingSteps.mp hr
  exact ⟨r, hmem, hpend, hplace, promoteRow_reason hc⟩

namespace PromoteReason

variable {snap : Snapshot} {fs : FlowStep} {r : JobStepRow} {c : Change}

theorem target (h : PromoteReason snap fs r c) : c.target = r.stepName := by
  cases h <;> rfl

theorem inserted (h : PromoteReason snap fs r c) : c.inserted = [] := by
  cases h <;> rfl

theorem accepts (h : PromoteReason snap fs r c) (hpend : r.status = .pending) :
    c.accepts r = true := by
  cases h <;> simp [Change.accepts, hpend]

end PromoteReason

theorem promoteBatch_moves (h : Distinct snap) :
    ∀ c ∈ promoteBatch env task snap ctx, Moves snap c := by
  intro c hc
  obtain ⟨r, hr, hpend, -, fs, -, hreason⟩ := promoteBatch_reason hc
  exact Moves.of_accepts h hr hreason.target.symm (hreason.accepts hpend) hreason.inserted

theorem promoteBatch_targets (h : Distinct snap) :
    (promoteBatch env task snap ctx).Pairwise fun c c' => c.target ≠ c'.target := by
  unfold promoteBatch
  rw [List.pairwise_filterMap]
  refine (h.pairwise_filter _).imp fun {r r'} hne c hc c' hc' => ?_
  obtain ⟨fs, -, hreason⟩ := promoteRow_reason hc
  obtain ⟨fs', -, hreason'⟩ := promoteRow_reason hc'
  rwa [hreason.target, hreason'.target]

theorem promoteBatch_compatible (h : Distinct snap) :
    (promoteBatch env task snap ctx).Pairwise Compatible := by
  refine (promoteBatch_targets h).imp_of_mem fun {c c'} hc _ hne => ?_
  obtain ⟨r, -, -, -, fs, -, hreason⟩ := promoteBatch_reason hc
  exact compatible_of_inserted_nil hreason.inserted (.inl hne)

/-! ## Phase 3 -/

/-- Why phase 3 makes a change for the pending placeholder `r` of the flow step `fs`. -/
inductive PlaceholderReason (snap : Snapshot) (fs : FlowStep) (jobId : Uuid) (r : JobStepRow) :
    Change → Prop
  | adopt (b : JobStepRow) : b ∈ snap → b.stepName = instanceName r.stepName 0 →
      PlaceholderReason snap fs jobId r (.adopt r.stepName)
  | unreachable : gateFor snap fs = .omitted →
      PlaceholderReason snap fs jobId r (.skip r.stepName .unreachable)
  | retire (reason : SkipReason) : gateFor snap fs = .open → reason ≠ .unreachable →
      reason ≠ .cascade → PlaceholderReason snap fs jobId r (.skip r.stepName reason)
  | error (e : String) : gateFor snap fs = .open →
      PlaceholderReason snap fs jobId r (.fail r.stepName e)
  | expand (items : List Json) : gateFor snap fs = .open →
      (∀ b ∈ snap, b.stepName ≠ instanceName r.stepName 0) → items ≠ [] →
      items.length ≤ maxForEachItems →
      PlaceholderReason snap fs jobId r (.expand r.stepName (expandInstances fs jobId r items))

variable {jobId : Uuid}

private theorem expandPlaceholder_reason {fs : FlowStep} {ctx : Json}
    (hgate : gateFor snap fs = .open)
    (hnone : ∀ b ∈ snap, b.stepName ≠ instanceName r.stepName 0) :
    PlaceholderReason snap fs jobId r (expandPlaceholder env fs ctx jobId r) := by
  unfold expandPlaceholder
  split
  · exact .error _ hgate
  · split
    · exact .retire .empty hgate (by decide) (by decide)
    case isFalse items _ hne =>
      split
      · exact .error _ hgate
      · exact .expand items hgate hnone (by simpa using hne) (by omega)

theorem placeholderRow_reason {ctx : Json}
    (h : placeholderRow env task snap ctx jobId r = some c) :
    ∃ fs, task.flow.get r.stepName = some fs ∧ PlaceholderReason snap fs jobId r c := by
  unfold placeholderRow at h
  split at h
  · simp at h
  case h_2 fs hfs =>
    refine ⟨fs, hfs, ?_⟩
    split at h
    case isTrue hsome =>
      cases h
      simp only [Snapshot.status, Option.isSome_map] at hsome
      obtain ⟨b, hb, hname⟩ := lookupLast_isSome_iff.mp hsome
      exact .adopt b hb hname
    case isFalse hnone =>
      simp only [Snapshot.status, Option.isSome_map] at hnone
      have hall : ∀ b ∈ snap, b.stepName ≠ instanceName r.stepName 0 := by
        intro b hb heq
        exact hnone (lookupLast_isSome_iff.mpr ⟨b, hb, heq⟩)
      split at h
      · simp at h
      case h_2 hgate =>
        cases h
        exact .unreachable hgate
      case h_3 hgate =>
        split at h
        · cases h
          exact expandPlaceholder_reason hgate hall
        · split at h <;> cases h
          · exact expandPlaceholder_reason hgate hall
          · exact .retire .condition hgate (by decide) (by decide)
          · exact .error _ hgate

theorem mem_pendingPlaceholders :
    r ∈ pendingPlaceholders snap ↔
      r ∈ snap ∧ r.status = .pending ∧ r.isPlaceholder = true := by
  simp [pendingPlaceholders]

theorem phasePlaceholders_reason (h : c ∈ phasePlaceholders env snap task ctx jobId) :
    ∃ r ∈ snap, r.status = .pending ∧ r.isPlaceholder = true ∧
      ∃ fs, task.flow.get r.stepName = some fs ∧ PlaceholderReason snap fs jobId r c := by
  unfold phasePlaceholders at h
  split at h
  · simp at h
  · obtain ⟨r, hr, hc⟩ := List.mem_filterMap.mp h
    obtain ⟨hmem, hpend, hplace⟩ := mem_pendingPlaceholders.mp hr
    exact ⟨r, hmem, hpend, hplace, placeholderRow_reason hc⟩

/-! ### The instances of an expansion -/

theorem mem_expandInstances {fs : FlowStep} {items : List Json} {inst : NewJobStep}
    (h : inst ∈ expandInstances fs jobId r items) :
    ∃ i, ∃ hi : i < items.length,
      inst = expandInstance fs jobId (Int32.ofNat items.length) r i items[i] := by
  obtain ⟨i, hi, rfl⟩ := List.mem_mapIdx.mp h
  exact ⟨i, hi, rfl⟩

@[simp] theorem length_expandInstances (fs : FlowStep) (jobId : Uuid) (r : JobStepRow)
    (items : List Json) : (expandInstances fs jobId r items).length = items.length := by
  simp [expandInstances]

theorem stepName_expandInstances (fs : FlowStep) (jobId : Uuid) (r : JobStepRow)
    (items : List Json) :
    (expandInstances fs jobId r items).map NewJobStep.stepName =
      (List.range items.length).map (instanceName r.stepName) := by
  apply List.ext_getElem
  · simp
  · intro i h₁ h₂
    simp [expandInstances, expandInstance]

theorem keyed_expandInstances (fs : FlowStep) (jobId : Uuid) (r : JobStepRow)
    (items : List Json) :
    Keyed JobStepRow.stepName ((expandInstances fs jobId r items).map syntheticRow) := by
  have hnames : ((expandInstances fs jobId r items).map syntheticRow).map JobStepRow.stepName =
      (List.range items.length).map (instanceName r.stepName) := by
    rw [← stepName_expandInstances fs jobId r items, List.map_map]
    rfl
  unfold Keyed
  rw [hnames]
  exact List.Nodup.map (fun i j hij => (instanceName_inj hij).2) List.nodup_range

theorem loopIndex_inj {i j : Nat} (hi : i < maxForEachItems) (hj : j < maxForEachItems)
    (h : Int32.ofNat i = Int32.ofNat j) : i = j := by
  have hint := congrArg Int32.toInt h
  simp only [maxForEachItems] at hi hj
  rw [Int32.toInt_ofNat_of_lt (by omega), Int32.toInt_ofNat_of_lt (by omega)] at hint
  omega

theorem indexed_expandInstances {fs : FlowStep} {items : List Json}
    (hlen : items.length ≤ maxForEachItems) :
    ∀ a ∈ (expandInstances fs jobId r items).map syntheticRow,
      ∀ b ∈ (expandInstances fs jobId r items).map syntheticRow,
        a.loopIndex = b.loopIndex → a.stepName = b.stepName := by
  intro a ha b hb heq
  obtain ⟨inst, hinst, rfl⟩ := List.mem_map.mp ha
  obtain ⟨inst', hinst', rfl⟩ := List.mem_map.mp hb
  obtain ⟨i, hi, rfl⟩ := mem_expandInstances hinst
  obtain ⟨j, hj, rfl⟩ := mem_expandInstances hinst'
  have hij : i = j :=
    loopIndex_inj (hi.trans_le hlen) (hj.trans_le hlen) (Option.some.inj heq)
  exact congrArg (instanceName r.stepName) hij

/-! ### Moves of phase 3 -/

/--
No row stands where an expansion would insert one: a pending placeholder with some instance
row has its first one, in which case it is adopted and not expanded.
-/
def NoCollision (snap : Snapshot) : Prop :=
  ∀ r ∈ snap, r.status = .pending → r.isPlaceholder = true →
    ∀ a ∈ snap, ∀ i, a.stepName = instanceName r.stepName i →
      ∃ b ∈ snap, b.stepName = instanceName r.stepName 0

theorem Moves.noCollision (h : Distinct snap) (hno : NoCollision snap) (hc : Moves snap c) :
    NoCollision (snap.apply c) := by
  intro r' hr' hpend hplace a' ha' i hname
  -- the placeholder is an old row that this change does not touch
  have hr : r' ∈ snap ∧ r'.stepName ≠ c.target := by
    rcases (Snapshot.mem_apply h).mp hr' with ⟨r₀, -, -, rfl⟩ | hr | hr
    · exact absurd hpend (Change.setRow_status_ne_pending c r₀)
    · exact hr
    · simp [Change.inserted_isPlaceholder hr] at hplace
  obtain ⟨b, hb, hbname⟩ : ∃ b ∈ snap, b.stepName = instanceName r'.stepName 0 := by
    rcases (Snapshot.mem_apply h).mp ha' with ⟨a₀, ha₀, -, rfl⟩ | ⟨ha, -⟩ | ha
    · exact hno r' hr.1 hpend hplace a₀ ha₀ i (by simpa using hname)
    · exact hno r' hr.1 hpend hplace a' ha i hname
    · obtain ⟨-, ⟨j, hj⟩, -⟩ := hc.instances a' ha
      exact absurd (instanceName_inj (hname.symm.trans hj)).1 hr.2
  by_cases hbt : b.stepName = c.target
  · exact ⟨c.setRow b, (Snapshot.mem_apply h).mpr (.inl ⟨b, hb, hbt, rfl⟩), by simpa using hbname⟩
  · exact ⟨b, (Snapshot.mem_apply h).mpr (.inr (.inl ⟨hb, hbt⟩)), hbname⟩

namespace PlaceholderReason

variable {snap : Snapshot} {fs : FlowStep} {jobId : Uuid} {r : JobStepRow} {c : Change}

theorem target (h : PlaceholderReason snap fs jobId r c) : c.target = r.stepName := by
  cases h <;> rfl

theorem accepts (h : PlaceholderReason snap fs jobId r c) (hpend : r.status = .pending) :
    c.accepts r = true := by
  cases h <;> simp [Change.accepts, hpend]

theorem inserted (h : PlaceholderReason snap fs jobId r c) :
    ∀ a ∈ c.inserted, a.loopSource = some r.stepName ∧
      (∃ i, a.stepName = instanceName r.stepName i) ∧
      (a.status = .pending ∨ a.status = .ready) := by
  cases h with
  | expand items hgate hnone hne hlen =>
    intro a ha
    obtain ⟨inst, hinst, rfl⟩ := List.mem_map.mp ha
    obtain ⟨i, hi, rfl⟩ := mem_expandInstances hinst
    refine ⟨rfl, ⟨i, rfl⟩, ?_⟩
    simp only [syntheticRow, expandInstance]
    split <;> simp
  | _ => simp [Change.inserted]

theorem fresh (hno : NoCollision snap) (hr : r ∈ snap) (hpend : r.status = .pending)
    (hplace : r.isPlaceholder = true) (hreason : PlaceholderReason snap fs jobId r c) :
    ∀ r' ∈ snap, ∀ a ∈ c.inserted, r'.stepName ≠ a.stepName := by
  intro r' hr' a ha heq
  obtain ⟨-, ⟨i, hi⟩, -⟩ := hreason.inserted a ha
  obtain ⟨b, hb, hbname⟩ := hno r hr hpend hplace r' hr' i (heq.trans hi)
  cases hreason with
  | expand items hgate hnone hne hlen => exact hnone b hb hbname
  | _ => simp [Change.inserted] at ha

theorem moves (h : Distinct snap) (hr : r ∈ snap) (hpend : r.status = .pending)
    (hplace : r.isPlaceholder = true) (hreason : PlaceholderReason snap fs jobId r c)
    (hfresh : ∀ r' ∈ snap, ∀ a ∈ c.inserted, r'.stepName ≠ a.stepName) : Moves snap c where
  source := by
    refine ⟨r, (Snapshot.get_eq_some_iff h).mpr ⟨hr, hreason.target.symm⟩, .inl ?_⟩
    exact hreason.accepts hpend
  fresh := hfresh
  keyed := by
    cases hreason with
    | expand items hgate hnone hne hlen => exact keyed_expandInstances fs jobId r items
    | _ => simp [Change.inserted, Keyed]
  instances := by
    rw [hreason.target]
    exact hreason.inserted
  few := by
    cases hreason with
    | expand items hgate hnone hne hlen => simpa [Change.inserted] using hlen
    | _ => simp [Change.inserted]
  loop := by
    intro _ r' hr' hname
    rwa [h.eq_of_key hr' hr (hname.trans hreason.target)]
  indexed := by
    cases hreason with
    | expand items hgate hnone hne hlen => exact indexed_expandInstances hlen
    | _ => simp [Change.inserted]

end PlaceholderReason

theorem phasePlaceholders_moves (h : Distinct snap)
    (hfresh : ∀ c ∈ phasePlaceholders env snap task ctx jobId, ∀ r ∈ snap,
      ∀ a ∈ c.inserted, r.stepName ≠ a.stepName) :
    ∀ c ∈ phasePlaceholders env snap task ctx jobId, Moves snap c := by
  intro c hc
  obtain ⟨r, hr, hpend, hplace, fs, -, hreason⟩ := phasePlaceholders_reason hc
  exact hreason.moves h hr hpend hplace (hfresh c hc)

theorem phasePlaceholders_targets (h : Distinct snap) :
    (phasePlaceholders env snap task ctx jobId).Pairwise fun c c' => c.target ≠ c'.target := by
  unfold phasePlaceholders
  split
  · exact List.Pairwise.nil
  · rw [List.pairwise_filterMap]
    refine (h.pairwise_filter _).imp fun {r r'} hne c hc c' hc' => ?_
    obtain ⟨fs, -, hreason⟩ := placeholderRow_reason hc
    obtain ⟨fs', -, hreason'⟩ := placeholderRow_reason hc'
    rwa [hreason.target, hreason'.target]

theorem phasePlaceholders_compatible (h : Distinct snap) :
    (phasePlaceholders env snap task ctx jobId).Pairwise Compatible := by
  refine (phasePlaceholders_targets h).imp_of_mem fun {c c'} hc hc' hne => ?_
  refine ⟨.inl hne, fun a ha b hb heq => ?_⟩
  obtain ⟨r, -, -, -, fs, -, hreason⟩ := phasePlaceholders_reason hc
  obtain ⟨r', -, -, -, fs', -, hreason'⟩ := phasePlaceholders_reason hc'
  obtain ⟨-, ⟨i, hi⟩, -⟩ := hreason.inserted a ha
  obtain ⟨-, ⟨j, hj⟩, -⟩ := hreason'.inserted b hb
  rw [hreason.target, hreason'.target] at hne
  exact hne (instanceName_inj (hi.symm.trans (heq.trans hj))).1

end Stroem.Cascade
