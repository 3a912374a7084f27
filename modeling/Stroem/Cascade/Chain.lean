import Mathlib.Algebra.Group.Action.Defs
import Mathlib.Algebra.Order.BigOperators.Group.List
import Mathlib.Algebra.Order.Ring.Nat
import Stroem.Cascade.Phases

/-!
# The run as a chain of batches

Every list of changes `run` accumulates is a concatenation of batches, each computed by one
phase from the rows the batches before it left.  A weight on rows that every change of a batch
lowers bounds the number of passes and of inner iterations, so the loops end, and they end in
rows on which no phase has anything to do.
-/

namespace Stroem.Cascade

open Foundation

section Chain

variable (env : TemplateEnv) (task : TaskDef) (job : JobRow) (ws : Option WorkspaceConfig)
  (ss : Snapshots)

inductive Batch (snap : Snapshot) : List Change → Prop
  | rollup : Batch snap (phaseRollup snap task)
  | promote : Batch snap (promoteBatch env task snap (buildCtx job ws ss snap))
  | placeholders :
      Batch snap (phasePlaceholders env snap task (buildCtx job ws ss snap) job.jobId)

/-- `cs` is a sequence of batches that leads from `snap` to `last`. -/
inductive Batches : Snapshot → List Change → Snapshot → Prop
  | nil (snap : Snapshot) : Batches snap [] snap
  | cons {snap last : Snapshot} {cs ds : List Change} :
      Batch env task job ws ss snap cs → Batches (snap.applyAll cs) ds last →
      Batches snap (cs ++ ds) last

structure Stable (snap : Snapshot) : Prop where
  rollup : phaseRollup snap task = []
  promote : promoteBatch env task snap (buildCtx job ws ss snap) = []
  placeholders : phasePlaceholders env snap task (buildCtx job ws ss snap) job.jobId = []

variable {env task job ws ss}

variable {last : Snapshot} {cs : List Change}

theorem Batches.append {snap mid : Snapshot} {ds : List Change}
    (h : Batches env task job ws ss snap cs mid) (h' : Batches env task job ws ss mid ds last) :
    Batches env task job ws ss snap (cs ++ ds) last := by
  induction h with
  | nil => exact h'
  | cons hb _ ih =>
    rw [List.append_assoc]
    exact .cons hb (ih h')

theorem Batches.single {snap : Snapshot} (h : Batch env task job ws ss snap cs) :
    Batches env task job ws ss snap cs (snap.applyAll cs) := by
  have := Batches.cons h (.nil _)
  rwa [List.append_nil] at this

theorem Batches.of_mem {snap : Snapshot} {c : Change}
    (h : Batches env task job ws ss snap cs last) (hc : c ∈ cs) :
    ∃ pre batch post mid, cs = pre ++ (batch ++ post) ∧
      Batches env task job ws ss snap pre mid ∧ Batch env task job ws ss mid batch ∧
      c ∈ batch := by
  induction h with
  | nil => simp at hc
  | @cons snap last batch ds hb _ ih =>
    rcases List.mem_append.mp hc with hc | hc
    · exact ⟨[], batch, ds, snap, rfl, .nil _, hb, hc⟩
    · obtain ⟨pre, batch', post, mid, rfl, hpre, hb', hc'⟩ := ih hc
      exact ⟨batch ++ pre, batch', post, mid, by rw [List.append_assoc], .cons hb hpre, hb', hc'⟩

theorem phasePromote_batches {fuel : Nat} {snap : Snapshot}
    (h : phasePromote env task (buildCtx job ws ss) fuel snap = some (cs, last)) :
    Batches env task job ws ss snap cs last ∧
      promoteBatch env task last (buildCtx job ws ss last) = [] := by
  induction fuel generalizing snap cs with
  | zero => simp [phasePromote] at h
  | succ fuel ih =>
    simp only [phasePromote] at h
    split at h
    case isTrue hempty =>
      simp only [Option.some.injEq, Prod.mk.injEq] at h
      obtain ⟨rfl, rfl⟩ := h
      exact ⟨.nil _, by simpa using hempty⟩
    case isFalse =>
      obtain ⟨⟨ds, u⟩, hrec, heq⟩ := Option.map_eq_some_iff.mp h
      simp only [Prod.mk.injEq] at heq
      obtain ⟨rfl, rfl⟩ := heq
      obtain ⟨hds, hlast⟩ := ih hrec
      exact ⟨.cons .promote hds, hlast⟩

theorem runLoop_batches {fuel passes : Nat} {snap : Snapshot}
    (h : runLoop env task job ws ss fuel passes snap = some cs) :
    ∃ last, Batches env task job ws ss snap cs last := by
  induction passes generalizing snap cs with
  | zero =>
    obtain rfl := Option.some.inj h
    exact ⟨snap, .nil _⟩
  | succ passes ih =>
    obtain ⟨⟨p1, snap2⟩, hp1, hrest⟩ := Option.bind_eq_some_iff.mp h
    obtain ⟨hb1, -⟩ := phasePromote_batches hp1
    have hb0 : Batch env task job ws ss snap (phaseRollup snap task) := .rollup
    have hpass := (Batches.single hb0).append (hb1.append (.single .placeholders))
    simp only at hrest
    split at hrest
    · obtain rfl := Option.some.inj hrest
      exact ⟨snap, .nil _⟩
    · obtain ⟨ds, hds, rfl⟩ := Option.map_eq_some_iff.mp hrest
      obtain ⟨last, hlast⟩ := ih hds
      refine ⟨last, ?_⟩
      rw [List.append_assoc (phaseRollup snap task)]
      exact hpass.append hlast

/-! ## Batches move the rows -/

theorem Batch.moves_of_fresh {snap : Snapshot} (h : Distinct snap)
    (hb : Batch env task job ws ss snap cs)
    (hfresh : ∀ c ∈ cs, ∀ r ∈ snap, ∀ a ∈ c.inserted, r.stepName ≠ a.stepName) :
    ∀ c ∈ cs, Moves snap c := by
  cases hb with
  | rollup => exact phaseRollup_moves h
  | promote => exact promoteBatch_moves h
  | placeholders => exact phasePlaceholders_moves h hfresh

theorem Batch.moves {snap : Snapshot} (h : Distinct snap) (hno : NoCollision snap)
    (hb : Batch env task job ws ss snap cs) : ∀ c ∈ cs, Moves snap c := by
  refine hb.moves_of_fresh h fun c hc => ?_
  cases hb with
  | rollup =>
    obtain ⟨ph, -, -, -, hreason⟩ := phaseRollup_reason hc
    simp [hreason.inserted]
  | promote =>
    obtain ⟨r, -, -, -, fs, -, hreason⟩ := promoteBatch_reason hc
    simp [hreason.inserted]
  | placeholders =>
    obtain ⟨r, hr, hpend, hplace, fs, -, hreason⟩ := phasePlaceholders_reason hc
    exact hreason.fresh hno hr hpend hplace

theorem Batch.compatible {snap : Snapshot} (h : Distinct snap)
    (hb : Batch env task job ws ss snap cs) : cs.Pairwise Compatible := by
  cases hb with
  | rollup => exact phaseRollup_compatible h
  | promote => exact promoteBatch_compatible h
  | placeholders => exact phasePlaceholders_compatible h

theorem Batch.steps {snap : Snapshot} (h : Distinct snap) (hno : NoCollision snap)
    (hb : Batch env task job ws ss snap cs) : Steps snap cs :=
  Steps.of_batch h (hb.moves h hno) (hb.compatible h)

theorem Batch.legalAt {snap : Snapshot} (h : Distinct snap)
    (hb : Batch env task job ws ss snap cs) : ∀ c ∈ cs, c.legalAt snap = true := by
  intro c hc
  obtain ⟨r, hr, hname, haccepts⟩ : ∃ r ∈ snap, r.stepName = c.target ∧ c.accepts r = true := by
    cases hb with
    | rollup =>
      obtain ⟨ph, hph, hplace, hrun, hreason⟩ := phaseRollup_reason hc
      obtain ⟨r, hr, hname, haccepts, -⟩ := hreason.row hph hplace hrun
      exact ⟨r, hr, hname, haccepts⟩
    | promote =>
      obtain ⟨r, hr, hpend, -, fs, -, hreason⟩ := promoteBatch_reason hc
      exact ⟨r, hr, hreason.target.symm, hreason.accepts hpend⟩
    | placeholders =>
      obtain ⟨r, hr, hpend, -, fs, -, hreason⟩ := phasePlaceholders_reason hc
      exact ⟨r, hr, hreason.target.symm, hreason.accepts hpend⟩
  have hget := (Snapshot.get_eq_some_iff h).mpr ⟨hr, hname⟩
  simp [Change.legalAt, hget, haccepts]

theorem Steps.noCollision {snap : Snapshot} (h : Distinct snap) (hno : NoCollision snap)
    (hsteps : Steps snap cs) : NoCollision (snap.applyAll cs) :=
  hsteps.invariant NoCollision (fun _ _ hs hno hc => hc.noCollision hs hno) h hno

theorem Batches.steps {snap : Snapshot} (h : Distinct snap) (hno : NoCollision snap)
    (hb : Batches env task job ws ss snap cs last) : Steps snap cs ∧ last = snap.applyAll cs := by
  induction hb with
  | nil => exact ⟨trivial, rfl⟩
  | cons hb _ ih =>
    have hsteps := hb.steps h hno
    obtain ⟨hrest, hlast⟩ := ih (hsteps.distinct h) (hsteps.noCollision h hno)
    exact ⟨hsteps.append hrest, by rw [hlast, Snapshot.applyAll_append]⟩

/-! ### Plans whose instances turn out to be new -/

/--
Every row is named like a row of `base`, or is an instance of a placeholder that has started
since.
-/
def GrownFrom (base snap : Snapshot) : Prop :=
  ∀ r ∈ snap, (∃ r₀ ∈ base, r₀.stepName = r.stepName) ∨
    ∃ q i, r.stepName = instanceName q i ∧ ∃ t ∈ snap, t.stepName = q ∧ t.status ≠ .pending

/-- The instances of the changes carry names that no row of `base` has. -/
def InsertsNew (base : Snapshot) (cs : List Change) : Prop :=
  ∀ c ∈ cs, ∀ a ∈ c.inserted, ∀ r ∈ base, r.stepName ≠ a.stepName

theorem GrownFrom.refl (base : Snapshot) : GrownFrom base base :=
  fun r hr => .inl ⟨r, hr, rfl⟩

theorem Moves.grownFrom {base snap : Snapshot} {c : Change} (h : Distinct snap)
    (hgrown : GrownFrom base snap) (hc : Moves snap c) : GrownFrom base (snap.apply c) := by
  have hold : ∀ r ∈ snap, (∃ r₀ ∈ base, r₀.stepName = r.stepName) ∨
      ∃ q i, r.stepName = instanceName q i ∧
        ∃ t ∈ snap.apply c, t.stepName = q ∧ t.status ≠ .pending := by
    intro r hr
    refine (hgrown r hr).imp_right ?_
    rintro ⟨q, i, hname, t, ht, htq, hstarted⟩
    refine ⟨q, i, hname, ?_⟩
    by_cases htarget : t.stepName = c.target
    · exact ⟨c.setRow t, (Snapshot.mem_apply h).mpr (.inl ⟨t, ht, htarget, rfl⟩),
        by simpa using htq, c.setRow_status_ne_pending t⟩
    · exact ⟨t, (Snapshot.mem_apply h).mpr (.inr (.inl ⟨ht, htarget⟩)), htq, hstarted⟩
  intro r hr
  rcases (Snapshot.mem_apply h).mp hr with ⟨r₀, hr₀, -, rfl⟩ | ⟨hr, -⟩ | hr
  · simpa using hold r₀ hr₀
  · exact hold r hr
  · obtain ⟨-, ⟨i, hi⟩, -⟩ := hc.instances r hr
    obtain ⟨t, ht, htarget, -⟩ := hc.target_mem h
    exact .inr ⟨c.target, i, hi, c.setRow t,
      (Snapshot.mem_apply h).mpr (.inl ⟨t, ht, htarget, rfl⟩), by simpa using htarget,
      c.setRow_status_ne_pending t⟩

theorem Batch.mem_placeholders {snap : Snapshot} {p : String} {instances : List NewJobStep}
    (hb : Batch env task job ws ss snap cs) (hc : .expand p instances ∈ cs) :
    .expand p instances ∈ phasePlaceholders env snap task (buildCtx job ws ss snap) job.jobId := by
  cases hb with
  | rollup =>
    obtain ⟨ph, -, -, -, hreason⟩ := phaseRollup_reason hc
    cases hreason
  | promote =>
    obtain ⟨r, -, -, -, fs, -, hreason⟩ := promoteBatch_reason hc
    cases hreason
  | placeholders => exact hc

theorem Batch.moves_of_insertsNew {base snap : Snapshot} (h : Distinct snap)
    (hgrown : GrownFrom base snap) (hb : Batch env task job ws ss snap cs)
    (hnew : InsertsNew base cs) : ∀ c ∈ cs, Moves snap c := by
  refine hb.moves_of_fresh h fun c hc r hr a ha heq => ?_
  cases hb with
  | rollup =>
    obtain ⟨ph, -, -, -, hreason⟩ := phaseRollup_reason hc
    simp [hreason.inserted] at ha
  | promote =>
    obtain ⟨r, -, -, -, fs, -, hreason⟩ := promoteBatch_reason hc
    simp [hreason.inserted] at ha
  | placeholders =>
    obtain ⟨ph, hph, hpend, -, fs, -, hreason⟩ := phasePlaceholders_reason hc
    obtain ⟨-, ⟨i, hi⟩, -⟩ := hreason.inserted a ha
    rcases hgrown r hr with ⟨r₀, hr₀, hname⟩ | ⟨q, j, hname, t, ht, htq, hstarted⟩
    · exact hnew c hc a ha r₀ hr₀ (hname.trans heq)
    · obtain ⟨rfl, -⟩ := instanceName_inj (hname.symm.trans (heq.trans hi))
      obtain rfl := h.eq_of_key ht hph htq
      exact hstarted hpend

theorem Batches.steps_of_insertsNew {base snap : Snapshot} (h : Distinct snap)
    (hgrown : GrownFrom base snap) (hb : Batches env task job ws ss snap cs last)
    (hnew : InsertsNew base cs) : Steps snap cs ∧ last = snap.applyAll cs := by
  induction hb with
  | nil => exact ⟨trivial, rfl⟩
  | cons hb _ ih =>
    have hsteps := Steps.of_batch h (hb.moves_of_insertsNew h hgrown
      fun c hc => hnew c (List.mem_append_left _ hc)) (hb.compatible h)
    have hgrown' := hsteps.invariant (GrownFrom base)
      (fun _ _ hs hg hc => hc.grownFrom hs hg) h hgrown
    obtain ⟨hrest, hlast⟩ := ih (hsteps.distinct h) hgrown'
      fun c hc => hnew c (List.mem_append_right _ hc)
    exact ⟨hsteps.append hrest, by rw [hlast, Snapshot.applyAll_append]⟩

end Chain

/-! ## The weight of the rows -/

/--
A pending placeholder outweighs the instances it may expand to together with the rollup it
will need; every other pending row and every running placeholder has one move to go.
-/
def rowWeight (r : JobStepRow) : Nat :=
  match r.status with
  | .pending => if r.isPlaceholder then maxForEachItems + 2 else 1
  | .running => if r.isPlaceholder then 1 else 0
  | _ => 0

def weight (snap : Snapshot) : Nat :=
  (snap.map rowWeight).sum

theorem rowWeight_le_one {r : JobStepRow} (h : r.isPlaceholder = false) :
    rowWeight r ≤ 1 := by
  unfold rowWeight
  split <;> simp [h]

theorem weight_inserted {snap : Snapshot} {c : Change} (hc : Moves snap c) :
    (c.inserted.map rowWeight).sum ≤ maxForEachItems := by
  have hone : ∀ w ∈ c.inserted.map rowWeight, w ≤ 1 := by
    intro w hw
    obtain ⟨a, ha, rfl⟩ := List.mem_map.mp hw
    exact rowWeight_le_one (Change.inserted_isPlaceholder ha)
  have hsum := List.sum_le_card_nsmul _ 1 hone
  simp only [List.length_map, smul_eq_mul, mul_one] at hsum
  exact hsum.trans hc.few

theorem rowWeight_setRow {snap : Snapshot} {c : Change} {r : JobStepRow} (hc : Moves snap c)
    (hr : r ∈ snap) (hname : r.stepName = c.target) (haccepts : c.accepts r = true) :
    rowWeight (c.setRow r) + (c.inserted.map rowWeight).sum < rowWeight r := by
  have hins := weight_inserted hc
  have hloop := hc.loop
  cases c with
  | expand p instances =>
    have hpend : r.status = .pending := by simpa [Change.accepts] using haccepts
    by_cases hempty : instances = []
    · subst hempty
      cases hsome : r.forEachExpr <;>
        simp [rowWeight, Change.setRow, hpend, JobStepRow.isPlaceholder, Change.inserted, hsome]
    · have hplace := hloop (by simpa [Change.inserted] using hempty) r hr hname
      simp only [JobStepRow.isPlaceholder] at hplace
      simp only [rowWeight, Change.setRow, hpend, JobStepRow.isPlaceholder, hplace, if_true]
      omega
  | rollup p outcome =>
    have hrun : r.status = .running ∧ r.isPlaceholder = true := by
      simpa [Change.accepts] using haccepts
    cases outcome <;> simp [rowWeight, Change.setRow, Change.inserted, hrun.1, hrun.2]
  | adopt p =>
    have hpend : r.status = .pending := by simpa [Change.accepts] using haccepts
    cases hsome : r.forEachExpr <;>
      simp [rowWeight, Change.setRow, hpend, JobStepRow.isPlaceholder, Change.inserted, hsome]
  | _ =>
    have hpend : r.status = .pending := by simpa [Change.accepts] using haccepts
    simp only [rowWeight, Change.setRow, hpend, Change.inserted]
    split <;> simp

theorem weight_apply {snap : Snapshot} {c : Change} {r : JobStepRow} (h : Distinct snap)
    (hr : r ∈ snap) (hname : r.stepName = c.target) :
    weight (snap.apply c) + rowWeight r =
      weight snap + (rowWeight (c.setRow r) + (c.inserted.map rowWeight).sum) := by
  have hsum := h.sum_updateWhere (f := c.setRow) (w := rowWeight) hr hname
  rw [weight, Snapshot.apply_eq, Snapshot.modify, h.modifyLast_eq_updateWhere, List.map_append,
    List.sum_append, weight]
  omega

theorem Moves.weight_lt {snap : Snapshot} {c : Change} (h : Distinct snap)
    (hc : Moves snap c) (hlegal : c.legalAt snap = true) :
    weight (snap.apply c) < weight snap := by
  obtain ⟨r, hget, haccepts⟩ := (Option.any_eq_true _ _).mp hlegal
  obtain ⟨hr, hname⟩ := (Snapshot.get_eq_some_iff h).mp hget
  have hrow := rowWeight_setRow hc hr hname haccepts
  have happly := weight_apply h hr hname
  omega

theorem Moves.weight_le {snap : Snapshot} {c : Change} (h : Distinct snap)
    (hc : Moves snap c) : weight (snap.apply c) ≤ weight snap := by
  obtain ⟨r, hr, hname, haccepts | ⟨hready, hpromote⟩⟩ := hc.target_mem h
  · have hrow := rowWeight_setRow hc hr hname haccepts
    have happly := weight_apply h hr hname
    omega
  · have happly := weight_apply h hr hname
    rw [hpromote] at happly ⊢
    simp only [Change.setRow, Change.inserted, rowWeight, hready] at happly
    simp at happly
    omega

theorem Steps.weight_le {snap : Snapshot} {cs : List Change} (h : Distinct snap)
    (hsteps : Steps snap cs) : weight (snap.applyAll cs) ≤ weight snap :=
  hsteps.invariant (fun s => weight s ≤ weight snap)
    (fun _ _ hs hle hc => (hc.weight_le hs).trans hle) h le_rfl

/-! ## The loops end -/

section Ends

variable (env : TemplateEnv) (task : TaskDef) (job : JobRow) (ws : Option WorkspaceConfig)
  (ss : Snapshots)

variable {env task job ws ss} in
theorem Batch.weight_lt {snap : Snapshot} {cs : List Change} (h : Distinct snap)
    (hno : NoCollision snap) (hb : Batch env task job ws ss snap cs) (hne : cs ≠ []) :
    weight (snap.applyAll cs) < weight snap := by
  obtain ⟨c, cs, rfl⟩ := List.exists_cons_of_ne_nil hne
  have hsteps := hb.steps h hno
  have hfirst := hsteps.1.weight_lt h (hb.legalAt h c List.mem_cons_self)
  exact (hsteps.2.weight_le (hsteps.1.distinct h)).trans_lt hfirst

variable {env task job ws ss} in
theorem Batches.weight_lt {snap last : Snapshot} {cs : List Change} (h : Distinct snap)
    (hno : NoCollision snap) (hb : Batches env task job ws ss snap cs last) (hne : cs ≠ []) :
    weight last < weight snap := by
  induction hb with
  | nil => exact absurd rfl hne
  | @cons snap last cs ds hb hrest ih =>
    have hsteps := hb.steps h hno
    have hle : weight last ≤ weight (snap.applyAll cs) := by
      obtain ⟨hdsteps, rfl⟩ := hrest.steps (hsteps.distinct h) (hsteps.noCollision h hno)
      exact hdsteps.weight_le (hsteps.distinct h)
    by_cases hcs : cs = []
    · subst hcs
      exact ih h hno (by simpa using hne)
    · exact hle.trans_lt (hb.weight_lt h hno hcs)

theorem phasePromote_ends {fuel : Nat} {snap : Snapshot} (h : Distinct snap)
    (hno : NoCollision snap) (hfuel : weight snap < fuel) :
    ∃ result, phasePromote env task (buildCtx job ws ss) fuel snap = some result := by
  induction fuel generalizing snap with
  | zero => omega
  | succ fuel ih =>
    simp only [phasePromote]
    split
    case isTrue => exact ⟨_, rfl⟩
    case isFalse hne =>
      have hb : Batch env task job ws ss snap
          (promoteBatch env task snap (buildCtx job ws ss snap)) := .promote
      have hsteps := hb.steps h hno
      have hlt := hb.weight_lt h hno (by simpa using hne)
      obtain ⟨result, hresult⟩ :=
        ih (hsteps.distinct h) (hsteps.noCollision h hno) (by omega)
      rw [hresult]
      exact ⟨_, rfl⟩

/-- A pass returns; it changes nothing, on stable rows, or it costs weight. -/
theorem pass_ends {fuel : Nat} {snap : Snapshot} (h : Distinct snap) (hno : NoCollision snap)
    (hfuel : weight snap < fuel) :
    ∃ p1 snap2 p3,
      phasePromote env task (buildCtx job ws ss) fuel (snap.applyAll (phaseRollup snap task)) =
        some (p1, snap2) ∧
      phasePlaceholders env snap2 task (buildCtx job ws ss snap2) job.jobId = p3 ∧
      (phaseRollup snap task ++ p1 ++ p3 = [] → Stable env task job ws ss snap) ∧
      (phaseRollup snap task ++ p1 ++ p3 ≠ [] →
        Batches env task job ws ss snap (phaseRollup snap task ++ p1 ++ p3)
          (snap2.applyAll p3) ∧
        Distinct (snap2.applyAll p3) ∧ NoCollision (snap2.applyAll p3) ∧
        weight (snap2.applyAll p3) < weight snap) := by
  have hb0 : Batch env task job ws ss snap (phaseRollup snap task) := .rollup
  have hsteps0 := hb0.steps h hno
  have h1 := hsteps0.distinct h
  have hno1 := hsteps0.noCollision h hno
  obtain ⟨⟨p1, snap2⟩, hp1⟩ :=
    phasePromote_ends env task job ws ss h1 hno1 ((hsteps0.weight_le h).trans_lt hfuel)
  obtain ⟨hb1, hquiet⟩ := phasePromote_batches hp1
  have hb3 : Batch env task job ws ss snap2
      (phasePlaceholders env snap2 task (buildCtx job ws ss snap2) job.jobId) :=
    .placeholders
  refine ⟨p1, snap2, _, hp1, rfl, fun hempty => ?_, fun hne => ?_⟩
  · rw [List.append_assoc, List.append_eq_nil_iff, List.append_eq_nil_iff] at hempty
    obtain ⟨he0, he1, he3⟩ := hempty
    obtain rfl : snap2 = snap := by simp [(hb1.steps h1 hno1).2, he0, he1]
    exact ⟨he0, hquiet, he3⟩
  · have hpass := (Batches.single hb0).append (hb1.append (.single hb3))
    rw [← List.append_assoc] at hpass
    obtain ⟨hsteps, hlast⟩ := hpass.steps h hno
    have hlt := hpass.weight_lt h hno hne
    rw [hlast] at hlt ⊢
    exact ⟨hlast ▸ hpass, hsteps.distinct h, hsteps.noCollision h hno, hlt⟩

theorem runLoop_ends {fuel passes : Nat} {snap : Snapshot} (h : Distinct snap)
    (hno : NoCollision snap) (hfuel : weight snap < fuel) (hpasses : weight snap < passes) :
    ∃ cs last, runLoop env task job ws ss fuel passes snap = some cs ∧
      Batches env task job ws ss snap cs last ∧ Stable env task job ws ss last := by
  induction passes generalizing snap with
  | zero => omega
  | succ passes ih =>
    obtain ⟨p1, snap2, p3, hp1, hp3, hstable, hpass⟩ := pass_ends env task job ws ss h hno hfuel
    simp only [runLoop, hp1, hp3, Option.bind_some]
    split
    case isTrue hempty => exact ⟨[], snap, rfl, .nil _, hstable (List.isEmpty_iff.mp hempty)⟩
    case isFalse hne =>
      obtain ⟨hb, hdistinct, hfree, hlt⟩ := hpass (by simpa using hne)
      obtain ⟨ds, last, hds, hrest, hlast⟩ := ih hdistinct hfree (by omega) (by omega)
      rw [hds]
      exact ⟨_, last, rfl, hb.append hrest, hlast⟩

theorem weight_lt_passBound (steps : List JobStepRow) : weight steps < passBound steps := by
  have hle : weight steps ≤
      steps.length + (maxForEachItems + 1) * (pendingPlaceholders steps).length := by
    induction steps with
    | nil => simp [weight]
    | cons r steps ih =>
      simp only [weight, List.map_cons, List.sum_cons, List.length_cons,
        pendingPlaceholders, maxForEachItems] at ih ⊢
      cases hs : r.status <;> cases hp : r.isPlaceholder <;>
        simp [rowWeight, hs, hp, maxForEachItems] <;> omega
  have hcount : (pendingPlaceholders steps).length ≤ steps.length :=
    List.length_filter_le _ _
  simp only [passBound, maxForEachItems] at hle ⊢
  omega

theorem phasePromote_mono {build : Snapshot → Option Json} {fuel fuel' : Nat}
    {snap : Snapshot} {result : List Change × Snapshot} (hle : fuel ≤ fuel')
    (h : phasePromote env task build fuel snap = some result) :
    phasePromote env task build fuel' snap = some result := by
  induction fuel generalizing fuel' snap result with
  | zero => simp [phasePromote] at h
  | succ fuel ih =>
    obtain ⟨k, rfl⟩ : ∃ k, fuel' = k + 1 := ⟨fuel' - 1, by omega⟩
    simp only [phasePromote] at h ⊢
    split
    case isTrue hempty => rwa [if_pos hempty] at h
    case isFalse hne =>
      rw [if_neg hne] at h
      obtain ⟨rest, hrest, hresult⟩ := Option.map_eq_some_iff.mp h
      rw [ih (by omega) hrest]
      exact congrArg some hresult

theorem runLoop_mono {fuel fuel' passes : Nat} {snap : Snapshot} {cs : List Change}
    (hle : fuel ≤ fuel') (h : runLoop env task job ws ss fuel passes snap = some cs) :
    runLoop env task job ws ss fuel' passes snap = some cs := by
  induction passes generalizing snap cs with
  | zero => exact h
  | succ passes ih =>
    simp only [runLoop] at h ⊢
    obtain ⟨⟨p1, snap2⟩, hp1, hrest⟩ := Option.bind_eq_some_iff.mp h
    rw [phasePromote_mono env task hle hp1, Option.bind_some]
    split
    case isTrue hempty =>
      simp only [hempty, if_true] at hrest
      exact hrest
    case isFalse hne =>
      simp only [hne] at hrest
      obtain ⟨ds, hds, hcs⟩ := Option.map_eq_some_iff.mp hrest
      rw [ih hds]
      exact congrArg some hcs

/-- `cascade::run` returns `plan`: every sufficient fuel of phase 1 gives it. -/
def Returns (steps : List JobStepRow) (plan : Plan) : Prop :=
  ∃ bound, ∀ fuel, bound ≤ fuel → run env fuel task job steps ws ss = some plan

variable {env task job ws ss}

variable {steps : List JobStepRow}

theorem Returns.of_run (fuel : Nat) {plan : Plan}
    (h : run env fuel task job steps ws ss = some plan) :
    Returns env task job ws ss steps plan := by
  refine ⟨fuel, fun fuel' hle => ?_⟩
  obtain ⟨cs, hcs, hplan⟩ := Option.map_eq_some_iff.mp h
  rw [run, runLoop_mono env task job ws ss hle hcs]
  exact congrArg some hplan

theorem Returns.unique {plan plan' : Plan} (h : Returns env task job ws ss steps plan)
    (h' : Returns env task job ws ss steps plan') : plan = plan' := by
  obtain ⟨n, hn⟩ := h
  obtain ⟨n', hn'⟩ := h'
  have heq := (hn (max n n') (le_max_left _ _)).symm.trans (hn' (max n n') (le_max_right _ _))
  exact Option.some.inj heq

theorem Returns.eval {β : Type} (fuel : Nat) (f : Plan → β) {plan : Plan} {b : β}
    (h : Returns env task job ws ss steps plan)
    (hrun : (run env fuel task job steps ws ss).map f = some b) : f plan = b := by
  obtain ⟨plan', hplan', rfl⟩ := Option.map_eq_some_iff.mp hrun
  rw [h.unique (.of_run fuel hplan')]

variable (env task job ws ss) in
theorem run_ends (h : Distinct steps) (hno : NoCollision steps) :
    ∃ cs last, Returns env task job ws ss steps ⟨redactChanges env ws cs⟩ ∧
      Batches env task job ws ss steps cs last ∧ Stable env task job ws ss last := by
  have hbound := weight_lt_passBound steps
  obtain ⟨cs, last, hcs, hb, hstable⟩ := runLoop_ends env task job ws ss h hno hbound hbound
  refine ⟨cs, last, .of_run (passBound steps) ?_, hb, hstable⟩
  rw [run, hcs]
  rfl

theorem Stable.run_rollup {c : Change}
    (hstable : Stable env task job ws ss (Snapshot.apply steps c))
    (hrollup : phaseRollup steps task = [c]) :
    run env (passBound steps) task job steps ws ss = some ⟨redactChanges env ws [c]⟩ := by
  have hpos : 0 < steps.length := by
    rw [List.length_pos_iff]
    rintro rfl
    cases hrollup
  obtain ⟨m, hm⟩ : ∃ m, passBound steps = m + 2 := ⟨passBound steps - 2, by
    unfold passBound
    omega⟩
  have hpromote : phasePromote env task (buildCtx job ws ss) (m + 2) (Snapshot.apply steps c) =
      some ([], Snapshot.apply steps c) := by
    simp [phasePromote, hstable.promote]
  have hrest : runLoop env task job ws ss (m + 2) (m + 1) (Snapshot.apply steps c) = some [] := by
    simp only [runLoop, hstable.rollup, Snapshot.applyAll_nil, hpromote, Option.bind_some,
      hstable.placeholders]
    rfl
  have hloop : runLoop env task job ws ss (m + 2) (m + 2) steps = some [c] := by
    rw [runLoop]
    simp only [hrollup, Snapshot.applyAll_cons, Snapshot.applyAll_nil, hpromote,
      Option.bind_some, hstable.placeholders, hrest]
    rfl
  rw [run, hm, hloop]
  rfl

end Ends

end Stroem.Cascade
