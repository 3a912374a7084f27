import Stroem.Cascade.ApplySpec
import Stroem.Foundation.Reorder

/-!
# Runs over rows in another order

Two runs of the cascade over the same rows in different orders stay in step: each phase makes
the same changes in both, in some order, and leaves the same rows, in some order.  The order of
the rows shows in two places only.  The template context keeps the last of two steps with one
sanitised name, and the instances of a loop are sorted by their index alone.
-/

namespace Stroem.Cascade

open Foundation

/-! ## What the order of the rows decides -/

def TemplateNames (rows : List JobStepRow) : Prop :=
  ∀ r ∈ rows, ∀ r' ∈ rows, r.loopSource = none → r'.loopSource = none →
    sanitizedName r.stepName = sanitizedName r'.stepName → r = r'

def LoopSlots (rows : List JobStepRow) : Prop :=
  ∀ r ∈ rows, ∀ r' ∈ rows, ∀ p, r.loopSource = some p → r'.loopSource = some p →
    r.loopIndex.getD 0 = r'.loopIndex.getD 0 → r = r'

def Original (base : Snapshot) (r : JobStepRow) : Prop :=
  ∃ r₀ ∈ base, r₀.stepName = r.stepName

def Descends (base : Snapshot) (r : JobStepRow) : Prop :=
  (∃ r₀ ∈ base, r₀.stepName = r.stepName ∧ r₀.loopSource = r.loopSource ∧
      r₀.loopIndex = r.loopIndex) ∨
    ¬Original base r ∧ ∃ q, ∃ i < maxForEachItems, r.stepName = instanceName q i ∧
      r.loopSource = some q ∧ r.loopIndex = some (Int32.ofNat i)

structure Twins (base snap snap' : Snapshot) : Prop where
  perm : snap.Perm snap'
  distinct : Distinct snap
  grown : GrownFrom base snap
  descends : ∀ r ∈ snap, Descends base r
  first : snap.Pairwise fun a b => Original base b → Original base a
  first' : snap'.Pairwise fun a b => Original base b → Original base a

theorem Twins.of_perm {rows rows' : List JobStepRow} (h : Distinct rows)
    (hperm : rows.Perm rows') : Twins rows rows rows' where
  perm := hperm
  distinct := h
  grown := .refl rows
  descends := fun r hr => .inl ⟨r, hr, rfl, rfl, rfl⟩
  first := List.pairwise_of_forall_mem_list fun a ha _ _ _ => ⟨a, ha, rfl⟩
  first' := List.pairwise_of_forall_mem_list fun a ha _ _ _ => ⟨a, hperm.mem_iff.mpr ha, rfl⟩

theorem distinct_perm {rows rows' : List JobStepRow} (hperm : rows.Perm rows')
    (h : Distinct rows) : Distinct rows' :=
  (hperm.map JobStepRow.stepName).nodup_iff.mp h

section Alike

variable {env : TemplateEnv} {task : TaskDef} {job : JobRow} {ws : Option WorkspaceConfig}
  {ss : Snapshots} {base snap snap' : Snapshot}

namespace Twins

theorem distinct' (ht : Twins base snap snap') : Distinct snap' :=
  distinct_perm ht.perm ht.distinct

theorem grown' (ht : Twins base snap snap') : GrownFrom base snap' := by
  intro r hr
  refine (ht.grown r (ht.perm.mem_iff.mpr hr)).imp id ?_
  rintro ⟨q, i, hname, t, hmem, hstarted⟩
  exact ⟨q, i, hname, t, ht.perm.mem_iff.mp hmem, hstarted⟩

theorem get_eq (ht : Twins base snap snap') (name : String) : snap.get name = snap'.get name := by
  apply Option.ext
  intro r
  rw [Snapshot.get_eq_some_iff ht.distinct, Snapshot.get_eq_some_iff ht.distinct',
    ht.perm.mem_iff]

theorem status_eq (ht : Twins base snap snap') : snap.status = snap'.status := by
  funext name
  rw [Snapshot.status, Snapshot.status, ht.get_eq]

theorem gateFor_eq (ht : Twins base snap snap') : gateFor snap = gateFor snap' := by
  have houtcome : snap.outcome = snap'.outcome := by
    funext name
    rw [Snapshot.outcome, Snapshot.outcome, ht.get_eq]
  funext fs
  rw [gateFor, gateFor, houtcome]

theorem buildCtx_eq (ht : Twins base snap snap') (hnames : TemplateNames base) :
    buildCtx job ws ss snap = buildCtx job ws ss snap' := by
  unfold buildCtx
  refine Option.map_congr fun cfg _ => conditionContext_perm job cfg ss ht.perm ?_
  have hback : ∀ r ∈ snap, r.loopSource = none →
      ∃ r₀ ∈ base, r₀.stepName = r.stepName ∧ r₀.loopSource = none := by
    intro r hr hnone
    rcases ht.descends r hr with ⟨r₀, hr₀, hname, hsource, -⟩ | ⟨-, q, i, -, -, hsource, -⟩
    · exact ⟨r₀, hr₀, hname, hsource.trans hnone⟩
    · rw [hnone] at hsource
      cases hsource
  intro r hr r' hr' hnone hnone' heq
  obtain ⟨r₀, hr₀, hname, hnone⟩ := hback r hr hnone
  obtain ⟨r₀', hr₀', hname', hnone'⟩ := hback r' hr' hnone'
  rw [← hname, ← hname'] at heq
  obtain rfl := hnames r₀ hr₀ r₀' hr₀' hnone hnone' heq
  exact ht.distinct.eq_of_key hr hr' (hname.symm.trans hname')

theorem eq_of_slot (ht : Twins base snap snap') (hslots : LoopSlots base) {p : String}
    {a b : JobStepRow} (ha : a ∈ snap) (hb : b ∈ snap) (hap : a.loopSource = some p)
    (hbp : b.loopSource = some p) (hindex : a.loopIndex.getD 0 = b.loopIndex.getD 0)
    (hiff : Original base a ↔ Original base b) : a = b := by
  refine ht.distinct.eq_of_key ha hb ?_
  rcases ht.descends a ha with
      ⟨a₀, ha₀, hname, hsource, hidx⟩ | ⟨hnew, q, i, hi, hname, hsource, hidx⟩ <;>
    rcases ht.descends b hb with
      ⟨b₀, hb₀, hname', hsource', hidx'⟩ | ⟨hnew', q', j, hj, hname', hsource', hidx'⟩
  · rw [← hidx, ← hidx'] at hindex
    obtain rfl := hslots a₀ ha₀ b₀ hb₀ p (hsource.trans hap) (hsource'.trans hbp) hindex
    exact hname.symm.trans hname'
  · exact absurd (hiff.mp ⟨a₀, ha₀, hname⟩) hnew'
  · exact absurd (hiff.mpr ⟨b₀, hb₀, hname'⟩) hnew
  · obtain rfl : q = p := Option.some.inj (hsource.symm.trans hap)
    obtain rfl : q' = q := Option.some.inj (hsource'.symm.trans hbp)
    rw [hidx, hidx'] at hindex
    rw [hname, hname', loopIndex_inj hi hj hindex]

theorem loopInstances_eq (ht : Twins base snap snap') (hslots : LoopSlots base) (p : String) :
    loopInstances snap p = loopInstances snap' p := by
  have : Std.Total fun a b : JobStepRow => a.loopIndex.getD 0 ≤ b.loopIndex.getD 0 :=
    ⟨fun _ _ => Int32.le_total _ _⟩
  have : IsTrans JobStepRow fun a b => a.loopIndex.getD 0 ≤ b.loopIndex.getD 0 :=
    ⟨fun _ _ _ => Int32.le_trans⟩
  refine insertionSort_eq_of_perm (ht.perm.filter _) (ht.first.sublist List.filter_sublist)
    (ht.first'.sublist List.filter_sublist) fun a ha b hb hab hba hfirst hfirst' => ?_
  simp only [List.mem_filter, beq_iff_eq] at ha hb
  exact ht.eq_of_slot hslots ha.1 hb.1 ha.2 hb.2 (Int32.le_antisymm hab hba) ⟨hfirst', hfirst⟩

/-! ## The phases make the same changes -/

variable (task) in
theorem phaseRollup_perm (ht : Twins base snap snap') (hslots : LoopSlots base) :
    (phaseRollup snap task).Perm (phaseRollup snap' task) := by
  have hsame : rollupPlaceholder snap task = rollupPlaceholder snap' task := by
    funext ph
    unfold rollupPlaceholder
    rw [ht.loopInstances_eq hslots]
  unfold phaseRollup
  rw [hsame]
  exact (ht.perm.filter _).flatMap_right _

variable (env task job ws ss) in
theorem promoteBatch_perm (ht : Twins base snap snap') (hnames : TemplateNames base) :
    (promoteBatch env task snap (buildCtx job ws ss snap)).Perm
      (promoteBatch env task snap' (buildCtx job ws ss snap')) := by
  have hsame : promoteRow env task snap (buildCtx job ws ss snap) =
      promoteRow env task snap' (buildCtx job ws ss snap') := by
    funext r
    unfold promoteRow
    rw [ht.gateFor_eq, ht.buildCtx_eq hnames]
  unfold promoteBatch
  rw [hsame]
  exact (ht.perm.filter _).filterMap _

variable (env task job ws ss) in
theorem phasePlaceholders_perm (ht : Twins base snap snap') (hnames : TemplateNames base) :
    (phasePlaceholders env snap task (buildCtx job ws ss snap) job.jobId).Perm
      (phasePlaceholders env snap' task (buildCtx job ws ss snap') job.jobId) := by
  have hsame : ∀ ctx, placeholderRow env task snap ctx job.jobId =
      placeholderRow env task snap' ctx job.jobId := by
    intro ctx
    funext r
    unfold placeholderRow
    rw [ht.status_eq, ht.gateFor_eq]
  rw [ht.buildCtx_eq hnames]
  unfold phasePlaceholders
  split
  · exact .nil
  · rw [hsame]
    exact (ht.perm.filter _).filterMap _

end Twins

/-! ## A batch taken together -/

variable {cs : List Change}

theorem setAll_of_ne {r : JobStepRow} (h : ∀ c ∈ cs, r.stepName ≠ c.target) :
    setAll cs r = r := by
  induction cs with
  | nil => rfl
  | cons c cs ih =>
    have hrest := ih fun d hd => h d (List.mem_cons_of_mem c hd)
    rw [setAll, List.foldl_cons, if_neg (h c List.mem_cons_self)]
    exact hrest

theorem setAll_loop (cs : List Change) (r : JobStepRow) :
    (setAll cs r).loopSource = r.loopSource ∧ (setAll cs r).loopIndex = r.loopIndex := by
  induction cs generalizing r with
  | nil => exact ⟨rfl, rfl⟩
  | cons c cs ih =>
    simp only [setAll, List.foldl_cons] at ih ⊢
    obtain ⟨hsource, hindex⟩ := ih (if r.stepName = c.target then c.setRow r else r)
    rw [hsource, hindex]
    split <;> simp

theorem applyAll_eq_of_batch (h : Distinct snap) (hmoves : ∀ c ∈ cs, Moves snap c)
    (hcompat : cs.Pairwise Compatible) :
    snap.applyAll cs = snap.map (setAll cs) ++ cs.flatMap Change.inserted := by
  induction cs generalizing snap with
  | nil => exact (List.map_id snap).symm.trans (List.append_nil _).symm
  | cons c cs ih =>
    obtain ⟨hhead, htail⟩ := List.pairwise_cons.mp hcompat
    have hc := hmoves c List.mem_cons_self
    have hrest : ∀ d ∈ cs, Moves snap d := fun d hd => hmoves d (List.mem_cons_of_mem c hd)
    -- the instances of this change are no target of the others
    have hkept : c.inserted.map (setAll cs) = c.inserted := by
      refine (List.map_congr_left fun a ha => ?_).trans (List.map_id _)
      exact setAll_of_ne fun d hd => hc.inserted_ne_target h (hrest d hd) a ha
    rw [Snapshot.applyAll_cons, ih (hc.distinct h)
      (fun d hd => hc.apply h (hrest d hd) (hhead d hd)) htail, Snapshot.apply_eq,
      Snapshot.modify, h.modifyLast_eq_updateWhere, List.map_append, hkept, updateWhere,
      List.map_map, List.flatMap_cons, List.append_assoc]
    congr 1
    refine List.map_congr_left fun r _ => ?_
    simp [setAll]

theorem eq_of_compatible (h : cs.Pairwise Compatible) :
    ∀ c ∈ cs, ∀ c' ∈ cs, c.target = c'.target → c = c' := by
  have hsame : cs.Pairwise fun c c' => c.target = c'.target → c = c' := by
    refine h.imp fun {c c'} hc heq => ?_
    rcases hc.1 with hne | ⟨t, rfl, rfl⟩
    · exact absurd heq hne
    · rfl
  have hflip : cs.Pairwise (flip fun c c' => c.target = c'.target → c = c') :=
    hsame.imp fun hc heq => (hc heq.symm).symm
  intro c hc c' hc'
  exact hsame.forall_of_forall_of_flip (fun _ _ _ => rfl) hflip hc hc'

theorem Batch.inserted_slot (hb : Batch env task job ws ss snap cs) {c : Change} (hc : c ∈ cs)
    {a : JobStepRow} (ha : a ∈ c.inserted) :
    ∃ q, ∃ i < maxForEachItems, a.stepName = instanceName q i ∧ a.loopSource = some q ∧
      a.loopIndex = some (Int32.ofNat i) := by
  cases hb with
  | rollup =>
    obtain ⟨ph, -, -, -, hreason⟩ := phaseRollup_reason hc
    simp [hreason.inserted] at ha
  | promote =>
    obtain ⟨r, -, -, -, fs, -, hreason⟩ := promoteBatch_reason hc
    simp [hreason.inserted] at ha
  | placeholders =>
    obtain ⟨r, -, -, -, fs, -, hreason⟩ := phasePlaceholders_reason hc
    cases hreason with
    | expand items hgate hnone hne hlen =>
      obtain ⟨inst, hinst, rfl⟩ := List.mem_map.mp ha
      obtain ⟨i, hi, rfl⟩ := mem_expandInstances hinst
      exact ⟨r.stepName, i, hi.trans_le hlen, rfl, rfl, rfl⟩
    | _ => simp [Change.inserted] at ha

variable {cs' : List Change}

theorem InsertsNew.of_perm (hperm : cs.Perm cs') (h : InsertsNew base cs) : InsertsNew base cs' :=
  fun c hc => h c (hperm.mem_iff.mpr hc)

private theorem first_applyAll (hnew : InsertsNew base cs)
    (hfirst : snap.Pairwise fun a b => Original base b → Original base a) :
    (snap.map (setAll cs) ++ cs.flatMap Change.inserted).Pairwise
      fun a b => Original base b → Original base a := by
  have hnot : ∀ a ∈ cs.flatMap Change.inserted, ¬Original base a := by
    rintro a ha ⟨r₀, hr₀, hname⟩
    obtain ⟨c, hc, hac⟩ := List.mem_flatMap.mp ha
    exact hnew c hc a hac r₀ hr₀ hname
  refine List.pairwise_append.mpr ⟨?_, ?_, fun a _ b hb horig => absurd horig (hnot b hb)⟩
  · rw [List.pairwise_map]
    refine hfirst.imp fun {a b} h => ?_
    simpa only [Original, setAll_stepName] using h
  · exact List.pairwise_of_forall_mem_list fun a _ b hb horig => absurd horig (hnot b hb)

theorem Twins.applyAll (ht : Twins base snap snap') (hb : Batch env task job ws ss snap cs)
    (hb' : Batch env task job ws ss snap' cs') (hperm : cs.Perm cs') (hnew : InsertsNew base cs) :
    Twins base (snap.applyAll cs) (snap'.applyAll cs') := by
  have hnew' := hnew.of_perm hperm
  have hmoves := hb.moves_of_insertsNew ht.distinct ht.grown hnew
  have hmoves' := hb'.moves_of_insertsNew ht.distinct' ht.grown' hnew'
  have hcompat := hb.compatible ht.distinct
  have hsteps := Steps.of_batch ht.distinct hmoves hcompat
  have heq := applyAll_eq_of_batch ht.distinct hmoves hcompat
  have heq' := applyAll_eq_of_batch ht.distinct' hmoves' (hb'.compatible ht.distinct')
  refine ⟨?_, hsteps.distinct ht.distinct, ?_, fun r hr => ?_, ?_, ?_⟩
  · rw [heq, heq', setAll_perm hperm (eq_of_compatible hcompat)]
    exact (ht.perm.map _).append (hperm.flatMap_right _)
  · exact hsteps.invariant (GrownFrom base) (fun _ _ hs hg hc => hc.grownFrom hs hg)
      ht.distinct ht.grown
  · rw [heq] at hr
    rcases List.mem_append.mp hr with hr | hr
    · obtain ⟨r₀, hr₀, rfl⟩ := List.mem_map.mp hr
      obtain ⟨hsource, hindex⟩ := setAll_loop cs r₀
      simpa only [Descends, Original, setAll_stepName, hsource, hindex] using
        ht.descends r₀ hr₀
    · obtain ⟨c, hc, ha⟩ := List.mem_flatMap.mp hr
      refine .inr ⟨?_, hb.inserted_slot hc ha⟩
      rintro ⟨r₀, hr₀, hname⟩
      exact hnew c hc r ha r₀ hr₀ hname
  · rw [heq]
    exact first_applyAll hnew ht.first
  · rw [heq']
    exact first_applyAll hnew' ht.first'

/-! ## Runs in step -/

def Snapshot.names (snap : Snapshot) : List String :=
  snap.map JobStepRow.stepName

/--
Two lists of changes made of the same batches, each in its own order.  A batch is about rows
that exist, and two of its changes about one row are the same change.
-/
inductive Aligned : List String → List Change → List Change → List String → Prop
  | nil (names : List String) : Aligned names [] [] names
  | cons {names mid last : List String} {batch batch' cs cs' : List Change} :
      batch.Perm batch' → (∀ c ∈ batch, c.target ∈ names) →
      (∀ c ∈ batch, ∀ c' ∈ batch, c.target = c'.target → c = c') →
      (∀ n ∈ mid, n ∈ names ∨ ∃ c ∈ batch, ∃ a ∈ c.inserted, a.stepName = n) →
      Aligned mid cs cs' last → Aligned names (batch ++ cs) (batch' ++ cs') last

namespace Aligned

variable {names mid last : List String} {cs cs' ds ds' : List Change}

theorem perm (h : Aligned names cs cs' last) : cs.Perm cs' := by
  induction h with
  | nil => exact .nil
  | cons hperm _ _ _ _ ih => exact hperm.append ih

theorem append (h : Aligned names cs cs' mid) (h' : Aligned mid ds ds' last) :
    Aligned names (cs ++ ds) (cs' ++ ds') last := by
  induction h with
  | nil => exact h'
  | cons hperm htargets hsame hmid _ ih =>
    rw [List.append_assoc, List.append_assoc]
    exact .cons hperm htargets hsame hmid (ih h')

theorem symm (h : Aligned names cs cs' last) : Aligned names cs' cs last := by
  induction h with
  | nil names => exact .nil names
  | cons hperm htargets hsame hmid _ ih =>
    refine .cons hperm.symm (fun c hc => htargets c (hperm.mem_iff.mpr hc))
      (fun c hc c' hc' => hsame c (hperm.mem_iff.mpr hc) c' (hperm.mem_iff.mpr hc'))
      (fun n hn => (hmid n hn).imp id ?_) ih
    rintro ⟨c, hc, ha⟩
    exact ⟨c, hperm.mem_iff.mp hc, ha⟩

theorem map {f : Change → Change} (hf : ∀ c, (f c).target = c.target ∧ (f c).inserted = c.inserted)
    (h : Aligned names cs cs' last) : Aligned names (cs.map f) (cs'.map f) last := by
  induction h with
  | nil names => exact .nil names
  | cons hperm htargets hsame hmid _ ih =>
    rw [List.map_append, List.map_append]
    refine .cons (hperm.map f) ?_ ?_ (fun n hn => (hmid n hn).imp id ?_) ih
    · intro c hc
      obtain ⟨d, hd, rfl⟩ := List.mem_map.mp hc
      rw [(hf d).1]
      exact htargets d hd
    · intro c hc c' hc' heq
      obtain ⟨d, hd, rfl⟩ := List.mem_map.mp hc
      obtain ⟨d', hd', rfl⟩ := List.mem_map.mp hc'
      rw [(hf d).1, (hf d').1] at heq
      rw [hsame d hd d' hd' heq]
    · rintro ⟨c, hc, a, ha, hname⟩
      exact ⟨f c, List.mem_map_of_mem hc, a, by rwa [(hf c).2], hname⟩

end Aligned

theorem Twins.aligned (ht : Twins base snap snap') (hb : Batch env task job ws ss snap cs)
    (hperm : cs.Perm cs') (hnew : InsertsNew base cs) :
    Aligned snap.names cs cs' (snap.applyAll cs).names := by
  have hmoves := hb.moves_of_insertsNew ht.distinct ht.grown hnew
  have hcompat := hb.compatible ht.distinct
  have hone : Aligned snap.names (cs ++ []) (cs' ++ []) (snap.applyAll cs).names := by
    refine .cons hperm (fun c hc => ?_) (eq_of_compatible hcompat) (fun n hn => ?_) (.nil _)
    · obtain ⟨r, hr, hname, -⟩ := (hmoves c hc).target_mem ht.distinct
      rw [← hname]
      exact List.mem_map_of_mem hr
    · obtain ⟨r, hr, rfl⟩ := List.mem_map.mp hn
      rw [applyAll_eq_of_batch ht.distinct hmoves hcompat] at hr
      rcases List.mem_append.mp hr with hr | hr
      · obtain ⟨r₀, hr₀, rfl⟩ := List.mem_map.mp hr
        rw [setAll_stepName]
        exact .inl (List.mem_map_of_mem hr₀)
      · obtain ⟨c, hc, ha⟩ := List.mem_flatMap.mp hr
        exact .inr ⟨c, hc, r, ha, rfl⟩
  rwa [List.append_nil, List.append_nil] at hone

variable (env task snap) in
theorem promoteBatch_insertsNew (base : Snapshot) (ctx : Option Json) :
    InsertsNew base (promoteBatch env task snap ctx) := by
  intro c hc a ha
  obtain ⟨r, -, -, -, fs, -, hreason⟩ := promoteBatch_reason hc
  simp [hreason.inserted] at ha

variable (task snap) in
theorem phaseRollup_insertsNew (base : Snapshot) : InsertsNew base (phaseRollup snap task) := by
  intro c hc a ha
  obtain ⟨ph, -, -, -, hreason⟩ := phaseRollup_reason hc
  simp [hreason.inserted] at ha

theorem phasePromote_aligned {fuel : Nat} {last last' : Snapshot} (ht : Twins base snap snap')
    (hnames : TemplateNames base)
    (h : phasePromote env task (buildCtx job ws ss) fuel snap = some (cs, last))
    (h' : phasePromote env task (buildCtx job ws ss) fuel snap' = some (cs', last')) :
    Twins base last last' ∧ Aligned snap.names cs cs' last.names := by
  induction fuel generalizing snap snap' cs cs' with
  | zero => cases h
  | succ fuel ih =>
    have hperm := ht.promoteBatch_perm env task job ws ss hnames
    simp only [phasePromote] at h h'
    rw [← hperm.isEmpty_eq] at h'
    split at h
    case isTrue hempty =>
      simp only [hempty, if_true, Option.some.injEq, Prod.mk.injEq] at h h'
      obtain ⟨rfl, rfl⟩ := h
      obtain ⟨rfl, rfl⟩ := h'
      exact ⟨ht, .nil _⟩
    case isFalse hne =>
      rw [if_neg hne] at h'
      obtain ⟨⟨ds, u⟩, hrec, heq⟩ := Option.map_eq_some_iff.mp h
      obtain ⟨⟨ds', u'⟩, hrec', heq'⟩ := Option.map_eq_some_iff.mp h'
      simp only [Prod.mk.injEq] at heq heq'
      obtain ⟨rfl, rfl⟩ := heq
      obtain ⟨rfl, rfl⟩ := heq'
      have hnew := promoteBatch_insertsNew env task snap base (buildCtx job ws ss snap)
      have hb : Batch env task job ws ss snap
          (promoteBatch env task snap (buildCtx job ws ss snap)) := .promote
      obtain ⟨hlast, hrest⟩ := ih (ht.applyAll hb .promote hperm hnew) hrec hrec'
      exact ⟨hlast, (ht.aligned hb hperm hnew).append hrest⟩

theorem runLoop_pass {fuel passes : Nat}
    (h : runLoop env task job ws ss fuel (passes + 1) snap = some cs) :
    ∃ p1 snap2 pass, phasePromote env task (buildCtx job ws ss) fuel
        (snap.applyAll (phaseRollup snap task)) = some (p1, snap2) ∧
      pass = phaseRollup snap task ++ p1 ++
        phasePlaceholders env snap2 task (buildCtx job ws ss snap2) job.jobId ∧
      (pass = [] ∧ cs = [] ∨ pass ≠ [] ∧ ∃ ds, cs = pass ++ ds ∧
        runLoop env task job ws ss fuel passes (snap2.applyAll
          (phasePlaceholders env snap2 task (buildCtx job ws ss snap2) job.jobId)) = some ds) := by
  obtain ⟨⟨p1, snap2⟩, hp1, hrest⟩ := Option.bind_eq_some_iff.mp h
  refine ⟨p1, snap2, _, hp1, rfl, ?_⟩
  simp only at hrest
  split at hrest
  case isTrue hempty => exact .inl ⟨List.isEmpty_iff.mp hempty, (Option.some.inj hrest).symm⟩
  case isFalse hne =>
    obtain ⟨ds, hds, rfl⟩ := Option.map_eq_some_iff.mp hrest
    exact .inr ⟨fun hnil => hne (List.isEmpty_iff.mpr hnil), ds, rfl, hds⟩

theorem runLoop_aligned {fuel passes : Nat} (ht : Twins base snap snap')
    (hnames : TemplateNames base) (hslots : LoopSlots base)
    (h : runLoop env task job ws ss fuel passes snap = some cs)
    (h' : runLoop env task job ws ss fuel passes snap' = some cs') :
    (∃ last, Aligned snap.names cs cs' last) ∨ ¬InsertsNew base cs ∧ ¬InsertsNew base cs' := by
  induction passes generalizing snap snap' cs cs' with
  | zero =>
    cases h
    cases h'
    exact .inl ⟨_, .nil _⟩
  | succ passes ih =>
    obtain ⟨p1, snap2, pass, hp1, hpass, hrest⟩ := runLoop_pass h
    obtain ⟨p1', snap2', pass', hp1', hpass', hrest'⟩ := runLoop_pass h'
    have hb0 : Batch env task job ws ss snap (phaseRollup snap task) := .rollup
    have hperm0 := ht.phaseRollup_perm task hslots
    have hnew0 := phaseRollup_insertsNew task snap base
    obtain ⟨ht2, ha1⟩ :=
      phasePromote_aligned (ht.applyAll hb0 .rollup hperm0 hnew0) hnames hp1 hp1'
    have hb3 : Batch env task job ws ss snap2
        (phasePlaceholders env snap2 task (buildCtx job ws ss snap2) job.jobId) :=
      .placeholders
    have hperm3 := ht2.phasePlaceholders_perm env task job ws ss hnames
    have ha := (ht.aligned hb0 hperm0 hnew0).append ha1
    have hperm : pass.Perm pass' := by
      rw [hpass, hpass']
      exact ha.perm.append hperm3
    by_cases hnew3 : InsertsNew base
        (phasePlaceholders env snap2 task (buildCtx job ws ss snap2) job.jobId)
    · have ha3 := ha.append (ht2.aligned hb3 hperm3 hnew3)
      have ht3 := ht2.applyAll hb3 .placeholders hperm3 hnew3
      rw [← hpass, ← hpass'] at ha3
      rcases hrest with ⟨hnil, rfl⟩ | ⟨hne, ds, rfl, hds⟩ <;>
        rcases hrest' with ⟨hnil', rfl⟩ | ⟨hne', ds', rfl, hds'⟩
      · exact .inl ⟨_, .nil _⟩
      · exact absurd (hnil ▸ hperm).nil_eq.symm hne'
      · exact absurd (hnil' ▸ hperm).eq_nil hne
      · rcases ih ht3 hds hds' with ⟨last, hlast⟩ | ⟨hold, hold'⟩
        · exact .inl ⟨last, ha3.append hlast⟩
        · exact .inr ⟨fun hnew => hold fun c hc => hnew c (List.mem_append_right _ hc),
            fun hnew => hold' fun c hc => hnew c (List.mem_append_right _ hc)⟩
    · -- the colliding expansion is a change of this pass in both runs
      have hold : ¬InsertsNew base pass := fun hnew => hnew3 fun c hc => hnew c (by
        rw [hpass]
        exact List.mem_append_right _ hc)
      have hold' : ¬InsertsNew base pass' := fun hnew => hold (hnew.of_perm hperm.symm)
      have hsub : ∀ c ∈ pass, c ∈ cs := by
        intro c hc
        rcases hrest with ⟨rfl, rfl⟩ | ⟨-, ds, rfl, -⟩
        · exact hc
        · exact List.mem_append_left _ hc
      have hsub' : ∀ c ∈ pass', c ∈ cs' := by
        intro c hc
        rcases hrest' with ⟨rfl, rfl⟩ | ⟨-, ds, rfl, -⟩
        · exact hc
        · exact List.mem_append_left _ hc
      exact .inr ⟨fun hnew => hold fun c hc => hnew c (hsub c hc),
        fun hnew => hold' fun c hc => hnew c (hsub' c hc)⟩

theorem redactChanges_eq_map (env : TemplateEnv) (ws : Option WorkspaceConfig) :
    ∃ f : Change → Change, (∀ c, (f c).target = c.target ∧ (f c).inserted = c.inserted) ∧
      ∀ cs, redactChanges env ws cs = cs.map f := by
  have hid : ∀ c : Change, (id c).target = c.target ∧ (id c).inserted = c.inserted :=
    fun _ => ⟨rfl, rfl⟩
  unfold redactChanges
  cases ws with
  | none => exact ⟨id, hid, fun cs => (List.map_id cs).symm⟩
  | some cfg =>
    by_cases hempty : (collectConfigSecretValues cfg).isEmpty = true
    · exact ⟨id, hid, fun cs => by simp [hempty]⟩
    · refine ⟨Change.redact env (collectConfigSecretValues cfg), fun c => ?_, fun cs => by
        simp [hempty]⟩
      cases c <;> exact ⟨rfl, rfl⟩

theorem passBound_perm {rows rows' : List JobStepRow} (h : rows.Perm rows') :
    passBound rows = passBound rows' := by
  unfold passBound pendingPlaceholders
  rw [h.length_eq, (h.filter _).length_eq]

end Alike

end Stroem.Cascade
