import Stroem.Dispatch.Generations

/-!
# The bound of `handle_task_steps` is not enough for every flow

A sequential task loop that goes on after a failure releases one instance for every failed
dispatch.  When all dispatches are refused, each pass fails one instance and the cascade after
it makes the next one ready, so a loop with more instances than the flow has steps outlasts the
passes.
-/

namespace Stroem.Dispatch

open Foundation JobStepRepo Cascade Engine

/-! ## One loop at work -/

/--
All steps but the loop `x` are finished; its `n` task instances have the statuses `st`.
-/
structure OneLoop (x : String) (n : Nat) (st : Nat → StepStatus) (rows : List JobStepRow) :
    Prop where
  keyed : Keyed JobStepRow.stepName rows
  whole : ∀ r ∈ rows, WholeStamp r
  loop : ∃ r ∈ rows, r.loopSource = none ∧ r.stepName = x
  running : ∀ r ∈ rows, r.loopSource = none → r.stepName = x →
    r.isPlaceholder = true ∧ r.status = .running
  idle : ∀ r ∈ rows, r.loopSource = none → r.stepName ≠ x → r.status.isTerminal = true
  instances : ∀ i < n, ∃ r ∈ rows, r.loopSource = some x ∧ r.stepName = instanceName x i
  index : ∀ r ∈ rows, ∀ p, r.loopSource = some p → p = x ∧ r.isPlaceholder = false ∧
    r.actionType = .task ∧
    ∃ i < n, r.stepName = instanceName x i ∧ r.loopIndex = some (Int32.ofNat i) ∧ r.status = st i

def released (k i : Nat) : StepStatus :=
  if i < k then .failed else if i = k then .ready else .pending

def unreleased (k i : Nat) : StepStatus :=
  if i < k then .failed else .pending

theorem released_failed (k : Nat) :
    Function.update (released k) k .failed = unreleased (k + 1) := by
  funext i
  by_cases hi : i = k
  · subst hi
    simp [unreleased]
  · rw [Function.update_of_ne hi, released, unreleased, if_neg hi]
    simp only [show i < k + 1 ↔ i < k by omega]

theorem unreleased_ready (k : Nat) :
    Function.update (unreleased k) k .ready = released k := by
  funext i
  by_cases hi : i = k
  · subst hi
    simp [released]
  · rw [Function.update_of_ne hi, released, unreleased, if_neg hi]

namespace OneLoop

variable {x : String} {n : Nat} {st : Nat → StepStatus} {rows rows' : List JobStepRow}

theorem of_perm (h : OneLoop x n st rows) (hperm : rows'.Perm rows) : OneLoop x n st rows' := by
  have hmem : ∀ r, r ∈ rows' → r ∈ rows := fun r hr => hperm.mem_iff.mp hr
  refine ⟨(hperm.map _).nodup_iff.mpr h.keyed, fun r hr => h.whole r (hmem r hr), ?_,
    fun r hr => h.running r (hmem r hr), fun r hr => h.idle r (hmem r hr), fun i hi => ?_,
    fun r hr => h.index r (hmem r hr)⟩
  · obtain ⟨r, hr, hrest⟩ := h.loop
    exact ⟨r, hperm.mem_iff.mpr hr, hrest⟩
  · obtain ⟨r, hr, hrest⟩ := h.instances i hi
    exact ⟨r, hperm.mem_iff.mpr hr, hrest⟩

theorem get (h : OneLoop x n st rows) {i : Nat} (hi : i < n) :
    ∃ r ∈ rows, r.loopSource = some x ∧ r.stepName = instanceName x i ∧
      r.loopIndex = some (Int32.ofNat i) ∧ r.actionType = .task ∧ r.isPlaceholder = false ∧
      r.status = st i := by
  obtain ⟨r, hr, hsource, hname⟩ := h.instances i hi
  obtain ⟨-, hplain, htask, j, hj, hname', hindex, hstatus⟩ := h.index r hr x hsource
  obtain ⟨-, rfl⟩ := instanceName_inj (hname'.symm.trans hname)
  exact ⟨r, hr, hsource, hname, hindex, htask, hplain, hstatus⟩

theorem replaces {r r' : JobStepRow} {i : Nat} (h : OneLoop x n st rows)
    (hreplaces : Replaces r r' rows rows') (hr : r ∈ rows) (hsource : r.loopSource = some x)
    (hname : r.stepName = instanceName x i) (hkeeps : Keeps r r')
    (hkind : r'.actionType = r.actionType) (hwhole : WholeStamp r') :
    OneLoop x n (Function.update st i r'.status) rows' := by
  have hsource' : r'.loopSource = some x := hkeeps.loopSource.trans hsource
  -- only the instance has changed
  have hplain : ∀ a ∈ rows', a.loopSource = none → a ∈ rows := by
    intro a ha hnone
    rcases (hreplaces.mem a).mp ha with rfl | ⟨ha, -⟩
    · rw [hsource'] at hnone
      cases hnone
    · exact ha
  refine ⟨hreplaces.keyed, fun a ha => ?_, ?_, fun a ha hnone => ?_, fun a ha hnone => ?_,
    fun j hj => ?_, fun a ha p hap => ?_⟩
  · rcases (hreplaces.mem a).mp ha with rfl | ⟨ha, -⟩
    · exact hwhole
    · exact h.whole a ha
  · obtain ⟨a, ha, hnone, haname⟩ := h.loop
    refine ⟨a, hreplaces.mem_other ha fun heq => ?_, hnone, haname⟩
    rw [h.keyed.eq_of_key ha hr heq, hsource] at hnone
    cases hnone
  · exact h.running a (hplain a ha hnone) hnone
  · exact h.idle a (hplain a ha hnone) hnone
  · obtain ⟨a, ha, has, haname⟩ := h.instances j hj
    by_cases heq : a.stepName = r.stepName
    · exact ⟨r', hreplaces.mem_new, hsource', hkeeps.stepName.trans (heq.symm.trans haname)⟩
    · exact ⟨a, hreplaces.mem_other ha heq, has, haname⟩
  · rcases (hreplaces.mem a).mp ha with rfl | ⟨ha, hne⟩
    · obtain ⟨hp, hplaceholder, htask, j, hj, hjname, hindex, -⟩ :=
        h.index r hr p (hkeeps.loopSource.symm.trans hap)
      obtain ⟨-, rfl⟩ := instanceName_inj (hjname.symm.trans hname)
      exact ⟨hp, (hkeeps.isPlaceholder).trans hplaceholder, hkind.trans htask, j, hj,
        hkeeps.stepName.trans hjname, hkeeps.loopIndex.trans hindex, by simp⟩
    · obtain ⟨hp, hplaceholder, htask, j, hj, hjname, hindex, hstatus⟩ := h.index a ha p hap
      have hji : j ≠ i := by
        rintro rfl
        exact hne (hjname.trans hname.symm)
      exact ⟨hp, hplaceholder, htask, j, hj, hjname, hindex,
        by rw [Function.update_of_ne hji, hstatus]⟩

end OneLoop

theorem ofNat_index_succ {i j : Nat} (hi : i < maxForEachItems) (hj : j < maxForEachItems)
    (h : Int32.ofNat j = Int32.ofNat i + 1) : j = i + 1 := by
  have hone : (1 : Int32).toInt = 1 := by decide
  have hint := congrArg Int32.toInt h
  simp only [maxForEachItems] at hi
  rw [toInt_ofNat_index hj, Int32.toInt_add, toInt_ofNat_index hi, hone, Int.bmod_eq_of_le]
    at hint <;> omega

private theorem filterMap_eq_singleton {α β : Type*} {f : α → Option β} {l : List α} {a : α}
    {b : β} (hnodup : l.Nodup) (ha : a ∈ l) (hb : f a = some b)
    (hrest : ∀ c ∈ l, c ≠ a → f c = none) : l.filterMap f = [b] := by
  obtain ⟨s, t, rfl⟩ := List.append_of_mem ha
  have hs : s.filterMap f = [] := List.filterMap_eq_nil_iff.mpr fun c hc => by
    refine hrest c (List.mem_append_left _ hc) ?_
    rintro rfl
    exact (List.nodup_append.mp hnodup).2.2 c hc c List.mem_cons_self rfl
  have ht : t.filterMap f = [] := List.filterMap_eq_nil_iff.mpr fun c hc => by
    refine hrest c (List.mem_append_right _ (List.mem_cons_of_mem a hc)) ?_
    rintro rfl
    exact (List.nodup_cons.mp (List.nodup_append.mp hnodup).2.1).1 hc
  rw [List.filterMap_append, hs, List.filterMap_cons, hb, ht]
  rfl

private theorem filter_eq_singleton {α : Type*} {p : α → Bool} {l : List α} {a : α}
    (hnodup : l.Nodup) (ha : a ∈ l) (hpa : p a = true) (hrest : ∀ c ∈ l, p c = true → c = a) :
    l.filter p = [a] := by
  rw [← List.filterMap_eq_filter]
  refine filterMap_eq_singleton hnodup ha (by simp [Option.guard, hpa]) fun c hc hne => ?_
  simpa [Option.guard] using fun hpc => hne (hrest c hc hpc)

section Cascade

variable {task : TaskDef} {x : String} {n k : Nat} {rows : List JobStepRow}

theorem OneLoop.phaseRollup_eq (h : OneLoop x n (unreleased (k + 1)) rows)
    (hmax : n ≤ maxForEachItems) (hnext : k + 1 < n) (hseq : isSequential task x = true)
    (hcof : continuesOnFailure task x = true) :
    phaseRollup rows task = [.promote (instanceName x (k + 1))] := by
  obtain ⟨ph, hph, hnone, hname⟩ := h.loop
  obtain ⟨hplace, hrun⟩ := h.running ph hph hnone hname
  have hnodup : rows.Nodup := List.Nodup.of_map _ h.keyed
  have honly : runningPlaceholders rows = [ph] := by
    refine filter_eq_singleton hnodup hph (by simp [hplace, hrun]) fun r hr hrp => ?_
    simp only [Bool.and_eq_true, beq_iff_eq] at hrp
    cases hsource : r.loopSource with
    | some p =>
      have hplain := (h.index r hr p hsource).2.1
      rw [hrp.1] at hplain
      cases hplain
    | none =>
      by_cases hrx : r.stepName = x
      · exact h.keyed.eq_of_key hr hph (hrx.trans hname.symm)
      · have hterm := h.idle r hr hsource hrx
        rw [hrp.2] at hterm
        cases hterm
  have hindex : ∀ r ∈ loopInstances rows x, r ∈ rows ∧ ∃ i < n, r.stepName = instanceName x i ∧
      r.loopIndex = some (Int32.ofNat i) ∧ r.status = unreleased (k + 1) i := by
    intro r hr
    obtain ⟨hr, hsource⟩ := mem_loopInstances.mp hr
    exact ⟨hr, (h.index r hr x hsource).2.2.2⟩
  obtain ⟨last, hlast, hlsource, hlname, hlindex, -, -, hlstatus⟩ := h.get (i := k) (by omega)
  obtain ⟨next, hmem, hnsource, hnname, hnindex, -, -, hnstatus⟩ := h.get hnext
  have hmem' := mem_loopInstances.mpr ⟨hmem, hnsource⟩
  have hlast' := mem_loopInstances.mpr ⟨hlast, hlsource⟩
  have hwaiting : next.status = .pending := by simp [hnstatus, unreleased]
  -- the search for a successor finds only the next instance
  have hfound : ∀ i < n, ∀ a, (loopInstances rows x).find?
      (fun b => b.loopIndex == some (Int32.ofNat i + 1) && b.status == .pending) = some a →
      i + 1 < n ∧ a.stepName = instanceName x (i + 1) ∧ k + 1 ≤ i + 1 := by
    intro i hi a hfind
    have ha := List.find?_some hfind
    simp only [Bool.and_eq_true, beq_iff_eq] at ha
    obtain ⟨-, j, hj, hjname, hjindex, hjstatus⟩ := hindex a (List.mem_of_find?_eq_some hfind)
    obtain rfl := ofNat_index_succ (by omega) (by omega)
      (Option.some.inj (hjindex.symm.trans ha.1))
    refine ⟨hj, hjname, ?_⟩
    by_contra hlt
    rw [ha.2, unreleased, if_pos (by omega)] at hjstatus
    cases hjstatus
  have hadvance : advanceInstances (loopInstances rows x) =
      [.promote (instanceName x (k + 1))] := by
    unfold advanceInstances
    refine filterMap_eq_singleton (a := last) (List.Nodup.filter _ (List.Nodup.of_map _
      (Distinct.loopInstances h.keyed x))) (List.mem_filter.mpr ⟨hlast', ?_⟩) ?_ fun r hr hne => ?_
    · simp [hlstatus, unreleased, StepStatus.isTerminal]
    · rw [hlindex, Option.bind_some]
      cases hfind : (loopInstances rows x).find?
          (fun b => b.loopIndex == some (Int32.ofNat k + 1) && b.status == .pending) with
      | none =>
        rw [List.find?_eq_none] at hfind
        have hone : Int32.ofNat (k + 1) = Int32.ofNat k + 1 := Int32.ofNat_add k 1
        exact absurd (by simp [hnindex, hwaiting, hone]) (hfind next hmem')
      | some a =>
        rw [Option.map_some, (hfound k (by omega) a hfind).2.1]
    · obtain ⟨hr, hterm⟩ := List.mem_filter.mp hr
      obtain ⟨hrmem, i, hi, hrname, hrindex, hrstatus⟩ := hindex r hr
      have hik : i < k := by
        rw [hrstatus, unreleased] at hterm
        split at hterm
        · rcases Nat.lt_or_eq_of_le (Nat.lt_succ_iff.mp ‹_›) with hlt | rfl
          · exact hlt
          · exact absurd (h.keyed.eq_of_key hrmem hlast (hrname.trans hlname.symm)) hne
        · cases hterm
      rw [hrindex, Option.bind_some, Option.map_eq_none_iff]
      by_contra hsome
      obtain ⟨a, hfind⟩ := Option.ne_none_iff_exists'.mp hsome
      have := (hfound i hi a hfind).2.2
      omega
  have hrollup : rollupInstances x (loopInstances rows x) = [] := by
    refine if_neg fun hall => ?_
    have hterm := List.all_eq_true.mp hall next hmem'
    rw [hwaiting] at hterm
    cases hterm
  rw [phaseRollup, honly, List.flatMap_singleton, rollupPlaceholder]
  simp only [hname, List.isEmpty_eq_false_iff_exists_mem.mpr ⟨next, hmem'⟩, Bool.false_eq_true,
    if_false, hcof, Bool.not_true, Bool.and_false, Bool.false_and, hseq, if_true, hadvance,
    hrollup, List.append_nil]

theorem OneLoop.quiet (h : OneLoop x n (released k) rows) (hmax : n ≤ maxForEachItems)
    (hk : k < n) (hcof : continuesOnFailure task x = true)
    (hnames : ∀ name ∈ task.flow.keys, '[' ∉ name.toList) : Cascade.Quiet task true rows := by
  have hloop : ∀ p ∈ rows, p.isPlaceholder = true → p.loopSource = none := by
    intro p hp hplace
    by_contra hne
    obtain ⟨q, hq⟩ := Option.ne_none_iff_exists'.mp hne
    rw [(h.index p hp q hq).2.1] at hplace
    cases hplace
  have hx : ∀ p ∈ rows, p.isPlaceholder = true → p.status = .running → p.stepName = x := by
    intro p hp hplace hrun
    by_contra hne
    have hterm := h.idle p hp (hloop p hp hplace) hne
    rw [hrun] at hterm
    cases hterm
  -- what is pending is an instance
  have hpending : ∀ r ∈ rows, r.status = .pending → r.loopSource ≠ none := by
    intro r hr hpend hnone
    by_cases hrx : r.stepName = x
    · rw [(h.running r hr hnone hrx).2] at hpend
      cases hpend
    · have hterm := h.idle r hr hnone hrx
      rw [hpend] at hterm
      cases hterm
  refine ⟨fun p hp hplace hrun _ _ _ => ?_, fun p hp hplace hrun _ i hi his hterm idx hidx m hm
    hms hmidx hpend => ?_, fun p hp hplace hrun _ hstop => ?_, fun r hr hpend _ fs hfs => ?_,
    fun _ r hr hpend hplace => absurd (hloop r hr hplace) (hpending r hr hpend)⟩
  · rw [hx p hp hplace hrun]
    obtain ⟨r, hr, hsource, -, -, -, -, hstatus⟩ := h.get hk
    exact ⟨r, hr, hsource, by simp [hstatus, released, StepStatus.isTerminal]⟩
  · obtain ⟨-, -, -, a, ha, -, hai, hastatus⟩ := h.index i hi _ his
    obtain ⟨-, -, -, b, hb, -, hbi, hbstatus⟩ := h.index m hm _ hms
    obtain rfl := Option.some.inj (hai.symm.trans hidx)
    obtain rfl := ofNat_index_succ (by omega) (by omega)
      (Option.some.inj (hbi.symm.trans hmidx))
    rw [hastatus, released] at hterm
    rw [hpend, released] at hbstatus
    split at hterm
    · split at hbstatus
      · cases hbstatus
      · split at hbstatus
        · cases hbstatus
        · omega
    · split at hterm <;> cases hterm
  · rw [hx p hp hplace hrun, hcof] at hstop
    cases hstop
  · obtain ⟨p, hp⟩ := Option.ne_none_iff_exists'.mp (hpending r hr hpend)
    obtain ⟨-, -, -, i, -, hname, -, -⟩ := h.index r hr p hp
    have hbracket := hnames r.stepName (Flow.mem_keys_iff.mpr ⟨fs, hfs⟩)
    rw [hname] at hbracket
    exact absurd (bracket_mem_instanceName x i) hbracket

end Cascade

/-! ## Passes that are refused -/

section Passes

variable {d : DispatchEnv} {x : String} {n k : Nat} {db : JobTables}

theorem Replaces.apply {snap : Snapshot} {c : Change} {r : JobStepRow} (h : Distinct snap)
    (hr : r ∈ snap) (hname : r.stepName = c.target) (haccepts : c.accepts r = true)
    (hinserted : c.inserted = []) : Replaces r (c.setRow r) snap (snap.apply c) := by
  refine ⟨(Moves.of_accepts h hr hname haccepts hinserted).distinct h, by simp, fun a => ?_⟩
  rw [Snapshot.mem_apply h, hinserted, hname]
  simp only [List.not_mem_nil, or_false]
  refine or_congr_left ⟨?_, ?_⟩
  · rintro ⟨b, hb, hbname, rfl⟩
    rw [h.eq_of_key hb hr (hbname.trans hname.symm)]
  · rintro rfl
    exact ⟨r, hr, hname, rfl⟩

theorem OneLoop.execute_eq (h : OneLoop x n (unreleased (k + 1)) db.steps)
    (hmax : n ≤ maxForEachItems) (hnext : k + 1 < n) (hseq : isSequential d.task x = true)
    (hcof : continuesOnFailure d.task x = true)
    (hnames : ∀ name ∈ d.task.flow.keys, '[' ∉ name.toList) :
    ∃ db', execute d db = some db' ∧ OneLoop x n (released (k + 1)) db'.steps := by
  have hread := h.of_perm (d.order.perm db.steps)
  obtain ⟨next, hmem, hsource, hname, -, -, -, hstatus⟩ := h.get hnext
  have hpend : next.status = .pending := by simp [hstatus, unreleased]
  have hmem' : next ∈ d.order.sort db.steps := mem_sort.mpr hmem
  -- in memory
  have hsnap := Replaces.apply hread.keyed hmem' (c := .promote (instanceName x (k + 1))) hname
    (by simp [Change.accepts, hpend]) rfl
  have hquiet : Cascade.Quiet d.task true
      (Snapshot.apply (d.order.sort db.steps) (.promote (instanceName x (k + 1)))) := by
    have hloop := hread.replaces hsnap hmem' hsource hname ⟨rfl, rfl, rfl, rfl⟩ rfl
      (h.whole next hmem)
    rw [show (Change.setRow _ next).status = .ready from rfl, unreleased_ready] at hloop
    exact hloop.quiet hmax hnext hcof hnames
  have hrun : run d.env (passBound (d.order.sort db.steps)) d.task d.job
      (d.order.sort db.steps) (some d.workspaceConfig) d.snapshots =
        some ⟨[.promote (instanceName x (k + 1))]⟩ := by
    have hstable : Stable d.env d.task d.job (some d.workspaceConfig) d.snapshots _ :=
      stable_iff_quiet.mpr hquiet
    rw [hstable.run_rollup (hread.phaseRollup_eq hmax hnext hseq hcof)]
    simp [redactChanges, Change.redact]
  -- and in the database
  have hguard : ∀ a, (promoteStepsTx [instanceName x (k + 1)] d.now).guard a = true →
      a.stepName = next.stepName := by
    intro a ha
    simp only [promoteStepsTx, List.mem_singleton, Bool.and_eq_true, decide_eq_true_eq] at ha
    exact ha.1.trans hname.symm
  have hmeets : (promoteStepsTx [instanceName x (k + 1)] d.now).guard next = true := by
    simp [promoteStepsTx, hname, hpend]
  have hreplaces := Replaces.run h.keyed hguard (fun _ => rfl) hmem hmeets
  refine ⟨⟨db.jobStatus, (promoteStepsTx [instanceName x (k + 1)] d.now).run db.steps⟩, ?_, ?_⟩
  · simp only [execute, hrun, Option.bind_some, Cascade.apply, groupChanges, applyGroups,
      applyGroup, runExpecting, List.length_singleton,
      h.keyed.rowsAffected_eq_one hguard hmem hmeets, if_true]
    rfl
  · have hloop := h.replaces hreplaces hmem hsource hname ⟨rfl, rfl, rfl, rfl⟩ rfl
      (h.whole next hmem)
    rwa [show ((promoteStepsTx [instanceName x (k + 1)] d.now).set next).status = .ready from rfl,
      unreleased_ready] at hloop

theorem OneLoop.pass (h : OneLoop x n (released k) db.steps) (hmax : n ≤ maxForEachItems)
    (hnext : k + 1 < n) (hseq : isSequential d.task x = true)
    (hcof : continuesOnFailure d.task x = true)
    (hnames : ∀ name ∈ d.task.flow.keys, '[' ∉ name.toList)
    (hrefused : ∀ name, ∃ error, d.taskOutcome name = { result := .refused error }) :
    OneLoop x n (released (k + 1)) (handleTaskStepsPass d db).2.steps := by
  obtain ⟨r, hr, hsource, hname, -, htask, -, hstatus⟩ := h.get (i := k) (by omega)
  have hready : r.status = .ready := by simp [hstatus, released]
  have hread := h.of_perm (d.order.perm db.steps)
  have hsteps : (d.order.sort db.steps).filter isReadyTask = [r] := by
    refine filter_eq_singleton (List.Nodup.of_map _ hread.keyed) (mem_sort.mpr hr)
      (by simp [isReadyTask, hready, htask]) fun a ha haready => ?_
    simp only [isReadyTask, Bool.and_eq_true, beq_iff_eq] at haready
    cases hasource : a.loopSource with
    | none =>
      by_cases hax : a.stepName = x
      · rw [(hread.running a ha hasource hax).2] at haready
        cases haready.1
      · have hterm := hread.idle a ha hasource hax
        rw [haready.1] at hterm
        cases hterm
    | some p =>
      obtain ⟨-, -, -, i, -, haname, -, hastatus⟩ := hread.index a ha p hasource
      have hik : i = k := by
        rw [haready.1, released] at hastatus
        split at hastatus
        · cases hastatus
        · split at hastatus
          · assumption
          · cases hastatus
      subst hik
      exact h.keyed.eq_of_key (mem_sort.mp ha) hr (haname.trans hname.symm)
  obtain ⟨error, hrefuse⟩ := hrefused r.stepName
  obtain ⟨r', db₁, hout, hfailed, hreplaces, -, heq⟩ :=
    failTaskStep_spec d db error h.keyed hr rfl hready (h.whole r hr)
  have hdispatch : dispatchTask d r db = (true, orchestrateAfterFailure d db₁) := by
    rw [← heq]
    unfold dispatchTask
    split
    case h_1 pin _ hpin =>
      rw [hrefuse] at hpin
      cases hpin
    case h_2 => simp only [dispatchStamped, hrefuse]
  have hloop := h.replaces hreplaces hr hsource hname hout.keeps hout.actionType hout.whole
  rw [hfailed, released_failed] at hloop
  obtain ⟨db₂, hexec, hloop₂⟩ := hloop.execute_eq hmax hnext hseq hcof hnames
  have hafter : (orchestrateAfterFailure d db₁).steps = db₂.steps := by
    rcases orchestrateAfterFailure_steps d db₁ with ⟨hnone, -⟩ | ⟨db', hexec', hafter⟩
    · rw [hexec] at hnone
      cases hnone
    · rw [hafter, Option.some.inj (hexec'.symm.trans hexec)]
  rw [handleTaskStepsPass, hsteps, dispatchAll, dispatchAll, hdispatch]
  exact hafter ▸ hloop₂

theorem OneLoop.afterRounds (h : OneLoop x n (released 0) db.steps) (hmax : n ≤ maxForEachItems)
    (hseq : isSequential d.task x = true) (hcof : continuesOnFailure d.task x = true)
    (hnames : ∀ name ∈ d.task.flow.keys, '[' ∉ name.toList)
    (hrefused : ∀ name, ∃ error, d.taskOutcome name = { result := .refused error })
    (hk : k < n) :
    OneLoop x n (released k) (afterRounds (handleTaskStepsPass d) k db).steps := by
  induction k with
  | zero => exact h
  | succ k ih =>
    rw [afterRounds_succ_right]
    exact (ih (by omega)).pass hmax hk hseq hcof hnames hrefused

theorem OneLoop.not_noneReady (h : OneLoop x n (released 0) db.steps)
    (hmax : n ≤ maxForEachItems) (hseq : isSequential d.task x = true)
    (hcof : continuesOnFailure d.task x = true)
    (hnames : ∀ name ∈ d.task.flow.keys, '[' ∉ name.toList)
    (hrefused : ∀ name, ∃ error, d.taskOutcome name = { result := .refused error })
    (hmany : d.task.flow.keys.length + 1 < n) : ¬NoneReady .task (handleTaskSteps d db) := by
  rw [handleTaskSteps_noneReady_iff ⟨h.keyed, h.whole⟩]
  rintro ⟨k, hk, hnone⟩
  have hloop := h.afterRounds hmax hseq hcof hnames hrefused (k := k) (by omega)
  obtain ⟨r, hr, -, -, -, htask, -, hstatus⟩ := hloop.get (i := k) (by omega)
  have hready := hnone r hr
  rw [isReadyFor, hstatus, htask] at hready
  simp [released] at hready

end Passes

/-! ## Which flows drain -/

def Drains (task : TaskDef) (kinds : String → ActionType) : Prop :=
  ∀ (d : DispatchEnv) (db : JobTables), d.task = task → JobRows task kinds db.steps →
    NoneReady .task (handleTaskSteps d db)

section Flow

variable (task : TaskDef) (kinds : String → ActionType) (x : String) (n : Nat)

def loopAtWork : List JobStepRow :=
  (task.flow.keys.map fun name =>
    { stepName := name
      actionType := kinds name
      status := if name = x then .running else .completed
      forEachExpr := if name = x then some "" else none }) ++
  (List.range n).map fun i =>
    { stepName := instanceName x i
      actionType := .task
      status := released 0 i
      loopSource := some x
      loopIndex := some (Int32.ofNat i) }

variable {task kinds x n}

theorem mem_loopAtWork {r : JobStepRow} (hr : r ∈ loopAtWork task kinds x n) :
    (r.loopSource = none ∧ r.stepName ∈ task.flow.keys ∧ r.actionType = kinds r.stepName ∧
      (r.isPlaceholder = true ↔ r.stepName = x) ∧
      r.status = if r.stepName = x then .running else .completed) ∨
    (r.loopSource = some x ∧ r.isPlaceholder = false ∧ r.actionType = .task ∧
      ∃ i < n, r.stepName = instanceName x i ∧ r.loopIndex = some (Int32.ofNat i) ∧
        r.status = released 0 i) := by
  rcases List.mem_append.mp hr with hr | hr
  · obtain ⟨name, hname, rfl⟩ := List.mem_map.mp hr
    refine .inl ⟨rfl, hname, rfl, ?_, rfl⟩
    by_cases hx : name = x <;> simp [JobStepRow.isPlaceholder, hx]
  · obtain ⟨i, hi, rfl⟩ := List.mem_map.mp hr
    exact .inr ⟨rfl, rfl, rfl, i, List.mem_range.mp hi, rfl, rfl, rfl⟩

theorem keyed_loopAtWork (hnames : ∀ name ∈ task.flow.keys, '[' ∉ name.toList) :
    Keyed JobStepRow.stepName (loopAtWork task kinds x n) := by
  refine Keyed.append ?_ ?_ fun r hr a ha heq => ?_
  · have hflow : task.flow.keys.Nodup := task.flow.nodup
    simpa [Keyed, Function.comp_def] using hflow
  · have hinj : Function.Injective (instanceName x) := fun i j h => (instanceName_inj h).2
    simpa [Keyed, Function.comp_def] using (List.nodup_range (n := n)).map hinj
  · obtain ⟨name, hname, rfl⟩ := List.mem_map.mp hr
    obtain ⟨i, -, rfl⟩ := List.mem_map.mp ha
    have hbracket := hnames name hname
    rw [show name = instanceName x i from heq] at hbracket
    exact hbracket (bracket_mem_instanceName x i)

theorem oneLoop_loopAtWork (hnames : ∀ name ∈ task.flow.keys, '[' ∉ name.toList)
    (hx : x ∈ task.flow.keys) : OneLoop x n (released 0) (loopAtWork task kinds x n) := by
  refine ⟨keyed_loopAtWork hnames, fun r hr => ?_, ?_, fun r hr hnone hname => ?_,
    fun r hr hnone hname => ?_, fun i hi => ?_, fun r hr p hsource => ?_⟩
  · rcases List.mem_append.mp hr with hr | hr
    · obtain ⟨name, -, rfl⟩ := List.mem_map.mp hr
      rfl
    · obtain ⟨i, -, rfl⟩ := List.mem_map.mp hr
      rfl
  · exact ⟨_, List.mem_append_left _ (List.mem_map_of_mem hx), rfl, rfl⟩
  · rcases mem_loopAtWork hr with ⟨-, -, -, hplace, hstatus⟩ | ⟨hsome, -⟩
    · exact ⟨hplace.mpr hname, by rw [hstatus, if_pos hname]⟩
    · rw [hsome] at hnone
      cases hnone
  · rcases mem_loopAtWork hr with ⟨-, -, -, -, hstatus⟩ | ⟨hsome, -⟩
    · rw [hstatus, if_neg hname]
      rfl
    · rw [hsome] at hnone
      cases hnone
  · exact ⟨_, List.mem_append_right _ (List.mem_map_of_mem (List.mem_range.mpr hi)), rfl, rfl⟩
  · rcases mem_loopAtWork hr with ⟨hnone, -⟩ | ⟨hsome, hplain, htask, hindex⟩
    · rw [hnone] at hsource
      cases hsource
    · exact ⟨Option.some.inj (hsource.symm.trans hsome), hplain, htask, hindex⟩

theorem OneLoop.inOrder {rows : List JobStepRow} (h : OneLoop x n (released 0) rows)
    (hloops : LoopRows task rows) (hmax : n ≤ maxForEachItems) : InOrder task rows := by
  -- nothing comes before an instance that is not pending
  have hfirst : ∀ p, ∀ i ∈ rows, ∀ r ∈ rows, r.status ≠ .pending → ¬Precedes p i r := by
    intro p i hi r hr hstarted hprec
    obtain ⟨-, -, -, a, ha, -, hai, -⟩ := h.index i hi p hprec.first
    obtain ⟨-, -, -, b, hb, -, hbi, hbstatus⟩ := h.index r hr p hprec.second
    obtain rfl : b = 0 := by
      by_contra hne
      rw [hbstatus, released, if_neg (Nat.not_lt_zero b), if_neg hne] at hstarted
      exact hstarted rfl
    have hlt := hprec.slot_lt
    rw [slot, slot, hai, hbi] at hlt
    simp only [Option.getD_some, toInt_ofNat_index (show a < maxForEachItems by omega),
      toInt_ofNat_index (show 0 < maxForEachItems by decide)] at hlt
    omega
  exact ⟨hloops, fun p _ r hr i hi hlive hprec => absurd hprec (hfirst p i hi r hr hlive.1),
    fun p _ _ _ j hj i hi _ hstarted _ hprec => absurd hprec (hfirst p i hi j hj hstarted),
    fun p _ _ r hr i hi hlive hprec => absurd hprec (hfirst p i hi r hr hlive.1)⟩

theorem jobRows_loopAtWork (hnames : ∀ name ∈ task.flow.keys, '[' ∉ name.toList) {fs : FlowStep}
    (hx : task.flow.get x = some fs) (hforEach : fs.forEach.isSome = true)
    (hseq : isSequential task x = true) (htask : kinds x = .task) (hpos : 0 < n)
    (hmax : n ≤ maxForEachItems) : JobRows task kinds (loopAtWork task kinds x n) := by
  have hkey : x ∈ task.flow.keys := Flow.mem_keys_iff.mpr ⟨fs, hx⟩
  have h : OneLoop x n (released 0) (loopAtWork task kinds x n) := oneLoop_loopAtWork hnames hkey
  -- the loop's own row is not one of its instances
  have hself : ∀ r ∈ loopAtWork task kinds x n, r.stepName = x → r.loopSource = none := by
    intro r hr hname
    rcases mem_loopAtWork hr with ⟨hnone, -⟩ | ⟨-, -, -, i, -, hiname, -⟩
    · exact hnone
    · have hbracket := hnames x hkey
      rw [← hname, hiname] at hbracket
      exact absurd (bracket_mem_instanceName x i) hbracket
  have hplace : ∀ r ∈ loopAtWork task kinds x n, r.isPlaceholder = true → r.stepName = x := by
    intro r hr hplace
    rcases mem_loopAtWork hr with ⟨-, -, -, hiff, -⟩ | ⟨-, hplain, -⟩
    · exact hiff.mp hplace
    · rw [hplain] at hplace
      cases hplace
  have hrunning : ∀ r ∈ loopAtWork task kinds x n, r.stepName = x →
      r.isPlaceholder = true ∧ r.status = .running := fun r hr hname =>
    h.running r hr (hself r hr hname) hname
  have hloops : LoopRows task (loopAtWork task kinds x n) := by
    refine ⟨h.keyed, fun name hname => ?_, fun r hr hne => ?_, fun r hr p hsource => ?_,
      fun r hr p hsource q hq hqname => ?_⟩
    · exact ⟨_, List.mem_append_left _ (List.mem_map_of_mem hname), rfl, rfl⟩
    · obtain ⟨p, hsource⟩ := Option.ne_none_iff_exists'.mp hne
      exact (h.index r hr p hsource).2.1
    · obtain ⟨rfl, -, -, i, hi, hiname, hindex, -⟩ := h.index r hr p hsource
      exact ⟨hkey, i, by omega, hiname, hindex⟩
    · obtain rfl := (h.index r hr p hsource).1
      simp [(hrunning q hq hqname).2]
  refine ⟨⟨hloops, fun r hr hnone => ?_, fun r hr p hsource q hq hqname => ?_,
    fun r hr p k hsource hname j hj => ?_, fun r hr hph _ => ?_, fun r hr p hsource hpend => ?_,
    fun q hq hph hterm => ?_, fun r hr hph => ?_, fun r hr hclaimed => ?_⟩,
    h.inOrder hloops hmax, h.whole, fun r hr => ?_, fun r hr hph => ?_⟩
  · rcases mem_loopAtWork hr with ⟨-, hname, -⟩ | ⟨hsome, -⟩
    · exact hname
    · rw [hsome] at hnone
      cases hnone
  · obtain rfl := (h.index r hr p hsource).1
    exact (hrunning q hq hqname).1
  · obtain ⟨rfl, -, -, i, hi, hiname, -⟩ := h.index r hr p hsource
    obtain ⟨-, rfl⟩ := instanceName_inj (hiname.symm.trans hname)
    obtain ⟨a, ha, hsource', haname, -⟩ := h.get (i := j) (by omega)
    exact ⟨a, ha, hsource', haname⟩
  · rw [hplace r hr hph]
    obtain ⟨a, ha, hsource, -⟩ := h.get hpos
    exact ⟨a, ha, hsource⟩
  · obtain ⟨rfl, -, -, i, hi, hiname, -, hstatus⟩ := h.index r hr p hsource
    refine ⟨hseq, fun hzero => ?_⟩
    obtain ⟨-, rfl⟩ := instanceName_inj (hiname.symm.trans hzero)
    rw [hpend] at hstatus
    cases hstatus
  · rw [(hrunning q hq (hplace q hq hph)).2] at hterm
    cases hterm
  · exact .inr (.inl (hrunning r hr (hplace r hr hph)).2)
  · rcases mem_loopAtWork hr with ⟨-, -, -, -, hstatus⟩ | ⟨-, -, -, i, -, -, -, hstatus⟩
    · rw [hclaimed] at hstatus
      split at hstatus <;> cases hstatus
    · rw [hclaimed, released, if_neg (Nat.not_lt_zero i)] at hstatus
      split at hstatus <;> cases hstatus
  · intro _
    rcases mem_loopAtWork hr with ⟨hnone, -, hkind, -⟩ | ⟨hsome, -, hkind, -⟩
    · rw [hkind, flowKey, hnone]
      rfl
    · rw [hkind, flowKey, hsome]
      exact htask.symm
  · rw [hplace r hr hph]
    exact ⟨fs, hx, hforEach⟩

end Flow

def refusing (task : TaskDef) : DispatchEnv where
  env := literalEnv
  task := task
  job := { jobId := 1 }
  workspaceConfig := {}
  snapshots := {}
  order := ⟨id, perm_asRead⟩
  now := 0
  leaseToken _ := 0
  taskOutcome _ := { result := .refused "no such task" }
  approvalOutcome _ := .asked none ""
  deferredOutcome _ := .error "no such action"

/--
The dispatch of the task steps drains every flow without a sequential task loop that goes on after
a failure, and (for up to 9998 steps, since instances are limited) no other.
-/
theorem drains_iff_stopsAtFailure (task : TaskDef) (kinds : String → ActionType)
    (hnames : ∀ name ∈ task.flow.keys, '[' ∉ name.toList) :
    (StopsAtFailure task kinds → Drains task kinds) ∧
      (task.flow.keys.length + 2 ≤ maxForEachItems →
        (Drains task kinds ↔ StopsAtFailure task kinds)) := by
  have hdrains : StopsAtFailure task kinds → Drains task kinds := by
    rintro hstops d db rfl hjob
    exact handleTaskSteps_noneReady hnames hstops hjob
  refine ⟨hdrains, fun hsize => ⟨fun h => ?_, hdrains⟩⟩
  intro x fs hx htask hforEach hsequential
  by_contra hcontinues
  rw [Bool.not_eq_false] at hcontinues
  have hseq : isSequential task x = true := by simp [isSequential, hx, hsequential]
  have hcof : continuesOnFailure task x = true := by simp [continuesOnFailure, hx, hcontinues]
  have hjob : JobRows task kinds (loopAtWork task kinds x (task.flow.keys.length + 2)) :=
    jobRows_loopAtWork hnames hx hforEach hseq htask (by omega) hsize
  have hloop : OneLoop x (task.flow.keys.length + 2) (released 0)
      (loopAtWork task kinds x (task.flow.keys.length + 2)) :=
    oneLoop_loopAtWork hnames (Flow.mem_keys_iff.mpr ⟨fs, hx⟩)
  have hleft : ¬NoneReady .task (handleTaskSteps (refusing task)
      ⟨.running, loopAtWork task kinds x (task.flow.keys.length + 2)⟩) :=
    OneLoop.not_noneReady hloop hsize hseq hcof hnames (fun _ => ⟨"no such task", rfl⟩)
      (Nat.lt_succ_self _)
  exact hleft (h (refusing task) _ rfl hjob)

def deployFlow : TaskDef :=
  ⟨⟨[("hosts", { action := "deploy", forEach := some (.str "[1,2,3]"), continueOnFailure := true }),
      ("report", { action := "notify", dependsOn := [.name "hosts"] })], by decide⟩⟩

def rollingStep : FlowStep where
  action := "deploy"
  forEach := some (.str "[1,2,3]")
  sequential := true
  continueOnFailure := true

def rollingFlow : TaskDef :=
  ⟨⟨[("hosts", rollingStep)], by decide⟩⟩

theorem drains_iff_stopsAtFailure_deployFlow :
    (∀ name ∈ deployFlow.flow.keys, '[' ∉ name.toList) ∧ Drains deployFlow (fun _ => .task) ∧
      (∀ name ∈ rollingFlow.flow.keys, '[' ∉ name.toList) ∧
      ¬Drains rollingFlow (fun _ => .task) := by
  have hdeploy : ∀ name ∈ deployFlow.flow.keys, '[' ∉ name.toList := by decide
  have hrolling : ∀ name ∈ rollingFlow.flow.keys, '[' ∉ name.toList := by decide
  refine ⟨hdeploy, (drains_iff_stopsAtFailure deployFlow _ hdeploy).1 ?_, hrolling, fun h => ?_⟩
  · intro name fs hfs _ _ hseq
    have hmem := Flow.mem_entries_of_get hfs
    simp only [deployFlow, List.mem_cons, Prod.mk.injEq, List.not_mem_nil, or_false] at hmem
    rcases hmem with ⟨-, rfl⟩ | ⟨-, rfl⟩ <;> cases hseq
  · have hstops := ((drains_iff_stopsAtFailure rollingFlow _ hrolling).2 (by decide)).mp h
    cases hstops "hosts" rollingStep rfl rfl rfl rfl

/-- A new job of `rollingFlow` with three hosts: when all are refused, the last one is left. -/
theorem rollingFlow_leaves_ready :
    ∃ db, execute (refusing rollingFlow)
        ⟨.pending, [{ stepName := "hosts", actionType := .task, forEachExpr := some "[1,2,3]" }]⟩ =
          some db ∧
      ¬NoneReady .task (handleTaskSteps (refusing rollingFlow) db) := by
  refine ⟨_, rfl, ?_⟩
  decide

end Stroem.Dispatch
