import Stroem.Cascade.Order
import Stroem.Engine.Plans

/-!
# Plans over rows in another order

A plan is applied as its changes one by one, whatever statements they are grouped into.
Changes about different rows may change places, so the plans of two runs over the same rows in
different orders do the same to the database: both are refused, or both leave the same rows.
-/

namespace Stroem.Engine

open Foundation JobStepRepo Cascade

/-! ## One change on the database -/

def statement (now : Time) : Change → Update JobStepRow
  | .promote step => promoteStepsTx [step] now
  | .skip step reason => skipStepsTx [step] reason.asStr now
  | .fail step error => failPendingStepTx step error now
  | .expand placeholder _ => startPlaceholderTx placeholder now
  | .adopt placeholder => startPlaceholderTx placeholder now
  | .rollup placeholder (.completed output) => completePlaceholderTx placeholder output now
  | .rollup placeholder (.failed error output) =>
    failPlaceholderTx placeholder error output now

theorem statement_guard (now : Time) (c : Change) (r : JobStepRow) :
    (statement now c).guard r = (decide (r.stepName = c.target) && r.status == asks c) := by
  rw [Bool.eq_iff_iff]
  simp only [Bool.and_eq_true, decide_eq_true_eq, beq_iff_eq]
  cases c with
  | promote step => simp [statement, promoteStepsTx, Change.target, asks]
  | skip step reason => simp [statement, skipStepsTx, Change.target, asks]
  | fail step error => simp [statement, failPendingStepTx, Change.target, asks]
  | expand p instances | adopt p => simp [statement, startPlaceholderTx, Change.target, asks]
  | rollup p outcome =>
    cases outcome <;>
      simp [statement, completePlaceholderTx, failPlaceholderTx, Change.target, asks]

@[simp] theorem statement_set_stepName (now : Time) (c : Change) (r : JobStepRow) :
    ((statement now c).set r).stepName = r.stepName := by
  cases c with
  | rollup p outcome => cases outcome <;> rfl
  | _ => rfl

theorem statement_set_status (now : Time) (c : Change) (r : JobStepRow) :
    ((statement now c).set r).status = (c.setRow r).status := by
  cases c with
  | rollup p outcome => cases outcome <;> rfl
  | _ => rfl

structure Takes (now : Time) (c : Change) (rows rows' : List JobStepRow) : Prop where
  found : ∃ r ∈ rows, (statement now c).guard r = true
  few : colsPerRow * (newSteps c).length ≤ maxBinds
  keyed : Keyed JobStepRow.stepName rows'
  rows : rows' = (statement now c).run rows ++ (newSteps c).map (insertedRow now)

section Single

variable {now : Time} {c : Change} {rows rows' : List JobStepRow}

theorem statement_keyed (hk : Keyed JobStepRow.stepName rows) :
    Keyed JobStepRow.stepName ((statement now c).run rows) :=
  hk.updateWhere (by simp)

theorem statement_names (now : Time) (c : Change) (rows : List JobStepRow) :
    ((statement now c).run rows).map JobStepRow.stepName = rows.map JobStepRow.stepName := by
  unfold Update.run updateWhere
  rw [List.map_map]
  refine List.map_congr_left fun r _ => ?_
  simp only [Function.comp_apply]
  split <;> simp

theorem runExpecting_statement (hk : Keyed JobStepRow.stepName rows) (step : String) :
    runExpecting (statement now c) 1 step rows = .ok rows' ↔
      (∃ r ∈ rows, (statement now c).guard r = true) ∧ rows' = (statement now c).run rows := by
  unfold runExpecting
  constructor
  · intro h
    split at h
    case isTrue hcount =>
      refine ⟨?_, (Except.ok.inj h).symm⟩
      have hpos : 0 < (statement now c).rowsAffected rows := by omega
      exact List.countP_pos_iff.mp hpos
    case isFalse => cases h
  · rintro ⟨⟨r, hr, hmeets⟩, rfl⟩
    rw [if_pos]
    refine hk.rowsAffected_eq_one (fun a ha => ?_) hr hmeets
    rw [statement_guard, Bool.and_eq_true, decide_eq_true_eq] at ha hmeets
    exact ha.1.trans hmeets.1.symm

theorem takes_iff_of_newSteps_nil (hk : Keyed JobStepRow.stepName rows)
    (hnew : newSteps c = []) :
    Takes now c rows rows' ↔ (∃ r ∈ rows, (statement now c).guard r = true) ∧
      rows' = (statement now c).run rows := by
  constructor
  · intro h
    exact ⟨h.found, by simpa [hnew] using h.rows⟩
  · rintro ⟨hfound, rfl⟩
    exact ⟨hfound, by simp [hnew], statement_keyed hk, by simp [hnew]⟩

theorem createStepsTx_ok_iff (hk : Keyed JobStepRow.stepName rows) {steps : List NewJobStep} :
    createStepsTx steps now rows = .ok rows' ↔ colsPerRow * steps.length ≤ maxBinds ∧
      Keyed JobStepRow.stepName rows' ∧ rows' = rows ++ steps.map (insertedRow now) := by
  constructor
  · intro h
    obtain ⟨heq, hkeyed⟩ := createStepsTx_ok h
    refine ⟨?_, hkeyed hk, heq⟩
    unfold createStepsTx at h
    split at h
    case isTrue hempty => simp [List.isEmpty_iff.mp hempty]
    case isFalse =>
      split at h
      · cases h
      · omega
  · rintro ⟨hfew, hkeyed, rfl⟩
    unfold createStepsTx insertAll
    split
    case isTrue hempty => simp [List.isEmpty_iff.mp hempty]
    case isFalse =>
      have hnodup : ((rows ++ steps.map (insertedRow now)).map JobStepRow.stepName).Nodup := hkeyed
      rw [if_neg (by omega), if_pos hnodup]

theorem applySingle_ok_iff (hk : Keyed JobStepRow.stepName rows) :
    applySingle now rows c = .ok rows' ↔ Takes now c rows rows' := by
  cases c with
  | expand p instances =>
    have hstart : ∀ {rows₁}, runExpecting (startPlaceholderTx p now) 1 p rows = .ok rows₁ ↔
        (∃ r ∈ rows, (statement now (.expand p instances)).guard r = true) ∧
          rows₁ = (statement now (.expand p instances)).run rows :=
      runExpecting_statement (c := .expand p instances) hk p
    have hkeyed : Keyed JobStepRow.stepName ((startPlaceholderTx p now).run rows) :=
      statement_keyed (c := .expand p instances) hk
    simp only [applySingle]
    constructor
    · intro h
      split at h
      · cases h
      case h_2 rows₁ hrun =>
        obtain ⟨hfound, rfl⟩ := hstart.mp hrun
        split at h
        · cases h
        case h_2 rows₂ hcreate =>
          cases h
          obtain ⟨hfew, hk', hrows⟩ := (createStepsTx_ok_iff hkeyed).mp hcreate
          exact ⟨hfound, hfew, hk', hrows⟩
    · intro h
      have hcreate : createStepsTx instances now ((startPlaceholderTx p now).run rows) =
          .ok rows' := (createStepsTx_ok_iff hkeyed).mpr ⟨h.few, h.keyed, h.rows⟩
      rw [hstart.mpr ⟨h.found, rfl⟩]
      simp only
      rw [show (statement now (.expand p instances)).run rows =
        (startPlaceholderTx p now).run rows from rfl, hcreate]
  | rollup p outcome =>
    rw [takes_iff_of_newSteps_nil hk rfl, ← runExpecting_statement hk p]
    cases outcome <;> exact Iff.rfl
  | promote step | skip step reason | fail step error =>
    rw [takes_iff_of_newSteps_nil hk rfl, ← runExpecting_statement hk step]
    exact Iff.rfl
  | adopt p =>
    rw [takes_iff_of_newSteps_nil hk rfl, ← runExpecting_statement hk p]
    exact Iff.rfl

/-! ## Changes that change places -/

theorem Takes.names (h : Takes now c rows rows') :
    rows'.map JobStepRow.stepName =
      rows.map JobStepRow.stepName ++ (newSteps c).map NewJobStep.stepName := by
  rw [h.rows, List.map_append, statement_names, List.map_map]
  rfl

theorem Takes.congr {s : List JobStepRow} (hs : rows.Perm s) (h : Takes now c rows rows') :
    ∃ s', Takes now c s s' ∧ rows'.Perm s' := by
  have hperm : rows'.Perm ((statement now c).run s ++ (newSteps c).map (insertedRow now)) := by
    rw [h.rows]
    exact (hs.map _).append_right _
  refine ⟨_, ⟨?_, h.few, ?_, rfl⟩, hperm⟩
  · obtain ⟨r, hr, hguard⟩ := h.found
    exact ⟨r, hs.mem_iff.mp hr, hguard⟩
  · exact (hperm.map _).nodup_iff.mp h.keyed

end Single

section Swap

variable {now : Time} {c c' : Change} {rows mid last : List JobStepRow}

theorem statement_run_append (u : Update JobStepRow) (xs ys : List JobStepRow) :
    u.run (xs ++ ys) = u.run xs ++ u.run ys := by
  simp [Update.run]

theorem statement_run_of_ne {new : List JobStepRow}
    (h : ∀ r ∈ new, r.stepName ≠ c.target) : (statement now c).run new = new := by
  refine updateWhere_eq_self fun r hr => ?_
  rw [statement_guard]
  simp [h r hr]

theorem statement_onRow_of_ne {r : JobStepRow} (now : Time) (h : r.stepName ≠ c.target) :
    (statement now c).onRow r = r := by
  rw [Update.onRow, statement_guard]
  simp [h]

@[simp] theorem statement_onRow_stepName (now : Time) (c : Change) (r : JobStepRow) :
    ((statement now c).onRow r).stepName = r.stepName := by
  unfold Update.onRow
  split <;> simp

theorem statement_run_comm (hne : c.target ≠ c'.target) (rows : List JobStepRow) :
    (statement now c').run ((statement now c).run rows) =
      (statement now c).run ((statement now c').run rows) := by
  have hrun : ∀ (u : Update JobStepRow) (l : List JobStepRow), u.run l = l.map u.onRow :=
    fun _ _ => rfl
  simp only [hrun, List.map_map]
  refine List.map_congr_left fun r _ => ?_
  simp only [Function.comp_apply]
  by_cases ht : r.stepName = c.target
  · have ht' : r.stepName ≠ c'.target := fun h => hne (ht.symm.trans h)
    have hoff : ((statement now c).onRow r).stepName ≠ c'.target := by simpa using ht'
    rw [statement_onRow_of_ne now ht', statement_onRow_of_ne now hoff]
  · have hoff : ((statement now c').onRow r).stepName ≠ c.target := by simpa using ht
    rw [statement_onRow_of_ne now ht, statement_onRow_of_ne now hoff]

theorem Takes.swap (hne : c.target ≠ c'.target) (hold : ∃ r ∈ rows, r.stepName = c'.target)
    (h : Takes now c rows mid) (h' : Takes now c' mid last) :
    ∃ mid' both, last = both ++ (newSteps c ++ newSteps c').map (insertedRow now) ∧
      Takes now c' rows mid' ∧
      Takes now c mid' (both ++ (newSteps c' ++ newSteps c).map (insertedRow now)) := by
  obtain ⟨r₀, hr₀, hname₀⟩ := hold
  have hnames := h'.names
  rw [h.names] at hnames
  have hnodup := h'.keyed
  unfold Keyed at hnodup
  rw [hnames] at hnodup
  obtain ⟨hfirst, -, hacross⟩ := List.nodup_append.mp hnodup
  obtain ⟨hrows, hins, hcross⟩ := List.nodup_append.mp hfirst
  -- the instances of the first change are not the row of the second, nor the other way round
  have hins' : ∀ r ∈ (newSteps c).map (insertedRow now), r.stepName ≠ c'.target := by
    intro r hr heq
    obtain ⟨i, hi, rfl⟩ := List.mem_map.mp hr
    exact hcross _ (List.mem_map_of_mem hr₀) _ (List.mem_map_of_mem hi) (hname₀.trans heq.symm)
  obtain ⟨r₁, hr₁, hguard₁⟩ := h.found
  have hguard := hguard₁
  rw [statement_guard, Bool.and_eq_true, decide_eq_true_eq] at hguard
  have hins₁ : ∀ r ∈ (newSteps c').map (insertedRow now), r.stepName ≠ c.target := by
    intro r hr heq
    obtain ⟨i, hi, rfl⟩ := List.mem_map.mp hr
    exact hacross _ (List.mem_append_left _ (List.mem_map_of_mem hr₁)) _
      (List.mem_map_of_mem hi) (hguard.1.trans heq.symm)
  have hlast : last = (statement now c').run ((statement now c).run rows) ++
      (newSteps c ++ newSteps c').map (insertedRow now) := by
    rw [h'.rows, h.rows, statement_run_append, statement_run_of_ne hins', List.append_assoc,
      List.map_append]
  refine ⟨_, _, hlast, ⟨?_, h'.few, ?_, rfl⟩, ⟨?_, h.few, ?_, ?_⟩⟩
  · -- the second change finds its row as it was
    obtain ⟨r', hr', hguard'⟩ := h'.found
    have hname' := hguard'
    rw [statement_guard, Bool.and_eq_true, decide_eq_true_eq] at hname'
    rw [h.rows] at hr'
    rcases List.mem_append.mp hr' with hr' | hr'
    · obtain ⟨a, ha, rfl⟩ : ∃ a ∈ rows, (statement now c).onRow a = r' := Update.mem_run.mp hr'
      have hane : a.stepName ≠ c.target := by
        intro hat
        exact hne (hat.symm.trans (by simpa using hname'.1))
      rw [statement_onRow_of_ne now hane] at hguard'
      exact ⟨a, ha, hguard'⟩
    · exact absurd hname'.1 (hins' r' hr')
  · unfold Keyed
    rw [List.map_append, statement_names, List.map_map]
    exact List.Nodup.sublist (List.Sublist.append (List.sublist_append_left _ _)
      (List.Sublist.refl _)) hnodup
  · have hr₁ne : r₁.stepName ≠ c'.target := fun h => hne (hguard.1.symm.trans h)
    refine ⟨r₁, List.mem_append_left _ (Update.mem_run.mpr ⟨r₁, hr₁, ?_⟩), hguard₁⟩
    exact statement_onRow_of_ne now hr₁ne
  · have hperm : ((statement now c').run ((statement now c).run rows) ++
        (newSteps c' ++ newSteps c).map (insertedRow now)).Perm last := by
      rw [hlast]
      exact (List.perm_append_comm.map _).append_left _
    exact (hperm.map _).nodup_iff.mpr h'.keyed
  · rw [statement_run_append, statement_run_of_ne hins₁, statement_run_comm hne,
      List.append_assoc, List.map_append]

theorem Takes.swap_simple (hc : newSteps c = [] ∧ asks c = .pending)
    (hc' : newSteps c' = [] ∧ asks c' = .pending) (h : Takes now c rows mid)
    (h' : Takes now c' mid last) : ∃ mid', Takes now c' rows mid' ∧ Takes now c mid' last := by
  obtain ⟨r', hr', hguard'⟩ := h'.found
  rw [statement_guard, Bool.and_eq_true, decide_eq_true_eq, beq_iff_eq, hc'.2] at hguard'
  have hrows := h.rows
  rw [hc.1, List.map_nil, List.append_nil] at hrows
  rw [hrows] at hr'
  obtain ⟨a, ha, rfl⟩ : ∃ a ∈ rows, (statement now c).onRow a = r' := Update.mem_run.mp hr'
  have hname : a.stepName = c'.target := by simpa using hguard'.1
  -- the row of the first change is no longer pending, so the second has another
  have hne : c.target ≠ c'.target := by
    intro heq
    by_cases hg : (statement now c).guard a = true
    · have hpend := hguard'.2
      rw [Update.onRow, if_pos hg, statement_set_status] at hpend
      exact c.setRow_status_ne_pending a hpend
    · have hpend := hguard'.2
      rw [Update.onRow, if_neg hg] at hpend
      refine hg ?_
      rw [statement_guard]
      simp [hname, heq, hpend, hc.2]
  obtain ⟨mid', both, hlast, hsecond, hfirst⟩ := h.swap hne ⟨a, ha, hname⟩ h'
  refine ⟨mid', hsecond, ?_⟩
  rw [hc.1, hc'.1] at hlast hfirst
  rw [hlast]
  exact hfirst

end Swap

/-! ## A plan as its changes, one by one -/

section Groups

variable {now : Time} {rows rows' : List JobStepRow}

theorem plays_keyed {cs : List Change} (hk : Keyed JobStepRow.stepName rows)
    (h : Plays (Takes now) cs rows rows') : Keyed JobStepRow.stepName rows' := by
  induction h with
  | nil => exact hk
  | cons htakes _ ih => exact ih htakes.keyed

theorem plays_names {cs : List Change} (h : Plays (Takes now) cs rows rows') :
    rows'.map JobStepRow.stepName =
      rows.map JobStepRow.stepName ++ (cs.flatMap newSteps).map NewJobStep.stepName := by
  induction h with
  | nil => simp
  | cons htakes _ ih =>
    rw [ih, htakes.names, List.flatMap_cons, List.map_append, List.append_assoc]

theorem plays_map_iff {mk : String → Change} {f : JobStepRow → JobStepRow}
    (htarget : ∀ n, (mk n).target = n) (hmk : ∀ n, newSteps (mk n) = [] ∧ asks (mk n) = .pending)
    (hset : ∀ n r, (statement now (mk n)).set r = f r) (names : List String)
    (hk : Keyed JobStepRow.stepName rows) :
    Plays (Takes now) (names.map mk) rows rows' ↔ names.Nodup ∧
      (∀ n ∈ names, ∃ r ∈ rows, r.stepName = n ∧ r.status = .pending) ∧
      rows' = updateWhere (fun r => decide (r.stepName ∈ names) && r.status == .pending) f
        rows := by
  have hname : ∀ r, (f r).stepName = r.stepName := by
    intro r
    rw [← hset "" r, statement_set_stepName]
  have hmoved : ∀ r, (f r).status ≠ .pending := by
    intro r
    rw [← hset "" r, statement_set_status]
    exact (mk "").setRow_status_ne_pending r
  induction names generalizing rows with
  | nil =>
    rw [List.map_nil, plays_nil_iff]
    simp [updateWhere]
  | cons n names ih =>
    have hguard : ∀ r, (statement now (mk n)).guard r = true ↔
        r.stepName = n ∧ r.status = .pending := by
      intro r
      simp [statement_guard, htarget, (hmk n).2]
    have hon : ∀ r, (statement now (mk n)).onRow r =
        if r.stepName = n ∧ r.status = .pending then f r else r := by
      intro r
      unfold Update.onRow
      simp only [hguard, hset]
    -- what is still pending afterwards was pending before, under another name
    have hstill : ∀ m, (∃ a ∈ (statement now (mk n)).run rows, a.stepName = m ∧
        a.status = .pending) ↔ m ≠ n ∧ ∃ r ∈ rows, r.stepName = m ∧ r.status = .pending := by
      intro m
      constructor
      · rintro ⟨a, ha, ham, hpend⟩
        obtain ⟨r, hr, rfl⟩ : ∃ r ∈ rows, (statement now (mk n)).onRow r = a :=
          Update.mem_run.mp ha
        rw [hon] at ham hpend
        split at hpend
        · exact absurd hpend (hmoved r)
        case isFalse hne =>
          rw [if_neg hne] at ham
          exact ⟨fun hmn => hne ⟨ham.trans hmn, hpend⟩, r, hr, ham, hpend⟩
      · rintro ⟨hmn, r, hr, hrm, hpend⟩
        refine ⟨r, Update.mem_run.mpr ⟨r, hr, ?_⟩, hrm, hpend⟩
        exact (hon r).trans (if_neg fun h => hmn (hrm.symm.trans h.1))
    have hrows : updateWhere (fun r => decide (r.stepName ∈ names) && r.status == .pending) f
        ((statement now (mk n)).run rows) =
        updateWhere (fun r => decide (r.stepName ∈ n :: names) && r.status == .pending) f
          rows := by
      unfold Update.run updateWhere
      rw [List.map_map]
      refine List.map_congr_left fun r _ => ?_
      have honr := hon r
      unfold Update.onRow at honr
      simp only [Function.comp_apply, honr]
      by_cases hr : r.stepName = n ∧ r.status = .pending
      · simp [hr.1, hr.2, hmoved]
      · rw [if_neg hr]
        by_cases hpend : r.status = .pending
        · have hne : r.stepName ≠ n := fun h => hr ⟨h, hpend⟩
          simp [hpend, hne]
        · simp [hpend]
    rw [List.map_cons, plays_cons_iff]
    simp only [takes_iff_of_newSteps_nil hk (hmk n).1, hguard]
    constructor
    · rintro ⟨t, ⟨hfound, rfl⟩, hplays⟩
      obtain ⟨hnodup, hpending, rfl⟩ := (ih (statement_keyed hk)).mp hplays
      refine ⟨List.nodup_cons.mpr ⟨fun hmem => ?_, hnodup⟩, fun m hm => ?_, hrows⟩
      · exact ((hstill n).mp (hpending n hmem)).1 rfl
      · rcases List.mem_cons.mp hm with rfl | hm
        · exact hfound
        · exact ((hstill m).mp (hpending m hm)).2
    · rintro ⟨hnodup, hpending, rfl⟩
      obtain ⟨hnot, hnodup⟩ := List.nodup_cons.mp hnodup
      refine ⟨_, ⟨hpending n List.mem_cons_self, rfl⟩, (ih (statement_keyed hk)).mpr
        ⟨hnodup, fun m hm => (hstill m).mpr ⟨fun hmn => hnot (hmn ▸ hm), ?_⟩, hrows.symm⟩⟩
      exact hpending m (List.mem_cons_of_mem n hm)

theorem runExpecting_bulk_iff {mk : String → Change} {u : Update JobStepRow}
    {names : List String} {step : String}
    (hguard : u.guard = fun r => decide (r.stepName ∈ names) && r.status == .pending)
    (htarget : ∀ n, (mk n).target = n) (hmk : ∀ n, newSteps (mk n) = [] ∧ asks (mk n) = .pending)
    (hset : ∀ n r, (statement now (mk n)).set r = u.set r)
    (hk : Keyed JobStepRow.stepName rows) :
    runExpecting u names.length step rows = .ok rows' ↔
      Plays (Takes now) (names.map mk) rows rows' := by
  rw [plays_map_iff htarget hmk hset names hk]
  have hcount : u.rowsAffected rows = names.length ↔ names.Nodup ∧
      ∀ n ∈ names, ∃ r ∈ rows, r.stepName = n ∧ r.status = .pending := by
    rw [Update.rowsAffected, hguard]
    constructor
    · intro h
      refine ⟨Keyed.nodup_of_affected hk h, fun n hn => ?_⟩
      simpa using Keyed.exists_of_affected hk h n hn
    · rintro ⟨hnodup, hpending⟩
      exact hk.affected_eq_length hnodup fun n hn => by simpa using hpending n hn
  unfold runExpecting
  rw [← and_assoc, ← hcount, ← hguard]
  constructor
  · intro h
    split at h
    case isTrue heq => exact ⟨heq, (Except.ok.inj h).symm⟩
    case isFalse => cases h
  · rintro ⟨heq, rfl⟩
    rw [if_pos heq]
    rfl

theorem runBuckets_ok_iff (buckets : List (SkipReason × List String))
    (hk : Keyed JobStepRow.stepName rows) :
    runBuckets now buckets rows = .ok rows' ↔
      Plays (Takes now) (bucketChanges buckets) rows rows' := by
  induction buckets generalizing rows with
  | nil =>
    rw [bucketChanges, List.flatMap_nil, plays_nil_iff]
    exact ⟨fun h => (Except.ok.inj h).symm, fun h => congrArg Except.ok h.symm⟩
  | cons b buckets ih =>
    obtain ⟨reason, names⟩ := b
    have hfirst : ∀ {mid}, runExpecting (skipStepsTx names reason.asStr now) names.length
        (",".intercalate names) rows = .ok mid ↔
          Plays (Takes now) (names.map fun n => .skip n reason) rows mid :=
      runExpecting_bulk_iff rfl (fun _ => rfl) (fun _ => ⟨rfl, rfl⟩) (fun _ _ => rfl) hk
    have hcons : bucketChanges ((reason, names) :: buckets) =
        names.map (fun n => .skip n reason) ++ bucketChanges buckets := rfl
    rw [hcons, plays_append_iff, runBuckets]
    constructor
    · intro h
      split at h
      · cases h
      case h_2 mid hrun =>
        have hplays := hfirst.mp hrun
        exact ⟨mid, hplays, (ih (plays_keyed hk hplays)).mp h⟩
    · rintro ⟨mid, hplays, hrest⟩
      rw [hfirst.mpr hplays]
      exact (ih (plays_keyed hk hplays)).mpr hrest

theorem plays_skips_perm {cs ds : List Change} (hperm : cs.Perm ds)
    (hskips : ∀ c ∈ cs, newSteps c = [] ∧ asks c = .pending)
    (h : Plays (Takes now) cs rows rows') : Plays (Takes now) ds rows rows' := by
  obtain ⟨u, hu, rfl⟩ := Plays.reorder (eq_equivalence : Equivalence (@Eq (List JobStepRow)))
    (fun _ => True) cs (fun _ _ _ _ _ => trivial)
    (fun c s s' t heq hstep => ⟨t, heq ▸ hstep, rfl⟩)
    (fun c hc c' hc' s t v _ hct hcv => by
      obtain ⟨mid', hsecond, hfirst⟩ := hct.swap_simple (hskips c hc) (hskips c' hc') hcv
      exact ⟨mid', v, hsecond, hfirst, rfl⟩) hperm (fun _ hc => hc) trivial h
  exact hu

theorem applyGroup_ok_iff (group : Group) (hk : Keyed JobStepRow.stepName rows) :
    applyGroup now rows group = .ok rows' ↔ Plays (Takes now) group.changes rows rows' := by
  cases group with
  | promotes names =>
    exact runExpecting_bulk_iff rfl (fun _ => rfl) (fun _ => ⟨rfl, rfl⟩) (fun _ _ => rfl) hk
  | skips items =>
    have hperm := bucketChanges_skipBuckets items
    have hskips : ∀ c ∈ items.map (fun i => Change.skip i.1 i.2),
        newSteps c = [] ∧ asks c = .pending := by
      intro c hc
      obtain ⟨i, -, rfl⟩ := List.mem_map.mp hc
      exact ⟨rfl, rfl⟩
    rw [applyGroup, runBuckets_ok_iff _ hk]
    constructor
    · exact plays_skips_perm hperm fun c hc => hskips c (hperm.mem_iff.mp hc)
    · exact plays_skips_perm hperm.symm hskips
  | single c =>
    rw [applyGroup, applySingle_ok_iff hk]
    constructor
    · exact fun h => .cons h (.nil _)
    · intro h
      obtain ⟨t, ht, hnil⟩ := plays_cons_iff.mp h
      rwa [plays_nil_iff.mp hnil]

theorem applyGroups_ok_iff (groups : List Group) (hk : Keyed JobStepRow.stepName rows) :
    applyGroups now groups rows = .ok rows' ↔
      Plays (Takes now) (groups.flatMap Group.changes) rows rows' := by
  induction groups generalizing rows with
  | nil =>
    rw [List.flatMap_nil, plays_nil_iff]
    exact ⟨fun h => (Except.ok.inj h).symm, fun h => congrArg Except.ok h.symm⟩
  | cons group groups ih =>
    rw [List.flatMap_cons, plays_append_iff, applyGroups]
    constructor
    · intro h
      split at h
      · cases h
      case h_2 mid hgroup =>
        have hplays := (applyGroup_ok_iff group hk).mp hgroup
        exact ⟨mid, hplays, (ih (plays_keyed hk hplays)).mp h⟩
    · rintro ⟨mid, hplays, hrest⟩
      rw [(applyGroup_ok_iff group hk).mpr hplays]
      exact (ih (plays_keyed hk hplays)).mpr hrest

end Groups

/-! ## Aligned plans do the same -/

section Aligned

variable {now : Time} {rows s u : List JobStepRow}

theorem plays_batch_perm {cs ds : List Change} (hperm : cs.Perm ds)
    (htargets : ∀ c ∈ cs, c.target ∈ rows.map JobStepRow.stepName)
    (hsame : ∀ c ∈ cs, ∀ c' ∈ cs, c.target = c'.target → c = c')
    (h : Plays (Takes now) cs rows u) : ∃ u', Plays (Takes now) ds rows u' ∧ u.Perm u' := by
  refine Plays.reorder (List.Perm.eqv JobStepRow)
    (fun s => ∀ c ∈ cs, c.target ∈ s.map JobStepRow.stepName) cs ?_ ?_ ?_ hperm (fun _ hc => hc)
    htargets h
  · intro c s t hs htakes d hd
    rw [htakes.names]
    exact List.mem_append_left _ (hs d hd)
  · intro c s s' t hs htakes
    exact htakes.congr hs
  · intro c hc c' hc' s t v hs htakes htakes'
    by_cases heq : c.target = c'.target
    · obtain rfl := hsame c hc c' hc' heq
      exact ⟨t, v, htakes, htakes', .refl v⟩
    · obtain ⟨r, hr, hname⟩ := List.mem_map.mp (hs c' hc')
      obtain ⟨mid', both, rfl, hsecond, hfirst⟩ := htakes.swap heq ⟨r, hr, hname⟩ htakes'
      exact ⟨mid', _, hsecond, hfirst, (List.perm_append_comm.map _).append_left _⟩

theorem Aligned.plays {names last : List String} {cs cs' : List Change}
    (ha : Aligned names cs cs' last)
    (hnames : ∀ n ∈ names, n ∈ rows.map JobStepRow.stepName) (hs : rows.Perm s)
    (h : Plays (Takes now) cs rows u) : ∃ u', Plays (Takes now) cs' s u' ∧ u.Perm u' := by
  induction ha generalizing rows s with
  | nil =>
    obtain rfl := plays_nil_iff.mp h
    exact ⟨s, .nil s, hs⟩
  | @cons names mid last batch batch' cs cs' hperm htargets hsame hmid _ ih =>
    obtain ⟨t, hbatch, hrest⟩ := plays_append_iff.mp h
    obtain ⟨t₁, hbatch₁, ht₁⟩ :=
      plays_batch_perm hperm (fun c hc => hnames _ (htargets c hc)) hsame hbatch
    obtain ⟨t₂, hbatch₂, ht₂⟩ := hbatch₁.congr (fun c s s' t hs hc => hc.congr hs) hs
    have hmid' : ∀ n ∈ mid, n ∈ t.map JobStepRow.stepName := by
      intro n hn
      rw [plays_names hbatch]
      rcases hmid n hn with hn | ⟨c, hc, a, ha, rfl⟩
      · exact List.mem_append_left _ (hnames n hn)
      · rw [inserted_eq_newSteps] at ha
        obtain ⟨i, hi, rfl⟩ := List.mem_map.mp ha
        exact List.mem_append_right _ (List.mem_map_of_mem (List.mem_flatMap.mpr ⟨c, hc, hi⟩))
    obtain ⟨u', hrest', hu⟩ := ih hmid' (ht₁.trans ht₂) hrest
    exact ⟨u', plays_append_iff.mpr ⟨t₂, hbatch₂, hrest'⟩, hu⟩

end Aligned

/-! ## Two runs over the same rows -/

def Agree (result result' : Except ApplyError (Applied × JobTables)) : Prop :=
  (∃ e e', result = .error e ∧ result' = .error e') ∨
    ∃ a a' t t', result = .ok (a, t) ∧ result' = .ok (a', t') ∧ t.jobStatus = t'.jobStatus ∧
      t.steps.Perm t'.steps

section Runs

variable {env : TemplateEnv} {task : TaskDef} {job : JobRow} {ws : Option WorkspaceConfig}
  {ss : Snapshots} {rows rows' : List JobStepRow} {plan plan' : Plan}

theorem run_aligned (hperm : rows.Perm rows') (h : Distinct rows) (hnames : TemplateNames rows)
    (hslots : LoopSlots rows) (hrun : Returns env task job ws ss rows plan)
    (hrun' : Returns env task job ws ss rows' plan') :
    (∃ last, Aligned (Snapshot.names rows) plan.changes plan'.changes last) ∨
      ¬InsertsNew rows plan.changes ∧ ¬InsertsNew rows plan'.changes := by
  obtain ⟨fuel, hrun⟩ := hrun
  obtain ⟨fuel', hrun'⟩ := hrun'
  have hplan := hrun (max fuel fuel') (le_max_left _ _)
  have hplan' := hrun' (max fuel fuel') (le_max_right _ _)
  obtain ⟨cs, hcs, rfl⟩ := Option.map_eq_some_iff.mp hplan
  obtain ⟨cs', hcs', rfl⟩ := Option.map_eq_some_iff.mp hplan'
  obtain ⟨f, hf, hmap⟩ := redactChanges_eq_map env ws
  rw [← passBound_perm hperm] at hcs'
  simp only [hmap]
  rcases runLoop_aligned (.of_perm h hperm) hnames hslots hcs hcs' with
    ⟨last, ha⟩ | ⟨hold, hold'⟩
  · exact .inl ⟨last, ha.map hf⟩
  · have hkept : ∀ {cs}, InsertsNew rows (cs.map f) → InsertsNew rows cs := by
      intro cs hnew c hc a ha
      rw [← (hf c).2] at ha
      exact hnew (f c) (List.mem_map_of_mem hc) a ha
    exact .inr ⟨fun hnew => hold (hkept hnew), fun hnew => hold' (hkept hnew)⟩

theorem insertsNew_of_plays {now : Time} {cs : List Change} {s u : List JobStepRow}
    (hs : s.Perm rows) (hk : Keyed JobStepRow.stepName s) (h : Plays (Takes now) cs s u) :
    InsertsNew rows cs := by
  have hnodup := plays_keyed hk h
  unfold Keyed at hnodup
  rw [plays_names h] at hnodup
  intro c hc a ha r hr
  rw [inserted_eq_newSteps] at ha
  obtain ⟨i, hi, rfl⟩ := List.mem_map.mp ha
  exact (List.nodup_append.mp hnodup).2.2 _ (List.mem_map_of_mem (hs.mem_iff.mpr hr)) _
    (List.mem_map_of_mem (List.mem_flatMap.mpr ⟨c, hc, hi⟩))

theorem apply_of_plays {now : Time} {db : JobTables} {u : List JobStepRow}
    (hk : Keyed JobStepRow.stepName db.steps) (h : Plays (Takes now) plan.changes db.steps u) :
    ∃ a, Cascade.apply now db plan = .ok (a, ⟨if plan.changes.any Change.startsJob then
      markRunningIfPending db.jobStatus else db.jobStatus, u⟩) := by
  rw [← flatMap_groupChanges plan.changes] at h
  have hok := (applyGroups_ok_iff (groupChanges plan.changes) hk).mpr h
  exact ⟨_, by rw [Cascade.apply, hok]⟩

theorem apply_error_of_not_plays {now : Time} {db : JobTables}
    (hk : Keyed JobStepRow.stepName db.steps)
    (h : ∀ u, ¬Plays (Takes now) plan.changes db.steps u) :
    ∃ e, Cascade.apply now db plan = .error e := by
  unfold Cascade.apply
  cases hgroups : applyGroups now (groupChanges plan.changes) db.steps with
  | error e => exact ⟨e, rfl⟩
  | ok u =>
    have hplays := (applyGroups_ok_iff (groupChanges plan.changes) hk).mp hgroups
    rw [flatMap_groupChanges] at hplays
    exact absurd hplays (h u)

theorem agree_of_plays {now : Time} {db db' : JobTables}
    (hk : Keyed JobStepRow.stepName db.steps) (hk' : Keyed JobStepRow.stepName db'.steps)
    (hjob : db.jobStatus = db'.jobStatus) (hchanges : plan.changes.Perm plan'.changes)
    (hto : ∀ u, Plays (Takes now) plan.changes db.steps u →
      ∃ u', Plays (Takes now) plan'.changes db'.steps u' ∧ u.Perm u')
    (hback : ∀ u', Plays (Takes now) plan'.changes db'.steps u' →
      ∃ u, Plays (Takes now) plan.changes db.steps u) :
    Agree (Cascade.apply now db plan) (Cascade.apply now db' plan') := by
  by_cases hplays : ∃ u, Plays (Takes now) plan.changes db.steps u
  · obtain ⟨u, hu⟩ := hplays
    obtain ⟨u', hu', hperm⟩ := hto u hu
    obtain ⟨a, ha⟩ := apply_of_plays hk hu
    obtain ⟨a', ha'⟩ := apply_of_plays hk' hu'
    refine .inr ⟨a, a', _, _, ha, ha', ?_, hperm⟩
    rw [hchanges.any_eq, hjob]
  · obtain ⟨e, he⟩ := apply_error_of_not_plays hk fun u hu => hplays ⟨u, hu⟩
    obtain ⟨e', he'⟩ := apply_error_of_not_plays hk' fun u' hu' => hplays (hback u' hu')
    exact .inl ⟨e, e', he, he'⟩

/--
The plans of two runs that read the rows in different orders are both refused, or leave every step
with the same columns and every loop with the same instances.
-/
theorem plans_order_independent (hperm : rows.Perm rows') (h : Distinct rows)
    (hnames : TemplateNames rows) (hslots : LoopSlots rows) :
    (NoCollision rows → (∃ plan, Returns env task job ws ss rows plan) ∧
      ∃ plan', Returns env task job ws ss rows' plan') ∧
    ∀ plan plan', Returns env task job ws ss rows plan →
      Returns env task job ws ss rows' plan' → ∀ (now : Time) (db db' : JobTables),
        db.steps.Perm rows → db'.steps.Perm rows' → db.jobStatus = db'.jobStatus →
          Agree (Cascade.apply now db plan) (Cascade.apply now db' plan') := by
  have h' := distinct_perm hperm h
  refine ⟨fun hno => ?_, fun plan plan' hrun hrun' now db db' hdb hdb' hjob => ?_⟩
  · have hno' : NoCollision rows' := by
      intro r hr hpend hplace a ha i hname
      obtain ⟨b, hb, hbname⟩ := hno r (hperm.mem_iff.mpr hr) hpend hplace a
        (hperm.mem_iff.mpr ha) i hname
      exact ⟨b, hperm.mem_iff.mp hb, hbname⟩
    obtain ⟨cs, -, hreturns, -⟩ := run_ends env task job ws ss h hno
    obtain ⟨cs', -, hreturns', -⟩ := run_ends env task job ws ss h' hno'
    exact ⟨⟨_, hreturns⟩, _, hreturns'⟩
  · have hk : Keyed JobStepRow.stepName db.steps := distinct_perm hdb.symm h
    have hk' : Keyed JobStepRow.stepName db'.steps := distinct_perm hdb'.symm h'
    have hsame : db.steps.Perm db'.steps := hdb.trans (hperm.trans hdb'.symm)
    rcases run_aligned hperm h hnames hslots hrun hrun' with ⟨last, ha⟩ | ⟨hold, hold'⟩
    · have hmem : ∀ n ∈ Snapshot.names rows, n ∈ db.steps.map JobStepRow.stepName :=
        fun n hn => (hdb.map JobStepRow.stepName).mem_iff.mpr hn
      have hmem' : ∀ n ∈ Snapshot.names rows, n ∈ db'.steps.map JobStepRow.stepName :=
        fun n hn => (hsame.map JobStepRow.stepName).mem_iff.mp (hmem n hn)
      refine agree_of_plays hk hk' hjob ha.perm (fun u hu => ?_) fun u' hu' => ?_
      · exact Aligned.plays ha hmem hsame hu
      · obtain ⟨u, hu, -⟩ := Aligned.plays ha.symm hmem' hsame.symm hu'
        exact ⟨u, hu⟩
    · have hbad : ∀ u, ¬Plays (Takes now) plan.changes db.steps u :=
        fun u hu => hold (insertsNew_of_plays hdb hk hu)
      have hbad' : ∀ u, ¬Plays (Takes now) plan'.changes db'.steps u :=
        fun u hu => hold' (insertsNew_of_plays (hdb'.trans hperm.symm) hk' hu)
      obtain ⟨e, he⟩ := apply_error_of_not_plays hk hbad
      obtain ⟨e', he'⟩ := apply_error_of_not_plays hk' hbad'
      exact .inl ⟨e, e', he, he'⟩

end Runs

theorem plans_order_independent_resumedRows :
    ∃ plan plan', Returns literalEnv deliveryFlow { jobId := 1 } (some {}) {} resumedRows plan ∧
      Returns literalEnv deliveryFlow { jobId := 1 } (some {}) {} resumedRows.reverse plan' ∧
      plan.changes.map Change.target = ["hosts[1]", "package", "rollback", "publish", "mirror"] ∧
      plan'.changes.map Change.target =
        ["hosts[1]", "rollback", "package", "mirror", "publish"] ∧
      ∀ (now : Time) (db db' : JobTables), db.steps.Perm resumedRows →
        db'.steps.Perm resumedRows.reverse → db.jobStatus = db'.jobStatus →
          Agree (Cascade.apply now db plan) (Cascade.apply now db' plan') := by
  have hnames : TemplateNames resumedRows := by
    have hall : ∀ r ∈ resumedRows, ∀ r' ∈ resumedRows,
        sanitizedName r.stepName = sanitizedName r'.stepName → r = r' := by decide +kernel
    exact fun r hr r' hr' _ _ => hall r hr r' hr'
  have hslots : LoopSlots resumedRows := by
    have hall : ∀ r ∈ resumedRows, ∀ r' ∈ resumedRows, r.loopSource.isSome = true →
        r.loopSource = r'.loopSource → r.loopIndex.getD 0 = r'.loopIndex.getD 0 → r = r' := by
      decide +kernel
    intro r hr r' hr' p hp hp' heq
    exact hall r hr r' hr' (by rw [hp, Option.isSome_some]) (hp.trans hp'.symm) heq
  obtain ⟨hboth, hagree⟩ := @plans_order_independent literalEnv deliveryFlow { jobId := 1 }
    (some {}) {} _ _ resumedRows.reverse_perm.symm resumedRows_distinct hnames hslots
  obtain ⟨⟨plan, hrun⟩, plan', hrun'⟩ := hboth resumedRows_noCollision
  exact ⟨plan, plan', hrun, hrun',
    hrun.eval 3 (fun p => p.changes.map Change.target) (by decide +kernel),
    hrun'.eval 3 (fun p => p.changes.map Change.target) (by decide +kernel),
    hagree plan plan' hrun hrun'⟩

/-! ### Where the order shows -/

def outputEnv : TemplateEnv where
  renderTemplate template ctx :=
    match template, ctx with
    | "\x7b\x7b a_b.output \x7d\x7d", .obj fields =>
      match Fields.get "a_b" fields with
      | some (.obj entry) => .ok (((Fields.get "output" entry).bind Json.asStr).getD "")
      | _ => .error "Variable `a_b` not found in context"
    | _, _ => .ok template
  fromStr := literalEnv.fromStr
  redactSecretsInStr := literalEnv.redactSecretsInStr

def dashFlow : TaskDef :=
  ⟨⟨[("a-b", { action := "work" }), ("a_b", { action := "work" }),
      ("c", { action := "work", dependsOn := [.name "a-b", .name "a_b"] })], by decide⟩⟩

def dashRows : List JobStepRow :=
  [{ stepName := "a-b", status := .completed, output := some (.str "yes") },
    { stepName := "a_b", status := .completed, output := some (.str "") },
    { stepName := "c", whenCondition := some "\x7b\x7b a_b.output \x7d\x7d" }]

def tiedRows : List JobStepRow :=
  [{ stepName := "p[0]", loopSource := some "p", loopIndex := some 0, status := .completed,
      output := some (.str "first") },
    { stepName := "p[1]", loopSource := some "p", status := .completed,
      output := some (.str "second") },
    { stepName := "p", forEachExpr := some "[1,2,3]", status := .running }]

def doubleRows : List JobStepRow :=
  [{ stepName := "a-b", status := .completed }, { stepName := "a_b", status := .completed },
    { stepName := "a-b", status := .failed }, { stepName := "c" }]

def Leaves {α : Type} (env : TemplateEnv) (task : TaskDef) (rows : List JobStepRow)
    (view : Snapshot → Option α) (x : α) : Prop :=
  ∃ plan, Returns env task { jobId := 1 } (some {}) {} rows plan ∧
    ((Cascade.apply 0 ⟨.running, rows⟩ plan).toOption.bind fun t => view t.2.steps) = some x

/--
The order of the rows shows when two steps share a name in templates, when two instances share
a place in their loop, and when a name occurs twice.
-/
theorem order_shows :
    (Leaves outputEnv dashFlow dashRows (·.status "c") .skipped ∧
      Leaves outputEnv dashFlow dashRows.reverse (·.status "c") .ready) ∧
    (Leaves literalEnv loopFlow tiedRows (fun t => (t.get "p").bind JobStepRow.output)
        (.arr [.str "first", .str "second"]) ∧
      Leaves literalEnv loopFlow tiedRows.reverse (fun t => (t.get "p").bind JobStepRow.output)
        (.arr [.str "second", .str "first"])) ∧
    (Leaves literalEnv dashFlow doubleRows (·.status "c") .skipped ∧
      Leaves literalEnv dashFlow doubleRows.reverse (·.status "c") .ready) := by
  refine ⟨⟨?_, ?_⟩, ⟨?_, ?_⟩, ?_, ?_⟩
  · exact ⟨⟨[.skip "c" .condition]⟩, .of_run 3 (by decide +kernel), by decide⟩
  · exact ⟨⟨[.promote "c"]⟩, .of_run 3 (by decide +kernel), by decide⟩
  · exact ⟨⟨[.rollup "p" (.completed (.arr [.str "first", .str "second"]))]⟩,
      .of_run 3 (by decide +kernel), by decide⟩
  · exact ⟨⟨[.rollup "p" (.completed (.arr [.str "second", .str "first"]))]⟩,
      .of_run 3 (by decide +kernel), by decide⟩
  · exact ⟨⟨[.skip "c" .unreachable]⟩, .of_run 3 (by decide +kernel), by decide⟩
  · exact ⟨⟨[.promote "c"]⟩, .of_run 3 (by decide +kernel), by decide⟩

end Stroem.Engine
