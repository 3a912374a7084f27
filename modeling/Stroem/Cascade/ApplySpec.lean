import Stroem.Cascade.Apply
import Stroem.Cascade.Legality

/-!
# Applying a legal plan

A database whose rows mirror the snapshot keeps mirroring it, statement by statement: a legal
plan never misses a guard, and the only way `apply` can fail is an insert the database refuses.
-/

namespace Stroem.Cascade

open Foundation JobStepRepo

variable {rows : List JobStepRow} {snap : Snapshot} {cs : List Change}

def Mirrors (rows : List JobStepRow) (snap : Snapshot) : Prop :=
  (rows.map JobStepRow.visible).Perm snap.visible

theorem Mirrors.refl_of_perm
    (h : rows.Perm snap) : Mirrors rows snap :=
  h.map _

structure Observes (u : Update JobStepRow) : Prop where
  guard : ∀ r, u.guard r = u.guard r.visible
  set : ∀ r, (u.set r).visible = (u.set r.visible).visible

theorem Mirrors.run {u : Update JobStepRow}
    (h : Mirrors rows snap) (hu : Observes u) : Mirrors (u.run rows) (u.run snap) := by
  have hcommute : ∀ l : List JobStepRow, (u.run l).map JobStepRow.visible =
      (l.map JobStepRow.visible).map
        fun x => (if u.guard x then u.set x else x).visible := by
    intro l
    simp only [Update.run, updateWhere, List.map_map]
    refine List.map_congr_left fun r _ => ?_
    simp only [Function.comp_apply, ← hu.guard r]
    split
    · exact hu.set r
    · rfl
  unfold Mirrors Snapshot.visible
  rw [hcommute, hcommute]
  exact h.map _

theorem Mirrors.rowsAffected
    {u : Update JobStepRow} (h : Mirrors rows snap) (hu : Observes u) :
    u.rowsAffected rows = u.rowsAffected snap := by
  have hcount : ∀ l : List JobStepRow,
      u.rowsAffected l = (l.map JobStepRow.visible).countP u.guard := by
    intro l
    rw [List.countP_map, Update.rowsAffected, affected]
    exact List.countP_congr fun r _ => by simp [← hu.guard r]
  rw [hcount, hcount snap]
  exact h.countP_eq _

theorem Mirrors.of_visible {snap' : Snapshot}
    (h : Mirrors rows snap) (heq : snap.visible = snap'.visible) : Mirrors rows snap' := by
  unfold Mirrors at h ⊢
  rwa [← heq]

theorem Mirrors.append {new : List JobStepRow} {added : Snapshot}
    (h : Mirrors rows snap)
    (hnew : new.map JobStepRow.visible = added.visible) :
    Mirrors (rows ++ new) (snap ++ added) := by
  unfold Mirrors Snapshot.visible at *
  rw [List.map_append, List.map_append, hnew]
  exact h.append_right _

/-! ## Statements that name their rows -/

def setAll (cs : List Change) (r : JobStepRow) : JobStepRow :=
  cs.foldl (fun r c => if r.stepName = c.target then c.setRow r else r) r

@[simp] theorem setAll_stepName (cs : List Change) (r : JobStepRow) :
    (setAll cs r).stepName = r.stepName := by
  induction cs generalizing r with
  | nil => rfl
  | cons c cs ih =>
    simp only [setAll, List.foldl_cons] at ih ⊢
    rw [ih]
    split <;> simp

theorem applyAll_eq_map (h : Distinct snap)
    (hins : ∀ c ∈ cs, c.inserted = []) : snap.applyAll cs = snap.map (setAll cs) := by
  induction cs generalizing snap with
  | nil => exact (List.map_id snap).symm
  | cons c cs ih =>
    have happly : snap.apply c =
        updateWhere (fun r => decide (r.stepName = c.target)) c.setRow snap := by
      rw [Snapshot.apply_eq, Snapshot.modify, h.modifyLast_eq_updateWhere,
        hins c List.mem_cons_self, List.append_nil]
    have hdistinct : Distinct (snap.apply c) := by
      rw [happly]
      exact h.updateWhere (by simp)
    rw [Snapshot.applyAll_cons,
      ih hdistinct fun d hd => hins d (List.mem_cons_of_mem _ hd), happly, updateWhere,
      List.map_map]
    refine List.map_congr_left fun r _ => ?_
    simp [setAll]

theorem setAll_perm {ds : List Change} (h : cs.Perm ds)
    (hsame : ∀ c ∈ cs, ∀ c' ∈ cs, c.target = c'.target → c = c') : setAll cs = setAll ds := by
  funext r
  refine h.foldl_eq' (fun c hc c' hc' z => ?_) r
  by_cases heq : c = c'
  · rw [heq]
  · have htargets : c.target ≠ c'.target := fun hname => heq (hsame c hc c' hc' hname)
    by_cases hz : z.stepName = c.target <;> by_cases hz' : z.stepName = c'.target <;>
      simp_all

theorem setAll_map {mk : String → Change} {f : JobStepRow → JobStepRow}
    (htarget : ∀ n, (mk n).target = n) (hset : ∀ n r, (mk n).setRow r = f r)
    (hidem : ∀ r, f (f r) = f r) (names : List String) (r : JobStepRow) :
    setAll (names.map mk) r = if r.stepName ∈ names then f r else r := by
  have hname : ∀ r, (f r).stepName = r.stepName := by
    intro r
    rw [← hset "" r, Change.setRow_stepName]
  induction names generalizing r with
  | nil => simp [setAll]
  | cons n names ih =>
    simp only [setAll, List.map_cons, List.foldl_cons, htarget, hset] at ih ⊢
    rw [ih]
    by_cases hr : r.stepName = n
    · simp [hr, hname, hidem]
    · simp [hr]

def Change.isSimple : Change → Bool
  | .promote _ | .skip _ _ | .fail _ _ => true
  | .expand _ _ | .adopt _ | .rollup _ _ => false

theorem Change.isSimple_inserted {c : Change} (h : c.isSimple = true) : c.inserted = [] := by
  cases c <;> first | rfl | simp [isSimple] at h

theorem Change.isSimple_accepts {c : Change} (h : c.isSimple = true) (r : JobStepRow) :
    c.accepts r = (r.status == .pending) := by
  cases c <;> first | rfl | simp [isSimple] at h

theorem replays_simple (h : Distinct snap)
    (hsimple : ∀ c ∈ cs, c.isSimple = true) (hrep : replays snap cs = true) :
    (cs.map Change.target).Nodup ∧
      ∀ c ∈ cs, ∃ r ∈ snap, r.stepName = c.target ∧ r.status = .pending := by
  induction cs generalizing snap with
  | nil => simp
  | cons c cs ih =>
    have hc := hsimple c List.mem_cons_self
    simp only [replays, Bool.and_eq_true] at hrep
    obtain ⟨r, hget, haccepts⟩ := (Option.any_eq_true _ _).mp hrep.1
    obtain ⟨hr, hname⟩ := (Snapshot.get_eq_some_iff h).mp hget
    have hmoves := Moves.of_accepts h hr hname haccepts (Change.isSimple_inserted hc)
    rw [Change.isSimple_accepts hc, beq_iff_eq] at haccepts
    obtain ⟨hnodup, hpending⟩ := ih (hmoves.distinct h)
      (fun d hd => hsimple d (List.mem_cons_of_mem _ hd)) hrep.2
    -- a row still pending after this change is another, untouched row
    have hback : ∀ d ∈ cs, ∃ r ∈ snap, r.stepName = d.target ∧ r.status = .pending ∧
        r.stepName ≠ c.target := by
      intro d hd
      obtain ⟨a, ha, haname, hapend⟩ := hpending d hd
      rcases (Snapshot.mem_apply h).mp ha with ⟨a₀, -, -, rfl⟩ | ⟨ha, hne⟩ | ha
      · exact absurd hapend (Change.setRow_status_ne_pending c a₀)
      · exact ⟨a, ha, haname, hapend, hne⟩
      · simp [Change.isSimple_inserted hc] at ha
    refine ⟨?_, ?_⟩
    · rw [List.map_cons, List.nodup_cons]
      refine ⟨fun hmem => ?_, hnodup⟩
      obtain ⟨d, hd, hdt⟩ := List.mem_map.mp hmem
      obtain ⟨a, -, haname, -, hne⟩ := hback d hd
      exact hne (haname.trans hdt)
    · intro d hd
      rcases List.mem_cons.mp hd with rfl | hd
      · exact ⟨r, hr, hname, haccepts⟩
      · obtain ⟨a, ha, haname, hapend, -⟩ := hback d hd
        exact ⟨a, ha, haname, hapend⟩

theorem replays_of_simple (h : Distinct snap)
    (hsimple : ∀ c ∈ cs, c.isSimple = true) (hnodup : (cs.map Change.target).Nodup)
    (hpending : ∀ c ∈ cs, ∃ r ∈ snap, r.stepName = c.target ∧ r.status = .pending) :
    replays snap cs = true := by
  have htargets : cs.Pairwise fun c c' => c.target ≠ c'.target := by
    simpa [List.Nodup, List.pairwise_map] using hnodup
  have haccepts : ∀ c ∈ cs, ∃ r ∈ snap, r.stepName = c.target ∧ c.accepts r = true := by
    intro c hc
    obtain ⟨r, hr, hname, hpend⟩ := hpending c hc
    exact ⟨r, hr, hname, by simp [Change.isSimple_accepts (hsimple c hc), hpend]⟩
  refine replays_of_batch h (fun c hc => ?_) ?_ htargets (fun c hc => ?_)
  · obtain ⟨r, hr, hname, hacc⟩ := haccepts c hc
    exact Moves.of_accepts h hr hname hacc (Change.isSimple_inserted (hsimple c hc))
  · refine htargets.imp_of_mem fun {c c'} hc _ hne => ?_
    exact compatible_of_inserted_nil (Change.isSimple_inserted (hsimple c hc)) (.inl hne)
  · obtain ⟨r, hr, hname, hacc⟩ := haccepts c hc
    have hget := (Snapshot.get_eq_some_iff h).mpr ⟨hr, hname⟩
    simp [Change.legalAt, hget, hacc]

/-! ## One statement at a time -/

def Mirrored (result : Except ApplyError (List JobStepRow)) (snap : Snapshot) : Prop :=
  (∃ rows, result = .ok rows ∧ Mirrors rows snap) ∨ ∃ e, result = .error (.db e)

theorem runExpecting_mirrored {snap' : Snapshot}
    {u : Update JobStepRow} {n : Nat} {step : String} (h : Mirrors rows snap)
    (hu : Observes u) (hcount : u.rowsAffected snap = n)
    (hrun : Snapshot.visible (u.run snap) = snap'.visible) :
    Mirrored (runExpecting u n step rows) snap' := by
  refine .inl ⟨u.run rows, ?_, (h.run hu).of_visible hrun⟩
  rw [runExpecting, h.rowsAffected hu, if_pos hcount]

theorem bulk_spec (u : Update JobStepRow) {names : List String}
    (mk : String → Change) {f : JobStepRow → JobStepRow}
    (hguard : u.guard = fun r => decide (r.stepName ∈ names) && r.status == .pending)
    (hu : ∀ r, (u.set r).visible = (f r).visible) (htarget : ∀ n, (mk n).target = n)
    (hset : ∀ n r, (mk n).setRow r = f r) (hidem : ∀ r, f (f r) = f r)
    (hsimple : ∀ n, (mk n).isSimple = true) (h : Distinct snap)
    (hrep : replays snap (names.map mk) = true) :
    u.rowsAffected snap = names.length ∧
      Snapshot.visible (u.run snap) = (snap.applyAll (names.map mk)).visible := by
  have hall : ∀ c ∈ names.map mk, c.isSimple = true := by
    intro c hc
    obtain ⟨n, -, rfl⟩ := List.mem_map.mp hc
    exact hsimple n
  obtain ⟨hnodup, hpending⟩ := replays_simple h hall hrep
  have hnames : names.Nodup := by
    simpa [Function.comp_def, htarget] using hnodup
  have hpend : ∀ n ∈ names, ∃ r ∈ snap, r.stepName = n ∧ r.status = .pending := by
    intro n hn
    obtain ⟨r, hr, hname, hs⟩ := hpending (mk n) (List.mem_map_of_mem hn)
    exact ⟨r, hr, hname.trans (htarget n), hs⟩
  constructor
  · rw [Update.rowsAffected, hguard]
    exact h.affected_eq_length hnames fun n hn => by simpa using hpend n hn
  · rw [applyAll_eq_map h fun c hc => Change.isSimple_inserted (hall c hc)]
    simp only [Snapshot.visible, Update.run, updateWhere, List.map_map]
    refine List.map_congr_left fun r hr => ?_
    simp only [Function.comp_apply, hguard, setAll_map htarget hset hidem]
    by_cases hmem : r.stepName ∈ names
    · obtain ⟨a, ha, haname, hs⟩ := hpend r.stepName hmem
      obtain rfl : a = r := h.eq_of_key ha hr haname
      simp [hmem, hs, hu]
    · simp [hmem]

theorem single_spec (u : Update JobStepRow) (c : Change) {st : StepStatus}
    (hguard : u.guard = fun r => decide (r.stepName = c.target) && r.status == st)
    (hu : ∀ r, (u.set r).visible = (c.setRow r).visible) (h : Distinct snap)
    (hrow : ∃ r ∈ snap, r.stepName = c.target ∧ r.status = st) :
    u.rowsAffected snap = 1 ∧
      Snapshot.visible (u.run snap) = Snapshot.visible (snap.modify c.target c.setRow) := by
  obtain ⟨r, hr, hname, hs⟩ := hrow
  constructor
  · have hlen := h.affected_eq_length (q := fun r => r.status == st)
      (List.nodup_singleton c.target) (by simpa using ⟨r, hr, hname, hs⟩)
    rw [Update.rowsAffected, hguard]
    simpa using hlen
  · rw [Snapshot.modify, h.modifyLast_eq_updateWhere]
    simp only [Snapshot.visible, Update.run, updateWhere, List.map_map]
    refine List.map_congr_left fun a ha => ?_
    simp only [Function.comp_apply, hguard]
    by_cases hat : a.stepName = c.target
    · obtain rfl : a = r := h.eq_of_key ha hr (hat.trans hname.symm)
      simp [hat, hs, hu]
    · simp [hat]

def Change.Plain : Change → Prop
  | .expand _ instances =>
    ∀ inst ∈ instances, inst.whenCondition = none ∧ inst.forEachExpr = none
  | _ => True

private theorem legalAt_row {c : Change} (h : Distinct snap)
    (hlegal : c.legalAt snap = true) :
    ∃ r ∈ snap, r.stepName = c.target ∧ c.accepts r = true := by
  obtain ⟨r, hget, haccepts⟩ := (Option.any_eq_true _ _).mp hlegal
  obtain ⟨hr, hname⟩ := (Snapshot.get_eq_some_iff h).mp hget
  exact ⟨r, hr, hname, haccepts⟩

private theorem visible_insertedRow (now : Time) {inst : NewJobStep}
    (h : inst.whenCondition = none ∧ inst.forEachExpr = none) :
    (insertedRow now inst).visible = (syntheticRow inst).visible := by
  simp [insertedRow, syntheticRow, JobStepRow.visible, h.1, h.2]

theorem applySingle_mirrored {c : Change}
    (now : Time) (h : Distinct snap) (hmir : Mirrors rows snap)
    (hlegal : c.legalAt snap = true) (hplain : c.Plain) :
    Mirrored (applySingle now rows c) (snap.apply c) := by
  obtain ⟨r, hr, hname, haccepts⟩ := legalAt_row h hlegal
  have hpending : (∀ p o, c ≠ .rollup p o) →
      ∃ r ∈ snap, r.stepName = c.target ∧ r.status = .pending := by
    intro hne
    refine ⟨r, hr, hname, ?_⟩
    cases c <;> first
      | simpa [Change.accepts] using haccepts
      | exact absurd rfl (hne _ _)
  cases c with
  | promote step =>
    obtain ⟨hcount, hrun⟩ := bulk_spec (promoteStepsTx [step] now) .promote
      (f := fun r => { r with status := .ready }) rfl (fun _ => rfl) (fun _ => rfl)
        (fun _ _ => rfl) (fun _ => rfl) (fun _ => rfl) h
      (by simpa [replays] using hlegal)
    exact runExpecting_mirrored hmir ⟨fun _ => rfl, fun _ => rfl⟩ hcount hrun
  | skip step reason =>
    obtain ⟨hcount, hrun⟩ := bulk_spec (skipStepsTx [step] reason.asStr now)
      (fun n => .skip n reason)
      (f := fun r => { r with status := .skipped, skipReason := some reason.asStr })
      rfl (fun _ => rfl) (fun _ => rfl) (fun _ _ => rfl)
      (fun _ => rfl) (fun _ => rfl) h (by simpa [replays] using hlegal)
    exact runExpecting_mirrored hmir ⟨fun _ => rfl, fun _ => rfl⟩ hcount hrun
  | fail step error =>
    obtain ⟨hcount, hrun⟩ := single_spec (failPendingStepTx step error now)
      (.fail step error) rfl (fun _ => rfl) h (hpending (by simp))
    exact runExpecting_mirrored hmir ⟨fun _ => rfl, fun _ => rfl⟩ hcount hrun
  | adopt p =>
    obtain ⟨hcount, hrun⟩ := single_spec (startPlaceholderTx p now)
      (.adopt p) rfl (fun _ => rfl) h (hpending (by simp))
    exact runExpecting_mirrored hmir ⟨fun _ => rfl, fun _ => rfl⟩ hcount hrun
  | rollup p outcome =>
    have hrunning : ∃ r ∈ snap, r.stepName = p ∧ r.status = .running := by
      simp only [Change.accepts, Bool.and_eq_true, beq_iff_eq] at haccepts
      exact ⟨r, hr, hname, haccepts.1⟩
    cases outcome with
    | completed output =>
      obtain ⟨hcount, hrun⟩ := single_spec (completePlaceholderTx p output now)
        (.rollup p (.completed output)) rfl (fun _ => rfl) h hrunning
      exact runExpecting_mirrored hmir ⟨fun _ => rfl, fun _ => rfl⟩ hcount hrun
    | failed error output =>
      obtain ⟨hcount, hrun⟩ := single_spec (failPlaceholderTx p error output now)
        (.rollup p (.failed error output)) rfl (fun _ => rfl) h hrunning
      exact runExpecting_mirrored hmir ⟨fun _ => rfl, fun _ => rfl⟩ hcount hrun
  | expand p instances =>
    obtain ⟨hcount, hrun⟩ := single_spec (startPlaceholderTx p now)
      (.expand p instances) rfl (fun _ => rfl) h (hpending (by simp))
    have hobs : Observes (startPlaceholderTx p now) := ⟨fun _ => rfl, fun _ => rfl⟩
    have hstart := (hmir.run hobs).of_visible hrun
    have hok : runExpecting (startPlaceholderTx p now) 1 p rows =
        .ok ((startPlaceholderTx p now).run rows) := by
      rw [runExpecting, hmir.rowsAffected hobs, if_pos hcount]
    have hnew : (instances.map (insertedRow now)).map JobStepRow.visible =
        Snapshot.visible (instances.map syntheticRow) := by
      simp only [Snapshot.visible, List.map_map]
      exact List.map_congr_left fun inst hinst => visible_insertedRow now (hplain inst hinst)
    simp only [applySingle, hok, createStepsTx]
    rw [Snapshot.apply_eq]
    by_cases hempty : instances.isEmpty
    · simp only [hempty, if_true]
      have hnil : instances = [] := by simpa using hempty
      subst hnil
      exact .inl ⟨_, rfl, by simpa [Change.inserted] using hstart⟩
    · simp only [hempty]
      by_cases hbinds : maxBinds < colsPerRow * instances.length
      · simp only [hbinds, if_true]
        exact .inr ⟨_, rfl⟩
      · simp only [hbinds, if_false]
        by_cases hnodup : (((startPlaceholderTx p now).run rows ++
            instances.map (insertedRow now)).map JobStepRow.stepName).Nodup
        · simp only [insertAll, hnodup, if_true]
          exact .inl ⟨_, rfl, hstart.append hnew⟩
        · simp only [insertAll, hnodup, if_false]
          exact .inr ⟨_, rfl⟩

/-! ## Groups of changes -/

def Group.changes : Group → List Change
  | .promotes names => names.map .promote
  | .skips items => items.map fun i => .skip i.1 i.2
  | .single change => [change]

theorem flatMap_groupChanges (cs : List Change) :
    (groupChanges cs).flatMap Group.changes = cs := by
  induction cs with
  | nil => rfl
  | cons c cs ih =>
    cases c with
    | promote step =>
      simp only [groupChanges]
      split
      next names groups heq =>
        rw [heq] at ih
        simpa [Group.changes] using ih
      next => simpa [Group.changes] using ih
    | skip step reason =>
      simp only [groupChanges]
      split
      next items groups heq =>
        rw [heq] at ih
        simpa [Group.changes] using ih
      next => simpa [Group.changes] using ih
    | _ => simpa [groupChanges, Group.changes] using ih

def bucketChanges (buckets : List (SkipReason × List String)) : List Change :=
  buckets.flatMap fun b => b.2.map fun n => .skip n b.1

private theorem bucketChanges_addToBucket (item : String × SkipReason)
    (buckets : List (SkipReason × List String)) :
    (bucketChanges (addToBucket item buckets)).Perm
      (bucketChanges buckets ++ [.skip item.1 item.2]) := by
  induction buckets with
  | nil => exact List.Perm.refl _
  | cons b buckets ih =>
    obtain ⟨reason, names⟩ := b
    simp only [addToBucket]
    split
    case isTrue heq =>
      subst heq
      simp only [bucketChanges, List.flatMap_cons, List.map_append, List.map_cons,
        List.map_nil, List.append_assoc]
      exact List.Perm.append_left _ List.perm_append_comm
    case isFalse =>
      simp only [bucketChanges, List.flatMap_cons, List.append_assoc] at ih ⊢
      exact List.Perm.append_left _ ih

theorem bucketChanges_skipBuckets (items : List (String × SkipReason)) :
    (bucketChanges (skipBuckets items)).Perm (items.map fun i => .skip i.1 i.2) := by
  have hfold : ∀ buckets, (bucketChanges
      (items.foldl (fun buckets item => addToBucket item buckets) buckets)).Perm
      (bucketChanges buckets ++ items.map fun i => .skip i.1 i.2) := by
    induction items with
    | nil => simp
    | cons item items ih =>
      intro buckets
      refine (ih (addToBucket item buckets)).trans ?_
      have hadd := (bucketChanges_addToBucket item buckets).append_right
        (items.map fun i => Change.skip i.1 i.2)
      simpa [List.append_assoc] using hadd
  simpa [bucketChanges, skipBuckets] using hfold []

theorem runBuckets_mirrored (now : Time)
    {buckets : List (SkipReason × List String)} (h : Distinct snap) (hmir : Mirrors rows snap)
    (hrep : replays snap (bucketChanges buckets) = true) :
    Mirrored (runBuckets now buckets rows) (snap.applyAll (bucketChanges buckets)) := by
  induction buckets generalizing rows snap with
  | nil => exact .inl ⟨rows, rfl, hmir⟩
  | cons b buckets ih =>
    obtain ⟨reason, names⟩ := b
    have hcons : bucketChanges ((reason, names) :: buckets) =
        names.map (fun n => .skip n reason) ++ bucketChanges buckets := rfl
    rw [hcons] at hrep ⊢
    rw [replays_append, Bool.and_eq_true] at hrep
    rw [Snapshot.applyAll_append]
    obtain ⟨hcount, hrun⟩ := bulk_spec (skipStepsTx names reason.asStr now)
      (fun n => .skip n reason)
      (f := fun r => { r with status := .skipped, skipReason := some reason.asStr })
      rfl (fun _ => rfl) (fun _ => rfl) (fun _ _ => rfl) (fun _ => rfl) (fun _ => rfl) h hrep.1
    have hobs : Observes (skipStepsTx names reason.asStr now) := ⟨fun _ => rfl, fun _ => rfl⟩
    have hdistinct : Distinct (snap.applyAll (names.map fun n => .skip n reason)) := by
      rw [applyAll_eq_map h (by simp [Change.inserted])]
      unfold Distinct Keyed
      rwa [List.map_map, show JobStepRow.stepName ∘ setAll _ = JobStepRow.stepName from
        funext fun r => setAll_stepName _ r]
    simp only [runBuckets, runExpecting, hmir.rowsAffected hobs, hcount, if_true]
    exact ih hdistinct ((hmir.run hobs).of_visible hrun) hrep.2

theorem applyGroup_mirrored {group : Group}
    (now : Time) (h : Distinct snap) (hmir : Mirrors rows snap)
    (hrep : replays snap group.changes = true) (hplain : ∀ c ∈ group.changes, c.Plain) :
    Mirrored (applyGroup now rows group) (snap.applyAll group.changes) := by
  cases group with
  | promotes names =>
    obtain ⟨hcount, hrun⟩ := bulk_spec (promoteStepsTx names now) .promote
      (f := fun r => { r with status := .ready }) rfl (fun _ => rfl) (fun _ => rfl)
      (fun _ _ => rfl) (fun _ => rfl) (fun _ => rfl) h hrep
    exact runExpecting_mirrored hmir ⟨fun _ => rfl, fun _ => rfl⟩ hcount hrun
  | skips items =>
    have hperm := bucketChanges_skipBuckets items
    have hsimple : ∀ c ∈ items.map fun i => Change.skip i.1 i.2, c.isSimple = true := by
      intro c hc
      obtain ⟨i, -, rfl⟩ := List.mem_map.mp hc
      rfl
    obtain ⟨hnodup, hpending⟩ := replays_simple h hsimple hrep
    have hbuckets : replays snap (bucketChanges (skipBuckets items)) = true :=
      replays_of_simple h (fun c hc => hsimple c (hperm.mem_iff.mp hc))
        ((hperm.map _).nodup_iff.mpr hnodup) fun c hc => hpending c (hperm.mem_iff.mp hc)
    have hins : ∀ c ∈ items.map fun i => Change.skip i.1 i.2, c.inserted = [] :=
      fun c hc => Change.isSimple_inserted (hsimple c hc)
    have hsame : snap.applyAll (bucketChanges (skipBuckets items)) =
        snap.applyAll (items.map fun i => .skip i.1 i.2) := by
      rw [applyAll_eq_map h hins,
        applyAll_eq_map h fun c hc => hins c (hperm.mem_iff.mp hc),
        setAll_perm hperm.symm fun c hc c' hc' => List.inj_on_of_nodup_map hnodup hc hc']
    have := runBuckets_mirrored now h hmir hbuckets
    rwa [hsame] at this
  | single c =>
    have hlegal : c.legalAt snap = true := by
      simpa [Group.changes, replays] using hrep
    exact applySingle_mirrored now h hmir hlegal (hplain c (by simp [Group.changes]))

theorem applyGroups_mirrored {groups : List Group}
    (now : Time) (h : Distinct snap) (hmir : Mirrors rows snap)
    (hsteps : Steps snap (groups.flatMap Group.changes))
    (hrep : replays snap (groups.flatMap Group.changes) = true)
    (hplain : ∀ c ∈ groups.flatMap Group.changes, c.Plain) :
    Mirrored (applyGroups now groups rows) (snap.applyAll (groups.flatMap Group.changes)) := by
  induction groups generalizing rows snap with
  | nil => exact .inl ⟨rows, rfl, hmir⟩
  | cons group groups ih =>
    rw [List.flatMap_cons] at hsteps hrep hplain ⊢
    rw [replays_append, Bool.and_eq_true] at hrep
    obtain ⟨hfirst, hrest⟩ := hsteps.of_append
    rw [Snapshot.applyAll_append]
    have hgroup := applyGroup_mirrored now h hmir hrep.1
      fun c hc => hplain c (List.mem_append_left _ hc)
    rcases hgroup with ⟨rows', hok, hmir'⟩ | ⟨e, herr⟩
    · simp only [applyGroups, hok]
      exact ih (hfirst.distinct h) hmir' hrest hrep.2
        fun c hc => hplain c (List.mem_append_right _ hc)
    · exact .inr ⟨e, by simp only [applyGroups, herr]⟩

theorem apply_mirrored {db : JobTables} (now : Time) (plan : Plan)
    (h : Distinct snap) (hmir : Mirrors db.steps snap) (hsteps : Steps snap plan.changes)
    (hrep : replays snap plan.changes = true) (hplain : ∀ c ∈ plan.changes, c.Plain) :
    (∃ a db', apply now db plan = .ok (a, db') ∧
      Mirrors db'.steps (snap.applyAll plan.changes)) ∨
    ∃ e, apply now db plan = .error (.db e) := by
  have hgroups := flatMap_groupChanges plan.changes
  have hresult : Mirrored (applyGroups now (groupChanges plan.changes) db.steps)
      (snap.applyAll ((groupChanges plan.changes).flatMap Group.changes)) := by
    apply applyGroups_mirrored now h hmir <;> rwa [hgroups]
  rw [hgroups] at hresult
  rcases hresult with ⟨rows, hok, hmir'⟩ | ⟨e, herr⟩
  · refine .inl ⟨plan.changes.foldl Applied.count {},
      ⟨if plan.changes.any Change.startsJob then markRunningIfPending db.jobStatus
        else db.jobStatus, rows⟩, ?_, hmir'⟩
    simp only [apply, hok]
  · exact .inr ⟨e, by simp only [apply, herr]⟩

/-! ## A plan that was applied was legal -/

theorem Steps.replays (hsteps : Steps snap cs) (hne : ∀ c ∈ cs, ∀ step, c ≠ .promote step) :
    Cascade.replays snap cs = true := by
  induction cs generalizing snap with
  | nil => rfl
  | cons c cs ih =>
    obtain ⟨hmoves, hrest⟩ := hsteps
    obtain ⟨r, hget, haccepts⟩ := hmoves.source
    simp only [Cascade.replays, Bool.and_eq_true]
    refine ⟨?_, ih hrest fun d hd => hne d (List.mem_cons_of_mem _ hd)⟩
    rcases haccepts with haccepts | ⟨-, hpromote⟩
    · simp [Change.legalAt, hget, haccepts]
    · exact absurd hpromote (hne c List.mem_cons_self _)

section Plans

variable {env : TemplateEnv} {task : TaskDef} {job : JobRow} {ws : Option WorkspaceConfig}
  {ss : Snapshots}

private theorem expandInstances_plain (fs : FlowStep) (jobId : Uuid) (r : JobStepRow)
    (items : List Json) :
    (Change.expand r.stepName (expandInstances fs jobId r items)).Plain := by
  intro inst hinst
  obtain ⟨i, hi, rfl⟩ := mem_expandInstances hinst
  exact ⟨rfl, rfl⟩

theorem Batches.plain {last : Snapshot}
    (hb : Batches env task job ws ss snap cs last) : ∀ c ∈ cs, c.Plain := by
  induction hb with
  | nil => simp
  | cons hb _ ih =>
    intro c hc
    rcases List.mem_append.mp hc with hc | hc
    · cases hb with
      | rollup =>
        obtain ⟨ph, -, -, -, hreason⟩ := phaseRollup_reason hc
        cases hreason <;> trivial
      | promote =>
        obtain ⟨r, -, -, -, fs, -, hreason⟩ := promoteBatch_reason hc
        cases hreason <;> trivial
      | placeholders =>
        obtain ⟨r, -, -, -, fs, -, hreason⟩ := phasePlaceholders_reason hc
        cases hreason with
        | expand items => exact expandInstances_plain fs job.jobId r items
        | _ => trivial
    · exact ih c hc

theorem Change.Plain.of_forget {c d : Change} (h : d.Plain) (heq : d.forget = c.forget) :
    c.Plain := by
  have hiff : ∀ c : Change, c.forget.Plain ↔ c.Plain := by
    intro c
    cases c with
    | rollup p outcome => cases outcome <;> rfl
    | _ => rfl
  rw [← hiff c, ← heq]
  exact (hiff d).mpr h

theorem redactChanges_plain (h : ∀ c ∈ cs, c.Plain) :
    ∀ c ∈ redactChanges env ws cs, c.Plain := by
  intro c hc
  obtain ⟨d, hd, heq⟩ := mem_redactChanges hc
  exact (h d hd).of_forget heq

variable (env task job ws ss) in
theorem run_plan {steps : List JobStepRow} (h : Distinct steps) (hun : Unexpanded steps)
    (hidx : LoopIndices steps) :
    ∃ plan, Returns env task job ws ss steps plan ∧ replays steps plan.changes = true ∧
      ∀ (now : Time) (db : JobTables), db.steps.Perm steps →
        (∃ a db', apply now db plan = .ok (a, db') ∧
          Mirrors db'.steps (Snapshot.applyAll steps plan.changes)) ∨
        ∃ e, apply now db plan = .error (.db e) := by
  obtain ⟨cs, last, hrun, hb, -⟩ := run_ends env task job ws ss h hun.noCollision
  have hforget := redactChanges_forget env ws cs
  have hreplays : replays steps (redactChanges env ws cs) = true := by
    rw [replays_congr rfl hforget]
    exact hb.replays h hun.noCollision hun.unclaimed hidx
  have hsteps : Steps steps (redactChanges env ws cs) :=
    Steps.congr rfl hforget.symm (hb.steps h hun.noCollision).1
  refine ⟨_, hrun, hreplays, fun now db hperm => ?_⟩
  exact apply_mirrored now ⟨redactChanges env ws cs⟩ h (Mirrors.refl_of_perm hperm) hsteps
    hreplays (redactChanges_plain hb.plain)

/--
The plan of `run` is legal: replayed from its rows, every change finds its row in the status it
asks for, and on a database that holds these rows `apply` misses no guard.
-/
theorem run_legal {steps : List JobStepRow} (h : Distinct steps) (hun : Unexpanded steps)
    (hidx : LoopIndices steps) :
    ∃ plan, Returns env task job ws ss steps plan ∧ replays steps plan.changes = true ∧
      ∀ (now : Time) (db : JobTables), db.steps.Perm steps →
        ∀ step, apply now db plan ≠ .error (.guardMiss step) := by
  obtain ⟨plan, hrun, hreplays, hdb⟩ := run_plan env task job ws ss h hun hidx
  refine ⟨plan, hrun, hreplays, fun now db hperm step hmiss => ?_⟩
  rcases hdb now db hperm with ⟨a, db', hok, -⟩ | ⟨e, herr⟩
  · rw [hok] at hmiss
    cases hmiss
  · rw [herr] at hmiss
    cases hmiss

end Plans

theorem run_legal_deliveryRows :
    ∃ plan, Returns literalEnv deliveryFlow { jobId := 1 } (some {}) {} deliveryRows plan ∧
      plan.changes.map Change.target = ["hosts[1]", "package", "rollback", "publish"] ∧
      replays deliveryRows plan.changes = true ∧
      ∀ (now : Time) (db : JobTables), db.steps.Perm deliveryRows →
        ∀ step, apply now db plan ≠ .error (.guardMiss step) := by
  obtain ⟨plan, hrun, hlegal⟩ := run_legal deliveryRows_distinct deliveryRows_unexpanded
    (loopIndices_of_nodup (by decide))
  exact ⟨plan, hrun, hrun.eval 3 (fun p => p.changes.map Change.target) (by decide +kernel), hlegal⟩

def twinInstances : List JobStepRow :=
  [{ stepName := "p", forEachExpr := some "[1,2,3]", status := .running },
    { stepName := "a", loopSource := some "p", loopIndex := some 0, status := .completed },
    { stepName := "b", loopSource := some "p", loopIndex := some 0, status := .completed },
    { stepName := "c", loopSource := some "p", loopIndex := some 1 }]

def claimedFlow : TaskDef :=
  ⟨⟨[("p", { action := "work", forEach := some (.str "[1,2,3]"), sequential := true }),
      ("s", { action := "work", forEach := some (.str "oops") }),
      ("y", { action := "work", dependsOn := [.name "s"] }),
      ("p[1]", { action := "work", dependsOn := [.name "s"] })], by decide⟩⟩

def claimedRows : List JobStepRow :=
  [{ stepName := "p", forEachExpr := some "[1,2,3]" },
    { stepName := "s", forEachExpr := some "oops" },
    { stepName := "y", loopSource := some "p", loopIndex := some 1 }]

/--
Distinct names are not enough: two terminal instances of one index promote their successor
twice, and the second promotion finds it `ready`.  The twins may be there from the start, or
one of them may claim a loop that is yet to be expanded.
-/
theorem twinInstances_not_legal :
    (Distinct twinInstances ∧ pendingPlaceholders twinInstances = [] ∧
      Returns literalEnv loopFlow { jobId := 1 } (some {}) {} twinInstances
        ⟨[.promote "c", .promote "c"]⟩ ∧
      replays twinInstances [.promote "c", .promote "c"] = false ∧
      apply 0 ⟨.running, twinInstances⟩ ⟨[.promote "c", .promote "c"]⟩ =
        .error (.guardMiss "c,c")) ∧
    (Distinct claimedRows ∧ LoopIndices claimedRows ∧
      (∀ r ∈ claimedRows, '[' ∉ r.stepName.toList) ∧
      ∃ plan, Returns literalEnv claimedFlow { jobId := 1 } (some {}) {} claimedRows plan ∧
        replays claimedRows plan.changes = false) := by
  refine ⟨⟨?_, by decide, .of_run 2 (by decide), by decide, by decide⟩, ?_, ?_, by decide, ?_⟩
  · unfold Distinct Keyed
    decide
  · unfold Distinct Keyed
    decide
  · intro r hr r' hr' p idx hp hp' _ _
    simp only [claimedRows, List.mem_cons, List.not_mem_nil, or_false] at hr hr'
    rcases hr with rfl | rfl | rfl <;> rcases hr' with rfl | rfl | rfl <;> simp_all
  · have hsome : ∃ plan, run literalEnv 3 claimedFlow { jobId := 1 } claimedRows (some {}) {} =
        some plan ∧ replays claimedRows plan.changes = false := by
      have hany : (run literalEnv 3 claimedFlow { jobId := 1 } claimedRows (some {}) {}).any
          (fun plan => !replays claimedRows plan.changes) = true := by decide
      obtain ⟨plan, hrun, hbad⟩ := (Option.any_eq_true _ _).mp hany
      exact ⟨plan, hrun, by simpa using hbad⟩
    obtain ⟨plan, hrun, hbad⟩ := hsome
    exact ⟨plan, .of_run 3 hrun, hbad⟩

end Stroem.Cascade
