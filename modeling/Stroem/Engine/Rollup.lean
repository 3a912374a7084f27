import Stroem.Cascade.Rollup
import Stroem.Engine.Progress

/-!
# Rollups along a run

Workers write to the steps they hold, and plans are applied that may have been computed from
rows that have moved since.  A rollup takes effect on a running placeholder and finishes it,
nothing takes a finished placeholder back, so no placeholder is rolled up twice.
-/

namespace Stroem.Engine

open Foundation JobStepRepo Cascade

structure Rolling where
  rows : List JobStepRow
  rolled : List (String × RollupOutcome)
  deriving DecidableEq

inductive Turn where
  | work (event : Event)
  | apply (now : Time) (jobStatus : JobStatus) (plan : Plan)

def rollups (changes : List Change) : List (String × RollupOutcome) :=
  changes.filterMap fun c =>
    match c with
    | .rollup p outcome => some (p, outcome)
    | _ => none

namespace Rolling

def act (s : Rolling) : Turn → Option Rolling
  | .work e =>
    if legalWork s.rows e.write then
      some { s with rows := rowsAfter e.now e.jobStatus s.rows e.write }
    else none
  | .apply now jobStatus plan =>
    match Cascade.apply now ⟨jobStatus, s.rows⟩ plan with
    | .ok (_, db) => some ⟨db.steps, s.rolled ++ rollups plan.changes⟩
    | .error _ => some s

end Rolling

structure RolledOnce (s : Rolling) : Prop where
  keyed : Keyed JobStepRow.stepName s.rows
  once : (s.rolled.map Prod.fst).Nodup
  kept : ∀ po ∈ s.rolled, ∃ r ∈ s.rows, r.stepName = po.1 ∧ r.status = po.2.status ∧
    r.output = some po.2.output

theorem RollupOutcome.status_terminal (outcome : RollupOutcome) :
    outcome.status.isTerminal = true := by
  cases outcome <;> rfl

namespace RolledOnce

variable {s : Rolling}

theorem frame (h : RolledOnce s) {rows : List JobStepRow}
    (hkeyed : Keyed JobStepRow.stepName rows)
    (hrows : ∀ r ∈ s.rows, r.status.isTerminal = true → ∃ r' ∈ rows,
      r'.stepName = r.stepName ∧ r'.status = r.status ∧ r'.output = r.output) :
    RolledOnce { s with rows := rows } := by
  refine ⟨hkeyed, h.once, fun po hpo => ?_⟩
  obtain ⟨r, hr, hname, hstatus, houtput⟩ := h.kept po hpo
  have hterm : r.status.isTerminal = true := by
    rw [hstatus]
    exact RollupOutcome.status_terminal po.2
  obtain ⟨r', hr', hname', hstatus', houtput'⟩ := hrows r hr hterm
  exact ⟨r', hr', hname'.trans hname, hstatus'.trans hstatus, houtput'.trans houtput⟩

theorem work (h : RolledOnce s) {e : Event} (hlegal : legalWork s.rows e.write = true) :
    RolledOnce { s with rows := rowsAfter e.now e.jobStatus s.rows e.write } := by
  refine h.frame (keyed_rowsAfter h.keyed) fun r hr hterm => ?_
  simp only [legalWork, Bool.and_eq_true, Bool.not_eq_true', Option.any_eq_true,
    List.all_eq_true, Bool.or_eq_true, bne_iff_ne, ne_eq] at hlegal
  obtain ⟨hw, step, htarget, hall⟩ := hlegal
  obtain ⟨r', hr', heffect⟩ := mem_of_forall₂_left (rowsAfter_spec h.keyed hw) hr
  refine ⟨r', hr', heffect.keeps.stepName, ?_⟩
  rcases heffect.outcome with ⟨hs, ho, -⟩ | hmoves
  · exact ⟨hs, ho⟩
  · obtain ⟨-, hname⟩ := Write.moves_terminal hmoves hterm
    obtain rfl := Option.some.inj (htarget.symm.trans hname)
    have := (hall r hr).resolve_left fun hne => hne rfl
    rw [hterm] at this
    cases this.2

theorem group (h : RolledOnce s) {now : Time} {group : Group} {rows : List JobStepRow}
    (hok : applyGroup now s.rows group = .ok rows) :
    RolledOnce { s with rows := rows } := by
  have hchain : applyGroups now [group] s.rows = .ok rows := by
    simp only [applyGroups, hok]
  obtain ⟨cs, -, hcs⟩ := applyGroups_chain h.keyed hchain
  have heffect := hcs.effect h.keyed
  refine h.frame heffect.keyed fun r hr hterm => ?_
  obtain ⟨r', hr', hmoved⟩ := heffect.kept r hr
  obtain rfl := hmoved.of_terminal hterm
  exact ⟨r', hr', rfl, rfl, rfl⟩

end RolledOnce

theorem applySingle_rollup {now : Time} {rows rows' : List JobStepRow} {p : String}
    {outcome : RollupOutcome} (hok : applySingle now rows (.rollup p outcome) = .ok rows') :
    (∃ r ∈ rows, r.stepName = p ∧ r.status = .running) ∧
    ∃ r ∈ rows', r.stepName = p ∧ r.status = outcome.status ∧ r.output = some outcome.output := by
  have hupdate : ∀ u : Update JobStepRow, runExpecting u 1 p rows = .ok rows' →
      ∃ r ∈ rows, u.guard r = true ∧ u.set r ∈ rows' := by
    intro u hrun
    unfold runExpecting at hrun
    split at hrun
    case isTrue hcount =>
      cases hrun
      have hpos : 0 < rows.countP u.guard := by
        rw [Update.rowsAffected, affected] at hcount
        omega
      obtain ⟨r, hr, hguard⟩ := List.countP_pos_iff.mp hpos
      exact ⟨r, hr, hguard, Update.mem_run.mpr ⟨r, hr, if_pos hguard⟩⟩
    case isFalse => cases hrun
  cases outcome with
  | completed output =>
    obtain ⟨r, hr, hguard, hset⟩ := hupdate _ hok
    simp only [completePlaceholderTx, Bool.and_eq_true, decide_eq_true_eq, beq_iff_eq] at hguard
    exact ⟨⟨r, hr, hguard⟩, _, hset, hguard.1, rfl, rfl⟩
  | failed error output =>
    obtain ⟨r, hr, hguard, hset⟩ := hupdate _ hok
    simp only [failPlaceholderTx, Bool.and_eq_true, decide_eq_true_eq, beq_iff_eq] at hguard
    exact ⟨⟨r, hr, hguard⟩, _, hset, hguard.1, rfl, rfl⟩

namespace RolledOnce

variable {s : Rolling}

theorem rollup (h : RolledOnce s) {now : Time} {p : String} {outcome : RollupOutcome}
    {rows : List JobStepRow}
    (hok : applyGroup now s.rows (.single (.rollup p outcome)) = .ok rows) :
    RolledOnce ⟨rows, s.rolled ++ [(p, outcome)]⟩ := by
  have hframe := h.group hok
  obtain ⟨⟨r, hr, hname, hrun⟩, hdone⟩ := applySingle_rollup hok
  refine ⟨hframe.keyed, ?_, fun po hpo => ?_⟩
  · rw [List.map_append, List.map_singleton, List.nodup_append]
    refine ⟨h.once, List.nodup_singleton p, fun q hq q' hq' heq => ?_⟩
    obtain rfl := List.mem_singleton.mp hq'
    obtain ⟨po, hpo, rfl⟩ := List.mem_map.mp hq
    obtain ⟨r', hr', hname', hstatus, -⟩ := h.kept po hpo
    -- what was rolled up before is finished, and this placeholder runs
    obtain rfl := h.keyed.eq_of_key hr' hr (hname'.trans (heq.trans hname.symm))
    have hterm := RollupOutcome.status_terminal po.2
    rw [← hstatus, hrun] at hterm
    cases hterm
  · rcases List.mem_append.mp hpo with hpo | hpo
    · exact hframe.kept po hpo
    · obtain rfl := List.mem_singleton.mp hpo
      exact hdone

theorem groups (h : RolledOnce s) {now : Time} {gs : List Group} {rows : List JobStepRow}
    (hok : applyGroups now gs s.rows = .ok rows) :
    RolledOnce ⟨rows, s.rolled ++ rollups (gs.flatMap Group.changes)⟩ := by
  induction gs generalizing s with
  | nil =>
    cases hok
    simpa [rollups] using h
  | cons group gs ih =>
    simp only [applyGroups] at hok
    split at hok
    · cases hok
    case h_2 mid hgroup =>
      have hmid : RolledOnce ⟨mid, s.rolled ++ rollups group.changes⟩ := by
        cases group with
        | promotes names
        | skips items => simpa [Group.changes, rollups, List.filterMap_map] using h.group hgroup
        | single c =>
          cases c with
          | rollup p outcome => exact h.rollup hgroup
          | _ => simpa [Group.changes, rollups] using h.group hgroup
      simpa [rollups, List.append_assoc] using ih hmid hok

theorem act (h : RolledOnce s) {t : Turn} {s' : Rolling} (hstep : s.act t = some s') :
    RolledOnce s' := by
  cases t with
  | work e =>
    simp only [Rolling.act] at hstep
    split at hstep
    case isTrue hlegal =>
      cases hstep
      exact h.work hlegal
    case isFalse => cases hstep
  | apply now jobStatus plan =>
    simp only [Rolling.act, Cascade.apply] at hstep
    cases hok : applyGroups now (groupChanges plan.changes) s.rows with
    | error e =>
      simp only [hok] at hstep
      cases hstep
      exact h
    | ok rows =>
      simp only [hok] at hstep
      cases hstep
      have hgroups := h.groups hok
      rwa [flatMap_groupChanges] at hgroups

end RolledOnce

/--
A plan rolls up a running placeholder only when all its instances are finished, with their outputs
by `loop_index`, and in every run a placeholder is rolled up at most once.
-/
theorem rollup_correct (env : TemplateEnv) (task : TaskDef) :
    (∀ fuel job ws ss rows plan, run env fuel task job rows ws ss = some plan →
      (∀ p outcome, .rollup p outcome ∈ plan.changes → ∃ pre batch post,
        plan.changes = pre ++ (batch ++ post) ∧ .rollup p outcome ∈ batch ∧
          RollsUp (Snapshot.applyAll rows pre) p outcome) ∧
      (∀ p instances, .expand p instances ∈ plan.changes → ∃ mid r c items, r ∈ mid ∧
        r.stepName = p ∧ buildCtx job ws ss mid = some c ∧
        parseForEachItems env (r.forEachExpr.getD "") c = .ok items ∧
        items.length ≤ maxForEachItems ∧ (∀ i ∈ instances, i.loopSource = some p) ∧
        (instances.map syntheticRow).map loopPlace = itemPlaces items)) ∧
    (∀ rows turns s, Keyed JobStepRow.stepName rows →
      exec Rolling.act ⟨rows, []⟩ turns = some s →
        (s.rolled.map Prod.fst).Nodup ∧ ∀ po ∈ s.rolled, ∃ r ∈ s.rows, r.stepName = po.1 ∧
          r.status = po.2.status ∧ r.output = some po.2.output) := by
  refine ⟨fun fuel job ws ss rows plan hrun => ⟨fun p outcome hc => run_rollsUp hrun hc,
    fun p instances hc => run_expands hrun hc⟩, fun rows turns s hkeyed hexec => ?_⟩
  have hstart : RolledOnce ⟨rows, []⟩ := ⟨hkeyed, List.nodup_nil, by simp⟩
  have hlast : RolledOnce s := exec_invariant RolledOnce
    (fun s t s' h _ hstep => h.act hstep) hstart (Meets.of_forall (fun _ _ => trivial) _ _) hexec
  exact ⟨hlast.once, hlast.kept⟩

def pairLoop (status : StepStatus) (output : Option Json) : List JobStepRow :=
  [{ stepName := "p", forEachExpr := some "[1,2,3]", status := .running },
    { stepName := "p[1]", loopSource := some "p", loopIndex := some 1, status := status,
      output := output },
    { stepName := "p[0]", loopSource := some "p", loopIndex := some 0, status := .completed,
      output := some (.str "first") }]

def bothOutputs : RollupOutcome := .completed (.arr [.str "first", .str "second"])

def lastReport : List Turn :=
  [.work ⟨1, .running, .markCompleted "p[1]" (some (.str "second"))⟩,
    .apply 2 .running ⟨[.rollup "p" bothOutputs]⟩, .apply 3 .running ⟨[.rollup "p" bothOutputs]⟩]

theorem rollup_correct_twoReplicas :
    (∃ pre, RollsUp (Snapshot.applyAll (pairLoop .completed (some (.str "second"))) pre) "p"
      bothOutputs) ∧
    ∃ s, exec Rolling.act ⟨pairLoop .running none, []⟩ lastReport = some s ∧
      s.rolled = [("p", bothOutputs)] ∧
      ∃ r ∈ s.rows, r.stepName = "p" ∧ r.status = .completed ∧
        r.output = some bothOutputs.output := by
  obtain ⟨hplan, hrun⟩ := rollup_correct literalEnv loopFlow
  refine ⟨?_, _, rfl, rfl, ?_⟩
  · obtain ⟨pre, -, -, -, -, hrolls⟩ := (hplan 3 { jobId := 1 } (some {}) {}
      (pairLoop .completed (some (.str "second"))) ⟨[.rollup "p" bothOutputs]⟩
      (by decide +kernel)).1 "p" bothOutputs (by simp)
    exact ⟨pre, hrolls⟩
  · have hkeyed : Keyed JobStepRow.stepName (pairLoop .running none) := by
      unfold Keyed
      decide
    exact (hrun _ lastReport _ hkeyed rfl).2 ("p", bothOutputs) (by simp [rollups])

end Stroem.Engine
