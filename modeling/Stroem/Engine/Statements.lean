import Stroem.Cascade.ApplySpec
import Stroem.Engine.Writes

/-!
# The statements of a cascade

A plan is applied statement by statement, to rows that may have moved since the snapshot it
was computed from.  `Applies` says what one statement does to whatever rows it finds, `Chain`
puts the statements of a plan together, and `PlanEffect` is what a plan that went through has
done to the rows as a whole.
-/

namespace Stroem.Engine

open Foundation JobStepRepo Cascade

def asks : Change → StepStatus
  | .rollup _ _ => .running
  | _ => .pending

def newSteps : Change → List NewJobStep
  | .expand _ instances => instances
  | _ => []

theorem asks_not_terminal (c : Change) : (asks c).isTerminal = false := by
  cases c <;> rfl

structure ChangeEffect (c : Change) (r r' : JobStepRow) : Prop where
  keeps : Keeps r r'
  target : c.target = r.stepName
  asked : r.status = asks c
  status : r'.status = (c.setRow r).status

def RowMoved (cs : List Change) (r r' : JobStepRow) : Prop :=
  (∃ c ∈ cs, ChangeEffect c r r') ∨
    r' = r ∧ ∀ c ∈ cs, c.target = r.stepName → r.status ≠ asks c

variable {cs : List Change}

theorem RowMoved.keeps {r r' : JobStepRow} (h : RowMoved cs r r') : Keeps r r' := by
  rcases h with ⟨c, -, hc⟩ | ⟨rfl, -⟩
  · exact hc.keeps
  · exact ⟨rfl, rfl, rfl, rfl⟩

/--
One statement of `apply`, for the changes `cs`: each finds its row in the status it asks for,
the rows are moved, and the instances of an expansion are inserted.
-/
structure Applies (now : Time) (cs : List Change) (rows rows' : List JobStepRow) : Prop where
  found : ∀ c ∈ cs, ∃ r ∈ rows, r.stepName = c.target ∧ r.status = asks c
  keyed : Keyed JobStepRow.stepName rows'
  rows : ∃ moved, rows' = moved ++ (cs.flatMap newSteps).map (insertedRow now) ∧
    List.Forall₂ (RowMoved cs) rows moved

inductive Chain (now : Time) : List Change → List JobStepRow → List JobStepRow → Prop
  | nil (rows : List JobStepRow) : Chain now [] rows rows
  | cons {cs ds : List Change} {rows mid last : List JobStepRow} :
      Applies now cs rows mid → Chain now ds mid last → Chain now (cs ++ ds) rows last

variable {now : Time} {rows : List JobStepRow}

theorem Chain.append {ds : List Change} {mid last : List JobStepRow} (h : Chain now cs rows mid)
    (h' : Chain now ds mid last) : Chain now (cs ++ ds) rows last := by
  induction h with
  | nil => exact h'
  | cons happlies _ ih =>
    rw [List.append_assoc]
    exact .cons happlies (ih h')

variable {rows' : List JobStepRow}

theorem Chain.single (h : Applies now cs rows rows') : Chain now cs rows rows' := by
  have := Chain.cons h (.nil rows')
  rwa [List.append_nil] at this

theorem Chain.keyed (hk : Keyed JobStepRow.stepName rows) (h : Chain now cs rows rows') :
    Keyed JobStepRow.stepName rows' := by
  induction h with
  | nil => exact hk
  | cons happlies _ ih => exact ih happlies.keyed

/-! ## `apply` is a chain of statements -/

variable {u : Update JobStepRow}

private theorem runExpecting_ok {n : Nat} {step : String}
    (h : runExpecting u n step rows = .ok rows') :
    u.rowsAffected rows = n ∧ rows' = u.run rows := by
  unfold runExpecting at h
  split at h
  case isTrue hcount => exact ⟨hcount, (Except.ok.inj h).symm⟩
  case isFalse => cases h

private theorem forall₂_run (hset : ∀ r, u.guard r = true → ∃ c ∈ cs, ChangeEffect c r (u.set r))
    (hguard : ∀ r, ∀ c ∈ cs, c.target = r.stepName → r.status = asks c → u.guard r = true) :
    List.Forall₂ (RowMoved cs) rows (u.run rows) := by
  unfold Update.run updateWhere
  rw [List.forall₂_map_right_iff, List.forall₂_same]
  intro r _
  split
  case isTrue hr => exact .inl (hset r hr)
  case isFalse hr => exact .inr ⟨rfl, fun c hc ht hs => hr (hguard r c hc ht hs)⟩

private theorem keyed_run (hk : Keyed JobStepRow.stepName rows)
    (hset : ∀ r, u.guard r = true → ∃ c ∈ cs, ChangeEffect c r (u.set r)) :
    Keyed JobStepRow.stepName (u.run rows) := by
  refine Keyed.of_forall₂ ?_ hk
  unfold Update.run updateWhere
  rw [List.forall₂_map_right_iff, List.forall₂_same]
  intro r _
  split
  case isTrue hr =>
    obtain ⟨c, -, hc⟩ := hset r hr
    exact hc.keeps.stepName
  case isFalse => rfl

private theorem bulk_applies {names : List String} {s : StepStatus} {step : String}
    (hk : Keyed JobStepRow.stepName rows) (hnames : cs.map Change.target = names)
    (hasks : ∀ c ∈ cs, asks c = s ∧ newSteps c = [])
    (hguard : ∀ r, u.guard r = (decide (r.stepName ∈ names) && r.status == s))
    (hset : ∀ r, ∀ c ∈ cs, Keeps r (u.set r) ∧ (u.set r).status = (c.setRow r).status)
    (h : runExpecting u names.length step rows = .ok rows') : Applies now cs rows rows' := by
  obtain ⟨hcount, rfl⟩ := runExpecting_ok h
  have hmoved : ∀ r, u.guard r = true → ∃ c ∈ cs, ChangeEffect c r (u.set r) := by
    intro r hr
    simp only [hguard, Bool.and_eq_true, decide_eq_true_eq, beq_iff_eq] at hr
    rw [← hnames] at hr
    obtain ⟨c, hc, ht⟩ := List.mem_map.mp hr.1
    exact ⟨c, hc, (hset r c hc).1, ht, hr.2.trans (hasks c hc).1.symm, (hset r c hc).2⟩
  have hnone : cs.flatMap newSteps = [] := by
    rw [List.flatMap_eq_nil_iff]
    exact fun c hc => (hasks c hc).2
  refine ⟨fun c hc => ?_, keyed_run hk hmoved, u.run rows, by simp [hnone], ?_⟩
  · have haffected : affected (fun r => decide (r.stepName ∈ names) && r.status == s) rows =
        names.length := by
      rw [← hcount, Update.rowsAffected, funext hguard]
    have hmem : c.target ∈ names := by
      rw [← hnames]
      exact List.mem_map_of_mem hc
    obtain ⟨r, hr, hname, hs⟩ := Keyed.exists_of_affected hk haffected _ hmem
    exact ⟨r, hr, hname, (beq_iff_eq.mp hs).trans (hasks c hc).1.symm⟩
  · refine forall₂_run hmoved fun r c hc ht hs => ?_
    have hmem : r.stepName ∈ names := by
      rw [← hnames, ← ht]
      exact List.mem_map_of_mem hc
    simp [hguard, hmem, hs, (hasks c hc).1]

private theorem single_applies {c : Change} {step : String} (hk : Keyed JobStepRow.stepName rows)
    (hnew : newSteps c = [])
    (hguard : ∀ r, u.guard r = (decide (r.stepName = c.target) && r.status == asks c))
    (hset : ∀ r, Keeps r (u.set r) ∧ (u.set r).status = (c.setRow r).status)
    (h : runExpecting u 1 step rows = .ok rows') : Applies now [c] rows rows' := by
  refine bulk_applies (s := asks c) hk rfl ?_ ?_ ?_ h
  · simpa using hnew
  · simpa using hguard
  · simpa using hset

private theorem expand_applies {p : String} {instances : List NewJobStep}
    (hk : Keyed JobStepRow.stepName rows)
    (h : applySingle now rows (.expand p instances) = .ok rows') :
    Applies now [.expand p instances] rows rows' := by
  simp only [applySingle] at h
  split at h
  · cases h
  case h_2 rows₁ hrun =>
    have hstart : Applies now [.adopt p] rows rows₁ := by
      refine single_applies hk rfl (fun _ => rfl) (fun r => ⟨⟨rfl, rfl, rfl, rfl⟩, rfl⟩) hrun
    obtain ⟨moved, hmoved, hforall⟩ := hstart.rows
    simp only [List.flatMap_cons, newSteps, List.flatMap_nil, List.append_nil,
      List.map_nil] at hmoved
    subst hmoved
    -- an expansion moves its placeholder like an adoption does
    have hforall' : List.Forall₂ (RowMoved [.expand p instances]) rows rows₁ := by
      refine hforall.imp fun r r' hr => ?_
      rcases hr with ⟨c, hc, heffect⟩ | ⟨heq, hnone⟩
      · obtain rfl := List.mem_singleton.mp hc
        exact .inl ⟨_, List.mem_singleton_self _, heffect.keeps, heffect.target, heffect.asked,
          heffect.status⟩
      · refine .inr ⟨heq, fun c hc => ?_⟩
        obtain rfl := List.mem_singleton.mp hc
        exact hnone (.adopt p) (List.mem_singleton_self _)
    have hfound : ∀ c ∈ [Change.expand p instances], ∃ r ∈ rows, r.stepName = c.target ∧
        r.status = asks c := by
      intro c hc
      obtain rfl := List.mem_singleton.mp hc
      exact hstart.found (.adopt p) (List.mem_singleton_self _)
    split at h
    · cases h
    case h_2 rows₂ hcreate =>
      obtain rfl := Except.ok.inj h
      obtain ⟨rfl, hkeyed⟩ := createStepsTx_ok hcreate
      exact ⟨hfound, hkeyed hstart.keyed, _, by simp [newSteps], hforall'⟩

private theorem applySingle_applies {c : Change} (hk : Keyed JobStepRow.stepName rows)
    (h : applySingle now rows c = .ok rows') : Applies now [c] rows rows' := by
  cases c with
  | promote step | skip step reason =>
    refine bulk_applies hk rfl ?_ (fun _ => rfl) ?_ h <;> simp [asks, newSteps]
    exact fun r => ⟨⟨rfl, rfl, rfl, rfl⟩, rfl⟩
  | fail step error | adopt p =>
    exact single_applies hk rfl (fun _ => rfl) (fun r => ⟨⟨rfl, rfl, rfl, rfl⟩, rfl⟩) h
  | rollup p outcome =>
    cases outcome with
    | completed output | failed error output =>
      exact single_applies hk rfl (fun _ => rfl) (fun r => ⟨⟨rfl, rfl, rfl, rfl⟩, rfl⟩) h
  | expand p instances => exact expand_applies hk h

private theorem runBuckets_chain {buckets : List (SkipReason × List String)}
    (hk : Keyed JobStepRow.stepName rows) (h : runBuckets now buckets rows = .ok rows') :
    Chain now (bucketChanges buckets) rows rows' := by
  induction buckets generalizing rows with
  | nil =>
    obtain rfl := Except.ok.inj h
    exact .nil rows
  | cons b buckets ih =>
    obtain ⟨reason, names⟩ := b
    simp only [runBuckets] at h
    split at h
    · cases h
    case h_2 rows₁ hrun =>
      have happlies : Applies now (names.map (Change.skip · reason)) rows rows₁ := by
        refine bulk_applies hk ?_ ?_ (fun _ => rfl) ?_ hrun
        · simp [Function.comp_def, Change.target]
        · simp [asks, newSteps]
        · simp only [List.mem_map]
          rintro r _ ⟨n, -, rfl⟩
          exact ⟨⟨rfl, rfl, rfl, rfl⟩, rfl⟩
      exact .cons happlies (ih happlies.keyed h)

theorem applyGroups_chain {groups : List Group} (hk : Keyed JobStepRow.stepName rows)
    (h : applyGroups now groups rows = .ok rows') :
    ∃ cs, cs.Perm (groups.flatMap Group.changes) ∧ Chain now cs rows rows' := by
  induction groups generalizing rows with
  | nil =>
    obtain rfl := Except.ok.inj h
    exact ⟨[], .nil, .nil rows⟩
  | cons group groups ih =>
    simp only [applyGroups] at h
    split at h
    · cases h
    case h_2 rows₁ hgroup =>
      have hfirst : ∃ cs, cs.Perm group.changes ∧ Chain now cs rows rows₁ := by
        cases group with
        | promotes names =>
          refine ⟨names.map Change.promote, .refl _, .single ?_⟩
          refine bulk_applies hk ?_ ?_ (fun _ => rfl) ?_ hgroup
          · simp [Function.comp_def, Change.target]
          · simp [asks, newSteps]
          · simp only [List.mem_map]
            rintro r _ ⟨n, -, rfl⟩
            exact ⟨⟨rfl, rfl, rfl, rfl⟩, rfl⟩
        | skips items =>
          exact ⟨_, bucketChanges_skipBuckets items, runBuckets_chain hk hgroup⟩
        | single c => exact ⟨[c], .refl _, .single (applySingle_applies hk hgroup)⟩
      obtain ⟨cs, hcs, hchain⟩ := hfirst
      obtain ⟨ds, hds, hrest⟩ := ih (hchain.keyed hk) h
      exact ⟨cs ++ ds, hcs.append hds, hchain.append hrest⟩

/-! ## The whole plan -/

structure PlanMoved (cs : List Change) (r r' : JobStepRow) : Prop where
  keeps : Keeps r r'
  outcome : r' = r ∨ r.status.isTerminal = false ∧
    ∃ c ∈ cs, c.target = r.stepName ∧ r'.status = (c.setRow r).status

structure PlanEffect (now : Time) (cs : List Change) (rows rows' : List JobStepRow) : Prop where
  keyed : Keyed JobStepRow.stepName rows'
  kept : ∀ r ∈ rows, ∃ r' ∈ rows', PlanMoved cs r r'
  origin : ∀ r' ∈ rows', (∃ r ∈ rows, PlanMoved cs r r') ∨
    ∃ i ∈ cs.flatMap newSteps, PlanMoved cs (insertedRow now i) r'
  inserted : ∀ i ∈ cs.flatMap newSteps, ∃ r' ∈ rows', PlanMoved cs (insertedRow now i) r'
  fresh : ∀ i ∈ cs.flatMap newSteps, ∀ r ∈ rows, r.stepName ≠ i.stepName
  done : ∀ c ∈ cs, ∃ r' ∈ rows', r'.stepName = c.target ∧ r'.status ≠ .pending
  asked : ∀ c ∈ cs, asks c = .pending → ∀ r ∈ rows, r.stepName = c.target → r.status = .pending

namespace PlanMoved

variable {cs ds : List Change} {r r' r'' : JobStepRow}

theorem refl (cs : List Change) (r : JobStepRow) : PlanMoved cs r r :=
  ⟨⟨rfl, rfl, rfl, rfl⟩, .inl rfl⟩

theorem of_terminal (h : PlanMoved cs r r') (hterm : r.status.isTerminal = true) : r' = r := by
  rcases h.outcome with heq | ⟨hlive, -⟩
  · exact heq
  · rw [hterm] at hlive
    cases hlive

theorem of_pending (h : PlanMoved cs r r') (hpend : r'.status = .pending) : r' = r := by
  rcases h.outcome with heq | ⟨-, c, -, -, hs⟩
  · exact heq
  · exact absurd (hs.symm.trans hpend) (c.setRow_status_ne_pending r)

theorem mono (h : PlanMoved cs r r') (hsub : ∀ c ∈ cs, c ∈ ds) : PlanMoved ds r r' := by
  refine ⟨h.keeps, h.outcome.imp id ?_⟩
  rintro ⟨hlive, c, hc, hmoved⟩
  exact ⟨hlive, c, hsub c hc, hmoved⟩

theorem trans (h : PlanMoved cs r r') (h' : PlanMoved ds r' r'') :
    PlanMoved (cs ++ ds) r r'' := by
  refine ⟨h.keeps.trans h'.keeps, ?_⟩
  rcases h'.outcome with rfl | ⟨hlive', c, hc, htarget, hstatus⟩
  · exact (h.mono fun c hc => List.mem_append_left _ hc).outcome
  · refine .inr ⟨?_, c, List.mem_append_right _ hc, htarget.trans h.keeps.stepName, ?_⟩
    · rcases h.outcome with rfl | ⟨hlive, -⟩
      · exact hlive'
      · exact hlive
    · rw [hstatus]
      exact c.setRow_status_congr r' r

end PlanMoved

theorem RowMoved.planMoved {r r' : JobStepRow} (h : RowMoved cs r r') : PlanMoved cs r r' := by
  rcases h with ⟨c, hc, heffect⟩ | ⟨rfl, -⟩
  · refine ⟨heffect.keeps, .inr ⟨?_, c, hc, heffect.target, heffect.status⟩⟩
    rw [heffect.asked]
    exact asks_not_terminal c
  · exact .refl cs r'

theorem Applies.effect (hk : Keyed JobStepRow.stepName rows) (h : Applies now cs rows rows') :
    PlanEffect now cs rows rows' := by
  have hkeyed := h.keyed
  obtain ⟨moved, rfl, hmoved⟩ := h.rows
  refine ⟨hkeyed, fun r hr => ?_, fun r' hr' => ?_, fun i hi => ?_, fun i hi r hr heq => ?_,
    fun c hc => ?_, fun c hc hasks r hr hname => ?_⟩
  · obtain ⟨r', hr', hrow⟩ := mem_of_forall₂_left hmoved hr
    exact ⟨r', List.mem_append_left _ hr', hrow.planMoved⟩
  · rcases List.mem_append.mp hr' with hr' | hr'
    · obtain ⟨r, hr, hrow⟩ := mem_of_forall₂_right hmoved hr'
      exact .inl ⟨r, hr, hrow.planMoved⟩
    · obtain ⟨i, hi, rfl⟩ := List.mem_map.mp hr'
      exact .inr ⟨i, hi, .refl cs _⟩
  · exact ⟨_, List.mem_append_right _ (List.mem_map_of_mem hi), .refl cs _⟩
  · obtain ⟨r', hr', hrow⟩ := mem_of_forall₂_left hmoved hr
    unfold Keyed at hkeyed
    rw [List.map_append, List.nodup_append] at hkeyed
    exact hkeyed.2.2 _ (List.mem_map_of_mem hr') _
      (List.mem_map_of_mem (List.mem_map_of_mem hi)) (hrow.keeps.stepName.trans heq)
  · obtain ⟨r, hr, hname, hstatus⟩ := h.found c hc
    obtain ⟨r', hr', hrow⟩ := mem_of_forall₂_left hmoved hr
    refine ⟨r', List.mem_append_left _ hr', hrow.keeps.stepName.trans hname, ?_⟩
    rcases hrow with ⟨d, -, heffect⟩ | ⟨-, hnone⟩
    · rw [heffect.status]
      exact d.setRow_status_ne_pending r
    · exact absurd hstatus (hnone c hc hname.symm)
  · obtain ⟨r₀, hr₀, hname₀, hstatus⟩ := h.found c hc
    rw [hk.eq_of_key hr hr₀ (hname.trans hname₀.symm), hstatus, hasks]

namespace PlanEffect

variable {now : Time} {cs ds : List Change} {rows mid last : List JobStepRow}

theorem refl (now : Time) {rows : List JobStepRow} (hk : Keyed JobStepRow.stepName rows) :
    PlanEffect now [] rows rows :=
  ⟨hk, fun r hr => ⟨r, hr, .refl [] r⟩, fun r hr => .inl ⟨r, hr, .refl [] r⟩, by simp, by simp,
    by simp, by simp⟩

theorem trans (h : PlanEffect now cs rows mid) (h' : PlanEffect now ds mid last) :
    PlanEffect now (cs ++ ds) rows last where
  keyed := h'.keyed
  kept := by
    intro r hr
    obtain ⟨r', hr', hmoved⟩ := h.kept r hr
    obtain ⟨r'', hr'', hmoved'⟩ := h'.kept r' hr'
    exact ⟨r'', hr'', hmoved.trans hmoved'⟩
  origin := by
    intro r'' hr''
    rw [List.flatMap_append]
    rcases h'.origin r'' hr'' with ⟨r', hr', hmoved'⟩ | ⟨i, hi, hmoved'⟩
    · rcases h.origin r' hr' with ⟨r, hr, hmoved⟩ | ⟨i, hi, hmoved⟩
      · exact .inl ⟨r, hr, hmoved.trans hmoved'⟩
      · exact .inr ⟨i, List.mem_append_left _ hi, hmoved.trans hmoved'⟩
    · exact .inr ⟨i, List.mem_append_right _ hi,
        hmoved'.mono fun c hc => List.mem_append_right _ hc⟩
  inserted := by
    intro i hi
    rw [List.flatMap_append] at hi
    rcases List.mem_append.mp hi with hi | hi
    · obtain ⟨r', hr', hmoved⟩ := h.inserted i hi
      obtain ⟨r'', hr'', hmoved'⟩ := h'.kept r' hr'
      exact ⟨r'', hr'', hmoved.trans hmoved'⟩
    · obtain ⟨r'', hr'', hmoved'⟩ := h'.inserted i hi
      exact ⟨r'', hr'', hmoved'.mono fun c hc => List.mem_append_right _ hc⟩
  fresh := by
    intro i hi r hr heq
    rw [List.flatMap_append] at hi
    rcases List.mem_append.mp hi with hi | hi
    · exact h.fresh i hi r hr heq
    · obtain ⟨r', hr', hmoved⟩ := h.kept r hr
      exact h'.fresh i hi r' hr' (hmoved.keeps.stepName.trans heq)
  done := by
    intro c hc
    rcases List.mem_append.mp hc with hc | hc
    · obtain ⟨r', hr', hname, hstarted⟩ := h.done c hc
      obtain ⟨r'', hr'', hmoved⟩ := h'.kept r' hr'
      refine ⟨r'', hr'', hmoved.keeps.stepName.trans hname, fun hpend => hstarted ?_⟩
      rwa [hmoved.of_pending hpend] at hpend
    · exact h'.done c hc
  asked := by
    intro c hc hasks r hr hname
    rcases List.mem_append.mp hc with hc | hc
    · exact h.asked c hc hasks r hr hname
    · obtain ⟨r', hr', hmoved⟩ := h.kept r hr
      have hpend := h'.asked c hc hasks r' hr' (hmoved.keeps.stepName.trans hname)
      rwa [hmoved.of_pending hpend] at hpend

theorem congr (h : PlanEffect now cs rows last) (hiff : ∀ c, c ∈ cs ↔ c ∈ ds) :
    PlanEffect now ds rows last := by
  have hnew : ∀ i, i ∈ ds.flatMap newSteps ↔ i ∈ cs.flatMap newSteps := by
    simp [List.mem_flatMap, hiff]
  refine ⟨h.keyed, fun r hr => ?_, fun r' hr' => ?_, fun i hi => ?_,
    fun i hi => h.fresh i ((hnew i).mp hi), fun c hc => h.done c ((hiff c).mpr hc),
    fun c hc => h.asked c ((hiff c).mpr hc)⟩
  · obtain ⟨r', hr', hmoved⟩ := h.kept r hr
    exact ⟨r', hr', hmoved.mono fun c => (hiff c).mp⟩
  · rcases h.origin r' hr' with ⟨r, hr, hmoved⟩ | ⟨i, hi, hmoved⟩
    · exact .inl ⟨r, hr, hmoved.mono fun c => (hiff c).mp⟩
    · exact .inr ⟨i, (hnew i).mpr hi, hmoved.mono fun c => (hiff c).mp⟩
  · obtain ⟨r', hr', hmoved⟩ := h.inserted i ((hnew i).mp hi)
    exact ⟨r', hr', hmoved.mono fun c => (hiff c).mp⟩

end PlanEffect

theorem Chain.effect (hk : Keyed JobStepRow.stepName rows) (h : Chain now cs rows rows') :
    PlanEffect now cs rows rows' := by
  induction h with
  | nil => exact .refl now hk
  | cons happlies _ ih => exact (happlies.effect hk).trans (ih happlies.keyed)

theorem rowsAfter_applyPlan (now : Time) (jobStatus : JobStatus) (plan : Plan)
    (hk : Keyed JobStepRow.stepName rows) :
    rowsAfter now jobStatus rows (.applyPlan plan) = rows ∨
      PlanEffect now plan.changes rows (rowsAfter now jobStatus rows (.applyPlan plan)) := by
  simp only [rowsAfter]
  split
  case h_1 rows' hok =>
    obtain ⟨cs, hperm, hchain⟩ := applyGroups_chain hk hok
    rw [flatMap_groupChanges] at hperm
    exact .inr ((hchain.effect hk).congr fun c => hperm.mem_iff)
  case h_2 => exact .inl rfl

end Stroem.Engine
