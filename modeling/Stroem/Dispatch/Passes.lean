import Stroem.Dispatch
import Stroem.Engine.Stamps

/-!
# Dispatch passes

What the three passes have in common.  A dispatch replaces the row it is about, and after a
failure it runs a cascade.  A cascade leaves ready rows alone, so a pass finds each step of its
list as it has read it, and a row that is past being dispatched stays so.  A pass that reports
no failure has run no cascade, and leaves nothing ready of the kind it dispatches.
-/

namespace Stroem.Dispatch

open Foundation JobStepRepo Cascade Engine

/-! ## Replacing one row -/

structure Replaces (r r' : JobStepRow) (rows rows' : List JobStepRow) : Prop where
  keyed : Keyed JobStepRow.stepName rows'
  name : r'.stepName = r.stepName
  mem : ∀ a, a ∈ rows' ↔ a = r' ∨ a ∈ rows ∧ a.stepName ≠ r.stepName

namespace Replaces

variable {r r' r'' : JobStepRow} {rows mid last : List JobStepRow}

theorem run {u : Update JobStepRow} (h : Keyed JobStepRow.stepName rows)
    (hguard : ∀ a, u.guard a = true → a.stepName = r.stepName)
    (hset : ∀ a, (u.set a).stepName = a.stepName) (hr : r ∈ rows) (hmeets : u.guard r = true) :
    Replaces r (u.set r) rows (u.run rows) :=
  ⟨h.updateWhere hset, hset r, h.mem_run_iff hguard hr hmeets⟩

theorem trans (h : Replaces r r' rows mid) (h' : Replaces r' r'' mid last) :
    Replaces r r'' rows last := by
  refine ⟨h'.keyed, h'.name.trans h.name, fun a => ?_⟩
  rw [h'.mem, h.mem, h.name]
  constructor
  · rintro (rfl | ⟨rfl | ha, hne⟩)
    · exact .inl rfl
    · exact absurd h.name hne
    · exact .inr ha
  · rintro (rfl | ha)
    · exact .inl rfl
    · exact .inr ⟨.inr ha, ha.2⟩

theorem refl (h : Keyed JobStepRow.stepName rows) (hr : r ∈ rows) : Replaces r r rows rows := by
  refine ⟨h, rfl, fun a => ⟨fun ha => ?_, ?_⟩⟩
  · by_cases hname : a.stepName = r.stepName
    · exact .inl (h.eq_of_key ha hr hname)
    · exact .inr ⟨ha, hname⟩
  · rintro (rfl | ⟨ha, -⟩)
    · exact hr
    · exact ha

theorem mem_new (h : Replaces r r' rows last) : r' ∈ last :=
  (h.mem r').mpr (.inl rfl)

theorem andThen {u : Update JobStepRow} (h : Replaces r r' rows mid)
    (hguard : ∀ a, u.guard a = true → a.stepName = r.stepName)
    (hset : ∀ a, (u.set a).stepName = a.stepName) (hmeets : u.guard r' = true) :
    Replaces r (u.set r') rows (u.run mid) :=
  h.trans (.run h.keyed (fun a ha => (hguard a ha).trans h.name.symm) hset h.mem_new hmeets)

theorem mem_other (h : Replaces r r' rows last) {a : JobStepRow} (ha : a ∈ rows)
    (hne : a.stepName ≠ r.stepName) : a ∈ last :=
  (h.mem a).mpr (.inr ⟨ha, hne⟩)

end Replaces

/-! ## Rows past their dispatch -/

def isReadyFor (kind : ActionType) (r : JobStepRow) : Bool :=
  r.status == .ready && r.actionType == kind

def PastReady (kind : ActionType) (r : JobStepRow) : Prop :=
  r.status ≠ .pending ∧ isReadyFor kind r = false

theorem isReadyFor_iff {kind : ActionType} {r : JobStepRow} :
    isReadyFor kind r = true ↔ r.status = .ready ∧ r.actionType = kind := by
  simp [isReadyFor]

theorem PastReady.of_status {kind : ActionType} {r : JobStepRow} (hpend : r.status ≠ .pending)
    (hready : r.status ≠ .ready) : PastReady kind r :=
  ⟨hpend, by simp [isReadyFor, hready]⟩

structure Proceeds (kind : ActionType) (busy : List String) (rows rows' : List JobStepRow) :
    Prop where
  keyed : Keyed JobStepRow.stepName rows'
  names : ∀ r ∈ rows, ∃ r' ∈ rows', r'.stepName = r.stepName
  waiting : ∀ r ∈ rows, r.status = .ready → r.stepName ∉ busy → r ∈ rows'
  past : ∀ r ∈ rows, PastReady kind r → ∃ r' ∈ rows', r'.stepName = r.stepName ∧ PastReady kind r'

namespace Proceeds

variable {kind : ActionType} {busy busy' : List String} {rows mid last : List JobStepRow}

theorem refl (kind : ActionType) (h : Keyed JobStepRow.stepName rows) :
    Proceeds kind [] rows rows :=
  ⟨h, fun r hr => ⟨r, hr, rfl⟩, fun _ hr _ _ => hr, fun r hr hpast => ⟨r, hr, rfl, hpast⟩⟩

theorem trans (h : Proceeds kind busy rows mid) (h' : Proceeds kind busy' mid last) :
    Proceeds kind (busy ++ busy') rows last := by
  refine ⟨h'.keyed, fun r hr => ?_, fun r hr hready hbusy => ?_, fun r hr hpast => ?_⟩
  · obtain ⟨r₁, hr₁, hname⟩ := h.names r hr
    obtain ⟨r₂, hr₂, hname'⟩ := h'.names r₁ hr₁
    exact ⟨r₂, hr₂, hname'.trans hname⟩
  · rw [List.mem_append, not_or] at hbusy
    exact h'.waiting r (h.waiting r hr hready hbusy.1) hready hbusy.2
  · obtain ⟨r₁, hr₁, hname, hpast₁⟩ := h.past r hr hpast
    obtain ⟨r₂, hr₂, hname', hpast₂⟩ := h'.past r₁ hr₁ hpast₁
    exact ⟨r₂, hr₂, hname'.trans hname, hpast₂⟩

theorem replaces {r r' : JobStepRow} (h : Replaces r r' rows last) (hpast : PastReady kind r') :
    Proceeds kind [r.stepName] rows last := by
  refine ⟨h.keyed, fun a ha => ?_, fun a ha _ hbusy => ?_, fun a ha hpast' => ?_⟩
  · by_cases hname : a.stepName = r.stepName
    · exact ⟨r', h.mem_new, h.name.trans hname.symm⟩
    · exact ⟨a, h.mem_other ha hname, rfl⟩
  · exact h.mem_other ha fun heq => hbusy (List.mem_singleton.mpr heq)
  · by_cases hname : a.stepName = r.stepName
    · exact ⟨r', h.mem_new, h.name.trans hname.symm, hpast⟩
    · exact ⟨a, h.mem_other ha hname, rfl, hpast'⟩

end Proceeds

/-! ## Cascades -/

section Cascade

variable {d : DispatchEnv} {db db' : JobTables}

theorem execute_apply (h : execute d db = some db') :
    ∃ plan a, run d.env (passBound (d.order.sort db.steps)) d.task d.job
        (d.order.sort db.steps) (some d.workspaceConfig) d.snapshots = some plan ∧
      Cascade.apply d.now db plan = .ok (a, db') := by
  obtain ⟨plan, hrun, happly⟩ := Option.bind_eq_some_iff.mp h
  obtain ⟨result, hok, rfl⟩ := Option.map_eq_some_iff.mp happly
  refine ⟨plan, result.1, hrun, ?_⟩
  cases hresult : Cascade.apply d.now db plan with
  | error e =>
    rw [hresult] at hok
    cases hok
  | ok result' =>
    rw [hresult] at hok
    cases hok
    rfl

theorem execute_plan (h : execute d db = some db') :
    ∃ plan, run d.env (passBound (d.order.sort db.steps)) d.task d.job (d.order.sort db.steps)
        (some d.workspaceConfig) d.snapshots = some plan ∧
      applyGroups d.now (groupChanges plan.changes) db.steps = .ok db'.steps := by
  obtain ⟨plan, a, hrun, hok⟩ := execute_apply h
  refine ⟨plan, hrun, ?_⟩
  unfold Cascade.apply at hok
  split at hok
  · cases hok
  case h_2 steps hgroups =>
    obtain ⟨-, rfl⟩ := Prod.mk.inj (Except.ok.inj hok)
    exact hgroups

theorem mem_sort {a : JobStepRow} : a ∈ d.order.sort db.steps ↔ a ∈ db.steps :=
  (d.order.perm db.steps).mem_iff

theorem Inherited.execute {P : JobStepRow → Prop} (hP : Inherited P)
    (h : ∀ r ∈ db.steps, P r) (hexec : execute d db = some db') : ∀ r ∈ db'.steps, P r := by
  obtain ⟨plan, hrun, happly⟩ := execute_plan hexec
  have hread : ∀ r ∈ d.order.sort db.steps, P r := fun r hr => h r (mem_sort.mp hr)
  exact Stays.plan hP.kept h (fun c hc i hi => hP.newSteps hread hrun hc hi _) happly

theorem execute_effect (hk : Keyed JobStepRow.stepName db.steps)
    (hexec : execute d db = some db') :
    ∃ plan, run d.env (passBound (d.order.sort db.steps)) d.task d.job (d.order.sort db.steps)
        (some d.workspaceConfig) d.snapshots = some plan ∧
      PlanEffect d.now plan.changes db.steps db'.steps := by
  obtain ⟨plan, hrun, happly⟩ := execute_plan hexec
  obtain ⟨cs, hperm, hchain⟩ := applyGroups_chain hk happly
  rw [flatMap_groupChanges] at hperm
  exact ⟨plan, hrun, (hchain.effect hk).congr fun c => hperm.mem_iff⟩

theorem chain_ready {now : Time} {cs : List Change} {rows rows' : List JobStepRow}
    (h : Chain now cs rows rows') {r : JobStepRow} (hr : r ∈ rows) (hready : r.status = .ready) :
    r ∈ rows' := by
  induction h with
  | nil => exact hr
  | cons happlies _ ih =>
    refine ih ?_
    obtain ⟨moved, rfl, hmoved⟩ := happlies.rows
    obtain ⟨r', hr', hrow⟩ := mem_of_forall₂_left hmoved hr
    refine List.mem_append_left _ ?_
    rcases hrow with ⟨c, -, heffect⟩ | ⟨rfl, -⟩
    · have hasked := heffect.asked
      rw [hready] at hasked
      cases c <;> cases hasked
    · exact hr'

theorem planMoved_ready {now : Time} {cs : List Change} {rows rows' : List JobStepRow}
    (h : PlanEffect now cs rows rows') {r r' : JobStepRow} (hr : r ∈ rows)
    (hmoved : PlanMoved cs r r') (hready : r'.status = .ready) :
    r' = r ∨ r.status = .pending := by
  rcases hmoved.outcome with heq | ⟨-, c, hc, htarget, hstatus⟩
  · exact .inl heq
  · rw [hready] at hstatus
    refine .inr ?_
    cases c with
    | promote step => exact h.asked _ hc rfl r hr htarget.symm
    | rollup p outcome => cases outcome <;> cases hstatus
    | _ => cases hstatus

theorem proceeds_execute (kind : ActionType) (hk : Keyed JobStepRow.stepName db.steps)
    (hexec : execute d db = some db') : Proceeds kind [] db.steps db'.steps := by
  obtain ⟨plan, hrun, heffect⟩ := execute_effect hk hexec
  obtain ⟨plan', -, happly⟩ := execute_plan hexec
  obtain ⟨cs, -, hchain⟩ := applyGroups_chain hk happly
  refine ⟨heffect.keyed, fun r hr => ?_, fun r hr hready _ => chain_ready hchain hr hready,
    fun r hr hpast => ?_⟩
  · obtain ⟨r', hr', hmoved⟩ := heffect.kept r hr
    exact ⟨r', hr', hmoved.keeps.stepName⟩
  obtain ⟨r', hr', hmoved⟩ := heffect.kept r hr
  refine ⟨r', hr', hmoved.keeps.stepName, ?_⟩
  by_cases heq : r' = r
  · rwa [heq]
  · refine .of_status (fun hpend => heq (hmoved.of_pending hpend)) fun hready => ?_
    exact (planMoved_ready heffect hr hmoved hready).elim heq hpast.1

variable (d db) in
theorem orchestrateAfterFailure_steps :
    execute d db = none ∧ orchestrateAfterFailure d db = db ∨
      ∃ db', execute d db = some db' ∧ (orchestrateAfterFailure d db).steps = db'.steps := by
  unfold orchestrateAfterFailure cascadeAndSettle
  cases hexec : execute d db with
  | none => exact .inl ⟨rfl, rfl⟩
  | some db' =>
    refine .inr ⟨db', rfl, ?_⟩
    simp only [Option.map_some, Option.getD_some, settleIfAllTerminal]
    split
    · rfl
    · split <;> rfl

theorem Inherited.orchestrate {P : JobStepRow → Prop} (hP : Inherited P)
    (h : ∀ r ∈ db.steps, P r) : ∀ r ∈ (orchestrateAfterFailure d db).steps, P r := by
  rcases orchestrateAfterFailure_steps d db with ⟨-, heq⟩ | ⟨db', hexec, heq⟩
  · rw [heq]
    exact h
  · rw [heq]
    exact Inherited.execute hP h hexec

theorem proceeds_orchestrate (kind : ActionType) (hk : Keyed JobStepRow.stepName db.steps) :
    Proceeds kind [] db.steps (orchestrateAfterFailure d db).steps := by
  rcases orchestrateAfterFailure_steps d db with ⟨-, heq⟩ | ⟨db', hexec, heq⟩
  · rw [heq]
    exact .refl kind hk
  · rw [heq]
    exact proceeds_execute kind hk hexec

end Cascade

/-! ## One pass -/

/--
What a dispatch of ready steps of one kind does: it replaces the row by one past its dispatch,
and reports a failure iff it runs the cascade after one.
-/
structure Dispatches (d : DispatchEnv) (kind : ActionType) (Inv : JobTables → Prop)
    (dispatch : JobStepRow → JobTables → Bool × JobTables) : Prop where
  keyed : ∀ db, Inv db → Keyed JobStepRow.stepName db.steps
  inv : ∀ r db, Inv db → r ∈ db.steps → isReadyFor kind r = true → Inv (dispatch r db).2
  step : ∀ r db, Inv db → r ∈ db.steps → isReadyFor kind r = true →
    ∃ r' db', Replaces r r' db.steps db'.steps ∧ PastReady kind r' ∧ PastReady .deferred r' ∧
      (dispatch r db = (false, db') ∨ dispatch r db = (true, orchestrateAfterFailure d db'))

namespace Dispatches

variable {d : DispatchEnv} {kind : ActionType} {Inv : JobTables → Prop}
  {dispatch : JobStepRow → JobTables → Bool × JobTables}

theorem proceeds (h : Dispatches d kind Inv dispatch) {tracked : ActionType}
    (htracked : tracked = kind ∨ tracked = .deferred) {r : JobStepRow} {db : JobTables}
    (hInv : Inv db) (hr : r ∈ db.steps) (hready : isReadyFor kind r = true) :
    Proceeds tracked [r.stepName] db.steps (dispatch r db).2.steps ∧
      ∃ r' ∈ (dispatch r db).2.steps, r'.stepName = r.stepName ∧ PastReady tracked r' := by
  obtain ⟨r', db', hreplaces, hkind, hdeferred, hresult⟩ := h.step r db hInv hr hready
  have hpast : PastReady tracked r' := by
    rcases htracked with rfl | rfl
    · exact hkind
    · exact hdeferred
  have hfirst : Proceeds tracked [r.stepName] db.steps db'.steps := .replaces hreplaces hpast
  rcases hresult with heq | heq
  · rw [heq]
    exact ⟨hfirst, r', hreplaces.mem_new, hreplaces.name, hpast⟩
  · rw [heq]
    have hcascade := proceeds_orchestrate (d := d) tracked hfirst.keyed
    obtain ⟨r₁, hr₁, hname, hpast₁⟩ := hcascade.past r' hreplaces.mem_new hpast
    exact ⟨hfirst.trans hcascade, r₁, hr₁, hname.trans hreplaces.name, hpast₁⟩

-- The steps still to come are as they were read.
private theorem waiting {tracked : ActionType} {steps rows rows' : List JobStepRow}
    {r : JobStepRow} (hfirst : Proceeds tracked [r.stepName] rows rows')
    (hsteps : ∀ a ∈ r :: steps, a ∈ rows ∧ isReadyFor kind a = true)
    (hnodup : Keyed JobStepRow.stepName (r :: steps)) :
    ∀ a ∈ steps, a ∈ rows' ∧ isReadyFor kind a = true := by
  intro a ha
  obtain ⟨hmem, haready⟩ := hsteps a (List.mem_cons_of_mem r ha)
  refine ⟨hfirst.waiting a hmem (isReadyFor_iff.mp haready).1 ?_, haready⟩
  simpa using hnodup.key_ne a ha

theorem workThrough (h : Dispatches d kind Inv dispatch) {tracked : ActionType}
    (htracked : tracked = kind ∨ tracked = .deferred) {steps : List JobStepRow} {db : JobTables}
    (hInv : Inv db) (hsteps : ∀ r ∈ steps, r ∈ db.steps ∧ isReadyFor kind r = true)
    (hnodup : Keyed JobStepRow.stepName steps) :
    Inv (dispatchAll dispatch steps db).2 ∧
      Proceeds tracked (steps.map JobStepRow.stepName) db.steps
        (dispatchAll dispatch steps db).2.steps ∧
      ∀ r ∈ steps, ∃ r' ∈ (dispatchAll dispatch steps db).2.steps,
        r'.stepName = r.stepName ∧ PastReady tracked r' := by
  induction steps generalizing db with
  | nil => exact ⟨hInv, .refl tracked (h.keyed db hInv), by simp⟩
  | cons r steps ih =>
    obtain ⟨hr, hready⟩ := hsteps r List.mem_cons_self
    obtain ⟨hfirst, hdone⟩ := h.proceeds htracked hInv hr hready
    have hrest := waiting hfirst hsteps hnodup
    obtain ⟨hInv', hlast, hdone'⟩ := ih (h.inv r db hInv hr hready) hrest hnodup.of_cons
    refine ⟨hInv', hfirst.trans hlast, fun a ha => ?_⟩
    rcases List.mem_cons.mp ha with rfl | ha
    · obtain ⟨r', hr', hname, hpast⟩ := hdone
      obtain ⟨r'', hr'', hname', hpast'⟩ := hlast.past r' hr' hpast
      exact ⟨r'', hr'', hname'.trans hname, hpast'⟩
    · exact hdone' a ha

theorem unreported (h : Dispatches d kind Inv dispatch) {steps : List JobStepRow}
    {db : JobTables} (hInv : Inv db)
    (hsteps : ∀ r ∈ steps, r ∈ db.steps ∧ isReadyFor kind r = true)
    (hnodup : Keyed JobStepRow.stepName steps)
    (hquiet : (dispatchAll dispatch steps db).1 = false) :
    ∀ a ∈ (dispatchAll dispatch steps db).2.steps, isReadyFor kind a = true →
      a ∈ db.steps := by
  induction steps generalizing db with
  | nil => exact fun a ha _ => ha
  | cons r steps ih =>
    obtain ⟨hr, hready⟩ := hsteps r List.mem_cons_self
    simp only [dispatchAll, Bool.or_eq_false_iff] at hquiet
    have hfirst := (h.proceeds (.inl rfl) hInv hr hready).1
    have hrest := waiting hfirst hsteps hnodup
    intro a ha haready
    have hmid := ih (h.inv r db hInv hr hready) hrest hnodup.of_cons hquiet.2 a ha haready
    obtain ⟨r', db', hreplaces, hpast, -, heq | heq⟩ := h.step r db hInv hr hready
    · rw [heq] at hmid
      rcases (hreplaces.mem a).mp hmid with rfl | ⟨hmem, -⟩
      · rw [hpast.2] at haready
        cases haready
      · exact hmem
    · rw [heq] at hquiet
      cases hquiet.1

end Dispatches

theorem ready_steps (d : DispatchEnv) (kind : ActionType) {db : JobTables}
    (hk : Keyed JobStepRow.stepName db.steps) :
    (∀ r ∈ (d.order.sort db.steps).filter (isReadyFor kind),
      r ∈ db.steps ∧ isReadyFor kind r = true) ∧
      Keyed JobStepRow.stepName ((d.order.sort db.steps).filter (isReadyFor kind)) := by
  refine ⟨fun r hr => ?_, ?_⟩
  · obtain ⟨hmem, hready⟩ := List.mem_filter.mp hr
    exact ⟨mem_sort.mp hmem, hready⟩
  · have hsorted : Keyed JobStepRow.stepName (d.order.sort db.steps) :=
      ((d.order.perm db.steps).map JobStepRow.stepName).nodup_iff.mpr hk
    exact List.Nodup.sublist (List.filter_sublist.map _) hsorted

def NoneReady (kind : ActionType) (db : JobTables) : Prop :=
  ∀ r ∈ db.steps, isReadyFor kind r = false

instance (kind : ActionType) (db : JobTables) : Decidable (NoneReady kind db) :=
  inferInstanceAs (Decidable (∀ r ∈ db.steps, isReadyFor kind r = false))

theorem NoneReady.filter_eq_nil {d : DispatchEnv} {kind : ActionType} {db : JobTables}
    (h : NoneReady kind db) : (d.order.sort db.steps).filter (isReadyFor kind) = [] := by
  refine List.filter_eq_nil_iff.mpr fun r hr => ?_
  rw [h r (mem_sort.mp hr)]
  exact Bool.false_ne_true

section Pass

variable {d : DispatchEnv} {kind : ActionType} {Inv : JobTables → Prop}
  {dispatch : JobStepRow → JobTables → Bool × JobTables} {db : JobTables}

theorem Dispatches.pass (h : Dispatches d kind Inv dispatch) {tracked : ActionType}
    (htracked : tracked = kind ∨ tracked = .deferred) (hInv : Inv db) :
    let db' := (dispatchAll dispatch
      ((d.order.sort db.steps).filter (isReadyFor kind)) db).2
    Inv db' ∧ Proceeds tracked (((d.order.sort db.steps).filter (isReadyFor kind)).map
        JobStepRow.stepName) db.steps db'.steps ∧
      (∀ r ∈ db.steps, isReadyFor kind r = true →
        ∃ r' ∈ db'.steps, r'.stepName = r.stepName ∧ PastReady tracked r') ∧
      ∀ r ∈ db.steps, r.status = .ready → r.actionType ≠ kind → r ∈ db'.steps := by
  obtain ⟨hsteps, hnodup⟩ := ready_steps d kind (h.keyed db hInv)
  obtain ⟨hInv', hproceeds, hdone⟩ := h.workThrough htracked hInv hsteps hnodup
  refine ⟨hInv', hproceeds, fun r hr hready => hdone r ?_, fun r hr hready hne => ?_⟩
  · exact List.mem_filter.mpr ⟨mem_sort.mpr hr, hready⟩
  · refine hproceeds.waiting r hr hready fun hmem => ?_
    obtain ⟨a, ha, hname⟩ := List.mem_map.mp hmem
    obtain ⟨hmem', haready⟩ := hsteps a ha
    obtain rfl := (h.keyed db hInv).eq_of_key hmem' hr hname
    exact hne (isReadyFor_iff.mp haready).2

theorem Dispatches.noneReady (h : Dispatches d kind Inv dispatch) (hInv : Inv db)
    (hquiet : (dispatchAll dispatch
      ((d.order.sort db.steps).filter (isReadyFor kind)) db).1 = false) :
    NoneReady kind (dispatchAll dispatch
      ((d.order.sort db.steps).filter (isReadyFor kind)) db).2 := by
  obtain ⟨hsteps, hnodup⟩ := ready_steps d kind (h.keyed db hInv)
  obtain ⟨hInv', -, hdone, -⟩ := h.pass (.inl rfl) hInv
  intro a ha
  by_contra hready
  rw [Bool.not_eq_false] at hready
  have hmem := h.unreported hInv hsteps hnodup hquiet a ha hready
  obtain ⟨a', ha', hname, hpast⟩ := hdone a hmem hready
  rw [(h.keyed _ hInv').eq_of_key ha' ha hname, PastReady, hready] at hpast
  cases hpast.2

end Pass

end Stroem.Dispatch
