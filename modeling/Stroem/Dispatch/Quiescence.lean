import Stroem.Dispatch.Aftermath

/-!
# Quiescence of a dispatch

`advance` and `init` run a cascade and then dispatch rounds.  A round resolves the deferred steps,
dispatches the task steps, reconciles children that settled at their creation and dispatches the
approval steps, and it is repeated while it has made a new deferred step ready.
-/

namespace Stroem.Dispatch

open Foundation JobStepRepo Cascade Engine JobCreation

/-! ## Runs of `advance` and `init` -/

inductive Entry where
  | advance
  | init
  deriving DecidableEq

inductive Phase where
  | entry (e : Entry)
  | rounds (e : Entry) (d : DispatchEnv) (rounds : DispatchRounds)
  | reconcile (e : Entry)

inductive Visit where
  | tasks (d : DispatchEnv) (db : JobTables)
  | approvals (d : DispatchEnv) (db : JobTables)

inductive ChildOutcome where
  | completed (output : Option Json)
  | cancelled
  | failed (error : String)
  deriving DecidableEq

def ChildOutcome.record (step : String) (now : Time) : ChildOutcome → Update JobStepRow
  | .completed output => markCompleted step output now
  | .cancelled => markCancelled step now
  | .failed error => markFailed step error now

def propagate (step : String) (now : Time) (outcome : ChildOutcome) (db : JobTables) :
    JobTables :=
  { db with steps := (outcome.record step now).run db.steps }

/--
Runs of a job of the task with the clock at `since` or later, and the dispatches of their last
rounds. Reconciling writes the outcome of a child and advances the job again.
-/
inductive Runs (since : Time) (task : TaskDef) :
    Phase → List Visit → JobTables → JobTables → Prop
  | closed {db : JobTables} : db.jobStatus.isTerminal = true →
      Runs since task (.entry .advance) [] db db
  | advance {d : DispatchEnv} {visits : List Visit} {db db₁ db₂ : JobTables} :
      d.task = task → since ≤ d.now → db.jobStatus.isTerminal = false →
      cascadeAndSettle d db = some db₁ →
      Runs since task (.rounds .advance d (.start d db₁)) visits db₁ db₂ →
      Runs since task (.entry .advance) visits db db₂
  | init {d : DispatchEnv} {visits : List Visit} {db db₁ db₂ : JobTables} :
      d.task = task → since ≤ d.now → db.jobStatus.isTerminal = false →
      execute d db = some db₁ →
      Runs since task (.rounds .init d (.start d db₁)) visits db₁ db₂ →
      Runs since task (.entry .init) visits db (settleIfAllTerminal d db₂)
  | lastRound {e : Entry} {d : DispatchEnv} {rounds : DispatchRounds} {fuel : Nat}
      {visits : List Visit} {db db₁ db₂ : JobTables} :
      resolveDeferredSteps d fuel 0 db = some db₁ →
      Runs since task (.reconcile e) visits (handleTaskSteps d db₁) db₂ →
      (rounds.again d (handleApprovalSteps d db₂)).1 = false →
      Runs since task (.rounds e d rounds) (.tasks d db₁ :: .approvals d db₂ :: visits) db
        (handleApprovalSteps d db₂)
  | nextRound {e : Entry} {d : DispatchEnv} {rounds rounds' : DispatchRounds} {fuel : Nat}
      {visits visits' : List Visit} {db db₁ db₂ db₃ : JobTables} :
      resolveDeferredSteps d fuel 0 db = some db₁ →
      Runs since task (.reconcile e) visits' (handleTaskSteps d db₁) db₂ →
      rounds.again d (handleApprovalSteps d db₂) = (true, rounds') →
      Runs since task (.rounds e d rounds') visits (handleApprovalSteps d db₂) db₃ →
      Runs since task (.rounds e d rounds) visits db db₃
  | reconciled {e : Entry} {db : JobTables} : Runs since task (.reconcile e) [] db db
  | child {r : JobStepRow} {now : Time} {outcome : ChildOutcome} {visits visits' : List Visit}
      {db db₁ db₂ : JobTables} :
      r ∈ db.steps → r.status = .running → r.isPlaceholder = false →
      Runs since task (.entry .advance) visits (propagate r.stepName now outcome db) db₁ →
      Runs since task (.reconcile .advance) visits' db₁ db₂ →
      Runs since task (.reconcile .advance) (visits ++ visits') db db₂
  | childError {d : DispatchEnv} {r : JobStepRow} {now : Time} {outcome : ChildOutcome}
      {visits : List Visit} {db db₁ : JobTables} :
      r ∈ db.steps → r.status = .running → r.isPlaceholder = false →
      cascadeAndSettle d (propagate r.stepName now outcome db) = none →
      Runs since task (.reconcile .advance) visits (propagate r.stepName now outcome db) db₁ →
      Runs since task (.reconcile .advance) visits db db₁

/-! ## Rounds -/

theorem absorbNew_spec (seen now : List String) :
    (∀ name, name ∈ (absorbNew seen now).2 ↔ name ∈ seen ∨ name ∈ now) ∧
      (seen.Nodup → (absorbNew seen now).2.Nodup) ∧
      ((absorbNew seen now).1 = false → (absorbNew seen now).2 = seen) ∧
      ((absorbNew seen now).1 = true → seen.length < (absorbNew seen now).2.length) := by
  -- the loop, from any accumulator
  have hfold : ∀ (now : List String) (acc : Bool × List String),
      let last := now.foldl
        (fun acc name => if name ∈ acc.2 then acc else (true, name :: acc.2)) acc
      (∀ name, name ∈ last.2 ↔ name ∈ acc.2 ∨ name ∈ now) ∧ (acc.2.Nodup → last.2.Nodup) ∧
        (last.1 = false → acc.1 = false ∧ last.2 = acc.2) ∧
        (last.1 = true → acc.1 = true ∨ acc.2.length < last.2.length) ∧
        acc.2.length ≤ last.2.length := by
    intro now
    induction now with
    | nil => exact fun acc => ⟨by simp, id, fun h => ⟨h, rfl⟩, .inl, le_refl _⟩
    | cons name now ih =>
      intro acc
      by_cases hmem : name ∈ acc.2
      · obtain ⟨hiff, hnodup, hfalse, htrue, hle⟩ := ih acc
        simp only [List.foldl_cons, if_pos hmem]
        refine ⟨fun n => ?_, hnodup, hfalse, htrue, hle⟩
        rw [hiff, List.mem_cons]
        constructor
        · exact Or.imp_right .inr
        · rintro (h | rfl | h)
          · exact .inl h
          · exact .inl hmem
          · exact .inr h
      · obtain ⟨hiff, hnodup, hfalse, -, hle⟩ := ih (true, name :: acc.2)
        simp only [List.length_cons] at hle
        simp only [List.foldl_cons, if_neg hmem]
        refine ⟨fun n => ?_, fun h => hnodup (List.nodup_cons.mpr ⟨hmem, h⟩),
          fun h => ?_, fun _ => .inr (by omega), by omega⟩
        · rw [hiff, List.mem_cons, List.mem_cons]
          tauto
        · cases (hfalse h).1
  obtain ⟨hiff, hnodup, hfalse, htrue, -⟩ := hfold now (false, seen)
  exact ⟨hiff, hnodup, fun h => (hfalse h).2, fun h => (htrue h).resolve_left nofun⟩

structure Owed (since : Time) (d : DispatchEnv) (rounds : DispatchRounds) (db : JobTables) :
    Prop where
  clock : since ≤ d.now
  nodup : rounds.seen.Nodup
  known : ∀ name ∈ rounds.seen, ∃ r ∈ db.steps, r.stepName = name ∧
    (PastReady .deferred r ∨ isReadyFor .deferred r = true)
  repeats : rounds.repeats ≤ rounds.seen.length

theorem mem_readyNames {d : DispatchEnv} {db : JobTables} {name : String} :
    name ∈ (readyDeferredSteps d db).map JobStepRow.stepName ↔
      ∃ r ∈ db.steps, r.stepName = name ∧ isReadyFor .deferred r = true := by
  constructor
  · intro h
    obtain ⟨r, hr, hname⟩ := List.mem_map.mp h
    obtain ⟨hmem, hready⟩ := List.mem_filter.mp hr
    exact ⟨r, mem_sort.mp hmem, hname, hready⟩
  · rintro ⟨r, hr, hname, hready⟩
    exact List.mem_map.mpr ⟨r, List.mem_filter.mpr ⟨mem_sort.mpr hr, hready⟩, hname⟩

section Rounds

variable {since : Time} {d : DispatchEnv} {kinds : String → ActionType}
  {rounds : DispatchRounds} {db db₁ db₂ : JobTables}

theorem owed_start (hclock : since ≤ d.now) (hk : Keyed JobStepRow.stepName db.steps) :
    Owed since d (.start d db) db := by
  refine ⟨hclock, (ready_steps d .deferred hk).2, fun name hname => ?_, Nat.zero_le _⟩
  obtain ⟨r, hr, hname, hready⟩ := mem_readyNames.mp hname
  exact ⟨r, hr, hname, .inr hready⟩

theorem Owed.resolved (hnames : ∀ name ∈ d.task.flow.keys, '[' ∉ name.toList)
    (h : Owed since d rounds db) (hkept : Kept since d.task kinds db) {fuel : Nat}
    (hresolve : resolveDeferredSteps d fuel 0 db = some db₁) (hlater : Later db₁ db₂) :
    ∀ name ∈ rounds.seen, ∃ r ∈ db₂.steps, r.stepName = name ∧ PastReady .deferred r := by
  obtain ⟨-, hlater₁, -, hready⟩ := resolveDeferredSteps_later hnames h.clock hkept
    (Nat.zero_le _) hresolve
  intro name hname
  obtain ⟨r, hr, rfl, hstate⟩ := h.known name hname
  obtain ⟨r₁, hr₁, hname₁, hpast₁⟩ : ∃ r₁ ∈ db₁.steps, r₁.stepName = r.stepName ∧
      PastReady .deferred r₁ := by
    rcases hstate with hpast | hr'
    · exact hlater₁.past r hr hpast
    · exact hready r hr hr'
  obtain ⟨r₂, hr₂, hname₂, hpast₂⟩ := hlater.past r₁ hr₁ hpast₁
  exact ⟨r₂, hr₂, hname₂.trans hname₁, hpast₂⟩

theorem Owed.again (h : Owed since d rounds db) (hk : Keyed JobStepRow.stepName db₂.steps)
    (hseen : ∀ name ∈ rounds.seen, ∃ r ∈ db₂.steps, r.stepName = name ∧ PastReady .deferred r) :
    ((rounds.again d db₂).1 = false → NoneReady .deferred db₂) ∧
      Owed since d (rounds.again d db₂).2 db₂ := by
  obtain ⟨hmem, hnodup, hold, hnew⟩ :=
    absorbNew_spec rounds.seen ((readyDeferredSteps d db₂).map JobStepRow.stepName)
  have hknown : ∀ name ∈ (absorbNew rounds.seen
      ((readyDeferredSteps d db₂).map JobStepRow.stepName)).2, ∃ r ∈ db₂.steps,
      r.stepName = name ∧ (PastReady .deferred r ∨ isReadyFor .deferred r = true) := by
    intro name hname
    rcases (hmem name).mp hname with hname | hname
    · obtain ⟨r, hr, hname, hpast⟩ := hseen name hname
      exact ⟨r, hr, hname, .inl hpast⟩
    · obtain ⟨r, hr, hname, hready⟩ := mem_readyNames.mp hname
      exact ⟨r, hr, hname, .inr hready⟩
  unfold DispatchRounds.again
  cases habsorb : absorbNew rounds.seen
      ((readyDeferredSteps d db₂).map JobStepRow.stepName) with
  | mk new seen =>
    rw [habsorb] at hmem hnodup hold hnew hknown
    cases new with
    | false =>
      obtain rfl := hold rfl
      refine ⟨fun _ r hr => ?_, h.clock, h.nodup, hknown, h.repeats⟩
      by_contra hready
      rw [Bool.not_eq_false] at hready
      obtain ⟨a, ha, hname, hpast⟩ :=
        hseen r.stepName ((hmem _).mpr (.inr (mem_readyNames.mpr ⟨r, hr, rfl, hready⟩)))
      rw [hk.eq_of_key ha hr hname, PastReady, hready] at hpast
      cases hpast.2
    | true =>
      have hlt : rounds.seen.length < seen.length := hnew rfl
      have hrepeats : rounds.repeats + 1 ≤ seen.length := by
        have := h.repeats
        omega
      have hbound : seen.length ≤ db₂.steps.length := by
        have hsub : seen ⊆ db₂.steps.map JobStepRow.stepName := by
          intro name hname
          obtain ⟨r, hr, hname, -⟩ := hknown name hname
          exact List.mem_map.mpr ⟨r, hr, hname⟩
        simpa using ((hnodup h.nodup).subperm hsub).length_le
      refine ⟨fun hstop => ?_, h.clock, hnodup h.nodup, hknown, hrepeats⟩
      have hwithin : withinBound (rounds.repeats + 1) db₂.steps.length = true :=
        decide_eq_true (hrepeats.trans hbound)
      rw [hwithin] at hstop
      cases hstop

end Rounds

/-! ## Quiescence -/

structure Quiescent (db : JobTables) : Prop where
  tasks : NoneReady .task db
  approvals : NoneReady .approval db
  deferred : NoneReady .deferred db

/--
What the dispatches are about: a task dispatch that fails no step, or a flow whose loops of task
steps stop at a failure; and approvals whose failures set no task or approval step off.
-/
def Visit.Harmless (kinds : String → ActionType) : Visit → Prop
  | .tasks d db => StopsAtFailure d.task kinds ∨ ∀ r ∈ db.steps, isReadyFor .task r = true →
      (d.taskOutcome r.stepName).result = .created
  | .approvals d db => ∀ r ∈ db.steps, r.actionType = .task ∨ r.actionType = .approval →
      ¬SetOff d db.steps r

def Phase.Pre (since : Time) (task : TaskDef) (db : JobTables) : Phase → Prop
  | .rounds _ d seen => d.task = task ∧ Owed since d seen db
  | .entry _ | .reconcile _ => True

def Phase.Post (db db' : JobTables) : Phase → Prop
  | .entry _ | .rounds _ _ _ => Quiescent db'
  | .reconcile _ => NoneReady .task db → NoneReady .task db'

section Parts

variable {since : Time} {task : TaskDef} {kinds : String → ActionType} {d : DispatchEnv}
  {db db' : JobTables}

theorem settleIfAllTerminal_steps : (settleIfAllTerminal d db).steps = db.steps := by
  unfold settleIfAllTerminal
  split
  · rfl
  · split <;> rfl

theorem later_settle (d : DispatchEnv) (db : JobTables) :
    Later db (settleIfAllTerminal d db) := by
  refine ⟨fun r hr => ⟨r, ?_, rfl⟩, fun r hr hpast => ⟨r, ?_, rfl, hpast⟩, fun hterm => ?_⟩
  · rwa [settleIfAllTerminal_steps]
  · rwa [settleIfAllTerminal_steps]
  · unfold settleIfAllTerminal
    split
    · exact hterm
    · split
      case isTrue hlive =>
        rcases hlive with hs | hs <;> simp [hs, JobStatus.isTerminal] at hterm
      case isFalse => exact hterm

theorem later_execute (hkept : Kept since task kinds db) (hopen : db.jobStatus.isTerminal = false)
    (hexec : execute d db = some db') : Later db db' := by
  have hproceeds := proceeds_execute .deferred hkept.keyed hexec
  refine ⟨hproceeds.names, hproceeds.past, fun hterm => ?_⟩
  rw [hopen] at hterm
  cases hterm

theorem propagate_kept {r : JobStepRow} (hkept : Kept since task kinds db) (hr : r ∈ db.steps)
    (hrun : r.status = .running) (hplain : r.isPlaceholder = false) (now : Time)
    (outcome : ChildOutcome) :
    Kept since task kinds (propagate r.stepName now outcome db) ∧
      Later db (propagate r.stepName now outcome db) ∧
      (NoneReady .task db → NoneReady .task (propagate r.stepName now outcome db)) := by
  have hguard : ∀ a, (outcome.record r.stepName now).guard a = true →
      a.stepName = r.stepName := by
    intro a ha
    cases outcome with
    | completed output => exact of_decide_eq_true ha
    | failed error => exact of_decide_eq_true ha
    | cancelled =>
      simp only [ChildOutcome.record, markCancelled, Bool.and_eq_true, decide_eq_true_eq] at ha
      exact ha.1
  have hmeets : (outcome.record r.stepName now).guard r = true := by
    cases outcome <;>
      simp [ChildOutcome.record, markCompleted, markCancelled, markFailed, hrun]
  have hreplaces := Replaces.run hkept.keyed hguard (fun _ => by cases outcome <;> rfl) hr hmeets
  have hterm : ((outcome.record r.stepName now).set r).status.isTerminal = true := by
    cases outcome <;> rfl
  have hon : MovesOn r ((outcome.record r.stepName now).set r) := by
    refine ⟨?_, ⟨by simp [hrun], by simp [hrun, StepStatus.isTerminal]⟩, hplain, ?_, ?_, ?_⟩
    · cases outcome <;> exact ⟨rfl, rfl, rfl, rfl⟩
    · cases outcome <;> rintro ⟨⟩
    · cases outcome <;> rintro ⟨⟩
    · cases outcome <;> exact hkept.rows.whole r hr
  have hfree : LeaseFree since ((outcome.record r.stepName now).set r) := by
    cases outcome <;> exact hkept.free r hr
  have hpast : ∀ kind, PastReady kind ((outcome.record r.stepName now).set r) := by
    intro kind
    cases outcome <;> exact .of_status (fun h => by cases h) (fun h => by cases h)
  have hopen : db.jobStatus.isTerminal = false := by
    refine hkept.job.resolve_right fun hall => ?_
    have hfinished := hall r hr
    rw [hrun] at hfinished
    cases hfinished
  have hproceeds : Proceeds .deferred [r.stepName] db.steps
      ((outcome.record r.stepName now).run db.steps) := .replaces hreplaces (hpast .deferred)
  refine ⟨⟨hkept.rows.replaces hr hon hreplaces, fun a ha => ?_, .inl hopen⟩,
    ⟨hproceeds.names, hproceeds.past, id⟩, fun hnone a ha => ?_⟩
  · rcases (hreplaces.mem a).mp ha with rfl | ⟨ha, -⟩
    · exact hfree
    · exact hkept.free a ha
  · rcases (hreplaces.mem a).mp ha with rfl | ⟨ha, -⟩
    · exact (hpast .task).2
    · exact hnone a ha

theorem handleApprovalSteps_quiescent
    (hnames : ∀ name ∈ d.task.flow.keys, '[' ∉ name.toList) (hkept : Kept since d.task kinds db)
    (htasks : NoneReady .task db) (hharmless : (Visit.approvals d db).Harmless kinds)
    (hdeferred : NoneReady .deferred (handleApprovalSteps d db)) :
    Quiescent (handleApprovalSteps d db) := by
  have horigin : ∀ kind, kind = .task ∨ kind = .approval →
      ∀ a ∈ (handleApprovalSteps d db).steps, isReadyFor kind a = true →
        ∃ b ∈ db.steps, b.stepName = a.stepName ∧ isReadyFor kind b = true := by
    intro kind hkind a ha hready
    obtain ⟨hstatus, rfl⟩ := isReadyFor_iff.mp hready
    obtain ⟨b, hb, htype, ⟨hname, hbready⟩ | hset⟩ :=
      handleApprovalSteps_aftermath hnames hkept ha hstatus
    · exact ⟨b, hb, hname, isReadyFor_iff.mpr ⟨hbready, htype⟩⟩
    · exact absurd hset (hharmless b hb (by rwa [htype]))
  refine ⟨fun a ha => ?_, fun a ha => ?_, hdeferred⟩
  · by_contra hready
    rw [Bool.not_eq_false] at hready
    obtain ⟨b, hb, -, hbready⟩ := horigin .task (.inl rfl) a ha hready
    rw [htasks b hb] at hbready
    cases hbready
  · by_contra hready
    rw [Bool.not_eq_false] at hready
    obtain ⟨b, hb, hbname, hbready⟩ := horigin .approval (.inr rfl) a ha hready
    obtain ⟨a', ha', hname, hpast⟩ := handleApprovalSteps_ready hnames hkept b hb hbready
    have hkeyed := (handleApprovalSteps_later hnames hkept).1.keyed
    rw [hkeyed.eq_of_key ha' ha (hname.trans hbname), PastReady, hready] at hpast
    cases hpast.2

theorem handleTaskSteps_quiescent
    (hnames : ∀ name ∈ d.task.flow.keys, '[' ∉ name.toList) (hkept : Kept since d.task kinds db)
    (hharmless : (Visit.tasks d db).Harmless kinds) : NoneReady .task (handleTaskSteps d db) := by
  rcases hharmless with hstops | hcreated
  · exact handleTaskSteps_noneReady hnames hstops hkept.rows
  · exact handleTaskSteps_created hkept.rows.stamped hcreated

end Parts

theorem Runs.reached {since : Time} {task : TaskDef} {kinds : String → ActionType}
    {phase : Phase} {visits : List Visit} {db db' : JobTables}
    (hnames : ∀ name ∈ task.flow.keys, '[' ∉ name.toList)
    (hrun : Runs since task phase visits db db') (hkept : Kept since task kinds db)
    (hpre : phase.Pre since task db) :
    Kept since task kinds db' ∧ Later db db' ∧
      (db'.jobStatus.isTerminal = false → (∀ v ∈ visits, v.Harmless kinds) →
        phase.Post db db') := by
  induction hrun with
  | closed hterm =>
    refine ⟨hkept, .refl _, fun hopen => ?_⟩
    rw [hterm] at hopen
    cases hopen
  | advance htask hclock hopen hcascade _ ih =>
    subst htask
    obtain ⟨mid, hexec, rfl⟩ := Option.map_eq_some_iff.mp hcascade
    have hmid := (hkept.execute hnames hopen hexec).1
    obtain ⟨hkept', hlater, hpost⟩ := ih hmid.settle ⟨rfl, owed_start hclock hmid.settle.keyed⟩
    exact ⟨hkept', (later_execute hkept hopen hexec).trans ((later_settle _ mid).trans hlater),
      hpost⟩
  | init htask hclock hopen hexec _ ih =>
    subst htask
    have hmid := (hkept.execute hnames hopen hexec).1
    obtain ⟨hkept', hlater, hpost⟩ := ih hmid ⟨rfl, owed_start hclock hmid.keyed⟩
    refine ⟨hkept'.settle, (later_execute hkept hopen hexec).trans
      (hlater.trans (later_settle _ _)), fun hopen' hharmless => ?_⟩
    obtain ⟨htasks, happrovals, hdeferred⟩ := hpost (by
      by_contra hterm
      rw [Bool.not_eq_false] at hterm
      rw [(later_settle _ _).closed hterm] at hopen'
      cases hopen') hharmless
    refine ⟨?_, ?_, ?_⟩ <;> rwa [NoneReady, settleIfAllTerminal_steps]
  | lastRound hresolve _ hagain ih =>
    obtain ⟨rfl, howed⟩ := hpre
    obtain ⟨hkept₁, hlater₁, -, -⟩ :=
      resolveDeferredSteps_later hnames howed.clock hkept (Nat.zero_le _) hresolve
    obtain ⟨hkept₂, hlater₂⟩ := handleTaskSteps_later hnames hkept₁
    obtain ⟨hkept₃, hlater₃, hpost⟩ := ih hkept₂ trivial
    obtain ⟨hkept₄, hlater₄⟩ := handleApprovalSteps_later hnames hkept₃
    have hlater := hlater₂.trans (hlater₃.trans hlater₄)
    refine ⟨hkept₄, hlater₁.trans hlater, fun hopen hharmless => ?_⟩
    have hopen₃ : _ = false := Bool.eq_false_iff.mpr fun hterm => by
      rw [hlater₄.closed hterm] at hopen
      cases hopen
    have hdeferred :=
      (howed.again hkept₄.keyed (howed.resolved hnames hkept hresolve hlater)).1 hagain
    have htasks := handleTaskSteps_quiescent hnames hkept₁ (hharmless _ List.mem_cons_self)
    have htasks₃ := hpost hopen₃
      (fun v hv => hharmless v (List.mem_cons_of_mem _ (List.mem_cons_of_mem _ hv))) htasks
    exact handleApprovalSteps_quiescent hnames hkept₃ htasks₃
      (hharmless _ (List.mem_cons_of_mem _ List.mem_cons_self)) hdeferred
  | nextRound hresolve _ hagain _ ih ih' =>
    obtain ⟨rfl, howed⟩ := hpre
    obtain ⟨hkept₁, hlater₁, -, -⟩ :=
      resolveDeferredSteps_later hnames howed.clock hkept (Nat.zero_le _) hresolve
    obtain ⟨hkept₂, hlater₂⟩ := handleTaskSteps_later hnames hkept₁
    obtain ⟨hkept₃, hlater₃, -⟩ := ih hkept₂ trivial
    obtain ⟨hkept₄, hlater₄⟩ := handleApprovalSteps_later hnames hkept₃
    have hlater := hlater₂.trans (hlater₃.trans hlater₄)
    have hnext := (howed.again hkept₄.keyed (howed.resolved hnames hkept hresolve hlater)).2
    rw [hagain] at hnext
    obtain ⟨hkept₅, hlater₅, hpost⟩ := ih' hkept₄ ⟨rfl, hnext⟩
    exact ⟨hkept₅, hlater₁.trans (hlater.trans hlater₅), hpost⟩
  | reconciled => exact ⟨hkept, .refl _, fun _ _ => id⟩
  | child hr hrunning hplain _ _ ih ih' =>
    obtain ⟨hkept₁, hlater₁, -⟩ := propagate_kept hkept hr hrunning hplain _ _
    obtain ⟨hkept₂, hlater₂, hpost⟩ := ih hkept₁ trivial
    obtain ⟨hkept₃, hlater₃, hpost'⟩ := ih' hkept₂ trivial
    refine ⟨hkept₃, hlater₁.trans (hlater₂.trans hlater₃), fun hopen hharmless _ => ?_⟩
    have hopen₂ : _ = false := Bool.eq_false_iff.mpr fun hterm => by
      rw [hlater₃.closed hterm] at hopen
      cases hopen
    exact hpost' hopen (fun v hv => hharmless v (List.mem_append_right _ hv))
      (hpost hopen₂ fun v hv => hharmless v (List.mem_append_left _ hv)).tasks
  | childError hr hrunning hplain _ _ ih =>
    obtain ⟨hkept₁, hlater₁, hnone⟩ := propagate_kept hkept hr hrunning hplain _ _
    obtain ⟨hkept₂, hlater₂, hpost⟩ := ih hkept₁ trivial
    exact ⟨hkept₂, hlater₁.trans hlater₂,
      fun hopen hharmless htasks => hpost hopen hharmless (hnone htasks)⟩

theorem Runs.quiescent {since : Time} {task : TaskDef} {kinds : String → ActionType} {e : Entry}
    {visits : List Visit} {db db' : JobTables}
    (hnames : ∀ name ∈ task.flow.keys, '[' ∉ name.toList)
    (hrun : Runs since task (.entry e) visits db db') (hrows : JobRows task kinds db.steps)
    (hfree : ∀ r ∈ db.steps, LeaseFree since r) (hopen : db'.jobStatus.isTerminal = false)
    (hharmless : ∀ v ∈ visits, v.Harmless kinds) : Quiescent db' := by
  refine (hrun.reached hnames ⟨hrows, hfree, .inl ?_⟩ trivial).2.2 hopen hharmless
  cases hrun with
  | closed => exact hopen
  | advance _ _ hstart => exact hstart
  | init _ _ hstart => exact hstart

def fallbackFlow : TaskDef :=
  ⟨⟨[("ask", { action := "confirm" }),
      ("fallback", { action := "deploy", dependsOn := [.step "ask" (.outcomes [.failed])] })],
    by decide⟩⟩

def fallbackRows : JobTables :=
  ⟨.pending, [{ stepName := "ask", actionType := .approval },
    { stepName := "fallback", actionType := .task }]⟩

def answering (task : TaskDef) (approval : ApprovalOutcome) : DispatchEnv where
  env := literalEnv
  task := task
  job := { jobId := 1 }
  workspaceConfig := {}
  snapshots := {}
  order := ⟨id, perm_asRead⟩
  now := 0
  leaseToken _ := 0
  taskOutcome _ := { result := .created }
  approvalOutcome _ := approval
  deferredOutcome _ := .error "no such action"

theorem Runs.initOnce {d : DispatchEnv} {db db₁ : JobTables}
    (hopen : db.jobStatus.isTerminal = false) (hexec : execute d db = some db₁)
    (hresolve : resolveDeferredSteps d 1 0 db₁ = some db₁)
    (hagain : ((DispatchRounds.start d db₁).again d
      (handleApprovalSteps d (handleTaskSteps d db₁))).1 = false) :
    Runs d.now d.task (.entry .init) [.tasks d db₁, .approvals d (handleTaskSteps d db₁)] db
      (settleIfAllTerminal d (handleApprovalSteps d (handleTaskSteps d db₁))) :=
  .init rfl (Nat.le_refl _) hopen hexec (.lastRound hresolve .reconciled hagain)

/-- The message of the approval does not render: the task step after it is left ready. -/
theorem fallback_left_ready :
    ∃ visits db', Runs 0 fallbackFlow (.entry .init) visits fallbackRows db' ∧
      db'.jobStatus.isTerminal = false ∧ ¬NoneReady .task db' := by
  have hrun := Runs.initOnce (d := answering fallbackFlow (.unrendered none "no such variable"))
    (show fallbackRows.jobStatus.isTerminal = false from rfl) rfl rfl (by decide)
  exact ⟨_, _, hrun, by decide, by decide⟩

/-! ## A failure that sets nothing off -/

def releaseFlow : TaskDef :=
  ⟨⟨[("ask", { action := "confirm" }),
      ("deploy", { action := "deploy", dependsOn := [.name "ask"] }),
      ("notify", { action := "notify", dependsOn := [.step "ask" (.outcomes [.failed])] })],
    by decide⟩⟩

def releaseSource (name : String) (_ : FlowStep) : StepSource :=
  .resolved { actionName := name, action := { actionType :=
    if name = "ask" then .approval else if name = "deploy" then .task else .script } }

def releaseRows : List JobStepRow :=
  (createSteps (fun _ => "") {} 1 releaseSource releaseFlow.flow 0).getD []

theorem MayEnd.of_ready {d : DispatchEnv} {rows : List JobStepRow} {name : String}
    {o : DepOutcome} (h : MayEnd d rows name o)
    (hready : ∀ r ∈ rows, r.stepName = name → r.status = .ready)
    (hread : Snapshot.outcome rows name = .pending) : o = .pending ∨ o = .failed := by
  cases h with
  | asRead => exact .inl hread
  | failed => exact .inr rfl
  | rolledUp outcomeOf hr hrun =>
    rw [hready _ hr rfl] at hrun
    cases hrun
  | omitted outcomeOf hr hpend | decided outcomeOf hr hpend | abandoned hr hpend =>
    rw [hready _ hr rfl] at hpend
    cases hpend

theorem releaseFlow_not_setOff {d : DispatchEnv} {rows : List JobStepRow}
    (htask : d.task = releaseFlow)
    (hask : ∀ r ∈ rows, r.stepName = "ask" → r.status = .ready)
    (hread : Snapshot.outcome rows "ask" = .pending)
    (hpending : ∀ r ∈ rows, r.actionType = .task ∨ r.actionType = .approval →
      r.status = .pending → r.stepName = "deploy" ∧ r.loopSource = none) :
    ∀ r ∈ rows, r.actionType = .task ∨ r.actionType = .approval → ¬SetOff d rows r := by
  intro r hr htype hset
  obtain ⟨hname, hplain⟩ := hpending r hr htype hset.pending
  cases hset.starts with
  | advanced hseq hsource =>
    rw [hplain] at hsource
    cases hsource
  | opened outcomeOf hfs hmet hgate =>
    rw [htask, hname] at hfs
    obtain rfl := Option.some.inj hfs
    have hend := (hmet "ask" (by simp [collectNames, DependsOnEntry.names])).of_ready hask hread
    rcases hend with ho | ho <;>
      simp [gate, allTerminalList, allTerminal, satisfiedAll, satisfied, ho] at hgate

theorem Runs.quiescent_releaseFlow :
    createSteps (fun _ => "") {} 1 releaseSource releaseFlow.flow 0 = some releaseRows ∧
      ∃ visits db', Runs 0 releaseFlow (.entry .init) visits ⟨.pending, releaseRows⟩ db' ∧
        db'.steps.map JobStepRow.status = [.failed, .skipped, .ready] ∧ Quiescent db' := by
  have hcreate : createSteps (fun _ => "") {} 1 releaseSource releaseFlow.flow 0 =
      some releaseRows := by decide
  obtain ⟨kinds, hrows⟩ := createSteps_jobRows hcreate
  have hopen : (⟨.pending, releaseRows⟩ : JobTables).jobStatus.isTerminal = false := rfl
  have hrun := Runs.initOnce (d := answering releaseFlow (.unrendered none "no such variable"))
    hopen rfl rfl (by decide)
  refine ⟨hcreate, _, _, hrun, by decide,
    hrun.quiescent (by decide) hrows (by decide) (by decide) fun v hv => ?_⟩
  simp only [List.mem_cons, List.not_mem_nil, or_false] at hv
  rcases hv with rfl | rfl
  · exact .inr fun _ _ _ => rfl
  · exact releaseFlow_not_setOff rfl (by decide) (by decide) (by decide)

end Stroem.Dispatch
