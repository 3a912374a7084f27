import Stroem.Dispatch.Passes

/-!
# Draining the ready task steps

A pass of `handle_task_steps` leaves none of the steps it found ready behind, but its failures
may make others ready.  The loop ends with a ready task step exactly when more generations of
steps become ready one after the other than its bound allows for.
-/

namespace Stroem.Dispatch

open Foundation JobStepRepo Cascade Engine

/-! ## The dispatch of a task step -/

def WholeStamp (r : JobStepRow) : Prop :=
  stampIs (taskStampOf r) r = true

theorem wholeStamp_of_stampIs {pin : Option TaskPin} {r : JobStepRow}
    (h : stampIs pin r = true) : WholeStamp r := by
  have hpin : taskStampOf r = pin := by
    simp only [stampIs, Bool.and_eq_true, beq_iff_eq] at h
    obtain ⟨⟨hworkspace, hgitRef⟩, hcommit⟩ := h
    cases pin <;> simp_all [taskStampOf]
  rwa [WholeStamp, hpin]

theorem wholeStamp_inherited : Inherited WholeStamp := by
  refine ⟨fun r r' hsame h => ?_, fun ph _ h _ _ _ _ _ _ => h⟩
  rw [hsame]
  exact h

structure Stamped (db : JobTables) : Prop where
  keyed : Keyed JobStepRow.stepName db.steps
  whole : ∀ r ∈ db.steps, WholeStamp r

structure HandedOut (r r' : JobStepRow) : Prop where
  keeps : Keeps r r'
  actionType : r'.actionType = r.actionType
  whole : WholeStamp r'
  lease : r'.resolveLeaseUntil = r.resolveLeaseUntil
  status : r'.status = .running ∨ r'.status = .failed

theorem HandedOut.trans {r r' r'' : JobStepRow} (h : HandedOut r r') (h' : HandedOut r' r'') :
    HandedOut r r'' :=
  ⟨h.keeps.trans h'.keeps, h'.actionType.trans h.actionType, h'.whole, h'.lease.trans h.lease,
    h'.status⟩

theorem HandedOut.pastReady {r r' : JobStepRow} (h : HandedOut r r') (kind : ActionType) :
    PastReady kind r' := by
  rcases h.status with hs | hs <;> exact .of_status (by simp [hs]) (by simp [hs])

structure TaskDispatched (d : DispatchEnv) (r r' : JobStepRow) (db db' : JobTables)
    (result : Bool × JobTables) : Prop where
  handedOut : HandedOut r r'
  replaces : Replaces r r' db.steps db'.steps
  jobStatus : db'.jobStatus = db.jobStatus ∨ db'.jobStatus = markRunningIfPending db.jobStatus
  result : r'.status = .running ∧ result = (false, db') ∨
    (d.taskOutcome r.stepName).result ≠ .created ∧ r'.status = .failed ∧
      result = (true, orchestrateAfterFailure d db')

section Task

variable {d : DispatchEnv} {db : JobTables} {r : JobStepRow}

variable (d) in
theorem failTaskStep_spec (db : JobTables) {name : String} (error : String)
    {status : StepStatus} {pin : Option TaskPin} (hk : Keyed JobStepRow.stepName db.steps)
    (hr : r ∈ db.steps) (hname : r.stepName = name) (hstatus : r.status = status)
    (hpin : stampIs pin r = true) :
    ∃ r' db', HandedOut r r' ∧ r'.status = .failed ∧ Replaces r r' db.steps db'.steps ∧
      db'.jobStatus = db.jobStatus ∧
      failTaskStep d name error (some (status, pin)) db =
        (true, orchestrateAfterFailure d db') := by
  subst hname
  have hguard : ∀ a, (failTaskDispatch r.stepName error status pin d.now).guard a = true →
      a.stepName = r.stepName := by
    intro a ha
    simp only [failTaskDispatch, Bool.and_eq_true, decide_eq_true_eq] at ha
    exact ha.1.1
  have hmeets : (failTaskDispatch r.stepName error status pin d.now).guard r = true := by
    simp [failTaskDispatch, hstatus, hpin]
  refine ⟨(failTaskDispatch r.stepName error status pin d.now).set r,
    { db with steps := (failTaskDispatch r.stepName error status pin d.now).run db.steps },
    ⟨⟨rfl, rfl, rfl, rfl⟩, rfl, wholeStamp_of_stampIs hpin, rfl, .inr rfl⟩, rfl,
    .run hk hguard (fun _ => rfl) hr hmeets, rfl, ?_⟩
  simp only [failTaskStep]
  rw [if_pos (hk.rowsAffected_eq_one hguard hr hmeets)]

variable (d) in
theorem dispatchStamped_spec (db : JobTables) {name : String} {stamp : Option TaskPin}
    (hk : Keyed JobStepRow.stepName db.steps) (hr : r ∈ db.steps) (hname : r.stepName = name)
    (hready : r.status = .ready) (hstamp : stampIs stamp r = true) :
    ∃ r' db', TaskDispatched d r r' db db' (dispatchStamped d name stamp db) := by
  subst hname
  have hguard : ∀ a, (claimTaskDispatch r.stepName stamp d.now).guard a = true →
      a.stepName = r.stepName := by
    intro a ha
    simp only [claimTaskDispatch, Bool.and_eq_true, decide_eq_true_eq] at ha
    exact ha.1.1
  have hmeets : (claimTaskDispatch r.stepName stamp d.now).guard r = true := by
    simp [claimTaskDispatch, hready, hstamp]
  have hclaimed := hk.rowsAffected_eq_one hguard hr hmeets
  -- the claim, then the rendered input
  have hclaim := Replaces.run (u := claimTaskDispatch r.stepName stamp d.now) hk hguard
    (fun _ => rfl) hr hmeets
  have hmid := hclaim.andThen (u := updateInput r.stepName (d.taskOutcome r.stepName).input)
    (fun a ha => of_decide_eq_true ha) (fun _ => rfl) (decide_eq_true rfl)
  have hout : HandedOut r ((updateInput r.stepName (d.taskOutcome r.stepName).input).set
      ((claimTaskDispatch r.stepName stamp d.now).set r)) :=
    ⟨⟨rfl, rfl, rfl, rfl⟩, rfl, wholeStamp_of_stampIs hstamp, rfl, .inl rfl⟩
  unfold dispatchStamped
  cases hresult : (d.taskOutcome r.stepName).result with
  | refused error =>
    obtain ⟨r', db', hout', hfailed, hreplaces, hjob, heq⟩ :=
      failTaskStep_spec d db error hk hr rfl hready hstamp
    refine ⟨r', db', hout', hreplaces, .inl hjob, .inr ⟨by simp [hresult], hfailed, ?_⟩⟩
    simp only [hresult]
    exact heq
  | uncreated error =>
    obtain ⟨r', db', hout', hfailed, hreplaces, hjob, heq⟩ :=
      failTaskStep_spec d (markRunningIfPendingServer { db with steps := _ }) error hmid.keyed
        hmid.mem_new hmid.name rfl hstamp
    refine ⟨r', db', hout.trans hout', hmid.trans hreplaces, .inr hjob,
      .inr ⟨by simp [hresult], hfailed, ?_⟩⟩
    simp only [hresult, hclaimed, if_true]
    exact heq
  | created =>
    refine ⟨_, markRunningIfPendingServer { db with steps := _ }, hout, hmid, .inr rfl,
      .inl ⟨rfl, ?_⟩⟩
    simp only [hresult, hclaimed, if_true]
    rfl

theorem dispatchTask_spec (h : Stamped db) (hr : r ∈ db.steps) (hready : r.status = .ready) :
    ∃ r' db', TaskDispatched d r r' db db' (dispatchTask d r db) := by
  have hwhole := h.whole r hr
  unfold dispatchTask
  split
  case h_1 pin hstamp hpin =>
    have hnone : r.taskRef = none := by
      rw [WholeStamp, hstamp] at hwhole
      simp only [stampIs, Bool.and_eq_true, beq_iff_eq] at hwhole
      exact hwhole.1.2
    have hguard : ∀ a, (stampTaskPin r.stepName pin).guard a = true →
        a.stepName = r.stepName := by
      intro a ha
      simp only [stampTaskPin, Bool.and_eq_true, decide_eq_true_eq] at ha
      exact ha.1.1
    have hmeets : (stampTaskPin r.stepName pin).guard r = true := by
      simp [stampTaskPin, hready, hnone]
    have hstamped := Replaces.run (u := stampTaskPin r.stepName pin) h.keyed hguard
      (fun _ => rfl) hr hmeets
    simp only [h.keyed.rowsAffected_eq_one hguard hr hmeets, if_true]
    have hpinned : stampIs (some pin) ((stampTaskPin r.stepName pin).set r) = true := by
      simp [stampIs, stampTaskPin]
    obtain ⟨r', db', hdispatched⟩ := dispatchStamped_spec d
      { db with steps := (stampTaskPin r.stepName pin).run db.steps } hstamped.keyed
      hstamped.mem_new rfl hready hpinned
    have hout := hdispatched.handedOut
    exact ⟨r', db', ⟨⟨hout.keeps.stepName, hout.keeps.forEachExpr, hout.keeps.loopSource,
      hout.keeps.loopIndex⟩, hout.actionType, hout.whole, hout.lease, hout.status⟩,
      hstamped.trans hdispatched.replaces, hdispatched.jobStatus, hdispatched.result⟩
  case h_2 => exact dispatchStamped_spec d db h.keyed hr rfl hready hwhole

theorem Stamped.replaces {r' : JobStepRow} {db' : JobTables} (h : Stamped db)
    (hreplaces : Replaces r r' db.steps db'.steps) (hwhole : WholeStamp r') : Stamped db' := by
  refine ⟨hreplaces.keyed, fun a ha => ?_⟩
  rcases (hreplaces.mem a).mp ha with rfl | ⟨ha, -⟩
  · exact hwhole
  · exact h.whole a ha

theorem Stamped.orchestrate (h : Stamped db) : Stamped (orchestrateAfterFailure d db) :=
  ⟨(proceeds_orchestrate .task h.keyed).keyed,
    Inherited.orchestrate wholeStamp_inherited h.whole⟩

variable (d) in
theorem dispatchTask_dispatches : Dispatches d .task Stamped (dispatchTask d) := by
  refine ⟨fun _ h => h.keyed, fun r db h hr hready => ?_, fun r db h hr hready => ?_⟩
  · obtain ⟨r', db', hspec⟩ := dispatchTask_spec (d := d) h hr (isReadyFor_iff.mp hready).1
    have hstamped := h.replaces hspec.replaces hspec.handedOut.whole
    rcases hspec.result with ⟨-, heq⟩ | ⟨-, heq⟩
    · rw [heq]
      exact hstamped
    · rw [heq.2]
      exact hstamped.orchestrate
  · obtain ⟨r', db', hspec⟩ := dispatchTask_spec (d := d) h hr (isReadyFor_iff.mp hready).1
    exact ⟨r', db', hspec.replaces, hspec.handedOut.pastReady .task,
      hspec.handedOut.pastReady .deferred, hspec.result.imp And.right fun h => h.2.2⟩

end Task

/-! ## The loop -/

section Loop

variable {d : DispatchEnv} {db : JobTables}

theorem handleTaskStepsPass_stamped (h : Stamped db) : Stamped (handleTaskStepsPass d db).2 :=
  ((dispatchTask_dispatches d).pass (.inl rfl) h).1

theorem handleTaskStepsPass_last (h : Stamped db)
    (hquiet : (handleTaskStepsPass d db).1 = false) :
    NoneReady .task (handleTaskStepsPass d db).2 :=
  (dispatchTask_dispatches d).noneReady h hquiet

theorem handleTaskStepsPass_idle (h : NoneReady .task db) :
    handleTaskStepsPass d db = (false, db) := by
  have hnil : (d.order.sort db.steps).filter isReadyTask = [] := h.filter_eq_nil
  rw [handleTaskStepsPass, hnil, dispatchAll]

theorem dispatchAll_created {steps : List JobStepRow} (h : Stamped db)
    (hsteps : ∀ r ∈ steps, r ∈ db.steps ∧ isReadyFor .task r = true)
    (hnodup : Keyed JobStepRow.stepName steps)
    (hcreated : ∀ r ∈ steps, (d.taskOutcome r.stepName).result = .created) :
    (dispatchAll (dispatchTask d) steps db).1 = false := by
  induction steps generalizing db with
  | nil => rfl
  | cons r steps ih =>
    obtain ⟨hr, hready⟩ := hsteps r List.mem_cons_self
    obtain ⟨r', db', hspec⟩ := dispatchTask_spec (d := d) h hr (isReadyFor_iff.mp hready).1
    have hwaiting := ((dispatchTask_dispatches d).proceeds (.inl rfl) h hr hready).1.waiting
    have hrest := ih ((dispatchTask_dispatches d).inv r db h hr hready) (fun a ha => ?_)
      hnodup.of_cons fun a ha => hcreated a (List.mem_cons_of_mem r ha)
    · rcases hspec.result with ⟨-, heq⟩ | ⟨hne, -⟩
      · rw [heq] at hrest
        simp only [dispatchAll, heq, Bool.false_or]
        exact hrest
      · exact absurd (hcreated r List.mem_cons_self) hne
    · obtain ⟨hmem, haready⟩ := hsteps a (List.mem_cons_of_mem r ha)
      refine ⟨hwaiting a hmem (isReadyFor_iff.mp haready).1 ?_, haready⟩
      simpa using hnodup.key_ne a ha

theorem handleTaskSteps_noneReady_iff (h : Stamped db) :
    NoneReady .task (handleTaskSteps d db) ↔
      ∃ k ≤ d.task.flow.keys.length + 1,
        NoneReady .task (afterRounds (handleTaskStepsPass d) k db) :=
  repeatWhile_done_iff Stamped (fun _ => handleTaskStepsPass_stamped)
    (fun _ => handleTaskStepsPass_last) (fun _ => handleTaskStepsPass_idle) _ h

theorem handleTaskSteps_created (h : Stamped db)
    (hcreated : ∀ r ∈ db.steps, isReadyFor .task r = true →
      (d.taskOutcome r.stepName).result = .created) : NoneReady .task (handleTaskSteps d db) := by
  obtain ⟨hsteps, hnodup⟩ := ready_steps d .task h.keyed
  have hquiet : (handleTaskStepsPass d db).1 = false :=
    dispatchAll_created h hsteps hnodup fun r hr => hcreated r (hsteps r hr).1 (hsteps r hr).2
  exact (handleTaskSteps_noneReady_iff h).mpr
    ⟨1, Nat.succ_le_succ (Nat.zero_le _), handleTaskStepsPass_last h hquiet⟩

end Loop

end Stroem.Dispatch
