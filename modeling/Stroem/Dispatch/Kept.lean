import Stroem.Dispatch.Generations

/-!
# What the dispatch phases keep

Task, approval and deferred dispatch each replace the row they are about, and none makes a
deferred step ready that it has resolved or failed.  `Kept` is what a job nobody else writes to
keeps through all of them, and `Later` what its rows say about later rows.
-/

namespace Stroem.Dispatch

open Foundation JobStepRepo Cascade Engine

def LeaseFree (since : Time) (r : JobStepRow) : Prop :=
  r.actionType = .deferred → r.resolveLeaseUntil.all (· < since) = true

instance (since : Time) (r : JobStepRow) : Decidable (LeaseFree since r) :=
  inferInstanceAs (Decidable (r.actionType = .deferred →
    r.resolveLeaseUntil.all (· < since) = true))

structure Kept (since : Time) (task : TaskDef) (kinds : String → ActionType) (db : JobTables) :
    Prop where
  rows : JobRows task kinds db.steps
  free : ∀ r ∈ db.steps, LeaseFree since r
  job : db.jobStatus.isTerminal = false ∨ ∀ r ∈ db.steps, r.status.isTerminal = true

theorem leaseFree_inherited (since : Time) : Inherited (LeaseFree since) := by
  refine ⟨fun r r' hsame h => ?_, fun _ _ _ _ _ _ _ _ _ _ => rfl⟩
  rw [hsame]
  exact h

theorem isTerminal_markRunningIfPending (status : JobStatus) :
    (markRunningIfPending status).isTerminal = status.isTerminal := by
  cases status <;> rfl

structure Dispatched (d : DispatchEnv) (kind : ActionType) (r r' : JobStepRow)
    (db db' : JobTables) (result : Bool × JobTables) : Prop where
  replaces : Replaces r r' db.steps db'.steps
  keeps : Keeps r r'
  past : PastReady kind r'
  resolved : PastReady .deferred r'
  unclaimed : r'.status ≠ .claimed
  whole : WholeStamp r'
  lease : ∀ since, LeaseFree since r → LeaseFree since r'
  jobStatus : db'.jobStatus = db.jobStatus ∨ db'.jobStatus = markRunningIfPending db.jobStatus
  result : result = (false, db') ∨ result = (true, orchestrateAfterFailure d db')

namespace Kept

variable {since : Time} {d : DispatchEnv} {task : TaskDef} {kinds : String → ActionType}
  {kind : ActionType} {db db' : JobTables}

theorem keyed (h : Kept since task kinds db) : Keyed JobStepRow.stepName db.steps :=
  h.rows.keyed

theorem open_of_ready (h : Kept since task kinds db) {r : JobStepRow} (hr : r ∈ db.steps)
    (hready : isReadyFor kind r = true) : db.jobStatus.isTerminal = false := by
  refine h.job.resolve_right fun hall => ?_
  have hterm := hall r hr
  rw [(isReadyFor_iff.mp hready).1] at hterm
  cases hterm

theorem dispatched {r r' : JobStepRow} {result : Bool × JobTables} (h : Kept since task kinds db)
    (hr : r ∈ db.steps) (hready : isReadyFor kind r = true)
    (hspec : Dispatched d kind r r' db db' result) :
    Kept since task kinds db' ∧ db'.jobStatus.isTerminal = false := by
  have hopen : db'.jobStatus.isTerminal = false := by
    rcases hspec.jobStatus with heq | heq
    · rw [heq]
      exact h.open_of_ready hr hready
    · rw [heq, isTerminal_markRunningIfPending]
      exact h.open_of_ready hr hready
  have hstatus := (isReadyFor_iff.mp hready).1
  have hon : MovesOn r r' := ⟨hspec.keeps, isLive_of_ready hstatus,
    h.rows.not_placeholder_of_ready hr hstatus, hspec.past.1, hspec.unclaimed, hspec.whole⟩
  refine ⟨⟨h.rows.replaces hr hon hspec.replaces, fun a ha => ?_, .inl hopen⟩, hopen⟩
  rcases (hspec.replaces.mem a).mp ha with rfl | ⟨ha, -⟩
  · exact hspec.lease since (h.free r hr)
  · exact h.free a ha

theorem settle (h : Kept since task kinds db) :
    Kept since task kinds (settleIfAllTerminal d db) := by
  unfold settleIfAllTerminal
  split
  · exact h
  case h_2 settled hdecide =>
    split
    · refine ⟨h.rows, h.free, .inr ?_⟩
      exact Settlement.decide_isSome_iff.mp (by rw [hdecide]; rfl)
    · exact h

theorem execute (hnames : ∀ name ∈ d.task.flow.keys, '[' ∉ name.toList)
    (h : Kept since d.task kinds db) (hopen : db.jobStatus.isTerminal = false)
    (hexec : Dispatch.execute d db = some db') :
    Kept since d.task kinds db' ∧ db'.jobStatus.isTerminal = false := by
  have hopen' : db'.jobStatus.isTerminal = false := by
    obtain ⟨plan, a, hrun, hok⟩ := execute_apply hexec
    unfold Cascade.apply at hok
    split at hok
    · cases hok
    · obtain ⟨-, rfl⟩ := Prod.mk.inj (Except.ok.inj hok)
      simp only
      split
      · rwa [isTerminal_markRunningIfPending]
      · exact hopen
  exact ⟨⟨(h.rows.execute hnames hexec).1,
    Inherited.execute (leaseFree_inherited since) h.free hexec, .inl hopen'⟩, hopen'⟩

theorem orchestrate (hnames : ∀ name ∈ d.task.flow.keys, '[' ∉ name.toList)
    (h : Kept since d.task kinds db) (hopen : db.jobStatus.isTerminal = false) :
    Kept since d.task kinds (orchestrateAfterFailure d db) := by
  unfold orchestrateAfterFailure cascadeAndSettle
  cases hexec : Dispatch.execute d db with
  | none => exact h
  | some db' => exact (h.execute hnames hopen hexec).1.settle

end Kept

theorem dispatches_of_dispatched {d : DispatchEnv} {kind : ActionType} {since : Time}
    {kinds : String → ActionType} {dispatch : JobStepRow → JobTables → Bool × JobTables}
    (hnames : ∀ name ∈ d.task.flow.keys, '[' ∉ name.toList)
    (hspec : ∀ r db, Kept since d.task kinds db → r ∈ db.steps → isReadyFor kind r = true →
      ∃ r' db', Dispatched d kind r r' db db' (dispatch r db)) :
    Dispatches d kind (Kept since d.task kinds) dispatch := by
  refine ⟨fun _ h => h.keyed, fun r db h hr hready => ?_, fun r db h hr hready => ?_⟩
  · obtain ⟨r', db', hdispatched⟩ := hspec r db h hr hready
    obtain ⟨hkept, hopen⟩ := h.dispatched hr hready hdispatched
    rcases hdispatched.result with heq | heq
    · rw [heq]
      exact hkept
    · rw [heq]
      exact hkept.orchestrate hnames hopen
  · obtain ⟨r', db', hdispatched⟩ := hspec r db h hr hready
    exact ⟨r', db', hdispatched.replaces, hdispatched.past, hdispatched.resolved,
      hdispatched.result⟩

/-! ## The three dispatches -/

section Dispatch

variable {since : Time} {d : DispatchEnv} {kinds : String → ActionType} {db : JobTables}
  {r : JobStepRow}

theorem dispatchTask_kept (since : Time) (kinds : String → ActionType)
    (hnames : ∀ name ∈ d.task.flow.keys, '[' ∉ name.toList) :
    Dispatches d .task (Kept since d.task kinds) (dispatchTask d) := by
  refine dispatches_of_dispatched hnames fun r db h hr hready => ?_
  have hstatus := (isReadyFor_iff.mp hready).1
  obtain ⟨r', db', hspec⟩ := dispatchTask_spec (d := d) h.rows.stamped hr hstatus
  have hout := hspec.handedOut
  refine ⟨r', db', hspec.replaces, hout.keeps, hout.pastReady .task, hout.pastReady .deferred,
    (hout.movesOn h.rows hr hstatus).unclaimed, hout.whole, fun since hfree htype => ?_,
    hspec.jobStatus, hspec.result.imp And.right fun h => h.2.2⟩
  rw [hout.lease]
  exact hfree (hout.actionType.symm.trans htype)

theorem persistInput_spec (hk : Keyed JobStepRow.stepName db.steps) (hr : r ∈ db.steps)
    (input : Option Json) :
    (persistInput r.stepName input db).jobStatus = db.jobStatus ∧
      ∃ shown, Replaces r { r with input := shown } db.steps
        (persistInput r.stepName input db).steps := by
  cases input with
  | none => exact ⟨rfl, r.input, .refl hk hr⟩
  | some input =>
    exact ⟨rfl, _, .run (u := updateInput r.stepName (some input)) hk
      (fun a ha => of_decide_eq_true ha) (fun _ => rfl) hr (decide_eq_true rfl)⟩

structure ApprovalDispatched (d : DispatchEnv) (r r' : JobStepRow) (db db' : JobTables)
    (result : Bool × JobTables) : Prop where
  replaces : Replaces r r' db.steps db'.steps
  keeps : Keeps r r'
  actionType : r'.actionType = r.actionType
  whenCondition : r'.whenCondition = r.whenCondition
  whole : WholeStamp r → WholeStamp r'
  lease : r'.resolveLeaseUntil = r.resolveLeaseUntil
  jobStatus : db'.jobStatus = db.jobStatus ∨ db'.jobStatus = markRunningIfPending db.jobStatus
  result : r'.status = .suspended ∧ result = (false, db') ∨
    (d.approvalOutcome r.stepName).isUnrendered = true ∧ r'.status = .failed ∧
      result = (true, orchestrateAfterFailure d db')

theorem dispatchApproval_spec (hk : Keyed JobStepRow.stepName db.steps) (hr : r ∈ db.steps)
    (hready : r.status = .ready) :
    ∃ r' db', ApprovalDispatched d r r' db db' (dispatchApproval d r db) := by
  unfold dispatchApproval
  cases houtcome : d.approvalOutcome r.stepName with
  | unrendered input error =>
    obtain ⟨hjob, shown, hinput⟩ := persistInput_spec hk hr input
    have hfail := hinput.andThen (u := markFailed r.stepName error d.now)
      (fun a ha => of_decide_eq_true ha) (fun _ => rfl) (decide_eq_true rfl)
    exact ⟨_, { persistInput r.stepName input db with
        steps := (markFailed r.stepName error d.now).run (persistInput r.stepName input db).steps },
      hfail, ⟨rfl, rfl, rfl, rfl⟩, rfl, rfl, id, rfl, .inl hjob,
      .inr ⟨by rw [houtcome]; rfl, rfl, rfl⟩⟩
  | asked input message =>
    obtain ⟨hjob, shown, hinput⟩ := persistInput_spec hk hr input
    have hguard : ∀ a : JobStepRow, (markSuspended r.stepName d.now).guard a = true →
        a.stepName = r.stepName := by
      intro a ha
      simp only [markSuspended, Bool.and_eq_true, decide_eq_true_eq] at ha
      exact ha.1
    have hsuspend := hinput.andThen (u := markSuspended r.stepName d.now) hguard (fun _ => rfl)
      (by simp [markSuspended, hready])
    have hstore := hsuspend.andThen (u := storeApprovalMessage r.stepName message)
      (fun a ha => of_decide_eq_true ha) (fun _ => rfl) (decide_eq_true rfl)
    exact ⟨_, markRunningIfPendingServer { persistInput r.stepName input db with
        steps := (storeApprovalMessage r.stepName message).run
          ((markSuspended r.stepName d.now).run (persistInput r.stepName input db).steps) },
      hstore, ⟨rfl, rfl, rfl, rfl⟩, rfl, rfl, id, rfl, .inr (congrArg markRunningIfPending hjob),
      .inl ⟨rfl, rfl⟩⟩

theorem dispatchApproval_kept (since : Time) (kinds : String → ActionType)
    (hnames : ∀ name ∈ d.task.flow.keys, '[' ∉ name.toList) :
    Dispatches d .approval (Kept since d.task kinds) (dispatchApproval d) := by
  refine dispatches_of_dispatched hnames fun r db h hr hready => ?_
  obtain ⟨r', db', hspec⟩ :=
    dispatchApproval_spec (d := d) h.keyed hr (isReadyFor_iff.mp hready).1
  have hpast : ∀ kind, PastReady kind r' := fun kind => by
    rcases hspec.result with ⟨hs, -⟩ | ⟨-, hs, -⟩ <;> exact .of_status (by simp [hs]) (by simp [hs])
  have hunclaimed : r'.status ≠ .claimed := by
    rcases hspec.result with ⟨hs, -⟩ | ⟨-, hs, -⟩ <;> simp [hs]
  refine ⟨r', db', hspec.replaces, hspec.keeps, hpast _, hpast _, hunclaimed,
    hspec.whole (h.rows.whole r hr), fun since hfree htype => ?_, hspec.jobStatus,
      hspec.result.imp And.right fun h => h.2.2⟩
  rw [hspec.lease]
  exact hfree (hspec.actionType.symm.trans htype)

theorem resolveStep_kept (kinds : String → ActionType)
    (hnames : ∀ name ∈ d.task.flow.keys, '[' ∉ name.toList) (hsince : since ≤ d.now) :
    Dispatches d .deferred (Kept since d.task kinds) (resolveStep d) := by
  refine dispatches_of_dispatched hnames fun r db h hr hready => ?_
  obtain ⟨hstatus, htype⟩ := isReadyFor_iff.mp hready
  have hopen := h.open_of_ready hr hready
  have hgate : deferredJobGate db.jobStatus = none := by
    cases hjob : db.jobStatus <;> simp_all [JobStatus.isTerminal, deferredJobGate]
  have hfree : r.resolveLeaseUntil.all (· < d.now) = true := by
    have hlease := h.free r hr htype
    cases hu : r.resolveLeaseUntil with
    | none => rfl
    | some t =>
      simp only [hu, Option.all_some, decide_eq_true_eq] at hlease ⊢
      exact Nat.lt_of_lt_of_le hlease hsince
  have hguard : ∀ a, (takeResolveLease r.stepName (d.leaseToken r.stepName) d.leaseSecs
      d.now).guard a = true → a.stepName = r.stepName := by
    intro a ha
    simp only [takeResolveLease, isDeferredReady, Bool.and_eq_true, decide_eq_true_eq] at ha
    exact ha.1.1.1
  have hmeets : (takeResolveLease r.stepName (d.leaseToken r.stepName) d.leaseSecs
      d.now).guard r = true := by
    simp [takeResolveLease, isDeferredReady, hstatus, htype, hfree]
  have htake := Replaces.run (u := takeResolveLease r.stepName (d.leaseToken r.stepName)
    d.leaseSecs d.now) h.keyed hguard (fun _ => rfl) hr hmeets
  have htaken := h.keyed.rowsAffected_eq_one hguard hr hmeets
  unfold resolveStep
  simp only [htaken, if_true]
  cases houtcome : d.deferredOutcome r.stepName with
  | ok resolved =>
    have hwrite := htake.andThen (u := writeResolved r.stepName (d.leaseToken r.stepName)
      resolved.row d.now) (fun a ha => by
        simp only [writeResolved, isDeferredReady, Bool.and_eq_true, decide_eq_true_eq] at ha
        exact ha.1.1.1) (fun _ => rfl)
      (by simp [writeResolved, takeResolveLease, isDeferredReady, hstatus, htype])
    have hpast : PastReady .deferred ((writeResolved r.stepName (d.leaseToken r.stepName)
        resolved.row d.now).set ((takeResolveLease r.stepName (d.leaseToken r.stepName)
          d.leaseSecs d.now).set r)) := by
      refine ⟨by simp [writeResolved, takeResolveLease, hstatus], ?_⟩
      simp [isReadyFor, writeResolved, resolved.resolved]
    simp only [resolveDeferredTx, deferredWrite, hgate]
    exact ⟨_, { db with steps := _ }, hwrite, ⟨rfl, rfl, rfl, rfl⟩, hpast, hpast,
      by simp [writeResolved, takeResolveLease, hstatus], resolved.stamped,
      fun _ _ _ => rfl, .inl rfl, .inl rfl⟩
  | error err =>
    have hguard' : ∀ a, (writeDeferredFailure r.stepName (d.leaseToken r.stepName)
        ("[ref] step '" ++ r.stepName ++ "': " ++ err) d.now).guard a = true →
        a.stepName = r.stepName := by
      intro a ha
      simp only [writeDeferredFailure, isDeferredReady, Bool.and_eq_true,
        decide_eq_true_eq] at ha
      exact ha.1.1.1
    have hmeets' : (writeDeferredFailure r.stepName (d.leaseToken r.stepName)
        ("[ref] step '" ++ r.stepName ++ "': " ++ err) d.now).guard
        ((takeResolveLease r.stepName (d.leaseToken r.stepName) d.leaseSecs d.now).set r) =
          true := by
      simp [writeDeferredFailure, takeResolveLease, isDeferredReady, hstatus, htype]
    have hwrite := htake.andThen hguard' (fun _ => rfl) hmeets'
    have happlied := htake.keyed.rowsAffected_eq_one
      (fun a ha => (hguard' a ha).trans htake.name.symm) htake.mem_new hmeets'
    simp only [failDeferredTx, deferredWrite, hgate, happlied, if_true]
    exact ⟨_, { db with steps := _ }, hwrite, ⟨rfl, rfl, rfl, rfl⟩,
      .of_status (by simp [writeDeferredFailure]) (by simp [writeDeferredFailure]),
      .of_status (by simp [writeDeferredFailure]) (by simp [writeDeferredFailure]),
      by simp [writeDeferredFailure], h.rows.whole r hr, fun _ _ _ => rfl, .inl rfl, .inr rfl⟩

end Dispatch

/-! ## The phases -/

structure Later (db db' : JobTables) : Prop where
  names : ∀ r ∈ db.steps, ∃ r' ∈ db'.steps, r'.stepName = r.stepName
  past : ∀ r ∈ db.steps, PastReady .deferred r →
    ∃ r' ∈ db'.steps, r'.stepName = r.stepName ∧ PastReady .deferred r'
  closed : db.jobStatus.isTerminal = true → db'.jobStatus.isTerminal = true

namespace Later

variable {db mid db' : JobTables}

theorem refl (db : JobTables) : Later db db :=
  ⟨fun r hr => ⟨r, hr, rfl⟩, fun r hr hpast => ⟨r, hr, rfl, hpast⟩, id⟩

theorem trans (h : Later db mid) (h' : Later mid db') : Later db db' := by
  refine ⟨fun r hr => ?_, fun r hr hpast => ?_, fun hterm => h'.closed (h.closed hterm)⟩
  · obtain ⟨r₁, hr₁, hname⟩ := h.names r hr
    obtain ⟨r₂, hr₂, hname'⟩ := h'.names r₁ hr₁
    exact ⟨r₂, hr₂, hname'.trans hname⟩
  · obtain ⟨r₁, hr₁, hname, hpast₁⟩ := h.past r hr hpast
    obtain ⟨r₂, hr₂, hname', hpast₂⟩ := h'.past r₁ hr₁ hpast₁
    exact ⟨r₂, hr₂, hname'.trans hname, hpast₂⟩

end Later

section Phases

variable {since : Time} {d : DispatchEnv} {kinds : String → ActionType} {kind : ActionType}
  {db db' : JobTables} {dispatch : JobStepRow → JobTables → Bool × JobTables}

theorem Kept.noneReady_of_closed {task : TaskDef} (h : Kept since task kinds db)
    (hterm : db.jobStatus.isTerminal = true) (kind : ActionType) : NoneReady kind db := by
  intro r hr
  by_contra hready
  rw [Bool.not_eq_false] at hready
  rw [h.open_of_ready hr hready] at hterm
  cases hterm

theorem Dispatches.later (h : Dispatches d kind (Kept since d.task kinds) dispatch)
    (hkept : Kept since d.task kinds db) :
    Kept since d.task kinds
        (dispatchAll dispatch ((d.order.sort db.steps).filter (isReadyFor kind)) db).2 ∧
      Later db (dispatchAll dispatch ((d.order.sort db.steps).filter (isReadyFor kind)) db).2 := by
  obtain ⟨hkept', hproceeds, -, -⟩ := h.pass (.inr rfl) hkept
  refine ⟨hkept', hproceeds.names, hproceeds.past, fun hterm => ?_⟩
  rw [(hkept.noneReady_of_closed hterm kind).filter_eq_nil]
  exact hterm

theorem handleTaskSteps_later (hnames : ∀ name ∈ d.task.flow.keys, '[' ∉ name.toList)
    (h : Kept since d.task kinds db) :
    Kept since d.task kinds (handleTaskSteps d db) ∧ Later db (handleTaskSteps d db) := by
  refine repeatWhile_invariant (fun db' => Kept since d.task kinds db' ∧ Later db db')
    (fun mid hmid => ?_) _ ⟨h, .refl db⟩
  obtain ⟨hkept, hlater⟩ := (dispatchTask_kept since kinds hnames).later hmid.1
  exact ⟨hkept, hmid.2.trans hlater⟩

theorem handleApprovalSteps_later (hnames : ∀ name ∈ d.task.flow.keys, '[' ∉ name.toList)
    (h : Kept since d.task kinds db) :
    Kept since d.task kinds (handleApprovalSteps d db) ∧ Later db (handleApprovalSteps d db) :=
  (dispatchApproval_kept since kinds hnames).later h

theorem handleApprovalSteps_ready (hnames : ∀ name ∈ d.task.flow.keys, '[' ∉ name.toList)
    (h : Kept since d.task kinds db) :
    ∀ r ∈ db.steps, isReadyFor .approval r = true →
      ∃ r' ∈ (handleApprovalSteps d db).steps, r'.stepName = r.stepName ∧
        PastReady .approval r' :=
  ((dispatchApproval_kept since kinds hnames).pass (.inl rfl) h).2.2.1

/-! ## Deferred steps are all resolved -/

instance (kind : ActionType) (r : JobStepRow) : Decidable (PastReady kind r) :=
  inferInstanceAs (Decidable (r.status ≠ .pending ∧ isReadyFor kind r = false))

def resolvedRows (db : JobTables) : List JobStepRow :=
  db.steps.filter fun r => PastReady .deferred r

theorem resolvedRows_lt (hk : Keyed JobStepRow.stepName db.steps) (h : Later db db')
    {r : JobStepRow} (hr : r ∈ db.steps) (hready : isReadyFor .deferred r = true)
    (hdone : ∃ r' ∈ db'.steps, r'.stepName = r.stepName ∧ PastReady .deferred r') :
    (resolvedRows db).length < (resolvedRows db').length := by
  have hmem : ∀ {db : JobTables} {a : JobStepRow},
      a ∈ resolvedRows db ↔ a ∈ db.steps ∧ PastReady .deferred a := by
    intro db a
    simp [resolvedRows]
  have hnodup : (r.stepName :: (resolvedRows db).map JobStepRow.stepName).Nodup := by
    refine List.nodup_cons.mpr ⟨fun hin => ?_, List.Nodup.sublist (List.filter_sublist.map _) hk⟩
    obtain ⟨a, ha, hname⟩ := List.mem_map.mp hin
    obtain ⟨ha, hpast⟩ := hmem.mp ha
    rw [hk.eq_of_key ha hr hname, PastReady, hready] at hpast
    cases hpast.2
  have hsub : r.stepName :: (resolvedRows db).map JobStepRow.stepName ⊆
      (resolvedRows db').map JobStepRow.stepName := by
    intro name hname
    rcases List.mem_cons.mp hname with rfl | hname
    · obtain ⟨r', hr', hname', hpast⟩ := hdone
      exact List.mem_map.mpr ⟨r', hmem.mpr ⟨hr', hpast⟩, hname'⟩
    · obtain ⟨a, ha, rfl⟩ := List.mem_map.mp hname
      obtain ⟨a', ha', hname', hpast⟩ := h.past a (hmem.mp ha).1 (hmem.mp ha).2
      exact List.mem_map.mpr ⟨a', hmem.mpr ⟨ha', hpast⟩, hname'⟩
  have hlen := (hnodup.subperm hsub).length_le
  simp only [List.length_cons, List.length_map] at hlen
  omega

theorem resolvedRows_lt_length {r : JobStepRow} (hr : r ∈ db.steps)
    (hready : isReadyFor .deferred r = true) : (resolvedRows db).length < db.steps.length := by
  refine List.length_filter_lt_length_iff_exists.mpr ⟨r, hr, ?_⟩
  simp [PastReady, hready]

theorem resolveDeferredSteps_later
    (hnames : ∀ name ∈ d.task.flow.keys, '[' ∉ name.toList) (hsince : since ≤ d.now)
    {fuel passes : Nat}
    (h : Kept since d.task kinds db) (hpasses : passes ≤ (resolvedRows db).length)
    (hrun : resolveDeferredSteps d fuel passes db = some db') :
    Kept since d.task kinds db' ∧ Later db db' ∧ NoneReady .deferred db' ∧
      ∀ r ∈ db.steps, isReadyFor .deferred r = true →
        ∃ r' ∈ db'.steps, r'.stepName = r.stepName ∧ PastReady .deferred r' := by
  have hdispatch := resolveStep_kept (d := d) kinds hnames hsince
  induction fuel generalizing passes db with
  | zero => cases hrun
  | succ fuel ih =>
    obtain ⟨hkept, hlater⟩ := hdispatch.later h
    obtain ⟨-, -, hdone, -⟩ := hdispatch.pass (.inl rfl) h
    unfold resolveDeferredSteps at hrun
    cases hpass : resolvePass d db with
    | mk reported mid =>
      have hmid : dispatchAll (resolveStep d)
          ((d.order.sort db.steps).filter (isReadyFor .deferred)) db = (reported, mid) := hpass
      cases reported with
      | true =>
        obtain ⟨r, hr, hready⟩ : ∃ r ∈ db.steps, isReadyFor .deferred r = true := by
          by_contra hnone
          push Not at hnone
          have hidle : NoneReady .deferred db := fun r hr => by simpa using hnone r hr
          rw [hidle.filter_eq_nil] at hmid
          cases hmid
        have hlt := resolvedRows_lt_length hr hready
        have hgrows := resolvedRows_lt h.keyed hlater hr hready (hdone r hr hready)
        have hne : (readyDeferredSteps d db).isEmpty = false :=
          List.isEmpty_eq_false_iff_exists_mem.mpr
            ⟨r, List.mem_filter.mpr ⟨mem_sort.mpr hr, hready⟩⟩
        simp only [hpass, hne, Bool.false_eq_true, if_false] at hrun
        rw [if_neg (by omega)] at hrun
        rw [hmid] at hkept hlater hgrows hdone
        obtain ⟨hkept', hlater', hnone, -⟩ := ih hkept (by omega) hrun
        refine ⟨hkept', hlater.trans hlater', hnone, fun a ha haready => ?_⟩
        obtain ⟨a₁, ha₁, hname, hpast⟩ := hdone a ha haready
        obtain ⟨a₂, ha₂, hname', hpast'⟩ := hlater'.past a₁ ha₁ hpast
        exact ⟨a₂, ha₂, hname'.trans hname, hpast'⟩
      | false =>
        simp only [hpass] at hrun
        cases hrun
        have hnone := hdispatch.noneReady h (by rw [hmid])
        rw [hmid] at hkept hlater hnone hdone
        exact ⟨hkept, hlater, hnone, hdone⟩

end Phases

end Stroem.Dispatch
