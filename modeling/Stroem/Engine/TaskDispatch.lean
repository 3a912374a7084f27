import Stroem.Engine.Rowwise
import Stroem.Foundation.Runs

/-!
# Dispatching a task step

Dispatchers on any number of replicas run `handle_task_steps_pass` over one `type: task` row.
Each reads the row, resolves its task, claims the row, creates a child job and, when that fails,
takes its claim back.  Others write the row in between.

The state counts how often the row went from `ready` to `running`, and says for every child and
for every failed creation under which of these starts it was made.  A creation can also fail after
its commit, when the compensation of a failed initialisation fails: then there is a child.
-/

namespace Stroem.Engine

open Foundation JobStepRepo Cascade

variable {r row : JobStepRow} {stamp : Option TaskPin}

/-- How the creation of the child job ends for its dispatcher. -/
inductive ChildCreation where
  | created
  | failed
  | failedCommitted
  deriving DecidableEq

/--
Where a dispatcher is; `stamp` is the task stamp it resolved with, `committed` says that the
creation that failed has left its child.
-/
inductive Dispatcher where
  | idle
  | resolving (stamp : Option TaskPin)
  | claimed (start : Nat) (stamp : Option TaskPin)
  | compensating (start : Nat) (stamp : Option TaskPin) (committed : Bool)
  deriving DecidableEq

def Dispatcher.start : Dispatcher → Option (Nat × Option TaskPin)
  | .claimed start stamp | .compensating start stamp _ => some (start, stamp)
  | .idle | .resolving _ => none

def Dispatcher.committed : Dispatcher → Bool
  | .compensating _ _ committed => committed
  | .idle | .resolving _ | .claimed _ _ => false

/-- `failed` holds the starts that were taken back, and whether their child was committed. -/
structure TaskDispatch where
  row : JobStepRow
  started : Nat := 0
  children : List Nat := []
  failed : List (Nat × Bool) := []
  dispatchers : Nat → Dispatcher := fun _ => .idle

inductive DispatchAction where
  | read (i : Nat)
  | stamp (i : Nat) (pin : TaskPin)
  | refuse (i : Nat) (now : Time) (error : String)
  | claim (i : Nat) (now : Time)
  | persistInput (i : Nat) (input : Option Json)
  | create (i : Nat) (outcome : ChildCreation)
  | compensate (i : Nat) (now : Time) (error : String)
  | abort (i : Nat)
  | write (now : Time) (jobStatus : JobStatus) (w : Write)
  | cascade (now : Time) (change : Change)

def changedRow (now : Time) (c : Change) (r : JobStepRow) : JobStepRow :=
  match applySingle now [r] c with
  | .ok rows => rows.headD r
  | .error _ => r

/--
The writers that are not dispatchers or cascades.  `mark_running` is the report of a worker that
was handed the step, which no worker is for a task step.
-/
def Write.besidesDispatch : Write → Bool
  | .markRunning _ _ | .claimTaskDispatch _ _ | .applyPlan _ => false
  | _ => true

namespace TaskDispatch

def put (s : TaskDispatch) (row : JobStepRow) : TaskDispatch :=
  { s with
    row := row
    started := if s.row.status = .ready ∧ row.status = .running then s.started + 1
      else s.started }

def setDispatcher (s : TaskDispatch) (i : Nat) (d : Dispatcher) : TaskDispatch :=
  { s with dispatchers := Function.update s.dispatchers i d }

def act (s : TaskDispatch) : DispatchAction → Option TaskDispatch
  | .read i =>
    if s.row.status = .ready ∧ s.row.actionType = .task then
      some (s.setDispatcher i (.resolving (taskStampOf s.row)))
    else none
  | .stamp i pin =>
    match s.dispatchers i with
    | .resolving none =>
      let stamp := stampTaskPin s.row.stepName pin
      -- another dispatcher stamped the step first, or it is no longer ready
      if stamp.guard s.row then
        some ((s.put (stamp.set s.row)).setDispatcher i (.resolving (some pin)))
      else some (s.setDispatcher i .idle)
    | _ => none
  | .refuse i now error =>
    match s.dispatchers i with
    | .resolving stamp =>
      some ((s.put ((failTaskDispatch s.row.stepName error .ready stamp now).onRow
        s.row)).setDispatcher i .idle)
    | _ => none
  | .claim i now =>
    match s.dispatchers i with
    | .resolving stamp =>
      let claim := claimTaskDispatch s.row.stepName stamp now
      if claim.guard s.row then
        let s := s.put (claim.set s.row)
        some (s.setDispatcher i (.claimed s.started stamp))
      else some (s.setDispatcher i .idle)
    | _ => none
  | .persistInput i input =>
    match s.dispatchers i with
    | .claimed _ _ => some (s.put ((updateInput s.row.stepName input).onRow s.row))
    | _ => none
  | .create i outcome =>
    match s.dispatchers i with
    | .claimed start stamp =>
      match outcome with
      | .created => some ({ s with children := start :: s.children }.setDispatcher i .idle)
      | .failed => some (s.setDispatcher i (.compensating start stamp false))
      | .failedCommitted =>
        some ({ s with children := start :: s.children }.setDispatcher i
          (.compensating start stamp true))
    | _ => none
  | .compensate i now error =>
    match s.dispatchers i with
    | .compensating start stamp committed =>
      some (({ s with failed := (start, committed) :: s.failed }.put
        ((failTaskDispatch s.row.stepName error .running stamp now).onRow
          s.row)).setDispatcher i .idle)
    | _ => none
  | .abort i => some (s.setDispatcher i .idle)
  | .write now jobStatus w =>
    if w.besidesDispatch then some (s.put (rowAfter now jobStatus w s.row)) else none
  | .cascade now c => some (s.put (changedRow now c s.row))

end TaskDispatch

/-! ## Everybody else -/

/--
What a task row may become by a write that is not a claim: it does not start, unless a cascade
starts a placeholder, and its stamp stays while it runs.
-/
structure Bystander (r r' : JobStepRow) : Prop where
  actionType : r'.actionType = r.actionType
  running : r'.status = .running → r.status = .pending ∨ r.status = .running ∧
    r'.taskWorkspace = r.taskWorkspace ∧ r'.taskRef = r.taskRef ∧
    r'.taskRevision = r.taskRevision
  pending : r'.status = .pending → r.status = .pending

theorem Bystander.refl (r : JobStepRow) : Bystander r r :=
  ⟨rfl, fun h => .inr ⟨h, rfl, rfl, rfl⟩, id⟩

theorem Bystander.trans {r' r'' : JobStepRow} (h : Bystander r r') (h' : Bystander r' r'') :
    Bystander r r'' := by
  refine ⟨h'.actionType.trans h.actionType, fun hr => ?_, fun hr => h.pending (h'.pending hr)⟩
  rcases h'.running hr with hpending | ⟨hrunning, hworkspace', href', hrevision'⟩
  · exact .inl (h.pending hpending)
  · rcases h.running hrunning with hpending | ⟨hrunning, hworkspace, href, hrevision⟩
    · exact .inl hpending
    · exact .inr ⟨hrunning, hworkspace'.trans hworkspace, href'.trans href,
        hrevision'.trans hrevision⟩

theorem Bystander.onRow {u : Update JobStepRow}
    (h : u.guard r = true → Bystander r (u.set r)) : Bystander r (u.onRow r) := by
  unfold Update.onRow
  split
  case isTrue hguard => exact h hguard
  case isFalse => exact .refl r

theorem Bystander.of_status {r' : JobStepRow} (htype : r'.actionType = r.actionType)
    (hrunning : r'.status ≠ .running) (hpending : r'.status ≠ .pending) : Bystander r r' :=
  ⟨htype, fun h => absurd h hrunning, fun h => absurd h hpending⟩

theorem Bystander.of_kept {r' : JobStepRow} (htype : r'.actionType = r.actionType)
    (hstatus : r'.status = r.status) (hworkspace : r'.taskWorkspace = r.taskWorkspace)
    (href : r'.taskRef = r.taskRef) (hrevision : r'.taskRevision = r.taskRevision) :
    Bystander r r' :=
  ⟨htype, fun h => .inr ⟨hstatus.symm.trans h, hworkspace, href, hrevision⟩,
    fun h => hstatus.symm.trans h⟩

private theorem deferredWrite_task {u : Update JobStepRow} (jobStatus : JobStatus)
    (h : u.guard r = false) : (deferredWrite u jobStatus [r]).2.headD r = r := by
  unfold deferredWrite
  split
  · rfl
  · simp [Update.run, updateWhere, h]

theorem bystander_rowAfter {now : Time} {jobStatus : JobStatus} {w : Write}
    (htask : r.actionType = .task) (hw : w.besidesDispatch = true) :
    Bystander r (rowAfter now jobStatus w r) := by
  cases w with
  | markRunning step workerId => cases hw
  | claimTaskDispatch step pin => cases hw
  | applyPlan plan => cases hw
  | claimReadyStep worker step =>
    refine Bystander.onRow (u := claimReadyStep worker step now) fun hguard => ?_
    simp [claimReadyStep, claimable, htask, serverDispatched] at hguard
  | failOrRetry step error report delaySecs =>
    rw [rowAfter_failOrRetry]
    split
    · unfold failedRow
      split
      · exact .of_status rfl (fun h => by cases h) (fun h => by cases h)
      · exact .of_status rfl (fun h => by cases h) (fun h => by cases h)
    · exact .refl r
  | releaseClaim step claim retryAfter maxReleases =>
    simp only [rowAfter, rowsAfter, releaseClaim]
    split
    · exact .refl r
    · split
      · have hcancelled : Bystander r ((cancelStep step now).onRow r) :=
          .onRow fun _ => .of_status rfl (fun h => by cases h) (fun h => by cases h)
        exact hcancelled.trans (.onRow (u := cancelPendingSteps now) fun _ =>
          .of_status rfl (fun h => by cases h) (fun h => by cases h))
      · split
        · exact .refl r
        · exact Bystander.onRow (u := releaseStep step (now + retryAfter) now)
            fun _ => .of_status rfl (fun h => by cases h) (fun h => by cases h)
  | resolveDeferred step token resolved =>
    have hguard : (writeResolved step token resolved now).guard r = false := by
      simp [writeResolved, isDeferredReady, htask]
    have hkept : rowAfter now jobStatus (.resolveDeferred step token resolved) r = r :=
      deferredWrite_task jobStatus hguard
    rw [hkept]
    exact .refl r
  | failDeferred step token error =>
    have hguard : (writeDeferredFailure step token error now).guard r = false := by
      simp [writeDeferredFailure, isDeferredReady, htask]
    have hkept : rowAfter now jobStatus (.failDeferred step token error) r = r :=
      deferredWrite_task jobStatus hguard
    rw [hkept]
    exact .refl r
  | stampTaskPin step pin =>
    refine Bystander.onRow (u := stampTaskPin step pin) fun hguard => ?_
    have hready : r.status = .ready := by
      simp only [stampTaskPin, Bool.and_eq_true, beq_iff_eq] at hguard
      exact hguard.1.2
    exact .of_status rfl (by simp [stampTaskPin, hready]) (by simp [stampTaskPin, hready])
  | storeApprovalMessage step message =>
    exact Bystander.onRow (u := storeApprovalMessage step message)
      fun _ => .of_kept rfl rfl rfl rfl rfl
  | updateAgentState step state =>
    exact Bystander.onRow (u := updateAgentState step state)
      fun _ => .of_kept rfl rfl rfl rfl rfl
  | updateInput step input =>
    exact Bystander.onRow (u := updateInput step input) fun _ => .of_kept rfl rfl rfl rfl rfl
  | takeResolveLease step token leaseSecs =>
    exact Bystander.onRow (u := takeResolveLease step token leaseSecs now)
      fun _ => .of_kept rfl rfl rfl rfl rfl
  | renewResolveLease step token leaseSecs =>
    exact Bystander.onRow (u := renewResolveLease step token leaseSecs now)
      fun _ => .of_kept rfl rfl rfl rfl rfl
  | _ =>
    exact Bystander.onRow fun _ =>
      Bystander.of_status rfl (fun h => by cases h) (fun h => by cases h)

private theorem bystander_runExpecting {u : Update JobStepRow} {step : String}
    {rows : List JobStepRow} (h : u.guard r = true → Bystander r (u.set r))
    (hrun : runExpecting u 1 step [r] = .ok rows) :
    rows = [u.onRow r] ∧ Bystander r (u.onRow r) := by
  unfold runExpecting at hrun
  split at hrun
  · cases hrun
    exact ⟨rfl, .onRow h⟩
  · cases hrun

theorem bystander_changedRow (now : Time) (c : Change) (r : JobStepRow) :
    Bystander r (changedRow now c r) := by
  unfold changedRow
  split
  case h_2 => exact .refl r
  case h_1 rows hok =>
    have hstart : ∀ p rows, runExpecting (startPlaceholderTx p now) 1 p [r] = .ok rows →
        rows = [(startPlaceholderTx p now).onRow r] ∧
          Bystander r ((startPlaceholderTx p now).onRow r) := by
      intro p rows hrun
      refine bystander_runExpecting (fun hguard => ?_) hrun
      have hpending : r.status = .pending := by
        simp only [startPlaceholderTx, Bool.and_eq_true, beq_iff_eq] at hguard
        exact hguard.2
      exact ⟨rfl, fun _ => .inl hpending, fun _ => hpending⟩
    -- the other statements leave their row ready or finished
    have hother : ∀ (u : Update JobStepRow) step rows, runExpecting u 1 step [r] = .ok rows →
        (u.set r).actionType = r.actionType → (u.set r).status ≠ .running →
        (u.set r).status ≠ .pending → Bystander r (rows.headD r) := by
      intro u step rows hrun htype hrunning hpending
      obtain ⟨rfl, hby⟩ :=
        bystander_runExpecting (fun _ => .of_status htype hrunning hpending) hrun
      exact hby
    cases c with
    | expand p instances =>
      simp only [applySingle] at hok
      split at hok
      · cases hok
      case h_2 rows₁ hrun =>
        obtain ⟨rfl, hby⟩ := hstart p rows₁ hrun
        split at hok
        · cases hok
        case h_2 rows₂ hcreate =>
          cases hok
          rw [(createStepsTx_ok hcreate).1]
          exact hby
    | adopt p =>
      obtain ⟨rfl, hby⟩ := hstart p rows hok
      exact hby
    | rollup p outcome =>
      cases outcome with
      | completed output => exact hother _ _ _ hok rfl (fun h => by cases h) (fun h => by cases h)
      | failed error output =>
        exact hother _ _ _ hok rfl (fun h => by cases h) (fun h => by cases h)
    | promote step => exact hother _ _ _ hok rfl (fun h => by cases h) (fun h => by cases h)
    | skip step reason => exact hother _ _ _ hok rfl (fun h => by cases h) (fun h => by cases h)
    | fail step error => exact hother _ _ _ hok rfl (fun h => by cases h) (fun h => by cases h)

/-! ## The ledger of starts -/

/--
Every start has at most one dispatcher that answers for it and at most one child, a creation
that failed before its commit has none, and a start that was taken back does not leave the row
running.
-/
structure Ledger (s : TaskDispatch) : Prop where
  actionType : s.row.actionType = .task
  begun : 1 ≤ s.started → s.row.status ≠ .pending
  held : ∀ i e stamp, (s.dispatchers i).start = some (e, stamp) →
    1 ≤ e ∧ e ≤ s.started ∧ e ∉ s.failed.map Prod.fst
  childless : ∀ i e stamp, (s.dispatchers i).start = some (e, stamp) →
    (s.dispatchers i).committed = false → e ∉ s.children
  once : ∀ i j e p q, (s.dispatchers i).start = some (e, p) →
    (s.dispatchers j).start = some (e, q) → i = j
  stamp : ∀ i e stamp, (s.dispatchers i).start = some (e, stamp) → s.row.status = .running →
    s.started = e → stampIs stamp s.row = true
  children : s.children.Nodup ∧ ∀ e ∈ s.children, 1 ≤ e ∧ e ≤ s.started
  failed : ∀ x ∈ s.failed, 1 ≤ x.1 ∧ x.1 ≤ s.started ∧ (x.2 = false → x.1 ∉ s.children) ∧
    ¬(s.row.status = .running ∧ s.started = x.1)

namespace Ledger

variable {s : TaskDispatch}

theorem start (h : row.actionType = .task) : Ledger { row := row } where
  actionType := h
  begun := by simp
  held := by simp [Dispatcher.start]
  childless := by simp [Dispatcher.start]
  once := by simp [Dispatcher.start]
  stamp := by simp [Dispatcher.start]
  children := by simp
  failed := by simp

/-- A dispatcher that answers for a start is not one that has just been put to `d`. -/
private theorem kept {i j : Nat} {d : Dispatcher} {x : Nat × Option TaskPin}
    (hd : d.start = none) (hj : (Function.update s.dispatchers i d j).start = some x) :
    j ≠ i ∧ Function.update s.dispatchers i d j = s.dispatchers j := by
  by_cases hji : j = i
  · subst hji
    simp [hd] at hj
  · exact ⟨hji, Function.update_of_ne hji _ _⟩

theorem setDispatcher (h : Ledger s) (i : Nat) {d : Dispatcher} (hd : d.start = none) :
    Ledger (s.setDispatcher i d) := by
  have hkept : ∀ j x, (Function.update s.dispatchers i d j).start = some x →
      Function.update s.dispatchers i d j = s.dispatchers j := fun j x hj => (kept hd hj).2
  exact
    { actionType := h.actionType
      begun := h.begun
      held := fun j e p hj => h.held j e p (hkept j _ hj ▸ hj)
      childless := fun j e p hj hc => h.childless j e p (hkept j _ hj ▸ hj) (hkept j _ hj ▸ hc)
      once := fun j k e p q hj hk => h.once j k e p q (hkept j _ hj ▸ hj) (hkept k _ hk ▸ hk)
      stamp := fun j e p hj => h.stamp j e p (hkept j _ hj ▸ hj)
      children := h.children
      failed := h.failed }

theorem started_put (hrow : Bystander s.row row) :
    (s.put row).started = s.started := by
  have hnone : ¬(s.row.status = .ready ∧ row.status = .running) := by
    rintro ⟨hready, hrunning⟩
    rcases hrow.running hrunning with hs | ⟨hs, -⟩ <;> simp [hready] at hs
  simp [TaskDispatch.put, hnone]

theorem was_running (h : Ledger s) (hrow : Bystander s.row row)
    (hpos : 1 ≤ s.started) (hr : row.status = .running) : s.row.status = .running := by
  rcases hrow.running hr with hpending | ⟨hrunning, -⟩
  · exact absurd hpending (h.begun hpos)
  · exact hrunning

theorem put (h : Ledger s) (hrow : Bystander s.row row) :
    Ledger (s.put row) := by
  have hstarted := started_put hrow
  refine ⟨hrow.actionType.trans h.actionType, fun hpos hpending => ?_, fun i e p hi => ?_,
    h.childless, h.once, fun i e p hi hr he => ?_, ⟨h.children.1, fun e he => ?_⟩,
    fun x hx => ?_⟩
  · rw [hstarted] at hpos
    exact h.begun hpos (hrow.pending hpending)
  · rw [hstarted]
    exact h.held i e p hi
  · rw [hstarted] at he
    have hpos := he ▸ (h.held i e p hi).1
    have hstamp := h.stamp i e p hi (h.was_running hrow hpos hr) he
    rcases hrow.running hr with hpending | ⟨-, hworkspace, href, hrevision⟩
    · exact absurd hpending (h.begun hpos)
    · have hsame : stampIs p row = stampIs p s.row := by
        simp [stampIs, hworkspace, href, hrevision]
      exact hsame.trans hstamp
  · rw [hstarted]
    exact h.children.2 e he
  · obtain ⟨hpos, hle, hnone, hover⟩ := h.failed x hx
    rw [hstarted]
    refine ⟨hpos, hle, hnone, fun ⟨hr, hlast⟩ => hover ⟨?_, hlast⟩⟩
    exact h.was_running hrow (hlast ▸ hpos) hr

theorem claim (h : Ledger s) {i : Nat} {now : Time}
    (hguard : (claimTaskDispatch s.row.stepName stamp now).guard s.row = true) :
    let t := s.put ((claimTaskDispatch s.row.stepName stamp now).set s.row)
    Ledger (t.setDispatcher i (.claimed t.started stamp)) := by
  intro t
  simp only [claimTaskDispatch, Bool.and_eq_true, decide_eq_true_eq, beq_iff_eq] at hguard
  have hstarted : t.started = s.started + 1 := by
    simp [t, TaskDispatch.put, claimTaskDispatch, hguard.1.2]
  have hstampIs : stampIs stamp t.row = true := hguard.2
  have hdispatcher : ∀ j e p,
      ((t.setDispatcher i (.claimed t.started stamp)).dispatchers j).start = some (e, p) →
      j = i ∧ e = s.started + 1 ∧ p = stamp ∨
        j ≠ i ∧ (s.dispatchers j).start = some (e, p) ∧
          (t.setDispatcher i (.claimed t.started stamp)).dispatchers j = s.dispatchers j := by
    intro j e p hj
    by_cases hji : j = i
    · subst hji
      simp only [TaskDispatch.setDispatcher, Function.update_self, Dispatcher.start,
        Option.some.injEq, Prod.mk.injEq] at hj
      exact .inl ⟨rfl, hj.1.symm.trans hstarted, hj.2.symm⟩
    · have hsame : (t.setDispatcher i (.claimed t.started stamp)).dispatchers j =
          s.dispatchers j := Function.update_of_ne hji _ _
      exact .inr ⟨hji, hsame ▸ hj, hsame⟩
  have hfresh : s.started + 1 ∉ s.children := fun hmem =>
    absurd (h.children.2 _ hmem).2 (by omega)
  have hfresh' : s.started + 1 ∉ s.failed.map Prod.fst := by
    intro hmem
    obtain ⟨x, hx, hxe⟩ := List.mem_map.mp hmem
    exact absurd (h.failed x hx).2.1 (by omega)
  refine ⟨h.actionType, fun _ h => (by cases h), fun j e p hj => ?_, fun j e p hj hc => ?_,
    fun j k e p q hj hk => ?_, fun j e p hj hr he => ?_, ⟨h.children.1, fun e he => ?_⟩,
    fun x hx => ?_⟩
  · change 1 ≤ e ∧ e ≤ t.started ∧ e ∉ s.failed.map Prod.fst
    rw [hstarted]
    rcases hdispatcher j e p hj with ⟨-, rfl, -⟩ | ⟨-, hj, -⟩
    · exact ⟨by omega, le_refl _, hfresh'⟩
    · obtain ⟨hpos, hle, hnot⟩ := h.held j e p hj
      exact ⟨hpos, by omega, hnot⟩
  · change e ∉ s.children
    rcases hdispatcher j e p hj with ⟨-, rfl, -⟩ | ⟨-, hj, hsame⟩
    · exact hfresh
    · exact h.childless j e p hj (hsame ▸ hc)
  · rcases hdispatcher j e p hj with ⟨rfl, rfl, -⟩ | ⟨-, hj', -⟩
    · rcases hdispatcher k _ q hk with ⟨rfl, -, -⟩ | ⟨-, hk', -⟩
      · rfl
      · exact absurd (h.held k _ q hk').2.1 (by omega)
    · rcases hdispatcher k e q hk with ⟨-, rfl, -⟩ | ⟨-, hk', -⟩
      · exact absurd (h.held j _ p hj').2.1 (by omega)
      · exact h.once j k e p q hj' hk'
  · rcases hdispatcher j e p hj with ⟨-, -, rfl⟩ | ⟨-, hj, -⟩
    · exact hstampIs
    · have hle := (h.held j e p hj).2.1
      have hlast : t.started = e := he
      omega
  · obtain ⟨hpos, hle⟩ := h.children.2 e he
    exact ⟨hpos, hle.trans (hstarted ▸ Nat.le_succ _)⟩
  · obtain ⟨hpos, hle, hnone, -⟩ := h.failed x hx
    refine ⟨hpos, hle.trans (hstarted ▸ Nat.le_succ _), hnone, fun hlast => ?_⟩
    have hlast' : t.started = x.1 := hlast.2
    omega

theorem fail (h : Ledger s) {i start : Nat}
    (hi : s.dispatchers i = .claimed start stamp) :
    Ledger (s.setDispatcher i (.compensating start stamp false)) := by
  have hsame : ∀ j,
      ((s.setDispatcher i (.compensating start stamp false)).dispatchers j).start =
          (s.dispatchers j).start ∧
        ((s.setDispatcher i (.compensating start stamp false)).dispatchers j).committed =
          (s.dispatchers j).committed := by
    intro j
    by_cases hji : j = i
    · subst hji
      simp [TaskDispatch.setDispatcher, hi, Dispatcher.start, Dispatcher.committed]
    · simp [TaskDispatch.setDispatcher, hji]
  refine ⟨h.actionType, h.begun, fun j e p hj => ?_, fun j e p hj hc => ?_,
    fun j k e p q hj hk => ?_, fun j e p hj => ?_, h.children, h.failed⟩
  · exact h.held j e p ((hsame j).1 ▸ hj)
  · exact h.childless j e p ((hsame j).1 ▸ hj) ((hsame j).2 ▸ hc)
  · exact h.once j k e p q ((hsame j).1 ▸ hj) ((hsame k).1 ▸ hk)
  · exact h.stamp j e p ((hsame j).1 ▸ hj)

/-- The child of `start` exists, and its dispatcher is done or has to take the start back. -/
private theorem addChild (h : Ledger s) {i start : Nat} {d : Dispatcher}
    (hi : s.dispatchers i = .claimed start stamp)
    (hd : d.start = none ∨ d.start = some (start, stamp) ∧ d.committed = true) :
    Ledger ({ s with children := start :: s.children }.setDispatcher i d) := by
  have hstart : (s.dispatchers i).start = some (start, stamp) := by rw [hi]; rfl
  obtain ⟨hpos, hle, hfailed⟩ := h.held i start stamp hstart
  have hchildren : start ∉ s.children := h.childless i start stamp hstart (by rw [hi]; rfl)
  have hdispatcher : ∀ j e p, (Function.update s.dispatchers i d j).start = some (e, p) →
      j = i ∧ (e, p) = (start, stamp) ∧ d.committed = true ∨
        j ≠ i ∧ Function.update s.dispatchers i d j = s.dispatchers j := by
    intro j e p hj
    by_cases hji : j = i
    · subst hji
      rw [Function.update_self] at hj
      rcases hd with hd | ⟨hd, hcommitted⟩
      · rw [hd] at hj
        cases hj
      · exact .inl ⟨rfl, Option.some.inj (hj.symm.trans hd), hcommitted⟩
    · exact .inr ⟨hji, Function.update_of_ne hji _ _⟩
  have hback : ∀ j e p, (Function.update s.dispatchers i d j).start = some (e, p) →
      (s.dispatchers j).start = some (e, p) := by
    intro j e p hj
    rcases hdispatcher j e p hj with ⟨rfl, heq, -⟩ | ⟨-, hsame⟩
    · rw [heq, hstart]
    · exact hsame ▸ hj
  refine ⟨h.actionType, h.begun, fun j e p hj => h.held j e p (hback j e p hj),
    fun j e p hj hc => ?_, fun j k e p q hj hk => ?_, fun j e p hj => ?_,
    ⟨List.nodup_cons.mpr ⟨hchildren, h.children.1⟩, fun e he => ?_⟩, fun x hx => ?_⟩
  · have hj' := hback j e p hj
    rcases hdispatcher j e p hj with ⟨rfl, -, hcommitted⟩ | ⟨hji, hsame⟩
    · have hc' : d.committed = false := by
        simpa [TaskDispatch.setDispatcher, Function.update_self] using hc
      rw [hcommitted] at hc'
      cases hc'
    · intro hmem
      rcases List.mem_cons.mp hmem with rfl | hmem
      · exact hji (h.once j i e p stamp hj' hstart)
      · exact h.childless j e p hj' (hsame ▸ hc) hmem
  · exact h.once j k e p q (hback j e p hj) (hback k e q hk)
  · exact h.stamp j e p (hback j e p hj)
  · rcases List.mem_cons.mp he with rfl | he
    · exact ⟨hpos, hle⟩
    · exact h.children.2 e he
  · obtain ⟨hpos, hle, hnone, hover⟩ := h.failed x hx
    refine ⟨hpos, hle, fun hx2 hmem => ?_, hover⟩
    rcases List.mem_cons.mp hmem with heq | hmem
    · exact hfailed (heq ▸ List.mem_map_of_mem hx)
    · exact hnone hx2 hmem

theorem create (h : Ledger s) {i start : Nat}
    (hi : s.dispatchers i = .claimed start stamp) :
    Ledger ({ s with children := start :: s.children }.setDispatcher i .idle) :=
  h.addChild hi (.inl rfl)

theorem failCommitted (h : Ledger s) {i start : Nat}
    (hi : s.dispatchers i = .claimed start stamp) :
    Ledger ({ s with children := start :: s.children }.setDispatcher i
      (.compensating start stamp true)) :=
  h.addChild hi (.inr ⟨rfl, rfl⟩)

theorem compensated_row (h : Ledger s) {i start : Nat} {now : Time}
    {error : String} (hi : (s.dispatchers i).start = some (start, stamp))
    (hrunning : s.row.status = .running) (hlast : s.started = start) :
    ((failTaskDispatch s.row.stepName error .running stamp now).onRow s.row).status = .failed := by
  have hguard : (failTaskDispatch s.row.stepName error .running stamp now).guard s.row = true := by
    simp [failTaskDispatch, hrunning, h.stamp i start stamp hi hrunning hlast]
  rw [Update.onRow, if_pos hguard]
  rfl

theorem compensate (h : Ledger s) {i start : Nat} {now : Time} {committed : Bool}
    {error : String} (hi : s.dispatchers i = .compensating start stamp committed) :
    Ledger (({ s with failed := (start, committed) :: s.failed }.put
      ((failTaskDispatch s.row.stepName error .running stamp now).onRow s.row)).setDispatcher i
        .idle) := by
  have hstart : (s.dispatchers i).start = some (start, stamp) := by rw [hi]; rfl
  obtain ⟨hpos, hle, -⟩ := h.held i start stamp hstart
  have hrow : Bystander s.row
      ((failTaskDispatch s.row.stepName error .running stamp now).onRow s.row) :=
    .onRow fun _ => .of_status rfl nofun nofun
  have hput := (h.setDispatcher i (d := .idle) rfl).put hrow
  refine ⟨hput.actionType, hput.begun, fun j e p hj => ?_, hput.childless, hput.once,
    hput.stamp, hput.children, fun x hx => ?_⟩
  · obtain ⟨hpos, hle, hnot⟩ := hput.held j e p hj
    obtain ⟨hji, hsame⟩ := kept rfl hj
    refine ⟨hpos, hle, fun hmem => (List.mem_cons.mp hmem).elim (fun heq => ?_) hnot⟩
    exact hji (h.once j i e p stamp (hsame ▸ hj) (heq ▸ hstart))
  · rcases List.mem_cons.mp hx with rfl | hx
    · have hstarted := started_put hrow
      refine ⟨hpos, hle.trans_eq hstarted.symm, fun hnone => ?_, fun ⟨hr, hlast⟩ => ?_⟩
      · refine h.childless i start stamp hstart ?_
        rw [hi]
        exact hnone
      · have hlast' : s.started = start := hstarted.symm.trans hlast
        have hrunning := h.was_running hrow (hlast' ▸ hpos) hr
        have hr' := hr.symm.trans (h.compensated_row hstart hrunning hlast')
        cases hr'
    · exact hput.failed x hx

theorem act {t : TaskDispatch} {a : DispatchAction} (h : Ledger s) (hact : s.act a = some t) :
    Ledger t := by
  cases a with
  | read i =>
    simp only [TaskDispatch.act] at hact
    split at hact
    · cases hact
      exact h.setDispatcher i rfl
    · cases hact
  | stamp i pin =>
    simp only [TaskDispatch.act] at hact
    split at hact
    · split at hact
      case isTrue hguard =>
        cases hact
        have hready : s.row.status = .ready := by
          simp only [stampTaskPin, Bool.and_eq_true, beq_iff_eq] at hguard
          exact hguard.1.2
        have hrow : Bystander s.row ((stampTaskPin s.row.stepName pin).set s.row) :=
          .of_status rfl (by simp [stampTaskPin, hready]) (by simp [stampTaskPin, hready])
        exact (h.put hrow).setDispatcher i rfl
      case isFalse =>
        cases hact
        exact h.setDispatcher i rfl
    · cases hact
  | refuse i now error =>
    simp only [TaskDispatch.act] at hact
    split at hact
    case h_1 stamp _ =>
      cases hact
      have hrow : Bystander s.row
          ((failTaskDispatch s.row.stepName error .ready stamp now).onRow s.row) :=
        .onRow fun _ => .of_status rfl nofun nofun
      exact (h.put hrow).setDispatcher i rfl
    case h_2 => cases hact
  | claim i now =>
    simp only [TaskDispatch.act] at hact
    split at hact
    · split at hact
      case isTrue hguard =>
        cases hact
        exact h.claim hguard
      case isFalse =>
        cases hact
        exact h.setDispatcher i rfl
    · cases hact
  | persistInput i input =>
    simp only [TaskDispatch.act] at hact
    split at hact
    · cases hact
      exact h.put (.onRow fun _ => .of_kept rfl rfl rfl rfl rfl)
    · cases hact
  | create i outcome =>
    simp only [TaskDispatch.act] at hact
    split at hact
    case h_1 start stamp hi =>
      cases outcome with
      | created =>
        cases hact
        exact h.create hi
      | failed =>
        cases hact
        exact h.fail hi
      | failedCommitted =>
        cases hact
        exact h.failCommitted hi
    case h_2 => cases hact
  | compensate i now error =>
    simp only [TaskDispatch.act] at hact
    split at hact
    case h_1 start stamp committed hi =>
      cases hact
      exact h.compensate hi
    case h_2 => cases hact
  | abort i =>
    cases hact
    exact h.setDispatcher i rfl
  | write now jobStatus w =>
    simp only [TaskDispatch.act] at hact
    split at hact
    case isTrue hw =>
      cases hact
      exact h.put (bystander_rowAfter h.actionType hw)
    case isFalse => cases hact
  | cascade now c =>
    cases hact
    exact h.put (bystander_changedRow now c s.row)

end Ledger

/--
Every start of the row has at most one child job, and none if its creation failed before the
commit; the row does not go on running under a failed creation, and what somebody else has made of
it stays.
-/
theorem one_child_per_start {row : JobStepRow} {as : List DispatchAction} {t : TaskDispatch}
    (htask : row.actionType = .task)
    (hrun : exec TaskDispatch.act { row := row } as = some t) :
    (∀ e, t.children.count e ≤ 1) ∧ (∀ e ∈ t.children, 1 ≤ e ∧ e ≤ t.started) ∧
    (∀ x ∈ t.failed, (x.2 = false → x.1 ∉ t.children) ∧
      ¬(t.row.status = .running ∧ t.started = x.1)) ∧
    ∀ i e stamp committed now error u, t.dispatchers i = .compensating e stamp committed →
      t.act (.compensate i now error) = some u →
        (t.row.status = .running → t.started = e → u.row.status = .failed) ∧
        (t.row.status ≠ .running → u.row = t.row) := by
  have hmeets : Meets TaskDispatch.act (fun _ _ => True) { row := row } as :=
    Meets.of_forall (fun _ _ => trivial) _ as
  have hledger : Ledger t :=
    exec_invariant Ledger (fun _ _ _ h _ => h.act) (Ledger.start htask) hmeets hrun
  refine ⟨fun e => List.nodup_iff_count_le_one.mp hledger.children.1 e, hledger.children.2,
    fun x hx => (hledger.failed x hx).2.2, ?_⟩
  intro i e stamp committed now error u hi hact
  simp only [TaskDispatch.act, hi] at hact
  cases hact
  have hstart : (t.dispatchers i).start = some (e, stamp) := by rw [hi]; rfl
  refine ⟨fun hrunning hlast => hledger.compensated_row hstart hrunning hlast, fun hmoved => ?_⟩
  have hguard :
      (failTaskDispatch t.row.stepName error .running stamp now).guard t.row = false := by
    simp [failTaskDispatch, hmoved]
  change (failTaskDispatch t.row.stepName error .running stamp now).onRow t.row = t.row
  rw [Update.onRow, hguard]
  rfl

/-! ## Two dispatchers -/

def deployRow : JobStepRow :=
  { stepName := "deploy", actionType := .task, status := .ready, requiredAbility := "task",
    runner := "none" }

def rivalDispatchers : List DispatchAction :=
  [.read 0, .read 1, .claim 1 5, .claim 0 6, .persistInput 1 none, .create 1 .failed,
    .compensate 1 7 "task 'deploy' not found", .abort 0]

/-- The child is committed, initialisation and compensation fail, and the job is cancelled. -/
def brokenCreation : List DispatchAction :=
  [.read 0, .claim 0 5, .create 0 .failedCommitted, .write 6 .cancelled .cancelServerManagedSteps]

theorem one_child_per_start_rivalDispatchers :
    (∃ t, exec TaskDispatch.act { row := deployRow } rivalDispatchers = some t ∧
      t.started = 1 ∧ t.failed = [(1, false)] ∧ t.row.status = .failed ∧ 1 ∉ t.children) ∧
    ∃ t u, exec TaskDispatch.act { row := deployRow } brokenCreation = some t ∧
      t.act (.compensate 0 7 "lost connection") = some u ∧ t.children = [1] ∧
      t.row.status = .cancelled ∧ u.row = t.row := by
  have hrivals : exec TaskDispatch.act { row := deployRow } rivalDispatchers = some _ := rfl
  obtain ⟨-, -, hfailed, -⟩ := one_child_per_start rfl hrivals
  have hbroken : exec TaskDispatch.act { row := deployRow } brokenCreation = some _ := rfl
  obtain ⟨-, -, -, hcompensate⟩ := one_child_per_start rfl hbroken
  exact ⟨⟨_, hrivals, by decide, by decide, by decide, (hfailed (1, false) (by decide)).1 rfl⟩,
    _, _, hbroken, rfl, by decide, by decide,
    (hcompensate 0 1 none true 7 "lost connection" _ rfl rfl).2 (by decide)⟩

theorem failed_creation_stays_cancelled :
    ∃ t, exec TaskDispatch.act { row := deployRow }
        [.read 0, .claim 0 5, .write 6 .cancelled .cancelServerManagedSteps, .create 0 .failed,
          .compensate 0 7 "task 'deploy' not found"] = some t ∧
      t.failed = [(1, false)] ∧ t.started = 1 ∧ t.row.status = .cancelled ∧
      t.row.status ≠ .failed ∧ t.row.status ≠ .ready :=
  ⟨_, rfl, by decide, by decide, by decide, by decide, by decide⟩

end Stroem.Engine
