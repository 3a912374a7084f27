import Stroem.EventSource.Emitted
import Stroem.Foundation.Runs

/-!
# Restart policies over runs of passes

Between two passes the jobs of the table run, end, are emitted and are deleted.  Once a source's
job has ended as its policy wants it to end, no later pass should start the source again.  What
a pass knows of that end is the row of a job of the source that ended less than ten minutes ago.
-/

namespace Stroem.EventSource

open Foundation

def RestartPolicy.stopsAfter : RestartPolicy → JobStatus → Bool
  | .always, _ => false
  | .onFailure, status => status == .completed
  | .never, status => status == .completed || status == .failed

structure State where
  rows : List EventSourceJobRow
  consumers : List Uuid := []
  ended : Bool := false
  deriving DecidableEq

structure Pass where
  desired : List DesiredEventSource
  dbNow : Time
  utcNow : EventSourceJobRow → Time
  ids : Nat → Option Uuid
  now : Time

inductive Event where
  | moves (jobId : Uuid) (status : JobStatus)
  | ends (jobId : Uuid) (status : JobStatus) (completedAt : Time)
  | appears (row : EventSourceJobRow)
  | deleted (jobId : Uuid)
  | pass (p : Pass)

def Pass.effects (p : Pass) (rows : List EventSourceJobRow) : List Effect :=
  reconcile p.desired rows p.dbNow p.utcNow

def setRow (jobId : Uuid) (f : EventSourceJobRow → EventSourceJobRow)
    (rows : List EventSourceJobRow) : List EventSourceJobRow :=
  rows.map fun row => if row.jobId = jobId ∧ row.status.isTerminal = false then f row else row

def State.step (des : DesiredEventSource) (s : State) : Event → Option State
  | .moves jobId status =>
    if status.isTerminal then none
    else some { s with rows := setRow jobId (fun row => { row with status := status }) s.rows }
  | .ends jobId status completedAt =>
    if status.isTerminal ∧ ∃ row ∈ s.rows, row.jobId = jobId ∧ row.status.isTerminal = false then
      some { s with
        rows := setRow jobId
          (fun row => { row with status := status, completedAt := some completedAt }) s.rows
        ended := s.ended ||
          (s.consumers.contains jobId && des.restartPolicy.stopsAfter status) }
    else none
  | .appears row => some { s with rows := s.rows ++ [row] }
  | .deleted jobId => some { s with rows := s.rows.filter fun row => row.jobId != jobId }
  | .pass p => some { s with
      rows := after p.ids p.now (p.effects s.rows) s.rows
      consumers := s.consumers ++
        (insertedFor p.ids p.now (p.effects s.rows) des.sourceId).map (·.jobId) }

def Event.Keeps (des : DesiredEventSource) : Event → Prop
  | .pass p => (p.desired.map (·.sourceId)).Nodup ∧
      ∀ d ∈ p.desired, d.sourceId = des.sourceId → d = des
  | _ => True

def StartsAgain (des : DesiredEventSource) (s : State) : Event → Prop
  | .pass p => s.ended = true ∧ creations des.sourceId (p.effects s.rows) ≠ []
  | _ => False

/--
The table still says that the source has its job: a current one is active, or one ended in the
last ten minutes and no failed one is due for a restart.
-/
def Remembers (des : DesiredEventSource) (rows : List EventSourceJobRow) (dbNow : Time)
    (utcNow : EventSourceJobRow → Time) : Prop :=
  (∃ row ∈ activeOf rows des.sourceId, row.fingerprint = des.fingerprint) ∨
    (activeOf rows des.sourceId = [] ∧ endedRows rows dbNow des.sourceId ≠ [] ∧
      ∀ row ∈ endedRows rows dbNow des.sourceId, des.restartPolicy = .onFailure →
        row.failed = true → backedOff des.backoffSecs (utcNow row) row = false)

/-- The pass finds the source remembered, if it comes after the end and the source is still
configured. -/
def FindsRemembered (des : DesiredEventSource) (s : State) : Event → Prop
  | .pass p => s.ended = true → des ∈ p.desired → Remembers des s.rows p.dbNow p.utcNow
  | _ => True

/-! ## One pass -/

theorem due_eq_none_iff {des : DesiredEventSource} (hpolicy : des.restartPolicy ≠ .always)
    (now : Time) (row : EventSourceJobRow) :
    due des now row = none ↔ (des.restartPolicy = .onFailure → row.failed = true →
      backedOff des.backoffSecs now row = false) := by
  unfold due
  cases h : des.restartPolicy with
  | always => exact absurd h hpolicy
  | onFailure => cases row.failed <;> simp [shouldRestart]
  | never => simp [shouldRestart]

theorem startsOf_eq_nil_iff {des : DesiredEventSource} (hpolicy : des.restartPolicy ≠ .always)
    (rows : List EventSourceJobRow) (dbNow : Time) (utcNow : EventSourceJobRow → Time) :
    startsOf des rows dbNow utcNow = [] ↔ Remembers des rows dbNow utcNow := by
  unfold Remembers
  by_cases hidle : activeOf rows des.sourceId = []
  · have hperm := startsOf_idle dbNow utcNow hidle
    have hnil : startsOf des rows dbNow utcNow = [] ↔
        (if endedRows rows dbNow des.sourceId = [] then [0]
          else dues des utcNow (endedRows rows dbNow des.sourceId)) = [] := by
      constructor
      · intro h
        rw [h] at hperm
        exact List.nil_perm.mp hperm
      · intro h
        rw [h] at hperm
        exact hperm.eq_nil
    rw [hnil]
    by_cases hended : endedRows rows dbNow des.sourceId = []
    · simp [hended, hidle]
    · rw [if_neg hended, dues, List.filterMap_eq_nil_iff]
      simp only [due_eq_none_iff hpolicy, hidle, hended, List.not_mem_nil, false_and,
        exists_false, false_or, true_and, ne_eq, not_false_eq_true]
  · rw [startsOf_active hidle]
    simp only [hidle, false_and, or_false]
    constructor
    · intro h
      split at h
      case isTrue hany =>
        obtain ⟨row, hrow, hfp⟩ := List.any_eq_true.mp hany
        exact ⟨row, hrow, by simpa using hfp⟩
      case isFalse => cases h
    · rintro ⟨row, hrow, hfp⟩
      rw [if_pos (List.any_eq_true.mpr ⟨row, hrow, by simpa using hfp⟩)]

theorem mem_desired_of_create {desired : List DesiredEventSource} {rows : List EventSourceJobRow}
    {dbNow : Time} {utcNow : EventSourceJobRow → Time} {des : DesiredEventSource}
    {failures : Nat} (h : .create des failures ∈ reconcile desired rows dbNow utcNow) :
    des ∈ desired := by
  unfold reconcile at h
  rw [List.mem_append, List.mem_append] at h
  obtain (hensure | hstop) | hrestart := h
  · obtain ⟨d, hd, hensure⟩ := List.mem_flatMap.mp hensure
    have heq : des = d := by
      unfold ensureJob at hensure
      split at hensure
      · split at hensure
        · cases hensure
        · simp only [List.mem_singleton, Effect.create.injEq] at hensure
          exact hensure.1
      · unfold replace at hensure
        obtain hdup | hkept := List.mem_append.mp hensure
        · simp at hdup
        · unfold replaceKept at hkept
          split at hkept
          · split at hkept
            · cases hkept
            · simp only [List.mem_cons, reduceCtorEq, Effect.create.injEq, List.not_mem_nil,
                or_false, false_or] at hkept
              exact hkept.1
          · cases hkept
    rw [heq]
    exact hd
  · simp [stopRemoved] at hstop
  · obtain ⟨⟨d, n⟩, hstart, heq⟩ := List.mem_map.mp hrestart
    obtain ⟨row, -, hrow⟩ := List.mem_filterMap.mp hstart
    obtain ⟨rfl, rfl⟩ := Effect.create.inj heq
    unfold restart at hrow
    split at hrow
    · obtain ⟨d', hfind, hd'⟩ := Option.bind_eq_some_iff.mp hrow
      obtain ⟨m, -, hpair⟩ := Option.map_eq_some_iff.mp hd'
      rw [← (Prod.mk.inj hpair).1]
      exact List.mem_of_find?_eq_some hfind
    · cases hrow

theorem creations_unconfigured {desired : List DesiredEventSource} {sourceId : String}
    (h : sourceId ∉ desired.map (·.sourceId)) (rows : List EventSourceJobRow) (dbNow : Time)
    (utcNow : EventSourceJobRow → Time) :
    creations sourceId (reconcile desired rows dbNow utcNow) = [] := by
  refine List.filterMap_eq_nil_iff.mpr fun effect heffect => ?_
  cases effect with
  | cancel jobId => rfl
  | create des failures =>
    have hne : des.sourceId ≠ sourceId := by
      rintro rfl
      exact h (List.mem_map.mpr ⟨des, mem_desired_of_create heffect, rfl⟩)
    simp [Effect.created, hne]

theorem not_startsAgain_iff {des : DesiredEventSource} (hpolicy : des.restartPolicy ≠ .always)
    (s : State) {event : Event} (hkeeps : event.Keeps des) :
    ¬ StartsAgain des s event ↔ FindsRemembered des s event := by
  cases event with
  | pass p =>
    obtain ⟨hids, hsame⟩ := hkeeps
    simp only [StartsAgain, FindsRemembered, not_and, ne_eq, not_not, Pass.effects]
    refine imp_congr_right fun _ => ?_
    by_cases hdes : des ∈ p.desired
    · rw [creations_reconcile hids hdes, startsOf_eq_nil_iff hpolicy]
      simp [hdes]
    · have hnot : des.sourceId ∉ p.desired.map (·.sourceId) := by
        intro hmem
        obtain ⟨d, hd, hid⟩ := List.mem_map.mp hmem
        exact hdes (hsame d hd hid ▸ hd)
      rw [creations_unconfigured hnot]
      simp [hdes]
  | moves | ends | appears | deleted => simp [StartsAgain, FindsRemembered]

/-! ## Runs -/

/-- In a run no pass starts a source again after its job has ended for good exactly when each
such pass finds the source remembered. -/
theorem policy_kept_iff {des : DesiredEventSource} (hpolicy : des.restartPolicy ≠ .always)
    {s : State} {events : List Event} (hkeeps : ∀ event ∈ events, event.Keeps des) :
    (∀ before event mid t, before ++ [event] <+: events →
        exec (State.step des) s before = some mid → State.step des mid event = some t →
        ¬ StartsAgain des mid event) ↔
      Meets (State.step des) (FindsRemembered des) s events := by
  rw [← meets_iff_forall_steps]
  induction events generalizing s with
  | nil => exact Iff.rfl
  | cons event events ih =>
    have hfirst := not_startsAgain_iff hpolicy s (hkeeps event List.mem_cons_self)
    have hrest : ∀ e ∈ events, e.Keeps des := fun e he => hkeeps e (List.mem_cons_of_mem _ he)
    refine and_congr ?_ (forall_congr' fun t => imp_congr_right fun _ => ih hrest)
    rw [← hfirst]
    constructor
    · intro h hstarts
      cases event with
      | pass p => exact h _ rfl hstarts
      | moves | ends | appears | deleted => exact hstarts
    · exact fun h _ _ => h

/-! ### A source that is to run once -/

def runOnce : DesiredEventSource := { queue with restartPolicy := .never }

def passAt (seconds jobId : Nat) : Pass where
  desired := [runOnce]
  dbNow := seconds * 1000000000
  utcNow := fun _ => seconds * 1000000000
  ids := fun _ => some jobId
  now := seconds * 1000000000

theorem never_starts_again :
    ¬ (∀ before event mid t,
        before ++ [event] <+: [.pass (passAt 0 1), .ends 1 .completed (5 * 1000000000),
          .pass (passAt 700 2)] →
        exec (State.step runOnce) { rows := [] } before = some mid →
        State.step runOnce mid event = some t → ¬ StartsAgain runOnce mid event) := by
  intro h
  have hrun : ∃ mid, exec (State.step runOnce) { rows := [] }
      [.pass (passAt 0 1), .ends 1 .completed (5 * 1000000000)] = some mid ∧
        (mid.ended = true ∧ creations runOnce.sourceId ((passAt 700 2).effects mid.rows) ≠ []) := by
    refine ⟨_, rfl, ?_, ?_⟩
    · decide +kernel
    · decide +kernel
  obtain ⟨mid, hmid, hstarts⟩ := hrun
  exact h _ (.pass (passAt 700 2)) mid _ (by simp) hmid rfl hstarts

def passesWithinTheWindow : List Event :=
  [.pass (passAt 0 1), .ends 1 .completed (5 * 1000000000), .pass (passAt 500 2)]

theorem policy_kept_iff_withinTheWindow :
    Meets (State.step runOnce) (FindsRemembered runOnce) { rows := [] } passesWithinTheWindow ∧
      ∀ before event mid t, before ++ [event] <+: passesWithinTheWindow →
        exec (State.step runOnce) { rows := [] } before = some mid →
        State.step runOnce mid event = some t → ¬ StartsAgain runOnce mid event := by
  have hfinds : Meets (State.step runOnce) (FindsRemembered runOnce) { rows := [] }
      passesWithinTheWindow := by
    refine ⟨fun hover => absurd hover (by decide), fun t ht => ?_⟩
    cases ht
    refine ⟨trivial, fun t ht => ?_⟩
    cases ht
    refine ⟨fun _ _ => .inr ⟨by decide +kernel, by decide +kernel, ?_⟩, fun _ _ => trivial⟩
    intro row _ hfailing
    exact absurd hfailing (by decide)
  refine ⟨hfinds, (policy_kept_iff (by decide) ?_).mpr hfinds⟩
  intro event hevent
  simp only [passesWithinTheWindow, List.mem_cons, List.not_mem_nil, or_false] at hevent
  obtain rfl | rfl | rfl := hevent
  · exact ⟨by decide, by decide⟩
  · trivial
  · exact ⟨by decide, by decide⟩

end Stroem.EventSource
