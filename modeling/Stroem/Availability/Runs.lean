import Mathlib.Data.List.Induction
import Stroem.Availability

/-!
# Availability over whole runs

The events of observers, finalizers and callers may arrive late and in any order.  What a run
keeps is proved from three lemmas about one event: what a state that serves its configuration
comes from, what a state that waits for a retry comes from, and what empties a slot.
-/

namespace Stroem.Watcher

open Leader (fromSecs)

/-! ## What the counter counts -/

def Event.isReset : Event → Bool
  | .peekCompleted .matched | .loadStarted .. | .loadCompleted .. => true
  | _ => false

def isPeekFailure (a : Availability) : Event → Bool
  | .peekCompleted .failed | .peekTimedOut => true
  | .tick _ => a.peekInFlight.isSome
  | _ => false

def trace (policy : Policy) : Availability → List Event → List (Availability × Event)
  | _, [] => []
  | a, event :: events => (a, event) :: trace policy (step policy a event) events

def failuresSinceReset (seen : List (Availability × Event)) : Nat :=
  (seen.reverse.takeWhile fun entry => !entry.2.isReset).countP fun entry =>
    isPeekFailure entry.1 entry.2

def Event.isSuccess : Event → Bool
  | .loadCompleted _ _ ok _ => ok
  | _ => false

def Event.isStartup : Event → Bool
  | .loadCompleted _ .startup _ _ => true
  | _ => false

def Event.startsPeek : Event → Bool
  | .peekStarted .. => true
  | _ => false

def Event.startsLoad : Event → Bool
  | .loadStarted .. => true
  | _ => false

def Event.endedPeek : Event → Option Nat
  | .peekFinished opId => some opId
  | _ => none

def Event.endedLoad : Event → Option Nat
  | .loadCompleted opId _ _ _ => opId
  | _ => none

/-! ## One event -/

variable {policy : Policy} {a : Availability} {event : Event}

private theorem counted_step {n : Nat}
    (h : (peekFailed policy a).1.freshness = .fresh n) :
    ∃ m, a.freshness = .fresh m ∧ n = min policy.threshold (m + 1) := by
  cases hfreshness : a.freshness with
  | fresh m =>
    rw [peekFailed_of_fresh hfreshness] at h
    exact ⟨m, rfl, (Freshness.fresh.inj h).symm⟩
  | errored backoff nextAttempt =>
    rw [peekFailed_of_errored hfreshness, hfreshness] at h
    cases h

private theorem counted_errored {backoff nextAttempt : Nat}
    (h : (peekFailed policy a).1.freshness = .errored backoff nextAttempt) :
    a.freshness = .errored backoff nextAttempt := by
  cases hfreshness : a.freshness with
  | fresh m =>
    rw [peekFailed_of_fresh hfreshness] at h
    cases h
  | errored backoff' nextAttempt' =>
    rw [peekFailed_of_errored hfreshness, hfreshness] at h
    exact h

theorem fresh_step {n : Nat} (h : (step policy a event).freshness = .fresh n) :
    (event.isReset = true ∧ n = 0) ∨
      (event.isReset = false ∧ ∃ m, a.freshness = .fresh m ∧
        n = if isPeekFailure a event then min policy.threshold (m + 1) else m) := by
  cases event with
  | tick now =>
    refine Or.inr ⟨rfl, ?_⟩
    cases hfreshness : a.freshness with
    | errored backoff nextAttempt =>
      simp only [step, transition, hfreshness] at h
      cases h
    | fresh m =>
      refine ⟨m, rfl, ?_⟩
      simp only [step, transition, hfreshness] at h
      cases hslot : a.peekInFlight.isSome with
      | false =>
        simp only [hslot, hfreshness, Bool.false_eq_true, if_false] at h
        simpa only [isPeekFailure, hslot, Bool.false_eq_true, if_false]
          using (Freshness.fresh.inj h).symm
      | true =>
        simp only [hslot, if_true] at h
        obtain ⟨m', hm', hn⟩ := counted_step h
        obtain rfl := Freshness.fresh.inj (hfreshness.symm.trans hm')
        simpa only [isPeekFailure, hslot, if_true] using hn
  | peekStarted opId startedAt deadline =>
    exact Or.inr ⟨rfl, n, h, rfl⟩
  | peekCompleted observation =>
    simp only [step, transition] at h
    split at h
    · next herrored =>
        rw [isErrored_of_fresh h] at herrored
        cases herrored
    · cases observation with
      | matched => exact Or.inl ⟨rfl, (Freshness.fresh.inj h).symm⟩
      | differs => exact Or.inr ⟨rfl, n, h, rfl⟩
      | needsLoad => exact Or.inr ⟨rfl, n, h, rfl⟩
      | failed =>
        obtain ⟨m, hm, hn⟩ := counted_step h
        exact Or.inr ⟨rfl, m, hm, hn⟩
  | peekTimedOut =>
    simp only [step, transition] at h
    split at h
    · next herrored =>
        rw [isErrored_of_fresh h] at herrored
        cases herrored
    · obtain ⟨m, hm, hn⟩ := counted_step h
      exact Or.inr ⟨rfl, m, hm, hn⟩
  | peekFinished opId => exact Or.inr ⟨rfl, n, h, rfl⟩
  | loadStarted opId startedAt deadline =>
    simp only [step, transition] at h
    split at h
    · next herrored =>
        rw [isErrored_of_fresh h] at herrored
        cases herrored
    · exact Or.inl ⟨rfl, (Freshness.fresh.inj h).symm⟩
  | loadCompleted opId caller ok completedAt =>
    refine Or.inl ⟨rfl, ?_⟩
    simp only [step, transition, freshnessAfterLoad] at h
    split at h
    · exact (Freshness.fresh.inj h).symm
    all_goals cases h

theorem errored_step {backoff nextAttempt : Nat}
    (h : (step policy a event).freshness = .errored backoff nextAttempt) :
    a.freshness = .errored backoff nextAttempt ∨
      ∃ opId caller completedAt, event = .loadCompleted opId caller false completedAt ∧
        ((caller = .startup ∨ a.isErrored = false) ∧ backoff = policy.pollInterval ∨
          ∃ earlier since, a.freshness = .errored earlier since ∧
            backoff = min (saturatingMul earlier 2) policy.maxBackoff) := by
  cases event with
  | tick now =>
    refine Or.inl ?_
    cases hfreshness : a.freshness with
    | errored backoff' nextAttempt' =>
      simp only [step, transition, hfreshness] at h
      exact h
    | fresh m =>
      simp only [step, transition, hfreshness] at h
      split at h
      · rw [counted_errored h] at hfreshness
        cases hfreshness
      · rw [hfreshness] at h
        cases h
  | peekStarted opId startedAt deadline => exact Or.inl h
  | peekCompleted observation =>
    refine Or.inl ?_
    simp only [step, transition] at h
    split at h
    · exact h
    · cases observation with
      | matched => cases h
      | differs => exact h
      | needsLoad => exact h
      | failed => exact counted_errored h
  | peekTimedOut =>
    refine Or.inl ?_
    simp only [step, transition] at h
    split at h
    · exact h
    · exact counted_errored h
  | peekFinished opId => exact Or.inl h
  | loadStarted opId startedAt deadline =>
    refine Or.inl ?_
    simp only [step, transition] at h
    split at h
    · exact h
    · cases h
  | loadCompleted opId caller ok completedAt =>
    simp only [step, transition, freshnessAfterLoad] at h
    split at h
    · cases h
    · exact Or.inr ⟨opId, _, completedAt, rfl,
        Or.inl ⟨Or.inl rfl, (Freshness.errored.inj h).1.symm⟩⟩
    · next hfreshness _ =>
        exact Or.inr ⟨opId, _, completedAt, rfl,
          Or.inl ⟨Or.inr (isErrored_of_fresh hfreshness), (Freshness.errored.inj h).1.symm⟩⟩
    · next hfreshness =>
        exact Or.inr ⟨opId, _, completedAt, rfl,
          Or.inr ⟨_, _, hfreshness, (Freshness.errored.inj h).1.symm⟩⟩
    · next hfreshness =>
        exact Or.inl (hfreshness.trans h)

theorem finish_of_ne {slot : Option InFlight} {f : InFlight} {opId : Nat}
    (hslot : slot = some f) (hne : opId ≠ f.opId) : finish slot opId = some f := by
  have hother : (f.opId == opId) = false := beq_eq_false_iff_ne.mpr (Ne.symm hne)
  simp only [finish, hslot, Option.any_some, hother, Bool.false_eq_true, if_false]

theorem peekInFlight_step {f : InFlight} (hslot : a.peekInFlight = some f)
    (hstarts : event.startsPeek = false) (hends : event.endedPeek ≠ some f.opId) :
    (step policy a event).peekInFlight = some f := by
  cases event with
  | tick now =>
    simp only [step, transition]
    split
    · exact hslot
    · split
      · exact peekFailed_slots.1.trans hslot
      · exact hslot
  | peekStarted opId startedAt deadline => cases hstarts
  | peekCompleted observation =>
    simp only [step, transition]
    split
    · exact hslot
    · cases observation with
      | matched => exact hslot
      | differs => exact hslot
      | needsLoad => exact hslot
      | failed => exact peekFailed_slots.1.trans hslot
  | peekTimedOut =>
    simp only [step, transition]
    split
    · exact hslot
    · exact peekFailed_slots.1.trans hslot
  | peekFinished opId => exact finish_of_ne hslot fun h => hends (congrArg some h)
  | loadStarted opId startedAt deadline => exact hslot
  | loadCompleted opId caller ok completedAt => exact hslot

theorem loadInFlight_step {f : InFlight} (hslot : a.loadInFlight = some f)
    (hstarts : event.startsLoad = false) (hends : event.endedLoad ≠ some f.opId) :
    (step policy a event).loadInFlight = some f := by
  cases event with
  | tick now =>
    simp only [step, transition]
    split
    · exact hslot
    · split
      · exact peekFailed_slots.2.trans hslot
      · exact hslot
  | peekStarted opId startedAt deadline => exact hslot
  | peekCompleted observation =>
    simp only [step, transition]
    split
    · exact hslot
    · cases observation with
      | matched => exact hslot
      | differs => exact hslot
      | needsLoad => exact hslot
      | failed => exact peekFailed_slots.2.trans hslot
  | peekTimedOut =>
    simp only [step, transition]
    split
    · exact hslot
    · exact peekFailed_slots.2.trans hslot
  | peekFinished opId => exact hslot
  | loadStarted opId startedAt deadline => cases hstarts
  | loadCompleted opId caller ok completedAt =>
    cases opId with
    | none => exact hslot
    | some id => exact finish_of_ne hslot fun h => hends (congrArg some h)

/-! ## Runs -/

theorem runFrom_append (events later : List Event) :
    runFrom policy a (events ++ later) = runFrom policy (runFrom policy a events) later :=
  List.foldl_append

theorem run_concat (events : List Event) :
    run policy (events ++ [event]) = step policy (run policy events) event :=
  runFrom_append events [event]

theorem trace_concat (events : List Event) :
    trace policy a (events ++ [event]) =
      trace policy a events ++ [(runFrom policy a events, event)] := by
  induction events generalizing a with
  | nil => rfl
  | cons first events ih =>
    simp only [List.cons_append, trace, ih]
    rfl

theorem failuresSinceReset_concat (seen : List (Availability × Event)) :
    failuresSinceReset (seen ++ [(a, event)]) =
      if event.isReset then 0
      else failuresSinceReset seen + if isPeekFailure a event then 1 else 0 := by
  simp only [failuresSinceReset, List.reverse_append, List.reverse_cons, List.reverse_nil,
    List.nil_append, List.cons_append]
  cases hreset : event.isReset with
  | true => simp [hreset]
  | false => simp [hreset, List.countP_cons]

theorem counter_run (events : List Event) {n : Nat}
    (h : (run policy events).freshness = .fresh n) :
    n = min policy.threshold (failuresSinceReset (trace policy .fresh events)) := by
  induction events using List.reverseRecOn generalizing n with
  | nil =>
    obtain rfl : 0 = n := Freshness.fresh.inj h
    exact (Nat.min_zero _).symm
  | append_singleton events event ih =>
    rw [run_concat] at h
    rw [trace_concat, failuresSinceReset_concat]
    obtain ⟨hreset, rfl⟩ | ⟨hreset, m, hm, rfl⟩ := fresh_step h
    · rw [hreset, if_pos rfl, Nat.min_zero]
    · have hcount := ih hm
      rw [hreset]
      change (if isPeekFailure (run policy events) event then _ else _) = min policy.threshold
        (failuresSinceReset (trace policy .fresh events) +
          if isPeekFailure (run policy events) event then 1 else 0)
      split <;> omega

theorem backoff_run (events : List Event) {backoff nextAttempt : Nat}
    (h : (run policy events).freshness = .errored backoff nextAttempt) :
    backoff ≤ max policy.pollInterval policy.maxBackoff := by
  induction events using List.reverseRecOn generalizing backoff nextAttempt with
  | nil => cases h
  | append_singleton events event ih =>
    rw [run_concat] at h
    obtain hbefore | ⟨_, _, _, _, ⟨_, rfl⟩ | ⟨earlier, since, _, rfl⟩⟩ := errored_step h
    · exact ih hbefore
    · exact Nat.le_max_left _ _
    · exact (Nat.min_le_right _ _).trans (Nat.le_max_right _ _)

def Episode (policy : Policy) (a : Availability) (events : List Event) : Prop :=
  ∀ entry ∈ trace policy a events, entry.1.isErrored = true ∧ entry.2.isStartup = false

theorem backoff_step {backoff nextAttempt backoff' nextAttempt' : Nat}
    (hfreshness : a.freshness = .errored backoff nextAttempt) (hstartup : event.isStartup = false)
    (h : (step policy a event).freshness = .errored backoff' nextAttempt')
    (hmax : backoff ≤ policy.maxBackoff) : backoff ≤ backoff' := by
  obtain hbefore | ⟨opId, caller, completedAt, rfl, hload⟩ := errored_step h
  · rw [hfreshness] at hbefore
    exact (Freshness.errored.inj hbefore).1.le
  · obtain ⟨rfl | hfresh, rfl⟩ | ⟨earlier, since, hearlier, rfl⟩ := hload
    · cases hstartup
    · rw [isErrored_of_errored hfreshness] at hfresh
      cases hfresh
    · rw [hfreshness] at hearlier
      obtain ⟨rfl, rfl⟩ := Freshness.errored.inj hearlier
      have hfits := policy.maxBackoff_le
      simp only [saturatingMul]
      omega

theorem backoff_episode (hpoll : policy.pollInterval ≤ policy.maxBackoff)
    (events later : List Event) {backoff nextAttempt backoff' nextAttempt' : Nat}
    (hfreshness : (run policy events).freshness = .errored backoff nextAttempt)
    (hepisode : Episode policy (run policy events) later)
    (h : (run policy (events ++ later)).freshness = .errored backoff' nextAttempt') :
    backoff ≤ backoff' := by
  induction later generalizing events backoff nextAttempt with
  | nil =>
    rw [List.append_nil, hfreshness] at h
    exact (Freshness.errored.inj h).1.le
  | cons event later ih =>
    have hstep : step policy (run policy events) event = run policy (events ++ [event]) :=
      (run_concat events).symm
    have hhead := hepisode _ List.mem_cons_self
    have hlater : Episode policy (run policy (events ++ [event])) later := by
      rw [← hstep]
      exact fun entry hentry => hepisode entry (List.mem_cons_of_mem _ hentry)
    have happend : events ++ event :: later = (events ++ [event]) ++ later := by
      rw [List.append_assoc, List.singleton_append]
    rw [happend] at h
    have hmax : backoff ≤ policy.maxBackoff := by
      have hbound := backoff_run events hfreshness
      omega
    have herrored : (run policy (events ++ [event])).isErrored = true := by
      cases later with
      | nil =>
        rw [List.append_nil] at h
        exact isErrored_of_errored h
      | cons next later => exact (hlater _ List.mem_cons_self).1
    obtain ⟨between, since, hbetween⟩ := isErrored_eq_true_iff.mp herrored
    have hfirst : backoff ≤ between := by
      rw [← hstep] at hbetween
      exact backoff_step hfreshness hhead.2 hbetween hmax
    exact hfirst.trans (ih (events ++ [event]) hbetween hlater h)

/-! ## The laws -/

structure WatcherLaws (policy : Policy) (events : List Event) : Prop where
  counter : ∀ n, (run policy events).freshness = .fresh n →
    n = min policy.threshold (failuresSinceReset (trace policy .fresh events))
  recovery : ∀ event, (run policy events).isErrored = true →
    (step policy (run policy events) event).isErrored = false → event.isSuccess = true
  retry : ∀ now backoff nextAttempt,
    (run policy events).freshness = .errored backoff nextAttempt →
    ((transition policy (run policy events) (.tick now)).2 = .attemptLoad ↔ nextAttempt ≤ now)
  externalFailure : ∀ opId completedAt, (run policy events).isErrored = true →
    (step policy (run policy events) (.loadCompleted opId .external false completedAt)).freshness =
      (run policy events).freshness
  backoffBounded : ∀ backoff nextAttempt,
    (run policy events).freshness = .errored backoff nextAttempt →
    backoff ≤ max policy.pollInterval policy.maxBackoff
  backoffGrows : policy.pollInterval ≤ policy.maxBackoff →
    ∀ later backoff nextAttempt backoff' nextAttempt',
    (run policy events).freshness = .errored backoff nextAttempt →
    Episode policy (run policy events) later →
    (run policy (events ++ later)).freshness = .errored backoff' nextAttempt' →
    backoff ≤ backoff'
  peekKept : ∀ event f, (run policy events).peekInFlight = some f →
    event.startsPeek = false → event.endedPeek ≠ some f.opId →
    (step policy (run policy events) event).peekInFlight = some f
  loadKept : ∀ event f, (run policy events).loadInFlight = some f →
    event.startsLoad = false → event.endedLoad ≠ some f.opId →
    (step policy (run policy events) event).loadInFlight = some f

theorem recovery_step (herrored : a.isErrored = true)
    (hfresh : (step policy a event).isErrored = false) : event.isSuccess = true := by
  obtain ⟨n, hn⟩ := isErrored_eq_false_iff.mp hfresh
  obtain ⟨backoff, nextAttempt, hfreshness⟩ := isErrored_eq_true_iff.mp herrored
  obtain ⟨hreset, -⟩ | ⟨-, m, hm, -⟩ := fresh_step hn
  · cases event with
    | tick now => cases hreset
    | peekStarted opId startedAt deadline => cases hreset
    | peekCompleted observation =>
      simp only [step, transition, herrored, if_true] at hn
      rw [hfreshness] at hn
      cases hn
    | peekTimedOut => cases hreset
    | peekFinished opId => cases hreset
    | loadStarted opId startedAt deadline =>
      simp only [step, transition, herrored, if_true] at hn
      rw [hfreshness] at hn
      cases hn
    | loadCompleted opId caller ok completedAt =>
      cases ok with
      | true => rfl
      | false =>
        simp only [step, transition, freshnessAfterLoad, hfreshness] at hn
        cases caller <;> cases hn
  · rw [hfreshness] at hm
    cases hm

theorem watcherLaws (policy : Policy) (events : List Event) : WatcherLaws policy events where
  counter n h := counter_run events h
  recovery event := recovery_step
  retry now backoff nextAttempt h := by
    simp only [transition, h]
    split
    · next hbefore => exact ⟨fun heffect => (by cases heffect), fun hafter => by omega⟩
    · next hafter => exact ⟨fun _ => by omega, fun _ => rfl⟩
  externalFailure opId completedAt h := by
    obtain ⟨backoff, nextAttempt, hfreshness⟩ := isErrored_eq_true_iff.mp h
    simp only [step, transition, freshnessAfterLoad, hfreshness]
  backoffBounded backoff nextAttempt h := backoff_run events h
  backoffGrows hpoll later backoff nextAttempt backoff' nextAttempt' :=
    backoff_episode hpoll events later
  peekKept event f := peekInFlight_step
  loadKept event f := loadInFlight_step

def zeroThreshold : Policy where
  peekFailureThreshold := 0
  pollInterval := fromSecs 60
  maxBackoff := fromSecs 900

theorem zeroThreshold_counts : ¬ ∀ (policy : Policy) (events : List Event) (n : Nat),
    (run policy events).freshness = .fresh n →
      n = min policy.peekFailureThreshold
        (failuresSinceReset (trace policy .fresh events)) := by
  intro h
  have hone := h zeroThreshold [.peekTimedOut] 1 rfl
  exact absurd hone (by decide)

end Stroem.Watcher
