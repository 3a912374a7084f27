import Stroem.Leader

/-!
# The availability of a workspace

`transition` is the only writer of the availability of a workspace: it is told of the ticks of
the watcher, of peeks at the source and of loads, and answers with what the watcher does next.
Durations and instants are whole nanoseconds.
-/

namespace Stroem.Watcher

open Leader (durationMax fromSecs)

def u32Max : Nat := 2 ^ 32 - 1

def instantMax : Nat := 2 ^ 63 * 1000000000 - 1

/-! ## The state -/

inductive Caller where
  | watcher
  | external
  | startup
  deriving DecidableEq

structure InFlight where
  opId : Nat
  startedAt : Nat
  deadline : Nat
  deriving DecidableEq

inductive Freshness where
  | fresh (consecutivePeekFailures : Nat)
  | errored (backoff nextAttempt : Nat)
  deriving DecidableEq

structure Availability where
  freshness : Freshness
  loadInFlight : Option InFlight
  peekInFlight : Option InFlight
  deriving DecidableEq

def Availability.fresh : Availability where
  freshness := .fresh 0
  loadInFlight := none
  peekInFlight := none

def Availability.isErrored (a : Availability) : Bool :=
  match a.freshness with
  | .errored .. => true
  | .fresh _ => false

structure Policy where
  peekFailureThreshold : Nat
  pollInterval : Nat
  maxBackoff : Nat
  threshold_le : peekFailureThreshold ≤ u32Max := by decide
  pollInterval_le : pollInterval ≤ durationMax := by decide
  maxBackoff_le : maxBackoff ≤ durationMax := by decide

def Policy.threshold (policy : Policy) : Nat := max policy.peekFailureThreshold 1

structure ReloadSettings where
  peekFailureThreshold : Nat
  maxBackoff : Nat
  threshold_le : peekFailureThreshold ≤ u32Max := by decide
  maxBackoff_le : maxBackoff ≤ durationMax := by decide

def ReloadSettings.policy (settings : ReloadSettings) (pollInterval : Nat)
    (h : pollInterval ≤ durationMax) : Policy where
  peekFailureThreshold := max settings.peekFailureThreshold 1
  pollInterval := pollInterval
  maxBackoff := settings.maxBackoff
  threshold_le := Nat.max_le.mpr ⟨settings.threshold_le, by decide⟩
  pollInterval_le := h
  maxBackoff_le := settings.maxBackoff_le

/-! ## Events and effects -/

inductive PeekObservation where
  | matched
  | differs
  | needsLoad
  | failed
  deriving DecidableEq

inductive Event where
  | tick (now : Nat)
  | peekStarted (opId startedAt deadline : Nat)
  | peekCompleted (observation : PeekObservation)
  | peekTimedOut
  | peekFinished (opId : Nat)
  | loadStarted (opId startedAt deadline : Nat)
  | loadCompleted (opId : Option Nat) (caller : Caller) (ok : Bool) (completedAt : Nat)
  deriving DecidableEq

inductive Effect where
  | none
  | skip
  | peek
  | attemptLoad
  | peekFailureSkipped (first : Bool)
  deriving DecidableEq

/-! ## Transitions -/

def checkedAdd (t d : Nat) : Option Nat :=
  if t + d ≤ instantMax then some (t + d) else none

def overflowFallback : Nat := fromSecs 86400

def instantAfter (t d : Nat) : Nat :=
  ((checkedAdd t d).or (checkedAdd t overflowFallback)).getD t

def saturatingMul (d n : Nat) : Nat := min (d * n) durationMax

def peekFailed (policy : Policy) (a : Availability) : Availability × Effect :=
  match a.freshness with
  | .errored .. => (a, .none)
  | .fresh n =>
    let k := policy.threshold
    let next := min (n + 1) u32Max
    if next < k then
      ({ a with freshness := .fresh next }, .peekFailureSkipped (n == 0))
    else ({ a with freshness := .fresh k }, .attemptLoad)

def finish (slot : Option InFlight) (opId : Nat) : Option InFlight :=
  if slot.any (fun f => f.opId == opId) then none else slot

def freshnessAfterLoad (policy : Policy) (ok : Bool) (completedAt : Nat) :
    Freshness → Caller → Freshness
  | freshness, caller =>
    match ok, freshness, caller with
    | true, _, _ => .fresh 0
    | false, _, .startup => .errored policy.pollInterval completedAt
    | false, .fresh _, _ =>
      .errored policy.pollInterval (instantAfter completedAt policy.pollInterval)
    | false, .errored backoff _, .watcher =>
      let next := min (saturatingMul backoff 2) policy.maxBackoff
      .errored next (instantAfter completedAt next)
    | false, .errored backoff nextAttempt, .external => .errored backoff nextAttempt

def transition (policy : Policy) (a : Availability) : Event → Availability × Effect
  | .tick now =>
    match a.freshness with
    | .errored _ nextAttempt => (a, if now < nextAttempt then .skip else .attemptLoad)
    | .fresh _ => if a.peekInFlight.isSome then peekFailed policy a else (a, .peek)
  | .peekStarted opId startedAt deadline =>
    ({ a with peekInFlight := some ⟨opId, startedAt, deadline⟩ }, .none)
  | .peekCompleted observation =>
    if a.isErrored then (a, .none)
    else
      match observation with
      | .matched => ({ a with freshness := .fresh 0 }, .none)
      | .differs | .needsLoad => (a, .attemptLoad)
      | .failed => peekFailed policy a
  | .peekTimedOut => if a.isErrored then (a, .none) else peekFailed policy a
  | .peekFinished opId => ({ a with peekInFlight := finish a.peekInFlight opId }, .none)
  | .loadStarted opId startedAt deadline =>
    ({ a with
        loadInFlight := some ⟨opId, startedAt, deadline⟩
        freshness := if a.isErrored then a.freshness else .fresh 0 }, .none)
  | .loadCompleted opId caller ok completedAt =>
    ({ a with
        loadInFlight :=
          match opId with
          | some id => finish a.loadInFlight id
          | none => a.loadInFlight
        freshness := freshnessAfterLoad policy ok completedAt a.freshness caller }, .none)

def step (policy : Policy) (a : Availability) (event : Event) : Availability :=
  (transition policy a event).1

def runFrom (policy : Policy) (a : Availability) (events : List Event) : Availability :=
  events.foldl (step policy) a

def run (policy : Policy) (events : List Event) : Availability :=
  runFrom policy .fresh events

/-! ## What one event can do -/

variable {policy : Policy} {a : Availability} {event : Event}

theorem isErrored_eq_true_iff :
    a.isErrored = true ↔ ∃ backoff nextAttempt, a.freshness = .errored backoff nextAttempt := by
  unfold Availability.isErrored
  cases a.freshness <;> simp

theorem isErrored_eq_false_iff : a.isErrored = false ↔ ∃ n, a.freshness = .fresh n := by
  unfold Availability.isErrored
  cases a.freshness <;> simp

theorem isErrored_of_errored {backoff nextAttempt : Nat}
    (h : a.freshness = .errored backoff nextAttempt) : a.isErrored = true :=
  isErrored_eq_true_iff.mpr ⟨backoff, nextAttempt, h⟩

theorem isErrored_of_fresh {n : Nat} (h : a.freshness = .fresh n) : a.isErrored = false :=
  isErrored_eq_false_iff.mpr ⟨n, h⟩

theorem threshold_le_u32Max : policy.threshold ≤ u32Max :=
  Nat.max_le.mpr ⟨policy.threshold_le, by decide⟩

theorem peekFailed_of_fresh {n : Nat} (h : a.freshness = .fresh n) :
    (peekFailed policy a).1 = { a with freshness := .fresh (min policy.threshold (n + 1)) } := by
  have hfits : policy.threshold ≤ u32Max := threshold_le_u32Max
  simp only [peekFailed, h]
  split
  · next hbelow =>
      have hnext : min (n + 1) u32Max = min policy.threshold (n + 1) := by omega
      rw [hnext]
  · next habove =>
      have hnext : policy.threshold = min policy.threshold (n + 1) := by omega
      rw [← hnext]

theorem peekFailed_of_errored {backoff nextAttempt : Nat}
    (h : a.freshness = .errored backoff nextAttempt) : (peekFailed policy a).1 = a := by
  simp only [peekFailed, h]

theorem peekFailed_slots : (peekFailed policy a).1.peekInFlight = a.peekInFlight ∧
    (peekFailed policy a).1.loadInFlight = a.loadInFlight := by
  cases hfreshness : a.freshness with
  | fresh n => rw [peekFailed_of_fresh hfreshness]; exact ⟨rfl, rfl⟩
  | errored backoff nextAttempt => rw [peekFailed_of_errored hfreshness]; exact ⟨rfl, rfl⟩

end Stroem.Watcher
