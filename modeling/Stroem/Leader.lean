import Mathlib.Algebra.GroupWithZero.Nat
import Mathlib.Algebra.Group.Int.Defs
import Mathlib.Tactic.Common
import Mathlib.Order.Lattice

/-!
# The leader handle and its timing

One replica leads at a time: it holds a PostgreSQL advisory lock on a session of its own, whose
`idle_session_timeout` is the lease.  `is_leader` is true only while the last successful ping
was sent less than `validity` ago.  Durations and instants are whole nanoseconds; what the
source counts in milliseconds is rounded where the source rounds it.
-/

namespace Stroem.Leader

/-! ## Durations and machine integers -/

def fromMillis (ms : Nat) : Nat := ms * 1000000

def fromSecs (secs : Nat) : Nat := secs * 1000000000

def asMillis (d : Nat) : Nat := d / 1000000

def durationMax : Nat := 2 ^ 64 * 1000000000 - 1

def u64Max : Nat := 2 ^ 64 - 1

def i64Max : Int := 2 ^ 63 - 1

def i64Min : Int := -2 ^ 63

def i64OrMax (n : Nat) : Int := min (n : Int) i64Max

def saturatingAdd (a b : Int) : Int := max i64Min (min (a + b) i64Max)

/-! ## `LeaderTiming` -/

structure LeaderTiming where
  retryInterval : Nat
  pingTimeout : Nat
  acquireTimeout : Nat
  validity : Nat
  lease : Nat
  releaseAfter : Option Nat
  deriving DecidableEq

def maxRetryInterval : Nat := fromSecs 5

def maxAcquireTimeout : Nat := fromSecs 10

/-- What `LeaderTiming::check` refuses, with the two durations its message shows. -/
inductive TimingError where
  | pingsOutlastValidity (pings validity : Nat)
  | validityOutlastsLease (validity lease : Nat)
  | leaseBelowRetries (lease retries : Nat)
  deriving DecidableEq

def TimingError.message (debug : Nat → String) : TimingError → String
  | .pingsOutlastValidity pings validity =>
    "2 × ping_timeout + retry_interval (" ++ debug pings ++ ") must be below validity ("
      ++ debug validity
      ++ "): a leader whose pings succeed would lose validity between two of them"
  | .validityOutlastsLease validity lease =>
    "validity (" ++ debug validity ++ ") must be below lease (" ++ debug lease ++ ")"
  | .leaseBelowRetries lease retries =>
    "lease (" ++ debug lease ++ ") must be at least 3 × retry_interval (" ++ debug retries
      ++ ")"

namespace LeaderTiming

def fromLease (lease : Nat) (releaseAfter : Option Nat) : LeaderTiming :=
  let ms := min (asMillis lease) u64Max
  let sixth := min (fromMillis (ms / 6)) maxRetryInterval
  { retryInterval := sixth
    pingTimeout := sixth
    acquireTimeout := min (fromMillis (ms / 3)) maxAcquireTimeout
    validity := fromMillis (min (ms * 2) u64Max / 3)
    lease
    releaseAfter }

def check (t : LeaderTiming) : Except TimingError Unit :=
  if 2 * t.pingTimeout + t.retryInterval ≥ t.validity then
    .error (.pingsOutlastValidity (2 * t.pingTimeout + t.retryInterval) t.validity)
  else if t.validity ≥ t.lease then
    .error (.validityOutlastsLease t.validity t.lease)
  else if t.lease < 3 * t.retryInterval then
    .error (.leaseBelowRetries t.lease (3 * t.retryInterval))
  else
    .ok ()

theorem check_eq_ok_iff (t : LeaderTiming) :
    t.check = .ok () ↔ 2 * t.pingTimeout + t.retryInterval < t.validity ∧
      t.validity < t.lease ∧ 3 * t.retryInterval ≤ t.lease := by
  unfold check
  split_ifs <;> simp <;> omega

theorem fromLease_check {lease : Nat} (releaseAfter : Option Nat)
    (h : fromMillis 2 ≤ lease) : (fromLease lease releaseAfter).check = .ok () := by
  rw [check_eq_ok_iff]
  simp only [fromLease, fromMillis, asMillis, maxRetryInterval,
    fromSecs, u64Max] at h ⊢
  refine ⟨?_, ?_, ?_⟩ <;> omega

theorem validity_le_lease {t : LeaderTiming} (h : t.check = .ok ()) :
    asMillis t.validity ≤ asMillis t.lease := by
  have hlt := ((check_eq_ok_iff t).mp h).2.1
  exact Nat.div_le_div_right (le_of_lt hlt)

end LeaderTiming

/-! ## The handle -/

def monotonicMs (epoch now : Nat) : Int := i64OrMax (asMillis (now - epoch))

def renewed (sentMs : Int) (validity : Nat) : Int :=
  saturatingAdd sentMs (i64OrMax (asMillis validity))

def cleared : Int := i64Min

def isLeader (epoch now : Nat) (validUntilMs : Int) : Bool :=
  decide (monotonicMs epoch now < validUntilMs)

theorem monotonicMs_mono (epoch : Nat) {s t : Nat} (h : s ≤ t) :
    monotonicMs epoch s ≤ monotonicMs epoch t := by
  have hdiv : asMillis (s - epoch) ≤ asMillis (t - epoch) :=
    Nat.div_le_div_right (Nat.sub_le_sub_right h epoch)
  unfold monotonicMs i64OrMax
  omega

theorem monotonicMs_nonneg (epoch now : Nat) : 0 ≤ monotonicMs epoch now := by
  unfold monotonicMs i64OrMax i64Max
  omega

theorem isLeader_cleared (epoch now : Nat) : isLeader epoch now cleared = false := by
  have h := monotonicMs_nonneg epoch now
  have hnot : ¬ monotonicMs epoch now < cleared := by
    unfold cleared i64Min
    omega
  exact decide_eq_false hnot

theorem renewed_le {sentMs : Int} (validity : Nat) (h : 0 ≤ sentMs) :
    renewed sentMs validity ≤ i64Max ∧ renewed sentMs validity ≤ sentMs + asMillis validity := by
  unfold renewed saturatingAdd i64OrMax i64Min i64Max
  omega

theorem isLeader_before {epoch now last leaseMs : Nat} {validUntilMs : Int}
    (hmax : validUntilMs ≤ i64Max) (hle : validUntilMs ≤ monotonicMs epoch last + leaseMs)
    (hepoch : epoch ≤ last) (h : isLeader epoch now validUntilMs = true) :
    now < last + fromMillis leaseMs := by
  have hlt : monotonicMs epoch now < validUntilMs := of_decide_eq_true h
  simp only [monotonicMs, i64OrMax, asMillis] at hlt hle
  simp only [fromMillis]
  omega

/-! ## What one iteration does -/

inductive Action where
  | release
  | ping
  | stayFollower
  | acquire
  deriving DecidableEq

def nextAction (holding : Bool) (unfitFor : Option Nat) (releaseAfter : Nat) : Action :=
  match holding, unfitFor with
  | true, some d => if d ≥ releaseAfter then .release else .ping
  | true, none => .ping
  | false, some _ => .stayFollower
  | false, none => .acquire

theorem nextAction_holding (unfitFor : Option Nat) (releaseAfter : Nat) :
    nextAction true unfitFor releaseAfter ≠ .acquire := by
  cases unfitFor with
  | none => simp [nextAction]
  | some d =>
    simp only [nextAction]
    split <;> simp

inductive LoopFault where
  | stalled
  | stopped
  deriving DecidableEq

structure UnfitLoop where
  name : String
  fault : LoopFault
  deriving DecidableEq

/-- `observe_fitness`: the probe is not asked when self-release is off. -/
def observeFitness (probe : Option UnfitLoop) (releaseAfter : Option Nat) :
    Option UnfitLoop :=
  releaseAfter.bind fun _ => probe

def trackFitness (unfit : Option UnfitLoop) (now : Nat) :
    Option (UnfitLoop × Nat) → Option (UnfitLoop × Nat)
  | none => unfit.map fun loop => (loop, now)
  | some (_, since) => unfit.map fun loop => (loop, since)

end Stroem.Leader
