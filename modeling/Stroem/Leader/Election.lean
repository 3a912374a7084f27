import Stroem.Leader
import Stroem.Foundation.Runs
import Mathlib.Data.Option.Basic
import Mathlib.Logic.Function.Basic

/-!
# The election among replicas

Every replica runs `run_loop` against one PostgreSQL server.  A statement is sent, executed by the
server and answered at three different moments, and anything may happen between them: time passes
(a frozen process is one whose events do not come), the client gives up, the server ends the
session.  A session ends when its client drops it or its `idle_session_timeout` passes, which
frees the lock.

A timeout may strike at any moment here, whatever its configured length, so the runs below include
those of every choice of `ping_timeout` and `acquire_timeout`.
-/

namespace Stroem.Leader

open Foundation

abbrev Sid := Nat

inductive LeaseStatus where
  | enforced
  | unsupported
  deriving DecidableEq

inductive Query where
  | setLease (ms : Nat)
  | lock
  | lockHolder
  | ping
  deriving DecidableEq

inductive Reply where
  | lease (status : LeaseStatus)
  | lock (acquired : Bool)
  | lockHolder
  | pong
  deriving DecidableEq

structure Session (ι : Type) where
  client : ι
  alive : Bool := true
  closed : Bool := false
  idleTimeoutMs : Option Nat
  lastStatement : Nat
  query : Option Query := none
  reply : Option Reply := none

inductive Phase where
  | resting
  | connecting (wantHolder : Bool)
  | leasing (sid : Sid) (wantHolder : Bool)
  | locking (sid : Sid) (sentMs : Int) (wantHolder : Bool)
  | asking (sid : Sid)
  | pinging (sentMs : Int)
  | stopped
  deriving DecidableEq

/-- A process: its handle, its `LoopState` and where its loop is. -/
structure Replica where
  timing : LeaderTiming
  epoch : Nat
  validUntilMs : Int := cleared
  conn : Option Sid := none
  unfit : Option (UnfitLoop × Nat) := none
  holderAskedAt : Option Nat := none
  phase : Phase := .resting
  deriving DecidableEq

structure State (ι : Type) where
  now : Nat := 0
  idleDefaultMs : Option Nat
  lock : Option Sid := none
  sessions : Sid → Option (Session ι) := fun _ => none
  nextSid : Sid := 0
  replicas : ι → Option Replica := fun _ => none

inductive Event (ι : Type) where
  | passes (d : Nat)
  | start (i : ι) (timing : LeaderTiming)
  | iterate (i : ι) (probe : Option UnfitLoop)
  | connected (i : ι)
  | executes (sid : Sid)
  | receives (i : ι)
  | fails (i : ι)
  | ends (sid : Sid)
  | shutdown (i : ι)
  | exits (i : ι)

def holderReportInterval : Nat := fromSecs 60

namespace Replica

def leads (r : Replica) (now : Nat) : Bool := isLeader r.epoch now r.validUntilMs

def session (r : Replica) : Option Sid :=
  match r.phase with
  | .leasing sid _ | .locking sid _ _ | .asking sid => some sid
  | .resting | .connecting _ | .pinging _ | .stopped => r.conn

end Replica

namespace State

variable {ι : Type} [DecidableEq ι]

def setReplica (s : State ι) (i : ι) (r : Option Replica) : State ι :=
  { s with replicas := Function.update s.replicas i r }

def setSession (s : State ι) (sid : Sid) (se : Session ι) : State ι :=
  { s with sessions := Function.update s.sessions sid (some se) }

def drop (s : State ι) (sid : Option Sid) : State ι :=
  match sid with
  | none => s
  | some sid =>
    match s.sessions sid with
    | none => s
    | some se => s.setSession sid { se with closed := true }

def send (s : State ι) (sid : Sid) (query : Query) : State ι :=
  match s.sessions sid with
  | none => s
  | some se => s.setSession sid { se with query := some query, reply := none }

def iterate (s : State ι) (i : ι) (r : Replica) (probe : Option UnfitLoop) : State ι :=
  let r := { r with
    unfit := trackFitness (observeFitness probe r.timing.releaseAfter) s.now r.unfit }
  let unfitFor := r.unfit.map fun (_, since) => s.now - since
  let releaseAfter := r.timing.releaseAfter.getD durationMax
  match nextAction r.conn.isSome unfitFor releaseAfter with
  | .release =>
    (s.drop r.conn).setReplica i (some { r with validUntilMs := cleared, conn := none })
  | .ping =>
    match r.conn with
    | none => s.setReplica i (some r)
    | some sid =>
      (s.send sid .ping).setReplica i
        (some { r with phase := .pinging (monotonicMs r.epoch s.now) })
  | .stayFollower => s.setReplica i (some r)
  | .acquire =>
    let wantHolder := r.holderAskedAt.all fun at_ => decide (s.now - at_ ≥ holderReportInterval)
    s.setReplica i (some { r with
      holderAskedAt := if wantHolder then some s.now else r.holderAskedAt
      phase := .connecting wantHolder })

/-- The server executes a statement: the lock goes to one session at a time, and a session may
take it again. -/
def execute (s : State ι) (sid : Sid) (se : Session ι) (query : Query) : State ι :=
  let se := { se with query := none, lastStatement := s.now }
  match query with
  | .setLease ms =>
    match s.idleDefaultMs with
    | none => s.setSession sid { se with reply := some (.lease .unsupported) }
    | some _ =>
      s.setSession sid
        { se with idleTimeoutMs := some ms, reply := some (.lease .enforced) }
  | .lock =>
    if s.lock = none ∨ s.lock = some sid then
      { s with lock := some sid }.setSession sid { se with reply := some (.lock true) }
    else
      s.setSession sid { se with reply := some (.lock false) }
  | .lockHolder => s.setSession sid { se with reply := some .lockHolder }
  | .ping => s.setSession sid { se with reply := some .pong }

def receive (s : State ι) (i : ι) (r : Replica) : Phase → Option Reply → Option (State ι)
  | .leasing sid wantHolder, some (.lease _) =>
    some ((s.send sid .lock).setReplica i (some { r with
      phase := .locking sid (monotonicMs r.epoch s.now) wantHolder }))
  | .locking sid sentMs _, some (.lock true) =>
    some (s.setReplica i (some { r with
      validUntilMs := renewed sentMs r.timing.validity, conn := some sid, phase := .resting }))
  | .locking sid _ true, some (.lock false) =>
    some ((s.send sid .lockHolder).setReplica i (some { r with phase := .asking sid }))
  | .locking sid _ false, some (.lock false) =>
    some ((s.drop (some sid)).setReplica i (some { r with phase := .resting }))
  | .asking sid, some .lockHolder =>
    some ((s.drop (some sid)).setReplica i (some { r with phase := .resting }))
  | .pinging sentMs, some .pong =>
    some (s.setReplica i (some { r with
      validUntilMs := renewed sentMs r.timing.validity, phase := .resting }))
  | _, _ => none

/-- The loop goes on after an error or a timeout: the connection in use is dropped, and after a
ping the handle is cleared first. -/
def fail (s : State ι) (i : ι) (r : Replica) : Phase → Option (State ι)
  | .connecting _ => some (s.setReplica i (some { r with phase := .resting }))
  | .leasing sid _ | .locking sid _ _ | .asking sid =>
    some ((s.drop (some sid)).setReplica i (some { r with phase := .resting }))
  | .pinging _ =>
    some ((s.drop r.conn).setReplica i
      (some { r with validUntilMs := cleared, conn := none, phase := .resting }))
  | .resting | .stopped => none

def mayEnd (s : State ι) (se : Session ι) : Bool :=
  se.closed ||
    se.idleTimeoutMs.any fun ms => decide (0 < ms ∧ se.lastStatement + fromMillis ms ≤ s.now)

def step (s : State ι) : Event ι → Option (State ι)
  | .passes d => some { s with now := s.now + d }
  | .start i timing =>
    match s.replicas i, timing.check with
    | none, .ok () => some (s.setReplica i (some { timing, epoch := s.now }))
    | _, _ => none
  | .iterate i probe => do
      let r ← s.replicas i
      guard (r.phase = .resting)
      return s.iterate i r probe
  | .connected i => do
      let r ← s.replicas i
      match r.phase with
      | .connecting wantHolder =>
        return { s with nextSid := s.nextSid + 1 }.setSession s.nextSid
            { client := i, idleTimeoutMs := s.idleDefaultMs, lastStatement := s.now
              query := some (.setLease (asMillis r.timing.lease)) }
          |>.setReplica i (some { r with phase := .leasing s.nextSid wantHolder })
      | _ => none
  | .executes sid => do
      let se ← s.sessions sid
      guard (se.alive = true)
      let query ← se.query
      return s.execute sid se query
  | .receives i => do
      let r ← s.replicas i
      let sid ← r.session
      let se ← s.sessions sid
      s.receive i r r.phase se.reply
  | .fails i => do
      let r ← s.replicas i
      s.fail i r r.phase
  | .ends sid => do
      let se ← s.sessions sid
      guard (se.alive = true ∧ s.mayEnd se = true)
      return { s with lock := if s.lock = some sid then none else s.lock }.setSession sid
        { se with alive := false }
  | .shutdown i => do
      let r ← s.replicas i
      guard (r.phase = .resting)
      return (s.drop r.conn).setReplica i
        (some { r with validUntilMs := cleared, conn := none, phase := .stopped })
  | .exits i => do
      let r ← s.replicas i
      return (s.drop r.session).setReplica i none

end State

/-! ## What holds of a replica's session -/

variable {ι : Type}

def Own (s : State ι) (i : ι) (sid : Sid) (se : Session ι) : Prop :=
  s.sessions sid = some se ∧ se.client = i ∧ se.closed = false

def Leased (r : Replica) (se : Session ι) : Prop :=
  se.idleTimeoutMs = none ∨ se.idleTimeoutMs = some (asMillis r.timing.lease)

/-- The session took the lock, its handle was renewed no later than at its last statement, and
it has the lock for as long as it lives. -/
structure Holds (s : State ι) (r : Replica) (sid : Sid) (se : Session ι) : Prop where
  leased : Leased r se
  epoch_le : r.epoch ≤ se.lastStatement
  le_max : r.validUntilMs ≤ i64Max
  le_validity : r.validUntilMs ≤
    monotonicMs r.epoch se.lastStatement + asMillis r.timing.validity
  locked : se.alive = true → s.lock = some sid

def Follows (r : Replica) : Prop := r.conn = none ∧ r.validUntilMs = cleared

def Uses (s : State ι) (r : Replica) (sid : Sid) (se : Session ι) : Prop :=
  match r.phase with
  | .resting => se.query = none ∧ Holds s r sid se
  | .connecting _ | .stopped => False
  | .leasing _ _ =>
    Follows r ∧ (∀ q, se.query = some q → q = .setLease (asMillis r.timing.lease)) ∧
      (se.idleTimeoutMs = s.idleDefaultMs ∨ Leased r se) ∧
      ∀ status, se.reply = some (.lease status) → Leased r se
  | .locking _ sentMs _ =>
    Follows r ∧ Leased r se ∧ (∀ q, se.query = some q → q = .lock) ∧
      0 ≤ sentMs ∧ sentMs ≤ monotonicMs r.epoch s.now ∧
      ∀ acquired, se.reply = some (.lock acquired) → se.query = none ∧
        r.epoch ≤ se.lastStatement ∧ sentMs ≤ monotonicMs r.epoch se.lastStatement ∧
          (acquired = true → se.alive = true → s.lock = some sid)
  | .asking _ => Follows r
  | .pinging sentMs =>
    (∀ q, se.query = some q → q = .ping) ∧ Holds s r sid se ∧
      0 ≤ sentMs ∧ sentMs ≤ monotonicMs r.epoch s.now ∧
      (se.reply = some .pong → se.query = none ∧
        sentMs ≤ monotonicMs r.epoch se.lastStatement)

def Stands (s : State ι) (i : ι) (r : Replica) : Prop :=
  (r.session = none ∧ Follows r) ∨
    ∃ sid se, r.session = some sid ∧ Own s i sid se ∧ Uses s r sid se

variable {s : State ι} {i : ι} {r : Replica} {sid : Sid}

theorem Stands.uses (h : Stands s i r) (hsid : r.session = some sid) :
    ∃ se, Own s i sid se ∧ Uses s r sid se := by
  obtain ⟨hnone, -⟩ | ⟨sid', se, hsid', hown, huses⟩ := h
  · rw [hnone] at hsid
    cases hsid
  · obtain rfl : sid' = sid := Option.some.inj (hsid'.symm.trans hsid)
    exact ⟨se, hown, huses⟩

variable {se : Session ι}

theorem Stands.uses_at (h : Stands s i r) (hsid : r.session = some sid)
    (hse : s.sessions sid = some se) : Own s i sid se ∧ Uses s r sid se := by
  obtain ⟨se', hown, huses⟩ := h.uses hsid
  obtain rfl : se = se' := Option.some.inj (hse.symm.trans hown.1)
  exact ⟨hown, huses⟩

variable {t : State ι}

private theorem Holds.frame (h : Holds s r sid se)
    (hlock : se.alive = true → s.lock = some sid → t.lock = some sid) : Holds t r sid se :=
  { h with locked := fun halive => hlock halive (h.locked halive) }

private theorem Uses.frame (h : Uses s r sid se) (hnow : s.now ≤ t.now)
    (hdefault : t.idleDefaultMs = s.idleDefaultMs)
    (hlock : se.alive = true → s.lock = some sid → t.lock = some sid) : Uses t r sid se := by
  have hmono : monotonicMs r.epoch s.now ≤ monotonicMs r.epoch t.now :=
    monotonicMs_mono r.epoch hnow
  unfold Uses at h ⊢
  cases hphase : r.phase with
  | resting =>
    simp only [hphase] at h ⊢
    exact ⟨h.1, h.2.frame hlock⟩
  | connecting | stopped =>
    simp only [hphase] at h
  | asking =>
    simp only [hphase] at h ⊢
    exact h
  | leasing =>
    simp only [hphase, hdefault] at h ⊢
    exact h
  | locking =>
    simp only [hphase] at h ⊢
    obtain ⟨hf, hl, hq, h0, hsent, hreply⟩ := h
    refine ⟨hf, hl, hq, h0, by omega, fun acquired heq => ?_⟩
    obtain ⟨hq, he, hs, hgot⟩ := hreply acquired heq
    exact ⟨hq, he, hs, fun ha hal => hlock hal (hgot ha hal)⟩
  | pinging =>
    simp only [hphase] at h ⊢
    obtain ⟨hq, hh, h0, hsent, hreply⟩ := h
    exact ⟨hq, hh.frame hlock, h0, by omega, hreply⟩

theorem Stands.frame (h : Stands s i r) (hnow : s.now ≤ t.now)
    (hdefault : t.idleDefaultMs = s.idleDefaultMs)
    (hsession : ∀ sid se, r.session = some sid → s.sessions sid = some se →
      t.sessions sid = some se ∧ (se.alive = true → s.lock = some sid → t.lock = some sid)) :
    Stands t i r := by
  obtain hnone | ⟨sid, se, hsid, hown, huses⟩ := h
  · exact .inl hnone
  · obtain ⟨hse, hlock⟩ := hsession sid se hsid hown.1
    exact .inr ⟨sid, se, hsid, ⟨hse, hown.2⟩, huses.frame hnow hdefault hlock⟩

/-! ## The invariant -/

structure Timely (now : Nat) (se : Session ι) : Prop where
  past : se.lastStatement ≤ now
  ended : se.alive = false → se.closed = true ∨
    ∃ ms, se.idleTimeoutMs = some ms ∧ se.lastStatement + fromMillis ms ≤ now

structure Sound (s : State ι) : Prop where
  fresh : ∀ sid, s.nextSid ≤ sid → s.sessions sid = none
  timely : ∀ sid se, s.sessions sid = some se → Timely s.now se
  checked : ∀ i r, s.replicas i = some r → r.timing.check = .ok () ∧ r.epoch ≤ s.now
  stands : ∀ i r, s.replicas i = some r → Stands s i r

theorem Sound.ne_of_fresh (h : Sound s) {sid sid' : Sid} {se : Session ι}
    (hse : s.sessions sid = some se) (hle : s.nextSid ≤ sid') : sid' ≠ sid := by
  rintro rfl
  rw [h.fresh sid' hle] at hse
  cases hse

theorem Sound.locked (h : Sound s) (hr : s.replicas i = some r) (hleads : r.leads s.now = true) :
    ∃ sid se, Own s i sid se ∧ s.lock = some sid := by
  have hnot : r.validUntilMs ≠ cleared := by
    intro hclear
    rw [Replica.leads, hclear, isLeader_cleared] at hleads
    cases hleads
  have hvalid := LeaderTiming.validity_le_lease (h.checked i r hr).1
  have hlocked : ∀ sid se, Own s i sid se → Holds s r sid se → s.lock = some sid := by
    intro sid se hown hh
    cases halive : se.alive with
    | true => exact hh.locked halive
    | false =>
      obtain hclosed | ⟨ms, hms, hexpired⟩ := (h.timely sid se hown.1).ended halive
      · rw [hown.2.2] at hclosed
        cases hclosed
      · have hle : r.validUntilMs ≤
            monotonicMs r.epoch se.lastStatement + asMillis r.timing.lease := by
          have := hh.le_validity
          omega
        have hbefore := isLeader_before hh.le_max hle hh.epoch_le hleads
        obtain hnone | hsome := hh.leased
        · rw [hms] at hnone
          cases hnone
        · obtain rfl : ms = asMillis r.timing.lease := Option.some.inj (hms.symm.trans hsome)
          omega
  obtain ⟨-, -, hclear⟩ | ⟨sid, se, -, hown, huses⟩ := h.stands i r hr
  · exact absurd hclear hnot
  refine ⟨sid, se, hown, ?_⟩
  unfold Uses at huses
  cases hphase : r.phase with
  | resting =>
    simp only [hphase] at huses
    exact hlocked sid se hown huses.2
  | connecting | stopped =>
    simp only [hphase] at huses
  | leasing | locking =>
    simp only [hphase] at huses
    exact absurd huses.1.2 hnot
  | asking =>
    simp only [hphase] at huses
    exact absurd huses.2 hnot
  | pinging =>
    simp only [hphase] at huses
    exact hlocked sid se hown huses.2.1

theorem Sound.unique (h : Sound s) {j : ι} {r' : Replica} (hr : s.replicas i = some r)
    (hr' : s.replicas j = some r') (hleads : r.leads s.now = true)
    (hleads' : r'.leads s.now = true) : i = j := by
  obtain ⟨sid, se, hown, hlock⟩ := h.locked hr hleads
  obtain ⟨sid', se', hown', hlock'⟩ := h.locked hr' hleads'
  obtain rfl : sid = sid' := Option.some.inj (hlock.symm.trans hlock')
  obtain rfl : se = se' := Option.some.inj (hown.1.symm.trans hown'.1)
  rw [← hown.2.1, ← hown'.2.1]

/-! ## Every event keeps the invariant -/

theorem Sound.initial (idleDefaultMs : Option Nat) :
    Sound ({ idleDefaultMs } : State ι) := by
  refine ⟨fun _ _ => rfl, ?_, ?_, ?_⟩
  · intro sid se hse
    cases hse
  · intro i r hr
    cases hr
  · intro i r hr
    cases hr

theorem Sound.apart (h : Sound s) {j : ι} {r' : Replica} (hr : s.replicas i = some r)
    (hr' : s.replicas j = some r') (hsid : r.session = some sid) (hsid' : r'.session = some sid) :
    i = j := by
  obtain ⟨se, hown, -⟩ := (h.stands i r hr).uses hsid
  obtain ⟨se', hown', -⟩ := (h.stands j r' hr').uses hsid'
  obtain rfl : se = se' := Option.some.inj (hown.1.symm.trans hown'.1)
  rw [← hown.2.1, ← hown'.2.1]

private theorem Stands.resting (hphase : r.phase = .resting) (hf : Follows r) : Stands s i r :=
  .inl ⟨by simp only [Replica.session, hphase, hf.1], hf⟩

private theorem Holds.renewed {r' : Replica} {sentMs : Int} (htiming : r'.timing = r.timing)
    (hepoch' : r'.epoch = r.epoch)
    (hvalid : r'.validUntilMs = Leader.renewed sentMs r.timing.validity) (h0 : 0 ≤ sentMs)
    (hleased : Leased r se) (hepoch : r.epoch ≤ se.lastStatement)
    (hsent : sentMs ≤ monotonicMs r.epoch se.lastStatement)
    (hlock : se.alive = true → s.lock = some sid) : Holds s r' sid se := by
  obtain ⟨hmax, hle⟩ := renewed_le r.timing.validity h0
  rw [← hvalid] at hmax hle
  exact { leased := by rw [Leased, htiming]; exact hleased
          epoch_le := by rw [hepoch']; exact hepoch
          le_max := hmax
          le_validity := by rw [htiming, hepoch']; omega
          locked := hlock }

theorem Sound.served (h : Sound s) {se' : Session ι} {lock : Option Sid}
    (hse : s.sessions sid = some se) (hclient : se'.client = se.client)
    (hclosed : se'.closed = se.closed) (htimely : Timely s.now se')
    (hother : ∀ sid', sid' ≠ sid → s.lock = some sid' → lock = some sid')
    (hself : ∀ r, r.epoch ≤ s.now → Uses s r sid se → Uses { s with lock } r sid se') :
    Sound ({ s with lock }.setSession sid se') where
  fresh := by
    intro sid' hle
    simpa [State.setSession, h.ne_of_fresh hse hle] using h.fresh sid' hle
  timely := by
    intro sid' se'' hse''
    by_cases heq : sid' = sid
    · subst heq
      obtain rfl : se' = se'' := by simpa [State.setSession] using hse''
      exact htimely
    · exact h.timely sid' se'' (by simpa [State.setSession, heq] using hse'')
  checked := h.checked
  stands := by
    intro i r hr
    by_cases hsid : r.session = some sid
    · obtain ⟨hown, huses⟩ := (h.stands i r hr).uses_at hsid hse
      refine .inr ⟨sid, se', hsid,
        ⟨by simp [State.setSession], hclient.trans hown.2.1, hclosed.trans hown.2.2⟩, ?_⟩
      exact (hself r (h.checked i r hr).2 huses).frame (le_refl _) rfl fun _ hlock => hlock
    · refine (h.stands i r hr).frame (le_refl _) rfl ?_
      intro sid' se'' hsid' hse''
      have hne : sid' ≠ sid := by
        rintro rfl
        exact hsid hsid'
      exact ⟨by simpa [State.setSession, hne] using hse'', fun _ => hother sid' hne⟩

theorem Sound.ends (h : Sound s) (hse : s.sessions sid = some se) (hmay : s.mayEnd se = true) :
    Sound ({ s with lock := if s.lock = some sid then none else s.lock }.setSession sid
      { se with alive := false }) := by
  refine h.served hse rfl rfl ?_ ?_ ?_
  · refine ⟨(h.timely sid se hse).past, fun _ => ?_⟩
    simp only [State.mayEnd, Bool.or_eq_true, Option.any_eq_true, decide_eq_true_eq] at hmay
    obtain hclosed | ⟨ms, hms, -, hle⟩ := hmay
    · exact .inl hclosed
    · exact .inr ⟨ms, hms, hle⟩
  · intro sid' hne hlock
    have hne' : ¬ s.lock = some sid := by
      rw [hlock]
      simpa using hne
    rw [if_neg hne']
    exact hlock
  · intro r _ huses
    unfold Uses at huses ⊢
    cases hphase : r.phase with
    | resting =>
      simp only [hphase] at huses ⊢
      obtain ⟨hq, hh⟩ := huses
      exact ⟨hq, { leased := hh.leased, epoch_le := hh.epoch_le, le_max := hh.le_max,
                   le_validity := hh.le_validity, locked := by simp }⟩
    | connecting | stopped =>
      simp only [hphase] at huses
    | leasing | asking =>
      simp only [hphase] at huses ⊢
      exact huses
    | locking =>
      simp only [hphase] at huses ⊢
      obtain ⟨hf, hl, hq, h0, hsent, hreply⟩ := huses
      refine ⟨hf, hl, hq, h0, hsent, fun acquired heq => ?_⟩
      obtain ⟨hq, he, hs, -⟩ := hreply acquired heq
      exact ⟨hq, he, hs, by simp⟩
    | pinging =>
      simp only [hphase] at huses ⊢
      obtain ⟨hq, hh, hrest⟩ := huses
      exact ⟨hq, { leased := hh.leased, epoch_le := hh.epoch_le, le_max := hh.le_max,
                   le_validity := hh.le_validity, locked := by simp }, hrest⟩

private theorem Holds.pinged {se' : Session ι} (hh : Holds s r sid se)
    (hidle : se'.idleTimeoutMs = se.idleTimeoutMs) (halive : se'.alive = se.alive)
    (hle : se.lastStatement ≤ se'.lastStatement) :
    Holds s r sid se' where
  leased := by
    rw [Leased, hidle]
    exact hh.leased
  epoch_le := le_trans hh.epoch_le hle
  le_max := hh.le_max
  le_validity := by
    have hmono := monotonicMs_mono r.epoch hle
    have := hh.le_validity
    omega
  locked := by
    rw [halive]
    exact hh.locked

private theorem Uses.execute {query : Query} (huses : Uses s r sid se)
    (hpast : se.lastStatement ≤ s.now) (hepoch : r.epoch ≤ s.now)
    (hquery : se.query = some query) :
    ∀ se', (s.execute sid se query).sessions sid = some se' →
      Uses (s.execute sid se query) r sid se' := by
  intro se' hse'
  unfold Uses at huses ⊢
  cases hphase : r.phase with
  | resting =>
    simp only [hphase] at huses
    rw [hquery] at huses
    cases huses.1
  | connecting | stopped =>
    simp only [hphase] at huses
  | leasing =>
    simp only [hphase] at huses ⊢
    obtain ⟨hf, hq, hidle, -⟩ := huses
    obtain rfl := hq query hquery
    simp only [State.execute] at hse' ⊢
    split at hse'
    case h_1 hdefault =>
      obtain rfl : _ = se' := by simpa [State.setSession] using hse'
      have hleased : Leased r se := by
        obtain hidle | hidle := hidle
        · exact .inl (hidle.trans hdefault)
        · exact hidle
      exact ⟨hf, by simp, .inr hleased, fun _ _ => hleased⟩
    case h_2 hdefault =>
      obtain rfl : _ = se' := by simpa [State.setSession] using hse'
      exact ⟨hf, by simp, .inr (.inr rfl), fun _ _ => .inr rfl⟩
  | locking sid' sentMs =>
    simp only [hphase] at huses ⊢
    obtain ⟨hf, hl, hq, h0, hsent, -⟩ := huses
    obtain rfl := hq query hquery
    simp only [State.execute] at hse' ⊢
    split at hse'
    case isTrue hfree =>
      obtain rfl : _ = se' := by simpa [State.setSession] using hse'
      rw [if_pos hfree]
      exact ⟨hf, hl, by simp, h0, hsent, fun _ _ => ⟨rfl, hepoch, hsent, fun _ _ => rfl⟩⟩
    case isFalse htaken =>
      obtain rfl : _ = se' := by simpa [State.setSession] using hse'
      rw [if_neg htaken]
      refine ⟨hf, hl, by simp, h0, hsent, fun acquired heq => ⟨rfl, hepoch, hsent, ?_⟩⟩
      intro hacquired
      simp [hacquired] at heq
  | asking =>
    simp only [hphase] at huses ⊢
    exact huses
  | pinging sentMs =>
    simp only [hphase] at huses ⊢
    obtain ⟨hq, hh, h0, hsent, -⟩ := huses
    obtain rfl := hq query hquery
    simp only [State.execute] at hse' ⊢
    obtain rfl : _ = se' := by simpa [State.setSession] using hse'
    have hh' : Holds s r sid
        { se with query := none, lastStatement := s.now, reply := some .pong } :=
      hh.pinged rfl rfl hpast
    exact ⟨by simp, hh'.frame fun _ hlock => hlock, h0, hsent, fun _ => ⟨rfl, hsent⟩⟩

private theorem State.execute_cases (s : State ι) (sid : Sid) (se : Session ι) (query : Query) :
    ∃ se' lock, s.execute sid se query = { s with lock }.setSession sid se' ∧
      se'.client = se.client ∧ se'.closed = se.closed ∧ se'.alive = se.alive ∧
      se'.lastStatement = s.now ∧
      ∀ sid', sid' ≠ sid → s.lock = some sid' → lock = some sid' := by
  cases query with
  | setLease ms =>
    cases hdefault : s.idleDefaultMs with
    | none =>
      refine ⟨{ se with query := none, lastStatement := s.now,
                        reply := some (.lease .unsupported) }, s.lock, ?_, rfl, rfl, rfl, rfl,
        fun _ _ hlock => hlock⟩
      simp only [State.execute, hdefault, State.setSession]
    | some d =>
      refine ⟨{ se with query := none, lastStatement := s.now, idleTimeoutMs := some ms,
                        reply := some (.lease .enforced) }, s.lock, ?_, rfl, rfl, rfl, rfl,
        fun _ _ hlock => hlock⟩
      simp only [State.execute, hdefault, State.setSession]
  | lock =>
    by_cases hfree : s.lock = none ∨ s.lock = some sid
    · refine ⟨{ se with query := none, lastStatement := s.now, reply := some (.lock true) },
        some sid, by simp only [State.execute, if_pos hfree], rfl, rfl, rfl, rfl, ?_⟩
      intro sid' hne hlock
      obtain hfree | hfree := hfree
      · rw [hlock] at hfree
        cases hfree
      · exact absurd (Option.some.inj (hlock.symm.trans hfree)) hne
    · exact ⟨{ se with query := none, lastStatement := s.now, reply := some (.lock false) },
        s.lock, by simp only [State.execute, if_neg hfree], rfl, rfl, rfl, rfl,
        fun _ _ hlock => hlock⟩
  | lockHolder | ping => exact ⟨_, s.lock, rfl, rfl, rfl, rfl, rfl, fun _ _ hlock => hlock⟩

theorem Sound.execute (h : Sound s) {query : Query} (hse : s.sessions sid = some se)
    (halive : se.alive = true) (hquery : se.query = some query) :
    Sound (s.execute sid se query) := by
  obtain ⟨se', lock, heq, hclient, hclosed, halive', hlast, hother⟩ :=
    s.execute_cases sid se query
  have hself : ∀ r, r.epoch ≤ s.now → Uses s r sid se → Uses { s with lock } r sid se' := by
    intro r hepoch huses
    have hexec := huses.execute (h.timely sid se hse).past hepoch hquery se'
      (by simp [heq, State.setSession])
    rw [heq] at hexec
    exact hexec.frame (le_refl _) rfl fun _ hlock => hlock
  rw [heq]
  refine h.served hse hclient hclosed ⟨hlast.le, fun hdead => ?_⟩ hother hself
  rw [halive', halive] at hdead
  cases hdead

variable [DecidableEq ι]

theorem Stands.setReplica (h : Stands s i r) (j : ι) (x : Option Replica) :
    Stands (s.setReplica j x) i r :=
  h.frame (le_refl _) rfl fun _ _ _ hse => ⟨hse, fun _ hlock => hlock⟩

theorem Sound.setReplica (h : Sound s) (i : ι) (x : Option Replica)
    (hx : ∀ r, x = some r → r.timing.check = .ok () ∧ r.epoch ≤ s.now ∧ Stands s i r) :
    Sound (s.setReplica i x) where
  fresh := h.fresh
  timely := h.timely
  checked := by
    intro j r hr
    by_cases hij : j = i
    · subst hij
      obtain ⟨hcheck, hepoch, -⟩ := hx r (by simpa [State.setReplica] using hr)
      exact ⟨hcheck, hepoch⟩
    · exact h.checked j r (by simpa [State.setReplica, hij] using hr)
  stands := by
    intro j r hr
    by_cases hij : j = i
    · subst hij
      exact (hx r (by simpa [State.setReplica] using hr)).2.2.setReplica j x
    · exact (h.stands j r (by simpa [State.setReplica, hij] using hr)).setReplica i x

theorem Sound.touch (h : Sound s) {se' : Session ι} (hr : s.replicas i = some r)
    (hsid : r.session = some sid) (hse : s.sessions sid = some se)
    (halive : se'.alive = se.alive) (hidle : se'.idleTimeoutMs = se.idleTimeoutMs)
    (hlast : se'.lastStatement = se.lastStatement)
    (hclosed : se.closed = true → se'.closed = true) (x : Option Replica)
    (hx : ∀ r', x = some r' → r'.timing = r.timing ∧ r'.epoch = r.epoch ∧
      Stands (s.setSession sid se') i r') :
    Sound ((s.setSession sid se').setReplica i x) where
  fresh := by
    intro sid' hle
    simpa [State.setReplica, State.setSession, h.ne_of_fresh hse hle] using h.fresh sid' hle
  timely := by
    intro sid' se'' hse''
    by_cases heq : sid' = sid
    · subst heq
      obtain rfl : se' = se'' := by
        simpa [State.setReplica, State.setSession] using hse''
      obtain ⟨hpast, hended⟩ := h.timely sid' se hse
      refine ⟨hlast ▸ hpast, fun hdead => ?_⟩
      rw [hidle, hlast]
      exact (hended (halive ▸ hdead)).imp_left hclosed
    · exact h.timely sid' se'' (by simpa [State.setReplica, State.setSession, heq] using hse'')
  checked := by
    intro j r' hr'
    by_cases hij : j = i
    · subst hij
      obtain ⟨htiming, hepoch, -⟩ := hx r' (by simpa [State.setReplica] using hr')
      rw [htiming, hepoch]
      exact h.checked j r hr
    · exact h.checked j r' (by simpa [State.setReplica, State.setSession, hij] using hr')
  stands := by
    intro j r' hr'
    by_cases hij : j = i
    · subst hij
      exact (hx r' (by simpa [State.setReplica] using hr')).2.2.setReplica j x
    · have hr'' : s.replicas j = some r' := by
        simpa [State.setReplica, State.setSession, hij] using hr'
      refine (h.stands j r' hr'').frame (le_refl _) rfl ?_
      intro sid' se'' hsid' hse''
      have hne : sid' ≠ sid := by
        rintro rfl
        exact hij (h.apart hr hr'' hsid hsid').symm
      exact ⟨by simpa [State.setReplica, State.setSession, hne] using hse'', fun _ hlock => hlock⟩

theorem Sound.dropped (h : Sound s) (hr : s.replicas i = some r) (x : Option Replica)
    (hx : ∀ r', x = some r' → r'.timing = r.timing ∧ r'.epoch = r.epoch ∧
      ∀ t : State ι, Stands t i r') : Sound ((s.drop r.session).setReplica i x) := by
  cases hsid : r.session with
  | none =>
    refine h.setReplica i x fun r' hx' => ?_
    obtain ⟨htiming, hepoch, hstands⟩ := hx r' hx'
    obtain ⟨hcheck, hle⟩ := h.checked i r hr
    exact ⟨htiming ▸ hcheck, hepoch ▸ hle, hstands s⟩
  | some sid =>
    obtain ⟨se, hown, -⟩ := (h.stands i r hr).uses hsid
    simp only [State.drop, hown.1]
    refine h.touch hr hsid hown.1 (by rfl) (by rfl) (by rfl) (by simp) x fun r' hx' => ?_
    obtain ⟨htiming, hepoch, hstands⟩ := hx r' hx'
    exact ⟨htiming, hepoch, hstands _⟩

theorem Sound.rests (h : Sound s) {r' : Replica} (hr : s.replicas i = some r)
    (htiming : r'.timing = r.timing) (hepoch : r'.epoch = r.epoch) (hphase : r'.phase = .resting)
    (hf : Follows r') : Sound ((s.drop r.session).setReplica i (some r')) := by
  refine h.dropped hr _ fun r'' hr'' => ?_
  cases hr''
  exact ⟨htiming, hepoch, fun t => .resting hphase hf⟩

theorem Sound.sent (h : Sound s) {r' : Replica} (hr : s.replicas i = some r)
    (hsid : r.session = some sid) (query : Query) (htiming : r'.timing = r.timing)
    (hepoch : r'.epoch = r.epoch) (hsid' : r'.session = some sid)
    (hx : ∀ se, s.sessions sid = some se → Uses s r sid se →
      Uses s r' sid { se with query := some query, reply := none }) :
    Sound ((s.send sid query).setReplica i (some r')) := by
  obtain ⟨se, hown, huses⟩ := (h.stands i r hr).uses hsid
  simp only [State.send, hown.1]
  refine h.touch hr hsid hown.1 (by rfl) (by rfl) (by rfl) (by simp) (some r') fun r'' hr'' => ?_
  obtain rfl : r' = r'' := Option.some.inj hr''
  refine ⟨htiming, hepoch, .inr ⟨sid, { se with query := some query, reply := none }, hsid',
    ⟨by simp [State.setSession], hown.2⟩, ?_⟩⟩
  exact (hx se hown.1 huses).frame (le_refl _) rfl fun _ hlock => hlock

theorem Sound.iterate (h : Sound s) (hr : s.replicas i = some r) (hphase : r.phase = .resting)
    (probe : Option UnfitLoop) : Sound (s.iterate i r probe) := by
  obtain ⟨hcheck, hepoch⟩ := h.checked i r hr
  have hsession : r.session = r.conn := by simp only [Replica.session, hphase]
  have hstands := h.stands i r hr
  unfold State.iterate
  simp only
  split
  case h_1 =>
    rw [← hsession]
    exact h.rests hr rfl rfl hphase ⟨rfl, rfl⟩
  case h_2 =>
    split
    case h_1 hconn =>
      refine h.setReplica i _ fun r' hr' => ?_
      cases hr'
      obtain ⟨-, hf⟩ | ⟨sid, se, hsid, -⟩ := hstands
      · exact ⟨hcheck, hepoch, .resting hphase hf⟩
      · rw [hsession, hconn] at hsid
        cases hsid
    case h_2 sid hconn =>
      refine h.sent hr (hsession.trans hconn) .ping rfl rfl (by simpa [Replica.session]) ?_
      intro se hse huses
      simp only [Uses, hphase] at huses ⊢
      obtain ⟨-, hh⟩ := huses
      refine ⟨by simp, ?_, monotonicMs_nonneg _ _, le_refl _, by simp⟩
      exact { leased := hh.leased, epoch_le := hh.epoch_le, le_max := hh.le_max,
              le_validity := hh.le_validity, locked := hh.locked }
  case h_3 =>
    refine h.setReplica i _ fun r' hr' => ?_
    cases hr'
    refine ⟨hcheck, hepoch, ?_⟩
    obtain ⟨-, hf⟩ | ⟨sid, se, hsid, hown, huses⟩ := hstands
    · exact .resting hphase hf
    · refine .inr ⟨sid, se, by simpa [Replica.session] using hsid, hown, ?_⟩
      simp only [Uses, hphase] at huses ⊢
      obtain ⟨hq, hh⟩ := huses
      exact ⟨hq, { leased := hh.leased, epoch_le := hh.epoch_le, le_max := hh.le_max,
                   le_validity := hh.le_validity, locked := hh.locked }⟩
  case h_4 hnext =>
    refine h.setReplica i _ fun r' hr' => ?_
    cases hr'
    refine ⟨hcheck, hepoch, ?_⟩
    obtain ⟨-, hf⟩ | ⟨sid, se, hsid, -⟩ := hstands
    · exact .inl ⟨by simp only [Replica.session, hf.1], hf⟩
    · rw [show r.conn = some sid from hsession.symm.trans hsid] at hnext
      exact absurd hnext (nextAction_holding _ _)

theorem Sound.receive (h : Sound s) (hr : s.replicas i = some r) (hsid : r.session = some sid)
    (hse : s.sessions sid = some se) (hstep : s.receive i r r.phase se.reply = some t) :
    Sound t := by
  obtain ⟨hcheck, hepoch⟩ := h.checked i r hr
  obtain ⟨hown, huses⟩ := (h.stands i r hr).uses_at hsid hse
  unfold State.receive at hstep
  unfold Uses at huses
  split at hstep
  case h_1 sid' wantHolder status hphase hreply =>
    simp only [hphase] at huses
    obtain rfl : sid' = sid := by simpa [Replica.session, hphase] using hsid
    obtain ⟨hf, -, -, hleased⟩ := huses
    cases hstep
    refine h.sent hr hsid .lock rfl rfl (by simp [Replica.session]) ?_
    intro se' hse' _
    obtain rfl : se = se' := Option.some.inj (hse.symm.trans hse')
    exact ⟨hf, hleased status hreply, by simp, monotonicMs_nonneg _ _, le_refl _, by simp⟩
  case h_2 sid' sentMs wantHolder hphase hreply =>
    simp only [hphase] at huses
    obtain rfl : sid' = sid := by simpa [Replica.session, hphase] using hsid
    obtain ⟨hf, hleased, -, h0, -, hanswer⟩ := huses
    obtain ⟨hq, hle, hsent, hlock⟩ := hanswer true hreply
    cases hstep
    refine h.setReplica i _ fun r' hr' => ?_
    cases hr'
    refine ⟨hcheck, hepoch, .inr ⟨sid', se, by simp [Replica.session], hown, ?_⟩⟩
    exact ⟨hq, .renewed rfl rfl rfl h0 hleased hle hsent (hlock rfl)⟩
  case h_3 sid' sentMs hphase hreply =>
    simp only [hphase] at huses
    obtain rfl : sid' = sid := by simpa [Replica.session, hphase] using hsid
    cases hstep
    exact h.sent hr hsid .lockHolder rfl rfl (by simp [Replica.session]) fun _ _ _ => huses.1
  case h_4 sid' sentMs hphase hreply =>
    simp only [hphase] at huses
    obtain rfl : sid' = sid := by simpa [Replica.session, hphase] using hsid
    cases hstep
    rw [← hsid]
    exact h.rests hr rfl rfl rfl huses.1
  case h_5 sid' hphase hreply =>
    simp only [hphase] at huses
    obtain rfl : sid' = sid := by simpa [Replica.session, hphase] using hsid
    cases hstep
    rw [← hsid]
    exact h.rests hr rfl rfl rfl huses
  case h_6 sentMs hphase hreply =>
    simp only [hphase] at huses
    obtain ⟨-, hh, h0, -, hanswer⟩ := huses
    obtain ⟨hq, hsent⟩ := hanswer hreply
    cases hstep
    refine h.setReplica i _ fun r' hr' => ?_
    cases hr'
    have hconn : r.conn = some sid := by simpa [Replica.session, hphase] using hsid
    refine ⟨hcheck, hepoch, .inr ⟨sid, se, by simpa [Replica.session] using hconn, hown, ?_⟩⟩
    exact ⟨hq, .renewed rfl rfl rfl h0 hh.leased hh.epoch_le hsent hh.locked⟩
  case h_7 => cases hstep

theorem Sound.fail (h : Sound s) (hr : s.replicas i = some r)
    (hstep : s.fail i r r.phase = some t) : Sound t := by
  obtain ⟨hcheck, hepoch⟩ := h.checked i r hr
  have hstands := h.stands i r hr
  have hfollows : ∀ sid, r.session = some sid → (∀ se, Uses s r sid se → Follows r) →
      Follows r := by
    intro sid hsid hf
    obtain ⟨se, -, huses⟩ := hstands.uses hsid
    exact hf se huses
  unfold State.fail at hstep
  cases hphase : r.phase with
  | connecting =>
    simp only [hphase] at hstep
    cases hstep
    refine h.setReplica i _ fun r' hr' => ?_
    cases hr'
    obtain ⟨-, hf⟩ | ⟨sid, se, -, -, huses⟩ := hstands
    · exact ⟨hcheck, hepoch, .resting rfl hf⟩
    · simp only [Uses, hphase] at huses
  | leasing sid | locking sid =>
    have hsid : r.session = some sid := by simp only [Replica.session, hphase]
    simp only [hphase] at hstep
    cases hstep
    rw [← hsid]
    refine h.rests hr rfl rfl rfl (hfollows sid hsid fun se huses => ?_)
    simp only [Uses, hphase] at huses
    exact huses.1
  | asking sid =>
    have hsid : r.session = some sid := by simp only [Replica.session, hphase]
    simp only [hphase] at hstep
    cases hstep
    rw [← hsid]
    refine h.rests hr rfl rfl rfl (hfollows sid hsid fun se huses => ?_)
    simpa only [Uses, hphase] using huses
  | pinging =>
    have hsid : r.session = r.conn := by simp only [Replica.session, hphase]
    simp only [hphase] at hstep
    cases hstep
    rw [← hsid]
    exact h.rests hr rfl rfl rfl ⟨rfl, rfl⟩
  | resting | stopped =>
    simp only [hphase] at hstep
    cases hstep

theorem Sound.connected (h : Sound s) {wantHolder : Bool} (hr : s.replicas i = some r)
    (hphase : r.phase = .connecting wantHolder) :
    Sound (({ s with nextSid := s.nextSid + 1 }.setSession s.nextSid
        { client := i, idleTimeoutMs := s.idleDefaultMs, lastStatement := s.now
          query := some (.setLease (asMillis r.timing.lease)) }).setReplica i
      (some { r with phase := .leasing s.nextSid wantHolder })) := by
  set se : Session ι := { client := i, idleTimeoutMs := s.idleDefaultMs, lastStatement := s.now
                          query := some (.setLease (asMillis r.timing.lease)) } with hse
  have hopened : Sound ({ s with nextSid := s.nextSid + 1 }.setSession s.nextSid se) := by
    refine ⟨?_, ?_, h.checked, ?_⟩
    · intro sid hle
      have hlt : s.nextSid < sid := hle
      simpa [State.setSession, hlt.ne'] using h.fresh sid hlt.le
    · intro sid se' hse'
      by_cases heq : sid = s.nextSid
      · subst heq
        obtain rfl : se = se' := by simpa [State.setSession] using hse'
        exact ⟨le_refl _, by simp [hse]⟩
      · exact h.timely sid se' (by simpa [State.setSession, heq] using hse')
    · intro j r' hr'
      refine (h.stands j r' hr').frame (le_refl _) rfl fun sid se' hsid hse' => ?_
      have hne : sid ≠ s.nextSid := by
        rintro rfl
        rw [h.fresh _ (le_refl _)] at hse'
        cases hse'
      exact ⟨by simpa [State.setSession, hne] using hse', fun _ hlock => hlock⟩
  obtain ⟨hcheck, hepoch⟩ := h.checked i r hr
  refine hopened.setReplica i _ fun r' hr' => ?_
  cases hr'
  refine ⟨hcheck, hepoch, .inr ⟨s.nextSid, se, by simp [Replica.session],
    ⟨by simp [State.setSession], rfl, rfl⟩, ?_⟩⟩
  have hfollows : Follows r := by
    obtain ⟨-, hf⟩ | ⟨sid, se', -, -, huses⟩ := h.stands i r hr
    · exact hf
    · simp only [Uses, hphase] at huses
  exact ⟨hfollows, by simp [hse], .inl rfl, by simp [hse]⟩

theorem Sound.step (h : Sound s) {e : Event ι} (hstep : s.step e = some t) : Sound t := by
  cases e with
  | passes d =>
    cases hstep
    refine ⟨h.fresh, ?_, ?_, ?_⟩
    · intro sid se hse
      obtain ⟨hpast, hended⟩ := h.timely sid se hse
      refine ⟨le_trans hpast (Nat.le_add_right _ _), fun hdead => ?_⟩
      obtain hclosed | ⟨ms, hms, hle⟩ := hended hdead
      · exact .inl hclosed
      · exact .inr ⟨ms, hms, le_trans hle (Nat.le_add_right _ _)⟩
    · intro i r hr
      obtain ⟨hcheck, hepoch⟩ := h.checked i r hr
      exact ⟨hcheck, le_trans hepoch (Nat.le_add_right _ _)⟩
    · intro i r hr
      exact (h.stands i r hr).frame (Nat.le_add_right _ _) rfl
        fun _ _ _ hse => ⟨hse, fun _ hlock => hlock⟩
  | start i timing =>
    simp only [State.step] at hstep
    split at hstep
    case h_1 hnone hcheck =>
      cases hstep
      refine h.setReplica i _ fun r hr => ?_
      cases hr
      exact ⟨hcheck, le_refl _, .resting rfl ⟨rfl, rfl⟩⟩
    case h_2 => cases hstep
  | iterate i probe =>
    simp only [State.step, Option.bind_eq_bind, Option.bind_eq_some_iff, Option.guard_eq_some']
      at hstep
    obtain ⟨r, hr, _, hphase, hstep⟩ := hstep
    cases hstep
    exact h.iterate hr hphase probe
  | connected i =>
    simp only [State.step, Option.bind_eq_bind, Option.bind_eq_some_iff] at hstep
    obtain ⟨r, hr, hstep⟩ := hstep
    split at hstep
    case h_1 wantHolder hphase =>
      cases hstep
      exact h.connected hr hphase
    case h_2 => cases hstep
  | executes sid =>
    simp only [State.step, Option.bind_eq_bind, Option.bind_eq_some_iff, Option.guard_eq_some']
      at hstep
    obtain ⟨se, hse, _, halive, query, hquery, hstep⟩ := hstep
    cases hstep
    exact h.execute hse halive hquery
  | receives i =>
    simp only [State.step, Option.bind_eq_bind, Option.bind_eq_some_iff] at hstep
    obtain ⟨r, hr, sid, hsid, se, hse, hstep⟩ := hstep
    exact h.receive hr hsid hse hstep
  | fails i =>
    simp only [State.step, Option.bind_eq_bind, Option.bind_eq_some_iff] at hstep
    obtain ⟨r, hr, hstep⟩ := hstep
    exact h.fail hr hstep
  | ends sid =>
    simp only [State.step, Option.bind_eq_bind, Option.bind_eq_some_iff, Option.guard_eq_some']
      at hstep
    obtain ⟨se, hse, _, ⟨-, hmay⟩, hstep⟩ := hstep
    cases hstep
    exact h.ends hse hmay
  | shutdown i =>
    simp only [State.step, Option.bind_eq_bind, Option.bind_eq_some_iff, Option.guard_eq_some']
      at hstep
    obtain ⟨r, hr, _, hphase, hstep⟩ := hstep
    cases hstep
    have hsession : r.session = r.conn := by simp only [Replica.session, hphase]
    rw [← hsession]
    refine h.dropped hr _ fun r' hr' => ?_
    cases hr'
    exact ⟨rfl, rfl, fun t => .inl ⟨rfl, rfl, rfl⟩⟩
  | exits i =>
    simp only [State.step, Option.bind_eq_bind, Option.bind_eq_some_iff] at hstep
    obtain ⟨r, hr, hstep⟩ := hstep
    cases hstep
    exact h.dropped hr none (by simp)

/-- Mutual exclusion: at no point of any run do two replicas lead; and every lease of at least
two milliseconds gives a timing that a replica can be started with. -/
theorem at_most_one_leader :
    (∀ (ι : Type) [DecidableEq ι] (idleDefaultMs : Option Nat) (events : List (Event ι))
      (s : State ι), exec State.step { idleDefaultMs } events = some s →
      ∀ i j r r', s.replicas i = some r → s.replicas j = some r' →
        r.leads s.now = true → r'.leads s.now = true → i = j) ∧
      ∀ lease releaseAfter, fromMillis 2 ≤ lease →
        (LeaderTiming.fromLease lease releaseAfter).check = .ok () := by
  refine ⟨?_, fun lease releaseAfter h => LeaderTiming.fromLease_check releaseAfter h⟩
  intro ι _ idleDefaultMs events s hrun i j r r' hr hr' hleads hleads'
  have hsound : Sound s :=
    exec_invariant Sound (fun _ _ _ h (_ : True) hstep => h.step hstep)
      (Sound.initial idleDefaultMs) (.of_forall (fun _ _ => trivial) _ _) hrun
  exact hsound.unique hr hr' hleads hleads'

def handover : List (Event Nat) :=
  [.start 0 (.fromLease (fromSecs 30) none), .start 1 (.fromLease (fromSecs 30) none),
   .iterate 0 none, .connected 0, .executes 0, .receives 0, .executes 0, .receives 0,
   .passes (fromSecs 30), .ends 0,
   .iterate 1 none, .connected 1, .executes 1, .receives 1, .executes 1, .receives 1]

theorem at_most_one_leader_handover :
    ∃ s r r', exec State.step { idleDefaultMs := some 0 } handover = some s ∧
      s.replicas 0 = some r ∧ s.replicas 1 = some r' ∧ r.conn = some 0 ∧
      r'.leads s.now = true ∧ (r.leads s.now = true → (0 : Nat) = 1) ∧
      (LeaderTiming.fromLease (fromMillis 2) none).check = .ok () := by
  refine ⟨_, _, _, rfl, rfl, rfl, rfl, by decide, fun h => ?_, ?_⟩
  · exact at_most_one_leader.1 Nat (some 0) handover _ rfl 0 1 _ _ rfl rfl h (by decide)
  · exact at_most_one_leader.2 (fromMillis 2) none (le_refl _)

end Stroem.Leader
