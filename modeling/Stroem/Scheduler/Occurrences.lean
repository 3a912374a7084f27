import Stroem.Foundation.Runs
import Stroem.Scheduler.Loop

/-!
# One fire for an occurrence

A replica that leads takes the occurrences that its own schedule finds due, and its schedule is
past them afterwards.  Two replicas take the same occurrence only where the leadership passes to a
replica whose schedule still holds an occurrence that another one has taken, or while another one
has read its leadership and not yet looked for due triggers.
-/

namespace Stroem.Scheduler

open Foundation

variable {lib : CronLib}

/-! ## Where an occurrence is -/

def Replica.nextOf (replica : Replica lib) (key : TriggerKey) : Option Time :=
  (replica.triggers.lookup key).bind (·.nextRun)

def LoopPhase.inBatch : LoopPhase → List TriggerKey
  | .batch _ toFire => toFire
  | .firing key toFire => key :: toFire
  | _ => []

def LoopPhase.willFire : LoopPhase → List TriggerKey
  | .batch true toFire => toFire
  | .firing _ toFire => toFire
  | _ => []

variable {phase : LoopPhase} {key : TriggerKey}

theorem LoopPhase.inBatch_of_willFire (h : key ∈ phase.willFire) : key ∈ phase.inBatch := by
  cases phase with
  | batch isLeader toFire =>
    cases isLeader with
    | true => exact h
    | false => cases h
  | firing key' toFire => exact List.mem_cons_of_mem key' h
  | _ => cases h

def Fired (s : LoopState lib) (key : TriggerKey) (t : Time) : Prop :=
  (key, some t) ∈ s.fires.map (FireCall.occurrence lib)

def WillFire (s : LoopState lib) (r : Nat) (key : TriggerKey) (t : Time) : Prop :=
  key ∈ (s.replicas r).phase.willFire ∧ (s.replicas r).nextOf key = some t

def Taken (s : LoopState lib) (key : TriggerKey) (t : Time) : Prop :=
  Fired s key t ∨ ∃ r, WillFire s r key t

def Outstanding (s : LoopState lib) (r : Nat) (key : TriggerKey) (t : Time) : Prop :=
  (s.replicas r).nextOf key = some t ∧ key ∉ (s.replicas r).phase.inBatch

def Candidate (s : LoopState lib) (r : Nat) : Prop :=
  s.leader = some r ∨ (s.replicas r).phase = .sampled true

def HandoverClear (s : LoopState lib) : LoopEvent → Prop
  | .lead (some r) => (∀ key t, Outstanding s r key t → ¬Taken s key t) ∧
      ∀ r', (s.replicas r').phase = .sampled true → r' = r
  | _ => True

/-! ## Schedules -/

structure ReplicaSound (clock : Time) (replica : Replica lib) : Prop where
  nodup : replica.phase.inBatch.Nodup
  due : ∀ key ∈ replica.phase.inBatch, ∃ t, replica.nextOf key = some t ∧ t ≤ clock
  entry : ∀ key tstate, replica.triggers.lookup key = some tstate →
    tstate.Parsed ∧ ∃ seenAt, replica.seen key = some seenAt ∧
      ∀ t, tstate.nextRun = some t → lib.Occurs tstate.cron tstate.timezone t ∧ seenAt < t
  seen : ∀ key seenAt, replica.seen key = some seenAt → seenAt ≤ clock

def CallSound (s : LoopState lib) (call : FireCall lib) : Prop :=
  ∃ t seenAt, call.trigger.nextRun = some t ∧ t ≤ call.time ∧ call.time ≤ s.clock ∧
    (s.replicas call.replica).seen call.key = some seenAt ∧
      lib.Occurs call.trigger.cron call.trigger.timezone t ∧ seenAt < t

structure LoopSound (s : LoopState lib) : Prop where
  replicas : ∀ r, ReplicaSound s.clock (s.replicas r)
  calls : ∀ call ∈ s.fires, CallSound s call

variable {s t : LoopState lib}

theorem loopSound_init : LoopSound ({} : LoopState lib) := by
  refine ⟨fun r => ⟨List.nodup_nil, fun key hkey => (List.not_mem_nil hkey).elim, ?_,
    fun key seenAt hseen => by cases hseen⟩, fun call hcall => (List.not_mem_nil hcall).elim⟩
  intro key tstate hlookup
  rw [AList.lookup_empty] at hlookup
  cases hlookup

@[simp] theorem setReplica_self (s : LoopState lib) (r : Nat) (replica : Replica lib) :
    (s.setReplica r replica).replicas r = replica :=
  if_pos rfl

variable {r : Nat}

theorem setReplica_of_ne (s : LoopState lib) {r' : Nat} (replica : Replica lib) (h : r' ≠ r) :
    (s.setReplica r replica).replicas r' = s.replicas r' :=
  if_neg h

variable {clock : Time}

theorem ReplicaSound.mono {replica : Replica lib} {clock' : Time}
    (h : ReplicaSound clock replica) (hle : clock ≤ clock') : ReplicaSound clock' replica := by
  refine ⟨h.nodup, fun key hkey => ?_, h.entry, fun key seenAt hseen => ?_⟩
  · obtain ⟨t, hnext, ht⟩ := h.due key hkey
    exact ⟨t, hnext, le_trans ht hle⟩
  · exact le_trans (h.seen key seenAt hseen) hle

theorem LoopSound.setReplica (h : LoopSound s) {replica : Replica lib}
    (hreplica : ReplicaSound s.clock replica)
    (hseen : ∀ key seenAt, (s.replicas r).seen key = some seenAt →
      replica.seen key = some seenAt) : LoopSound (s.setReplica r replica) := by
  refine ⟨fun r' => ?_, fun call hcall => ?_⟩
  · by_cases hr : r' = r
    · rw [hr, setReplica_self]
      exact hreplica
    · rw [setReplica_of_ne s replica hr]
      exact h.replicas r'
  · obtain ⟨t, seenAt, hnext, htime, hclock, hcallSeen, hoccurs⟩ := h.calls call hcall
    refine ⟨t, seenAt, hnext, htime, hclock, ?_, hoccurs⟩
    by_cases hr : call.replica = r
    · rw [hr, setReplica_self]
      exact hseen call.key seenAt (hr ▸ hcallSeen)
    · rw [setReplica_of_ne s replica hr]
      exact hcallSeen

theorem ReplicaSound.idle {replica : Replica lib} (h : ReplicaSound clock replica)
    (hphase : phase.inBatch = []) : ReplicaSound clock { replica with phase := phase } := by
  refine ⟨?_, fun key hkey => ?_, h.entry, h.seen⟩
  · dsimp only
    rw [hphase]
    exact List.nodup_nil
  · dsimp only at hkey
    rw [hphase] at hkey
    cases hkey

theorem ReplicaSound.load {replica : Replica lib} (h : ReplicaSound clock replica)
    {previous : Option (Triggers lib)} (hprevious : ∀ prev ∈ previous, prev = replica.triggers)
    (workspaces : List WorkspaceView) :
    ReplicaSound clock (replica.load previous clock workspaces) := by
  refine ⟨List.nodup_nil, fun key hkey => (List.not_mem_nil hkey).elim, ?_, ?_⟩
  · intro key tstate hlookup
    have hold : ∀ {old}, previous.bind (·.lookup key) = some old →
        replica.triggers.lookup key = some old := by
      intro old hbind
      obtain ⟨prev, hprev, hlookup⟩ := Option.bind_eq_some_iff.mp hbind
      rwa [hprevious prev hprev] at hlookup
    have hnow : (replica.load previous clock workspaces).seen key =
        some ((replica.seen key).getD clock) := by
      have hloaded : (loadTriggers workspaces previous).lookup key = some tstate := hlookup
      simp only [Replica.load, hloaded]
      cases replica.seen key <;> rfl
    rcases loadTriggers_loaded workspaces key tstate hlookup with hretained | ⟨hparsed, hruns⟩
    · obtain ⟨hparsed, seenAt, hseen, hafter⟩ := h.entry key tstate (hold hretained)
      exact ⟨hparsed, seenAt, by rw [hnow, hseen]; rfl, hafter⟩
    · rcases hruns with hnone | ⟨old, hlookupOld, hexpr, htz, hnext⟩
      · refine ⟨hparsed, _, hnow, fun t ht => ?_⟩
        rw [hnone] at ht
        cases ht
      · obtain ⟨holdParsed, seenAt, hseen, hafter⟩ := h.entry key old (hold hlookupOld)
        refine ⟨hparsed, seenAt, by rw [hnow, hseen]; rfl, fun t ht => ?_⟩
        have hcron : old.cron = tstate.cron := by
          have hparse := holdParsed.1
          rw [hexpr, hparsed.1] at hparse
          exact (Option.some.inj hparse).symm
        have htimezone : old.timezone = tstate.timezone := by
          rw [holdParsed.2, hparsed.2, htz]
        rw [← hcron, ← htimezone]
        exact hafter t (hnext.trans ht)
  · intro key seenAt hseen
    simp only [Replica.load] at hseen
    cases hold : replica.seen key with
    | some seenAt' =>
      rw [hold] at hseen
      obtain rfl : seenAt' = seenAt := Option.some.inj hseen
      exact h.seen key seenAt' hold
    | none =>
      rw [hold] at hseen
      obtain ⟨-, -, rfl⟩ := Option.map_eq_some_iff.mp hseen
      exact le_refl _

theorem nextOf_eq_some {replica : Replica lib} {t : Time} :
    replica.nextOf key = some t ↔
      ∃ tstate, replica.triggers.lookup key = some tstate ∧ tstate.nextRun = some t :=
  Option.bind_eq_some_iff

theorem withNextRun_nextRun {now t : Time} {tstate : TriggerState lib}
    (h : (withNextRun now tstate).nextRun = some t) :
    tstate.nextRun = some t ∨ lib.Occurs tstate.cron tstate.timezone t ∧ now < t := by
  unfold withNextRun at h
  split at h
  · exact .inl h
  · exact .inr (computeNextRun_eq_some h)

theorem withNextRun_schedule (now : Time) (tstate : TriggerState lib) :
    (withNextRun now tstate).cron = tstate.cron ∧
      (withNextRun now tstate).timezone = tstate.timezone ∧
      ((withNextRun now tstate).Parsed ↔ tstate.Parsed) := by
  unfold withNextRun
  split <;> exact ⟨rfl, rfl, Iff.rfl⟩

theorem ReplicaSound.tick {replica : Replica lib} (h : ReplicaSound clock replica)
    {isLeader : Bool} {toFire : List TriggerKey}
    (hperm : toFire.Perm (dueKeys clock (mapStates (withNextRun clock) replica.triggers))) :
    ReplicaSound clock { replica with
      triggers := mapStates (withNextRun clock) replica.triggers
      phase := .batch isLeader toFire } := by
  refine ⟨hperm.nodup_iff.mpr (nodup_dueKeys _ _), fun key hkey => ?_,
    fun key tstate hlookup => ?_, h.seen⟩
  · obtain ⟨tstate, hlookup, hdue⟩ := mem_dueKeys.mp (hperm.mem_iff.mp hkey)
    obtain ⟨t, hnext, ht⟩ := isDue_iff.mp hdue
    exact ⟨t, nextOf_eq_some.mpr ⟨tstate, hlookup, hnext⟩, ht⟩
  · rw [lookup_mapStates] at hlookup
    obtain ⟨old, hold, rfl⟩ := Option.map_eq_some_iff.mp hlookup
    obtain ⟨hcron, htimezone, hparsed⟩ := withNextRun_schedule clock old
    obtain ⟨holdParsed, seenAt, hseen, hafter⟩ := h.entry key old hold
    refine ⟨hparsed.mpr holdParsed, seenAt, hseen, fun t ht => ?_⟩
    rw [hcron, htimezone]
    rcases withNextRun_nextRun ht with hkept | ⟨hoccurs, hlater⟩
    · exact hafter t hkept
    · exact ⟨hoccurs, lt_of_le_of_lt (h.seen key seenAt hseen) hlater⟩

variable {replica' : Replica lib}

theorem Replica.advance_eq_some {replica : Replica lib} {now : Time}
    (h : replica.advance key now phase = some replica') :
    ∃ tstate, replica.triggers.lookup key = some tstate ∧
      replica' = { replica with
        triggers := replica.triggers.insert key (advanceStateAfterTick tstate now)
        phase := phase } := by
  obtain ⟨tstate, hlookup, hreplica⟩ := Option.map_eq_some_iff.mp h
  exact ⟨tstate, hlookup, hreplica.symm⟩

theorem Replica.phase_advance {replica : Replica lib} {now : Time}
    (h : replica.advance key now phase = some replica') : replica'.phase = phase := by
  obtain ⟨tstate, -, rfl⟩ := Replica.advance_eq_some h
  rfl

theorem Replica.nextOf_advance {replica : Replica lib} {now : Time}
    (h : replica.advance key now phase = some replica') :
    (∀ t, replica'.nextOf key = some t → now < t) ∧
      ∀ key', key' ≠ key → replica'.nextOf key' = replica.nextOf key' := by
  obtain ⟨tstate, hlookup, rfl⟩ := Replica.advance_eq_some h
  refine ⟨fun t ht => ?_, fun key' hkey => ?_⟩
  · obtain ⟨advanced, hadvanced, hnext⟩ := nextOf_eq_some.mp ht
    rw [AList.lookup_insert] at hadvanced
    obtain rfl := Option.some.inj hadvanced
    exact (advanceStateAfterTick_nextRun hnext).2
  · unfold Replica.nextOf
    rw [AList.lookup_insert_ne hkey]

theorem ReplicaSound.advance {replica : Replica lib} (h : ReplicaSound clock replica)
    (hbatch : replica.phase.inBatch = key :: phase.inBatch)
    (hadvance : replica.advance key clock phase = some replica') :
    ReplicaSound clock replica' := by
  have hnext := (Replica.nextOf_advance hadvance).2
  obtain ⟨tstate, hlookup, rfl⟩ := Replica.advance_eq_some hadvance
  have hnodup := h.nodup
  rw [hbatch, List.nodup_cons] at hnodup
  refine ⟨hnodup.2, fun key' hkey' => ?_, fun key' tstate' hlookup' => ?_, h.seen⟩
  · have hne : key' ≠ key := fun heq => hnodup.1 (heq ▸ hkey')
    obtain ⟨t, ht, hclock⟩ := h.due key' (by rw [hbatch]; exact List.mem_cons_of_mem key hkey')
    exact ⟨t, (hnext key' hne).trans ht, hclock⟩
  · by_cases hkey : key' = key
    · subst hkey
      rw [AList.lookup_insert] at hlookup'
      obtain rfl := Option.some.inj hlookup'
      obtain ⟨hparsed, seenAt, hseen, -⟩ := h.entry key' tstate hlookup
      refine ⟨hparsed, seenAt, hseen, fun t ht => ?_⟩
      obtain ⟨hoccurs, hlater⟩ := advanceStateAfterTick_nextRun ht
      exact ⟨hoccurs, lt_of_le_of_lt (h.seen key' seenAt hseen) hlater⟩
    · rw [AList.lookup_insert_ne hkey] at hlookup'
      exact h.entry key' tstate' hlookup'

theorem ReplicaSound.congr_phase {replica : Replica lib} (h : ReplicaSound clock replica)
    (hbatch : phase.inBatch = replica.phase.inBatch) :
    ReplicaSound clock { replica with phase := phase } := by
  refine ⟨?_, fun key hkey => ?_, h.entry, h.seen⟩
  · dsimp only
    rw [hbatch]
    exact h.nodup
  · dsimp only at hkey
    rw [hbatch] at hkey
    exact h.due key hkey

/-! ## Steps -/

inductive Move (s : LoopState lib) (r : Nat) : Replica lib → Prop
  | load (previous : Option (Triggers lib)) (workspaces : List WorkspaceView)
      (hprevious : ∀ prev ∈ previous, prev = (s.replicas r).triggers)
      (hidle : (s.replicas r).phase.inBatch = []) :
      Move s r ((s.replicas r).load previous s.clock workspaces)
  | sample (hidle : (s.replicas r).phase.inBatch = []) :
      Move s r { s.replicas r with phase := .sampled (s.leader = some r) }
  | tick (isLeader : Bool) (toFire : List TriggerKey)
      (hphase : (s.replicas r).phase = .sampled isLeader)
      (hperm : toFire.Perm
        (dueKeys s.clock (mapStates (withNextRun s.clock) (s.replicas r).triggers))) :
      Move s r { s.replicas r with
        triggers := mapStates (withNextRun s.clock) (s.replicas r).triggers
        phase := .batch isLeader toFire }
  | advance (key : TriggerKey) (isLeader : Bool) (rest : List TriggerKey) (replica : Replica lib)
      (hbatch : (s.replicas r).phase.inBatch = key :: rest)
      (hwill : (LoopPhase.batch isLeader rest).willFire = (s.replicas r).phase.willFire)
      (hadvance : (s.replicas r).advance key s.clock (.batch isLeader rest) = some replica) :
      Move s r replica
  | sleep (hidle : (s.replicas r).phase.inBatch = []) :
      Move s r { s.replicas r with phase := .asleep }

def LoopEvent.replica : LoopEvent → Option Nat
  | .clock _ | .lead _ => none
  | .load r _ | .sample r | .tick r _ | .fire r | .advance r | .sleep r => some r

theorem loopStep_cases {event : LoopEvent} (h : loopStep s event = some t) :
    (∃ now, s.clock ≤ now ∧ t = { s with clock := now }) ∨
    (∃ leader, event = .lead leader ∧ t = { s with leader := leader }) ∨
    (∃ r replica, event.replica = some r ∧ Move s r replica ∧ t = s.setReplica r replica) ∨
    ∃ r key rest tstate, event.replica = some r ∧
      (s.replicas r).phase = .batch true (key :: rest) ∧
      (s.replicas r).triggers.lookup key = some tstate ∧
      t = { s.setReplica r { s.replicas r with phase := .firing key rest } with
        fires := s.fires ++ [⟨r, key, tstate, s.clock⟩] } := by
  cases event with
  | clock now =>
    simp only [loopStep] at h
    split at h
    · next hle => exact .inl ⟨now, hle, (Option.some.inj h).symm⟩
    · cases h
  | lead leader => exact .inr (.inl ⟨leader, rfl, (Option.some.inj h).symm⟩)
  | load r workspaces =>
    simp only [loopStep] at h
    split at h
    · next hphase =>
      refine .inr (.inr (.inl ⟨r, _, rfl, .load none workspaces ?_ ?_, (Option.some.inj h).symm⟩))
      · exact fun prev hprev => by cases hprev
      · rw [hphase]
        rfl
    · next hphase =>
      refine .inr (.inr (.inl ⟨r, _, rfl, .load (some _) workspaces ?_ ?_,
        (Option.some.inj h).symm⟩))
      · exact fun prev hprev => (Option.some.inj hprev).symm
      · rw [hphase]
        rfl
    · cases h
  | sample r =>
    simp only [loopStep] at h
    split at h
    · next hphase =>
      refine .inr (.inr (.inl ⟨r, _, rfl, .sample ?_, (Option.some.inj h).symm⟩))
      rw [hphase]
      rfl
    · cases h
  | tick r toFire =>
    simp only [loopStep] at h
    split at h
    · next isLeader hphase =>
      split at h
      · next hperm =>
        exact .inr (.inr (.inl ⟨r, _, rfl, .tick isLeader toFire hphase hperm,
          (Option.some.inj h).symm⟩))
      · cases h
    · cases h
  | fire r =>
    simp only [loopStep] at h
    split at h
    · next key rest hphase =>
      obtain ⟨tstate, hlookup, ht⟩ := Option.map_eq_some_iff.mp h
      exact .inr (.inr (.inr ⟨r, key, rest, tstate, rfl, hphase, hlookup, ht.symm⟩))
    · cases h
  | advance r =>
    simp only [loopStep] at h
    split at h
    · next key rest hphase =>
      obtain ⟨replica, hadvance, ht⟩ := Option.map_eq_some_iff.mp h
      refine .inr (.inr (.inl ⟨r, replica, rfl, .advance key false rest replica ?_ ?_ hadvance,
        ht.symm⟩))
      · rw [hphase]
        rfl
      · rw [hphase]
        rfl
    · next key rest hphase =>
      obtain ⟨replica, hadvance, ht⟩ := Option.map_eq_some_iff.mp h
      refine .inr (.inr (.inl ⟨r, replica, rfl, .advance key true rest replica ?_ ?_ hadvance,
        ht.symm⟩))
      · rw [hphase]
        rfl
      · rw [hphase]
        rfl
    · cases h
  | sleep r =>
    simp only [loopStep] at h
    split at h
    · next hphase =>
      refine .inr (.inr (.inl ⟨r, _, rfl, .sleep ?_, (Option.some.inj h).symm⟩))
      rw [hphase]
      rfl
    · cases h

theorem Move.replicaSound {replica : Replica lib} (h : ReplicaSound s.clock (s.replicas r))
    (hmove : Move s r replica) : ReplicaSound s.clock replica := by
  cases hmove with
  | load previous workspaces hprevious hidle => exact h.load hprevious workspaces
  | sample hidle => exact h.idle rfl
  | tick isLeader toFire hphase hperm => exact h.tick hperm
  | advance key isLeader rest replica hbatch hwill hadvance => exact h.advance hbatch hadvance
  | sleep hidle => exact h.idle rfl

theorem Move.seen {replica : Replica lib} (hmove : Move s r replica) {seenAt : Time}
    (h : (s.replicas r).seen key = some seenAt) : replica.seen key = some seenAt := by
  cases hmove with
  | load previous workspaces hprevious hidle =>
    simp only [Replica.load, h]
    rfl
  | advance key' isLeader rest replica hbatch hwill hadvance =>
    obtain ⟨tstate, -, rfl⟩ := Replica.advance_eq_some hadvance
    exact h
  | _ => exact h

theorem LoopSound.fire (h : LoopSound s) {rest : List TriggerKey} {tstate : TriggerState lib}
    (hphase : (s.replicas r).phase = .batch true (key :: rest))
    (hlookup : (s.replicas r).triggers.lookup key = some tstate) :
    LoopSound { s.setReplica r { s.replicas r with phase := .firing key rest } with
      fires := s.fires ++ [⟨r, key, tstate, s.clock⟩] } := by
  have hbatch : (LoopPhase.firing key rest).inBatch = (s.replicas r).phase.inBatch := by
    rw [hphase]
    rfl
  have hset := h.setReplica ((h.replicas r).congr_phase hbatch) fun _ _ hseen => hseen
  refine ⟨hset.replicas, fun call hcall => ?_⟩
  rcases List.mem_append.mp hcall with hold | hnew
  · exact hset.calls call hold
  · obtain rfl := List.mem_singleton.mp hnew
    obtain ⟨t, hnext, ht⟩ := (h.replicas r).due key (by rw [hphase]; exact List.mem_cons_self)
    obtain ⟨tstate', hlookup', hrun⟩ := nextOf_eq_some.mp hnext
    obtain rfl : tstate' = tstate := Option.some.inj (hlookup'.symm.trans hlookup)
    obtain ⟨-, seenAt, hseen, hafter⟩ := (h.replicas r).entry key tstate' hlookup
    obtain ⟨hoccurs, hlater⟩ := hafter t hrun
    refine ⟨t, seenAt, hrun, ht, le_refl _, ?_, hoccurs, hlater⟩
    change ((s.setReplica r _).replicas r).seen key = some seenAt
    rw [setReplica_self]
    exact hseen

theorem LoopSound.step {event : LoopEvent} (h : LoopSound s) (hstep : loopStep s event = some t) :
    LoopSound t := by
  rcases loopStep_cases hstep with ⟨now, hle, rfl⟩ | ⟨leader, -, rfl⟩ |
      ⟨r, replica, -, hmove, rfl⟩ | ⟨r, key, rest, tstate, -, hphase, hlookup, rfl⟩
  · refine ⟨fun r => (h.replicas r).mono hle, fun call hcall => ?_⟩
    obtain ⟨t, seenAt, hnext, htime, hclock, hrest⟩ := h.calls call hcall
    exact ⟨t, seenAt, hnext, htime, le_trans hclock hle, hrest⟩
  · exact ⟨h.replicas, h.calls⟩
  · exact h.setReplica (hmove.replicaSound (h.replicas r)) fun _ _ => hmove.seen
  · exact h.fire hphase hlookup

/-! ## Handovers -/

structure Handed (s : LoopState lib) : Prop where
  clear : ∀ r, Candidate s r → ∀ key t, Outstanding s r key t → ¬Taken s key t
  unique : ∀ r r', Candidate s r → Candidate s r' → r = r'
  unfired : ∀ r key t, WillFire s r key t → ¬Fired s key t
  apart : ∀ r r' key t, WillFire s r key t → WillFire s r' key t → r = r'
  nodup : (s.fires.map (FireCall.occurrence lib)).Nodup

theorem handed_init : Handed ({} : LoopState lib) := by
  refine ⟨fun r hr => ?_, fun r r' hr => ?_, fun r key t ⟨hkey, _⟩ => ?_,
    fun r r' key t ⟨hkey, _⟩ => ?_, List.nodup_nil⟩
  · rcases hr with hr | hr <;> cases hr
  · rcases hr with hr | hr <;> cases hr
  · exact (List.not_mem_nil hkey).elim
  · exact (List.not_mem_nil hkey).elim

theorem LoopSound.le_clock_of_taken (h : LoopSound s) {at_ : Time} (htaken : Taken s key at_) :
    at_ ≤ s.clock := by
  rcases htaken with hfired | ⟨r, hkey, hnext⟩
  · obtain ⟨call, hcall, heq⟩ := List.mem_map.mp hfired
    obtain ⟨t, -, hrun, htime, hclock, -⟩ := h.calls call hcall
    obtain rfl : t = at_ := Option.some.inj (hrun.symm.trans (Prod.mk.inj heq).2)
    exact le_trans htime hclock
  · obtain ⟨t, hnext', ht⟩ := (h.replicas r).due key (LoopPhase.inBatch_of_willFire hkey)
    obtain rfl : t = at_ := Option.some.inj (hnext'.symm.trans hnext)
    exact ht

theorem nextOf_tick {at_ : Time} {replica : Replica lib} (h : Replica.nextOf { replica with
      triggers := mapStates (withNextRun clock) replica.triggers
      phase := phase } key = some at_) : replica.nextOf key = some at_ ∨ clock < at_ := by
  obtain ⟨tstate, hlookup, hrun⟩ := nextOf_eq_some.mp h
  rw [lookup_mapStates] at hlookup
  obtain ⟨old, hold, rfl⟩ := Option.map_eq_some_iff.mp hlookup
  rcases withNextRun_nextRun hrun with hkept | ⟨-, hlater⟩
  · exact .inl (nextOf_eq_some.mpr ⟨old, hold, hkept⟩)
  · exact .inr hlater

theorem nextOf_load {at_ : Time} {replica : Replica lib} {previous : Option (Triggers lib)}
    (hprevious : ∀ prev ∈ previous, prev = replica.triggers) {workspaces : List WorkspaceView}
    (h : (replica.load previous clock workspaces).nextOf key = some at_) :
    replica.nextOf key = some at_ := by
  obtain ⟨tstate, hlookup, hrun⟩ := nextOf_eq_some.mp h
  have hold : ∀ {old}, previous.bind (·.lookup key) = some old → old.nextRun = some at_ →
      replica.nextOf key = some at_ := by
    intro old hbind hnext
    obtain ⟨prev, hprev, hlookup⟩ := Option.bind_eq_some_iff.mp hbind
    rw [hprevious prev hprev] at hlookup
    exact nextOf_eq_some.mpr ⟨old, hlookup, hnext⟩
  rcases loadTriggers_loaded workspaces key tstate hlookup with hretained | ⟨-, hruns⟩
  · exact hold hretained hrun
  · rcases hruns with hnone | ⟨old, hlookupOld, -, -, hnext⟩
    · rw [hnone] at hrun
      cases hrun
    · exact hold hlookupOld (hnext.trans hrun)

theorem Move.outstanding {replica : Replica lib} (hmove : Move s r replica) {at_ : Time}
    (hnext : replica.nextOf key = some at_) (hkey : key ∉ replica.phase.inBatch) :
    Outstanding s r key at_ ∨ s.clock < at_ := by
  have hidle : (s.replicas r).phase.inBatch = [] → key ∉ (s.replicas r).phase.inBatch := by
    intro hnil
    rw [hnil]
    exact List.not_mem_nil
  cases hmove with
  | load previous workspaces hprevious hnil =>
    exact .inl ⟨nextOf_load hprevious hnext, hidle hnil⟩
  | sample hnil => exact .inl ⟨hnext, hidle hnil⟩
  | tick isLeader toFire hphase hperm =>
    refine (nextOf_tick hnext).imp_left fun hold => ⟨hold, hidle ?_⟩
    rw [hphase]
    rfl
  | advance key' isLeader rest replica hbatch hwill hadvance =>
    obtain ⟨hadvanced, hothers⟩ := Replica.nextOf_advance hadvance
    by_cases heq : key = key'
    · subst heq
      exact .inr (hadvanced at_ hnext)
    · refine .inl ⟨(hothers key heq).symm.trans hnext, ?_⟩
      rw [Replica.phase_advance hadvance] at hkey
      rw [hbatch, List.mem_cons, not_or]
      exact ⟨heq, hkey⟩
  | sleep hnil => exact .inl ⟨hnext, hidle hnil⟩

theorem Move.willFire (h : LoopSound s) {replica : Replica lib} (hmove : Move s r replica)
    {at_ : Time} (hkey : key ∈ replica.phase.willFire) (hnext : replica.nextOf key = some at_) :
    WillFire s r key at_ ∨ Candidate s r ∧ Outstanding s r key at_ := by
  cases hmove with
  | load previous workspaces hprevious hnil => cases hkey
  | sample hnil => cases hkey
  | tick isLeader toFire hphase hperm =>
    cases isLeader with
    | false => cases hkey
    | true =>
      obtain ⟨tstate, hlookup, hdue⟩ := mem_dueKeys.mp (hperm.mem_iff.mp hkey)
      obtain ⟨t, hrun, ht⟩ := isDue_iff.mp hdue
      obtain ⟨tstate', hlookup', hrun'⟩ := nextOf_eq_some.mp hnext
      obtain rfl : tstate' = tstate := Option.some.inj (hlookup'.symm.trans hlookup)
      obtain rfl : t = at_ := Option.some.inj (hrun.symm.trans hrun')
      have hold := (nextOf_tick hnext).resolve_right (not_lt_of_ge ht)
      refine .inr ⟨.inr hphase, hold, ?_⟩
      rw [hphase]
      exact List.not_mem_nil
  | advance key' isLeader rest replica hbatch hwill hadvance =>
    rw [Replica.phase_advance hadvance] at hkey
    have hold : key ∈ (s.replicas r).phase.willFire := hwill ▸ hkey
    have hrest : key ∈ rest := LoopPhase.inBatch_of_willFire hkey
    have hnodup := (h.replicas r).nodup
    rw [hbatch, List.nodup_cons] at hnodup
    have hne : key ≠ key' := fun heq => hnodup.1 (heq ▸ hrest)
    exact .inl ⟨hold, ((Replica.nextOf_advance hadvance).2 key hne).symm.trans hnext⟩
  | sleep hnil => cases hkey

theorem Move.candidate {replica : Replica lib} (hmove : Move s r replica)
    (hphase : replica.phase = .sampled true) : s.leader = some r := by
  cases hmove with
  | sample hnil => simpa using hphase
  | advance key isLeader rest replica hbatch hwill hadvance =>
    rw [Replica.phase_advance hadvance] at hphase
    cases hphase
  | _ => cases hphase

section Moved

variable {r : Nat} {replica : Replica lib}

theorem candidate_of_move (hmove : Move s r replica) {r' : Nat}
    (h : Candidate (s.setReplica r replica) r') : Candidate s r' := by
  rcases h with hleader | hphase
  · exact .inl hleader
  · by_cases hr : r' = r
    · subst hr
      rw [setReplica_self] at hphase
      exact .inl (hmove.candidate hphase)
    · rw [setReplica_of_ne s replica hr] at hphase
      exact .inr hphase

theorem willFire_of_move (h : LoopSound s) (hmove : Move s r replica) {r' : Nat}
    {key : TriggerKey} {at_ : Time} (hwill : WillFire (s.setReplica r replica) r' key at_) :
    WillFire s r' key at_ ∨ r' = r ∧ Candidate s r ∧ Outstanding s r key at_ := by
  obtain ⟨hkey, hnext⟩ := hwill
  by_cases hr : r' = r
  · subst hr
    rw [setReplica_self] at hkey hnext
    exact (hmove.willFire h hkey hnext).imp_right fun hnew => ⟨rfl, hnew⟩
  · rw [setReplica_of_ne s replica hr] at hkey hnext
    exact .inl ⟨hkey, hnext⟩

theorem clear_of_move (hsound : LoopSound s) (h : Handed s) (hmove : Move s r replica) {c : Nat}
    (hc : Candidate s c) {key : TriggerKey} {at_ : Time}
    (hout : Outstanding (s.setReplica r replica) c key at_) :
    ¬Taken (s.setReplica r replica) key at_ := by
  intro htaken
  have hold : Outstanding s c key at_ ∨ s.clock < at_ := by
    by_cases hr : c = r
    · subst hr
      obtain ⟨hnext, hkey⟩ := hout
      rw [setReplica_self] at hnext hkey
      exact hmove.outstanding hnext hkey
    · unfold Outstanding at hout
      rw [setReplica_of_ne s replica hr] at hout
      exact .inl hout
  have htakenBefore : Taken s key at_ := by
    rcases htaken with hfired | ⟨r', hwill⟩
    · exact .inl hfired
    · rcases willFire_of_move hsound hmove hwill with hwas | ⟨rfl, hcandidate, -⟩
      · exact .inr ⟨r', hwas⟩
      · obtain rfl := h.unique _ _ hc hcandidate
        exact absurd (LoopPhase.inBatch_of_willFire hwill.1) hout.2
  rcases hold with hold | hlater
  · exact h.clear c hc key at_ hold htakenBefore
  · exact absurd (hsound.le_clock_of_taken htakenBefore) (not_le_of_gt hlater)

theorem Handed.move (hsound : LoopSound s) (h : Handed s) (hmove : Move s r replica) :
    Handed (s.setReplica r replica) := by
  have huntaken : ∀ {key at_}, Candidate s r ∧ Outstanding s r key at_ → ¬Taken s key at_ :=
    fun hnew => h.clear r hnew.1 _ _ hnew.2
  refine ⟨fun c hc key at_ => clear_of_move hsound h hmove (candidate_of_move hmove hc),
    fun c c' hc hc' => h.unique c c' (candidate_of_move hmove hc) (candidate_of_move hmove hc'),
    fun r' key at_ hwill hfired => ?_, fun r₁ r₂ key at_ hwill₁ hwill₂ => ?_, h.nodup⟩
  · rcases willFire_of_move hsound hmove hwill with hwas | ⟨-, hnew⟩
    · exact h.unfired r' key at_ hwas hfired
    · exact huntaken hnew (.inl hfired)
  · rcases willFire_of_move hsound hmove hwill₁ with hwas₁ | ⟨rfl, hnew₁⟩
    · rcases willFire_of_move hsound hmove hwill₂ with hwas₂ | ⟨rfl, hnew₂⟩
      · exact h.apart r₁ r₂ key at_ hwas₁ hwas₂
      · exact absurd (.inr ⟨r₁, hwas₁⟩) (huntaken hnew₂)
    · rcases willFire_of_move hsound hmove hwill₂ with hwas₂ | ⟨rfl, hnew₂⟩
      · exact absurd (.inr ⟨r₂, hwas₂⟩) (huntaken hnew₁)
      · rfl

end Moved

section FireStep

variable {r : Nat} {key : TriggerKey} {rest : List TriggerKey} {tstate : TriggerState lib}

def LoopState.called (s : LoopState lib) (r : Nat) (key : TriggerKey) (rest : List TriggerKey)
    (tstate : TriggerState lib) : LoopState lib :=
  { s.setReplica r { s.replicas r with phase := .firing key rest } with
    fires := s.fires ++ [⟨r, key, tstate, s.clock⟩] }

theorem called_replicas (s : LoopState lib) (r' : Nat) :
    (s.called r key rest tstate).replicas r' =
      if r' = r then { s.replicas r with phase := .firing key rest } else s.replicas r' :=
  rfl

theorem fired_called {key' : TriggerKey} {at_ : Time}
    (h : Fired (s.called r key rest tstate) key' at_) :
    Fired s key' at_ ∨ key' = key ∧ tstate.nextRun = some at_ := by
  unfold Fired LoopState.called at h
  rw [List.map_append, List.mem_append] at h
  refine h.imp_right fun hnew => ?_
  have heq := List.mem_singleton.mp hnew
  exact ⟨(Prod.mk.inj heq).1, (Prod.mk.inj heq).2.symm⟩

theorem willFire_called (hphase : (s.replicas r).phase = .batch true (key :: rest)) {r' : Nat}
    {key' : TriggerKey} {at_ : Time} (h : WillFire (s.called r key rest tstate) r' key' at_) :
    WillFire s r' key' at_ ∧ (r' = r → key' ∈ rest) := by
  obtain ⟨hkey, hnext⟩ := h
  rw [called_replicas] at hkey hnext
  by_cases hr : r' = r
  · subst hr
    rw [if_pos rfl] at hkey hnext
    refine ⟨⟨?_, hnext⟩, fun _ => hkey⟩
    rw [hphase]
    exact List.mem_cons_of_mem key hkey
  · rw [if_neg hr] at hkey hnext
    exact ⟨⟨hkey, hnext⟩, fun heq => absurd heq hr⟩

theorem outstanding_called (hphase : (s.replicas r).phase = .batch true (key :: rest)) {r' : Nat}
    {key' : TriggerKey} {at_ : Time} (h : Outstanding (s.called r key rest tstate) r' key' at_) :
    Outstanding s r' key' at_ := by
  obtain ⟨hnext, hkey⟩ := h
  rw [called_replicas] at hkey hnext
  by_cases hr : r' = r
  · subst hr
    rw [if_pos rfl] at hkey hnext
    refine ⟨hnext, ?_⟩
    rw [hphase]
    exact hkey
  · rw [if_neg hr] at hkey hnext
    exact ⟨hnext, hkey⟩

theorem candidate_called {r' : Nat} (h : Candidate (s.called r key rest tstate) r') :
    Candidate s r' := by
  refine h.imp_right fun hphase => ?_
  rw [called_replicas] at hphase
  split at hphase
  · cases hphase
  · exact hphase

theorem Handed.fire (hsound : LoopSound s) (h : Handed s)
    (hphase : (s.replicas r).phase = .batch true (key :: rest))
    (hlookup : (s.replicas r).triggers.lookup key = some tstate) :
    Handed (s.called r key rest tstate) := by
  have hnodup := (hsound.replicas r).nodup
  obtain ⟨due, hnext, -⟩ := (hsound.replicas r).due key
    (by rw [hphase]; exact List.mem_cons_self)
  rw [hphase] at hnodup
  have hrest : key ∉ rest := (List.nodup_cons.mp hnodup).1
  have hrun : tstate.nextRun = some due := by
    obtain ⟨tstate', hlookup', hrun⟩ := nextOf_eq_some.mp hnext
    rwa [Option.some.inj (hlookup'.symm.trans hlookup)] at hrun
  have hwas : WillFire s r key due := by
    refine ⟨?_, hnext⟩
    rw [hphase]
    exact List.mem_cons_self
  have hfired : ∀ {key' at_}, Fired (s.called r key rest tstate) key' at_ →
      Fired s key' at_ ∨ key' = key ∧ at_ = due := fun hfired =>
    (fired_called hfired).imp_right fun hnew =>
      ⟨hnew.1, Option.some.inj (hnew.2.symm.trans hrun)⟩
  constructor
  · rintro c hc key' at_ hout (hnew | ⟨r', hwill⟩)
    · have hclear := h.clear c (candidate_called hc) key' at_ (outstanding_called hphase hout)
      rcases hfired hnew with hold | ⟨rfl, rfl⟩
      · exact hclear (.inl hold)
      · exact hclear (.inr ⟨r, hwas⟩)
    · exact h.clear c (candidate_called hc) key' at_ (outstanding_called hphase hout)
        (.inr ⟨r', (willFire_called hphase hwill).1⟩)
  · exact fun c c' hc hc' => h.unique c c' (candidate_called hc) (candidate_called hc')
  · intro r' key' at_ hwill hnew
    obtain ⟨hwillBefore, hsame⟩ := willFire_called hphase hwill
    rcases hfired hnew with hold | ⟨rfl, rfl⟩
    · exact h.unfired r' key' at_ hwillBefore hold
    · exact hrest (hsame (h.apart r' r key' at_ hwillBefore hwas))
  · exact fun r₁ r₂ key' at_ hwill₁ hwill₂ => h.apart r₁ r₂ key' at_
      (willFire_called hphase hwill₁).1 (willFire_called hphase hwill₂).1
  · have hunfired := h.unfired r key due hwas
    unfold LoopState.called
    rw [List.map_append, List.nodup_append]
    refine ⟨h.nodup, List.nodup_singleton _, ?_⟩
    rintro _ hold _ hnew rfl
    obtain rfl := List.mem_singleton.mp hnew
    rw [FireCall.occurrence, hrun] at hold
    exact hunfired hold

end FireStep

theorem Handed.step {event : LoopEvent} (hsound : LoopSound s) (h : Handed s)
    (hclear : HandoverClear s event) (hstep : loopStep s event = some t) : Handed t := by
  rcases loopStep_cases hstep with ⟨now, hle, rfl⟩ | ⟨leader, rfl, rfl⟩ |
      ⟨r, replica, -, hmove, rfl⟩ | ⟨r, key, rest, tstate, -, hphase, hlookup, rfl⟩
  · exact ⟨h.clear, h.unique, h.unfired, h.apart, h.nodup⟩
  · cases leader with
    | none =>
      have hcandidate : ∀ c, Candidate { s with leader := none } c → Candidate s c := by
        rintro c (hleader | hphase)
        · cases hleader
        · exact .inr hphase
      exact ⟨fun c hc => h.clear c (hcandidate c hc),
        fun c c' hc hc' => h.unique c c' (hcandidate c hc) (hcandidate c' hc'), h.unfired,
        h.apart, h.nodup⟩
    | some r =>
      have hcandidate : ∀ c, Candidate { s with leader := some r } c → c = r := by
        rintro c (hleader | hphase)
        · exact (Option.some.inj hleader).symm
        · exact hclear.2 c hphase
      refine ⟨fun c hc => ?_, fun c c' hc hc' => ?_, h.unfired, h.apart, h.nodup⟩
      · obtain rfl := hcandidate c hc
        exact hclear.1
      · rw [hcandidate c hc, hcandidate c' hc']
  · exact h.move hsound hmove
  · exact h.fire hsound hphase hlookup

/-! ## Runs -/

theorem loopStep_frame {event : LoopEvent} (hstep : loopStep s event = some t)
    (hother : event.replica ≠ some r) : t.replicas r = s.replicas r := by
  have hne : ∀ {r'}, event.replica = some r' → r ≠ r' := by
    rintro r' hr rfl
    exact hother hr
  rcases loopStep_cases hstep with ⟨now, -, rfl⟩ | ⟨leader, -, rfl⟩ |
      ⟨r', replica, hr, -, rfl⟩ | ⟨r', key, rest, tstate, hr, -, -, rfl⟩
  · rfl
  · rfl
  · exact setReplica_of_ne s replica (hne hr)
  · exact setReplica_of_ne s _ (hne hr)

/--
In every run whose handovers are clear, an occurrence leads to one fire at most, and no replica
fires before the first occurrence after it first saw the trigger.
-/
theorem fires_once {events : List LoopEvent} {s : LoopState lib}
    (hrun : exec loopStep ({} : LoopState lib) events = some s) :
    (Meets loopStep HandoverClear ({} : LoopState lib) events →
        (s.fires.map (FireCall.occurrence lib)).Nodup) ∧
      ∀ call ∈ s.fires, ∃ seenAt, (s.replicas call.replica).seen call.key = some seenAt ∧
        ∀ first, lib.findNext call.trigger.cron call.trigger.timezone seenAt = some first →
          first ≤ call.time := by
  constructor
  · intro hclear
    have hinv : LoopSound s ∧ Handed s := exec_invariant (fun s => LoopSound s ∧ Handed s)
      (fun s event t hs hclear hstep => ⟨hs.1.step hstep, hs.2.step hs.1 hclear hstep⟩)
      ⟨loopSound_init, handed_init⟩ hclear hrun
    exact hinv.2.nodup
  · intro call hcall
    have hsound : LoopSound s := exec_invariant LoopSound
      (fun s event t hs _ hstep => hs.step hstep) loopSound_init
      (Meets.of_forall (fun _ _ => trivial) _ _) hrun
    obtain ⟨t, seenAt, -, htime, -, hseen, hoccurs, hlater⟩ := hsound.calls call hcall
    refine ⟨seenAt, hseen, fun first hfirst => ?_⟩
    obtain ⟨-, -, hleast⟩ := lib.findNext_first _ _ _ _ hfirst
    exact le_trans (hleast t hoccurs hlater) htime

private theorem tens_first (start : Nat) :
    (start / 10 + 1) * 10 % 10 = 0 ∧ start < (start / 10 + 1) * 10 ∧
      ∀ t, t % 10 = 0 → start < t → (start / 10 + 1) * 10 ≤ t := by
  refine ⟨?_, ?_, fun t hten hlt => ?_⟩ <;> omega

def everyTen : CronLib where
  Cron := Unit
  Tz := Unit
  parse _ := some ()
  parseTz _ := some ()
  Occurs _ _ t := t % 10 = 0
  findNext _ _ start := some ((start / 10 + 1) * 10)
  findNext_first _ _ start next h := by
    obtain rfl : (start / 10 + 1) * 10 = next := Option.some.inj h
    exact tens_first start

def nightlyOnly : List WorkspaceView :=
  [{ name := "etl",
     config := some [("nightly", .scheduler { cron := "0 1 * * *", task := "load" })] }]

def pass (r : Nat) (toFire : List TriggerKey) : List LoopEvent :=
  [.load r nightlyOnly, .sample r, .tick r toFire]

def beforeHandover : List LoopEvent :=
  .lead (some 0) :: (pass 0 [] ++ [.sleep 0] ++ pass 1 [] ++ [.sleep 1, .clock 10] ++
    pass 0 ["etl/nightly"] ++ [.fire 0, .advance 0, .sleep 0] ++ pass 1 ["etl/nightly"] ++
    [.advance 1, .sleep 1])

def afterHandover : List LoopEvent :=
  .clock 20 :: (pass 1 ["etl/nightly"] ++ [.fire 1])

def lateHandover : List LoopEvent :=
  .lead (some 0) :: (pass 0 [] ++ [.sleep 0] ++ pass 1 [] ++ [.sleep 1, .clock 10] ++
    pass 0 ["etl/nightly"] ++ [.lead (some 1)] ++ pass 1 ["etl/nightly"] ++ [.fire 1, .fire 0])

def handoverFacts (s : LoopState everyTen) :=
  ((s.replicas 1).triggers.entries.map (fun entry => (entry.1, entry.2.nextRun)),
    s.fires.map (FireCall.occurrence everyTen), (s.replicas 0).phase, (s.replicas 1).phase)

theorem handoverClear_of_facts {s : LoopState everyTen}
    (hfacts : handoverFacts s =
      ([("etl/nightly", some 20)], [("etl/nightly", some 10)], .asleep, .asleep))
    (hstarting : ∀ r, 2 ≤ r → (s.replicas r).phase = .starting) :
    HandoverClear s (.lead (some 1)) := by
  simp only [handoverFacts, Prod.mk.injEq] at hfacts
  obtain ⟨hentries, hfires, hzero, hone⟩ := hfacts
  have hidle : ∀ r, (s.replicas r).phase = .starting ∨ (s.replicas r).phase = .asleep
    | 0 => .inr hzero
    | 1 => .inr hone
    | r + 2 => .inl (hstarting (r + 2) (Nat.le_add_left 2 r))
  refine ⟨fun key at_ hout htaken => ?_, fun r hphase => ?_⟩
  · obtain ⟨tstate, hlookup, hnext⟩ := nextOf_eq_some.mp hout.1
    have hentry : (key, tstate.nextRun) ∈ (s.replicas 1).triggers.entries.map
        (fun entry => (entry.1, entry.2.nextRun)) :=
      List.mem_map.mpr ⟨⟨key, tstate⟩, AList.mem_lookup_iff.mp hlookup, rfl⟩
    rw [hentries, List.mem_singleton, hnext] at hentry
    rcases htaken with hfired | ⟨r, hwill, -⟩
    · rw [Fired, hfires, List.mem_singleton, hentry] at hfired
      cases hfired
    · rcases hidle r with hphase | hphase <;> rw [hphase] at hwill <;> cases hwill
  · rcases hidle r with hidle | hidle <;> rw [hphase] at hidle <;> cases hidle

theorem fires_once_cleanHandover :
    ∃ s, exec loopStep ({} : LoopState everyTen)
        (beforeHandover ++ .lead (some 1) :: afterHandover) = some s ∧
      s.fires.map (fun call => (call.replica, call.occurrence)) =
        [(0, "etl/nightly", some 10), (1, "etl/nightly", some 20)] ∧
      (s.fires.map (FireCall.occurrence everyTen)).Nodup := by
  have hmid : (exec loopStep ({} : LoopState everyTen) beforeHandover).map handoverFacts =
      some ([("etl/nightly", some 20)], [("etl/nightly", some 10)], .asleep, .asleep) := by
    decide +kernel
  have hend : (exec loopStep ({} : LoopState everyTen)
      (beforeHandover ++ .lead (some 1) :: afterHandover)).map (fun s =>
        s.fires.map (fun call => (call.replica, call.occurrence))) =
      some [(0, "etl/nightly", some 10), (1, "etl/nightly", some 20)] := by
    decide +kernel
  obtain ⟨mid, hbefore, hfacts⟩ := Option.map_eq_some_iff.mp hmid
  obtain ⟨s, hrun, hfires⟩ := Option.map_eq_some_iff.mp hend
  refine ⟨s, hrun, hfires, (fires_once hrun).1 ?_⟩
  have honly : Meets loopStep (fun _ event => ∀ r, event.replica = some r → r < 2)
      ({} : LoopState everyTen) beforeHandover :=
    Meets.of_forall_mem (by simp [beforeHandover, pass, LoopEvent.replica]) _
  have hstarting : ∀ r, 2 ≤ r → (mid.replicas r).phase = .starting :=
    exec_invariant (fun s => ∀ r, 2 ≤ r → (s.replicas r).phase = .starting)
      (fun s event t hs hevent hstep r hr => by
        rw [loopStep_frame hstep fun heq => Nat.not_lt.mpr hr (hevent r heq)]
        exact hs r hr)
      (fun _ _ => rfl) honly hbefore
  have hquiet : ∀ (s : LoopState everyTen) events, (∀ event ∈ events, ∀ r,
      event ≠ LoopEvent.lead (some r)) → Meets loopStep HandoverClear s events := by
    intro s events hevents
    refine (Meets.of_forall_mem hevents s).mono fun s event hevent => ?_
    cases event with
    | lead leader =>
      cases leader with
      | none => trivial
      | some r => exact absurd rfl (hevent r)
    | _ => trivial
  have hfirst : HandoverClear ({} : LoopState everyTen) (.lead (some 0)) := by
    refine ⟨fun key t hout => ?_, fun r' hphase => ?_⟩
    · cases hout.1
    · cases hphase
  refine .of_append hbefore ⟨hfirst, fun t _ => hquiet t _ ?_⟩
    ⟨handoverClear_of_facts hfacts hstarting, fun t _ => hquiet t _ ?_⟩
  · simp [pass]
  · simp [afterHandover, pass]

theorem fires_twice_lateHandover :
    ∃ s, exec loopStep ({} : LoopState everyTen) lateHandover = some s ∧
      s.fires.map (FireCall.occurrence everyTen) =
        [("etl/nightly", some 10), ("etl/nightly", some 10)] := by
  have hfires : (exec loopStep ({} : LoopState everyTen) lateHandover).map
      (fun s => s.fires.map (FireCall.occurrence everyTen)) =
      some [("etl/nightly", some 10), ("etl/nightly", some 10)] := by
    decide +kernel
  exact Option.map_eq_some_iff.mp hfires

end Stroem.Scheduler
