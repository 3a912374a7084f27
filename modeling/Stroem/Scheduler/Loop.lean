import Mathlib.Data.List.AList
import Stroem.Scheduler.Fire

/-!
# The scheduler loop

Every replica runs the loop: it loads the triggers of all workspaces, finds the due ones, fires
them if it was the leader when it looked, advances them in either case, and sleeps.  The replicas
read one clock.  Wake-ups are as late, and fires as slow, as the events between the steps say.
-/

namespace Stroem.Scheduler

/-- `"{workspace}/{trigger_name}"` -/
abbrev TriggerKey := String

/-- The libraries `croner` and `chrono_tz`, as the scheduler uses them. -/
structure CronLib where
  Cron : Type
  Tz : Type
  parse : String → Option Cron
  parseTz : String → Option Tz
  Occurs : Cron → Option Tz → Time → Prop
  findNext : Cron → Option Tz → Time → Option Time
  findNext_first : ∀ cron tz start next, findNext cron tz start = some next →
    Occurs cron tz next ∧ start < next ∧ ∀ t, Occurs cron tz t → start < t → next ≤ t

structure SchedulerDef where
  gitRef : Option String := none
  cron : String
  task : String
  input : List (String × Json) := []
  enabled : Bool := true
  concurrency : ConcurrencyPolicy := .allow
  timezone : Option String := none
  forceRefresh : Bool := false

inductive TriggerDef
  | scheduler (trigger : SchedulerDef)
  | other

variable (lib : CronLib)

structure TriggerState where
  cron : lib.Cron
  cronExpr : String
  workspace : String
  task : String
  gitRef : Option String
  input : List (String × Json)
  triggerName : String
  concurrency : ConcurrencyPolicy
  timezone : Option lib.Tz
  timezoneStr : Option String
  forceRefresh : Bool
  definition : SchedulerDef
  lastRun : Option Time
  nextRun : Option Time

abbrev Triggers := AList fun _ : TriggerKey => TriggerState lib

structure WorkspaceView where
  name : String
  triggersEnabled : Bool := true
  config : Option (List (String × TriggerDef))

variable {lib}

def computeNextRun (cron : lib.Cron) (lastRun : Option Time) (now : Time)
    (timezone : Option lib.Tz) : Option Time :=
  let start := match lastRun with
    | some lr => if now < lr then lr else now
    | none => now
  lib.findNext cron timezone start

def advanceStateAfterTick (tstate : TriggerState lib) (now : Time) : TriggerState lib :=
  { tstate with
    lastRun := some now
    nextRun := computeNextRun tstate.cron (some now) now tstate.timezone }

/-! ## Loading -/

def keptRuns (previous : Option (Triggers lib)) (key : TriggerKey) (cronExpr : String)
    (timezoneStr : Option String) : Option Time × Option Time :=
  match previous.bind (·.lookup key) with
  | some old =>
    if old.cronExpr = cronExpr ∧ old.timezoneStr = timezoneStr then (old.lastRun, old.nextRun)
    else (none, none)
  | none => (none, none)

def loadTrigger (previous : Option (Triggers lib)) (wsName : String) (triggers : Triggers lib)
    (entry : String × TriggerDef) : Triggers lib :=
  match entry.2 with
  | .other => triggers
  | .scheduler trigger =>
    if trigger.enabled then
      match lib.parse trigger.cron with
      | none => triggers
      | some cron =>
        let key := wsName ++ "/" ++ entry.1
        let runs := keptRuns previous key trigger.cron trigger.timezone
        triggers.insert key
          { cron, cronExpr := trigger.cron, workspace := wsName, task := trigger.task,
            gitRef := trigger.gitRef, input := trigger.input, triggerName := entry.1,
            concurrency := trigger.concurrency,
            timezone := trigger.timezone.bind lib.parseTz, timezoneStr := trigger.timezone,
            forceRefresh := trigger.forceRefresh, definition := trigger,
            lastRun := runs.1, nextRun := runs.2 }
    else triggers

def retainWorkspace (previous : Option (Triggers lib)) (wsName : String)
    (triggers : Triggers lib) : Triggers lib :=
  match previous with
  | none => triggers
  | some prev =>
    (prev.entries.filter fun entry => entry.2.workspace == wsName).foldl
      (fun triggers entry => triggers.insert entry.1 entry.2) triggers

def loadWorkspace (previous : Option (Triggers lib)) (triggers : Triggers lib)
    (ws : WorkspaceView) : Triggers lib :=
  if ws.triggersEnabled then
    match ws.config with
    | none => retainWorkspace previous ws.name triggers
    | some defs => defs.foldl (loadTrigger previous ws.name) triggers
  else triggers

def loadTriggers (workspaces : List WorkspaceView) (previous : Option (Triggers lib)) :
    Triggers lib :=
  workspaces.foldl (loadWorkspace previous) ∅

/-! ## Ticking -/

def withNextRun (now : Time) (tstate : TriggerState lib) : TriggerState lib :=
  match tstate.nextRun with
  | some _ => tstate
  | none =>
    { tstate with
      nextRun := computeNextRun tstate.cron tstate.lastRun now tstate.timezone }

def mapStates (f : TriggerState lib → TriggerState lib) (triggers : Triggers lib) :
    Triggers lib where
  entries := triggers.entries.map fun entry => ⟨entry.1, f entry.2⟩
  nodupKeys := by
    have hkeys : (triggers.entries.map fun entry => (⟨entry.1, f entry.2⟩ :
        (_ : TriggerKey) × TriggerState lib)).keys = triggers.entries.keys := by
      simp [List.keys, List.map_map, Function.comp_def]
    rw [List.NodupKeys, hkeys]
    exact triggers.nodupKeys

def isDue (now : Time) (tstate : TriggerState lib) : Bool := tstate.nextRun.any (· ≤ now)

def dueKeys (now : Time) (triggers : Triggers lib) : List TriggerKey :=
  (triggers.entries.filter fun entry => isDue now entry.2).map (·.1)

/-! ## The loops -/

inductive LoopPhase
  | starting
  | ready
  | sampled (isLeader : Bool)
  | batch (isLeader : Bool) (toFire : List TriggerKey)
  | firing (key : TriggerKey) (toFire : List TriggerKey)
  | asleep
  deriving DecidableEq

variable (lib)

structure Replica where
  triggers : Triggers lib := ∅
  phase : LoopPhase := .starting
  seen : TriggerKey → Option Time := fun _ => none

structure FireCall where
  replica : Nat
  key : TriggerKey
  trigger : TriggerState lib
  time : Time

def FireCall.occurrence (call : FireCall lib) : TriggerKey × Option Time :=
  (call.key, call.trigger.nextRun)

structure LoopState where
  clock : Time := 0
  leader : Option Nat := none
  replicas : Nat → Replica lib := fun _ => {}
  fires : List (FireCall lib) := []

variable {lib}

inductive LoopEvent
  | clock (now : Time)
  | lead (leader : Option Nat)
  | load (replica : Nat) (workspaces : List WorkspaceView)
  | sample (replica : Nat)
  | tick (replica : Nat) (toFire : List TriggerKey)
  | fire (replica : Nat)
  | advance (replica : Nat)
  | sleep (replica : Nat)

def LoopState.setReplica (s : LoopState lib) (r : Nat) (replica : Replica lib) : LoopState lib :=
  { s with replicas := fun r' => if r' = r then replica else s.replicas r' }

def Replica.load (replica : Replica lib) (previous : Option (Triggers lib)) (now : Time)
    (workspaces : List WorkspaceView) : Replica lib :=
  let triggers := loadTriggers workspaces previous
  { triggers
    phase := .ready
    seen := fun key => replica.seen key <|> (triggers.lookup key).map fun _ => now }

def Replica.advance (replica : Replica lib) (key : TriggerKey) (now : Time)
    (phase : LoopPhase) : Option (Replica lib) :=
  (replica.triggers.lookup key).map fun tstate =>
    { replica with
      triggers := replica.triggers.insert key (advanceStateAfterTick tstate now)
      phase := phase }

def loopStep (s : LoopState lib) : LoopEvent → Option (LoopState lib)
  | .clock now => if s.clock ≤ now then some { s with clock := now } else none
  | .lead leader => some { s with leader := leader }
  | .load r workspaces =>
    let replica := s.replicas r
    match replica.phase with
    | .starting => some (s.setReplica r (replica.load none s.clock workspaces))
    | .asleep =>
      some (s.setReplica r (replica.load (some replica.triggers) s.clock workspaces))
    | _ => none
  | .sample r =>
    let replica := s.replicas r
    match replica.phase with
    | .ready => some (s.setReplica r { replica with phase := .sampled (s.leader = some r) })
    | _ => none
  | .tick r toFire =>
    let replica := s.replicas r
    let triggers := mapStates (withNextRun s.clock) replica.triggers
    match replica.phase with
    | .sampled isLeader =>
      if toFire.Perm (dueKeys s.clock triggers) then
        some (s.setReplica r { replica with triggers, phase := .batch isLeader toFire })
      else none
    | _ => none
  | .fire r =>
    let replica := s.replicas r
    match replica.phase with
    | .batch true (key :: rest) =>
      (replica.triggers.lookup key).map fun tstate =>
        { s.setReplica r { replica with phase := .firing key rest } with
          fires := s.fires ++ [⟨r, key, tstate, s.clock⟩] }
    | _ => none
  | .advance r =>
    let replica := s.replicas r
    match replica.phase with
    | .batch false (key :: rest) =>
      (replica.advance key s.clock (.batch false rest)).map (s.setReplica r)
    | .firing key rest =>
      (replica.advance key s.clock (.batch true rest)).map (s.setReplica r)
    | _ => none
  | .sleep r =>
    let replica := s.replicas r
    match replica.phase with
    | .batch _ [] => some (s.setReplica r { replica with phase := .asleep })
    | _ => none

/-! ## What a step leaves of a trigger -/

theorem computeNextRun_eq_some {cron : lib.Cron} {lastRun : Option Time} {now next : Time}
    {timezone : Option lib.Tz} (h : computeNextRun cron lastRun now timezone = some next) :
    lib.Occurs cron timezone next ∧ now < next := by
  unfold computeNextRun at h
  obtain ⟨hoccurs, hlt, -⟩ := lib.findNext_first _ _ _ _ h
  refine ⟨hoccurs, lt_of_le_of_lt ?_ hlt⟩
  split
  · split
    · next hlater => exact le_of_lt hlater
    · exact le_refl now
  · exact le_refl now

theorem advanceStateAfterTick_nextRun {tstate : TriggerState lib} {now next : Time}
    (h : (advanceStateAfterTick tstate now).nextRun = some next) :
    lib.Occurs tstate.cron tstate.timezone next ∧ now < next := by
  have hnext : computeNextRun tstate.cron (some now) now tstate.timezone = some next := h
  exact computeNextRun_eq_some hnext

private theorem dlookup_map (f : TriggerState lib → TriggerState lib) (key : TriggerKey)
    (entries : List ((_ : TriggerKey) × TriggerState lib)) :
    (entries.map fun entry => (⟨entry.1, f entry.2⟩ :
        (_ : TriggerKey) × TriggerState lib)).dlookup key = (entries.dlookup key).map f := by
  induction entries with
  | nil => rfl
  | cons entry entries ih =>
    obtain ⟨key', tstate⟩ := entry
    by_cases h : key = key'
    · subst h
      rw [List.map_cons, List.dlookup_cons_eq, List.dlookup_cons_eq]
      rfl
    · have hmapped := List.dlookup_cons_ne (entries.map fun entry => (⟨entry.1, f entry.2⟩ :
          (_ : TriggerKey) × TriggerState lib)) ⟨key', f tstate⟩ h
      rw [List.map_cons, hmapped, List.dlookup_cons_ne entries ⟨key', tstate⟩ h, ih]

theorem lookup_mapStates (f : TriggerState lib → TriggerState lib) (key : TriggerKey)
    (triggers : Triggers lib) :
    (mapStates f triggers).lookup key = (triggers.lookup key).map f :=
  dlookup_map f key triggers.entries

theorem isDue_iff {now : Time} {tstate : TriggerState lib} :
    isDue now tstate = true ↔ ∃ t, tstate.nextRun = some t ∧ t ≤ now := by
  simp [isDue, Option.any_eq_true]

variable {triggers : Triggers lib}

theorem mem_dueKeys {now : Time} {key : TriggerKey} :
    key ∈ dueKeys now triggers ↔
      ∃ tstate, triggers.lookup key = some tstate ∧ isDue now tstate = true := by
  simp only [dueKeys, List.mem_map, List.mem_filter]
  constructor
  · rintro ⟨⟨_, tstate⟩, ⟨hmem, hdue⟩, rfl⟩
    exact ⟨tstate, AList.mem_lookup_iff.mpr hmem, hdue⟩
  · rintro ⟨tstate, hlookup, hdue⟩
    exact ⟨⟨key, tstate⟩, ⟨AList.mem_lookup_iff.mp hlookup, hdue⟩, rfl⟩

theorem nodup_dueKeys (now : Time) (triggers : Triggers lib) :
    (dueKeys now triggers).Nodup :=
  List.Nodup.sublist (List.filter_sublist.map _) triggers.nodupKeys

def TriggerState.Parsed (tstate : TriggerState lib) : Prop :=
  lib.parse tstate.cronExpr = some tstate.cron ∧
    tstate.timezone = tstate.timezoneStr.bind lib.parseTz

def Loaded (previous : Option (Triggers lib)) (key : TriggerKey) (tstate : TriggerState lib) :
    Prop :=
  previous.bind (·.lookup key) = some tstate ∨
    tstate.Parsed ∧ (tstate.nextRun = none ∨
      ∃ old, previous.bind (·.lookup key) = some old ∧ old.cronExpr = tstate.cronExpr ∧
        old.timezoneStr = tstate.timezoneStr ∧ old.nextRun = tstate.nextRun)

variable {previous : Option (Triggers lib)}

theorem loadTrigger_loaded {wsName : String} (entry : String × TriggerDef)
    (h : ∀ key tstate, triggers.lookup key = some tstate → Loaded previous key tstate) :
    ∀ key tstate, (loadTrigger previous wsName triggers entry).lookup key = some tstate →
      Loaded previous key tstate := by
  intro key tstate hlookup
  unfold loadTrigger at hlookup
  split at hlookup
  · exact h key tstate hlookup
  · next trigger _ =>
    split at hlookup
    · split at hlookup
      · exact h key tstate hlookup
      · next cron hparse =>
        by_cases hkey : key = wsName ++ "/" ++ entry.1
        · subst hkey
          rw [AList.lookup_insert] at hlookup
          cases hlookup
          refine .inr ⟨⟨hparse, rfl⟩, ?_⟩
          dsimp only
          unfold keptRuns
          split
          · next old hold =>
            split
            · next hsame => exact .inr ⟨old, hold, hsame.1, hsame.2, rfl⟩
            · exact .inl rfl
          · exact .inl rfl
        · rw [AList.lookup_insert_ne hkey] at hlookup
          exact h key tstate hlookup
    · exact h key tstate hlookup

theorem retainWorkspace_loaded {wsName : String}
    (h : ∀ key tstate, triggers.lookup key = some tstate → Loaded previous key tstate) :
    ∀ key tstate, (retainWorkspace previous wsName triggers).lookup key = some tstate →
      Loaded previous key tstate := by
  unfold retainWorkspace
  cases previous with
  | none => exact h
  | some prev =>
    have hall : ∀ entry ∈ prev.entries.filter fun entry => entry.2.workspace == wsName,
        Loaded (some prev) entry.1 entry.2 := fun entry hentry =>
      .inl (AList.mem_lookup_iff.mpr (List.mem_of_mem_filter hentry))
    dsimp only
    generalize prev.entries.filter (fun entry => entry.2.workspace == wsName) = entries at hall
    induction entries generalizing triggers with
    | nil => exact h
    | cons entry entries ih =>
      refine ih (fun key tstate hlookup => ?_)
        fun entry' hentry' => hall entry' (List.mem_cons_of_mem entry hentry')
      by_cases hkey : key = entry.1
      · subst hkey
        rw [AList.lookup_insert] at hlookup
        cases hlookup
        exact hall entry List.mem_cons_self
      · rw [AList.lookup_insert_ne hkey] at hlookup
        exact h key tstate hlookup

theorem loadWorkspace_loaded (ws : WorkspaceView)
    (h : ∀ key tstate, triggers.lookup key = some tstate → Loaded previous key tstate) :
    ∀ key tstate, (loadWorkspace previous triggers ws).lookup key = some tstate →
      Loaded previous key tstate := by
  unfold loadWorkspace
  split
  · split
    · exact retainWorkspace_loaded h
    · next defs hconfig =>
      clear hconfig
      induction defs generalizing triggers with
      | nil => exact h
      | cons entry defs ih => exact ih (loadTrigger_loaded entry h)
  · exact h

theorem loadTriggers_loaded (workspaces : List WorkspaceView) :
    ∀ key tstate, (loadTriggers workspaces previous).lookup key = some tstate →
      Loaded previous key tstate := by
  have hempty : ∀ key tstate, (∅ : Triggers lib).lookup key = some tstate →
      Loaded previous key tstate := fun key tstate hlookup => by
    rw [AList.lookup_empty] at hlookup
    cases hlookup
  unfold loadTriggers
  generalize (∅ : Triggers lib) = triggers at hempty
  induction workspaces generalizing triggers with
  | nil => exact hempty
  | cons ws workspaces ih => exact ih _ (loadWorkspace_loaded ws hempty)

end Stroem.Scheduler
