import Stroem.Foundation.Runs
import Stroem.Scheduler.Fire

/-!
# The concurrency policy over whole runs

A fire under `skip` or `cancel_previous` is done with the jobs of earlier fires when it creates
its own: whatever happens between its statements, none of the jobs that carry the trigger's source
columns is active then (`Sound.passed`).  A retry job carries other source columns, so the policy
holds at a fire exactly when no retry job of an earlier fire's job is active there.
-/

namespace Stroem.Scheduler

open Foundation Hooks JobRepo

def AtCreation (P : State → Fire → Prop) (s : State) : Event → Prop
  | .createJob _ _ => ∀ fire ∈ s.firing, fire.policy ≠ .allow → P s fire
  | .refused => ∀ fire ∈ s.firing, fire.policy = .cancelPrevious → P s fire
  | _ => True

def Alone (s : State) (fire : Fire) : Prop :=
  ∀ job ∈ s.jobs, job.startedBy = some fire.trigger → job.isActive = false

def RetriesSettled (s : State) (fire : Fire) : Prop :=
  ∀ job ∈ s.jobs, job.startedBy = some fire.trigger → job.sourceType = .retry →
    job.isActive = false

structure Sound (s : State) : Prop where
  origin : ∀ job ∈ s.jobs, ∀ trigger, job.startedBy = some trigger →
    job.sourceType = .retry ∨
      job.sourceType = .trigger ∧ job.sourceId = some trigger.sourceId
  passed : ∀ fire ∈ s.firing, fire.policy ≠ .allow → ∀ left, fire.phase = .passed left →
    ∀ job ∈ s.jobs, activeBySource .trigger fire.trigger.sourceId job = true → job.jobId ∈ left

/-! ## Rows -/

structure SameJob (job job' : SourcedJob) : Prop where
  jobId : job'.jobId = job.jobId
  sourceType : job'.sourceType = job.sourceType
  sourceId : job'.sourceId = job.sourceId
  startedBy : job'.startedBy = job.startedBy
  active : job'.isActive = true → job.isActive = true

theorem isActive_eq (job : SourcedJob) :
    job.isActive = JobRepo.isActive { status := job.status } :=
  rfl

theorem SameJob.refl (job : SourcedJob) : SameJob job job :=
  ⟨rfl, rfl, rfl, rfl, id⟩

theorem sameJob_after (job : SourcedJob) (w : JobWrite) : SameJob job (job.after w) := by
  refine ⟨rfl, rfl, rfl, rfl, fun h => ?_⟩
  rw [isActive_eq, isActive_eq_not_isTerminal] at h ⊢
  cases hterminal : job.status.isTerminal with
  | false => rfl
  | true =>
    have hafter := @jobAfter_terminal 0 { status := job.status } w hterminal
    simp [SourcedJob.after, hafter] at h

theorem isActive_after_cancel (job : SourcedJob) : (job.after .cancel).isActive = false :=
  isActive_jobAfter_cancel 0 { status := job.status }

theorem SameJob.activeBySource {job job' : SourcedJob} (h : SameJob job job')
    {sourceType : SourceType} {sourceId : String}
    (hactive : activeBySource sourceType sourceId job' = true) :
    activeBySource sourceType sourceId job = true := by
  simp only [Scheduler.activeBySource, Bool.and_eq_true, beq_iff_eq] at hactive ⊢
  rw [h.sourceType, h.sourceId] at hactive
  exact ⟨hactive.1, h.active hactive.2⟩

/-! ## Steps -/

variable {s t : State}

theorem Sound.of_sameJob (h : Sound s) {jobs : List SourcedJob}
    (hjobs : ∀ job' ∈ jobs, ∃ job ∈ s.jobs, SameJob job job') (retrying : List SourcedJob) :
    Sound { s with jobs := jobs, retrying := retrying } := by
  constructor
  · intro job' hjob' trigger hstarted
    obtain ⟨job, hjob, hsame⟩ := hjobs job' hjob'
    rw [hsame.sourceType, hsame.sourceId]
    exact h.origin job hjob trigger (hsame.startedBy ▸ hstarted)
  · intro fire hfire hpolicy left hphase job' hjob' hactive
    obtain ⟨job, hjob, hsame⟩ := hjobs job' hjob'
    rw [hsame.jobId]
    exact h.passed fire hfire hpolicy left hphase job hjob (hsame.activeBySource hactive)

theorem sameJob_updateJob {id : Uuid} {set : SourcedJob → SourcedJob}
    (hset : ∀ job, SameJob job (set job)) {jobs : List SourcedJob} :
    ∀ job' ∈ updateJob id set jobs, ∃ job ∈ jobs, SameJob job job' := by
  intro job' hjob'
  obtain ⟨job, hjob, hrow⟩ := mem_updateWhere.mp hjob'
  refine ⟨job, hjob, ?_⟩
  split at hrow
  · exact hrow ▸ hset job
  · exact hrow ▸ .refl job

theorem Sound.append (h : Sound s) {job : SourcedJob} (htype : job.sourceType ≠ .trigger)
    (horigin : ∀ trigger, job.startedBy = some trigger → job.sourceType = .retry)
    (retrying : List SourcedJob) :
    Sound { s with jobs := s.jobs ++ [job], retrying := retrying } := by
  constructor
  · intro job' hjob' trigger hstarted
    rcases List.mem_append.mp hjob' with hjob' | hjob'
    · exact h.origin job' hjob' trigger hstarted
    · obtain rfl := List.mem_singleton.mp hjob'
      exact .inl (horigin trigger hstarted)
  · intro fire hfire hpolicy left hphase job' hjob' hactive
    rcases List.mem_append.mp hjob' with hjob' | hjob'
    · exact h.passed fire hfire hpolicy left hphase job' hjob' hactive
    · obtain rfl := List.mem_singleton.mp hjob'
      simp [activeBySource, htype] at hactive

theorem Sound.finish (h : Sound s) {jobs : List SourcedJob}
    (hjobs : ∀ job ∈ jobs, job ∈ s.jobs ∨ ∀ trigger, job.startedBy = some trigger →
      job.sourceType = .trigger ∧ job.sourceId = some trigger.sourceId) :
    Sound { s with jobs := jobs, firing := none } := by
  refine ⟨fun job hjob trigger hstarted => ?_, fun fire hfire => by cases hfire⟩
  rcases hjobs job hjob with hold | hnew
  · exact h.origin job hold trigger hstarted
  · exact .inr (hnew trigger hstarted)

theorem Sound.setFiring (h : Sound s) {fire : Fire}
    (hpassed : fire.policy ≠ .allow → ∀ left, fire.phase = .passed left →
      ∀ job ∈ s.jobs, activeBySource .trigger fire.trigger.sourceId job = true →
        job.jobId ∈ left) :
    Sound { s with firing := some fire } := by
  refine ⟨h.origin, fun fire' hfire' => ?_⟩
  cases hfire'
  exact hpassed

theorem Sound.applyPolicy (h : Sound s) (fire : Fire) (skippedId : Uuid) :
    Sound (applyPolicy s fire skippedId) := by
  unfold Scheduler.applyPolicy
  split
  · split
    · refine h.finish fun job hjob => ?_
      rcases List.mem_append.mp hjob with hold | hnew
      · exact .inl hold
      · obtain rfl := List.mem_singleton.mp hnew
        exact .inr fun trigger hstarted => by simp [skippedJob] at hstarted
    · next hcount =>
      refine h.setFiring fun _ left _ job hjob hactive => ?_
      exact absurd (List.countP_pos_iff.mpr ⟨job, hjob, hactive⟩) hcount
  · refine h.setFiring fun _ left hphase job hjob hactive => ?_
    obtain rfl := Phase.passed.inj hphase
    exact List.mem_map.mpr ⟨job, List.mem_filter.mpr ⟨hjob, hactive⟩, rfl⟩
  · next hallow => exact h.setFiring fun hpolicy => absurd hallow hpolicy

theorem Sound.cancelNext (h : Sound s) {fire : Fire} {id : Uuid} {left : List Uuid}
    (hfire : s.firing = some fire) (hphase : fire.phase = .passed (id :: left)) :
    Sound { s with
      jobs := updateJob id (·.after .cancel) s.jobs
      firing := some { fire with phase := .passed left } } := by
  have hsame : ∀ job' ∈ updateJob id (·.after .cancel) s.jobs, ∃ job ∈ s.jobs, SameJob job job' :=
    sameJob_updateJob fun job => sameJob_after job .cancel
  have hjobs := h.of_sameJob hsame s.retrying
  refine hjobs.setFiring fun hpolicy left' hleft job' hjob' hactive => ?_
  obtain rfl := Phase.passed.inj hleft
  have hmem : job'.jobId ∈ id :: left :=
    hjobs.passed fire hfire hpolicy _ hphase job' hjob' hactive
  refine (List.mem_cons.mp hmem).resolve_left fun hid => ?_
  obtain ⟨job, -, hrow⟩ := mem_updateWhere.mp hjob'
  have hinactive : job'.isActive = false := by
    split at hrow
    · rw [← hrow]
      exact isActive_after_cancel job
    · next hne =>
      rw [hrow] at hne
      exact absurd (beq_iff_eq.mpr hid) hne
  simp [activeBySource, hinactive] at hactive

theorem Sound.step {event : Event} (h : Sound s) (hstep : step s event = some t) : Sound t := by
  cases event with
  | fire trigger policy taskName =>
    simp only [Scheduler.step] at hstep
    split at hstep
    · cases hstep
      exact h.setFiring fun _ left hphase => by simp at hphase
    · cases hstep
  | missed =>
    simp only [Scheduler.step] at hstep
    split at hstep
    · cases hstep
      exact h.finish fun job hjob => .inl hjob
    · cases hstep
  | applyPolicy skippedId =>
    simp only [Scheduler.step] at hstep
    split at hstep
    · split at hstep
      · cases hstep
        exact h.applyPolicy _ skippedId
      · cases hstep
    · cases hstep
  | cancelNext =>
    simp only [Scheduler.step] at hstep
    split at hstep
    · next fire hfire =>
      split at hstep
      · next id left hphase =>
        cases hstep
        exact h.cancelNext hfire hphase
      · cases hstep
    · cases hstep
  | createJob id maxRetries =>
    simp only [Scheduler.step] at hstep
    split at hstep
    · next fire hfire =>
      split at hstep
      · cases hstep
        refine h.finish fun job hjob => ?_
        rcases List.mem_append.mp hjob with hold | hnew
        · exact .inl hold
        · obtain rfl := List.mem_singleton.mp hnew
          refine .inr fun trigger hstarted => ⟨rfl, ?_⟩
          cases hstarted
          rfl
      · cases hstep
    · cases hstep
  | refused =>
    simp only [Scheduler.step] at hstep
    split at hstep
    · split at hstep
      · cases hstep
        exact h.finish fun job hjob => .inl hjob
      · cases hstep
    · cases hstep
  | write id w =>
    simp only [Scheduler.step] at hstep
    cases hstep
    exact h.of_sameJob (sameJob_updateJob fun job => sameJob_after job w) s.retrying
  | claim id =>
    simp only [Scheduler.step] at hstep
    split at hstep
    · split at hstep
      · cases hstep
        have hclaim : ∀ job : SourcedJob, SameJob job { job with claimed := true } :=
          fun job => ⟨rfl, rfl, rfl, rfl, fun hactive => hactive⟩
        exact h.of_sameJob (sameJob_updateJob hclaim) _
      · cases hstep
    · cases hstep
  | retry failed config id =>
    simp only [Scheduler.step] at hstep
    split at hstep
    · cases hstep
      exact h.append (by simp [createdRetryJob, retryJob]) (fun _ _ => rfl) _
    · cases hstep
  | submit job =>
    simp only [Scheduler.step] at hstep
    split at hstep
    · next hguard =>
      cases hstep
      refine h.append hguard.1 (fun trigger hstarted => ?_) s.retrying
      rw [hguard.2.2.1] at hstarted
      cases hstarted
    · cases hstep

theorem sound_init : Sound {} :=
  ⟨fun _ hjob => absurd hjob List.not_mem_nil, fun fire hfire => by cases hfire⟩

/-! ## Runs -/

theorem alone_iff_retriesSettled (h : Sound s) {fire : Fire} (hfire : s.firing = some fire)
    (hpolicy : fire.policy ≠ .allow) (hphase : fire.phase = .passed []) :
    Alone s fire ↔ RetriesSettled s fire := by
  refine ⟨fun halone job hjob hstarted _ => halone job hjob hstarted, fun hretries => ?_⟩
  intro job hjob hstarted
  rcases h.origin job hjob fire.trigger hstarted with hretry | ⟨htype, hsource⟩
  · exact hretries job hjob hstarted hretry
  · cases hactive : job.isActive with
    | false => rfl
    | true =>
      have hleft := h.passed fire hfire hpolicy [] hphase job hjob
        (by simp [activeBySource, htype, hsource, hactive])
      exact absurd hleft List.not_mem_nil

theorem atCreation_iff {event : Event} (h : Sound s) (hstep : step s event = some t) :
    AtCreation Alone s event ↔ AtCreation RetriesSettled s event := by
  cases event with
  | createJob id maxRetries =>
    simp only [step] at hstep
    split at hstep
    · next fire hfire =>
      split at hstep
      · next hguard =>
        simp only [AtCreation, hfire, Option.mem_some_iff, forall_eq']
        exact imp_congr_right fun hpolicy =>
          alone_iff_retriesSettled h hfire hpolicy hguard.1
      · cases hstep
    · cases hstep
  | refused =>
    simp only [step] at hstep
    split at hstep
    · next fire hfire =>
      split at hstep
      · next hphase =>
        simp only [AtCreation, hfire, Option.mem_some_iff, forall_eq']
        refine imp_congr_right fun hpolicy =>
          alone_iff_retriesSettled h hfire ?_ hphase
        rw [hpolicy]
        exact fun hallow => nomatch hallow
      · cases hstep
    · cases hstep
  | _ => exact Iff.rfl

/--
In every run, the fires that create their job under `skip`, and those that pass
`cancel_previous`, find no earlier job or retry active exactly when they find no retry active.
-/
theorem concurrencyPolicy_kept_iff (events : List Event) :
    (∀ before event mid last, before ++ [event] <+: events → exec step {} before = some mid →
        step mid event = some last → AtCreation Alone mid event) ↔
      Meets step (fun s event => (step s event).isSome → AtCreation RetriesSettled s event) {}
        events := by
  rw [← meets_iff_forall_steps (Q := fun s event _ => AtCreation Alone s event)]
  refine Meets.congr Sound (fun s event t hs => hs.step) (fun s event hs => ?_) sound_init
  constructor
  · intro halone henabled
    obtain ⟨t, ht⟩ := Option.isSome_iff_exists.mp henabled
    exact (atCreation_iff hs ht).mp (halone t ht)
  · intro hretries t ht
    exact (atCreation_iff hs ht).mpr (hretries (by simp [ht]))

def retriedRun : List Event :=
  let nightly : Trigger := ⟨"etl", "nightly"⟩
  [.fire nightly .skip "load", .applyPolicy 100, .createJob 1 (some 1),
    .write 1 (.markRunningIfPendingServer), .write 1 (.settle .failed none), .claim 1,
    .retry { jobId := 1, taskName := "load", sourceType := .trigger,
             sourceId := some "etl/nightly", status := .failed, maxRetries := some 1,
             startedBy := some nightly }
      { tasks := [("load", { maxAttempts := some 2 })] } 2,
    .fire nightly .skip "load", .applyPolicy 101]

/-- The second fire passes while the retry job of the first fire's job is pending. -/
theorem fire_besides_retry :
    ∃ mid last, exec step {} retriedRun = some mid ∧ step mid (.createJob 3 none) = some last ∧
      ¬AtCreation Alone mid (.createJob 3 none) := by
  refine ⟨_, _, rfl, rfl, fun halone => ?_⟩
  have hretry := halone _ rfl (by decide) _
    (List.mem_cons_of_mem _ List.mem_cons_self) rfl
  exact absurd hretry (by decide)

end Stroem.Scheduler
