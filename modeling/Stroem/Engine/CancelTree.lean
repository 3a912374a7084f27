import Stroem.Engine.Writes
import Stroem.Foundation.Runs
import Stroem.JobRepo
import Mathlib.Logic.Relation

/-!
# Cancelling a tree of jobs

`settlement::cancel` cancels a job, sweeps its steps, reads the list of its active children once
and calls itself on each of them. Everything else goes on in between, so children are created
behind it.

A call is a stack of frames, one for every job it is inside of.  A child is *covered* when some
frame still comes to it: its parent's children are yet to be read, it is on the list that was
read, or its own cancel is the next thing to run.
-/

namespace Stroem.Engine

open Foundation JobStepRepo JobRepo

structure TreeJob where
  jobId : Uuid
  parentJobId : Option Uuid := none
  job : JobRecord := {}
  rows : List JobStepRow := []
  deriving DecidableEq

inductive CancelFrame where
  | entering (job : Uuid)
  | jobCancelled (job : Uuid)
  | pendingSwept (job : Uuid)
  | stepsSwept (job : Uuid)
  | visiting (job : Uuid) (left : List Uuid)
  deriving DecidableEq

namespace CancelFrame

def job : CancelFrame → Uuid
  | .entering job | .jobCancelled job | .pendingSwept job | .stepsSwept job
  | .visiting job _ => job

def willRead (parent : Uuid) : CancelFrame → Bool
  | .jobCancelled job | .pendingSwept job | .stepsSwept job => job == parent
  | .entering _ | .visiting _ _ => false

def covers (c : TreeJob) : CancelFrame → Bool
  | .entering job => job == c.jobId
  | .jobCancelled job | .pendingSwept job | .stepsSwept job => c.parentJobId == some job
  | .visiting job left => c.parentJobId == some job && left.contains c.jobId

theorem covers_of_willRead {f : CancelFrame} {parent : Uuid} {c : TreeJob}
    (h : f.willRead parent = true) (hc : c.parentJobId = some parent) : f.covers c = true := by
  cases f <;> simp_all [willRead, covers]

end CancelFrame

structure JobTree where
  jobs : List TreeJob := []
  dispatches : List Uuid := []
  calls : List (List CancelFrame) := []
  cancelled : List Uuid := []
  deriving DecidableEq

inductive TreeAction where
  | start (jobId : Uuid) (rows : List JobStepRow)
  | claim (jobId : Uuid) (step : String) (pin : Option TaskPin) (now : Time)
  | toolRequest (jobId : Uuid) (step : String)
  | createChild (parent jobId : Uuid) (rows : List JobStepRow)
  | giveUp (parent : Uuid)
  | write (jobId : Uuid) (now : Time) (write : Write)
  | jobWrite (jobId : Uuid) (now : Time) (write : JobWrite)
  | cancel (jobId : Uuid)
  | callStep (call : Nat) (now : Time)

def onJob (jobs : List TreeJob) (id : Uuid) (f : TreeJob → TreeJob) : List TreeJob :=
  updateWhere (fun t => t.jobId == id) f jobs

def getChildJobs (jobs : List TreeJob) (parent : Uuid) : List Uuid :=
  (jobs.filter fun t => t.parentJobId == some parent && isActive t.job).map TreeJob.jobId

namespace TreeJob

def write (now : Time) (w : Write) (t : TreeJob) : TreeJob :=
  { t with rows := rowsAfter now t.job.status t.rows w }

def sweep (u : Update JobStepRow) (t : TreeJob) : TreeJob :=
  { t with rows := u.run t.rows }

def jobWrite (now : Time) (w : JobWrite) (t : TreeJob) : TreeJob :=
  { t with job := jobAfter now t.job w }

end TreeJob

namespace JobTree

def isJob (s : JobTree) (id : Uuid) : Bool :=
  s.jobs.any fun t => t.jobId == id

def isActiveJob (s : JobTree) (id : Uuid) : Bool :=
  s.jobs.any fun t => t.jobId == id && isActive t.job

def frameStep (s : JobTree) (call : Nat) (now : Time) (rest : List CancelFrame) :
    CancelFrame → JobTree
  | .entering job =>
    if s.isActiveJob job then
      { s with
        jobs := onJob s.jobs job (TreeJob.jobWrite now .cancel)
        cancelled := job :: s.cancelled
        calls := s.calls.set call (.jobCancelled job :: rest) }
    -- not found, or already terminal: the children are not looked at
    else { s with calls := s.calls.set call rest }
  | .jobCancelled job =>
    { s with
      jobs := onJob s.jobs job (TreeJob.sweep (cancelPendingSteps now))
      calls := s.calls.set call (.pendingSwept job :: rest) }
  | .pendingSwept job =>
    { s with
      jobs := onJob s.jobs job (TreeJob.sweep (cancelServerManagedSteps now))
      calls := s.calls.set call (.stepsSwept job :: rest) }
  | .stepsSwept job =>
    { s with calls := s.calls.set call (.visiting job (getChildJobs s.jobs job) :: rest) }
  | .visiting job (child :: left) =>
    { s with calls := s.calls.set call (.entering child :: .visiting job left :: rest) }
  | .visiting _ [] => { s with calls := s.calls.set call rest }

def act (s : JobTree) : TreeAction → Option JobTree
  | .start id rows =>
    if s.isJob id then none
    else some { s with jobs := s.jobs ++ [{ jobId := id, rows := rows }] }
  | .claim id step pin now =>
    -- a dispatcher that loses the claim creates no child
    if s.jobs.any (fun t => t.jobId == id && t.rows.any (claimTaskDispatch step pin now).guard) then
      some { s with
        jobs := onJob s.jobs id (TreeJob.sweep (claimTaskDispatch step pin now))
        dispatches := id :: s.dispatches }
    else none
  | .toolRequest id step =>
    if s.jobs.any (fun t => t.jobId == id && t.rows.any fun r => r.stepName == step) then
      some { s with dispatches := id :: s.dispatches }
    else none
  | .createChild parent id rows =>
    if s.dispatches.contains parent && !s.isJob id then
      some { s with
        jobs := s.jobs ++ [{ jobId := id, parentJobId := some parent, rows := rows }]
        dispatches := s.dispatches.erase parent }
    else none
  | .giveUp parent => some { s with dispatches := s.dispatches.erase parent }
  | .write id now w => some { s with jobs := onJob s.jobs id (TreeJob.write now w) }
  | .jobWrite id now w =>
    -- `JobRepo::cancel` has no caller but `settlement::cancel`
    if w = .cancel then none
    else some { s with jobs := onJob s.jobs id (TreeJob.jobWrite now w) }
  | .cancel id => some { s with calls := s.calls ++ [[.entering id]] }
  | .callStep call now =>
    match s.calls[call]? with
    | some (f :: rest) => some (s.frameStep call now rest f)
    | _ => none

end JobTree

def IsParent (jobs : List TreeJob) (parent child : Uuid) : Prop :=
  ∃ c ∈ jobs, c.jobId = child ∧ c.parentJobId = some parent

def Below (jobs : List TreeJob) (ancestor id : Uuid) : Prop :=
  Relation.ReflTransGen (IsParent jobs) ancestor id

def Orphaned (jobs : List TreeJob) (p c : TreeJob) : Prop :=
  p ∈ jobs ∧ c ∈ jobs ∧ c.parentJobId = some p.jobId ∧
    isActive p.job = false ∧ isActive c.job = true

def Covered (calls : List (List CancelFrame)) (c : TreeJob) : Prop :=
  ∃ frames ∈ calls, ∃ f ∈ frames, f.covers c = true

namespace JobTree

def BelowCancelled (s : JobTree) (id : Uuid) : Prop :=
  ∃ a ∈ s.cancelled, Below s.jobs a id

def FinishedBelow (s : JobTree) (ancestor : Uuid) : Prop :=
  (∀ frames ∈ s.calls, ∀ f ∈ frames, ¬ Below s.jobs ancestor f.job) ∧
    ∀ parent ∈ s.dispatches, ¬ Below s.jobs ancestor parent

end JobTree

open JobTree CancelFrame

/--
Below a cancelled job, a child is created only while its parent is active or the parent's
children are yet to be read, and a job ends only when it has no active child.  A cancel takes a
job only when nothing active sits below a finished job of its tree, unless it is covered.
-/
def InReach (s : JobTree) : TreeAction → Prop
  | .createChild parent _ _ =>
    s.BelowCancelled parent → s.isActiveJob parent = true ∨
      ∃ frames ∈ s.calls, ∃ f ∈ frames, f.willRead parent = true
  | .jobWrite id now w =>
    s.BelowCancelled id → ∀ p ∈ s.jobs, p.jobId = id → isActive p.job = true →
      isActive (jobAfter now p.job w) = false →
      ∀ c ∈ s.jobs, c.parentJobId = some id → isActive c.job = false
  | .callStep call _ =>
    ∀ job rest, s.calls[call]? = some (.entering job :: rest) → s.isActiveJob job = true →
      ∀ p c, Below s.jobs job p.jobId → Orphaned s.jobs p c → Covered s.calls c
  | _ => True

/-! ## Rewriting one job -/

structure Touches (f : TreeJob → TreeJob) : Prop where
  jobId : ∀ t, (f t).jobId = t.jobId
  parentJobId : ∀ t, (f t).parentJobId = t.parentJobId
  active : ∀ t, isActive (f t).job = true → isActive t.job = true

theorem touches_sweep (u : Update JobStepRow) : Touches (TreeJob.sweep u) :=
  ⟨fun _ => rfl, fun _ => rfl, fun _ h => h⟩

theorem touches_write (now : Time) (w : Write) : Touches (TreeJob.write now w) :=
  ⟨fun _ => rfl, fun _ => rfl, fun _ h => h⟩

theorem touches_jobWrite (now : Time) (w : JobWrite) : Touches (TreeJob.jobWrite now w) := by
  refine ⟨fun _ => rfl, fun _ => rfl, fun t h => ?_⟩
  simp only [isActive_eq_not_isTerminal, TreeJob.jobWrite] at h ⊢
  by_contra hterm
  have hterm : t.job.status.isTerminal = true := by simpa using hterm
  rw [jobAfter_terminal now w hterm] at h
  cases h

section OnJob

variable {jobs : List TreeJob} {id : Uuid} {f : TreeJob → TreeJob}

theorem mem_onJob {t' : TreeJob} :
    t' ∈ onJob jobs id f ↔ ∃ t ∈ jobs, (if t.jobId == id then f t else t) = t' :=
  mem_updateWhere

theorem exists_of_mem_onJob (hf : Touches f) {t' : TreeJob} (h : t' ∈ onJob jobs id f) :
    ∃ t ∈ jobs, t'.jobId = t.jobId ∧ t'.parentJobId = t.parentJobId ∧
      (isActive t'.job = true → isActive t.job = true) ∧
      (t' = t ∨ t.jobId = id ∧ t' = f t) := by
  obtain ⟨t, ht, rfl⟩ := mem_onJob.mp h
  refine ⟨t, ht, ?_⟩
  by_cases hid : t.jobId = id
  · simp [hid, hf.jobId, hf.parentJobId]
    exact hf.active t
  · simp [hid]

theorem exists_mem_onJob (hf : Touches f) (id : Uuid) {t : TreeJob} (h : t ∈ jobs) :
    ∃ t' ∈ onJob jobs id f, t'.jobId = t.jobId ∧ t'.parentJobId = t.parentJobId := by
  refine ⟨_, mem_onJob.mpr ⟨t, h, rfl⟩, ?_⟩
  split
  · exact ⟨hf.jobId t, hf.parentJobId t⟩
  · exact ⟨rfl, rfl⟩

theorem isParent_onJob (hf : Touches f) : IsParent (onJob jobs id f) = IsParent jobs := by
  funext a b
  refine propext ⟨?_, ?_⟩
  · rintro ⟨c', hc', rfl, hparent⟩
    obtain ⟨c, hc, hid, hp, -⟩ := exists_of_mem_onJob hf hc'
    exact ⟨c, hc, hid.symm, hp ▸ hparent⟩
  · rintro ⟨c, hc, rfl, hparent⟩
    obtain ⟨c', hc', hid, hp⟩ := exists_mem_onJob hf id hc
    exact ⟨c', hc', hid, hp ▸ hparent⟩

theorem below_onJob (hf : Touches f) : Below (onJob jobs id f) = Below jobs := by
  unfold Below
  rw [isParent_onJob hf]

theorem isJob_onJob (hf : Touches f) (s : JobTree) (id id' : Uuid) :
    ({ s with jobs := onJob s.jobs id f } : JobTree).isJob id' = s.isJob id' := by
  rw [Bool.eq_iff_iff]
  simp only [isJob, List.any_eq_true, beq_iff_eq]
  constructor
  · rintro ⟨t', ht', rfl⟩
    obtain ⟨t, ht, hid, -⟩ := exists_of_mem_onJob hf ht'
    exact ⟨t, ht, hid.symm⟩
  · rintro ⟨t, ht, rfl⟩
    obtain ⟨t', ht', hid, -⟩ := exists_mem_onJob hf id ht
    exact ⟨t', ht', hid⟩

theorem orphaned_onJob (hf : Touches f) {p' c' : TreeJob}
    (h : Orphaned (onJob jobs id f) p' c') :
    ∃ p c, p'.jobId = p.jobId ∧ c'.jobId = c.jobId ∧ c'.parentJobId = c.parentJobId ∧
      (Orphaned jobs p c ∨ p ∈ jobs ∧ c ∈ jobs ∧ c.parentJobId = some id ∧ p.jobId = id ∧
        isActive p.job = true ∧ isActive (f p).job = false ∧ isActive c.job = true) := by
  obtain ⟨hp', hc', hparent, hended, hactive⟩ := h
  obtain ⟨p, hp, hpid, -, -, hpf⟩ := exists_of_mem_onJob hf hp'
  obtain ⟨c, hc, hcid, hcp, hca, -⟩ := exists_of_mem_onJob hf hc'
  refine ⟨p, c, hpid, hcid, hcp, ?_⟩
  rw [hcp, hpid] at hparent
  cases hact : isActive p.job with
  | false => exact .inl ⟨hp, hc, hparent, hact, hca hactive⟩
  | true =>
    rcases hpf with rfl | ⟨hid, rfl⟩
    · rw [hact] at hended
      cases hended
    · exact .inr ⟨hp, hc, hid ▸ hparent, hid, rfl, hended, hca hactive⟩

end OnJob

/-! ## Adding a job -/

section Append

variable {jobs : List TreeJob} {new : TreeJob}

theorem isParent_append {a b : Uuid} :
    IsParent (jobs ++ [new]) a b ↔
      IsParent jobs a b ∨ new.jobId = b ∧ new.parentJobId = some a := by
  simp only [IsParent, List.mem_append, List.mem_singleton]
  constructor
  · rintro ⟨c, hc | rfl, hid, hp⟩
    · exact .inl ⟨c, hc, hid, hp⟩
    · exact .inr ⟨hid, hp⟩
  · rintro (⟨c, hc, hid, hp⟩ | ⟨hid, hp⟩)
    · exact ⟨c, .inl hc, hid, hp⟩
    · exact ⟨new, .inr rfl, hid, hp⟩

theorem below_append (hparents : ∀ c ∈ jobs, c.parentJobId ≠ some new.jobId) {a b : Uuid}
    (h : Below (jobs ++ [new]) a b) (hb : b ≠ new.jobId) : Below jobs a b := by
  induction h with
  | refl => exact .refl
  | tail _ hstep ih =>
    rcases isParent_append.mp hstep with ⟨c, hc, hid, hp⟩ | ⟨hid, -⟩
    · refine (ih fun heq => hparents c hc ?_).tail ⟨c, hc, hid, hp⟩
      rw [hp, heq]
    · exact absurd hid.symm hb

end Append

/-! ## The invariant -/

structure JobTree.Formed (s : JobTree) : Prop where
  keyed : Keyed TreeJob.jobId s.jobs
  parents : ∀ c ∈ s.jobs, ∀ p, c.parentJobId = some p → s.isJob p = true
  dispatched : ∀ p ∈ s.dispatches, s.isJob p = true
  cancelled : ∀ a ∈ s.cancelled, s.isJob a = true
  ended : ∀ a ∈ s.cancelled, ∀ t ∈ s.jobs, t.jobId = a → isActive t.job = false

def JobTree.Coverage (s : JobTree) : Prop :=
  ∀ p c, s.BelowCancelled p.jobId → Orphaned s.jobs p c → Covered s.calls c

variable {s : JobTree}

theorem JobTree.isJob_eq_true {id : Uuid} : s.isJob id = true ↔ ∃ t ∈ s.jobs, t.jobId = id := by
  simp [isJob]

theorem JobTree.isActiveJob_eq_true {id : Uuid} :
    s.isActiveJob id = true ↔ ∃ t ∈ s.jobs, t.jobId = id ∧ isActive t.job = true := by
  simp [isActiveJob]

theorem JobTree.Formed.onJob (hs : s.Formed) {f : TreeJob → TreeJob} (hf : Touches f) (id : Uuid) :
    ({ s with jobs := onJob s.jobs id f } : JobTree).Formed where
  keyed := hs.keyed.updateWhere hf.jobId
  parents c' hc' p hp := by
    obtain ⟨c, hc, -, hparent, -⟩ := exists_of_mem_onJob hf hc'
    rw [isJob_onJob hf]
    exact hs.parents c hc p (hparent ▸ hp)
  dispatched p hp := by
    rw [isJob_onJob hf]
    exact hs.dispatched p hp
  cancelled a ha := by
    rw [isJob_onJob hf]
    exact hs.cancelled a ha
  ended a ha t' ht' hid := by
    obtain ⟨t, ht, hid', -, hact, -⟩ := exists_of_mem_onJob hf ht'
    rw [hid'] at hid
    have hended := hs.ended a ha t ht hid
    cases hact' : isActive t'.job with
    | false => rfl
    | true =>
      rw [hact hact'] at hended
      cases hended

theorem JobTree.Formed.append (hs : s.Formed) {new : TreeJob} (hnew : s.isJob new.jobId = false)
    (hparent : ∀ p, new.parentJobId = some p → s.isJob p = true) :
    ({ s with jobs := s.jobs ++ [new] } : JobTree).Formed := by
  have hmono : ∀ id, s.isJob id = true →
      ({ s with jobs := s.jobs ++ [new] } : JobTree).isJob id = true := by
    intro id hid
    obtain ⟨t, ht, rfl⟩ := isJob_eq_true.mp hid
    exact isJob_eq_true.mpr ⟨t, List.mem_append_left _ ht, rfl⟩
  have hfresh : ∀ t ∈ s.jobs, t.jobId ≠ new.jobId := by
    intro t ht heq
    rw [isJob_eq_true.mpr ⟨t, ht, heq⟩] at hnew
    cases hnew
  refine ⟨?_, ?_, fun p hp => hmono p (hs.dispatched p hp),
    fun a ha => hmono a (hs.cancelled a ha), ?_⟩
  · refine hs.keyed.append (by simp [Keyed]) ?_
    simpa using hfresh
  · intro c hc p hp
    rcases List.mem_append.mp hc with hc | hc
    · exact hmono p (hs.parents c hc p hp)
    · rw [List.mem_singleton] at hc
      exact hmono p (hparent p (hc ▸ hp))
  · intro a ha t ht hid
    rcases List.mem_append.mp ht with ht | ht
    · exact hs.ended a ha t ht hid
    · rw [List.mem_singleton] at ht
      subst ht hid
      rw [hs.cancelled _ ha] at hnew
      cases hnew

theorem JobTree.Formed.of_calls (hs : s.Formed) (calls : List (List CancelFrame)) :
    ({ s with calls := calls } : JobTree).Formed :=
  ⟨hs.keyed, hs.parents, hs.dispatched, hs.cancelled, hs.ended⟩

theorem JobTree.Formed.of_dispatches (hs : s.Formed) {dispatches : List Uuid}
    (h : ∀ p ∈ dispatches, s.isJob p = true) :
    ({ s with dispatches := dispatches } : JobTree).Formed :=
  ⟨hs.keyed, hs.parents, h, hs.cancelled, hs.ended⟩

theorem JobTree.Formed.cancelJob (hs : s.Formed) {id : Uuid} (now : Time)
    (hactive : s.isActiveJob id = true) :
    ({ s with
      jobs := Stroem.Engine.onJob s.jobs id (TreeJob.jobWrite now .cancel)
      cancelled := id :: s.cancelled } : JobTree).Formed := by
  have hs' := hs.onJob (touches_jobWrite now .cancel) id
  obtain ⟨t, ht, hid, -⟩ := isActiveJob_eq_true.mp hactive
  refine ⟨hs'.keyed, hs'.parents, hs'.dispatched, ?_, ?_⟩
  · intro a ha
    rcases List.mem_cons.mp ha with rfl | ha
    · have hjob : s.isJob a = true := isJob_eq_true.mpr ⟨t, ht, hid⟩
      rwa [← isJob_onJob (touches_jobWrite now .cancel) s a a] at hjob
    · exact hs'.cancelled a ha
  · intro a ha t' ht' hid'
    rcases List.mem_cons.mp ha with rfl | ha
    · obtain ⟨t, -, rfl⟩ := mem_onJob.mp ht'
      split at hid' <;> rename_i htid
      · rw [if_pos htid]
        exact isActive_jobAfter_cancel now t.job
      · simp [hid'] at htid
    · exact hs'.ended a ha t' ht' hid'

theorem formed_frameStep (hs : s.Formed) (call : Nat) (now : Time) (rest : List CancelFrame)
    (f : CancelFrame) : (s.frameStep call now rest f).Formed := by
  cases f with
  | entering job =>
    simp only [frameStep]
    split
    case isTrue hactive => exact (hs.cancelJob now hactive).of_calls _
    case isFalse => exact hs.of_calls _
  | jobCancelled job | pendingSwept job => exact (hs.onJob (touches_sweep _) job).of_calls _
  | stepsSwept job => exact hs.of_calls _
  | visiting job left =>
    cases left with
    | nil => exact hs.of_calls _
    | cons child left => exact hs.of_calls _

theorem formed_act {t : JobTree} {a : TreeAction} (hs : s.Formed) (h : s.act a = some t) :
    t.Formed := by
  cases a with
  | start id rows =>
    simp only [act] at h
    split at h
    · cases h
    case isFalse hnew =>
      cases h
      exact hs.append (by simpa using hnew) (fun p hp => by cases hp)
  | claim id step pin now =>
    simp only [act] at h
    split at h
    case isTrue hclaim =>
      cases h
      obtain ⟨t, ht, hid⟩ := List.any_eq_true.mp hclaim
      have hid : t.jobId = id := by simp_all
      have hs' := hs.onJob (touches_sweep (claimTaskDispatch step pin now)) id
      refine hs'.of_dispatches ?_
      intro p hp
      rcases List.mem_cons.mp hp with rfl | hp
      · rw [isJob_onJob (touches_sweep _)]
        exact isJob_eq_true.mpr ⟨t, ht, hid⟩
      · exact hs'.dispatched p hp
    · cases h
  | toolRequest id step =>
    simp only [act] at h
    split at h
    case isTrue hstep =>
      cases h
      obtain ⟨t, ht, hid⟩ := List.any_eq_true.mp hstep
      have hid : t.jobId = id := by simp_all
      refine hs.of_dispatches ?_
      intro p hp
      rcases List.mem_cons.mp hp with rfl | hp
      · exact isJob_eq_true.mpr ⟨t, ht, hid⟩
      · exact hs.dispatched p hp
    · cases h
  | createChild parent id rows =>
    simp only [act] at h
    split at h
    case isTrue hcreate =>
      cases h
      simp only [Bool.and_eq_true, List.contains_iff_mem, Bool.not_eq_true'] at hcreate
      let new : TreeJob := { jobId := id, parentJobId := some parent, rows := rows }
      have hs' : ({ s with jobs := s.jobs ++ [new] } : JobTree).Formed :=
        hs.append hcreate.2 fun p hp => Option.some.inj hp ▸ hs.dispatched parent hcreate.1
      exact hs'.of_dispatches fun p hp => hs'.dispatched p (List.mem_of_mem_erase hp)
    · cases h
  | giveUp parent =>
    cases h
    exact hs.of_dispatches fun p hp => hs.dispatched p (List.mem_of_mem_erase hp)
  | write id now w =>
    cases h
    exact hs.onJob (touches_write now w) id
  | jobWrite id now w =>
    simp only [act] at h
    split at h
    · cases h
    · cases h
      exact hs.onJob (touches_jobWrite now w) id
  | cancel id =>
    cases h
    exact hs.of_calls _
  | callStep call now =>
    simp only [act] at h
    split at h
    · cases h
      exact formed_frameStep hs call now _ _
    · cases h

/-! ## Coverage -/

theorem covers_congr {c c' : TreeJob} (hid : c'.jobId = c.jobId)
    (hparent : c'.parentJobId = c.parentJobId) (f : CancelFrame) : f.covers c' = f.covers c := by
  cases f <;> simp [covers, hid, hparent]

variable {calls : List (List CancelFrame)}

theorem Covered.congr {c c' : TreeJob} (h : Covered calls c) (hid : c'.jobId = c.jobId)
    (hparent : c'.parentJobId = c.parentJobId) : Covered calls c' := by
  obtain ⟨frames, hframes, f, hf, hcovers⟩ := h
  exact ⟨frames, hframes, f, hf, (covers_congr hid hparent f).trans hcovers⟩

theorem Covered.set {call : Nat} {f : CancelFrame} {rest new : List CancelFrame} {c : TreeJob}
    (h : Covered calls c) (hcall : calls[call]? = some (f :: rest)) (hrest : ∀ g ∈ rest, g ∈ new)
    (hnew : f.covers c = true → ∃ g ∈ new, g.covers c = true) :
    Covered (calls.set call new) c := by
  obtain ⟨frames, hframes, g, hg, hcovers⟩ := h
  obtain ⟨k, hk⟩ := List.getElem?_of_mem hframes
  have hlt : call < calls.length := (List.getElem?_eq_some_iff.mp hcall).1
  by_cases hkc : k = call
  · have hmem : new ∈ calls.set call new := List.mem_set hlt _
    obtain rfl : frames = f :: rest := by
      rw [hkc, hcall] at hk
      exact (Option.some.inj hk).symm
    rcases List.mem_cons.mp hg with rfl | hg
    · obtain ⟨g', hg', hcovers'⟩ := hnew hcovers
      exact ⟨new, hmem, g', hg', hcovers'⟩
    · exact ⟨new, hmem, g, hrest g hg, hcovers⟩
  · refine ⟨frames, ?_, g, hg, hcovers⟩
    refine List.mem_of_getElem? (i := k) ?_
    rwa [List.getElem?_set_ne (Ne.symm hkc)]

theorem JobTree.Coverage.onJob (hc : s.Coverage) {f : TreeJob → TreeJob} (hf : Touches f)
    (id : Uuid)
    (hends : s.BelowCancelled id → ∀ p ∈ s.jobs, p.jobId = id → isActive p.job = true →
      isActive (f p).job = false → ∀ c ∈ s.jobs, c.parentJobId = some id → isActive c.job = false) :
    ({ s with jobs := onJob s.jobs id f } : JobTree).Coverage := by
  intro p' c' hbelow horphan
  obtain ⟨p, c, hpid, hcid, hcp, hcase⟩ := orphaned_onJob hf horphan
  simp only [BelowCancelled, below_onJob hf, hpid] at hbelow
  rcases hcase with hold | ⟨hp, hmem, hparent, hid, hactive, hended, hchild⟩
  · exact (hc p c hbelow hold).congr hcid hcp
  · rw [hid] at hbelow
    rw [hends hbelow p hp hid hactive hended c hmem hparent] at hchild
    cases hchild

theorem JobTree.Coverage.onRows (hc : s.Coverage) {f : TreeJob → TreeJob} (hf : Touches f)
    (hjob : ∀ t, (f t).job = t.job) (id : Uuid) :
    ({ s with jobs := Stroem.Engine.onJob s.jobs id f } : JobTree).Coverage := by
  refine hc.onJob hf id fun _ p _ _ hactive hended => ?_
  rw [hjob, hactive] at hended
  cases hended

theorem JobTree.Coverage.append (hs : s.Formed) (hc : s.Coverage) {new : TreeJob}
    (hnew : s.isJob new.jobId = false)
    (hparent : ∀ p, new.parentJobId = some p → s.isJob p = true)
    (hcovered : ∀ p ∈ s.jobs, new.parentJobId = some p.jobId → s.BelowCancelled p.jobId →
      isActive p.job = false → Covered s.calls new) :
    ({ s with jobs := s.jobs ++ [new] } : JobTree).Coverage := by
  have hnone : ∀ id, s.isJob id = true → id ≠ new.jobId := by
    rintro id hid rfl
    rw [hnew] at hid
    cases hid
  have hchildless : ∀ c ∈ s.jobs, c.parentJobId ≠ some new.jobId :=
    fun c hc hp => hnone _ (hs.parents c hc _ hp) rfl
  rintro p c ⟨a, ha, hbelow⟩ ⟨hp, hmem, hcp, hended, hactive⟩
  rcases List.mem_append.mp hp with hp' | hp'
  · have hbelow' := below_append hchildless hbelow (hnone _ (isJob_eq_true.mpr ⟨p, hp', rfl⟩))
    rcases List.mem_append.mp hmem with hmem' | hmem'
    · exact hc p c ⟨a, ha, hbelow'⟩ ⟨hp', hmem', hcp, hended, hactive⟩
    · rw [List.mem_singleton] at hmem'
      subst hmem'
      exact hcovered p hp' hcp ⟨a, ha, hbelow'⟩ hended
  · rw [List.mem_singleton] at hp'
    subst hp'
    rcases List.mem_append.mp hmem with hmem' | hmem'
    · exact absurd hcp (hchildless c hmem')
    · rw [List.mem_singleton] at hmem'
      exact absurd rfl (hnone _ (hparent _ (hmem' ▸ hcp)))

theorem JobTree.Coverage.of_calls (hc : s.Coverage)
    (h : ∀ p c, Orphaned s.jobs p c → Covered s.calls c → Covered calls c) :
    ({ s with calls := calls } : JobTree).Coverage :=
  fun p c hbelow horphan => h p c horphan (hc p c hbelow horphan)

theorem JobTree.Coverage.cancelJob (hs : s.Formed) (hc : s.Coverage) {call : Nat} {job : Uuid}
    {rest : List CancelFrame} (now : Time)
    (hcall : s.calls[call]? = some (.entering job :: rest)) (hactive : s.isActiveJob job = true)
    (hreach : ∀ p c, Below s.jobs job p.jobId → Orphaned s.jobs p c → Covered s.calls c) :
    ({ s with
      jobs := Stroem.Engine.onJob s.jobs job (TreeJob.jobWrite now .cancel)
      cancelled := job :: s.cancelled
      calls := s.calls.set call (.jobCancelled job :: rest) } : JobTree).Coverage := by
  intro p' c' hbelow horphan
  have hf := touches_jobWrite now .cancel
  obtain ⟨p, c, hpid, hcid, hcp, hcase⟩ := orphaned_onJob hf horphan
  simp only [BelowCancelled, below_onJob hf, hpid] at hbelow
  have hlt : call < s.calls.length := (List.getElem?_eq_some_iff.mp hcall).1
  rcases hcase with hold | ⟨-, -, hparent, -⟩
  · have hcovered : Covered s.calls c := by
      obtain ⟨a, ha, hbelow⟩ := hbelow
      rcases List.mem_cons.mp ha with rfl | ha
      · exact hreach p c hbelow hold
      · exact hc p c ⟨a, ha, hbelow⟩ hold
    refine (hcovered.set hcall (fun g hg => List.mem_cons_of_mem _ hg) ?_).congr hcid hcp
    -- the job that is entered is not active any more, so it is not the orphan
    intro hcovers
    simp only [covers, beq_iff_eq] at hcovers
    have hended := (hs.cancelJob now hactive).ended job List.mem_cons_self c' horphan.2.1
      (hcid.trans hcovers.symm)
    rw [horphan.2.2.2.2] at hended
    cases hended
  · refine ⟨_, List.mem_set hlt _, .jobCancelled job, List.mem_cons_self, ?_⟩
    simp [covers, hcp, hparent]

theorem coverage_frameStep (hs : s.Formed) (hc : s.Coverage) {call : Nat} (now : Time)
    {rest : List CancelFrame} {f : CancelFrame} (hcall : s.calls[call]? = some (f :: rest))
    (hreach : ∀ job, f = .entering job → s.isActiveJob job = true →
      ∀ p c, Below s.jobs job p.jobId → Orphaned s.jobs p c → Covered s.calls c) :
    (s.frameStep call now rest f).Coverage := by
  cases f with
  | entering job =>
    simp only [frameStep]
    split
    case isTrue hactive => exact hc.cancelJob hs now hcall hactive (hreach job rfl hactive)
    case isFalse hactive =>
      refine hc.of_calls fun p c horphan h => h.set hcall (fun g hg => hg) fun hcovers => ?_
      -- the call passes by a job that is not active, which the orphan is
      simp only [covers, beq_iff_eq] at hcovers
      exact absurd (isActiveJob_eq_true.mpr ⟨c, horphan.2.1, hcovers.symm, horphan.2.2.2.2⟩)
        hactive
  | jobCancelled job =>
    refine (hc.onRows (touches_sweep _) (fun _ => rfl) job).of_calls fun p c _ h => ?_
    exact h.set hcall (fun g hg => List.mem_cons_of_mem _ hg)
      fun hcovers => ⟨.pendingSwept job, List.mem_cons_self, hcovers⟩
  | pendingSwept job =>
    refine (hc.onRows (touches_sweep _) (fun _ => rfl) job).of_calls fun p c _ h => ?_
    exact h.set hcall (fun g hg => List.mem_cons_of_mem _ hg)
      fun hcovers => ⟨.stepsSwept job, List.mem_cons_self, hcovers⟩
  | stepsSwept job =>
    refine hc.of_calls fun p c horphan h => ?_
    refine h.set hcall (fun g hg => List.mem_cons_of_mem _ hg) fun hcovers => ?_
    refine ⟨.visiting job (getChildJobs s.jobs job), List.mem_cons_self, ?_⟩
    simp only [covers, beq_iff_eq] at hcovers
    simp only [covers, hcovers, beq_self_eq_true, Bool.true_and, List.contains_iff_mem,
      getChildJobs]
    refine List.mem_map_of_mem (List.mem_filter.mpr ⟨horphan.2.1, ?_⟩)
    simp [hcovers, horphan.2.2.2.2]
  | visiting job left =>
    cases left with
    | nil =>
      refine hc.of_calls fun p c horphan h => ?_
      exact h.set hcall (fun g hg => hg) fun hcovers => by simp [covers] at hcovers
    | cons child left =>
      refine hc.of_calls fun p c horphan h => ?_
      refine h.set hcall (fun g hg => List.mem_cons_of_mem _ (List.mem_cons_of_mem _ hg))
        fun hcovers => ?_
      simp only [covers, Bool.and_eq_true, beq_iff_eq, List.contains_cons, Bool.or_eq_true]
        at hcovers
      obtain ⟨hparent, heq | hleft⟩ := hcovers
      · exact ⟨.entering child, List.mem_cons_self, by simp [covers, heq]⟩
      · refine ⟨.visiting job left, List.mem_cons_of_mem _ List.mem_cons_self, ?_⟩
        simp [covers, hparent] at hleft ⊢
        exact hleft

theorem coverage_act {t : JobTree} {a : TreeAction} (hs : s.Formed) (hc : s.Coverage)
    (hok : InReach s a) (h : s.act a = some t) : t.Coverage := by
  cases a with
  | start id rows =>
    simp only [act] at h
    split at h
    · cases h
    case isFalse hnew =>
      cases h
      exact hc.append hs (by simpa using hnew) (fun p hp => by cases hp)
        (fun p _ hp => by cases hp)
  | claim id step pin now =>
    simp only [act] at h
    split at h
    · cases h
      exact hc.onRows (touches_sweep _) (fun _ => rfl) id
    · cases h
  | toolRequest id step =>
    simp only [act] at h
    split at h
    · cases h
      exact hc
    · cases h
  | createChild parent id rows =>
    simp only [act] at h
    split at h
    case isTrue hcreate =>
      cases h
      simp only [Bool.and_eq_true, List.contains_iff_mem, Bool.not_eq_true'] at hcreate
      let new : TreeJob := { jobId := id, parentJobId := some parent, rows := rows }
      have hc' : ({ s with jobs := s.jobs ++ [new] } : JobTree).Coverage := by
        refine hc.append hs hcreate.2
          (fun p hp => Option.some.inj hp ▸ hs.dispatched parent hcreate.1) ?_
        intro p hp hparent hbelow hended
        obtain rfl : parent = p.jobId := Option.some.inj hparent
        rcases hok hbelow with hactive | ⟨frames, hframes, f, hf, hread⟩
        · obtain ⟨p', hp', hid, hactive⟩ := isActiveJob_eq_true.mp hactive
          rw [hs.keyed.eq_of_key hp' hp hid, hended] at hactive
          cases hactive
        · exact ⟨frames, hframes, f, hf, covers_of_willRead hread hparent⟩
      exact hc'
    · cases h
  | giveUp parent =>
    cases h
    exact hc
  | write id now w =>
    cases h
    exact hc.onRows (touches_write now w) (fun _ => rfl) id
  | jobWrite id now w =>
    simp only [act] at h
    split at h
    · cases h
    · cases h
      exact hc.onJob (touches_jobWrite now w) id hok
  | cancel id =>
    cases h
    refine hc.of_calls fun p c _ h => ?_
    obtain ⟨frames, hframes, hcovers⟩ := h
    exact ⟨frames, List.mem_append_left _ hframes, hcovers⟩
  | callStep call now =>
    simp only [act] at h
    split at h
    case h_1 f rest hcall =>
      cases h
      refine coverage_frameStep hs hc now hcall ?_
      rintro job rfl hactive
      exact hok job rest hcall hactive
    · cases h

theorem exec_covered {run : List TreeAction} (hok : Meets act InReach {} run)
    (hrun : exec act {} run = some s) : s.Formed ∧ s.Coverage := by
  have hinit : ({} : JobTree).Formed ∧ ({} : JobTree).Coverage :=
    ⟨⟨List.nodup_nil, by simp, by simp, by simp, by simp⟩,
      fun p c h => by simp [BelowCancelled] at h⟩
  refine exec_invariant (fun s => s.Formed ∧ s.Coverage) ?_ hinit hok hrun
  rintro s a t ⟨hs, hc⟩ hok h
  exact ⟨formed_act hs h, coverage_act hs hc hok h⟩

/-! ## Descendants of a cancelled job -/

theorem exists_orphan (hs : s.Formed) {a : Uuid} (ha : a ∈ s.cancelled) {id : Uuid}
    (hbelow : Below s.jobs a id) {d : TreeJob} (hd : d ∈ s.jobs) (hid : d.jobId = id)
    (hactive : isActive d.job = true) :
    ∃ p c, Below s.jobs a p.jobId ∧ Below s.jobs a c.jobId ∧ Orphaned s.jobs p c := by
  induction hbelow generalizing d with
  | refl =>
    rw [hs.ended a ha d hd hid] at hactive
    cases hactive
  | @tail b _ hab hstep ih =>
    obtain ⟨c, hc, rfl, hparent⟩ := hstep
    obtain rfl : d = c := hs.keyed.eq_of_key hd hc hid
    obtain ⟨p, hp, rfl⟩ := isJob_eq_true.mp (hs.parents d hd b hparent)
    cases hp' : isActive p.job with
    | true => exact ih hp rfl hp'
    | false =>
      exact ⟨p, d, hab, hab.tail ⟨d, hd, rfl, hparent⟩, hp, hd, hparent, hp', hactive⟩

theorem below_of_covers {jobs : List TreeJob} {a : Uuid} {p c : TreeJob} {f : CancelFrame}
    (hp : Below jobs a p.jobId) (hc : Below jobs a c.jobId) (hparent : c.parentJobId = some p.jobId)
    (h : f.covers c = true) : Below jobs a f.job := by
  cases f <;> simp_all [covers, CancelFrame.job]

/--
In a run all of whose steps are in reach, once the cancels and the dispatches below a cancelled
job have returned, neither it nor any descendant is pending or running.
-/
theorem cancel_reaches_descendants {run : List TreeAction} {s : JobTree}
    (hok : Meets act InReach {} run) (hrun : exec act {} run = some s) {a : Uuid}
    (ha : a ∈ s.cancelled) (hdone : s.FinishedBelow a) :
    ∀ d ∈ s.jobs, Below s.jobs a d.jobId → isActive d.job = false := by
  obtain ⟨hs, hc⟩ := exec_covered hok hrun
  intro d hd hbelow
  by_contra hactive
  have hactive : isActive d.job = true := by simpa using hactive
  obtain ⟨p, c, hap, hac, horphan⟩ := exists_orphan hs ha hbelow hd rfl hactive
  obtain ⟨frames, hframes, f, hf, hcovers⟩ := hc p c ⟨a, ha, hap⟩ horphan
  exact hdone.1 frames hframes f hf (below_of_covers hap hac horphan.2.2.1 hcovers)

def Orderly (s : JobTree) : TreeAction → Prop
  | .createChild parent _ _ =>
    s.isActiveJob parent = true ∨ ∃ frames ∈ s.calls, ∃ f ∈ frames, f.willRead parent = true
  | .jobWrite id _ _ => ∀ c ∈ s.jobs, c.parentJobId = some id → isActive c.job = false
  | .callStep _ _ =>
    ∀ p ∈ s.jobs, ∀ c ∈ s.jobs, c.parentJobId = some p.jobId → isActive p.job = false →
      isActive c.job = true → ∃ frames ∈ s.calls, ∃ f ∈ frames, f.covers c = true
  | _ => True

instance (s : JobTree) : (a : TreeAction) → Decidable (Orderly s a)
  | .createChild _ _ _ => inferInstanceAs (Decidable (_ ∨ _))
  | .jobWrite _ _ _ => inferInstanceAs (Decidable (∀ _ ∈ s.jobs, _))
  | .callStep _ _ => inferInstanceAs (Decidable (∀ _ ∈ s.jobs, _))
  | .start _ _ | .claim _ _ _ _ | .toolRequest _ _ | .giveUp _ | .write _ _ _ | .cancel _ =>
    .isTrue trivial

theorem Orderly.inReach {a : TreeAction} (h : Orderly s a) : InReach s a := by
  cases a with
  | createChild parent id rows => exact fun _ => h
  | jobWrite id now w => exact fun _ _ _ _ _ _ => h
  | callStep call now =>
    rintro job rest - - p c - ⟨hp, hc, hparent, hended, hactive⟩
    exact h p hp c hc hparent hended hactive
  | _ => trivial

def taskCall : JobStepRow :=
  { stepName := "call", actionType := .task, status := .ready }

def childInTime : List TreeAction :=
  [.start 1 [taskCall], .claim 1 "call" none 10, .createChild 1 2 [taskCall],
    .claim 2 "call" none 20, .cancel 1, .callStep 0 30, .createChild 2 3 []] ++
    List.replicate 16 (.callStep 0 40)

def childTooLate : List TreeAction :=
  [.start 1 [taskCall], .claim 1 "call" none 10, .cancel 1] ++
    List.replicate 5 (.callStep 0 20) ++ [.createChild 1 2 []]

theorem cancel_reaches_descendants_childInTime :
    Meets act InReach {} childInTime ∧
      ∃ s, exec act {} childInTime = some s ∧ 1 ∈ s.cancelled ∧ s.FinishedBelow 1 ∧
        (s.jobs.map fun d => (d.jobId, d.parentJobId)) = [(1, none), (2, some 1), (3, some 2)] ∧
        ∀ d ∈ s.jobs, Below s.jobs 1 d.jobId → isActive d.job = false := by
  have hok : Meets act InReach {} childInTime :=
    Meets.mono (fun _ _ (h : Orderly _ _) => h.inReach) (by decide +kernel)
  have hends : (exec act {} childInTime).map
      (fun s => (s.cancelled, s.calls, s.dispatches,
        s.jobs.map fun d => (d.jobId, d.parentJobId))) =
      some ([3, 2, 1], [[]], [], [(1, none), (2, some 1), (3, some 2)]) := by rfl
  obtain ⟨s, hs, heq⟩ := Option.map_eq_some_iff.mp hends
  simp only [Prod.mk.injEq] at heq
  have ha : 1 ∈ s.cancelled := by simp [heq.1]
  have hdone : s.FinishedBelow 1 := by simp [FinishedBelow, heq.2.1, heq.2.2.1]
  exact ⟨hok, s, hs, ha, hdone, heq.2.2.2, cancel_reaches_descendants hok hs ha hdone⟩

/-- The child is created under the cancelled job and stays pending. -/
theorem child_outlives_cancel :
    ∃ s, exec act {} childTooLate = some s ∧ 1 ∈ s.cancelled ∧ s.FinishedBelow 1 ∧
      ∃ d ∈ s.jobs, Below s.jobs 1 d.jobId ∧ d.job.status = .pending := by
  have hends : (exec act {} childTooLate).map
      (fun s => (s.cancelled, s.calls, s.dispatches,
        s.jobs.map fun d => (d.jobId, d.parentJobId, d.job.status))) =
      some ([1], [[]], [], [(1, none, .cancelled), (2, some 1, .pending)]) := by rfl
  obtain ⟨s, hs, heq⟩ := Option.map_eq_some_iff.mp hends
  simp only [Prod.mk.injEq] at heq
  obtain ⟨d, hd, hrow⟩ : ∃ d ∈ s.jobs, (d.jobId, d.parentJobId, d.job.status) =
      (2, some 1, JobStatus.pending) := by
    rw [← List.mem_map, heq.2.2.2]
    simp
  simp only [Prod.mk.injEq] at hrow
  refine ⟨s, hs, by simp [heq.1], by simp [FinishedBelow, heq.2.1, heq.2.2.1], d, hd, ?_, hrow.2.2⟩
  exact .single ⟨d, hd, rfl, hrow.2.1⟩

end Stroem.Engine
