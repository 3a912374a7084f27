import Stroem.Foundation.Runs
import Stroem.Foundation.Table
import Stroem.Hooks

/-!
# Chains of hook jobs

Jobs cause jobs: a settled or suspended job fires hooks, a `type: task` step runs a child, a
failed job is retried.  `hook_chain_depth` counts the hook jobs behind a job by walking from a
hook job to its source and from a child to its parent.  The walk ends at a retry job, whatever it
is a retry of.
-/

namespace Stroem.Engine

open Foundation Hooks

inductive HookAction where
  | start (id : Uuid) (task : String) (sourceType : SourceType)
      (sourceIdJob sourceJobId : Option Uuid)
  | child (parent id : Uuid) (task : String)
  | settle (id : Uuid) (status : JobStatus)
  | fire (source : Uuid) (event : HookEvent) (index : Nat) (id : Uuid)
  | retry (failed id : Uuid)

def settleJob (id : Uuid) (status : JobStatus) : Update LineageJob where
  guard j := j.jobId == id && !j.status.isTerminal
  set j := { j with status := status }

def hookStep (config : HookConfig) (jobs : List LineageJob) :
    HookAction → Option (List LineageJob)
  | .start id task sourceType sourceIdJob sourceJobId =>
    if (getJob jobs id).isNone && sourceType.isExternal then
      some (jobs ++ [{
        jobId := id, taskName := task, sourceType := sourceType, sourceIdJob := sourceIdJob,
        sourceJobId := sourceJobId, maxRetries := config.maxRetries task }])
    else none
  | .child parent id task =>
    match getJob jobs parent with
    | none => none
    | some p =>
      if (getJob jobs id).isNone && decide (computeDepth jobs p < maxTaskDepth) then
        some (jobs ++ [childJob config p task id])
      else none
  | .settle id status => some ((settleJob id status).run jobs)
  | .fire source event index id =>
    match getJob jobs source with
    | none => none
    | some j =>
      if (getJob jobs id).isNone then
        ((hooksOn config jobs j event)[index]?.bind fun hook => hookJob config j hook id).map
          fun new => jobs ++ [new]
      else none
  | .retry failed id =>
    match getJob jobs failed with
    | none => none
    | some f =>
      if (getJob jobs id).isNone && plansRetry f then
        some (jobs ++ [retryJob config f id])
      else none

/-! ## Causes -/

def cause (j : LineageJob) : Option Uuid :=
  match j.sourceType with
  | .hook => j.sourceJobId <|> j.sourceIdJob
  | .retry => j.sourceIdJob
  | _ => j.parentJobId

def HookChainsBounded (jobs : List LineageJob) : Prop :=
  ∀ chain : List LineageJob, (∀ j ∈ chain, j ∈ jobs) →
    chain.IsChain (fun j c => cause j = some c.jobId) →
    chain.countP LineageJob.isHook ≤ maxHookChainDepth

def treeRoot (jobs : List LineageJob) : Nat → LineageJob → LineageJob
  | 0, j => j
  | hops + 1, j =>
    match j.parentJobId.bind (getJob jobs) with
    | none => j
    | some p => treeRoot jobs hops p

def retriesHook (jobs : List LineageJob) (j : LineageJob) : Bool :=
  j.sourceType == .retry && (j.retryOfJobId.bind (getJob jobs)).any LineageJob.isHook

def Counted (jobs : List LineageJob) : HookAction → Prop
  | .fire source _ _ _ => ∀ j, getJob jobs source = some j →
      retriesHook jobs (treeRoot jobs maxTaskDepth j) = false
  | _ => True

/-! ## Labels -/

structure Label where
  hooks : Nat
  depth : Nat
  counted : Bool

inductive Origin (jobs : List LineageJob) (label : Uuid → Label) (j : LineageJob) : Prop
  | external (hsource : j.sourceType.isExternal = true) (hparent : j.parentJobId = none)
      (hretry : j.retryOfJobId = none) (hlabel : label j.jobId = ⟨0, 0, true⟩)
  | hook (s : LineageJob) (hs : s ∈ jobs) (hsource : j.sourceType = .hook)
      (hcause : j.sourceJobId = some s.jobId) (hparent : j.parentJobId = none)
      (hretry : j.retryOfJobId = none) (hcounted : (label s.jobId).counted = true)
      (hlabel : label j.jobId = ⟨(label s.jobId).hooks + 1, 0, true⟩)
  | task (p : LineageJob) (hp : p ∈ jobs) (hsource : j.sourceType = .task)
      (hparent : j.parentJobId = some p.jobId) (hretry : j.retryOfJobId = none)
      (hlabel : label j.jobId =
        ⟨(label p.jobId).hooks, (label p.jobId).depth + 1, (label p.jobId).counted⟩)
  | retry (f o : LineageJob) (hf : f ∈ jobs) (ho : o ∈ jobs) (hsource : j.sourceType = .retry)
      (hparent : j.parentJobId = none) (hcause : j.sourceIdJob = some f.jobId)
      (hretry : j.retryOfJobId = some o.jobId)
      (hcounted : o.isHook = false → (label f.jobId).hooks = 0)
      (hlabel : label j.jobId = ⟨(label f.jobId).hooks, 0, !o.isHook⟩)

structure Within (l : Label) : Prop where
  hooks : l.hooks ≤ maxHookChainDepth
  depth : l.depth ≤ maxTaskDepth

structure Labelled (jobs : List LineageJob) (label : Uuid → Label) : Prop where
  keyed : Keyed LineageJob.jobId jobs
  origin : ∀ j ∈ jobs, Origin jobs label j
  within : ∀ j ∈ jobs, Within (label j.jobId)

theorem getJob_of_mem {jobs : List LineageJob} (h : Keyed LineageJob.jobId jobs)
    {j : LineageJob} (hj : j ∈ jobs) : getJob jobs j.jobId = some j := by
  cases hfind : getJob jobs j.jobId with
  | none =>
    have hnone := List.find?_eq_none.mp hfind j hj
    simp at hnone
  | some j' =>
    have hid : j'.jobId = j.jobId := by simpa using List.find?_some hfind
    rw [h.eq_of_key (List.mem_of_find?_eq_some hfind) hj hid]

theorem mem_of_getJob {jobs : List LineageJob} {id : Uuid} {j : LineageJob}
    (h : getJob jobs id = some j) : j ∈ jobs ∧ j.jobId = id :=
  ⟨List.mem_of_find?_eq_some h, by simpa using List.find?_some h⟩

/-! ## What the walks see -/

namespace Labelled

variable {jobs : List LineageJob} {label : Uuid → Label}

theorem parentHops_eq (h : Labelled jobs label) (hops : Nat) {j : LineageJob} (hj : j ∈ jobs) :
    parentHops jobs hops j.parentJobId = min hops (label j.jobId).depth := by
  induction hops generalizing j with
  | zero => cases j.parentJobId <;> simp [parentHops]
  | succ hops ih =>
    cases h.origin j hj with
    | external _ hparent _ hlabel => simp [parentHops, hparent, hlabel]
    | hook _ _ _ _ hparent _ _ hlabel => simp [parentHops, hparent, hlabel]
    | retry _ _ _ _ _ hparent _ _ _ hlabel => simp [parentHops, hparent, hlabel]
    | task p hp _ hparent _ hlabel =>
      rw [hparent, parentHops, getJob_of_mem h.keyed hp, Option.bind_some, ih hp, hlabel]
      dsimp only
      omega

theorem computeDepth_eq (h : Labelled jobs label) {j : LineageJob} (hj : j ∈ jobs) :
    computeDepth jobs j = (label j.jobId).depth := by
  rw [computeDepth, h.parentHops_eq maxTaskDepth hj]
  exact Nat.min_eq_right (h.within j hj).depth

theorem ne_of_isExternal {source : SourceType} (h : source.isExternal = true) :
    source ≠ .hook ∧ source ≠ .retry := by
  constructor
  · rintro rfl
    cases h
  · rintro rfl
    cases h

theorem retriesHook_treeRoot (h : Labelled jobs label) {hops : Nat} {j : LineageJob}
    (hj : j ∈ jobs) (hdepth : (label j.jobId).depth ≤ hops) :
    retriesHook jobs (treeRoot jobs hops j) = !(label j.jobId).counted := by
  have hroot : ∀ hops, j.parentJobId = none → treeRoot jobs hops j = j := by
    intro hops hparent
    cases hops <;> simp [treeRoot, hparent]
  cases h.origin j hj with
  | external hsource hparent _ hlabel =>
    have hnot : (j.sourceType == .retry) = false :=
      beq_eq_false_iff_ne.mpr (ne_of_isExternal hsource).2
    rw [hroot hops hparent, hlabel, retriesHook, hnot]
    rfl
  | hook _ _ hsource _ hparent _ _ hlabel =>
    rw [hroot hops hparent, hlabel, retriesHook, hsource]
    rfl
  | retry f o _ ho hsource hparent _ hretry _ hlabel =>
    rw [hroot hops hparent, hlabel, retriesHook, hsource, hretry, Option.bind_some,
      getJob_of_mem h.keyed ho]
    simp
  | task p hp _ hparent _ hlabel =>
    rw [hlabel] at hdepth ⊢
    cases hops with
    | zero => simp at hdepth
    | succ hops =>
      rw [treeRoot, hparent, Option.bind_some, getJob_of_mem h.keyed hp]
      exact h.retriesHook_treeRoot hp (Nat.le_of_succ_le_succ hdepth)
termination_by hops

theorem min_le_hookLinks (h : Labelled jobs label) {hops k : Nat} {j : LineageJob}
    (hj : j ∈ jobs) (hcounted : (label j.jobId).counted = true)
    (hhops : (label j.jobId).depth + 1 + (maxTaskDepth + 1) * k ≤ hops) :
    min (label j.jobId).hooks (k + 1) ≤ hookLinks jobs hops j := by
  induction hops generalizing j k with
  | zero => omega
  | succ hops ih =>
    cases h.origin j hj with
    | external _ _ _ hlabel => simp [hlabel]
    | retry f o _ _ _ _ _ _ hzero hlabel =>
      rw [hlabel] at hcounted ⊢
      simp [hzero (by simpa using hcounted)]
    | task p hp hsource hparent _ hlabel =>
      rw [hlabel] at hcounted hhops ⊢
      have hnext : (nextAncestor j).bind (getJob jobs) = some p := by
        simp [nextAncestor, hsource, hparent, getJob_of_mem h.keyed hp]
      rw [hookLinks, hnext]
      have hrest := ih hp hcounted (k := k) (by dsimp only at hhops; omega)
      dsimp only at hrest ⊢
      omega
    | hook s hs hsource hcause _ _ hcounted' hlabel =>
      rw [hlabel] at hhops ⊢
      have hnext : (nextAncestor j).bind (getJob jobs) = some s := by
        simp [nextAncestor, hsource, hcause, getJob_of_mem h.keyed hs]
      rw [hookLinks, hnext, if_pos hsource]
      cases k with
      | zero =>
        dsimp only
        omega
      | succ k =>
        have hs' := (h.within s hs).depth
        have hrest := ih hs hcounted' (k := k) (by
          dsimp only at hhops
          simp only [maxTaskDepth] at hhops hs' ⊢
          omega)
        dsimp only at hrest ⊢
        omega

theorem hooks_lt (h : Labelled jobs label) {j : LineageJob} (hj : j ∈ jobs)
    (hcounted : (label j.jobId).counted = true)
    (hdepth : hookChainDepth jobs j < maxHookChainDepth) :
    (label j.jobId).hooks < maxHookChainDepth := by
  have hd := (h.within j hj).depth
  have hmin : min (label j.jobId).hooks 3 ≤ hookLinks jobs maxHops j := by
    refine h.min_le_hookLinks hj hcounted (k := 2) ?_
    simp only [maxHops, maxHookChainDepth, maxTaskDepth] at hd ⊢
    omega
  unfold hookChainDepth at hdepth
  simp only [maxHookChainDepth] at hdepth ⊢
  omega

theorem countP_le (h : Labelled jobs label) {j : LineageJob} {chain : List LineageJob}
    (hmem : ∀ c ∈ j :: chain, c ∈ jobs)
    (hchain : (j :: chain).IsChain fun j c => cause j = some c.jobId) :
    (j :: chain).countP LineageJob.isHook ≤ (label j.jobId).hooks := by
  induction chain generalizing j with
  | nil =>
    cases h.origin j (hmem j List.mem_cons_self) with
    | hook _ _ _ _ _ _ _ hlabel =>
      rw [hlabel]
      exact Nat.le_trans List.countP_le_length (Nat.le_add_left 1 _)
    | external hsource _ _ _ =>
      have hnot : j.isHook = false := beq_eq_false_iff_ne.mpr (ne_of_isExternal hsource).1
      simp [hnot]
    | task _ _ hsource _ _ _ => simp [LineageJob.isHook, hsource]
    | retry _ _ _ _ hsource _ _ _ _ _ => simp [LineageJob.isHook, hsource]
  | cons c chain ih =>
    obtain ⟨hcause, hrest⟩ := List.isChain_cons_cons.mp hchain
    have hc : c ∈ jobs := hmem c (by simp)
    have hcount := ih (fun d hd => hmem d (List.mem_cons_of_mem j hd)) hrest
    -- the cause is the job that the origin of `j` names
    have hthe : ∀ d ∈ jobs, cause j = some d.jobId → d = c := fun d hd hcause' =>
      h.keyed.eq_of_key hd hc (Option.some.inj (hcause'.symm.trans hcause))
    cases h.origin j (hmem j List.mem_cons_self) with
    | external hsource hparent _ _ =>
      have hnone : cause j = none := by
        unfold cause
        split
        case h_1 hhook => exact absurd hhook (ne_of_isExternal hsource).1
        case h_2 hretry => exact absurd hretry (ne_of_isExternal hsource).2
        case h_3 => exact hparent
      rw [hnone] at hcause
      cases hcause
    | hook s hs hsource hcause' _ _ _ hlabel =>
      obtain rfl := hthe s hs (by simp [cause, hsource, hcause'])
      rw [List.countP_cons, hlabel]
      dsimp only
      split <;> omega
    | task p hp hsource hparent _ hlabel =>
      obtain rfl := hthe p hp (by simp [cause, hsource, hparent])
      rw [List.countP_cons_of_neg (by simp [LineageJob.isHook, hsource]), hlabel]
      exact hcount
    | retry f o hf _ hsource _ hcause' _ _ hlabel =>
      obtain rfl := hthe f hf (by simp [cause, hsource, hcause'])
      rw [List.countP_cons_of_neg (by simp [LineageJob.isHook, hsource]), hlabel]
      exact hcount

theorem hookChainsBounded (h : Labelled jobs label) : HookChainsBounded jobs := by
  intro chain hmem hchain
  cases chain with
  | nil => exact Nat.zero_le _
  | cons j chain =>
    exact Nat.le_trans (h.countP_le hmem hchain) (h.within j (hmem j List.mem_cons_self)).hooks

end Labelled

/-! ## One action -/

structure SameLineage (j j' : LineageJob) : Prop where
  jobId : j'.jobId = j.jobId
  sourceType : j'.sourceType = j.sourceType
  sourceIdJob : j'.sourceIdJob = j.sourceIdJob
  sourceJobId : j'.sourceJobId = j.sourceJobId
  parentJobId : j'.parentJobId = j.parentJobId
  retryOfJobId : j'.retryOfJobId = j.retryOfJobId

theorem SameLineage.refl (j : LineageJob) : SameLineage j j := ⟨rfl, rfl, rfl, rfl, rfl, rfl⟩

theorem Origin.congr {jobs jobs' : List LineageJob} {label label' : Uuid → Label}
    {j j' : LineageJob} (h : Origin jobs label j) (hj : SameLineage j j')
    (hlabel : label' j.jobId = label j.jobId)
    (hjobs : ∀ c ∈ jobs, ∃ c' ∈ jobs', SameLineage c c' ∧ label' c.jobId = label c.jobId) :
    Origin jobs' label' j' := by
  have hlabel' : label' j'.jobId = label j.jobId := by rw [hj.jobId, hlabel]
  cases h with
  | external hsource hparent hretry heq =>
    exact .external (hj.sourceType ▸ hsource) (hj.parentJobId.trans hparent)
      (hj.retryOfJobId.trans hretry) (hlabel'.trans heq)
  | hook s hs hsource hcause hparent hretry hcounted heq =>
    obtain ⟨s', hs', hsame, hl⟩ := hjobs s hs
    rw [← hl, ← hsame.jobId] at hcounted heq
    exact .hook s' hs' (hj.sourceType.trans hsource)
      (by rw [hj.sourceJobId, hcause, hsame.jobId]) (hj.parentJobId.trans hparent)
      (hj.retryOfJobId.trans hretry) hcounted (hlabel'.trans heq)
  | task p hp hsource hparent hretry heq =>
    obtain ⟨p', hp', hsame, hl⟩ := hjobs p hp
    rw [← hl, ← hsame.jobId] at heq
    exact .task p' hp' (hj.sourceType.trans hsource)
      (by rw [hj.parentJobId, hparent, hsame.jobId]) (hj.retryOfJobId.trans hretry)
      (hlabel'.trans heq)
  | retry f o hf ho hsource hparent hcause hretry hcounted heq =>
    obtain ⟨f', hf', hsame, hl⟩ := hjobs f hf
    obtain ⟨o', ho', hsame', -⟩ := hjobs o ho
    have hhook : o'.isHook = o.isHook := by rw [LineageJob.isHook, hsame'.sourceType]; rfl
    rw [← hl, ← hsame.jobId] at hcounted heq
    rw [← hhook] at hcounted heq
    exact .retry f' o' hf' ho' (hj.sourceType.trans hsource) (hj.parentJobId.trans hparent)
      (by rw [hj.sourceIdJob, hcause, hsame.jobId])
      (by rw [hj.retryOfJobId, hretry, hsame'.jobId]) hcounted (hlabel'.trans heq)

namespace Labelled

variable {jobs : List LineageJob} {label : Uuid → Label}

theorem settle (h : Labelled jobs label) (id : Uuid) (status : JobStatus) :
    Labelled ((settleJob id status).run jobs) label := by
  have hsame : ∀ j : LineageJob, SameLineage j
      (if (settleJob id status).guard j then (settleJob id status).set j else j) := by
    intro j
    split
    · exact ⟨rfl, rfl, rfl, rfl, rfl, rfl⟩
    · exact .refl j
  refine ⟨h.keyed.updateWhere fun _ => rfl, ?_, ?_⟩
  · intro j hj
    obtain ⟨j₀, hj₀, rfl⟩ := Update.mem_run.mp hj
    refine (h.origin j₀ hj₀).congr (hsame j₀) rfl fun c hc => ?_
    exact ⟨_, Update.mem_run.mpr ⟨c, hc, rfl⟩, hsame c, rfl⟩
  · intro j hj
    obtain ⟨j₀, hj₀, rfl⟩ := Update.mem_run.mp hj
    rw [(hsame j₀).jobId]
    exact h.within j₀ hj₀

theorem add (h : Labelled jobs label) {new : LineageJob} {l : Label}
    (hfresh : getJob jobs new.jobId = none) (hwithin : Within l)
    (horigin : ∀ label', (∀ c ∈ jobs, label' c.jobId = label c.jobId) → label' new.jobId = l →
      Origin jobs label' new) :
    Labelled (jobs ++ [new]) (Function.update label new.jobId l) := by
  have hne : ∀ c ∈ jobs, c.jobId ≠ new.jobId := by
    intro c hc heq
    have hnone := List.find?_eq_none.mp hfresh c hc
    simp [heq] at hnone
  have hold : ∀ c ∈ jobs, Function.update label new.jobId l c.jobId = label c.jobId :=
    fun c hc => Function.update_of_ne (hne c hc) _ _
  have hnew : Function.update label new.jobId l new.jobId = l := Function.update_self ..
  have hkept : ∀ (label' : Uuid → Label), ∀ c ∈ jobs, ∃ c' ∈ jobs ++ [new],
      SameLineage c c' ∧ label' c.jobId = label' c.jobId :=
    fun _ c hc => ⟨c, List.mem_append_left _ hc, .refl c, rfl⟩
  refine ⟨h.keyed.append (by simp [Keyed]) ?_, ?_, ?_⟩
  · intro c hc n hn
    obtain rfl := List.mem_singleton.mp hn
    exact hne c hc
  · intro j hj
    rcases List.mem_append.mp hj with hj | hj
    · refine (h.origin j hj).congr (.refl j) (hold j hj) fun c hc => ?_
      exact ⟨c, List.mem_append_left _ hc, .refl c, hold c hc⟩
    · obtain rfl := List.mem_singleton.mp hj
      exact (horigin _ hold hnew).congr (.refl j) rfl (hkept _)
  · intro j hj
    rcases List.mem_append.mp hj with hj | hj
    · rw [hold j hj]
      exact h.within j hj
    · obtain rfl := List.mem_singleton.mp hj
      rw [hnew]
      exact hwithin

private theorem start (h : Labelled jobs label) {new : LineageJob}
    (hfresh : getJob jobs new.jobId = none) (hsource : new.sourceType.isExternal = true)
    (hparent : new.parentJobId = none) (hretry : new.retryOfJobId = none) :
    ∃ label', Labelled (jobs ++ [new]) label' :=
  ⟨_, h.add hfresh ⟨Nat.zero_le _, Nat.zero_le _⟩ fun _ _ hlabel =>
    .external hsource hparent hretry hlabel⟩

private theorem child (h : Labelled jobs label) {config : HookConfig} {p : LineageJob}
    {task : String} {id : Uuid} (hfresh : getJob jobs id = none) (hp : p ∈ jobs)
    (hdepth : computeDepth jobs p < maxTaskDepth) :
    ∃ label', Labelled (jobs ++ [childJob config p task id]) label' := by
  rw [h.computeDepth_eq hp] at hdepth
  refine ⟨_, h.add hfresh (l := ⟨(label p.jobId).hooks, (label p.jobId).depth + 1,
    (label p.jobId).counted⟩) ⟨(h.within p hp).hooks, hdepth⟩ fun label' hold hlabel => ?_⟩
  rw [← hold p hp] at hlabel
  exact .task p hp rfl rfl rfl hlabel

private theorem fire (h : Labelled jobs label) {new j : LineageJob}
    (hfresh : getJob jobs new.jobId = none) (hj : j ∈ jobs)
    (hcounted : (label j.jobId).counted = true)
    (hdepth : hookChainDepth jobs j < maxHookChainDepth) (hsource : new.sourceType = .hook)
    (hcause : new.sourceJobId = some j.jobId) (hparent : new.parentJobId = none)
    (hretry : new.retryOfJobId = none) : ∃ label', Labelled (jobs ++ [new]) label' := by
  have hlt := h.hooks_lt hj hcounted hdepth
  refine ⟨_, h.add hfresh (l := ⟨(label j.jobId).hooks + 1, 0, true⟩) ⟨hlt, Nat.zero_le _⟩
    fun label' hold hlabel => ?_⟩
  rw [← hold j hj] at hlabel hcounted
  exact .hook j hj hsource hcause hparent hretry hcounted hlabel

private theorem retry (h : Labelled jobs label) {config : HookConfig} {f : LineageJob} {id : Uuid}
    (hfresh : getJob jobs id = none) (hf : f ∈ jobs) (hparent : f.parentJobId = none) :
    ∃ label', Labelled (jobs ++ [retryJob config f id]) label' := by
  -- the first job of the retry chain, and that it is a hook job if any hook is behind it
  obtain ⟨o, ho, horigin, hzero⟩ : ∃ o ∈ jobs,
      (retryJob config f id).retryOfJobId = some o.jobId ∧
      (o.isHook = false → (label f.jobId).hooks = 0) := by
    cases h.origin f hf with
    | external _ _ hretry hlabel =>
      exact ⟨f, hf, by simp [retryJob, hretry], fun _ => by rw [hlabel]⟩
    | hook _ _ hsource _ _ hretry _ _ =>
      refine ⟨f, hf, by simp [retryJob, hretry], fun hnot => ?_⟩
      simp [LineageJob.isHook, hsource] at hnot
    | task _ _ _ hparent' _ _ =>
      rw [hparent] at hparent'
      cases hparent'
    | retry f' o _ ho _ _ _ hretry hzero hlabel =>
      exact ⟨o, ho, by simp [retryJob, hretry], fun hnot => by rw [hlabel]; exact hzero hnot⟩
  refine ⟨_, h.add hfresh (l := ⟨(label f.jobId).hooks, 0, !o.isHook⟩)
    ⟨(h.within f hf).hooks, Nat.zero_le _⟩ fun label' hold hlabel => ?_⟩
  rw [← hold f hf] at hlabel hzero
  exact .retry f o hf ho rfl rfl rfl horigin hzero hlabel

private theorem depth_of_fired {config : HookConfig} {j : LineageJob} {event : HookEvent}
    {hook : HookDef} (hfired : hook ∈ hooksOn config jobs j event) :
    hookChainDepth jobs j < maxHookChainDepth := by
  have hguard : ∀ taskHooks wsHooks, hook ∈ firedHooks jobs j taskHooks wsHooks →
      hookChainDepth jobs j < maxHookChainDepth := by
    intro taskHooks wsHooks hmem
    by_contra hdepth
    simp [firedHooks, Nat.le_of_not_lt hdepth] at hmem
  cases event with
  | suspended => exact hguard _ _ hfired
  | terminal =>
    simp only [hooksOn] at hfired
    cases hkind : hookKind j.status with
    | none => simp [hkind, fireHooksOfKind] at hfired
    | _ =>
      rw [hkind] at hfired
      exact hguard _ _ hfired

private theorem hookJob_lineage {config : HookConfig} {j new : LineageJob} {hook : HookDef}
    {id : Uuid} (h : hookJob config j hook id = some new) :
    new.jobId = id ∧ new.sourceType = .hook ∧ new.sourceJobId = some j.jobId ∧
      new.parentJobId = none ∧ new.retryOfJobId = none := by
  unfold hookJob at h
  split at h
  · cases h
  · split at h
    · obtain rfl := Option.some.inj h
      exact ⟨rfl, rfl, rfl, rfl, rfl⟩
    · cases h
  · obtain rfl := Option.some.inj h
    exact ⟨rfl, rfl, rfl, rfl, rfl⟩

theorem step {config : HookConfig} {jobs' : List LineageJob} {a : HookAction}
    (h : Labelled jobs label) (hok : Counted jobs a) (hstep : hookStep config jobs a = some jobs') :
    ∃ label', Labelled jobs' label' := by
  cases a with
  | start id task sourceType sourceIdJob sourceJobId =>
    simp only [hookStep] at hstep
    split at hstep
    case isTrue hnew =>
      simp only [Bool.and_eq_true, Option.isNone_iff_eq_none] at hnew
      obtain rfl := Option.some.inj hstep
      exact h.start hnew.1 hnew.2 rfl rfl
    case isFalse => cases hstep
  | child parent id task =>
    simp only [hookStep] at hstep
    split at hstep
    · cases hstep
    case h_2 p hp =>
      split at hstep
      case isTrue hnew =>
        simp only [Bool.and_eq_true, Option.isNone_iff_eq_none, decide_eq_true_eq] at hnew
        obtain rfl := Option.some.inj hstep
        exact h.child hnew.1 (mem_of_getJob hp).1 hnew.2
      case isFalse => cases hstep
  | settle id status =>
    obtain rfl := Option.some.inj hstep
    exact ⟨label, h.settle id status⟩
  | fire source event index id =>
    simp only [hookStep] at hstep
    split at hstep
    · cases hstep
    case h_2 j hj =>
      split at hstep
      case isTrue hnew =>
        obtain ⟨new, hfired, rfl⟩ := Option.map_eq_some_iff.mp hstep
        obtain ⟨hook, hindex, hhook⟩ := Option.bind_eq_some_iff.mp hfired
        obtain ⟨rfl, hsource, hcause, hparent, hretry⟩ := hookJob_lineage hhook
        have hmem := (mem_of_getJob hj).1
        have hcounted : (label j.jobId).counted = true := by
          have hroot := h.retriesHook_treeRoot hmem (h.within j hmem).depth
          rw [hok j hj] at hroot
          simpa using hroot.symm
        exact h.fire (by simpa using hnew) hmem hcounted
          (depth_of_fired (List.mem_of_getElem? hindex)) hsource hcause hparent hretry
      case isFalse => cases hstep
  | retry failed id =>
    simp only [hookStep] at hstep
    split at hstep
    · cases hstep
    case h_2 f hf =>
      split at hstep
      case isTrue hnew =>
        simp only [Bool.and_eq_true, Option.isNone_iff_eq_none, plansRetry] at hnew
        obtain rfl := Option.some.inj hstep
        exact h.retry hnew.1 (mem_of_getJob hf).1 hnew.2.1.2
      case isFalse => cases hstep

end Labelled

/-! ## Runs -/

private theorem labelled_of_run {config : HookConfig} {jobs : List LineageJob}
    {as : List HookAction} (hok : Meets (hookStep config) Counted [] as)
    (hrun : exec (hookStep config) [] as = some jobs) : ∃ label, Labelled jobs label := by
  refine exec_invariant (fun jobs => ∃ label, Labelled jobs label) ?_ ?_ hok hrun
  · rintro jobs a jobs' ⟨label, h⟩ hcounted hstep
    exact h.step hcounted hstep
  · exact ⟨fun _ => ⟨0, 0, true⟩, ⟨by simp [Keyed], by simp, by simp⟩⟩

/--
Hook chains are bounded in every run that fires no hooks for the retry of a hook job or in the
task tree under it.
-/
theorem hook_chains_bounded (config : HookConfig) {jobs : List LineageJob}
    {as : List HookAction} (hok : Meets (hookStep config) Counted [] as)
    (hrun : exec (hookStep config) [] as = some jobs) :
    HookChainsBounded jobs ∧
      ∀ before source event index id after mid r h hook,
        before ++ .fire source event index id :: after = as →
        exec (hookStep config) [] before = some mid → getJob mid source = some r →
        getJob mid h.jobId = some h → r.retryOfJobId = some h.jobId → h.isHook = true →
        (hooksOn config mid r event)[index]? = some hook → hook ∈ hooksOn config mid h event := by
  obtain ⟨label, hlabelled⟩ := labelled_of_run hok hrun
  refine ⟨hlabelled.hookChainsBounded, ?_⟩
  rintro before source event index id after mid r h hook rfl hmid hr hh hretry hhook -
  obtain ⟨hbefore, hfire⟩ := hok.append hmid
  obtain ⟨label', hmid'⟩ := labelled_of_run hbefore hmid
  have hmem := (mem_of_getJob hr).1
  have hroot := hfire.1 r hr
  -- the row is a retry, the root of its tree, and goes back to the hook job
  cases hmid'.origin r hmem with
  | external _ _ hnone _ | hook _ _ _ _ _ hnone _ _ | task _ _ _ _ hnone _ =>
    rw [hnone] at hretry
    cases hretry
  | retry f o _ _ hsource hparent _ _ _ _ =>
    have hself : treeRoot mid maxTaskDepth r = r := by
      simp [treeRoot, maxTaskDepth, hparent]
    rw [hself, retriesHook, hsource, hretry, Option.bind_some, hh] at hroot
    simp [hhook] at hroot

/-! ## Two tasks with retries that call each other on error -/

def mutualHooks : HookConfig where
  tasks := [("a", { hooks := { onError := [⟨"run-b"⟩] }, maxAttempts := some 2 }),
    ("b", { hooks := { onError := [⟨"run-a"⟩] }, maxAttempts := some 2 })]
  actions := [("run-a", some "a"), ("run-b", some "b")]

def failTwice (id : Uuid) : List HookAction :=
  [.settle id .failed, .retry id (id + 1), .settle (id + 1) .failed,
    .fire (id + 1) .terminal 0 (id + 2)]

theorem hook_chains_bounded_failTwice :
    ∃ jobs, exec (hookStep mutualHooks) [] (.start 1 "a" .user none none :: failTwice 1) =
        some jobs ∧
      jobs.map LineageJob.sourceType = [.user, .retry, .hook] ∧ HookChainsBounded jobs := by
  have hok : Meets (hookStep mutualHooks) Counted []
      (.start 1 "a" .user none none :: failTwice 1) := by
    refine ⟨trivial, fun t ht => ⟨trivial, fun u hu => ⟨trivial, fun v hv => ⟨trivial,
      fun w hw => ⟨?_, fun _ _ => trivial⟩⟩⟩⟩⟩
    obtain rfl := Option.some.inj ht
    obtain rfl := Option.some.inj hu
    obtain rfl := Option.some.inj hv
    obtain rfl := Option.some.inj hw
    intro j hj
    obtain rfl := Option.some.inj hj
    rfl
  exact ⟨_, rfl, rfl, (hook_chains_bounded mutualHooks hok rfl).1⟩

/--
The hook job fails and is retried, and the retry fires hooks again with nothing counted behind
it: four hook jobs in one chain of causes, and the next retry is ready to go on.
-/
theorem hook_chain_unbounded :
    ∃ jobs, exec (hookStep mutualHooks) [] (.start 1 "a" .user none none ::
        (failTwice 1 ++ failTwice 3 ++ failTwice 5 ++ failTwice 7)) = some jobs ∧
      jobs.reverse.IsChain (fun j c => cause j = some c.jobId) ∧
      jobs.reverse.countP LineageJob.isHook = 4 ∧ ¬HookChainsBounded jobs := by
  refine ⟨_, rfl, by decide, by decide, fun hbounded => ?_⟩
  have hfour := hbounded _ (fun j hj => List.mem_reverse.mp hj) (by decide)
  exact absurd hfour (by decide)

end Stroem.Engine
