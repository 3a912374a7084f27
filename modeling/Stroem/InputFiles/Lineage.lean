import Mathlib.Data.List.Induction
import Stroem.Foundation.Runs
import Stroem.InputFiles

/-!
# Where an attachment comes from

A file reaches a job in one of two ways: its uploader starts the job directly, or the job names a
job that holds the file.  So every attachment ends a chain of jobs that begins with the uploader's
own start.
-/

namespace Stroem.InputFiles

open Foundation

/-! ## Chains of jobs -/

def Names (req : CreationRequest) (jobId : Uuid) : Prop :=
  req.start.mode = .rerun jobId ∨ req.start.mode = .restart jobId ∨
    req.start.mode = .retry jobId ∨ req.start.parentJobId = some jobId

def Start.user : Start → Option (Option Uuid)
  | .execute userId | .mcp userId | .rerun _ userId | .restart _ userId => some userId
  | _ => none

def Creating (s : State) (req : CreationRequest) (now : Nat) : Prop :=
  ∃ call tx, (s.creations call).tx = some tx ∧ tx.request = req ∧ tx.startedAt = now

def HoldsFile (s : State) (jobId : Uuid) (fileId : FileId) : Prop :=
  ∃ a ∈ s.attachments, a.jobId = jobId ∧ a.fileId = fileId

def OwnStart (cfg : Config) (req : CreationRequest) (now : Nat) (row : FileRow) : Prop :=
  req.start.user = some row.uploadedByUserId ∧ row.workspace = req.workspace ∧
    row.taskName = req.taskName ∧ now < row.createdAt + cfg.uploadTtlSecs

/--
A chain of jobs in a run, from the uploader's own start to the job: each is created in some state
of the run, naming the one before it, which holds the file in that state.
-/
inductive Derived (cfg : Config) (events : List Event) (fileId : FileId) : Uuid → Prop
  | own {before : List Event} {s : State} {req : CreationRequest} {now : Nat} {row : FileRow}
      (hbefore : before <+: events) (hrun : exec (step cfg) {} before = some s)
      (hcreating : Creating s req now) (hrow : s.files fileId = some row)
      (hown : OwnStart cfg req now row) : Derived cfg events fileId req.jobId
  | derived {before : List Event} {s : State} {req : CreationRequest} {now : Nat} {source : Uuid}
      (hsource : Derived cfg events fileId source) (hbefore : before <+: events)
      (hrun : exec (step cfg) {} before = some s) (hcreating : Creating s req now)
      (hnames : Names req source) (hholds : HoldsFile s source fileId) :
      Derived cfg events fileId req.jobId

section Runs

variable {cfg : Config} {events later : List Event} {fileId : FileId} {jobId : Uuid}

theorem Derived.mono (h : Derived cfg events fileId jobId) (hlater : events <+: later) :
    Derived cfg later fileId jobId := by
  induction h with
  | own hbefore hrun hcreating hrow hown =>
    exact .own (hbefore.trans hlater) hrun hcreating hrow hown
  | derived _ hbefore hrun hcreating hnames hholds ih =>
    exact .derived ih (hbefore.trans hlater) hrun hcreating hnames hholds

/-! ## Rules -/

def RulesFit (cfg : Config) (tx : CreationTx) (rules : List AttachRule) : Prop :=
  ∀ rule ∈ rules, match rule with
    | .own workspace taskName userId ttlSecs => workspace = tx.request.workspace ∧
        taskName = tx.request.taskName ∧ tx.request.start.user = some userId ∧
          ttlSecs = cfg.uploadTtlSecs
    | .lineage jobId => Names tx.request jobId

theorem names_of_fileLineage {req : CreationRequest} {source : Uuid}
    (h : fileLineage req (req.start.grant cfg) = .ok (some source)) : Names req source := by
  unfold fileLineage at h
  unfold Names
  cases hstart : req.start with
  | rerun job userId =>
    simp only [hstart, Start.mode] at h
    cases h
    exact .inl rfl
  | restart job userId =>
    simp only [hstart, Start.mode] at h
    cases h
    exact .inr (.inl rfl)
  | retry job =>
    simp only [hstart, Start.mode] at h
    cases h
    exact .inr (.inr (.inl rfl))
  | taskChild parent =>
    simp only [hstart, Start.mode, Start.grant, Start.parentJobId] at h
    cases h
    exact .inr (.inr (.inr rfl))
  | execute _ | mcp _ | agentChild _ | trigger | webhook | eventSource | hook _ =>
    simp [hstart, Start.mode, Start.grant] at h

theorem rulesFit_attachRules {req : CreationRequest} {lineage : Option Uuid} {tx : CreationTx}
    (hreq : tx.request = req) (h : fileLineage req (req.start.grant cfg) = .ok lineage) :
    RulesFit cfg tx (attachRules req (req.start.grant cfg) lineage) := by
  intro rule hrule
  subst hreq
  rcases List.mem_append.mp hrule with hlineage | hown
  · cases lineage with
    | none => cases hlineage
    | some source =>
      obtain rfl := List.mem_singleton.mp hlineage
      exact names_of_fileLineage h
  · cases hstart : tx.request.start with
    | execute userId | mcp userId | rerun _ userId | restart _ userId =>
      rw [hstart] at hown
      obtain rfl := List.mem_singleton.mp hown
      exact ⟨rfl, rfl, rfl, rfl⟩
    | retry _ | taskChild _ | agentChild _ | trigger | webhook | eventSource | hook _ =>
      rw [hstart] at hown
      cases hown

/-! ## The invariant -/

def CallDerived (cfg : Config) (events : List Event) : CreationCall → Prop
  | .idle => True
  | .attaching tx => RulesFit cfg tx tx.rules ∧
      ∀ a ∈ tx.written, Derived cfg events a.fileId a.jobId
  | .refused tx => ∀ a ∈ tx.written, Derived cfg events a.fileId a.jobId
  | .checking tx _ _ rules => (RulesFit cfg tx tx.rules ∧
      ∀ a ∈ tx.written, Derived cfg events a.fileId a.jobId) ∧ RulesFit cfg tx rules
  | .matched tx _ fileId => (RulesFit cfg tx tx.rules ∧
      ∀ a ∈ tx.written, Derived cfg events a.fileId a.jobId) ∧
        Derived cfg events fileId tx.request.jobId

structure AllDerived (cfg : Config) (events : List Event) (s : State) : Prop where
  attachments : ∀ a ∈ s.attachments, Derived cfg events a.fileId a.jobId
  creations : ∀ call, CallDerived cfg events (s.creations call)

theorem CallDerived.written {c : CreationCall} {tx : CreationTx} (h : CallDerived cfg events c)
    (htx : c.tx = some tx) : ∀ a ∈ tx.written, Derived cfg events a.fileId a.jobId := by
  cases c with
  | idle => cases htx
  | attaching tx' =>
    cases htx
    exact h.2
  | refused tx' =>
    cases htx
    exact h
  | checking tx' field fileId rules | matched tx' field fileId =>
    cases htx
    exact h.1.2

theorem CallDerived.mono {c : CreationCall} (h : CallDerived cfg events c)
    (hlater : events <+: later) : CallDerived cfg later c := by
  cases c with
  | idle => trivial
  | attaching tx => exact ⟨h.1, fun a ha => (h.2 a ha).mono hlater⟩
  | refused tx => exact fun a ha => (h a ha).mono hlater
  | checking tx field fileId rules =>
    exact ⟨⟨h.1.1, fun a ha => (h.1.2 a ha).mono hlater⟩, h.2⟩
  | matched tx field fileId =>
    exact ⟨⟨h.1.1, fun a ha => (h.1.2 a ha).mono hlater⟩, h.2.mono hlater⟩

theorem AllDerived.mono {s : State} (h : AllDerived cfg events s) (hlater : events <+: later) :
    AllDerived cfg later s :=
  ⟨fun a ha => (h.attachments a ha).mono hlater, fun call => (h.creations call).mono hlater⟩

theorem AllDerived.setCreation {s : State} {call : Nat} {c : CreationCall}
    (h : AllDerived cfg events s) (hc : CallDerived cfg events c) :
    AllDerived cfg events (s.setCreation call c) :=
  ⟨h.attachments, State.setCreation_cases (P := fun _ c => CallDerived cfg events c) hc
    fun other _ => h.creations other⟩

theorem derived_of_ruleMatches {s : State} {call : Nat} {tx : CreationTx} {field : String}
    {rules : List AttachRule} {rule : AttachRule} (hrun : exec (step cfg) {} events = some s)
    (hcall : s.creations call = .checking tx field fileId (rule :: rules))
    (h : AllDerived cfg events s) (hrule : ruleMatches s tx.startedAt fileId rule = true) :
    Derived cfg events fileId tx.request.jobId := by
  have hfits := h.creations call
  rw [hcall] at hfits
  have hrulefits := hfits.2 rule List.mem_cons_self
  have hcreating : Creating s tx.request tx.startedAt := ⟨call, tx, by rw [hcall]; rfl, rfl, rfl⟩
  cases rule with
  | own workspace taskName userId ttlSecs =>
    obtain ⟨rfl, rfl, huser, rfl⟩ := hrulefits
    unfold ruleMatches at hrule
    dsimp only at hrule
    split at hrule
    · cases hrule
    · rename_i row hrow
      simp only [Bool.and_eq_true, decide_eq_true_eq] at hrule
      obtain ⟨⟨⟨hws, htask⟩, hup⟩, hlife⟩ := hrule
      exact .own List.prefix_rfl hrun hcreating hrow ⟨by rw [huser, hup], hws, htask, hlife⟩
  | lineage source =>
    unfold ruleMatches at hrule
    obtain ⟨a, ha, hsame⟩ := List.any_eq_true.mp hrule
    simp only [Bool.and_eq_true, decide_eq_true_eq] at hsame
    obtain ⟨rfl, rfl⟩ := hsame
    exact .derived (h.attachments a ha) List.prefix_rfl hrun hcreating hrulefits
      ⟨a, ha, rfl, rfl⟩

/-! ## Runs -/

theorem step_allDerived {s s' : State} {e : Event} (hrun : exec (step cfg) {} events = some s)
    (h : AllDerived cfg events s) (hstep : step cfg s e = some s') : AllDerived cfg events s' := by
  have hfits : ∀ {call c}, s.creations call = c → CallDerived cfg events c :=
    fun hcall => hcall ▸ h.creations _
  have hend : ∀ call, AllDerived cfg events ((s.setCreation call .idle).unshare call) := by
    intro call
    have hidle : AllDerived cfg events (s.setCreation call .idle) := h.setCreation trivial
    exact ⟨hidle.attachments, hidle.creations⟩
  cases e with
  | begin call req now =>
    simp only [step] at hstep
    split at hstep
    · rename_i tx hcall hbegin
      split at hstep
      · cases hstep
      · cases hstep
        have hjobs : AllDerived cfg events { s with usedJobs := req.jobId :: s.usedJobs } :=
          ⟨h.attachments, h.creations⟩
        refine hjobs.setCreation ?_
        unfold beginCreation at hbegin
        dsimp only at hbegin
        split at hbegin
        · cases hbegin
        · split at hbegin
          · rename_i lineage values hlineage _
            split at hbegin
            · cases hbegin
            · cases hbegin
              exact ⟨rulesFit_attachRules rfl hlineage, fun a ha => nomatch ha⟩
          · cases hbegin
    · cases hstep
  | attach call =>
    simp only [step] at hstep
    split at hstep
    · rename_i tx hcall
      have htx := hfits hcall
      split at hstep
      · cases hstep
      · rename_i field fileId todo _
        split at hstep
        · split at hstep
          · cases hstep
            exact h.setCreation htx.2
          · have hshare : AllDerived cfg events (s.share call fileId) :=
              ⟨h.attachments, h.creations⟩
            split at hstep
            · cases hstep
              exact hshare.setCreation ⟨htx, htx.1⟩
            · cases hstep
              exact hshare.setCreation htx.2
        · cases hstep
    · cases hstep
  | check call =>
    simp only [step] at hstep
    split at hstep
    · rename_i tx field fileId rules hcall
      have htx := hfits hcall
      split at hstep
      · cases hstep
        exact h.setCreation htx.1.2
      · rename_i rule rules
        split at hstep
        · rename_i hrule
          cases hstep
          exact h.setCreation ⟨htx.1, derived_of_ruleMatches hrun hcall h hrule⟩
        · cases hstep
          exact h.setCreation ⟨htx.1, fun r hr => htx.2 r (List.mem_cons_of_mem _ hr)⟩
    · cases hstep
  | insert call =>
    simp only [step] at hstep
    split at hstep
    · rename_i tx field fileId hcall
      have htx := hfits hcall
      cases hstep
      refine h.setCreation ⟨htx.1.1, fun a ha => ?_⟩
      rcases List.mem_append.mp ha with hold | hnew
      · exact htx.1.2 a hold
      · obtain rfl := List.mem_singleton.mp hnew
        exact htx.2
    · cases hstep
  | commit call =>
    simp only [step] at hstep
    split at hstep
    · rename_i tx hcall
      have htx := hfits hcall
      split at hstep
      · cases hstep
        refine ⟨fun a ha => ?_, (hend call).creations⟩
        rcases List.mem_append.mp ha with hold | hnew
        · exact h.attachments a hold
        · exact htx.2 a hnew
      · cases hstep
    · cases hstep
  | fail call =>
    simp only [step] at hstep
    split at hstep
    · rename_i tx htx
      cases hstep
      exact h.setCreation ((h.creations call).written htx)
    · cases hstep
  | rollback call =>
    simp only [step] at hstep
    split at hstep
    · cases hstep
      exact hend call
    · cases hstep
  | deleteJob jobId =>
    cases hstep
    exact ⟨fun a ha => h.attachments a (List.mem_of_mem_filter ha), h.creations⟩
  | upload _ | list _ _ _ | lock _ | inspect _ | mark _ _ | commitMark _ | deleteBlob _
  | deleteStart _ | deleteRow _ | skip _ =>
    -- neither attachments nor creations change
    simp only [step] at hstep
    repeat' split at hstep
    all_goals
      first
      | cases hstep
        exact ⟨h.attachments, h.creations⟩
      | cases hstep

theorem exec_allDerived {s : State} (hrun : exec (step cfg) {} events = some s) :
    AllDerived cfg events s := by
  induction events using List.reverseRecOn generalizing s with
  | nil =>
    obtain rfl : {} = s := Option.some.inj hrun
    exact ⟨fun a ha => (nomatch ha), fun _ => trivial⟩
  | append_singleton events e ih =>
    obtain ⟨mid, hmid, hlast⟩ := exec_append_eq_some.mp hrun
    obtain ⟨last, hstep, hnil⟩ := exec_cons_eq_some.mp hlast
    obtain rfl : last = s := Option.some.inj hnil
    exact (step_allDerived hmid (ih hmid) hstep).mono (List.prefix_append events [e])

/--
In every run, of every attachment, committed or written by a creation under way, a chain of jobs
leads from the uploader's own start to its job.
-/
theorem attachments_derived (cfg : Config) (events : List Event) (s : State)
    (hrun : exec (step cfg) {} events = some s) :
    (∀ a ∈ s.attachments, Derived cfg events a.fileId a.jobId) ∧
      ∀ call tx, (s.creations call).tx = some tx →
        ∀ a ∈ tx.written, Derived cfg events a.fileId a.jobId := by
  have h := exec_allDerived hrun
  exact ⟨h.attachments, fun call _ htx => (h.creations call).written htx⟩

end Runs

/-! ## A retry of an upload's job -/

def retryEvents : List Event :=
  [.upload uploadedFile, .begin 0 (fileRequest 7 (.execute (some 1))) 50, .attach 0, .check 0,
    .insert 0, .commit 0, .begin 0 (fileRequest 8 (.retry 7)) 100, .attach 0, .check 0, .insert 0,
    .commit 0]

theorem attachments_derived_retry :
    ∃ s, exec (step inputsConfig) {} retryEvents = some s ∧
      ∀ a ∈ s.attachments, Derived inputsConfig retryEvents a.fileId a.jobId :=
  ⟨_, rfl, (attachments_derived inputsConfig retryEvents _ rfl).1⟩

end Stroem.InputFiles
