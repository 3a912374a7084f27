import Stroem.Foundation.Runs
import Stroem.InputFiles

/-!
# The sweep and the attachments

The sweep marks a file while it holds the row exclusively and has seen no attachment; a creation
attaches a file while it shares the row and has seen it live.  So a file is marked only when no
attachment of it is committed or can still be, and after that it is never attached again.
-/

namespace Stroem.InputFiles

open Foundation

/-! ## What is asked of every state -/

def AttachedKept (s : State) : Prop :=
  ∀ a ∈ s.attachments, ∃ row, s.files a.fileId = some row ∧ row.deletingAt = none ∧
    row.storageKey ∉ s.swept

def Marked (s : State) (fileId : FileId) : Prop :=
  ∃ row, s.files fileId = some row ∧ row.deletingAt ≠ none

def NotAttached (s : State) (fileId : FileId) : Prop :=
  (∀ a ∈ s.attachments, a.fileId ≠ fileId) ∧
    ∀ call tx, (s.creations call).tx = some tx → ∀ a ∈ tx.written, a.fileId ≠ fileId

/-! ## The invariant -/

def Live (s : State) (fileId : FileId) : Prop :=
  ∃ row, s.files fileId = some row ∧ row.deletingAt = none

def Retired (s : State) (fileId : FileId) : Prop :=
  fileId ∈ s.usedFiles ∧ ¬ Live s fileId

def Holds (s : State) (call : Nat) (fileId : FileId) : Prop :=
  call ∈ s.sharedBy fileId ∧ Live s fileId

def CreationFits (s : State) (call : Nat) : CreationCall → Prop
  | .idle => True
  | .attaching tx | .refused tx => ∀ a ∈ tx.written, Holds s call a.fileId
  | .checking tx _ fileId _ | .matched tx _ fileId =>
    (∀ a ∈ tx.written, Holds s call a.fileId) ∧ Holds s call fileId

def RowOk (cfg : Config) (row : FileRow) : Prop :=
  isFileId row.fileId = true ∧ row.storageKey = inputFileStorageKey cfg row.workspace row.fileId

def Unattached (s : State) (fileId : FileId) : Prop :=
  ∀ a ∈ s.attachments, a.fileId ≠ fileId

def SweepFits (cfg : Config) (s : State) (sweep : Nat) : SweepCall → Prop
  | .idle | .next _ => True
  | .locked fileId _ => s.lockedBy fileId = some sweep
  | .unattached fileId _ => s.lockedBy fileId = some sweep ∧ Unattached s fileId
  | .marked row _ => (s.lockedBy row.fileId = some sweep ∧ Unattached s row.fileId) ∧
      row.deletingAt ≠ none ∧ RowOk cfg row ∧ row.fileId ∈ s.usedFiles
  | .committed row _ | .blobDeleted row _ | .deletingRow row _ =>
    RowOk cfg row ∧ Retired s row.fileId

def SweepCall.locking : SweepCall → Prop
  | .locked _ _ | .unattached _ _ | .marked _ _ => True
  | _ => False

structure Sound (cfg : Config) (s : State) : Prop where
  files : ∀ fileId row, s.files fileId = some row →
    row.fileId = fileId ∧ RowOk cfg row ∧ fileId ∈ s.usedFiles
  exclusive : ∀ fileId, s.lockedBy fileId ≠ none → s.sharedBy fileId = []
  attachments : ∀ a ∈ s.attachments, Live s a.fileId
  creations : ∀ call, CreationFits s call (s.creations call)
  sweeps : ∀ sweep, SweepFits cfg s sweep (s.sweeps sweep)
  swept : ∀ key ∈ s.swept, ∃ workspace fileId, isFileId fileId = true ∧
    key = inputFileStorageKey cfg workspace fileId ∧ Retired s fileId

/-! ## Storage keys -/

theorem length_of_isFileId {fileId : FileId} (h : isFileId fileId = true) :
    fileId.toList.length = 37 := by
  unfold isFileId at h
  simp only [Bool.and_eq_true, decide_eq_true_eq] at h
  have htake := congrArg List.length h.1.1
  have hdrop := h.1.2
  rw [List.length_take] at htake
  rw [List.length_drop] at hdrop
  have hfive : ("file_".toList).length = 5 := by decide
  omega

theorem inputFileStorageKey_inj {cfg : Config} {workspace workspace' : String}
    {fileId fileId' : FileId} (hid : isFileId fileId = true) (hid' : isFileId fileId' = true)
    (h : inputFileStorageKey cfg workspace fileId = inputFileStorageKey cfg workspace' fileId') :
    fileId = fileId' := by
  have hlist := congrArg String.toList h
  simp only [inputFileStorageKey, String.toList_append] at hlist
  have hlength : fileId.toList.length = fileId'.toList.length := by
    rw [length_of_isFileId hid, length_of_isFileId hid']
  exact String.toList_inj.mp (List.append_inj_right' hlist hlength)

/-! ## What the invariant says -/

section Steps

variable {cfg : Config} {s t : State} {call sweep : Nat} {fileId : FileId}

theorem Sound.attachedKept (h : Sound cfg s) : AttachedKept s := by
  intro a ha
  obtain ⟨row, hrow, hlive⟩ := h.attachments a ha
  refine ⟨row, hrow, hlive, fun hswept => ?_⟩
  obtain ⟨hid, ⟨hok, hkey⟩, -⟩ := h.files a.fileId row hrow
  obtain ⟨workspace, fileId', hid', hkey', hretired⟩ := h.swept _ hswept
  have hsame : row.fileId = fileId' := inputFileStorageKey_inj hok hid' (hkey ▸ hkey')
  exact hretired.2 ⟨row, by rw [← hsame, hid, hrow], hlive⟩

theorem Sound.notAttached (h : Sound cfg s) (hretired : Retired s fileId) :
    NotAttached s fileId := by
  refine ⟨fun a ha heq => hretired.2 (heq ▸ h.attachments a ha), fun call tx htx a ha heq => ?_⟩
  have hfits := h.creations call
  have hholds : Holds s call a.fileId := by
    revert hfits htx
    cases s.creations call with
    | idle => exact fun htx => nomatch htx
    | attaching tx' | refused tx' =>
      intro htx hfits
      cases htx
      exact hfits a ha
    | checking tx' field fileId' rules | matched tx' field fileId' =>
      intro htx hfits
      cases htx
      exact hfits.1 a ha
  exact hretired.2 (heq ▸ hholds.2)

theorem Sound.retired_of_marked (h : Sound cfg s) (hmarked : Marked s fileId) :
    Retired s fileId := by
  obtain ⟨row, hrow, hdeleting⟩ := hmarked
  refine ⟨(h.files fileId row hrow).2.2, fun hlive => ?_⟩
  obtain ⟨row', hrow', hnone⟩ := hlive
  rw [hrow] at hrow'
  cases hrow'
  exact hdeleting hnone

/-! ## Frames -/

theorem CreationFits.mono {c : CreationCall} (h : CreationFits s call c)
    (hholds : ∀ fileId, Holds s call fileId → Holds t call fileId) : CreationFits t call c := by
  cases c with
  | idle => trivial
  | attaching tx | refused tx => exact fun a ha => hholds _ (h a ha)
  | checking tx field fileId rules | matched tx field fileId =>
    exact ⟨fun a ha => hholds _ (h.1 a ha), hholds _ h.2⟩

theorem SweepFits.mono {c : SweepCall} (h : SweepFits cfg s sweep c)
    (hlocked : c.locking → ∀ fileId, s.lockedBy fileId = some sweep →
      t.lockedBy fileId = some sweep)
    (hunattached : ∀ fileId, s.lockedBy fileId ≠ none → Unattached s fileId →
      Unattached t fileId)
    (hretired : ∀ fileId, Retired s fileId → Retired t fileId)
    (hused : ∀ fileId ∈ s.usedFiles, fileId ∈ t.usedFiles) : SweepFits cfg t sweep c := by
  have hboth : c.locking → ∀ fileId, s.lockedBy fileId = some sweep ∧ Unattached s fileId →
      t.lockedBy fileId = some sweep ∧ Unattached t fileId := by
    intro hc fileId hold
    exact ⟨hlocked hc fileId hold.1, hunattached fileId (by rw [hold.1]; nofun) hold.2⟩
  cases c with
  | idle | next ids => trivial
  | locked fileId ids => exact hlocked trivial fileId h
  | unattached fileId ids => exact hboth trivial fileId h
  | marked row ids => exact ⟨hboth trivial _ h.1, h.2.1, h.2.2.1, hused _ h.2.2.2⟩
  | committed row ids | blobDeleted row ids | deletingRow row ids => exact ⟨h.1, hretired _ h.2⟩

theorem Sound.setCreation {c : CreationCall} (h : Sound cfg s) (hfits : CreationFits s call c) :
    Sound cfg (s.setCreation call c) := by
  refine ⟨h.files, h.exclusive, h.attachments, ?_, h.sweeps, h.swept⟩
  exact State.setCreation_cases (P := fun call c => CreationFits s call c) hfits
    fun other _ => h.creations other

theorem Sound.setSweep {c : SweepCall} (h : Sound cfg s) (hfits : SweepFits cfg s sweep c) :
    Sound cfg (s.setSweep sweep c) := by
  refine ⟨h.files, h.exclusive, h.attachments, h.creations, ?_, h.swept⟩
  exact State.setSweep_cases (P := fun sweep c => SweepFits cfg s sweep c) hfits
    fun other _ => h.sweeps other

/-! ## Locks -/

theorem Sound.share (h : Sound cfg s) (hfree : s.lockedBy fileId = none) (call : Nat) :
    Sound cfg (s.share call fileId) := by
  have hholds : ∀ other fileId', Holds s other fileId' →
      Holds (s.share call fileId) other fileId' := by
    rintro other fileId' ⟨hmem, hlive⟩
    refine ⟨?_, hlive⟩
    show other ∈ Function.update s.sharedBy fileId (call :: s.sharedBy fileId) fileId'
    by_cases heq : fileId' = fileId
    · subst heq
      rw [Function.update_self]
      exact List.mem_cons_of_mem _ hmem
    · rw [Function.update_of_ne heq]
      exact hmem
  refine ⟨h.files, fun fileId' hlocked => ?_, h.attachments,
    fun other => (h.creations other).mono (hholds other), h.sweeps, h.swept⟩
  show Function.update s.sharedBy fileId (call :: s.sharedBy fileId) fileId' = []
  have hne : fileId' ≠ fileId := by
    rintro rfl
    exact hlocked hfree
  rw [Function.update_of_ne hne]
  exact h.exclusive fileId' hlocked

theorem Sound.unshare (h : Sound cfg s) (hidle : s.creations call = .idle) :
    Sound cfg (s.unshare call) := by
  refine ⟨h.files, fun fileId' hlocked => ?_, h.attachments, fun other => ?_, h.sweeps, h.swept⟩
  · show (s.sharedBy fileId').filter (· ≠ call) = []
    rw [h.exclusive fileId' hlocked, List.filter_nil]
  · by_cases heq : other = call
    · subst heq
      rw [show (s.unshare other).creations other = .idle from hidle]
      trivial
    · refine (h.creations other).mono fun fileId' hholds => ⟨?_, hholds.2⟩
      exact List.mem_filter.mpr ⟨hholds.1, by simpa using heq⟩

theorem Sound.lockFile (h : Sound cfg s) (hfree : s.lockedBy fileId = none)
    (hshared : s.sharedBy fileId = []) (sweep : Nat) : Sound cfg (s.lockFile sweep fileId) := by
  have hkept : ∀ fileId' other, s.lockedBy fileId' = some other →
      (s.lockFile sweep fileId).lockedBy fileId' = some other := by
    intro fileId' other hlocked
    have hne : fileId' ≠ fileId := by
      rintro rfl
      rw [hfree] at hlocked
      cases hlocked
    exact (Function.update_of_ne hne ..).trans hlocked
  refine ⟨h.files, fun fileId' hlocked => ?_, h.attachments, h.creations, fun other => ?_, h.swept⟩
  · by_cases heq : fileId' = fileId
    · rw [heq]
      exact hshared
    · refine h.exclusive fileId' fun hnone => hlocked ?_
      exact (Function.update_of_ne heq ..).trans hnone
  · exact (h.sweeps other).mono (fun _ fileId' hlocked => hkept fileId' other hlocked)
      (fun _ _ hunattached => hunattached) (fun _ hretired => hretired) fun _ hused => hused

theorem Sound.unlock (h : Sound cfg s) (hfree : ¬ (s.sweeps sweep).locking) :
    Sound cfg (s.unlock sweep) := by
  refine ⟨h.files, fun fileId' hlocked => ?_, h.attachments, h.creations, fun other => ?_, h.swept⟩
  · refine h.exclusive fileId' fun hnone => hlocked ?_
    show (if s.lockedBy fileId' = some sweep then none else s.lockedBy fileId') = none
    rw [hnone]
    rfl
  · refine (h.sweeps other).mono (fun hlocking fileId' hlocked => ?_)
      (fun _ _ hunattached => hunattached) (fun _ hretired => hretired) fun _ hused => hused
    show (if s.lockedBy fileId' = some sweep then none else s.lockedBy fileId') = some other
    rw [if_neg ?_, hlocked]
    rw [hlocked]
    intro heq
    obtain rfl : other = sweep := Option.some.inj heq
    exact hfree hlocking

/-! ## Commits and deletions -/

theorem Sound.addAttachments {tx : CreationTx} (h : Sound cfg s)
    (hcall : s.creations call = .attaching tx) :
    Sound cfg { s with attachments := s.attachments ++ tx.written } := by
  have hwritten : ∀ a ∈ tx.written, Holds s call a.fileId := by
    have hfits := h.creations call
    rw [hcall] at hfits
    exact hfits
  refine ⟨h.files, h.exclusive, fun a ha => ?_, h.creations, fun other => ?_, h.swept⟩
  · rcases List.mem_append.mp ha with hold | hnew
    · exact h.attachments a hold
    · exact (hwritten a hnew).2
  · refine (h.sweeps other).mono (fun _ _ hlocked => hlocked) (fun fileId' hlocked hold a ha => ?_)
      (fun _ hretired => hretired) fun _ hused => hused
    rcases List.mem_append.mp ha with hmem | hnew
    · exact hold a hmem
    · rintro rfl
      have hshared := (hwritten a hnew).1
      rw [h.exclusive _ hlocked] at hshared
      cases hshared

theorem Sound.deleteJob (h : Sound cfg s) (jobId : Uuid) :
    Sound cfg { s with attachments := s.attachments.filter fun a => a.jobId ≠ jobId } := by
  refine ⟨h.files, h.exclusive, fun a ha => h.attachments a (List.mem_of_mem_filter ha),
    h.creations, fun other => ?_, h.swept⟩
  exact (h.sweeps other).mono (fun _ _ hlocked => hlocked)
    (fun fileId' _ hold a ha => hold a (List.mem_of_mem_filter ha))
    (fun _ hretired => hretired) fun _ hused => hused

theorem Sound.upload {row : FileRow} (h : Sound cfg s) (hok : RowOk cfg row)
    (hfresh : row.fileId ∉ s.usedFiles) :
    Sound cfg (State.setFile { s with usedFiles := row.fileId :: s.usedFiles } row.fileId
      (some row)) := by
  have hsame : ∀ fileId', fileId' ≠ row.fileId →
      Function.update s.files row.fileId (some row) fileId' = s.files fileId' :=
    fun fileId' hne => Function.update_of_ne hne ..
  have hlive : ∀ fileId', Live s fileId' →
      Live (State.setFile { s with usedFiles := row.fileId :: s.usedFiles } row.fileId (some row))
        fileId' := by
    rintro fileId' ⟨row', hrow', hnone⟩
    have hne : fileId' ≠ row.fileId := by
      rintro rfl
      exact hfresh (h.files _ row' hrow').2.2
    exact ⟨row', (hsame fileId' hne).trans hrow', hnone⟩
  have hretired : ∀ fileId', Retired s fileId' →
      Retired (State.setFile { s with usedFiles := row.fileId :: s.usedFiles } row.fileId
        (some row)) fileId' := by
    rintro fileId' ⟨hused, hnot⟩
    have hne : fileId' ≠ row.fileId := by
      rintro rfl
      exact hfresh hused
    refine ⟨List.mem_cons_of_mem _ hused, ?_⟩
    rintro ⟨row', hrow', hnone⟩
    exact hnot ⟨row', (hsame fileId' hne).symm.trans hrow', hnone⟩
  refine ⟨fun fileId' row' hrow' => ?_, h.exclusive, fun a ha => hlive _ (h.attachments a ha),
    fun other => (h.creations other).mono fun fileId' hholds => ⟨hholds.1, hlive _ hholds.2⟩,
    fun other => (h.sweeps other).mono (fun _ _ hlocked => hlocked) (fun _ _ hold => hold)
      hretired fun _ hused => List.mem_cons_of_mem _ hused, fun key hkey => ?_⟩
  · change Function.update s.files row.fileId (some row) fileId' = some row' at hrow'
    by_cases heq : fileId' = row.fileId
    · subst heq
      rw [Function.update_self] at hrow'
      cases hrow'
      exact ⟨rfl, hok, List.mem_cons_self⟩
    · rw [hsame fileId' heq] at hrow'
      obtain ⟨hid, hrowOk, hused⟩ := h.files fileId' row' hrow'
      exact ⟨hid, hrowOk, List.mem_cons_of_mem _ hused⟩
  · obtain ⟨workspace, fileId', hid, hkeyed, hgone⟩ := h.swept key hkey
    exact ⟨workspace, fileId', hid, hkeyed, hretired fileId' hgone⟩

theorem Sound.retire {row : Option FileRow} (h : Sound cfg s) (hused : fileId ∈ s.usedFiles)
    (hrow : ∀ r, row = some r → r.fileId = fileId ∧ RowOk cfg r ∧ r.deletingAt ≠ none)
    (hunattached : Unattached s fileId) (hshared : s.sharedBy fileId = []) :
    Sound cfg (s.setFile fileId row) := by
  have hsame : ∀ fileId', fileId' ≠ fileId →
      (s.setFile fileId row).files fileId' = s.files fileId' :=
    fun fileId' hne => Function.update_of_ne hne ..
  have hself : (s.setFile fileId row).files fileId = row := Function.update_self ..
  have hlive : ∀ fileId', fileId' ≠ fileId → Live s fileId' →
      Live (s.setFile fileId row) fileId' := by
    rintro fileId' hne ⟨row', hrow', hnone⟩
    exact ⟨row', (hsame fileId' hne).trans hrow', hnone⟩
  have hdead : ¬ Live (s.setFile fileId row) fileId := by
    rintro ⟨row', hrow', hnone⟩
    exact (hrow row' (hself.symm.trans hrow')).2.2 hnone
  have hretired : ∀ fileId', Retired s fileId' → Retired (s.setFile fileId row) fileId' := by
    rintro fileId' ⟨hold, hnot⟩
    refine ⟨hold, ?_⟩
    by_cases heq : fileId' = fileId
    · rw [heq]
      exact hdead
    · rintro ⟨row', hrow', hnone⟩
      exact hnot ⟨row', (hsame fileId' heq).symm.trans hrow', hnone⟩
  refine ⟨fun fileId' row' hrow' => ?_, h.exclusive,
    fun a ha => hlive _ (hunattached a ha) (h.attachments a ha), fun other => ?_,
    fun other => (h.sweeps other).mono (fun _ _ hlocked => hlocked) (fun _ _ hold => hold)
      hretired fun _ hold => hold, fun key hkey => ?_⟩
  · by_cases heq : fileId' = fileId
    · subst heq
      obtain ⟨hid, hok, -⟩ := hrow row' (hself.symm.trans hrow')
      exact ⟨hid, hok, hused⟩
    · exact h.files fileId' row' ((hsame fileId' heq).symm.trans hrow')
  · refine (h.creations other).mono fun fileId' hholds => ⟨hholds.1, hlive fileId' ?_ hholds.2⟩
    rintro rfl
    have hmem := hholds.1
    rw [hshared] at hmem
    cases hmem
  · obtain ⟨workspace, fileId', hid, hkeyed, hgone⟩ := h.swept key hkey
    exact ⟨workspace, fileId', hid, hkeyed, hretired fileId' hgone⟩

end Steps

/-! ## Steps -/

section Step

variable {cfg : Config} {s s' : State}

theorem Sound.holds (h : Sound cfg s) {call : Nat} {c : CreationCall}
    (hcall : s.creations call = c) : CreationFits s call c :=
  hcall ▸ h.creations call

theorem Sound.sweepFits (h : Sound cfg s) {sweep : Nat} {c : SweepCall}
    (hsweep : s.sweeps sweep = c) : SweepFits cfg s sweep c :=
  hsweep ▸ h.sweeps sweep

theorem Sound.endCreation (h : Sound cfg s) (call : Nat) :
    Sound cfg ((s.setCreation call .idle).unshare call) := by
  refine Sound.unshare (h.setCreation trivial) ?_
  simp [State.setCreation]

theorem Sound.endSweepTx {c : SweepCall} (h : Sound cfg s) (sweep : Nat)
    (hfits : SweepFits cfg s sweep c) (hfree : ¬ c.locking) :
    Sound cfg ((s.setSweep sweep c).unlock sweep) := by
  refine Sound.unlock (h.setSweep hfits) ?_
  simpa [State.setSweep] using hfree

def Event.ofCreation : Event → Bool
  | .begin _ _ _ | .attach _ | .check _ | .insert _ | .commit _ | .fail _ | .rollback _ => true
  | _ => false

theorem creation_step_sound {e : Event} (h : Sound cfg s) (hstep : step cfg s e = some s')
    (he : e.ofCreation = true) : Sound cfg s' := by
  cases e with
  | begin call req now =>
    simp only [step] at hstep
    split at hstep
    · rename_i tx hcall hbegin
      split at hstep
      · cases hstep
      · cases hstep
        have hwritten : tx.written = [] := by
          unfold beginCreation at hbegin
          dsimp only at hbegin
          split at hbegin
          · cases hbegin
          · split at hbegin
            · split at hbegin
              · cases hbegin
              · cases hbegin
                rfl
            · cases hbegin
        have hjobs : Sound cfg { s with usedJobs := req.jobId :: s.usedJobs } :=
          ⟨h.files, h.exclusive, h.attachments, h.creations, h.sweeps, h.swept⟩
        refine hjobs.setCreation fun a ha => ?_
        rw [hwritten] at ha
        cases ha
    · cases hstep
  | attach call =>
    simp only [step] at hstep
    split at hstep
    · rename_i tx hcall
      have hfits := h.holds hcall
      split at hstep
      · cases hstep
      · rename_i field fileId todo _
        split at hstep
        · rename_i hfree
          split at hstep
          · cases hstep
            exact h.setCreation hfits
          · rename_i row hrow
            have hshare := h.share hfree call
            have hwritten := (hshare.creations call)
            rw [show (s.share call fileId).creations call = .attaching tx from hcall] at hwritten
            split at hstep
            · rename_i hlive
              cases hstep
              refine hshare.setCreation ⟨hwritten, ?_, row, hrow, hlive⟩
              show call ∈ Function.update s.sharedBy fileId (call :: s.sharedBy fileId) fileId
              rw [Function.update_self]
              exact List.mem_cons_self
            · cases hstep
              exact hshare.setCreation hwritten
        · cases hstep
    · cases hstep
  | check call =>
    simp only [step] at hstep
    split at hstep
    · rename_i tx field fileId rules hcall
      have hfits := h.holds hcall
      split at hstep
      · cases hstep
        exact h.setCreation hfits.1
      · split at hstep
        · cases hstep
          exact h.setCreation hfits
        · cases hstep
          exact h.setCreation hfits
    · cases hstep
  | insert call =>
    simp only [step] at hstep
    split at hstep
    · rename_i tx field fileId hcall
      cases hstep
      have hfits := h.holds hcall
      refine h.setCreation fun a ha => ?_
      rcases List.mem_append.mp ha with hold | hnew
      · exact hfits.1 a hold
      · obtain rfl := List.mem_singleton.mp hnew
        exact hfits.2
    · cases hstep
  | commit call =>
    simp only [step] at hstep
    split at hstep
    · rename_i tx hcall
      split at hstep
      · cases hstep
        exact (h.addAttachments hcall).endCreation call
      · cases hstep
    · cases hstep
  | fail call =>
    simp only [step] at hstep
    split at hstep
    · rename_i tx htx
      cases hstep
      refine h.setCreation ?_
      have hfits := h.creations call
      revert htx hfits
      cases s.creations call with
      | idle => exact fun htx => nomatch htx
      | attaching tx' | refused tx' =>
        intro htx hfits
        cases htx
        exact hfits
      | checking tx' field fileId rules | matched tx' field fileId =>
        intro htx hfits
        cases htx
        exact hfits.1
    · cases hstep
  | rollback call =>
    simp only [step] at hstep
    split at hstep
    · cases hstep
      exact h.endCreation call
    · cases hstep
  | _ => cases he

def Event.ofSweep : Event → Bool
  | .list _ _ _ | .lock _ | .inspect _ | .mark _ _ | .commitMark _ | .deleteBlob _
  | .deleteStart _ | .deleteRow _ | .skip _ => true
  | _ => false

theorem sweep_step_sound {e : Event} (h : Sound cfg s) (hstep : step cfg s e = some s')
    (he : e.ofSweep = true) : Sound cfg s' := by
  cases e with
  | list sweep ids now =>
    simp only [step] at hstep
    split at hstep
    · cases hstep
      exact h.setSweep trivial
    · cases hstep
  | lock sweep =>
    simp only [step] at hstep
    split at hstep
    · cases hstep
      exact h.setSweep trivial
    · rename_i fileId ids hsweep
      split at hstep
      · cases hstep
        exact h.setSweep trivial
      · split at hstep
        · rename_i hfree
          cases hstep
          refine (h.lockFile hfree.1 hfree.2 sweep).setSweep ?_
          exact Function.update_self ..
        · cases hstep
    · cases hstep
  | inspect sweep =>
    simp only [step] at hstep
    split at hstep
    · rename_i fileId ids hsweep
      have hfits := h.sweepFits hsweep
      split at hstep
      · cases hstep
        exact h.endSweepTx sweep trivial id
      · rename_i hattached
        cases hstep
        refine h.setSweep ⟨hfits, fun a ha heq => hattached ?_⟩
        exact List.any_eq_true.mpr ⟨a, ha, by simpa using heq⟩
    · cases hstep
  | mark sweep now =>
    simp only [step] at hstep
    split at hstep
    · rename_i fileId ids hsweep
      have hfits := h.sweepFits hsweep
      split at hstep
      · cases hstep
        exact h.endSweepTx sweep trivial id
      · rename_i row hrow
        cases hstep
        obtain ⟨rfl, hok, hused⟩ := h.files fileId row hrow
        exact h.setSweep ⟨hfits, nofun, hok, hused⟩
    · cases hstep
  | commitMark sweep =>
    simp only [step] at hstep
    split at hstep
    · rename_i row ids hsweep
      cases hstep
      obtain ⟨⟨hlocked, hunattached⟩, hdeleting, hok, hused⟩ := h.sweepFits hsweep
      have hshared : s.sharedBy row.fileId = [] := h.exclusive _ (by rw [hlocked]; nofun)
      have hretire : Sound cfg (s.setFile row.fileId (some row)) := by
        refine h.retire hused (fun r hr => ?_) hunattached hshared
        cases hr
        exact ⟨rfl, hok, hdeleting⟩
      refine hretire.endSweepTx sweep ⟨hok, hused, ?_⟩ id
      rintro ⟨row', hrow', hnone⟩
      have hself : (s.setFile row.fileId (some row)).files row.fileId = some row :=
        Function.update_self ..
      rw [hself] at hrow'
      cases hrow'
      exact hdeleting hnone
    · cases hstep
  | deleteBlob sweep =>
    simp only [step] at hstep
    split at hstep
    · rename_i row ids hsweep
      cases hstep
      obtain ⟨hok, hretired⟩ := h.sweepFits hsweep
      have hswept : Sound cfg { s with swept := row.storageKey :: s.swept } := by
        refine ⟨h.files, h.exclusive, h.attachments, h.creations, h.sweeps, fun key hkey => ?_⟩
        rcases List.mem_cons.mp hkey with rfl | hold
        · exact ⟨row.workspace, row.fileId, hok.1, hok.2, hretired⟩
        · exact h.swept key hold
      exact hswept.setSweep ⟨hok, hretired⟩
    · cases hstep
  | deleteStart sweep =>
    simp only [step] at hstep
    split at hstep
    · rename_i row ids hsweep
      have hfits := h.sweepFits hsweep
      split at hstep
      · cases hstep
        exact h.setSweep trivial
      · split at hstep
        · cases hstep
          exact h.setSweep trivial
        · cases hstep
          exact h.setSweep hfits
    · cases hstep
  | deleteRow sweep =>
    simp only [step] at hstep
    split at hstep
    · rename_i row ids hsweep
      obtain ⟨-, hretired⟩ := h.sweepFits hsweep
      split at hstep
      · rename_i hfree
        split at hstep
        · cases hstep
          exact h.setSweep trivial
        · split at hstep
          · cases hstep
            exact h.setSweep trivial
          · cases hstep
            refine Sound.setSweep (h.retire hretired.1 nofun ?_ hfree.2) trivial
            exact (h.notAttached hretired).1
      · cases hstep
    · cases hstep
  | skip sweep =>
    simp only [step] at hstep
    split at hstep
    all_goals
      cases hstep
      first | exact h.setSweep trivial | exact h.endSweepTx sweep trivial id
  | _ => cases he

theorem step_sound {e : Event} (h : Sound cfg s) (hstep : step cfg s e = some s') :
    Sound cfg s' := by
  cases e with
  | upload row =>
    simp only [step] at hstep
    split at hstep
    · rename_i hguard
      cases hstep
      exact h.upload ⟨hguard.1, hguard.2.2.2⟩ hguard.2.1
    · cases hstep
  | deleteJob jobId =>
    cases hstep
    exact h.deleteJob jobId
  | begin _ _ _ | attach _ | check _ | insert _ | commit _ | fail _ | rollback _ =>
    exact creation_step_sound h hstep rfl
  | list _ _ _ | lock _ | inspect _ | mark _ _ | commitMark _ | deleteBlob _ | deleteStart _
  | deleteRow _ | skip _ => exact sweep_step_sound h hstep rfl

theorem step_retired {e : Event} {fileId : FileId} (h : Sound cfg s) (hretired : Retired s fileId)
    (hstep : step cfg s e = some s') : Retired s' fileId := by
  obtain ⟨hused, hdead⟩ := hretired
  cases e with
  | upload row =>
    simp only [step] at hstep
    split at hstep
    · rename_i hguard
      cases hstep
      refine ⟨List.mem_cons_of_mem _ hused, ?_⟩
      rintro ⟨row', hrow', hnone⟩
      have hne : fileId ≠ row.fileId := by
        rintro rfl
        exact hguard.2.1 hused
      exact hdead ⟨row', (Function.update_of_ne hne ..).symm.trans hrow', hnone⟩
    · cases hstep
  | commitMark sweep =>
    simp only [step] at hstep
    split at hstep
    · rename_i row ids hsweep
      cases hstep
      have hfits := h.sweepFits hsweep
      refine ⟨hused, ?_⟩
      rintro ⟨row', hrow', hnone⟩
      change Function.update s.files row.fileId (some row) fileId = some row' at hrow'
      by_cases heq : fileId = row.fileId
      · subst heq
        rw [Function.update_self] at hrow'
        cases hrow'
        exact hfits.2.1 hnone
      · rw [Function.update_of_ne heq] at hrow'
        exact hdead ⟨row', hrow', hnone⟩
    · cases hstep
  | deleteRow sweep =>
    simp only [step] at hstep
    repeat' split at hstep
    · cases hstep
      exact ⟨hused, hdead⟩
    · cases hstep
      exact ⟨hused, hdead⟩
    · rename_i row ids hsweep hfree _ current hcurrent hdeleting
      cases hstep
      refine ⟨hused, ?_⟩
      rintro ⟨row', hrow', hnone⟩
      change Function.update s.files row.fileId none fileId = some row' at hrow'
      by_cases heq : fileId = row.fileId
      · subst heq
        rw [Function.update_self] at hrow'
        cases hrow'
      · rw [Function.update_of_ne heq] at hrow'
        exact hdead ⟨row', hrow', hnone⟩
    · cases hstep
    · cases hstep
  | _ =>
    -- no other event writes a row of a file
    simp only [step] at hstep
    repeat' split at hstep
    all_goals
      first
      | cases hstep
        exact ⟨hused, hdead⟩
      | cases hstep

end Step

theorem sound_start (cfg : Config) : Sound cfg {} where
  files _ _ hrow := nomatch hrow
  exclusive _ hlocked := absurd rfl hlocked
  attachments _ ha := nomatch ha
  creations _ := trivial
  sweeps _ := trivial
  swept _ hkey := nomatch hkey

theorem exec_sound {cfg : Config} {events : List Event} {s t : State} (h : Sound cfg s)
    (hrun : exec (step cfg) s events = some t) : Sound cfg t :=
  exec_invariant (Sound cfg) (fun _ _ _ hs _ => step_sound hs) h
    (Meets.of_forall (fun _ _ => trivial) s events) hrun

theorem exec_retired {cfg : Config} {events : List Event} {s t : State} {fileId : FileId}
    (h : Sound cfg s) (hretired : Retired s fileId) (hrun : exec (step cfg) s events = some t) :
    Retired t fileId := by
  have hboth := exec_invariant (fun s => Sound cfg s ∧ Retired s fileId)
    (fun _ _ _ hs _ hstep => ⟨step_sound hs.1 hstep, step_retired hs.1 hs.2 hstep⟩)
    ⟨h, hretired⟩ (Meets.of_forall (fun _ _ => trivial) s events) hrun
  exact hboth.2

/--
In every run an attached file is neither marked nor swept, and a file that is marked in one state
is attached in no later one.
-/
theorem attached_files_kept (cfg : Config) (events : List Event) (s : State)
    (hrun : exec (step cfg) {} events = some s) :
    AttachedKept s ∧ ∀ fileId, Marked s fileId → ∀ later t, exec (step cfg) s later = some t →
      NotAttached t fileId := by
  have hs := exec_sound (sound_start cfg) hrun
  refine ⟨hs.attachedKept, fun fileId hmarked later t hlater => ?_⟩
  have hretired := exec_retired hs (hs.retired_of_marked hmarked) hlater
  exact (exec_sound hs hlater).notAttached hretired

/-! ## A sweep between a lock and a commit -/

def staleFile : FileRow where
  fileId := "file_00000000000000000000000000000000"
  workspace := "main"
  taskName := "report"
  uploadedByUserId := some 1
  storageKey := "inputs/main/file_00000000000000000000000000000000"
  createdAt := 0
  deletingAt := none

def reportEvents : List Event :=
  [.upload uploadedFile, .upload staleFile, .begin 0 (fileRequest 7 (.execute (some 1))) 50,
    .attach 0, .list 0 [uploadedFile.fileId, staleFile.fileId] 61, .check 0, .insert 0, .commit 0,
    .lock 0, .inspect 0, .lock 0, .inspect 0, .mark 0 61, .commitMark 0]

def staleEvents : List Event :=
  [.begin 1 { fileRequest 8 (.execute (some 1)) with
      input := .obj [("file", .str staleFile.fileId)] } 55,
    .deleteBlob 0, .attach 1, .rollback 1, .deleteStart 0, .deleteRow 0]

theorem attached_files_kept_staleFile :
    ∃ s t, exec (step inputsConfig) {} reportEvents = some s ∧
      s.attachments = [⟨7, "file", uploadedFile.fileId⟩] ∧ AttachedKept s ∧
      Marked s staleFile.fileId ∧ exec (step inputsConfig) s staleEvents = some t ∧
      t.swept = [staleFile.storageKey] ∧ NotAttached t staleFile.fileId := by
  have hmarked : ∀ s, exec (step inputsConfig) {} reportEvents = some s →
      Marked s staleFile.fileId := by
    rintro _ ⟨⟩
    exact ⟨{ staleFile with deletingAt := some 61 }, rfl, by decide⟩
  refine ⟨_, _, rfl, rfl, ?_, hmarked _ rfl, rfl, rfl, ?_⟩
  · exact (attached_files_kept inputsConfig reportEvents _ rfl).1
  · exact (attached_files_kept inputsConfig reportEvents _ rfl).2 staleFile.fileId
      (hmarked _ rfl) staleEvents _ rfl

end Stroem.InputFiles
