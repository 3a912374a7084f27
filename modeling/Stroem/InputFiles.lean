import Mathlib.Data.List.Sort
import Mathlib.Logic.Function.Basic
import Stroem.AgentState

/-!
# Input files

A file is uploaded for a task and attached to jobs in their creation transactions, under a shared
row lock.  The sweep marks an unattached file under an exclusive row lock, deletes its blob and
then its row.  One event below is one statement, commit or blob operation; a statement that waits
for a row lock is the event of its getting the lock, and reads the row as it then is.
-/

namespace Stroem.InputFiles

/-! ## File values of an input -/

abbrev FileId := String

def isFileId (s : FileId) : Bool :=
  s.toList.take 5 = "file_".toList && (s.toList.drop 5).length = 32 &&
    (s.toList.drop 5).all fun c => c.isDigit || ('a' ≤ c && c ≤ 'f')

structure InputField where
  name : String
  fieldType : String
  required : Bool
  deriving DecidableEq

inductive FileInputErrorKind
  | cannotUse
  | required
  deriving DecidableEq

structure FileInputError where
  field : String
  kind : FileInputErrorKind
  deriving DecidableEq

def sortedFileFields (schema : List InputField) : List InputField :=
  (schema.filter (·.fieldType = "file")).insertionSort fun a b => ¬ b.name < a.name

def isNoFile : Option Json → Bool
  | none => true
  | some .null => true
  | some (.str s) => s = ""
  | some _ => false

def inputField (name : String) : Json → Option Json
  | .obj fields => Fields.get name fields
  | _ => none

def fileValuesOf (input : Json) : List InputField → Except FileInputError (List (String × FileId))
  | [] => .ok []
  | field :: fields =>
    let value := inputField field.name input
    if isNoFile value then
      if field.required then .error ⟨field.name, .required⟩ else fileValuesOf input fields
    else
      match value with
      | some (.str s) =>
        if isFileId s then do
          let rest ← fileValuesOf input fields
          return (field.name, s) :: rest
        else .error ⟨field.name, .cannotUse⟩
      | _ => .error ⟨field.name, .cannotUse⟩

def taskFileValues (schema : List InputField) (input : Json) :
    Except FileInputError (List (String × FileId)) :=
  fileValuesOf input (sortedFileFields schema)

def preflight (schema : List InputField) (input : Json) : Except FileInputError Unit :=
  let fields := sortedFileFields schema
  match fields.find? (·.required) with
  | some field => .error ⟨field.name, .required⟩
  | none =>
    match fields.find? fun field => ¬ isNoFile (inputField field.name input) with
    | some field => .error ⟨field.name, .cannotUse⟩
    | none => .ok ()

/-! ## Creations -/

inductive CreationMode
  | normal
  | hook (source : Uuid)
  | rerun (source : Uuid)
  | restart (source : Uuid)
  | retry (failed : Uuid)
  deriving DecidableEq

inductive FileGrant
  | indirect
  | direct (userId : Option Uuid) (ttlSecs : Nat)
  | taskChild
  deriving DecidableEq

structure Config where
  keyPrefix : String
  uploadTtlSecs : Nat
  inputStorage : Bool
  deriving DecidableEq

inductive Start
  | execute (userId : Option Uuid)
  | mcp (userId : Option Uuid)
  | rerun (source : Uuid) (userId : Option Uuid)
  | restart (source : Uuid) (userId : Option Uuid)
  | retry (failed : Uuid)
  | taskChild (parent : Uuid)
  | agentChild (parent : Uuid)
  | trigger
  | webhook
  | eventSource
  | hook (source : Uuid)
  deriving DecidableEq

def Start.mode : Start → CreationMode
  | .rerun source _ => .rerun source
  | .restart source _ => .restart source
  | .retry failed => .retry failed
  | .hook source => .hook source
  | _ => .normal

def Start.grant (cfg : Config) : Start → FileGrant
  | .execute userId | .mcp userId | .rerun _ userId | .restart _ userId =>
    .direct userId cfg.uploadTtlSecs
  | .taskChild _ => .taskChild
  | _ => .indirect

def Start.parentJobId : Start → Option Uuid
  | .taskChild parent | .agentChild parent => some parent
  | _ => none

def Start.preflighted : Start → Bool
  | .trigger | .webhook => true
  | _ => false

structure CreationRequest where
  jobId : Uuid
  workspace : String
  taskName : String
  schema : List InputField
  input : Json
  start : Start
  deriving DecidableEq

def fileLineage (req : CreationRequest) (grant : FileGrant) : Except String (Option Uuid) :=
  match req.start.mode, grant with
  | .rerun source, _ => .ok (some source)
  | .restart source, _ => .ok (some source)
  | .retry failed, _ => .ok (some failed)
  | _, .taskChild =>
    match req.start.parentJobId with
    | some parent => .ok (some parent)
    | none => .error ("child job of task '" ++ req.taskName ++ "' in workspace '" ++
        req.workspace ++ "' has no parent job")
  | _, _ => .ok none

inductive AttachRule
  | own (workspace taskName : String) (userId : Option Uuid) (ttlSecs : Nat)
  | lineage (jobId : Uuid)
  deriving DecidableEq

def attachRules (req : CreationRequest) (grant : FileGrant) (lineage : Option Uuid) :
    List AttachRule :=
  (match lineage with
    | some source => [.lineage source]
    | none => []) ++
  match grant with
  | .direct userId ttlSecs => [.own req.workspace req.taskName userId ttlSecs]
  | _ => []

/-! ## Rows -/

structure FileRow where
  fileId : FileId
  workspace : String
  taskName : String
  uploadedByUserId : Option Uuid
  storageKey : String
  createdAt : Nat
  deletingAt : Option Nat
  deriving DecidableEq

structure Attachment where
  jobId : Uuid
  field : String
  fileId : FileId
  deriving DecidableEq

def inputFileStorageKey (cfg : Config) (workspace : String) (fileId : FileId) : String :=
  cfg.keyPrefix ++ workspace ++ "/" ++ fileId

/-! ## Requests -/

structure CreationTx where
  request : CreationRequest
  startedAt : Nat
  rules : List AttachRule
  todo : List (String × FileId)
  written : List Attachment
  deriving DecidableEq

inductive CreationCall
  | idle
  | attaching (tx : CreationTx)
  | checking (tx : CreationTx) (field : String) (fileId : FileId) (rules : List AttachRule)
  | matched (tx : CreationTx) (field : String) (fileId : FileId)
  | refused (tx : CreationTx)
  deriving DecidableEq

def CreationCall.tx : CreationCall → Option CreationTx
  | .idle => none
  | .attaching tx | .checking tx _ _ _ | .matched tx _ _ | .refused tx => some tx

inductive SweepCall
  | idle
  | next (ids : List FileId)
  | locked (fileId : FileId) (ids : List FileId)
  | unattached (fileId : FileId) (ids : List FileId)
  | marked (row : FileRow) (ids : List FileId)
  | committed (row : FileRow) (ids : List FileId)
  | blobDeleted (row : FileRow) (ids : List FileId)
  | deletingRow (row : FileRow) (ids : List FileId)
  deriving DecidableEq

structure State where
  files : FileId → Option FileRow := fun _ => none
  usedFiles : List FileId := []
  attachments : List Attachment := []
  usedJobs : List Uuid := []
  swept : List String := []
  sharedBy : FileId → List Nat := fun _ => []
  lockedBy : FileId → Option Nat := fun _ => none
  creations : Nat → CreationCall := fun _ => .idle
  sweeps : Nat → SweepCall := fun _ => .idle

inductive Event
  | upload (row : FileRow)
  | begin (call : Nat) (req : CreationRequest) (now : Nat)
  | attach (call : Nat)
  | check (call : Nat)
  | insert (call : Nat)
  | commit (call : Nat)
  | fail (call : Nat)
  | rollback (call : Nat)
  | deleteJob (jobId : Uuid)
  | list (sweep : Nat) (ids : List FileId) (now : Nat)
  | lock (sweep : Nat)
  | inspect (sweep : Nat)
  | mark (sweep : Nat) (now : Nat)
  | commitMark (sweep : Nat)
  | deleteBlob (sweep : Nat)
  | deleteStart (sweep : Nat)
  | deleteRow (sweep : Nat)
  | skip (sweep : Nat)
  deriving DecidableEq

/-! ## Statements -/

def isSweepCandidate (cfg : Config) (s : State) (now : Nat) (fileId : FileId) : Bool :=
  match s.files fileId with
  | none => false
  | some row => row.deletingAt.isSome ||
      (!s.attachments.any (·.fileId = fileId) && decide (row.createdAt + cfg.uploadTtlSecs < now))

def ruleMatches (s : State) (now : Nat) (fileId : FileId) : AttachRule → Bool
  | .own workspace taskName userId ttlSecs =>
    match s.files fileId with
    | none => false
    | some row => row.workspace = workspace && row.taskName = taskName &&
        row.uploadedByUserId = userId && decide (now < row.createdAt + ttlSecs)
  | .lineage jobId => s.attachments.any fun a => a.jobId = jobId && a.fileId = fileId

namespace State

def setCreation (s : State) (call : Nat) (c : CreationCall) : State :=
  { s with creations := Function.update s.creations call c }

def setSweep (s : State) (sweep : Nat) (c : SweepCall) : State :=
  { s with sweeps := Function.update s.sweeps sweep c }

theorem setCreation_cases {s : State} {call : Nat} {c : CreationCall}
    {P : Nat → CreationCall → Prop} (hcall : P call c)
    (hother : ∀ other, other ≠ call → P other (s.creations other)) (other : Nat) :
    P other ((s.setCreation call c).creations other) := by
  unfold setCreation
  by_cases heq : other = call
  · subst heq
    simpa using hcall
  · simpa [Function.update_of_ne heq] using hother other heq

theorem setSweep_cases {s : State} {sweep : Nat} {c : SweepCall} {P : Nat → SweepCall → Prop}
    (hsweep : P sweep c) (hother : ∀ other, other ≠ sweep → P other (s.sweeps other))
    (other : Nat) : P other ((s.setSweep sweep c).sweeps other) := by
  unfold setSweep
  by_cases heq : other = sweep
  · subst heq
    simpa using hsweep
  · simpa [Function.update_of_ne heq] using hother other heq

def setFile (s : State) (fileId : FileId) (row : Option FileRow) : State :=
  { s with files := Function.update s.files fileId row }

def share (s : State) (call : Nat) (fileId : FileId) : State :=
  { s with sharedBy := Function.update s.sharedBy fileId (call :: s.sharedBy fileId) }

def lockFile (s : State) (sweep : Nat) (fileId : FileId) : State :=
  { s with lockedBy := Function.update s.lockedBy fileId (some sweep) }

def unshare (s : State) (call : Nat) : State :=
  { s with sharedBy := fun fileId => (s.sharedBy fileId).filter (· ≠ call) }

def unlock (s : State) (sweep : Nat) : State :=
  { s with lockedBy := fun fileId =>
      if s.lockedBy fileId = some sweep then none else s.lockedBy fileId }

def attached (s : State) (fileId : FileId) : Bool :=
  s.attachments.any (·.fileId = fileId)

end State

def beginCreation (cfg : Config) (req : CreationRequest) (now : Nat) : Option CreationTx :=
  let grant := req.start.grant cfg
  if req.start.preflighted && (preflight req.schema req.input).isOk = false then none
  else
    match fileLineage req grant, taskFileValues req.schema req.input with
    | .ok lineage, .ok values =>
      if values ≠ [] ∧ cfg.inputStorage = false then none
      else some ⟨req, now, attachRules req grant lineage, values, []⟩
    | _, _ => none

def step (cfg : Config) (s : State) : Event → Option State
  | .upload row =>
    if isFileId row.fileId ∧ row.fileId ∉ s.usedFiles ∧ row.deletingAt = none ∧
        row.storageKey = inputFileStorageKey cfg row.workspace row.fileId then
      let s := { s with usedFiles := row.fileId :: s.usedFiles }
      some (s.setFile row.fileId (some row))
    else none
  | .begin call req now =>
    match s.creations call, beginCreation cfg req now with
    | .idle, some tx =>
      if req.jobId ∈ s.usedJobs then none
      else
        let s := { s with usedJobs := req.jobId :: s.usedJobs }
        some (s.setCreation call (.attaching tx))
    | _, _ => none
  | .attach call =>
    match s.creations call with
    | .attaching tx =>
      match tx.todo with
      | [] => none
      | (field, fileId) :: todo =>
        if s.lockedBy fileId = none then
          match s.files fileId with
          | none => some (s.setCreation call (.refused tx))
          | some row =>
            let s := s.share call fileId
            if row.deletingAt = none then
              some (s.setCreation call
                (.checking { tx with todo := todo } field fileId tx.rules))
            else some (s.setCreation call (.refused tx))
        else none
    | _ => none
  | .check call =>
    match s.creations call with
    | .checking tx field fileId rules =>
      match rules with
      | [] => some (s.setCreation call (.refused tx))
      | rule :: rules =>
        if ruleMatches s tx.startedAt fileId rule then
          some (s.setCreation call (.matched tx field fileId))
        else some (s.setCreation call (.checking tx field fileId rules))
    | _ => none
  | .insert call =>
    match s.creations call with
    | .matched tx field fileId =>
      let written := tx.written ++ [⟨tx.request.jobId, field, fileId⟩]
      some (s.setCreation call (.attaching { tx with written := written }))
    | _ => none
  | .commit call =>
    match s.creations call with
    | .attaching tx =>
      if tx.todo = [] then
        let s := { s with attachments := s.attachments ++ tx.written }
        some ((s.setCreation call .idle).unshare call)
      else none
    | _ => none
  | .fail call =>
    match (s.creations call).tx with
    | some tx => some (s.setCreation call (.refused tx))
    | none => none
  | .rollback call =>
    match s.creations call with
    | .refused _ => some ((s.setCreation call .idle).unshare call)
    | _ => none
  | .deleteJob jobId =>
    some { s with attachments := s.attachments.filter fun a => a.jobId ≠ jobId }
  | .list sweep ids now =>
    if s.sweeps sweep = .idle ∧ ∀ fileId ∈ ids, isSweepCandidate cfg s now fileId then
      some (s.setSweep sweep (.next ids))
    else none
  | .lock sweep =>
    match s.sweeps sweep with
    | .next [] => some (s.setSweep sweep .idle)
    | .next (fileId :: ids) =>
      match s.files fileId with
      | none => some (s.setSweep sweep (.next ids))
      | some _ =>
        if s.lockedBy fileId = none ∧ s.sharedBy fileId = [] then
          some ((s.lockFile sweep fileId).setSweep sweep (.locked fileId ids))
        else none
    | _ => none
  | .inspect sweep =>
    match s.sweeps sweep with
    | .locked fileId ids =>
      if s.attached fileId then some ((s.setSweep sweep (.next ids)).unlock sweep)
      else some (s.setSweep sweep (.unattached fileId ids))
    | _ => none
  | .mark sweep now =>
    match s.sweeps sweep with
    | .unattached fileId ids =>
      match s.files fileId with
      | none => some ((s.setSweep sweep (.next ids)).unlock sweep)
      | some row =>
        let row := { row with deletingAt := some (row.deletingAt.getD now) }
        some (s.setSweep sweep (.marked row ids))
    | _ => none
  | .commitMark sweep =>
    match s.sweeps sweep with
    | .marked row ids =>
      let s := s.setFile row.fileId (some row)
      some ((s.setSweep sweep (.committed row ids)).unlock sweep)
    | _ => none
  | .deleteBlob sweep =>
    match s.sweeps sweep with
    | .committed row ids =>
      let s := { s with swept := row.storageKey :: s.swept }
      some (s.setSweep sweep (.blobDeleted row ids))
    | _ => none
  | .deleteStart sweep =>
    match s.sweeps sweep with
    | .blobDeleted row ids =>
      match s.files row.fileId with
      | none => some (s.setSweep sweep (.next ids))
      | some current =>
        if current.deletingAt = none ∨ s.attached row.fileId then
          some (s.setSweep sweep (.next ids))
        else some (s.setSweep sweep (.deletingRow row ids))
    | _ => none
  | .deleteRow sweep =>
    match s.sweeps sweep with
    | .deletingRow row ids =>
      if s.lockedBy row.fileId = none ∧ s.sharedBy row.fileId = [] then
        match s.files row.fileId with
        | none => some (s.setSweep sweep (.next ids))
        | some current =>
          -- `ON DELETE RESTRICT` of the attachments
          if current.deletingAt = none ∨ s.attached row.fileId then
            some (s.setSweep sweep (.next ids))
          else some ((s.setFile row.fileId none).setSweep sweep (.next ids))
      else none
    | _ => none
  | .skip sweep =>
    match s.sweeps sweep with
    | .idle | .next _ => some (s.setSweep sweep .idle)
    | .locked _ ids | .unattached _ ids | .marked _ ids | .committed _ ids | .blobDeleted _ ids
    | .deletingRow _ ids => some ((s.setSweep sweep (.next ids)).unlock sweep)

/-! ## One upload -/

def inputsConfig : Config := ⟨"inputs/", 60, true⟩

def uploadedFile : FileRow where
  fileId := "file_0123456789abcdef0123456789abcdef"
  workspace := "main"
  taskName := "report"
  uploadedByUserId := some 1
  storageKey := "inputs/main/file_0123456789abcdef0123456789abcdef"
  createdAt := 0
  deletingAt := none

def fileRequest (jobId : Uuid) (start : Start) : CreationRequest where
  jobId := jobId
  workspace := "main"
  taskName := "report"
  schema := [⟨"file", "file", true⟩]
  input := .obj [("file", .str uploadedFile.fileId)]
  start := start

end Stroem.InputFiles
