import Stroem.AgentState
import Stroem.BlobArchive.Paths
import Stroem.Template

/-!
# Artifacts of a job

`upload_artifact` locks the job, checks the job's cap against the rows, stores the blob and then
upserts the row, whose key is the job and the name, and commits.  `delete_step_artifacts` deletes
the blobs of a step and then its rows, without the lock.  The state below is that of one job: its
rows, the blobs under its keys and the requests for it.

The local backend keeps the content type of a blob in a file beside it, `<key>.ct`.  That file is
no blob, but it may take the place of one: an artifact may be named so.
-/

namespace Stroem.Artifacts

open Stroem.BlobArchive (sidecar)

/-! ## Names -/

def isControl (c : Char) : Bool :=
  c.toNat < 0x20 || (0x7f ≤ c.toNat && c.toNat ≤ 0x9f)

def validatePathSegment (value field : String) : Except String Unit :=
  if value = "" then .error (field ++ " is empty")
  else if 255 < value.utf8ByteSize then .error (field ++ " exceeds 255 characters")
  else if value = "." ∨ value = ".." then .error ("invalid " ++ field ++ ": " ++ value)
  else if trim value ≠ value.toList then
    .error (field ++ " has leading or trailing whitespace")
  else if value.toList.any fun c => c = '\x00' || c = '\\' || c = '/' || (isControl c && c ≠ ' ')
  then .error (field ++ " contains forbidden character")
  else .ok ()

def validateNameSegments : List (List Char) → Except String Unit
  | [] => .ok ()
  | segment :: segments =>
    if segment = [] ∨ segment = ['.'] ∨ segment = ['.', '.'] then
      .error ("invalid path segment in artifact name: '" ++ String.ofList segment ++ "'")
    else if segment.head? = some '-' then
      .error "artifact name segment must not start with '-'"
    else if segment.any fun c => c = '\x00' || c = '\\' || (isControl c && c ≠ ' ') then
      .error "artifact name contains forbidden character"
    else validateNameSegments segments

def validateArtifactName (name : String) : Except String Unit :=
  if name = "" then .error "artifact name is empty"
  else if 255 < name.utf8ByteSize then .error "artifact name exceeds 255 characters"
  else if name.toList.head? = some '/' then .error "artifact name is absolute"
  else if name.toList.head? = some '-' then .error "artifact name must not start with '-'"
  else validateNameSegments (name.toList.splitOn '/')

/-! ## Keys -/

structure Config where
  keyPrefix : String
  maxFileBytes : Nat
  maxJobBytes : Nat
  sidecars : Bool
  deriving DecidableEq

structure Job where
  workspace : String
  jobId : Uuid
  deriving DecidableEq

def stepPrefix (cfg : Config) (job : Job) (step : String) : String :=
  cfg.keyPrefix ++ job.workspace ++ "/" ++ toString job.jobId ++ "/" ++ step ++ "/"

def artifactStorageKey (cfg : Config) (job : Job) (step name : String) : String :=
  stepPrefix cfg job step ++ name

/-! ## Rows and blobs -/

structure ArtifactRow where
  id : Uuid
  stepName : String
  name : String
  contentType : String
  sizeBytes : Nat
  storageKey : String
  deriving DecidableEq

structure Blob where
  key : String
  size : Nat
  deriving DecidableEq

def totalBytes (blobs : List Blob) : Nat := (blobs.map (·.size)).sum

def putBlob (blob : Blob) (blobs : List Blob) : List Blob :=
  blobs.filter (fun b => b.key ≠ blob.key) ++ [blob]

def deleteBlob (key : String) (blobs : List Blob) : List Blob :=
  blobs.filter fun b => b.key ≠ key

def storeBlob (cfg : Config) (contentType : String) (blob : Blob) (blobs : List Blob) :
    List Blob :=
  if cfg.sidecars then
    (putBlob blob blobs).map fun b =>
      if b.key = sidecar blob.key then { b with size := contentType.utf8ByteSize } else b
  else putBlob blob blobs

def removeBlob (cfg : Config) (key : String) (blobs : List Blob) : List Blob :=
  if cfg.sidecars then deleteBlob key (deleteBlob (sidecar key) blobs) else deleteBlob key blobs

def deletePrefix (start : String) (blobs : List Blob) : List Blob :=
  blobs.filter fun b => ¬ start.toList <+: b.key.toList

/-- `INSERT … ON CONFLICT (job_id, name) DO UPDATE`: the row that is there keeps its id. -/
def upsertRow (row : ArtifactRow) (rows : List ArtifactRow) : List ArtifactRow :=
  if rows.any (·.name = row.name) then
    rows.map fun r => if r.name = row.name then { row with id := r.id } else r
  else rows ++ [row]

def existingBytes (rows : List ArtifactRow) : Nat := (rows.map (·.sizeBytes)).sum

def replacingBytes (name : String) (rows : List ArtifactRow) : Nat :=
  ((rows.find? (·.name = name)).map (·.sizeBytes)).getD 0

/-! ## Requests -/

structure Upload where
  stepName : String
  name : String
  contentType : String
  size : Nat
  deriving DecidableEq

def Upload.accepted (cfg : Config) (up : Upload) : Bool :=
  (validatePathSegment up.stepName "step_name").isOk && (validateArtifactName up.name).isOk &&
    up.size ≤ cfg.maxFileBytes

def Upload.key (cfg : Config) (job : Job) (up : Upload) : String :=
  artifactStorageKey cfg job up.stepName up.name

def Upload.blob (cfg : Config) (job : Job) (up : Upload) : Blob :=
  ⟨up.key cfg job, up.size⟩

def Upload.row (cfg : Config) (job : Job) (up : Upload) (id : Uuid) : ArtifactRow :=
  ⟨id, up.stepName, up.name, up.contentType, up.size, up.key cfg job⟩

def Upload.overCap (cfg : Config) (up : Upload) (existing replacing : Nat) : Bool :=
  cfg.maxJobBytes < existing - replacing + up.size

inductive UploadCall
  | idle
  | locked (up : Upload)
  | summed (up : Upload) (existing : Nat)
  | checked (up : Upload)
  | staged (up : Upload)
  | upserted (up : Upload) (row : ArtifactRow) (conflict : Option Uuid)
  | upsertFailed (up : Upload)
  | commitFailed (up : Upload)
  deriving DecidableEq

inductive DeleteCall
  | idle
  | allowed (step : String)
  | cleared (step : String)
  | deleting (step : String) (targets : List Uuid)
  deriving DecidableEq

structure State where
  terminal : Bool := false
  rows : List ArtifactRow := []
  blobs : List Blob := []
  holder : Option Nat := none
  uploads : Nat → UploadCall := fun _ => .idle
  deletes : Nat → DeleteCall := fun _ => .idle

inductive Event
  | lock (call : Nat) (up : Upload)
  | sum (call : Nat)
  | check (call : Nat)
  | abort (call : Nat)
  | put (call : Nat)
  | upsert (call : Nat) (id : Uuid) (ok : Bool)
  | commit (call : Nat) (ok : Bool)
  | cleanup (call : Nat)
  | allowDelete (call : Nat) (step : String)
  | clear (call : Nat)
  | deleteStart (call : Nat)
  | deleteDone (call : Nat) (ok : Bool)
  | settle
  deriving DecidableEq

namespace State

def setUpload (s : State) (call : Nat) (c : UploadCall) : State :=
  { s with uploads := Function.update s.uploads call c }

def setDelete (s : State) (call : Nat) (c : DeleteCall) : State :=
  { s with deletes := Function.update s.deletes call c }

theorem setUpload_cases {s : State} {call : Nat} {c : UploadCall} {P : Nat → UploadCall → Prop}
    (hcall : P call c) (hother : ∀ other, other ≠ call → P other (s.uploads other)) (other : Nat) :
    P other ((s.setUpload call c).uploads other) := by
  unfold setUpload
  by_cases heq : other = call
  · subst heq
    simpa using hcall
  · simpa [Function.update_of_ne heq] using hother other heq

theorem setDelete_cases {s : State} {call : Nat} {c : DeleteCall} {P : Nat → DeleteCall → Prop}
    (hcall : P call c) (hother : ∀ other, other ≠ call → P other (s.deletes other)) (other : Nat) :
    P other ((s.setDelete call c).deletes other) := by
  unfold setDelete
  by_cases heq : other = call
  · subst heq
    simpa using hcall
  · simpa [Function.update_of_ne heq] using hother other heq

def release (s : State) : State := { s with holder := none }

def lockedRow (s : State) : Option Uuid :=
  match s.holder with
  | none => none
  | some call =>
    match s.uploads call with
    | .upserted _ _ conflict => conflict
    | _ => none

end State

def step (cfg : Config) (job : Job) (s : State) : Event → Option State
  | .lock call up =>
    if s.uploads call = .idle ∧ s.holder = none ∧ s.terminal = false ∧ up.accepted cfg then
      let s := { s with holder := some call }
      some (s.setUpload call (.locked up))
    else none
  | .sum call =>
    match s.uploads call with
    | .locked up => some (s.setUpload call (.summed up (existingBytes s.rows)))
    | _ => none
  | .check call =>
    match s.uploads call with
    | .summed up existing =>
      if up.overCap cfg existing (replacingBytes up.name s.rows) then
        some (s.release.setUpload call .idle)
      else some (s.setUpload call (.checked up))
    | _ => none
  | .abort call =>
    match s.uploads call with
    | .locked _ | .summed _ _ | .checked _ => some (s.release.setUpload call .idle)
    | _ => none
  | .put call =>
    match s.uploads call with
    | .checked up =>
      let s := { s with blobs := storeBlob cfg up.contentType (up.blob cfg job) s.blobs }
      some (s.setUpload call (.staged up))
    | _ => none
  | .upsert call id ok =>
    match s.uploads call with
    | .staged up =>
      if ok then
        let conflict := (s.rows.find? (·.name = up.name)).map (·.id)
        some (s.setUpload call (.upserted up (up.row cfg job id) conflict))
      else some (s.setUpload call (.upsertFailed up))
    | _ => none
  | .commit call ok =>
    match s.uploads call with
    | .upserted up row _ =>
      if ok then
        let s := { s with rows := upsertRow row s.rows }
        some (s.release.setUpload call .idle)
      else some (s.release.setUpload call (.commitFailed up))
    | _ => none
  | .cleanup call =>
    match s.uploads call with
    | .upsertFailed up =>
      let s := { s with blobs := removeBlob cfg (up.key cfg job) s.blobs }
      some (s.release.setUpload call .idle)
    | .commitFailed up =>
      let s := { s with blobs := removeBlob cfg (up.key cfg job) s.blobs }
      some (s.setUpload call .idle)
    | _ => none
  | .allowDelete call step =>
    if s.deletes call = .idle ∧ s.terminal = false ∧
        (validatePathSegment step "step_name").isOk then
      some (s.setDelete call (.allowed step))
    else none
  | .clear call =>
    match s.deletes call with
    | .allowed step =>
      let s := { s with blobs := deletePrefix (stepPrefix cfg job step) s.blobs }
      some (s.setDelete call (.cleared step))
    | _ => none
  | .deleteStart call =>
    match s.deletes call with
    | .cleared step =>
      let targets := (s.rows.filter (·.stepName = step)).map (·.id)
      some (s.setDelete call (.deleting step targets))
    | _ => none
  | .deleteDone call ok =>
    match s.deletes call with
    | .deleting step targets =>
      if ok then
        if s.lockedRow.any (· ∈ targets) then none
        else
          let s := { s with rows := s.rows.filter fun r => ¬ (r.id ∈ targets ∧ r.stepName = step) }
          some (s.setDelete call .idle)
      else some (s.setDelete call .idle)
    | _ => none
  | .settle => if s.holder = none then some { s with terminal := true } else none

end Stroem.Artifacts
