import Stroem.Artifacts.Keys
import Stroem.Foundation.Runs
import Stroem.Foundation.Table

/-!
# Rows and blobs of a job

As long as no upload replaces a row other than by its own step and size or writes its sidecar over
a blob, no upload that replaces a row fails, and no step is cleaned up that has artifacts, every
row refers to a blob of its size, and every blob is a row's or that of the one upload between its
put and its end: the cap checked against the rows is the cap of the blobs.
-/

namespace Stroem.Artifacts

open Foundation
open Stroem.BlobArchive (sidecar sidecar_ne)

/-! ## What is asked of every state -/

structure Consistent (cfg : Config) (s : State) : Prop where
  rows : ∀ row ∈ s.rows, ∃ blob ∈ s.blobs, blob.key = row.storageKey ∧ blob.size = row.sizeBytes
  cap : totalBytes s.blobs ≤ cfg.maxJobBytes

/-! ## The condition on the steps -/

def UploadCall.committing : UploadCall → Option Upload
  | .staged up | .upserted up _ _ => some up
  | _ => none

def UploadCall.failed : UploadCall → Option Upload
  | .upsertFailed up | .commitFailed up => some up
  | _ => none

def DeleteCall.clearing : DeleteCall → Option String
  | .cleared step | .deleting step _ => some step
  | _ => none

def Replaces (rows : List ArtifactRow) (up : Upload) : Prop :=
  ∀ row ∈ rows, row.name = up.name → row.stepName = up.stepName ∧ row.sizeBytes = up.size

def FreshName (rows : List ArtifactRow) (up : Upload) : Prop :=
  ∀ row ∈ rows, row.name ≠ up.name

/-- No row of the step bears the name of the upload's sidecar. -/
def SidecarFree (cfg : Config) (rows : List ArtifactRow) (up : Upload) : Prop :=
  cfg.sidecars = true → ∀ row ∈ rows, row.stepName = up.stepName → row.name ≠ sidecar up.name

instance (rows : List ArtifactRow) (up : Upload) : Decidable (Replaces rows up) :=
  inferInstanceAs (Decidable (∀ row ∈ rows, _ → _))

instance (rows : List ArtifactRow) (up : Upload) : Decidable (FreshName rows up) :=
  inferInstanceAs (Decidable (∀ row ∈ rows, _))

instance (cfg : Config) (rows : List ArtifactRow) (up : Upload) :
    Decidable (SidecarFree cfg rows up) :=
  inferInstanceAs (Decidable (_ → ∀ row ∈ rows, _ → _))

def calm (cfg : Config) (s : State) : Event → Prop
  | .put call => ∀ up, s.uploads call = .checked up →
      Replaces s.rows up ∧ SidecarFree cfg s.rows up ∧
        (∀ d, (s.deletes d).clearing ≠ some up.stepName) ∧
          ∀ other, (s.uploads other).failed = none
  | .upsert call _ false => ∀ up, s.uploads call = .staged up → FreshName s.rows up
  | .commit call false => ∀ up row conflict, s.uploads call = .upserted up row conflict →
      FreshName s.rows up
  | .clear call => ∀ step, s.deletes call = .allowed step →
      (∀ row ∈ s.rows, row.stepName ≠ step) ∧
        ∀ other up, (s.uploads other).committing = some up → up.stepName ≠ step
  | _ => True

/-! ## The invariant -/

def ArtifactRow.blob (row : ArtifactRow) : Blob := ⟨row.storageKey, row.sizeBytes⟩

def UploadCall.stored (c : UploadCall) : Option Upload := c.committing.or c.failed

def UploadCall.holds : UploadCall → Prop
  | .idle | .commitFailed _ => False
  | _ => True

def CallFits (cfg : Config) (job : Job) (rows : List ArtifactRow) (blobs : List Blob) :
    UploadCall → Prop
  | .idle => True
  | .locked up => NoSlash up.stepName
  | .summed up existing => NoSlash up.stepName ∧ existing = existingBytes rows
  | .checked up => NoSlash up.stepName ∧
      existingBytes rows - replacingBytes up.name rows + up.size ≤ cfg.maxJobBytes
  | .staged up => NoSlash up.stepName ∧ up.blob cfg job ∈ blobs ∧ Replaces rows up ∧
      SidecarFree cfg rows up
  | .upserted up row _ => (NoSlash up.stepName ∧ up.blob cfg job ∈ blobs ∧ Replaces rows up ∧
      SidecarFree cfg rows up) ∧ ∃ id, row = up.row cfg job id
  | .upsertFailed up | .commitFailed up => NoSlash up.stepName ∧ FreshName rows up ∧
      SidecarFree cfg rows up

structure Sound (cfg : Config) (job : Job) (s : State) : Prop where
  names : Keyed ArtifactRow.name s.rows
  keys : Keyed Blob.key s.blobs
  rowKey : ∀ row ∈ s.rows, NoSlash row.stepName ∧
    row.storageKey = artifactStorageKey cfg job row.stepName row.name
  rowBlob : ∀ row ∈ s.rows, row.blob ∈ s.blobs
  owned : ∀ b ∈ s.blobs, (∃ row ∈ s.rows, row.blob = b) ∨
    ∃ call up, (s.uploads call).stored = some up ∧ up.blob cfg job = b
  cap : totalBytes s.blobs ≤ cfg.maxJobBytes
  one : ∀ call other up up', (s.uploads call).stored = some up →
    (s.uploads other).stored = some up' → call = other
  holder : ∀ call, (s.uploads call).holds → s.holder = some call
  calls : ∀ call, CallFits cfg job s.rows s.blobs (s.uploads call)
  clearing : ∀ d step, (s.deletes d).clearing = some step →
    (∀ row ∈ s.rows, row.stepName ≠ step) ∧
      ∀ call up, (s.uploads call).committing = some up → up.stepName ≠ step
  targets : ∀ d step targets, s.deletes d = .deleting step targets → targets = []
  allowed : ∀ d step, s.deletes d = .allowed step → NoSlash step

/-! ## Sums of sizes -/

theorem totalBytes_cons (b : Blob) (blobs : List Blob) :
    totalBytes (b :: blobs) = b.size + totalBytes blobs := rfl

theorem totalBytes_putBlob (blob : Blob) (blobs : List Blob) :
    totalBytes (putBlob blob blobs) = totalBytes (deleteBlob blob.key blobs) + blob.size := by
  simp [totalBytes, putBlob, deleteBlob]

theorem totalBytes_filter_le (p : Blob → Bool) (blobs : List Blob) :
    totalBytes (blobs.filter p) ≤ totalBytes blobs := by
  induction blobs with
  | nil => exact Nat.le_refl _
  | cons b blobs ih =>
    rw [List.filter_cons, totalBytes_cons]
    split
    · rw [totalBytes_cons]
      omega
    · omega

variable {blobs : List Blob}

theorem totalBytes_putBlob_le {blob : Blob} (h : blob ∈ blobs) :
    totalBytes (putBlob blob blobs) ≤ totalBytes blobs := by
  rw [totalBytes_putBlob]
  induction blobs with
  | nil => cases h
  | cons b blobs ih =>
    unfold deleteBlob at ih ⊢
    rw [List.filter_cons, totalBytes_cons]
    rcases List.mem_cons.mp h with rfl | hmem
    · have hrest := totalBytes_filter_le (fun b => b.key ≠ blob.key) blobs
      rw [if_neg (by simp)]
      omega
    · have hrest := ih hmem
      split
      · rw [totalBytes_cons]
        omega
      · omega

theorem totalBytes_putBlob_fresh {blob : Blob} (h : ∀ b ∈ blobs, b.key ≠ blob.key) :
    totalBytes (putBlob blob blobs) = totalBytes blobs + blob.size := by
  have hsame : deleteBlob blob.key blobs = blobs := by
    unfold deleteBlob
    rw [List.filter_eq_self]
    intro b hb
    simpa using h b hb
  rw [totalBytes_putBlob, hsame]

theorem mem_putBlob {b blob : Blob} :
    b ∈ putBlob blob blobs ↔ b ∈ blobs ∧ b.key ≠ blob.key ∨ b = blob := by
  simp [putBlob]

theorem keyed_putBlob {blob : Blob} (h : Keyed Blob.key blobs) :
    Keyed Blob.key (putBlob blob blobs) := by
  have hrest : Keyed Blob.key (blobs.filter fun b => b.key ≠ blob.key) :=
    h.sublist (List.filter_sublist.map _)
  refine hrest.append (List.nodup_singleton _) fun b hb b' hb' => ?_
  obtain rfl := List.mem_singleton.mp hb'
  simpa using (List.mem_filter.mp hb).2

theorem storeBlob_eq {cfg : Config} {contentType : String} {blob : Blob}
    (h : cfg.sidecars = true → ∀ b ∈ blobs, b.key ≠ sidecar blob.key) :
    storeBlob cfg contentType blob blobs = putBlob blob blobs := by
  unfold storeBlob
  split
  case isTrue hlocal =>
    have hsame : ∀ b ∈ putBlob blob blobs, (if b.key = sidecar blob.key then
        { b with size := contentType.utf8ByteSize } else b) = id b := by
      intro b hb
      refine if_neg ?_
      rcases mem_putBlob.mp hb with ⟨hold, -⟩ | rfl
      · exact h hlocal b hold
      · exact (sidecar_ne _).symm
    rw [List.map_congr_left hsame, List.map_id]
  case isFalse => rfl

theorem removeBlob_eq {cfg : Config} {key : String}
    (h : cfg.sidecars = true → ∀ b ∈ blobs, b.key ≠ sidecar key) :
    removeBlob cfg key blobs = deleteBlob key blobs := by
  unfold removeBlob
  split
  case isTrue hlocal =>
    rw [show deleteBlob (sidecar key) blobs = blobs from
      List.filter_eq_self.mpr fun b hb => by simpa using h hlocal b hb]
  case isFalse => rfl

/-! ## Upserted rows -/

theorem mem_upsertRow {row r : ArtifactRow} {rows : List ArtifactRow} :
    r ∈ upsertRow row rows →
      (r ∈ rows ∧ r.name ≠ row.name) ∨ ∃ id, r = { row with id := id } := by
  intro hr
  unfold upsertRow at hr
  split at hr
  · obtain ⟨r₀, hr₀, rfl⟩ := List.mem_map.mp hr
    split
    · exact .inr ⟨r₀.id, rfl⟩
    · rename_i hname
      exact .inl ⟨hr₀, hname⟩
  · rename_i hany
    rcases List.mem_append.mp hr with hold | hnew
    · refine .inl ⟨hold, fun hname => hany ?_⟩
      exact List.any_eq_true.mpr ⟨r, hold, by simpa using hname⟩
    · obtain rfl := List.mem_singleton.mp hnew
      exact .inr ⟨r.id, rfl⟩

theorem mem_upsertRow_of_mem {row r : ArtifactRow} {rows : List ArtifactRow} (hr : r ∈ rows)
    (hname : r.name ≠ row.name) : r ∈ upsertRow row rows := by
  unfold upsertRow
  split
  · exact List.mem_map.mpr ⟨r, hr, if_neg hname⟩
  · exact List.mem_append_left _ hr

theorem exists_mem_upsertRow (row : ArtifactRow) (rows : List ArtifactRow) :
    ∃ id, { row with id := id } ∈ upsertRow row rows := by
  unfold upsertRow
  split
  · rename_i hany
    obtain ⟨r, hr, hname⟩ := List.any_eq_true.mp hany
    exact ⟨r.id, List.mem_map.mpr ⟨r, hr, if_pos (by simpa using hname)⟩⟩
  · exact ⟨row.id, List.mem_append_right _ List.mem_cons_self⟩

theorem keyed_upsertRow {row : ArtifactRow} {rows : List ArtifactRow}
    (h : Keyed ArtifactRow.name rows) : Keyed ArtifactRow.name (upsertRow row rows) := by
  unfold upsertRow
  split
  · have hnames : (rows.map fun r => if r.name = row.name then { row with id := r.id } else r).map
        ArtifactRow.name = rows.map ArtifactRow.name := by
      rw [List.map_map]
      refine List.map_congr_left fun r _ => ?_
      by_cases hname : r.name = row.name
      · simp [hname]
      · simp [hname]
    unfold Keyed
    rwa [hnames]
  · rename_i hany
    refine h.append (List.nodup_singleton _) fun r hr r' hr' hname => hany ?_
    obtain rfl := List.mem_singleton.mp hr'
    exact List.any_eq_true.mpr ⟨r, hr, by simpa using hname⟩

/-! ## One request -/

section Steps

variable {cfg : Config} {job : Job} {s : State} {call : Nat}

theorem Sound.setUpload {c : UploadCall} (h : Sound cfg job s)
    (hstored : c.stored = (s.uploads call).stored)
    (hcommitting : ∀ up, c.committing = some up → (s.uploads call).committing = some up)
    (hholds : c.holds → s.holder = some call) (hfits : CallFits cfg job s.rows s.blobs c) :
    Sound cfg job (s.setUpload call c) := by
  have hsame : ∀ other, ((s.setUpload call c).uploads other).stored = (s.uploads other).stored := by
    refine
      State.setUpload_cases (P := fun other c => c.stored = (s.uploads other).stored) hstored ?_
    exact fun other _ => rfl
  refine ⟨h.names, h.keys, h.rowKey, h.rowBlob, ?_, h.cap, ?_, ?_, ?_, ?_, h.targets, h.allowed⟩
  · intro b hb
    rcases h.owned b hb with hrow | ⟨other, up, hup, hblob⟩
    · exact .inl hrow
    · exact .inr ⟨other, up, (hsame other).trans hup, hblob⟩
  · intro v w up up' hv hw
    rw [hsame] at hv hw
    exact h.one v w up up' hv hw
  · exact State.setUpload_cases (P := fun other c => c.holds → s.holder = some other) hholds
      fun other _ => h.holder other
  · exact State.setUpload_cases (P := fun _ c => CallFits cfg job s.rows s.blobs c) hfits
      fun other _ => h.calls other
  · intro d step hclearing
    refine ⟨(h.clearing d step hclearing).1, ?_⟩
    refine State.setUpload_cases (P := fun _ c => ∀ up, c.committing = some up →
      up.stepName ≠ step) ?_ fun other _ => (h.clearing d step hclearing).2 other
    exact fun up hup => (h.clearing d step hclearing).2 call up (hcommitting up hup)

theorem Sound.release (h : Sound cfg job s) (hnone : ∀ other, ¬ (s.uploads other).holds) :
    Sound cfg job s.release :=
  ⟨h.names, h.keys, h.rowKey, h.rowBlob, h.owned, h.cap, h.one,
    fun other hholds => absurd hholds (hnone other), h.calls, h.clearing, h.targets, h.allowed⟩

theorem Sound.not_holds {c : UploadCall} (h : Sound cfg job s) (hholder : s.holder = some call)
    (hc : ¬ c.holds) (other : Nat) : ¬ ((s.setUpload call c).uploads other).holds := by
  refine State.setUpload_cases (P := fun _ c => ¬ c.holds) hc (fun other hne hholds => ?_) other
  have hsame := h.holder other hholds
  rw [hholder] at hsame
  exact hne (Option.some.inj hsame).symm

theorem Sound.letGo (h : Sound cfg job s) (c : UploadCall) (hholder : s.holder = some call)
    (hstored : c.stored = (s.uploads call).stored) (hcommitting : c.committing = none)
    (hholds : ¬ c.holds) (hfits : CallFits cfg job s.rows s.blobs c) :
    Sound cfg job (s.release.setUpload call c) := by
  have hset : Sound cfg job (s.setUpload call c) := by
    refine h.setUpload hstored ?_ (fun hc => absurd hc hholds) hfits
    rw [hcommitting]
    exact fun up hup => nomatch hup
  exact hset.release (h.not_holds hholder hholds)

/-! ## The put -/

theorem Sound.totalBytes_eq (h : Sound cfg job s)
    (hnone : ∀ other, (s.uploads other).stored = none) :
    totalBytes s.blobs = existingBytes s.rows := by
  have hblobs : (s.rows.map ArtifactRow.blob).Nodup := by
    refine List.Nodup.map_on (fun r hr r' hr' hsame => ?_) (List.Nodup.of_map _ h.names)
    have hkey : r.storageKey = r'.storageKey := congrArg Blob.key hsame
    rw [(h.rowKey r hr).2, (h.rowKey r' hr').2] at hkey
    have hname := (artifactStorageKey_inj (h.rowKey r hr).1 (h.rowKey r' hr').1 hkey).2
    exact h.names.eq_of_key hr hr' hname
  have hperm : s.blobs.Perm (s.rows.map ArtifactRow.blob) := by
    rw [List.perm_ext_iff_of_nodup (List.Nodup.of_map Blob.key h.keys) hblobs]
    intro b
    rw [List.mem_map]
    constructor
    · intro hb
      rcases h.owned b hb with hrow | ⟨other, up, hup, -⟩
      · exact hrow
      · rw [hnone other] at hup
        cases hup
    · rintro ⟨row, hrow, rfl⟩
      exact h.rowBlob row hrow
  unfold totalBytes existingBytes
  rw [(hperm.map Blob.size).sum_nat, List.map_map]
  rfl

variable {up : Upload}

theorem Sound.fresh_key (h : Sound cfg job s) (hslash : NoSlash up.stepName)
    (hfresh : FreshName s.rows up) {row : ArtifactRow} (hrow : row ∈ s.rows) :
    row.storageKey ≠ up.key cfg job := by
  intro hkey
  obtain ⟨hrowSlash, hrowKey⟩ := h.rowKey row hrow
  rw [hrowKey] at hkey
  exact hfresh row hrow (artifactStorageKey_inj hrowSlash hslash hkey).2

theorem Sound.ne_sidecar (h : Sound cfg job s) (hslash : NoSlash up.stepName)
    (hfree : SidecarFree cfg s.rows up)
    (honly : ∀ other up', (s.uploads other).stored = some up' → up' = up)
    (hlocal : cfg.sidecars = true) : ∀ b ∈ s.blobs, b.key ≠ sidecar (up.key cfg job) := by
  intro b hb hkey
  have hside : sidecar (up.key cfg job) =
      artifactStorageKey cfg job up.stepName (sidecar up.name) := by
    simp only [Upload.key, artifactStorageKey, sidecar, String.append_assoc]
  rcases h.owned b hb with ⟨row, hrow, rfl⟩ | ⟨other, up', hup', rfl⟩
  · obtain ⟨hrowSlash, hrowKey⟩ := h.rowKey row hrow
    have hsame : artifactStorageKey cfg job row.stepName row.name =
        artifactStorageKey cfg job up.stepName (sidecar up.name) := by
      rw [← hrowKey, ← hside]
      exact hkey
    obtain ⟨hstep, hname⟩ := artifactStorageKey_inj hrowSlash hslash hsame
    exact hfree hlocal row hrow hstep hname
  · obtain rfl := honly other up' hup'
    exact sidecar_ne _ hkey.symm

theorem Sound.replaced_blob (h : Sound cfg job s) (hslash : NoSlash up.stepName)
    (hreplaces : Replaces s.rows up) {row : ArtifactRow} (hrow : row ∈ s.rows)
    (hkey : row.storageKey = up.key cfg job) : row.blob = up.blob cfg job := by
  obtain ⟨hrowSlash, hrowKey⟩ := h.rowKey row hrow
  have hname := hkey
  rw [hrowKey] at hname
  have hsize := (hreplaces row hrow (artifactStorageKey_inj hrowSlash hslash hname).2).2
  unfold ArtifactRow.blob Upload.blob
  rw [hkey, hsize]

theorem Sound.cap_put (h : Sound cfg job s) (hnone : ∀ other, (s.uploads other).stored = none)
    (hslash : NoSlash up.stepName)
    (hcap : existingBytes s.rows - replacingBytes up.name s.rows + up.size ≤ cfg.maxJobBytes)
    (hreplaces : Replaces s.rows up) :
    totalBytes (putBlob (up.blob cfg job) s.blobs) ≤ cfg.maxJobBytes := by
  by_cases hfresh : FreshName s.rows up
  · have hblobs : ∀ b ∈ s.blobs, b.key ≠ (up.blob cfg job).key := by
      intro b hb
      rcases h.owned b hb with ⟨row, hrow, rfl⟩ | ⟨other, up', hup', -⟩
      · exact h.fresh_key hslash hfresh hrow
      · rw [hnone other] at hup'
        cases hup'
    have hreplacing : replacingBytes up.name s.rows = 0 := by
      unfold replacingBytes
      rw [List.find?_eq_none.mpr fun row hrow => by simpa using hfresh row hrow]
      rfl
    rw [totalBytes_putBlob_fresh hblobs, h.totalBytes_eq hnone]
    rw [hreplacing] at hcap
    exact hcap
  · -- the row it replaces has a blob of the same key and size
    unfold FreshName at hfresh
    push Not at hfresh
    obtain ⟨row, hrow, hname⟩ := hfresh
    have hkey : row.storageKey = up.key cfg job := by
      rw [(h.rowKey row hrow).2, hname, (hreplaces row hrow hname).1]
      rfl
    have hblob : up.blob cfg job ∈ s.blobs := by
      rw [← h.replaced_blob hslash hreplaces hrow hkey]
      exact h.rowBlob row hrow
    exact Nat.le_trans (totalBytes_putBlob_le hblob) h.cap

theorem Sound.put (h : Sound cfg job s) (hcall : s.uploads call = .checked up)
    (hreplaces : Replaces s.rows up) (hfree : SidecarFree cfg s.rows up)
    (hclearing : ∀ d, (s.deletes d).clearing ≠ some up.stepName)
    (hfailed : ∀ other, (s.uploads other).failed = none) :
    Sound cfg job (State.setUpload
      { s with blobs := storeBlob cfg up.contentType (up.blob cfg job) s.blobs } call
        (.staged up)) := by
  have hfits := h.calls call
  rw [hcall] at hfits
  obtain ⟨hslash, hcap⟩ := hfits
  have hholder : s.holder = some call := h.holder call (by rw [hcall]; trivial)
  -- a blob that is stored is of a request that holds the job's row, or of a failed one
  have hnone : ∀ other, (s.uploads other).stored = none := by
    intro other
    cases hstored : s.uploads other with
    | staged up' | upserted up' row conflict =>
      have hsame := h.holder other (by rw [hstored]; trivial)
      rw [hholder] at hsame
      obtain rfl : call = other := Option.some.inj hsame
      rw [hcall] at hstored
      cases hstored
    | upsertFailed up' | commitFailed up' =>
      have hnot := hfailed other
      rw [hstored] at hnot
      cases hnot
    | idle | locked up' | summed up' existing | checked up' => rfl
  have hstore : storeBlob cfg up.contentType (up.blob cfg job) s.blobs =
      putBlob (up.blob cfg job) s.blobs := by
    refine storeBlob_eq (h.ne_sidecar hslash hfree fun other up' hup' => ?_)
    rw [hnone other] at hup'
    cases hup'
  rw [hstore]
  have hfitsOther : ∀ other, CallFits cfg job s.rows (putBlob (up.blob cfg job) s.blobs)
      (s.uploads other) := by
    intro other
    have hold := h.calls other
    have hother := hnone other
    revert hold hother
    cases s.uploads other with
    | staged up' | upserted up' row conflict => exact fun _ hother => nomatch hother
    | _ => exact fun hold _ => hold
  refine ⟨h.names, keyed_putBlob h.keys, h.rowKey, ?_, ?_,
    h.cap_put hnone hslash hcap hreplaces, ?_, ?_, ?_, ?_, h.targets, h.allowed⟩
  · intro row hrow
    refine mem_putBlob.mpr ?_
    by_cases hkey : row.storageKey = up.key cfg job
    · exact .inr (h.replaced_blob hslash hreplaces hrow hkey)
    · exact .inl ⟨h.rowBlob row hrow, hkey⟩
  · intro b hb
    rcases mem_putBlob.mp hb with ⟨hold, -⟩ | rfl
    · rcases h.owned b hold with hrow | ⟨other, up', hup', -⟩
      · exact .inl hrow
      · rw [hnone other] at hup'
        cases hup'
    · refine .inr ⟨call, up, ?_, rfl⟩
      simp [State.setUpload, UploadCall.stored, UploadCall.committing]
  · have honly : ∀ other up', ((State.setUpload
        { s with blobs := putBlob (up.blob cfg job) s.blobs } call (.staged up)).uploads
          other).stored = some up' → other = call := by
      intro other
      refine State.setUpload_cases (P := fun other c => ∀ up', c.stored = some up' → other = call)
        (fun _ _ => rfl) ?_ other
      intro other _ up' hup'
      rw [show (State.uploads { s with blobs := putBlob (up.blob cfg job) s.blobs } other) =
        s.uploads other from rfl, hnone other] at hup'
      cases hup'
    intro v w up' up'' hv hw
    rw [honly v up' hv, honly w up'' hw]
  · exact State.setUpload_cases (P := fun other c => c.holds → s.holder = some other)
      (fun _ => hholder) fun other _ => h.holder other
  · refine State.setUpload_cases (P := fun _ c => CallFits cfg job s.rows
      (putBlob (up.blob cfg job) s.blobs) c) ?_ fun other _ => hfitsOther other
    exact ⟨hslash, mem_putBlob.mpr (.inr rfl), hreplaces, hfree⟩
  · intro d step hd
    refine ⟨(h.clearing d step hd).1, ?_⟩
    refine State.setUpload_cases (P := fun _ c => ∀ up', c.committing = some up' →
      up'.stepName ≠ step) ?_ fun other _ => (h.clearing d step hd).2 other
    rintro up' hup' rfl
    obtain rfl : up = up' := Option.some.inj hup'
    exact hclearing d hd

/-! ## Commits -/

theorem Sound.commit {row : ArtifactRow} {conflict : Option Uuid} (h : Sound cfg job s)
    (hcall : s.uploads call = .upserted up row conflict) :
    Sound cfg job
      (State.setUpload { s with rows := upsertRow row s.rows } call .idle).release := by
  have hfits := h.calls call
  rw [hcall] at hfits
  obtain ⟨⟨hslash, hblob, hreplaces, -⟩, id, rfl⟩ := hfits
  have hholder : s.holder = some call := h.holder call (by rw [hcall]; trivial)
  have hstored : (s.uploads call).stored = some up := by rw [hcall]; rfl
  have hcommitting : (s.uploads call).committing = some up := by rw [hcall]; rfl
  -- every other request is idle, or has failed before this one began
  have hothers : ∀ other, other ≠ call → s.uploads other = .idle := by
    intro other hne
    cases hother : s.uploads other with
    | idle => rfl
    | commitFailed up' =>
      exact absurd (h.one other call up' up (by rw [hother]; rfl) hstored) hne
    | _ =>
      have hsame := h.holder other (by rw [hother]; trivial)
      rw [hholder] at hsame
      exact absurd (Option.some.inj hsame).symm hne
  have hidle : ∀ other, (State.setUpload { s with rows := upsertRow (up.row cfg job id) s.rows }
      call .idle).uploads other = .idle :=
    State.setUpload_cases (P := fun _ c => c = .idle) rfl hothers
  refine Sound.release ?_ fun other hholds => (hidle other ▸ hholds : UploadCall.holds .idle).elim
  refine ⟨keyed_upsertRow h.names, h.keys, ?_, ?_, ?_, h.cap, ?_, ?_, ?_, ?_, h.targets, h.allowed⟩
  · intro r hr
    rcases mem_upsertRow hr with ⟨hold, -⟩ | ⟨id', rfl⟩
    · exact h.rowKey r hold
    · exact ⟨hslash, rfl⟩
  · intro r hr
    rcases mem_upsertRow hr with ⟨hold, -⟩ | ⟨id', rfl⟩
    · exact h.rowBlob r hold
    · exact hblob
  · intro b hb
    obtain ⟨id', hnew⟩ := exists_mem_upsertRow (up.row cfg job id) s.rows
    rcases h.owned b hb with ⟨r, hr, rfl⟩ | ⟨other, up', hup', rfl⟩
    · by_cases hname : r.name = up.name
      · refine .inl ⟨_, hnew, (h.replaced_blob hslash hreplaces hr ?_).symm⟩
        rw [(h.rowKey r hr).2, hname, (hreplaces r hr hname).1]
        rfl
      · exact .inl ⟨r, mem_upsertRow_of_mem hr hname, rfl⟩
    · obtain rfl := h.one other call up' up hup' hstored
      rw [hstored] at hup'
      cases hup'
      exact .inl ⟨_, hnew, rfl⟩
  · intro v w up' up'' hv
    rw [hidle v] at hv
    cases hv
  · intro v hv
    rw [hidle v] at hv
    exact hv.elim
  · intro v
    rw [hidle v]
    trivial
  · intro d step hd
    obtain ⟨hrows, hcalls⟩ := h.clearing d step hd
    refine ⟨fun r hr => ?_, fun v up' hv => ?_⟩
    · rcases mem_upsertRow hr with ⟨hold, -⟩ | ⟨id', rfl⟩
      · exact hrows r hold
      · exact hcalls call up hcommitting
    · rw [hidle v] at hv
      cases hv

/-! ## Deleting blobs -/

theorem Sound.cleanup (h : Sound cfg job s) (hfailed : (s.uploads call).failed = some up)
    (hslash : NoSlash up.stepName) (hfresh : FreshName s.rows up)
    (hfree : SidecarFree cfg s.rows up) :
    Sound cfg job (State.setUpload { s with blobs := removeBlob cfg (up.key cfg job) s.blobs } call
      .idle) := by
  have hstored : (s.uploads call).stored = some up := by
    revert hfailed
    cases s.uploads call with
    | upsertFailed up' | commitFailed up' => exact fun hfailed => hfailed
    | _ => exact fun hfailed => nomatch hfailed
  have hothers : ∀ other, other ≠ call → (s.uploads other).stored = none := by
    intro other hne
    cases hother : (s.uploads other).stored with
    | none => rfl
    | some up' => exact absurd (h.one other call up' up hother hstored) hne
  have honly : ∀ other up', (s.uploads other).stored = some up' → up' = up := by
    intro other up' hup'
    obtain rfl := h.one other call up' up hup' hstored
    exact Option.some.inj (hup'.symm.trans hstored)
  rw [removeBlob_eq (h.ne_sidecar hslash hfree honly)]
  have hnone : ∀ other, ((State.setUpload { s with blobs := deleteBlob (up.key cfg job) s.blobs }
      call .idle).uploads other).stored = none :=
    State.setUpload_cases (P := fun _ c => c.stored = none) rfl hothers
  have hmem : ∀ b, b ∈ deleteBlob (up.key cfg job) s.blobs ↔
      b ∈ s.blobs ∧ b.key ≠ up.key cfg job := by
    simp [deleteBlob]
  refine ⟨h.names, h.keys.sublist (List.filter_sublist.map _), h.rowKey, ?_, ?_,
    Nat.le_trans (totalBytes_filter_le _ _) h.cap, ?_, ?_, ?_, ?_, h.targets, h.allowed⟩
  · exact fun row hrow => (hmem _).mpr ⟨h.rowBlob row hrow, h.fresh_key hslash hfresh hrow⟩
  · intro b hb
    obtain ⟨hold, hkey⟩ := (hmem b).mp hb
    rcases h.owned b hold with hrow | ⟨other, up', hup', rfl⟩
    · exact .inl hrow
    · obtain rfl := h.one other call up' up hup' hstored
      rw [hstored] at hup'
      cases hup'
      exact absurd rfl hkey
  · intro v w up' up'' hv
    rw [hnone v] at hv
    cases hv
  · exact State.setUpload_cases (P := fun other c => c.holds → s.holder = some other)
      (fun hholds => hholds.elim) fun other _ => h.holder other
  · refine State.setUpload_cases (P := fun _ c => CallFits cfg job s.rows
      (deleteBlob (up.key cfg job) s.blobs) c) trivial fun other hne => ?_
    have hold := h.calls other
    have hother := hothers other hne
    revert hold hother
    change _ → (s.uploads other).stored = none → CallFits cfg job s.rows _ (s.uploads other)
    cases s.uploads other with
    | staged up' | upserted up' row conflict => exact fun _ hother => nomatch hother
    | _ => exact fun hold _ => hold
  · intro d step hd
    refine ⟨(h.clearing d step hd).1, ?_⟩
    refine State.setUpload_cases (P := fun _ c => ∀ up', c.committing = some up' →
      up'.stepName ≠ step) nofun fun other _ => (h.clearing d step hd).2 other

theorem Sound.clear {step : String} (h : Sound cfg job s) (hslash : NoSlash step)
    (hrows : ∀ row ∈ s.rows, row.stepName ≠ step)
    (hcalls : ∀ other up, (s.uploads other).committing = some up → up.stepName ≠ step) :
    Sound cfg job (State.setDelete
      { s with blobs := deletePrefix (stepPrefix cfg job step) s.blobs } call (.cleared step)) := by
  have hmem : ∀ b, b ∈ deletePrefix (stepPrefix cfg job step) s.blobs ↔
      b ∈ s.blobs ∧ ¬ (stepPrefix cfg job step).toList <+: b.key.toList := by
    simp [deletePrefix]
  have hkept : ∀ step' name, NoSlash step' → step' ≠ step →
      ¬ (stepPrefix cfg job step).toList <+: (artifactStorageKey cfg job step' name).toList := by
    intro step' name hslash' hne hprefix
    exact hne ((stepPrefix_isPrefix_iff hslash hslash').mp hprefix).symm
  refine ⟨h.names, h.keys.sublist (List.filter_sublist.map _), h.rowKey, ?_, ?_,
    Nat.le_trans (totalBytes_filter_le _ _) h.cap, h.one, h.holder, ?_, ?_, ?_, ?_⟩
  · intro row hrow
    refine (hmem _).mpr ⟨h.rowBlob row hrow, ?_⟩
    obtain ⟨hrowSlash, hkey⟩ := h.rowKey row hrow
    have hnot := hkept row.stepName row.name hrowSlash (hrows row hrow)
    rw [← hkey] at hnot
    exact hnot
  · exact fun b hb => h.owned b ((hmem b).mp hb).1
  · intro other
    have hold := h.calls other
    have hother := hcalls other
    revert hold hother
    change _ → (∀ up, (s.uploads other).committing = some up → up.stepName ≠ step) →
      CallFits cfg job s.rows _ (s.uploads other)
    cases s.uploads other with
    | staged up =>
      rintro ⟨hup, hblob, hreplaces⟩ hother
      exact ⟨hup, (hmem _).mpr ⟨hblob, hkept _ up.name hup (hother up rfl)⟩, hreplaces⟩
    | upserted up row conflict =>
      rintro ⟨⟨hup, hblob, hreplaces⟩, hrow⟩ hother
      exact ⟨⟨hup, (hmem _).mpr ⟨hblob, hkept _ up.name hup (hother up rfl)⟩, hreplaces⟩, hrow⟩
    | _ => exact fun hold _ => hold
  · refine State.setDelete_cases (P := fun _ c => ∀ step', c.clearing = some step' →
      (∀ row ∈ s.rows, row.stepName ≠ step') ∧ ∀ other up, (s.uploads other).committing = some up →
        up.stepName ≠ step') ?_ fun other _ => h.clearing other
    intro step' hstep'
    cases hstep'
    exact ⟨hrows, hcalls⟩
  · refine State.setDelete_cases (P := fun _ c => ∀ step' targets, c = .deleting step' targets →
      targets = []) nofun fun other _ => h.targets other
  · refine State.setDelete_cases (P := fun _ c => ∀ step', c = .allowed step' → NoSlash step')
      nofun fun other _ => h.allowed other

theorem Sound.setDelete {c : DeleteCall} (h : Sound cfg job s)
    (hclearing : ∀ step, c.clearing = some step → (s.deletes call).clearing = some step)
    (htargets : ∀ step targets, c = .deleting step targets → targets = [])
    (hallowed : ∀ step, c = .allowed step → NoSlash step) :
    Sound cfg job (s.setDelete call c) := by
  refine ⟨h.names, h.keys, h.rowKey, h.rowBlob, h.owned, h.cap, h.one, h.holder, h.calls, ?_, ?_,
    ?_⟩
  · refine State.setDelete_cases (P := fun _ c => ∀ step, c.clearing = some step →
      (∀ row ∈ s.rows, row.stepName ≠ step) ∧ ∀ other up, (s.uploads other).committing = some up →
        up.stepName ≠ step) ?_ fun other _ => h.clearing other
    exact fun step hstep => h.clearing call step (hclearing step hstep)
  · exact State.setDelete_cases (P := fun _ c => ∀ step targets, c = .deleting step targets →
      targets = []) htargets fun other _ => h.targets other
  · exact State.setDelete_cases (P := fun _ c => ∀ step, c = .allowed step → NoSlash step)
      hallowed fun other _ => h.allowed other

end Steps

/-! ## Runs -/

section Runs

variable {cfg : Config} {job : Job}

theorem Sound.consistent {s : State} (h : Sound cfg job s) : Consistent cfg s :=
  ⟨fun row hrow => ⟨row.blob, h.rowBlob row hrow, rfl, rfl⟩, h.cap⟩

theorem step_sound {s s' : State} {e : Event} (h : Sound cfg job s) (hcalm : calm cfg s e)
    (hstep : step cfg job s e = some s') : Sound cfg job s' := by
  cases e with
  | lock call up =>
    simp only [step] at hstep
    split at hstep
    · rename_i hguard
      obtain ⟨hidle, hfree, -, haccepted⟩ := hguard
      cases hstep
      have hslash : NoSlash up.stepName := by
        unfold Upload.accepted at haccepted
        simp only [Bool.and_eq_true] at haccepted
        exact noSlash_of_validatePathSegment haccepted.1.1
      have hlocked : Sound cfg job { s with holder := some call } :=
        { h with
          holder := fun other hholds => by
            rw [h.holder other hholds] at hfree
            cases hfree }
      refine hlocked.setUpload ?_ nofun (fun _ => rfl) hslash
      rw [show State.uploads { s with holder := some call } call = .idle from hidle]
      rfl
    · cases hstep
  | sum call =>
    simp only [step] at hstep
    split at hstep
    · rename_i up hcall
      cases hstep
      have hfits := h.calls call
      rw [hcall] at hfits
      refine h.setUpload (by rw [hcall]; rfl) nofun ?_ ⟨hfits, rfl⟩
      exact fun _ => h.holder call (by rw [hcall]; trivial)
    · cases hstep
  | check call =>
    simp only [step] at hstep
    split at hstep
    · rename_i up existing hcall
      have hholder : s.holder = some call := h.holder call (by rw [hcall]; trivial)
      have hfits := h.calls call
      rw [hcall] at hfits
      obtain ⟨hslash, rfl⟩ := hfits
      split at hstep
      · cases hstep
        exact h.letGo .idle hholder (by rw [hcall]; rfl) rfl id trivial
      · rename_i hcap
        cases hstep
        refine h.setUpload (by rw [hcall]; rfl) nofun (fun _ => hholder) ⟨hslash, ?_⟩
        simpa [Upload.overCap] using hcap
    · cases hstep
  | abort call =>
    have habort : ∀ c, s.uploads call = c → c.stored = none → c.holds →
        Sound cfg job (s.release.setUpload call .idle) := by
      intro c hcall hstored hholds
      have hholder : s.holder = some call := h.holder call (by rw [hcall]; exact hholds)
      exact h.letGo .idle hholder (by rw [hcall, hstored]; rfl) rfl id trivial
    simp only [step] at hstep
    split at hstep
    · rename_i hcall
      cases hstep
      exact habort _ hcall rfl trivial
    · rename_i hcall
      cases hstep
      exact habort _ hcall rfl trivial
    · rename_i hcall
      cases hstep
      exact habort _ hcall rfl trivial
    · cases hstep
  | put call =>
    simp only [step] at hstep
    split at hstep
    · rename_i up hcall
      cases hstep
      obtain ⟨hreplaces, hfree, hclearing, hfailed⟩ := hcalm up hcall
      exact h.put hcall hreplaces hfree hclearing hfailed
    · cases hstep
  | upsert call id ok =>
    simp only [step] at hstep
    split at hstep
    · rename_i up hcall
      have hholder : s.holder = some call := h.holder call (by rw [hcall]; trivial)
      have hfits := h.calls call
      rw [hcall] at hfits
      cases ok with
      | true =>
        cases hstep
        refine h.setUpload (by rw [hcall]; rfl) ?_ (fun _ => hholder) ⟨hfits, id, rfl⟩
        rw [hcall]
        exact fun up' hup' => hup'
      | false =>
        cases hstep
        exact h.setUpload (by rw [hcall]; rfl) nofun (fun _ => hholder)
          ⟨hfits.1, hcalm up hcall, hfits.2.2.2⟩
    · cases hstep
  | commit call ok =>
    simp only [step] at hstep
    split at hstep
    · rename_i up row conflict hcall
      have hholder : s.holder = some call := h.holder call (by rw [hcall]; trivial)
      cases ok with
      | true =>
        cases hstep
        exact h.commit hcall
      | false =>
        cases hstep
        have hfits := h.calls call
        rw [hcall] at hfits
        exact h.letGo (.commitFailed up) hholder (by rw [hcall]; rfl) rfl id
          ⟨hfits.1.1, hcalm up row conflict hcall, hfits.1.2.2.2⟩
    · cases hstep
  | cleanup call =>
    simp only [step] at hstep
    split at hstep
    · rename_i up hcall
      cases hstep
      have hholder : s.holder = some call := h.holder call (by rw [hcall]; trivial)
      have hfits := h.calls call
      rw [hcall] at hfits
      have hclean := h.cleanup (by rw [hcall]; rfl) hfits.1 hfits.2.1 hfits.2.2
      exact Sound.release hclean (h.not_holds hholder id)
    · rename_i up hcall
      cases hstep
      have hfits := h.calls call
      rw [hcall] at hfits
      exact h.cleanup (by rw [hcall]; rfl) hfits.1 hfits.2.1 hfits.2.2
    · cases hstep
  | allowDelete call step' =>
    simp only [step] at hstep
    split at hstep
    · rename_i hguard
      cases hstep
      refine h.setDelete nofun nofun ?_
      rintro _ ⟨⟩
      exact noSlash_of_validatePathSegment hguard.2.2
    · cases hstep
  | clear call =>
    simp only [step] at hstep
    split at hstep
    · rename_i step' hcall
      cases hstep
      obtain ⟨hrows, hcalls⟩ := hcalm step' hcall
      exact h.clear (h.allowed call step' hcall) hrows hcalls
    · cases hstep
  | deleteStart call =>
    simp only [step] at hstep
    split at hstep
    · rename_i step' hcall
      cases hstep
      have hrows := (h.clearing call step' (by rw [hcall]; rfl)).1
      refine h.setDelete ?_ ?_ nofun
      · rw [hcall]
        exact fun _ hstep => hstep
      · rintro _ _ ⟨⟩
        rw [List.map_eq_nil_iff, List.filter_eq_nil_iff]
        exact fun row hrow => by simpa using hrows row hrow
    · cases hstep
  | deleteDone call ok =>
    simp only [step] at hstep
    split at hstep
    · rename_i step' targets hcall
      obtain rfl := h.targets call step' targets hcall
      cases ok with
      | false =>
        cases hstep
        exact h.setDelete nofun nofun nofun
      | true =>
        simp only [if_true] at hstep
        split at hstep
        · cases hstep
        · cases hstep
          have hrows : (s.rows.filter fun r => ¬ (r.id ∈ [] ∧ r.stepName = step')) = s.rows := by
            simp
          rw [hrows]
          exact h.setDelete nofun nofun nofun
    · cases hstep
  | settle =>
    simp only [step] at hstep
    split at hstep
    · cases hstep
      exact ⟨h.names, h.keys, h.rowKey, h.rowBlob, h.owned, h.cap, h.one, h.holder, h.calls,
        h.clearing, h.targets, h.allowed⟩
    · cases hstep

theorem sound_start (cfg : Config) (job : Job) : Sound cfg job {} where
  names := List.nodup_nil
  keys := List.nodup_nil
  rowKey _ hrow := nomatch hrow
  rowBlob _ hrow := nomatch hrow
  owned _ hb := nomatch hb
  cap := Nat.zero_le _
  one _ _ _ _ hstored := nomatch hstored
  holder _ hholds := hholds.elim
  calls _ := trivial
  clearing _ _ hd := nomatch hd
  targets _ _ _ hd := nomatch hd
  allowed _ _ hd := nomatch hd

/--
In every run whose steps are calm, every row refers to a blob of its size and the job's blobs keep
its cap.
-/
theorem artifacts_consistent (cfg : Config) (job : Job) (events : List Event)
    (hcalm : Meets (step cfg job) (calm cfg) {} events) (s : State)
    (hrun : exec (step cfg job) {} events = some s) : Consistent cfg s :=
  (exec_invariant (Sound cfg job) (fun _ _ _ => step_sound) (sound_start cfg job) hcalm
    hrun).consistent

end Runs

/-! ## Replaced artifacts -/

def buildConfig : Config := ⟨"artifacts/", 80, 100, false⟩

def localConfig : Config := { buildConfig with sidecars := true }

def buildJob : Job := ⟨"main", 7⟩

def buildReport : Upload := ⟨"build", "report", "text/plain", 60⟩

def testReport : Upload := ⟨"test", "report", "text/plain", 60⟩

def testCoverage : Upload := ⟨"test", "coverage", "text/plain", 30⟩

def uploadEvents (up : Upload) (id : Uuid) (ok : Bool) : List Event :=
  [.lock 0 up, .sum 0, .check 0, .put 0, .upsert 0 id true, .commit 0 ok]

def buildAndTest : List Event :=
  uploadEvents buildReport 100 true ++ uploadEvents testCoverage 101 false ++
    [.cleanup 0, .allowDelete 0 "test", .clear 0, .deleteStart 0, .deleteDone 0 true]

theorem artifacts_consistent_buildAndTest :
    ∃ s, exec (step localConfig buildJob) {} buildAndTest = some s ∧
      s.rows = [buildReport.row localConfig buildJob 100] ∧
      s.blobs = [buildReport.blob localConfig buildJob] ∧ Consistent localConfig s := by
  refine ⟨_, rfl, by decide +kernel, by decide +kernel,
    artifacts_consistent localConfig buildJob buildAndTest ?_ _ rfl⟩
  refine .cons trivial rfl (.cons trivial rfl (.cons trivial rfl (.cons ?_ rfl (.cons trivial rfl
    (.cons trivial rfl (.cons trivial rfl (.cons trivial rfl (.cons trivial rfl (.cons ?_ rfl
    (.cons trivial rfl (.cons ?_ rfl (.cons trivial rfl (.cons trivial rfl (.cons ?_ rfl
    (.cons trivial rfl (.cons trivial rfl trivial))))))))))))))))
  · rintro up ⟨⟩
    refine ⟨by decide, by decide, fun d => ?_, fun other => ?_⟩
    · cases d <;> nofun
    · cases other <;> rfl
  · rintro up ⟨⟩
    refine ⟨by decide, by decide, fun d => ?_, fun other => ?_⟩
    · cases d <;> nofun
    · cases other <;> rfl
  · rintro up row conflict ⟨⟩
    decide
  · rintro step ⟨⟩
    refine ⟨by decide, fun other up => ?_⟩
    cases other <;> nofun

/--
A second upload whose commit fails deletes the blob of the row that is there; a second step's
upload leaves the first one's blob; the sidecar of `report` is the file of the artifact
`report.ct`.
-/
theorem replaced_artifact_inconsistent :
    (∃ s, exec (step buildConfig buildJob) {}
        (uploadEvents buildReport 100 true ++ uploadEvents buildReport 101 false ++ [.cleanup 0]) =
          some s ∧ ¬ Consistent buildConfig s) ∧
      (∃ s, exec (step buildConfig buildJob) {}
        (uploadEvents buildReport 100 true ++ uploadEvents testReport 101 true) = some s ∧
          ¬ Consistent buildConfig s) ∧
      ∃ s, exec (step localConfig buildJob) {}
        (uploadEvents ⟨"build", "report.ct", "text/plain", 40⟩ 100 true ++
          uploadEvents buildReport 101 true) = some s ∧ ¬ Consistent localConfig s := by
  refine ⟨⟨_, rfl, fun h => ?_⟩, ⟨_, rfl, fun h => ?_⟩, ⟨_, rfl, fun h => ?_⟩⟩
  · have hrow := h.rows (buildReport.row buildConfig buildJob 100) (by decide +kernel)
    revert hrow
    decide +kernel
  · have hcap := h.cap
    revert hcap
    decide +kernel
  · have hrow := h.rows (Upload.row localConfig buildJob
      ⟨"build", "report.ct", "text/plain", 40⟩ 100) (by decide +kernel)
    revert hrow
    decide +kernel

end Stroem.Artifacts
