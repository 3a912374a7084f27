import Stroem.JobStep

/-!
# The context of `when` and `for_each` templates

`render_context::build` for `Scope::Condition`: the job input with its file fields mapped to
paths, the workspace secrets, the state snapshots, the job's revision and ref, and one entry
per finished step.  Loop instances have no entry of their own.
-/

namespace Stroem

structure FileRef where
  fileId : String
  safeName : String
  deriving DecidableEq

structure JobFiles where
  root : String := "/inputs"
  fields : List (String × String) := []
  files : List (String × FileRef) := []

namespace JobFiles

def pathOf (files : JobFiles) (fileId : String) : Option String :=
  (files.files.find? (·.1 == fileId)).map fun f =>
    files.root ++ "/" ++ f.2.fileId ++ "/" ++ f.2.safeName

def templateInput (files : JobFiles) (input : Json) : Json :=
  match input with
  | .obj fields =>
    .obj (files.fields.foldl
      (fun out field =>
        if (Fields.get field.1 out).bind Json.asStr = some field.2 then
          match files.pathOf field.2 with
          | some path => Fields.insert field.1 (.str path) out
          | none => out
        else out)
      fields)
  | other => other

end JobFiles

structure Snapshots where
  task : Option Json := none
  global : Option Json := none
  files : JobFiles := {}

def upsert (key : String) (value : Json) : List (String × Json) → List (String × Json)
  | [] => [(key, value)]
  | (k, v) :: rest =>
    if k = key then (k, value) :: rest else (k, v) :: upsert key value rest

def jobContext (revision gitRef : Option String) : Json :=
  .obj (Fields.collect [("revision", Json.ofOptStr revision), ("ref", Json.ofOptStr gitRef)])

def stepEntry (r : JobStepRow) : Option Json :=
  let outputOrNull := r.output.getD .null
  match r.status with
  | .completed => some (.obj [("output", outputOrNull)])
  | .skipped | .suspended => some (.obj [("output", .null)])
  | .failed =>
    let output := if r.isPlaceholder then outputOrNull else .null
    let entry : Fields := [("output", output)]
    some (.obj (match r.errorMessage with
      | some err => Fields.insert "error" (.str err) entry
      | none => entry))
  | .pending | .ready | .claimed | .running | .cancelled => none

def sanitizedName (name : String) : String :=
  name.map fun c => if c = '-' then '_' else c

def conditionEntries (job : JobRow) (rows : List JobStepRow) (ws : WorkspaceConfig)
    (snapshots : Snapshots) : List (String × Json) :=
  let ctx := match job.input with
    | some v => upsert "input" (snapshots.files.templateInput v) []
    | none => []
  let ctx := upsert "secret" (.obj (Fields.collect ws.secrets)) ctx
  let ctx := upsert "state" (snapshots.task.getD .null) ctx
  let ctx := upsert "global_state" (snapshots.global.getD .null) ctx
  let ctx := upsert "job" (jobContext job.revision job.gitRef) ctx
  rows.foldl
    (fun ctx r =>
      if r.loopSource.isSome then ctx
      else match stepEntry r with
        | some entry => upsert (sanitizedName r.stepName) entry ctx
        | none => ctx)
    ctx

def conditionContext (job : JobRow) (rows : List JobStepRow) (ws : WorkspaceConfig)
    (snapshots : Snapshots) : Json :=
  .obj (Fields.collect (conditionEntries job rows ws snapshots))

/-! ## The order of the rows -/

theorem keys_upsert (key : String) (value : Json) (entries : List (String × Json)) :
    (upsert key value entries).map Prod.fst =
      if key ∈ entries.map Prod.fst then entries.map Prod.fst
      else entries.map Prod.fst ++ [key] := by
  induction entries with
  | nil => simp [upsert]
  | cons e entries ih =>
    obtain ⟨k, v⟩ := e
    by_cases hk : k = key
    · simp [upsert, hk]
    · have hk' : key ≠ k := fun h => hk h.symm
      simp only [upsert, if_neg hk, List.map_cons, ih, List.mem_cons, hk', false_or]
      split <;> simp

variable {entries : List (String × Json)}

theorem nodup_upsert {key : String} {value : Json} (h : (entries.map Prod.fst).Nodup) :
    ((upsert key value entries).map Prod.fst).Nodup := by
  rw [keys_upsert]
  split
  case isTrue => exact h
  case isFalse hnew =>
    refine List.nodup_append.mpr ⟨h, List.nodup_singleton key, fun a ha b hb heq => hnew ?_⟩
    rw [← List.mem_singleton.mp hb, ← heq]
    exact ha

private theorem foldl_insert_comm {key : String} (value : Json) (h : key ∉ entries.map Prod.fst)
    (m : Fields) :
    entries.foldl (fun m e => Fields.insert e.1 e.2 m) (Fields.insert key value m) =
      Fields.insert key value (entries.foldl (fun m e => Fields.insert e.1 e.2 m) m) := by
  induction entries generalizing m with
  | nil => rfl
  | cons e entries ih =>
    simp only [List.map_cons, List.mem_cons, not_or] at h
    rw [List.foldl_cons, List.foldl_cons, Fields.insert_comm (Ne.symm h.1), ih h.2]

theorem collect_upsert {key : String} {value : Json} (h : (entries.map Prod.fst).Nodup) :
    Fields.collect (upsert key value entries) =
      Fields.insert key value (Fields.collect entries) := by
  unfold Fields.collect
  generalize ([] : Fields) = m
  induction entries generalizing m with
  | nil => rfl
  | cons e entries ih =>
    obtain ⟨k, v⟩ := e
    obtain ⟨hnot, hnodup⟩ := List.nodup_cons.mp h
    by_cases hk : k = key
    · subst hk
      simp only [upsert, if_true, List.foldl_cons]
      rw [← foldl_insert_comm value hnot, Fields.insert_insert]
    · simp only [upsert, if_neg hk, List.foldl_cons]
      exact ih hnodup _

def contextEntry (r : JobStepRow) : Option (String × Json) :=
  if r.loopSource.isSome then none
  else (stepEntry r).map fun entry => (sanitizedName r.stepName, entry)

private theorem collect_foldl_upsert (rows : List JobStepRow) (h : (entries.map Prod.fst).Nodup) :
    Fields.collect (rows.foldl
      (fun ctx r =>
        if r.loopSource.isSome then ctx
        else match stepEntry r with
          | some entry => upsert (sanitizedName r.stepName) entry ctx
          | none => ctx)
      entries) =
      rows.foldl (fun m r => (contextEntry r).elim m fun e => Fields.insert e.1 e.2 m)
        (Fields.collect entries) := by
  induction rows generalizing entries with
  | nil => rfl
  | cons r rows ih =>
    simp only [List.foldl_cons]
    by_cases hsource : r.loopSource.isSome = true
    · simp only [contextEntry, hsource, if_true, Option.elim_none]
      exact ih h
    · cases hentry : stepEntry r with
      | none =>
        simp only [contextEntry, hsource, hentry, Bool.false_eq_true, if_false,
          Option.map_none, Option.elim_none]
        exact ih h
      | some entry =>
        simp only [contextEntry, hsource, hentry, Bool.false_eq_true, if_false,
          Option.map_some, Option.elim_some]
        rw [← collect_upsert h]
        exact ih (nodup_upsert h)

theorem conditionContext_perm (job : JobRow) {rows rows' : List JobStepRow}
    (ws : WorkspaceConfig) (snapshots : Snapshots) (hperm : rows.Perm rows')
    (hnames : ∀ r ∈ rows, ∀ r' ∈ rows, r.loopSource = none → r'.loopSource = none →
      sanitizedName r.stepName = sanitizedName r'.stepName → r = r') :
    conditionContext job rows ws snapshots = conditionContext job rows' ws snapshots := by
  have hkey : ∀ {r : JobStepRow} {e : String × Json}, contextEntry r = some e →
      r.loopSource = none ∧ e.1 = sanitizedName r.stepName := by
    intro r e he
    unfold contextEntry at he
    split at he
    · cases he
    case isFalse hsource =>
      obtain ⟨entry, -, rfl⟩ := Option.map_eq_some_iff.mp he
      exact ⟨by simpa using hsource, rfl⟩
  unfold conditionContext conditionEntries
  refine congrArg Json.obj ?_
  simp only
  have hnodup : ∀ {entries : List (String × Json)}, (entries.map Prod.fst).Nodup →
      ((upsert "job" (jobContext job.revision job.gitRef)
        (upsert "global_state" (snapshots.global.getD .null)
          (upsert "state" (snapshots.task.getD .null)
            (upsert "secret" (.obj (Fields.collect ws.secrets)) entries)))).map
              Prod.fst).Nodup := fun h =>
    nodup_upsert (nodup_upsert (nodup_upsert (nodup_upsert h)))
  have hbase : ((match job.input with
      | some v => upsert "input" (snapshots.files.templateInput v) []
      | none => []).map Prod.fst).Nodup := by
    split
    · exact nodup_upsert List.nodup_nil
    · exact List.nodup_nil
  rw [collect_foldl_upsert rows (hnodup hbase), collect_foldl_upsert rows' (hnodup hbase)]
  refine hperm.foldl_eq' (fun r hr r' hr' m => ?_) _
  cases he : contextEntry r with
  | none => simp
  | some e =>
    cases he' : contextEntry r' with
    | none => simp
    | some e' =>
      obtain ⟨hnone, hname⟩ := hkey he
      obtain ⟨hnone', hname'⟩ := hkey he'
      by_cases heq : sanitizedName r.stepName = sanitizedName r'.stepName
      · obtain rfl := hnames r hr r' hr' hnone hnone' heq
        rw [he] at he'
        cases he'
        rfl
      · have hne : e'.1 ≠ e.1 := by
          rw [hname, hname']
          exact Ne.symm heq
        simp only [Option.elim_some]
        exact Fields.insert_comm hne e'.2 e.2 m

end Stroem
