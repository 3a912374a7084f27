import Stroem.Redaction.Strings

/-!
# Redacting a job response

The walk over a serialised job passes over the identifiers of the job, of its steps and of its
input files; everything else is content, and every string value of it is redacted.
-/

namespace Stroem.Redaction

def jobIdentifierKeys : List String :=
  ["job_id", "workspace", "task_name", "mode", "status", "source_type", "source_id",
   "source_job_id", "restart_from_step", "restart_from_steps", "parent_job_id",
   "parent_step_name", "revision", "ref", "task_folder", "worker_id", "created_at",
   "started_at", "completed_at", "retry_of_job_id", "retry_job_id", "retry_attempt",
   "max_retries", "derived_jobs"]

def inputFileIdentifierKeys : List String := ["field", "file_id"]

def stepIdentifierKeys : List String :=
  ["step_name", "action_name", "action_type", "runner", "status", "worker_id", "started_at",
   "completed_at", "suspended_at", "retry_at", "retry_attempt", "max_retries", "skip_reason",
   "loop_source", "loop_index", "loop_total", "carried_over", "depends_on",
   "action_workspace", "action_ref", "action_revision", "task_workspace", "task_ref",
   "task_revision", "job_id", "workspace", "task_name", "job_status", "child_jobs"]

def walkObjectExcept (skip : List String) (f : Json → Json) : Json → Json
  | .obj fields => .obj (fields.map fun (k, x) => (k, if skip.contains k then x else f x))
  | other => f other

def walkEntries (skip : List String) (f : Json → Json) : Json → Json
  | .arr entries => .arr (entries.map (walkObjectExcept skip f))
  | other => f other

def walkJobContent (f : Json → Json) : Json → Json
  | .obj fields => .obj (fields.map fun (key, v) => (key,
      if key == "steps" then walkEntries stepIdentifierKeys f v
      else if key == "input_files" then walkEntries inputFileIdentifierKeys f v
      else if !jobIdentifierKeys.contains key then f v
      else v))
  | job => f job

def redactJobResponse (plain : Char → Bool) (secrets : List String) (job : Json) : Json :=
  walkJobContent (redactValueTree plain secrets) job

def maskJobResponse (job : Json) : Json := walkJobContent maskValueTree job

/-! ## The content of a response -/

def contentsOfObject (skip : List String) : Json → List Json
  | .obj fields => (fields.filter fun (k, _) => !skip.contains k).map Prod.snd
  | other => [other]

def contentsOfEntries (skip : List String) : Json → List Json
  | .arr entries => entries.flatMap (contentsOfObject skip)
  | other => [other]

def contents : Json → List Json
  | .obj fields => fields.flatMap fun (key, v) =>
    if key == "steps" then contentsOfEntries stepIdentifierKeys v
    else if key == "input_files" then contentsOfEntries inputFileIdentifierKeys v
    else if !jobIdentifierKeys.contains key then [v]
    else []
  | job => [job]

def skeleton (job : Json) : Json := walkJobContent (fun _ => .null) job

def KeepsKind (f : Json → Json) : Prop := ∀ v, (f v).typeName = v.typeName

variable {f : Json → Json}

theorem KeepsKind.eq_arr (hf : KeepsKind f) {v : Json} {items : List Json} (h : f v = .arr items) :
    ∃ items', v = .arr items' := by
  have hkind := hf v
  rw [h] at hkind
  cases v with
  | arr items' => exact ⟨items', rfl⟩
  | null | bool | num | str | obj => simp [Json.typeName] at hkind

theorem KeepsKind.eq_obj (hf : KeepsKind f) {v : Json} {fields : List (String × Json)}
    (h : f v = .obj fields) : ∃ fields', v = .obj fields' := by
  have hkind := hf v
  rw [h] at hkind
  cases v with
  | obj fields' => exact ⟨fields', rfl⟩
  | null | bool | num | str | arr => simp [Json.typeName] at hkind

theorem keepsKind_mapStrings (f : String → String) : KeepsKind (mapStrings f) := by
  intro v
  cases v <;> rfl

theorem contentsOfObject_walk (hf : KeepsKind f) (skip : List String) (v : Json) :
    contentsOfObject skip (walkObjectExcept skip f v) = (contentsOfObject skip v).map f := by
  have hother : (∀ fields, v ≠ .obj fields) → contentsOfObject skip (f v) = [f v] := by
    intro hne
    unfold contentsOfObject
    split
    · next fields heq =>
      obtain ⟨fields', rfl⟩ := hf.eq_obj heq
      exact absurd rfl (hne fields')
    · rfl
  cases v with
  | obj fields =>
    simp only [walkObjectExcept, contentsOfObject, List.filter_map, List.map_map]
    refine List.map_congr_left fun entry hentry => ?_
    have hkeep := (List.mem_filter.mp hentry).2
    simp only [Function.comp_apply, Bool.not_eq_true'] at hkeep
    simp only [Function.comp_apply, hkeep, Bool.false_eq_true, if_false]
  | null | bool | num | str | arr => exact hother (by simp)

theorem contentsOfEntries_walk (hf : KeepsKind f) (skip : List String) (v : Json) :
    contentsOfEntries skip (walkEntries skip f v) = (contentsOfEntries skip v).map f := by
  have hother : (∀ items, v ≠ .arr items) → contentsOfEntries skip (f v) = [f v] := by
    intro hne
    unfold contentsOfEntries
    split
    · next items heq =>
      obtain ⟨items', rfl⟩ := hf.eq_arr heq
      exact absurd rfl (hne items')
    · rfl
  cases v with
  | arr items =>
    simp only [walkEntries, contentsOfEntries, List.flatMap_map, List.map_flatMap]
    exact List.flatMap_congr fun entry _ => contentsOfObject_walk hf skip entry
  | null | bool | num | str | obj => exact hother (by simp)

theorem contents_walkJobContent (hf : KeepsKind f) (job : Json) :
    contents (walkJobContent f job) = (contents job).map f := by
  have hother : (∀ fields, job ≠ .obj fields) → contents (f job) = [f job] := by
    intro hne
    unfold contents
    split
    · next fields heq =>
      obtain ⟨fields', rfl⟩ := hf.eq_obj heq
      exact absurd rfl (hne fields')
    · rfl
  cases job with
  | obj fields =>
    simp only [walkJobContent, contents, List.flatMap_map, List.map_flatMap]
    refine List.flatMap_congr fun entry _ => ?_
    obtain ⟨key, v⟩ := entry
    dsimp only
    split
    · exact contentsOfEntries_walk hf _ v
    · split
      · exact contentsOfEntries_walk hf _ v
      · split
        · rfl
        · rfl
  | null | bool | num | str | arr => exact hother (by simp)

theorem walkObjectExcept_walk (hf : KeepsKind f) (g : Json → Json) (skip : List String)
    (v : Json) :
    walkObjectExcept skip g (walkObjectExcept skip f v) =
      walkObjectExcept skip (fun x => g (f x)) v := by
  have hother : (∀ fields, v ≠ .obj fields) → walkObjectExcept skip g (f v) = g (f v) := by
    intro hne
    unfold walkObjectExcept
    split
    · next fields heq =>
      obtain ⟨fields', rfl⟩ := hf.eq_obj heq
      exact absurd rfl (hne fields')
    · rfl
  cases v with
  | obj fields =>
    simp only [walkObjectExcept, List.map_map]
    refine congrArg Json.obj (List.map_congr_left fun entry _ => ?_)
    simp only [Function.comp_apply]
    split <;> rfl
  | null | bool | num | str | arr => exact hother (by simp)

theorem walkEntries_walk (hf : KeepsKind f) (g : Json → Json) (skip : List String) (v : Json) :
    walkEntries skip g (walkEntries skip f v) = walkEntries skip (fun x => g (f x)) v := by
  have hother : (∀ items, v ≠ .arr items) → walkEntries skip g (f v) = g (f v) := by
    intro hne
    unfold walkEntries
    split
    · next items heq =>
      obtain ⟨items', rfl⟩ := hf.eq_arr heq
      exact absurd rfl (hne items')
    · rfl
  cases v with
  | arr items =>
    simp only [walkEntries, List.map_map]
    exact congrArg Json.arr
      (List.map_congr_left fun entry _ => walkObjectExcept_walk hf g skip entry)
  | null | bool | num | str | obj => exact hother (by simp)

theorem walkJobContent_walk (hf : KeepsKind f) (g : Json → Json) (job : Json) :
    walkJobContent g (walkJobContent f job) = walkJobContent (fun x => g (f x)) job := by
  have hother : (∀ fields, job ≠ .obj fields) → walkJobContent g (f job) = g (f job) := by
    intro hne
    unfold walkJobContent
    split
    · next fields heq =>
      obtain ⟨fields', rfl⟩ := hf.eq_obj heq
      exact absurd rfl (hne fields')
    · rfl
  cases job with
  | obj fields =>
    simp only [walkJobContent, List.map_map]
    refine congrArg Json.obj (List.map_congr_left fun entry _ => ?_)
    obtain ⟨key, v⟩ := entry
    simp only [Function.comp_apply]
    refine congrArg (Prod.mk key) ?_
    split
    · exact walkEntries_walk hf g _ v
    · split
      · exact walkEntries_walk hf g _ v
      · split <;> rfl
  | null | bool | num | str | arr => exact hother (by simp)

/-! ## What becomes of the content -/

mutual

/-- The second value has the shape, the numbers, the booleans and the nulls of the first, its clean
strings, and no string value in which a secret occurs. -/
def Redacted (plain : Char → Bool) (secrets : List String) : Json → Json → Prop
  | .str s, after => ∃ s', after = .str s' ∧ (Clean plain secrets s → s' = s) ∧
      ∀ secret ∈ secrets, Maskable secret → ¬ Contains s' secret
  | .arr items, after => ∃ items', after = .arr items' ∧
      RedactedItems plain secrets items items'
  | .obj fields, after => ∃ fields', after = .obj fields' ∧
      RedactedFields plain secrets fields fields'
  | .null, after => after = .null
  | .bool b, after => after = .bool b
  | .num n, after => after = .num n

def RedactedItems (plain : Char → Bool) (secrets : List String) :
    List Json → List Json → Prop
  | [], after => after = []
  | v :: items, after => ∃ v' items', after = v' :: items' ∧ Redacted plain secrets v v' ∧
      RedactedItems plain secrets items items'

def RedactedFields (plain : Char → Bool) (secrets : List String) :
    List (String × Json) → List (String × Json) → Prop
  | [], after => after = []
  | (key, v) :: fields, after => ∃ key' v' fields', after = (key', v') :: fields' ∧
      (Clean plain secrets key → key' = key) ∧ Redacted plain secrets v v' ∧
      RedactedFields plain secrets fields fields'

end

mutual

theorem redactValueTree_redacted (plain : Char → Bool) (secrets : List String) :
    ∀ v : Json, Redacted plain secrets v (redactValueTree plain secrets v)
  | .str s => ⟨_, rfl, redactStr_of_clean, fun _ h hmaskable => redactStr_hides plain s h hmaskable⟩
  | .arr items => ⟨_, rfl, redactList_redacted plain secrets items⟩
  | .obj fields => ⟨_, rfl, redactFields_redacted plain secrets fields⟩
  | .null => rfl
  | .bool _ => rfl
  | .num _ => rfl

theorem redactList_redacted (plain : Char → Bool) (secrets : List String) :
    ∀ items : List Json, RedactedItems plain secrets items
      (mapStringsList (redactStr plain secrets) items)
  | [] => rfl
  | v :: items => ⟨_, _, rfl, redactValueTree_redacted plain secrets v,
      redactList_redacted plain secrets items⟩

theorem redactFields_redacted (plain : Char → Bool) (secrets : List String) :
    ∀ fields : List (String × Json), RedactedFields plain secrets fields
      (mapStringsFields (redactStr plain secrets) fields)
  | [] => rfl
  | (_, v) :: fields => ⟨_, _, _, rfl, fun _ => rfl, redactValueTree_redacted plain secrets v,
      redactFields_redacted plain secrets fields⟩

end

mutual

def texts : Json → List String
  | .str s => [s]
  | .arr items => textsList items
  | .obj fields => textsFields fields
  | .null | .bool _ | .num _ => []

def textsList : List Json → List String
  | [] => []
  | v :: items => texts v ++ textsList items

def textsFields : List (String × Json) → List String
  | [] => []
  | (key, v) :: fields => key :: texts v ++ textsFields fields

end

def HidesAll (secrets : List String) (job : Json) : Prop :=
  ∀ content ∈ contents job, ∀ s ∈ texts content, ∀ secret ∈ secrets, ¬ Contains s secret

/-- Redaction passes over the identifiers and turns every content value into a redacted one. -/
theorem redactJobResponse_redacts (plain : Char → Bool) (secrets : List String) (job : Json) :
    skeleton (redactJobResponse plain secrets job) = skeleton job ∧
      List.Forall₂ (Redacted plain secrets) (contents job)
        (contents (redactJobResponse plain secrets job)) := by
  have hkind : KeepsKind (redactValueTree plain secrets) := keepsKind_mapStrings _
  refine ⟨walkJobContent_walk hkind _ job, ?_⟩
  unfold redactJobResponse
  rw [contents_walkJobContent hkind, List.forall₂_map_right_iff]
  exact List.forall₂_same.mpr fun v _ => redactValueTree_redacted plain secrets v

/-- An empty secret, a secret made of the mask's own character, and a secret in an object key. -/
theorem redactJobResponse_not_hidesAll :
    ¬ HidesAll [""] (redactJobResponse (fun _ => true) [""]
        (.obj [("output", .str "ok")])) ∧
      ¬ HidesAll ["•"] (redactJobResponse (fun _ => true) ["•"]
        (.obj [("output", .str "•")])) ∧
      ¬ HidesAll ["tok-1"] (redactJobResponse (fun _ => true) ["tok-1"]
        (.obj [("output", .obj [("tok-1", .bool true)])])) := by
  refine ⟨fun h => ?_, fun h => ?_, fun h => ?_⟩
  · refine h (.str "ok") (by decide +kernel) "ok" (by decide) "" (by decide) ?_
    decide
  · refine h (.str "••••••") (by decide +kernel) "••••••" (by decide) "•" (by decide) ?_
    decide
  · refine h (.obj [("tok-1", .bool true)]) (by decide +kernel) "tok-1" (by decide) "tok-1"
      (by decide) ?_
    decide

theorem maskJobResponse_masks (job : Json) :
    skeleton (maskJobResponse job) = skeleton job ∧
      contents (maskJobResponse job) = (contents job).map maskValueTree :=
  ⟨walkJobContent_walk (keepsKind_mapStrings _) _ job,
    contents_walkJobContent (keepsKind_mapStrings _) job⟩

end Stroem.Redaction
