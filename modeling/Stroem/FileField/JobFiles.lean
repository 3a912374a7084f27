import Stroem.FileField
import Stroem.InputFiles
import Stroem.Redaction.Strings
import Stroem.RenderContext

/-!
# References to attached files

A file is referred to by its id or by its path, which is under `/inputs` where a value is stored
and under another root where it is rendered.  `rebase_canonical` takes the paths of the former
kind to those of the latter.
-/

namespace Stroem

open Foundation
open InputFiles (isFileId InputField)

variable {files : JobFiles}

def canonicalInputsRoot : String := "/inputs"

def filePath (root fileId safeName : String) : String := root ++ "/" ++ fileId ++ "/" ++ safeName

def treeInsert {β : Type} (key : String) (value : β) : List (String × β) → List (String × β)
  | [] => [(key, value)]
  | (k, v) :: rest =>
    if key = k then (key, value) :: rest
    else if key < k then (key, value) :: (k, v) :: rest
    else (k, v) :: treeInsert key value rest

namespace JobFiles

def new (root : String) (attachments : List (String × FileRef)) : JobFiles where
  root := root
  fields := attachments.foldl (fun fields a => treeInsert a.1 a.2.fileId fields) []
  files := attachments.foldl (fun files a => treeInsert a.2.fileId a.2 files) []

def fileOf (files : JobFiles) (fileId : String) : Option FileRef :=
  (files.files.find? (·.1 == fileId)).map (·.2)

def fileAt (files : JobFiles) (root value : String) : Option FileRef := do
  let rest ← value.toList.dropPrefix? root.toList
  let rest ← rest.dropPrefix? ['/']
  let (id, _) ← splitOnce '/' rest
  let f ← files.fileOf (String.ofList id)
  if filePath root f.fileId f.safeName = value then some f else none

def canonicalFile (files : JobFiles) (value : String) : Option FileRef :=
  files.fileAt canonicalInputsRoot value

def resolveTarget (files : JobFiles) (value : String) : Option FileRef :=
  match files.fileOf value with
  | some f => some f
  | none => files.fileAt files.root value

mutual

def rebaseCanonical (files : JobFiles) (value : Json) : Json :=
  if files.root = canonicalInputsRoot ∨ files.files = [] then value
  else
    match value with
    | .str s =>
      match files.canonicalFile s with
      | some f => .str (filePath files.root f.fileId f.safeName)
      | none => .str s
    | .arr items => .arr (rebaseList files items)
    | .obj fields => .obj (rebaseFields files fields)
    | value => value

def rebaseList (files : JobFiles) : List Json → List Json
  | [] => []
  | v :: items => rebaseCanonical files v :: rebaseList files items

def rebaseFields (files : JobFiles) : List (String × Json) → List (String × Json)
  | [] => []
  | (k, v) :: fields => (k, rebaseCanonical files v) :: rebaseFields files fields

end

def templatePrepared (files : JobFiles) (prepared : Json) (schema : List InputField) : Json :=
  match prepared with
  | .obj fields =>
    .obj (schema.foldl
      (fun out field =>
        if field.fieldType ≠ "file" then out
        else
          match ((Fields.get field.name out).bind Json.asStr).bind files.pathOf with
          | some path => Fields.insert field.name (.str path) out
          | none => out)
      fields)
  | other => other

/-! ## Attached files -/

theorem find?_treeInsert {β : Type} (key : String) (value : β) (m : List (String × β))
    (key' : String) :
    (treeInsert key value m).find? (·.1 == key') =
      if key = key' then some (key, value) else m.find? (·.1 == key') := by
  induction m with
  | nil =>
    by_cases hkey : key = key' <;> simp [treeInsert, hkey]
  | cons e m ih =>
    obtain ⟨k, v⟩ := e
    rw [treeInsert]
    split
    · next hk =>
      subst hk
      by_cases hkey : key = key' <;> simp [hkey]
    · next hk =>
      split
      · by_cases hkey : key = key' <;> simp [hkey]
      · rw [List.find?_cons, List.find?_cons, ih]
        by_cases hkey : key = key'
        · subst hkey
          have hne : (k == key) = false := beq_false_of_ne (Ne.symm hk)
          simp [hne]
        · simp [hkey]

theorem mem_treeInsert {β : Type} {key : String} {value : β} {m : List (String × β)}
    {e : String × β} (h : e ∈ treeInsert key value m) : e = (key, value) ∨ e ∈ m := by
  induction m with
  | nil => exact .inl (List.mem_singleton.mp h)
  | cons first m ih =>
    obtain ⟨k, v⟩ := first
    rw [treeInsert] at h
    split at h
    · exact (List.mem_cons.mp h).imp_right (List.mem_cons_of_mem _)
    · split at h
      · exact List.mem_cons.mp h
      · obtain rfl | h := List.mem_cons.mp h
        · exact .inr List.mem_cons_self
        · exact (ih h).imp_right (List.mem_cons_of_mem _)

structure Attached (files : JobFiles) : Prop where
  keyed : ∀ id file, files.fileOf id = some file → file.fileId = id ∧ isFileId id = true
  present : ∀ e ∈ files.fields, ∃ file, files.fileOf e.2 = some file

theorem fileOf_treeInsert {root : String} {fields : List (String × String)}
    {files : List (String × FileRef)} (file : FileRef) (id : String) :
    fileOf ⟨root, fields, treeInsert file.fileId file files⟩ id =
      if file.fileId = id then some file else fileOf ⟨root, fields, files⟩ id := by
  rw [fileOf, fileOf, find?_treeInsert]
  split <;> rfl

theorem Attached.attach (h : Attached files) {a : String × FileRef}
    (hid : isFileId a.2.fileId = true) :
    Attached ⟨files.root, treeInsert a.1 a.2.fileId files.fields,
      treeInsert a.2.fileId a.2 files.files⟩ where
  keyed := by
    intro id file hfile
    rw [fileOf_treeInsert] at hfile
    split at hfile
    · next heq =>
      cases hfile
      exact ⟨heq, heq ▸ hid⟩
    · exact h.keyed id file hfile
  present := by
    intro e he
    rw [fileOf_treeInsert]
    split
    · exact ⟨a.2, rfl⟩
    · next hne =>
      obtain rfl | he := mem_treeInsert he
      · exact absurd rfl hne
      · exact h.present e he

theorem attached_new (root : String) {attachments : List (String × FileRef)}
    (hids : ∀ a ∈ attachments, isFileId a.2.fileId = true) : Attached (new root attachments) := by
  have hfold : ∀ files : JobFiles, Attached files → Attached
      ⟨files.root,
        attachments.foldl (fun fields a => treeInsert a.1 a.2.fileId fields) files.fields,
        attachments.foldl (fun files a => treeInsert a.2.fileId a.2 files) files.files⟩ := by
    induction attachments with
    | nil => exact fun files h => h
    | cons a attachments ih =>
      obtain ⟨hid, hids⟩ := List.forall_mem_cons.mp hids
      exact fun files h => ih hids _ (h.attach hid)
  have hnone : ∀ id, fileOf ⟨root, [], []⟩ id = none := fun id => rfl
  refine hfold ⟨root, [], []⟩ ⟨fun id file hfile => ?_, fun e he => ?_⟩
  · rw [hnone] at hfile
    cases hfile
  · cases he

/-! ## Paths -/

theorem slash_not_mem_fileId {id : String} (h : isFileId id = true) : '/' ∉ id.toList := by
  rw [isFileId, Bool.and_eq_true, Bool.and_eq_true, decide_eq_true_eq, decide_eq_true_eq,
    List.all_eq_true] at h
  obtain ⟨⟨hbefore, -⟩, hhex⟩ := h
  rw [← List.take_append_drop 5 id.toList, hbefore, List.mem_append]
  rintro (hmem | hmem)
  · exact absurd hmem (by decide)
  · exact absurd (hhex '/' hmem) (by decide)

theorem toList_filePath (root id name : String) :
    (filePath root id name).toList = root.toList ++ '/' :: (id.toList ++ '/' :: name.toList) := by
  rw [filePath]
  simp

theorem dropPrefix?_append_self (before after : List Char) :
    (before ++ after).dropPrefix? before = some after :=
  List.dropPrefix?_eq_some_iff.mpr ⟨before, rfl, by simp⟩

theorem fileAt_eq_some_iff (h : Attached files) {root value : String}
    {file : FileRef} :
    files.fileAt root value = some file ↔
      files.fileOf file.fileId = some file ∧ value = filePath root file.fileId file.safeName := by
  constructor
  · intro hfile
    simp only [fileAt, Option.bind_eq_bind, Option.bind_eq_some_iff] at hfile
    obtain ⟨rest, -, rest', -, ⟨id, after⟩, -, f, hf, hpath⟩ := hfile
    split at hpath
    · next heq =>
      cases hpath
      have hid := (h.keyed _ _ hf).1
      exact ⟨by rw [hid]; exact hf, heq.symm⟩
    · cases hpath
  · rintro ⟨hfile, rfl⟩
    have hid := (h.keyed _ _ hfile).2
    have hsplit : splitOnce '/' (file.fileId.toList ++ '/' :: file.safeName.toList) =
        some (file.fileId.toList, file.safeName.toList) :=
      splitOnce_eq_some_iff.mpr ⟨rfl, slash_not_mem_fileId hid⟩
    have hslash : ('/' :: (file.fileId.toList ++ '/' :: file.safeName.toList)).dropPrefix? ['/'] =
        some (file.fileId.toList ++ '/' :: file.safeName.toList) :=
      dropPrefix?_append_self ['/'] _
    simp only [fileAt, toList_filePath, dropPrefix?_append_self, hslash, hsplit,
      String.ofList_toList, hfile, Option.bind_eq_bind, Option.bind_some]
    exact if_pos trivial

theorem filePath_not_id (h : Attached files) (root id name : String) :
    files.fileOf (filePath root id name) = none := by
  cases hfile : files.fileOf (filePath root id name) with
  | none => rfl
  | some file =>
    have hid := (h.keyed _ _ hfile).2
    refine absurd ?_ (slash_not_mem_fileId hid)
    rw [toList_filePath]
    simp

theorem resolveTarget_path (h : Attached files) {id : String} {file : FileRef}
    (hfile : files.fileOf id = some file) :
    files.resolveTarget (filePath files.root file.fileId file.safeName) = some file := by
  have hid := (h.keyed _ _ hfile).1
  rw [resolveTarget, filePath_not_id h]
  exact (fileAt_eq_some_iff h).mpr ⟨by rw [hid]; exact hfile, rfl⟩

theorem filePath_inj (h : Attached files) {root id id' : String}
    {file file' : FileRef} (hfile : files.fileOf id = some file)
    (hfile' : files.fileOf id' = some file')
    (hpath : filePath root file.fileId file.safeName = filePath root file'.fileId file'.safeName) :
    file = file' := by
  have hat : ∀ {id file}, files.fileOf id = some file →
      files.fileAt root (filePath root file.fileId file.safeName) = some file := fun hfile =>
    (fileAt_eq_some_iff h).mpr ⟨by rw [(h.keyed _ _ hfile).1]; exact hfile, rfl⟩
  have hsame := hat hfile
  rw [hpath, hat hfile'] at hsame
  exact (Option.some.inj hsame).symm

/-! ## Rebasing -/

def rebaseString (files : JobFiles) (s : String) : String :=
  match files.canonicalFile s with
  | some f => filePath files.root f.fileId f.safeName
  | none => s

theorem canonicalFile_eq_some_iff (h : Attached files) {s : String}
    {file : FileRef} :
    files.canonicalFile s = some file ↔ files.fileOf file.fileId = some file ∧
      s = filePath canonicalInputsRoot file.fileId file.safeName :=
  fileAt_eq_some_iff h

theorem rebaseString_idle (h : Attached files)
    (hidle : files.root = canonicalInputsRoot ∨ files.files = []) (s : String) :
    files.rebaseString s = s := by
  unfold rebaseString
  cases hfile : files.canonicalFile s with
  | none => rfl
  | some file =>
    obtain ⟨hat, hs⟩ := (canonicalFile_eq_some_iff h).mp hfile
    obtain hroot | hempty := hidle
    · rw [hroot, hs]
    · rw [fileOf, hempty] at hat
      cases hat

open Redaction (mapStrings mapStringsList mapStringsFields)

mutual

theorem mapStrings_id {f : String → String} (hf : ∀ s, f s = s) (v : Json) :
    mapStrings f v = v := by
  cases v with
  | str s => rw [mapStrings, hf]
  | arr items => rw [mapStrings, mapStringsList_id hf items]
  | obj fields => rw [mapStrings, mapStringsFields_id hf fields]
  | null => rfl
  | bool b => rfl
  | num n => rfl

theorem mapStringsList_id {f : String → String} (hf : ∀ s, f s = s) (items : List Json) :
    mapStringsList f items = items := by
  cases items with
  | nil => rfl
  | cons v items => rw [mapStringsList, mapStrings_id hf v, mapStringsList_id hf items]

theorem mapStringsFields_id {f : String → String} (hf : ∀ s, f s = s)
    (fields : List (String × Json)) : mapStringsFields f fields = fields := by
  cases fields with
  | nil => rfl
  | cons e fields =>
    obtain ⟨key, v⟩ := e
    rw [mapStringsFields, mapStrings_id hf v, mapStringsFields_id hf fields]

end

theorem rebaseCanonical_idle
    (hidle : files.root = canonicalInputsRoot ∨ files.files = []) (v : Json) :
    files.rebaseCanonical v = v := by
  cases v <;> simp [rebaseCanonical, hidle]

mutual

theorem rebaseCanonical_eq (h : Attached files) (v : Json) :
    files.rebaseCanonical v = mapStrings files.rebaseString v := by
  by_cases hidle : files.root = canonicalInputsRoot ∨ files.files = []
  · rw [rebaseCanonical_idle hidle]
    exact (mapStrings_id (rebaseString_idle h hidle) v).symm
  cases v with
  | str s =>
    rw [rebaseCanonical, if_neg hidle, mapStrings, rebaseString]
    cases hfile : files.canonicalFile s with
    | none => rfl
    | some file => rfl
  | arr items => rw [rebaseCanonical, if_neg hidle, mapStrings, rebaseList_eq h items]
  | obj fields => rw [rebaseCanonical, if_neg hidle, mapStrings, rebaseFields_eq h fields]
  | null => simp [rebaseCanonical, mapStrings]
  | bool b => simp [rebaseCanonical, mapStrings]
  | num n => simp [rebaseCanonical, mapStrings]

theorem rebaseList_eq (h : Attached files) (items : List Json) :
    files.rebaseList items = mapStringsList files.rebaseString items := by
  cases items with
  | nil => rfl
  | cons v items => rw [rebaseList, mapStringsList, rebaseCanonical_eq h v, rebaseList_eq h items]

theorem rebaseFields_eq (h : Attached files) (fields : List (String × Json)) :
    files.rebaseFields fields = mapStringsFields files.rebaseString fields := by
  cases fields with
  | nil => rfl
  | cons e fields =>
    obtain ⟨key, v⟩ := e
    rw [rebaseFields, mapStringsFields, rebaseCanonical_eq h v, rebaseFields_eq h fields]

end

/-! ## Paths in place of ids -/

def substitute (path : String → Option String) (out : Fields) (step : String × (String → Bool)) :
    Fields :=
  match (Fields.get step.1 out).bind Json.asStr with
  | some s =>
    if step.2 s then
      match path s with
      | some p => Fields.insert step.1 (.str p) out
      | none => out
    else out
  | none => out

theorem get_substitute_of_ne (path : String → Option String) (out : Fields)
    (step : String × (String → Bool)) {key : String} (hne : step.1 ≠ key) :
    Fields.get key (substitute path out step) = Fields.get key out := by
  unfold substitute
  split
  · split
    · split
      · exact Fields.get_insert_of_ne (Ne.symm hne) _ _
      · rfl
    · rfl
  · rfl

theorem get_substitute_self {path : String → Option String} {out : Fields}
    {step : String × (String → Bool)} {s : String}
    (hget : Fields.get step.1 out = some (.str s)) :
    Fields.get step.1 (substitute path out step) =
      some (.str (if step.2 s then (path s).getD s else s)) := by
  have hbind : (Fields.get step.1 out).bind Json.asStr = some s := by
    rw [hget]
    rfl
  unfold substitute
  simp only [hbind]
  split
  · cases path s with
    | none => exact hget
    | some p => exact Fields.get_insert_self _ _ _
  · exact hget

theorem get_substitute_other {path : String → Option String} {out : Fields}
    {step : String × (String → Bool)} {key : String}
    (hget : ∀ s, Fields.get key out ≠ some (.str s)) :
    Fields.get key (substitute path out step) = Fields.get key out := by
  by_cases hkey : step.1 = key
  · subst hkey
    have hbind : (Fields.get step.1 out).bind Json.asStr = none := by
      cases hvalue : Fields.get step.1 out with
      | none => rfl
      | some v =>
        cases v with
        | str s => exact absurd hvalue (hget s)
        | null => rfl
        | bool b => rfl
        | num n => rfl
        | arr items => rfl
        | obj fields => rfl
    unfold substitute
    rw [hbind]
  · exact get_substitute_of_ne path out step hkey

theorem get_foldl_substitute {path : String → Option String}
    (hpath : ∀ s p, path s = some p → path p = none) (steps : List (String × (String → Bool)))
    (m : Fields) (key : String) :
    (∀ s p, Fields.get key m = some (.str s) → path s = some p →
      (∃ step ∈ steps, step.1 = key ∧ step.2 s = true) →
      Fields.get key (steps.foldl (substitute path) m) = some (.str p)) ∧
    ((∀ s p, Fields.get key m = some (.str s) → path s = some p →
      ∀ step ∈ steps, step.1 = key → step.2 s = false) →
      Fields.get key (steps.foldl (substitute path) m) = Fields.get key m) := by
  induction steps generalizing m with
  | nil => exact ⟨fun _ _ _ _ ⟨_, hstep, _⟩ => (by cases hstep), fun _ => rfl⟩
  | cons step steps ih =>
    rw [List.foldl_cons]
    obtain ⟨ihpath, ihkept⟩ := ih (substitute path m step)
    constructor
    · rintro s p hget hp ⟨step', hstep', hkey, haccepts⟩
      by_cases hhere : step.1 = key ∧ step.2 s = true
      · -- this step puts the path, which no later step accepts
        obtain ⟨rfl, haccepts'⟩ := hhere
        have hset : Fields.get step.1 (substitute path m step) = some (.str p) := by
          rw [get_substitute_self hget, if_pos haccepts', hp]
          rfl
        refine (ihkept fun s' p' hget' hp' => ?_).trans hset
        obtain rfl := Json.str.inj (Option.some.inj (hset.symm.trans hget'))
        rw [hpath s p hp] at hp'
        cases hp'
      · have hsame : Fields.get key (substitute path m step) = some (.str s) := by
          by_cases hk : step.1 = key
          · subst hk
            rw [get_substitute_self hget, if_neg fun haccepts' => hhere ⟨rfl, haccepts'⟩]
          · rw [get_substitute_of_ne path m step hk, hget]
        refine ihpath s p hsame hp ⟨step', ?_, hkey, haccepts⟩
        refine (List.mem_cons.mp hstep').resolve_left ?_
        rintro rfl
        exact hhere ⟨hkey, haccepts⟩
    · intro hkept
      have hsame : Fields.get key (substitute path m step) = Fields.get key m := by
        by_cases hk : step.1 = key
        · subst hk
          by_cases hstr : ∃ s, Fields.get step.1 m = some (.str s)
          · obtain ⟨s, hget⟩ := hstr
            rw [get_substitute_self hget, hget]
            cases hp : path s with
            | none => rw [Option.getD_none, ite_self]
            | some p =>
              rw [if_neg]
              exact Bool.eq_false_iff.mp (hkept s p hget hp step List.mem_cons_self rfl)
          · exact get_substitute_other fun s hget => hstr ⟨s, hget⟩
        · exact get_substitute_of_ne path m step hk
      refine (ihkept fun s p hget hp step' hstep' => ?_).trans hsame
      exact hkept s p (hsame ▸ hget) hp step' (List.mem_cons_of_mem _ hstep')

theorem pathOf_eq {id : String} :
    files.pathOf id =
      (files.fileOf id).map fun file => filePath files.root file.fileId file.safeName := by
  rw [pathOf, fileOf, Option.map_map]
  rfl

theorem pathOf_path (h : Attached files) {id path : String}
    (hpath : files.pathOf id = some path) : files.pathOf path = none := by
  rw [pathOf_eq] at hpath
  obtain ⟨file, -, rfl⟩ := Option.map_eq_some_iff.mp hpath
  rw [pathOf_eq, filePath_not_id h]
  rfl

def inputSteps (files : JobFiles) : List (String × (String → Bool)) :=
  files.fields.map fun field => (field.1, fun s => s = field.2)

def preparedSteps (schema : List InputField) : List (String × (String → Bool)) :=
  (schema.filter (·.fieldType = "file")).map fun field => (field.name, fun _ => true)

theorem templateInput_eq (files : JobFiles) (m : Fields) :
    files.templateInput (.obj m) = .obj (files.inputSteps.foldl (substitute files.pathOf) m) := by
  rw [templateInput, inputSteps, List.foldl_map]
  congr 2
  funext out field
  unfold substitute
  cases (Fields.get field.1 out).bind Json.asStr with
  | none => rfl
  | some s =>
    by_cases hs : s = field.2
    · subst hs
      rewrite [if_pos rfl]
      exact (if_pos (decide_eq_true rfl)).symm
    · simp [hs]

theorem templatePrepared_eq (files : JobFiles) (m : Fields) (schema : List InputField) :
    files.templatePrepared (.obj m) schema =
      .obj ((preparedSteps schema).foldl (substitute files.pathOf) m) := by
  rw [templatePrepared, preparedSteps, List.foldl_map, List.foldl_filter]
  congr 2
  funext out field
  unfold substitute
  by_cases htype : field.fieldType = "file"
  · rw [if_neg (not_not.mpr htype), if_pos (decide_eq_true htype)]
    cases (Fields.get field.name out).bind Json.asStr with
    | none => rfl
    | some s => rfl
  · rw [if_pos htype, if_neg (by simpa using htype)]

/-- In `out` every listed field that held the id of an attached file holds a path that resolves to
that file, and every other field is as it was in `m`. -/
def PathsForIds (files : JobFiles) (listed : String → String → Prop) (m out : Fields) : Prop :=
  ∀ key,
    (∀ id file, listed key id → Fields.get key m = some (.str id) → files.fileOf id = some file →
      ∃ path, Fields.get key out = some (.str path) ∧ files.resolveTarget path = some file) ∧
    ((∀ id, listed key id → files.fileOf id ≠ none → Fields.get key m ≠ some (.str id)) →
      Fields.get key out = Fields.get key m)

theorem pathsForIds_foldl (h : Attached files)
    (steps : List (String × (String → Bool))) (m : Fields) :
    PathsForIds files (fun key id => ∃ step ∈ steps, step.1 = key ∧ step.2 id = true) m
      (steps.foldl (substitute files.pathOf) m) := by
  have hpath : ∀ s p, files.pathOf s = some p → files.pathOf p = none := fun s p => pathOf_path h
  intro key
  obtain ⟨hput, hkept⟩ := get_foldl_substitute hpath steps m key
  constructor
  · intro id file hlisted hget hfile
    have hp : files.pathOf id = some (filePath files.root file.fileId file.safeName) := by
      rw [pathOf_eq, hfile]
      rfl
    exact ⟨_, hput id _ hget hp hlisted, resolveTarget_path h hfile⟩
  · intro hnone
    refine hkept fun id p hget hp step hstep hkey => ?_
    refine Bool.eq_false_iff.mpr fun haccepts => ?_
    refine hnone id ⟨step, hstep, hkey, haccepts⟩ (fun hfile => ?_) hget
    rw [pathOf_eq, hfile] at hp
    cases hp

theorem PathsForIds.congr {listed listed' : String → String → Prop}
    {m out : Fields} (h : PathsForIds files listed m out)
    (hlisted : ∀ key id, listed key id ↔ listed' key id) : PathsForIds files listed' m out := by
  intro key
  obtain ⟨hput, hkept⟩ := h key
  simp only [hlisted] at hput hkept
  exact ⟨hput, hkept⟩

/-- References to files survive rebasing and templating, under every root. -/
theorem references_survive (root : String) {attachments : List (String × FileRef)}
    (hids : ∀ a ∈ attachments, isFileId a.2.fileId = true) :
    (∃ rebased : String → String,
      (∀ v, (new root attachments).rebaseCanonical v = mapStrings rebased v) ∧
      (∀ id file, (new root attachments).fileOf id = some file →
        (new root attachments).resolveTarget
          (rebased (filePath canonicalInputsRoot file.fileId file.safeName)) = some file) ∧
      (∀ s, (∀ id file, (new root attachments).fileOf id = some file →
        s ≠ filePath canonicalInputsRoot file.fileId file.safeName) → rebased s = s) ∧
      ∀ id id' file file', (new root attachments).fileOf id = some file →
        (new root attachments).fileOf id' = some file' → file ≠ file' →
        rebased (filePath canonicalInputsRoot file.fileId file.safeName) ≠
          rebased (filePath canonicalInputsRoot file'.fileId file'.safeName)) ∧
    (∀ m, ∃ out, (new root attachments).templateInput (.obj m) = .obj out ∧
      PathsForIds (new root attachments)
        (fun key id => (key, id) ∈ (new root attachments).fields) m out) ∧
    ∀ m schema, ∃ out, (new root attachments).templatePrepared (.obj m) schema = .obj out ∧
      PathsForIds (new root attachments)
        (fun key _ => ∃ field ∈ schema, field.fieldType = "file" ∧ field.name = key) m out := by
  have h := attached_new root hids
  have hcanonical : ∀ id file, (new root attachments).fileOf id = some file →
      rebaseString (new root attachments) (filePath canonicalInputsRoot file.fileId file.safeName) =
        filePath (new root attachments).root file.fileId file.safeName := by
    intro id file hfile
    have hat : (new root attachments).canonicalFile
        (filePath canonicalInputsRoot file.fileId file.safeName) = some file :=
      (canonicalFile_eq_some_iff h).mpr ⟨by rw [(h.keyed id file hfile).1]; exact hfile, rfl⟩
    rw [rebaseString, hat]
  refine ⟨⟨rebaseString (new root attachments), rebaseCanonical_eq h, ?_, ?_, ?_⟩, ?_, ?_⟩
  · intro id file hfile
    rw [hcanonical id file hfile]
    exact resolveTarget_path h hfile
  · intro s hs
    unfold rebaseString
    cases hfile : (new root attachments).canonicalFile s with
    | none => rfl
    | some file =>
      obtain ⟨hat, heq⟩ := (canonicalFile_eq_some_iff h).mp hfile
      exact absurd heq (hs _ file hat)
  · intro id id' file file' hfile hfile' hne heq
    rw [hcanonical id file hfile, hcanonical id' file' hfile'] at heq
    exact hne (filePath_inj h hfile hfile' heq)
  · intro m
    refine ⟨_, templateInput_eq _ m, (pathsForIds_foldl h _ m).congr fun key id => ?_⟩
    simp only [inputSteps, List.mem_map]
    constructor
    · rintro ⟨step, ⟨field, hfield, rfl⟩, rfl, haccepts⟩
      rw [of_decide_eq_true haccepts]
      exact hfield
    · intro hfield
      exact ⟨_, ⟨(key, id), hfield, rfl⟩, rfl, decide_eq_true rfl⟩
  · intro m schema
    refine ⟨_, templatePrepared_eq _ m schema, (pathsForIds_foldl h _ m).congr fun key id => ?_⟩
    simp only [preparedSteps, List.mem_map, List.mem_filter, decide_eq_true_eq]
    constructor
    · rintro ⟨step, ⟨field, ⟨hfield, htype⟩, rfl⟩, rfl, -⟩
      exact ⟨field, hfield, htype, rfl⟩
    · rintro ⟨field, hfield, htype, rfl⟩
      exact ⟨_, ⟨field, ⟨hfield, htype⟩, rfl⟩, rfl, rfl⟩

def reportFile : FileRef := ⟨"file_0123456789abcdef0123456789abcdef", "r.csv"⟩

def workerFiles : JobFiles :=
  new "/work/inputs"
    [("a", reportFile), ("b", ⟨"file_ffffffffffffffffffffffffffffffff", "_inputs"⟩)]

theorem references_survive_worker :
    ∃ target out path,
      workerFiles.rebaseCanonical
          (.arr [.str "/inputs/file_0123456789abcdef0123456789abcdef/r.csv"]) =
        .arr [.str target] ∧
      workerFiles.resolveTarget target = some reportFile ∧
      workerFiles.templateInput (.obj [("a", .str reportFile.fileId)]) = .obj out ∧
      Fields.get "a" out = some (.str path) ∧
      workerFiles.resolveTarget path = some reportFile := by
  have hids : ∀ a ∈ [("a", reportFile),
    ("b", ⟨"file_ffffffffffffffffffffffffffffffff", "_inputs"⟩)],
      isFileId a.2.fileId = true := by decide
  have hfile : workerFiles.fileOf reportFile.fileId = some reportFile := by decide +kernel
  have hlisted : ("a", reportFile.fileId) ∈ workerFiles.fields := by decide +kernel
  obtain ⟨⟨rebased, hrebased, hresolved, -⟩, hinput, -⟩ := references_survive "/work/inputs" hids
  obtain ⟨out, hout, hpaths⟩ := hinput [("a", .str reportFile.fileId)]
  obtain ⟨path, hget, hpath⟩ := (hpaths "a").1 reportFile.fileId reportFile hlisted rfl hfile
  exact ⟨_, out, path, hrebased _, hresolved _ _ hfile, hout, hget, hpath⟩

end JobFiles

end Stroem
