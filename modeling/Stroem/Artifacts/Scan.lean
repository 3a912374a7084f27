import Stroem.Artifacts.Keys

/-!
# Scanned artifacts

After a step the worker walks its output directory and names every regular file by its path, with
backslashes turned into slashes.  The server checks the name again and stores the file in two files
of the blob archive, so two files of one directory can meet in the archive.
-/

namespace Stroem.Artifacts

open Stroem.BlobArchive (Name Above sidecar components ctPathFor validateKey)
open Stroem.BlobArchive (components_prefix_iff ctPathFor_components above_sidecar_iff sidecar_inj)

/-! ## The directory -/

def FileName (name : Name) : Prop :=
  name ≠ [] ∧ '/' ∉ name ∧ '\x00' ∉ name ∧ name ≠ ['.'] ∧ name ≠ ['.', '.']

instance (name : Name) : Decidable (FileName name) :=
  inferInstanceAs (Decidable (_ ∧ _ ∧ _ ∧ _ ∧ _))

inductive FileKind
  | dir
  | symlink
  | file (size : Except String Nat)
  | other

inductive WalkItem
  | entry (path : List Name) (kind : FileKind)
  | failed (path : Option String) (error : String)

def entryPath : WalkItem → Option (List Name)
  | .entry path _ => some path
  | .failed _ _ => none

def filePath : WalkItem → Option (List Name)
  | .entry path (.file _) => some path
  | .entry _ .dir | .entry _ .symlink | .entry _ .other | .failed _ _ => none

structure Walk where
  items : List WalkItem
  names : ∀ path ∈ items.filterMap entryPath, ∀ name ∈ path, FileName name
  once : (items.filterMap entryPath).Nodup
  leaf : ∀ path ∈ items.filterMap filePath, ∀ lower ∈ items.filterMap entryPath,
    path <+: lower → path = lower

/-! ## `scan_artifacts` -/

def relName (path : List Name) : String := String.ofList (['/'].intercalate path)

def artifactName (path : List Name) : String :=
  String.ofList ((relName path).toList.map fun c => if c = '\\' then '/' else c)

def validSegment (segment : List Char) : Bool :=
  !(decide (segment = []) || decide (segment = ['.']) || decide (segment = ['.', '.']) ||
    decide (segment.head? = some '-')) &&
    segment.all fun c => !(decide (c = '\x00') || (isControl c && decide (c ≠ ' ')))

def validArtifactName (name : String) : Bool :=
  if name = "" ∨ 255 < name.utf8ByteSize ∨ name.toList.head? = some '-' ∨
      name.toList.head? = some '/' then false
  else (name.toList.splitOn '/').all validSegment

structure ScannedFile where
  name : String
  path : List Name
  sizeBytes : Nat
  deriving DecidableEq

structure ScanResult where
  files : List ScannedFile := []
  warnings : List String := []
  deriving DecidableEq

def ScanResult.warn (result : ScanResult) (warning : String) : ScanResult :=
  { result with warnings := result.warnings ++ [warning] }

def displayPath (root : String) (path : List Name) : String := root ++ "/" ++ relName path

def scanItem (root : String) (result : ScanResult) : WalkItem → Except String ScanResult
  | .failed path error =>
    .ok (result.warn ("walk error at " ++ path.getD "<unknown>" ++ ": " ++ error))
  | .entry _ .dir => .ok result
  | .entry path .symlink => .ok (result.warn ("symlink skipped: " ++ displayPath root path))
  | .entry path .other => .ok (result.warn ("non-regular file skipped: " ++ displayPath root path))
  | .entry path (.file size) =>
    if validArtifactName (artifactName path) then
      size.map fun sizeBytes =>
        { result with files := result.files ++ [⟨artifactName path, path, sizeBytes⟩] }
    else .ok (result.warn ("name rejected: " ++ artifactName path))

def scanItems (root : String) : ScanResult → List WalkItem → Except String ScanResult
  | result, [] => .ok result
  | result, item :: items =>
    match scanItem root result item with
    | .ok result => scanItems root result items
    | .error e => .error e

def scanArtifacts (root : String) : Option Walk → Except String ScanResult
  | none => .ok {}
  | some walk => scanItems root {} walk.items

/-! ## The scanned files -/

def acceptedPath : WalkItem → Option (List Name)
  | .entry path (.file _) => if validArtifactName (artifactName path) then some path else none
  | .entry _ .dir | .entry _ .symlink | .entry _ .other | .failed _ _ => none

def acceptedPaths : Option Walk → List (List Name)
  | none => []
  | some walk => walk.items.filterMap acceptedPath

def Named (f : ScannedFile) : Prop :=
  f.name = artifactName f.path ∧ validArtifactName f.name = true

theorem scanItem_files {root : String} {result result' : ScanResult} {item : WalkItem}
    (hresult : ∀ f ∈ result.files, Named f) (h : scanItem root result item = .ok result') :
    result'.files.map (·.path) = result.files.map (·.path) ++ (acceptedPath item).toList ∧
      ∀ f ∈ result'.files, Named f := by
  cases item with
  | failed path error =>
    cases h
    exact ⟨(List.append_nil _).symm, hresult⟩
  | entry path kind =>
    cases kind with
    | dir | symlink | other =>
      cases h
      exact ⟨(List.append_nil _).symm, hresult⟩
    | file size =>
      unfold scanItem at h
      unfold acceptedPath
      dsimp only at h ⊢
      by_cases hvalid : validArtifactName (artifactName path) = true
      · rw [if_pos hvalid] at h ⊢
        cases size with
        | error e => cases h
        | ok sizeBytes =>
          cases h
          refine ⟨by simp, ?_⟩
          intro f hf
          obtain hf | hf := List.mem_append.mp hf
          · exact hresult f hf
          · rw [List.mem_singleton.mp hf]
            exact ⟨rfl, hvalid⟩
      · rw [if_neg hvalid] at h ⊢
        cases h
        exact ⟨(List.append_nil _).symm, hresult⟩

theorem scanItems_files {root : String} {items : List WalkItem} {result result' : ScanResult}
    (hresult : ∀ f ∈ result.files, Named f) (h : scanItems root result items = .ok result') :
    result'.files.map (·.path) = result.files.map (·.path) ++ items.filterMap acceptedPath ∧
      ∀ f ∈ result'.files, Named f := by
  induction items generalizing result with
  | nil =>
    cases h
    exact ⟨(List.append_nil _).symm, hresult⟩
  | cons item items ih =>
    unfold scanItems at h
    cases hitem : scanItem root result item with
    | error e =>
      rw [hitem] at h
      cases h
    | ok result₁ =>
      rw [hitem] at h
      obtain ⟨hpaths₁, hnamed₁⟩ := scanItem_files hresult hitem
      obtain ⟨hpaths, hnamed⟩ := ih hnamed₁ h
      refine ⟨?_, hnamed⟩
      rw [hpaths, hpaths₁, List.filterMap_cons]
      cases acceptedPath item with
      | none => simp
      | some path => simp

theorem scanArtifacts_files {root : String} {walk : Option Walk} {result : ScanResult}
    (h : scanArtifacts root walk = .ok result) :
    result.files.map (·.path) = acceptedPaths walk ∧ ∀ f ∈ result.files, Named f := by
  cases walk with
  | none =>
    cases h
    exact ⟨rfl, fun f hf => absurd hf List.not_mem_nil⟩
  | some walk => exact scanItems_files (fun f hf => absurd hf List.not_mem_nil) h

theorem acceptedPaths_nodup (walk : Option Walk) : (acceptedPaths walk).Nodup := by
  cases walk with
  | none => exact List.nodup_nil
  | some walk =>
    have hsub : (walk.items.filterMap acceptedPath).Sublist
        (walk.items.filterMap entryPath) := by
      induction walk.items with
      | nil => exact List.Sublist.slnil
      | cons item items ih =>
        rw [List.filterMap_cons, List.filterMap_cons]
        cases item with
        | failed path error => exact ih
        | entry path kind =>
          cases kind with
          | dir => exact ih.cons path
          | symlink => exact ih.cons path
          | other => exact ih.cons path
          | file size =>
            unfold acceptedPath
            dsimp only
            split_ifs
            · exact ih.cons_cons path
            · exact ih.cons path
    exact walk.once.sublist hsub

/-! ## The server's checks -/

theorem backslash_not_mem_artifactName (path : List Name) :
    '\\' ∉ (artifactName path).toList := by
  unfold artifactName
  rw [String.toList_ofList, List.mem_map]
  rintro ⟨c, -, hc⟩
  split at hc
  · cases hc
  · contradiction

theorem validateNameSegments_ok {segments : List (List Char)}
    (h : ∀ segment ∈ segments, validSegment segment = true ∧ '\\' ∉ segment) :
    validateNameSegments segments = .ok () := by
  induction segments with
  | nil => rfl
  | cons segment segments ih =>
    obtain ⟨hvalid, hback⟩ := h segment List.mem_cons_self
    simp only [validSegment, Bool.and_eq_true, Bool.not_eq_true', Bool.or_eq_false_iff,
      decide_eq_false_iff_not, List.all_eq_true] at hvalid
    obtain ⟨⟨⟨⟨hnil, hdot⟩, hdots⟩, hdash⟩, hchars⟩ := hvalid
    have hany : ¬ (segment.any fun c =>
        c = '\x00' || c = '\\' || (isControl c && c ≠ ' ')) = true := by
      intro hany
      obtain ⟨c, hc, hbad⟩ := List.any_eq_true.mp hany
      have hgood := hchars c hc
      have hne : c ≠ '\\' := fun heq => hback (heq ▸ hc)
      simp only [hne, hgood.1, hgood.2, decide_false, Bool.or_false] at hbad
      cases hbad
    rw [validateNameSegments, if_neg (by simp [hnil, hdot, hdots]), if_neg hdash, if_neg hany]
    exact ih fun s hs => h s (List.mem_cons_of_mem _ hs)

theorem mem_intercalate_of_mem {sep segment : List Char} {segments : List (List Char)}
    (hsegment : segment ∈ segments) {c : Char} (hc : c ∈ segment) :
    c ∈ sep.intercalate segments := by
  induction segments with
  | nil => exact absurd hsegment List.not_mem_nil
  | cons first segments ih =>
    cases segments with
    | nil =>
      rw [List.mem_singleton.mp hsegment] at hc
      rwa [List.intercalate_singleton]
    | cons second segments =>
      rw [List.intercalate_cons_of_ne_nil (List.cons_ne_nil _ _)]
      obtain rfl | hmem := List.mem_cons.mp hsegment
      · exact List.mem_append_left _ (List.mem_append_left _ hc)
      · exact List.mem_append_right _ (ih hmem)

theorem not_mem_of_mem_splitOn_slash {c : Char} {text segment : List Char} (h : c ∉ text)
    (hsegment : segment ∈ text.splitOn '/') : c ∉ segment := by
  intro hc
  have hmem : c ∈ ['/'].intercalate (text.splitOn '/') := mem_intercalate_of_mem hsegment hc
  rw [List.intercalate_splitOn] at hmem
  exact h hmem

theorem validateArtifactName_ok {name : String} (h : validArtifactName name = true)
    (hback : '\\' ∉ name.toList) : validateArtifactName name = .ok () := by
  unfold validArtifactName at h
  split at h
  · cases h
  · rename_i hfront
    simp only [not_or] at hfront
    obtain ⟨hempty, hlong, hdash, hslash⟩ := hfront
    rw [validateArtifactName, if_neg hempty, if_neg hlong, if_neg hslash, if_neg hdash]
    refine validateNameSegments_ok fun segment hsegment => ?_
    exact ⟨List.all_eq_true.mp h segment hsegment, not_mem_of_mem_splitOn_slash hback hsegment⟩

/-! ## Keys -/

def keyPart (part : Name) : Bool :=
  !(part.isEmpty || part = ['.'] || part = ['.', '.'] || part.contains '\x00')

theorem validateKey_eq_ok {key : String} :
    validateKey key = .ok () ↔ ∀ part ∈ components key, keyPart part = true := by
  unfold validateKey
  have hfront : (key.toList.isEmpty || key.toList.head? = some '/') = true →
      ∃ part ∈ components key, keyPart part = false := by
    intro h
    refine ⟨[], ?_, rfl⟩
    unfold components
    cases htext : key.toList with
    | nil => exact List.mem_singleton_self _
    | cons c text =>
      rw [htext] at h
      simp only [List.isEmpty_cons, List.head?_cons, Option.some.injEq, Bool.false_or,
        decide_eq_true_eq] at h
      have hsplit : ('/' :: text).splitOn '/' = [] :: text.splitOn '/' :=
        List.splitOn_append_cons_self [] text
      rw [h, hsplit]
      exact List.mem_cons_self
  split
  · rename_i h
    obtain ⟨part, hpart, hbad⟩ := hfront h
    constructor
    · exact fun hok => by cases hok
    · intro hall
      rw [hall part hpart] at hbad
      cases hbad
  · split
    · rename_i hany
      obtain ⟨part, hpart, hbad⟩ := List.any_eq_true.mp hany
      constructor
      · exact fun hok => by cases hok
      · intro hall
        have hgood := hall part hpart
        rw [keyPart, hbad] at hgood
        cases hgood
    · rename_i hany
      refine ⟨fun _ part hpart => ?_, fun _ => rfl⟩
      rw [keyPart, Bool.not_eq_true']
      exact Bool.eq_false_iff.mpr fun hbad => hany (List.any_eq_true.mpr ⟨part, hpart, hbad⟩)

theorem components_append_slash (front back : String) :
    components (front ++ "/" ++ back) = components front ++ components back := by
  unfold components
  rw [String.toList_append, String.toList_append, List.append_assoc]
  exact List.splitOn_append_cons_self ..

def keyFront (cfg : Config) (job : Job) : String :=
  cfg.keyPrefix ++ job.workspace ++ "/" ++ toString job.jobId

theorem components_artifactStorageKey (cfg : Config) (job : Job) (step name : String) :
    components (artifactStorageKey cfg job step name) =
      components (keyFront cfg job) ++ components step ++ components name := by
  have hkey : artifactStorageKey cfg job step name =
      keyFront cfg job ++ "/" ++ step ++ "/" ++ name := by
    simp only [artifactStorageKey, stepPrefix, keyFront, String.append_assoc]
  rw [hkey, components_append_slash, components_append_slash]

theorem keyPart_of_validatePathSegment {step field : String}
    (h : validatePathSegment step field = .ok ()) :
    ∀ part ∈ components step, keyPart part = true := by
  have hslash : NoSlash step := noSlash_of_validatePathSegment (by rw [h]; rfl)
  intro part hpart
  unfold components at hpart
  rw [List.splitOn_eq_singleton hslash, List.mem_singleton] at hpart
  subst hpart
  unfold validatePathSegment at h
  split_ifs at h with hempty hlong hdots htrim hchars
  have hnul : '\x00' ∉ step.toList := fun hmem =>
    hchars (List.any_eq_true.mpr ⟨'\x00', hmem, by decide⟩)
  have hnil : step.toList ≠ [] := fun heq => hempty (String.toList_eq_nil_iff.mp heq)
  have hdot : step.toList ≠ ['.'] := fun heq =>
    hdots (.inl (String.toList_injective (heq : step.toList = ".".toList)))
  have hdotdot : step.toList ≠ ['.', '.'] := fun heq =>
    hdots (.inr (String.toList_injective (heq : step.toList = "..".toList)))
  simp [keyPart, hnil, hdot, hdotdot, hnul]

theorem keyPart_of_validateNameSegments {segments : List Name}
    (h : validateNameSegments segments = .ok ()) : ∀ part ∈ segments, keyPart part = true := by
  induction segments with
  | nil => exact fun part hpart => absurd hpart List.not_mem_nil
  | cons segment segments ih =>
    unfold validateNameSegments at h
    split_ifs at h with hdots hdash hchars
    intro part hpart
    obtain rfl | hpart := List.mem_cons.mp hpart
    · have hnul : '\x00' ∉ part := fun hmem =>
        hchars (List.any_eq_true.mpr ⟨'\x00', hmem, by decide⟩)
      simp only [not_or] at hdots
      simp [keyPart, hdots, hnul]
    · exact ih h part hpart

theorem keyPart_of_validateArtifactName {name : String} (h : validateArtifactName name = .ok ()) :
    ∀ part ∈ components name, keyPart part = true := by
  unfold validateArtifactName at h
  split_ifs at h
  exact keyPart_of_validateNameSegments h

theorem validateKey_artifactStorageKey {cfg : Config} {job : Job} {step field name : String}
    (hfront : validateKey (keyFront cfg job) = .ok ())
    (hstep : validatePathSegment step field = .ok ())
    (hname : validateArtifactName name = .ok ()) :
    validateKey (artifactStorageKey cfg job step name) = .ok () := by
  rw [validateKey_eq_ok] at hfront ⊢
  rw [components_artifactStorageKey]
  intro part hpart
  obtain hpart | hpart := List.mem_append.mp hpart
  · obtain hpart | hpart := List.mem_append.mp hpart
    · exact hfront part hpart
    · exact keyPart_of_validatePathSegment hstep part hpart
  · exact keyPart_of_validateArtifactName hname part hpart

/-! ## Files in the archive -/

def Covers (upper lower : String) : Prop :=
  lower = upper ∨ Above upper lower ∨ lower = sidecar upper ∨ Above (sidecar upper) lower

instance (upper lower : String) : Decidable (Covers upper lower) :=
  inferInstanceAs (Decidable (_ ∨ _ ∨ _ ∨ _))

def archiveFiles (key : String) : List (List Name) := [components key, ctPathFor (components key)]

theorem archiveFiles_prefix_iff {upper lower : String} :
    (∃ p ∈ archiveFiles upper, ∃ q ∈ archiveFiles lower, p <+: q) ↔
      Covers upper lower ∨ upper = sidecar lower := by
  simp only [archiveFiles, ctPathFor_components, List.mem_cons, List.not_mem_nil, or_false,
    exists_eq_or_imp, exists_eq_left, components_prefix_iff, above_sidecar_iff, sidecar_inj, Covers]
  constructor
  · rintro (((rfl | h) | (h | h)) | ((rfl | h) | (rfl | h)))
    · exact .inl (.inl rfl)
    · exact .inl (.inr (.inl h))
    · exact .inr h
    · exact .inl (.inr (.inl h))
    · exact .inl (.inr (.inr (.inl rfl)))
    · exact .inl (.inr (.inr (.inr h)))
    · exact .inl (.inl rfl)
    · exact .inl (.inr (.inr (.inr h)))
  · rintro ((rfl | h | rfl | h) | h)
    · exact .inl (.inl (.inl rfl))
    · exact .inl (.inl (.inr h))
    · exact .inr (.inl (.inl rfl))
    · exact .inr (.inl (.inr h))
    · exact .inl (.inr (.inl h))

theorem covers_artifactStorageKey {cfg : Config} {job : Job} {step upper lower : String} :
    Covers (artifactStorageKey cfg job step upper) (artifactStorageKey cfg job step lower) ↔
      Covers upper lower := by
  have hside : sidecar (artifactStorageKey cfg job step upper) =
      artifactStorageKey cfg job step (sidecar upper) := by
    simp only [artifactStorageKey, sidecar, String.append_assoc]
  have heq : ∀ name name', artifactStorageKey cfg job step name =
      artifactStorageKey cfg job step name' ↔ name = name' := by
    intro name name'
    simp [artifactStorageKey]
  have habove : ∀ name name', Above (artifactStorageKey cfg job step name)
      (artifactStorageKey cfg job step name') ↔ Above name name' := by
    intro name name'
    simp only [Above, artifactStorageKey, String.toList_append, List.append_assoc]
    exact List.prefix_append_right_inj _
  simp only [Covers, hside, heq, habove]

structure Fits (files : List ScannedFile) : Prop where
  distinct : (files.map (·.name)).Nodup
  accepted : ∀ f ∈ files, validateArtifactName f.name = .ok ()
  keys : ∀ f ∈ files, ∀ cfg job step field, validateKey (keyFront cfg job) = .ok () →
    validatePathSegment step field = .ok () →
      validateKey (artifactStorageKey cfg job step f.name) = .ok ()
  apart : ∀ f ∈ files, ∀ g ∈ files, f.path ≠ g.path → ∀ cfg job step,
    ∀ p ∈ archiveFiles (artifactStorageKey cfg job step f.name),
      ∀ q ∈ archiveFiles (artifactStorageKey cfg job step g.name), ¬ p <+: q

theorem fits_iff {files : List ScannedFile} (hpaths : (files.map (·.path)).Nodup)
    (hnamed : ∀ f ∈ files, validateArtifactName f.name = .ok ()) :
    Fits files ↔ ∀ f ∈ files, ∀ g ∈ files, f.path ≠ g.path → ¬ Covers f.name g.name := by
  constructor
  · intro h f hf g hg hne hcovers
    have hkeys : Covers (artifactStorageKey ⟨"", 0, 0, false⟩ ⟨"", 0⟩ "" f.name)
        (artifactStorageKey ⟨"", 0, 0, false⟩ ⟨"", 0⟩ "" g.name) :=
      covers_artifactStorageKey.mpr hcovers
    obtain ⟨p, hp, q, hq, hpq⟩ := archiveFiles_prefix_iff.mpr (.inl hkeys)
    exact h.apart f hf g hg hne _ _ _ p hp q hq hpq
  · intro h
    refine ⟨?_, hnamed, ?_, ?_⟩
    · refine List.Nodup.map_on ?_ (List.Nodup.of_map _ hpaths)
      intro f hf g hg hname
      by_contra hne
      have hpath : f.path ≠ g.path := fun heq =>
        hne (List.inj_on_of_nodup_map hpaths hf hg heq)
      exact h f hf g hg hpath (.inl hname.symm)
    · intro f hf cfg job step field hfront hstep
      exact validateKey_artifactStorageKey hfront hstep (hnamed f hf)
    · intro f hf g hg hne cfg job step p hp q hq hpq
      have hmeet := archiveFiles_prefix_iff.mp ⟨p, hp, q, hq, hpq⟩
      obtain hcovers | hside := hmeet
      · exact h f hf g hg hne (covers_artifactStorageKey.mp hcovers)
      · have hcovers : Covers (artifactStorageKey cfg job step g.name)
            (artifactStorageKey cfg job step f.name) := .inr (.inr (.inl hside))
        exact h g hg f hf hne.symm (covers_artifactStorageKey.mp hcovers)

/-- What is scanned fits the server exactly when no two files meet once their backslashes are
slashes. -/
theorem scanArtifacts_fits {root : String} {walk : Option Walk} {result : ScanResult}
    (h : scanArtifacts root walk = .ok result) :
    Fits result.files ↔ ∀ p ∈ acceptedPaths walk, ∀ q ∈ acceptedPaths walk, p ≠ q →
      ¬ Covers (artifactName p) (artifactName q) := by
  obtain ⟨hpaths, hnamed⟩ := scanArtifacts_files h
  have hnodup : (result.files.map (·.path)).Nodup := hpaths ▸ acceptedPaths_nodup walk
  have haccepted : ∀ f ∈ result.files, validateArtifactName f.name = .ok () := by
    intro f hf
    obtain ⟨hname, hvalid⟩ := hnamed f hf
    exact validateArtifactName_ok hvalid (hname ▸ backslash_not_mem_artifactName f.path)
  rw [fits_iff hnodup haccepted, ← hpaths]
  constructor
  · intro hcovers p hp q hq hne
    obtain ⟨f, hf, rfl⟩ := List.mem_map.mp hp
    obtain ⟨g, hg, rfl⟩ := List.mem_map.mp hq
    rw [← (hnamed f hf).1, ← (hnamed g hg).1]
    exact hcovers f hf g hg hne
  · intro hcovers f hf g hg hne
    rw [(hnamed f hf).1, (hnamed g hg).1]
    exact hcovers _ (List.mem_map_of_mem hf) _ (List.mem_map_of_mem hg) hne

def reportWalk (first second : Name) : List WalkItem :=
  [.entry [] .dir, .entry ["report".toList] .dir,
    .entry ["report".toList, first] (.file (.ok 7)), .entry [second] (.file (.ok 9))]

def plainWalk : Walk where
  items := reportWalk "2023".toList "report\\2024".toList
  names := by decide
  once := by decide
  leaf := by decide

theorem scanArtifacts_fits_plain :
    ∃ result, scanArtifacts "/artifacts" (some plainWalk) = .ok result ∧ Fits result.files := by
  have hscan : scanArtifacts "/artifacts" (some plainWalk) =
      .ok ⟨[⟨"report/2023", ["report".toList, "2023".toList], 7⟩,
        ⟨"report/2024", ["report\\2024".toList], 9⟩], []⟩ := by
    decide +kernel
  exact ⟨_, hscan, (scanArtifacts_fits hscan).mpr (by decide +kernel)⟩

def clashWalk : Walk where
  items := reportWalk "2024".toList "report\\2024".toList
  names := by decide
  once := by decide
  leaf := by decide

theorem backslash_name_clash :
    ∃ result, scanArtifacts "/artifacts" (some clashWalk) = .ok result ∧
      result.files.map (·.name) = ["report/2024", "report/2024"] ∧
      result.warnings = [] ∧ ¬ Fits result.files := by
  refine ⟨⟨[⟨"report/2024", ["report".toList, "2024".toList], 7⟩,
    ⟨"report/2024", ["report\\2024".toList], 9⟩], []⟩, ?_, rfl, rfl, ?_⟩
  · decide +kernel
  · intro h
    have hdistinct := h.distinct
    revert hdistinct
    decide

end Stroem.Artifacts
