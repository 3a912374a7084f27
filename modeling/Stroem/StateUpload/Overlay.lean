import Stroem.StateUpload.Snapshot

/-!
# Merging is an overlay

A merged snapshot has the files of the upload over those of the prior snapshot, and the values of
the query string over the prior state.  A prior `state.json` that is no object, or an empty one, is
removed where the query string adds nothing to it.
-/

namespace Stroem.StateUpload

open Stroem.Foundation

def objectOf (json : SerdeJson) (file : Option Bytes) : Option Fields :=
  match file.bind json.fromSlice with
  | some (.obj fields) => some fields
  | _ => none

def SameMeaning (json : SerdeJson) (data data' : Bytes) : Prop :=
  data' = data ∨ ∃ value, json.fromSlice data = some value ∧ json.fromSlice data' = some value

structure Overlaid (codec : Codec) (json : SerdeJson) (prior : Option Bytes) (uploaded : Bytes)
    (params : Dict String String) (bytes : Bytes) : Prop where
  files : ∀ path ≠ stateJson, (snapshotFiles codec bytes).lookup path =
    ((snapshotFiles codec uploaded).lookup path).or ((priorFiles codec prior).lookup path)
  state : (objectOf json ((priorFiles codec prior).lookup stateJson) ≠ none ∨
      ∃ key, paramAt params key ≠ none) →
    ∃ fields, objectOf json ((snapshotFiles codec bytes).lookup stateJson) = some fields ∧
      ∀ key, Fields.get key fields = ((paramAt params key).map Json.str).or
        (Fields.get key ((objectOf json ((priorFiles codec prior).lookup stateJson)).getD []))
  kept : (∀ key, paramAt params key = none) →
    (∀ path, (snapshotFiles codec uploaded).lookup path = none) →
      ∀ path data, (priorFiles codec prior).lookup path = some data →
        ∃ data', (snapshotFiles codec bytes).lookup path = some data' ∧
          SameMeaning json data data'

def StateSurvives (codec : Codec) (json : SerdeJson) (prior : Option Bytes) (uploaded : Bytes)
    (params : Dict String String) : Prop :=
  (∃ key, paramAt params key ≠ none) ∨
    match (priorFiles codec prior).lookup stateJson with
    | none => True
    | some data =>
      match json.fromSlice data with
      | some (.obj fields) => fields ≠ []
      | _ => ∃ path, (snapshotFiles codec uploaded).lookup path ≠ none

variable {codec : Codec} {json : SerdeJson} {prior : Option Bytes} {uploaded bytes : Bytes}
  {params : Dict String String} {hasJson : Bool}

theorem parsedState_eq_objectOf (file : Option Bytes) :
    (file.map (parsedState json)).getD [] = (objectOf json file).getD [] := by
  cases file with
  | none => rfl
  | some data =>
    simp only [Option.map_some, Option.getD_some, parsedState, objectOf, Option.bind_some]
    cases json.fromSlice data with
    | none => rfl
    | some value => cases value <;> rfl

theorem get_overlaidState (key : String) :
    Fields.get key (overlaidState codec json prior params) =
      ((paramAt params key).map Json.str).or
        (Fields.get key ((objectOf json ((priorFiles codec prior).lookup stateJson)).getD [])) := by
  rw [overlaidState, get_mergedState, parsedState_eq_objectOf]

theorem overlaidState_eq_nil :
    overlaidState codec json prior params = [] ↔ (∀ key, paramAt params key = none) ∧
      (objectOf json ((priorFiles codec prior).lookup stateJson)).getD [] = [] := by
  rw [Fields.eq_nil_iff, Fields.eq_nil_iff, ← forall_and]
  refine forall_congr' fun key => ?_
  rw [get_overlaidState, Option.or_eq_none_iff, Option.map_eq_none_iff]

theorem objectOf_of_stateFile {state : Fields} {file : Option Bytes}
    (h : StateFile json state file) (hne : state ≠ []) : objectOf json file = some state := by
  obtain ⟨data, rfl, hparse⟩ := h.2 hne
  simp only [objectOf, Option.bind_some, hparse]

theorem overlaidState_of_no_params (hparams : ∀ key, paramAt params key = none) :
    overlaidState codec json prior params =
      (objectOf json ((priorFiles codec prior).lookup stateJson)).getD [] := by
  have hentries : stateEntries params = [] := by
    refine List.eq_nil_iff_forall_not_mem.mpr fun e he => ?_
    rw [mem_stateEntries, hparams, Option.map_none] at he
    cases he
  rw [overlaidState, mergedState_eq, hentries, parsedState_eq_objectOf]
  rfl

theorem stateSurvives_of_overlaid
    (hfile : StateFile json (overlaidState codec json prior params)
      ((snapshotFiles codec bytes).lookup stateJson))
    (h : Overlaid codec json prior uploaded params bytes) :
    StateSurvives codec json prior uploaded params := by
  by_cases hparams : ∃ key, paramAt params key ≠ none
  · exact .inl hparams
  · have hnone : ∀ key, paramAt params key = none := by
      simpa only [not_exists, not_not] using hparams
    have hstate : overlaidState codec json prior params =
        (objectOf json ((priorFiles codec prior).lookup stateJson)).getD [] :=
      overlaidState_of_no_params hnone
    refine .inr ?_
    cases hroot : (priorFiles codec prior).lookup stateJson with
    | none => trivial
    | some data =>
      rw [hroot] at hstate
      dsimp only
      split
      · next fields hparse =>
          rintro rfl
          have hobject : objectOf json (some data) = some [] := by
            simp only [objectOf, Option.bind_some, hparse]
          have habsent := hfile.1 (by rw [hstate, hobject, Option.getD_some])
          obtain ⟨fields, hfields, -⟩ := h.state (.inl (by
            rw [hroot, hobject]
            exact Option.some_ne_none _))
          rw [habsent] at hfields
          cases hfields
      · next hother =>
          have hobject : objectOf json (some data) = none := by
            simp only [objectOf, Option.bind_some]
          have habsent := hfile.1 (by rw [hstate, hobject, Option.getD_none])
          by_contra hempty
          have hupload : ∀ path, (snapshotFiles codec uploaded).lookup path = none := by
            simpa only [not_exists, not_not] using hempty
          obtain ⟨data', hdata', -⟩ := h.kept hnone hupload stateJson data hroot
          rw [habsent] at hdata'
          cases hdata'

theorem overlaidState_ne_nil (h : StateSurvives codec json prior uploaded params)
    (hwrite : objectOf json ((priorFiles codec prior).lookup stateJson) ≠ none ∨
      ∃ key, paramAt params key ≠ none) :
    overlaidState codec json prior params ≠ [] := by
  intro hnil
  obtain ⟨hnone, hobject⟩ := overlaidState_eq_nil.mp hnil
  have hparams : ¬ ∃ key, paramAt params key ≠ none := fun ⟨key, hkey⟩ => hkey (hnone key)
  have hsome := hwrite.resolve_right hparams
  have hsurvives := h.resolve_left hparams
  cases hroot : (priorFiles codec prior).lookup stateJson with
  | none => exact hsome (by rw [hroot]; rfl)
  | some data =>
    rw [hroot] at hsurvives hobject hsome
    dsimp only at hsurvives
    unfold objectOf at hobject hsome
    rw [Option.bind_some] at hobject hsome
    split at hsurvives
    · next fields hparse =>
        rw [hparse] at hobject
        exact hsurvives hobject
    · next hother =>
        split at hsome
        · next hparse => exact hother _ hparse
        · exact hsome rfl

/-- A merge overlays prior and upload exactly when no prior `state.json` is there to lose. -/
theorem buildSnapshot_overlaid
    (h : buildSnapshot codec json prior uploaded params = .ok (bytes, hasJson)) :
    Overlaid codec json prior uploaded params bytes ↔
      StateSurvives codec json prior uploaded params := by
  obtain ⟨files, hpack, -, hfile, hother, hpaths⟩ := buildSnapshot_ok h
  have hlookup := lookup_snapshotFiles_packTarball hpaths hpack
  rw [← hlookup stateJson] at hfile
  refine ⟨stateSurvives_of_overlaid hfile, fun hsurvives => ⟨?_, ?_, ?_⟩⟩
  · intro path hpath
    rw [hlookup, hother path hpath, overlaid]
  · intro hwrite
    exact ⟨_, objectOf_of_stateFile hfile (overlaidState_ne_nil hsurvives hwrite),
      get_overlaidState⟩
  · intro hparams hupload path data hdata
    by_cases hpath : path = stateJson
    · subst hpath
      have hlost := hsurvives.resolve_left (by
        rintro ⟨key, hkey⟩
        exact hkey (hparams key))
      rw [hdata] at hlost
      dsimp only at hlost
      split at hlost
      · next fields hparse =>
          have hstate : overlaidState codec json prior params = fields := by
            rw [overlaidState_of_no_params hparams, hdata]
            simp only [objectOf, Option.bind_some, hparse, Option.getD_some]
          rw [hstate] at hfile
          obtain ⟨data', hdata', hparse'⟩ := hfile.2 hlost
          exact ⟨data', hdata', .inr ⟨_, hparse, hparse'⟩⟩
      · obtain ⟨path, hpath⟩ := hlost
        exact absurd (hupload path) hpath
    · refine ⟨data, ?_, .inl rfl⟩
      rw [hlookup, hother path hpath, overlaid, hupload path, Option.none_or, hdata]

theorem buildSnapshot_overlaid_merge :
    ∃ bytes hasJson, buildSnapshot sampleCodec sampleJson (some [31, 139, 1]) [31, 139, 2]
        (AList.singleton "region" "eu") = .ok (bytes, hasJson) ∧
      Overlaid sampleCodec sampleJson (some [31, 139, 1]) [31, 139, 2]
        (AList.singleton "region" "eu") bytes := by
  have hbuild : buildSnapshot sampleCodec sampleJson (some [31, 139, 1]) [31, 139, 2]
      (AList.singleton "region" "eu") = .ok ([31, 139, 3], true) := by
    decide +kernel
  exact ⟨[31, 139, 3], true, hbuild,
    (buildSnapshot_overlaid hbuild).mpr (.inl ⟨"region", by decide⟩)⟩

/-- The prior snapshot holds an array, and the merge of nothing drops it. -/
theorem array_state_lost :
    ∃ bytes hasJson, buildSnapshot sampleCodec sampleJson (some [31, 139, 4]) [] ∅ =
        .ok (bytes, hasJson) ∧
      ¬ Overlaid sampleCodec sampleJson (some [31, 139, 4]) [] ∅ bytes := by
  refine ⟨[31, 139, 5], false, by decide +kernel, fun h => ?_⟩
  have hparams : ∀ key, paramAt ∅ key = none := by
    intro key
    unfold paramAt
    split_ifs <;> rfl
  obtain ⟨data', hdata', -⟩ := h.kept hparams (fun path => rfl) stateJson [91, 49, 93]
    (by decide +kernel)
  have hnone : (snapshotFiles sampleCodec [31, 139, 5]).lookup stateJson = none := by
    decide +kernel
  rw [hnone] at hdata'
  cases hdata'

end Stroem.StateUpload

/-!
# The state recorded beside a snapshot

The packed bytes are read again for their `state.json`, and the first entry of that file name is
taken.  The entries ascend by path, so a `state.json` in a directory whose path comes before the
root's is read in its place.
-/

namespace Stroem.StateUpload

open Stroem.Foundation

def isStateFile (file : String × Bytes) : Bool := fileName file.1 = some stateJson.toList

theorem isStateFile_iff {path : String} {data : Bytes} :
    isStateFile (path, data) = true ↔ fileName path = some stateJson.toList :=
  decide_eq_true_iff

theorem fileName_stateJson : fileName stateJson = some stateJson.toList := by decide +kernel

theorem extractFrom_packed (json : SerdeJson) (listing : List (String × Bytes)) :
    extractFrom json (listing.map fun file => .ok (packedEntry file)) =
      (listing.find? isStateFile).bind fun file => json.fromSlice file.2 := by
  induction listing with
  | nil => rfl
  | cons file listing ih =>
    rw [List.map_cons, List.find?_cons]
    by_cases hfile : fileName file.1 = some stateJson.toList
    · have htrue : isStateFile file = true := decide_eq_true hfile
      simp only [extractFrom, packedEntry, if_pos hfile, htrue, Option.bind_some]
    · have hfalse : isStateFile file = false := decide_eq_false hfile
      simp only [extractFrom, packedEntry, if_neg hfile, hfalse]
      exact ih

theorem le_of_find?_ascending {listing : List (String × Bytes)} {q : String × Bytes → Bool}
    {first file : String × Bytes} (hsorted : listing.Pairwise fun e e' => e.1 < e'.1)
    (hfirst : listing.find? q = some first) (hfile : file ∈ listing) (hq : q file = true) :
    first.1 ≤ file.1 := by
  induction listing with
  | nil => cases hfile
  | cons e listing ih =>
    obtain ⟨hhead, hrest⟩ := List.pairwise_cons.mp hsorted
    rw [List.find?_cons] at hfirst
    by_cases he : q e = true
    · rw [he] at hfirst
      cases hfirst
      obtain rfl | hmem := List.mem_cons.mp hfile
      · exact le_rfl
      · exact (hhead file hmem).le
    · rw [Bool.not_eq_true] at he
      rw [he] at hfirst
      obtain rfl | hmem := List.mem_cons.mp hfile
      · rw [he] at hq
        cases hq
      · exact ih hrest hfirst hmem

structure SidecarAgrees (codec : Codec) (json : SerdeJson) (prior : Option Bytes)
    (params : Dict String String) (bytes : Bytes) (hasJson : Bool) : Prop where
  flag : hasJson = true ↔ (snapshotFiles codec bytes).lookup stateJson ≠ none
  extracted : hasJson = true → extractStateJson codec json bytes =
    some (.obj (overlaidState codec json prior params))

def RootFirst (codec : Codec) (json : SerdeJson) (prior : Option Bytes) (uploaded : Bytes)
    (params : Dict String String) : Prop :=
  overlaidState codec json prior params = [] ∨
    ∀ path data, overlaid codec prior uploaded path = some data →
      fileName path = some stateJson.toList → path < stateJson →
      (∀ path', overlaid codec prior uploaded path' ≠ none →
        fileName path' = some stateJson.toList → path ≤ path') →
      json.fromSlice data = some (.obj (overlaidState codec json prior params))

variable {codec : Codec} {json : SerdeJson} {prior : Option Bytes} {uploaded bytes : Bytes}
  {params : Dict String String} {hasJson : Bool}

theorem stateFile_isSome {state : Fields} {file : Option Bytes} (h : StateFile json state file) :
    file.isSome = true ↔ state ≠ [] := by
  constructor
  · rintro hsome rfl
    rw [h.1 rfl] at hsome
    cases hsome
  · intro hne
    obtain ⟨data, rfl, -⟩ := h.2 hne
    rfl

theorem buildSnapshot_sidecar
    (h : buildSnapshot codec json prior uploaded params = .ok (bytes, hasJson)) :
    SidecarAgrees codec json prior params bytes hasJson ↔
      RootFirst codec json prior uploaded params := by
  obtain ⟨files, hpack, hjson, hfile, hother, hpaths⟩ := buildSnapshot_ok h
  have hlookup := lookup_snapshotFiles_packTarball hpaths hpack
  have hextract : extractStateJson codec json bytes =
      ((sortedPairs files).find? isStateFile).bind fun file => json.fromSlice file.2 := by
    rw [extractStateJson, entries_packTarball hpack]
    exact extractFrom_packed json _
  have hhas : hasJson = true ↔ overlaidState codec json prior params ≠ [] := by
    rw [hjson]
    exact stateFile_isSome hfile
  have hroot : hasJson = true ↔ (snapshotFiles codec bytes).lookup stateJson ≠ none := by
    rw [hjson, hlookup, Option.isSome_iff_ne_none]
  by_cases hstate : overlaidState codec json prior params = []
  · exact iff_of_true ⟨hroot, fun htrue => absurd hstate (hhas.mp htrue)⟩ (.inl hstate)
  · obtain ⟨written, hwritten, hparse⟩ := hfile.2 hstate
    have hfound : ((sortedPairs files).find? isStateFile).isSome = true :=
      List.find?_isSome.mpr
        ⟨_, mem_sortedPairs.mpr hwritten, isStateFile_iff.mpr fileName_stateJson⟩
    obtain ⟨⟨path, data⟩, hfirst⟩ := Option.isSome_iff_exists.mp hfound
    have hpath : files.lookup path = some data :=
      mem_sortedPairs.mp (List.mem_of_find?_eq_some hfirst)
    have hname : fileName path = some stateJson.toList :=
      isStateFile_iff.mp (List.find?_some hfirst)
    have hleast : ∀ path', files.lookup path' ≠ none →
        fileName path' = some stateJson.toList → path ≤ path' := by
      intro path' hpath' hname'
      obtain ⟨data', hdata'⟩ := Option.ne_none_iff_exists'.mp hpath'
      exact le_of_find?_ascending (sortedPairs_pairwise files) hfirst
        (mem_sortedPairs.mpr hdata') (isStateFile_iff.mpr hname')
    rw [hfirst, Option.bind_some] at hextract
    have hflag : hasJson = true := hhas.mpr hstate
    constructor
    · intro hagrees
      -- The first file of the snapshot is the one that the condition is about.
      refine .inr fun path' data' hdata' hname' hbefore hleast' => ?_
      rw [← hother path' hbefore.ne] at hdata'
      have hle : path ≤ path' := hleast path' (by rw [hdata']; exact Option.some_ne_none _) hname'
      have hne : path ≠ stateJson := (hle.trans_lt hbefore).ne
      have hle' : path' ≤ path := hleast' path
        (by rw [← hother path hne, hpath]; exact Option.some_ne_none _) hname
      obtain rfl := le_antisymm hle hle'
      obtain rfl : data = data' := Option.some.inj (hpath.symm.trans hdata')
      rw [← hextract]
      exact hagrees.extracted hflag
    · intro hrootFirst
      refine ⟨hroot, fun _ => ?_⟩
      rw [hextract]
      obtain rfl | hne := eq_or_ne path stateJson
      · obtain rfl : data = written := Option.some.inj (hpath.symm.trans hwritten)
        exact hparse
      · have hlt : path < stateJson := lt_of_le_of_ne
          (hleast stateJson (by rw [hwritten]; exact Option.some_ne_none _) fileName_stateJson) hne
        refine (hrootFirst.resolve_left hstate) path data ?_ hname hlt ?_
        · rw [← hother path hne, hpath]
        · intro path' hpath' hname'
          by_cases hroot' : path' = stateJson
          · rw [hroot']
            exact hlt.le
          · exact hleast path' (by rwa [hother path' hroot']) hname'

theorem buildSnapshot_sidecar_nested :
    ∃ bytes hasJson, buildSnapshot sampleCodec sampleJson none [31, 139, 6]
        (AList.singleton "region" "eu") = .ok (bytes, hasJson) ∧
      SidecarAgrees sampleCodec sampleJson none (AList.singleton "region" "eu") bytes
        hasJson := by
  have hbuild : buildSnapshot sampleCodec sampleJson none [31, 139, 6]
      (AList.singleton "region" "eu") = .ok ([31, 139, 7], true) := by
    decide +kernel
  refine ⟨[31, 139, 7], true, hbuild, (buildSnapshot_sidecar hbuild).mpr (.inr ?_)⟩
  intro path data hdata hname hbefore hleast
  have hupload : archived sampleCodec [31, 139, 6] =
      [("z/state.json", objectText "region" "us")] := by
    decide +kernel
  obtain hfile | ⟨-, hprior⟩ := Option.or_eq_some_iff.mp hdata
  · obtain ⟨held, hheld⟩ := exists_archived_of_lookup hfile
    rw [hupload, List.mem_singleton] at hheld
    obtain ⟨rfl, -⟩ := Prod.mk.inj hheld
    exact absurd hbefore (by decide)
  · cases hprior

/-- A nested `state.json` that comes before the root's is recorded in its place. -/
theorem nested_state_recorded :
    ∃ bytes, buildSnapshot sampleCodec sampleJson none [31, 139, 8]
        (AList.singleton "region" "eu") = .ok (bytes, true) ∧
      extractStateJson sampleCodec sampleJson bytes = some (.obj [("region", .str "us")]) ∧
      ¬ SidecarAgrees sampleCodec sampleJson none (AList.singleton "region" "eu") bytes true := by
  refine ⟨[31, 139, 9], by decide +kernel, by decide +kernel, fun h => ?_⟩
  have hextracted := h.extracted rfl
  revert hextracted
  decide +kernel

end Stroem.StateUpload
