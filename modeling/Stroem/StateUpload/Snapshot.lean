import Stroem.StateUpload

/-!
# The files of a snapshot

A snapshot is read as the map of its regular files, the last entry of a path winning.  What
`unpack_tarball` returns is that map, and what `pack_tarball` packs has the packed map for its
files.
-/

namespace Stroem.StateUpload

open Stroem.Foundation

variable {files : Files} {bytes : Bytes}

variable {codec : Codec}

/-! ## Unpacking -/

theorem context_ok {α : Type} {text : String} {result : Except String α} {value : α}
    (h : context text result = .ok value) : result = .ok value := by
  cases result with
  | error e => cases h
  | ok v => exact h

def regularFile : Except String TarEntry → Option (String × Bytes)
  | .ok ⟨true, .ok raw, .ok contents⟩ =>
    if entryPath raw = "" then none else some (entryPath raw, contents)
  | _ => none

def archived (codec : Codec) (bytes : Bytes) : List (String × Bytes) :=
  if bytes = [] then []
  else ((codec.entries bytes).toOption.getD []).filterMap regularFile

def snapshotFiles (codec : Codec) (bytes : Bytes) : Files := insertPairs ∅ (archived codec bytes)

theorem unpackEntry_ok {out out' : Files} {total total' : Nat} {entry : TarEntry}
    (h : unpackEntry out total entry = .ok (out', total')) :
    out' = insertPairs out (regularFile (.ok entry)).toList := by
  obtain ⟨isFile, path, contents⟩ := entry
  unfold unpackEntry at h
  cases isFile with
  | false =>
    obtain ⟨rfl, -⟩ := Prod.mk.inj (Except.ok.inj h)
    rfl
  | true =>
    cases path with
    | error e => cases h
    | ok raw =>
      simp only [context, if_true] at h
      by_cases hempty : entryPath raw = ""
      · rw [if_pos hempty] at h
        obtain ⟨rfl, -⟩ := Prod.mk.inj (Except.ok.inj h)
        cases contents with
        | error e => rfl
        | ok contents =>
          rw [regularFile, if_pos hempty]
          rfl
      · rw [if_neg hempty] at h
        split_ifs at h
        cases contents with
        | error e => cases h
        | ok contents =>
          dsimp only at h
          split_ifs at h with hfits
          obtain ⟨rfl, -⟩ := Prod.mk.inj (Except.ok.inj h)
          rw [regularFile, if_neg hempty, Option.toList_some, insertPairs, insertPairs]
          rw [List.take_of_length_le]
          rw [List.length_take] at hfits
          omega

theorem unpackEntries_ok {items : List (Except String TarEntry)} {out : Files} {total : Nat}
    (h : unpackEntries out total items = .ok files) :
    files = insertPairs out (items.filterMap regularFile) := by
  induction items generalizing out total with
  | nil =>
    cases h
    rfl
  | cons item items ih =>
    cases item with
    | error e => cases h
    | ok entry =>
      unfold unpackEntries context at h
      dsimp only at h
      cases hentry : unpackEntry out total entry with
      | error e =>
        rw [hentry] at h
        cases h
      | ok state =>
        obtain ⟨out', total'⟩ := state
        rw [hentry] at h
        rw [ih h, unpackEntry_ok hentry, List.filterMap_cons]
        cases regularFile (.ok entry) with
        | none => rfl
        | some file => rfl

theorem unpackTarball_ok
    (h : unpackTarball codec bytes = .ok files) : files = snapshotFiles codec bytes := by
  unfold unpackTarball at h
  unfold snapshotFiles archived
  split_ifs at h ⊢ with hempty
  · cases h
    rfl
  · cases hentries : codec.entries bytes with
    | error e =>
      rw [hentries] at h
      cases h
    | ok items =>
      rw [hentries] at h
      exact unpackEntries_ok h

/-! ## Paths -/

def Trimmed (path : String) : Prop := path ≠ "" ∧ entryPath path = path

theorem trimDotSlash_idem (text : List Char) :
    trimDotSlash (trimDotSlash text) = trimDotSlash text := by
  induction text using trimDotSlash.induct with
  | case1 text ih => rwa [trimDotSlash]
  | case2 text h => rw [trimDotSlash.eq_2 text h, trimDotSlash.eq_2 text h]

theorem trimmed_entryPath {raw : String} (h : entryPath raw ≠ "") : Trimmed (entryPath raw) := by
  refine ⟨h, ?_⟩
  unfold entryPath
  rw [String.toList_ofList, trimDotSlash_idem]

theorem trimmed_stateJson : Trimmed stateJson := by
  constructor <;> decide

theorem exists_archived_of_lookup {path : String} {data : Bytes}
    (h : (snapshotFiles codec bytes).lookup path = some data) :
    ∃ held, (path, held) ∈ archived codec bytes := by
  by_contra hnone
  rw [snapshotFiles, lookup_insertPairs_of_not_mem _ (not_exists.mp hnone)] at h
  cases h

theorem trimmed_of_lookup_snapshotFiles {path : String} {data : Bytes}
    (h : (snapshotFiles codec bytes).lookup path = some data) : Trimmed path := by
  obtain ⟨held, hheld⟩ := exists_archived_of_lookup h
  unfold archived at hheld
  split_ifs at hheld
  · cases hheld
  · obtain ⟨item, -, hitem⟩ := List.mem_filterMap.mp hheld
    unfold regularFile at hitem
    split at hitem
    · split_ifs at hitem with hempty
      obtain ⟨rfl, -⟩ := Prod.mk.inj (Option.some.inj hitem)
      exact trimmed_entryPath hempty
    · cases hitem

/-! ## Packing -/

theorem entries_packTarball
    (h : packTarball codec files = .ok bytes) :
    codec.entries bytes = .ok ((sortedPairs files).map fun file => .ok (packedEntry file)) :=
  codec.entries_pack _ _ h

theorem archived_packTarball
    (hpaths : ∀ path data, files.lookup path = some data → Trimmed path)
    (h : packTarball codec files = .ok bytes) : archived codec bytes = sortedPairs files := by
  have hne : bytes ≠ [] := fun heq => codec.pack_ne_nil _ (heq ▸ h)
  rw [archived, if_neg hne, entries_packTarball h]
  simp only [Except.toOption, Option.getD_some, List.filterMap_map]
  have hfile : ∀ file ∈ sortedPairs files,
      (regularFile ∘ fun file => .ok (packedEntry file)) file = some file := by
    intro file hfile
    obtain ⟨hne, htrim⟩ := hpaths file.1 file.2 (mem_sortedPairs.mp hfile)
    simp only [Function.comp, packedEntry, regularFile, htrim, if_neg hne]
  rw [List.filterMap_congr hfile, List.filterMap_some]

theorem lookup_snapshotFiles_packTarball
    (hpaths : ∀ path data, files.lookup path = some data → Trimmed path)
    (h : packTarball codec files = .ok bytes) (path : String) :
    (snapshotFiles codec bytes).lookup path = files.lookup path := by
  rw [snapshotFiles, archived_packTarball hpaths h]
  cases hlookup : files.lookup path with
  | none =>
    refine lookup_insertPairs_of_not_mem _ fun value hvalue => ?_
    rw [mem_sortedPairs, hlookup] at hvalue
    cases hvalue
  | some data =>
    obtain ⟨held, hheld, hmem⟩ :=
      lookup_insertPairs_of_mem ∅ (mem_sortedPairs.mpr hlookup)
    rw [mem_sortedPairs, hlookup] at hmem
    rw [hheld, hmem]

/-! ## The merged state -/

def paramAt (params : Dict String String) (key : String) : Option String :=
  if key = "mode" then none else params.lookup key

theorem nodup_stateEntries (params : Dict String String) :
    ((stateEntries params).map Prod.fst).Nodup := by
  have hsub := (List.filter_sublist (p := fun e => e.1 ≠ "mode") (l := pairs params)).map Prod.fst
  have hnodup := (nodup_map_fst_pairs params).sublist hsub
  rwa [stateEntries, List.map_map]

theorem mem_stateEntries {params : Dict String String} {key : String} {value : Json} :
    (key, value) ∈ stateEntries params ↔ (paramAt params key).map Json.str = some value := by
  unfold stateEntries paramAt
  simp only [List.mem_map, List.mem_filter, Prod.mk.injEq, decide_eq_true_eq]
  constructor
  · rintro ⟨⟨k, v⟩, ⟨hmem, hmode⟩, rfl, rfl⟩
    rw [if_neg hmode, mem_pairs.mp hmem, Option.map_some]
  · intro h
    split_ifs at h with hmode
    · cases h
    · obtain ⟨v, hv, rfl⟩ := Option.map_eq_some_iff.mp h
      exact ⟨(key, v), ⟨mem_pairs.mpr hv, hmode⟩, rfl, rfl⟩

theorem get_stateEntries (params : Dict String String) (key : String) :
    Fields.get key (stateEntries params) = (paramAt params key).map Json.str := by
  cases hparam : (paramAt params key).map Json.str with
  | some value => exact Fields.get_of_mem (nodup_stateEntries params) (mem_stateEntries.mpr hparam)
  | none =>
    refine Fields.get_eq_none fun e he heq => ?_
    subst heq
    rw [mem_stateEntries.mp he] at hparam
    cases hparam

theorem mergedState_eq (json : SerdeJson) (file : Option Bytes) (params : Dict String String) :
    mergedState json file params =
      (Fields.collect (stateEntries params)).foldl (fun m e => Fields.insert e.1 e.2 m)
        ((file.map (parsedState json)).getD []) := by
  unfold mergedState buildStateJsonFromParams
  split_ifs with hempty
  · rw [hempty]
    rfl
  · rfl

theorem parsedState_sorted (json : SerdeJson) (file : Option Bytes) :
    Fields.Sorted ((file.map (parsedState json)).getD []) := by
  cases file with
  | none => exact List.Pairwise.nil
  | some bytes =>
    rw [Option.map_some, Option.getD_some, parsedState]
    split
    · next fields hparse => exact json.sorted bytes fields hparse
    · exact List.Pairwise.nil

theorem mergedState_sorted (json : SerdeJson) (file : Option Bytes)
    (params : Dict String String) : Fields.Sorted (mergedState json file params) := by
  rw [mergedState_eq]
  exact (parsedState_sorted json file).foldl_insert

theorem get_mergedState (json : SerdeJson) (file : Option Bytes) (params : Dict String String)
    (key : String) :
    Fields.get key (mergedState json file params) =
      ((paramAt params key).map Json.str).or
        (Fields.get key ((file.map (parsedState json)).getD [])) := by
  rw [mergedState_eq, Fields.get_foldl_insert (Fields.sorted_collect _).nodup_keys,
    Fields.get_collect (nodup_stateEntries params), get_stateEntries]

/-! ## Building -/

def priorFiles (codec : Codec) (prior : Option Bytes) : Files :=
  (prior.map (snapshotFiles codec)).getD ∅

def StateFile (json : SerdeJson) (state : Fields) (file : Option Bytes) : Prop :=
  (state = [] → file = none) ∧
    (state ≠ [] → ∃ data, file = some data ∧ json.fromSlice data = some (.obj state))

theorem withState_ok {json : SerdeJson} {files' : Files} {state : Fields}
    (hsorted : Fields.Sorted state) (h : withState json files state = .ok files') :
    StateFile json state (files'.lookup stateJson) ∧
      ∀ path ≠ stateJson, files'.lookup path = files.lookup path := by
  unfold withState at h
  split_ifs at h with hempty
  · cases h
    refine ⟨⟨fun _ => AList.lookup_erase _ _, fun hne => absurd hempty hne⟩, ?_⟩
    exact fun path hpath => AList.lookup_erase_ne hpath
  · cases hdata : json.toVec state with
    | error e =>
      rw [hdata] at h
      cases h
    | ok data =>
      rw [hdata] at h
      cases h
      refine ⟨⟨fun hnil => absurd hnil hempty, fun _ => ⟨data, AList.lookup_insert _, ?_⟩⟩, ?_⟩
      · exact json.fromSlice_toVec state data hsorted hdata
      · exact fun path hpath => AList.lookup_insert_ne hpath

theorem unpackPrior_ok {prior : Option Bytes}
    (h : unpackPrior codec prior = .ok files) : files = priorFiles codec prior := by
  cases prior with
  | none =>
    cases h
    rfl
  | some bytes =>
    have hunpacked : unpackTarball codec bytes = .ok files := context_ok h
    rw [unpackTarball_ok hunpacked]
    rfl

theorem repack_ok {hasJson : Bool}
    (h : repack codec files = .ok (bytes, hasJson)) :
    packTarball codec files = .ok bytes ∧ hasJson = (files.lookup stateJson).isSome := by
  unfold repack at h
  cases hpack : packTarball codec files with
  | error e =>
    rw [hpack] at h
    cases h
  | ok repacked =>
    rw [hpack] at h
    dsimp only at h
    split_ifs at h
    obtain ⟨rfl, rfl⟩ := Prod.mk.inj (Except.ok.inj h)
    exact ⟨rfl, rfl⟩

def overlaid (codec : Codec) (prior : Option Bytes) (uploaded : Bytes) (path : String) :
    Option Bytes :=
  ((snapshotFiles codec uploaded).lookup path).or ((priorFiles codec prior).lookup path)

def overlaidState (codec : Codec) (json : SerdeJson) (prior : Option Bytes)
    (params : Dict String String) : Fields :=
  mergedState json ((priorFiles codec prior).lookup stateJson) params

theorem trimmed_of_overlaid {prior : Option Bytes} {uploaded : Bytes} {path : String}
    {data : Bytes} (h : overlaid codec prior uploaded path = some data) : Trimmed path := by
  obtain huploaded | ⟨-, hprior⟩ := Option.or_eq_some_iff.mp h
  · exact trimmed_of_lookup_snapshotFiles huploaded
  · cases prior with
    | none => cases hprior
    | some bytes => exact trimmed_of_lookup_snapshotFiles hprior

theorem buildSnapshot_ok {json : SerdeJson} {prior : Option Bytes} {uploaded : Bytes}
    {params : Dict String String} {hasJson : Bool}
    (h : buildSnapshot codec json prior uploaded params = .ok (bytes, hasJson)) :
    ∃ files, packTarball codec files = .ok bytes ∧
      hasJson = (files.lookup stateJson).isSome ∧
      StateFile json (overlaidState codec json prior params) (files.lookup stateJson) ∧
      (∀ path ≠ stateJson, files.lookup path = overlaid codec prior uploaded path) ∧
      ∀ path data, files.lookup path = some data → Trimmed path := by
  unfold buildSnapshot at h
  cases hprior : unpackPrior codec prior with
  | error e =>
    rw [hprior] at h
    cases h
  | ok unpackedPrior =>
    rw [hprior] at h
    obtain rfl := unpackPrior_ok hprior
    dsimp only at h
    cases huploaded : unpackTarball codec uploaded with
    | error e =>
      rw [huploaded] at h
      cases h
    | ok unpacked =>
      rw [huploaded] at h
      obtain rfl := unpackTarball_ok huploaded
      simp only [context] at h
      split_ifs at h with hroot
      rw [Option.not_isSome_iff_eq_none] at hroot
      have hstate : (extend (priorFiles codec prior) (snapshotFiles codec uploaded)).lookup
          stateJson = (priorFiles codec prior).lookup stateJson := by
        rw [lookup_extend, hroot, Option.none_or]
      rw [hstate] at h
      split at h
      · cases h
      · next files hfiles =>
          obtain ⟨hfile, hother⟩ := withState_ok (mergedState_sorted _ _ _) hfiles
          obtain ⟨hpack, hjson⟩ := repack_ok h
          have hoverlaid : ∀ path ≠ stateJson,
              files.lookup path = overlaid codec prior uploaded path := fun path hpath => by
            rw [hother path hpath, lookup_extend, overlaid]
          refine ⟨files, hpack, hjson, hfile, hoverlaid, fun path data hdata => ?_⟩
          by_cases hpath : path = stateJson
          · rw [hpath]
            exact trimmed_stateJson
          · rw [hoverlaid path hpath] at hdata
            exact trimmed_of_overlaid hdata

/-! ## Archives and texts of a table -/

theorem find?_key {β : Type} {known : List (Bytes × β)} (hkeys : (known.map Prod.fst).Nodup)
    {k : Bytes × β} (hk : k ∈ known) : known.find? (fun k' => k'.1 = k.1) = some k := by
  cases hfind : known.find? fun k' => k'.1 = k.1 with
  | none =>
    have hmiss := List.find?_eq_none.mp hfind k hk
    exact absurd (decide_eq_true rfl) hmiss
  | some k' =>
    have hkey : k'.1 = k.1 := by simpa using List.find?_some hfind
    rw [List.inj_on_of_nodup_map hkeys (List.mem_of_find?_eq_some hfind) hk hkey]

def tableCodec (known : List (Bytes × List (String × Bytes)))
    (hkeys : (known.map Prod.fst).Nodup) (hne : ∀ k ∈ known, k.1 ≠ []) : Codec where
  entries bytes :=
    match known.find? fun k => k.1 = bytes with
    | some k => .ok (k.2.map fun file => .ok (packedEntry file))
    | none => .error "invalid gzip header"
  pack files :=
    match known.find? fun k => k.2 = files with
    | some k => .ok k.1
    | none => .error "append tar entry"
  entries_pack files bytes h := by
    split at h
    · next k hk =>
        cases h
        have hfiles : k.2 = files := by simpa using List.find?_some hk
        rw [find?_key hkeys (List.mem_of_find?_eq_some hk), ← hfiles]
    · cases h
  pack_ne_nil files h := by
    split at h
    · next k hk => exact hne k (List.mem_of_find?_eq_some hk) (Except.ok.inj h)
    · cases h

def tableJson (known : List (Bytes × Json)) (hkeys : (known.map Prod.fst).Nodup)
    (hsorted : ∀ k ∈ known, ∀ fields, k.2 = .obj fields → Fields.Sorted fields) :
    SerdeJson where
  fromSlice bytes := (known.find? fun k => k.1 = bytes).map (·.2)
  toVec fields :=
    match known.find? fun k => k.2 = .obj fields with
    | some k => .ok k.1
    | none => .error "unknown object"
  sorted bytes fields h := by
    obtain ⟨k, hk, hobj⟩ := Option.map_eq_some_iff.mp h
    exact hsorted k (List.mem_of_find?_eq_some hk) fields hobj
  fromSlice_toVec fields bytes _ h := by
    split at h
    · next k hk =>
        cases h
        have hobj : k.2 = .obj fields := by simpa using List.find?_some hk
        rw [find?_key hkeys (List.mem_of_find?_eq_some hk), Option.map_some, hobj]
    · cases h

def objectText (key value : String) : Bytes :=
  ("\x7b\x22" ++ key ++ "\x22:\x22" ++ value ++ "\x22\x7d").toList.map fun c =>
    UInt8.ofNat c.toNat

def sampleJson : SerdeJson :=
  tableJson
    [(objectText "region" "us", .obj [("region", .str "us")]),
      (objectText "region" "eu", .obj [("region", .str "eu")]),
      ([91, 49, 93], .arr [.num (.int 1)])]
    (by decide +kernel)
    (by
      intro k hk fields hfields
      simp only [List.mem_cons, List.not_mem_nil, or_false] at hk
      rcases hk with rfl | rfl | rfl
      · obtain rfl := Json.obj.inj hfields
        exact List.pairwise_singleton _ _
      · obtain rfl := Json.obj.inj hfields
        exact List.pairwise_singleton _ _
      · cases hfields)

def sampleCodec : Codec :=
  tableCodec
    [([31, 139, 1], [("notes.txt", [110]), (stateJson, objectText "region" "us")]),
      ([31, 139, 2], [("out.txt", [111])]),
      ([31, 139, 3], [("notes.txt", [110]), ("out.txt", [111]),
        (stateJson, objectText "region" "eu")]),
      ([31, 139, 4], [("notes.txt", [110]), (stateJson, [91, 49, 93])]),
      ([31, 139, 5], [("notes.txt", [110])]),
      ([31, 139, 6], [("z/state.json", objectText "region" "us")]),
      ([31, 139, 7], [(stateJson, objectText "region" "eu"),
        ("z/state.json", objectText "region" "us")]),
      ([31, 139, 8], [("a/state.json", objectText "region" "us")]),
      ([31, 139, 9], [("a/state.json", objectText "region" "us"),
        (stateJson, objectText "region" "eu")])]
    (by decide) (by decide)

end Stroem.StateUpload
