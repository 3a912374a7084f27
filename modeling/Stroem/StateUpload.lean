import Mathlib.Data.String.Basic
import Stroem.Foundation.SortedPairs
import Stroem.Json

/-!
# State uploads

An upload becomes a snapshot of a task's state: its files laid over those of the prior snapshot,
and the values of the query string laid over the prior `state.json`.  The snapshot is packed in the
order of its paths, and `state.json` is read back from the packed bytes for the database.
-/

namespace Stroem.StateUpload

open Stroem.Foundation

abbrev Bytes := List UInt8

abbrev Files := Dict String Bytes

structure TarEntry where
  isFile : Bool
  path : Except String String
  contents : Except String Bytes

def packedEntry (file : String × Bytes) : TarEntry := ⟨true, .ok file.1, .ok file.2⟩

structure Codec where
  entries : Bytes → Except String (List (Except String TarEntry))
  pack : List (String × Bytes) → Except String Bytes
  entries_pack : ∀ files bytes, pack files = .ok bytes →
    entries bytes = .ok (files.map fun file => .ok (packedEntry file))
  pack_ne_nil : ∀ files, pack files ≠ .ok []

structure SerdeJson where
  fromSlice : Bytes → Option Json
  toVec : Fields → Except String Bytes
  sorted : ∀ bytes fields, fromSlice bytes = some (.obj fields) → Fields.Sorted fields
  fromSlice_toVec : ∀ fields bytes, Fields.Sorted fields → toVec fields = .ok bytes →
    fromSlice bytes = some (.obj fields)

def context {α : Type} (text : String) : Except String α → Except String α
  | .ok value => .ok value
  | .error e => .error (text ++ ": " ++ e)

def stateJson : String := "state.json"

def maxSnapshotBytes : Nat := 50 * 1024 * 1024

/-! ## `unpack_tarball` -/

def trimDotSlash : List Char → List Char
  | '.' :: '/' :: text => trimDotSlash text
  | text => text

def entryPath (path : String) : String := String.ofList (trimDotSlash path.toList)

def unsafePath (path : String) : Bool :=
  path.toList.head? = some '/' || (path.toList.splitOn '/').contains ['.', '.']

def unpackEntry (out : Files) (totalBytes : Nat) (entry : TarEntry) :
    Except String (Files × Nat) :=
  if entry.isFile then
    match context "read entry path" entry.path with
    | .error e => .error e
    | .ok raw =>
      if entryPath raw = "" then .ok (out, totalBytes)
      else if unsafePath (entryPath raw) then
        .error ("Tarball contains unsafe path: " ++ entryPath raw)
      else if maxSnapshotBytes < totalBytes then
        .error "Tarball decompresses beyond size cap"
      else
        match context "read entry bytes" entry.contents with
        | .error e => .error e
        | .ok contents =>
          -- What `take(remaining + 1)` lets through.
          let buf := contents.take (maxSnapshotBytes - totalBytes + 1)
          if maxSnapshotBytes - totalBytes < buf.length then
            .error "Tarball decompresses beyond 52428800 byte cap"
          else .ok (out.insert (entryPath raw) buf, totalBytes + buf.length)
  else .ok (out, totalBytes)

def unpackEntries (out : Files) (totalBytes : Nat) :
    List (Except String TarEntry) → Except String Files
  | [] => .ok out
  | item :: items =>
    match context "read tar entry" item with
    | .error e => .error e
    | .ok entry =>
      match unpackEntry out totalBytes entry with
      | .error e => .error e
      | .ok (out, totalBytes) => unpackEntries out totalBytes items

def unpackTarball (codec : Codec) (bytes : Bytes) : Except String Files :=
  if bytes = [] then .ok ∅
  else
    match context "read tar entries" (codec.entries bytes) with
    | .error e => .error e
    | .ok items => unpackEntries ∅ 0 items

/-! ## `pack_tarball` -/

def packTarball (codec : Codec) (files : Files) : Except String Bytes :=
  codec.pack (sortedPairs files)

/-! ## `build_snapshot` -/

def stateEntries (params : Dict String String) : List (String × Json) :=
  ((pairs params).filter fun e => e.1 ≠ "mode").map fun e => (e.1, .str e.2)

def buildStateJsonFromParams (params : Dict String String) : Option Fields :=
  if Fields.collect (stateEntries params) = [] then none
  else some (Fields.collect (stateEntries params))

def parsedState (json : SerdeJson) (bytes : Bytes) : Fields :=
  match json.fromSlice bytes with
  | some (.obj fields) => fields
  | _ => []

def mergedState (json : SerdeJson) (file : Option Bytes) (params : Dict String String) : Fields :=
  let priorState := (file.map (parsedState json)).getD []
  match buildStateJsonFromParams params with
  | some new => new.foldl (fun m e => Fields.insert e.1 e.2 m) priorState
  | none => priorState

def withState (json : SerdeJson) (files : Files) (mergedState : Fields) : Except String Files :=
  if mergedState = [] then .ok (files.erase stateJson)
  else
    match context "serialise merged state.json" (json.toVec mergedState) with
    | .error e => .error e
    | .ok serialised => .ok (files.insert stateJson serialised)

def unpackPrior (codec : Codec) : Option Bytes → Except String Files
  | some bytes => context "unpack prior snapshot" (unpackTarball codec bytes)
  | none => .ok ∅

def repack (codec : Codec) (files : Files) : Except String (Bytes × Bool) :=
  match packTarball codec files with
  | .error e => .error e
  | .ok repacked =>
    if maxSnapshotBytes < repacked.length then
      .error "Merged snapshot exceeds 52428800 bytes; use mode=replace or reduce payload"
    else .ok (repacked, (files.lookup stateJson).isSome)

def buildSnapshot (codec : Codec) (json : SerdeJson) (prior : Option Bytes) (uploaded : Bytes)
    (stateParams : Dict String String) : Except String (Bytes × Bool) :=
  match unpackPrior codec prior with
  | .error e => .error e
  | .ok priorFiles =>
    match context "unpack uploaded tarball" (unpackTarball codec uploaded) with
    | .error e => .error e
    | .ok uploadedFiles =>
      if (uploadedFiles.lookup stateJson).isSome then
        .error ("Uploaded tarball must not contain a root-level state.json; " ++
          "pass state values via query parameters")
      else
        let files := extend priorFiles uploadedFiles
        match withState json files (mergedState json (files.lookup stateJson) stateParams) with
        | .error e => .error e
        | .ok files => repack codec files

/-! ## `extract_state_json` -/

def fileName (path : String) : Option (List Char) :=
  match ((path.toList.splitOn '/').filter fun part => part ≠ [] ∧ part ≠ ['.']).getLast? with
  | some ['.', '.'] => none
  | last => last

def extractFrom (json : SerdeJson) : List (Except String TarEntry) → Option Json
  | [] => none
  | .error _ :: items => extractFrom json items
  | .ok entry :: items =>
    match entry.path with
    | .error _ => extractFrom json items
    | .ok path =>
      if fileName path = some stateJson.toList then
        -- Text that is not UTF-8 is not JSON either.
        match entry.contents with
        | .error _ => none
        | .ok contents => json.fromSlice contents
      else extractFrom json items

def extractStateJson (codec : Codec) (json : SerdeJson) (data : Bytes) : Option Json :=
  match codec.entries data with
  | .error _ => none
  | .ok items => extractFrom json items

end Stroem.StateUpload
