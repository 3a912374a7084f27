import Stroem.BlobArchive.Refines

/-!
# Writes that fail

`put_stream` again, over a file system whose calls can fail at any point of their work, and over a
stream that keeps a state of its own.  Only the removals are as the tree has them.
-/

namespace Stroem.BlobArchive

open Stroem.Foundation

inductive Outcome
  | done
  | failed (part : Nat)
  | late (part : Nat)
  deriving DecidableEq

inductive StreamError
  | archive (e : Error)
  | failed
  | stopped
  deriving DecidableEq

structure Files (τ : Type) where
  tree : Tree
  calls : Nat
  seen : τ

abbrev Io (τ : Type) := EStateM StreamError (Files τ)

abbrev Poll (τ : Type) := Except String ByteArray → τ → Option ByteArray × τ

def maxFileSize : Nat := 2 ^ 63 - 1

def settled (f : Tree → Except IoError Tree) (t : Tree) : Tree :=
  match f t with
  | .ok t' => t'
  | .error _ => t

def partly (f : Tree → Except IoError Tree) (part : Nat) (t : Tree) : Tree :=
  if part = 0 then t else settled f t

section Calls

variable {τ : Type} (faults : Nat → Outcome)

def tryCall (part : Nat → Tree → Tree) (f : Tree → Except IoError Tree) : Io τ Unit := fun s =>
  let calls := s.calls + 1
  match faults s.calls with
  | .done => match f s.tree with
      | .ok t => .ok () { s with tree := t, calls }
      | .error e => .error (.archive (.io e)) { s with calls }
  | .failed n | .late n => .error .failed { s with tree := part n s.tree, calls }

def createDirAll (path : List Name) : Io τ Unit :=
  tryCall faults (fun n => settled fun t => t.mkdirs (path.take n)) fun t => t.mkdirs path

def createFile (path : List Name) : Io τ Unit :=
  tryCall faults (partly fun t => t.write path ByteArray.empty) fun t =>
    t.write path ByteArray.empty

def syncAll : Io τ Unit := tryCall faults (fun _ t => t) .ok

def renameFile (old new : List Name) : Io τ Unit :=
  tryCall faults (partly fun t => t.rename old new) fun t => t.rename old new

def removeTemp (path : List Name) : Io τ Unit := fun s =>
  .ok () { s with tree := settled (fun t => t.removeFile path) s.tree }

structure OpenFile where
  path : List Name
  written : ByteArray := ByteArray.empty
  lastWriteErr : Bool := false

def OpenFile.content (f : OpenFile) (bytes : ByteArray) : Tree → Tree :=
  settled fun t => t.write f.path (f.written ++ bytes)

def OpenFile.writeAll (f : OpenFile) (bytes : ByteArray) : Io τ OpenFile := fun s =>
  let calls := s.calls + 1
  if bytes.size = 0 then .ok f s
  else if f.lastWriteErr then .error .failed s
  else match faults s.calls with
    | .done =>
      if maxFileSize < f.written.size + bytes.size then
        let room := bytes.extract 0 (maxFileSize - f.written.size)
        .error .failed { s with tree := f.content room s.tree, calls }
      else match s.tree.write f.path (f.written ++ bytes) with
        | .ok t => .ok { f with written := f.written ++ bytes } { s with tree := t, calls }
        | .error e => .error (.archive (.io e)) { s with calls }
    | .failed n => .error .failed { s with tree := f.content (bytes.extract 0 n) s.tree, calls }
    | .late n =>
      .ok { f with lastWriteErr := true }
        { s with tree := f.content (bytes.extract 0 n) s.tree, calls }

def OpenFile.flush (f : OpenFile) : Io τ Unit :=
  if f.lastWriteErr then throw .failed else pure ()

def next (poll : Poll τ) (item : Except String ByteArray) : Io τ ByteArray := fun s =>
  match poll item s.seen with
  | (some chunk, seen) => .ok chunk { s with seen }
  | (none, seen) => .error .stopped { s with seen }

def writeBody (poll : Poll τ) (f : OpenFile) : List (Except String ByteArray) → Io τ OpenFile
  | [] => pure f
  | item :: rest => do
      let chunk ← next poll item
      let f ← f.writeAll faults chunk
      writeBody poll f rest

def writeTemps (poll : Poll τ) (path tmpData tmpCt : List Name) (contentType : String)
    (body : List (Except String ByteArray)) : Io τ Unit := do
  createFile faults tmpData
  let f ← writeBody faults poll { path := tmpData } body
  f.flush
  syncAll faults
  createFile faults tmpCt
  let g ← OpenFile.writeAll faults { path := tmpCt } contentType.toUTF8
  g.flush
  syncAll faults
  renameFile faults tmpData path
  renameFile faults tmpCt (ctPathFor path)

def pathOf (key : String) : Io τ (List Name) :=
  match pathFor key with
  | .ok path => pure path
  | .error e => throw (.archive e)

def putStreamOver (poll : Poll τ) (suffix key contentType : String)
    (body : List (Except String ByteArray)) : Io τ Unit := do
  let path ← pathOf key
  createDirAll faults path.dropLast
  let tmpData := tmpPathFor suffix path
  let tmpCt := tmpPathFor suffix (ctPathFor path)
  tryCatch (writeTemps faults poll path tmpData tmpCt contentType body) fun e => do
    removeTemp tmpData
    removeTemp tmpCt
    throw e

end Calls

/-! ## What a stream yields -/

def feed {τ : Type} (poll : Poll τ) (seen : τ) :
    List (Except String ByteArray) → Option ByteArray × τ
  | [] => (some ByteArray.empty, seen)
  | item :: rest => match poll item seen with
      | (none, seen') => (none, seen')
      | (some chunk, seen') => ((feed poll seen' rest).1.map (chunk ++ ·), (feed poll seen' rest).2)

def ownPaths (suffix key : String) : List (List Name) :=
  [tmpPathFor suffix (components key), tmpPathFor suffix (ctPathFor (components key)),
    components key, ctPathFor (components key)]

end Stroem.BlobArchive
