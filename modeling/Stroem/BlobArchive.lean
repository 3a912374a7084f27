import Mathlib
import Stroem.Foundation.FileTree

/-!
# The local blob archive

`LocalBlobArchive` keeps a blob in two files of one directory tree: its bytes at the path that the
key spells, its content type beside it.  A write goes to two temporary files first, which are then
renamed into place, the data before the sidecar.
-/

namespace Stroem.BlobArchive

open Stroem.Foundation

abbrev Name := List Char

abbrev Tree := FileTree Name ByteArray

structure Blob where
  contentType : String
  bytes : ByteArray
  deriving DecidableEq

inductive Error
  | invalidKey (key : String)
  | io (kind : IoError)
  | body (message : String)
  deriving DecidableEq

abbrev Fs := EStateM Error Tree

/-! ## Keys and paths -/

def components (key : String) : List Name := key.toList.splitOn '/'

def validateKey (key : String) : Except Error Unit :=
  if key.toList.isEmpty || key.toList.head? = some '/' then
    .error (.invalidKey key)
  else if (components key).any fun part =>
      part.isEmpty || part = ['.'] || part = ['.', '.'] || part.contains '\x00' then
    .error (.invalidKey key)
  else
    .ok ()

def pathFor (key : String) : Except Error (List Name) :=
  match validateKey key with
  | .error e => .error e
  | .ok () => .ok (components key)

def fileName (path : List Name) : Name := path.getLastD []

def withFileName (path : List Name) (name : Name) : List Name := path.dropLast ++ [name]

def ctPathFor (path : List Name) : List Name :=
  withFileName path (fileName path ++ ".ct".toList)

def tmpPathFor (suffix : String) (path : List Name) : List Name :=
  withFileName path (fileName path ++ ".tmp.".toList ++ suffix.toList)

def trimEndSlashes (text : String) : String :=
  String.ofList (text.toList.reverse.dropWhile (· == '/')).reverse

/-! ## Writes -/

def call (f : Tree → Except IoError Tree) : Fs Unit := fun t =>
  match f t with
  | .ok t' => .ok () t'
  | .error e => .error (.io e) t

def attempt (f : Tree → Except IoError Tree) : Fs Unit := fun t =>
  match f t with
  | .ok t' => .ok () t'
  | .error _ => .ok () t

def liftError {α : Type} : Except Error α → Fs α
  | .ok a => pure a
  | .error e => throw e

def writeChunks (tmp : List Name) (written : ByteArray) : List (Except String ByteArray) → Fs Unit
  | [] => pure ()
  | .error message :: _ => throw (.body message)
  | .ok chunk :: rest => do
      call fun t => t.write tmp (written ++ chunk)
      writeChunks tmp (written ++ chunk) rest

def writeFiles (path tmpData tmpCt : List Name) (contentType : String)
    (body : List (Except String ByteArray)) : Fs Unit := do
  call fun t => t.write tmpData ByteArray.empty
  writeChunks tmpData ByteArray.empty body
  call fun t => t.write tmpCt ByteArray.empty
  call fun t => t.write tmpCt contentType.toUTF8
  call fun t => t.rename tmpData path
  call fun t => t.rename tmpCt (ctPathFor path)

def putStream (suffix key contentType : String) (body : List (Except String ByteArray)) :
    Fs Unit := do
  let path ← liftError (pathFor key)
  call fun t => t.mkdirs path.dropLast
  let tmpData := tmpPathFor suffix path
  let tmpCt := tmpPathFor suffix (ctPathFor path)
  tryCatch (writeFiles path tmpData tmpCt contentType body) fun e => do
    attempt fun t => t.removeFile tmpData
    attempt fun t => t.removeFile tmpCt
    throw e

def put (suffix key contentType : String) (data : ByteArray) : Fs Unit :=
  putStream suffix key contentType [.ok data]

def ignoreNotFound (f : Tree → Except IoError Tree) : Fs Unit := fun t =>
  match f t with
  | .ok t' => .ok () t'
  | .error .notFound => .ok () t
  | .error e => .error (.io e) t

def delete (key : String) : Fs Unit := do
  let path ← liftError (pathFor key)
  attempt fun t => t.removeFile (ctPathFor path)
  ignoreNotFound fun t => t.removeFile path

def deletePrefix (prefixKey : String) : Fs Unit := do
  let dir := trimEndSlashes prefixKey
  liftError (validateKey dir)
  ignoreNotFound fun t => t.removeDirAll (components dir)

/-! ## Reads -/

def octetStream : String := "application/octet-stream"

def decodeContentType (bytes : ByteArray) : String := (String.fromUTF8? bytes).getD octetStream

def readContentType (t : Tree) (ctPath : List Name) : String :=
  match t.read ctPath with
  | .ok bytes => decodeContentType bytes
  | .error _ => octetStream

def get (t : Tree) (key : String) : Except Error (Option Blob) :=
  match pathFor key with
  | .error e => .error e
  | .ok path => match t.read path with
      | .ok bytes => .ok (some ⟨readContentType t (ctPathFor path), bytes⟩)
      | .error .notFound => .ok none
      | .error e => .error (.io e)

def readToEnd : Node ByteArray → Except Error ByteArray
  | .file bytes => .ok bytes
  | .dir => .error (.io .isADirectory)

def getStream (t : Tree) (key : String) :
    Except Error (Option (String × Except Error ByteArray)) :=
  match pathFor key with
  | .error e => .error e
  | .ok path => match t.find path with
      | .ok node => .ok (some (readContentType t (ctPathFor path), readToEnd node))
      | .error .notFound => .ok none
      | .error e => .error (.io e)

structure ArchiveObject where
  key : String
  size : Nat
  file : Node ByteArray
  deriving DecidableEq

def metadataLen (dirLen : Nat) : Node ByteArray → Nat
  | .file bytes => bytes.size
  | .dir => dirLen

def openObject (dirLen : Nat) (t : Tree) (key : String) : Except Error (Option ArchiveObject) :=
  match pathFor key with
  | .error e => .error e
  | .ok path => match t.find path with
      | .ok node => .ok (some ⟨key, metadataLen dirLen node, node⟩)
      | .error .notFound => .ok none
      | .error e => .error (.io e)

def readRange (obj : ArchiveObject) (offset len : Nat) (into : ByteArray) :
    Except Error ByteArray :=
  if obj.size ≤ offset then
    .ok into
  else
    match readToEnd obj.file with
    | .error e => .error e
    | .ok bytes => .ok (into ++ bytes.extract offset (offset + min len (obj.size - offset)))

/-! ## Calls -/

inductive Op
  | put (suffix key contentType : String) (data : ByteArray)
  | putStream (suffix key contentType : String) (body : List (Except String ByteArray))
  | delete (key : String)
  | deletePrefix (prefixKey : String)

def Op.run : Op → Fs Unit
  | .put suffix key contentType data => BlobArchive.put suffix key contentType data
  | .putStream suffix key contentType body => BlobArchive.putStream suffix key contentType body
  | .delete key => BlobArchive.delete key
  | .deletePrefix prefixKey => BlobArchive.deletePrefix prefixKey

def Op.fresh (t : Tree) : Op → Bool
  | .put suffix key _ _ | .putStream suffix key _ _ =>
    (t (tmpPathFor suffix (components key))).isNone &&
      (t (tmpPathFor suffix (ctPathFor (components key)))).isNone
  | .delete _ | .deletePrefix _ => true

end Stroem.BlobArchive
