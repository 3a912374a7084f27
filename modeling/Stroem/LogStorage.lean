import Stroem.LogRead.Merge

/-!
# Log storage: tails and full reads

`read_tail` and `stream_full` each choose a source: the local file, the archived object, or the
union of both when it fits the caps.  The two calls ask the archive separately, so each has its own
answer; what the object holds does not change.
-/

namespace Stroem.LogStorage

open Stroem.LogRead

structure LogReadConfig where
  tailScanMaxBytes : Nat
  maxLineBytes : Nat
  mergeMaxBytes : Nat
  mergeMaxLines : Nat
  deriving DecidableEq

inductive LogSource
  | localFile
  | archive
  | merged
  | none
  deriving DecidableEq

structure Tail where
  logs : Bytes
  truncated : Bool
  totalBytes : Nat
  source : LogSource
  deriving DecidableEq

def Tail.empty : Tail where
  logs := []
  truncated := false
  totalBytes := 0
  source := .none

inductive Decoding
  | fails (primed : Bool)
  | decodes (reader : Reader)

structure ArchiveObject where
  isize : Option Nat
  decoding : Decoding

/-- What a call gets from `archive.open`; no archive configured is `absent`. -/
inductive ArchiveAnswer
  | failed
  | absent
  | object (obj : ArchiveObject)

/-! ## Tails -/

def combineTails (file : Option LocalTail) (archive : Option ArchiveTail) (t maxLines : Nat) :
    Tail :=
  match file, archive with
  | none, none => Tail.empty
  | some l, none =>
    { logs := l.logs, truncated := l.truncated, totalBytes := l.len, source := .localFile }
  | none, some a =>
    { logs := a.logs, truncated := a.truncated, totalBytes := a.decompressed, source := .archive }
  | some l, some a =>
    let totalBytes := l.len + a.decompressed + 2
    if maxLines < countLines l.logs + countLines a.logs then
      { logs := l.logs, truncated := true, totalBytes := totalBytes, source := .localFile }
    else
      let cut := cutFrontToLines (mergeJsonlLogs l.logs a.logs) t
      { logs := cut.1
        truncated := l.truncated || a.truncated || cut.2
        totalBytes := totalBytes
        source := .merged }

def archiveTailOf (json : SerdeJson) (obj : ArchiveObject) (filter : Option Bytes)
    (t maxLine : Nat) : Option ArchiveTail :=
  match obj.decoding with
  | .fails _ => none
  | .decodes reader =>
    match filter with
    | none => (byteRingTail reader t).toOption
    | some step => (lineRingTail json reader step t maxLine).toOption

def archiveTail (json : SerdeJson) (answer : ArchiveAnswer) (filter : Option Bytes)
    (t maxLine : Nat) : Option ArchiveTail :=
  match answer with
  | .failed => none
  | .absent => none
  | .object obj => archiveTailOf json obj filter t maxLine

def localTail (json : SerdeJson) (cfg : LogReadConfig) (f : LocalFile) (filter : Option Bytes)
    (t : Nat) : Except IoError LocalTail :=
  match filter with
  | none => tailUnfiltered f t
  | some step => tailStep json f step t cfg.maxLineBytes cfg.tailScanMaxBytes

def readTail (json : SerdeJson) (cfg : LogReadConfig) (file : Option LocalFile)
    (answer : ArchiveAnswer) (isTerminal : Bool) (filter : Option Bytes) (tailBytes : Nat) :
    Except IoError Tail := do
  let local_ ←
    match file with
    | none => pure none
    | some f => (localTail json cfg f filter tailBytes).map some
  let archive :=
    if isTerminal then archiveTail json answer filter tailBytes cfg.maxLineBytes else none
  pure (combineTails local_ archive tailBytes cfg.mergeMaxLines)

/-! ## Full reads -/

/-- What `read_merged_full` makes of one side before it counts lines: `trim_torn`, unless the file
has no line contract, and then `retain_matching_lines`. -/
def mergeInput (json : SerdeJson) (trims : Bool) (filter : Option Bytes) (maxLine : Nat)
    (buf : Bytes) : Bytes :=
  let text := if trims then (trimTorn buf).1 else buf
  match filter with
  | some step => retainMatchingLines json text step maxLine
  | none => text

def readMergedFull (json : SerdeJson) (cfg : LogReadConfig) (f : LocalFile) (obj : ArchiveObject)
    (filter : Option Bytes) : Option (Option Bytes) :=
  match obj.isize with
  | none => none
  | some isize =>
    if cfg.mergeMaxBytes < min (f.len + isize) (2 ^ 64 - 1) then some none
    else
      match obj.decoding with
      | .fails _ => none
      | .decodes reader =>
        if min reader.content.length (isize + 1) ≠ isize then some none
        else
          let l := mergeInput json (decide (f.kind = .jsonl)) filter cfg.maxLineBytes f.content
          let a := mergeInput json true filter cfg.maxLineBytes reader.content
          if cfg.mergeMaxLines < countLines l + countLines a then some none
          else if isUtf8 l && isUtf8 a then some (some (mergeJsonlLogs l a))
          else none

def streamLocal (json : SerdeJson) (cfg : LogReadConfig) (file : Option LocalFile)
    (filter : Option Bytes) : LogSource × Option Bytes :=
  match file with
  | some f => (.localFile, some (f.fullStream json filter cfg.maxLineBytes).flatten)
  | none => (.none, some [])

def streamFull (json : SerdeJson) (cfg : LogReadConfig) (file : Option LocalFile)
    (answer : ArchiveAnswer) (isTerminal : Bool) (filter : Option Bytes) :
    LogSource × Option Bytes :=
  match isTerminal, answer with
  | true, .object obj =>
    match file with
    | none =>
      match obj.decoding with
      | .fails false => streamLocal json cfg file filter
      | .fails true => (.archive, none)
      | .decodes reader =>
        (.archive, some (reader.fullStream json filter cfg.maxLineBytes).flatten)
    | some f =>
      match readMergedFull json cfg f obj filter with
      | some (some merged) => (.merged, some merged)
      | _ => streamLocal json cfg file filter
  | _, _ => streamLocal json cfg file filter

end Stroem.LogStorage
