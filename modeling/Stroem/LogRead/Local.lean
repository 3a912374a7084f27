import Stroem.LogRead.Splitter

/-!
# Reads of the local log file

`{job}.jsonl`, or the legacy `{job}.log`.  A file is the snapshot of its bytes when it was opened.
A tail of one step scans backwards in windows, joining the pieces of a line that a window's edge
cuts.
-/

namespace Stroem.LogRead

inductive LocalKind
  | jsonl
  | legacy
  deriving DecidableEq

structure LocalFile where
  content : Bytes
  kind : LocalKind
  deriving DecidableEq

def LocalFile.len (f : LocalFile) : Nat :=
  f.content.length

structure LocalTail where
  logs : Bytes
  truncated : Bool
  len : Nat
  deriving DecidableEq

def readRangeExact (f : LocalFile) (start stop : Nat) : Bytes :=
  (f.content.take stop).drop start

def tailUnfiltered (f : LocalFile) (t : Nat) : Except IoError LocalTail :=
  let start := f.len - t
  -- One byte before the window tells whether its first line is complete.
  let origin := start - 1
  let buf := readRangeExact f origin f.len
  let head :=
    if start = 0 then 0
    else if buf.head? = some newline then 1
    else (position buf).elim buf.length (· + 1)
  let torn := decide (f.kind = .jsonl) && decide (head < buf.length) &&
    decide (buf.getLast? ≠ some newline)
  let stop := if torn then head + lastLineEndIn (buf.drop head) else buf.length
  (utf8 ((buf.take stop).drop head)).map fun logs =>
    { logs := logs
      truncated := decide (0 < start) || torn
      len := f.len }

/-! ## The backward scan -/

structure StepScan where
  step : Bytes
  maxLine : Nat
  kept : Bytes
  w : Nat
  firstLine : Bool
  firstLineWritten : Bool
  jsonl : Bool
  truncated : Bool
  stop : Bool
  deriving DecidableEq

def StepScan.oversize (scan : StepScan) : StepScan :=
  { scan with firstLine := false, truncated := true }

def StepScan.complete (json : SerdeJson) (scan : StepScan) (line : Bytes) : StepScan :=
  let isFirst := scan.firstLine
  let scan := { scan with firstLine := false }
  if isFirst && decide (line ≠ []) && scan.jsonl then
    -- A torn record: the writer finishes it later.
    { scan with truncated := true }
  else if line = [] then scan
  else if scan.maxLine < line.length then { scan with truncated := true }
  else if !matchesBytes json line scan.step then scan
  else if scan.w < line.length + 1 then { scan with truncated := true, stop := true }
  else
    { scan with
      w := scan.w - (line.length + 1)
      kept := line ++ newline :: scan.kept
      firstLineWritten := scan.firstLineWritten || isFirst }

structure Pending where
  bytes : Bytes
  oversize : Bool
  deriving DecidableEq

def Pending.clear : Pending :=
  ⟨[], false⟩

def Pending.prepend (p : Pending) (seg : Bytes) (maxLine : Nat) : Pending :=
  if p.oversize then p
  else if maxLine < p.bytes.length + seg.length then ⟨[], true⟩
  else ⟨seg ++ p.bytes, false⟩

def StepScan.completePending (json : SerdeJson) (scan : StepScan) (p : Pending) : StepScan :=
  if p.oversize then scan.oversize else scan.complete json p.bytes

def scanWindow (json : SerdeJson) : Nat → Bytes → Pending → StepScan → Pending × StepScan
  | 0, _, p, scan => (p, scan)
  | fuel + 1, window, p, scan =>
    if scan.stop then (p, scan)
    else
      match rposition window with
      | some k =>
        let seg := window.drop (k + 1)
        if p.bytes = [] ∧ ¬ p.oversize then
          scanWindow json fuel (window.take k) p (scan.complete json seg)
        else
          scanWindow json fuel (window.take k) Pending.clear
            (scan.completePending json (p.prepend seg scan.maxLine))
      | none => (p.prepend window scan.maxLine, scan)

structure Scanning where
  pos : Nat
  scanned : Nat
  pending : Pending
  scan : StepScan
  deriving DecidableEq

def scanWindows (json : SerdeJson) (f : LocalFile) (windowLen scanMax : Nat) :
    Nat → Scanning → Scanning
  | 0, s => s
  | fuel + 1, s =>
    if s.pos = 0 ∨ s.scan.stop then s
    else if scanMax ≤ s.scanned then { s with scan := { s.scan with truncated := true } }
    else
      let start := s.pos - windowLen
      let window := readRangeExact f start s.pos
      let r := scanWindow json (window.length + 1) window s.pending s.scan
      scanWindows json f windowLen scanMax fuel
        { pos := start
          scanned := s.scanned + (s.pos - start)
          pending := r.1
          scan := r.2 }

def StepScan.start (f : LocalFile) (step : Bytes) (t maxLine : Nat) : StepScan where
  step := step
  maxLine := maxLine
  kept := []
  -- A legacy file's last line may gain a newline.
  w := min t (f.len + 1)
  firstLine := true
  firstLineWritten := false
  jsonl := decide (f.kind = .jsonl)
  truncated := false
  stop := false

def scanTail (json : SerdeJson) (f : LocalFile) (step : Bytes) (t maxLine scanMax : Nat) :
    Scanning :=
  scanWindows json f (max (min t f.len) 1) scanMax (f.len + 1)
    { pos := f.len
      scanned := 0
      pending := Pending.clear
      scan := StepScan.start f step t maxLine }

def tailStep (json : SerdeJson) (f : LocalFile) (step : Bytes) (t maxLine scanMax : Nat) :
    Except IoError LocalTail :=
  let s := scanTail json f step t maxLine scanMax
  let scan :=
    if s.pos = 0 ∧ ¬ s.scan.stop then
      -- The file's first line has no newline before it.
      s.scan.completePending json s.pending
    else s.scan
  (utf8 scan.kept).map fun logs =>
    { logs := logs
      truncated := scan.truncated || decide (0 < s.pos)
      len := if scan.firstLineWritten then f.len + 1 else f.len }

def BudgetExhausted (json : SerdeJson) (f : LocalFile) (step : Bytes)
    (t maxLine scanMax : Nat) : Prop :=
  let s := scanTail json f step t maxLine scanMax
  0 < s.pos ∧ s.scan.stop = false

instance (json : SerdeJson) (f : LocalFile) (step : Bytes) (t maxLine scanMax : Nat) :
    Decidable (BudgetExhausted json f step t maxLine scanMax) :=
  inferInstanceAs (Decidable (_ ∧ _))

end Stroem.LogRead
