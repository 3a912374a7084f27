import Stroem.LogRead.Agreement

/-!
# Full reads

The whole log as a stream: as stored, or the lines of one step.  A `.jsonl` file ends at its last
newline; a legacy file and an archived log are served to their last byte.
-/

namespace Stroem.LogRead

open Stroem.Foundation

def chunkSize : Nat := 64 * 1024

/-! ## The filtered stream -/

structure FilteredStream where
  sent : List Bytes
  out : Bytes
  deriving DecidableEq

def FilteredStream.push (json : SerdeJson) (step : Bytes) (keepUnterminated : Bool)
    (st : FilteredStream) (item : LineRef) : FilteredStream :=
  let out :=
    match item with
    | .skipped _ => st.out
    | .unterminated line =>
      if keepUnterminated && matchesBytes json line step then st.out ++ line ++ [newline]
      else st.out
    | .line line => if matchesBytes json line step then st.out ++ line ++ [newline] else st.out
  if out.length < chunkSize then { st with out := out }
  else { sent := st.sent ++ [out], out := [] }

def filteredStream (json : SerdeJson) (reader : Reader) (step : Bytes) (maxLine : Nat)
    (keepUnterminated : Bool) : List Bytes :=
  let st := ((LineSplitter.new reader maxLine).drain
    (FilteredStream.push json step keepUnterminated) ⟨[], []⟩).1
  if st.out = [] then st.sent else st.sent ++ [st.out]

/-! ## Local -/

def lastLineEnd (f : LocalFile) (chunk : Nat) : Nat → Nat → Nat
  | 0, _ => 0
  | fuel + 1, pos =>
    if pos = 0 then 0
    else
      let start := pos - chunk
      match rposition (readRangeExact f start pos) with
      | some i => start + i + 1
      | none => lastLineEnd f chunk fuel start

def LocalFile.fullStream (json : SerdeJson) (f : LocalFile) (step : Option Bytes)
    (maxLine : Nat) : List Bytes :=
  let stop :=
    match f.kind with
    | .jsonl => lastLineEnd f chunkSize (f.len + 1) f.len
    | .legacy => f.len
  let body := Reader.ofBytes (f.content.take stop)
  match step with
  | none => body.chunks
  | some step => filteredStream json body step maxLine (decide (f.kind = .legacy))

/-! ## Archive -/

def Reader.fullStream (json : SerdeJson) (reader : Reader) (step : Option Bytes)
    (maxLine : Nat) : List Bytes :=
  match step with
  | none => reader.chunks
  | some step => filteredStream json reader step maxLine true

/-! ## What is streamed -/

section

variable {json : SerdeJson} {step : Bytes} {maxLine : Nat}

theorem matchesBytes_nil (hjson : json [] = none) : matchesBytes json [] step = false := by
  simp [matchesBytes, lineMatchesStep, hjson]

private theorem shows_eq (hjson : json [] = none) {line : Bytes} (h : line.length ≤ maxLine) :
    shows json step maxLine line = matchesBytes json line step := by
  unfold shows
  by_cases hline : line = []
  · rw [hline, matchesBytes_nil hjson, Bool.and_false]
  · simp [hline, h]

def FilteredStream.all (st : FilteredStream) : Bytes :=
  st.sent.flatten ++ st.out

private theorem push_all (keep : Bool) (st : FilteredStream) (item : LineRef) :
    (st.push json step keep item).all = st.all ++
      match item with
      | .skipped _ => []
      | .unterminated line =>
        if keep && matchesBytes json line step then line ++ [newline] else []
      | .line line => if matchesBytes json line step then line ++ [newline] else [] := by
  have hsend : ∀ out : Bytes, (if out.length < chunkSize then { st with out := out }
      else { sent := st.sent ++ [out], out := [] } : FilteredStream).all =
        st.sent.flatten ++ out := by
    intro out
    split <;> simp [FilteredStream.all]
  unfold FilteredStream.push
  dsimp only
  rw [hsend]
  unfold FilteredStream.all
  cases item with
  | skipped n => simp
  | unterminated line =>
    dsimp only
    split <;> simp
  | line line =>
    dsimp only
    split <;> simp

variable (step maxLine) in
private theorem foldl_push_all (hjson : json [] = none) (keep : Bool) (pieces : List Bytes)
    (st : FilteredStream) :
    ((lineRefs maxLine pieces).foldl (FilteredStream.push json step keep) st).all =
      st.all ++ joinLines (shownLines json step maxLine keep pieces) := by
  induction pieces generalizing st with
  | nil => simp [lineRefs, shownLines, writtenLines]
  | cons line pieces ih =>
    cases pieces with
    | nil =>
      unfold lineRefs lastRef
      by_cases hempty : line = []
      · subst hempty
        have hhide : shows json step maxLine [] = false := by
          simp [shows]
        cases keep <;> simp [shownLines, writtenLines, hhide]
      · rw [if_neg hempty]
        by_cases hlen : line.length ≤ maxLine
        · rw [if_pos hlen, Option.toList_some, List.foldl_cons, List.foldl_nil, push_all]
          cases keep with
          | true =>
            simp only [Bool.true_and, shownLines, writtenLines, if_true, List.filter_cons,
              List.filter_nil, shows_eq hjson hlen]
            split <;> simp
          | false => simp [shownLines, writtenLines]
        · have hhide : shows json step maxLine line = false := by simp [shows, hlen]
          rw [if_neg hlen, Option.toList_some, List.foldl_cons, List.foldl_nil, push_all]
          cases keep <;> simp [shownLines, writtenLines, hhide]
    | cons next pieces =>
      have hshown : shownLines json step maxLine keep (line :: next :: pieces) =
          (if shows json step maxLine line then [line] else []) ++
            shownLines json step maxLine keep (next :: pieces) := by
        unfold shownLines writtenLines
        cases keep
        · simp only [Bool.false_eq_true, if_false, List.dropLast_cons_cons]
          rw [List.filter_cons]
          split <;> rfl
        · simp only [if_true]
          rw [List.filter_cons]
          split <;> rfl
      rw [lineRefs, List.foldl_cons, ih, push_all, hshown, joinLines_append,
        ← List.append_assoc]
      congr 2
      unfold lineRef
      by_cases hlen : line.length ≤ maxLine
      · rw [if_pos hlen, shows_eq hjson hlen]
        dsimp only
        split <;> simp
      · have hhide : shows json step maxLine line = false := by simp [shows, hlen]
        rw [if_neg hlen, hhide]
        simp

theorem flatten_filteredStream (hjson : json [] = none) (reader : Reader) (keep : Bool) :
    (filteredStream json reader step maxLine keep).flatten =
      joinLines (stepLines json step maxLine keep reader.content) := by
  obtain ⟨s, hs, -⟩ := LineSplitter.drain_new (FilteredStream.push json step keep) reader maxLine
    ⟨[], []⟩
  have hall := foldl_push_all step maxLine hjson keep
    (reader.content.splitOn newline) ⟨[], []⟩
  unfold filteredStream
  rw [hs]
  dsimp only
  unfold FilteredStream.all at hall
  split
  · rename_i hout
    rw [hout, List.append_nil] at hall
    simpa [stepLines] using hall
  · simpa [stepLines] using hall

end

theorem splitOn_take_lastLineEndIn (content : Bytes) :
    (content.take (lastLineEndIn content)).splitOn newline =
      (content.splitOn newline).dropLast ++ [[]] := by
  unfold lastLineEndIn
  cases hp : rposition content with
  | none =>
    rw [List.splitOn_eq_singleton (rposition_eq_none_iff.mp hp)]
    rfl
  | some k =>
    obtain ⟨before, after, rfl, rfl, hafter⟩ := rposition_eq_some hp
    have htake : (before ++ newline :: after).take (before.length + 1) =
        before ++ [newline] := by
      rw [List.take_append]
      simp
    rw [Option.elim_some, htake, List.splitOn_append_cons_self, List.splitOn_append_cons_self,
      List.splitOn_eq_singleton hafter, List.dropLast_concat]
    rfl

theorem stepLines_take_lastLineEndIn (json : SerdeJson) (step : Bytes) (maxLine : Nat)
    (content : Bytes) :
    stepLines json step maxLine false (content.take (lastLineEndIn content)) =
      stepLines json step maxLine false content := by
  unfold stepLines shownLines writtenLines
  simp only [Bool.false_eq_true, if_false]
  rw [splitOn_take_lastLineEndIn, List.dropLast_concat]

theorem lastLineEnd_eq {f : LocalFile} {chunk fuel pos : Nat} (hchunk : 0 < chunk)
    (hfuel : pos < fuel) (hpos : pos ≤ f.len) :
    lastLineEnd f chunk fuel pos = lastLineEndIn (f.content.take pos) := by
  induction fuel generalizing pos with
  | zero => exact absurd hfuel (Nat.not_lt_zero _)
  | succ fuel ih =>
    unfold lastLineEnd
    by_cases hzero : pos = 0
    · subst hzero
      simp [lastLineEndIn, rposition, position]
    · rw [if_neg hzero]
      dsimp only
      have hsplit : f.content.take pos =
          f.content.take (pos - chunk) ++ readRangeExact f (pos - chunk) pos := by
        have h := (List.take_append_drop (pos - chunk) (f.content.take pos)).symm
        rw [List.take_take, Nat.min_eq_left (Nat.sub_le _ _)] at h
        exact h
      unfold LocalFile.len at hpos
      have hlen : (f.content.take (pos - chunk)).length = pos - chunk := by
        rw [List.length_take]
        omega
      unfold lastLineEndIn
      rw [hsplit]
      cases hp : rposition (readRangeExact f (pos - chunk) pos) with
      | some i =>
        obtain ⟨before, after, heq, rfl, hafter⟩ := rposition_eq_some hp
        rw [heq, ← List.append_assoc, rposition_append_cons _ hafter, Option.elim_some,
          List.length_append, hlen]
      | none =>
        have hnone := rposition_eq_none_iff.mp hp
        rw [ih (by omega) (by unfold LocalFile.len; omega)]
        unfold lastLineEndIn
        cases hq : rposition (f.content.take (pos - chunk)) with
        | none =>
          have hall : rposition (f.content.take (pos - chunk) ++
              readRangeExact f (pos - chunk) pos) = none := by
            rw [rposition_eq_none_iff, List.mem_append, not_or]
            exact ⟨rposition_eq_none_iff.mp hq, hnone⟩
          rw [hall]
        | some k =>
          obtain ⟨before, after, heq, rfl, hafter⟩ := rposition_eq_some hq
          have hfree : newline ∉ after ++ readRangeExact f (pos - chunk) pos := by
            rw [List.mem_append, not_or]
            exact ⟨hafter, hnone⟩
          rw [heq, List.append_assoc, List.cons_append, rposition_append_cons _ hfree]

def LocalFile.fullText (json : SerdeJson) (f : LocalFile) (step : Option Bytes)
    (maxLine : Nat) : Bytes :=
  match step with
  | none => if f.keepsUnterminated then f.content else f.content.take (lastLineEndIn f.content)
  | some step => joinLines (stepLines json step maxLine f.keepsUnterminated f.content)

theorem LocalFile.flatten_fullStream {json : SerdeJson} (hjson : json [] = none) (f : LocalFile)
    (step : Option Bytes) (maxLine : Nat) :
    (f.fullStream json step maxLine).flatten = f.fullText json step maxLine := by
  have hbytes : ∀ content, (Reader.ofBytes content).chunks.flatten = content :=
    Reader.content_ofBytes
  unfold LocalFile.fullStream LocalFile.fullText LocalFile.keepsUnterminated
  dsimp only
  cases hkind : f.kind with
  | legacy =>
    simp only [decide_true, if_true, LocalFile.len, List.take_length]
    cases step with
    | none => exact hbytes f.content
    | some step =>
      dsimp only
      rw [flatten_filteredStream hjson, Reader.content_ofBytes]
  | jsonl =>
    have hend : lastLineEnd f chunkSize (f.len + 1) f.len = lastLineEndIn f.content := by
      rw [lastLineEnd_eq (by simp [chunkSize]) (Nat.lt_succ_self _) le_rfl, LocalFile.len,
        List.take_length]
    simp only [hend, reduceCtorEq, decide_false, Bool.false_eq_true, if_false]
    cases step with
    | none => exact hbytes _
    | some step =>
      dsimp only
      rw [flatten_filteredStream hjson, Reader.content_ofBytes, stepLines_take_lastLineEndIn]

def storedText (json : SerdeJson) (content : Bytes) (step : Option Bytes) (maxLine : Nat) :
    Bytes :=
  match step with
  | none => content
  | some step => joinLines (stepLines json step maxLine true content)

theorem Reader.flatten_fullStream {json : SerdeJson} (hjson : json [] = none) (reader : Reader)
    (step : Option Bytes) (maxLine : Nat) :
    (reader.fullStream json step maxLine).flatten =
      storedText json reader.content step maxLine := by
  cases step with
  | none => rfl
  | some step => exact flatten_filteredStream hjson reader true

end Stroem.LogRead
