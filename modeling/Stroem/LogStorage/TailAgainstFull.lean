import Stroem.LogStorage.TailText

/-!
# Tails against full reads

A tail that reports nothing left out is the full read of the same source, and a local tail is
always its end.  The one exception is the union of a legacy file with the archive, when a step's
tail ends in the file's unterminated last line and that line ends with a carriage return: the tail
adds a newline to it, `str::lines` then takes both off, and the full read keeps the return.
-/

namespace Stroem.LogStorage

open Stroem.Foundation Stroem.LogRead

variable {json : SerdeJson}

/-! ## What the union is made of -/

def fileInput (json : SerdeJson) (maxLine : Nat) (filter : Option Bytes) (f : LocalFile) : Bytes :=
  mergeInput json (decide (f.kind = .jsonl)) filter maxLine f.content

theorem readMergedFull_spec {cfg : LogReadConfig} {f : LocalFile} {obj : ArchiveObject}
    {filter : Option Bytes} {merged : Bytes}
    (h : readMergedFull json cfg f obj filter = some (some merged)) :
    ∃ reader, obj.decoding = .decodes reader ∧
      merged = mergeJsonlLogs (fileInput json cfg.maxLineBytes filter f)
        (fileInput json cfg.maxLineBytes filter (archivedFile reader.content)) := by
  unfold readMergedFull at h
  split at h
  · cases h
  · split at h
    · cases h
    · split at h
      · cases h
      · rename_i reader hdec
        split at h
        · cases h
        · dsimp only at h
          split at h
          · cases h
          · split at h
            · exact ⟨reader, hdec, (Option.some.inj (Option.some.inj h)).symm⟩
            · cases h

theorem trims_eq (f : LocalFile) : decide (f.kind = .jsonl) = !f.keepsUnterminated := by
  unfold LocalFile.keepsUnterminated
  cases f.kind <;> rfl

theorem fileInput_of_terminated (hjson : json [] = none) (maxLine : Nat)
    (filter : Option Bytes) {f : LocalFile} (h : f.keepsUnterminated = false) :
    fileInput json maxLine filter f = f.fullText json filter maxLine := by
  unfold fileInput mergeInput LocalFile.fullText
  rw [trims_eq, h]
  simp only [Bool.not_false, if_true, Bool.false_eq_true, if_false]
  rw [trimTorn_fst]
  cases filter with
  | none => rfl
  | some step =>
    have htorn : tornEnd (f.content.take (lastLineEndIn f.content)) = [] := by
      unfold tornEnd
      rw [splitOn_take_lastLineEndIn, List.getLastD_concat]
    dsimp only
    rw [retainMatchingLines_eq hjson, htorn, stepLines_take_lastLineEndIn]
    simp

/-! ## The carriage return of an unterminated last line -/

def earlierLines (json : SerdeJson) (step : Bytes) (maxLine : Nat) (f : LocalFile) : List Bytes :=
  (stepLines json step maxLine false f.content).map stripCr

/--
The step's last line in a legacy file has no newline and ends with a carriage return, nothing of
the file is left out, and the merge has not seen the line both with the return and without it.
-/
structure LosesCr (json : SerdeJson) (step : Bytes) (maxLine : Nat) (f : LocalFile) : Prop where
  legacy : f.keepsUnterminated = true
  complete : leavesOut maxLine true (f.content.splitOn newline) = false
  shown : shows json step maxLine (tornEnd f.content) = true
  cr : (tornEnd f.content).getLast? = some carriageReturn
  fresh : ¬ (tornEnd f.content ∈ earlierLines json step maxLine f ∧
    ((tornEnd f.content).dropLast = [] ∨
      (tornEnd f.content).dropLast ∈ earlierLines json step maxLine f))

theorem not_mem_of_mem_stepLines {step : Bytes} {maxLine : Nat} {keep : Bool} {content line : Bytes}
    (h : line ∈ stepLines json step maxLine keep content) : newline ∉ line := by
  unfold stepLines shownLines writtenLines at h
  have hmem := List.mem_of_mem_filter h
  split at hmem
  · exact not_mem_of_mem_splitOn hmem
  · exact not_mem_of_mem_splitOn (List.mem_of_mem_dropLast hmem)

private theorem stepLines_true (step : Bytes) (maxLine : Nat) (content : Bytes) :
    stepLines json step maxLine true content =
      stepLines json step maxLine false content ++
        if shows json step maxLine (tornEnd content) then [tornEnd content] else [] := by
  have hlast := List.dropLast_append_getLast (List.splitOn_ne_nil newline content)
  have htorn : tornEnd content =
      (content.splitOn newline).getLast (List.splitOn_ne_nil newline content) := by
    unfold tornEnd
    rw [List.getLastD_eq_getLast?, List.getLast?_eq_some_getLast (List.splitOn_ne_nil _ _)]
    rfl
  unfold stepLines shownLines writtenLines
  simp only [if_true, Bool.false_eq_true, if_false]
  conv_lhs => rw [← hlast]
  rw [List.filter_append, htorn, List.filter_cons, List.filter_nil]

section Legacy

variable {step : Bytes} {maxLine : Nat} {f : LocalFile}

private theorem strLines_fullText (hkeep : f.keepsUnterminated = true) :
    strLines (f.fullText json (some step) maxLine) =
      earlierLines json step maxLine f ++
        if shows json step maxLine (tornEnd f.content) then [stripCr (tornEnd f.content)]
        else [] := by
  have hfree : ∀ line ∈ stepLines json step maxLine true f.content, newline ∉ line :=
    fun _ h => not_mem_of_mem_stepLines h
  have hlines := strLines_joinLines_append hfree List.not_mem_nil
  unfold LocalFile.fullText
  rw [hkeep]
  rw [List.append_nil, if_pos rfl, List.append_nil] at hlines
  dsimp only
  rw [hlines, stepLines_true, List.map_append]
  unfold earlierLines
  congr 1
  split <;> rfl

private theorem strLines_fileInput (hjson : json [] = none)
    (hkeep : f.keepsUnterminated = true) :
    strLines (fileInput json maxLine (some step) f) =
      earlierLines json step maxLine f ++
        if shows json step maxLine (tornEnd f.content) then [tornEnd f.content] else [] := by
  have hfree : ∀ line ∈ stepLines json step maxLine false f.content, newline ∉ line :=
    fun _ h => not_mem_of_mem_stepLines h
  unfold fileInput mergeInput
  rw [trims_eq, hkeep]
  dsimp only
  rw [Bool.not_true, if_neg (by simp), retainMatchingLines_eq hjson]
  by_cases hshow : shows json step maxLine (tornEnd f.content) = true
  · have hne : tornEnd f.content ≠ [] := by
      intro hnil
      rw [hnil] at hshow
      simp [shows] at hshow
    rw [if_pos hshow, if_pos hshow,
      strLines_joinLines_append hfree (newline_not_mem_tornEnd _), if_neg hne]
    rfl
  · rw [if_neg hshow, if_neg hshow, strLines_joinLines_append hfree List.not_mem_nil]
    rfl

theorem mergeLines_fullText (hjson : json [] = none) (hkeep : f.keepsUnterminated = true)
    (hcomplete : leavesOut maxLine true (f.content.splitOn newline) = false)
    (hcr : ¬ LosesCr json step maxLine f) (others : List Bytes) :
    mergeLines (strLines (f.fullText json (some step) maxLine) ++ others) =
      mergeLines (strLines (fileInput json maxLine (some step) f) ++ others) := by
  rw [strLines_fullText hkeep, strLines_fileInput hjson hkeep]
  by_cases hshow : shows json step maxLine (tornEnd f.content) = true
  · rw [if_pos hshow, if_pos hshow]
    by_cases hlast : (tornEnd f.content).getLast? = some carriageReturn
    · have hold : tornEnd f.content ∈ earlierLines json step maxLine f ∧
          ((tornEnd f.content).dropLast = [] ∨
            (tornEnd f.content).dropLast ∈ earlierLines json step maxLine f) := by
        by_contra hfresh
        exact hcr ⟨hkeep, hcomplete, hshow, hlast, hfresh⟩
      have hstrip : stripCr (tornEnd f.content) = (tornEnd f.content).dropLast := if_pos hlast
      rw [hstrip, List.append_assoc, List.append_assoc, List.singleton_append,
        List.singleton_append, mergeLines_of_mem hold.2, mergeLines_of_mem (.inr hold.1)]
    · have hstrip : stripCr (tornEnd f.content) = tornEnd f.content := if_neg hlast
      rw [hstrip]
  · rw [if_neg hshow, if_neg hshow]

theorem mergeLines_fullText_ne (hjson : json [] = none) (hcr : LosesCr json step maxLine f) :
    mergeLines (strLines (f.fullText json (some step) maxLine)) ≠
      mergeLines (strLines (fileInput json maxLine (some step) f)) := by
  obtain ⟨hkeep, -, hshow, hlast, hfresh⟩ := hcr
  have hstrip : stripCr (tornEnd f.content) = (tornEnd f.content).dropLast := if_pos hlast
  have hne : tornEnd f.content ≠ [] := by
    intro hnil
    rw [hnil] at hlast
    simp at hlast
  have hshorter : (tornEnd f.content).dropLast ≠ tornEnd f.content := by
    intro heq
    have hlen := congrArg List.length heq
    have hpos := List.length_pos_iff.mpr hne
    rw [List.length_dropLast] at hlen
    omega
  rw [strLines_fullText hkeep, strLines_fileInput hjson hkeep, if_pos hshow, if_pos hshow, hstrip]
  intro heq
  have hmem : ∀ line, line ∈ mergeLines (earlierLines json step maxLine f ++
      [(tornEnd f.content).dropLast]) ↔ line ∈ mergeLines (earlierLines json step maxLine f ++
      [tornEnd f.content]) := fun line => by rw [heq]
  simp only [mem_mergeLines, List.mem_append, List.mem_singleton] at hmem
  apply hfresh
  constructor
  · obtain ⟨hin | hsame, -⟩ := (hmem (tornEnd f.content)).mpr ⟨.inr rfl, hne⟩
    · exact hin
    · exact absurd hsame.symm hshorter
  · by_cases hnil : (tornEnd f.content).dropLast = []
    · exact .inl hnil
    · obtain ⟨hin | hsame, -⟩ := (hmem (tornEnd f.content).dropLast).mp ⟨.inr rfl, hnil⟩
      · exact .inr hin
      · exact absurd hsame hshorter

end Legacy

/-! ## Tails and full reads -/

def ArchiveAnswer.content : ArchiveAnswer → Option Bytes
  | .object ⟨_, .decodes reader⟩ => some reader.content
  | _ => none

def SameObject (a₁ a₂ : ArchiveAnswer) : Prop :=
  ∀ c₁ c₂, a₁.content = some c₁ → a₂.content = some c₂ → c₁ = c₂

/-- `text` begins at a line start of what its source holds: of the step's lines when there is a
filter, and for a union of the merged lines of two such tails. -/
def BeginsAtLineStart (json : SerdeJson) (maxLine : Nat) (file : Option LocalFile)
    (answer : ArchiveAnswer) (filter : Option Bytes) : LogSource → Bytes → Prop
  | .localFile, text => ∃ f, file = some f ∧ StartsLine (f.fullText json filter maxLine) text
  | .archive, text => ∃ c, answer.content = some c ∧
      StartsLine ((archivedFile c).fullText json filter maxLine) text
  | .merged, text => ∃ f c l a, file = some f ∧ answer.content = some c ∧
      StartsLine (f.fullText json filter maxLine) l ∧
      StartsLine ((archivedFile c).fullText json filter maxLine) a ∧
      StartsLine (mergeJsonlLogs l a) text
  | .none, text => text = []

structure Agrees (json : SerdeJson) (maxLine : Nat) (file : Option LocalFile)
    (answer : ArchiveAnswer) (filter : Option Bytes) (t : Nat) (tail : Tail)
    (full : LogSource × Option Bytes) : Prop where
  atMost : tail.logs.length ≤ t
  lineStart : BeginsAtLineStart json maxLine file answer filter tail.source tail.logs
  whole : ∀ text, full = (tail.source, some text) → tail.truncated = false → tail.logs = text
  suffix : ∀ text, full = (.localFile, some text) → tail.source = .localFile → tail.logs <:+ text

/-- Every tail of a log agrees with every full read of it, whatever the size of the tail, the caps
and what the archive answers. -/
def AlwaysAgrees (json : SerdeJson) (maxLine : Nat) (file : Option LocalFile)
    (filter : Option Bytes) : Prop :=
  ∀ (cfg : LogReadConfig) (t : Nat) (a₁ a₂ : ArchiveAnswer) (terminal₁ terminal₂ : Bool)
    (tail : Tail), cfg.maxLineBytes = maxLine → SameObject a₁ a₂ →
    readTail json cfg file a₁ terminal₁ filter t = .ok tail →
    Agrees json maxLine file a₁ filter t tail (streamFull json cfg file a₂ terminal₂ filter)

section Full

variable {cfg : LogReadConfig} {file : Option LocalFile} {answer : ArchiveAnswer}
  {terminal : Bool} {filter : Option Bytes} {text : Bytes}

theorem streamFull_cases :
    streamFull json cfg file answer terminal filter = streamLocal json cfg file filter ∨
    streamFull json cfg file answer terminal filter = (.archive, none) ∨
    (∃ reader : Reader, file = none ∧ answer.content = some reader.content ∧
      streamFull json cfg file answer terminal filter =
        (.archive, some (reader.fullStream json filter cfg.maxLineBytes).flatten)) ∨
    ∃ f obj merged, file = some f ∧ answer = .object obj ∧
      readMergedFull json cfg f obj filter = some (some merged) ∧
      streamFull json cfg file answer terminal filter = (.merged, some merged) := by
  cases terminal with
  | false => exact .inl rfl
  | true =>
    cases answer with
    | failed => exact .inl rfl
    | absent => exact .inl rfl
    | object obj =>
      cases file with
      | none =>
        obtain ⟨isize, decoding⟩ := obj
        cases decoding with
        | fails primed =>
          cases primed with
          | false => exact .inl rfl
          | true => exact .inr (.inl rfl)
        | decodes reader => exact .inr (.inr (.inl ⟨reader, rfl, rfl, rfl⟩))
      | some f =>
        unfold streamFull
        dsimp only
        cases hmerged : readMergedFull json cfg f obj filter with
        | none => exact .inl rfl
        | some merged =>
          cases merged with
          | none => exact .inl rfl
          | some merged => exact .inr (.inr (.inr ⟨f, obj, merged, rfl, rfl, hmerged, rfl⟩))

theorem streamLocal_cases (hjson : json [] = none) :
    (∃ f, file = some f ∧ streamLocal json cfg file filter =
        (.localFile, some (f.fullText json filter cfg.maxLineBytes))) ∨
      streamLocal json cfg file filter = (.none, some []) := by
  cases file with
  | none => exact .inr rfl
  | some f =>
    refine .inl ⟨f, rfl, ?_⟩
    unfold streamLocal
    dsimp only
    rw [LocalFile.flatten_fullStream hjson]

theorem streamFull_text (hjson : json [] = none) {source : LogSource}
    (h : streamFull json cfg file answer terminal filter = (source, some text)) :
    match source with
    | .localFile => ∃ f, file = some f ∧ text = f.fullText json filter cfg.maxLineBytes
    | .archive => ∃ c, answer.content = some c ∧
        text = storedText json c filter cfg.maxLineBytes
    | .merged => ∃ f c, file = some f ∧ answer.content = some c ∧
        text = mergeJsonlLogs (fileInput json cfg.maxLineBytes filter f)
          (fileInput json cfg.maxLineBytes filter (archivedFile c))
    | .none => text = [] := by
  obtain hlocal | hfails | ⟨reader, -, hcontent, harchive⟩ | ⟨f, obj, merged, hf, hobj, hmerged,
    hfull⟩ := streamFull_cases
  · rw [hlocal] at h
    obtain ⟨f, hf, hstream⟩ | hstream := streamLocal_cases
      hjson
    · rw [hstream] at h
      cases h
      exact ⟨f, hf, rfl⟩
    · rw [hstream] at h
      cases h
      rfl
  · rw [hfails] at h
    cases h
  · rw [harchive] at h
    cases h
    exact ⟨reader.content, hcontent, Reader.flatten_fullStream hjson reader filter _⟩
  · rw [hfull] at h
    cases h
    obtain ⟨reader, hdec, htext⟩ := readMergedFull_spec hmerged
    refine ⟨f, reader.content, hf, ?_, htext⟩
    obtain ⟨isize, decoding⟩ := obj
    dsimp only at hdec
    rw [hobj, hdec]
    rfl

theorem readTail_cases {t : Nat} {tail : Tail}
    (h : readTail json cfg file answer terminal filter t = .ok tail) :
    (tail = Tail.empty) ∨
    (∃ f l, file = some f ∧ localTail json cfg f filter t = .ok l ∧
      tail.source = .localFile ∧ tail.logs = l.logs ∧
      (tail.truncated = false → l.truncated = false)) ∨
    (∃ obj a, answer = .object obj ∧ archiveTailOf json obj filter t cfg.maxLineBytes = some a ∧
      tail.source = .archive ∧ tail.logs = a.logs ∧ tail.truncated = a.truncated) ∨
    ∃ f l obj a, file = some f ∧ localTail json cfg f filter t = .ok l ∧ answer = .object obj ∧
      archiveTailOf json obj filter t cfg.maxLineBytes = some a ∧ tail.source = .merged ∧
      tail.logs = (cutFrontToLines (mergeJsonlLogs l.logs a.logs) t).1 ∧
      tail.truncated = (l.truncated || a.truncated ||
        (cutFrontToLines (mergeJsonlLogs l.logs a.logs) t).2) := by
  have harchive : ∀ a, (if terminal = true then
        archiveTail json answer filter t cfg.maxLineBytes else none) = some a →
      ∃ obj, answer = .object obj ∧ archiveTailOf json obj filter t cfg.maxLineBytes = some a := by
    intro a ha
    split at ha
    · unfold archiveTail at ha
      cases answer with
      | failed => cases ha
      | absent => cases ha
      | object obj => exact ⟨obj, rfl, ha⟩
    · cases ha
  unfold readTail at h
  simp only [bind, Except.bind, pure, Except.pure] at h
  cases file with
  | none =>
    simp only [Except.ok.injEq] at h
    subst h
    cases ha : (if terminal = true then
        archiveTail json answer filter t cfg.maxLineBytes else none) with
    | none => exact .inl rfl
    | some a =>
      obtain ⟨obj, hobj, htail⟩ := harchive a ha
      exact .inr (.inr (.inl ⟨obj, a, hobj, htail, rfl, rfl, rfl⟩))
  | some f =>
    dsimp only at h
    cases hl : localTail json cfg f filter t with
    | error e =>
      rw [hl] at h
      cases h
    | ok l =>
      rw [hl] at h
      simp only [Except.map, Except.ok.injEq] at h
      subst h
      cases ha : (if terminal = true then
          archiveTail json answer filter t cfg.maxLineBytes else none) with
      | none => exact .inr (.inl ⟨f, l, rfl, hl, rfl, rfl, id⟩)
      | some a =>
        obtain ⟨obj, hobj, htail⟩ := harchive a ha
        unfold combineTails
        dsimp only
        by_cases hcap : cfg.mergeMaxLines < countLines l.logs + countLines a.logs
        · rw [if_pos hcap]
          exact .inr (.inl ⟨f, l, rfl, hl, rfl, rfl, fun h => absurd h (by simp)⟩)
        · rw [if_neg hcap]
          exact .inr (.inr (.inr ⟨f, l, obj, a, rfl, hl, hobj, htail, rfl, rfl, rfl⟩))

end Full

theorem storedText_eq {maxLine : Nat} {filter : Option Bytes} {c : Bytes}
    (h : NothingLost maxLine (archivedFile c) filter) :
    storedText json c filter maxLine = (archivedFile c).fullText json filter maxLine := by
  have hkeep : (archivedFile c).keepsUnterminated = false := rfl
  unfold NothingLost at h
  unfold storedText LocalFile.fullText
  rw [hkeep] at h ⊢
  cases filter with
  | none => exact (take_lastLineEndIn_of_tornEnd (h rfl)).symm
  | some step =>
    have htorn : tornEnd c = [] := by
      obtain ⟨-, hlast⟩ := Bool.or_eq_false_iff.mp h
      have hlast : ((c.splitOn newline).getLast?.any fun rest => decide (rest ≠ [])) = false :=
        hlast
      unfold tornEnd
      rw [List.getLastD_eq_getLast?]
      cases hp : (c.splitOn newline).getLast? with
      | none => rfl
      | some rest =>
        rw [hp] at hlast
        simpa using hlast
    dsimp only
    rw [stepLines_true, htorn]
    simp [shows, archivedFile]

theorem mergeJsonlLogs_fullText (hjson : json [] = none) {maxLine : Nat} {f : LocalFile} {c : Bytes}
    {filter : Option Bytes} (hlost : NothingLost maxLine f filter)
    (hcr : ∀ step, filter = some step → ¬ LosesCr json step maxLine f) :
    mergeJsonlLogs (f.fullText json filter maxLine)
        ((archivedFile c).fullText json filter maxLine) =
      mergeJsonlLogs (fileInput json maxLine filter f)
        (fileInput json maxLine filter (archivedFile c)) := by
  rw [fileInput_of_terminated hjson maxLine filter (f := archivedFile c) rfl]
  cases hkeep : f.keepsUnterminated with
  | false => rw [fileInput_of_terminated hjson maxLine filter hkeep]
  | true =>
    cases filter with
    | none =>
      have hsame : f.fullText json none maxLine = fileInput json maxLine none f := by
        unfold LocalFile.fullText fileInput mergeInput
        rw [trims_eq, hkeep]
        rfl
      rw [hsame]
    | some step =>
      unfold NothingLost at hlost
      rw [hkeep] at hlost
      unfold mergeJsonlLogs
      rw [mergeLines_fullText hjson hkeep hlost (hcr step rfl)]

theorem alwaysAgrees_of_not_losesCr (hjson : json [] = none) {maxLine : Nat}
    {file : Option LocalFile} {filter : Option Bytes}
    (hcr : ∀ f step, file = some f → filter = some step → ¬ LosesCr json step maxLine f) :
    AlwaysAgrees json maxLine file filter := by
  rintro cfg t a₁ a₂ terminal₁ terminal₂ tail rfl hsame htail
  obtain rfl | ⟨f, l, rfl, hl, hsource, hlogs, htrunc⟩ | ⟨obj, a, rfl, ha, hsource, hlogs, htrunc⟩ |
    ⟨f, l, obj, a, rfl, hl, rfl, ha, hsource, hlogs, htrunc⟩ := readTail_cases htail
  · refine ⟨Nat.zero_le t, rfl, fun text h _ => ?_, fun text _ h => absurd h (by simp [Tail.empty])⟩
    exact (streamFull_text hjson h).symm
  · obtain ⟨hlen, hsuffix, hwhole⟩ := localTail_spec hl
    rw [← hlogs] at hlen hsuffix
    refine ⟨hlen, ?_, fun text h ht => ?_, fun text h _ => ?_⟩
    · rw [hsource]
      exact ⟨f, rfl, hsuffix.startsLine⟩
    · rw [hsource] at h
      obtain ⟨f', hf', rfl⟩ := streamFull_text hjson h
      cases hf'
      rw [hlogs]
      exact (hwhole (htrunc ht)).1
    · obtain ⟨f', hf', rfl⟩ := streamFull_text hjson h
      cases hf'
      exact hsuffix.suffix
  · obtain ⟨reader, hdec, hlen, hsuffix, hwhole⟩ := archiveTailOf_spec ha
    have hcontent : (ArchiveAnswer.object obj).content = some reader.content := by
      obtain ⟨isize, decoding⟩ := obj
      dsimp only at hdec
      rw [hdec]
      rfl
    rw [← hlogs] at hlen hsuffix
    refine ⟨hlen, ?_, fun text h ht => ?_, fun text _ h => ?_⟩
    · rw [hsource]
      exact ⟨reader.content, hcontent, hsuffix.startsLine⟩
    · rw [hsource] at h
      obtain ⟨c, hc, rfl⟩ := streamFull_text hjson h
      cases hsame _ _ hcontent hc
      rw [htrunc] at ht
      obtain ⟨hall, hlost⟩ := hwhole ht
      rw [hlogs, hall, storedText_eq hlost]
    · rw [hsource] at h
      cases h
  · obtain ⟨-, hsuffix, hwhole⟩ := localTail_spec hl
    obtain ⟨reader, hdec, -, hsuffixA, hwholeA⟩ := archiveTailOf_spec ha
    have hcontent : (ArchiveAnswer.object obj).content = some reader.content := by
      obtain ⟨isize, decoding⟩ := obj
      dsimp only at hdec
      rw [hdec]
      rfl
    obtain ⟨hcut, hstart, huncut⟩ := cutFrontToLines_spec (mergeJsonlLogs l.logs a.logs) t
    refine ⟨by rw [hlogs]; exact hcut, ?_, fun text h ht => ?_, fun text _ h => ?_⟩
    · rw [hsource, hlogs]
      exact ⟨f, reader.content, l.logs, a.logs, rfl, hcontent, hsuffix.startsLine,
        hsuffixA.startsLine, hstart⟩
    · rw [hsource] at h
      obtain ⟨f', c, hf', hc, rfl⟩ := streamFull_text hjson h
      cases hf'
      cases hsame _ _ hcontent hc
      rw [htrunc, Bool.or_eq_false_iff, Bool.or_eq_false_iff] at ht
      obtain ⟨⟨hl', ha'⟩, hcut'⟩ := ht
      obtain ⟨hallL, hlost⟩ := hwhole hl'
      obtain ⟨hallA, -⟩ := hwholeA ha'
      rw [hlogs, (huncut hcut').1, hallL, hallA]
      exact mergeJsonlLogs_fullText hjson hlost fun step hstep => hcr f step rfl hstep
    · rw [hsource] at h
      cases h

/-! ## The exception shows -/

def emptyObject : ArchiveAnswer :=
  .object ⟨some 0, .decodes (Reader.ofBytes [])⟩

section Exception

variable {step : Bytes} {maxLine : Nat} {f : LocalFile}

private def roomy (json : SerdeJson) (step : Bytes) (maxLine : Nat) (f : LocalFile) :
    LogReadConfig where
  tailScanMaxBytes := f.len
  maxLineBytes := maxLine
  mergeMaxBytes := f.len
  mergeMaxLines := countLines (f.fullText json (some step) maxLine) +
    countLines (fileInput json maxLine (some step) f) + countLines []

private theorem localTail_roomy (hcr : LosesCr json step maxLine f) {t : Nat}
    (ht : f.len + 1 ≤ t) :
    ∃ l, localTail json (roomy json step maxLine f) f (some step) t = .ok l ∧
      l.logs = f.fullText json (some step) maxLine ∧ l.truncated = false := by
  have hbudget : ¬ BudgetExhausted json f step t maxLine f.len := not_budgetExhausted le_rfl
  have heq := tailStep_eq f step t maxLine f.len hbudget
  have hroom := totalWeight_stepLines_le json step maxLine f.keepsUnterminated f.content
  unfold LocalFile.len at ht
  have hall : newestWithin lineSize t (stepLines json step maxLine f.keepsUnterminated f.content) =
      stepLines json step maxLine f.keepsUnterminated f.content :=
    newestWithin_of_le (by omega)
  have hvalid : isUtf8 (joinLines
      (stepLines json step maxLine f.keepsUnterminated f.content)) = true :=
    isUtf8_joinLines fun line hline => isUtf8_of_mem_stepLines hline
  have hlost := hcr.complete
  rw [← hcr.legacy] at hlost
  rw [hall, utf8_map_eq_ok.mpr ⟨hvalid, rfl⟩, hlost, decide_eq_false (by omega)] at heq
  cases hl : tailStep json f step t maxLine f.len with
  | error e =>
    rw [hl] at heq
    cases heq
  | ok l =>
    rw [hl] at heq
    obtain ⟨hlogs, htrunc⟩ := Prod.mk.inj (Except.ok.inj heq)
    exact ⟨l, hl, hlogs, htrunc⟩

variable (json step maxLine) in
private theorem archiveTailOf_empty (t : Nat) :
    archiveTailOf json ⟨some 0, .decodes (Reader.ofBytes [])⟩ (some step) t maxLine =
      some ⟨[], false, 0⟩ := by
  obtain ⟨s, hs, hconsumed⟩ := LineSplitter.drain_new (LineRing.push json step t)
    (Reader.ofBytes []) maxLine ⟨[], false⟩
  unfold archiveTailOf lineRingTail
  dsimp only
  rw [hs]
  simp [lineRefs, lastRef, utf8, isUtf8, Except.map, Except.toOption, hconsumed]

private theorem readMergedFull_roomy (hjson : json [] = none) (hcr : LosesCr json step maxLine f) :
    readMergedFull json (roomy json step maxLine f) f ⟨some 0, .decodes (Reader.ofBytes [])⟩
        (some step) =
      some (some (mergeJsonlLogs (fileInput json maxLine (some step) f) [])) := by
  have hempty : mergeInput json true (some step) maxLine [] = [] := by
    unfold mergeInput
    dsimp only
    rw [if_pos rfl, retainMatchingLines_eq hjson]
    simp [trimTorn, stepLines, shownLines, writtenLines, tornEnd]
  have hvalid : isUtf8 (fileInput json maxLine (some step) f) = true := by
    have htorn : isUtf8 (tornEnd f.content) = true := by
      have hshow := hcr.shown
      unfold shows matchesBytes at hshow
      simp only [Bool.and_eq_true] at hshow
      exact hshow.2.1
    unfold fileInput mergeInput
    dsimp only
    rw [trims_eq, hcr.legacy, Bool.not_true, if_neg (by simp), retainMatchingLines_eq hjson,
      if_pos hcr.shown]
    exact isUtf8_append (isUtf8_joinLines fun line hline => isUtf8_of_mem_stepLines hline) htorn
  have hroom : ¬ (roomy json step maxLine f).mergeMaxBytes < min (f.len + 0) (2 ^ 64 - 1) := by
    have hmin := Nat.min_le_left (f.len + 0) (2 ^ 64 - 1)
    unfold roomy
    dsimp only
    omega
  have hcount : ¬ (roomy json step maxLine f).mergeMaxLines <
      countLines (fileInput json maxLine (some step) f) + countLines [] := by
    unfold roomy
    dsimp only
    omega
  unfold readMergedFull
  dsimp only
  rw [if_neg hroom, Reader.content_ofBytes]
  simp only [List.length_nil, Nat.zero_min, ne_eq, not_true, if_false]
  rw [show (roomy json step maxLine f).maxLineBytes = maxLine from rfl, hempty]
  rw [show mergeInput json (decide (f.kind = .jsonl)) (some step) maxLine f.content =
    fileInput json maxLine (some step) f from rfl, if_neg hcount, hvalid]
  rfl

theorem not_alwaysAgrees_of_losesCr (hjson : json [] = none) (hcr : LosesCr json step maxLine f) :
    ¬ AlwaysAgrees json maxLine (some f) (some step) := by
  intro hagrees
  have hne := mergeLines_fullText_ne hjson hcr
  obtain ⟨l, hl, hlogs, htrunc⟩ := localTail_roomy hcr
    (t := f.len + 1 + (mergeJsonlLogs (f.fullText json (some step) maxLine) []).length)
    (Nat.le_add_right _ _)
  have ha := archiveTailOf_empty json step maxLine
    (f.len + 1 + (mergeJsonlLogs (f.fullText json (some step) maxLine) []).length)
  have hcount : ¬ (roomy json step maxLine f).mergeMaxLines < countLines l.logs +
      countLines [] := by
    rw [hlogs]
    unfold roomy
    dsimp only
    omega
  have hcut : cutFrontToLines (mergeJsonlLogs l.logs []) (f.len + 1 +
      (mergeJsonlLogs (f.fullText json (some step) maxLine) []).length) =
      (mergeJsonlLogs l.logs [], false) := by
    unfold cutFrontToLines
    rw [if_pos (by rw [hlogs]; omega)]
  have htail : readTail json (roomy json step maxLine f) (some f) emptyObject true (some step)
      (f.len + 1 + (mergeJsonlLogs (f.fullText json (some step) maxLine) []).length) =
      .ok { logs := mergeJsonlLogs l.logs [], truncated := false,
            totalBytes := l.len + 0 + 2, source := .merged } := by
    unfold readTail archiveTail emptyObject combineTails
    dsimp only
    rw [hl, show (roomy json step maxLine f).maxLineBytes = maxLine from rfl, ha]
    simp only [bind, Except.bind, pure, Except.pure, Except.map, if_true]
    rw [if_neg hcount, hcut, htrunc]
    rfl
  have hfull : streamFull json (roomy json step maxLine f) (some f) emptyObject true (some step) =
      (.merged, some (mergeJsonlLogs (fileInput json maxLine (some step) f) [])) := by
    unfold streamFull emptyObject
    dsimp only
    rw [readMergedFull_roomy hjson hcr]
  have hsame : SameObject emptyObject emptyObject := by
    intro c₁ c₂ h₁ h₂
    exact Option.some.inj (h₁.symm.trans h₂)
  have hwhole := (hagrees _ _ emptyObject emptyObject true true _ rfl hsame htail).whole _ hfull rfl
  dsimp only at hwhole
  rw [hlogs] at hwhole
  unfold mergeJsonlLogs at hwhole
  have hnil : strLines [] = [] := rfl
  rw [hnil, List.append_nil, List.append_nil] at hwhole
  exact hne (joinLines_injective (fun _ h => newline_not_mem_mergeLines h)
    (fun _ h => newline_not_mem_mergeLines h) hwhole)

end Exception

/--
Tails agree with full reads, for every tail size, all caps and whatever the archive holds, exactly
when the local file is not at the exception.
-/
theorem tail_agrees_iff (json : SerdeJson) (hjson : json [] = none) (maxLine : Nat)
    (file : Option LocalFile) (filter : Option Bytes) :
    AlwaysAgrees json maxLine file filter ↔
      ∀ f step, file = some f → filter = some step → ¬ LosesCr json step maxLine f := by
  constructor
  · rintro hagrees f step rfl rfl hcr
    exact not_alwaysAgrees_of_losesCr hjson hcr hagrees
  · exact alwaysAgrees_of_not_losesCr hjson

def recordCr : LocalFile where
  content := recordOf 97 ++ [carriageReturn]
  kind := .legacy

theorem tail_agrees_iff_recordCr :
    ¬ AlwaysAgrees recordJson 64 (some recordCr) (some [97]) ∧
      AlwaysAgrees recordJson 64 (some recordCr) none := by
  refine ⟨fun h => ?_, (tail_agrees_iff recordJson (by decide) 64 _ _).mpr (by simp)⟩
  refine (tail_agrees_iff recordJson (by decide) 64 _ _).mp h recordCr [97] rfl rfl ?_
  exact ⟨by decide, by decide +kernel, by decide +kernel, by decide +kernel, by decide +kernel⟩

def recordCrConfig : LogReadConfig where
  tailScanMaxBytes := 1000
  maxLineBytes := 64
  mergeMaxBytes := 1000
  mergeMaxLines := 100

/-- Both reads are the union and the tail reports nothing left out, but the full read has one byte
more. -/
theorem tail_drops_carriage_return :
    readTail recordJson recordCrConfig (some recordCr) emptyObject true (some [97]) 1000 =
        .ok ⟨recordOf 97 ++ [newline], false, 16, .merged⟩ ∧
      streamFull recordJson recordCrConfig (some recordCr) emptyObject true (some [97]) =
        (.merged, some (recordOf 97 ++ [carriageReturn, newline])) ∧
      ¬ AlwaysAgrees recordJson 64 (some recordCr) (some [97]) := by
  have htail : readTail recordJson recordCrConfig (some recordCr) emptyObject true (some [97])
      1000 = .ok ⟨recordOf 97 ++ [newline], false, 16, .merged⟩ := by decide +kernel
  have hfull : streamFull recordJson recordCrConfig (some recordCr) emptyObject true (some [97]) =
      (.merged, some (recordOf 97 ++ [carriageReturn, newline])) := by decide +kernel
  refine ⟨htail, hfull, fun h => ?_⟩
  have hwhole := (h recordCrConfig 1000 emptyObject emptyObject true true _ rfl
    (fun _ _ h₁ h₂ => Option.some.inj (h₁.symm.trans h₂)) htail).whole _ hfull rfl
  exact absurd hwhole (by decide)

end Stroem.LogStorage
