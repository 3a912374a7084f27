import Mathlib.Data.List.Sort
import Stroem.LogRead.Streams

/-!
# Merging two logs

The union of a local and an archived log: the lines of both, each once, by timestamp.  A line is
what Rust's `str::lines` makes of it, so a carriage return before a newline is not part of it, and
one at the very end of the text is.
-/

namespace Stroem.LogRead

open Stroem.Foundation

/-! ## Lines of a text -/

def carriageReturn : UInt8 := 13

def stripCr (line : Bytes) : Bytes :=
  if line.getLast? = some carriageReturn then line.dropLast else line

def strLines (text : Bytes) : List Bytes :=
  (text.splitOn newline).dropLast.map stripCr ++
    if tornEnd text = [] then [] else [tornEnd text]

def countLines (buf : Bytes) : Nat :=
  ((buf.splitOn newline).filter (fun line => decide (line ≠ []))).length

/-! ## `merge_jsonl_logs` -/

def afterFirst (pattern : Bytes) : Bytes → Option Bytes
  | [] => if pattern = [] then some [] else none
  | b :: text =>
    if pattern <+: b :: text then some ((b :: text).drop pattern.length)
    else afterFirst pattern text

def tsKey : Bytes := [34, 116, 115, 34, 58, 34]

def extractTs (line : Bytes) : Option Bytes :=
  (afterFirst tsKey line).bind fun rest => (rest.findIdx? (· == 34)).map rest.take

def tsLe (a b : Bytes) : Prop :=
  match extractTs a, extractTs b with
  | none, _ => True
  | some _, none => False
  | some x, some y => x ≤ y

instance : DecidableRel tsLe := fun a b => by
  unfold tsLe
  split
  · exact instDecidableTrue
  · exact instDecidableFalse
  · infer_instance

def firstSeen (lines : List Bytes) : List Bytes :=
  lines.foldl (fun seen line => if line ∈ seen then seen else seen ++ [line]) []

def mergeLines (lines : List Bytes) : List Bytes :=
  (firstSeen (lines.filter fun line => decide (line ≠ []))).insertionSort tsLe

def mergeJsonlLogs (a b : Bytes) : Bytes :=
  joinLines (mergeLines (strLines a ++ strLines b))

/-! ## `cut_front_to_lines`, `retain_matching_lines` -/

def cutFrontToLines (s : Bytes) (max : Nat) : Bytes × Bool :=
  if s.length ≤ max then (s, false)
  else
    let start := s.length - max
    let cut :=
      if s[start - 1]? = some newline then start
      else (position (s.drop start)).elim s.length (start + · + 1)
    (s.drop cut, true)

def retainLoop (json : SerdeJson) (step : Bytes) (maxLine : Nat) : Nat → Bytes → Bytes
  | 0, _ => []
  | fuel + 1, rest =>
    if rest = [] then []
    else
      let stop := (position rest).elim rest.length (· + 1)
      let line := rest.take stop
      let body := if line.getLast? = some newline then line.dropLast else line
      (if decide (body.length ≤ maxLine) && matchesBytes json body step then line else []) ++
        retainLoop json step maxLine fuel (rest.drop stop)

def retainMatchingLines (json : SerdeJson) (buf step : Bytes) (maxLine : Nat) : Bytes :=
  retainLoop json step maxLine (buf.length + 1) buf

/-! ## What they give -/

theorem mem_firstSeen {lines : List Bytes} {line : Bytes} :
    line ∈ firstSeen lines ↔ line ∈ lines := by
  have hfold : ∀ (lines seen : List Bytes), line ∈ lines.foldl
      (fun seen line => if line ∈ seen then seen else seen ++ [line]) seen ↔
        line ∈ seen ∨ line ∈ lines := by
    intro lines
    induction lines with
    | nil => simp
    | cons l lines ih =>
      intro seen
      rw [List.foldl_cons, ih]
      split
      · rename_i hl
        simp only [List.mem_cons]
        constructor
        · rintro (h | h)
          · exact .inl h
          · exact .inr (.inr h)
        · rintro (h | rfl | h)
          · exact .inl h
          · exact .inl hl
          · exact .inr h
      · simp [or_assoc]
  simpa [firstSeen] using hfold lines []

theorem firstSeen_of_mem {before : List Bytes} {line : Bytes} (h : line ∈ before)
    (after : List Bytes) : firstSeen (before ++ line :: after) = firstSeen (before ++ after) := by
  have hseen := mem_firstSeen.mpr h
  unfold firstSeen at hseen ⊢
  rw [List.foldl_append, List.foldl_append, List.foldl_cons, if_pos hseen]

theorem mem_mergeLines {lines : List Bytes} {line : Bytes} :
    line ∈ mergeLines lines ↔ line ∈ lines ∧ line ≠ [] := by
  simp [mergeLines, mem_firstSeen]

theorem mergeLines_of_mem {before : List Bytes} {line : Bytes} (h : line = [] ∨ line ∈ before)
    (after : List Bytes) : mergeLines (before ++ line :: after) = mergeLines (before ++ after) := by
  unfold mergeLines
  rw [List.filter_append, List.filter_append, List.filter_cons]
  by_cases hline : line = []
  · simp [hline]
  · have hmem : line ∈ before.filter (fun line => decide (line ≠ [])) := by
      simp [h.resolve_left hline, hline]
    simp only [hline, ne_eq, not_false_eq_true, decide_true, if_true]
    rw [firstSeen_of_mem (by simpa using hmem)]

theorem splitOn_joinLines_append {lines : List Bytes} (h : ∀ line ∈ lines, newline ∉ line)
    {rest : Bytes} (hrest : newline ∉ rest) :
    (joinLines lines ++ rest).splitOn newline = lines ++ [rest] := by
  induction lines with
  | nil => simpa using List.splitOn_eq_singleton hrest
  | cons line lines ih =>
    have hline := h line List.mem_cons_self
    rw [joinLines_cons, List.append_assoc, List.cons_append,
      List.splitOn_append_cons_self_of_not_mem hline,
      ih (fun l hl => h l (List.mem_cons_of_mem _ hl)), List.cons_append]

theorem joinLines_injective {xs ys : List Bytes} (hxs : ∀ line ∈ xs, newline ∉ line)
    (hys : ∀ line ∈ ys, newline ∉ line) (h : joinLines xs = joinLines ys) : xs = ys := by
  have hx := splitOn_joinLines_append hxs List.not_mem_nil
  have hy := splitOn_joinLines_append hys List.not_mem_nil
  rw [h, hy] at hx
  exact (List.append_inj_left' hx rfl).symm

theorem strLines_joinLines_append {lines : List Bytes} (h : ∀ line ∈ lines, newline ∉ line)
    {rest : Bytes} (hrest : newline ∉ rest) :
    strLines (joinLines lines ++ rest) =
      lines.map stripCr ++ if rest = [] then [] else [rest] := by
  have hsplit := splitOn_joinLines_append h hrest
  unfold strLines tornEnd
  rw [hsplit, List.dropLast_concat, List.getLastD_concat]

theorem tornEnd_eq_getLast (content : Bytes) :
    tornEnd content = (content.splitOn newline).getLast (List.splitOn_ne_nil _ _) := by
  unfold tornEnd
  rw [List.getLastD_eq_getLast?, List.getLast?_eq_some_getLast (List.splitOn_ne_nil _ _),
    Option.getD_some]

theorem newline_not_mem_tornEnd (content : Bytes) : newline ∉ tornEnd content := by
  rw [tornEnd_eq_getLast]
  exact not_mem_of_mem_splitOn (List.getLast_mem _)

theorem newline_not_mem_mergeLines {text line : Bytes} (h : line ∈ mergeLines (strLines text)) :
    newline ∉ line := by
  obtain ⟨hmem, -⟩ := mem_mergeLines.mp h
  unfold strLines at hmem
  obtain hmem | hmem := List.mem_append.mp hmem
  · obtain ⟨piece, hpiece, rfl⟩ := List.mem_map.mp hmem
    have hfree := not_mem_of_mem_splitOn (List.mem_of_mem_dropLast hpiece)
    unfold stripCr
    split
    · exact fun h => hfree (List.mem_of_mem_dropLast h)
    · exact hfree
  · split at hmem
    · exact absurd hmem List.not_mem_nil
    · rw [List.mem_singleton.mp hmem]
      exact newline_not_mem_tornEnd text

/-! ### Cutting -/

def StartsLine (whole text : Bytes) : Prop :=
  ∃ before after, whole = before ++ text ++ after ∧
    (before = [] ∨ before.getLast? = some newline)

theorem StartsLine.refl (whole : Bytes) : StartsLine whole whole :=
  ⟨[], [], by simp, .inl rfl⟩

theorem StartsLine.nil (whole : Bytes) : StartsLine whole [] :=
  ⟨[], whole, rfl, .inl rfl⟩

theorem cutFrontToLines_spec (s : Bytes) (max : Nat) :
    (cutFrontToLines s max).1.length ≤ max ∧ StartsLine s (cutFrontToLines s max).1 ∧
      ((cutFrontToLines s max).2 = false → (cutFrontToLines s max).1 = s ∧ s.length ≤ max) := by
  unfold cutFrontToLines
  by_cases hfits : s.length ≤ max
  · rw [if_pos hfits]
    exact ⟨hfits, StartsLine.refl s, fun _ => ⟨rfl, hfits⟩⟩
  · rw [if_neg hfits]
    dsimp only
    refine ⟨?_, ?_, fun h => absurd h (by simp)⟩
    · rw [List.length_drop]
      split
      · omega
      · cases position (s.drop (s.length - max)) with
        | none => simp
        | some p =>
          rw [Option.elim_some]
          omega
    · by_cases hnl : s[s.length - max - 1]? = some newline
      · rw [if_pos hnl]
        refine ⟨s.take (s.length - max), [], by simp, .inr ?_⟩
        rw [List.getLast?_take, if_neg (by omega), hnl]
        rfl
      · rw [if_neg hnl]
        cases hp : position (s.drop (s.length - max)) with
        | none =>
          rw [Option.elim_none, List.drop_length]
          exact StartsLine.nil s
        | some p =>
          obtain ⟨line, rest, hdrop, rfl, -⟩ := position_eq_some hp
          have hs : s = s.take (s.length - max) ++ (line ++ newline :: rest) := by
            rw [← hdrop, List.take_append_drop]
          have htake : (s.take (s.length - max)).length = s.length - max := by
            rw [List.length_take]
            omega
          refine ⟨s.take (s.length - max) ++ line ++ [newline], [], ?_, .inr (by simp)⟩
          rw [Option.elim_some]
          have hrest : s.drop (s.length - max + line.length + 1) = rest := by
            rw [Nat.add_assoc, ← List.drop_drop, hdrop]
            simp
          rw [hrest, List.append_nil]
          conv_lhs => rw [hs]
          simp

/-! ### Retaining -/

theorem retainMatchingLines_eq {json : SerdeJson} (hjson : json [] = none) (buf step : Bytes)
    (maxLine : Nat) :
    retainMatchingLines json buf step maxLine =
      joinLines (stepLines json step maxLine false buf) ++
        if shows json step maxLine (tornEnd buf) then tornEnd buf else [] := by
  have hshows : ∀ line, (decide (line.length ≤ maxLine) && matchesBytes json line step) =
      shows json step maxLine line := by
    intro line
    unfold shows
    by_cases hline : line = []
    · simp [hline, matchesBytes_nil hjson]
    · simp [hline]
  have hloop : ∀ (fuel : Nat) (rest : Bytes), rest.length < fuel →
      retainLoop json step maxLine fuel rest =
        joinLines (stepLines json step maxLine false rest) ++
          if shows json step maxLine (tornEnd rest) then tornEnd rest else [] := by
    intro fuel
    induction fuel with
    | zero => exact fun _ h => absurd h (Nat.not_lt_zero _)
    | succ fuel ih =>
      intro rest hfuel
      unfold retainLoop
      by_cases hrest : rest = []
      · subst hrest
        simp [stepLines, shownLines, writtenLines, tornEnd]
      · rw [if_neg hrest]
        dsimp only
        cases hp : position rest with
        | none =>
          have hnl := position_eq_none_iff.mp hp
          have hlast : rest.getLast? ≠ some newline := fun h =>
            hnl (List.mem_of_getLast? h)
          have hend : retainLoop json step maxLine fuel [] = [] := by
            cases fuel <;> simp [retainLoop]
          rw [Option.elim_none, List.take_length, if_neg hlast, List.drop_length, hend,
            hshows]
          simp [stepLines, shownLines, writtenLines, tornEnd, List.splitOn_eq_singleton hnl]
        | some p =>
          obtain ⟨line, more, rfl, rfl, hline⟩ := position_eq_some hp
          have htake : (line ++ newline :: more).take (line.length + 1) =
              line ++ [newline] := by
            rw [List.take_append]
            simp
          have hdrop : (line ++ newline :: more).drop (line.length + 1) = more := by simp
          have hlen : more.length < fuel := by
            simp only [List.length_append, List.length_cons] at hfuel
            omega
          rw [Option.elim_some, htake, hdrop, ih more hlen, List.getLast?_concat, if_pos rfl,
            List.dropLast_concat, hshows]
          obtain ⟨piece, pieces, hpieces⟩ := List.exists_cons_of_ne_nil
            (List.splitOn_ne_nil newline more)
          have hsplit : (line ++ newline :: more).splitOn newline = line :: piece :: pieces := by
            rw [List.splitOn_append_cons_self_of_not_mem hline, hpieces]
          have htorn : tornEnd (line ++ newline :: more) = tornEnd more := by
            unfold tornEnd
            rw [hsplit, hpieces]
            simp [List.getLastD]
          have hlines : stepLines json step maxLine false (line ++ newline :: more) =
              (if shows json step maxLine line then [line] else []) ++
                stepLines json step maxLine false more := by
            unfold stepLines shownLines writtenLines
            rw [hsplit, hpieces]
            simp only [Bool.false_eq_true, if_false, List.dropLast_cons_cons]
            rw [List.filter_cons]
            split <;> rfl
          rw [htorn, hlines, joinLines_append, List.append_assoc]
          congr 1
          split <;> simp
  exact hloop _ _ (Nat.lt_succ_self _)

end Stroem.LogRead

/-!
# Reads of any size

The items of the splitter are those of the bytes, wherever the reads end, and the accumulator
stays within its allocation after every round of every call.
-/

namespace Stroem.LogRead

open Stroem.Foundation

def LineSplitter.items (s : LineSplitter) : List LineRef × LineSplitter :=
  s.drain (fun items item => items ++ [item]) []

inductive LineSplitter.Reached (reader : Reader) (maxLine : Nat) : LineSplitter → Prop
  | new : Reached reader maxLine (LineSplitter.new reader maxLine)
  | rounds {s : LineSplitter} (h : Reached reader maxLine s) (count : Nat) :
      Reached reader maxLine (s.clearLent.nextLoop count).2

/-! ## The accumulator -/

def LineSplitter.Within (s : LineSplitter) (maxLine : Nat) : Prop :=
  s.maxLine = maxLine ∧ s.acc.length ≤ maxLine

theorem LineSplitter.Within.clearLent {s : LineSplitter} {maxLine : Nat} (h : s.Within maxLine) :
    s.clearLent.Within maxLine := by
  unfold LineSplitter.clearLent
  split
  · exact ⟨h.1, Nat.zero_le _⟩
  · exact h

theorem LineSplitter.Within.nextLoop {s : LineSplitter} {maxLine : Nat} (h : s.Within maxLine)
    (count : Nat) : (s.nextLoop count).2.Within maxLine := by
  induction count generalizing s with
  | zero => exact h
  | succ count ih =>
    obtain ⟨hmax, hacc⟩ := h
    unfold LineSplitter.nextLoop
    dsimp only
    split
    · split
      · exact ⟨hmax, hacc⟩
      · split
        · exact ⟨hmax, hacc⟩
        · exact ⟨hmax, hacc⟩
    · split
      · split
        · exact ⟨hmax, hacc⟩
        · exact ih ⟨hmax, hacc⟩
      · split
        · exact ih ⟨hmax, Nat.zero_le _⟩
        · next hfits =>
            have hnew : (s.acc ++ s.reader.fillBuf.take
                ((position s.reader.fillBuf).getD s.reader.fillBuf.length)).length ≤
                  maxLine := by
              rw [List.length_append, List.length_take]
              omega
            split
            · exact ⟨hmax, hnew⟩
            · exact ih ⟨hmax, hnew⟩

theorem LineSplitter.Reached.within {reader : Reader} {maxLine : Nat} {s : LineSplitter}
    (h : Reached reader maxLine s) : s.Within maxLine := by
  induction h with
  | new => exact ⟨rfl, Nat.zero_le _⟩
  | rounds _ count ih => exact ih.clearLent.nextLoop count

/-! ## The items -/

theorem foldl_append_singleton (items pushed : List LineRef) :
    items.foldl (fun pushed item => pushed ++ [item]) pushed = pushed ++ items := by
  induction items generalizing pushed with
  | nil => exact (List.append_nil _).symm
  | cons item items ih => rw [List.foldl_cons, ih, List.append_assoc, List.singleton_append]

theorem LineSplitter.items_new (reader : Reader) (maxLine : Nat) :
    ∃ s : LineSplitter, (LineSplitter.new reader maxLine).items =
        (lineRefs maxLine (reader.content.splitOn newline), s) ∧
      s.consumed = reader.content.length := by
  obtain ⟨s, hs, hconsumed⟩ := LineSplitter.drain_new (fun items item => items ++ [item]) reader
    maxLine []
  rw [foldl_append_singleton, List.nil_append] at hs
  exact ⟨s, hs, hconsumed⟩

/-! ## The filtered stream -/

theorem stepLines_keep {json : SerdeJson} {step content : Bytes} {maxLine : Nat}
    (h : tornEnd content = []) (keep : Bool) :
    stepLines json step maxLine keep content = stepLines json step maxLine false content := by
  cases keep with
  | false => rfl
  | true =>
    have hne := List.splitOn_ne_nil newline content
    have hlast : (content.splitOn newline).getLast hne = [] := by
      unfold tornEnd at h
      rw [List.getLastD_eq_getLast?, List.getLast?_eq_some_getLast hne] at h
      exact h
    have hsplit := List.dropLast_append_getLast hne
    rw [hlast] at hsplit
    have hhide : shows json step maxLine [] = false := rfl
    unfold stepLines shownLines writtenLines
    rw [if_pos rfl, if_neg Bool.false_ne_true]
    conv_lhs => rw [← hsplit]
    rw [List.filter_append, List.filter_cons, hhide]
    exact List.append_nil _

theorem flatten_filteredStream_eq_retain {json : SerdeJson} (hjson : json [] = none)
    {reader : Reader} (h : tornEnd reader.content = []) (step : Bytes) (maxLine : Nat)
    (keep : Bool) :
    (filteredStream json reader step maxLine keep).flatten =
      retainMatchingLines json reader.content step maxLine := by
  have hhide : shows json step maxLine [] = false := rfl
  rw [flatten_filteredStream hjson, stepLines_keep h, retainMatchingLines_eq hjson, h, hhide]
  exact (List.append_nil _).symm

/-- Splitting does not depend on how the bytes are cut into reads, and the accumulator is never
over the limit. -/
theorem lineSplitter_chunking (json : SerdeJson) (hjson : json [] = none) (reader : Reader)
    (maxLine : Nat) :
    (∃ s : LineSplitter, (LineSplitter.new reader maxLine).items =
        (lineRefs maxLine (reader.content.splitOn newline), s) ∧
      s.consumed = reader.content.length) ∧
      (∀ s, LineSplitter.Reached reader maxLine s → s.acc.length ≤ maxLine) ∧
      (tornEnd reader.content = [] → ∀ step keep,
        (filteredStream json reader step maxLine keep).flatten =
          retainMatchingLines json reader.content step maxLine) :=
  ⟨LineSplitter.items_new reader maxLine, fun _ h => h.within.2,
    fun h step keep => flatten_filteredStream_eq_retain hjson h step maxLine keep⟩

theorem lineSplitter_chunking_cutRecords :
    (LineSplitter.new cutRecords 12).items.1 =
        [.line (recordOf 97), .line (recordOf 98), .line (recordOf 97)] ∧
      (filteredStream recordJson cutRecords [98] 12 false).flatten =
        retainMatchingLines recordJson cutRecords.content [98] 12 := by
  obtain ⟨⟨s, hitems, -⟩, -, hstream⟩ := lineSplitter_chunking recordJson rfl cutRecords 12
  refine ⟨?_, hstream (by decide) [98] false⟩
  rw [hitems]
  change lineRefs 12 (cutRecords.content.splitOn newline) = _
  decide

end Stroem.LogRead
