import Stroem.LogRead.Splitter
import Stroem.LogRead.Lines

/-!
# The rings of the archive tails

`byte_ring_tail` holds the last bytes of the stream and the byte before them; `line_ring_tail`
holds the newest lines of the step that fit.  Both are stated of what has been read, whatever the
buffers it came in.
-/

namespace Stroem.LogRead

open Stroem.Foundation

/-! ## The byte ring -/

def ringOf (cap : Nat) (seen : Bytes) : ByteRing where
  ring := seen.drop (seen.length - cap)
  total := seen.length
  beforeRing := if seen.length ≤ cap then none else seen[seen.length - cap - 1]?

theorem ringOf_push (cap : Nat) (seen : Bytes) {buf : Bytes} (hbuf : buf ≠ []) :
    (ringOf cap seen).push cap buf = ringOf cap (seen ++ buf) := by
  have hpos : 0 < buf.length := List.length_pos_iff.mpr hbuf
  unfold ByteRing.push
  dsimp only
  by_cases hwide : cap ≤ buf.length
  · rw [if_pos hwide]
    have hring : (seen ++ buf).drop ((seen ++ buf).length - cap) =
        buf.drop (buf.length - cap) := by
      have hpast : (seen ++ buf).length - cap = seen.length + (buf.length - cap) := by
        rw [List.length_append]
        omega
      rw [hpast, ← List.drop_drop, List.drop_left]
    have hbefore : (if cap < buf.length then buf[buf.length - cap - 1]?
          else (ringOf cap seen).ring.getLast?.or (ringOf cap seen).beforeRing) =
        (ringOf cap (seen ++ buf)).beforeRing := by
      simp only [ringOf, List.length_append]
      by_cases hmore : cap < buf.length
      · have hindex : seen.length + buf.length - cap - 1 =
            seen.length + (buf.length - cap - 1) := by omega
        rw [if_pos hmore, if_neg (by omega), hindex, List.getElem?_append_right (by omega)]
        congr 1
        omega
      · rw [if_neg hmore]
        by_cases hseen : seen.length = 0
        · have hnil := List.length_eq_zero_iff.mp hseen
          rw [if_pos (by omega), if_pos (by omega), hnil]
          simp
        · have hindex : seen.length + buf.length - cap - 1 = seen.length - 1 := by omega
          have hlast : (seen.drop (seen.length - cap)).getLast? = seen[seen.length - 1]? := by
            rw [List.getLast?_drop, if_neg (by omega), List.getLast?_eq_getElem?]
          rw [if_neg (by omega : ¬ seen.length + buf.length ≤ cap), hindex, hlast,
            List.getElem?_append_left (by omega), List.getElem?_eq_getElem (by omega)]
          rfl
    rw [hbefore, ← hring]
    simp [ringOf]
  · rw [if_neg hwide]
    have hringLen : (ringOf cap seen).ring.length = seen.length - (seen.length - cap) := by
      simp [ringOf]
    rw [hringLen]
    by_cases hover : 0 < seen.length - (seen.length - cap) + buf.length - cap
    · rw [if_pos hover]
      have hstart : seen.length - cap + (seen.length - (seen.length - cap) + buf.length - cap) =
          seen.length + buf.length - cap := by omega
      have hring : (seen ++ buf).drop ((seen ++ buf).length - cap) =
          (ringOf cap seen).ring.drop
            (seen.length - (seen.length - cap) + buf.length - cap) ++ buf := by
        rw [List.length_append, List.drop_append_of_le_length (by omega)]
        simp only [ringOf]
        rw [List.drop_drop, hstart]
      have hbefore : (ringOf cap seen).ring[seen.length - (seen.length - cap) + buf.length -
            cap - 1]? = (ringOf cap (seen ++ buf)).beforeRing := by
        simp only [ringOf, List.length_append]
        rw [if_neg (by omega), List.getElem?_drop, List.getElem?_append_left (by omega)]
        congr 1
        omega
      rw [hbefore, ← hring]
      simp [ringOf]
    · have hroom : seen.length + buf.length ≤ cap := by omega
      rw [if_neg hover]
      simp only [ringOf, List.length_append]
      rw [if_pos hroom, if_pos (by omega), Nat.sub_eq_zero_of_le hroom,
        Nat.sub_eq_zero_of_le (by omega : seen.length ≤ cap)]
      simp

theorem foldl_ringOf (cap : Nat) {chunks : List Bytes} (h : [] ∉ chunks) (seen : Bytes) :
    chunks.foldl (ByteRing.push cap) (ringOf cap seen) = ringOf cap (seen ++ chunks.flatten) := by
  induction chunks generalizing seen with
  | nil => simp
  | cons c chunks ih =>
    rw [List.mem_cons, not_or] at h
    rw [List.foldl_cons, ringOf_push cap seen (fun hc => h.1 hc.symm), ih h.2]
    simp

/-! ## The line ring -/

theorem drop_cut {lines : List Bytes} (h : ∀ line ∈ lines, newline ∉ line) (mustFree : Nat)
    (hpos : 0 < mustFree) (hle : mustFree ≤ (joinLines lines).length) :
    (joinLines lines).drop
        ((position ((joinLines lines).drop (mustFree - 1))).elim (joinLines lines).length
          (mustFree + ·)) =
      joinLines (newestWithin lineSize ((joinLines lines).length - mustFree) lines) := by
  induction lines generalizing mustFree with
  | nil => simp [newestWithin]
  | cons line lines ih =>
    have hline : newline ∉ line := h line List.mem_cons_self
    have hlines : ∀ line ∈ lines, newline ∉ line := fun l hl => h l (List.mem_cons_of_mem _ hl)
    have hsum := length_joinLines lines
    have hover : ¬ totalWeight lineSize (line :: lines) ≤
        (joinLines (line :: lines)).length - mustFree := by
      rw [length_joinLines] at hle ⊢
      omega
    unfold newestWithin
    rw [if_neg hover]
    rw [joinLines_cons] at hle ⊢
    simp only [List.length_append, List.length_cons] at hle ⊢
    by_cases hin : mustFree - 1 ≤ line.length
    · have hdrop : (line ++ newline :: joinLines lines).drop (mustFree - 1) =
          line.drop (mustFree - 1) ++ newline :: joinLines lines :=
        List.drop_append_of_le_length hin
      have hfree : newline ∉ line.drop (mustFree - 1) := fun hmem =>
        hline (List.mem_of_mem_drop hmem)
      rw [hdrop, position_append_cons _ hfree, Option.elim_some, List.length_drop,
        newestWithin_of_le (by omega)]
      have hcut : mustFree + (line.length - (mustFree - 1)) = line.length + 1 := by omega
      rw [hcut]
      simp
    · have hdrop : ∀ n, (line ++ newline :: joinLines lines).drop (line.length + 1 + n) =
          (joinLines lines).drop n := by
        intro n
        rw [← List.drop_drop]
        simp
      obtain ⟨more, rfl⟩ : ∃ more, mustFree = line.length + 1 + more :=
        ⟨mustFree - (line.length + 1), by omega⟩
      have hrest := ih hlines more (by omega) (by omega)
      have hstart : line.length + 1 + more - 1 = line.length + 1 + (more - 1) := by omega
      have hbound : line.length + ((joinLines lines).length + 1) - (line.length + 1 + more) =
          (joinLines lines).length - more := by omega
      rw [hstart, hdrop, hbound, ← hrest]
      cases position ((joinLines lines).drop (more - 1)) with
      | none =>
        have hall : line.length + ((joinLines lines).length + 1) =
            line.length + 1 + (joinLines lines).length := by omega
        rw [Option.elim_none, Option.elim_none, hall, hdrop]
      | some p => rw [Option.elim_some, Option.elim_some, Nat.add_assoc, hdrop]

structure LineRing.Holds (cap : Nat) (lines : List Bytes) (lost : Bool) (r : LineRing) : Prop where
  ring : r.ring = joinLines (newestWithin lineSize cap lines)
  truncated : r.truncated = (decide (cap < totalWeight lineSize lines) || lost)

section Push

variable {json : SerdeJson} {step : Bytes} {maxLine cap : Nat} {lines : List Bytes} {lost : Bool}
  {r : LineRing}

variable (json step) in
theorem LineRing.Holds.push_line (h : r.Holds cap lines lost)
    (hlines : ∀ line ∈ lines, newline ∉ line) {line : Bytes} (hlen : line.length ≤ maxLine) :
    LineRing.Holds cap (lines ++ if shows json step maxLine line then [line] else []) lost
      (r.push json step cap (.line line)) := by
  obtain ⟨hring, htrunc⟩ := h
  unfold LineRing.push shows
  dsimp only
  rw [decide_eq_true hlen, Bool.and_true]
  by_cases hskip : (decide (line = []) || !matchesBytes json line step) = true
  · have hshow : (decide (line ≠ []) && matchesBytes json line step) = false := by
      rw [← Bool.not_eq_true, ← hskip]
      by_cases hempty : line = [] <;> cases matchesBytes json line step <;> simp [hempty]
    rw [if_pos hskip, hshow]
    simp only [Bool.false_eq_true, if_false, List.append_nil]
    exact ⟨hring, htrunc⟩
  · have hshow : (decide (line ≠ []) && matchesBytes json line step) = true := by
      by_cases hempty : line = [] <;> cases hm : matchesBytes json line step <;>
        simp [hempty, hm] at hskip ⊢
    rw [if_neg hskip, hshow]
    simp only [if_true]
    have hpush := newestWithin_push lineSize cap lines line
    have htotal : totalWeight lineSize (lines ++ [line]) =
        totalWeight lineSize lines + (line.length + 1) := by
      simp [lineSize]
    have hlen : r.ring.length = totalWeight lineSize (newestWithin lineSize cap lines) := by
      rw [hring, length_joinLines]
    have hwithin := totalWeight_newestWithin_le lineSize cap lines
    have hpart :
        totalWeight lineSize (newestWithin lineSize cap lines) ≤ totalWeight lineSize lines :=
      totalWeight_le_of_sublist (newestWithin_suffix lineSize cap lines).sublist
    have hfree : ∀ line ∈ newestWithin lineSize cap lines, newline ∉ line := fun l hl =>
      hlines l ((newestWithin_suffix lineSize cap lines).subset hl)
    by_cases hwide : cap < line.length + 1
    · rw [if_neg (by unfold lineSize; omega)] at hpush
      rw [if_pos hwide]
      exact ⟨by rw [hpush]; rfl, by rw [htotal, decide_eq_true (by omega)]; rfl⟩
    · rw [if_pos (by unfold lineSize; omega)] at hpush
      rw [if_neg hwide]
      by_cases hover : cap < r.ring.length + (line.length + 1)
      · rw [if_pos hover]
        refine ⟨?_, by rw [htotal, decide_eq_true (by omega)]; rfl⟩
        have hbudget : (joinLines (newestWithin lineSize cap lines)).length -
            (r.ring.length + (line.length + 1) - cap) = cap - lineSize line := by
          rw [length_joinLines, hlen, lineSize]
          omega
        have hcut := drop_cut hfree (r.ring.length + (line.length + 1) - cap)
          (by omega) (by rw [length_joinLines]; omega)
        rw [hbudget] at hcut
        dsimp only
        rw [hpush, joinLines_append, joinLines_cons, joinLines_nil, ← hcut, ← hring,
          List.append_assoc]
      · rw [if_neg hover]
        refine ⟨?_, ?_⟩
        · have hrest : newestWithin lineSize (cap - lineSize line)
              (newestWithin lineSize cap lines) = newestWithin lineSize cap lines :=
            newestWithin_of_le (by unfold lineSize at *; omega)
          dsimp only
          rw [hpush, hrest, joinLines_append, joinLines_cons, joinLines_nil, ← hring,
            List.append_assoc]
        · have hsame : decide (cap < totalWeight lineSize lines) =
              decide (cap < totalWeight lineSize lines + (line.length + 1)) := by
            rw [decide_eq_decide]
            constructor
            · omega
            · intro h
              by_contra hfits
              rw [newestWithin_of_le (by omega)] at hlen
              omega
          rw [htotal, ← hsame]
          exact htrunc

theorem LineRing.Holds.lose (h : r.Holds cap lines lost) :
    LineRing.Holds cap lines true { r with truncated := true } :=
  ⟨h.ring, (Bool.or_true _).symm⟩

variable (json step maxLine) in
theorem LineRing.Holds.foldl_lineRefs (h : r.Holds cap lines lost)
    (hlines : ∀ line ∈ lines, newline ∉ line) {pieces : List Bytes}
    (hpieces : ∀ piece ∈ pieces, newline ∉ piece) :
    LineRing.Holds cap (lines ++ shownLines json step maxLine false pieces)
      (lost || leavesOut maxLine false pieces)
      ((lineRefs maxLine pieces).foldl (LineRing.push json step cap) r) := by
  induction pieces generalizing r lines lost with
  | nil => simpa [shownLines, writtenLines, leavesOut, lineRefs] using h
  | cons line pieces ih =>
    cases pieces with
    | nil =>
      by_cases hline : line = []
      · simpa [shownLines, writtenLines, leavesOut, lineRefs, lastRef, hline] using h
      · have hlost : leavesOut maxLine false [line] = true := by
          simp [leavesOut, writtenLines, hline]
        have hshown : shownLines json step maxLine false [line] = [] := by
          simp [shownLines, writtenLines]
        rw [hlost, hshown, Bool.or_true, List.append_nil]
        unfold lineRefs lastRef
        rw [if_neg hline]
        split <;> exact h.lose
    | cons next pieces =>
      have hline := hpieces line List.mem_cons_self
      have hrest : ∀ piece ∈ next :: pieces, newline ∉ piece := fun piece hpiece =>
        hpieces piece (List.mem_cons_of_mem _ hpiece)
      have hshown : shownLines json step maxLine false (line :: next :: pieces) =
          (if shows json step maxLine line then [line] else []) ++
            shownLines json step maxLine false (next :: pieces) := by
        simp only [shownLines, writtenLines, Bool.false_eq_true, if_false,
          List.dropLast_cons_cons, List.filter_cons]
        split <;> rfl
      have hlost : leavesOut maxLine false (line :: next :: pieces) =
          (decide (maxLine < line.length) || leavesOut maxLine false (next :: pieces)) := by
        simp [leavesOut, writtenLines, Bool.or_assoc]
      rw [hshown, hlost, ← List.append_assoc, lineRefs, List.foldl_cons, ← Bool.or_assoc]
      by_cases hlen : line.length ≤ maxLine
      · have hpush := h.push_line json step hlines hlen
        rw [decide_eq_false (Nat.not_lt.mpr hlen), Bool.or_false, lineRef, if_pos hlen]
        refine ih hpush (fun l hl => ?_) hrest
        rw [List.mem_append] at hl
        obtain hl | hl := hl
        · exact hlines l hl
        · split at hl
          · exact List.mem_singleton.mp hl ▸ hline
          · exact absurd hl List.not_mem_nil
      · have hhide : shows json step maxLine line = false := by
          simp [shows, hlen]
        rw [hhide, decide_eq_true (Nat.not_le.mp hlen), Bool.or_true, lineRef, if_neg hlen]
        simp only [Bool.false_eq_true, if_false, List.append_nil]
        exact ih h.lose hlines hrest

end Push

theorem not_mem_of_mem_splitOn {content piece : Bytes} (h : piece ∈ content.splitOn newline) :
    newline ∉ piece := by
  induction hn : content.length using Nat.strong_induction_on generalizing content with
  | _ n ih =>
    cases hp : position content with
    | none =>
      have hc := position_eq_none_iff.mp hp
      rw [List.splitOn_eq_singleton hc, List.mem_singleton] at h
      exact h ▸ hc
    | some p =>
      obtain ⟨line, rest, rfl, -, hline⟩ := position_eq_some hp
      rw [List.splitOn_append_cons_self_of_not_mem hline, List.mem_cons] at h
      obtain rfl | h := h
      · exact hline
      · refine ih rest.length ?_ h rfl
        rw [← hn]
        simp
        omega

theorem lineRingTail_eq (json : SerdeJson) (reader : Reader) (step : Bytes) (t maxLine : Nat) :
    (lineRingTail json reader step t maxLine).map (fun r => (r.logs, r.truncated)) =
      (utf8 (joinLines (newestWithin lineSize t
        (stepLines json step maxLine false reader.content)))).map
        (fun logs => (logs, decide (t < totalWeight lineSize
            (stepLines json step maxLine false reader.content)) ||
          leavesOut maxLine false (reader.content.splitOn newline))) := by
  obtain ⟨s, hs, -⟩ := LineSplitter.drain_new (LineRing.push json step t) reader maxLine
    ⟨[], false⟩
  have hempty : LineRing.Holds t [] false ⟨[], false⟩ := ⟨rfl, by simp⟩
  have hall := hempty.foldl_lineRefs json step maxLine
    (fun _ h => absurd h List.not_mem_nil)
    (fun piece (h : piece ∈ reader.content.splitOn newline) => not_mem_of_mem_splitOn h)
  rw [List.nil_append, Bool.false_or] at hall
  unfold lineRingTail
  rw [hs]
  dsimp only
  rw [hall.ring, hall.truncated]
  unfold stepLines
  cases utf8 (joinLines (newestWithin lineSize t (shownLines json step maxLine false
    (reader.content.splitOn newline)))) <;> rfl

theorem byteRing_eq (reader : Reader) (t : Nat) :
    reader.chunks.foldl (ByteRing.push t) ⟨[], 0, none⟩ = ringOf t reader.content := by
  have hstart : (⟨[], 0, none⟩ : ByteRing) = ringOf t [] := by simp [ringOf]
  rw [hstart, foldl_ringOf t reader.nonempty, List.nil_append]
  rfl

end Stroem.LogRead
