import Stroem.LogRead.Lines
import Stroem.LogRead.Local

/-!
# The backward scan reads the lines of the file

`scanWindows` sees the file in windows and the lines in pieces.  What it has collected when it
stands at a position is what `complete` makes of the whole lines behind that position, newest
first, and `pending` is the part of a line it has not seen the start of (`scanTail_spec`).
-/

namespace Stroem.LogRead

open Stroem.Foundation

variable {json : SerdeJson}

def StepScan.completeAll (json : SerdeJson) (scan : StepScan) (lines : List Bytes) : StepScan :=
  lines.foldr (fun line scan => if scan.stop then scan else scan.complete json line) scan

theorem StepScan.completeAll_append (scan : StepScan) (older newer : List Bytes) :
    scan.completeAll json (older ++ newer) = (scan.completeAll json newer).completeAll json older :=
  List.foldr_append

theorem StepScan.completeAll_cons (scan : StepScan) (line : Bytes) (newer : List Bytes) :
    scan.completeAll json (line :: newer) =
      if (scan.completeAll json newer).stop then scan.completeAll json newer
      else (scan.completeAll json newer).complete json line :=
  rfl

theorem StepScan.completeAll_of_stop {scan : StepScan} (h : scan.stop = true)
    (lines : List Bytes) : scan.completeAll json lines = scan := by
  induction lines with
  | nil => rfl
  | cons line lines ih => rw [completeAll_cons, ih, if_pos h]

@[simp] theorem StepScan.complete_maxLine (scan : StepScan) (line : Bytes) :
    (scan.complete json line).maxLine = scan.maxLine := by
  unfold StepScan.complete
  dsimp only
  split
  · rfl
  · repeat' split
    all_goals rfl

theorem StepScan.completeAll_maxLine (scan : StepScan) (lines : List Bytes) :
    (scan.completeAll json lines).maxLine = scan.maxLine := by
  induction lines with
  | nil => rfl
  | cons line lines ih =>
    rw [completeAll_cons]
    split
    · exact ih
    · rw [complete_maxLine, ih]

/-! ## Pending pieces -/

structure Pending.Represents (maxLine : Nat) (p : Pending) (piece : Bytes) : Prop where
  oversize : p.oversize = decide (maxLine < piece.length)
  bytes : p.bytes = if maxLine < piece.length then [] else piece

theorem Pending.represents_clear (maxLine : Nat) : Pending.clear.Represents maxLine [] := by
  constructor <;> simp [Pending.clear]

theorem Pending.Represents.prepend {maxLine : Nat} {p : Pending} {piece : Bytes}
    (h : p.Represents maxLine piece) (seg : Bytes) :
    (p.prepend seg maxLine).Represents maxLine (seg ++ piece) := by
  obtain ⟨hover, hbytes⟩ := h
  by_cases hlong : maxLine < piece.length
  · have hlonger : maxLine < seg.length + piece.length := by omega
    constructor <;> simp [Pending.prepend, hover, hbytes, hlong, hlonger]
  · by_cases hlonger : maxLine < piece.length + seg.length
    · have hcomm : maxLine < seg.length + piece.length := by omega
      constructor <;> simp [Pending.prepend, hover, hbytes, hlong, hlonger, hcomm]
    · have hcomm : ¬ maxLine < seg.length + piece.length := by omega
      constructor <;> simp [Pending.prepend, hover, hbytes, hlong, hlonger, hcomm]

theorem StepScan.completePending_eq {scan : StepScan} {p : Pending} {piece : Bytes}
    (h : p.Represents scan.maxLine piece) :
    scan.completePending json p = scan.complete json piece := by
  obtain ⟨hover, hbytes⟩ := h
  unfold StepScan.completePending
  by_cases hlong : scan.maxLine < piece.length
  · have hne : piece ≠ [] := by
      rintro rfl
      exact absurd hlong (Nat.not_lt_zero _)
    simp [hover, hlong, StepScan.oversize, StepScan.complete, hne]
  · simp [hover, hbytes, hlong]

/-! ## One window -/

theorem scanWindow_spec {fuel : Nat} {window piece : Bytes} {p : Pending} {scan : StepScan}
    (hfuel : window.length < fuel) (hpiece : newline ∉ piece)
    (hp : scan.stop = false → p.Represents scan.maxLine piece) :
    ∃ first rest, (window ++ piece).splitOn newline = first :: rest ∧
      (scanWindow json fuel window p scan).2 = scan.completeAll json rest ∧
      ((scanWindow json fuel window p scan).2.stop = false →
        (scanWindow json fuel window p scan).1.Represents scan.maxLine first) := by
  induction fuel generalizing window piece p scan with
  | zero => exact absurd hfuel (Nat.not_lt_zero _)
  | succ fuel ih =>
    unfold scanWindow
    by_cases hstop : scan.stop = true
    · obtain ⟨first, rest, hsplit⟩ := List.exists_cons_of_ne_nil
        (List.splitOn_ne_nil newline (window ++ piece))
      rw [if_pos hstop]
      exact ⟨first, rest, hsplit, (StepScan.completeAll_of_stop hstop rest).symm,
        fun h => absurd (hstop.symm.trans h) (by simp)⟩
    · rw [if_neg hstop]
      have hp := hp (by simpa using hstop)
      cases hk : rposition window with
      | none =>
        have hwindow := rposition_eq_none_iff.mp hk
        refine ⟨window ++ piece, [], List.splitOn_eq_singleton ?_, rfl,
          fun _ => hp.prepend window⟩
        simp [hwindow, hpiece]
      | some k =>
        obtain ⟨before, seg, rfl, rfl, hseg⟩ := rposition_eq_some hk
        have hdrop : (before ++ newline :: seg).drop (before.length + 1) = seg := by simp
        have htake : (before ++ newline :: seg).take before.length = before := by simp
        have hsegPiece : newline ∉ seg ++ piece := by simp [hseg, hpiece]
        have hlen : before.length < fuel := by
          simp only [List.length_append, List.length_cons] at hfuel
          omega
        have hsplit : (before ++ newline :: seg ++ piece).splitOn newline =
            before.splitOn newline ++ [seg ++ piece] := by
          rw [List.append_assoc, List.cons_append, List.splitOn_append_cons_self,
            List.splitOn_eq_singleton hsegPiece]
        -- Whichever way the line is completed, it is completed as a whole.
        have hline : ∀ p' : Pending, p'.Represents scan.maxLine [] →
            ∃ first rest,
              (before ++ newline :: seg ++ piece).splitOn newline = first :: rest ∧
              (scanWindow json fuel before p' (scan.complete json (seg ++ piece))).2 =
                scan.completeAll json rest ∧
              ((scanWindow json fuel before p' (scan.complete json (seg ++ piece))).2.stop =
                  false →
                (scanWindow json fuel before p'
                  (scan.complete json (seg ++ piece))).1.Represents scan.maxLine first) := by
          intro p' hp'
          obtain ⟨first, rest, hfirst, hscan, hrep⟩ := @ih before [] p'
            (scan.complete json (seg ++ piece)) hlen List.not_mem_nil
            (fun _ => by rwa [StepScan.complete_maxLine])
          rw [List.append_nil] at hfirst
          refine ⟨first, rest ++ [seg ++ piece],
            by rw [hsplit, hfirst, List.cons_append], ?_, ?_⟩
          · rw [hscan, StepScan.completeAll_append, StepScan.completeAll_cons]
            simp [StepScan.completeAll, hstop]
          · rwa [StepScan.complete_maxLine] at hrep
        dsimp only
        rw [hdrop, htake]
        by_cases hfresh : p.bytes = [] ∧ ¬ p.oversize = true
        · rw [if_pos hfresh]
          have hempty : piece = [] := by
            have hover := hp.oversize
            have hbytes := hp.bytes
            have hshort : ¬ scan.maxLine < piece.length := by
              intro hlong
              rw [decide_eq_true hlong] at hover
              exact hfresh.2 hover
            rw [if_neg hshort] at hbytes
            rw [← hbytes, hfresh.1]
          subst hempty
          rw [List.append_nil] at hline ⊢
          simpa using hline p (by simpa using hp)
        · rw [if_neg hfresh, StepScan.completePending_eq (hp.prepend seg)]
          exact hline _ (Pending.represents_clear _)

/-! ## All windows -/

structure Scanning.Reads (json : SerdeJson) (f : LocalFile) (start : StepScan) (s : Scanning) :
    Prop where
  scanned : s.scanned + s.pos = f.len
  pieces : ∃ piece pieces, (f.content.drop s.pos).splitOn newline = piece :: pieces ∧
    newline ∉ piece ∧ s.scan = start.completeAll json pieces ∧
    (s.scan.stop = false → s.pending.Represents start.maxLine piece)

theorem not_mem_head_splitOn {content piece : Bytes} {pieces : List Bytes}
    (h : content.splitOn newline = piece :: pieces) : newline ∉ piece := by
  cases hp : position content with
  | none =>
    have hc := position_eq_none_iff.mp hp
    rw [List.splitOn_eq_singleton hc] at h
    obtain ⟨rfl, -⟩ := List.cons.inj h
    exact hc
  | some p =>
    obtain ⟨line, rest, rfl, -, hline⟩ := position_eq_some hp
    rw [List.splitOn_append_cons_self_of_not_mem hline] at h
    obtain ⟨rfl, -⟩ := List.cons.inj h
    exact hline

theorem Scanning.Reads.window {f : LocalFile} {start : StepScan} {s : Scanning}
    (h : s.Reads json f start) (origin : Nat) (horigin : origin ≤ s.pos) {window : Bytes}
    (hwindow : window = readRangeExact f origin s.pos) :
    Scanning.Reads json f start
      { pos := origin
        scanned := s.scanned + (s.pos - origin)
        pending := (scanWindow json (window.length + 1) window s.pending s.scan).1
        scan := (scanWindow json (window.length + 1) window s.pending s.scan).2 } := by
  obtain ⟨hscanned, piece, pieces, hsplit, hpiece, hscan, hpending⟩ := h
  have hmax : s.scan.maxLine = start.maxLine := by
    rw [hscan, StepScan.completeAll_maxLine]
  obtain ⟨first, rest, hfirst, hwin, hrep⟩ := scanWindow_spec
    (Nat.lt_succ_self window.length) hpiece (by rwa [hmax])
  have hcontent : f.content.drop origin = window ++ f.content.drop s.pos := by
    have htake : f.content.take s.pos ++ f.content.drop s.pos = f.content :=
      List.take_append_drop _ _
    unfold LocalFile.len at hscanned
    rw [hwindow, readRangeExact]
    conv_lhs => rw [← htake]
    rw [List.drop_append_of_le_length (by rw [List.length_take]; omega)]
  refine ⟨by dsimp only; omega, first, rest ++ pieces, ?_, not_mem_head_splitOn hfirst, ?_, ?_⟩
  · rw [hcontent, splitOn_append_of_splitOn _ hsplit, hfirst, List.cons_append]
  · rw [StepScan.completeAll_append, ← hscan]
    exact hwin
  · rw [← hmax]
    exact hrep

theorem scanWindows_spec {f : LocalFile} {start : StepScan} {windowLen scanMax fuel : Nat}
    (hlen : 0 < windowLen) {s : Scanning} (h : s.Reads json f start) (hfuel : s.pos < fuel) :
    ∃ s' : Scanning, s'.Reads json f start ∧
      ((s'.pos = 0 ∨ s'.scan.stop = true) ∧
          scanWindows json f windowLen scanMax fuel s = s' ∨
        0 < s'.pos ∧ s'.scan.stop = false ∧ scanMax ≤ s'.scanned ∧
          scanWindows json f windowLen scanMax fuel s =
            { s' with scan := { s'.scan with truncated := true } }) := by
  induction fuel generalizing s with
  | zero => exact absurd hfuel (Nat.not_lt_zero _)
  | succ fuel ih =>
    unfold scanWindows
    by_cases hend : s.pos = 0 ∨ s.scan.stop = true
    · rw [if_pos hend]
      exact ⟨s, h, .inl ⟨hend, rfl⟩⟩
    · rw [if_neg hend]
      rw [not_or] at hend
      by_cases hbudget : scanMax ≤ s.scanned
      · rw [if_pos hbudget]
        exact ⟨s, h, .inr ⟨Nat.pos_of_ne_zero hend.1, by simpa using hend.2, hbudget, rfl⟩⟩
      · rw [if_neg hbudget]
        have hnext := h.window (s.pos - windowLen) (Nat.sub_le _ _) rfl
        exact ih hnext (by dsimp only; omega)

/-! ## What the lines make of the scan -/

@[simp] theorem StepScan.complete_step (scan : StepScan) (line : Bytes) :
    (scan.complete json line).step = scan.step := by
  unfold StepScan.complete
  dsimp only
  split
  · rfl
  · repeat' split
    all_goals rfl

@[simp] theorem StepScan.complete_firstLine (scan : StepScan) (line : Bytes) :
    (scan.complete json line).firstLine = false := by
  unfold StepScan.complete
  dsimp only
  split
  · rfl
  · repeat' split
    all_goals rfl

/-- Where the scan stands after some lines: `lines` are the ones it shows, `lost` whether it left
one out, and `cap` its budget. -/
structure StepScan.Shows (step : Bytes) (maxLine cap : Nat) (lines : List Bytes) (lost : Bool)
    (scan : StepScan) : Prop where
  step : scan.step = step
  maxLine : scan.maxLine = maxLine
  kept : scan.kept = joinLines (newestWithin lineSize cap lines)
  stop : scan.stop = decide (cap < totalWeight lineSize lines)
  w : scan.stop = false → scan.w + totalWeight lineSize lines = cap
  truncated : scan.truncated = (scan.stop || lost)

section Shows

variable {step : Bytes} {maxLine cap : Nat} {lines : List Bytes} {lost : Bool} {scan : StepScan}

private theorem newestWithin_cons_of_lt {line : Bytes}
    (h : cap < totalWeight lineSize (line :: lines)) :
    newestWithin lineSize cap (line :: lines) = newestWithin lineSize cap lines :=
  if_neg (Nat.not_le.mpr h)

variable (json) in
theorem StepScan.Shows.complete (h : scan.Shows step maxLine cap lines lost) (line : Bytes)
    (hcounts : scan.firstLine = true → line ≠ [] → scan.jsonl = false)
    (hstop : scan.stop = false) :
    StepScan.Shows step maxLine cap
      (if shows json step maxLine line then line :: lines else lines)
      (decide (maxLine < line.length) || lost) (scan.complete json line) := by
  obtain ⟨rfl, rfl, hkept, hstopEq, hw, htrunc⟩ := h
  have hw := hw hstop
  have hfits : totalWeight lineSize lines ≤ cap := by omega
  have htorn : ¬ (scan.firstLine && decide (line ≠ []) && scan.jsonl) = true := by
    simp only [Bool.and_eq_true, decide_eq_true_eq, not_and]
    rintro ⟨hfirst, hne⟩ hjsonl
    rw [hcounts hfirst hne] at hjsonl
    exact absurd hjsonl (by simp)
  unfold StepScan.complete shows
  dsimp only
  rw [if_neg htorn]
  by_cases hempty : line = []
  · subst hempty
    simp only [if_true, ne_eq, not_true, decide_false, Bool.false_and, Bool.false_eq_true, if_false]
    exact ⟨rfl, rfl, hkept, hstopEq, fun _ => hw, by simpa using htrunc⟩
  · rw [if_neg hempty]
    by_cases hlong : scan.maxLine < line.length
    · have hnot : ¬ line.length ≤ scan.maxLine := Nat.not_le.mpr hlong
      simp only [hlong, if_true, hnot, decide_false, Bool.and_false, Bool.false_and,
        Bool.false_eq_true, if_false, decide_true, Bool.true_or]
      exact ⟨rfl, rfl, hkept, hstopEq, fun _ => hw, by simp⟩
    · have hshort : line.length ≤ scan.maxLine := Nat.not_lt.mp hlong
      by_cases hmatch : matchesBytes json line scan.step = true
      · simp only [hlong, if_false, hmatch, Bool.not_true, Bool.false_eq_true, ne_eq, hempty,
          not_false_eq_true, decide_true, hshort, Bool.and_true, if_true, decide_false,
          Bool.false_or]
        by_cases hroom : scan.w < line.length + 1
        · have hover : cap < totalWeight lineSize (line :: lines) := by
            rw [totalWeight_cons, lineSize]
            omega
          rw [if_pos hroom]
          exact ⟨rfl, rfl, by rw [newestWithin_cons_of_lt hover]; exact hkept,
            (decide_eq_true hover).symm, fun h => absurd h (by simp), rfl⟩
        · have hle : totalWeight lineSize (line :: lines) ≤ cap := by
            rw [totalWeight_cons, lineSize]
            omega
          rw [if_neg hroom]
          refine ⟨rfl, rfl, ?_, ?_, fun _ => ?_, htrunc⟩
          · rw [newestWithin_of_le hle, joinLines_cons, hkept, newestWithin_of_le hfits]
          · rw [decide_eq_false (Nat.not_lt.mpr hle)]
            exact hstop
          · rw [totalWeight_cons, lineSize]
            dsimp only
            omega
      · simp only [hlong, if_false, hmatch, Bool.not_false, if_true, Bool.and_false,
          Bool.false_eq_true, decide_false, Bool.false_or]
        exact ⟨rfl, rfl, hkept, hstopEq, fun _ => hw, htrunc⟩

theorem StepScan.Shows.stopped (h : scan.Shows step maxLine cap lines lost)
    (hstop : scan.stop = true) (line : Bytes) (lost' : Bool) :
    scan.Shows step maxLine cap
      (if shows json step maxLine line then line :: lines else lines) lost' := by
  obtain ⟨hstep, hmax, hkept, hstopEq, hw, htrunc⟩ := h
  have hover : cap < totalWeight lineSize lines := by simpa [hstop] using hstopEq
  refine ⟨hstep, hmax, ?_, ?_, fun h => absurd (hstop.symm.trans h) (by simp), ?_⟩
  · split
    · rw [newestWithin_cons_of_lt (by rw [totalWeight_cons]; omega), hkept]
    · exact hkept
  · split
    · rw [hstop, decide_eq_true (by rw [totalWeight_cons]; omega)]
    · exact hstopEq
  · rw [htrunc, hstop, Bool.true_or, Bool.true_or]

variable (json) in
theorem StepScan.Shows.completeAll (h : scan.Shows step maxLine cap lines lost)
    (hfirst : scan.firstLine = false) (older : List Bytes) :
    StepScan.Shows step maxLine cap (older.filter (shows json step maxLine) ++ lines)
      (older.any (fun line => decide (maxLine < line.length)) || lost)
      (scan.completeAll json older) ∧ (scan.completeAll json older).firstLine = false := by
  induction older with
  | nil => exact ⟨h, hfirst⟩
  | cons line older ih =>
    obtain ⟨ih, ihFirst⟩ := ih
    rw [StepScan.completeAll_cons, List.any_cons, Bool.or_assoc, List.filter_cons]
    have hcons : (if shows json step maxLine line then
          line :: older.filter (shows json step maxLine)
        else older.filter (shows json step maxLine)) ++ lines =
        if shows json step maxLine line then
          line :: (older.filter (shows json step maxLine) ++ lines)
        else older.filter (shows json step maxLine) ++ lines := by
      split <;> rfl
    rw [hcons]
    by_cases hstop : (scan.completeAll json older).stop = true
    · rw [if_pos hstop]
      exact ⟨ih.stopped hstop line _, ihFirst⟩
    · rw [if_neg hstop]
      refine ⟨ih.complete json line (fun h => ?_) (by simpa using hstop), ?_⟩
      · rw [ihFirst] at h
        exact absurd h (by simp)
      · exact StepScan.complete_firstLine _ line

end Shows

def LocalFile.keepsUnterminated (f : LocalFile) : Bool :=
  decide (f.kind = .legacy)

private theorem start_shows (f : LocalFile) (step : Bytes) (t maxLine : Nat) :
    (StepScan.start f step t maxLine).Shows step maxLine (min t (f.len + 1)) [] false := by
  refine ⟨rfl, rfl, rfl, ?_, fun _ => ?_, rfl⟩ <;> simp [StepScan.start]

variable (json) in
private theorem start_complete (f : LocalFile) (step : Bytes) (t maxLine : Nat) (rest : Bytes) :
    StepScan.Shows step maxLine (min t (f.len + 1))
      (if f.keepsUnterminated && shows json step maxLine rest then [rest] else [])
      (f.keepsUnterminated && decide (maxLine < rest.length) ||
        (!f.keepsUnterminated && decide (rest ≠ [])))
      ((StepScan.start f step t maxLine).complete json rest) := by
  have hstart := start_shows f step t maxLine
  unfold LocalFile.keepsUnterminated
  cases hkind : f.kind with
  | legacy =>
    have hline := hstart.complete json rest
      (fun _ _ => by simp [StepScan.start, hkind]) rfl
    simpa using hline
  | jsonl =>
    by_cases hrest : rest = []
    · have hline := hstart.complete json rest (fun _ h => absurd hrest h) rfl
      simpa [hrest, shows] using hline
    · have htorn : (StepScan.start f step t maxLine).complete json rest =
          { StepScan.start f step t maxLine with firstLine := false, truncated := true } := by
        simp [StepScan.complete, StepScan.start, hkind, hrest]
      rw [htorn]
      obtain ⟨hstep, hmax, hkept, hstop, hw, -⟩ := hstart
      simpa [hrest] using (⟨hstep, hmax, hkept, hstop, hw, by simp⟩ :
        StepScan.Shows step maxLine (min t (f.len + 1)) [] true
          { StepScan.start f step t maxLine with firstLine := false, truncated := true })

variable (json) in
theorem start_completeAll (f : LocalFile) (step : Bytes) (t maxLine : Nat) {pieces : List Bytes}
    (hne : pieces ≠ []) :
    ((StepScan.start f step t maxLine).completeAll json pieces).Shows step maxLine
      (min t (f.len + 1)) (shownLines json step maxLine f.keepsUnterminated pieces)
      (leavesOut maxLine f.keepsUnterminated pieces) := by
  obtain ⟨front, rest, rfl⟩ := List.eq_nil_or_concat pieces |>.resolve_left hne
  rw [List.concat_eq_append, StepScan.completeAll_append]
  have hfirst : (StepScan.start f step t maxLine).completeAll json [rest] =
      (StepScan.start f step t maxLine).complete json rest := rfl
  have hall := ((start_complete json f step t maxLine rest).completeAll json
    (StepScan.complete_firstLine _ rest) front).1
  rw [hfirst]
  unfold shownLines leavesOut writtenLines
  cases hkeep : f.keepsUnterminated with
  | true =>
    rw [hkeep] at hall
    simpa [List.filter_cons] using hall
  | false =>
    rw [hkeep] at hall
    simpa using hall

/-! ## The tail of a step -/

variable (json) in
theorem scanTail_spec (f : LocalFile) (step : Bytes) (t maxLine scanMax : Nat) :
    ∃ s' : Scanning, s'.Reads json f (StepScan.start f step t maxLine) ∧
      ((s'.pos = 0 ∨ s'.scan.stop = true) ∧ scanTail json f step t maxLine scanMax = s' ∨
        0 < s'.pos ∧ s'.scan.stop = false ∧ scanMax ≤ s'.scanned ∧
          scanTail json f step t maxLine scanMax =
          { s' with scan := { s'.scan with truncated := true } }) := by
  refine scanWindows_spec (by omega) ?_ (Nat.lt_succ_self f.len)
  refine ⟨Nat.zero_add _, [], [], ?_, List.not_mem_nil, rfl,
    fun _ => Pending.represents_clear _⟩
  simp [LocalFile.len]

private theorem splitOn_drop_suffix {content piece : Bytes} {pieces : List Bytes} {pos : Nat}
    (h : (content.drop pos).splitOn newline = piece :: pieces) :
    pieces <:+ content.splitOn newline := by
  have hall := splitOn_append_of_splitOn (content.take pos) h
  rw [List.take_append_drop] at hall
  rw [hall]
  exact List.suffix_append _ _

private theorem newestWithin_min {t bound : Nat} {lines : List Bytes}
    (h : totalWeight lineSize lines ≤ bound) :
    newestWithin lineSize (min t bound) lines = newestWithin lineSize t lines := by
  by_cases ht : t ≤ bound
  · rw [Nat.min_eq_left ht]
  · rw [newestWithin_of_le (by omega), newestWithin_of_le (by omega)]

private theorem scan_eq_completeAll {f : LocalFile} {start : StepScan} {s : Scanning}
    (h : s.Reads json f start) (hend : s.pos = 0 ∨ s.scan.stop = true) :
    (if s.pos = 0 ∧ ¬ s.scan.stop = true then s.scan.completePending json s.pending else s.scan) =
      start.completeAll json (f.content.splitOn newline) := by
  obtain ⟨-, piece, pieces, hsplit, -, hscan, hpending⟩ := h
  by_cases hstop : s.scan.stop = true
  · rw [if_neg (fun h => h.2 hstop)]
    obtain ⟨older, holder⟩ := splitOn_drop_suffix hsplit
    rw [← holder, StepScan.completeAll_append, ← hscan, StepScan.completeAll_of_stop hstop]
  · have hpos := hend.resolve_right hstop
    have hmax : s.scan.maxLine = start.maxLine := by
      rw [hscan, StepScan.completeAll_maxLine]
    have hrep := hpending (by simpa using hstop)
    rw [← hmax] at hrep
    rw [if_pos ⟨hpos, hstop⟩, StepScan.completePending_eq hrep]
    rw [hpos, List.drop_zero] at hsplit
    rw [hsplit, StepScan.completeAll_cons, ← hscan, if_neg hstop]

theorem tailStep_eq (f : LocalFile) (step : Bytes) (t maxLine scanMax : Nat)
    (hbudget : ¬ BudgetExhausted json f step t maxLine scanMax) :
    (tailStep json f step t maxLine scanMax).map (fun r => (r.logs, r.truncated)) =
      (utf8 (joinLines (newestWithin lineSize t
        (stepLines json step maxLine f.keepsUnterminated f.content)))).map
        (fun logs => (logs, decide (t < totalWeight lineSize
            (stepLines json step maxLine f.keepsUnterminated f.content)) ||
          leavesOut maxLine f.keepsUnterminated (f.content.splitOn newline))) := by
  obtain ⟨s, hreads, ⟨hend, hs⟩ | ⟨hpos, hstop, -, hs⟩⟩ := scanTail_spec json f step t
    maxLine scanMax
  · have hall := scan_eq_completeAll hreads hend
    have hshows := start_completeAll json f step t maxLine
      (List.splitOn_ne_nil newline f.content)
    have hroom := totalWeight_stepLines_le json step maxLine f.keepsUnterminated f.content
    rw [← hall] at hshows
    unfold tailStep
    dsimp only
    rw [hs, hshows.kept, hshows.truncated, hshows.stop]
    have hcap : newestWithin lineSize (min t (f.len + 1))
        (shownLines json step maxLine f.keepsUnterminated (f.content.splitOn newline)) =
        newestWithin lineSize t (stepLines json step maxLine f.keepsUnterminated f.content) :=
      newestWithin_min hroom
    have hover : (min t (f.len + 1) < totalWeight lineSize
        (shownLines json step maxLine f.keepsUnterminated (f.content.splitOn newline))) ↔
        t < totalWeight lineSize
          (stepLines json step maxLine f.keepsUnterminated f.content) := by
      unfold stepLines LocalFile.len at *
      omega
    have hpos : 0 < s.pos → t < totalWeight lineSize
        (stepLines json step maxLine f.keepsUnterminated f.content) := by
      intro hpos
      have hstop := hend.resolve_left (Nat.ne_of_gt hpos)
      rw [if_neg fun h => h.2 hstop] at hshows
      exact hover.mp (by simpa [hstop] using hshows.stop)
    have hflag : (decide (t < totalWeight lineSize
          (stepLines json step maxLine f.keepsUnterminated f.content)) ||
          leavesOut maxLine f.keepsUnterminated (f.content.splitOn newline) ||
          decide (0 < s.pos)) =
        (decide (t < totalWeight lineSize
          (stepLines json step maxLine f.keepsUnterminated f.content)) ||
          leavesOut maxLine f.keepsUnterminated (f.content.splitOn newline)) := by
      by_cases h : 0 < s.pos
      · simp [hpos h]
      · simp [h]
    rw [hcap, decide_eq_decide.mpr hover, hflag]
    cases utf8 (joinLines (newestWithin lineSize t
      (stepLines json step maxLine f.keepsUnterminated f.content))) <;> rfl
  · refine absurd ⟨?_, ?_⟩ hbudget
    · rw [hs]
      exact hpos
    · rw [hs]
      exact hstop

theorem not_budgetExhausted {f : LocalFile} {step : Bytes} {t maxLine scanMax : Nat}
    (h : f.len ≤ scanMax) : ¬ BudgetExhausted json f step t maxLine scanMax := by
  rintro ⟨hpos, hstop⟩
  obtain ⟨s, hreads, ⟨hend, hs⟩ | ⟨hpos', -, hused, -⟩⟩ := scanTail_spec json f step t
    maxLine scanMax
  · rw [hs] at hpos hstop
    obtain hzero | hstopped := hend
    · omega
    · exact absurd (hstop.symm.trans hstopped) (by simp)
  · have hscanned := hreads.scanned
    omega

private theorem shownLines_suffix (step : Bytes) (maxLine : Nat) (keep : Bool)
    {newer pieces : List Bytes} (hne : newer ≠ []) (h : newer <:+ pieces) :
    shownLines json step maxLine keep newer <:+ shownLines json step maxLine keep pieces := by
  obtain ⟨older, rfl⟩ := h
  unfold shownLines writtenLines
  split
  · rw [List.filter_append]
    exact List.suffix_append _ _
  · rw [List.dropLast_append_of_ne_nil hne, List.filter_append]
    exact List.suffix_append _ _

theorem tailStep_spec {f : LocalFile} {step : Bytes} {t maxLine scanMax : Nat} {r : LocalTail}
    (h : tailStep json f step t maxLine scanMax = .ok r) :
    ∃ lines, lines <:+ stepLines json step maxLine f.keepsUnterminated f.content ∧
      r.logs = joinLines lines ∧ totalWeight lineSize lines ≤ t ∧
      (r.truncated = false →
        lines = stepLines json step maxLine f.keepsUnterminated f.content ∧
        leavesOut maxLine f.keepsUnterminated (f.content.splitOn newline) = false) := by
  by_cases hbudget : BudgetExhausted json f step t maxLine scanMax
  · obtain ⟨s, hreads, ⟨hend, hs⟩ | ⟨hpos, hstop, -, hs⟩⟩ := scanTail_spec json f step t
      maxLine scanMax
    · obtain ⟨hpos, hstop⟩ := hbudget
      rw [hs] at hpos hstop
      obtain hzero | hstopped := hend
      · omega
      · exact absurd (hstop.symm.trans hstopped) (by simp)
    · obtain ⟨-, piece, pieces, hsplit, -, hscan, -⟩ := hreads
      unfold tailStep at h
      dsimp only at h
      rw [hs] at h
      simp only [Nat.ne_of_gt hpos, false_and, if_false] at h
      have hkept : ∃ lines, lines <:+ stepLines json step maxLine f.keepsUnterminated f.content ∧
          s.scan.kept = joinLines lines ∧ totalWeight lineSize lines ≤ t := by
        by_cases hpieces : pieces = []
        · subst hpieces
          exact ⟨[], List.nil_suffix, by rw [hscan]; rfl, Nat.zero_le _⟩
        · have hshows := start_completeAll json f step t maxLine hpieces
          refine ⟨_, (newestWithin_suffix _ _ _).trans
            (shownLines_suffix step maxLine f.keepsUnterminated hpieces
              (splitOn_drop_suffix hsplit)), by rw [hscan, hshows.kept], ?_⟩
          exact (totalWeight_newestWithin_le _ _ _).trans (Nat.min_le_left _ _)
      obtain ⟨lines, hsuffix, hlogs, htotal⟩ := hkept
      obtain ⟨-, rfl⟩ := utf8_map_eq_ok.mp h
      exact ⟨lines, hsuffix, hlogs, htotal, fun ht => absurd ht (by simp)⟩
  · have heq := tailStep_eq f step t maxLine scanMax hbudget
    rw [h] at heq
    obtain ⟨-, hpair⟩ := utf8_map_eq_ok.mp heq.symm
    obtain ⟨hlogs, htrunc⟩ := Prod.mk.inj hpair
    refine ⟨_, newestWithin_suffix _ _ _, hlogs.symm, totalWeight_newestWithin_le _ _ _,
      fun ht => ?_⟩
    rw [ht] at htrunc
    obtain ⟨hfits, hlost⟩ := Bool.or_eq_false_iff.mp htrunc
    exact ⟨newestWithin_of_le (Nat.not_lt.mp (of_decide_eq_false hfits)), hlost⟩

end Stroem.LogRead
