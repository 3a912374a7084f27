import Stroem.LogRead.Backward
import Stroem.LogRead.Ring

/-!
# Local and archived tails agree

The same bytes give the same tail, whether they are read backwards from a `.jsonl` file or
forwards from the archive stream.
-/

namespace Stroem.LogRead

open Stroem.Foundation

def LocalTail.visible (r : LocalTail) : Bytes × Bool :=
  (r.logs, r.truncated)

def ArchiveTail.visible (r : ArchiveTail) : Bytes × Bool :=
  (r.logs, r.truncated)

private theorem torn_eq_trimTorn (buf : Bytes) (head : Nat) :
    (buf.take
        (if decide (head < buf.length) && decide (buf.getLast? ≠ some newline) then
          head + lastLineEndIn (buf.drop head)
        else buf.length)).drop head = (trimTorn (buf.drop head)).1 ∧
      (decide (head < buf.length) && decide (buf.getLast? ≠ some newline)) =
        (trimTorn (buf.drop head)).2 := by
  by_cases hhead : head < buf.length
  · have hlast : (buf.drop head).getLast? = buf.getLast? := by
      rw [List.getLast?_drop, if_neg (by omega)]
    have hne : buf ≠ [] := by
      rintro rfl
      exact absurd hhead (Nat.not_lt_zero _)
    have hsome := List.getLast?_eq_some_getLast hne
    unfold trimTorn
    rw [hlast, hsome]
    by_cases hnl : buf.getLast hne = newline
    · simp [hnl]
    · have hbeq : (buf.getLast hne == newline) = false := beq_eq_false_iff_ne.mpr hnl
      simp only [hhead, decide_true, ne_eq, Option.some.injEq, hnl, not_false_eq_true,
        Bool.and_self, if_true, Option.all_some, hbeq, Bool.false_eq_true, if_false, and_true]
      rw [List.drop_take, Nat.add_sub_cancel_left]
  · have hdrop : buf.drop head = [] := List.drop_eq_nil_of_le (Nat.not_lt.mp hhead)
    simp [hhead, hdrop, trimTorn]

def windowLines (content : Bytes) (t : Nat) : Bytes :=
  let start := content.length - t
  (content.drop start).drop
    (if start = 0 ∨ content[start - 1]? = some newline then 0
    else (position (content.drop start)).elim (content.drop start).length (· + 1))

private theorem window_head {content : Bytes} {start : Nat} (hpos : 0 < start)
    (hle : start ≤ content.length) :
    (content.drop (start - 1)).drop
        (if (content.drop (start - 1)).head? = some newline then 1
        else (position (content.drop (start - 1))).elim (content.drop (start - 1)).length (· + 1)) =
      (content.drop start).drop
        (if content[start - 1]? = some newline then 0
        else (position (content.drop start)).elim (content.drop start).length (· + 1)) := by
  have hindex : start - 1 < content.length := by omega
  have hcons : content.drop (start - 1) = content[start - 1] :: content.drop start := by
    have h := List.drop_eq_getElem_cons hindex
    rwa [Nat.sub_add_cancel hpos] at h
  rw [hcons, List.head?_cons, List.getElem?_eq_getElem hindex]
  generalize content[start - 1] = b
  by_cases hb : b = newline
  · simp [hb]
  · have hbeq : (b == newline) = false := beq_eq_false_iff_ne.mpr hb
    simp only [Option.some.injEq, hb, if_false]
    unfold position
    rw [List.findIdx?_cons, hbeq]
    cases (content.drop start).findIdx? (· == newline) with
    | none => simp
    | some p => simp

theorem tailUnfiltered_eq (f : LocalFile) (t : Nat) :
    (tailUnfiltered f t).map LocalTail.visible =
      (utf8 (if f.keepsUnterminated then windowLines f.content t
        else (trimTorn (windowLines f.content t)).1)).map fun logs =>
        (logs, decide (t < f.len) ||
          (!f.keepsUnterminated && (trimTorn (windowLines f.content t)).2)) := by
  obtain ⟨content, kind⟩ := f
  unfold tailUnfiltered LocalFile.keepsUnterminated
  dsimp only [LocalFile.len, readRangeExact]
  rw [List.take_length]
  generalize hhead : (if content.length - t = 0 then 0
    else if (content.drop (content.length - t - 1)).head? = some newline then 1
    else (position (content.drop (content.length - t - 1))).elim
      (content.drop (content.length - t - 1)).length (· + 1)) = head
  have hwindow : (content.drop (content.length - t - 1)).drop head = windowLines content t := by
    unfold windowLines
    dsimp only
    by_cases hall : content.length - t = 0
    · rw [if_pos hall] at hhead
      rw [if_pos (.inl hall), ← hhead, hall]
    · rw [if_neg hall] at hhead
      rw [← hhead, window_head (Nat.pos_of_ne_zero hall) (Nat.sub_le _ _)]
      simp only [hall, false_or]
  have hevicted : decide (0 < content.length - t) = decide (t < content.length) := by
    rw [decide_eq_decide]
    omega
  obtain ⟨htext, htorn⟩ := torn_eq_trimTorn (content.drop (content.length - t - 1)) head
  rw [hevicted]
  cases kind with
  | jsonl =>
    simp only [decide_true, Bool.true_and, reduceCtorEq, decide_false, Bool.false_eq_true,
      if_false, Bool.not_false]
    rw [htext, htorn, hwindow]
    cases utf8 (trimTorn (windowLines content t)).1 <;> rfl
  | legacy =>
    simp only [reduceCtorEq, decide_false, Bool.false_and, Bool.false_eq_true, if_false,
      decide_true, if_true, Bool.not_true, Bool.or_false, List.take_length]
    rw [hwindow]
    cases utf8 (windowLines content t) <;> rfl

theorem byteRingTail_eq (reader : Reader) (t : Nat) :
    (byteRingTail reader t).map ArchiveTail.visible =
      (utf8 (trimTorn (windowLines reader.content t)).1).map fun logs =>
        (logs, decide (t < reader.content.length) ||
          (trimTorn (windowLines reader.content t)).2) := by
  unfold byteRingTail
  rw [byteRing_eq]
  generalize reader.content = content
  dsimp only [ringOf]
  have hevicted : decide ((content.drop (content.length - t)).length < content.length) =
      decide (t < content.length) := by
    rw [List.length_drop, decide_eq_decide]
    omega
  have hwindow : (content.drop (content.length - t)).drop
      (if (decide (t < content.length) && decide ((if content.length ≤ t then none
          else content[content.length - t - 1]?) ≠ some newline)) = true then
        (position (content.drop (content.length - t))).elim
          (content.drop (content.length - t)).length (· + 1)
      else 0) = windowLines content t := by
    unfold windowLines
    dsimp only
    by_cases hall : content.length ≤ t
    · have hnot : ¬ t < content.length := Nat.not_lt.mpr hall
      have hzero : content.length - t = 0 := Nat.sub_eq_zero_of_le hall
      simp [hnot, hzero]
    · have hlt : t < content.length := Nat.lt_of_not_le hall
      have hne : content.length - t ≠ 0 := by omega
      by_cases hnl : content[content.length - t - 1]? = some newline
      · simp [hall, hlt, hnl]
      · simp [hall, hlt, hnl, hne]
  rw [hevicted, hwindow]
  cases utf8 (trimTorn (windowLines content t)).1 <;> rfl

theorem tailUnfiltered_eq_byteRingTail (reader : Reader) (t : Nat) :
    (tailUnfiltered ⟨reader.content, .jsonl⟩ t).map LocalTail.visible =
      (byteRingTail reader t).map ArchiveTail.visible := by
  rw [tailUnfiltered_eq, byteRingTail_eq]
  rfl

/--
Local and archived tails agree, in text, error and `truncated`, for every content, however the
archive stream is cut.
-/
theorem local_archive_tails_agree (json : SerdeJson) (reader : Reader) (t : Nat) :
    (∀ step maxLine scanMax,
      ¬ BudgetExhausted json ⟨reader.content, .jsonl⟩ step t maxLine scanMax →
      (tailStep json ⟨reader.content, .jsonl⟩ step t maxLine scanMax).map LocalTail.visible =
        (lineRingTail json reader step t maxLine).map ArchiveTail.visible) ∧
    (tailUnfiltered ⟨reader.content, .jsonl⟩ t).map LocalTail.visible =
      (byteRingTail reader t).map ArchiveTail.visible := by
  refine ⟨fun step maxLine scanMax hbudget => ?_, tailUnfiltered_eq_byteRingTail reader t⟩
  have hlocal := tailStep_eq _ _ _ _ _ hbudget
  have harchive := lineRingTail_eq json reader step t maxLine
  exact hlocal.trans harchive.symm

def recordOf (name : UInt8) : Bytes :=
  [123, 34] ++ stepKey ++ [34, 58, 34, name, 34, 125]

def recordJson : SerdeJson := fun record =>
  record[9]?.bind fun name =>
    if record = recordOf name ∨ record = recordOf name ++ [13] then some [(stepKey, some [name])]
    else none

def cutRecords : Reader where
  chunks := [recordOf 97 ++ newline :: (recordOf 98).take 4,
    (recordOf 98).drop 4 ++ newline :: recordOf 97, [newline]]
  nonempty := by decide

theorem local_archive_tails_agree_cutRecords :
    (lineRingTail recordJson cutRecords [97] 20 64).map ArchiveTail.visible =
      .ok (recordOf 97 ++ [newline], true) :=
  ((local_archive_tails_agree recordJson cutRecords 20).1 [97] 64 100
    (by decide +kernel)).symm.trans (by decide +kernel)

end Stroem.LogRead

/-!
# The tail of a step

What `tailStep` returns, in terms of the file's lines alone: the longest run of the step's newest
lines that fits, and a flag that is false only if nothing was left out.
-/

namespace Stroem.LogRead

open Stroem.Foundation

variable {json : SerdeJson}

theorem isUtf8_joinLines {lines : List Bytes} (h : ∀ line ∈ lines, isUtf8 line = true) :
    isUtf8 (joinLines lines) = true := by
  induction lines with
  | nil => rfl
  | cons line lines ih =>
    rw [joinLines_cons]
    refine isUtf8_append (h line List.mem_cons_self) ?_
    rw [isUtf8_ascii (by decide)]
    exact ih fun line hline => h line (List.mem_cons_of_mem _ hline)

theorem isUtf8_of_mem_stepLines {step line : Bytes} {maxLine : Nat} {keep : Bool}
    {content : Bytes} (h : line ∈ stepLines json step maxLine keep content) :
    isUtf8 line = true := by
  have hshows := List.of_mem_filter h
  unfold shows matchesBytes at hshows
  simp only [Bool.and_eq_true] at hshows
  exact hshows.2.1

structure LeftNothingOut (f : LocalFile) (maxLine : Nat) : Prop where
  short : ∀ line ∈ writtenLines f.keepsUnterminated (f.content.splitOn newline),
    line.length ≤ maxLine
  whole : f.kind = .jsonl → tornEnd f.content = []

theorem leftNothingOut_of_leavesOut {f : LocalFile} {maxLine : Nat}
    (h : leavesOut maxLine f.keepsUnterminated (f.content.splitOn newline) = false) :
    LeftNothingOut f maxLine := by
  obtain ⟨hlong, htorn⟩ := Bool.or_eq_false_iff.mp h
  refine ⟨fun line hline => ?_, fun hkind => ?_⟩
  · have hnot := List.any_eq_false.mp hlong line hline
    exact Nat.not_lt.mp fun hlt => hnot (decide_eq_true hlt)
  · have hkeep : f.keepsUnterminated = false := by
      unfold LocalFile.keepsUnterminated
      rw [hkind]
      rfl
    rw [hkeep, Bool.not_false, Bool.true_and] at htorn
    unfold tornEnd
    rw [List.getLastD_eq_getLast?]
    cases hlast : (f.content.splitOn newline).getLast? with
    | none => rfl
    | some rest =>
      rw [hlast] at htorn
      exact Decidable.not_not.mp (of_decide_eq_false htorn)

/-- With budget to spare, the tail is the longest run of the step's newest lines that fits. -/
theorem tailStep_longest (json : SerdeJson) (f : LocalFile) (step : Bytes)
    (t maxLine scanMax : Nat) (hbudget : ¬ BudgetExhausted json f step t maxLine scanMax) :
    ∃ r lines, tailStep json f step t maxLine scanMax = .ok r ∧ r.logs = joinLines lines ∧
      lines <:+ stepLines json step maxLine f.keepsUnterminated f.content ∧
      totalWeight lineSize lines ≤ t ∧
      (∀ longer, longer <:+ stepLines json step maxLine f.keepsUnterminated f.content →
        totalWeight lineSize longer ≤ t → longer <:+ lines) ∧
      (r.truncated = false →
        lines = stepLines json step maxLine f.keepsUnterminated f.content ∧
        LeftNothingOut f maxLine) := by
  have heq := tailStep_eq f step t maxLine scanMax hbudget
  have hsuffix := newestWithin_suffix lineSize t
    (stepLines json step maxLine f.keepsUnterminated f.content)
  have hutf8 := isUtf8_joinLines fun line hline => isUtf8_of_mem_stepLines (hsuffix.subset hline)
  rw [utf8, if_pos hutf8] at heq
  cases hresult : tailStep json f step t maxLine scanMax with
  | error e =>
    rw [hresult] at heq
    cases heq
  | ok r =>
    rw [hresult] at heq
    obtain ⟨hlogs, htrunc⟩ := Prod.mk.inj (Except.ok.inj heq)
    refine ⟨r, _, rfl, hlogs, hsuffix, totalWeight_newestWithin_le _ _ _,
      fun longer hlonger hle => suffix_newestWithin hlonger hle, fun hfull => ?_⟩
    rw [hfull] at htrunc
    obtain ⟨hfits, hlost⟩ := Bool.or_eq_false_iff.mp htrunc.symm
    exact ⟨newestWithin_of_le (Nat.not_lt.mp (of_decide_eq_false hfits)),
      leftNothingOut_of_leavesOut hlost⟩

theorem tailStep_longest_cutRecords :
    ∃ r lines,
      tailStep recordJson ⟨recordOf 97 ++ newline :: recordOf 97 ++ newline :: [123], .jsonl⟩
        [97] 20 64 100 = .ok r ∧ r.logs = joinLines lines ∧ totalWeight lineSize lines ≤ 20 := by
  obtain ⟨r, lines, hok, hlogs, -, hfits, -⟩ := tailStep_longest recordJson
    ⟨recordOf 97 ++ newline :: recordOf 97 ++ newline :: [123], .jsonl⟩ [97] 20 64 100
    (by decide +kernel)
  exact ⟨r, lines, hok, hlogs, hfits⟩

end Stroem.LogRead
