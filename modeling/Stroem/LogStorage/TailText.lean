import Mathlib.Data.List.Induction
import Stroem.LogStorage

/-!
# What each source's tail is

The tail of one source, local or archived, filtered or not: a piece of the log that begins at a
line start, and all of it when nothing was left out.
-/

namespace Stroem.LogStorage

open Stroem.Foundation Stroem.LogRead

/-! ## Suffixes that begin at a line start -/

def LineSuffix (whole text : Bytes) : Prop :=
  text = [] ∨ ∃ before, whole = before ++ text ∧
    (before = [] ∨ before.getLast? = some newline)

theorem LineSuffix.suffix {whole text : Bytes} (h : LineSuffix whole text) : text <:+ whole := by
  obtain rfl | ⟨before, rfl, -⟩ := h
  · exact List.nil_suffix
  · exact List.suffix_append before text

theorem LineSuffix.startsLine {whole text : Bytes} (h : LineSuffix whole text) :
    StartsLine whole text := by
  obtain rfl | ⟨before, rfl, hbefore⟩ := h
  · exact StartsLine.nil whole
  · exact ⟨before, [], by simp, hbefore⟩

theorem lineSuffix_joinLines {xs ys : List Bytes} (h : xs <:+ ys) :
    LineSuffix (joinLines ys) (joinLines xs) := by
  obtain ⟨zs, rfl⟩ := h
  refine .inr ⟨joinLines zs, joinLines_append zs xs, ?_⟩
  induction zs using List.reverseRecOn with
  | nil => exact .inl rfl
  | append_singleton zs z _ =>
    right
    simp

theorem lastLineEndIn_append {before : Bytes} (text : Bytes)
    (h : before = [] ∨ before.getLast? = some newline) :
    lastLineEndIn (before ++ text) = before.length + lastLineEndIn text := by
  unfold lastLineEndIn
  cases hp : rposition text with
  | some k =>
    obtain ⟨front, rest, rfl, rfl, hrest⟩ := rposition_eq_some hp
    rw [← List.append_assoc, rposition_append_cons _ hrest, Option.elim_some,
      List.length_append]
    rfl
  | none =>
    have htext := rposition_eq_none_iff.mp hp
    obtain rfl | hlast := h
    · rw [List.nil_append, hp]
      rfl
    · obtain ⟨front, rfl⟩ := List.getLast?_eq_some_iff.mp hlast
      rw [List.append_assoc, List.singleton_append, rposition_append_cons _ htext]
      simp

theorem LineSuffix.take_lastLineEnd {whole text : Bytes} (h : LineSuffix whole text) :
    LineSuffix (whole.take (lastLineEndIn whole)) (text.take (lastLineEndIn text)) := by
  obtain rfl | ⟨before, rfl, hbefore⟩ := h
  · exact .inl List.take_nil
  · refine .inr ⟨before, ?_, hbefore⟩
    rw [lastLineEndIn_append text hbefore, List.take_length_add_append]

/-! ## Torn ends -/

theorem trimTorn_fst (buf : Bytes) : (trimTorn buf).1 = buf.take (lastLineEndIn buf) := by
  unfold trimTorn
  split
  · rename_i hlast
    cases buf using List.reverseRecOn with
    | nil => rfl
    | append_singleton front b =>
      rw [List.getLast?_concat] at hlast
      simp only [Option.all_some, beq_iff_eq] at hlast
      subst hlast
      have hend : lastLineEndIn (front ++ [newline]) = front.length + 1 := by
        unfold lastLineEndIn
        rw [rposition_append_cons _ List.not_mem_nil]
        rfl
      rw [hend, List.take_of_length_le (by simp)]
  · rfl

theorem take_lastLineEndIn_append_tornEnd (content : Bytes) :
    content.take (lastLineEndIn content) ++ tornEnd content = content := by
  unfold lastLineEndIn tornEnd
  cases hp : rposition content with
  | none =>
    rw [List.splitOn_eq_singleton (rposition_eq_none_iff.mp hp)]
    rfl
  | some k =>
    obtain ⟨before, after, rfl, rfl, hafter⟩ := rposition_eq_some hp
    rw [Option.elim_some, List.splitOn_append_cons_self, List.splitOn_eq_singleton hafter,
      List.getLastD_concat]
    have htake : (before ++ newline :: after).take (before.length + 1) =
        before ++ [newline] := by
      rw [List.take_append]
      simp
    rw [htake]
    simp

theorem trimTorn_snd (buf : Bytes) : (trimTorn buf).2 = decide (tornEnd buf ≠ []) := by
  have hsplit := take_lastLineEndIn_append_tornEnd buf
  have hfst := trimTorn_fst buf
  unfold trimTorn at hfst ⊢
  split
  · rename_i hlast
    rw [if_pos hlast] at hfst
    dsimp only at hfst
    rw [← hfst] at hsplit
    simpa using hsplit
  · rename_i hlast
    have htorn : tornEnd buf ≠ [] := by
      intro hnil
      rw [hnil, List.append_nil] at hsplit
      unfold lastLineEndIn at hsplit
      cases hp : rposition buf with
      | none =>
        rw [hp] at hsplit
        rw [← hsplit] at hlast
        simp at hlast
      | some k =>
        obtain ⟨before, after, hbuf, rfl, -⟩ := rposition_eq_some hp
        rw [hp, Option.elim_some] at hsplit
        have htake : (before ++ newline :: after).take (before.length + 1) =
            before ++ [newline] := by
          rw [List.take_append]
          simp
        rw [hbuf, htake] at hsplit
        rw [hbuf, ← hsplit] at hlast
        simp at hlast
    simp [htorn]

theorem take_lastLineEndIn_of_tornEnd {content : Bytes} (h : tornEnd content = []) :
    content.take (lastLineEndIn content) = content := by
  have hsplit := take_lastLineEndIn_append_tornEnd content
  rwa [h, List.append_nil] at hsplit

/-! ## Windows of whole lines -/

theorem windowLines_spec (content : Bytes) (t : Nat) :
    LineSuffix content (windowLines content t) ∧
      (windowLines content t).length ≤ t ∧
      (content.length ≤ t → windowLines content t = content) := by
  unfold windowLines
  dsimp only
  refine ⟨?_, ?_, fun hall => ?_⟩
  · by_cases hstart : content.length - t = 0
    · refine .inr ⟨[], ?_, .inl rfl⟩
      rw [if_pos (.inl hstart), hstart]
      rfl
    · by_cases hnl : content[content.length - t - 1]? = some newline
      · refine .inr ⟨content.take (content.length - t), ?_, .inr ?_⟩
        · rw [if_pos (.inr hnl), List.drop_zero, List.take_append_drop]
        · rw [List.getLast?_take, if_neg hstart, hnl]
          rfl
      · rw [if_neg (by rw [not_or]; exact ⟨hstart, hnl⟩)]
        cases hp : position (content.drop (content.length - t)) with
        | none =>
          rw [Option.elim_none, List.drop_length]
          exact .inl rfl
        | some p =>
          obtain ⟨line, rest, hdrop, rfl, -⟩ := position_eq_some hp
          refine .inr ⟨content.take (content.length - t) ++ line ++ [newline], ?_,
            .inr (by simp)⟩
          have hcontent := (List.take_append_drop (content.length - t) content).symm
          rw [hdrop] at hcontent
          rw [Option.elim_some, hdrop]
          have hrest : (line ++ newline :: rest).drop (line.length + 1) = rest := by simp
          rw [hrest]
          conv_lhs => rw [hcontent]
          simp
  · rw [List.length_drop, List.length_drop]
    omega
  · have hstart : content.length - t = 0 := Nat.sub_eq_zero_of_le hall
    rw [if_pos (.inl hstart), hstart]
    rfl

/-! ## The tail of one source -/

variable {json : SerdeJson}

/-- Nothing of the file is out of a tail's reach: no torn record, and for a step no line over the
limit. -/
def NothingLost (maxLine : Nat) (f : LocalFile) (filter : Option Bytes) : Prop :=
  match filter with
  | none => f.keepsUnterminated = false → tornEnd f.content = []
  | some _ => leavesOut maxLine f.keepsUnterminated (f.content.splitOn newline) = false

theorem localTail_spec {cfg : LogReadConfig} {f : LocalFile} {filter : Option Bytes} {t : Nat}
    {l : LocalTail} (h : localTail json cfg f filter t = .ok l) :
    l.logs.length ≤ t ∧ LineSuffix (f.fullText json filter cfg.maxLineBytes) l.logs ∧
      (l.truncated = false →
        l.logs = f.fullText json filter cfg.maxLineBytes ∧
        NothingLost cfg.maxLineBytes f filter) := by
  cases filter with
  | some step =>
    obtain ⟨lines, hsuffix, hlogs, htotal, hwhole⟩ := tailStep_spec h
    rw [hlogs, length_joinLines]
    refine ⟨htotal, lineSuffix_joinLines hsuffix, fun ht => ?_⟩
    obtain ⟨rfl, hlost⟩ := hwhole ht
    exact ⟨rfl, hlost⟩
  | none =>
    have heq := tailUnfiltered_eq f t
    obtain ⟨hsuffix, hlen, hall⟩ := windowLines_spec f.content t
    unfold localTail at h
    rw [show tailUnfiltered f t = .ok l from h] at heq
    obtain ⟨-, hpair⟩ := utf8_map_eq_ok.mp heq.symm
    obtain ⟨hlogs, htrunc⟩ := Prod.mk.inj hpair
    unfold LocalFile.fullText NothingLost
    dsimp only
    cases hkeep : f.keepsUnterminated with
    | true =>
      rw [hkeep, if_pos rfl] at hlogs
      rw [hkeep, Bool.not_true, Bool.false_and, Bool.or_false] at htrunc
      rw [if_pos rfl, ← hlogs]
      refine ⟨hlen, hsuffix, fun ht => ⟨hall ?_, fun h => absurd h (by simp)⟩⟩
      rw [ht] at htrunc
      exact Nat.not_lt.mp (of_decide_eq_false htrunc)
    | false =>
      rw [hkeep, if_neg (by simp), trimTorn_fst] at hlogs
      rw [hkeep, Bool.not_false, Bool.true_and, trimTorn_snd] at htrunc
      rw [if_neg (by simp), ← hlogs]
      refine ⟨?_, hsuffix.take_lastLineEnd, fun ht => ?_⟩
      · rw [List.length_take]
        omega
      · rw [ht] at htrunc
        obtain ⟨hfits, htorn⟩ := Bool.or_eq_false_iff.mp htrunc
        have hwindow := hall (Nat.not_lt.mp (of_decide_eq_false hfits))
        rw [hwindow] at htorn ⊢
        exact ⟨rfl, fun _ => by simpa using htorn⟩

def archivedFile (content : Bytes) : LocalFile where
  content := content
  kind := .jsonl

theorem archiveTailOf_spec {obj : ArchiveObject} {filter : Option Bytes} {t maxLine : Nat}
    {a : ArchiveTail} (h : archiveTailOf json obj filter t maxLine = some a) :
    ∃ reader, obj.decoding = .decodes reader ∧ a.logs.length ≤ t ∧
      LineSuffix ((archivedFile reader.content).fullText json filter maxLine) a.logs ∧
      (a.truncated = false →
        a.logs = (archivedFile reader.content).fullText json filter maxLine ∧
        NothingLost maxLine (archivedFile reader.content) filter) := by
  unfold archiveTailOf at h
  cases hdec : obj.decoding with
  | fails primed =>
    rw [hdec] at h
    cases h
  | decodes reader =>
    rw [hdec] at h
    dsimp only at h
    have htoLocal : ∃ l : LocalTail, localTail json
        ⟨reader.content.length, maxLine, 0, 0⟩ (archivedFile reader.content) filter t = .ok l ∧
        l.visible = a.visible := by
      have hlocal : (localTail json ⟨reader.content.length, maxLine, 0, 0⟩
          (archivedFile reader.content) filter t).map LocalTail.visible = .ok a.visible := by
        cases filter with
        | none =>
          have heq := tailUnfiltered_eq_byteRingTail reader t
          dsimp only at h
          cases hring : byteRingTail reader t with
          | error e =>
            rw [hring] at h
            cases h
          | ok r =>
            rw [hring] at h heq
            cases h
            exact heq
        | some step =>
          have heq := (tailStep_eq (archivedFile reader.content) step t maxLine
            reader.content.length (not_budgetExhausted le_rfl)).trans
            (lineRingTail_eq json reader step t maxLine).symm
          dsimp only at h
          cases hring : lineRingTail json reader step t maxLine with
          | error e =>
            rw [hring] at h
            cases h
          | ok r =>
            rw [hring] at h heq
            cases h
            exact heq
      cases hl : localTail json ⟨reader.content.length, maxLine, 0, 0⟩
          (archivedFile reader.content) filter t with
      | error e =>
        rw [hl] at hlocal
        cases hlocal
      | ok l =>
        rw [hl] at hlocal
        exact ⟨l, rfl, Except.ok.inj hlocal⟩
    obtain ⟨l, hl, hvisible⟩ := htoLocal
    obtain ⟨hlogs, htrunc⟩ := Prod.mk.inj hvisible
    have hspec := localTail_spec hl
    rw [hlogs, htrunc] at hspec
    exact ⟨reader, rfl, hspec⟩

end Stroem.LogStorage
