import Stroem.Foundation.StableSort
import Stroem.Foundation.JsonText
import Stroem.LogRead.Merge

/-!
# Merged logs as sorted unions

`merge_jsonl_logs` gives the lines of both texts in one strict order, by timestamp and then by
where a line first stands.  That order decides the result, so merging is associative and leaves a
merged log as it is.
-/

namespace Stroem.LogRead

open Stroem.Foundation
open Stroem.Foundation.JsonText

/-! ## The timestamp of a written line -/

def tsName : Bytes := [116, 115]

theorem afterFirst_append {pattern text rest : Bytes} (h : Misses pattern text rest) :
    afterFirst pattern (text ++ rest) = afterFirst pattern rest := by
  induction text with
  | nil => rfl
  | cons b text ih =>
    rw [List.cons_append, afterFirst, if_neg h.1]
    exact ih h.2

theorem afterFirst_prefix (pattern rest : Bytes) :
    afterFirst pattern (pattern ++ rest) = some rest := by
  cases pattern with
  | nil => cases rest <;> simp [afterFirst]
  | cons b pattern =>
    have hpre : b :: pattern <+: b :: (pattern ++ rest) := ⟨rest, rfl⟩
    rw [List.cons_append, afterFirst, if_pos hpre]
    simp

theorem extractTs_write {value : Bytes} (hvalue : Plain value)
    {before : List (Bytes × Value)} (after : List (Bytes × Value))
    (hkeys : ∀ key ∈ keysMembers before, ¬ ReadsAs tsName key) :
    extractTs (write (.obj (before ++ (tsName, .str value) :: after))) = some value := by
  obtain ⟨lead, tail, hwrite, hmisses⟩ :=
    @write_obj_member tsName value (by decide +kernel) before after hkeys
  have hstart : tsKey = memberStart tsName := rfl
  have hfind : (value ++ quote :: tail).findIdx? (· == 34) = some value.length := by
    rw [List.findIdx?_append, List.findIdx?_eq_none_iff.mpr, List.findIdx?_cons]
    · simp [quote]
    · intro b hb
      refine beq_eq_false_iff_ne.mpr ?_
      rintro rfl
      exact hvalue.quote_not_mem hb
  rw [extractTs, hwrite, hstart, afterFirst_append hmisses, afterFirst_prefix, hvalue.escaped_eq,
    Option.bind_some, hfind]
  simp

/-! ## Timestamps as keys -/

theorem tsLe_total (a b : Bytes) : tsLe a b ∨ tsLe b a := by
  unfold tsLe
  cases extractTs a with
  | none => exact .inl trivial
  | some x =>
    cases extractTs b with
    | none => exact .inr trivial
    | some y => exact List.le_total x y

theorem tsLe_trans (a b c : Bytes) (hab : tsLe a b) (hbc : tsLe b c) : tsLe a c := by
  unfold tsLe at *
  cases ha : extractTs a with
  | none => trivial
  | some x =>
    cases hb : extractTs b with
    | none =>
      rw [ha, hb] at hab
      exact hab.elim
    | some y =>
      rw [ha, hb] at hab
      cases hc : extractTs c with
      | none =>
        rw [hb, hc] at hbc
        exact hbc.elim
      | some z =>
        rw [hb, hc] at hbc
        exact List.le_trans hab hbc

/-! ## First appearances -/

theorem firstSeen_concat (lines : List Bytes) (line : Bytes) :
    firstSeen (lines ++ [line]) =
      if line ∈ lines then firstSeen lines else firstSeen lines ++ [line] := by
  have hmem := @mem_firstSeen lines line
  unfold firstSeen at hmem ⊢
  rw [List.foldl_append, List.foldl_cons, List.foldl_nil]
  by_cases h : line ∈ lines
  · rw [if_pos h, if_pos (hmem.mpr h)]
  · rw [if_neg h, if_neg fun hs => h (hmem.mp hs)]

theorem firstSeen_filter (p : Bytes → Bool) (lines : List Bytes) :
    firstSeen (lines.filter p) = (firstSeen lines).filter p := by
  induction lines using List.reverseRecOn with
  | nil => rfl
  | append_singleton lines line ih =>
    rw [List.filter_append, firstSeen_concat]
    by_cases hp : p line = true
    · rw [List.filter_cons_of_pos hp, List.filter_nil, firstSeen_concat, ih]
      by_cases hmem : line ∈ lines
      · rw [if_pos (List.mem_filter.mpr ⟨hmem, hp⟩), if_pos hmem]
      · rw [if_neg fun h => hmem (List.mem_filter.mp h).1, if_neg hmem, List.filter_append,
          List.filter_cons_of_pos hp, List.filter_nil]
    · rw [List.filter_cons_of_neg hp, List.filter_nil, List.append_nil, ih]
      split
      · rfl
      · rw [List.filter_append, List.filter_cons_of_neg hp, List.filter_nil, List.append_nil]

theorem firstSeen_pairwise (lines : List Bytes) :
    (firstSeen lines).Pairwise fun x y => lines.idxOf x < lines.idxOf y := by
  induction lines using List.reverseRecOn with
  | nil => exact List.Pairwise.nil
  | append_singleton lines line ih =>
    have hold : (firstSeen lines).Pairwise fun x y =>
        (lines ++ [line]).idxOf x < (lines ++ [line]).idxOf y := by
      refine List.Pairwise.imp_of_mem ?_ ih
      intro x y hx hy hlt
      rwa [List.idxOf_append_of_mem (mem_firstSeen.mp hx),
        List.idxOf_append_of_mem (mem_firstSeen.mp hy)]
    rw [firstSeen_concat]
    by_cases hmem : line ∈ lines
    · rwa [if_pos hmem]
    · rw [if_neg hmem]
      refine List.pairwise_append.mpr ⟨hold, List.pairwise_singleton _ _, ?_⟩
      intro x hx y hy
      obtain rfl := List.mem_singleton.mp hy
      rw [List.idxOf_append_of_mem (mem_firstSeen.mp hx), List.idxOf_append_of_notMem hmem]
      have hlen := List.idxOf_lt_length_of_mem (mem_firstSeen.mp hx)
      omega

/-! ## The order of merged lines -/

theorem mergeLines_pairwise (lines : List Bytes) :
    (mergeLines lines).Pairwise (StableLt tsLe lines) := by
  unfold mergeLines
  rw [firstSeen_filter]
  exact pairwise_insertionSort_tie tsLe_total tsLe_trans
    ((firstSeen_pairwise lines).filter _)

theorem mergeLines_unique {lines merged : List Bytes}
    (hsorted : merged.Pairwise (StableLt tsLe lines))
    (hmem : ∀ line, line ∈ merged ↔ line ∈ lines ∧ line ≠ []) : merged = mergeLines lines :=
  hsorted.eq_of_mem_iff (mergeLines_pairwise lines) fun line => by
    rw [hmem, mem_mergeLines]

theorem mergeLines_merged_append (front back : List Bytes) :
    mergeLines (mergeLines front ++ back) = mergeLines (front ++ back) := by
  refine mergeLines_unique ?_ ?_
  · refine pairwise_stableLt_congr ?_ (mergeLines_pairwise _)
    intro x hx y hy _ hyx hlt
    have hne : ∀ z ∈ mergeLines (mergeLines front ++ back), z ∈ mergeLines front ∨ z ∉ front := by
      intro z hz
      by_cases hzf : z ∈ front
      · exact .inl (mem_mergeLines.mpr ⟨hzf, (mem_mergeLines.mp hz).2⟩)
      · exact .inr hzf
    exact idxOf_lt_of_sorted_append (mergeLines_pairwise front) (hne x hx) (hne y hy)
      (fun z hz => (mem_mergeLines.mp hz).1) hyx hlt
  · intro line
    simp only [mem_mergeLines, List.mem_append]
    tauto

theorem mergeLines_append_merged (front back : List Bytes) :
    mergeLines (front ++ mergeLines back) = mergeLines (front ++ back) := by
  refine mergeLines_unique ?_ ?_
  · refine pairwise_stableLt_congr ?_ (mergeLines_pairwise _)
    intro x _ y hy _ hyx hlt
    exact idxOf_lt_of_append_sorted (mergeLines_pairwise back)
      (List.mem_append.mp (mem_mergeLines.mp hy).1) hyx hlt
  · intro line
    simp only [mem_mergeLines, List.mem_append]
    tauto

theorem mergeLines_merged_twice (lines : List Bytes) :
    mergeLines (mergeLines lines ++ mergeLines lines) = mergeLines lines := by
  symm
  refine mergeLines_unique ?_ ?_
  · refine pairwise_stableLt_congr ?_ (mergeLines_pairwise lines)
    intro x hx y hy hxy hyx hlt
    rw [@List.idxOf_append_of_mem _ _ (mergeLines lines) _ _ _ hx,
      @List.idxOf_append_of_mem _ _ (mergeLines lines) _ _ _ hy]
    exact idxOf_lt_of_stableLt (mergeLines_pairwise lines) hx hy ⟨hxy, fun _ => hlt⟩
  · intro line
    simp only [mem_mergeLines, List.mem_append]
    tauto

/-! ## Texts -/

def CrFree (text : Bytes) : Prop :=
  ∀ line ∈ text.splitOn newline, line.getLast? ≠ some carriageReturn

instance (text : Bytes) : Decidable (CrFree text) :=
  inferInstanceAs (Decidable (∀ line ∈ text.splitOn newline, _))

theorem stripCr_eq_self {line : Bytes} (h : line.getLast? ≠ some carriageReturn) :
    stripCr line = line :=
  if_neg h

theorem strLines_of_crFree {text : Bytes} (h : CrFree text) :
    strLines text = (text.splitOn newline).dropLast ++
      if tornEnd text = [] then [] else [tornEnd text] := by
  have hmap : (text.splitOn newline).dropLast.map stripCr =
      (text.splitOn newline).dropLast.map id :=
    List.map_congr_left fun line hline =>
      stripCr_eq_self (h line (List.mem_of_mem_dropLast hline))
  rw [strLines, hmap, List.map_id]

theorem mem_strLines {text line : Bytes} (h : CrFree text) (hne : line ≠ []) :
    line ∈ strLines text ↔ line ∈ text.splitOn newline := by
  rw [strLines_of_crFree h]
  conv_rhs => rw [← List.dropLast_append_getLast (List.splitOn_ne_nil newline text)]
  rw [← tornEnd_eq_getLast, List.mem_append, List.mem_append]
  refine or_congr_right ?_
  split
  · rename_i htorn
    rw [htorn]
    simp [hne]
  · rfl

def Whole (line : Bytes) : Prop := newline ∉ line ∧ line.getLast? ≠ some carriageReturn

theorem whole_of_mem_strLines {text line : Bytes} (h : CrFree text) (hline : line ∈ strLines text) :
    Whole line := by
  have hmem : line ∈ text.splitOn newline := by
    rw [strLines_of_crFree h] at hline
    obtain hmem | hmem := List.mem_append.mp hline
    · exact List.mem_of_mem_dropLast hmem
    · split at hmem
      · exact absurd hmem List.not_mem_nil
      · rw [List.mem_singleton.mp hmem, tornEnd_eq_getLast]
        exact List.getLast_mem _
  exact ⟨not_mem_of_mem_splitOn hmem, h line hmem⟩

theorem strLines_joinLines {lines : List Bytes} (h : ∀ line ∈ lines, Whole line) :
    strLines (joinLines lines) = lines := by
  have heq := strLines_joinLines_append (fun line hline => (h line hline).1)
    (@List.not_mem_nil _ newline)
  rw [List.append_nil, if_pos rfl, List.append_nil] at heq
  rw [heq]
  calc lines.map stripCr = lines.map id :=
        List.map_congr_left fun line hline => stripCr_eq_self (h line hline).2
    _ = lines := List.map_id lines

theorem whole_of_mem_mergeLines {a b line : Bytes} (ha : CrFree a) (hb : CrFree b)
    (h : line ∈ mergeLines (strLines a ++ strLines b)) : Whole line := by
  obtain hmem | hmem := List.mem_append.mp (mem_mergeLines.mp h).1
  · exact whole_of_mem_strLines ha hmem
  · exact whole_of_mem_strLines hb hmem

theorem strLines_mergeJsonlLogs {a b : Bytes} (ha : CrFree a) (hb : CrFree b) :
    strLines (mergeJsonlLogs a b) = mergeLines (strLines a ++ strLines b) :=
  strLines_joinLines fun _ => whole_of_mem_mergeLines ha hb

theorem mergeJsonlLogs_assoc {a b c : Bytes} (ha : CrFree a) (hb : CrFree b) (hc : CrFree c) :
    mergeJsonlLogs (mergeJsonlLogs a b) c = mergeJsonlLogs a (mergeJsonlLogs b c) := by
  calc mergeJsonlLogs (mergeJsonlLogs a b) c
      = joinLines (mergeLines (mergeLines (strLines a ++ strLines b) ++ strLines c)) := by
        rw [mergeJsonlLogs, strLines_mergeJsonlLogs ha hb]
    _ = joinLines (mergeLines (strLines a ++ mergeLines (strLines b ++ strLines c))) := by
        rw [mergeLines_merged_append, mergeLines_append_merged, List.append_assoc]
    _ = mergeJsonlLogs a (mergeJsonlLogs b c) := by
        rw [mergeJsonlLogs, strLines_mergeJsonlLogs hb hc]

theorem mergeJsonlLogs_self {a b : Bytes} (ha : CrFree a) (hb : CrFree b) :
    mergeJsonlLogs (mergeJsonlLogs a b) (mergeJsonlLogs a b) = mergeJsonlLogs a b := by
  rw [mergeJsonlLogs, strLines_mergeJsonlLogs ha hb, mergeLines_merged_twice]
  rfl

/--
Merging is a sorted union of lines, associative and idempotent, sorted by the members `ts` as they
are written.
-/
theorem mergeJsonlLogs_sortedUnion {a b c : Bytes} (ha : CrFree a) (hb : CrFree b)
    (hc : CrFree c) :
    (∃ lines, mergeJsonlLogs a b = joinLines lines ∧ strLines (mergeJsonlLogs a b) = lines ∧
      lines.Nodup ∧
      (∀ line, line ∈ lines ↔
        line ≠ [] ∧ (line ∈ a.splitOn newline ∨ line ∈ b.splitOn newline)) ∧
      lines.Pairwise (StableLt tsLe (strLines a ++ strLines b))) ∧
    mergeJsonlLogs (mergeJsonlLogs a b) c = mergeJsonlLogs a (mergeJsonlLogs b c) ∧
    mergeJsonlLogs (mergeJsonlLogs a b) (mergeJsonlLogs a b) = mergeJsonlLogs a b ∧
    ∀ (before : List (Bytes × Value)) (value : Bytes) (after : List (Bytes × Value)),
      Plain value → (∀ key ∈ keysMembers before, ¬ ReadsAs tsName key) →
        extractTs (write (.obj (before ++ (tsName, .str value) :: after))) = some value := by
  have hsorted := mergeLines_pairwise (strLines a ++ strLines b)
  refine ⟨⟨mergeLines (strLines a ++ strLines b), rfl, strLines_mergeJsonlLogs ha hb,
    hsorted.nodup, ?_, hsorted⟩, mergeJsonlLogs_assoc ha hb hc, mergeJsonlLogs_self ha hb,
    fun before value after hvalue hkeys => extractTs_write hvalue after hkeys⟩
  intro line
  rw [mem_mergeLines, List.mem_append, and_comm]
  refine and_congr_right fun hne => ?_
  rw [mem_strLines ha hne, mem_strLines hb hne]

theorem mergeJsonlLogs_sortedUnion_overlap :
    mergeJsonlLogs [98, 10, 10, 97] [98, 10, 99, 10] = [98, 10, 97, 10, 99, 10] ∧
      mergeJsonlLogs (mergeJsonlLogs [98, 10, 10, 97] [98, 10, 99, 10]) [100] =
        mergeJsonlLogs [98, 10, 10, 97] (mergeJsonlLogs [98, 10, 99, 10] [100]) :=
  ⟨by decide +kernel,
    (@mergeJsonlLogs_sortedUnion [98, 10, 10, 97] [98, 10, 99, 10] [100] (by decide +kernel)
      (by decide +kernel) (by decide +kernel)).2.1⟩

/-- An unterminated last line keeps its carriage return and loses it the next time; and a key
that ends in `"ts` is taken for the timestamp. -/
theorem carriageReturn_lost :
    (¬ [carriageReturn, newline] <:+: ([120, 13] : Bytes) ∧
      ¬ [carriageReturn, newline] <:+: ([] : Bytes) ∧
      mergeJsonlLogs (mergeJsonlLogs [120, 13] []) (mergeJsonlLogs [120, 13] []) ≠
        mergeJsonlLogs [120, 13] []) ∧
    extractTs (write (.obj ([([97, 34, 116, 115], .str [120])] ++ (tsName, .str [121]) :: []))) ≠
      some [121] := by
  decide +kernel

end Stroem.LogRead
