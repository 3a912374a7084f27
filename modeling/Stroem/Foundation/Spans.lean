import Mathlib.Data.List.Basic
import Mathlib.Data.List.Sort
import Mathlib.Data.List.Infix
import Mathlib.Tactic.Common

/-!
# Masking the occurrences of words in a text

A text is a list of symbols.  The occurrences of a word, overlapping ones included, are spans of
positions; spans that meet are merged, and every merged span is replaced by a mask.  When the
mask and a word have no symbol in common, the word does not occur in the masked text.
-/

namespace Stroem.Foundation

variable {spans : List (Nat × Nat)} {span current : Nat × Nat} {i : Nat}

variable {α : Type*}

def occurrences [DecidableEq α] (word : List α) : Nat → List α → List (Nat × Nat)
  | at_, [] => if word.isPrefixOf [] then [(at_, at_ + word.length)] else []
  | at_, c :: text =>
    if word.isPrefixOf (c :: text) then
      (at_, at_ + word.length) :: occurrences word (at_ + 1) text
    else occurrences word (at_ + 1) text

def spanLe (a b : Nat × Nat) : Prop := a.1 < b.1 ∨ a.1 = b.1 ∧ a.2 ≤ b.2

instance : DecidableRel spanLe := fun _ _ => inferInstanceAs (Decidable (_ ∨ _))

def mergeFrom (current : Nat × Nat) : List (Nat × Nat) → List (Nat × Nat)
  | [] => [current]
  | span :: spans =>
    if span.1 ≤ current.2 then mergeFrom (current.1, max current.2 span.2) spans
    else current :: mergeFrom span spans

def mergeSpans (spans : List (Nat × Nat)) : List (Nat × Nat) :=
  match spans.insertionSort spanLe with
  | [] => []
  | span :: spans => mergeFrom span spans

def maskSpans (mask text : List α) : Nat → List (Nat × Nat) → List α
  | cursor, [] => text.drop cursor
  | cursor, span :: spans =>
    (text.drop cursor).take (span.1 - cursor) ++ mask ++ maskSpans mask text span.2 spans

/-! ## Occurrences -/

def OccursAt (word text : List α) (position : Nat) : Prop := word <+: text.drop position

variable {word text : List α}

theorem infix_iff_occursAt :
    word <:+: text ↔ ∃ position, position ≤ text.length ∧ OccursAt word text position := by
  constructor
  · rintro ⟨before, after, rfl⟩
    refine ⟨before.length, by simp, after, ?_⟩
    simp
  · rintro ⟨position, -, hoccurs⟩
    exact hoccurs.isInfix.trans (List.drop_suffix position text).isInfix

theorem mem_occurrences [DecidableEq α] {start b e : Nat} :
    (b, e) ∈ occurrences word start text ↔ start ≤ b ∧ b ≤ start + text.length ∧
      OccursAt word text (b - start) ∧ e = b + word.length := by
  induction text generalizing start with
  | nil =>
    rw [occurrences]
    by_cases hword : word.isPrefixOf [] = true
    · rw [if_pos hword]
      have hprefix : word <+: [] := List.isPrefixOf_iff_prefix.mp hword
      simp only [List.mem_singleton, Prod.mk.injEq, List.length_nil, Nat.add_zero]
      constructor
      · rintro ⟨rfl, rfl⟩
        exact ⟨Nat.le_refl _, Nat.le_refl _, by simpa [OccursAt] using hprefix, rfl⟩
      · rintro ⟨hle, hge, -, he⟩
        have hb : b = start := by omega
        exact ⟨hb, by rw [he, hb]⟩
    · rw [if_neg hword]
      simp only [List.not_mem_nil, false_iff]
      rintro ⟨-, -, hoccurs, -⟩
      rw [OccursAt, List.drop_nil] at hoccurs
      exact hword (List.isPrefixOf_iff_prefix.mpr hoccurs)
  | cons c text ih =>
    have hhead : word.isPrefixOf (c :: text) = true ↔ OccursAt word (c :: text) 0 :=
      List.isPrefixOf_iff_prefix
    have htail : (b, e) ∈ occurrences word (start + 1) text ↔
        start < b ∧ b ≤ start + (c :: text).length ∧ OccursAt word (c :: text) (b - start) ∧
          e = b + word.length := by
      rw [ih]
      refine and_congr_right fun hlt => ?_
      have hshift : b - start = b - (start + 1) + 1 := by omega
      rw [hshift, List.length_cons, OccursAt, OccursAt, List.drop_succ_cons,
        show start + 1 + text.length = start + (text.length + 1) by omega]
    have hzero : (b, e) = (start, start + word.length) → b - start = 0 := by
      intro heq
      rw [(Prod.mk.inj heq).1]
      exact Nat.sub_self start
    rw [occurrences]
    by_cases hword : word.isPrefixOf (c :: text) = true
    · rw [if_pos hword, List.mem_cons, htail]
      constructor
      · rintro (heq | ⟨hlt, hrest⟩)
        · obtain ⟨rfl, rfl⟩ := Prod.mk.inj heq
          exact ⟨Nat.le_refl _, Nat.le_add_right _ _, by simpa using hhead.mp hword, rfl⟩
        · exact ⟨Nat.le_of_lt hlt, hrest⟩
      · rintro ⟨hle, hrest⟩
        obtain hlt | heq := Nat.lt_or_eq_of_le hle
        · exact .inr ⟨hlt, hrest⟩
        · subst heq
          exact .inl (by rw [hrest.2.2])
    · rw [if_neg hword, htail]
      constructor
      · rintro ⟨hlt, hrest⟩
        exact ⟨Nat.le_of_lt hlt, hrest⟩
      · rintro ⟨hle, hge, hoccurs, he⟩
        refine ⟨Nat.lt_of_le_of_ne hle ?_, hge, hoccurs, he⟩
        rintro rfl
        rw [Nat.sub_self] at hoccurs
        exact hword (hhead.mpr hoccurs)

theorem occurrences_eq_nil [DecidableEq α] (h : ¬ word <:+: text) (start : Nat) :
    occurrences word start text = [] := by
  refine List.eq_nil_iff_forall_not_mem.mpr fun span hspan => ?_
  obtain ⟨hle, hge, hoccurs, -⟩ := mem_occurrences.mp hspan
  exact h (infix_iff_occursAt.mpr ⟨span.1 - start, by omega, hoccurs⟩)

/-! ## Merging -/

def Separated : Nat → List (Nat × Nat) → Prop
  | _, [] => True
  | cursor, span :: spans => cursor ≤ span.1 ∧ span.1 ≤ span.2 ∧ Separated span.2 spans

theorem Separated.mono {cursor cursor' : Nat}
    (h : Separated cursor spans) (hle : cursor' ≤ cursor) : Separated cursor' spans := by
  cases spans with
  | nil => trivial
  | cons span spans => exact ⟨Nat.le_trans hle h.1, h.2⟩

theorem Separated.le_of_mem {cursor : Nat} (h : Separated cursor spans)
    (hspan : span ∈ spans) : cursor ≤ span.1 := by
  induction spans generalizing cursor with
  | nil => cases hspan
  | cons first spans ih =>
    obtain ⟨hcursor, hfirst, hrest⟩ := h
    obtain rfl | hspan := List.mem_cons.mp hspan
    · exact hcursor
    · exact Nat.le_trans (Nat.le_trans hcursor hfirst) (ih hrest hspan)

theorem mergeFrom_separated
    (hcurrent : current.1 ≤ current.2) (hvalid : ∀ span ∈ spans, span.1 ≤ span.2)
    (hsorted : (current :: spans).Pairwise fun a b => a.1 ≤ b.1) :
    Separated current.1 (mergeFrom current spans) := by
  induction spans generalizing current with
  | nil => exact ⟨Nat.le_refl _, hcurrent, trivial⟩
  | cons span spans ih =>
    obtain ⟨hfirst, hsorted⟩ := List.pairwise_cons.mp hsorted
    obtain ⟨hspan, hsorted⟩ := List.pairwise_cons.mp hsorted
    have hvalid' : ∀ s ∈ spans, s.1 ≤ s.2 := fun s hs => hvalid s (List.mem_cons_of_mem _ hs)
    rw [mergeFrom]
    split
    · have hopen : (current.1, max current.2 span.2).1 ≤ (current.1, max current.2 span.2).2 :=
        Nat.le_trans hcurrent (Nat.le_max_left _ _)
      refine ih hopen hvalid' ?_
      exact List.pairwise_cons.mpr
        ⟨fun s hs => hfirst s (List.mem_cons_of_mem _ hs), hsorted⟩
    · next hgap =>
      refine ⟨Nat.le_refl _, hcurrent, ?_⟩
      exact (ih (hvalid span List.mem_cons_self) hvalid'
        (List.pairwise_cons.mpr ⟨hspan, hsorted⟩)).mono (by omega)

theorem mergeFrom_covers
    (hspan : span ∈ current :: spans)
    (hsorted : (current :: spans).Pairwise fun a b => a.1 ≤ b.1) :
    ∃ merged ∈ mergeFrom current spans, merged.1 ≤ span.1 ∧ span.2 ≤ merged.2 := by
  induction spans generalizing current span with
  | nil =>
    obtain rfl := List.mem_singleton.mp hspan
    exact ⟨span, by simp [mergeFrom], Nat.le_refl _, Nat.le_refl _⟩
  | cons next spans ih =>
    obtain ⟨hfirst, hrest⟩ := List.pairwise_cons.mp hsorted
    obtain ⟨hnext, htail⟩ := List.pairwise_cons.mp hrest
    have hopen : ((current.1, max current.2 next.2) :: spans).Pairwise
        fun a b => a.1 ≤ b.1 :=
      List.pairwise_cons.mpr ⟨fun s hs => hfirst s (List.mem_cons_of_mem _ hs), htail⟩
    rw [mergeFrom]
    split
    · -- the open span now covers both
      have hwide : ∃ wide ∈ (current.1, max current.2 next.2) :: spans,
          wide.1 ≤ span.1 ∧ span.2 ≤ wide.2 := by
        rw [List.mem_cons, List.mem_cons] at hspan
        obtain rfl | rfl | hspan := hspan
        · exact ⟨_, List.mem_cons_self, Nat.le_refl _, Nat.le_max_left _ _⟩
        · exact ⟨_, List.mem_cons_self, hfirst _ List.mem_cons_self, Nat.le_max_right _ _⟩
        · exact ⟨span, List.mem_cons_of_mem _ hspan, Nat.le_refl _, Nat.le_refl _⟩
      obtain ⟨wide, hwide, hbegin, hend⟩ := hwide
      obtain ⟨merged, hmerged, hbegin', hend'⟩ := ih hwide hopen
      exact ⟨merged, hmerged, Nat.le_trans hbegin' hbegin, Nat.le_trans hend hend'⟩
    · obtain rfl | hspan := List.mem_cons.mp hspan
      · exact ⟨span, List.mem_cons_self, Nat.le_refl _, Nat.le_refl _⟩
      · obtain ⟨merged, hmerged, hcovers⟩ := ih hspan hrest
        exact ⟨merged, List.mem_cons_of_mem _ hmerged, hcovers⟩

theorem sorted_spans (spans : List (Nat × Nat)) :
    (spans.insertionSort spanLe).Pairwise fun a b => a.1 ≤ b.1 := by
  have htotal : Std.Total spanLe := ⟨fun a b => by unfold spanLe; omega⟩
  have htrans : IsTrans (Nat × Nat) spanLe := ⟨fun a b c => by unfold spanLe; omega⟩
  refine (List.pairwise_insertionSort spanLe spans).imp fun {a b} h => ?_
  unfold spanLe at h
  omega

theorem mergeSpans_separated (hvalid : ∀ span ∈ spans, span.1 ≤ span.2) :
    Separated 0 (mergeSpans spans) := by
  have hsorted := sorted_spans spans
  have hvalid' : ∀ span ∈ spans.insertionSort spanLe, span.1 ≤ span.2 := fun span hspan =>
    hvalid span ((List.mem_insertionSort spanLe).mp hspan)
  unfold mergeSpans
  cases hlist : spans.insertionSort spanLe with
  | nil => trivial
  | cons span rest =>
    rw [hlist] at hsorted hvalid'
    exact (mergeFrom_separated (hvalid' span List.mem_cons_self)
      (fun s hs => hvalid' s (List.mem_cons_of_mem _ hs)) hsorted).mono (Nat.zero_le _)

theorem mergeSpans_covers (hspan : span ∈ spans) :
    ∃ merged ∈ mergeSpans spans, merged.1 ≤ span.1 ∧ span.2 ≤ merged.2 := by
  have hsorted := sorted_spans spans
  have hmem := (List.mem_insertionSort spanLe).mpr hspan
  unfold mergeSpans
  cases hlist : spans.insertionSort spanLe with
  | nil =>
    rw [hlist] at hmem
    cases hmem
  | cons first rest =>
    rw [hlist] at hsorted hmem
    exact mergeFrom_covers hmem hsorted

/-! ## Masking -/

theorem infix_append_cons_of_not_mem {before after : List α} {x : α} (hx : x ∉ word)
    (h : word <:+: before ++ x :: after) : word <:+: before ∨ word <:+: after := by
  obtain ⟨first, last, heq⟩ := h
  rw [List.append_assoc] at heq
  obtain ⟨rest, hbefore, hword⟩ | ⟨rest, hfirst, hafter⟩ := List.append_eq_append_iff.mp heq
  · -- the word begins before the symbol, so it ends before it too
    obtain ⟨rest', hrest, hlast⟩ | ⟨rest', hword', hlast⟩ := List.append_eq_append_iff.mp hword
    · exact .inl ⟨first, rest', by rw [hbefore, hrest, List.append_assoc]⟩
    · cases rest' with
      | nil =>
        rw [List.append_nil] at hword'
        exact .inl ⟨first, [], by rw [hbefore, hword', List.append_nil]⟩
      | cons y rest' =>
        obtain ⟨rfl, -⟩ := List.cons.inj hlast
        exact absurd (by rw [hword']; simp) hx
  · cases rest with
    | nil =>
      have hword : word ++ last = x :: after := by simpa using hafter.symm
      cases word with
      | nil => exact .inl (List.nil_infix)
      | cons y word =>
        obtain ⟨rfl, -⟩ := List.cons.inj hword
        exact absurd List.mem_cons_self hx
    | cons y rest =>
      obtain ⟨-, hafter⟩ := List.cons.inj hafter
      refine .inr ⟨rest, last, ?_⟩
      rw [hafter, List.append_assoc]
      rfl

variable {mask : List α}

theorem infix_append_mask {before after : List α} (hmask : mask ≠ [])
    (hdisjoint : ∀ x ∈ mask, x ∉ word) (hword : word ≠ [])
    (h : word <:+: before ++ mask ++ after) : word <:+: before ∨ word <:+: after := by
  induction mask generalizing before with
  | nil => exact absurd rfl hmask
  | cons x mask ih =>
    rw [List.append_assoc, List.cons_append] at h
    obtain hbefore | hrest := infix_append_cons_of_not_mem (hdisjoint x List.mem_cons_self) h
    · exact .inl hbefore
    · cases mask with
      | nil => exact .inr hrest
      | cons y mask =>
        have hinner := ih (by simp) (fun z hz => hdisjoint z (List.mem_cons_of_mem _ hz))
          (show word <:+: [] ++ (y :: mask) ++ after by simpa using hrest)
        obtain hnil | hafter := hinner
        · exact absurd (List.infix_nil.mp hnil) hword
        · exact .inr hafter

theorem not_infix_maskSpans (hmask : mask ≠ []) (hdisjoint : ∀ x ∈ mask, x ∉ word)
    (hword : word ≠ []) {cursor : Nat} (hspans : Separated cursor spans)
    (hcovered : ∀ position, cursor ≤ position → OccursAt word text position →
      ∃ span ∈ spans, span.1 ≤ position ∧ position + word.length ≤ span.2) :
    ¬ word <:+: maskSpans mask text cursor spans := by
  have hpos : 0 < word.length := List.length_pos_iff.mpr hword
  induction spans generalizing cursor with
  | nil =>
    intro h
    obtain ⟨position, -, hoccurs⟩ := infix_iff_occursAt.mp h
    rw [OccursAt, maskSpans, List.drop_drop] at hoccurs
    obtain ⟨span, hspan, -⟩ := hcovered (cursor + position) (Nat.le_add_right _ _) hoccurs
    cases hspan
  | cons span spans ih =>
    obtain ⟨hcursor, hspan, hrest⟩ := hspans
    intro h
    rw [maskSpans] at h
    obtain hbefore | hafter := infix_append_mask hmask hdisjoint hword h
    · obtain ⟨position, hle, hoccurs⟩ := infix_iff_occursAt.mp hbefore
      -- the occurrence lies between the cursor and the span, where no span is
      have hend : position + word.length ≤ span.1 - cursor := by
        have hlen := hoccurs.length_le
        simp only [List.length_drop, List.length_take] at hlen
        omega
      have hin : OccursAt word text (cursor + position) := by
        have hgap : (text.drop cursor).take (span.1 - cursor) <+: text.drop cursor :=
          List.take_prefix _ _
        rw [OccursAt, ← List.drop_drop]
        exact hoccurs.trans (hgap.drop position)
      obtain ⟨covering, hmem, hbegin, hfinish⟩ :=
        hcovered (cursor + position) (Nat.le_add_right _ _) hin
      obtain rfl | hmem := List.mem_cons.mp hmem
      · omega
      · have := hrest.le_of_mem hmem
        omega
    · refine ih hrest (fun position hposition hoccurs => ?_) hafter
      obtain ⟨covering, hmem, hbegin, hfinish⟩ := hcovered position (by omega) hoccurs
      obtain rfl | hmem := List.mem_cons.mp hmem
      · omega
      · exact ⟨covering, hmem, hbegin, hfinish⟩

/-! ## Runs of covered positions -/

def Covered (spans : List (Nat × Nat)) (i : Nat) : Prop := ∃ span ∈ spans, span.1 ≤ i ∧ i < span.2

instance (spans : List (Nat × Nat)) : DecidablePred (Covered spans) := fun i =>
  inferInstanceAs (Decidable (∃ span ∈ spans, span.1 ≤ i ∧ i < span.2))

/-- Keep what is not covered, in its order, and put one mask for every longest run of covered
positions.  `run` tells that the position before `i` was covered. -/
def maskRuns (mask : List α) (covered : Nat → Prop) [DecidablePred covered] :
    Nat → Bool → List α → List α
  | _, _, [] => []
  | i, run, c :: text =>
    if covered i then (if run then [] else mask) ++ maskRuns mask covered (i + 1) true text
    else c :: maskRuns mask covered (i + 1) false text

theorem maskRuns_congr {covered covered' : Nat → Prop} [DecidablePred covered]
    [DecidablePred covered'] (h : ∀ j, i ≤ j → (covered j ↔ covered' j)) (run : Bool)
    (text : List α) : maskRuns mask covered i run text = maskRuns mask covered' i run text := by
  induction text generalizing i run with
  | nil => rfl
  | cons c text ih =>
    have hrest : ∀ j, i + 1 ≤ j → (covered j ↔ covered' j) := fun j hj => h j (by omega)
    rw [maskRuns, maskRuns, ih hrest, ih hrest]
    simp only [h i (Nat.le_refl i)]

section

variable {mask : List α} {covered : Nat → Prop} [DecidablePred covered]

theorem maskRuns_uncovered {kept : List α} (text : List α)
    (h : ∀ j, i ≤ j → j < i + kept.length → ¬covered j) (hne : kept ≠ []) (run : Bool) :
    maskRuns mask covered i run (kept ++ text) =
      kept ++ maskRuns mask covered (i + kept.length) false text := by
  induction kept generalizing i run with
  | nil => exact absurd rfl hne
  | cons c kept ih =>
    rw [List.length_cons] at h
    have hhead : ¬covered i := h i (Nat.le_refl i) (by omega)
    rw [List.cons_append, maskRuns, if_neg hhead, List.length_cons]
    cases kept with
    | nil => rfl
    | cons d kept =>
      rw [ih (fun j hle hlt => h j (by omega) (by omega)) (List.cons_ne_nil d kept)]
      rw [show i + 1 + (d :: kept).length = i + ((d :: kept).length + 1) by omega]
      rfl

theorem maskRuns_of_none {text : List α}
    (h : ∀ j, i ≤ j → j < i + text.length → ¬covered j) (run : Bool) :
    maskRuns mask covered i run text = text := by
  cases text with
  | nil => rfl
  | cons c text =>
    have hall : maskRuns mask covered i run (c :: text ++ []) = (c :: text) ++ [] :=
      maskRuns_uncovered [] h (List.cons_ne_nil c text) run
    rw [List.append_nil] at hall
    exact hall

theorem maskRuns_covered {lost : List α} (text : List α)
    (h : ∀ j, i ≤ j → j < i + lost.length → covered j) :
    maskRuns mask covered i true (lost ++ text) =
      maskRuns mask covered (i + lost.length) true text := by
  induction lost generalizing i with
  | nil => rfl
  | cons c lost ih =>
    rw [List.length_cons] at h
    rw [List.cons_append, maskRuns, if_pos (h i (Nat.le_refl i) (by omega)), if_pos rfl,
      List.nil_append, ih fun j hle hlt => h j (by omega) (by omega), List.length_cons,
      show i + 1 + lost.length = i + (lost.length + 1) by omega]

theorem maskRuns_begin {lost : List α} (text : List α)
    (h : ∀ j, i ≤ j → j < i + lost.length → covered j) (hne : lost ≠ []) :
    maskRuns mask covered i false (lost ++ text) =
      mask ++ maskRuns mask covered (i + lost.length) true text := by
  cases lost with
  | nil => exact absurd rfl hne
  | cons c lost =>
    rw [List.length_cons] at h
    rw [List.cons_append, maskRuns, if_pos (h i (Nat.le_refl i) (by omega)),
      maskRuns_covered text fun j hle hlt => h j (by omega) (by omega), List.length_cons,
      show i + 1 + lost.length = i + (lost.length + 1) by omega]
    rfl

end

def Apart (spans : List (Nat × Nat)) : Prop :=
  (∀ span ∈ spans, span.1 < span.2) ∧ spans.Pairwise fun a b => a.2 < b.1

theorem Apart.tail (h : Apart (span :: spans)) :
    Apart spans :=
  ⟨fun s hs => h.1 s (List.mem_cons_of_mem _ hs), (List.pairwise_cons.mp h.2).2⟩

theorem covered_cons :
    Covered (span :: spans) i ↔ (span.1 ≤ i ∧ i < span.2) ∨ Covered spans i := by
  simp only [Covered, List.mem_cons, exists_eq_or_imp]

theorem covered_congr {spans' : List (Nat × Nat)} (h : ∀ span, span ∈ spans ↔ span ∈ spans')
    (i : Nat) : Covered spans i ↔ Covered spans' i := by
  simp only [Covered, h]

theorem Apart.covered_iff
    (h : Apart (span :: spans)) (hi : i ≤ span.2) :
    Covered (span :: spans) i ↔ span.1 ≤ i ∧ i < span.2 := by
  rw [covered_cons]
  constructor
  · rintro (hin | ⟨other, hother, hbegin, -⟩)
    · exact hin
    · have hgap := (List.pairwise_cons.mp h.2).1 other hother
      omega
  · exact .inl

theorem maskSpans_eq_maskRuns (h : Apart spans) {cursor : Nat} {run : Bool}
    (hcursor : ∀ span ∈ spans, cursor ≤ span.1)
    (hrun : run = true → ∀ span ∈ spans, cursor < span.1)
    (hend : ∀ span ∈ spans, span.2 ≤ text.length) :
    maskSpans mask text cursor spans =
      maskRuns mask (Covered spans) cursor run (text.drop cursor) := by
  induction spans generalizing cursor run with
  | nil =>
    refine (maskRuns_of_none (fun j _ _ hcovered => ?_) run).symm
    obtain ⟨span, hspan, -⟩ := hcovered
    cases hspan
  | cons span spans ih =>
    have hgap : ∀ other ∈ spans, span.2 < other.1 := (List.pairwise_cons.mp h.2).1
    have hne : span.1 < span.2 := h.1 span List.mem_cons_self
    have hbegin : cursor ≤ span.1 := hcursor span List.mem_cons_self
    have hfinish : span.2 ≤ text.length := hend span List.mem_cons_self
    obtain ⟨kept, hkept⟩ : ∃ kept, kept = (text.drop cursor).take (span.1 - cursor) := ⟨_, rfl⟩
    obtain ⟨lost, hlost⟩ : ∃ lost, lost = (text.drop span.1).take (span.2 - span.1) := ⟨_, rfl⟩
    have hkeptLength : kept.length = span.1 - cursor := by
      rw [hkept, List.length_take, List.length_drop]
      omega
    have hlostLength : lost.length = span.2 - span.1 := by
      rw [hlost, List.length_take, List.length_drop]
      omega
    have hsplit : text.drop cursor = kept ++ text.drop span.1 := by
      rw [hkept, show span.1 = cursor + (span.1 - cursor) by omega, ← List.drop_drop,
        show cursor + (span.1 - cursor) - cursor = span.1 - cursor by omega, List.take_append_drop]
    have hsplit' : text.drop span.1 = lost ++ text.drop span.2 := by
      rw [hlost, show span.2 = span.1 + (span.2 - span.1) by omega, ← List.drop_drop,
        show span.1 + (span.2 - span.1) - span.1 = span.2 - span.1 by omega,
        List.take_append_drop]
    -- from the end of the first span on, it covers nothing
    have hcover : ∀ j, span.2 ≤ j → (Covered spans j ↔ Covered (span :: spans) j) := by
      intro j hj
      rw [covered_cons]
      exact ⟨.inr, fun hin => hin.resolve_left fun hspan => by omega⟩
    have htail : maskSpans mask text span.2 spans =
        maskRuns mask (Covered (span :: spans)) span.2 true (text.drop span.2) := by
      rw [ih h.tail (fun other hother => Nat.le_of_lt (hgap other hother))
        (fun _ other hother => hgap other hother)
        fun other hother => hend other (List.mem_cons_of_mem _ hother)]
      exact maskRuns_congr hcover true _
    have hlostNe : lost ≠ [] := List.ne_nil_of_length_pos (by omega)
    have hmask : maskRuns mask (Covered (span :: spans)) span.1 false (text.drop span.1) =
        mask ++ maskRuns mask (Covered (span :: spans)) span.2 true (text.drop span.2) := by
      rw [hsplit', maskRuns_begin _ _ hlostNe, show span.1 + lost.length = span.2 by omega]
      intro j hle hlt
      exact (h.covered_iff (by omega)).mpr ⟨hle, by omega⟩
    rw [maskSpans, htail, ← hkept, hsplit, List.append_assoc]
    cases hkeptCase : kept with
    | nil =>
      rw [hkeptCase, List.length_nil] at hkeptLength
      have hhere : cursor = span.1 := by omega
      have hrunFalse : run = false := by
        refine Bool.eq_false_iff.mpr fun htrue => ?_
        have := hrun htrue span List.mem_cons_self
        omega
      rw [List.nil_append, List.nil_append, hrunFalse, hhere, hmask]
    | cons c kept' =>
      rw [← hkeptCase, maskRuns_uncovered _ _ (by rw [hkeptCase]; simp), hkeptLength,
        show cursor + (span.1 - cursor) = span.1 by omega, hmask]
      intro j hle hlt hcovered
      have := (h.covered_iff (by omega)).mp hcovered
      omega

/-! ## What merging covers -/

theorem mergeFrom_apart
    (hcurrent : current.1 < current.2) (hvalid : ∀ span ∈ spans, span.1 < span.2)
    (hsorted : (current :: spans).Pairwise fun a b => a.1 ≤ b.1) :
    Apart (mergeFrom current spans) := by
  induction spans generalizing current with
  | nil => exact ⟨by simpa [mergeFrom] using hcurrent, List.pairwise_singleton _ _⟩
  | cons span spans ih =>
    obtain ⟨hfirst, hsorted⟩ := List.pairwise_cons.mp hsorted
    have hspan : span.1 < span.2 := hvalid span List.mem_cons_self
    have hvalid' : ∀ s ∈ spans, s.1 < s.2 := fun s hs => hvalid s (List.mem_cons_of_mem _ hs)
    rw [mergeFrom]
    split
    · refine ih (Nat.lt_of_lt_of_le hcurrent (Nat.le_max_left _ _)) hvalid' ?_
      exact List.pairwise_cons.mpr ⟨fun s hs => hfirst s (List.mem_cons_of_mem _ hs),
        (List.pairwise_cons.mp hsorted).2⟩
    · next hgap =>
      have hrest := ih hspan hvalid' hsorted
      have hbegin := mergeFrom_separated (Nat.le_of_lt hspan)
        (fun s hs => Nat.le_of_lt (hvalid' s hs)) hsorted
      refine ⟨fun s hs => ?_, List.pairwise_cons.mpr ⟨fun s hs => ?_, hrest.2⟩⟩
      · obtain rfl | hs := List.mem_cons.mp hs
        · exact hcurrent
        · exact hrest.1 s hs
      · have := hbegin.le_of_mem hs
        omega

theorem covered_mergeFrom
    (hcurrent : current.1 ≤ current.2) (hvalid : ∀ span ∈ spans, span.1 ≤ span.2)
    (hsorted : (current :: spans).Pairwise fun a b => a.1 ≤ b.1) (i : Nat) :
    Covered (mergeFrom current spans) i ↔ Covered (current :: spans) i := by
  induction spans generalizing current with
  | nil => rfl
  | cons span spans ih =>
    obtain ⟨hfirst, hrest⟩ := List.pairwise_cons.mp hsorted
    have hspan : span.1 ≤ span.2 := hvalid span List.mem_cons_self
    have hvalid' : ∀ s ∈ spans, s.1 ≤ s.2 := fun s hs => hvalid s (List.mem_cons_of_mem _ hs)
    rw [mergeFrom]
    split
    · next hmeet =>
      have hopen : ((current.1, max current.2 span.2) :: spans).Pairwise fun a b => a.1 ≤ b.1 :=
        List.pairwise_cons.mpr ⟨fun s hs => hfirst s (List.mem_cons_of_mem _ hs),
          (List.pairwise_cons.mp hrest).2⟩
      have hwide : current.1 ≤ max current.2 span.2 := by omega
      rw [ih hwide hvalid' hopen, covered_cons, covered_cons, covered_cons, ← or_assoc]
      refine or_congr_left ?_
      have hbegin : current.1 ≤ span.1 := hfirst span List.mem_cons_self
      dsimp only
      omega
    · rw [covered_cons, covered_cons, ih hspan hvalid' hrest]

theorem mem_mergeFrom_end {limit : Nat}
    (h : ∀ span ∈ current :: spans, span.2 ≤ limit) :
    ∀ span ∈ mergeFrom current spans, span.2 ≤ limit := by
  induction spans generalizing current with
  | nil => exact h
  | cons span spans ih =>
    have hcurrent : current.2 ≤ limit := h current List.mem_cons_self
    have hspan : span.2 ≤ limit := h span (List.mem_cons_of_mem _ List.mem_cons_self)
    have hrest : ∀ s ∈ spans, s.2 ≤ limit := fun s hs =>
      h s (List.mem_cons_of_mem _ (List.mem_cons_of_mem _ hs))
    rw [mergeFrom]
    split
    · refine ih (List.forall_mem_cons.mpr ⟨?_, hrest⟩)
      exact Nat.max_le.mpr ⟨hcurrent, hspan⟩
    · exact List.forall_mem_cons.mpr ⟨hcurrent, ih (List.forall_mem_cons.mpr ⟨hspan, hrest⟩)⟩

theorem maskSpans_mergeSpans (hvalid : ∀ span ∈ spans, span.1 < span.2)
    (hend : ∀ span ∈ spans, span.2 ≤ text.length) :
    maskSpans mask text 0 (mergeSpans spans) = maskRuns mask (Covered spans) 0 false text := by
  have hmem : ∀ span, span ∈ spans.insertionSort spanLe ↔ span ∈ spans := fun span =>
    List.mem_insertionSort spanLe
  have hsorted := sorted_spans spans
  have hcover := covered_congr hmem
  unfold mergeSpans
  cases hlist : spans.insertionSort spanLe with
  | nil =>
    refine (maskRuns_of_none (fun j _ _ hcovered => ?_) false).symm
    rw [← hcover j, hlist] at hcovered
    obtain ⟨span, hspan, -⟩ := hcovered
    cases hspan
  | cons span rest =>
    rw [hlist] at hmem hsorted hcover
    have hfirst : span.1 < span.2 := hvalid span ((hmem span).mp List.mem_cons_self)
    have hrest : ∀ s ∈ rest, s.1 < s.2 := fun s hs =>
      hvalid s ((hmem s).mp (List.mem_cons_of_mem _ hs))
    have hlimit : ∀ s ∈ mergeFrom span rest, s.2 ≤ text.length :=
      mem_mergeFrom_end fun s hs => hend s ((hmem s).mp hs)
    refine (maskSpans_eq_maskRuns (mergeFrom_apart hfirst hrest hsorted)
      (fun s _ => Nat.zero_le s.1) (fun hfalse => absurd hfalse Bool.false_ne_true)
      hlimit).trans ?_
    refine maskRuns_congr (fun j _ => ?_) false text
    rw [covered_mergeFrom (Nat.le_of_lt hfirst) (fun s hs => Nat.le_of_lt (hrest s hs)) hsorted]
    exact hcover j

end Stroem.Foundation
