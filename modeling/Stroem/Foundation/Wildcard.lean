import Mathlib.Data.List.Basic
import Mathlib.Data.List.Infix
import Mathlib.Tactic.Common

/-!
# Patterns with wildcards

A pattern is a list in which one symbol, the star, stands for any list.  Cut at its stars it is a
list of parts; to match, the parts have to occur in their order, the first at the beginning and
the last at the end.  A part that has a star behind it may always be taken where it occurs first:
what lies before those occurrences is what a search from the left steps over.
-/

namespace Stroem.Foundation

variable {α : Type*}

def Matches [DecidableEq α] (star : α) : List α → List α → Prop
  | [], text => text = []
  | c :: pattern, text =>
    if c = star then ∃ filler rest, text = filler ++ rest ∧ Matches star pattern rest
    else ∃ rest, text = c :: rest ∧ Matches star pattern rest

def MatchesParts : List (List α) → List α → Prop
  | [], _ => False
  | [last], text => text = last
  | first :: rest, text =>
    ∃ after, text = first ++ after ∧ ∃ tail, tail <:+ after ∧ MatchesParts rest tail

def splitFirst [DecidableEq α] (part : List α) : List α → Option (List α × List α)
  | [] => if part = [] then some ([], []) else none
  | c :: text =>
    if part <+: c :: text then some ([], (c :: text).drop part.length)
    else (splitFirst part text).map fun cut => (c :: cut.1, cut.2)

/-- What lies before the first occurrences of the parts, each behind the one before it.  The last
part is not searched for. -/
def gaps [DecidableEq α] : List (List α) → List α → List α
  | part :: next :: rest, text =>
    match splitFirst part text with
    | some (gap, after) => gap ++ gaps (next :: rest) after
    | none => text
  | _, _ => []

/-! ## Parts -/

variable {rest : List (List α)} {text : List α}

theorem matchesParts_cons {first : List α} (hrest : rest ≠ []) :
    MatchesParts (first :: rest) text ↔
      ∃ after, text = first ++ after ∧ ∃ tail, tail <:+ after ∧ MatchesParts rest tail := by
  cases rest with
  | nil => exact absurd rfl hrest
  | cons next rest => rfl

theorem matchesParts_modifyHead {c : α} {parts : List (List α)} :
    MatchesParts (parts.modifyHead (List.cons c)) text ↔
      ∃ rest, text = c :: rest ∧ MatchesParts parts rest := by
  cases parts with
  | nil =>
    refine ⟨False.elim, ?_⟩
    rintro ⟨rest, -, hmatches⟩
    exact hmatches
  | cons first rest =>
    rw [List.modifyHead_cons]
    cases rest with
    | nil =>
      constructor
      · rintro rfl
        exact ⟨first, rfl, rfl⟩
      · rintro ⟨rest, rfl, rfl⟩
        rfl
    | cons next rest =>
      constructor
      · rintro ⟨after, rfl, htail⟩
        exact ⟨first ++ after, rfl, after, rfl, htail⟩
      · rintro ⟨text, rfl, after, rfl, htail⟩
        exact ⟨after, rfl, htail⟩

theorem matches_iff_parts [DecidableEq α] {star : α} {pattern : List α} :
    Matches star pattern text ↔ MatchesParts (pattern.splitOn star) text := by
  induction pattern generalizing text with
  | nil => rfl
  | cons c pattern ih =>
    have hsplit : (c :: pattern).splitOn star =
        if c = star then [] :: pattern.splitOn star
        else (pattern.splitOn star).modifyHead (List.cons c) := by
      rw [List.splitOn_eq_splitOnP, List.splitOn_eq_splitOnP,
        List.splitOnP_cons_eq_if_modifyHead]
      by_cases hc : c = star <;> simp [hc]
    rw [hsplit, Matches]
    by_cases hc : c = star
    · rw [if_pos hc, if_pos hc, matchesParts_cons (List.splitOn_ne_nil _ _)]
      constructor
      · rintro ⟨filler, rest, rfl, hmatches⟩
        exact ⟨_, rfl, rest, List.suffix_append _ _, ih.mp hmatches⟩
      · rintro ⟨after, rfl, tail, ⟨filler, rfl⟩, hmatches⟩
        exact ⟨filler, tail, rfl, ih.mpr hmatches⟩
    · rw [if_neg hc, if_neg hc, matchesParts_modifyHead]
      exact exists_congr fun rest => and_congr_right fun _ => ih

theorem MatchesParts.earlier {first next : List α} {tail : List α}
    (h : MatchesParts (first :: next :: rest) tail) (htail : tail <:+ text)
    (hfirst : first <+: text) : MatchesParts (first :: next :: rest) text := by
  obtain ⟨after, rfl⟩ := hfirst
  obtain ⟨after', rfl, tail', htail', hmatches⟩ := h
  refine ⟨after, rfl, tail', ?_, hmatches⟩
  refine htail'.trans (List.suffix_of_suffix_length_le
    ((List.suffix_append first after').trans htail) (List.suffix_append first after) ?_)
  have hlen := htail.length_le
  rw [List.length_append, List.length_append] at hlen
  omega

theorem MatchesParts.first_prefix {first next : List α}
    (h : MatchesParts (first :: next :: rest) text) : first <+: text := by
  obtain ⟨after, rfl, -⟩ := h
  exact List.prefix_append first after

/-! ## Gaps -/

variable [DecidableEq α]

theorem splitFirst_of_prefix {part : List α} (h : part <+: text) :
    splitFirst part text = some ([], text.drop part.length) := by
  cases text with
  | nil =>
    rw [List.prefix_nil.mp h]
    rfl
  | cons c text => exact if_pos h

theorem gaps_of_prefix {part next : List α} (h : part <+: text) :
    gaps (part :: next :: rest) text = gaps (next :: rest) (text.drop part.length) := by
  rw [gaps, splitFirst_of_prefix h]
  rfl

theorem gaps_of_not_prefix {part next : List α} {c : α} (h : ¬part <+: c :: text) :
    gaps (part :: next :: rest) (c :: text) = c :: gaps (part :: next :: rest) text := by
  rw [gaps, splitFirst, if_neg h, gaps]
  cases splitFirst part text with
  | none => rfl
  | some cut => rfl

theorem splitFirst_eq_some {part gap after : List α}
    (h : splitFirst part text = some (gap, after)) : text = gap ++ part ++ after := by
  induction text generalizing gap with
  | nil =>
    rw [splitFirst, Option.ite_none_right_eq_some, Option.some.injEq, Prod.mk.injEq] at h
    obtain ⟨rfl, rfl, rfl⟩ := h
    rfl
  | cons c text ih =>
    rw [splitFirst] at h
    split at h
    · next hprefix =>
      obtain ⟨rfl, rfl⟩ := Prod.mk.inj (Option.some.inj h)
      obtain ⟨after, hafter⟩ := hprefix
      rw [← hafter, List.drop_left]
      rfl
    · obtain ⟨cut, hcut, heq⟩ := Option.map_eq_some_iff.mp h
      obtain ⟨rfl, rfl⟩ := Prod.mk.inj heq
      rw [ih hcut]
      rfl

theorem gaps_subset (parts : List (List α)) (text : List α) : gaps parts text ⊆ text := by
  induction parts generalizing text with
  | nil => exact List.nil_subset text
  | cons part rest ih =>
    cases rest with
    | nil => exact List.nil_subset text
    | cons next rest =>
      rw [gaps]
      cases hsplit : splitFirst part text with
      | none => exact List.Subset.refl text
      | some cut =>
        obtain ⟨gap, after⟩ := cut
        rw [splitFirst_eq_some hsplit]
        refine List.append_subset.mpr ⟨?_, List.Subset.trans (ih after)
          (List.subset_append_right _ _)⟩
        exact List.Subset.trans (List.subset_append_left gap part)
          (List.subset_append_left _ after)

end Stroem.Foundation
