import Stroem.Acl
import Stroem.Foundation.Wildcard

/-!
# Globs

A pattern with at most one star is compared at its two ends.  With more stars the rest of the
pattern is tried at every byte of the value, and a byte inside a character panics: the answer is
the right one exactly when no character has to be stepped over that takes more than one byte.
-/

namespace Stroem.Acl

open Foundation

variable {text : List Char} {parts : List (List Char)} {rest : List Char → Option Bool}

def OneByte (text : List Char) : Prop := ∀ c ∈ text, c.utf8Size = 1

def Found (parts : List (List Char)) (text : List Char) : Prop :=
  ∃ tail, tail <:+ text ∧ MatchesParts parts tail

/-- Searching for parts with a star between them steps over no character of several bytes: when
they are found these are the characters before their first occurrences, and otherwise all. -/
def SteppedOneByte (parts : List (List Char)) (text : List Char) : Prop :=
  2 ≤ parts.length →
    (Found parts text → OneByte (gaps parts text)) ∧ (¬Found parts text → OneByte text)

def Harmless (pattern value : String) : Prop :=
  ∀ first parts, pattern.toList.splitOn '*' = first :: parts → first <+: value.toList →
    SteppedOneByte parts (value.toList.drop first.length)

/-! ## Every position -/

theorem OneByte.mono {text' : List Char} (h : OneByte text) (hsubset : text' ⊆ text) :
    OneByte text' :=
  fun c hc => h c (hsubset hc)

theorem oneByte_cons {c : Char} :
    OneByte (c :: text) ↔ c.utf8Size = 1 ∧ OneByte text :=
  List.forall_mem_cons

theorem OneByte.stepped (h : OneByte text) (parts : List (List Char)) :
    SteppedOneByte parts text :=
  fun _ => ⟨fun _ => h.mono (gaps_subset parts text), fun _ => h⟩

theorem found_cons {c : Char} :
    Found parts (c :: text) ↔ MatchesParts parts (c :: text) ∨ Found parts text := by
  constructor
  · rintro ⟨tail, htail, hmatches⟩
    obtain rfl | htail := List.suffix_cons_iff.mp htail
    · exact .inl hmatches
    · exact .inr ⟨tail, htail, hmatches⟩
  · rintro (hmatches | ⟨tail, htail, hmatches⟩)
    · exact ⟨_, List.suffix_rfl, hmatches⟩
    · exact ⟨tail, htail.trans (List.suffix_cons c text), hmatches⟩

theorem found_nil : Found parts [] ↔ MatchesParts parts [] := by
  constructor
  · rintro ⟨tail, htail, hmatches⟩
    rwa [List.suffix_nil.mp htail] at hmatches
  · exact fun hmatches => ⟨[], List.suffix_rfl, hmatches⟩

theorem atEveryByte_answer {c : Char}
    {answer : Option Bool} (h : rest (c :: text) = answer) (hne : answer ≠ some false) :
    atEveryByte rest (c :: text) = answer := by
  rw [atEveryByte, h]
  cases answer with
  | none => rfl
  | some b =>
    cases b with
    | true => rfl
    | false => exact absurd rfl hne

theorem atEveryByte_step {c : Char}
    (h : rest (c :: text) = some false) :
    atEveryByte rest (c :: text) =
      if c.utf8Size = 1 then atEveryByte rest text else none := by
  rw [atEveryByte, h]

theorem atEveryByte_eq_some
    (hrest : ∀ value b, rest value = some b → (b = true ↔ MatchesParts parts value))
    {b : Bool} (h : atEveryByte rest text = some b) :
    b = true ↔ Found parts text := by
  induction text with
  | nil => rw [found_nil, hrest [] b h]
  | cons c text ih =>
    rw [found_cons]
    cases hanswer : rest (c :: text) with
    | none =>
      rw [atEveryByte_answer hanswer (by simp)] at h
      cases h
    | some answer =>
      have hmatches := hrest _ _ hanswer
      cases answer with
      | true =>
        rw [atEveryByte_answer hanswer (by simp)] at h
        cases h
        exact ⟨fun _ => .inl (hmatches.mp rfl), fun _ => rfl⟩
      | false =>
        rw [atEveryByte_step hanswer, Option.ite_none_right_eq_some] at h
        have hnot : ¬MatchesParts parts (c :: text) := fun hm =>
          Bool.false_ne_true (hmatches.mpr hm)
        rw [ih h.2]
        exact ⟨.inr, fun hfound => hfound.resolve_left hnot⟩

theorem stepped_iff_of_found
    (h : Found parts text) : SteppedOneByte parts text ↔ OneByte (gaps parts text) := by
  constructor
  · intro hstepped
    match parts with
    | [] => exact fun c hc => by cases hc
    | [_] => exact fun c hc => by cases hc
    | _ :: _ :: _ => exact (hstepped (by simp)).1 h
  · exact fun hgaps _ => ⟨fun _ => hgaps, fun hnot => absurd h hnot⟩

theorem stepped_iff_of_not_found {part next : List Char}
    (h : ¬Found (part :: next :: parts) text) :
    SteppedOneByte (part :: next :: parts) text ↔ OneByte text :=
  ⟨fun hstepped => (hstepped (by simp)).2 h, fun htext => htext.stepped _⟩

theorem atEveryByte_isSome_iff {part next : List Char}
    (hexact : ∀ value b, rest value = some b →
      (b = true ↔ MatchesParts (part :: next :: parts) value))
    (hsome : ∀ value, (rest value).isSome ↔
      (part <+: value → SteppedOneByte (next :: parts) (value.drop part.length)))
    (text : List Char) :
    (atEveryByte rest text).isSome ↔ SteppedOneByte (part :: next :: parts) text := by
  induction text with
  | nil =>
    have hnil : OneByte [] := fun c hc => by cases hc
    have hdrop : ([] : List Char).drop part.length = [] := List.drop_nil
    rw [atEveryByte, hsome, hdrop]
    exact ⟨fun _ => hnil.stepped _, fun _ _ => hnil.stepped _⟩
  | cons c text ih =>
    by_cases hmatches : MatchesParts (part :: next :: parts) (c :: text)
    · -- found here: nothing is stepped over before the part, and the test answers
      have hprefix := hmatches.first_prefix
      have hfound : Found (part :: next :: parts) (c :: text) := found_cons.mpr (.inl hmatches)
      have hbehind : Found (next :: parts) ((c :: text).drop part.length) := by
        obtain ⟨after, heq, hafter⟩ := hmatches
        rw [heq, List.drop_left]
        exact hafter
      have hhere : (atEveryByte rest (c :: text)).isSome ↔ (rest (c :: text)).isSome := by
        cases hanswer : rest (c :: text) with
        | none => rw [atEveryByte_answer hanswer (by simp)]
        | some b =>
          obtain rfl := (hexact _ _ hanswer).mpr hmatches
          rw [atEveryByte_answer hanswer (by simp)]
      rw [hhere, hsome, forall_prop_of_true hprefix, stepped_iff_of_found hbehind,
        stepped_iff_of_found hfound, gaps_of_prefix hprefix]
    · have hfoundRest : Found (part :: next :: parts) (c :: text) ↔
          Found (part :: next :: parts) text :=
        found_cons.trans ⟨fun h => h.resolve_left hmatches, .inr⟩
      have hfalse : (rest (c :: text)).isSome → rest (c :: text) = some false := by
        intro hanswer
        obtain ⟨b, hb⟩ := Option.isSome_iff_exists.mp hanswer
        cases b with
        | true => exact absurd ((hexact _ _ hb).mp rfl) hmatches
        | false => exact hb
      have hstep : (atEveryByte rest (c :: text)).isSome ↔
          (rest (c :: text)).isSome ∧ c.utf8Size = 1 ∧ (atEveryByte rest text).isSome := by
        cases hanswer : rest (c :: text) with
        | none => simp [atEveryByte_answer hanswer]
        | some b =>
          obtain rfl := Option.some.inj (hanswer.symm.trans (hfalse (by rw [hanswer]; rfl)))
          rw [atEveryByte_step hanswer]
          by_cases hc : c.utf8Size = 1 <;> simp [hc]
      rw [hstep, ih, hsome]
      by_cases hprefix : part <+: c :: text
      · -- the part stands here in vain, so it is found nowhere
        have hnot : ¬Found (part :: next :: parts) (c :: text) := by
          rintro ⟨tail, htail, htailMatches⟩
          exact hmatches (htailMatches.earlier htail hprefix)
        rw [stepped_iff_of_not_found hnot, stepped_iff_of_not_found (mt hfoundRest.mpr hnot),
          oneByte_cons, forall_prop_of_true hprefix]
        refine ⟨fun h => h.2, fun h => ⟨OneByte.stepped ?_ _, h⟩⟩
        exact (oneByte_cons.mpr h).mono (List.drop_subset _ _)
      · rw [forall_prop_of_false hprefix, true_and]
        by_cases hfound : Found (part :: next :: parts) text
        · rw [stepped_iff_of_found hfound, stepped_iff_of_found (hfoundRest.mpr hfound),
            gaps_of_not_prefix hprefix, oneByte_cons]
        · rw [stepped_iff_of_not_found hfound,
            stepped_iff_of_not_found (mt hfoundRest.mp hfound), oneByte_cons]

/-! ## Patterns -/

theorem matchesParts_behind {first next : List Char} {rest : List (List Char)}
    {value : List Char} :
    MatchesParts (first :: next :: rest) value ↔
      first <+: value ∧ Found (next :: rest) (value.drop first.length) := by
  constructor
  · rintro ⟨after, rfl, tail, htail, hmatches⟩
    rw [List.drop_left]
    exact ⟨List.prefix_append first after, tail, htail, hmatches⟩
  · rintro ⟨⟨after, rfl⟩, tail, htail, hmatches⟩
    rw [List.drop_left] at htail
    exact ⟨after, rfl, tail, htail, hmatches⟩

theorem found_last {last : List Char} : Found [last] text ↔ last <:+ text := by
  constructor
  · rintro ⟨tail, htail, rfl⟩
    exact htail
  · exact fun h => ⟨last, h, rfl⟩

theorem globSegments_eq_some {segments : List (List Char)} {value : List Char} {b : Bool}
    (h : globSegments segments value = some b) : b = true ↔ MatchesParts segments value := by
  induction segments generalizing value b with
  | nil =>
    cases h
    exact ⟨fun hfalse => absurd hfalse Bool.false_ne_true, False.elim⟩
  | cons first rest ih =>
    match rest with
    | [] =>
      cases h
      exact beq_iff_eq.trans eq_comm
    | [last] =>
      cases h
      rw [Bool.and_eq_true, List.isPrefixOf_iff_prefix, List.isSuffixOf_iff_suffix,
        matchesParts_behind, found_last]
    | next :: last :: rest =>
      rw [globSegments.eq_4 _ _ _ (by simp) (by simp)] at h
      rw [matchesParts_behind]
      split at h
      · next hfirst =>
        rw [List.isPrefixOf_iff_prefix] at hfirst
        rw [atEveryByte_eq_some (fun _ _ => ih) h, and_iff_right hfirst]
      · next hfirst =>
        cases h
        rw [List.isPrefixOf_iff_prefix] at hfirst
        exact ⟨fun hfalse => absurd hfalse Bool.false_ne_true,
          fun hmatches => absurd hmatches.1 hfirst⟩

theorem steppedOneByte_of_length_lt
    (h : parts.length < 2) : SteppedOneByte parts text :=
  fun htwo => absurd htwo (Nat.not_le.mpr h)

theorem globSegments_isSome_iff (first : List Char) (parts : List (List Char))
    (value : List Char) :
    (globSegments (first :: parts) value).isSome ↔
      (first <+: value → SteppedOneByte parts (value.drop first.length)) := by
  induction parts generalizing first value with
  | nil => exact ⟨fun _ _ => steppedOneByte_of_length_lt (by decide), fun _ => rfl⟩
  | cons next rest ih =>
    cases rest with
    | nil =>
      exact ⟨fun _ _ => steppedOneByte_of_length_lt (Nat.lt_succ_self 1), fun _ => rfl⟩
    | cons last rest =>
      rw [globSegments.eq_4 _ _ _ (by simp) (by simp)]
      by_cases hfirst : first <+: value
      · rw [if_pos (List.isPrefixOf_iff_prefix.mpr hfirst), forall_prop_of_true hfirst]
        exact atEveryByte_isSome_iff (fun _ _ => globSegments_eq_some) (ih next) _
      · rw [if_neg (mt List.isPrefixOf_iff_prefix.mp hfirst), forall_prop_of_false hfirst]
        exact ⟨fun _ => trivial, fun _ => rfl⟩

theorem globMatch_star (value : String) :
    globMatch "*" value = some true ∧ Matches '*' "*".toList value.toList ∧
      Harmless "*" value := by
  refine ⟨rfl, ⟨value.toList, [], (List.append_nil _).symm, rfl⟩, ?_⟩
  intro first parts hparts _
  have hstar : "*".toList.splitOn '*' = [[], []] := by decide
  obtain ⟨rfl, rfl⟩ := List.cons.inj (hstar.symm.trans hparts)
  exact steppedOneByte_of_length_lt (by decide)

/-- `glob_match` is wildcard matching exactly for the patterns and values whose search steps over
no character of several bytes. -/
theorem globMatch_right_iff (pattern value : String) :
    (∃ b, globMatch pattern value = some b ∧
      (b = true ↔ Matches '*' pattern.toList value.toList)) ↔ Harmless pattern value := by
  by_cases hstar : pattern = "*"
  · subst hstar
    obtain ⟨hanswer, hmatches, hharmless⟩ := globMatch_star value
    exact ⟨fun _ => hharmless, fun _ => ⟨true, hanswer, fun _ => hmatches, fun _ => rfl⟩⟩
  · have hglob : globMatch pattern value =
        globSegments (pattern.toList.splitOn '*') value.toList :=
      if_neg (by rwa [beq_iff_eq])
    obtain ⟨first, parts, hparts⟩ :=
      List.exists_cons_of_ne_nil (List.splitOn_ne_nil '*' pattern.toList)
    have hsome : (globMatch pattern value).isSome ↔ Harmless pattern value := by
      rw [hglob, hparts, globSegments_isSome_iff]
      constructor
      · intro h first' parts' hparts'
        obtain ⟨rfl, rfl⟩ := List.cons.inj (hparts.symm.trans hparts')
        exact h
      · exact fun h => h first parts hparts
    rw [← hsome, Option.isSome_iff_exists]
    refine exists_congr fun b => and_iff_left_of_imp fun hb => ?_
    rw [matches_iff_parts]
    exact globSegments_eq_some (hglob.symm.trans hb)

theorem globMatch_panics :
    ¬∃ b, globMatch "*prod*" "équipe/build" = some b ∧
      (b = true ↔ Matches '*' "*prod*".toList "équipe/build".toList) := by
  have hnone : globMatch "*prod*" "équipe/build" = none := by decide
  rintro ⟨b, hb, -⟩
  rw [hnone] at hb
  cases hb

end Stroem.Acl
