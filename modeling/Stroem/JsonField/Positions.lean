import Stroem.JsonField

/-!
# Positions of single expressions

A character of the expression stands in the wrapper behind the prefix, and in the author's text
behind the opening delimiter.  `map_position` takes the one place to the other, and the places of
the prefix and of what follows the expression to none.
-/

namespace Stroem.JsonField

open Foundation
open Stroem.Connections (isAsciiWhitespace stripSuffix delimiters containsText)

/-! ## Places -/

theorem length_lastSegment (text : List Char) : (lastSegment text).length = lastLine text :=
  List.length_reverse

theorem positionOf_eq_place (s : List Char) (i : Nat) : positionOf s i = place s i := by
  rw [place, foldl_advance]
  simp only [positionOf, length_lastSegment]
  refine Prod.ext rfl ?_
  dsimp only
  split_ifs with hzero
  · rw [lastLine_of_newlines_eq_zero hzero, Nat.add_comm]
  · rw [Nat.add_comm]

/-! ## What `classify` takes apart -/

def Opening (front : List Char) : Prop :=
  ∃ lead, (∀ c ∈ lead, isAsciiWhitespace c = true) ∧
    (front = lead ++ ['\x7b', '\x7b'] ∨ front = lead ++ ['\x7b', '\x7b', '-'])

def Closing (back : List Char) : Prop :=
  ∃ trail, (∀ c ∈ trail, isAsciiWhitespace c = true) ∧
    (back = ['\x7d', '\x7d'] ++ trail ∨ back = ['-', '\x7d', '\x7d'] ++ trail)

theorem eq_of_dropPrefix? {pattern s body : List Char} (h : s.dropPrefix? pattern = some body) :
    s = pattern ++ body := by
  obtain ⟨front, rfl, hfront⟩ := List.dropPrefix?_eq_some_iff.mp h
  rw [eq_of_beq hfront]

theorem eq_of_stripSuffix {pattern s body : List Char} (h : stripSuffix pattern s = some body) :
    s = body ++ pattern := by
  obtain ⟨rest, hrest, rfl⟩ := Option.map_eq_some_iff.mp h
  have hreverse := congrArg List.reverse (eq_of_dropPrefix? hrest)
  rwa [List.reverse_reverse, List.reverse_append, List.reverse_reverse] at hreverse

theorem eq_append_dash (body : List Char) :
    ∃ dash, (dash = [] ∨ dash = ['-']) ∧ body = (stripSuffix ['-'] body).getD body ++ dash := by
  cases hstrip : stripSuffix ['-'] body with
  | none => exact ⟨[], .inl rfl, (List.append_nil _).symm⟩
  | some inner => exact ⟨['-'], .inr rfl, eq_of_stripSuffix hstrip⟩

def classifiedBody (s : String) (lead : Nat) (opening tail : List Char) : Classified :=
  let inner := String.ofList ((stripSuffix ['-'] tail).getD tail)
  if delimiters.any (containsText inner) then .mixed
  else .single ⟨inner, positionOf s.toList (lead + (2 + opening.length))⟩

variable {expr : SingleExpr}

theorem classify_single {s : String} (h : classify s = .single expr) :
    ∃ front back, Opening front ∧ Closing back ∧ s.toList = front ++ expr.inner.toList ++ back ∧
      expr.start = place s.toList front.length := by
  obtain ⟨lead, trail, hs, hlead, htrail, hlength⟩ := eq_append_trimBy isAsciiWhitespace s.toList
  unfold classify at h
  split at h
  · dsimp only at h
    rw [← hlength] at h
    split at h
    · cases h
    · next body hbody =>
        obtain ⟨rest, hrest, hclose⟩ := Option.bind_eq_some_iff.mp hbody
        have htrim : trimBy isAsciiWhitespace s.toList =
            ['\x7b', '\x7b'] ++ (body ++ ['\x7d', '\x7d']) := by
          rw [eq_of_dropPrefix? hrest, eq_of_stripSuffix hclose]
        rw [htrim] at hs
        have hopened : ∃ opening tail, (opening = [] ∨ opening = ['-']) ∧ body = opening ++ tail ∧
            classifiedBody s lead.length opening tail = .single expr := by
          split at h
          · next rest => exact ⟨['-'], rest, .inr rfl, rfl, h⟩
          · exact ⟨[], body, .inl rfl, rfl, h⟩
        obtain ⟨opening, tail, hopening, rfl, hsingle⟩ := hopened
        obtain ⟨dash, hdash, htail⟩ := eq_append_dash tail
        unfold classifiedBody at hsingle
        dsimp only at hsingle
        split at hsingle
        · cases hsingle
        · obtain rfl := Classified.single.inj hsingle
          rw [htail] at hs
          refine ⟨lead ++ ['\x7b', '\x7b'] ++ opening, dash ++ ['\x7d', '\x7d'] ++ trail,
            ?_, ?_, ?_, ?_⟩
          · obtain rfl | rfl := hopening
            · exact ⟨lead, hlead, .inl (List.append_nil _)⟩
            · exact ⟨lead, hlead, .inr (List.append_assoc _ _ _)⟩
          · obtain rfl | rfl := hdash
            · exact ⟨trail, htrail, .inl rfl⟩
            · exact ⟨trail, htrail, .inr rfl⟩
          · rw [hs, String.toList_ofList]
            simp only [List.append_assoc]
          · have hfront : (lead ++ ['\x7b', '\x7b'] ++ opening).length =
                lead.length + (2 + opening.length) := by
              rw [List.length_append, List.length_append]
              exact Nat.add_assoc lead.length 2 opening.length
            rw [positionOf_eq_place, hfront]
  · cases h

/-! ## The wrapper -/

theorem newlines_wrapperPrefix_eq : newlines wrapperPrefix.toList = 0 := by decide

theorem newlines_suffix : newlines wrapperSuffix.toList = 0 := by decide

theorem place_behind {front : List Char} (text : List Char) (i : Nat) :
    place (front ++ text) (front.length + i) =
      ((place front front.length).1 + newlines (text.take i),
        if newlines (text.take i) = 0 then (place front front.length).2 + (text.take i).length
        else 1 + lastLine (text.take i)) := by
  rw [foldl_advance_place, foldl_advance]

theorem place_prefix :
    place wrapperPrefix.toList wrapperPrefix.toList.length =
      (1, wrapperPrefix.toList.length + 1) := by
  decide

theorem place_wrapper (expr : SingleExpr) (i : Nat) :
    place (wrapper expr).toList (wrapperPrefix.toList.length + i) =
      (1 + newlines ((expr.inner.toList ++ wrapperSuffix.toList).take i),
        if newlines ((expr.inner.toList ++ wrapperSuffix.toList).take i) = 0 then
          wrapperPrefix.toList.length + 1 +
            ((expr.inner.toList ++ wrapperSuffix.toList).take i).length
        else 1 + lastLine ((expr.inner.toList ++ wrapperSuffix.toList).take i)) := by
  have htext : (wrapper expr).toList =
      wrapperPrefix.toList ++ (expr.inner.toList ++ wrapperSuffix.toList) := by
    simp [wrapper, String.toList_append]
  rw [htext, place_behind, place_prefix]

def lastCol (expr : SingleExpr) : Nat :=
  if newlines expr.inner.toList = 0 then
    wrapperPrefix.toList.length + expr.inner.toList.length
  else lastLine expr.inner.toList

theorem mapPosition_eq_none {l c : Nat} (h : (l = 1 ∧ c < wrapperPrefix.toList.length + 1) ∨
      (l = 1 + newlines expr.inner.toList ∧ lastCol expr < c)) :
    mapPosition expr (l, c) = none := by
  unfold mapPosition
  dsimp only
  rw [if_pos]
  obtain h | h := h
  · exact .inl (.inr h)
  · refine .inr (.inr ?_)
    rwa [length_lastSegment]

theorem mapPosition_eq_some {l c : Nat} (hl : l ≤ newlines expr.inner.toList)
    (hstart : l = 0 → wrapperPrefix.toList.length + 1 ≤ c)
    (hend : l = newlines expr.inner.toList → c ≤ lastCol expr) :
    mapPosition expr (1 + l, c) = some (expr.start.1 + l,
      if l = 0 then expr.start.2 + c - (wrapperPrefix.toList.length + 1) else c) := by
  unfold mapPosition
  dsimp only
  rw [if_neg]
  · split_ifs with hone hzero hzero
    · rw [hzero]
      rfl
    · omega
    · omega
    · rw [Nat.add_left_comm, Nat.add_sub_cancel_left]
  · rintro ((h | ⟨hone, hc⟩) | h | ⟨hlast, hc⟩)
    · omega
    · exact absurd (hstart (by omega)) (Nat.not_le.mpr hc)
    · exact absurd (show 1 + newlines expr.inner.toList < 1 + l from h) (by omega)
    · have hlt : lastCol expr < c := by rwa [length_lastSegment] at hc
      have heq : 1 + l = 1 + newlines expr.inner.toList := hlast
      exact absurd (hend (by omega)) (Nat.not_le.mpr hlt)

theorem newlines_take_le (text : List Char) (i : Nat) :
    newlines (text.take i) ≤ newlines text := by
  have h := newlines_append (text.take i) (text.drop i)
  rw [List.take_append_drop] at h
  omega

theorem mapPosition_of_expr {i : Nat} (hi : i < expr.inner.toList.length) :
    mapPosition expr (place (wrapper expr).toList (wrapperPrefix.toList.length + i)) =
      some (expr.start.1 + newlines (expr.inner.toList.take i),
        if newlines (expr.inner.toList.take i) = 0 then expr.start.2 + i
        else 1 + lastLine (expr.inner.toList.take i)) := by
  have hlength : (expr.inner.toList.take i).length = i := List.length_take_of_le hi.le
  rw [place_wrapper, List.take_append_of_le_length hi.le, mapPosition_eq_some]
  · by_cases hzero : newlines (expr.inner.toList.take i) = 0
    · rw [if_pos hzero, if_pos hzero, if_pos hzero, hlength]
      congr 2
      omega
    · rw [if_neg hzero, if_neg hzero, if_neg hzero]
  · exact newlines_take_le _ _
  · intro hzero
    rw [if_pos hzero]
    omega
  · intro hall
    have hrest : newlines (expr.inner.toList.drop i) = 0 := by
      have h := newlines_append (expr.inner.toList.take i) (expr.inner.toList.drop i)
      rw [List.take_append_drop] at h
      omega
    have hdrop : (expr.inner.toList.drop i).length = expr.inner.toList.length - i :=
      List.length_drop
    have hline := lastLine_append_of_newlines_eq_zero (x := expr.inner.toList.take i) hrest
    rw [List.take_append_drop] at hline
    unfold lastCol
    rw [hall]
    split_ifs with hzero
    · omega
    · omega

theorem mapPosition_of_not_expr {j : Nat} (hj : j < wrapperPrefix.toList.length ∨
      wrapperPrefix.toList.length + expr.inner.toList.length ≤ j) :
    mapPosition expr (place (wrapper expr).toList j) = none := by
  obtain hbefore | hafter := hj
  · have htext : (wrapper expr).toList.take j = wrapperPrefix.toList.take j := by
      have hsplit : (wrapper expr).toList =
          wrapperPrefix.toList ++ (expr.inner.toList ++ wrapperSuffix.toList) := by
        simp [wrapper, String.toList_append]
      rw [hsplit, List.take_append_of_le_length hbefore.le]
    have hzero : newlines (wrapperPrefix.toList.take j) = 0 := by
      have hle := newlines_take_le wrapperPrefix.toList j
      rw [newlines_wrapperPrefix_eq] at hle
      omega
    have hlength : (wrapperPrefix.toList.take j).length = j := List.length_take_of_le hbefore.le
    rw [place, htext, foldl_advance, hzero, if_pos rfl, hlength]
    exact mapPosition_eq_none (.inl ⟨rfl, by omega⟩)
  · obtain ⟨k, rfl⟩ := Nat.exists_eq_add_of_le hafter
    have hsuffix : newlines (wrapperSuffix.toList.take k) = 0 := by
      have hle := newlines_take_le wrapperSuffix.toList k
      rw [newlines_suffix] at hle
      omega
    have htake : (expr.inner.toList ++ wrapperSuffix.toList).take (expr.inner.toList.length + k) =
        expr.inner.toList ++ wrapperSuffix.toList.take k := List.take_length_add_append k
    rw [Nat.add_assoc, place_wrapper, htake, newlines_append, hsuffix,
      lastLine_append_of_newlines_eq_zero hsuffix, List.length_append]
    refine mapPosition_eq_none (.inr ⟨rfl, ?_⟩)
    unfold lastCol
    split_ifs with hzero hsum hsum
    · omega
    · exact absurd hzero hsum
    · exact absurd hsum hzero
    · omega

/-- The places of the expression's characters are mapped to those of the author's text, and the
others to none. -/
def MapsPlaces (s : String) (expr : SingleExpr) : Prop :=
  ∃ front back, Opening front ∧ Closing back ∧ s.toList = front ++ expr.inner.toList ++ back ∧
    (∀ i < expr.inner.toList.length,
      mapPosition expr (place (wrapper expr).toList (wrapperPrefix.toList.length + i)) =
        some (place s.toList (front.length + i))) ∧
    ∀ j ≤ (wrapper expr).toList.length,
      (j < wrapperPrefix.toList.length ∨
        wrapperPrefix.toList.length + expr.inner.toList.length ≤ j) →
      mapPosition expr (place (wrapper expr).toList j) = none

theorem mapsPlaces_of_classify {s : String} (h : classify s = .single expr) :
    MapsPlaces s expr := by
  obtain ⟨front, back, hopening, hclosing, hs, hstart⟩ := classify_single h
  refine ⟨front, back, hopening, hclosing, hs, fun i hi => ?_, fun j _ hj =>
    mapPosition_of_not_expr hj⟩
  have hlength : (expr.inner.toList.take i).length = i := List.length_take_of_le hi.le
  have hfront : place s.toList front.length = place front front.length := by
    rw [hs, List.append_assoc]
    unfold place
    rw [List.take_left, List.take_length]
  have hplace : place s.toList (front.length + i) =
      (expr.start.1 + newlines (expr.inner.toList.take i),
        if newlines (expr.inner.toList.take i) = 0 then expr.start.2 + i
        else 1 + lastLine (expr.inner.toList.take i)) := by
    rw [hstart, hfront, hs, List.append_assoc, place_behind,
      List.take_append_of_le_length hi.le, hlength]
  rw [mapPosition_of_expr hi, hplace]

end Stroem.JsonField
