import Stroem.Foundation.Window
import Stroem.LogRead

/-!
# What a step's tail is for

The lines of a log that belong to a step, oldest first, and what a reader that shows them leaves
out.  A tail of at most `t` bytes is the newest of them that fit; it is complete exactly when all
of them fit and nothing was left out.
-/

namespace Stroem.LogRead

open Stroem.Foundation

def joinLines (lines : List Bytes) : Bytes :=
  lines.flatMap (· ++ [newline])

def lineSize (line : Bytes) : Nat :=
  line.length + 1

@[simp] theorem joinLines_nil : joinLines [] = [] := rfl

@[simp] theorem joinLines_cons (line : Bytes) (lines : List Bytes) :
    joinLines (line :: lines) = line ++ newline :: joinLines lines := by
  simp [joinLines]

@[simp] theorem joinLines_append (xs ys : List Bytes) :
    joinLines (xs ++ ys) = joinLines xs ++ joinLines ys := by
  simp [joinLines]

theorem length_joinLines (lines : List Bytes) :
    (joinLines lines).length = totalWeight lineSize lines := by
  induction lines with
  | nil => rfl
  | cons line lines ih =>
    rw [joinLines_cons, totalWeight_cons, List.length_append, List.length_cons, ih, lineSize]
    omega

/-! ## Pieces between newlines -/

theorem splitOn_append_of_splitOn (before : Bytes) {after piece : Bytes} {pieces : List Bytes}
    (h : after.splitOn newline = piece :: pieces) :
    (before ++ after).splitOn newline = (before ++ piece).splitOn newline ++ pieces := by
  cases hp : position after with
  | none =>
    rw [List.splitOn_eq_singleton (position_eq_none_iff.mp hp)] at h
    obtain ⟨rfl, rfl⟩ := List.cons.inj h
    simp
  | some p =>
    obtain ⟨line, rest, rfl, -, hline⟩ := position_eq_some hp
    rw [List.splitOn_append_cons_self_of_not_mem hline] at h
    obtain ⟨rfl, rfl⟩ := List.cons.inj h
    rw [← List.append_assoc, List.splitOn_append_cons_self]

theorem joinLines_dropLast_splitOn (content : Bytes) :
    joinLines (content.splitOn newline).dropLast ++
      (content.splitOn newline).getLast (List.splitOn_ne_nil _ _) = content := by
  have hspec : ∀ pieces : List Bytes, (h : pieces ≠ []) →
      joinLines pieces.dropLast ++ pieces.getLast h = [newline].intercalate pieces := by
    intro pieces h
    induction pieces with
    | nil => exact absurd rfl h
    | cons piece pieces ih =>
      cases pieces with
      | nil => simp
      | cons next pieces =>
        have hrest := ih (List.cons_ne_nil _ _)
        rw [List.dropLast_cons_cons, joinLines_cons, List.getLast_cons (List.cons_ne_nil _ _),
          List.append_assoc, List.cons_append, hrest]
        simp [List.intercalate]
  rw [hspec, List.intercalate_splitOn]

def tornEnd (content : Bytes) : Bytes :=
  (content.splitOn newline).getLastD []

/-! ## The lines of a step -/

section StepLines

variable (json : SerdeJson) (step : Bytes) (maxLine : Nat)

def shows (line : Bytes) : Bool :=
  decide (line ≠ []) && decide (line.length ≤ maxLine) && matchesBytes json line step

def writtenLines (keepUnterminated : Bool) (pieces : List Bytes) : List Bytes :=
  if keepUnterminated then pieces else pieces.dropLast

def shownLines (keepUnterminated : Bool) (pieces : List Bytes) : List Bytes :=
  (writtenLines keepUnterminated pieces).filter (shows json step maxLine)

def leavesOut (keepUnterminated : Bool) (pieces : List Bytes) : Bool :=
  (writtenLines keepUnterminated pieces).any (fun line => decide (maxLine < line.length)) ||
    (!keepUnterminated && pieces.getLast?.any (fun rest => decide (rest ≠ [])))

def stepLines (keepUnterminated : Bool) (content : Bytes) : List Bytes :=
  shownLines json step maxLine keepUnterminated (content.splitOn newline)

end StepLines

theorem totalWeight_splitOn (content : Bytes) :
    totalWeight lineSize (content.splitOn newline) = content.length + 1 := by
  have hlast := List.dropLast_append_getLast (List.splitOn_ne_nil newline content)
  have hlen := congrArg List.length (joinLines_dropLast_splitOn content)
  rw [List.length_append, length_joinLines] at hlen
  rw [← hlast, totalWeight_append, totalWeight_cons, totalWeight_nil, lineSize]
  omega

theorem totalWeight_stepLines_le (json : SerdeJson) (step : Bytes) (maxLine : Nat)
    (keepUnterminated : Bool) (content : Bytes) :
    totalWeight lineSize (stepLines json step maxLine keepUnterminated content) ≤
      content.length + 1 := by
  have hwritten : ∀ pieces, (writtenLines keepUnterminated pieces).Sublist pieces := by
    intro pieces
    unfold writtenLines
    split
    · exact List.Sublist.refl _
    · exact List.dropLast_sublist _
  rw [← totalWeight_splitOn]
  exact totalWeight_le_of_sublist (List.filter_sublist.trans (hwritten _))

end Stroem.LogRead
