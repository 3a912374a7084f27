import Mathlib.Data.List.Infix
import Mathlib.Data.List.Basic
import Mathlib.Tactic.Common

/-!
# Log reads: bytes, lines and the step filter

The bytes of a job's log and what every read does with them: finding newlines, checking UTF-8,
matching a line against a step.  A log is a list of bytes; its lines are what stands between its
newlines, so `content.splitOn newline` are the lines and, last, what no newline ends yet.
-/

namespace Stroem.LogRead

abbrev Bytes := List UInt8

def newline : UInt8 := 10

def position (buf : Bytes) : Option Nat :=
  buf.findIdx? (· == newline)

def rposition (buf : Bytes) : Option Nat :=
  (position buf.reverse).map (buf.length - 1 - ·)

theorem position_eq_none_iff {buf : Bytes} : position buf = none ↔ newline ∉ buf := by
  simp [position, List.findIdx?_eq_none_iff]
  constructor
  · intro h hmem
    exact h newline hmem rfl
  · intro h b hb heq
    exact h (heq ▸ hb)

theorem position_eq_some {buf : Bytes} {p : Nat} (h : position buf = some p) :
    ∃ before after, buf = before ++ newline :: after ∧ before.length = p ∧ newline ∉ before := by
  induction buf generalizing p with
  | nil => simp [position] at h
  | cons b buf ih =>
    by_cases hb : b = newline
    · subst hb
      simp [position, List.findIdx?_cons] at h
      exact ⟨[], buf, rfl, h, List.not_mem_nil⟩
    · have hne : (b == newline) = false := beq_eq_false_iff_ne.mpr hb
      simp only [position, List.findIdx?_cons, hne] at h
      simp only [Bool.false_eq_true, if_false, Option.map_eq_some_iff] at h
      obtain ⟨q, hq, rfl⟩ := h
      obtain ⟨before, after, rfl, hlen, hmem⟩ := ih hq
      refine ⟨b :: before, after, rfl, by simp [hlen], ?_⟩
      simp only [List.mem_cons, not_or]
      exact ⟨fun h => hb h.symm, hmem⟩

theorem position_append_cons {before : Bytes} (after : Bytes) (h : newline ∉ before) :
    position (before ++ newline :: after) = some before.length := by
  induction before with
  | nil => simp [position, List.findIdx?_cons]
  | cons b before ih =>
    simp only [List.mem_cons, not_or] at h
    have hne : (b == newline) = false := beq_eq_false_iff_ne.mpr fun hb => h.1 hb.symm
    have hrest := ih h.2
    unfold position at hrest ⊢
    rw [List.cons_append, List.findIdx?_cons, hne, hrest]
    rfl

theorem rposition_eq_none_iff {buf : Bytes} : rposition buf = none ↔ newline ∉ buf := by
  simp [rposition, position_eq_none_iff]

theorem rposition_eq_some {buf : Bytes} {k : Nat} (h : rposition buf = some k) :
    ∃ before after, buf = before ++ newline :: after ∧ before.length = k ∧ newline ∉ after := by
  simp only [rposition, Option.map_eq_some_iff] at h
  obtain ⟨p, hp, rfl⟩ := h
  obtain ⟨before, after, heq, hlen, hmem⟩ := position_eq_some hp
  have hbuf : buf = after.reverse ++ newline :: before.reverse := by
    rw [← List.reverse_reverse buf, heq]
    simp
  refine ⟨after.reverse, before.reverse, hbuf, ?_, by simpa using hmem⟩
  rw [hbuf]
  simp
  omega

theorem rposition_append_cons (before : Bytes) {after : Bytes} (h : newline ∉ after) :
    rposition (before ++ newline :: after) = some before.length := by
  have hrev : (before ++ newline :: after).reverse =
      after.reverse ++ newline :: before.reverse := by simp
  unfold rposition
  rw [hrev, position_append_cons _ (by simpa using h)]
  simp

def lastLineEndIn (buf : Bytes) : Nat :=
  (rposition buf).elim 0 (· + 1)

def trimTorn (buf : Bytes) : Bytes × Bool :=
  if buf.getLast?.all (· == newline) then (buf, false)
  else (buf.take (lastLineEndIn buf), true)

/-! ## UTF-8 -/

def continues (low high b : UInt8) : Bool :=
  decide (low ≤ b) && decide (b ≤ high)

def isUtf8 : Bytes → Bool
  | [] => true
  | b :: rest =>
    if b < 0x80 then isUtf8 rest
    else if b < 0xC2 then false
    else if b < 0xE0 then
      match rest with
      | c₁ :: rest => continues 0x80 0xBF c₁ && isUtf8 rest
      | _ => false
    else if b < 0xF0 then
      match rest with
      | c₁ :: c₂ :: rest =>
        continues (if b = 0xE0 then 0xA0 else 0x80) (if b = 0xED then 0x9F else 0xBF) c₁ &&
          continues 0x80 0xBF c₂ && isUtf8 rest
      | _ => false
    else if b < 0xF5 then
      match rest with
      | c₁ :: c₂ :: c₃ :: rest =>
        continues (if b = 0xF0 then 0x90 else 0x80) (if b = 0xF4 then 0x8F else 0xBF) c₁ &&
          continues 0x80 0xBF c₂ && continues 0x80 0xBF c₃ && isUtf8 rest
      | _ => false
    else false

theorem isUtf8_ascii {b : UInt8} (h : b < 0x80) (rest : Bytes) :
    isUtf8 (b :: rest) = isUtf8 rest := by
  match rest with
  | [] => simp [isUtf8, h]
  | [c₁] => rw [isUtf8, if_pos h]
  | [c₁, c₂] => rw [isUtf8, if_pos h]
  | c₁ :: c₂ :: c₃ :: rest => rw [isUtf8, if_pos h]

theorem isUtf8_append {a b : Bytes} (ha : isUtf8 a = true) (hb : isUtf8 b = true) :
    isUtf8 (a ++ b) = true := by
  fun_induction isUtf8 a with
  | case1 => exact hb
  | case2 b rest hascii ih =>
    rw [List.cons_append, isUtf8_ascii hascii]
    exact ih ha
  | case3 => exact absurd ha (by simp)
  | case4 b h₁ h₂ h₃ c₁ rest ih =>
    rw [Bool.and_eq_true] at ha
    simp only [List.cons_append]
    rw [isUtf8, if_neg h₁, if_neg h₂, if_pos h₃]
    simp only [ha.1, ih ha.2, Bool.and_self]
  | case5 => exact absurd ha (by simp)
  | case6 b h₁ h₂ h₃ h₄ c₁ c₂ rest ih =>
    rw [Bool.and_eq_true] at ha
    simp only [List.cons_append]
    rw [isUtf8, if_neg h₁, if_neg h₂, if_neg h₃, if_pos h₄]
    simp only [ha.1, ih ha.2, Bool.and_self]
  | case7 => exact absurd ha (by simp)
  | case8 b h₁ h₂ h₃ h₄ h₅ c₁ c₂ c₃ rest ih =>
    rw [Bool.and_eq_true] at ha
    simp only [List.cons_append]
    rw [isUtf8, if_neg h₁, if_neg h₂, if_neg h₃, if_neg h₄, if_pos h₅]
    simp only [ha.1, ih ha.2, Bool.and_self]
  | case9 => exact absurd ha (by simp)
  | case10 => exact absurd ha (by simp)

/-- `io::ErrorKind`, the one kind these reads of a stable file can give. -/
inductive IoError
  | invalidData
  deriving DecidableEq

def utf8 (buf : Bytes) : Except IoError Bytes :=
  if isUtf8 buf then .ok buf else .error .invalidData

theorem utf8_map_eq_ok {α : Type*} {buf : Bytes} {g : Bytes → α} {r : α} :
    (utf8 buf).map g = .ok r ↔ isUtf8 buf = true ∧ g buf = r := by
  unfold utf8
  split
  · rename_i h
    simp [Except.map, h]
  · rename_i h
    simp [Except.map, h]

/-! ## The step filter -/

/--
What `serde_json` makes of a text: the members of the JSON object it is, in order and with
repeats, each with its value when that value is a string; `none` when the text is no object.
-/
abbrev SerdeJson := Bytes → Option (List (Bytes × Option Bytes))

def stepKey : Bytes := [115, 116, 101, 112]

def visitMap (members : List (Bytes × Option Bytes)) (stepName : Bytes) : Bool :=
  members.foldl (fun matched m => if m.1 = stepKey then decide (m.2 = some stepName) else matched)
    false

def lineMatchesStep (json : SerdeJson) (line stepName : Bytes) : Bool :=
  if stepName <:+: line then
    match json line with
    | some members => visitMap members stepName
    | none => false
  else false

def matchesBytes (json : SerdeJson) (line stepName : Bytes) : Bool :=
  isUtf8 line && lineMatchesStep json line stepName

end Stroem.LogRead
