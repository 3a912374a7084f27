import Mathlib.Data.List.Basic
import Mathlib.Data.List.Induction
import Mathlib.Data.List.TakeDrop
import Mathlib.Data.List.TakeWhile
import Mathlib.Tactic.Common

/-!
# Texts as lists of characters

Trimming white space, and texts that are cut into runs of one kind of symbol.
-/

namespace Stroem.Foundation

variable {α : Type*}

def isWhiteSpace (c : Char) : Bool :=
  (9 ≤ c.toNat && c.toNat ≤ 13) || c.toNat == 0x20 || c.toNat == 0x85 || c.toNat == 0xA0 ||
    c.toNat == 0x1680 || (0x2000 ≤ c.toNat && c.toNat ≤ 0x200A) || c.toNat == 0x2028 ||
    c.toNat == 0x2029 || c.toNat == 0x202F || c.toNat == 0x205F || c.toNat == 0x3000

def trimBy (p : α → Bool) (text : List α) : List α :=
  ((text.dropWhile p).reverse.dropWhile p).reverse

def trim (text : List Char) : List Char := trimBy isWhiteSpace text

def splitOnce [DecidableEq α] (sep : α) : List α → Option (List α × List α)
  | [] => none
  | c :: text =>
    if c = sep then some ([], text)
    else (splitOnce sep text).map fun parts => (c :: parts.1, parts.2)

def rfind [DecidableEq α] (sep : α) : List α → Option Nat
  | [] => none
  | c :: text =>
    match rfind sep text with
    | some pos => some (pos + 1)
    | none => if c = sep then some 0 else none

def lastPart (isSep : α → Bool) (text : List α) : List α :=
  (text.reverse.takeWhile fun c => !isSep c).reverse

/-! ## Trimming -/

theorem dropWhile_eq_self {p : α → Bool} {text : List α}
    (h : ∀ c, text.head? = some c → p c = false) : text.dropWhile p = text := by
  cases text with
  | nil => rfl
  | cons c text =>
    have hc : p c = false := h c rfl
    rw [List.dropWhile_cons, hc]
    rfl

theorem eq_append_trimBy (p : α → Bool) (text : List α) :
    ∃ lead trail, text = lead ++ trimBy p text ++ trail ∧ (∀ c ∈ lead, p c = true) ∧
      (∀ c ∈ trail, p c = true) ∧ lead.length = text.length - (text.dropWhile p).length := by
  have hlead := List.takeWhile_append_dropWhile (p := p) (l := text)
  have htrail := List.takeWhile_append_dropWhile (p := p) (l := (text.dropWhile p).reverse)
  refine ⟨text.takeWhile p, ((text.dropWhile p).reverse.takeWhile p).reverse, ?_, ?_, ?_, ?_⟩
  · have hback := congrArg List.reverse htrail
    rw [List.reverse_append, List.reverse_reverse] at hback
    rw [trimBy, List.append_assoc, hback, hlead]
  · exact fun c hc => List.mem_takeWhile_imp hc
  · exact fun c hc => List.mem_takeWhile_imp (List.mem_reverse.mp hc)
  · have hlength := congrArg List.length hlead
    rw [List.length_append] at hlength
    omega

theorem trimBy_eq_self {p : α → Bool} {text : List α}
    (hhead : ∀ c, text.head? = some c → p c = false)
    (hlast : ∀ c, text.getLast? = some c → p c = false) : trimBy p text = text := by
  rw [trimBy, dropWhile_eq_self hhead, dropWhile_eq_self, List.reverse_reverse]
  intro c hc
  rw [List.head?_reverse] at hc
  exact hlast c hc

/-! ## Runs -/

theorem run_inj {p : α → Bool} {run run' rest rest' : List α} {c c' : α}
    (hrun : ∀ x ∈ run, p x = true) (hrun' : ∀ x ∈ run', p x = true) (hc : p c = false)
    (hc' : p c' = false) (h : run ++ c :: rest = run' ++ c' :: rest') :
    run = run' ∧ c = c' ∧ rest = rest' := by
  induction run generalizing run' with
  | nil =>
    cases run' with
    | nil => exact ⟨rfl, List.cons.inj h⟩
    | cons x run' =>
      obtain ⟨rfl, -⟩ := List.cons.inj h
      rw [hrun' c List.mem_cons_self] at hc
      cases hc
  | cons x run ih =>
    cases run' with
    | nil =>
      obtain ⟨rfl, -⟩ := List.cons.inj h
      rw [hrun x List.mem_cons_self] at hc'
      cases hc'
    | cons y run' =>
      obtain ⟨rfl, hrest⟩ := List.cons.inj h
      obtain ⟨hruns, hends⟩ := ih (fun z hz => hrun z (List.mem_cons_of_mem _ hz))
        (fun z hz => hrun' z (List.mem_cons_of_mem _ hz)) hrest
      exact ⟨by rw [hruns], hends⟩

/-! ## Separators -/

theorem splitOnce_eq_some_iff [DecidableEq α] {sep : α} {text before after : List α} :
    splitOnce sep text = some (before, after) ↔ text = before ++ sep :: after ∧ sep ∉ before := by
  induction text generalizing before with
  | nil => simp [splitOnce]
  | cons c text ih =>
    rw [splitOnce]
    by_cases hc : c = sep
    · subst hc
      rw [if_pos rfl, Option.some.injEq, Prod.mk.injEq]
      constructor
      · rintro ⟨rfl, rfl⟩
        exact ⟨rfl, List.not_mem_nil⟩
      · rintro ⟨htext, hnot⟩
        cases before with
        | nil => exact ⟨rfl, (List.cons.inj htext).2⟩
        | cons d before =>
          obtain ⟨rfl, -⟩ := List.cons.inj htext
          exact absurd List.mem_cons_self hnot
    · rw [if_neg hc, Option.map_eq_some_iff]
      constructor
      · rintro ⟨⟨first, rest⟩, hsplit, heq⟩
        obtain ⟨rfl, rfl⟩ := Prod.mk.inj heq
        obtain ⟨rfl, hnot⟩ := ih.mp hsplit
        exact ⟨rfl, fun hmem => (List.mem_cons.mp hmem).elim (hc ∘ Eq.symm) hnot⟩
      · rintro ⟨htext, hnot⟩
        cases before with
        | nil => exact absurd (List.cons.inj htext).1 hc
        | cons d before =>
          obtain ⟨rfl, hbelow⟩ := List.cons.inj htext
          have hrest : sep ∉ before := fun hmem => hnot (List.mem_cons_of_mem _ hmem)
          exact ⟨(before, after), ih.mpr ⟨hbelow, hrest⟩, rfl⟩

theorem rfind_eq_none_iff [DecidableEq α] {sep : α} {text : List α} :
    rfind sep text = none ↔ sep ∉ text := by
  induction text with
  | nil => simp [rfind]
  | cons c text ih =>
    rw [rfind, List.mem_cons, not_or, ← ih]
    cases rfind sep text with
    | some pos => simp
    | none =>
      by_cases hc : c = sep
      · simp [hc]
      · simp [hc, Ne.symm hc]

theorem rfind_append [DecidableEq α] {sep : α} {before after : List α} (h : sep ∉ after) :
    rfind sep (before ++ sep :: after) = some before.length := by
  induction before with
  | nil =>
    rw [List.nil_append, rfind, rfind_eq_none_iff.mpr h, if_pos rfl]
    rfl
  | cons c before ih =>
    rw [List.cons_append, rfind, ih]
    rfl

theorem lastPart_eq {isSep : α → Bool} {text : List α} (h : ∀ c ∈ text, isSep c = false) :
    lastPart isSep text = text := by
  have htake : text.reverse.takeWhile (fun c => !isSep c) = text.reverse := by
    refine List.takeWhile_eq_self_iff.mpr fun c hc => ?_
    rw [h c (List.mem_reverse.mp hc)]
    rfl
  rw [lastPart, htake, List.reverse_reverse]

/-! ## Bytes -/

theorem isDigit_iff {c : Char} : c.isDigit = true ↔ 48 ≤ c.toNat ∧ c.toNat ≤ 57 := by
  change (decide (48 ≤ c.val) && decide (c.val ≤ 57)) = true ↔ _
  rw [Bool.and_eq_true, decide_eq_true_eq, decide_eq_true_eq]
  exact Iff.rfl

theorem isAlphanum_iff {c : Char} : c.isAlphanum = true ↔
    ((65 ≤ c.toNat ∧ c.toNat ≤ 90) ∨ (97 ≤ c.toNat ∧ c.toNat ≤ 122)) ∨
      (48 ≤ c.toNat ∧ c.toNat ≤ 57) := by
  change ((decide (65 ≤ c.val ∧ c.val ≤ 90) || (decide (97 ≤ c.val) && decide (c.val ≤ 122))) ||
    c.isDigit) = true ↔ _
  rw [Bool.or_eq_true, Bool.or_eq_true, Bool.and_eq_true, decide_eq_true_eq, decide_eq_true_eq,
    decide_eq_true_eq, isDigit_iff]
  exact Iff.rfl

theorem utf8ByteSize_of_ascii {text : List Char} (h : ∀ c ∈ text, c.toNat < 128) :
    (String.ofList text).utf8ByteSize = text.length := by
  induction text with
  | nil => rfl
  | cons c text ih =>
    have hsplit : String.ofList (c :: text) = String.singleton c ++ String.ofList text := by
      rw [← String.toList_inj]
      simp
    have hone : c.utf8Size = 1 := by
      have hc : c.val ≤ 0x7f := by
        rw [UInt32.le_iff_toNat_le]
        exact Nat.le_of_lt_succ (h c List.mem_cons_self)
      rw [Char.utf8Size]
      simp [hc]
    rw [hsplit, String.utf8ByteSize_append, String.utf8ByteSize_singleton, hone,
      ih fun d hd => h d (List.mem_cons_of_mem _ hd), List.length_cons, Nat.add_comm]

end Stroem.Foundation

/-!
# Lines and columns

The place of a character is the line and the column, both from one, that a reader has reached
when it comes to the character.  A text moves a reader down by its newlines; the column starts
again behind the last of them.
-/

namespace Stroem.Foundation

def advance (at₀ : Nat × Nat) (c : Char) : Nat × Nat :=
  if c = '\n' then (at₀.1 + 1, 1) else (at₀.1, at₀.2 + 1)

def place (text : List Char) (i : Nat) : Nat × Nat := (text.take i).foldl advance (1, 1)

def newlines (text : List Char) : Nat := text.count '\n'

def lastLine (text : List Char) : Nat := (text.reverse.takeWhile (· ≠ '\n')).length

theorem newlines_append (x y : List Char) : newlines (x ++ y) = newlines x + newlines y :=
  List.count_append

theorem newlines_eq_zero {text : List Char} : newlines text = 0 ↔ '\n' ∉ text :=
  List.count_eq_zero

theorem lastLine_append_of_newlines_eq_zero {x y : List Char} (h : newlines y = 0) :
    lastLine (x ++ y) = lastLine x + y.length := by
  have hall : ∀ c ∈ y.reverse, decide (c ≠ '\n') = true := by
    intro c hc
    rw [decide_eq_true_eq]
    rintro rfl
    exact newlines_eq_zero.mp h (List.mem_reverse.mp hc)
  rw [lastLine, lastLine, List.reverse_append, List.takeWhile_append_of_pos hall,
    List.length_append, List.length_reverse, Nat.add_comm]

theorem lastLine_of_newlines_eq_zero {text : List Char} (h : newlines text = 0) :
    lastLine text = text.length :=
  (lastLine_append_of_newlines_eq_zero (x := []) h).trans (Nat.zero_add _)

theorem lastLine_concat_newline (x : List Char) : lastLine (x ++ ['\n']) = 0 := by
  rw [lastLine, List.reverse_append]
  rfl

theorem foldl_advance (at₀ : Nat × Nat) (text : List Char) :
    text.foldl advance at₀ = (at₀.1 + newlines text,
      if newlines text = 0 then at₀.2 + text.length else 1 + lastLine text) := by
  induction text using List.reverseRecOn with
  | nil => rfl
  | append_singleton text c ih =>
    rw [List.foldl_append, ih, List.foldl_cons, List.foldl_nil, advance, newlines_append]
    by_cases hc : c = '\n'
    · subst hc
      have hone : newlines ['\n'] = 1 := rfl
      rw [if_pos rfl, hone, if_neg (Nat.succ_ne_zero _), lastLine_concat_newline]
      rfl
    · have hnone : newlines [c] = 0 :=
        newlines_eq_zero.mpr fun h => hc (List.mem_singleton.mp h).symm
      have hlength : (text ++ [c]).length = text.length + 1 := List.length_append
      rw [if_neg hc, hnone, lastLine_append_of_newlines_eq_zero hnone, hlength]
      by_cases hzero : newlines text = 0
      · have hsum : newlines text + 0 = 0 := hzero
        rw [if_pos hzero, if_pos hsum]
        rfl
      · have hsum : newlines text + 0 ≠ 0 := hzero
        rw [if_neg hzero, if_neg hsum]
        rfl

theorem foldl_advance_place (front text : List Char) (i : Nat) :
    place (front ++ text) (front.length + i) =
      (text.take i).foldl advance (place front front.length) := by
  rw [place, place, List.take_length, List.take_length_add_append, List.foldl_append]

end Stroem.Foundation
