import Mathlib.Data.List.Basic
import Mathlib.Data.List.Range
import Mathlib.Tactic.Common

/-!
# Conditions with numbered placeholders

The condition of a query as a tree, the text it is written as, the numbers of the placeholders in
a text, and the rows that a condition selects once values are bound to its numbers.
-/

namespace Stroem.Foundation.Sql

/-! ## Texts with placeholders -/

inductive Piece where
  | text (s : List Char)
  | param (n : Nat)
deriving DecidableEq

def Piece.render : Piece → List Char
  | .text s => s
  | .param n => '$' :: Nat.toDigits 10 n

def render (pieces : List Piece) : List Char := pieces.flatMap Piece.render

def params : List Piece → List Nat
  | [] => []
  | .text _ :: pieces => params pieces
  | .param n :: pieces => n :: params pieces

/-- The numbers behind the dollar signs of a text.  `digits` are those read behind the last one,
if nothing else has been read since. -/
def scan : Option (List Char) → List Char → List Nat
  | none, [] => []
  | some digits, [] => [Nat.ofDigitChars 10 digits 0]
  | none, c :: text => if c = '$' then scan (some []) text else scan none text
  | some digits, c :: text =>
    if c.isDigit then scan (some (digits ++ [c])) text
    else
      Nat.ofDigitChars 10 digits 0 ::
        (if c = '$' then scan (some []) text else scan none text)

def placeholders (text : List Char) : List Nat := scan none text

def Plain (text : List Char) : Prop :=
  '$' ∉ text ∧ ∀ c, text.head? = some c → c.isDigit = false

instance (text : List Char) : Decidable (Plain text) :=
  match text with
  | [] => .isTrue ⟨List.not_mem_nil, fun _ h => by cases h⟩
  | c :: text =>
    decidable_of_iff ('$' ∉ c :: text ∧ c.isDigit = false) <| and_congr_right fun _ =>
      ⟨fun h d hd => Option.some.inj hd ▸ h, fun h => h c rfl⟩

theorem scan_plain {text : List Char} (h : '$' ∉ text) (rest : List Char) :
    scan none (text ++ rest) = scan none rest := by
  induction text with
  | nil => rfl
  | cons c text ih =>
    obtain ⟨hc, htext⟩ := not_or.mp (mt List.mem_cons.mpr h)
    rw [List.cons_append, scan, if_neg (Ne.symm hc), ih htext]

theorem scan_digits {digits : List Char} (h : ∀ c ∈ digits, c.isDigit = true)
    (seen : List Char) {rest : List Char} (hrest : ∀ c, rest.head? = some c → c.isDigit = false) :
    scan (some seen) (digits ++ rest) =
      Nat.ofDigitChars 10 (seen ++ digits) 0 :: scan none rest := by
  induction digits generalizing seen with
  | nil =>
    rw [List.nil_append, List.append_nil]
    cases rest with
    | nil => rfl
    | cons c rest =>
      have hc : ¬c.isDigit = true := by
        rw [hrest c rfl]
        exact Bool.false_ne_true
      simp only [scan, if_neg hc]
  | cons c digits ih =>
    obtain ⟨hc, hdigits⟩ := List.forall_mem_cons.mp h
    rw [List.cons_append, scan, if_pos hc, ih hdigits, List.append_assoc]
    rfl

theorem head_render {pieces : List Piece}
    (h : ∀ s, Piece.text s ∈ pieces → Plain s) :
    ∀ c, (render pieces).head? = some c → c.isDigit = false := by
  induction pieces with
  | nil => exact fun c hc => by cases hc
  | cons piece pieces ih =>
    intro c hc
    have hrest : ∀ s, Piece.text s ∈ pieces → Plain s := fun s hs =>
      h s (List.mem_cons_of_mem _ hs)
    rw [render, List.flatMap_cons] at hc
    cases piece with
    | param n =>
      cases hc
      decide
    | text s =>
      cases s with
      | nil => exact ih hrest c hc
      | cons d s => exact (h (d :: s) List.mem_cons_self).2 c hc

theorem placeholders_render {pieces : List Piece}
    (h : ∀ s, Piece.text s ∈ pieces → Plain s) : placeholders (render pieces) = params pieces := by
  induction pieces with
  | nil => rfl
  | cons piece pieces ih =>
    have hrest : ∀ s, Piece.text s ∈ pieces → Plain s := fun s hs =>
      h s (List.mem_cons_of_mem _ hs)
    rw [placeholders, render, List.flatMap_cons]
    cases piece with
    | text s =>
      rw [Piece.render, scan_plain (h s List.mem_cons_self).1]
      exact ih hrest
    | param n =>
      have hdigits : ∀ c ∈ Nat.toDigits 10 n, c.isDigit = true := fun c hc =>
        Nat.isDigit_of_mem_toDigits (by decide) (by decide) hc
      have hscan := scan_digits hdigits [] (head_render hrest)
      rw [List.nil_append, Nat.ofDigitChars_ten_toDigits] at hscan
      rw [Piece.render, List.cons_append, scan, if_pos rfl]
      exact hscan.trans (congrArg (n :: ·) (ih hrest))

theorem params_append (pieces pieces' : List Piece) :
    params (pieces ++ pieces') = params pieces ++ params pieces' := by
  induction pieces with
  | nil => rfl
  | cons piece pieces ih =>
    cases piece with
    | text s => exact ih
    | param n => exact congrArg (n :: ·) ih

theorem render_cons (piece : Piece) (pieces : List Piece) :
    render (piece :: pieces) = piece.render ++ render pieces :=
  List.flatMap_cons

theorem render_append (pieces pieces' : List Piece) :
    render (pieces ++ pieces') = render pieces ++ render pieces' :=
  List.flatMap_append

/-! ## Conditions -/

/-- A condition over the columns `κ`; placeholders are given by their numbers. -/
inductive Condition (κ : Type*) where
  | isNull (column : κ)
  | isNotNull (column : κ)
  | inTuples (columns : List κ) (tuples : List (List Nat))
  | eq (column : κ) (n : Nat)
  | ilike (column : κ) (n : Nat)
  | and (a b : Condition κ)
  | or (a b : Condition κ)
  | paren (a : Condition κ)

def joined (sep : List Char) : List (List Piece) → List Piece
  | [] => []
  | [pieces] => pieces
  | pieces :: rest => pieces ++ .text sep :: joined sep rest

def tuplePieces (tuple : List Nat) : List Piece :=
  .text ['('] :: joined [',', ' '] (tuple.map fun n => [.param n]) ++ [.text [')']]

variable {κ : Type*}

namespace Condition

def pieces (name : κ → String) : Condition κ → List Piece
  | isNull c => [.text ((name c).toList ++ " IS NULL".toList)]
  | isNotNull c => [.text ((name c).toList ++ " IS NOT NULL".toList)]
  | inTuples cs tuples =>
    .text ('(' :: (", ".intercalate (cs.map name)).toList ++ ") IN (".toList) ::
      joined [',', ' '] (tuples.map tuplePieces) ++ [.text [')']]
  | eq c n => [.text ((name c).toList ++ " = ".toList), .param n]
  | ilike c n => [.text ((name c).toList ++ " ILIKE ".toList), .param n]
  | and a b => pieces name a ++ .text " AND ".toList :: pieces name b
  | or a b => pieces name a ++ .text " OR ".toList :: pieces name b
  | paren a => .text ['('] :: pieces name a ++ [.text [')']]

end Condition

inductive Value where
  | text (s : String)
  | int (n : Int)
deriving DecidableEq

def bound (binds : List Value) (n : Nat) : Option Value :=
  if n = 0 then none else binds[n - 1]?

def same (binds : List Value) (row : κ → Option String) (c : κ) (n : Nat) : Bool :=
  match row c, bound binds n with
  | some v, some (.text s) => v == s
  | _, _ => false

def sameTuple (binds : List Value) (row : κ → Option String) : List κ → List Nat → Bool
  | [], [] => true
  | c :: cs, n :: ns => same binds row c n && sameTuple binds row cs ns
  | _, _ => false

/-- Whether the condition is true of a row.  No condition negates, so unknown is as good as
false. -/
def Condition.eval (like : String → String → Bool) (binds : List Value) (row : κ → Option String) :
    Condition κ → Bool
  | isNull c => (row c).isNone
  | isNotNull c => (row c).isSome
  | inTuples cs tuples => tuples.any (sameTuple binds row cs)
  | eq c n => same binds row c n
  | ilike c n =>
    match row c, bound binds n with
    | some v, some (.text s) => like v s
    | _, _ => false
  | and a b => a.eval like binds row && b.eval like binds row
  | or a b => a.eval like binds row || b.eval like binds row
  | paren a => a.eval like binds row

/-! ## Texts of conditions -/

theorem Plain.ofList {text : List Char} (h : Plain text) : Plain (String.ofList text).toList := by
  rwa [String.toList_ofList]

theorem Plain.append {text text' : List Char} (h : Plain text) (h' : Plain text') :
    Plain (text ++ text') := by
  refine ⟨fun hmem => (List.mem_append.mp hmem).elim h.1 h'.1, fun c hc => ?_⟩
  cases text with
  | nil => exact h'.2 c hc
  | cons d text => exact h.2 c hc

theorem render_joined (sep : List Char) (parts : List (List Piece)) :
    render (joined sep parts) = sep.intercalate (parts.map render) := by
  induction parts with
  | nil => rfl
  | cons part parts ih =>
    cases parts with
    | nil => simp [joined]
    | cons next parts =>
      rw [joined, render_append]
      · rw [render_cons, Piece.render, ih, List.map_cons, List.map_cons,
          List.map_cons, List.intercalate_cons_cons, List.append_assoc]
      · exact List.cons_ne_nil next parts

theorem mem_joined {sep : List Char} {parts : List (List Piece)} {piece : Piece}
    (h : piece ∈ joined sep parts) : piece = .text sep ∨ ∃ part ∈ parts, piece ∈ part := by
  induction parts with
  | nil => cases h
  | cons part parts ih =>
    cases parts with
    | nil => exact .inr ⟨part, List.mem_cons_self, h⟩
    | cons next parts =>
      rw [joined, List.mem_append, List.mem_cons] at h
      · obtain h | rfl | h := h
        · exact .inr ⟨part, List.mem_cons_self, h⟩
        · exact .inl rfl
        · refine (ih h).imp_right fun ⟨part', hpart', hpiece⟩ => ?_
          exact ⟨part', List.mem_cons_of_mem _ hpart', hpiece⟩
      · exact List.cons_ne_nil next parts

theorem not_mem_intercalate {α : Type*} {x : α} {sep : List α} {parts : List (List α)}
    (hsep : x ∉ sep) (h : ∀ part ∈ parts, x ∉ part) : x ∉ sep.intercalate parts := by
  induction parts with
  | nil => simp
  | cons part parts ih =>
    obtain ⟨hpart, hparts⟩ := List.forall_mem_cons.mp h
    by_cases hnil : parts = []
    · subst hnil
      simpa using hpart
    · rw [List.intercalate_cons_of_ne_nil hnil, List.mem_append, List.mem_append]
      rintro ((hmem | hmem) | hmem)
      · exact hpart hmem
      · exact hsep hmem
      · exact ih hparts hmem

theorem plain_tuplePieces {tuple : List Nat} {s : List Char}
    (h : Piece.text s ∈ tuplePieces tuple) : Plain s := by
  rw [tuplePieces, List.cons_append, List.mem_cons, List.mem_append, List.mem_singleton] at h
  obtain h | h | h := h
  · rw [Piece.text.inj h]
    decide
  · obtain h | ⟨part, hpart, hpiece⟩ := mem_joined h
    · rw [Piece.text.inj h]
      decide
    · obtain ⟨n, -, rfl⟩ := List.mem_map.mp hpart
      cases List.mem_singleton.mp hpiece
  · rw [Piece.text.inj h]
    decide

theorem plain_pieces {name : κ → String} (hname : ∀ c, Plain (name c).toList)
    (cond : Condition κ) : ∀ s, Piece.text s ∈ cond.pieces name → Plain s := by
  induction cond with
  | isNull c | isNotNull c =>
    intro s h
    rw [Piece.text.inj (List.mem_singleton.mp h)]
    exact (hname c).append (by decide)
  | inTuples cs tuples =>
    intro s h
    rw [Condition.pieces, List.cons_append, List.mem_cons, List.mem_append,
      List.mem_singleton] at h
    obtain h | h | h := h
    · have hnames : '$' ∉ (", ".intercalate (cs.map name)).toList := by
        rw [String.toList_intercalate, List.map_map]
        refine not_mem_intercalate (by decide) fun part hpart => ?_
        obtain ⟨c, -, rfl⟩ := List.mem_map.mp hpart
        exact (hname c).1
      rw [Piece.text.inj h]
      refine ⟨fun hmem => ?_, fun c hc => ?_⟩
      · rw [List.cons_append, List.mem_cons, List.mem_append] at hmem
        obtain hmem | hmem | hmem := hmem
        · exact absurd hmem (by decide)
        · exact hnames hmem
        · exact absurd hmem (by decide)
      · cases hc
        decide
    · obtain h | ⟨part, hpart, hpiece⟩ := mem_joined h
      · rw [Piece.text.inj h]
        decide
      · obtain ⟨tuple, -, rfl⟩ := List.mem_map.mp hpart
        exact plain_tuplePieces hpiece
    · rw [Piece.text.inj h]
      decide
  | eq c n | ilike c n =>
    intro s h
    rw [Condition.pieces, List.mem_cons, List.mem_singleton] at h
    obtain h | h := h
    · rw [Piece.text.inj h]
      exact (hname c).append (by decide)
    · cases h
  | and a b iha ihb | or a b iha ihb =>
    intro s h
    rw [Condition.pieces, List.mem_append, List.mem_cons] at h
    obtain h | h | h := h
    · exact iha s h
    · rw [Piece.text.inj h]
      decide
    · exact ihb s h
  | paren a iha =>
    intro s h
    rw [Condition.pieces, List.cons_append, List.mem_cons, List.mem_append,
      List.mem_singleton] at h
    obtain h | h | h := h
    · rw [Piece.text.inj h]
      decide
    · exact iha s h
    · rw [Piece.text.inj h]
      decide

/-! ## Consecutive numbers -/

def Consecutive (a : Nat) (numbers : List Nat) (b : Nat) : Prop :=
  numbers.Pairwise (· ≤ ·) ∧ ∀ k, k ∈ numbers ↔ a ≤ k ∧ k < b

theorem Consecutive.nil (a : Nat) : Consecutive a [] a :=
  ⟨.nil, fun k => by simp⟩

theorem Consecutive.append {a b c : Nat} {numbers numbers' : List Nat}
    (h : Consecutive a numbers b) (h' : Consecutive b numbers' c) (hab : a ≤ b) (hbc : b ≤ c) :
    Consecutive a (numbers ++ numbers') c := by
  refine ⟨List.pairwise_append.mpr ⟨h.1, h'.1, fun k hk k' hk' => ?_⟩, fun k => ?_⟩
  · have := (h.2 k).mp hk
    have := (h'.2 k').mp hk'
    omega
  · rw [List.mem_append, h.2, h'.2]
    omega

theorem consecutive_replicate (a count : Nat) (h : 0 < count) :
    Consecutive a (List.replicate count a) (a + 1) := by
  refine ⟨List.pairwise_replicate.mpr (.inr (Nat.le_refl a)), fun k => ?_⟩
  rw [List.mem_replicate]
  omega

theorem consecutive_range' (a count : Nat) : Consecutive a (List.range' a count) (a + count) := by
  refine ⟨?_, fun k => List.mem_range'_1⟩
  have hlt : (List.range' a count).Pairwise (· < ·) := List.pairwise_lt_range'
  exact hlt.imp Nat.le_of_lt

/-! ## Tuples of consecutive numbers -/

def numberTuples {β : Type*} (width : Nat) : Nat → List β → List (List Nat)
  | _, [] => []
  | idx, _ :: entries => List.range' idx width :: numberTuples width (idx + width) entries

theorem numberTuples_map {β γ : Type*} (f : β → γ) (width idx : Nat) (entries : List β) :
    numberTuples width idx (entries.map f) = numberTuples width idx entries := by
  induction entries generalizing idx with
  | nil => rfl
  | cons entry entries ih => rw [List.map_cons, numberTuples, numberTuples, ih]

theorem bound_append (before after : List Value) (value : Value) :
    bound (before ++ value :: after) (before.length + 1) = some value := by
  simp [bound]

theorem params_joined (sep : List Char) (parts : List (List Piece)) :
    params (joined sep parts) = parts.flatMap params := by
  induction parts with
  | nil => rfl
  | cons part parts ih =>
    cases parts with
    | nil => simp [joined]
    | cons next parts =>
      rw [joined, params_append, params, ih]
      · rfl
      · exact List.cons_ne_nil next parts

theorem params_tuplePieces (tuple : List Nat) : params (tuplePieces tuple) = tuple := by
  rw [tuplePieces, List.cons_append, params, params_append, params_joined]
  simp only [params, List.append_nil]
  induction tuple with
  | nil => rfl
  | cons n tuple ih =>
    rw [List.map_cons, List.flatMap_cons, ih]
    rfl

theorem flatten_numberTuples {β : Type*} (width idx : Nat) (entries : List β) :
    (numberTuples width idx entries).flatten = List.range' idx (width * entries.length) := by
  induction entries generalizing idx with
  | nil => rfl
  | cons entry entries ih =>
    rw [numberTuples, List.flatten_cons, ih, List.range'_append_1, List.length_cons, Nat.mul_succ,
      Nat.add_comm]

theorem params_inTuples {β : Type*} (name : κ → String) (cs : List κ) (width idx : Nat)
    (entries : List β) :
    params ((Condition.inTuples cs (numberTuples width idx entries)).pieces name) =
      List.range' idx (width * entries.length) := by
  rw [Condition.pieces, List.cons_append, params, params_append, params_joined,
    ← flatten_numberTuples]
  simp only [params, List.append_nil, List.flatMap_map, params_tuplePieces]
  exact List.flatMap_id'

theorem sameTuple_range' {before after : List Value} {values : List String}
    {row : κ → Option String} {cs : List κ} (hlen : cs.length = values.length) :
    sameTuple (before ++ values.map .text ++ after) row cs
        (List.range' (before.length + 1) values.length) = true ↔
      cs.map row = values.map some := by
  induction values generalizing before cs with
  | nil =>
    obtain rfl := List.eq_nil_of_length_eq_zero hlen
    exact ⟨fun _ => rfl, fun _ => rfl⟩
  | cons value values ih =>
    cases cs with
    | nil => cases hlen
    | cons c cs =>
      have hbinds : before ++ (value :: values).map Value.text ++ after =
          (before ++ [.text value]) ++ values.map .text ++ after := by simp
      have hbound : bound (before ++ (value :: values).map .text ++ after)
          (before.length + 1) = some (.text value) := by
        rw [List.append_assoc]
        exact bound_append _ _ _
      have hrest := @ih (before ++ [.text value]) cs (Nat.succ.inj hlen)
      rw [List.length_append, List.length_singleton, ← hbinds] at hrest
      have hmap : (c :: cs).map row = (value :: values).map some ↔
          row c = some value ∧ cs.map row = values.map some := by simp
      rw [List.length_cons, List.range'_succ, sameTuple, Bool.and_eq_true, hrest, hmap]
      refine and_congr_left fun _ => ?_
      rw [same, hbound]
      cases row c with
      | none => simp
      | some v => simp

theorem any_sameTuple {width : Nat} {before after : List Value} {entries : List (List String)}
    {row : κ → Option String} {cs : List κ} (hcs : cs.length = width)
    (hentries : ∀ entry ∈ entries, entry.length = width) :
    (numberTuples width (before.length + 1) entries).any
        (sameTuple (before ++ entries.flatten.map .text ++ after) row cs) = true ↔
      ∃ entry ∈ entries, cs.map row = entry.map some := by
  induction entries generalizing before with
  | nil => simp [numberTuples]
  | cons entry entries ih =>
    obtain ⟨hentry, hrest⟩ := List.forall_mem_cons.mp hentries
    have hbinds : before ++ (entry :: entries).flatten.map Value.text ++ after =
        (before ++ entry.map .text) ++ entries.flatten.map .text ++ after := by simp
    have hbinds' : before ++ (entry :: entries).flatten.map Value.text ++ after =
        before ++ entry.map .text ++ (entries.flatten.map .text ++ after) := by simp
    have htail := @ih (before ++ entry.map .text) hrest
    rw [List.length_append, List.length_map, hentry, ← hbinds] at htail
    have hhead : sameTuple (before ++ (entry :: entries).flatten.map .text ++ after) row cs
        (List.range' (before.length + 1) width) = true ↔ cs.map row = entry.map some := by
      rw [hbinds', ← hentry]
      exact sameTuple_range' (hcs.trans hentry.symm)
    rw [numberTuples, List.any_cons, Bool.or_eq_true, hhead, Nat.add_right_comm, htail]
    simp only [List.mem_cons, exists_eq_or_imp]

end Stroem.Foundation.Sql
