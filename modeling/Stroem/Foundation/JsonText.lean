import Mathlib.Data.List.Infix
import Mathlib.Tactic.Common

/-!
# Compact JSON text

JSON values as a compact writer puts them on one line, byte by byte.  Inside a string a quote
stands behind a backslash, so `"name":"` is found in such a line only where a key ends: at a member
`name`, or at a key that ends in `"name`.
-/

namespace Stroem.Foundation.JsonText

def quote : UInt8 := 34

def backslash : UInt8 := 92

def colon : UInt8 := 58

def comma : UInt8 := 44

/-! ## Strings -/

def hexDigits : List UInt8 :=
  [48, 49, 50, 51, 52, 53, 54, 55, 56, 57, 97, 98, 99, 100, 101, 102]

def hexDigit (n : Nat) : UInt8 := hexDigits.getD n 48

def escapeByte (b : UInt8) : List UInt8 :=
  if b = quote then [backslash, quote]
  else if b = backslash then [backslash, backslash]
  else if b = 8 then [backslash, 98]
  else if b = 9 then [backslash, 116]
  else if b = 10 then [backslash, 110]
  else if b = 12 then [backslash, 102]
  else if b = 13 then [backslash, 114]
  else if b < 32 then
    [backslash, 117, 48, 48, hexDigit (b.toNat / 16), hexDigit (b.toNat % 16)]
  else [b]

def escaped (s : List UInt8) : List UInt8 := s.flatMap escapeByte

def quoted (s : List UInt8) : List UInt8 := quote :: escaped s ++ [quote]

def Plain (s : List UInt8) : Prop := ∀ b ∈ s, escapeByte b = [b]

instance (s : List UInt8) : Decidable (Plain s) :=
  inferInstanceAs (Decidable (∀ b ∈ s, escapeByte b = [b]))

/-! ## Values -/

def numberByte (b : UInt8) : Bool :=
  decide (48 ≤ b ∧ b ≤ 57) || decide (b ∈ ([43, 45, 46, 69, 101] : List UInt8))

def Digits (s : List UInt8) : Prop := s ≠ [] ∧ ∀ b ∈ s, 48 ≤ b ∧ b ≤ 57

def Fraction (s : List UInt8) : Prop := s = [] ∨ ∃ digits, Digits digits ∧ s = 46 :: digits

def Exponent (s : List UInt8) : Prop :=
  s = [] ∨ ∃ e ∈ ([69, 101] : List UInt8), ∃ sign ∈ ([[], [43], [45]] : List (List UInt8)),
    ∃ digits, Digits digits ∧ s = e :: (sign ++ digits)

def IsNumberText (text : List UInt8) : Prop :=
  ∃ sign ∈ ([[], [45]] : List (List UInt8)), ∃ int frac exp, text = sign ++ int ++ frac ++ exp ∧
    Digits int ∧ (int.head? = some 48 → int = [48]) ∧ Fraction frac ∧ Exponent exp

structure Number where
  text : List UInt8
  shape : IsNumberText text

variable {s : List UInt8}

theorem Digits.bytes (h : Digits s) : ∀ b ∈ s, numberByte b = true := by
  intro b hb
  rw [numberByte, decide_eq_true (h.2 b hb), Bool.true_or]

theorem Fraction.bytes (h : Fraction s) : ∀ b ∈ s, numberByte b = true := by
  obtain rfl | ⟨digits, hdigits, rfl⟩ := h
  · simp
  · rw [List.forall_mem_cons]
    exact ⟨by decide, hdigits.bytes⟩

theorem Exponent.bytes (h : Exponent s) : ∀ b ∈ s, numberByte b = true := by
  obtain rfl | ⟨e, he, sign, hsign, digits, hdigits, rfl⟩ := h
  · simp
  · have hmark : ([69, 101] : List UInt8).all numberByte = true := by decide
    have hsigns : ([[], [43], [45]] : List (List UInt8)).all (·.all numberByte) = true := by
      decide
    rw [List.forall_mem_cons, List.forall_mem_append]
    exact ⟨List.all_eq_true.mp hmark e he,
      List.all_eq_true.mp (List.all_eq_true.mp hsigns sign hsign), hdigits.bytes⟩

theorem Number.bytes (n : Number) : ∀ b ∈ n.text, numberByte b = true := by
  obtain ⟨sign, hsign, int, frac, exp, htext, hint, -, hfrac, hexp⟩ := n.shape
  have hsigns : ([[], [45]] : List (List UInt8)).all (·.all numberByte) = true := by decide
  rw [htext, List.forall_mem_append, List.forall_mem_append, List.forall_mem_append]
  exact ⟨⟨⟨List.all_eq_true.mp (List.all_eq_true.mp hsigns sign hsign), hint.bytes⟩,
    hfrac.bytes⟩, hexp.bytes⟩

theorem Number.nonempty (n : Number) : n.text ≠ [] := by
  obtain ⟨sign, -, int, frac, exp, htext, hint, -, -, -⟩ := n.shape
  simp [htext, hint.1]

inductive Value
  | null
  | bool (b : Bool)
  | num (n : Number)
  | str (s : List UInt8)
  | arr (items : List Value)
  | obj (members : List (List UInt8 × Value))

def separator (first : Bool) : List UInt8 := if first then [] else [comma]

mutual

def write : Value → List UInt8
  | .null => [110, 117, 108, 108]
  | .bool true => [116, 114, 117, 101]
  | .bool false => [102, 97, 108, 115, 101]
  | .num n => n.text
  | .str s => quoted s
  | .arr items => 91 :: writeItems true items ++ [93]
  | .obj members => 123 :: writeMembers true members ++ [125]

def writeItems (first : Bool) : List Value → List UInt8
  | [] => []
  | v :: items => separator first ++ write v ++ writeItems false items

def writeMembers (first : Bool) : List (List UInt8 × Value) → List UInt8
  | [] => []
  | (key, v) :: members =>
    separator first ++ quoted key ++ colon :: write v ++ writeMembers false members

end

mutual

def keys : Value → List (List UInt8)
  | .null | .bool _ | .num _ | .str _ => []
  | .arr items => keysItems items
  | .obj members => keysMembers members

def keysItems : List Value → List (List UInt8)
  | [] => []
  | v :: items => keys v ++ keysItems items

def keysMembers : List (List UInt8 × Value) → List (List UInt8)
  | [] => []
  | (key, v) :: members => key :: keys v ++ keysMembers members

end

theorem writeMembers_append (first : Bool) (xs ys : List (List UInt8 × Value)) :
    writeMembers first (xs ++ ys) =
      writeMembers first xs ++ writeMembers (first && xs.isEmpty) ys := by
  induction xs generalizing first with
  | nil => simp [writeMembers]
  | cons member xs ih =>
    obtain ⟨key, v⟩ := member
    simp [writeMembers, ih]

/-! ## Escapes -/

theorem hexDigit_of_all {p : UInt8 → Bool} (h : hexDigits.all p = true) (n : Nat) :
    p (hexDigit n) = true := by
  rw [hexDigit, List.getD_eq_getElem?_getD]
  cases hget : hexDigits[n]? with
  | none => exact List.all_eq_true.mp h 48 (by decide)
  | some b => exact List.all_eq_true.mp h b (List.mem_of_getElem? hget)

theorem hexDigit_ne_quote (n : Nat) : hexDigit n ≠ quote :=
  bne_iff_ne.mp (hexDigit_of_all (p := (· != quote)) (by decide) n)

def shortEscapes : List (UInt8 × UInt8) :=
  [(quote, quote), (backslash, backslash), (8, 98), (9, 116), (10, 110), (12, 102), (13, 114)]

inductive Escape (b : UInt8) : List UInt8 → Prop
  | short (d : UInt8) : (b, d) ∈ shortEscapes → Escape b [backslash, d]
  | control : b < 32 → b ≠ 10 →
      Escape b [backslash, 117, 48, 48, hexDigit (b.toNat / 16), hexDigit (b.toNat % 16)]
  | plain : b ≠ quote → b ≠ backslash → 32 ≤ b → Escape b [b]

theorem escape_escapeByte (b : UInt8) : Escape b (escapeByte b) := by
  unfold escapeByte
  iterate 7
    split
    next h =>
      rw [h]
      exact .short _ (by decide)
  rename_i hquote hback _ _ h10 _ _
  split
  next hlow => exact .control hlow h10
  next hlow => exact .plain hquote hback (UInt8.not_lt.mp hlow)

theorem escapeByte_cases (b : UInt8) :
    (escapeByte b = [b] ∧ b ≠ quote ∧ b ≠ backslash) ∨
      b = quote ∧ escapeByte b = [backslash, quote] ∨
      ∃ tail, escapeByte b = backslash :: tail ∧ quote ∉ tail := by
  have hb := escape_escapeByte b
  generalize escapeByte b = code at hb ⊢
  cases hb with
  | short d hd =>
    have hall : shortEscapes.all (fun e => (e.1 == quote && e.2 == quote) || e.2 != quote) =
        true := by
      decide
    have hpair := List.all_eq_true.mp hall _ hd
    simp only [Bool.or_eq_true, Bool.and_eq_true, beq_iff_eq, bne_iff_ne] at hpair
    obtain ⟨rfl, rfl⟩ | hne := hpair
    · exact .inr (.inl ⟨rfl, rfl⟩)
    · exact .inr (.inr ⟨_, rfl, fun hmem => hne (List.mem_singleton.mp hmem).symm⟩)
  | control _ _ =>
    refine .inr (.inr ⟨_, rfl, ?_⟩)
    have hlow := hexDigit_ne_quote (b.toNat % 16)
    have hhigh := hexDigit_ne_quote (b.toNat / 16)
    simp only [List.mem_cons, List.not_mem_nil, or_false, not_or]
    exact ⟨by decide, by decide, by decide, hhigh.symm, hlow.symm⟩
  | plain hquote hback _ => exact .inl ⟨rfl, hquote, hback⟩

theorem escapeByte_eq_self {b : UInt8} (hquote : b ≠ quote) (hback : b ≠ backslash)
    (hlow : 32 ≤ b) : escapeByte b = [b] := by
  have hne : ∀ c : UInt8, c < 32 → b ≠ c := by
    rintro c hc rfl
    exact absurd hlow (UInt8.not_le.mpr hc)
  rw [escapeByte, if_neg hquote, if_neg hback, if_neg (hne 8 (by decide)),
    if_neg (hne 9 (by decide)), if_neg (hne 10 (by decide)), if_neg (hne 12 (by decide)),
    if_neg (hne 13 (by decide)), if_neg (UInt8.not_lt.mpr hlow)]

theorem Plain.escaped_eq (h : Plain s) : escaped s = s := by
  unfold escaped
  induction s with
  | nil => rfl
  | cons b s ih =>
    rw [List.flatMap_cons, h b List.mem_cons_self,
      ih fun c hc => h c (List.mem_cons_of_mem b hc), List.singleton_append]

theorem Plain.quote_not_mem (h : Plain s) : quote ∉ s := fun hmem =>
  absurd (h quote hmem) (by decide)

theorem Number.quote_not_mem (n : Number) : quote ∉ n.text := fun hmem =>
  absurd (n.bytes quote hmem) (by decide)

/-! ## No control characters -/

theorem le_of_all {text : List UInt8} (h : text.all (fun b => decide (32 ≤ b)) = true)
    {c : UInt8} (hc : c ∈ text) : 32 ≤ c :=
  of_decide_eq_true (List.all_eq_true.mp h c hc)

theorem le_hexDigit (n : Nat) : 32 ≤ hexDigit n :=
  of_decide_eq_true (hexDigit_of_all (p := fun b => decide (32 ≤ b)) (by decide) n)

theorem le_of_mem_escapeByte {b c : UInt8} (h : c ∈ escapeByte b) : 32 ≤ c := by
  have hb := escape_escapeByte b
  generalize escapeByte b = code at h hb
  cases hb with
  | short d hd =>
    have hall : shortEscapes.all (fun e => decide (32 ≤ e.2)) = true := by decide
    simp only [List.mem_cons, List.not_mem_nil, or_false] at h
    obtain rfl | rfl := h
    · decide
    · exact of_decide_eq_true (List.all_eq_true.mp hall _ hd)
  | control _ _ =>
    simp only [List.mem_cons, List.not_mem_nil, or_false] at h
    obtain rfl | rfl | rfl | rfl | rfl | rfl := h
    iterate 4 decide
    iterate 2 exact le_hexDigit _
  | plain _ _ hlow =>
    rw [List.mem_singleton.mp h]
    exact hlow

theorem le_of_mem_quoted {c : UInt8} (h : c ∈ quoted s) : 32 ≤ c := by
  simp only [quoted, List.cons_append, List.mem_cons, List.mem_append, List.not_mem_nil,
    or_false] at h
  obtain rfl | hmem | rfl := h
  · decide
  · obtain ⟨b, -, hb⟩ := List.mem_flatMap.mp hmem
    exact le_of_mem_escapeByte hb
  · decide

theorem Number.le_of_mem {n : Number} {c : UInt8} (h : c ∈ n.text) : 32 ≤ c := by
  have hbyte := n.bytes c h
  simp only [numberByte, Bool.or_eq_true, decide_eq_true_eq, List.mem_cons, List.not_mem_nil,
    or_false] at hbyte
  obtain hdigit | rfl | rfl | rfl | rfl | rfl := hbyte
  · exact UInt8.le_trans (by decide) hdigit.1
  all_goals decide

theorem le_of_mem_separator {first : Bool} {c : UInt8} (h : c ∈ separator first) : 32 ≤ c := by
  cases first with
  | false =>
    rw [List.mem_singleton.mp h]
    decide
  | true => exact absurd h List.not_mem_nil

mutual

theorem le_of_mem_write : ∀ {v : Value} {c : UInt8}, c ∈ write v → 32 ≤ c
  | .null, _, h | .bool true, _, h | .bool false, _, h => le_of_all (by decide) h
  | .num _, _, h => Number.le_of_mem h
  | .str _, _, h => le_of_mem_quoted h
  | .arr items, c, h => by
      simp only [write, List.cons_append, List.mem_cons, List.mem_append, List.not_mem_nil,
        or_false] at h
      obtain rfl | hmem | rfl := h
      · decide
      · exact le_of_mem_writeItems hmem
      · decide
  | .obj members, c, h => by
      simp only [write, List.cons_append, List.mem_cons, List.mem_append, List.not_mem_nil,
        or_false] at h
      obtain rfl | hmem | rfl := h
      · decide
      · exact le_of_mem_writeMembers hmem
      · decide

theorem le_of_mem_writeItems {first : Bool} :
    ∀ {items : List Value} {c : UInt8}, c ∈ writeItems first items → 32 ≤ c
  | [], _, h => absurd h List.not_mem_nil
  | v :: items, c, h => by
      simp only [writeItems, List.mem_append] at h
      obtain (hmem | hmem) | hmem := h
      · exact le_of_mem_separator hmem
      · exact le_of_mem_write hmem
      · exact le_of_mem_writeItems hmem

theorem le_of_mem_writeMembers {first : Bool} : ∀ {members : List (List UInt8 × Value)} {c : UInt8},
    c ∈ writeMembers first members → 32 ≤ c
  | [], _, h => absurd h List.not_mem_nil
  | (key, v) :: members, c, h => by
      simp only [writeMembers, List.mem_append, List.mem_cons] at h
      obtain ((hmem | hmem) | rfl | hmem) | hmem := h
      · exact le_of_mem_separator hmem
      · exact le_of_mem_quoted hmem
      · decide
      · exact le_of_mem_write hmem
      · exact le_of_mem_writeMembers hmem

end

/-! ## Where a pattern does not start -/

section Misses

variable {α : Type*} (pattern : List α)

def Misses : List α → List α → Prop
  | [], _ => True
  | b :: text, rest => ¬ pattern <+: b :: (text ++ rest) ∧ Misses text rest

variable {pattern}

theorem misses_append {text more rest : List α} :
    Misses pattern (text ++ more) rest ↔
      Misses pattern text (more ++ rest) ∧ Misses pattern more rest := by
  induction text with
  | nil => simp [Misses]
  | cons b text ih => simp [Misses, ih, and_assoc]

theorem misses_of_head_not_mem {c : α} {text rest : List α} (hc : c ∉ text)
    (hpattern : pattern.head? = some c) : Misses pattern text rest := by
  induction text with
  | nil => trivial
  | cons b text ih =>
    rw [List.mem_cons, not_or] at hc
    refine ⟨?_, ih hc.2⟩
    rintro ⟨tail, htail⟩
    cases pattern with
    | nil => cases hpattern
    | cons first pattern =>
      obtain rfl := Option.some.inj hpattern
      exact hc.1 (List.cons.inj htail).1

end Misses

/-! ## Where a key ends -/

def letter (b : UInt8) : Bool := decide (97 ≤ b ∧ b ≤ 122)

def memberStart (name : List UInt8) : List UInt8 := quote :: name ++ [quote, colon, quote]

def ReadsAs (name key : List UInt8) : Prop := key = name ∨ quote :: name <:+ key

instance (name key : List UInt8) : Decidable (ReadsAs name key) :=
  inferInstanceAs (Decidable (_ ∨ _))

def Closed (rest : List UInt8) : Prop :=
  ∀ b, rest.head? = some b → letter b = false ∧ b ≠ quote

variable {name : List UInt8}

theorem plain_of_letters (h : ∀ b ∈ name, letter b = true) : Plain name := by
  intro b hb
  have hletter := of_decide_eq_true (h b hb)
  refine escapeByte_eq_self ?_ ?_ (UInt8.le_trans (by decide) hletter.1)
  · rintro rfl
    exact absurd hletter (by decide)
  · rintro rfl
    exact absurd hletter (by decide)

variable {rest : List UInt8}

theorem eq_of_prefix_escaped (hname : ∀ b ∈ name, letter b = true)
    (h : name ++ [quote, colon, quote] <+: escaped s ++ quote :: rest) :
    s = name ∧ [colon, quote] <+: rest := by
  induction name generalizing s with
  | nil =>
    cases s with
    | nil => exact ⟨rfl, ((List.cons_prefix_cons).mp h).2⟩
    | cons b s =>
      exfalso
      obtain ⟨hb, hquote, -⟩ | ⟨-, hb⟩ | ⟨tail, hb, -⟩ := escapeByte_cases b
      · rw [escaped, List.flatMap_cons, hb] at h
        exact hquote ((List.cons_prefix_cons).mp h).1.symm
      · rw [escaped, List.flatMap_cons, hb] at h
        exact absurd ((List.cons_prefix_cons).mp h).1 (by decide)
      · rw [escaped, List.flatMap_cons, hb] at h
        exact absurd ((List.cons_prefix_cons).mp h).1 (by decide)
  | cons c name ih =>
    have hc := hname c List.mem_cons_self
    cases s with
    | nil =>
      obtain rfl := ((List.cons_prefix_cons).mp h).1
      exact absurd hc (by decide)
    | cons b s =>
      obtain ⟨hb, -, -⟩ | ⟨-, hb⟩ | ⟨tail, hb, -⟩ := escapeByte_cases b
      · rw [escaped, List.flatMap_cons, hb] at h
        obtain ⟨rfl, hrest⟩ := (List.cons_prefix_cons).mp h
        obtain ⟨rfl, hcolon⟩ := ih (fun d hd => hname d (List.mem_cons_of_mem _ hd)) hrest
        exact ⟨rfl, hcolon⟩
      · rw [escaped, List.flatMap_cons, hb] at h
        obtain rfl := ((List.cons_prefix_cons).mp h).1
        exact absurd hc (by decide)
      · rw [escaped, List.flatMap_cons, hb] at h
        obtain rfl := ((List.cons_prefix_cons).mp h).1
        exact absurd hc (by decide)

theorem misses_escaped (hname : ∀ b ∈ name, letter b = true) (hend : Closed rest)
    (hkey : [colon, quote] <+: rest → ¬ quote :: name <:+ s) :
    Misses (memberStart name) (escaped s ++ [quote]) rest := by
  induction s with
  | nil =>
    refine ⟨?_, trivial⟩
    intro h
    have hrest := (List.cons_prefix_cons.mp h).2
    cases name with
    | nil => exact (hend quote (List.head?_eq_some_iff.mpr ⟨_, hrest.choose_spec.symm⟩)).2 rfl
    | cons c name =>
      have hletter := (hend c (List.head?_eq_some_iff.mpr ⟨_, hrest.choose_spec.symm⟩)).1
      rw [hname c List.mem_cons_self] at hletter
      cases hletter
  | cons b s ih =>
    have htail := ih fun hcolon hsuffix =>
      hkey hcolon (hsuffix.trans (List.suffix_cons b s))
    have hsplit : escaped (b :: s) ++ [quote] = escapeByte b ++ (escaped s ++ [quote]) := by
      rw [escaped, List.flatMap_cons, List.append_assoc, escaped]
    rw [hsplit, misses_append]
    refine ⟨?_, htail⟩
    obtain ⟨hb, hquote, -⟩ | ⟨rfl, hb⟩ | ⟨tail, hb, hnone⟩ := escapeByte_cases b
    · rw [hb]
      exact misses_of_head_not_mem (fun h => hquote (List.mem_singleton.mp h).symm) rfl
    · rw [hb]
      refine ⟨fun h => absurd (List.cons_prefix_cons.mp h).1 (by decide), ?_, trivial⟩
      intro h
      have hrest := (List.cons_prefix_cons.mp h).2
      rw [List.nil_append, List.append_assoc, List.singleton_append] at hrest
      obtain ⟨rfl, hcolon⟩ := eq_of_prefix_escaped hname hrest
      exact hkey hcolon List.suffix_rfl
    · rw [hb]
      refine misses_of_head_not_mem ?_ rfl
      rw [List.mem_cons, not_or]
      exact ⟨by decide, hnone⟩

theorem misses_quoted (hname : ∀ b ∈ name, letter b = true) (hend : Closed rest)
    (hkey : [colon, quote] <+: rest → ¬ ReadsAs name s) :
    Misses (memberStart name) (quoted s) rest := by
  refine ⟨?_, misses_escaped hname hend fun hcolon h => hkey hcolon (.inr h)⟩
  intro h
  have hrest : name ++ [quote, colon, quote] <+: escaped s ++ [quote] ++ rest :=
    (List.cons_prefix_cons.mp h).2
  rw [List.append_assoc, List.singleton_append] at hrest
  obtain ⟨heq, hcolon⟩ := eq_of_prefix_escaped hname hrest
  exact hkey hcolon (.inl heq)

/-! ## Written values -/

def Follows (rest : List UInt8) : Prop :=
  ∀ b, rest.head? = some b → b = comma ∨ b = 93 ∨ b = 125

theorem Follows.cons {b : UInt8} (h : b = comma ∨ b = 93 ∨ b = 125) (rest : List UInt8) :
    Follows (b :: rest) := by
  intro c hc
  rwa [← Option.some.inj hc]

theorem closed_cons {b : UInt8} (h : b = comma ∨ b = 93 ∨ b = 125 ∨ b = colon)
    (rest : List UInt8) : Closed (b :: rest) := by
  intro c hc
  obtain rfl := Option.some.inj hc
  obtain rfl | rfl | rfl | rfl := h <;> decide

theorem Follows.closed (h : Follows rest) : Closed rest := by
  cases rest with
  | nil => exact fun b hb => absurd hb (by simp)
  | cons b rest =>
    refine closed_cons ?_ rest
    obtain rfl | rfl | rfl := h b rfl
    · exact .inl rfl
    · exact .inr (.inl rfl)
    · exact .inr (.inr (.inl rfl))

theorem Follows.not_colon (h : Follows rest) : ¬ [colon, quote] <+: rest := by
  rintro ⟨tail, rfl⟩
  exact absurd (h colon rfl) (by decide)

theorem follows_writeItems (items : List Value) (rest : List UInt8) :
    Follows (writeItems false items ++ 93 :: rest) := by
  cases items with
  | nil => exact .cons (.inr (.inl rfl)) rest
  | cons v items => exact .cons (.inl rfl) _

theorem follows_writeMembers (members : List (List UInt8 × Value)) (h : Follows rest) :
    Follows (writeMembers false members ++ rest) := by
  cases members with
  | nil => exact h
  | cons member members => exact .cons (.inl rfl) _

theorem misses_separator (first : Bool) (rest : List UInt8) :
    Misses (memberStart name) (separator first) rest := by
  cases first with
  | false => exact misses_of_head_not_mem (by decide) rfl
  | true => trivial

mutual

theorem misses_write {name : List UInt8}
    (hname : ∀ b ∈ name, letter b = true) : ∀ {v : Value} {rest : List UInt8}, Follows rest →
    (∀ key ∈ keys v, ¬ ReadsAs name key) → Misses (memberStart name) (write v) rest
  | .null, _, _, _ => misses_of_head_not_mem (by decide) rfl
  | .bool true, _, _, _ => misses_of_head_not_mem (by decide) rfl
  | .bool false, _, _, _ => misses_of_head_not_mem (by decide) rfl
  | .num n, _, _, _ => misses_of_head_not_mem n.quote_not_mem rfl
  | .str s, _, hrest, _ =>
    misses_quoted hname hrest.closed fun hcolon => absurd hcolon hrest.not_colon
  | .arr items, rest, _, hkeys => by
      rw [write, List.cons_append]
      refine ⟨fun h => absurd (List.cons_prefix_cons.mp h).1 (by decide), ?_⟩
      refine misses_append.mpr
        ⟨misses_writeItems hname ?_ hkeys, misses_of_head_not_mem (by decide) rfl⟩
      exact ⟨rest, rfl⟩
  | .obj members, rest, _, hkeys => by
      rw [write, List.cons_append]
      refine ⟨fun h => absurd (List.cons_prefix_cons.mp h).1 (by decide), ?_⟩
      refine misses_append.mpr
        ⟨misses_writeMembers hname (.cons (.inr (.inr rfl)) rest) hkeys,
          misses_of_head_not_mem (by decide) rfl⟩

theorem misses_writeItems {name : List UInt8}
    (hname : ∀ b ∈ name, letter b = true) {first : Bool} :
    ∀ {items : List Value} {rest : List UInt8},
    (∃ tail, rest = 93 :: tail) → (∀ key ∈ keysItems items, ¬ ReadsAs name key) →
      Misses (memberStart name) (writeItems first items) rest
  | [], _, _, _ => trivial
  | v :: items, rest, hrest, hkeys => by
      obtain ⟨tail, rfl⟩ := hrest
      rw [writeItems, misses_append, misses_append]
      refine ⟨⟨misses_separator first _, ?_⟩, ?_⟩
      · exact misses_write hname (follows_writeItems items tail) fun key hkey =>
          hkeys key (List.mem_append_left _ hkey)
      · exact misses_writeItems hname ⟨tail, rfl⟩ fun key hkey =>
          hkeys key (List.mem_append_right _ hkey)

theorem misses_writeMembers {name : List UInt8}
    (hname : ∀ b ∈ name, letter b = true) {first : Bool} :
    ∀ {members : List (List UInt8 × Value)} {rest : List UInt8}, Follows rest →
      (∀ key ∈ keysMembers members, ¬ ReadsAs name key) →
      Misses (memberStart name) (writeMembers first members) rest
  | [], _, _, _ => trivial
  | (key, v) :: members, rest, hrest, hkeys => by
      rw [writeMembers, misses_append, misses_append, misses_append]
      refine ⟨⟨⟨misses_separator first _, ?_⟩, ?_, ?_⟩, ?_⟩
      · exact misses_quoted hname (closed_cons (.inr (.inr (.inr rfl))) _) fun _ =>
          hkeys key List.mem_cons_self
      · exact fun h => absurd (List.cons_prefix_cons.mp h).1 (by decide)
      · exact misses_write hname (follows_writeMembers members hrest) fun k hk =>
          hkeys k (List.mem_cons_of_mem _ (List.mem_append_left _ hk))
      · exact misses_writeMembers hname hrest fun k hk =>
          hkeys k (List.mem_cons_of_mem _ (List.mem_append_right _ hk))

end


theorem write_obj_member {name value : List UInt8} (hname : ∀ b ∈ name, letter b = true)
    {before : List (List UInt8 × Value)} (after : List (List UInt8 × Value))
    (hkeys : ∀ key ∈ keysMembers before, ¬ ReadsAs name key) :
    ∃ lead tail, write (.obj (before ++ (name, .str value) :: after)) =
        lead ++ (memberStart name ++ (escaped value ++ quote :: tail)) ∧
      Misses (memberStart name) lead (memberStart name ++ (escaped value ++ quote :: tail)) := by
  refine ⟨123 :: writeMembers true before ++ separator before.isEmpty,
    writeMembers false after ++ [125], ?_, ?_⟩
  · rw [write, writeMembers_append, writeMembers, quoted, (plain_of_letters hname).escaped_eq,
      write,
      quoted, memberStart]
    simp
  · rw [misses_append]
    refine ⟨⟨fun h => absurd (List.cons_prefix_cons.mp h).1 (by decide), ?_⟩,
      misses_separator _ _⟩
    cases before with
    | nil => trivial
    | cons member before => exact misses_writeMembers hname (.cons (.inl rfl) _) hkeys

end Stroem.Foundation.JsonText
