import Stroem.Foundation.JsonText

/-!
# Compact JSON text is read in one way

A written value determines the value and where it ends in a longer text.  A byte that is written
inside strings only, such as `=`, cannot stand before two ends of one text that are both values:
one of them would begin inside a string of the other.
-/

namespace Stroem.Foundation.JsonText

/-! ## Strings -/

def unescapeLetter (c : UInt8) : UInt8 :=
  if c = 98 then 8 else if c = 116 then 9 else if c = 110 then 10 else if c = 102 then 12
  else if c = 114 then 13 else c

def unescape : List UInt8 → Option (UInt8 × List UInt8)
  | [] => none
  | b :: text =>
    if b = backslash then
      match text with
      | [] => none
      | c :: text =>
        if c = 117 then
          match text with
          | _ :: _ :: high :: low :: text =>
            some (UInt8.ofNat (16 * hexDigits.idxOf high + hexDigits.idxOf low), text)
          | _ => none
        else some (unescapeLetter c, text)
    else some (b, text)

theorem idxOf_hexDigit {n : Nat} (h : n < 16) : hexDigits.idxOf (hexDigit n) = n := by
  have hall : ∀ m < 16, hexDigits.idxOf (hexDigit m) = m := by decide
  exact hall n h

theorem unescape_escapeByte (b : UInt8) (text : List UInt8) :
    unescape (escapeByte b ++ text) = some (b, text) := by
  have hletter : ∀ c, c ≠ 117 → unescape ([backslash, c] ++ text) =
      some (unescapeLetter c, text) := by
    intro c hc
    simp only [List.cons_append, List.nil_append, unescape, if_true, if_neg hc]
  have hb := escape_escapeByte b
  generalize escapeByte b = code at hb ⊢
  cases hb with
  | short d hd =>
    have hall : shortEscapes.all (fun e => e.2 != 117 && unescapeLetter e.2 == e.1) = true := by
      decide
    have hpair := List.all_eq_true.mp hall _ hd
    simp only [Bool.and_eq_true, bne_iff_ne, beq_iff_eq] at hpair
    rw [hletter d hpair.1, hpair.2]
  | control hlow _ =>
    have hb : b.toNat < 32 := UInt8.lt_iff_toNat_lt.mp hlow
    have hvalue : 16 * (b.toNat / 16) + b.toNat % 16 = b.toNat := Nat.div_add_mod _ _
    simp only [List.cons_append, List.nil_append, unescape, if_true,
      idxOf_hexDigit (Nat.mod_lt _ (by decide : 0 < 16)),
      idxOf_hexDigit (by omega : b.toNat / 16 < 16), hvalue, UInt8.ofNat_toNat]
  | plain _ hback _ =>
    simp only [List.cons_append, List.nil_append, unescape, if_neg hback]

theorem escapeByte_append_inj {b b' : UInt8} {text text' : List UInt8}
    (h : escapeByte b ++ text = escapeByte b' ++ text') : b = b' ∧ text = text' := by
  have hread := congrArg unescape h
  rw [unescape_escapeByte, unescape_escapeByte] at hread
  exact Prod.mk.inj (Option.some.inj hread)

theorem escapeByte_append_ne (b : UInt8) (text rest : List UInt8) :
    escapeByte b ++ text ≠ quote :: rest := by
  intro h
  obtain ⟨hb, hquote, -⟩ | ⟨-, hb⟩ | ⟨tail, hb, -⟩ := escapeByte_cases b
  · rw [hb] at h
    exact hquote (List.cons.inj h).1
  · rw [hb] at h
    exact absurd (List.cons.inj h).1 (by decide)
  · rw [hb] at h
    exact absurd (List.cons.inj h).1 (by decide)

theorem quoted_append_inj {s s' text text' : List UInt8}
    (h : quoted s ++ text = quoted s' ++ text') : s = s' ∧ text = text' := by
  have hbody : escaped s ++ quote :: text = escaped s' ++ quote :: text' := by
    simpa [quoted] using h
  clear h
  induction s generalizing s' with
  | nil =>
    cases s' with
    | nil => exact ⟨rfl, (List.cons.inj hbody).2⟩
    | cons b' s' =>
      rw [escaped, escaped, List.flatMap_cons, List.append_assoc] at hbody
      exact absurd hbody.symm (escapeByte_append_ne _ _ _)
  | cons b s ih =>
    cases s' with
    | nil =>
      rw [escaped, escaped, List.flatMap_cons, List.append_assoc] at hbody
      exact absurd hbody (escapeByte_append_ne _ _ _)
    | cons b' s' =>
      rw [escaped, escaped, List.flatMap_cons, List.flatMap_cons, List.append_assoc,
        List.append_assoc] at hbody
      obtain ⟨rfl, hrest⟩ := escapeByte_append_inj hbody
      obtain ⟨rfl, htext⟩ := ih hrest
      exact ⟨rfl, htext⟩

/-! ## Values -/

def kindOfByte (b : UInt8) : Nat :=
  if b = 110 then 0 else if b = 116 then 1 else if b = 102 then 2
  else if numberByte b then 3 else if b = quote then 4 else if b = 91 then 5
  else if b = 123 then 6 else 7

def kind : Value → Nat
  | .null => 0
  | .bool true => 1
  | .bool false => 2
  | .num _ => 3
  | .str _ => 4
  | .arr _ => 5
  | .obj _ => 6

theorem kindOfByte_of_numberByte {b : UInt8} (h : numberByte b = true) : kindOfByte b = 3 := by
  have hne : ∀ c, numberByte c = false → b ≠ c := by
    rintro c hc rfl
    rw [hc] at h
    cases h
  rw [kindOfByte, if_neg (hne 110 (by decide)), if_neg (hne 116 (by decide)),
    if_neg (hne 102 (by decide)), if_pos h]

theorem write_head (v : Value) : ∃ b text, write v = b :: text ∧ kindOfByte b = kind v := by
  cases v with
  | null => exact ⟨_, _, rfl, by decide⟩
  | bool b => cases b <;> exact ⟨_, _, rfl, by decide⟩
  | num n =>
    obtain ⟨b, text, htext⟩ := List.exists_cons_of_ne_nil n.nonempty
    refine ⟨b, text, htext, kindOfByte_of_numberByte (n.bytes b ?_)⟩
    rw [htext]
    exact List.mem_cons_self
  | str s => exact ⟨_, _, rfl, (by decide : kindOfByte quote = 4)⟩
  | arr items => exact ⟨_, _, rfl, (by decide : kindOfByte 91 = 5)⟩
  | obj members => exact ⟨_, _, rfl, (by decide : kindOfByte 123 = 6)⟩

theorem kind_eq {v w : Value} {text text' : List UInt8} (h : write v ++ text = write w ++ text') :
    kind v = kind w := by
  obtain ⟨b, rest, hb, hkind⟩ := write_head v
  obtain ⟨b', rest', hb', hkind'⟩ := write_head w
  rw [hb, hb'] at h
  rw [← hkind, ← hkind', (List.cons.inj h).1]

theorem write_append_ne {v : Value} {c : UInt8} {text rest : List UInt8}
    (hc : kindOfByte c = 7) : write v ++ text ≠ c :: rest := by
  intro h
  obtain ⟨b, tail, hb, hkind⟩ := write_head v
  rw [hb] at h
  rw [(List.cons.inj h).1, hc] at hkind
  cases v with
  | bool b => cases b <;> cases hkind
  | _ => cases hkind

theorem Follows.not_numberByte {rest : List UInt8} (h : Follows rest) {b : UInt8}
    (hb : rest.head? = some b) : numberByte b = false := by
  obtain rfl | rfl | rfl := h b hb <;> decide

theorem number_append_inj {n n' : Number} {rest rest' : List UInt8} (hrest : Follows rest)
    (hrest' : Follows rest') (h : n.text ++ rest = n'.text ++ rest') : n = n' ∧ rest = rest' := by
  have htake : ∀ {text tail : List UInt8}, (∀ b ∈ text, numberByte b = true) → Follows tail →
      (text ++ tail).takeWhile numberByte = text := by
    intro text tail htext htail
    rw [List.takeWhile_append_of_pos htext]
    cases tail with
    | nil => rw [List.takeWhile_nil, List.append_nil]
    | cons b tail => rw [List.takeWhile_cons_of_neg (by simp [htail.not_numberByte rfl]),
        List.append_nil]
  have htext : n.text = n'.text := by
    rw [← htake n.bytes hrest, h, htake n'.bytes hrest']
  rw [htext] at h
  obtain ⟨text, hshape⟩ := n
  obtain ⟨text', hshape'⟩ := n'
  obtain rfl : text = text' := htext
  exact ⟨rfl, List.append_cancel_left h⟩

mutual

theorem write_append_inj : ∀ {v w : Value} {rest rest' : List UInt8}, Follows rest →
    Follows rest' → write v ++ rest = write w ++ rest' → v = w ∧ rest = rest'
  | .null, w, rest, rest', _, _, h => by
      have hkind := kind_eq h
      cases w with
      | null => exact ⟨rfl, List.append_cancel_left h⟩
      | bool b => cases b <;> cases hkind
      | _ => cases hkind
  | .bool true, w, rest, rest', _, _, h => by
      have hkind := kind_eq h
      cases w with
      | bool b =>
        cases b with
        | true => exact ⟨rfl, List.append_cancel_left h⟩
        | false => cases hkind
      | _ => cases hkind
  | .bool false, w, rest, rest', _, _, h => by
      have hkind := kind_eq h
      cases w with
      | bool b =>
        cases b with
        | true => cases hkind
        | false => exact ⟨rfl, List.append_cancel_left h⟩
      | _ => cases hkind
  | .num n, w, rest, rest', hrest, hrest', h => by
      have hkind := kind_eq h
      cases w with
      | num n' =>
        obtain ⟨rfl, heq⟩ := number_append_inj hrest hrest' h
        exact ⟨rfl, heq⟩
      | bool b => cases b <;> cases hkind
      | _ => cases hkind
  | .str s, w, rest, rest', _, _, h => by
      have hkind := kind_eq h
      cases w with
      | str s' =>
        obtain ⟨rfl, heq⟩ := quoted_append_inj h
        exact ⟨rfl, heq⟩
      | bool b => cases b <;> cases hkind
      | _ => cases hkind
  | .arr items, w, rest, rest', _, _, h => by
      have hkind := kind_eq h
      cases w with
      | arr items' =>
        simp only [write, List.cons_append, List.append_assoc, List.nil_append] at h
        obtain ⟨rfl, heq⟩ := writeItems_append_inj (List.cons.inj h).2
        exact ⟨rfl, heq⟩
      | bool b => cases b <;> cases hkind
      | _ => cases hkind
  | .obj members, w, rest, rest', _, _, h => by
      have hkind := kind_eq h
      cases w with
      | obj members' =>
        simp only [write, List.cons_append, List.append_assoc, List.nil_append] at h
        obtain ⟨rfl, heq⟩ := writeMembers_append_inj (List.cons.inj h).2
        exact ⟨rfl, heq⟩
      | bool b => cases b <;> cases hkind
      | _ => cases hkind

theorem writeItems_append_inj {first : Bool} : ∀ {items items' : List Value}
    {rest rest' : List UInt8},
    writeItems first items ++ 93 :: rest = writeItems first items' ++ 93 :: rest' →
      items = items' ∧ rest = rest'
  | [], [], _, _, h => ⟨rfl, (List.cons.inj h).2⟩
  | [], v :: items', _, _, h => by
      rw [writeItems, writeItems, List.append_assoc, List.append_assoc] at h
      cases first with
      | true => exact absurd h.symm (write_append_ne (by decide))
      | false => exact absurd (List.cons.inj h).1 (by decide)
  | v :: items, [], _, _, h => by
      rw [writeItems, writeItems, List.append_assoc, List.append_assoc] at h
      cases first with
      | true => exact absurd h (write_append_ne (by decide))
      | false => exact absurd (List.cons.inj h).1 (by decide)
  | v :: items, w :: items', _, _, h => by
      rw [writeItems, writeItems] at h
      simp only [List.append_assoc] at h
      obtain ⟨rfl, htail⟩ := write_append_inj (follows_writeItems items _)
        (follows_writeItems items' _) (List.append_cancel_left h)
      obtain ⟨rfl, heq⟩ := writeItems_append_inj htail
      exact ⟨rfl, heq⟩

theorem writeMembers_append_inj {first : Bool} : ∀ {members members' : List (List UInt8 × Value)}
    {rest rest' : List UInt8},
    writeMembers first members ++ 125 :: rest = writeMembers first members' ++ 125 :: rest' →
      members = members' ∧ rest = rest'
  | [], [], _, _, h => ⟨rfl, (List.cons.inj h).2⟩
  | [], (key, v) :: members', _, _, h => by
      simp only [writeMembers, List.append_assoc] at h
      cases first with
      | true | false => exact absurd (List.cons.inj h).1 (by decide)
  | (key, v) :: members, [], _, _, h => by
      simp only [writeMembers, List.append_assoc] at h
      cases first with
      | true | false => exact absurd (List.cons.inj h).1 (by decide)
  | (key, v) :: members, (key', w) :: members', rest, rest', h => by
      simp only [writeMembers, List.append_assoc, List.cons_append] at h
      obtain ⟨rfl, hvalue⟩ := quoted_append_inj (List.append_cancel_left h)
      obtain ⟨rfl, htail⟩ := write_append_inj
        (follows_writeMembers members (.cons (.inr (.inr rfl)) rest))
        (follows_writeMembers members' (.cons (.inr (.inr rfl)) rest')) (List.cons.inj hvalue).2
      obtain ⟨rfl, heq⟩ := writeMembers_append_inj htail
      exact ⟨rfl, heq⟩

end

theorem write_inj {v w : Value} (h : write v = write w) : v = w := by
  have hnil : Follows [] := fun b hb => by cases hb
  exact (write_append_inj hnil hnil (congrArg (· ++ []) h)).1

/-! ## Inside and outside of strings -/

inductive Place
  | outside
  | inside
  | escape
  deriving DecidableEq

def readByte (c : UInt8) : Place → UInt8 → Option Place
  | .outside, b =>
    if b = quote then some .inside else if b = backslash ∨ b = c then none else some .outside
  | .inside, b =>
    if b = quote then some .outside else if b = backslash then some .escape else some .inside
  | .escape, b => if b = c then none else some .inside

def readText (c : UInt8) : Place → List UInt8 → Option Place
  | place, [] => some place
  | place, b :: text => (readByte c place b).bind fun place => readText c place text

theorem readText_append (c : UInt8) (place : Place) (xs ys : List UInt8) :
    readText c place (xs ++ ys) = (readText c place xs).bind fun place => readText c place ys := by
  induction xs generalizing place with
  | nil => rfl
  | cons b xs ih =>
    rw [List.cons_append, readText, readText, Option.bind_assoc]
    exact Option.bind_congr fun next _ => ih next

def StringOnly (c : UInt8) : Prop :=
  c ≠ quote ∧ c ≠ backslash ∧ numberByte c = false ∧
    c ∉ ([97, 98, 101, 102, 108, 110, 114, 115, 116, 117, 44, 58, 91, 93, 123, 125] : List UInt8)

instance (c : UInt8) : Decidable (StringOnly c) :=
  inferInstanceAs (Decidable (_ ∧ _ ∧ _ ∧ _))

variable {c : UInt8}

theorem readText_bare {text : List UInt8}
    (h : ∀ b ∈ text, b ≠ quote ∧ b ≠ backslash ∧ b ≠ c) :
    readText c .outside text = some .outside := by
  induction text with
  | nil => rfl
  | cons b text ih =>
    obtain ⟨hquote, hback, hc⟩ := h b List.mem_cons_self
    rw [readText, readByte, if_neg hquote, if_neg (not_or.mpr ⟨hback, hc⟩), Option.bind_some]
    exact ih fun d hd => h d (List.mem_cons_of_mem _ hd)

theorem readByte_inside {b : UInt8} (hquote : b ≠ quote) (hback : b ≠ backslash) :
    readByte c .inside b = some .inside := by
  rw [readByte, if_neg hquote, if_neg hback]

theorem hexDigit_ne_backslash (n : Nat) : hexDigit n ≠ backslash :=
  bne_iff_ne.mp (hexDigit_of_all (p := (· != backslash)) (by decide) n)

def punctuation : List UInt8 :=
  [97, 98, 101, 102, 108, 110, 114, 115, 116, 117, 44, 58, 91, 93, 123, 125]

theorem readText_escapeByte (hc : StringOnly c) (b : UInt8) :
    readText c .inside (escapeByte b) = some .inside := by
  have hletter : ∀ d, d ≠ c → readText c .inside [backslash, d] = some .inside := by
    intro d hd
    have hback : readByte c .inside backslash = some .escape := rfl
    rw [readText, hback, Option.bind_some, readText, readByte, if_neg hd]
    rfl
  have hlist : ∀ d, punctuation.contains d = true → d ≠ c := fun d hd heq =>
    hc.2.2.2 (heq ▸ List.contains_iff_mem.mp hd)
  have hb := escape_escapeByte b
  generalize escapeByte b = code at hb ⊢
  cases hb with
  | short d hd =>
    have hall : shortEscapes.all (fun e => e.2 == quote || e.2 == backslash ||
        punctuation.contains e.2) = true := by
      decide
    have hletters := List.all_eq_true.mp hall _ hd
    simp only [Bool.or_eq_true, beq_iff_eq] at hletters
    obtain (rfl | rfl) | hpunctuation := hletters
    · exact hletter _ hc.1.symm
    · exact hletter _ hc.2.1.symm
    · exact hletter d (hlist d hpunctuation)
  | control _ _ =>
    have hu := hletter 117 (hlist _ (by decide))
    have hsplit : ([backslash, 117, 48, 48, hexDigit (b.toNat / 16), hexDigit (b.toNat % 16)] :
        List UInt8) = [backslash, 117] ++
          [48, 48, hexDigit (b.toNat / 16), hexDigit (b.toNat % 16)] := rfl
    have hzero := readByte_inside (c := c) (b := 48) (by decide) (by decide)
    have hdigit : ∀ n, readByte c .inside (hexDigit n) = some .inside := fun n =>
      readByte_inside (hexDigit_ne_quote n) (hexDigit_ne_backslash n)
    rw [hsplit, readText_append, hu]
    simp only [Option.bind_some, readText, hzero, hdigit]
  | plain hquote hback _ =>
    rw [readText, readByte_inside hquote hback]
    rfl

theorem readText_quoted (hc : StringOnly c) (s : List UInt8) :
    readText c .outside (quoted s) = some .outside := by
  have hescaped : readText c .inside (escaped s) = some .inside := by
    induction s with
    | nil => rfl
    | cons b s ih =>
      rw [escaped, List.flatMap_cons, readText_append, readText_escapeByte hc, Option.bind_some]
      exact ih
  rw [quoted, List.cons_append, readText]
  have hopen : readByte c .outside quote = some .inside := rfl
  rw [hopen, Option.bind_some, readText_append, hescaped]
  rfl

theorem readText_number (hc : StringOnly c) (n : Number) :
    readText c .outside n.text = some .outside := by
  refine readText_bare fun b hb => ?_
  have hbyte := n.bytes b hb
  refine ⟨?_, ?_, ?_⟩
  · rintro rfl
    exact absurd hbyte (by decide)
  · rintro rfl
    exact absurd hbyte (by decide)
  · rintro rfl
    rw [hc.2.2.1] at hbyte
    cases hbyte

theorem readText_punctuation (hc : StringOnly c) {text : List UInt8}
    (h : text.all punctuation.contains = true) : readText c .outside text = some .outside := by
  refine readText_bare fun b hb => ?_
  have hmem := List.contains_iff_mem.mp (List.all_eq_true.mp h b hb)
  refine ⟨?_, ?_, fun heq => hc.2.2.2 (heq ▸ hmem)⟩
  · rintro rfl
    exact absurd hmem (by decide)
  · rintro rfl
    exact absurd hmem (by decide)

theorem readText_separator (hc : StringOnly c) (first : Bool) :
    readText c .outside (separator first) = some .outside := by
  cases first with
  | true => rfl
  | false => exact readText_punctuation hc (by decide +kernel)

mutual

theorem readText_write (hc : StringOnly c) :
    ∀ v : Value, readText c .outside (write v) = some .outside
  | .null => readText_punctuation hc (by decide +kernel)
  | .bool true => readText_punctuation hc (by decide +kernel)
  | .bool false => readText_punctuation hc (by decide +kernel)
  | .num n => readText_number hc n
  | .str s => readText_quoted hc s
  | .arr items => by
      have hopen : readText c .outside [91] = some .outside :=
        readText_punctuation hc (by decide +kernel)
      have hclose : readText c .outside [93] = some .outside :=
        readText_punctuation hc (by decide +kernel)
      rw [write, ← List.singleton_append, readText_append, readText_append, hopen,
        Option.bind_some, readText_writeItems hc true items, Option.bind_some, hclose]
  | .obj members => by
      have hopen : readText c .outside [123] = some .outside :=
        readText_punctuation hc (by decide +kernel)
      have hclose : readText c .outside [125] = some .outside :=
        readText_punctuation hc (by decide +kernel)
      rw [write, ← List.singleton_append, readText_append, readText_append, hopen,
        Option.bind_some, readText_writeMembers hc true members, Option.bind_some, hclose]

theorem readText_writeItems (hc : StringOnly c) (first : Bool) :
    ∀ items : List Value, readText c .outside (writeItems first items) = some .outside
  | [] => rfl
  | v :: items => by
      rw [writeItems, readText_append, readText_append, readText_separator hc, Option.bind_some,
        readText_write hc v, Option.bind_some, readText_writeItems hc false items]

theorem readText_writeMembers (hc : StringOnly c) (first : Bool) :
    ∀ members : List (List UInt8 × Value),
      readText c .outside (writeMembers first members) = some .outside
  | [] => rfl
  | (key, v) :: members => by
      have hcolon : readText c .outside [colon] = some .outside :=
        readText_punctuation hc (by decide +kernel)
      rw [writeMembers, ← List.singleton_append, readText_append, readText_append,
        readText_append, readText_separator hc, Option.bind_some, readText_quoted hc,
        Option.bind_some, readText_append, hcolon, Option.bind_some, readText_write hc v,
        Option.bind_some, readText_writeMembers hc false members]

end

theorem readText_opposite {text : List UInt8} {p q : Place}
    (hp : readText c .outside text = some p) (hq : readText c .inside text = some q) :
    (p = .outside ∧ q = .inside) ∨ (p = .inside ∧ q = .outside) := by
  induction text generalizing p q with
  | nil => exact .inl ⟨(Option.some.inj hp).symm, (Option.some.inj hq).symm⟩
  | cons b text ih =>
    rw [readText] at hp hq
    unfold readByte at hp hq
    dsimp only at hp hq
    by_cases hquote : b = quote
    · rw [if_pos hquote, Option.bind_some] at hp hq
      exact (ih hq hp).elim (fun h => .inr ⟨h.2, h.1⟩) fun h => .inl ⟨h.2, h.1⟩
    · rw [if_neg hquote] at hp hq
      by_cases hback : b = backslash ∨ b = c
      · rw [if_pos hback] at hp
        cases hp
      · rw [if_neg hback, Option.bind_some] at hp
        rw [if_neg (not_or.mp hback).1, Option.bind_some] at hq
        exact ih hp hq

theorem write_ne_behind (hc : StringOnly c) (front : List UInt8) (v w : Value) :
    write v ≠ front ++ c :: write w := by
  intro h
  have hread := readText_write hc v
  rw [h, readText_append] at hread
  obtain ⟨place, -, hplace⟩ := Option.bind_eq_some_iff.mp hread
  rw [readText] at hplace
  cases place with
  | outside =>
    rw [readByte, if_neg hc.1, if_pos (.inr rfl)] at hplace
    cases hplace
  | inside =>
    rw [readByte_inside hc.1 hc.2.1, Option.bind_some] at hplace
    obtain ⟨-, h⟩ | ⟨h, -⟩ := readText_opposite (readText_write hc w) hplace
    · cases h
    · cases h
  | escape =>
    rw [readByte, if_pos rfl] at hplace
    cases hplace

theorem behind_inj (hc : StringOnly c) {front front' : List UInt8} {v w : Value}
    (h : front ++ c :: write v = front' ++ c :: write w) : front = front' ∧ v = w := by
  obtain ⟨mid, hfront, hrest⟩ | ⟨mid, hfront, hrest⟩ := List.append_eq_append_iff.mp h
  · cases mid with
    | nil =>
      refine ⟨by rw [hfront, List.append_nil], write_inj (List.cons.inj hrest).2⟩
    | cons b mid =>
      exact absurd (List.cons.inj hrest).2 (write_ne_behind hc mid v w)
  · cases mid with
    | nil =>
      refine ⟨by rw [hfront, List.append_nil], (write_inj (List.cons.inj hrest).2).symm⟩
    | cons b mid =>
      exact absurd (List.cons.inj hrest).2 (write_ne_behind hc mid w v)

end Stroem.Foundation.JsonText
