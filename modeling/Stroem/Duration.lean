import Mathlib.Algebra.GroupWithZero.Nat
import Mathlib.Algebra.Group.Int.Defs
import Stroem.Foundation.Text

/-!
# Durations

`parse_duration` reads a number of seconds or a sequence of numbers with units, `h`, `m` or `s`,
and adds the components up.  `Display` writes hours, minutes and seconds.

A component that does not fit in 64 bits is refused, but the sum of the components is clamped to
the largest value, so a text whose sum does not fit is accepted with another value than its own.
-/

namespace Stroem.Duration

open Foundation

def u64Max : Nat := 2 ^ 64 - 1

def checkedMul (a b : Nat) : Option Nat := if a * b ≤ u64Max then some (a * b) else none

def saturatingAdd (a b : Nat) : Nat := min (a + b) u64Max

def parseDigits (digits : List Char) : Option Nat :=
  if digits.isEmpty || !digits.all Char.isDigit then none
  else if Nat.ofDigitChars 10 digits 0 ≤ u64Max then some (Nat.ofDigitChars 10 digits 0)
  else none

def parseU64 (text : List Char) : Option Nat :=
  match text with
  | '+' :: digits => parseDigits digits
  | digits => parseDigits digits

def parseComponent (n : Nat) (ch : Char) : Except String Nat :=
  match ch with
  | 'h' => (checkedMul n 3600).elim (.error ("duration value " ++ toString n ++ "h overflows")) .ok
  | 'm' => (checkedMul n 60).elim (.error ("duration value " ++ toString n ++ "m overflows")) .ok
  | 's' => .ok n
  | ch => .error ("unknown duration unit '" ++ String.singleton ch ++ "' (expected h, m, or s)")

def parseUnits (s : List Char) (totalSecs : Nat) (currentNum : List Char) (hasAnyUnit : Bool) :
    List Char → Except String Nat
  | [] =>
    if !currentNum.isEmpty then
      .error ("trailing number '" ++ String.ofList currentNum ++
        "' without unit (expected h, m, or s)")
    else if !hasAnyUnit then
      .error ("invalid duration format: '" ++ String.ofList s ++ "'")
    else if totalSecs = 0 then .error "duration must be greater than 0"
    else .ok totalSecs
  | ch :: rest =>
    if ch.isDigit then parseUnits s totalSecs (currentNum ++ [ch]) hasAnyUnit rest
    else if currentNum.isEmpty then
      .error ("unexpected character '" ++ String.singleton ch ++ "' without preceding number")
    else
      match parseU64 currentNum with
      | none => .error ("invalid number: " ++ String.ofList currentNum)
      | some n =>
        match parseComponent n ch with
        | .error e => .error e
        | .ok component => parseUnits s (saturatingAdd totalSecs component) [] true rest

def parseDuration (text : String) : Except String Nat :=
  let s := trim text.toList
  if s.isEmpty then .error "duration string is empty"
  else
    match parseU64 s with
    | some n => if n = 0 then .error "duration must be greater than 0" else .ok n
    | none => parseUnits s 0 [] false s

def display (secs : Nat) : String :=
  if secs = 0 then "0s"
  else
    let h := secs / 3600
    let m := secs % 3600 / 60
    let s := secs % 60
    (if h > 0 then toString h ++ "h" else "") ++ (if m > 0 then toString m ++ "m" else "") ++
      (if s > 0 ∨ (h = 0 ∧ m = 0) then toString s ++ "s" else "")

/-! ## What a text denotes -/

inductive DurationUnit where
  | hours
  | minutes
  | seconds
deriving DecidableEq

def DurationUnit.char : DurationUnit → Char
  | .hours => 'h'
  | .minutes => 'm'
  | .seconds => 's'

def DurationUnit.secs : DurationUnit → Nat
  | .hours => 3600
  | .minutes => 60
  | .seconds => 1

structure Component where
  digits : List Char
  unit : DurationUnit
  nonempty : digits ≠ []
  decimal : ∀ c ∈ digits, c.isDigit = true

namespace Component

def text (c : Component) : List Char := c.digits ++ [c.unit.char]

def secs (c : Component) : Nat := Nat.ofDigitChars 10 c.digits 0 * c.unit.secs

end Component

def textOf (components : List Component) : List Char := components.flatMap Component.text

def total (components : List Component) : Nat := (components.map Component.secs).sum

def IsNumber (text : List Char) (v : Nat) : Prop :=
  ∃ digits : List Char, digits ≠ [] ∧ (∀ c ∈ digits, c.isDigit = true) ∧
    (text = digits ∨ text = '+' :: digits) ∧ v = Nat.ofDigitChars 10 digits 0

def Denotes (text : List Char) (v : Nat) : Prop :=
  IsNumber text v ∨ ∃ components, components ≠ [] ∧ text = textOf components ∧ v = total components

/-! ## Numbers -/

theorem parseDigits_eq_some_iff {digits : List Char} {n : Nat} :
    parseDigits digits = some n ↔
      digits ≠ [] ∧ (∀ c ∈ digits, c.isDigit = true) ∧ n = Nat.ofDigitChars 10 digits 0 ∧
        n ≤ u64Max := by
  unfold parseDigits
  by_cases hne : digits = []
  · simp [hne]
  by_cases hdigits : ∀ c ∈ digits, c.isDigit = true
  · have hall : digits.all Char.isDigit = true := List.all_eq_true.mpr hdigits
    have hempty : digits.isEmpty = false := List.isEmpty_eq_false_iff.mpr hne
    rw [hall, hempty]
    simp only [Bool.not_true, Bool.or_self, Bool.false_eq_true, if_false,
      Option.ite_none_right_eq_some, Option.some.injEq]
    constructor
    · rintro ⟨hle, rfl⟩
      exact ⟨hne, hdigits, rfl, hle⟩
    · rintro ⟨-, -, rfl, hle⟩
      exact ⟨hle, rfl⟩
  · have hall : digits.all Char.isDigit = false :=
      Bool.eq_false_iff.mpr fun hall => hdigits (List.all_eq_true.mp hall)
    rw [hall]
    simp only [Bool.not_false, Bool.or_true, if_true, reduceCtorEq, false_iff]
    exact fun h => hdigits h.2.1

theorem isDigit_ne_plus {c : Char} (h : c.isDigit = true) : c ≠ '+' := by
  rintro rfl
  exact absurd h (by decide)

theorem parseU64_of_digits {digits : List Char} (hdigits : ∀ c ∈ digits, c.isDigit = true) :
    parseU64 digits = parseDigits digits := by
  unfold parseU64
  split
  · exact absurd rfl (isDigit_ne_plus (hdigits '+' List.mem_cons_self))
  · rfl

theorem parseU64_eq_some_iff {text : List Char} {n : Nat} :
    parseU64 text = some n ↔ IsNumber text n ∧ n ≤ u64Max := by
  constructor
  · intro h
    unfold parseU64 at h
    split at h
    · next digits =>
      obtain ⟨hne, hdigits, rfl, hle⟩ := parseDigits_eq_some_iff.mp h
      exact ⟨⟨digits, hne, hdigits, .inr rfl, rfl⟩, hle⟩
    · obtain ⟨hne, hdigits, rfl, hle⟩ := parseDigits_eq_some_iff.mp h
      exact ⟨⟨text, hne, hdigits, .inl rfl, rfl⟩, hle⟩
  · rintro ⟨⟨digits, hne, hdigits, rfl | rfl, rfl⟩, hle⟩
    · rw [parseU64_of_digits hdigits]
      exact parseDigits_eq_some_iff.mpr ⟨hne, hdigits, rfl, hle⟩
    · exact parseDigits_eq_some_iff.mpr ⟨hne, hdigits, rfl, hle⟩

/-! ## Components -/

theorem unit_not_digit (unit : DurationUnit) : unit.char.isDigit = false := by
  cases unit <;> decide

theorem secs_pos (unit : DurationUnit) : 0 < unit.secs := by
  cases unit <;> decide

theorem textOf_cons (c : Component) (components : List Component) :
    textOf (c :: components) = c.digits ++ c.unit.char :: textOf components := by
  rw [textOf, List.flatMap_cons, Component.text, List.append_assoc]
  rfl

theorem total_cons (c : Component) (components : List Component) :
    total (c :: components) = c.secs + total components := by
  rw [total, List.map_cons, List.sum_cons]
  rfl

variable {components : List Component}

theorem textOf_ne_nil (h : components ≠ []) : textOf components ≠ [] := by
  cases components with
  | nil => exact absurd rfl h
  | cons c components =>
    rw [textOf_cons]
    simp

theorem textOf_eq_run {digits rest : List Char} {ch : Char}
    (hdigits : ∀ c ∈ digits, c.isDigit = true) (hch : ch.isDigit = false)
    (h : textOf components = digits ++ ch :: rest) :
    ∃ c components', components = c :: components' ∧ c.digits = digits ∧ c.unit.char = ch ∧
      textOf components' = rest := by
  cases components with
  | nil =>
    have hlen := congrArg List.length h
    simp [textOf] at hlen
  | cons c components =>
    rw [textOf_cons] at h
    obtain ⟨hrun, hunit, hrest⟩ := run_inj c.decimal hdigits (unit_not_digit c.unit) hch h
    exact ⟨c, components, rfl, hrun, hunit, hrest⟩

theorem textOf_not_digits (hne : components ≠ []) :
    ∃ c ∈ textOf components, c.isDigit = false := by
  cases components with
  | nil => exact absurd rfl hne
  | cons c components =>
    refine ⟨c.unit.char, ?_, unit_not_digit c.unit⟩
    rw [textOf_cons]
    simp

theorem textOf_head {ch : Char} {rest : List Char} (h : textOf components = ch :: rest) :
    ch.isDigit = true := by
  cases components with
  | nil => cases h
  | cons c components =>
    rw [textOf_cons] at h
    cases hdigits : c.digits with
    | nil => exact absurd hdigits c.nonempty
    | cons d digits =>
      rw [hdigits] at h
      obtain ⟨rfl, -⟩ := List.cons.inj h
      exact c.decimal d (by rw [hdigits]; exact List.mem_cons_self)

theorem textOf_inj {components' : List Component} (h : textOf components = textOf components') :
    total components = total components' := by
  induction components generalizing components' with
  | nil =>
    cases components' with
    | nil => rfl
    | cons c' components' => exact absurd h.symm (textOf_ne_nil (List.cons_ne_nil c' components'))
  | cons c components ih =>
    rw [textOf_cons] at h
    obtain ⟨c', rest, rfl, hdigits, hunit, hrest⟩ :=
      textOf_eq_run c.decimal (unit_not_digit c.unit) h.symm
    have hsame : c'.unit = c.unit := by
      revert hunit
      cases c'.unit <;> cases c.unit <;> decide
    rw [total_cons, total_cons, ih hrest.symm, Component.secs, Component.secs, hdigits, hsame]

theorem isNumber_unique {text : List Char} {v w : Nat} (hv : IsNumber text v)
    (hw : IsNumber text w) : v = w := by
  obtain ⟨digits, -, hdigits, htext, rfl⟩ := hv
  obtain ⟨digits', -, hdigits', htext', rfl⟩ := hw
  obtain rfl | rfl := htext
  · obtain rfl | rfl := htext'
    · rfl
    · exact absurd rfl (isDigit_ne_plus (hdigits '+' List.mem_cons_self))
  · obtain rfl | htext' := htext'
    · have hplus := hdigits' '+' List.mem_cons_self
      exact absurd rfl (isDigit_ne_plus hplus)
    · rw [(List.cons.inj htext').2]

theorem not_isNumber_textOf (hne : components ≠ []) (v : Nat) :
    ¬IsNumber (textOf components) v := by
  rintro ⟨digits, -, hdigits, htext | htext, -⟩
  · obtain ⟨c, hc, hnot⟩ := textOf_not_digits hne
    rw [htext] at hc
    rw [hdigits c hc] at hnot
    cases hnot
  · exact isDigit_ne_plus (textOf_head htext) rfl

theorem denotes_unique {text : List Char} {v w : Nat} (hv : Denotes text v)
    (hw : Denotes text w) : v = w := by
  obtain hv | ⟨components, hne, rfl, rfl⟩ := hv
  · obtain hw | ⟨components, hne, rfl, rfl⟩ := hw
    · exact isNumber_unique hv hw
    · exact absurd hv (not_isNumber_textOf hne v)
  · obtain hw | ⟨components', -, htext, rfl⟩ := hw
    · exact absurd hw (not_isNumber_textOf hne w)
    · exact textOf_inj htext

/-! ## The loop -/

theorem checkedMul_elim_eq_ok_iff {a b n : Nat} {e : String} :
    (checkedMul a b).elim (Except.error e) .ok = .ok n ↔ n = a * b ∧ n ≤ u64Max := by
  unfold checkedMul
  split
  · next hle =>
    simp only [Option.elim_some, Except.ok.injEq]
    constructor
    · rintro rfl
      exact ⟨rfl, hle⟩
    · exact fun h => h.1.symm
  · next hle =>
    simp only [Option.elim_none, reduceCtorEq, false_iff]
    rintro ⟨rfl, hle'⟩
    exact hle hle'

theorem parseComponent_unit {n component : Nat} (unit : DurationUnit) (hn : n ≤ u64Max) :
    parseComponent n unit.char = .ok component ↔
      component = n * unit.secs ∧ component ≤ u64Max := by
  cases unit with
  | hours => exact checkedMul_elim_eq_ok_iff
  | minutes => exact checkedMul_elim_eq_ok_iff
  | seconds =>
    change Except.ok n = Except.ok component ↔ component = n * 1 ∧ component ≤ u64Max
    rw [Except.ok.injEq, Nat.mul_one]
    constructor
    · rintro rfl
      exact ⟨rfl, hn⟩
    · exact fun h => h.1.symm

theorem parseComponent_eq_ok {n component : Nat} {ch : Char}
    (h : parseComponent n ch = .ok component) : ∃ unit : DurationUnit, unit.char = ch := by
  unfold parseComponent at h
  split at h
  · exact ⟨.hours, rfl⟩
  · exact ⟨.minutes, rfl⟩
  · exact ⟨.seconds, rfl⟩
  · cases h

theorem min_add_min (a b c : Nat) : min (min (a + b) u64Max + c) u64Max =
    min (a + (b + c)) u64Max := by
  omega

theorem parseUnits_eq_ok_iff {s text currentNum : List Char} {totalSecs n : Nat} {hasAny : Bool}
    (hcurrent : ∀ c ∈ currentNum, c.isDigit = true) (htotal : totalSecs ≤ u64Max) :
    parseUnits s totalSecs currentNum hasAny text = .ok n ↔
      ∃ components, currentNum ++ text = textOf components ∧
        (∀ c ∈ components, c.secs ≤ u64Max) ∧ (hasAny = true ∨ components ≠ []) ∧
        n = min (totalSecs + total components) u64Max ∧ n ≠ 0 := by
  induction text generalizing totalSecs currentNum hasAny with
  | nil =>
    rw [List.append_nil]
    cases hcase : currentNum with
    | cons d digits =>
      -- digits without a unit
      simp only [parseUnits, List.isEmpty_cons, Bool.not_false, if_true, reduceCtorEq,
        false_iff]
      rintro ⟨components, htext, -⟩
      have hne : components ≠ [] := by
        rintro rfl
        cases htext
      obtain ⟨c, hc, hnot⟩ := textOf_not_digits hne
      rw [← htext, ← hcase] at hc
      rw [hcurrent c hc] at hnot
      cases hnot
    | nil =>
      have hnone : ∀ components, [] = textOf components → components = [] := by
        intro components htext
        by_contra hne
        exact textOf_ne_nil hne htext.symm
      simp only [parseUnits, List.isEmpty_nil, Bool.not_true, Bool.false_eq_true, if_false]
      constructor
      · intro h
        split at h
        · cases h
        · next hany =>
          split at h
          · cases h
          · next hzero =>
            obtain rfl := Except.ok.inj h
            refine ⟨[], rfl, List.forall_mem_nil _, .inl (by simpa using hany), ?_, hzero⟩
            change totalSecs = min (totalSecs + 0) u64Max
            omega
      · rintro ⟨components, htext, -, hany, hn, hzero⟩
        obtain rfl := hnone components htext
        have hn' : n = totalSecs := by
          rw [hn]
          change min (totalSecs + 0) u64Max = totalSecs
          omega
        rw [if_neg (by simpa using hany), ← hn', if_neg hzero]
  | cons ch rest ih =>
    rw [parseUnits]
    by_cases hdigit : ch.isDigit = true
    · have hcurrent' : ∀ c ∈ currentNum ++ [ch], c.isDigit = true := by
        intro c hc
        obtain hc | hc := List.mem_append.mp hc
        · exact hcurrent c hc
        · rw [List.mem_singleton.mp hc]
          exact hdigit
      rw [if_pos hdigit, ih hcurrent' htotal, List.append_assoc]
      rfl
    · rw [if_neg hdigit]
      rw [Bool.not_eq_true] at hdigit
      by_cases hempty : currentNum = []
      · rw [hempty]
        simp only [List.isEmpty_nil, if_true, reduceCtorEq, false_iff]
        rintro ⟨components, htext, -⟩
        rw [textOf_head htext.symm] at hdigit
        cases hdigit
      · rw [if_neg (by simpa using hempty), parseU64_of_digits hcurrent]
        have hfirst : ∀ components, currentNum ++ ch :: rest = textOf components →
            ∃ c components', components = c :: components' ∧ c.digits = currentNum ∧
              c.unit.char = ch ∧ textOf components' = rest := fun components htext =>
          textOf_eq_run hcurrent hdigit htext.symm
        constructor
        · intro h
          split at h
          · cases h
          next value hvalue =>
            obtain ⟨-, -, hval, hfits⟩ := parseDigits_eq_some_iff.mp hvalue
            split at h
            · cases h
            next component hcomponent =>
              obtain ⟨unit, rfl⟩ := parseComponent_eq_ok hcomponent
              obtain ⟨hsecs, hle⟩ := (parseComponent_unit unit hfits).mp hcomponent
              have hsat : saturatingAdd totalSecs component ≤ u64Max := Nat.min_le_right _ _
              obtain ⟨components, htext, hall, -, hn, hzero⟩ :=
                (ih (List.forall_mem_nil _) hsat).mp h
              have hsame : component = (Component.mk currentNum unit hempty hcurrent).secs := by
                rw [hsecs, hval]
                rfl
              refine ⟨⟨currentNum, unit, hempty, hcurrent⟩ :: components, ?_,
                List.forall_mem_cons.mpr ⟨hsame ▸ hle, hall⟩, .inr (List.cons_ne_nil _ _), ?_,
                hzero⟩
              · rw [textOf_cons, ← htext]
                rfl
              · rw [hn, total_cons, ← hsame]
                exact min_add_min _ _ _
        · rintro ⟨components, htext, hall, -, hn, hzero⟩
          obtain ⟨c, components, rfl, rfl, rfl, hrest⟩ := hfirst components htext
          obtain ⟨hfits, hall⟩ := List.forall_mem_cons.mp hall
          have hvalue : Nat.ofDigitChars 10 c.digits 0 ≤ u64Max :=
            Nat.le_trans (Nat.le_mul_of_pos_right _ (secs_pos c.unit)) hfits
          have hparse : parseDigits c.digits = some (Nat.ofDigitChars 10 c.digits 0) :=
            parseDigits_eq_some_iff.mpr ⟨hempty, hcurrent, rfl, hvalue⟩
          have hcomponent : parseComponent (Nat.ofDigitChars 10 c.digits 0) c.unit.char =
              .ok c.secs := (parseComponent_unit c.unit hvalue).mpr ⟨rfl, hfits⟩
          have hsat : saturatingAdd totalSecs c.secs ≤ u64Max := Nat.min_le_right _ _
          simp only [hparse, hcomponent]
          refine (ih (List.forall_mem_nil _) hsat).mpr
            ⟨components, hrest.symm, hall, .inl rfl, ?_, hzero⟩
          rw [hn, total_cons]
          exact (min_add_min _ _ _).symm

/-! ## Parsing -/

theorem parseDuration_eq_ok_iff {s : String} {n : Nat} :
    parseDuration s = .ok n ↔
      n ≠ 0 ∧ ((IsNumber (trim s.toList) n ∧ n ≤ u64Max) ∨
        ∃ components, components ≠ [] ∧ trim s.toList = textOf components ∧
          (∀ c ∈ components, c.secs ≤ u64Max) ∧ n = min (total components) u64Max) := by
  have hloop : parseUnits (trim s.toList) 0 [] false (trim s.toList) = .ok n ↔
      ∃ components, trim s.toList = textOf components ∧ (∀ c ∈ components, c.secs ≤ u64Max) ∧
        components ≠ [] ∧ n = min (total components) u64Max ∧ n ≠ 0 := by
    rw [parseUnits_eq_ok_iff (List.forall_mem_nil _) (Nat.zero_le u64Max)]
    simp only [List.nil_append, Bool.false_eq_true, false_or, Nat.zero_add]
  unfold parseDuration
  dsimp only
  split
  · next hempty =>
    have hnil : trim s.toList = [] := List.isEmpty_iff.mp hempty
    rw [hnil]
    simp only [reduceCtorEq, false_iff]
    rintro ⟨-, ⟨⟨digits, hne, -, htext | htext, -⟩, -⟩ | ⟨components, hne, htext, -⟩⟩
    · exact hne htext.symm
    · cases htext
    · exact textOf_ne_nil hne htext.symm
  · split
    · next m hm =>
      obtain ⟨hnumber, hle⟩ := parseU64_eq_some_iff.mp hm
      constructor
      · intro h
        split at h
        · cases h
        · next hzero =>
          obtain rfl := Except.ok.inj h
          exact ⟨hzero, .inl ⟨hnumber, hle⟩⟩
      · rintro ⟨hzero, ⟨hnumber', -⟩ | ⟨components, hne, htext, -⟩⟩
        · obtain rfl := isNumber_unique hnumber hnumber'
          rw [if_neg hzero]
        · rw [htext] at hnumber
          exact absurd hnumber (not_isNumber_textOf hne m)
    · next hnone =>
      rw [hloop]
      constructor
      · rintro ⟨components, htext, hall, hne, hn, hzero⟩
        exact ⟨hzero, .inr ⟨components, hne, htext, hall, hn⟩⟩
      · rintro ⟨hzero, hnumber | ⟨components, hne, htext, hall, hn⟩⟩
        · rw [parseU64_eq_some_iff.mpr hnumber] at hnone
          cases hnone
        · exact ⟨components, htext, hall, hne, hn, hzero⟩

/-! ## Writing -/

def Component.ofNat (n : Nat) (unit : DurationUnit) : Component where
  digits := Nat.toDigits 10 n
  unit := unit
  nonempty := Nat.toDigits_ne_nil
  decimal := fun _ hc => Nat.isDigit_of_mem_toDigits (by decide) (by decide) hc

theorem secs_ofNat (n : Nat) (unit : DurationUnit) :
    (Component.ofNat n unit).secs = n * unit.secs := by
  rw [Component.secs]
  simp [Component.ofNat]

def displayed (secs : Nat) : List Component :=
  (if secs / 3600 > 0 then [.ofNat (secs / 3600) .hours] else []) ++
    (if secs % 3600 / 60 > 0 then [.ofNat (secs % 3600 / 60) .minutes] else []) ++
    (if secs % 60 > 0 then [.ofNat (secs % 60) .seconds] else [])

theorem textOf_append (components components' : List Component) :
    textOf (components ++ components') = textOf components ++ textOf components' :=
  List.flatMap_append

theorem total_append (components components' : List Component) :
    total (components ++ components') = total components + total components' := by
  rw [total, List.map_append, List.sum_append]
  rfl

theorem textOf_ofNat (n : Nat) (unit : DurationUnit) (suffix : String)
    (hsuffix : suffix.toList = [unit.char]) :
    textOf (if n > 0 then [.ofNat n unit] else []) =
      (if n > 0 then toString n ++ suffix else "").toList := by
  split
  · rw [String.toList_append, hsuffix, Nat.toString_eq_repr, Nat.toList_repr, textOf_cons]
    rfl
  · rfl

theorem total_ofNat (n : Nat) (unit : DurationUnit) :
    total (if n > 0 then [.ofNat n unit] else []) = n * unit.secs := by
  split
  · rw [total_cons, secs_ofNat]
    rfl
  · next hzero =>
    rw [Nat.eq_zero_of_not_pos hzero, Nat.zero_mul]
    rfl

theorem display_toList {secs : Nat} (h : 0 < secs) :
    (display secs).toList = textOf (displayed secs) := by
  have hlast : (secs % 60 > 0 ∨ secs / 3600 = 0 ∧ secs % 3600 / 60 = 0) ↔ secs % 60 > 0 := by
    omega
  rw [display, if_neg (by omega), displayed, textOf_append, textOf_append,
    textOf_ofNat _ .hours "h" rfl, textOf_ofNat _ .minutes "m" rfl,
    textOf_ofNat _ .seconds "s" rfl]
  simp only [hlast, String.toList_append]

theorem total_displayed (secs : Nat) : total (displayed secs) = secs := by
  rw [displayed, total_append, total_append, total_ofNat, total_ofNat, total_ofNat]
  simp only [DurationUnit.secs]
  omega

theorem isDigit_not_whiteSpace {c : Char} (h : c.isDigit = true) : isWhiteSpace c = false := by
  have hrange : 48 ≤ c.toNat ∧ c.toNat ≤ 57 := by
    rw [Char.isDigit, Bool.and_eq_true, decide_eq_true_eq, decide_eq_true_eq] at h
    exact ⟨UInt32.le_iff_toNat_le.mp h.1, UInt32.le_iff_toNat_le.mp h.2⟩
  simp [isWhiteSpace]
  omega

theorem unit_not_whiteSpace (unit : DurationUnit) : isWhiteSpace unit.char = false := by
  cases unit <;> decide

theorem textOf_getLast {c : Char} (h : (textOf components).getLast? = some c) :
    ∃ unit : DurationUnit, c = unit.char := by
  obtain rfl | ⟨front, last, rfl⟩ := List.eq_nil_or_concat components
  · cases h
  · rw [List.concat_eq_append, textOf_append, textOf_cons] at h
    refine ⟨last.unit, ?_⟩
    have hlast : textOf front ++ (last.digits ++ last.unit.char :: textOf []) =
        (textOf front ++ last.digits) ++ [last.unit.char] := by
      rw [List.append_assoc]
      rfl
    rw [hlast, List.getLast?_concat] at h
    exact (Option.some.inj h).symm

theorem trim_textOf (components : List Component) :
    trim (textOf components) = textOf components := by
  refine trimBy_eq_self (fun c hc => ?_) fun c hc => ?_
  · obtain ⟨rest, hrest⟩ := List.head?_eq_some_iff.mp hc
    exact isDigit_not_whiteSpace (textOf_head hrest)
  · obtain ⟨unit, rfl⟩ := textOf_getLast hc
    exact unit_not_whiteSpace unit

theorem secs_le_total {c : Component} (h : c ∈ components) : c.secs ≤ total components := by
  induction components with
  | nil => cases h
  | cons first components ih =>
    rw [total_cons]
    obtain rfl | h := List.mem_cons.mp h
    · exact Nat.le_add_right _ _
    · exact Nat.le_trans (ih h) (Nat.le_add_left _ _)

theorem parse_display {secs : Nat} (hpos : 0 < secs) (hfits : secs ≤ u64Max) :
    parseDuration (display secs) = .ok secs := by
  have htotal := total_displayed secs
  refine parseDuration_eq_ok_iff.mpr ⟨Nat.pos_iff_ne_zero.mp hpos, .inr ⟨displayed secs, ?_, ?_,
    fun c hc => ?_, ?_⟩⟩
  · intro hnil
    rw [hnil] at htotal
    exact Nat.ne_of_gt hpos htotal.symm
  · rw [display_toList hpos, trim_textOf]
  · exact Nat.le_trans (secs_le_total hc) (Nat.le_trans (Nat.le_of_eq htotal) hfits)
  · rw [htotal, Nat.min_eq_left hfits]

/-! ## When the sum is exact -/

def Exact (s : String) : Prop :=
  (∀ n, parseDuration s = .ok n → Denotes (trim s.toList) n) ∧
    ∀ v, Denotes (trim s.toList) v → u64Max < v → ∃ e, parseDuration s = .error e

def SumFits (s : String) : Prop :=
  ∀ components, trim s.toList = textOf components → (∀ c ∈ components, c.secs ≤ u64Max) →
    total components ≤ u64Max

theorem Exact.sumFits {s : String} (h : Exact s) : SumFits s := by
  intro components htext hall
  by_contra hlarge
  have hne : components ≠ [] := by
    rintro rfl
    exact hlarge (Nat.zero_le u64Max)
  have hmax : min (total components) u64Max = u64Max := Nat.min_eq_right (by omega)
  have haccepts : parseDuration s = .ok u64Max :=
    parseDuration_eq_ok_iff.mpr ⟨by decide, .inr ⟨components, hne, htext, hall, hmax.symm⟩⟩
  obtain ⟨e, hrefuses⟩ := h.2 (total components) (.inr ⟨components, hne, htext, rfl⟩) (by omega)
  rw [haccepts] at hrefuses
  cases hrefuses

theorem SumFits.exact {s : String} (h : SumFits s) : Exact s := by
  have haccepted : ∀ n, parseDuration s = .ok n → Denotes (trim s.toList) n ∧ n ≤ u64Max := by
    intro n hn
    obtain ⟨-, ⟨hnumber, hle⟩ | ⟨components, hne, htext, hall, rfl⟩⟩ :=
      parseDuration_eq_ok_iff.mp hn
    · exact ⟨.inl hnumber, hle⟩
    · have hfits := h components htext hall
      rw [Nat.min_eq_left hfits]
      exact ⟨.inr ⟨components, hne, htext, rfl⟩, hfits⟩
  refine ⟨fun n hn => (haccepted n hn).1, fun v hv hlarge => ?_⟩
  cases hparse : parseDuration s with
  | error e => exact ⟨e, rfl⟩
  | ok n =>
    obtain ⟨hn, hle⟩ := haccepted n hparse
    have hsame := denotes_unique hv hn
    omega

/-- Parsing is exact on the texts whose components do not each fit with a sum that does not, and
every duration that is written is read again. -/
theorem parseDuration_exact_iff (s : String) :
    (Exact s ↔ SumFits s) ∧
      ∀ secs, 0 < secs → secs ≤ u64Max → parseDuration (display secs) = .ok secs :=
  ⟨⟨Exact.sumFits, SumFits.exact⟩, fun _ => parse_display⟩

theorem parseDuration_exact_day :
    (0 < 90061 ∧ 90061 ≤ u64Max) ∧ parseDuration (display 90061) = .ok 90061 :=
  ⟨by decide, (parseDuration_exact_iff "").2 90061 (by decide) (by decide)⟩

/-- The last fitting number of seconds and one second more is accepted as the former. -/
theorem sum_clamped :
    parseDuration "18446744073709551615s1s" = .ok u64Max ∧
      Denotes "18446744073709551615s1s".toList (u64Max + 1) ∧
      ¬Exact "18446744073709551615s1s" := by
  have hone : Denotes "18446744073709551615s1s".toList (u64Max + 1) :=
    .inr ⟨[.ofNat u64Max .seconds, .ofNat 1 .seconds], by simp, by decide, by
      rw [total_cons, total_cons, secs_ofNat, secs_ofNat]
      rfl⟩
  have hclamped : parseDuration "18446744073709551615s1s" = .ok u64Max := by decide
  refine ⟨hclamped, hone, fun hexact => ?_⟩
  obtain ⟨e, hrefuses⟩ := hexact.2 (u64Max + 1) hone (Nat.lt_succ_self _)
  rw [hclamped] at hrefuses
  cases hrefuses

end Stroem.Duration
