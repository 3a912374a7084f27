import Mathlib.Algebra.GroupWithZero.Nat
import Mathlib.Data.List.DropRight
import Stroem.Foundation.Text

/-!
# Labels

Texts of a bounded length over one alphabet that start and end in another, how trimming and cutting
make them, and numbers written in a fixed count of hexadecimal digits.
-/

namespace Stroem.Foundation

variable {α : Type*}

/-! ## Trimming at the end -/

variable {p : α → Bool} {text : List α}

theorem mem_rdropWhile_or {c : α} (h : c ∈ text) : c ∈ text.rdropWhile p ∨ p c = true := by
  rw [← @List.rdropWhile_append_rtakeWhile _ p text] at h
  obtain hmem | hmem := List.mem_append.mp h
  · exact .inl hmem
  · exact .inr (List.mem_rtakeWhile_imp hmem)

theorem mem_of_mem_rdropWhile {c : α} (h : c ∈ text.rdropWhile p) : c ∈ text :=
  (List.rdropWhile_prefix p text).subset h

theorem getLast?_rdropWhile {c : α} (h : (text.rdropWhile p).getLast? = some c) :
    p c = false := by
  have hne : text.rdropWhile p ≠ [] := by
    intro hnil
    rw [hnil] at h
    cases h
  rw [List.getLast?_eq_some_getLast hne] at h
  rw [← Option.some.inj h]
  exact Bool.eq_false_iff.mpr (List.rdropWhile_last_not p text hne)

theorem rdropWhile_eq_self (h : ∀ c, text.getLast? = some c → p c = false) :
    text.rdropWhile p = text :=
  List.rdropWhile_eq_self_iff.mpr fun hne =>
    Bool.eq_false_iff.mp (h _ (List.getLast?_eq_some_getLast hne))

theorem head?_rdropWhile {c : α} (h : (text.rdropWhile p).head? = some c) :
    text.head? = some c := by
  obtain ⟨rest, hrest⟩ := List.rdropWhile_prefix p text
  rw [← hrest, List.head?_append, h]
  rfl

theorem head?_rdropWhile_eq {c : α} (h : text.head? = some c) (hc : p c = false) :
    (text.rdropWhile p).head? = some c := by
  cases text with
  | nil => cases h
  | cons first text =>
    obtain rfl := Option.some.inj h
    obtain ⟨rest, hrest⟩ := List.rdropWhile_prefix p (first :: text)
    cases hkept : (first :: text).rdropWhile p with
    | nil =>
      have hall := List.rdropWhile_eq_nil_iff.mp hkept first List.mem_cons_self
      rw [hc] at hall
      cases hall
    | cons second kept =>
      rw [hkept] at hrest
      rw [(List.cons.inj hrest).1]
      rfl

/-! ## Bounded texts -/

structure Bounded (inner outer : α → Bool) (max : Nat) (text : List α) : Prop where
  length_le : text.length ≤ max
  inner : ∀ c ∈ text, inner c = true
  head : ∀ c, text.head? = some c → outer c = true
  last : ∀ c, text.getLast? = some c → outer c = true

variable {inner outer : α → Bool} {max : Nat}

theorem bounded_of_all (hlength : text.length ≤ max) (hinner : text.all inner = true)
    (hhead : text.head?.all outer = true) (hlast : text.getLast?.all outer = true) :
    Bounded inner outer max text :=
  ⟨hlength, List.all_eq_true.mp hinner, (Option.all_eq_true _ _).mp hhead,
    (Option.all_eq_true _ _).mp hlast⟩

theorem head?_dropWhile {c : α} (h : (text.dropWhile p).head? = some c) : p c = false := by
  have hnot := List.head?_dropWhile_not p text
  rw [h] at hnot
  exact hnot

theorem bounded_trim_take (inner outer : α → Bool) (max : Nat) (h : ∀ c ∈ text, inner c = true) :
    Bounded inner outer max
      (((text.dropWhile fun c => !outer c).take max).rdropWhile fun c => !outer c) := by
  refine ⟨?_, fun c hc => ?_, fun c hc => ?_, fun c hc => ?_⟩
  · exact (List.rdropWhile_prefix _ _).length_le.trans (List.length_take_le _ _)
  · exact h c ((List.dropWhile_suffix _).subset (List.mem_of_mem_take (mem_of_mem_rdropWhile hc)))
  · have htake := head?_rdropWhile hc
    have hdrop : (text.dropWhile fun c => !outer c).head? = some c := by
      rw [List.head?_take] at htake
      split at htake
      · cases htake
      · exact htake
    exact Bool.not_eq_eq_eq_not.mp (head?_dropWhile (p := fun c => !outer c) hdrop)
  · exact Bool.not_eq_eq_eq_not.mp (getLast?_rdropWhile (p := fun c => !outer c) hc)

theorem Bounded.trim_take (h : Bounded inner outer max text) :
    ((text.dropWhile fun c => !outer c).take max).rdropWhile (fun c => !outer c) = text := by
  have hhead : text.dropWhile (fun c => !outer c) = text :=
    dropWhile_eq_self fun c hc => Bool.not_eq_eq_eq_not.mpr (h.head c hc)
  rw [hhead, List.take_of_length_le h.length_le]
  exact rdropWhile_eq_self fun c hc => Bool.not_eq_eq_eq_not.mpr (h.last c hc)

/-! ## Hexadecimal digits -/

def hexDigits : Nat → Nat → List Char
  | 0, _ => []
  | width + 1, n => hexDigits width (n / 16) ++ [(n % 16).digitChar]

theorem length_hexDigits (width n : Nat) : (hexDigits width n).length = width := by
  induction width generalizing n with
  | zero => rfl
  | succ width ih => rw [hexDigits, List.length_append, ih, List.length_singleton]

theorem mem_hexDigits {width n : Nat} {c : Char} (h : c ∈ hexDigits width n) :
    ∃ digit < 16, c = digit.digitChar := by
  induction width generalizing n with
  | zero => exact absurd h List.not_mem_nil
  | succ width ih =>
    rw [hexDigits, List.mem_append, List.mem_singleton] at h
    obtain h | h := h
    · exact ih h
    · exact ⟨n % 16, Nat.mod_lt _ (by decide), h⟩

theorem digitChar_inj {m n : Nat} (hm : m < 16) (hn : n < 16)
    (h : m.digitChar = n.digitChar) : m = n := by
  have hall : ∀ m < 16, ∀ n < 16, m.digitChar = n.digitChar → m = n := by decide
  exact hall m hm n hn h

theorem hexDigits_inj {width m n : Nat} (hm : m < 16 ^ width) (hn : n < 16 ^ width)
    (h : hexDigits width m = hexDigits width n) : m = n := by
  induction width generalizing m n with
  | zero =>
    rw [Nat.pow_zero] at hm hn
    omega
  | succ width ih =>
    rw [hexDigits, hexDigits] at h
    obtain ⟨hhigh, hlow⟩ := List.append_inj' h rfl
    rw [Nat.pow_succ] at hm hn
    have hdiv := ih (Nat.div_lt_of_lt_mul (by omega)) (Nat.div_lt_of_lt_mul (by omega)) hhigh
    have hmod := digitChar_inj (Nat.mod_lt _ (by decide)) (Nat.mod_lt _ (by decide))
      (List.cons.inj hlow).1
    rw [← Nat.div_add_mod m 16, ← Nat.div_add_mod n 16, hdiv, hmod]

end Stroem.Foundation
