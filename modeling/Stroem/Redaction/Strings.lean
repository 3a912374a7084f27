import Mathlib.Tactic.IntervalCases
import Stroem.Foundation.Spans
import Stroem.Json

/-!
# Redacting strings

A secret is searched for as it is, as `serde_json` escapes it and as Rust's `{:?}` escapes it.
Positions are counted in characters; the source counts bytes, and all its positions are boundaries
of characters.

`plain` stands for the tables of the standard library that decide which characters `{:?}` prints
as they are.
-/

namespace Stroem.Redaction

open Foundation

variable {plain : Char → Bool} {secret form text : List Char} {secrets : List String}

def redacted : List Char := ['•', '•', '•', '•', '•', '•']

/-! ## Escaped forms -/

def jsonEscapeChar (c : Char) : List Char :=
  match c with
  | '"' => ['\\', '"']
  | '\\' => ['\\', '\\']
  | '\x08' => ['\\', 'b']
  | '\t' => ['\\', 't']
  | '\n' => ['\\', 'n']
  | '\x0c' => ['\\', 'f']
  | '\r' => ['\\', 'r']
  | c =>
    if c.toNat < 32 then
      ['\\', 'u', '0', '0', (c.toNat / 16).digitChar, (c.toNat % 16).digitChar]
    else [c]

def debugEscapeChar (plain : Char → Bool) (c : Char) : List Char :=
  match c with
  | '\x00' => ['\\', '0']
  | '\t' => ['\\', 't']
  | '\r' => ['\\', 'r']
  | '\n' => ['\\', 'n']
  | '"' => ['\\', '"']
  | '\\' => ['\\', '\\']
  | c =>
    if plain c then [c]
    else ['\\', 'u', '\x7b'] ++ Nat.toDigits 16 c.toNat ++ ['\x7d']

def jsonEscaped (secret : List Char) : List Char := secret.flatMap jsonEscapeChar

def debugEscaped (plain : Char → Bool) (secret : List Char) : List Char :=
  secret.flatMap (debugEscapeChar plain)

def searchedForms (plain : Char → Bool) (secret : List Char) : List (List Char) :=
  if secret.isEmpty then []
  else
    let json := jsonEscaped secret
    let debug := debugEscaped plain secret
    [secret] ++ (if json ≠ secret ∧ json ≠ [] then [json] else []) ++
      (if debug ≠ secret ∧ debug ≠ json ∧ debug ≠ [] then [debug] else [])

/-! ## One string -/

def secretSpans (plain : Char → Bool) (text : List Char) (secrets : List String) :
    List (Nat × Nat) :=
  secrets.flatMap fun secret =>
    (searchedForms plain secret.toList).flatMap fun form => occurrences form 0 text

def redactSecretsInStr (plain : Char → Bool) (s : String) (secrets : List String) : String :=
  let spans := secretSpans plain s.toList secrets
  if spans.isEmpty then s
  else String.ofList (maskSpans redacted s.toList 0 (mergeSpans spans))

def redactStr (plain : Char → Bool) (secrets : List String) (s : String) : String :=
  if ['r', 'e', 'f', '+'].isPrefixOf s.toList then String.ofList redacted
  else redactSecretsInStr plain s secrets

/-! ## JSON trees -/

mutual

def mapStrings (f : String → String) : Json → Json
  | .str s => .str (f s)
  | .obj fields => .obj (mapStringsFields f fields)
  | .arr items => .arr (mapStringsList f items)
  | .null => .null
  | .bool b => .bool b
  | .num n => .num n

def mapStringsList (f : String → String) : List Json → List Json
  | [] => []
  | v :: items => mapStrings f v :: mapStringsList f items

def mapStringsFields (f : String → String) : List (String × Json) → List (String × Json)
  | [] => []
  | (key, v) :: fields => (key, mapStrings f v) :: mapStringsFields f fields

end

def redactValueTree (plain : Char → Bool) (secrets : List String) (value : Json) : Json :=
  mapStrings (redactStr plain secrets) value

def maskValueTree (value : Json) : Json := mapStrings (fun _ => String.ofList redacted) value

/-! ## What a string keeps and what it loses -/

def Contains (s part : String) : Prop := part.toList <:+: s.toList

instance (s part : String) : Decidable (Contains s part) :=
  inferInstanceAs (Decidable (_ <:+: _))

def Maskable (secret : String) : Prop := secret ≠ "" ∧ '•' ∉ secret.toList

instance (secret : String) : Decidable (Maskable secret) := inferInstanceAs (Decidable (_ ∧ _))

def Clean (plain : Char → Bool) (secrets : List String) (s : String) : Prop :=
  ¬ ['r', 'e', 'f', '+'] <+: s.toList ∧ ∀ secret ∈ secrets, secret ≠ "" →
    ¬ secret.toList <:+: s.toList ∧ ¬ jsonEscaped secret.toList <:+: s.toList ∧
      ¬ debugEscaped plain secret.toList <:+: s.toList

theorem mem_searchedForms
    (h : form ∈ searchedForms plain secret) :
    secret ≠ [] ∧
      (form = secret ∨ form = jsonEscaped secret ∨ form = debugEscaped plain secret) := by
  unfold searchedForms at h
  split at h
  · cases h
  · next hempty =>
    refine ⟨by simpa using hempty, ?_⟩
    simp only [List.mem_append, List.mem_singleton, List.mem_ite_nil_right] at h
    obtain (hraw | ⟨-, hjson⟩) | ⟨-, hdebug⟩ := h
    · exact .inl hraw
    · exact .inr (.inl hjson)
    · exact .inr (.inr hdebug)

theorem self_mem_searchedForms (plain : Char → Bool) (h : secret ≠ []) :
    secret ∈ searchedForms plain secret := by
  unfold searchedForms
  rw [if_neg (by simpa using h)]
  simp

theorem secretSpans_valid
    {span : Nat × Nat} (h : span ∈ secretSpans plain text secrets) : span.1 ≤ span.2 := by
  obtain ⟨secret, -, h⟩ := List.mem_flatMap.mp h
  obtain ⟨form, -, h⟩ := List.mem_flatMap.mp h
  obtain ⟨-, -, -, hend⟩ := mem_occurrences.mp h
  omega

theorem secretSpans_of_clean {s : String}
    (h : Clean plain secrets s) : secretSpans plain s.toList secrets = [] := by
  refine List.flatMap_eq_nil_iff.mpr fun secret hsecret => ?_
  refine List.flatMap_eq_nil_iff.mpr fun form hform => occurrences_eq_nil ?_ 0
  obtain ⟨hne, hcases⟩ := mem_searchedForms hform
  have hne' : secret ≠ "" := by
    rintro rfl
    exact hne rfl
  obtain ⟨hraw, hjson, hdebug⟩ := h.2 secret hsecret hne'
  obtain rfl | rfl | rfl := hcases
  · exact hraw
  · exact hjson
  · exact hdebug

theorem redactStr_of_clean {s : String}
    (h : Clean plain secrets s) : redactStr plain secrets s = s := by
  unfold redactStr redactSecretsInStr
  rw [if_neg (fun hprefix => h.1 (List.isPrefixOf_iff_prefix.mp hprefix)), secretSpans_of_clean h]
  rfl

theorem mask_not_mem {secret : String} (h : Maskable secret) :
    ∀ x ∈ redacted, x ∉ secret.toList := by
  intro x hx
  have hbullet : x = '•' := by simpa [redacted] using hx
  rw [hbullet]
  exact h.2

theorem toList_ne_nil {secret : String} (h : Maskable secret) : secret.toList ≠ [] := by
  intro hnil
  exact h.1 (String.toList_eq_nil_iff.mp hnil)

theorem not_infix_redacted {s : String} {form : List Char} (hne : form ≠ [])
    (hmask : ∀ x ∈ redacted, x ∉ form)
    (hspan : ∀ position, position ≤ s.toList.length → OccursAt form s.toList position →
      (position, position + form.length) ∈ secretSpans plain s.toList secrets) :
    ¬form <:+: (redactSecretsInStr plain s secrets).toList := by
  have hspan : ∀ position, OccursAt form s.toList position →
      (position, position + form.length) ∈ secretSpans plain s.toList secrets := by
    intro position hoccurs
    have hlen := hoccurs.length_le
    have hpos := List.length_pos_iff.mpr hne
    rw [List.length_drop] at hlen
    exact hspan position (by omega) hoccurs
  unfold redactSecretsInStr
  dsimp only
  split
  · next hnone =>
    intro hinfix
    obtain ⟨position, -, hoccurs⟩ := infix_iff_occursAt.mp hinfix
    have hmem := hspan position hoccurs
    rw [List.isEmpty_iff.mp hnone] at hmem
    cases hmem
  · rw [String.toList_ofList]
    refine not_infix_maskSpans (by decide) hmask hne
      (mergeSpans_separated fun span hmem => secretSpans_valid hmem) ?_
    intro position _ hoccurs
    exact mergeSpans_covers (hspan position hoccurs)

theorem redactSecretsInStr_hides (plain : Char → Bool) (s : String)
    {secret : String} (hsecret : secret ∈ secrets) (hmaskable : Maskable secret) :
    ¬ Contains (redactSecretsInStr plain s secrets) secret := by
  have hne := toList_ne_nil hmaskable
  refine not_infix_redacted hne (mask_not_mem hmaskable) fun position hle hoccurs => ?_
  exact List.mem_flatMap.mpr ⟨secret, hsecret, List.mem_flatMap.mpr
    ⟨secret.toList, self_mem_searchedForms plain hne,
      mem_occurrences.mpr ⟨Nat.zero_le _, by omega, by simpa using hoccurs, rfl⟩⟩⟩

theorem redactStr_hides (plain : Char → Bool) (s : String)
    {secret : String} (hsecret : secret ∈ secrets) (hmaskable : Maskable secret) :
    ¬ Contains (redactStr plain secrets s) secret := by
  unfold redactStr
  split
  · intro hinfix
    rw [Contains, String.toList_ofList] at hinfix
    obtain ⟨x, hx⟩ := List.exists_mem_of_ne_nil _ (toList_ne_nil hmaskable)
    exact mask_not_mem hmaskable x (List.IsInfix.subset hinfix hx) hx
  · exact redactSecretsInStr_hides plain s hsecret hmaskable

end Stroem.Redaction

/-!
# Masking one text

Every character of a text either belongs to an occurrence of a searched form of a secret or it
does not.  `redactSecretsInStr` puts one mask for every longest run of the former and keeps the
latter in their order.  What it returns has no searched form of a secret in it, so it does not
change when it is redacted again.
-/

namespace Stroem.Redaction

open Foundation

def Matched (plain : Char → Bool) (text : List Char) (secrets : List String) (i : Nat) : Prop :=
  ∃ secret ∈ secrets, ∃ form ∈ searchedForms plain secret.toList, ∃ b ≤ i,
    OccursAt form text b ∧ i < b + form.length

instance (word text : List Char) (position : Nat) : Decidable (OccursAt word text position) :=
  inferInstanceAs (Decidable (_ <+: _))

instance (plain : Char → Bool) (text : List Char) (secrets : List String) :
    DecidablePred (Matched plain text secrets) := fun i =>
  inferInstanceAs (Decidable (∃ secret ∈ secrets, ∃ form ∈ searchedForms plain secret.toList,
    ∃ b ≤ i, OccursAt form text b ∧ i < b + form.length))

/-! ## The searched forms -/

theorem jsonEscapeChar_ne_nil (c : Char) : jsonEscapeChar c ≠ [] := by
  unfold jsonEscapeChar
  split
  case h_8 =>
    split
    · exact List.cons_ne_nil _ _
    · exact List.cons_ne_nil _ _
  all_goals exact List.cons_ne_nil _ _

theorem debugEscapeChar_ne_nil (plain : Char → Bool) (c : Char) :
    debugEscapeChar plain c ≠ [] := by
  unfold debugEscapeChar
  split
  case h_7 =>
    split
    · exact List.cons_ne_nil _ _
    · exact List.cons_ne_nil _ _
  all_goals exact List.cons_ne_nil _ _

theorem flatMap_ne_nil {f : Char → List Char} (hf : ∀ c, f c ≠ [])
    (h : secret ≠ []) : secret.flatMap f ≠ [] := by
  cases secret with
  | nil => exact absurd rfl h
  | cons c secret =>
    rw [List.flatMap_cons]
    exact fun hnil => hf c (List.append_eq_nil_iff.mp hnil).1

theorem searchedForms_ne_nil
    (h : form ∈ searchedForms plain secret) : form ≠ [] := by
  obtain ⟨hne, hform⟩ := mem_searchedForms h
  obtain rfl | rfl | rfl := hform
  · exact hne
  · exact flatMap_ne_nil jsonEscapeChar_ne_nil hne
  · exact flatMap_ne_nil (debugEscapeChar_ne_nil plain) hne

theorem mem_searchedForms_iff (hne : secret ≠ []) :
    form ∈ searchedForms plain secret ↔
      form = secret ∨ form = jsonEscaped secret ∨ form = debugEscaped plain secret := by
  constructor
  · exact fun h => (mem_searchedForms h).2
  have hjson : jsonEscaped secret ≠ [] := flatMap_ne_nil jsonEscapeChar_ne_nil hne
  have hdebug : debugEscaped plain secret ≠ [] := flatMap_ne_nil (debugEscapeChar_ne_nil plain) hne
  unfold searchedForms
  rw [if_neg (by simpa using hne)]
  simp only [List.mem_append, List.mem_singleton, List.mem_ite_nil_right]
  rintro (hform | hform | hform)
  · exact .inl (.inl hform)
  · by_cases hsame : jsonEscaped secret = secret
    · exact .inl (.inl (hform.trans hsame))
    · exact .inl (.inr ⟨⟨hsame, hjson⟩, hform⟩)
  · by_cases hsame : debugEscaped plain secret = secret
    · exact .inl (.inl (hform.trans hsame))
    · by_cases hsame' : debugEscaped plain secret = jsonEscaped secret
      · refine .inl (.inr ⟨⟨?_, hjson⟩, hform.trans hsame'⟩)
        exact fun heq => hsame (hsame'.trans heq)
      · exact .inr ⟨⟨hsame, hsame', hdebug⟩, hform⟩

theorem digitChar_ne_bullet (n : Nat) : n.digitChar ≠ '•' := by
  by_cases hn : n < 16
  · interval_cases n <;> decide
  · have hstar : n.digitChar = '*' := by
      simp
      omega
    rw [hstar]
    decide

theorem bullet_not_mem_toDigits (n : Nat) : '•' ∉ Nat.toDigits 16 n := by
  induction n using Nat.strongRecOn with
  | ind n ih =>
    by_cases hn : n < 16
    · rw [Nat.toDigits_of_lt_base hn, List.mem_singleton]
      exact (digitChar_ne_bullet n).symm
    · rw [Nat.toDigits_of_base_le (by decide) (Nat.le_of_not_lt hn), List.mem_append,
        List.mem_singleton]
      rintro (hhigh | hlow)
      · exact ih (n / 16) (by omega) hhigh
      · exact digitChar_ne_bullet _ hlow.symm

theorem bullet_not_mem_jsonEscapeChar {c : Char} (hc : c ≠ '•') : '•' ∉ jsonEscapeChar c := by
  unfold jsonEscapeChar
  split
  case h_8 =>
    split
    · simp [(digitChar_ne_bullet _).symm]
    · simpa using hc.symm
  all_goals decide

theorem bullet_not_mem_debugEscapeChar (plain : Char → Bool) {c : Char} (hc : c ≠ '•') :
    '•' ∉ debugEscapeChar plain c := by
  unfold debugEscapeChar
  split
  case h_7 =>
    split
    · simpa using hc.symm
    · simp [bullet_not_mem_toDigits]
  all_goals decide

theorem bullet_not_mem_searchedForms {secret : String}
    (h : Maskable secret) (hform : form ∈ searchedForms plain secret.toList) :
    ∀ x ∈ redacted, x ∉ form := by
  intro x hx
  have hbullet : x = '•' := by simpa [redacted] using hx
  have hchars : ∀ c ∈ secret.toList, c ≠ '•' := fun c hc heq => h.2 (heq ▸ hc)
  rw [hbullet]
  obtain ⟨-, rfl | rfl | rfl⟩ := mem_searchedForms hform
  · exact h.2
  · intro hmem
    obtain ⟨c, hc, hmem⟩ := List.mem_flatMap.mp hmem
    exact bullet_not_mem_jsonEscapeChar (hchars c hc) hmem
  · intro hmem
    obtain ⟨c, hc, hmem⟩ := List.mem_flatMap.mp hmem
    exact bullet_not_mem_debugEscapeChar plain (hchars c hc) hmem

/-! ## The spans -/

theorem mem_secretSpans
    {b e : Nat} :
    (b, e) ∈ secretSpans plain text secrets ↔
      ∃ secret ∈ secrets, ∃ form ∈ searchedForms plain secret.toList,
        b ≤ text.length ∧ OccursAt form text b ∧ e = b + form.length := by
  simp only [secretSpans, List.mem_flatMap, mem_occurrences, Nat.zero_le, Nat.zero_add,
    Nat.sub_zero, true_and]

theorem secretSpans_bounds
    {span : Nat × Nat} (h : span ∈ secretSpans plain text secrets) :
    span.1 < span.2 ∧ span.2 ≤ text.length := by
  obtain ⟨b, e⟩ := span
  obtain ⟨secret, -, form, hform, hle, hoccurs, rfl⟩ := mem_secretSpans.mp h
  have hpos := List.length_pos_iff.mpr (searchedForms_ne_nil hform)
  have hlen := hoccurs.length_le
  rw [List.length_drop] at hlen
  dsimp only
  omega

theorem covered_secretSpans_iff
    {i : Nat} : Covered (secretSpans plain text secrets) i ↔ Matched plain text secrets i := by
  constructor
  · rintro ⟨⟨b, e⟩, hspan, hbegin, hend⟩
    obtain ⟨secret, hsecret, form, hform, -, hoccurs, rfl⟩ := mem_secretSpans.mp hspan
    exact ⟨secret, hsecret, form, hform, b, hbegin, hoccurs, hend⟩
  · rintro ⟨secret, hsecret, form, hform, b, hbegin, hoccurs, hend⟩
    have hpos := List.length_pos_iff.mpr (searchedForms_ne_nil hform)
    have hlen := hoccurs.length_le
    rw [List.length_drop] at hlen
    have hspan : (b, b + form.length) ∈ secretSpans plain text secrets :=
      mem_secretSpans.mpr ⟨secret, hsecret, form, hform, by omega, hoccurs, rfl⟩
    exact ⟨_, hspan, hbegin, hend⟩

/-! ## The masked text -/

theorem redactSecretsInStr_toList (plain : Char → Bool) (s : String) (secrets : List String) :
    (redactSecretsInStr plain s secrets).toList =
      maskRuns redacted (Matched plain s.toList secrets) 0 false s.toList := by
  have hcongr : ∀ i, 0 ≤ i → (Covered (secretSpans plain s.toList secrets) i ↔
      Matched plain s.toList secrets i) := fun i _ => covered_secretSpans_iff
  unfold redactSecretsInStr
  dsimp only
  split
  · next hnone =>
    refine (maskRuns_of_none (fun i _ _ hmatched => ?_) false).symm
    obtain ⟨span, hspan, -⟩ := covered_secretSpans_iff.mpr hmatched
    rw [List.isEmpty_iff.mp hnone] at hspan
    cases hspan
  · rw [String.toList_ofList, ← maskRuns_congr hcongr]
    exact maskSpans_mergeSpans (fun span hspan => (secretSpans_bounds hspan).1)
      fun span hspan => (secretSpans_bounds hspan).2

theorem form_not_infix_redacted (plain : Char → Bool) (s : String)
    {secret : String} (hsecret : secret ∈ secrets) (hmaskable : Maskable secret)
    (hform : form ∈ searchedForms plain secret.toList) :
    ¬form <:+: (redactSecretsInStr plain s secrets).toList := by
  exact not_infix_redacted (searchedForms_ne_nil hform)
    (bullet_not_mem_searchedForms hmaskable hform) fun _ hle hoccurs =>
      mem_secretSpans.mpr ⟨secret, hsecret, form, hform, hle, hoccurs, rfl⟩

theorem redactSecretsInStr_of_free {s : String}
    (h : ∀ secret ∈ secrets, ∀ form ∈ searchedForms plain secret.toList, ¬form <:+: s.toList) :
    redactSecretsInStr plain s secrets = s := by
  have hnone : secretSpans plain s.toList secrets = [] :=
    List.flatMap_eq_nil_iff.mpr fun secret hsecret =>
      List.flatMap_eq_nil_iff.mpr fun form hform =>
        occurrences_eq_nil (h secret hsecret form hform) 0
  unfold redactSecretsInStr
  rw [hnone]
  rfl

/-- Redaction leaves no form of a secret, keeps everything outside the occurrences in order and
has nothing left to do the second time. -/
theorem redaction_exact (plain : Char → Bool) (s : String) {secrets : List String}
    (hmaskable : ∀ secret ∈ secrets, Maskable secret) :
    (∀ secret ∈ secrets,
      ¬secret.toList <:+: (redactSecretsInStr plain s secrets).toList ∧
      ¬jsonEscaped secret.toList <:+: (redactSecretsInStr plain s secrets).toList ∧
      ¬debugEscaped plain secret.toList <:+: (redactSecretsInStr plain s secrets).toList) ∧
    (redactSecretsInStr plain s secrets).toList =
      maskRuns redacted (Matched plain s.toList secrets) 0 false s.toList ∧
    redactSecretsInStr plain (redactSecretsInStr plain s secrets) secrets =
      redactSecretsInStr plain s secrets := by
  have hfree : ∀ secret ∈ secrets, ∀ form ∈ searchedForms plain secret.toList,
      ¬form <:+: (redactSecretsInStr plain s secrets).toList := fun secret hsecret form hform =>
    form_not_infix_redacted plain s hsecret (hmaskable secret hsecret) hform
  refine ⟨fun secret hsecret => ?_, redactSecretsInStr_toList plain s secrets,
    redactSecretsInStr_of_free hfree⟩
  have hne := toList_ne_nil (hmaskable secret hsecret)
  exact ⟨hfree secret hsecret _ ((mem_searchedForms_iff hne).mpr (.inl rfl)),
    hfree secret hsecret _ ((mem_searchedForms_iff hne).mpr (.inr (.inl rfl))),
    hfree secret hsecret _ ((mem_searchedForms_iff hne).mpr (.inr (.inr rfl)))⟩

theorem redaction_exact_crossing :
    (∀ secret ∈ ["a\x22b", "bcb"], Maskable secret) ∧
    redactSecretsInStr (fun _ => true) "x a\x22bcbcb y a\\\x22b z" ["a\x22b", "bcb"] =
      "x •••••• y •••••• z" ∧
    (∀ secret ∈ ["a\x22b", "bcb"],
      ¬secret.toList <:+: (redactSecretsInStr (fun _ => true) "x a\x22bcbcb y a\\\x22b z"
        ["a\x22b", "bcb"]).toList) := by
  have hmaskable : ∀ secret ∈ ["a\x22b", "bcb"], Maskable secret := by decide
  have hexact := redaction_exact (fun _ => true) "x a\x22bcbcb y a\\\x22b z" hmaskable
  exact ⟨hmaskable, by decide +kernel, fun secret hsecret => (hexact.1 secret hsecret).1⟩

end Stroem.Redaction
