import Mathlib.Data.List.Infix
import Mathlib.Tactic.IntervalCases
import Stroem.Foundation.Text

/-!
# Git references

The syntax of a `ref:` value: a full commit, a branch or a tag in full form, or a bare name.  The
rules for names are those of `git check-ref-format`.

Where the source looks at bytes, the model looks at characters: every byte that a rule is about is
below 128, and such a byte is a character of its own.
-/

namespace Stroem.GitRef

open Foundation

inductive GitRefSpec where
  | commit (sha : String)
  | branch (name : String)
  | tag (name : String)
  | name (name : String)
deriving DecidableEq

inductive GitRefError where
  | empty
  | templated (written : String)
  | invalidName (written : String)
deriving DecidableEq

def GitRefError.text : GitRefError → String
  | .empty => "`ref` must not be empty"
  | .templated r => "`ref` '" ++ r ++ "' is a template; refs are static strings"
  | .invalidName r => "'" ++ r ++ "' is not a valid git branch or tag name"

def heads : List Char := "refs/heads/".toList

def tags : List Char := "refs/tags/".toList

def contains (text part : List Char) : Bool := part <:+: text

def isHexDigit (c : Char) : Bool :=
  c.isDigit || ('a' ≤ c && c ≤ 'f') || ('A' ≤ c && c ≤ 'F')

def isForbidden (c : Char) : Bool :=
  c.toNat < 0x20 || c.toNat == 0x7f || c ∈ [' ', '~', '^', ':', '?', '*', '[', '\\']

def isTemplate (s : List Char) : Bool :=
  contains s ['\x7b', '\x7b'] || contains s ['\x7b', '%']

def isValidRefname (name : List Char) : Bool :=
  if name = [] || name = ['@'] then false
  else if ['/'] <+: name || ['/'] <:+ name || ['.'] <:+ name then false
  else if contains name ['.', '.'] || contains name ['/', '/'] || contains name ['@', '\x7b'] then
    false
  else if name.any isForbidden then false
  else (name.splitOn '/').all fun c => !(['.'] <+: c) && !(".lock".toList <:+ c)

def checked (name written : List Char) : Except GitRefError String :=
  if isValidRefname name then .ok (String.ofList name)
  else .error (.invalidName (String.ofList written))

def parseGitRef (s : String) : Except GitRefError GitRefSpec :=
  let text := s.toList
  if text = [] then .error .empty
  else if isTemplate text then .error (.templated s)
  else if text.length = 40 && text.all isHexDigit then
    .ok (.commit (String.ofList (text.map Char.toLower)))
  else
    match text.dropPrefix? heads with
    | some name => (checked name text).map .branch
    | none =>
      match text.dropPrefix? tags with
      | some name => (checked name text).map .tag
      | none =>
        if "refs/".toList <+: text then .error (.invalidName s)
        else (checked text text).map .name

inductive RefKind where
  | static
  | template
deriving DecidableEq

def classifyRef (s : String) : RefKind := if isTemplate s.toList then .template else .static

inductive RenderedRefRejection where
  | secretValue
  | invalid
deriving DecidableEq

def renderedRefValue (rendered : String) : Option String :=
  let value := trim rendered.toList
  if value = [] then none else some (String.ofList value)

def checkRenderedRef (rendered : String) (secrets : List String) :
    Except RenderedRefRejection String :=
  let value := trim rendered.toList
  if secrets.any fun s => s ≠ "" && contains value s.toList then .error .secretValue
  else
    match parseGitRef (String.ofList value) with
    | .error _ => .error .invalid
    | .ok _ => .ok (String.ofList value)

/-! ## The grammar -/

structure WellFormed (name : List Char) : Prop where
  notAt : name ≠ ['@']
  component : ∀ c ∈ name.splitOn '/', c ≠ [] ∧ ¬['.'] <+: c ∧ ¬".lock".toList <:+ c
  noDots : ¬['.', '.'] <:+: name
  noAtBrace : ¬['@', '\x7b'] <:+: name
  allowed : ∀ c ∈ name, isForbidden c = false
  noTrailingDot : ¬['.'] <:+ name

def IsCommit (text : List Char) : Prop :=
  text.length = 40 ∧ ∀ c ∈ text, isHexDigit c = true

/-- What `ref:` may say, apart from templates. -/
def Grammatical (text : List Char) : Prop :=
  IsCommit text ∨
    (∃ name, text = heads ++ name ∧ WellFormed name) ∨
    (∃ name, text = tags ++ name ∧ WellFormed name) ∨
    (¬"refs/".toList <+: text ∧ WellFormed text)

def GitRefSpec.full : GitRefSpec → String
  | .commit sha => sha
  | .branch n => String.ofList heads ++ n
  | .tag n => String.ofList tags ++ n
  | .name n => n

/-! ## Components -/

theorem splitOn_cons (c : Char) (text : List Char) :
    (c :: text).splitOn '/' =
      if c = '/' then [] :: text.splitOn '/' else (text.splitOn '/').modifyHead (List.cons c) := by
  rw [List.splitOn_eq_splitOnP, List.splitOn_eq_splitOnP, List.splitOnP_cons_eq_if_modifyHead]
  by_cases hc : c = '/' <;> simp [hc]

theorem exists_splitOn (text : List Char) :
    ∃ first rest, text.splitOn '/' = first :: rest := by
  cases hsplit : text.splitOn '/' with
  | nil => exact absurd hsplit (List.splitOn_ne_nil _ _)
  | cons first rest => exact ⟨first, rest, rfl⟩

variable {text : List Char}

theorem head_splitOn_eq_nil_iff {first : List Char} {rest : List (List Char)}
    (h : text.splitOn '/' = first :: rest) : first = [] ↔ text = [] ∨ ['/'] <+: text := by
  cases text with
  | nil =>
    have hnil : ([] : List Char).splitOn '/' = [[]] := rfl
    rw [hnil] at h
    simp [(List.cons.inj h).1]
  | cons c text =>
    rw [splitOn_cons] at h
    obtain ⟨first', rest', hsplit⟩ := exists_splitOn text
    by_cases hc : c = '/'
    · subst hc
      rw [if_pos rfl] at h
      simp [(List.cons.inj h).1.symm]
    · rw [if_neg hc, hsplit] at h
      have hfirst : c :: first' = first := (List.cons.inj h).1
      rw [← hfirst]
      simp [Ne.symm hc]

theorem nil_mem_tail_splitOn_iff {text : List Char} :
    [] ∈ (text.splitOn '/').tail ↔ ['/'] <:+ text ∨ ['/', '/'] <:+: text := by
  induction text with
  | nil =>
    have hnil : ([] : List Char).splitOn '/' = [[]] := rfl
    simp [hnil]
  | cons c text ih =>
    obtain ⟨first, rest, hsplit⟩ := exists_splitOn text
    have hhead := head_splitOn_eq_nil_iff hsplit
    rw [hsplit, List.tail_cons] at ih
    rw [splitOn_cons]
    by_cases hc : c = '/'
    · subst hc
      rw [if_pos rfl, List.tail_cons, hsplit, List.mem_cons, eq_comm, hhead, ih,
        List.suffix_cons_iff, List.infix_cons_iff, List.cons_prefix_cons]
      have hlast : ['/'] = '/' :: text ↔ text = [] := by
        simp [eq_comm]
      rw [hlast]
      simp only [true_and, or_assoc, or_left_comm]
    · rw [if_neg hc, hsplit]
      change [] ∈ rest ↔ _
      rw [ih, List.suffix_cons_iff, List.infix_cons_iff, List.cons_prefix_cons]
      have hlast : ['/'] ≠ c :: text := fun heq => hc (List.cons.inj heq).1.symm
      have hfirst : '/' ≠ c := Ne.symm hc
      simp only [hlast, hfirst, false_or, false_and]

theorem forall_component_ne_nil_iff {text : List Char} :
    (∀ c ∈ text.splitOn '/', c ≠ []) ↔
      text ≠ [] ∧ ¬['/'] <+: text ∧ ¬['/'] <:+ text ∧ ¬['/', '/'] <:+: text := by
  obtain ⟨first, rest, hsplit⟩ := exists_splitOn text
  have hhead := head_splitOn_eq_nil_iff hsplit
  have htail := @nil_mem_tail_splitOn_iff text
  rw [hsplit, List.tail_cons] at htail
  rw [hsplit, List.forall_mem_cons]
  constructor
  · rintro ⟨hfirst, hrest⟩
    obtain ⟨hne, hbegin⟩ := not_or.mp (mt hhead.mpr hfirst)
    obtain ⟨hend, hdouble⟩ := not_or.mp (mt htail.mpr fun hmem => hrest [] hmem rfl)
    exact ⟨hne, hbegin, hend, hdouble⟩
  · rintro ⟨hne, hbegin, hend, hdouble⟩
    refine ⟨fun hfirst => (hhead.mp hfirst).elim hne hbegin, ?_⟩
    rintro c hc rfl
    exact (htail.mp hc).elim hend hdouble

variable {name : List Char}

theorem isValidRefname_iff : isValidRefname name = true ↔ WellFormed name := by
  have hcomponents := @forall_component_ne_nil_iff name
  unfold isValidRefname contains
  constructor
  · intro h
    split at h
    · cases h
    next hempty =>
      split at h
      · cases h
      next hends =>
        split at h
        · cases h
        next hinner =>
          split at h
          · cases h
          next hallowed =>
            simp only [Bool.or_eq_true, decide_eq_true_eq, not_or] at hempty hends hinner
            obtain ⟨hne, hat⟩ := hempty
            obtain ⟨⟨hbegin, hend⟩, hdot⟩ := hends
            obtain ⟨⟨hdots, hslashes⟩, hbrace⟩ := hinner
            have hnames := hcomponents.mpr ⟨hne, hbegin, hend, hslashes⟩
            rw [List.all_eq_true] at h
            refine ⟨hat, fun c hc => ⟨hnames c hc, ?_⟩, hdots, hbrace, ?_, hdot⟩
            · have hcomponent := h c hc
              rw [Bool.and_eq_true, Bool.not_eq_true', Bool.not_eq_true', decide_eq_false_iff_not,
                decide_eq_false_iff_not] at hcomponent
              exact hcomponent
            · intro c hc
              exact Bool.eq_false_iff.mpr fun hforbidden =>
                hallowed (List.any_eq_true.mpr ⟨c, hc, hforbidden⟩)
  · intro h
    obtain ⟨hne, hbegin, hend, hslashes⟩ := hcomponents.mp fun c hc => (h.component c hc).1
    have hallowed : name.any isForbidden = false :=
      Bool.eq_false_iff.mpr fun hany => by
        obtain ⟨c, hc, hforbidden⟩ := List.any_eq_true.mp hany
        rw [h.allowed c hc] at hforbidden
        cases hforbidden
    have hall : (name.splitOn '/').all
        (fun c => !decide (['.'] <+: c) && !decide (".lock".toList <:+ c)) = true := by
      refine List.all_eq_true.mpr fun c hc => ?_
      simpa using (h.component c hc).2
    rw [if_neg (by simp [hne, h.notAt]), if_neg (by simp [hbegin, hend, h.noTrailingDot]),
      if_neg (by simp [h.noDots, hslashes, h.noAtBrace]), hallowed, hall]
    rfl

theorem checked_eq_ok_iff {written : List Char} {n : String} :
    checked name written = .ok n ↔ WellFormed name ∧ n = String.ofList name := by
  unfold checked
  rw [← isValidRefname_iff]
  split
  · next hvalid => simp [hvalid, eq_comm]
  · next hvalid => simp [hvalid]

/-! ## Parsing -/

def Reads (text : List Char) (spec : GitRefSpec) : Prop :=
  (IsCommit text ∧ spec = .commit (String.ofList (text.map Char.toLower))) ∨
    (∃ name, text = heads ++ name ∧ WellFormed name ∧ spec = .branch (String.ofList name)) ∨
    (∃ name, text = tags ++ name ∧ WellFormed name ∧ spec = .tag (String.ofList name)) ∨
    (¬IsCommit text ∧ ¬"refs/".toList <+: text ∧ WellFormed text ∧
      spec = .name (String.ofList text))

theorem isCommit_iff : (text.length = 40 && text.all isHexDigit) = true ↔ IsCommit text := by
  rw [Bool.and_eq_true, decide_eq_true_eq, List.all_eq_true]
  rfl

theorem not_isCommit_of_refs (h : "refs/".toList <+: text) : ¬IsCommit text := by
  obtain ⟨rest, rfl⟩ := h
  intro hcommit
  exact absurd (hcommit.2 'r' (by simp)) (by decide)

theorem refs_prefix_heads (name : List Char) : "refs/".toList <+: heads ++ name :=
  (show "refs/".toList <+: heads by decide).trans (List.prefix_append _ _)

theorem refs_prefix_tags (name : List Char) : "refs/".toList <+: tags ++ name :=
  (show "refs/".toList <+: tags by decide).trans (List.prefix_append _ _)

theorem heads_ne_tags (name name' : List Char) : heads ++ name ≠ tags ++ name' := by
  have hheads : heads = ['r', 'e', 'f', 's', '/', 'h', 'e', 'a', 'd', 's', '/'] := by decide
  have htags : tags = ['r', 'e', 'f', 's', '/', 't', 'a', 'g', 's', '/'] := by decide
  rw [hheads, htags]
  intro h
  simp at h

theorem dropPrefix?_eq_some {before after : List Char} :
    text.dropPrefix? before = some after ↔ text = before ++ after := by
  rw [List.dropPrefix?_eq_some_iff]
  simp

theorem dropPrefix?_eq_none {before : List Char} (h : ∀ after, text ≠ before ++ after) :
    text.dropPrefix? before = none :=
  Option.eq_none_iff_forall_ne_some.mpr fun after hafter => h after (dropPrefix?_eq_some.mp hafter)

theorem WellFormed.ne_nil (h : WellFormed name) : name ≠ [] := by
  rintro rfl
  exact (h.component [] (by decide)).1 rfl

variable {spec : GitRefSpec}

theorem map_eq_ok_iff {written : List Char} {f : String → GitRefSpec} :
    (checked name written).map f = .ok spec ↔ WellFormed name ∧ spec = f (String.ofList name) := by
  cases hchecked : checked name written with
  | ok n =>
    obtain ⟨hwf, rfl⟩ := checked_eq_ok_iff.mp hchecked
    simp [Except.map, hwf, eq_comm]
  | error e =>
    have hnot : ¬WellFormed name := fun hwf => by
      rw [checked_eq_ok_iff.mpr ⟨hwf, rfl⟩] at hchecked
      cases hchecked
    simp [Except.map, hnot]

theorem not_reads_nil (spec : GitRefSpec) : ¬Reads [] spec := by
  rintro (⟨hcommit, -⟩ | ⟨name, htext, -⟩ | ⟨name, htext, -⟩ | ⟨-, -, hwf, -⟩)
  · exact absurd hcommit.1 (by decide)
  · exact absurd (List.append_eq_nil_iff.mp htext.symm).1 (by decide)
  · exact absurd (List.append_eq_nil_iff.mp htext.symm).1 (by decide)
  · exact hwf.ne_nil rfl

theorem reads_commit_iff (hcommit : IsCommit text) :
    Reads text spec ↔ spec = .commit (String.ofList (text.map Char.toLower)) := by
  constructor
  · rintro (⟨-, hspec⟩ | ⟨name, rfl, -⟩ | ⟨name, rfl, -⟩ | ⟨hnot, -⟩)
    · exact hspec
    · exact absurd hcommit (not_isCommit_of_refs (refs_prefix_heads name))
    · exact absurd hcommit (not_isCommit_of_refs (refs_prefix_tags name))
    · exact absurd hcommit hnot
  · exact fun hspec => .inl ⟨hcommit, hspec⟩

theorem reads_heads_iff :
    Reads (heads ++ name) spec ↔ WellFormed name ∧ spec = .branch (String.ofList name) := by
  constructor
  · rintro (⟨hcommit, -⟩ | ⟨name', htext, hread⟩ | ⟨name', htext, -⟩ | ⟨-, hrefs, -⟩)
    · exact absurd hcommit (not_isCommit_of_refs (refs_prefix_heads name))
    · rw [List.append_cancel_left htext]
      exact hread
    · exact absurd htext (heads_ne_tags name name')
    · exact absurd (refs_prefix_heads name) hrefs
  · exact fun hread => .inr (.inl ⟨name, rfl, hread⟩)

theorem reads_tags_iff :
    Reads (tags ++ name) spec ↔ WellFormed name ∧ spec = .tag (String.ofList name) := by
  constructor
  · rintro (⟨hcommit, -⟩ | ⟨name', htext, -⟩ | ⟨name', htext, hread⟩ | ⟨-, hrefs, -⟩)
    · exact absurd hcommit (not_isCommit_of_refs (refs_prefix_tags name))
    · exact absurd htext.symm (heads_ne_tags name' name)
    · rw [List.append_cancel_left htext]
      exact hread
    · exact absurd (refs_prefix_tags name) hrefs
  · exact fun hread => .inr (.inr (.inl ⟨name, rfl, hread⟩))

theorem reads_other_iff (hcommit : ¬IsCommit text) (hheads : ∀ name, text ≠ heads ++ name)
    (htags : ∀ name, text ≠ tags ++ name) :
    Reads text spec ↔
      ¬"refs/".toList <+: text ∧ WellFormed text ∧ spec = .name (String.ofList text) := by
  constructor
  · rintro (⟨hcommit', -⟩ | ⟨name, htext, -⟩ | ⟨name, htext, -⟩ | ⟨-, hread⟩)
    · exact absurd hcommit' hcommit
    · exact absurd htext (hheads name)
    · exact absurd htext (htags name)
    · exact hread
  · exact fun hread => .inr (.inr (.inr ⟨hcommit, hread⟩))

theorem parseGitRef_eq_ok_iff {s : String} :
    parseGitRef s = .ok spec ↔ isTemplate s.toList = false ∧ Reads s.toList spec := by
  unfold parseGitRef
  dsimp only
  by_cases hempty : s.toList = []
  · rw [if_pos hempty, hempty]
    simp [not_reads_nil]
  rw [if_neg hempty]
  cases htemplate : isTemplate s.toList with
  | true => simp
  | false =>
    simp only [Bool.false_eq_true, if_false, true_and]
    by_cases hcommit : IsCommit s.toList
    · rw [if_pos (isCommit_iff.mpr hcommit), Except.ok.injEq, reads_commit_iff hcommit, eq_comm]
    rw [if_neg (mt isCommit_iff.mp hcommit)]
    by_cases hheads : ∃ name, s.toList = heads ++ name
    · obtain ⟨name, hname⟩ := hheads
      rw [dropPrefix?_eq_some.mpr hname, hname, reads_heads_iff]
      exact map_eq_ok_iff
    by_cases htags : ∃ name, s.toList = tags ++ name
    · obtain ⟨name, hname⟩ := htags
      rw [dropPrefix?_eq_none (not_exists.mp hheads), dropPrefix?_eq_some.mpr hname, hname,
        reads_tags_iff]
      exact map_eq_ok_iff
    rw [dropPrefix?_eq_none (not_exists.mp hheads), dropPrefix?_eq_none (not_exists.mp htags),
      reads_other_iff hcommit (not_exists.mp hheads) (not_exists.mp htags)]
    dsimp only
    split
    · next hrefs =>
      simp only [reduceCtorEq, false_iff, not_and]
      exact fun hnot => absurd hrefs hnot
    · next hrefs =>
      rw [map_eq_ok_iff]
      exact (and_iff_right hrefs).symm

theorem grammatical_iff : Grammatical text ↔ ∃ spec, Reads text spec := by
  constructor
  · intro h
    by_cases hcommit : IsCommit text
    · exact ⟨_, .inl ⟨hcommit, rfl⟩⟩
    · obtain hcommit' | ⟨name, htext, hwf⟩ | ⟨name, htext, hwf⟩ | ⟨hrefs, hwf⟩ := h
      · exact absurd hcommit' hcommit
      · exact ⟨_, .inr (.inl ⟨name, htext, hwf, rfl⟩)⟩
      · exact ⟨_, .inr (.inr (.inl ⟨name, htext, hwf, rfl⟩))⟩
      · exact ⟨_, .inr (.inr (.inr ⟨hcommit, hrefs, hwf, rfl⟩))⟩
  · rintro ⟨spec, ⟨hcommit, -⟩ | ⟨name, htext, hwf, -⟩ | ⟨name, htext, hwf, -⟩ | ⟨-, hrefs, hwf, -⟩⟩
    · exact .inl hcommit
    · exact .inr (.inl ⟨name, htext, hwf⟩)
    · exact .inr (.inr (.inl ⟨name, htext, hwf⟩))
    · exact .inr (.inr (.inr ⟨hrefs, hwf⟩))

/-! ## Writing back -/

theorem isHexDigit_toLower {c : Char} (h : isHexDigit c = true) :
    isHexDigit c.toLower = true ∧ c.toLower.toLower = c.toLower ∧ c.toLower ≠ '\x7b' := by
  have hc : c = Char.ofNat c.toNat := (Char.ofNat_toNat c).symm
  simp only [isHexDigit, Char.isDigit, Bool.or_eq_true, Bool.and_eq_true, decide_eq_true_eq,
    Char.le_def, UInt32.le_iff_toNat_le, ge_iff_le] at h
  change ((48 ≤ c.toNat ∧ c.toNat ≤ 57) ∨ (97 ≤ c.toNat ∧ c.toNat ≤ 102)) ∨
    (65 ≤ c.toNat ∧ c.toNat ≤ 70) at h
  rw [hc]
  generalize c.toNat = n at h ⊢
  obtain (⟨hge, hle⟩ | ⟨hge, hle⟩) | ⟨hge, hle⟩ := h
  · interval_cases n <;> decide
  · interval_cases n <;> decide
  · interval_cases n <;> decide

theorem not_isTemplate (h : '\x7b' ∉ text) : isTemplate text = false := by
  have hnot : ∀ part : List Char, '\x7b' ∈ part → contains text part = false := fun part hpart =>
    decide_eq_false fun hwithin => h (hwithin.subset hpart)
  rw [isTemplate, hnot _ (by simp), hnot _ (by simp)]
  rfl

theorem parse_full {s : String} (h : parseGitRef s = .ok spec) :
    parseGitRef spec.full = .ok spec := by
  obtain ⟨htemplate, ⟨hcommit, rfl⟩ | ⟨name, hs, hwf, rfl⟩ | ⟨name, hs, hwf, rfl⟩ |
    ⟨-, -, -, rfl⟩⟩ :=
    parseGitRef_eq_ok_iff.mp h
  · have hlower : ∀ c ∈ s.toList.map Char.toLower,
        isHexDigit c = true ∧ c.toLower = c ∧ c ≠ '\x7b' := by
      intro c hc
      obtain ⟨d, hd, rfl⟩ := List.mem_map.mp hc
      exact isHexDigit_toLower (hcommit.2 d hd)
    have hagain : (s.toList.map Char.toLower).map Char.toLower = s.toList.map Char.toLower :=
      (List.map_congr_left fun c hc => (hlower c hc).2.1).trans (List.map_id' _)
    rw [parseGitRef_eq_ok_iff, GitRefSpec.full, String.toList_ofList]
    refine ⟨not_isTemplate fun hmem => (hlower _ hmem).2.2 rfl, .inl ⟨⟨?_, ?_⟩, ?_⟩⟩
    · rw [List.length_map]
      exact hcommit.1
    · exact fun c hc => (hlower c hc).1
    · rw [hagain]
  · have hfull : (GitRefSpec.branch (String.ofList name)).full = s := by
      rw [GitRefSpec.full, ← String.ofList_append, ← hs, String.ofList_toList]
    rw [hfull]
    exact h
  · have hfull : (GitRefSpec.tag (String.ofList name)).full = s := by
      rw [GitRefSpec.full, ← String.ofList_append, ← hs, String.ofList_toList]
    rw [hfull]
    exact h
  · rw [GitRefSpec.full, String.ofList_toList] at *
    exact h

theorem checkRenderedRef_eq_ok_iff {rendered value : String} {secrets : List String} :
    checkRenderedRef rendered secrets = .ok value ↔
      value = String.ofList (trim rendered.toList) ∧
        (∃ spec, parseGitRef (String.ofList (trim rendered.toList)) = .ok spec) ∧
        ∀ secret ∈ secrets, secret ≠ "" → ¬secret.toList <:+: trim rendered.toList := by
  unfold checkRenderedRef
  dsimp only
  split
  · next hsecret =>
    obtain ⟨secret, hmem, hcontained⟩ := List.any_eq_true.mp hsecret
    rw [Bool.and_eq_true, decide_eq_true_eq] at hcontained
    simp only [reduceCtorEq, false_iff]
    rintro ⟨-, -, hfree⟩
    exact hfree secret hmem hcontained.1 (of_decide_eq_true hcontained.2)
  · next hsecret =>
    have hfree : ∀ secret ∈ secrets, secret ≠ "" → ¬secret.toList <:+: trim rendered.toList := by
      intro secret hmem hne hwithin
      refine hsecret (List.any_eq_true.mpr ⟨secret, hmem, ?_⟩)
      rw [Bool.and_eq_true, decide_eq_true_eq]
      exact ⟨hne, decide_eq_true hwithin⟩
    cases hparse : parseGitRef (String.ofList (trim rendered.toList)) with
    | error e => simp
    | ok spec =>
      simp only [Except.ok.injEq, exists_eq', true_and]
      constructor
      · rintro rfl
        exact ⟨rfl, hfree⟩
      · exact fun h => h.1.symm

/--
The accepted values of `ref:` are those of the grammar, each is read again when written in full,
and a rendered value is accepted exactly when its trimmed form is and shows no secret.
-/
theorem accepts_grammar :
    (∀ s : String, isTemplate s.toList = false →
      ((∃ spec, parseGitRef s = .ok spec) ↔ Grammatical s.toList)) ∧
    (∀ s spec, parseGitRef s = .ok spec → parseGitRef spec.full = .ok spec) ∧
    ∀ rendered secrets value, checkRenderedRef rendered secrets = .ok value ↔
      value = String.ofList (trim rendered.toList) ∧
        (∃ spec, parseGitRef (String.ofList (trim rendered.toList)) = .ok spec) ∧
        ∀ secret ∈ secrets, secret ≠ "" → ¬secret.toList <:+: trim rendered.toList := by
  refine ⟨fun s htemplate => ?_, fun _ _ => parse_full, fun _ _ _ => checkRenderedRef_eq_ok_iff⟩
  simp only [parseGitRef_eq_ok_iff, htemplate, true_and, grammatical_iff]

theorem accepts_grammar_branch :
    parseGitRef "refs/heads/feature/x" = .ok (.branch "feature/x") ∧
      Grammatical "refs/heads/feature/x".toList ∧
      parseGitRef (GitRefSpec.branch "feature/x").full = .ok (.branch "feature/x") ∧
      checkRenderedRef " refs/heads/feature/x\n" ["hunter2"] = .ok "refs/heads/feature/x" ∧
      ∀ value, checkRenderedRef " refs/heads/feature/x\n" ["feature"] ≠ .ok value := by
  obtain ⟨hgrammar, hfull, hrendered⟩ := accepts_grammar
  have hparse : parseGitRef "refs/heads/feature/x" = .ok (.branch "feature/x") := by decide +kernel
  have htemplate : isTemplate "refs/heads/feature/x".toList = false := by decide +kernel
  have htrim : String.ofList (trim " refs/heads/feature/x\n".toList) = "refs/heads/feature/x" := by
    decide +kernel
  refine ⟨hparse, (hgrammar _ htemplate).mp ⟨_, hparse⟩, hfull _ _ hparse,
    (hrendered _ _ _).mpr ⟨htrim.symm, ⟨_, htrim ▸ hparse⟩, ?_⟩, fun value hvalue => ?_⟩
  · decide +kernel
  · obtain ⟨-, -, hfree⟩ := (hrendered _ _ _).mp hvalue
    exact hfree "feature" List.mem_cons_self (by decide) (by decide +kernel)

end Stroem.GitRef
