import Mathlib.Data.List.Basic
import Mathlib.Tactic.Common

/-!
# Shell commands

A text is read character by character into words and operators, as a POSIX shell reads it, and these
are executed one after the other as simple commands, redirections and `if` lists.  Pipelines, loops,
groups, functions, here-documents and substitutions are refused.
-/

namespace Stroem.Foundation.Shell

/-! ## Words and operators -/

structure Word where
  text : List Char := []
  quoted : Bool := false
  expands : Bool := false
  assigns : Bool := false
  dollar : Bool := false
  deriving DecidableEq

inductive Token where
  | word (w : Word)
  | newline
  | op (c : Char) (glued : Bool)
  | refused
  deriving DecidableEq

inductive Mode where
  | between
  | word
  | single
  | double
  | escape
  | doubleEscape
  | comment
  deriving DecidableEq

def isBlank (c : Char) : Bool := c == ' ' || c == '\t'

def isOperator (c : Char) : Bool := ";&|<>()".toList.contains c

def isName : List Char → Bool
  | [] => false
  | c :: text => (c.isAlpha || c == '_') && text.all fun c => c.isAlphanum || c == '_'

def Word.push (w : Word) (c : Char) : Word := { w with text := w.text ++ [c], dollar := false }

def Word.unquoted (w : Word) (c : Char) : Word where
  text := w.text ++ [c]
  quoted := w.quoted
  expands := w.expands || "$*?[".toList.contains c || (c == '~' && w.text.isEmpty && !w.quoted)
  assigns := w.assigns || (c == '=' && !w.quoted && isName w.text)
  dollar := c == '$'

def stepUnquoted (mode : Mode) (w : Word) (c : Char) : List Token × Mode × Word :=
  let out := if mode = .word then [.word w] else []
  if isBlank c then (out, .between, {})
  else if c = '\n' then (out ++ [.newline], .between, {})
  else if isOperator c then (out ++ [.op c (mode = .word)], .between, {})
  else if c = '#' ∧ mode = .between then ([], .comment, {})
  else if c = '\x27' then ([], .single, { w with quoted := true, dollar := false })
  else if c = '\x22' then ([], .double, { w with quoted := true, dollar := false })
  else if c = '\x5c' then ([], .escape, w)
  else if c = '\x60' ∨ (w.dollar ∧ c = '\x7b') then ([.refused], .word, w)
  else ([], .word, w.unquoted c)

def step (mode : Mode) (w : Word) (c : Char) : List Token × Mode × Word :=
  match mode with
  | .between | .word => stepUnquoted mode w c
  | .single => if c = '\x27' then ([], .word, w) else ([], .single, w.push c)
  | .double =>
    if c = '\x22' then ([], .word, { w with dollar := false })
    else if c = '\x5c' then ([], .doubleEscape, w)
    else if c = '\x60' ∨ (w.dollar ∧ (c = '\x7b' ∨ c = '(')) then ([.refused], .double, w)
    else ([], .double, { w.push c with expands := w.expands || c == '$', dollar := c == '$' })
  | .escape =>
    if c = '\n' then ([], if w.text = [] ∧ w.quoted = false then .between else .word, w)
    else ([], .word, { w.push c with quoted := true })
  | .doubleEscape =>
    if c = '\n' then ([], .double, w)
    else if "$\x60\x22\x5c".toList.contains c then ([], .double, w.push c)
    else ([], .double, (w.push '\x5c').push c)
  | .comment => if c = '\n' then ([.newline], .between, {}) else ([], .comment, w)

def scan : Mode → Word → List Char → List Token × Mode × Word
  | mode, w, [] => ([], mode, w)
  | mode, w, c :: text =>
    let (out, mode', w') := step mode w c
    let (rest, last) := scan mode' w' text
    (out ++ rest, last)

def finish : Mode × Word → Option (List Token)
  | (.between, _) | (.comment, _) => some []
  | (.word, w) => some [.word w]
  | _ => none

def readFrom (state : Mode × Word) (text : List Char) : Option (List Token) :=
  (finish (scan state.1 state.2 text).2).map ((scan state.1 state.2 text).1 ++ ·)

def read (text : List Char) : Option (List Token) := readFrom (.between, {}) text

/-! ## Commands -/

/-- What a shell does not decide itself: the success of a command, the fields of a word that
expands, and whether an error of a special built-in ends the shell. -/
structure Env where
  succeeds : List String → Bool
  expand : List Char → List String
  aborts : List String → Bool

inductive Phase where
  | testing
  | running
  | seeking
  | done
  | skipped
  deriving DecidableEq

structure Run where
  words : List Word := []
  target : Bool := false
  nest : List Phase := []
  trace : List (List String) := []
  status : Bool := true
  ended : Bool := false
  deriving DecidableEq

def reserved : List String :=
  ["!", "\x7b", "\x7d", "case", "do", "done", "elif", "else", "esac", "fi", "for", "if", "in",
    "then", "until", "while"]

def specialBuiltins : List String :=
  [".", ":", "break", "continue", "eval", "exec", "exit", "export", "readonly", "return", "set",
    "shift", "times", "trap", "unset"]

def Word.isReserved (w : Word) : Bool :=
  !w.quoted && !w.expands && reserved.contains (String.ofList w.text)

def Word.isNumber (w : Word) : Bool := !w.quoted && !w.expands && w.text.all Char.isDigit

def Word.fields (env : Env) (w : Word) : List String :=
  if w.expands then env.expand w.text else [String.ofList w.text]

def argv (env : Env) (words : List Word) : List String :=
  (words.dropWhile Word.assigns).flatMap (Word.fields env)

def Run.live (r : Run) : Bool :=
  !r.ended && r.nest.all fun phase => phase == .testing || phase == .running

def ends (env : Env) : List String → Bool
  | [] => false
  | name :: args =>
    name == "exit" || (name == "exec" && !args.isEmpty) ||
      (specialBuiltins.contains name && env.aborts (name :: args))

def Run.execute (env : Env) (r : Run) (args : List String) : Run :=
  if args ≠ [] ∧ r.live then
    { r with words := [], trace := r.trace ++ [args], status := env.succeeds args,
             ended := ends env args }
  else { r with words := [] }

def Run.endCommand (env : Env) (r : Run) : Option Run :=
  if r.target then none else some (r.execute env (argv env r.words))

def Run.keyword (r : Run) (name : String) : Option Run :=
  match name, r.nest with
  | "if", nest => some { r with nest := (if r.live then .testing else .skipped) :: nest }
  | "then", .testing :: nest =>
    some { r with nest := (if r.status then .running else .seeking) :: nest }
  | "elif", .running :: nest => some { r with nest := .done :: nest }
  | "elif", .seeking :: nest => some { r with nest := .testing :: nest }
  | "else", .running :: nest => some { r with nest := .done :: nest }
  | "else", .seeking :: nest => some { r with nest := .running :: nest }
  | "fi", phase :: nest => if phase = .testing then none else some { r with nest := nest }
  | name, phase :: _ =>
    if (phase = .done ∨ phase = .skipped) ∧ name ∈ ["then", "elif", "else"] then some r else none
  | _, [] => none

def dropNumber (words : List Word) : List Word :=
  if words.getLast?.any Word.isNumber then words.dropLast else words

def Run.feed (env : Env) (r : Run) : Token → Option Run
  | .refused => none
  | .newline => r.endCommand env
  | .op c glued =>
    if c = ';' then r.endCommand env
    else if r.target then if c = '&' then some r else none
    else if c = '<' ∨ c = '>' then
      some { r with target := true, words := if glued then dropNumber r.words else r.words }
    else none
  | .word w =>
    if r.target then some { r with target := false }
    else if r.words = [] ∧ w.isReserved then r.keyword (String.ofList w.text)
    else some { r with words := r.words ++ [w] }

def feedAll (env : Env) (r : Run) (tokens : List Token) : Option Run :=
  tokens.foldlM (Run.feed env) r

def run (env : Env) (text : List Char) : Option (List (List String)) := do
  let tokens ← read text
  let r ← feedAll env {} tokens
  let r ← r.endCommand env
  if r.nest = [] then some r.trace else none

/-! ## The arguments of a shell -/

structure Invocation where
  shell : String
  options : List String
  script : String
  params : List String
  deriving DecidableEq

def isOption (arg : String) : Bool :=
  arg.toList.head? == some '-' || arg.toList.head? == some '+'

def invocation : List String → Option Invocation
  | shell :: "-c" :: args =>
    if shell ∈ ["sh", "bash"] then
      match args.dropWhile isOption with
      | script :: params => some ⟨shell, args.takeWhile isOption, script, params⟩
      | [] => none
    else none
  | _ => none

/-! ## Reading pieces of a text -/

variable {mode : Mode} {w : Word} {c : Char}

theorem scan_cons (mode : Mode) (w : Word) (c : Char) (text : List Char) :
    scan mode w (c :: text) =
      ((step mode w c).1 ++ (scan (step mode w c).2.1 (step mode w c).2.2 text).1,
        (scan (step mode w c).2.1 (step mode w c).2.2 text).2) := rfl

theorem scan_append (mode : Mode) (w : Word) (text rest : List Char) :
    scan mode w (text ++ rest) =
      ((scan mode w text).1 ++ (scan (scan mode w text).2.1 (scan mode w text).2.2 rest).1,
        (scan (scan mode w text).2.1 (scan mode w text).2.2 rest).2) := by
  induction text generalizing mode w with
  | nil => rfl
  | cons c text ih => rw [List.cons_append, scan_cons, ih, scan_cons, List.append_assoc]

variable {text : List Char}

theorem scan_append_of {out : List Token} {mode' : Mode} {w' : Word}
    (h : scan mode w text = (out, mode', w')) (rest : List Char) :
    scan mode w (text ++ rest) = (out ++ (scan mode' w' rest).1, (scan mode' w' rest).2) := by
  rw [scan_append, h]

theorem scan_step {mode' : Mode} {w' : Word} (h : step mode w c = ([], mode', w'))
    (text : List Char) : scan mode w (c :: text) = scan mode' w' text := by
  rw [scan_cons, h]
  rfl

/-! ### Quoted text -/

def quoteChar (c : Char) : List Char :=
  if c = '\x27' then ['\x27', '\x5c', '\x27', '\x27'] else [c]

def quote (text : List Char) : List Char := '\x27' :: (text.flatMap quoteChar ++ ['\x27'])

def Word.quote (w : Word) (text : List Char) : Word :=
  { w with text := w.text ++ text, quoted := true, dollar := false }

theorem Word.quote_append (w : Word) (text rest : List Char) :
    (w.quote text).quote rest = w.quote (text ++ rest) := by
  simp only [Word.quote, List.append_assoc]

theorem scan_single (w : Word) (text : List Char) :
    scan .single (w.quote []) (text.flatMap quoteChar) = ([], .single, w.quote text) := by
  induction text generalizing w with
  | nil => rfl
  | cons c text ih =>
    have hnext := ih (w.quote [c])
    rw [Word.quote_append, Word.quote_append, List.append_nil] at hnext
    rw [List.flatMap_cons, quoteChar]
    split
    · next hquote =>
        subst hquote
        have hword : w.quote ['\x27'] =
            { (w.quote []).push '\x27' with quoted := true, dollar := false } := by
          simp only [Word.quote, Word.push, List.append_nil]
        rw [hword] at hnext
        exact hnext
    · next hquote =>
        refine (scan_step ?_ _).trans hnext
        simp only [step, if_neg hquote, Word.push, Word.quote, List.append_nil]

theorem scan_quote (hmode : mode = .between ∨ mode = .word) (w : Word) (text : List Char) :
    scan mode w (quote text) = ([], .word, w.quote text) := by
  have hopen : step mode w '\x27' = ([], .single, w.quote []) := by
    rw [Word.quote, List.append_nil]
    obtain rfl | rfl := hmode <;> rfl
  have hclose : scan .single (w.quote text) ['\x27'] = ([], .word, w.quote text) := rfl
  rw [quote, scan_step hopen, scan_append_of (scan_single w text), hclose]
  rfl

/-! ### Bare text -/

def isLiteral (c : Char) : Bool :=
  !(isBlank c || c == '\n' || isOperator c || "\x27\x22\x5c\x60$*?[".toList.contains c)

structure Bare (text : List Char) : Prop where
  nonempty : text ≠ []
  literal : ∀ c ∈ text, isLiteral c = true
  head : text.head? ≠ some '#' ∧ text.head? ≠ some '~'

def bare (text : List Char) : Word := text.foldl Word.unquoted {}

theorem step_literal (h : isLiteral c = true) (hdollar : w.dollar = false)
    (hmode : mode = .word ∨ mode = .between ∧ c ≠ '#') :
    step mode w c = ([], .word, w.unquoted c) := by
  simp only [isLiteral, Bool.not_eq_true', Bool.or_eq_false_iff, beq_eq_false_iff_ne,
    List.contains_eq_mem, decide_eq_false_iff_not] at h
  obtain ⟨⟨⟨hblank, hnewline⟩, hoperator⟩, hchars⟩ := h
  have hmark : c ≠ '\x27' ∧ c ≠ '\x22' ∧ c ≠ '\x5c' ∧ c ≠ '\x60' :=
    ⟨fun h => hchars (by rw [h]; decide), fun h => hchars (by rw [h]; decide),
      fun h => hchars (by rw [h]; decide), fun h => hchars (by rw [h]; decide)⟩
  have hstep : step mode w c = stepUnquoted mode w c := by
    obtain rfl | ⟨rfl, -⟩ := hmode <;> rfl
  have hcomment : ¬ (c = '#' ∧ mode = .between) := by
    rintro ⟨hc, hm⟩
    obtain rfl | ⟨-, hne⟩ := hmode
    · cases hm
    · exact hne hc
  rw [hstep, stepUnquoted]
  simp only [hblank, hnewline, hoperator, hcomment, hmark, hdollar, Bool.false_eq_true, if_false,
    false_and, or_self]

theorem scan_literal (h : ∀ c ∈ text, isLiteral c = true) (hdollar : w.dollar = false) :
    scan .word w text = ([], .word, text.foldl Word.unquoted w) := by
  induction text generalizing w with
  | nil => rfl
  | cons c text ih =>
    have hc := h c List.mem_cons_self
    have hnext : (w.unquoted c).dollar = false := by
      refine beq_eq_false_iff_ne.mpr ?_
      rintro rfl
      exact absurd hc (by decide)
    rw [scan_step (step_literal hc hdollar (.inl rfl)),
      ih (fun c hc => h c (List.mem_cons_of_mem _ hc)) hnext, List.foldl_cons]

theorem Bare.scan (h : Bare text) : scan .between {} text = ([], .word, bare text) := by
  obtain ⟨hne, hliteral, hhead, -⟩ := h
  cases text with
  | nil => exact absurd rfl hne
  | cons c text =>
    have hc := hliteral c List.mem_cons_self
    have hcomment : c ≠ '#' := fun h => hhead (congrArg some h)
    have hnext : (({} : Word).unquoted c).dollar = false := by
      refine beq_eq_false_iff_ne.mpr ?_
      rintro rfl
      exact absurd hc (by decide)
    rw [scan_step (step_literal hc rfl (.inr ⟨rfl, hcomment⟩)),
      scan_literal (fun c hc => hliteral c (List.mem_cons_of_mem _ hc)) hnext]
    rfl

theorem foldl_unquoted_text (w : Word) (text : List Char) :
    (text.foldl Word.unquoted w).text = w.text ++ text := by
  induction text generalizing w with
  | nil => exact (List.append_nil _).symm
  | cons c text ih => rw [List.foldl_cons, ih, Word.unquoted, List.append_assoc, List.cons_append,
      List.nil_append]

@[simp] theorem bare_text (text : List Char) : (bare text).text = text :=
  foldl_unquoted_text {} text

theorem foldl_unquoted_expands (w : Word) (h : ∀ c ∈ text, isLiteral c = true)
    (hstart : w.text ≠ [] ∨ text.head? ≠ some '~') :
    (text.foldl Word.unquoted w).expands = w.expands := by
  induction text generalizing w with
  | nil => rfl
  | cons c text ih =>
    have hc := h c List.mem_cons_self
    have hset : "$*?[".toList.contains c = false := by
      refine Bool.eq_false_iff.mpr fun hmem => ?_
      obtain rfl | rfl | rfl | rfl : c = '$' ∨ c = '*' ∨ c = '?' ∨ c = '[' := by
        simpa using hmem
      all_goals exact absurd hc (by decide)
    have htilde : (c == '~' && w.text.isEmpty && !w.quoted) = false := by
      obtain hne | hne := hstart
      · rw [List.isEmpty_eq_false_iff.mpr hne, Bool.and_false, Bool.false_and]
      · have hc' : c ≠ '~' := fun h => hne (congrArg some h)
        rw [beq_eq_false_iff_ne.mpr hc', Bool.false_and, Bool.false_and]
    rw [List.foldl_cons, ih _ (fun c hc => h c (List.mem_cons_of_mem _ hc))
      (.inl (by simp [Word.unquoted])), Word.unquoted, hset, htilde, Bool.or_false, Bool.or_false]

theorem Bare.expands (h : Bare text) : (bare text).expands = false :=
  foldl_unquoted_expands {} h.literal (.inr h.head.2)

theorem foldl_unquoted_assigns (w : Word) (h : '=' ∉ text) :
    (text.foldl Word.unquoted w).assigns = w.assigns := by
  induction text generalizing w with
  | nil => rfl
  | cons c text ih =>
    have hc : c ≠ '=' := fun heq => h (heq ▸ List.mem_cons_self)
    rw [List.foldl_cons, ih _ fun hmem => h (List.mem_cons_of_mem _ hmem), Word.unquoted,
      beq_eq_false_iff_ne.mpr hc, Bool.false_and, Bool.false_and, Bool.or_false]

/-! ## Arguments in a row -/

inductive Arg where
  | bare (text : List Char)
  | quoted (text : List Char)

def Arg.value? : Arg → Option (List Char)
  | .bare text => if text = [] then none else some text
  | .quoted text => some text

def Arg.written : Arg → List Char
  | .bare text => text
  | .quoted text => quote text

def Arg.Legal : Arg → Prop
  | .bare text => text = [] ∨ Bare text
  | .quoted _ => True

def Arg.word? : Arg → Option Word
  | .bare text => if text = [] then none else some (Shell.bare text)
  | .quoted text => some (({} : Word).quote text)

def after : Option Word → Mode × Word
  | none => (.between, {})
  | some w => (.word, w)

theorem readFrom_append (state : Mode × Word) {state' : Mode × Word} {out : List Token}
    (text : List Char) (h : scan state.1 state.2 text = (out, state')) (rest : List Char) :
    readFrom state (text ++ rest) = (readFrom state' rest).map (out ++ ·) := by
  simp only [readFrom, scan_append_of h, Option.map_map, Function.comp_def, List.append_assoc]

theorem readFrom_end (w? : Option Word) : readFrom (after w?) [] = some (w?.toList.map .word) := by
  cases w? <;> rfl

theorem readFrom_newline (w? : Option Word) (rest : List Char) :
    readFrom (after w?) ('\n' :: rest) =
      (readFrom (.between, {}) rest).map fun tokens =>
        w?.toList.map .word ++ .newline :: tokens := by
  cases w? <;> exact readFrom_append _ ['\n'] rfl rest

theorem readFrom_blank (w? : Option Word) (rest : List Char) :
    readFrom (after w?) (' ' :: rest) =
      (readFrom (.between, {}) rest).map (w?.toList.map .word ++ ·) := by
  cases w? <;> exact readFrom_append _ [' '] rfl rest

theorem Arg.scan_written {a : Arg} (h : a.Legal) :
    scan .between {} a.written = ([], after a.word?) := by
  cases a with
  | quoted text => exact scan_quote (.inl rfl) {} text
  | bare text =>
    obtain rfl | hbare := h
    · rfl
    · rw [Arg.written, Arg.word?, if_neg hbare.nonempty, hbare.scan]
      rfl

def Closes (rest : List Char) (tokens : Option (List Token)) : Prop :=
  ∀ w? : Option Word, readFrom (after w?) rest = tokens.map (w?.toList.map .word ++ ·)

theorem closes_end : Closes [] (some []) := by
  intro w?
  rw [readFrom_end, Option.map_some, List.append_nil]

theorem closes_newline (rest : List Char) :
    Closes ('\n' :: rest) ((readFrom (.between, {}) rest).map (.newline :: ·)) := by
  intro w?
  rw [readFrom_newline, Option.map_map]
  rfl

theorem filterMap_word?_cons (a : Arg) (args : List Arg) :
    (a :: args).filterMap Arg.word? = a.word?.toList ++ args.filterMap Arg.word? := by
  cases hword : a.word? <;> simp [hword]

theorem readFrom_args {args : List Arg} {rest : List Char} {tokens : Option (List Token)}
    (h : ∀ a ∈ args, a.Legal) (hrest : Closes rest tokens) (w? : Option Word) :
    readFrom (after w?) (args.flatMap (' ' :: ·.written) ++ rest) =
      tokens.map ((w?.toList ++ args.filterMap Arg.word?).map .word ++ ·) := by
  induction args generalizing w? with
  | nil =>
    rw [List.flatMap_nil, List.nil_append, List.filterMap_nil, List.append_nil]
    exact hrest w?
  | cons a args ih =>
    have hrow := readFrom_append (.between, {}) _
      (Arg.scan_written (h a List.mem_cons_self))
      (args.flatMap (' ' :: ·.written) ++ rest)
    rw [ih (fun a ha => h a (List.mem_cons_of_mem _ ha)) a.word?] at hrow
    rw [List.flatMap_cons, List.cons_append, List.cons_append, List.append_assoc,
      readFrom_blank, hrow, Option.map_map, Option.map_map]
    rw [filterMap_word?_cons]
    simp only [Function.comp_def, List.map_append, List.append_assoc, List.nil_append]

theorem toList_intercalate_blank (first : String) (rest : List String) :
    (" ".intercalate (first :: rest)).toList =
      first.toList ++ rest.flatMap (' ' :: ·.toList) := by
  induction rest generalizing first with
  | nil => simp
  | cons second rest ih =>
    rw [String.intercalate_cons_cons, String.toList_append, String.toList_append, ih]
    simp

/-! ## Commands of one line -/

variable {env : Env} {r : Run}

theorem feedAll_append (env : Env) (r : Run) (tokens rest : List Token) :
    feedAll env r (tokens ++ rest) =
      (feedAll env r tokens).bind fun r => feedAll env r rest :=
  List.foldlM_append

theorem feedAll_words (htarget : r.target = false) {words : List Word}
    (hfirst : r.words ≠ [] ∨ ∀ w ∈ words.head?, w.isReserved = false) :
    feedAll env r (words.map .word) = some { r with words := r.words ++ words } := by
  induction words generalizing r with
  | nil => rw [List.append_nil]; rfl
  | cons w words ih =>
    have hreserved : ¬ (r.words = [] ∧ w.isReserved = true) := by
      rintro ⟨hnil, hw⟩
      obtain hne | hne := hfirst
      · exact hne hnil
      · rw [hne w rfl] at hw
        cases hw
    have hfeed : r.feed env (.word w) = some { r with words := r.words ++ [w] } := by
      rw [Run.feed, htarget, if_neg Bool.false_ne_true, if_neg hreserved]
    rw [List.map_cons, feedAll, List.foldlM_cons, hfeed]
    refine (ih (r := { r with words := r.words ++ [w] }) htarget (.inl (by simp))).trans ?_
    simp only [List.append_assoc, List.singleton_append]

theorem feedAll_line (hwords : r.words = []) (htarget : r.target = false) {words : List Word}
    (hfirst : ∀ w ∈ words.head?, w.isReserved = false) :
    feedAll env r (words.map .word ++ [.newline]) = some (r.execute env (argv env words)) := by
  rw [feedAll_append, feedAll_words htarget (.inr hfirst), hwords]
  obtain ⟨_, target, nest, trace, status, ended⟩ := r
  cases htarget
  rfl

theorem argv_of {words : List Word} (h : ∀ w ∈ words, w.expands = false)
    (hfirst : ∀ w ∈ words.head?, w.assigns = false) :
    argv env words = words.map (String.ofList ·.text) := by
  have hdrop : words.dropWhile Word.assigns = words := by
    cases words with
    | nil => rfl
    | cons w words => rw [List.dropWhile_cons, hfirst w rfl, if_neg Bool.false_ne_true]
  rw [argv, hdrop, List.map_eq_flatMap]
  refine List.flatMap_congr fun w hw => ?_
  rw [Word.fields, h w hw, if_neg Bool.false_ne_true]

theorem Arg.expands_word {a : Arg} (h : a.Legal) : ∀ w ∈ a.word?, w.expands = false := by
  cases a with
  | quoted text =>
    rintro w ⟨⟩
    rfl
  | bare text =>
    intro w hw
    obtain rfl | hbare := h
    · cases hw
    · rw [Arg.word?, if_neg hbare.nonempty] at hw
      cases hw
      exact hbare.expands

theorem Arg.text_word (a : Arg) : a.word?.map Word.text = a.value? := by
  cases a with
  | quoted text => rfl
  | bare text =>
    rw [Arg.word?, Arg.value?]
    split
    · rfl
    · rw [Option.map_some, bare_text]

theorem argv_args {args : List Arg} (h : ∀ a ∈ args, a.Legal)
    (hfirst : ∀ w ∈ (args.filterMap Arg.word?).head?, w.assigns = false) :
    argv env (args.filterMap Arg.word?) = (args.filterMap Arg.value?).map String.ofList := by
  have hexpands : ∀ w ∈ args.filterMap Arg.word?, w.expands = false := by
    intro w hw
    obtain ⟨a, ha, hw⟩ := List.mem_filterMap.mp hw
    exact Arg.expands_word (h a ha) w hw
  have htexts : (args.filterMap Arg.word?).map Word.text = args.filterMap Arg.value? := by
    rw [List.map_filterMap]
    exact List.filterMap_congr fun a _ => Arg.text_word a
  rw [argv_of hexpands hfirst, ← htexts, List.map_map]
  rfl

theorem readFrom_line {a : Arg} {args : List Arg} {rest : List Char} {tokens : Option (List Token)}
    (h : ∀ b ∈ a :: args, b.Legal) (hrest : Closes rest tokens) :
    readFrom (.between, {}) (a.written ++ args.flatMap (' ' :: ·.written) ++ rest) =
      tokens.map (((a :: args).filterMap Arg.word?).map .word ++ ·) := by
  have hargs := readFrom_args (fun b hb => h b (List.mem_cons_of_mem _ hb)) hrest a.word?
  rw [List.append_assoc, readFrom_append (.between, {}) _
    (Arg.scan_written (h a List.mem_cons_self)), hargs, Option.map_map,
    filterMap_word?_cons]
  rfl

theorem read_args {a : Arg} {args : List Arg} (h : ∀ b ∈ a :: args, b.Legal) :
    read (a.written ++ args.flatMap (' ' :: ·.written)) =
      some (((a :: args).filterMap Arg.word?).map .word) := by
  have hline := readFrom_line h closes_end
  rw [List.append_nil, Option.map_some, List.append_nil] at hline
  exact hline

theorem run_line {words : List Word} (hread : read text = some (words.map .word))
    (hfirst : ∀ w ∈ words.head?, w.isReserved = false) (hargs : argv env words ≠ []) :
    run env text = some [argv env words] := by
  have hfeed : feedAll env {} (words.map .word) = some { words := [] ++ words } :=
    feedAll_words rfl (.inr hfirst)
  have hend : Run.endCommand env { words := words } =
      some { trace := [argv env words], status := env.succeeds (argv env words),
             ended := ends env (argv env words) } := by
    rw [Run.endCommand, if_neg Bool.false_ne_true, Run.execute, if_pos ⟨hargs, rfl⟩]
    rfl
  simp only [run, hread, hfeed, hend, List.nil_append, Option.bind_eq_bind, Option.bind_some,
    if_true]

theorem isLiteral_of {c : Char}
    (h : c ∉ " \t\n;&|<>()\x27\x22\x5c\x60$*?[".toList) : isLiteral c = true := by
  simp only [isLiteral, isBlank, isOperator, Bool.not_eq_true', Bool.or_eq_false_iff,
    beq_eq_false_iff_ne, List.contains_eq_mem, decide_eq_false_iff_not]
  simp at h ⊢
  tauto

/-! ## Quoting by replacement -/

section Replace

open String String.Slice String.Slice.Pattern String.Slice.Pattern.Model

variable {s : Slice}

private def replaceStep (s : Slice) (new : String) (sofar : String) : SearchStep s → String
  | .matched .. => sofar ++ new.toSlice
  | .rejected start stop => sofar ++ s.slice! start stop

private theorem toList_foldl_replaceStep (new : String) {d : Char} {pos : s.Pos}
    {steps : List (SearchStep s)}
    (h : IsValidSearchFrom (String.singleton d) pos steps) {before behind : String}
    (hpos : pos.Splits before behind) (sofar : String) :
    (steps.foldl (replaceStep s new) sofar).toList =
      sofar.toList ++ behind.toList.flatMap fun c => if c = d then new.toList else [c] := by
  induction h generalizing before behind sofar with
  | endPos =>
    have hbehind := hpos.eq_right s.splits_endPos
    simp [hbehind]
  | @matched steps startPos endPos hmatch _ ih =>
    obtain ⟨t₁, t₂, hstart, hend⟩ := ForwardStringSearcher.isLongestMatchAt_iff_splits.mp hmatch
    have hbehind := hpos.eq_right hstart
    rw [List.foldl_cons, ih hend, hbehind]
    simp [replaceStep]
  | @mismatched steps startPos endPos hlt hnone _ ih =>
    have hle : startPos ≤ endPos := Std.le_of_lt hlt
    obtain ⟨t₁, t₂, hstart, hend⟩ := Slice.copy_slice_eq_iff_splits.mp ⟨hle, rfl⟩
    have hbehind := hpos.eq_right hstart
    have hplain : ∀ c ∈ (s.slice startPos endPos hle).copy.toList, c ≠ d := by
      rintro c hc rfl
      obtain ⟨a, b, hab⟩ := List.append_of_mem hc
      have hmid : (s.slice startPos endPos hle).copy =
          String.ofList a ++ (String.singleton c ++ String.ofList b) := by
        apply String.toList_inj.mp
        simp [hab]
      have hcopy : s.copy =
          (t₁ ++ String.ofList a) ++ (String.singleton c ++ (String.ofList b ++ t₂)) := by
        rw [hstart.eq_append, hmid]
        simp only [String.append_assoc]
      have hp := Slice.Pos.splits_ofEqAppend hcopy
      refine hnone _ ?_ ?_ (ForwardStringSearcher.matchesAt_iff_splits.mpr ⟨_, _, hp⟩)
      · rw [Slice.Pos.le_iff, hp.offset_eq_rawEndPos, hstart.offset_eq_rawEndPos]
        simp [String.Pos.Raw.le_iff]
      · rw [Slice.Pos.lt_iff, hp.offset_eq_rawEndPos, hend.offset_eq_rawEndPos, hmid]
        have hpositive := c.utf8Size_pos
        simp [String.Pos.Raw.lt_iff]
        omega
    have hstep : replaceStep s new sofar (.rejected startPos endPos) =
        sofar ++ (s.slice startPos endPos hle).copy := by
      simp [replaceStep, ← Slice.slice_eq_slice! (h := hle)]
    rw [List.foldl_cons, ih hend, hbehind, hstep, String.toList_append, String.toList_append,
      List.flatMap_append, List.append_assoc]
    have hsame : (s.slice startPos endPos hle).copy.toList.flatMap
        (fun c => if c = d then new.toList else [c]) =
          (s.slice startPos endPos hle).copy.toList := by
      refine (List.flatMap_congr fun c hc => if_neg (hplain c hc)).trans ?_
      exact List.flatMap_singleton' _
    rw [hsame]

theorem toList_replace (s : String) (d : Char) (new : String) :
    (s.replace (String.singleton d) new).toList =
      s.toList.flatMap fun c => if c = d then new.toList else [c] := by
  have hne : String.singleton d ≠ "" := by simp
  have hvalid := (ForwardStringSearcher.lawfulToForwardSearcherModel hne).isValidSearchFrom_toList
    s.toSlice
  have hfold := toList_foldl_replaceStep new hvalid (Slice.splits_startPos _) ""
  rw [String.replace, Slice.replace, ← Std.Iter.foldl_toList]
  refine Eq.trans ?_ (hfold.trans ?_)
  · congr 2
    funext sofar step
    cases step <;> rfl
  · simp

end Replace

theorem quote_replace (s : String) :
    ("'" ++ s.replace "'" "'\\''" ++ "'").toList = quote s.toList := by
  have hreplace : (s.replace "'" "'\\''").toList = s.toList.flatMap quoteChar :=
    toList_replace s '\x27' "'\\''"
  rw [String.toList_append, String.toList_append, hreplace]
  rfl

/-! ## A text that is its own command -/

def IsAssignment (text : List Char) : Prop :=
  ∃ name value, text = name ++ '=' :: value ∧ isName name = true

def Token.size : Token → Nat
  | .word w => w.text.length
  | _ => 0

def tokensSize : List Token → Nat
  | [] => 0
  | token :: tokens => token.size + tokensSize tokens

def wordsSize (words : List Word) : Nat := tokensSize (words.map .word)

def argsSize : List String → Nat
  | [] => 0
  | arg :: args => arg.toList.length + argsSize args

def traceSize : List (List String) → Nat
  | [] => 0
  | args :: trace => argsSize args + traceSize trace

def Run.size (r : Run) : Nat := wordsSize r.words + traceSize r.trace

end Stroem.Foundation.Shell
