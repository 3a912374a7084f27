import Stroem.Foundation.Shell

/-!
# Shell scripts

A script is written line by line, each line a row of bare and quoted arguments, and is run line by
line: a line executes its command, or is passed over in a list that is not run.
-/

namespace Stroem.Foundation.Shell

/-! ## Lines -/

def written : List Arg → List Char
  | [] => []
  | a :: args => a.written ++ args.flatMap (' ' :: ·.written)

def values (line : List Arg) : List String :=
  (line.filterMap Arg.value?).map String.ofList

def plain (s : String) : Arg := .bare s.toList

def quoted (s : String) : Arg := .quoted s.toList

structure IsCommand (name : String) (line : List Arg) : Prop where
  legal : ∀ a ∈ line, a.Legal
  head : line.head? = some (plain name)
  bare : Bare name.toList
  noAssignment : '=' ∉ name.toList
  notReserved : name ∉ reserved

variable {env : Env} {r : Run} {name : String} {line : List Arg}

theorem IsCommand.words (h : IsCommand name line) : ∃ words,
    line.filterMap Arg.word? = Shell.bare name.toList :: words := by
  obtain ⟨args, rfl⟩ : ∃ args, line = plain name :: args := by
    cases line with
    | nil => cases h.head
    | cons a args => exact ⟨args, by rw [Option.some.inj h.head]⟩
  exact ⟨args.filterMap Arg.word?, List.filterMap_cons_some (if_neg h.bare.nonempty)⟩

theorem IsCommand.isReserved (h : IsCommand name line) :
    ∀ w ∈ (line.filterMap Arg.word?).head?, w.isReserved = false := by
  obtain ⟨words, hwords⟩ := h.words
  rw [hwords]
  rintro w ⟨⟩
  rw [Word.isReserved, bare_text, String.ofList_toList]
  simp [h.notReserved]

theorem IsCommand.argv (h : IsCommand name line) :
    Shell.argv env (line.filterMap Arg.word?) = values line := by
  refine argv_args h.legal ?_
  obtain ⟨words, hwords⟩ := h.words
  rw [hwords]
  rintro w ⟨⟩
  exact foldl_unquoted_assigns {} h.noAssignment

theorem IsCommand.read (h : IsCommand name line) :
    Shell.read (written line) = some ((line.filterMap Arg.word?).map .word) := by
  cases line with
  | nil => cases h.head
  | cons a args => exact read_args h.legal

theorem IsCommand.readFrom (h : IsCommand name line) {rest : List Char}
    {tokens : Option (List Token)} (hrest : Closes rest tokens) :
    Shell.readFrom (.between, {}) (written line ++ rest) =
      tokens.map ((line.filterMap Arg.word?).map .word ++ ·) := by
  cases line with
  | nil => cases h.head
  | cons a args => exact readFrom_line h.legal hrest

def runFrom (env : Env) (r : Run) (text : List Char) : Option (List (List String)) := do
  let tokens ← Shell.readFrom (.between, {}) text
  let r ← feedAll env r tokens
  let r ← r.endCommand env
  if r.nest = [] then some r.trace else none

def Steps (env : Env) (r : Run) (text : List Char) (r' : Run) : Prop :=
  ∀ rest, runFrom env r (text ++ rest) = runFrom env r' rest

theorem Steps.trans {r' r'' : Run} {text text' : List Char} (h : Steps env r text r')
    (h' : Steps env r' text' r'') : Steps env r (text ++ text') r'' := by
  intro rest
  rw [List.append_assoc, h, h']

theorem steps_of {r' : Run} {text : List Char} (out : List Token)
    (hread : ∀ rest, Shell.readFrom (.between, {}) (text ++ rest) =
      (Shell.readFrom (.between, {}) rest).map (out ++ ·))
    (hfeed : feedAll env r out = some r') : Steps env r text r' := by
  intro rest
  rw [runFrom, runFrom, hread]
  cases Shell.readFrom (.between, {}) rest with
  | none => rfl
  | some tokens =>
    change (feedAll env r (out ++ tokens)).bind _ = _
    rw [feedAll_append, hfeed]
    rfl

structure Idle (r : Run) (nest : List Phase) (trace : List (List String)) : Prop where
  words : r.words = []
  target : r.target = false
  nest : r.nest = nest
  trace : r.trace = trace
  ended : r.ended = false

def running (nest : List Phase) : Bool :=
  nest.all fun phase => phase == .testing || phase == .running

variable {nest : List Phase} {trace : List (List String)}

theorem Idle.live (h : Idle r nest trace) : r.live = running nest := by
  rw [Run.live, h.ended, h.nest]
  exact Bool.true_and _

theorem Idle.execute (h : Idle r nest trace) {args : List String}
    (hargs : running nest = true → args ≠ [] ∧ ends env args = false) :
    Idle (r.execute env args) nest (if running nest then trace ++ [args] else trace) := by
  rw [Run.execute, h.live]
  cases hlive : running nest with
  | false =>
    rw [if_neg (by simp), if_neg Bool.false_ne_true]
    exact ⟨rfl, h.target, h.nest, h.trace, h.ended⟩
  | true =>
    rw [if_pos ⟨(hargs hlive).1, rfl⟩, if_pos rfl]
    exact ⟨rfl, h.target, h.nest, congrArg (· ++ [args]) h.trace, (hargs hlive).2⟩

theorem IsCommand.steps (env : Env) (h : IsCommand name line) (hwords : r.words = [])
    (htarget : r.target = false) (sep : List Char)
    (hsep : ∀ rest, Shell.readFrom (.between, {}) (sep ++ rest) =
      Shell.readFrom (.between, {}) rest) :
    Steps env r (written line ++ '\n' :: sep) (r.execute env (values line)) := by
  refine steps_of ((line.filterMap Arg.word?).map .word ++ [.newline]) (fun rest => ?_) ?_
  · rw [List.append_assoc, List.cons_append, h.readFrom (closes_newline _), Option.map_map, hsep]
    simp only [Function.comp_def, List.append_assoc, List.singleton_append]
  · rw [feedAll_line hwords htarget h.isReserved, h.argv]

end Stroem.Foundation.Shell
