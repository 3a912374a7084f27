import Stroem.Connections
import Stroem.Foundation.Text

/-!
# The `json` input field

Every string inside a `json` field's value is literal text, a single `{{ expression }}`, which is
rendered inside a wrapper and read as JSON, or an error.  Object keys are never rendered, and what
an expression produces is not rendered again.  An error of the renderer that names a place in the
wrapper is made to name the place in the author's text.
-/

namespace Stroem.JsonField

open Foundation
open Stroem.Connections (delimiters looksTemplated isAsciiWhitespace stripSuffix containsText)

def wrapperPrefix : String := "\x7b% set __stroem_v = "

def wrapperSuffix : String :=
  " %\x7d\x7b% if __stroem_v is undefined %\x7d\x7b\x7b __stroem_v \x7d\x7d\x7b% endif %\x7d" ++
    "\x7b\x7b __stroem_v | json_encode() \x7d\x7d"

def notJson : String := "the expression's value could not be converted to JSON"

/-! ## `classify` and `map_position` -/

structure SingleExpr where
  inner : String
  start : Nat × Nat
  deriving DecidableEq

inductive Classified where
  | literal
  | single (expr : SingleExpr)
  | mixed
  deriving DecidableEq

def lastSegment (text : List Char) : List Char :=
  (text.reverse.takeWhile (· ≠ '\n')).reverse

def positionOf (s : List Char) (byte : Nat) : Nat × Nat :=
  let before := s.take byte
  (1 + before.count '\n', (lastSegment before).length + 1)

def classify (s : String) : Classified :=
  if looksTemplated s then
    let lead := s.toList.length - (s.toList.dropWhile isAsciiWhitespace).length
    let trimmed := trimBy isAsciiWhitespace s.toList
    match (trimmed.dropPrefix? ['\x7b', '\x7b']).bind (stripSuffix ['\x7d', '\x7d']) with
    | none => .mixed
    | some body =>
      let (body, openLen) := match body with
        | '-' :: rest => (rest, 3)
        | other => (other, 2)
      let inner := String.ofList ((stripSuffix ['-'] body).getD body)
      if delimiters.any (containsText inner) then .mixed
      else .single ⟨inner, positionOf s.toList (lead + openLen)⟩
  else .literal

def mapPosition (expr : SingleExpr) (pos : Nat × Nat) : Option (Nat × Nat) :=
  let p := wrapperPrefix.length
  let (l, c) := pos
  let newlines := expr.inner.toList.count '\n'
  let lastLine := 1 + newlines
  let lastCol :=
    if newlines = 0 then p + expr.inner.length else (lastSegment expr.inner.toList).length
  let beforeStart := l = 0 ∨ (l = 1 ∧ c < p + 1)
  let afterEnd := lastLine < l ∨ (l = lastLine ∧ lastCol < c)
  if beforeStart ∨ afterEnd then none
  else
    let (l₀, c₀) := expr.start
    if l = 1 then some (l₀, c₀ + c - (p + 1)) else some (l₀ + l - 1, c)

/-! ## Errors -/

structure TemplateError where
  message : String
  line : Option Nat
  column : Option Nat
  deriving DecidableEq

def TemplateError.position (e : TemplateError) : Option (Nat × Nat) :=
  e.line.bind fun l => e.column.map fun c => (l, c)

def TemplateError.withPosition (e : TemplateError) (pos : Option (Nat × Nat)) : TemplateError :=
  { e with line := pos.map Prod.fst, column := pos.map Prod.snd }

inductive Root where
  | template (e : TemplateError)
  | other (text : String)
  deriving DecidableEq

structure Error where
  contexts : List String := []
  root : Root
  deriving DecidableEq

def Error.context (e : Error) (text : String) : Error := { e with contexts := text :: e.contexts }

def remap (err : Error) (expr : SingleExpr) : Error :=
  match err.root with
  | .template te =>
    let pos := te.position.bind (mapPosition expr)
    { contexts := err.contexts.take 1, root := .template (te.withPosition pos) }
  | .other _ => err

/-! ## Rendering -/

abbrev Rendering (α : Type) := Except Error α × List String

def wrapper (expr : SingleExpr) : String := wrapperPrefix ++ expr.inner ++ wrapperSuffix

section Render

variable (render : String → Except Error String) (fromStr : String → Option Json)

def evalSingle (expr : SingleExpr) : Rendering Json :=
  let result :=
    match render (wrapper expr) with
    | .error e => .error (remap e expr)
    | .ok text =>
      match fromStr text with
      | some value => .ok value
      | none => .error { root := .other notJson }
  (result, [wrapper expr])

def location (field : String) (path : List (Option Nat)) : String :=
  if path ≠ [] ∧ path.all Option.isSome then
    "Input field '" ++ field ++ "' at `" ++
      String.join (path.reduceOption.map fun i => "[" ++ toString i ++ "]") ++ "`"
  else "Input field '" ++ field ++ "'"

mutual

def walk (field : String) (path : List (Option Nat)) : Json → Rendering Json
  | .str s =>
    match classify s with
    | .literal => (.ok (.str s), [])
    | .single expr =>
      let (result, calls) := evalSingle render fromStr expr
      (result.mapError fun e => e.context (location field path), calls)
    | .mixed =>
      (.error { root := .other (location field path ++
        ": a json field takes a literal value or a single \x7b\x7b expression \x7d\x7d") }, [])
  | .obj fields =>
    let (result, calls) := walkFields field path fields
    (result.map .obj, calls)
  | .arr items =>
    let (result, calls) := walkItems field path 0 items
    (result.map .arr, calls)
  | .null => (.ok .null, [])
  | .bool b => (.ok (.bool b), [])
  | .num n => (.ok (.num n), [])

def walkFields (field : String) (path : List (Option Nat)) :
    List (String × Json) → Rendering (List (String × Json))
  | [] => (.ok [], [])
  | (k, v) :: rest =>
    match walk field (path ++ [none]) v with
    | (.error e, calls) => (.error e, calls)
    | (.ok rendered, calls) =>
      let (result, calls') := walkFields field path rest
      (result.map ((k, rendered) :: ·), calls ++ calls')

def walkItems (field : String) (path : List (Option Nat)) (i : Nat) :
    List Json → Rendering (List Json)
  | [] => (.ok [], [])
  | v :: rest =>
    match walk field (path ++ [some i]) v with
    | (.error e, calls) => (.error e, calls)
    | (.ok rendered, calls) =>
      let (result, calls') := walkItems field path (i + 1) rest
      (result.map (rendered :: ·), calls ++ calls')

end

def renderJsonValueWith (value : Json) (field : String) : Rendering Json :=
  walk render fromStr field [] value

end Render

/-! ## `lint_json_value` -/

structure JsonLint where
  mixed : Bool := false
  encodesToText : Bool := false
  deriving DecidableEq

def behindLastBar (text : List Char) : Option (List Char) :=
  if '|' ∈ text then some (text.reverse.takeWhile (· ≠ '|')).reverse else none

def endsInJsonEncode (inner : String) : Bool :=
  match behindLastBar inner.toList with
  | none => false
  | some last =>
    match (Foundation.trim last).dropPrefix? "json_encode".toList with
    | none => false
    | some rest => rest.isEmpty || rest.head? = some '('

mutual

def lintWalk (lint : JsonLint) : Json → JsonLint
  | .str s =>
    match classify s with
    | .mixed => { lint with mixed := true }
    | .single expr =>
      if endsInJsonEncode expr.inner then { lint with encodesToText := true } else lint
    | .literal => lint
  | .obj fields => lintWalkFields lint fields
  | .arr items => lintWalkItems lint items
  | .null | .bool _ | .num _ => lint

def lintWalkFields (lint : JsonLint) :
    List (String × Json) → JsonLint
  | [] => lint
  | (_, v) :: fields => lintWalkFields (lintWalk lint v) fields

def lintWalkItems (lint : JsonLint) : List Json → JsonLint
  | [] => lint
  | v :: items => lintWalkItems (lintWalk lint v) items

end

def lintJsonValue (value : Json) : JsonLint := lintWalk {} value

end Stroem.JsonField
