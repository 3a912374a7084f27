import Mathlib.Algebra.GroupWithZero.Nat
import Mathlib.Algebra.Group.Int.Defs
import Stroem.Json

/-!
# Template conditions and loop expressions

The template engine and the JSON parser are third-party code: they enter as the fields of
`TemplateEnv`.  What the repository computes from their results is written out here.
-/

namespace Stroem

inductive JsonErrorCategory where
  | io
  | syntaxError
  | data
  | eof
  deriving DecidableEq

def JsonErrorCategory.debugText : JsonErrorCategory → String
  | .io => "Io"
  | .syntaxError => "Syntax"
  | .data => "Data"
  | .eof => "Eof"

structure JsonParseError where
  category : JsonErrorCategory
  line : Nat
  column : Nat
  deriving DecidableEq

/--
The functions the cascade calls and this development does not define: Tera's rendering (an
error carries its `{:#}` text), `serde_json::from_str`, and the secret scrubber.
-/
structure TemplateEnv where
  renderTemplate : String → Json → Except String String
  fromStr : String → Except JsonParseError Json
  redactSecretsInStr : String → List String → String

/-! ## `when` conditions -/

def isWhiteSpace (c : Char) : Bool :=
  let n := c.toNat
  (0x9 ≤ n && n ≤ 0xd) || n == 0x20 || n == 0x85 || n == 0xa0 || n == 0x1680 ||
    (0x2000 ≤ n && n ≤ 0x200a) || n == 0x2028 || n == 0x2029 || n == 0x202f ||
    n == 0x205f || n == 0x3000

def trim (s : String) : List Char :=
  ((s.toList.dropWhile isWhiteSpace).reverse.dropWhile isWhiteSpace).reverse

def decimalValue (digits : List Char) : Nat :=
  digits.foldl (fun n c => 10 * n + (c.toNat - '0'.toNat)) 0

def floatExponent : List Char → Option Int
  | [] => some 0
  | c :: rest =>
    if c = 'e' ∨ c = 'E' then
      let (negative, digits) :=
        match rest with
        | '-' :: digits => (true, digits)
        | '+' :: digits => (false, digits)
        | digits => (false, digits)
      if digits.isEmpty || !digits.all Char.isDigit then none
      else if negative then some (-(decimalValue digits : Int))
      else some (decimalValue digits)
    else none

/--
`text.parse::<f64>().is_ok_and(|n| n == 0.0)`: a decimal literal whose value rounds to zero.
A double rounds to zero exactly from `2 ^ (-1075)` down.
-/
def parsesToZero (text : List Char) : Bool :=
  let unsigned :=
    match text with
    | '-' :: rest => rest
    | '+' :: rest => rest
    | rest => rest
  let (whole, rest) := unsigned.span Char.isDigit
  let (fraction, rest) :=
    match rest with
    | '.' :: rest => rest.span Char.isDigit
    | rest => ([], rest)
  if whole.isEmpty && fraction.isEmpty then false
  else
    match floatExponent rest with
    | none => false
    | some e =>
      let mantissa := decimalValue (whole ++ fraction)
      let scale := e - fraction.length
      if 0 ≤ scale then mantissa == 0
      else mantissa * 2 ^ 1075 ≤ 10 ^ scale.natAbs

def isFalsy (rendered : String) : Bool :=
  let trimmed := trim rendered
  let lower := String.ofList (trimmed.map Char.toLower)
  lower == "" || lower == "false" || lower == "null" || lower == "none" || lower == "[]" ||
    lower == "\x7b\x7d" || parsesToZero trimmed

def evaluateCondition (env : TemplateEnv) (template : String) (context : Json) :
    Except String Bool :=
  match env.renderTemplate template context with
  | .error e => .error e
  | .ok rendered => .ok (!isFalsy rendered)

/-! ## `for_each` expressions -/

def renderForEachTemplate (env : TemplateEnv) (template : String) (renderCtx : Json) :
    Except String (List Json) :=
  match env.renderTemplate template renderCtx with
  | .error e => .error ("Failed to render for_each template: " ++ e)
  | .ok rendered =>
    match env.fromStr rendered with
    | .error e =>
      .error ("for_each must render a JSON array; the rendered text (" ++
        toString rendered.utf8ByteSize ++ " bytes) is not valid JSON (" ++
        e.category.debugText ++ " error at line " ++ toString e.line ++ ", column " ++
        toString e.column ++ "). Render arrays and objects with `| json_encode()`, " ++
        "e.g. \x7b\x7b step.output.items | json_encode() \x7d\x7d")
    | .ok (.arr items) => .ok items
    | .ok other => .error ("for_each must render a JSON array, got a JSON " ++ other.typeName)

def parseForEachItems (env : TemplateEnv) (expr : String) (renderCtx : Json) :
    Except String (List Json) :=
  match env.fromStr expr with
  | .ok (.arr items) => .ok items
  | .ok (.str template) => renderForEachTemplate env template renderCtx
  | .ok other => .error ("for_each must render a JSON array, got a JSON " ++ other.typeName)
  | .error _ => renderForEachTemplate env expr renderCtx

def literalEnv : TemplateEnv where
  renderTemplate template _ := .ok template
  fromStr text :=
    if text = "[1,2,3]" then .ok (.arr [.num (.int 1), .num (.int 2), .num (.int 3)])
    else .error ⟨.syntaxError, 1, 1⟩
  redactSecretsInStr text _ := text

end Stroem
