import Stroem.Foundation.ShellScript
import Stroem.Kubernetes

/-!
# Running a script file in a container

The command for a script file passes a plain shell file through, or is a shell script: the
interpreter of the action, or a chain that looks for the interpreters of the language, installs the
dependencies and hands over the file with its arguments.
-/

namespace Stroem.ScriptExec

open Foundation Shell
open Kubernetes (ScriptLanguage)

def asStr : ScriptLanguage → String
  | .shell => "shell"
  | .python => "python"
  | .javaScript => "javascript"
  | .typeScript => "typescript"
  | .go => "go"

def toolchainPreferences : ScriptLanguage → List (String × List String)
  | .shell => [("bash", []), ("sh", [])]
  | .python => [("uv", ["run"]), ("python3", []), ("python", [])]
  | .javaScript => [("bun", ["run"]), ("node", [])]
  | .typeScript => [("bun", ["run"]), ("deno", ["run"])]
  | .go => [("go", ["run"])]

def shellEscape (s : String) : String := "'" ++ s.replace "'" "'\\''" ++ "'"

def escapedList (items : List String) : String := " ".intercalate (items.map shellEscape)

def buildDepInstallPrefix (lang : ScriptLanguage) (binary : String) (deps : List String) :
    Option String :=
  if deps = [] then none
  else
    match lang with
    | .python =>
      if binary = "uv" then none
      else some (binary ++ " -m pip install -q " ++ escapedList deps)
    | .javaScript | .typeScript =>
      if binary = "bun" then some ("bun install " ++ escapedList deps)
      else if binary = "node" then some ("npm install --no-save " ++ escapedList deps)
      else none
    | _ => none

def branchText (sep : String) (lang : ScriptLanguage) (deps : List String) (binary : String)
    (preArgs : List String) (escapedPath argsSuffix : String) : String :=
  if binary = "uv" ∧ deps ≠ [] then
    binary ++ " run " ++ " ".intercalate (deps.map fun d => "--with " ++ shellEscape d) ++ " " ++
      escapedPath ++ argsSuffix
  else
    let install := match buildDepInstallPrefix lang binary deps with
      | some installCmd => installCmd ++ sep
      | none => ""
    let pre := " ".intercalate preArgs
    if pre = "" then install ++ (binary ++ " " ++ escapedPath ++ argsSuffix)
    else install ++ (binary ++ " " ++ pre ++ " " ++ escapedPath ++ argsSuffix)

def chainText (keyword : String) (lang : ScriptLanguage) (deps : List String)
    (escapedPath argsSuffix : String) : List (String × List String) → String
  | [] => ""
  | (binary, preArgs) :: prefs =>
    keyword ++ " command -v " ++ binary ++ " >/dev/null 2>&1; then\n  " ++
      branchText "\n  " lang deps binary preArgs escapedPath argsSuffix ++ "\n" ++
        chainText "elif" lang deps escapedPath argsSuffix prefs

def elseText (lang : ScriptLanguage) : String :=
  "else\n  echo \x22Error: no interpreter found for '" ++ asStr lang ++ "'. Tried: " ++
    ", ".intercalate ((toolchainPreferences lang).map (·.1)) ++ "\x22 >&2\n  exit 127\nfi"

def preArgsOf (lang : ScriptLanguage) (interp : String) : List String :=
  (((toolchainPreferences lang).find? (·.1 == interp)).map (·.2)).getD []

def buildContainerFileCmd (filePath : String) (lang : ScriptLanguage) (deps : List String)
    (interpreterOverride : Option String) (scriptArgs : List String) : List String :=
  let argsSuffix := if scriptArgs = [] then "" else " " ++ escapedList scriptArgs
  if lang = .shell ∧ deps = [] ∧ interpreterOverride = none then
    if scriptArgs = [] then ["sh", "-c", filePath]
    else ["sh", "-c", filePath, "sh"] ++ scriptArgs
  else
    let escapedPath := shellEscape filePath
    match interpreterOverride with
    | some interp =>
      ["sh", "-c",
        branchText "\n" lang deps interp (preArgsOf lang interp) escapedPath argsSuffix]
    | none =>
      ["sh", "-c", chainText "if" lang deps escapedPath argsSuffix (toolchainPreferences lang) ++
        elseText lang]

/-! ## What it is to run the file -/

def installs (lang : ScriptLanguage) (binary : String) (deps : List String) : List (List String) :=
  if deps = [] then []
  else
    match lang with
    | .python => if binary = "uv" then [] else [[binary, "-m", "pip", "install", "-q"] ++ deps]
    | .javaScript | .typeScript =>
      if binary = "bun" then [["bun", "install"] ++ deps]
      else if binary = "node" then [["npm", "install", "--no-save"] ++ deps]
      else []
    | _ => []

def lookup (binary : String) : List String := ["command", "-v", binary]

def executes (env : Shell.Env) (command : List String) : Option (List (List String)) :=
  match invocation command with
  | some ⟨_, [], script, _⟩ => Shell.run env script.toList
  | _ => none

variable {env : Shell.Env} {r : Shell.Run} {name : String} {line : List Shell.Arg}

theorem toList_shellEscape (s : String) : (shellEscape s).toList = (quoted s).written :=
  quote_replace s

variable {lang : ScriptLanguage} {deps preArgs args : List String} {binary path : String}

variable {nest : List Phase} {trace : List (List String)}

/-! ## The branches of the chain -/

def suffix (args : List String) : String := if args = [] then "" else " " ++ escapedList args

variable {prefs : List (String × List String)}

def message (lang : ScriptLanguage) : String :=
  "Error: no interpreter found for '" ++ asStr lang ++ "'. Tried: " ++
    ", ".intercalate ((toolchainPreferences lang).map (·.1))

variable {interp : String}

/-- The file is run faithfully: nothing in the interpreter or in the plain path means anything to
the shell. -/
def Kept (path : String) (lang : ScriptLanguage) (deps : List String)
    (interpreterOverride : Option String) (args : List String) : Prop :=
  match interpreterOverride with
  | some interp => isOption interp = false ∧ interp ∉ reserved ∧
      (interp ∈ specialBuiltins → installs lang interp deps = [])
  | none => lang = .shell ∧ deps = [] → args = [] ∧ isOption path = false ∧
      Bare path.toList ∧ ¬ IsAssignment path.toList ∧ '/' ∈ path.toList

end Stroem.ScriptExec
