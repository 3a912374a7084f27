import Stroem.Foundation.Shell
import Stroem.Kubernetes

/-!
# The command behind the startup scripts

A container's command is wrapped in a shell that sources the startup scripts first.  A shell script
stays the script of the same shell; any other command becomes the arguments of `exec`, and loses the
arguments that are empty.
-/

namespace Stroem.Kubernetes

open Foundation Shell

/-! ## What a command executes -/

inductive Execution where
  | script (shell : Shell.Invocation)
  | program (argv : List String)

def ShellForm : List String → Prop
  | shell :: flag :: _ :: _ => (shell = "sh" ∨ shell = "bash") ∧ flag = "-c"
  | _ => False

instance : DecidablePred ShellForm := fun command => by
  unfold ShellForm
  split <;> infer_instance

def execution (command : List String) : Option Execution :=
  if ShellForm command then (invocation command).map .script else some (.program command)

def execOption (name : String) : Prop := name.toList.head? = some '-' ∧ name ≠ "-"

instance : DecidablePred execOption := fun _ => inferInstanceAs (Decidable (_ ∧ _))

/-- A shell whose script is one `exec` is replaced by the program, unless `exec` takes its name for
an option. -/
def settled (env : Shell.Env) : Execution → Execution
  | .program argv => .program argv
  | .script shell =>
    match shell.options, Shell.run env shell.script.toList with
    | [], some [exec :: name :: args] =>
      if exec = "exec" ∧ ¬ execOption name then .program (name :: args) else .script shell
    | _, _ => .script shell

def afterStartup (command : List Json) : Option Execution := do
  let strings ← command.mapM Json.asStr
  let shell ← invocation strings
  if shell.options = [] ∧ startupPreamble.toList <+: shell.script.toList then
    some (.script { shell with
      script := String.ofList (shell.script.toList.drop startupPreamble.toList.length) })
  else none

def Preserves (command : List String) (wrapped : Option Json) : Prop :=
  match command with
  | [] => wrapped = some (.arr [])
  | _ => ∃ items e e', wrapped = some (.arr items) ∧ execution command = some e ∧
      afterStartup items = some e' ∧ ∀ env, settled env e' = settled env e

/-- The script is not taken for an option; or no argument is empty and `exec` takes the program for
none. -/
def Unharmed (command : List String) : Prop :=
  if ShellForm command then ∀ script ∈ command[2]?, isOption script = false
  else "" ∉ command ∧ ∀ name ∈ command.head?, ¬ execOption name

/-! ## The arguments of `exec` -/

def partOf (s : String) : Shell.Arg :=
  if s.toList.all isPlain then .bare s.toList else .quoted s.toList

theorem isLiteral_of_isPlain {c : Char} (h : isPlain c = true) :
    isLiteral c = true ∧ c ≠ '#' ∧ c ≠ '~' := by
  refine ⟨isLiteral_of fun hmem => ?_, ?_, ?_⟩
  · have hall : " \t\n;&|<>()\x27\x22\x5c\x60$*?[".toList.all (fun c => !isPlain c) = true := by
      decide
    have hnot := List.all_eq_true.mp hall c hmem
    rw [h] at hnot
    cases hnot
  all_goals
    rintro rfl
    exact absurd h (by decide)

theorem partOf_legal (s : String) : (partOf s).Legal := by
  unfold partOf
  split
  · next h =>
      have hplain := List.all_eq_true.mp h
      by_cases hnil : s.toList = []
      · exact .inl hnil
      · refine .inr ⟨hnil, fun c hc => (isLiteral_of_isPlain (hplain c hc)).1, ?_, ?_⟩
        · intro hhead
          exact (isLiteral_of_isPlain (hplain _ (List.mem_of_mem_head? hhead))).2.1 rfl
        · intro hhead
          exact (isLiteral_of_isPlain (hplain _ (List.mem_of_mem_head? hhead))).2.2 rfl
  · trivial

theorem toList_shellEscape (s : String) : (shellEscape s).toList = (partOf s).written := by
  unfold shellEscape partOf
  split
  · rfl
  · exact quote_replace s

theorem value?_partOf (s : String) :
    (partOf s).value? = if s = "" then none else some s.toList := by
  unfold partOf
  split
  · simp only [Arg.value?, String.toList_eq_nil_iff]
  · next h =>
      have hne : s ≠ "" := by
        rintro rfl
        exact h rfl
      rw [if_neg hne]
      rfl

theorem values_partOf (command : List String) :
    ((command.map partOf).filterMap Arg.value?).map String.ofList =
      command.filter (· ≠ "") := by
  induction command with
  | nil => rfl
  | cons s command ih =>
    rw [List.map_cons, List.filterMap_cons, value?_partOf, List.filter_cons]
    by_cases h : s = ""
    · simpa [h] using ih
    · simpa [h] using ih

def execText (command : List String) : String :=
  "exec " ++ " ".intercalate (command.map shellEscape)

theorem toList_execText {command : List String} (h : command ≠ []) :
    (execText command).toList =
      (Arg.bare "exec".toList).written ++ (command.map partOf).flatMap (' ' :: ·.written) := by
  cases command with
  | nil => exact absurd rfl h
  | cons name args =>
    rw [execText, List.map_cons, String.toList_append, toList_intercalate_blank, List.map_cons,
      List.flatMap_cons, List.flatMap_map, List.flatMap_map, toList_shellEscape]
    simp only [toList_shellEscape]
    rfl

theorem run_execText (env : Shell.Env) {command : List String} (h : command ≠ []) :
    Shell.run env (execText command).toList = some ["exec" :: command.filter (· ≠ "")] := by
  have hexec : (Arg.bare "exec".toList).Legal :=
    .inr ⟨by decide, List.all_eq_true.mp (by decide), by decide⟩
  have hlegal : ∀ a ∈ Arg.bare "exec".toList :: command.map partOf, a.Legal := by
    refine List.forall_mem_cons.mpr ⟨hexec, fun a ha => ?_⟩
    obtain ⟨s, -, rfl⟩ := List.mem_map.mp ha
    exact partOf_legal s
  have hargs : Shell.argv env ((Arg.bare "exec".toList :: command.map partOf).filterMap Arg.word?) =
      "exec" :: command.filter (· ≠ "") := by
    rw [argv_args hlegal (by rintro w ⟨⟩; rfl), ← values_partOf]
    rfl
  rw [toList_execText h, run_line (read_args hlegal) (by rintro w ⟨⟩; rfl), hargs]
  rw [hargs]
  exact List.cons_ne_nil _ _

/-! ## The wrapped command -/

theorem afterStartup_script {shell : String} (hshell : shell = "sh" ∨ shell = "bash")
    (text : String) (params : List String) :
    afterStartup (.str shell :: .str "-c" :: .str (startupPreamble ++ text) :: params.map .str) =
      some (.script ⟨shell, [], text, params⟩) := by
  have hmap : (Json.str shell :: .str "-c" :: .str (startupPreamble ++ text) ::
      params.map .str).mapM Json.asStr =
        some (shell :: "-c" :: (startupPreamble ++ text) :: params) := by
    have hparams : (params.map Json.str).mapM Json.asStr = some params := by
      induction params with
      | nil => rfl
      | cons param params ih =>
        rw [List.map_cons, List.mapM_cons, ih]
        rfl
    simp only [List.mapM_cons, hparams]
    rfl
  have hoption : isOption (startupPreamble ++ text) = false := by
    rw [isOption, String.toList_append]
    rfl
  have hinvocation : invocation (shell :: "-c" :: (startupPreamble ++ text) :: params) =
      some ⟨shell, [], startupPreamble ++ text, params⟩ := by
    have hmem : shell ∈ ["sh", "bash"] := by
      obtain rfl | rfl := hshell <;> decide
    rw [invocation, if_pos hmem, List.dropWhile_cons, hoption, if_neg Bool.false_ne_true,
      List.takeWhile_cons, hoption]
    rfl
  have hwithin : startupPreamble.toList <+: (startupPreamble ++ text).toList := by
    rw [String.toList_append]
    exact List.prefix_append _ _
  rw [afterStartup, hmap]
  change (invocation _).bind _ = _
  rw [hinvocation, Option.bind_some, if_pos ⟨rfl, hwithin⟩, String.toList_append, List.drop_left,
    String.ofList_toList]

theorem wrapCommand_script {shell : String} (hshell : shell = "sh" ∨ shell = "bash")
    (text : String) (params : List String) :
    wrapCommand ((shell :: "-c" :: text :: params).map .str) =
      .str shell :: .str "-c" :: .str (startupPreamble ++ text) :: params.map .str := by
  have hform : (Json.str shell = .str "sh" ∨ Json.str shell = .str "bash") ∧
      Json.str "-c" = .str "-c" := by
    obtain rfl | rfl := hshell
    · exact ⟨.inl rfl, rfl⟩
    · exact ⟨.inr rfl, rfl⟩
  rw [List.map_cons, List.map_cons, List.map_cons, wrapCommand, if_pos hform]
  rfl

theorem wrapExec_strings (command : List String) :
    wrapExec (command.map .str) =
      [.str "sh", .str "-c", .str (startupPreamble ++ execText command)] := by
  have hparts : (command.map Json.str).filterMap (fun part => part.asStr.map shellEscape) =
      command.map shellEscape := by
    rw [List.filterMap_map]
    exact List.filterMap_eq_map.symm ▸ rfl
  rw [wrapExec, hparts, execText, String.append_assoc]

theorem wrapCommand_program {command : List String} (h : ¬ ShellForm command) :
    wrapCommand (command.map .str) = wrapExec (command.map .str) := by
  match command with
  | [] | [_] | [_, _] => rfl
  | shell :: flag :: text :: params =>
    rw [List.map_cons, List.map_cons, List.map_cons, wrapCommand, if_neg]
    rintro ⟨hshell, hflag⟩
    refine h ⟨?_, Json.str.inj hflag⟩
    obtain hshell | hshell := hshell
    · exact .inl (Json.str.inj hshell)
    · exact .inr (Json.str.inj hshell)

theorem field_wrapCommandWithStartup {container : Json} {command : List String}
    (h : field "command" container = some (.arr (command.map .str))) (hne : command ≠ []) :
    field "command" (wrapCommandWithStartup container) =
      some (.arr (wrapCommand (command.map .str))) := by
  have hitems : (field "command" container).bind asArray = some (command.map .str) := by
    rw [h]
    rfl
  obtain ⟨fields, rfl⟩ : ∃ fields, container = .obj fields := by
    cases container <;> first | exact ⟨_, rfl⟩ | cases h
  unfold wrapCommandWithStartup
  rw [hitems]
  cases command with
  | nil => exact absurd rfl hne
  | cons name args => exact Fields.get_insert_self _ _ _

variable {command : List String}

theorem preserves_script {shell : String} (hshell : shell = "sh" ∨ shell = "bash")
    (text : String) (params : List String) :
    Preserves (shell :: "-c" :: text :: params)
        (some (.arr (wrapCommand ((shell :: "-c" :: text :: params).map .str)))) ↔
      isOption text = false := by
  have hform : ShellForm (shell :: "-c" :: text :: params) := ⟨hshell, rfl⟩
  have hmem : shell ∈ ["sh", "bash"] := by
    obtain rfl | rfl := hshell <;> decide
  have hexecution : execution (shell :: "-c" :: text :: params) =
      (invocation (shell :: "-c" :: text :: params)).map .script := if_pos hform
  rw [wrapCommand_script hshell]
  constructor
  · rintro ⟨items, e, e', hitems, he, he', hsettled⟩
    cases hitems
    rw [afterStartup_script hshell] at he'
    cases he'
    by_contra hoption
    rw [Bool.not_eq_false] at hoption
    rw [hexecution, invocation, if_pos hmem, List.takeWhile_cons, List.dropWhile_cons, hoption,
      if_pos rfl, if_pos rfl] at he
    have henv := hsettled ⟨fun _ => true, fun _ => [], fun _ => false⟩
    split at he
    · cases he
      unfold settled at henv
      dsimp only at henv
      split at henv
      · split at henv <;> cases henv
      · cases henv
    · cases he
  · intro hoption
    refine ⟨_, _, _, rfl, ?_, afterStartup_script hshell text params, fun _ => rfl⟩
    rw [hexecution, invocation, if_pos hmem, List.takeWhile_cons, List.dropWhile_cons, hoption,
      if_neg Bool.false_ne_true]
    rfl

theorem settled_execText (env : Shell.Env) (hne : command ≠ []) :
    settled env (.script ⟨"sh", [], execText command, []⟩) =
      match command.filter (· ≠ "") with
      | name :: args =>
        if execOption name then .script ⟨"sh", [], execText command, []⟩
        else .program (name :: args)
      | [] => .script ⟨"sh", [], execText command, []⟩ := by
  unfold settled
  dsimp only
  rw [run_execText env hne]
  cases command.filter (· ≠ "") with
  | nil => rfl
  | cons name args => simp

theorem preserves_program (hne : command ≠ []) (hform : ¬ ShellForm command) :
    Preserves command (some (.arr (wrapCommand (command.map .str)))) ↔
      "" ∉ command ∧ ∀ name ∈ command.head?, ¬ execOption name := by
  have hexecution : execution command = some (.program command) := if_neg hform
  have hafter : afterStartup (wrapCommand (command.map .str)) =
      some (.script ⟨"sh", [], execText command, []⟩) := by
    rw [wrapCommand_program hform, wrapExec_strings]
    exact afterStartup_script (.inl rfl) _ []
  have hpreserves : Preserves command (some (.arr (wrapCommand (command.map .str)))) ↔
      ∀ env, settled env (.script ⟨"sh", [], execText command, []⟩) = .program command := by
    cases command with
    | nil => exact absurd rfl hne
    | cons name args =>
      constructor
      · rintro ⟨items, e, e', hitems, he, he', hsettled⟩
        cases hitems
        rw [hexecution] at he
        rw [hafter] at he'
        cases he
        cases he'
        exact hsettled
      · exact fun h => ⟨_, _, _, rfl, hexecution, hafter, h⟩
  rw [hpreserves]
  constructor
  · intro h
    have hsettled := h ⟨fun _ => true, fun _ => [], fun _ => false⟩
    rw [settled_execText _ hne] at hsettled
    split at hsettled
    · next name args hfilter =>
        split at hsettled
        · cases hsettled
        · next hoption =>
            have hall : command.filter (· ≠ "") = command := by
              rw [hfilter]
              exact Execution.program.inj hsettled
            refine ⟨fun hmem => ?_, fun first hfirst => ?_⟩
            · have hkept := List.filter_eq_self.mp hall _ hmem
              exact absurd hkept (by decide)
            · rw [← hall, hfilter] at hfirst
              cases hfirst
              exact hoption
    · cases hsettled
  · rintro ⟨hempty, hhead⟩ env
    have hall : command.filter (· ≠ "") = command := by
      refine List.filter_eq_self.mpr fun s hs => decide_eq_true ?_
      rintro rfl
      exact hempty hs
    rw [settled_execText env hne, hall]
    cases command with
    | nil => exact absurd rfl hne
    | cons name args => exact if_neg (hhead name rfl)

theorem wrapCommandWithStartup_preserves_iff (container : Json) (command : List String)
    (h : field "command" container = some (.arr (command.map .str))) :
    Preserves command (field "command" (wrapCommandWithStartup container)) ↔
      Unharmed command := by
  by_cases hne : command = []
  · subst hne
    have hsame : wrapCommandWithStartup container = container := by
      unfold wrapCommandWithStartup
      rw [h]
      rfl
    have hform : ¬ ShellForm [] := id
    rw [hsame, Unharmed, if_neg hform]
    exact ⟨fun _ => ⟨List.not_mem_nil, fun _ h => by cases h⟩, fun _ => h⟩
  · rw [field_wrapCommandWithStartup h hne, Unharmed]
    split
    · next hform =>
        match command with
        | [] | [_] | [_, _] => exact absurd hform id
        | shell :: flag :: text :: params =>
          obtain ⟨hshell, rfl⟩ := hform
          rw [preserves_script hshell]
          exact ⟨fun h script hs => by cases hs; exact h, fun h => h text rfl⟩
    · next hform => exact preserves_program hne hform

theorem wrapCommandWithStartup_preserves_args :
    field "command" (.obj [("command", Json.ofStrings ["printf", "%s|", "it's", "a b", ";"])]) =
        some (.arr (["printf", "%s|", "it's", "a b", ";"].map .str)) ∧
      Preserves ["printf", "%s|", "it's", "a b", ";"] (field "command" (wrapCommandWithStartup
        (.obj [("command", Json.ofStrings ["printf", "%s|", "it's", "a b", ";"])]))) :=
  ⟨rfl, (wrapCommandWithStartup_preserves_iff _ _ rfl).mpr (by
    rw [Unharmed, if_neg (by decide)]
    exact ⟨by decide, by rintro name ⟨⟩; decide⟩)⟩

theorem wrapCommandWithStartup_drops_empty :
    ¬ ∀ (container : Json) (command : List String),
      field "command" container = some (.arr (command.map .str)) →
        Preserves command (field "command" (wrapCommandWithStartup container)) := by
  intro h
  have hkept := h (.obj [("command", Json.ofStrings ["printf", "%s|", "", "b"])])
    ["printf", "%s|", "", "b"] rfl
  rw [field_wrapCommandWithStartup rfl (by decide), preserves_program (by decide) (by decide)]
    at hkept
  exact absurd hkept.1 (by decide)

end Stroem.Kubernetes
