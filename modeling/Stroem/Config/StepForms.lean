import Stroem.Config
import Stroem.Duration

/-!
# The two forms of a flow step

A step refers to an action by name or defines one inline.  The reference form is read by a derived
struct, which rejects the step if one of its fields does not have its type.  The inline form takes
the same fields out of the mapping one by one, and most of them fall back to their default where
the struct fails.
-/

namespace Stroem.Config

open Foundation

/-! ## Values -/

inductive Yaml where
  | null
  | bool (b : Bool)
  | number (n : JsonNumber)
  | string (s : String)
  | sequence (items : List Yaml)
  | mapping (entries : List (Yaml × Yaml))
  | tagged (tag : String) (value : Yaml)

abbrev Mapping := List (Yaml × Yaml)

namespace Yaml

def untag : Yaml → Yaml
  | tagged _ value => value.untag
  | value => value

@[simp] theorem untag_mapping (entries : List (Yaml × Yaml)) :
    (mapping entries).untag = mapping entries :=
  rfl

def isNull : Yaml → Bool
  | null => true
  | _ => false

def asStr (value : Yaml) : Option String :=
  match value.untag with
  | string s => some s
  | _ => none

def asBool (value : Yaml) : Option Bool :=
  match value.untag with
  | bool b => some b
  | _ => none

def humanDuration : Yaml → Option Nat
  | number (.int n) => if n ≤ 0 then none else some n.toNat
  | string s => (Duration.parseDuration s).toOption
  | _ => none

def isKey (key : String) : Yaml → Bool
  | string s => s == key
  | _ => false

end Yaml

def hasKey (key : String) (mapping : Mapping) : Bool :=
  mapping.any fun entry => entry.1.isKey key

def lookupKey (key : String) (mapping : Mapping) : Option Yaml :=
  (mapping.find? fun entry => entry.1.isKey key).map Prod.snd

structure FromValue where
  dependsOn : Yaml → Option (List DependsOnEntry)
  retryConfig : Yaml → Option RetryConfig
  json : Yaml → Option Json
  jsonMap : Yaml → Option (Dict String Json)
  inputFieldDef : Yaml → Option InputFieldDef
  actionDef : Mapping → Option ActionDef
  reread : Json → Option Json

inductive StepError where
  | custom (message : String)
  | value (context : String)
  deriving DecidableEq

/-! ## The reference form -/

/-- The entries of a mapping as a derived struct takes them: every key is a string, and a field
stands at most once. -/
def structFields (known : List String) (mapping : Mapping) : Option (List (String × Yaml)) := do
  let fields ← mapping.mapM fun entry => entry.1.asStr.map fun key => (key, entry.2)
  if ((fields.map Prod.fst).filter known.contains).Nodup then some fields else none

def field {α : Type} (convert : Yaml → Option α) (absent : Option α)
    (fields : List (String × Yaml)) (key : String) : Option α :=
  match fields.lookup key with
  | some value => convert value
  | none => absent

def optional {α : Type} (convert : Yaml → Option α) (value : Yaml) : Option (Option α) :=
  if value.isNull then some none else (convert value).map some

def readStepFields (values : FromValue) (fields : List (String × Yaml)) : Option StepFields := do
  let name ← field (optional Yaml.asStr) (some none) fields "name"
  let description ← field (optional Yaml.asStr) (some none) fields "description"
  let dependsOn ← field values.dependsOn (some []) fields "depends_on"
  let continueOnFailure ← field Yaml.asBool (some false) fields "continue_on_failure"
  let timeout ← field (optional Yaml.humanDuration) (some none) fields "timeout"
  let condition ← field (optional Yaml.asStr) (some none) fields "when"
  let forEach ← field (optional values.json) (some none) fields "for_each"
  let sequential ← field Yaml.asBool (some false) fields "sequential"
  let retry ← field (optional values.retryConfig) (some none) fields "retry"
  return {
    name, description, dependsOn, continueOnFailure, timeout, «when» := condition,
    forEach, sequential, retry }

def refStepKeys : List String :=
  ["action", "name", "description", "depends_on", "input", "continue_on_failure",
    "continue_when_skipped", "timeout", "when", "for_each", "sequential", "retry", "ref"]

def refStep (values : FromValue) (mapping : Mapping) : Option FlowStep := do
  let fields ← structFields refStepKeys mapping
  let action ← field Yaml.asStr none fields "action"
  let input ← field values.jsonMap (some ∅) fields "input"
  let legacy ← field (optional Yaml.asBool) (some none) fields "continue_when_skipped"
  let gitRef ← field (optional Yaml.asStr) (some none) fields "ref"
  let stepFields ← readStepFields values fields
  return { stepFields with action, input, legacyContinueWhenSkipped := legacy, gitRef }

/-! ## The inline form -/

def stepFieldKeys : List String :=
  ["name", "description", "depends_on", "input", "continue_on_failure", "continue_when_skipped",
    "timeout", "when", "for_each", "sequential", "retry"]

def isStepField (entry : Yaml × Yaml) : Bool :=
  stepFieldKeys.contains (entry.1.asStr.getD "")

def rawInput (stepMap : Mapping) : Dict String Yaml :=
  match (lookupKey "input" stepMap).map Yaml.untag with
  | some (.mapping entries) =>
    match entries.mapM fun entry => entry.1.asStr.map fun key => (key, entry.2) with
    | some fields => insertPairs ∅ fields
    | none => ∅
  | _ => ∅

def splitInput (values : FromValue) :
    List (String × Yaml) → Dict String Json → Mapping →
      Except StepError (Dict String Json × Mapping)
  | [], stepInput, schema => .ok (stepInput, schema)
  | (key, value) :: rest, stepInput, schema =>
    if (values.inputFieldDef value).isSome then
      splitInput values rest stepInput (schema ++ [(.string key, value)])
    else
      match values.json value with
      | some json => splitInput values rest (stepInput.insert key json) schema
      | none =>
        .error (.value ("failed to convert input field '" ++ key ++ "' to JSON: "))

def orError {α : Type} (context : String) : Option α → Except StepError α
  | some value => .ok value
  | none => .error (.value context)

def keepStepFields (values : FromValue) (dependsOn : List DependsOnEntry) (stepMap : Mapping) :
    StepFields where
  name := (lookupKey "name" stepMap).bind Yaml.asStr
  description := (lookupKey "description" stepMap).bind Yaml.asStr
  dependsOn := dependsOn
  continueOnFailure := ((lookupKey "continue_on_failure" stepMap).bind Yaml.asBool).getD false
  timeout := (lookupKey "timeout" stepMap).bind Yaml.humanDuration
  «when» := (lookupKey "when" stepMap).bind Yaml.asStr
  forEach := (lookupKey "for_each" stepMap).bind fun value =>
    (values.json value).bind values.reread
  sequential := ((lookupKey "sequential" stepMap).bind Yaml.asBool).getD false
  retry := (lookupKey "retry" stepMap).bind values.retryConfig

def inlineStep (values : FromValue) (mapping : Mapping) : Except StepError FlowStep := do
  let stepMap := mapping.filter isStepField
  let actionMap := mapping.filter fun entry => !isStepField entry
  let (stepInput, schema) ← splitInput values (pairs (rawInput stepMap)) ∅ []
  let actionMap :=
    if schema.isEmpty then actionMap else actionMap ++ [(.string "input", .mapping schema)]
  let action ← orError "" (values.actionDef actionMap)
  let dependsOn ←
    match lookupKey "depends_on" stepMap with
    | some value => orError "invalid depends_on: " (values.dependsOn value)
    | none => .ok []
  let legacy ←
    match lookupKey "continue_when_skipped" stepMap with
    | some value => (orError "invalid continue_when_skipped: " value.asBool).map some
    | none => .ok none
  -- the name of the action is set when it is hoisted
  return { keepStepFields values dependsOn stepMap with
    action := "", input := stepInput, legacyContinueWhenSkipped := legacy,
    inlineAction := some action }

def deserialize (values : FromValue) (value : Yaml) : Except StepError FlowStep :=
  match value.untag with
  | .mapping mapping =>
    if hasKey "action" mapping && hasKey "type" mapping then
      .error (.custom
        "flow step cannot have both 'action' and 'type' — use one or the other")
    else if hasKey "action" mapping then orError "" (refStep values mapping)
    else if hasKey "type" mapping then inlineStep values mapping
    else
      .error (.custom
        "flow step must have either 'action' (reference) or 'type' (inline action)")
  | _ => .error (.custom "flow step must be a mapping")

/-! ## The same fields in both forms -/

def stepLevelKeys : List String :=
  ["depends_on", "continue_on_failure", "timeout", "when", "for_each", "sequential", "retry",
    "name", "description"]

structure StepKeys where
  entries : List (String × Yaml)
  known : ∀ entry ∈ entries, entry.1 ∈ stepLevelKeys
  nodup : (entries.map Prod.fst).Nodup

/-- The keys of an inline action: it has a type and parses, and none of its keys is one of the
step's. -/
structure InlineAction (values : FromValue) where
  mapping : Mapping
  action : ActionDef
  parses : values.actionDef mapping = some action
  typed : hasKey "type" mapping = true
  notReference : hasKey "action" mapping = false
  notStep : ∀ entry ∈ mapping, isStepField entry = false

namespace StepKeys

def mapping (step : StepKeys) : Mapping :=
  step.entries.map fun entry => (.string entry.1, entry.2)

def get (step : StepKeys) (key : String) : Option Yaml :=
  step.entries.lookup key

def reference (step : StepKeys) (name : String) : Yaml :=
  .mapping ((.string "action", .string name) :: step.mapping)

def inline {values : FromValue} (step : StepKeys) (action : InlineAction values) : Yaml :=
  .mapping (action.mapping ++ step.mapping)

end StepKeys

def Alike : Except StepError FlowStep → Except StepError FlowStep → Prop
  | .ok reference, .ok inline => reference.toStepFields = inline.toStepFields
  | .error _, .error _ => True
  | _, _ => False

def Kept {α : Type} (convert : Yaml → Option α) (value : Yaml) : Prop :=
  if value.isNull then convert value = none else (convert value).isSome

def KeptJson (values : FromValue) (value : Yaml) : Prop :=
  if value.isNull then (values.json value).bind values.reread = none
  else ∃ json, values.json value = some json ∧ values.reread json = some json

structure WellTyped (values : FromValue) (step : StepKeys) : Prop where
  name : ∀ v, step.get "name" = some v → Kept Yaml.asStr v
  description : ∀ v, step.get "description" = some v → Kept Yaml.asStr v
  continueOnFailure : ∀ v, step.get "continue_on_failure" = some v → v.asBool.isSome
  timeout : ∀ v, step.get "timeout" = some v → Kept Yaml.humanDuration v
  condition : ∀ v, step.get "when" = some v → Kept Yaml.asStr v
  forEach : ∀ v, step.get "for_each" = some v → KeptJson values v
  sequential : ∀ v, step.get "sequential" = some v → v.asBool.isSome
  retry : ∀ v, step.get "retry" = some v → Kept values.retryConfig v

/-! ## Single fields -/

theorem optional_eq_kept {α : Type} {convert : Yaml → Option α} {value : Yaml} :
    optional convert value = some (convert value) ↔ Kept convert value := by
  unfold optional Kept
  by_cases hnull : value.isNull = true
  · rw [if_pos hnull, if_pos hnull, Option.some.injEq, eq_comm]
  · rw [if_neg hnull, if_neg hnull]
    cases convert value with
    | none => exact ⟨fun h => (by cases h), fun h => (by cases h)⟩
    | some a => exact ⟨fun _ => rfl, fun _ => rfl⟩

theorem optional_eq_keptJson {values : FromValue} {value : Yaml} :
    optional values.json value = some ((values.json value).bind values.reread) ↔
      KeptJson values value := by
  unfold optional KeptJson
  by_cases hnull : value.isNull = true
  · rw [if_pos hnull, if_pos hnull, Option.some.injEq, eq_comm]
  · rw [if_neg hnull, if_neg hnull]
    cases values.json value with
    | none => exact ⟨fun h => (by cases h), fun ⟨_, h, _⟩ => (by cases h)⟩
    | some json =>
      rw [Option.map_some, Option.bind_some, Option.some.injEq]
      constructor
      · exact fun h => ⟨json, rfl, h.symm⟩
      · rintro ⟨json', hjson, hreread⟩
        cases hjson
        exact hreread.symm

variable {fields : List (String × Yaml)}

theorem field_optional_eq {α : Type} {convert kept : Yaml → Option α} {key : String} :
    field (optional convert) (some none) fields key = some ((fields.lookup key).bind kept) ↔
      ∀ v, fields.lookup key = some v → optional convert v = some (kept v) := by
  unfold field
  cases fields.lookup key with
  | none => exact ⟨fun _ v hv => (by cases hv), fun _ => rfl⟩
  | some value =>
    constructor
    · intro h v hv
      cases hv
      exact h
    · exact fun h => h value rfl

theorem field_bool_eq {key : String} :
    field Yaml.asBool (some false) fields key =
        some (((fields.lookup key).bind Yaml.asBool).getD false) ↔
      ∀ v, fields.lookup key = some v → v.asBool.isSome := by
  unfold field
  cases fields.lookup key with
  | none => exact ⟨fun _ v hv => (by cases hv), fun _ => rfl⟩
  | some value =>
    have hvalue : value.asBool = some (value.asBool.getD false) ↔ value.asBool.isSome := by
      cases value.asBool with
      | none => exact ⟨fun h => (by cases h), fun h => (by cases h)⟩
      | some b => exact ⟨fun _ => rfl, fun _ => rfl⟩
    refine Iff.trans hvalue ⟨fun h v hv => ?_, fun h => h value rfl⟩
    cases hv
    exact h

theorem readStepFields_eq_some {values : FromValue} {stepFields : StepFields} :
    readStepFields values fields = some stepFields ↔
      field (optional Yaml.asStr) (some none) fields "name" = some stepFields.name ∧
      field (optional Yaml.asStr) (some none) fields "description" =
        some stepFields.description ∧
      field values.dependsOn (some []) fields "depends_on" = some stepFields.dependsOn ∧
      field Yaml.asBool (some false) fields "continue_on_failure" =
        some stepFields.continueOnFailure ∧
      field (optional Yaml.humanDuration) (some none) fields "timeout" =
        some stepFields.timeout ∧
      field (optional Yaml.asStr) (some none) fields "when" = some stepFields.when ∧
      field (optional values.json) (some none) fields "for_each" = some stepFields.forEach ∧
      field Yaml.asBool (some false) fields "sequential" = some stepFields.sequential ∧
      field (optional values.retryConfig) (some none) fields "retry" =
        some stepFields.retry := by
  simp only [readStepFields, Option.bind_eq_bind, Option.bind_eq_some_iff, Option.pure_def,
    Option.some.injEq]
  constructor
  · rintro ⟨_, h₁, _, h₂, _, h₃, _, h₄, _, h₅, _, h₆, _, h₇, _, h₈, _, h₉, rfl⟩
    exact ⟨h₁, h₂, h₃, h₄, h₅, h₆, h₇, h₈, h₉⟩
  · rintro ⟨h₁, h₂, h₃, h₄, h₅, h₆, h₇, h₈, h₉⟩
    exact ⟨_, h₁, _, h₂, _, h₃, _, h₄, _, h₅, _, h₆, _, h₇, _, h₈, _, h₉, rfl⟩

/-! ## The two forms of one mapping -/

namespace StepKeys

theorem lookupKey_mapping (step : StepKeys) (key : String) :
    lookupKey key step.mapping = step.get key := by
  unfold lookupKey mapping get
  induction step.entries with
  | nil => rfl
  | cons entry entries ih =>
    rw [List.map_cons, List.find?_cons, List.lookup_cons, Yaml.isKey]
    by_cases hkey : entry.1 = key
    · subst hkey
      rw [beq_self_eq_true]
      rfl
    · rw [beq_eq_false_iff_ne.mpr hkey, beq_eq_false_iff_ne.mpr (Ne.symm hkey)]
      exact ih

theorem get_eq_none (step : StepKeys) {key : String} (hkey : key ∉ stepLevelKeys) :
    step.get key = none := by
  refine List.lookup_eq_none_iff.mpr fun entry hentry => ?_
  rw [bne_iff_ne]
  exact fun heq => hkey (heq ▸ step.known entry hentry)

theorem hasKey_mapping_eq_false (step : StepKeys) {key : String} (hkey : key ∉ stepLevelKeys) :
    hasKey key step.mapping = false := by
  rw [hasKey, mapping, List.any_map, List.any_eq_false]
  intro entry hentry hentryKey
  obtain rfl : entry.1 = key := eq_of_beq hentryKey
  exact hkey (step.known entry hentry)

theorem isStepField_of_mem (step : StepKeys) {entry : Yaml × Yaml}
    (h : entry ∈ step.mapping) : isStepField entry = true := by
  obtain ⟨field, hfield, rfl⟩ := List.mem_map.mp h
  have hkeys : ∀ key ∈ stepLevelKeys, stepFieldKeys.contains key = true := by decide
  exact hkeys field.1 (step.known field hfield)

theorem structFields_reference (step : StepKeys) (name : String) :
    structFields refStepKeys ((.string "action", .string name) :: step.mapping) =
      some (("action", .string name) :: step.entries) := by
  have hmap : (step.mapping.mapM fun entry => entry.1.asStr.map fun key => (key, entry.2)) =
      some step.entries := by
    unfold mapping
    induction step.entries with
    | nil => rfl
    | cons entry entries ih =>
      rw [List.map_cons, List.mapM_cons, ih]
      rfl
  have hnodup : (("action" :: step.entries.map Prod.fst).filter refStepKeys.contains).Nodup := by
    refine List.Nodup.filter _ (List.nodup_cons.mpr ⟨?_, step.nodup⟩)
    intro hmem
    obtain ⟨entry, hentry, haction⟩ := List.mem_map.mp hmem
    exact absurd (haction ▸ step.known entry hentry) (by decide)
  rw [structFields, List.mapM_cons, hmap]
  exact if_pos hnodup

theorem field_reference {α : Type} (step : StepKeys) (name key : String) (hkey : key ≠ "action")
    (convert : Yaml → Option α) (absent : Option α) :
    field convert absent (("action", .string name) :: step.entries) key =
      field convert absent step.entries key := by
  rw [field, List.lookup_cons, beq_eq_false_iff_ne.mpr hkey]
  rfl

theorem readStepFields_reference (values : FromValue) (step : StepKeys) (name : String) :
    readStepFields values (("action", .string name) :: step.entries) =
      readStepFields values step.entries := by
  unfold readStepFields
  simp (disch := decide) only [step.field_reference name]

theorem deserialize_reference (values : FromValue) (step : StepKeys) (name : String) :
    deserialize values (step.reference name) =
      orError "" ((readStepFields values step.entries).map fun stepFields =>
        { stepFields with action := name }) := by
  have haction : hasKey "action" ((.string "action", .string name) :: step.mapping) = true := rfl
  have htype : hasKey "type" ((.string "action", .string name) :: step.mapping) = false :=
    step.hasKey_mapping_eq_false (by decide)
  have hfield : ∀ {α : Type} (convert : Yaml → Option α) (absent : Option α) (key : String),
      key ≠ "action" → key ∉ stepLevelKeys →
      field convert absent (("action", .string name) :: step.entries) key = absent := by
    intro α convert absent key hne hkey
    have habsent : step.entries.lookup key = none := step.get_eq_none hkey
    rw [step.field_reference name key hne, field, habsent]
  have hstep : refStep values ((.string "action", .string name) :: step.mapping) =
      (readStepFields values step.entries).map fun stepFields =>
        { stepFields with action := name } := by
    rw [refStep, step.structFields_reference]
    simp (disch := decide) only [hfield, Option.bind_eq_bind, Option.bind_some, Option.pure_def,
      step.readStepFields_reference]
    cases readStepFields values step.entries <;> rfl
  unfold deserialize
  rw [reference, Yaml.untag_mapping]
  simp only [haction, htype, Bool.and_false, Bool.false_eq_true, if_false, if_true, hstep]

variable {values : FromValue}

theorem filter_isStepField (step : StepKeys) (action : InlineAction values) :
    (action.mapping ++ step.mapping).filter isStepField = step.mapping := by
  have haction : action.mapping.filter isStepField = [] :=
    List.filter_eq_nil_iff.mpr fun entry hentry => by simp [action.notStep entry hentry]
  rw [List.filter_append, haction, List.nil_append, List.filter_eq_self]
  exact fun entry => step.isStepField_of_mem

theorem filter_not_isStepField (step : StepKeys) (action : InlineAction values) :
    (action.mapping ++ step.mapping).filter (fun entry => !isStepField entry) =
      action.mapping := by
  have hstep : step.mapping.filter (fun entry => !isStepField entry) = [] :=
    List.filter_eq_nil_iff.mpr fun entry hentry => by simp [step.isStepField_of_mem hentry]
  rw [List.filter_append, hstep, List.append_nil, List.filter_eq_self]
  intro entry hentry
  rw [action.notStep entry hentry]
  rfl

theorem deserialize_inline (step : StepKeys) (action : InlineAction values) :
    deserialize values (step.inline action) =
      (orError "invalid depends_on: "
        (field values.dependsOn (some []) step.entries "depends_on")).map fun dependsOn =>
          { keepStepFields values dependsOn step.mapping with
            action := "", inlineAction := some action.action } := by
  have haction : hasKey "action" (action.mapping ++ step.mapping) = false := by
    rw [hasKey, List.any_append, Bool.or_eq_false_iff]
    exact ⟨action.notReference, step.hasKey_mapping_eq_false (by decide)⟩
  have htype : hasKey "type" (action.mapping ++ step.mapping) = true := by
    rw [hasKey, List.any_append, Bool.or_eq_true]
    exact .inl action.typed
  have hinput : rawInput step.mapping = ∅ := by
    rw [rawInput, step.lookupKey_mapping, step.get_eq_none (by decide)]
    rfl
  have hlegacy : lookupKey "continue_when_skipped" step.mapping = none :=
    (step.lookupKey_mapping _).trans (step.get_eq_none (by decide))
  have hinline : inlineStep values (action.mapping ++ step.mapping) =
      (orError "invalid depends_on: "
        (field values.dependsOn (some []) step.entries "depends_on")).map fun dependsOn =>
          { keepStepFields values dependsOn step.mapping with
            action := "", inlineAction := some action.action } := by
    unfold inlineStep
    have hpairs : pairs (∅ : Dict String Yaml) = [] := rfl
    have hparsed : orError "" (values.actionDef action.mapping) = .ok action.action := by
      rw [action.parses]
      rfl
    simp only [step.filter_isStepField, step.filter_not_isStepField, hinput, hpairs, splitInput,
      hlegacy, step.lookupKey_mapping, bind, Except.bind, List.isEmpty_nil, if_true, hparsed]
    rw [field, ← StepKeys.get]
    cases step.get "depends_on" with
    | none => rfl
    | some value => cases values.dependsOn value <;> rfl
  unfold deserialize
  rw [inline, Yaml.untag_mapping]
  simp only [haction, htype, Bool.false_and, Bool.false_eq_true, if_false, if_true, hinline]

theorem dependsOn_malformed_iff (step : StepKeys) :
    field values.dependsOn (some []) step.entries "depends_on" = none ↔
      ∃ v, step.get "depends_on" = some v ∧ values.dependsOn v = none := by
  rw [field, ← StepKeys.get]
  cases step.get "depends_on" with
  | none => exact ⟨fun h => (by cases h), fun ⟨_, h, _⟩ => (by cases h)⟩
  | some value =>
    constructor
    · exact fun hnone => ⟨value, rfl, hnone⟩
    · rintro ⟨v, hv, hnone⟩
      cases hv
      exact hnone

end StepKeys

theorem readStepFields_eq_keep {values : FromValue} {step : StepKeys}
    {dependsOn : List DependsOnEntry}
    (hdeps : field values.dependsOn (some []) step.entries "depends_on" = some dependsOn) :
    readStepFields values step.entries = some (keepStepFields values dependsOn step.mapping) ↔
      WellTyped values step := by
  rw [readStepFields_eq_some, keepStepFields]
  simp only [step.lookupKey_mapping, StepKeys.get]
  simp only [field_optional_eq, field_bool_eq, optional_eq_kept, optional_eq_keptJson]
  constructor
  · rintro ⟨hname, hdescription, -, hfailure, htimeout, hwhen, hforEach, hsequential, hretry⟩
    exact ⟨hname, hdescription, hfailure, htimeout, hwhen, hforEach, hsequential, hretry⟩
  · rintro ⟨hname, hdescription, hfailure, htimeout, hwhen, hforEach, hsequential, hretry⟩
    exact ⟨hname, hdescription, hdeps, hfailure, htimeout, hwhen, hforEach, hsequential, hretry⟩

/-- The two forms of a mapping parse alike exactly when its dependencies are malformed or every
other field has its type. -/
theorem forms_alike_iff (values : FromValue) (name : String) (action : InlineAction values)
    (step : StepKeys) :
    Alike (deserialize values (step.reference name)) (deserialize values (step.inline action)) ↔
      (∃ v, step.get "depends_on" = some v ∧ values.dependsOn v = none) ∨
        WellTyped values step := by
  rw [step.deserialize_reference, step.deserialize_inline, ← step.dependsOn_malformed_iff]
  cases hdeps : field values.dependsOn (some []) step.entries "depends_on" with
  | none =>
    have hnone : readStepFields values step.entries = none := by
      rw [Option.eq_none_iff_forall_ne_some]
      intro stepFields hsome
      have h := (readStepFields_eq_some.mp hsome).2.2.1
      rw [hdeps] at h
      cases h
    rw [hnone]
    exact ⟨fun _ => .inl rfl, fun _ => trivial⟩
  | some dependsOn =>
    rw [← readStepFields_eq_keep hdeps, or_iff_right (by simp)]
    cases readStepFields values step.entries with
    | none => exact ⟨False.elim, fun h => (by cases h)⟩
    | some stepFields => exact Option.some_inj.symm

/-! ## A condition that is not a text -/

def plainValues : FromValue where
  dependsOn
    | .null => some []
    | .sequence items => items.mapM fun item => item.asStr.map .name
    | _ => none
  retryConfig
    | .mapping [] => some {}
    | _ => none
  json
    | .null => some .null
    | .bool b => some (.bool b)
    | .string s => some (.str s)
    | _ => none
  jsonMap
    | .mapping [] => some ∅
    | _ => none
  inputFieldDef _ := none
  actionDef mapping :=
    ((lookupKey "type" mapping).bind Yaml.asStr).map fun actionType => { actionType }
  reread := some

def switchedOff : StepKeys where
  entries := [("when", .bool false)]
  known := by decide
  nodup := by decide

def scriptAction : InlineAction plainValues where
  mapping := [(.string "type", .string "script"), (.string "script", .string "./deploy.sh")]
  action := { actionType := "script" }
  parses := rfl
  typed := rfl
  notReference := rfl
  notStep := by decide

/-- The reference form rejects the step; the inline form runs it always. -/
theorem condition_dropped :
    ¬Alike (deserialize plainValues (switchedOff.reference "deploy"))
      (deserialize plainValues (switchedOff.inline scriptAction)) := by
  have hreference : deserialize plainValues (switchedOff.reference "deploy") =
      .error (.value "") := rfl
  obtain ⟨step, hinline⟩ : ∃ step,
      deserialize plainValues (switchedOff.inline scriptAction) = .ok step := ⟨_, rfl⟩
  rw [hreference, hinline]
  exact id

end Stroem.Config
